import Interop.Proofs.Header.Lexemes

namespace Interop.Header.Token

open Lexeme

variable {expand : String → Option (Except SyntaxError (List Token))} {kind : TokenKind}
    {a b cs text rest : List Char}
  {tokens tokens' : List Token} {stop stop' : Char → Prop} {c : Char}

/-- An identifier of a text's first line. -/
def word (text : String) : Token :=
  ⟨.identifier, text, 1⟩

/-- A mark of a text's first line. -/
def mark (text : String) : Token :=
  ⟨.mark, text, 1⟩

@[simp]
theorem word_text (text : String) : (word text).text = text := rfl

@[simp]
theorem word_kind (text : String) : (word text).kind = .identifier := rfl

@[simp]
theorem word_line (text : String) : (word text).line = 1 := rfl

@[simp]
theorem mark_text (text : String) : (mark text).text = text := rfl

@[simp]
theorem mark_kind (text : String) : (mark text).kind = .mark := rfl

@[simp]
theorem mark_line (text : String) : (mark text).line = 1 := rfl

/-- Whether a piece of the first line of a text is read as the given tokens, if `stop` holds of the
character behind it. -/
def Lexes (text : List Char) (tokens : List Token) (stop : Char → Prop) : Prop :=
  ∀ rest, (∀ c ∈ rest.head?, stop c) → ofText (text ++ rest) = (tokens ++ ·) <$> ofText rest

/-- Whether a piece of text begins with a character of which `stop` holds. -/
def Begins (stop : Char → Prop) (text : List Char) : Prop :=
  ∃ c, text.head? = some c ∧ stop c

theorem begins_cons {tail : List Char} : Begins stop (c :: tail) ↔ stop c :=
  ⟨fun ⟨_, hc, h⟩ => Option.some.inj hc ▸ h, fun h => ⟨c, rfl, h⟩⟩

/-- How a text begins does not depend on what follows it, unless it is empty. -/
theorem Begins.append (h : Begins stop a) (b : List Char) : Begins stop (a ++ b) := by
  obtain ⟨c, hc, hstop⟩ := h
  exact ⟨c, by rw [List.head?_append, hc]; rfl, hstop⟩

/-- How a text begins may be said more weakly. -/
theorem Begins.mono (h : Begins stop text) (hstop : ∀ c, stop c → stop' c) : Begins stop' text := by
  obtain ⟨c, hc, hcstop⟩ := h
  exact ⟨c, hc, hstop c hcstop⟩

/-- Names begin as names. -/
theorem begins_of_isName {name : String} (h : isName name.toList = true) :
    Begins (Directive.isNameStart · = true) name.toList := by
  obtain ⟨c, tail, hname, hstart, -⟩ := exists_of_isName h
  exact ⟨c, by rw [hname]; rfl, hstart⟩

section Scan

-- opening a scan must not compute what the text begins with
attribute [local irreducible] Lexeme.first?

/-- A scan goes on behind the lexeme that its text begins with. -/
theorem scan_cons (expand : String → Option (Except SyntaxError (List Token))) (line : Nat)
    (c : Char) (cs : List Char) :
    scan expand 0 line (c :: cs) =
      match first? (c :: cs) with
      | none => if occursIn cs then .error ⟨line, .unexpectedCharacter c⟩ else .ok []
      | some (.gap, n) => scan expand (n - 1) (if c = '\n' then line + 1 else line) cs
      | some (.token kind, n) => do
        let tokens ← expanded expand ⟨kind, String.ofList ((c :: cs).take n), line⟩
        let rest ← scan expand (n - 1) line cs
        return tokens ++ rest :=
  rfl

/-- What is left of a lexeme within a line is passed over. -/
theorem scan_pending {line : Nat} (hline : '\n' ∉ text) (rest : List Char) :
    scan expand text.length line (text ++ rest) = scan expand 0 line rest := by
  induction text with
  | nil => rfl
  | cons c tail ih =>
    rw [List.mem_cons, not_or] at hline
    have hstep : scan expand (c :: tail).length line (c :: tail ++ rest) =
        scan expand tail.length (if c = '\n' then line + 1 else line) (tail ++ rest) := rfl
    rw [hstep, if_neg (Ne.symm hline.1)]
    exact ih hline.2

/-- A lexeme that stands in front of a text becomes its first token. It may not have line breaks,
which would move the lines of the others. -/
theorem ofText_token (hfirst : first? (text ++ rest) = some (.token kind, text.length))
    (hne : text ≠ []) (hline : '\n' ∉ text) :
    ofText (text ++ rest) = ([⟨kind, String.ofList text, 1⟩] ++ ·) <$> ofText rest := by
  cases text with
  | nil => exact absurd rfl hne
  | cons c tail =>
    have hexpanded : expanded (fun _ => none) ⟨kind, String.ofList (c :: tail), 1⟩ =
        .ok [⟨kind, String.ofList (c :: tail), 1⟩] := by
      cases kind <;> rfl
    have htake : (c :: (tail ++ rest)).take (c :: tail).length = c :: tail := List.take_left
    have hrest : scan (fun _ => none) ((c :: tail).length - 1) 1 (tail ++ rest) = ofText rest :=
      scan_pending (fun hmem => hline (List.mem_cons_of_mem c hmem)) rest
    rw [List.cons_append] at hfirst ⊢
    rw [ofText, scan_cons, hfirst]
    simp only [htake, hexpanded, hrest]
    cases ofText rest <;> rfl

/-- A blank is passed over. -/
theorem ofText_blank (h : ∀ c ∈ text.head?, Text.isBlank c = false) :
    ofText (' ' :: text) = ofText text := by
  have hblanks : blanks? (' ' :: text) = some 1 := by
    have hrun : text.takeWhile Text.isBlank = [] := takeWhile_of_head h
    rw [blanks?, runLength, List.takeWhile_cons, hrun]
    rfl
  have hfirst : first? (' ' :: text) = some (.gap, 1) := by
    unfold first?
    rw [hblanks]
    rfl
  rw [ofText, scan_cons, hfirst]
  rfl

end Scan

/-- Fewer texts may follow than have been allowed. -/
theorem Lexes.mono (h : Lexes text tokens stop) (hstop : ∀ c, stop' c → stop c) :
    Lexes text tokens stop' :=
  fun rest hrest => h rest fun c hc => hstop c (hrest c hc)

/-- Texts that become tokens become them behind one another, if the second one may follow the
first. -/
theorem Lexes.append (ha : Lexes a tokens stop) (hb : Lexes b tokens' stop')
    (hbegins : Begins stop b) :
    Lexes (a ++ b) (tokens ++ tokens') stop' := by
  intro rest hrest
  obtain ⟨c, hc, hstop⟩ := hbegins
  rw [List.append_assoc, ha, hb rest hrest]
  · cases ofText rest with
    | error e => rfl
    | ok ts => exact congrArg Except.ok (List.append_assoc tokens tokens' ts).symm
  · intro d hd
    rw [List.head?_append, hc] at hd
    exact Option.some.inj hd ▸ hstop

/-- The characters that may stand behind a name, a literal or a type. -/
def breaks : List Char :=
  [' ', '\n', ',', ';', '(', ')', '>', '*', '\x7d']

/-- Behind a break no name, number or string goes on. -/
theorem breaks_apart (h : c ∈ breaks) :
    (Directive.isNameChar c = false ∧ c ≠ '"') ∧ isNumberPart c = false ∧
      ∀ d ∈ ['&', '*', '>'], joins d c = false := by
  have hall : (breaks.all fun c => (!Directive.isNameChar c && c != '"') &&
      (!isNumberPart c && ['&', '*', '>'].all fun d => !joins d c)) = true := by
    decide
  have hthis := List.all_eq_true.mp hall c h
  rw [Bool.and_eq_true, Bool.and_eq_true, Bool.and_eq_true, List.all_eq_true] at hthis
  simpa only [Bool.not_eq_true', bne_iff_ne] using hthis

/-- Whether a piece of a line is read as the given tokens, and begins with a character of which
`first` holds. -/
structure Reads (text : String) (tokens : List Token) (first stop : Char → Prop) : Prop where
  lexes : Lexes text.toList tokens stop
  begins : Begins first text.toList
  inLine : '\n' ∉ text.toList

namespace Reads

variable {text text' : String} {first first' : Char → Prop}

/-- Texts may be put together if the first one ends where the second one begins. -/
theorem append (h : Reads text tokens first stop) (h' : Reads text' tokens' first' stop')
    (hnext : ∀ c, first' c → stop c) : Reads (text ++ text') (tokens ++ tokens') first stop' where
  lexes := by
    rw [String.toList_append]
    exact h.lexes.append h'.lexes (h'.begins.mono hnext)
  begins := by
    rw [String.toList_append]
    exact h.begins.append _
  inLine := by
    rw [String.toList_append, List.mem_append, not_or]
    exact ⟨h.inLine, h'.inLine⟩

/-- A text begins as it did, and ends in front of fewer texts. -/
theorem mono (h : Reads text tokens first stop) (hfirst : ∀ c, first c → first' c)
    (hstop : ∀ c, stop' c → stop c) :
    Reads text tokens first' stop' :=
  ⟨h.lexes.mono hstop, h.begins.mono hfirst, h.inLine⟩

/-- What is read as one token of its kind wherever it stands. -/
theorem single (hfirst : ∀ rest, (∀ c ∈ rest.head?, stop c) →
      first? (text.toList ++ rest) = some (.token kind, text.toList.length))
    (hbegins : Begins first text.toList) (hline : '\n' ∉ text.toList) :
    Reads text [⟨kind, text, 1⟩] first stop where
  lexes := by
    intro rest hrest
    obtain ⟨c, hc, -⟩ := hbegins
    have hne : text.toList ≠ [] := fun hnil => by
      rw [hnil] at hc
      cases hc
    rw [ofText_token (hfirst rest hrest) hne hline, String.ofList_toList]
  begins := hbegins
  inLine := hline

/-- A name is one word if no further character of a name follows. -/
theorem word {name : String} (h : isName name.toList = true) :
    Reads name [word name] (Directive.isNameStart · = true) fun c => Directive.isNameChar c =
      false ∧ c ≠ '"' :=
  .single (fun _ => first?_of_isName h) (begins_of_isName h) fun hmem => by
    have := isNameChar_of_isName h hmem
    simp [Directive.isNameChar] at this

/-- A literal does not begin with a blank. -/
theorem literal (h : literal? kind text.toList = some text.toList.length) :
    Reads text [⟨kind, text, 1⟩] (Text.isBlank · = false) (isNumberPart · = false) := by
  refine .single (fun _ => first?_of_literal h) ?_ (newline_notMem_literal h)
  have hfirst := first?_of_literal h (by simp : ∀ c ∈ ([] : List Char).head?,
    isNumberPart c = false)
  rw [List.append_nil] at hfirst
  cases htext : text.toList with
  | nil =>
    rw [htext] at h
    cases kind <;> cases h
  | cons c tail =>
    rw [htext] at hfirst
    refine begins_cons.mpr ?_
    by_contra hblank
    have hblanks : blanks? (c :: tail) = some (runLength Text.isBlank tail + 1) := by
      rw [blanks?, runLength, List.takeWhile_cons, if_pos (by simpa using hblank)]
      rfl
    rw [first?, hblanks] at hfirst
    cases hfirst

/-- A plain mark is one token if it does not join with what follows. -/
theorem mark {c : Char} (h : c ∈ plainMarks) (hmark : text.toList = [c]) :
    Reads text [Token.mark text] (· = c) (joins c · = false) := by
  refine .single (fun rest hrest => ?_) ⟨c, by rw [hmark]; rfl, rfl⟩ fun hmem => ?_
  · rw [hmark]
    exact first?_of_mark h hrest
  · have hall : '\n' ∉ plainMarks := by decide
    rw [hmark] at hmem
    exact hall (List.mem_singleton.mp hmem ▸ h)

/-- A mark that begins no longer mark. -/
theorem lone {c : Char} (h : c ∈ plainMarks) (hlone : ∀ m ∈ longMarks, m.head? ≠ some c)
    (hmark : text.toList = [c]) :
    Reads text [Token.mark text] (· = c) fun _ => True :=
  (mark h hmark).mono (fun _ hc => hc) fun d _ => joins_of_lone hlone d

theorem colons : Reads "::" [Token.mark "::"] (· = ':') fun _ => True :=
  .single (fun rest _ => first?_colons rest) (begins_cons.mpr rfl) (by decide)

theorem ampersands : Reads "&&" [Token.mark "&&"] (· = '&') fun _ => True :=
  .single (fun rest _ => first?_ampersands rest) (begins_cons.mpr rfl) (by decide)

theorem blank : Reads " " [] (· = ' ') (Text.isBlank · = false) where
  lexes := by
    intro rest hrest
    have hblank : " ".toList = [' '] := rfl
    rw [hblank, List.singleton_append, ofText_blank hrest]
    cases ofText rest <;> rfl
  begins := begins_cons.mpr rfl
  inLine := by decide

/-- A blank in front changes no tokens. -/
theorem behindBlank (h : Reads text tokens first stop)
    (hfirst : ∀ c, first c → Text.isBlank c = false) :
    Reads (" " ++ text) tokens (· = ' ') stop :=
  blank.append h hfirst

/-- A blank between two pieces. -/
theorem spaced (h : Reads text tokens first stop) (h' : Reads text' tokens' first' stop')
    (hstop : stop ' ') (hnext : ∀ c, first' c → Text.isBlank c = false) :
    Reads (text ++ " " ++ text') (tokens ++ tokens') first stop' := by
  rw [String.append_assoc]
  exact h.append (h'.behindBlank hnext) fun c hc => hc ▸ hstop

/-- A word with a blank behind it. -/
theorem wordBlank {name : String} (h : isName name.toList = true) :
    Reads (name ++ " ") [Token.word name] (Directive.isNameStart · = true) (Text.isBlank · =
      false) := by
  have hall := (word h).append blank fun c hc => by
    rw [hc]
    decide
  rwa [List.append_nil] at hall

/-- A word in front of a piece, if it is set. -/
theorem prefixed {name : String} (hname : isName name.toList = true) (isSet : Bool)
    (h : Reads text tokens first stop) (hstart : ∀ c, Directive.isNameStart c = true → first c)
    (hfirst : ∀ c, first c → Text.isBlank c = false) :
    Reads ((if isSet then name ++ " " else "") ++ text)
      ((if isSet then [Token.word name] else []) ++ tokens) first
      stop := by
  cases isSet with
  | false => simpa using h
  | true => exact ((wordBlank hname).append h hfirst).mono hstart fun _ hc => hc

/-- Words with the same separator between them. -/
theorem intercalated {separator : String} {between : List Token} {start : Char → Prop}
    (hseparator : Reads separator between start (Directive.isNameStart · = true)) {α : Type}
    {head : α} {rest : List α} {textOf : α → String} {tokensOf : α → List Token}
    (hnext : ∀ c, start c → stop c)
    (h : ∀ piece ∈ head :: rest,
      Reads (textOf piece) (tokensOf piece) (Directive.isNameStart · = true) stop) :
    Reads (separator.intercalate ((head :: rest).map textOf))
      (between.intercalate ((head :: rest).map tokensOf))
      (Directive.isNameStart · = true) stop := by
  induction rest generalizing head with
  | nil => simpa using h head
  | cons next rest ih =>
    have htail := hseparator.append (ih fun piece hmem => h piece (List.mem_cons_of_mem _ hmem))
      fun _ hc => hc
    have hall := (h head List.mem_cons_self).append htail hnext
    simpa only [List.map_cons, String.intercalate_cons_cons, List.intercalate_cons_cons,
      List.append_assoc, String.append_assoc] using hall

/-- Pieces with commas between them. -/
theorem separated {α : Type} {head : α} {rest : List α} {textOf : α → String}
    {tokensOf : α → List Token}
    (h : ∀ piece ∈ head :: rest,
      Reads (textOf piece) (tokensOf piece) (Directive.isNameStart · = true) (· ∈ breaks)) :
    Reads (", ".intercalate ((head :: rest).map textOf))
      ([Token.mark ","].intercalate ((head :: rest).map tokensOf))
      (Directive.isNameStart · = true) (· ∈ breaks) := by
  have hcomma : Reads "," [Token.mark ","] (· = ',') fun _ => True :=
    .lone (by decide) (by decide) rfl
  have hseparator : Reads ("," ++ " ") [Token.mark ","] (· = ',') (Text.isBlank · = false) :=
    hcomma.append blank fun _ _ => trivial
  exact intercalated (hseparator.mono (fun _ hc => hc) fun c hc => (isNameStart_apart hc).1)
    (fun c hc => by rw [hc]; decide) h

/-- A list with commas and what closes it. -/
theorem listed {α : Type} {head : α} {rest : List α} {textOf : α → String}
    {tokensOf : α → List Token} {closing : String} {c : Char}
    (hclosing : Reads closing tokens (· = c) stop) (hc : c ∈ breaks)
    (h : ∀ piece ∈ head :: rest,
      Reads (textOf piece) (tokensOf piece) (Directive.isNameStart · = true) (· ∈ breaks)) :
    Reads (", ".intercalate ((head :: rest).map textOf) ++ closing)
      ([Token.mark ","].intercalate ((head :: rest).map tokensOf) ++ tokens)
          (Directive.isNameStart · = true) stop :=
  (separated h).append hclosing fun _ hd => hd ▸ hc

/-- A list that may be empty, and what closes it. -/
theorem list {α : Type} {pieces : List α} {textOf : α → String} {tokensOf : α → List Token}
    {closing : String} {c : Char} (hclosing : Reads closing tokens (· = c) stop) (hc : c ∈ breaks)
    (h : ∀ piece ∈ pieces, Reads (textOf piece) (tokensOf piece) (Directive.isNameStart · = true)
      (· ∈ breaks)) :
    Reads (", ".intercalate (pieces.map textOf) ++ closing)
      ([Token.mark ","].intercalate (pieces.map tokensOf) ++ tokens)
      (fun d => Directive.isNameStart d = true ∨ d = c) stop := by
  cases pieces with
  | nil => simpa using hclosing.mono (fun _ hd => .inr hd) fun _ hd => hd
  | cons piece rest => exact (listed hclosing hc h).mono (fun _ hd => .inl hd) fun _ hd => hd

end Reads

end Interop.Header.Token
