import Interop.Proofs.Header.Grammar

namespace Interop.Header

open Token

variable {free : String → Bool} {text : String} {tokens : List Token} {first stop : Char → Prop}

namespace Value

/-- A value is read back in front of all breaks. -/
theorem reads (v : Value) : Reads v.text v.tokens (Text.isBlank · = false) (· ∈ breaks) := by
  cases v with
  | literal l => exact (Reads.literal l.isLiteral).mono (fun _ hc => hc) fun c hc =>
    (breaks_apart hc).2.1
  | name isRooted n =>
    have hname := n.reads.mono (fun _ hc => hc) fun _ => EndsName.of_break
    cases isRooted with
    | false => simpa [text, tokens] using hname.mono (fun c hc =>
      (Lexeme.isNameStart_apart hc).1) fun _ hc => hc
    | true =>
      refine (Reads.colons.append hname fun _ _ => trivial).mono (fun c hc => ?_) fun _ hc => hc
      rw [hc]
      decide

end Value

namespace Token.Reads

/-- An initializer behind a piece. -/
theorem initialized (h : Reads text tokens first (· ∈ breaks)) (value? : Option Value) :
    Reads (text ++ Value.initializerText value?) (tokens ++
      Value.initializerTokens value?) first (· ∈ breaks) := by
  cases value? with
  | none => simpa [Value.initializerText, Value.initializerTokens] using h
  | some v =>
    have hequals : Reads "=" [.mark "="] (· = '=') (Lexeme.joins '=' · = false) :=
      .mark (by decide) rfl
    have hall := (h.spaced hequals (by decide) fun c hc => by rw [hc]; decide).spaced v.reads
      (by decide)
      fun _ hc => hc
    simpa [Value.initializerText, Value.initializerTokens, String.append_assoc] using hall

/-- A name behind a type. -/
theorem named (h : Reads text tokens first (· ∈ breaks)) (name? : Option (Name free)) :
    Reads (text ++ name?.elim "" fun name => " " ++ name.text) (tokens ++ name?.elim [] fun name =>
      [Token.word name.text]) first
      (· ∈ breaks) := by
  cases name? with
  | none => simpa using h
  | some name =>
    have hall := h.spaced name.reads (by decide) fun c hc => (Lexeme.isNameStart_apart hc).1
    simpa [String.append_assoc] using hall.mono (fun _ hc => hc) fun _ => EndsName.of_break

end Token.Reads

theorem reads_semicolon : Reads ";" [.mark ";"] (· = ';') fun _ => True :=
  .lone (by decide) (by decide) rfl

theorem reads_openingBrace : Reads " \x7b" [.mark "\x7b"] (· = ' ') fun _ => True :=
  (Reads.lone (by decide) (by decide) rfl : Reads "\x7b" _ (· = '\x7b') _).behindBlank
      fun c hc => by
    rw [hc]
    decide

theorem reads_closingBrace : Reads "\x7d" [.mark "\x7d"] (· = '\x7d') fun _ => True :=
  .lone (by decide) (by decide) rfl

/-- The end of an enum or of a class. -/
theorem reads_end : Reads "\x7d;" [.mark "\x7d", .mark ";"] (· = '\x7d') fun _ => True :=
  reads_closingBrace.append reads_semicolon fun _ _ => trivial

/-- A colon between blanks, in front of a piece. -/
theorem Token.Reads.behindColon (h : Reads text tokens (Directive.isNameStart · = true) stop) :
    Reads (" : " ++ text) (.mark ":" :: tokens) (· = ' ') stop := by
  have hcolon : Reads ":" [.mark ":"] (· = ':') (Lexeme.joins ':' · = false) :=
    .mark (by decide) rfl
  have hall := (hcolon.spaced h (by decide) fun c hc =>
      (Lexeme.isNameStart_apart hc).1).behindBlank fun c hc => by
    rw [hc]
    decide
  simpa [← String.append_assoc] using hall

/-- Whether a declaration may begin with a character. -/
def Opens (c : Char) : Prop :=
  Directive.isNameStart c = true ∨ c = '~'

theorem Opens.apart {c : Char} (h : Opens c) : Text.isBlank c = false ∧ c ≠ '#' := by
  rcases h with h | rfl
  · refine ⟨(Lexeme.isNameStart_apart h).1, ?_⟩
    rintro rfl
    cases h
  · decide

theorem Token.Reads.opens (h : Reads text tokens (Directive.isNameStart · = true) stop) :
    Reads text tokens Opens stop :=
  h.mono (fun _ => .inl) fun _ hc => hc

theorem CoreParameter.reads (p : CoreParameter) :
    Reads p.spelling p.tokens (Directive.isNameStart · = true) (· ∈ breaks) :=
  (p.type.reads.named p.name?).initialized p.default?

/-- A parameter list is read as its tokens. -/
theorem CoreParameter.reads_list (ps : List CoreParameter) :
    Reads (spellings ps) (tokenList ps) (· = '(') fun _ => True := by
  have hopening : Reads "(" [.mark "("] (· = '(') fun _ => True := .lone (by decide) (by decide) rfl
  have hclosing : Reads ")" [.mark ")"] (· = ')') fun _ => True := .lone (by decide) (by decide) rfl
  have hlist := Reads.list hclosing (by decide) fun p (_ : p ∈ ps) => p.reads
  simpa [spellings, tokenList, String.append_assoc] using hopening.append hlist fun _ _ => trivial

namespace FunctionMarks

/-- What stands in front of a function is read back if the function is. -/
theorem reads_before (m : FunctionMarks) (h : Reads text tokens Opens stop) :
    Reads (m.before ++ text) (m.tokensBefore ++ tokens) Opens stop := by
  have hvirtual := h.prefixed (show Lexeme.isName "virtual".toList = true by decide) m.isVirtual
    (fun _ => .inl)
    fun _ hc => hc.apart.1
  have hall := hvirtual.prefixed (show Lexeme.isName "static".toList = true by decide) m.isStatic
    (fun _ => .inl)
    fun _ hc => hc.apart.1
  simpa [before, tokensBefore, String.append_assoc] using hall

/-- What stands behind a function is read back, whatever follows it. -/
theorem reads_behind (m : FunctionMarks) :
    Reads m.behind m.tokensBehind (· ∈ breaks) fun _ => True := by
  have hpure : Reads ((if m.isPure then " = 0" else "") ++ ";")
      ((if m.isPure then [Token.mark "=", ⟨.number, "0", 1⟩] else []) ++ [Token.mark ";"]) (· ∈
          breaks) fun _ => True := by
    cases m.isPure with
    | false => exact reads_semicolon.mono (fun c hc => by rw [hc]; decide) fun _ hc => hc
    | true =>
      have hequals : Reads "=" [.mark "="] (· = '=') (Lexeme.joins '=' · = false) :=
        .mark (by decide) rfl
      have hzero : Reads "0" [⟨.number, "0", 1⟩] (· = '0') (Lexeme.isNumberPart · = false) :=
        ⟨(Reads.literal (by decide)).lexes, begins_cons.mpr rfl, by decide⟩
      have hvalue := hequals.spaced hzero (by decide) fun c hc => by rw [hc]; decide
      have hall := hvalue.append reads_semicolon fun c hc => by rw [hc]; decide
      exact (hall.behindBlank fun c hc => by rw [hc]; decide).mono (fun c hc =>
        by rw [hc]; decide) fun _ hc => hc
  have hconst : Reads ((if m.isConst then " const" else "") ++
      ((if m.isPure then " = 0" else "") ++ ";"))
      ((if m.isConst then [Token.word "const"] else []) ++
        ((if m.isPure then [Token.mark "=", ⟨.number, "0", 1⟩] else []) ++ [Token.mark ";"])) (· ∈
            breaks) fun _ => True := by
    cases m.isConst with
    | false => simpa using hpure
    | true =>
      have hword : Reads (" " ++ "const") [.word "const"] (· = ' ') _ :=
        (Reads.word (by decide)).behindBlank fun c hc => (Lexeme.isNameStart_apart hc).1
      exact (hword.append hpure fun _ => EndsName.of_break).mono (fun c hc =>
        by rw [hc]; decide) fun _ hc => hc
  rw [behind, tokensBehind, String.append_assoc, List.append_assoc]
  exact hconst

end FunctionMarks

theorem CoreEnumerator.reads (e : CoreEnumerator) :
    Reads e.spelling e.tokens (Directive.isNameStart · = true) (· ∈ breaks) :=
  (e.name.reads.mono (fun _ hc => hc) fun _ => EndsName.of_break).initialized e.value?

/-- A declaration that holds no further declarations is read as its tokens. -/
theorem SimpleDeclaration.reads (d : SimpleDeclaration) :
    Reads d.spelling d.tokens Opens fun _ => True := by
  match d with
  | .variable isStatic type name value? =>
    have hall := ((type.reads.named (some name)).initialized value?).append reads_semicolon
        fun c hc => by
      rw [hc]
      decide
    simpa [spelling, tokens, String.append_assoc] using
      hall.opens.prefixed (show Lexeme.isName "static".toList = true by decide) isStatic (fun _ =>
        .inl) fun _ hc => hc.apart.1
  | .function marks result name parameters =>
    have hmarks := (CoreParameter.reads_list parameters).append marks.reads_behind fun _ _ =>
      trivial
    have hname := name.reads.append hmarks fun c hc => by
      rw [hc]
      decide
    have hall := result.reads.spaced hname (by decide) fun c hc => (Lexeme.isNameStart_apart hc).1
    simpa [spelling, tokens, String.append_assoc] using marks.reads_before hall.opens
  | .enumeration isScoped name underlying? enumerators =>
    have hlist := Reads.list reads_end (by decide) fun e (_ : e ∈ enumerators) => e.reads
    have hbody := reads_openingBrace.append hlist fun _ _ => trivial
    have htype : Reads (underlying?.elim "" (fun kind => " : " ++ kind.spelling) ++ (" \x7b" ++
        (", ".intercalate (enumerators.map CoreEnumerator.spelling) ++ "\x7d;")))
          (underlying?.elim []
          (fun kind => .mark ":" :: builtinTokens kind) ++ ([Token.mark "\x7b"] ++
            ([Token.mark ","].intercalate (enumerators.map CoreEnumerator.tokens) ++
              [Token.mark "\x7d", .mark ";"])))
        (· = ' ') fun _ => True := by
      cases underlying? with
      | none => simpa using hbody
      | some kind =>
        have hall := ((reads_builtin kind).append hbody fun c hc =>
          .inl (by rw [hc]; decide)).behindColon
        simpa [String.append_assoc] using hall
    have hname := name.reads.append htype fun c hc => by
      rw [hc]
      decide
    have hscope := hname.prefixed (show Lexeme.isName "class".toList = true by decide) isScoped
      (fun _ hc => hc)
      fun c hc => (Lexeme.isNameStart_apart hc).1
    have hall := (Reads.wordBlank (show Lexeme.isName "enum".toList = true by decide)).append hscope
      fun c hc => (Lexeme.isNameStart_apart hc).1
    simpa [spelling, tokens, String.append_assoc] using hall.opens

theorem CoreBase.reads (b : CoreBase) :
    Reads b.spelling b.tokens (Directive.isNameStart · = true) EndsQualified := by
  cases haccess : b.access? with
  | none => simpa [spelling, tokens, haccess] using b.type.reads
  | some access =>
    have hall := (Reads.wordBlank (show Lexeme.isName access.word.toList =
      true by cases access <;> decide)).append
      b.type.reads fun c hc => (Lexeme.isNameStart_apart hc).1
    simpa [spelling, tokens, haccess] using hall

/-- A class is read as its tokens, up to its members. -/
theorem ClassHead.reads (h : ClassHead) :
    Reads h.spelling h.tokens Opens fun _ => True := by
  have hbases : Reads ((if h.bases.isEmpty then ""
      else " : " ++ ", ".intercalate (h.bases.map (·.spelling))) ++ " \x7b")
      ((if h.bases.isEmpty then [] else .mark ":" :: [Token.mark ","].intercalate
        (h.bases.map (·.tokens))) ++ [Token.mark "\x7b"]) (· = ' ') fun _ => True := by
    cases hbases : h.bases with
    | nil => simpa using reads_openingBrace
    | cons base rest =>
      have hlist := Reads.listed (reads_openingBrace) (by decide) fun b (_ : b ∈ base :: rest) =>
        b.reads.mono (fun _ hc => hc) fun _ => .inl
      simpa [String.append_assoc] using hlist.behindColon
  have hname := h.name.reads.append hbases fun c hc => by
    rw [hc]
    decide
  have hkeyword : Lexeme.isName h.keyword.toList = true := by
    unfold keyword
    split <;> decide
  have hall := (Reads.wordBlank hkeyword).append hname fun c hc => (Lexeme.isNameStart_apart hc).1
  simpa [spelling, tokens, String.append_assoc] using hall.opens

/-- What ends a class or a namespace, behind a blank. -/
theorem reads_endBehindBlank : Reads " \x7d;" [.mark "\x7d", .mark ";"] (· = ' ') fun _ => True :=
  reads_end.behindBlank fun c hc => by
    rw [hc]
    decide

mutual

/-- A declaration in a class is read as its tokens. -/
theorem CoreMember.reads (inClass : Identifier) : (m : CoreMember) →
    Reads (m.spelling inClass.text) (m.tokens inClass.text) Opens (· = ' ')
  | .simple d => d.reads.mono (fun _ hc => hc) fun _ _ => trivial
  | .label access => by
    have hcolon : Reads ":" [.mark ":"] (· = ':') (Lexeme.joins ':' · = false) :=
      .mark (by decide) rfl
    have hword : Reads access.word [.word access.word] (Directive.isNameStart · = true) EndsName :=
      .word (by cases access <;> decide)
    exact (hword.append hcolon fun c hc => by rw [hc]; decide).mono (fun _ => .inl) fun c hc => by
      rw [hc]
      decide
  | .constructor marks parameters => by
    have hmarks := (CoreParameter.reads_list parameters).append marks.reads_behind fun _ _ =>
      trivial
    have hall := inClass.reads.append hmarks fun c hc => by
      rw [hc]
      decide
    simpa [CoreMember.spelling, CoreMember.tokens, String.append_assoc] using
      (marks.reads_before hall.opens).mono (fun _ hc => hc) fun _ _ => trivial
  | .destructor marks name => by
    have htilde : Reads "~" [.mark "~"] (· = '~') fun _ => True := .lone (by decide) (by decide) rfl
    have hparameters := (CoreParameter.reads_list []).append marks.reads_behind fun _ _ => trivial
    have hname := name.reads.append hparameters fun c hc => by
      rw [hc]
      decide
    have hall : Reads _ _ Opens _ :=
      (htilde.append hname fun _ _ => trivial).mono (fun _ => .inr) fun _ hc => hc
    simpa [CoreMember.spelling, CoreMember.tokens, CoreParameter.spellings, CoreParameter.tokenList,
      String.append_assoc] using (marks.reads_before hall).mono (fun _ hc => hc) fun _ _ => trivial
  | .nested head members => by
    have hall := head.reads.append (CoreMember.reads_all head.name members reads_endBehindBlank)
      fun _ _ => trivial
    simpa [CoreMember.spelling, CoreMember.tokens, String.append_assoc] using
      hall.mono (fun _ hc => hc) fun _ _ => trivial

/-- The declarations in a class are read as their tokens. -/
theorem CoreMember.reads_all (inClass : Identifier) : (ms : List CoreMember) → {closing : String} →
    {closingTokens : List Token} → Reads closing closingTokens (· = ' ') (fun _ => True) →
    Reads (spellings inClass.text ms ++ closing) (tokenList inClass.text ms ++ closingTokens) (· =
      ' ') fun _ => True
  | [], _, _, hclosing => by simpa [CoreMember.spellings, CoreMember.tokenList] using hclosing
  | m :: rest, _, _, hclosing => by
    have hall := ((CoreMember.reads inClass m).behindBlank fun _ hc => hc.apart.1).append
      (CoreMember.reads_all inClass rest hclosing) fun _ hc => hc
    simpa [CoreMember.spellings, CoreMember.tokenList, String.append_assoc] using hall

end

mutual

/-- A declaration outside of classes is read as its tokens. -/
theorem CoreDeclaration.reads :
    (d : CoreDeclaration) → Reads d.spelling d.tokens Opens fun _ => True
  | .simple d => d.reads
  | .record head members => by
    have hall := head.reads.append (CoreMember.reads_all head.name members reads_endBehindBlank)
      fun _ _ => trivial
    simpa [CoreDeclaration.spelling, CoreDeclaration.tokens, String.append_assoc] using hall
  | .nameSpace name ds => by
    have hclosing : Reads (" " ++ "\x7d") [.mark "\x7d"] (· = ' ') fun _ => True :=
      reads_closingBrace.behindBlank fun c hc => by
        rw [hc]
        decide
    have hbody := reads_openingBrace.append (CoreDeclaration.reads_all ds hclosing) fun _ _ =>
      trivial
    have hname := name.reads.append hbody fun c hc => by
      rw [hc]
      decide
    have hall := (Reads.wordBlank (show Lexeme.isName "namespace".toList =
      true by decide)).append hname
      fun c hc => (Lexeme.isNameStart_apart hc).1
    simpa [CoreDeclaration.spelling, CoreDeclaration.tokens, String.append_assoc] using hall.opens

/-- The declarations in a namespace are read as their tokens. -/
theorem CoreDeclaration.reads_all :
    (ds : List CoreDeclaration) → {closing : String} → {closingTokens : List Token} →
    Reads closing closingTokens (· = ' ') (fun _ => True) →
    Reads (spellings ds ++ closing) (tokenList ds ++ closingTokens) (· = ' ') fun _ => True
  | [], _, _, hclosing => by simpa [CoreDeclaration.spellings,
    CoreDeclaration.tokenList] using hclosing
  | d :: rest, _, _, hclosing => by
    have hall := ((CoreDeclaration.reads d).behindBlank fun _ hc => hc.apart.1).append
      (CoreDeclaration.reads_all rest hclosing) fun _ _ => trivial
    simpa [CoreDeclaration.spellings, CoreDeclaration.tokenList, String.append_assoc] using hall

end

namespace CoreDeclaration

/-- The source of a header that declares something is read as its tokens. -/
theorem reads_source (d : CoreDeclaration) (rest : List CoreDeclaration) :
    Reads (source (d :: rest)) (tokenList (d :: rest)) Opens fun _ => True := by
  induction rest generalizing d with
  | nil => simpa [source, tokenList] using d.reads
  | cons next rest ih =>
    have hall := d.reads.spaced (ih next) trivial fun _ hc => hc.apart.1
    simpa [source, tokenList, String.append_assoc] using hall

/-- A text without line ends is a line. -/
theorem lines_of_line {cs : List Char} (hne : cs ≠ []) (hline : '\n' ∉ cs) :
    Text.lines cs = [cs] := by
  have hpieces : ∀ cs, '\n' ∉ cs → Text.pieces '\n' cs = [cs] := by
    intro cs hline
    induction cs with
    | nil => rfl
    | cons c cs ih =>
      rw [List.mem_cons, not_or] at hline
      rw [Text.pieces, if_neg (Ne.symm hline.1), ih hline.2]
  obtain ⟨c, tail, rfl⟩ := List.exists_cons_of_ne_nil hne
  rw [Text.lines, hpieces _ hline]
  rfl

/-- A line that a declaration may begin is no directive, and is kept as it is. -/
theorem preprocess_line (config : Configuration) {source : String}
    (h : Reads source tokens Opens stop) :
    preprocess config source = (source.toList ++ ['\n'], []) := by
  obtain ⟨c, hc, hopens⟩ := h.begins
  obtain ⟨tail, hsource⟩ := List.head?_eq_some_iff.mp hc
  have hhead : Directive.head? source.toList = none := by
    rw [Directive.head?, hsource, Text.trimStart, List.dropWhile_cons,
      if_neg (by simp [hopens.apart.1])]
    split
    · rename_i heq
      exact absurd (List.cons.inj heq).1 hopens.apart.2
    · rfl
  have hnone : Directive.ofLines? source.toList [] = none := by
    rw [Directive.ofLines?, hhead]
    rfl
  have hlines : Text.lines source.toList = [source.toList] :=
    lines_of_line (by rw [hsource]; exact List.cons_ne_nil _ _) h.inLine
  rw [preprocess, hlines, selectLines, hnone]
  simp [selectLines, RegionState.isActive]

/-- The tokens of a source. -/
theorem ofConfigured_source (ds : List CoreDeclaration) :
    ∃ text, preprocess {} (source ds) = (text, []) ∧
      Token.ofConfigured {} text = .ok (tokenList ds) := by
  cases ds with
  | nil => exact ⟨[], rfl, rfl⟩
  | cons d rest =>
    refine ⟨_, preprocess_line {} (reads_source d rest), ?_⟩
    have hend : ofText ['\n'] = .ok [] := by decide
    have hall := (reads_source d rest).lexes ['\n'] fun _ _ => trivial
    rw [hend] at hall
    exact hall.trans (congrArg Except.ok (List.append_nil _))

end CoreDeclaration

end Interop.Header
