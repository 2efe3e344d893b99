import Interop.Proofs.Header.Respelling

namespace Interop.Header

namespace Lexeme

variable {cs gap rest : List Char} {c : Char} {n : Nat}

/-- Whether a piece of text in front of `rest` is passed over: blanks, a comment that goes on to the
end of its line, or one that ends where it is closed for the first time. -/
inductive IsGap : (gap rest : List Char) → Prop
  | blanks {gap rest : List Char} (hne : gap ≠ []) (h : ∀ c ∈ gap, Text.isBlank c = true) :
    IsGap gap rest
  | line {body rest : List Char} (h : '\n' ∉ body) (hrest : ∀ c ∈ rest.head?, c = '\n') :
    IsGap ('/' :: '/' :: body) rest
  | block {body rest : List Char} (h : ¬['*', '/'] <:+: body ++ ['*']) :
    IsGap ('/' :: '*' :: (body ++ ['*', '/'])) rest

/-- Whether a gap or a token stands at the front of a text. -/
def Starts (cs : List Char) : Prop :=
  (∃ gap rest, cs = gap ++ rest ∧ IsGap gap rest) ∨
    ∃ (t : Token) (rest : List Char), cs = t.text.toList ++ rest ∧ t.IsLexeme

/-- Whether nowhere in a text stands a gap or a token. -/
def IsDark (cs : List Char) : Prop :=
  ∀ s, s <:+ cs → ¬Starts s

/-- The end of a block comment is the first one. -/
theorem blockEnd?_eq_some : blockEnd? cs = some n ↔
    ∃ body rest, cs = body ++ '*' :: '/' :: rest ∧ ¬['*', '/'] <:+: body ++ ['*'] ∧
      n = body.length + 2 := by
  constructor
  · intro h
    induction cs generalizing n with
    | nil => cases h
    | cons c cs ih =>
      rw [blockEnd?.eq_def] at h
      split at h
      · rename_i rest heq
        cases h
        exact ⟨[], rest, heq, by decide, rfl⟩
      · rename_i c' cs' hnot heq
        obtain ⟨rfl, rfl⟩ := List.cons.inj heq
        obtain ⟨m, hm, rfl⟩ := Option.map_eq_some_iff.mp h
        obtain ⟨body, rest, rfl, hbody, rfl⟩ := ih hm
        refine ⟨c :: body, rest, rfl, fun hpart => ?_, rfl⟩
        rcases List.infix_cons_iff.mp hpart with hprefix | hpart
        · -- the mark that closes comments would stand right here
          obtain ⟨tail, htail⟩ := hprefix
          obtain ⟨rfl, hslash⟩ := List.cons.inj htail
          cases body with
          | nil => cases hslash
          | cons d body =>
            obtain ⟨rfl, -⟩ := List.cons.inj hslash
            exact hnot _ rfl rfl
        · exact hbody hpart
      · rename_i heq
        cases heq
  · rintro ⟨body, rest, rfl, hbody, rfl⟩
    induction body with
    | nil => rfl
    | cons c body ih =>
      have htail := ih fun hpart => hbody (hpart.trans (List.suffix_cons c _).isInfix)
      rw [List.cons_append, blockEnd?, htail]
      · rfl
      · rintro rest' rfl heq
        apply hbody
        cases body with
        | nil => cases heq
        | cons d body =>
          obtain ⟨rfl, -⟩ := List.cons.inj heq
          exact ⟨[], body ++ ['*'], rfl⟩

/-- Blanks are taken as far as they go. -/
theorem blanks?_eq_some : blanks? cs = some n ↔ 0 < n ∧ n = (cs.takeWhile Text.isBlank).length := by
  rw [blanks?, positive?_eq_some, runLength, eq_comm, and_comm]

/-- Nothing is read exactly if no kind of lexeme begins the text. -/
theorem first?_eq_none_iff :
    first? cs = none ↔ blanks? cs = none ∧ comment? cs = none ∧ string? cs = none ∧
    character? cs = none ∧ number? cs = none ∧ identifier? cs = none ∧ mark? cs = none := by
  simp [first?]

/-- What is read as a gap is one. -/
theorem isGap_of_first? (h : first? cs = some (.gap, n)) :
    IsGap (cs.take n) (cs.drop n) ∧ 0 < n ∧ n ≤ cs.length := by
  have hcases : blanks? cs = some n ∨ comment? cs = some n := by
    unfold first? at h
    obtain ⟨-, hblanks⟩ | ⟨-, h⟩ := or_map_eq_some h
    · exact .inl hblanks
    obtain ⟨-, hcomment⟩ | ⟨-, h⟩ := or_map_eq_some h
    · exact .inr hcomment
    iterate 4 obtain ⟨⟨⟩, -⟩ | ⟨-, h⟩ := or_map_eq_some h
    obtain ⟨_, _, ⟨⟩⟩ := Option.map_eq_some_iff.mp h
  rcases hcases with hblanks | hcomment
  · obtain ⟨hpos, rfl⟩ := blanks?_eq_some.mp hblanks
    have htake := List.prefix_iff_eq_take.mp (List.takeWhile_prefix (l := cs) Text.isBlank)
    refine ⟨?_, hpos, (List.takeWhile_prefix Text.isBlank).length_le⟩
    rw [← htake]
    exact .blanks (List.ne_nil_of_length_pos hpos) fun c hc => List.mem_takeWhile_imp hc
  · unfold comment? at hcomment
    split at hcomment
    · rename_i body
      cases hcomment
      have htake : body.take (runLength (· != '\n') body) = body.takeWhile (· != '\n') :=
        (List.prefix_iff_eq_take.mp (List.takeWhile_prefix _)).symm
      have hdrop : body.drop (runLength (· != '\n') body) = body.dropWhile (· != '\n') :=
        (congrArg (List.drop _) List.takeWhile_append_dropWhile.symm).trans (List.drop_left' rfl)
      have hlength := runLength_le (· != '\n') body
      refine ⟨?_, by omega, by rw [List.length_cons, List.length_cons]; omega⟩
      rw [Nat.add_comm, List.take_succ_cons, List.take_succ_cons, List.drop_succ_cons,
        List.drop_succ_cons, htake, hdrop]
      refine .line (fun hmem => ?_) fun c hc => ?_
      · have hnot := List.mem_takeWhile_imp hmem
        simp at hnot
      · have hnot := List.head?_dropWhile_not (· != '\n') body
        rw [Option.mem_def.mp hc] at hnot
        simpa using hnot
    · rename_i body
      obtain ⟨m, hm, rfl⟩ := Option.map_eq_some_iff.mp hcomment
      obtain ⟨body, rest, rfl, hbody, rfl⟩ := blockEnd?_eq_some.mp hm
      refine ⟨?_, by omega, by simp⟩
      have hsplit : '/' :: '*' :: (body ++ '*' :: '/' :: rest) =
        ('/' :: '*' :: (body ++ ['*', '/'])) ++ rest := by simp
      rw [hsplit, List.take_left' (by simp), List.drop_left' (by simp)]
      exact .block hbody
    · cases hcomment

/-- Where a gap stands, a gap or a token is read. -/
theorem first?_of_isGap (h : IsGap gap rest) : first? (gap ++ rest) ≠ none := by
  rw [Ne, first?_eq_none_iff]
  rintro ⟨hblanks, hcomment, -⟩
  cases h with
  | blanks hne h =>
    obtain ⟨c, tail, rfl⟩ := List.exists_cons_of_ne_nil hne
    rw [blanks?, runLength, List.cons_append, List.takeWhile_cons,
      h c List.mem_cons_self] at hblanks
    cases hblanks
  | line h => cases hcomment
  | @block body _ h =>
    have hend : blockEnd? (body ++ '*' :: '/' :: rest) = some (body.length + 2) :=
      blockEnd?_eq_some.mpr ⟨body, rest, rfl, h, rfl⟩
    have hsplit : '/' :: '*' :: (body ++ ['*', '/']) ++ rest = '/' :: '*' :: (body ++ '*' :: '/' ::
      rest) := by simp
    rw [hsplit, comment?, hend] at hcomment
    cases hcomment

/-- A number begins with a digit, or with a point and a digit. -/
theorem number?_cons_ne_none :
    number? (c :: cs) ≠ none ↔ c.isDigit = true ∨ c = '.' ∧ ∃ d ∈ cs.head?, d.isDigit = true := by
  by_cases hpoint : c = '.'
  · subst hpoint
    rw [Ne, Token.number?_point]
    simp
  · by_cases hdigit : c.isDigit = true
    · refine iff_of_true ?_ (.inl hdigit)
      rw [number?, decimalLength?, if_pos hdigit]
      split <;> simp
    · refine iff_of_false ?_ (by simp [hdigit, hpoint])
      rw [not_not]
      exact number?_cons (Bool.not_eq_true _ ▸ hdigit) hpoint cs

/-- Where a token stands, a gap or a token is read. -/
theorem first?_of_isLexeme {t : Token} (ht : t.IsLexeme) (rest : List Char) :
    first? (t.text.toList ++ rest) ≠ none := by
  rw [Ne, first?_eq_none_iff]
  rintro ⟨-, -, hstring, hcharacter, hnumber, hidentifier, hmark⟩
  obtain ⟨c, tail, htext⟩ := List.exists_cons_of_ne_nil ht.solid.1
  cases hkind : t.kind with
  | identifier =>
    rw [Token.IsLexeme, hkind, htext, ofKind?, identifier?] at ht
    rw [htext, List.cons_append, identifier?] at hidentifier
    split at ht
    · rename_i hstart
      rw [if_pos hstart] at hidentifier
      cases hidentifier
    · cases ht
  | number =>
    rw [Token.IsLexeme, hkind, htext] at ht
    have hsome : number? (c :: tail) ≠ none := by
      rw [show number? (c :: tail) = some _ from ht]
      exact Option.some_ne_none _
    rw [htext, List.cons_append] at hnumber
    refine number?_cons_ne_none.mpr ?_ hnumber
    refine (number?_cons_ne_none.mp hsome).imp_right ?_
    rintro ⟨hpoint, d, hd, hdigit⟩
    exact ⟨hpoint, d, by rw [List.head?_append, Option.mem_def.mp hd]; rfl, hdigit⟩
  | string =>
    rw [Token.IsLexeme, hkind] at ht
    rw [(string?_append ht rest).1] at hstring
    cases hstring
  | character =>
    rw [Token.IsLexeme, hkind] at ht
    rw [(character?_append ht rest).1] at hcharacter
    cases hcharacter
  | mark =>
    unfold mark? at hmark
    split at hmark
    · cases hmark
    · rename_i hlong
      rcases ht.mark hkind with h | ⟨c, hc, htext⟩
      · have hnot := List.find?_eq_none.mp hlong _ h
        simp at hnot
      · rw [htext] at hmark
        simp [hc] at hmark

/-- What is read first is not empty and no longer than the text. -/
theorem first?_length {kind : LexemeKind} (h : first? cs = some (kind, n)) :
    0 < n ∧ n ≤ cs.length := by
  cases kind with
  | gap => exact (isGap_of_first? h).2
  | token kind =>
    have hne := (@Token.isLexeme_of_first? cs kind n 0 h).solid.1
    rw [String.toList_ofList] at hne
    refine ⟨Nat.pos_of_ne_zero ?_, ofKind?_le (ofKind?_of_first? h)⟩
    rintro rfl
    exact hne rfl

/-- A gap or a token is read just where one stands. -/
theorem first?_ne_none_iff : first? cs ≠ none ↔ Starts cs := by
  constructor
  · intro h
    obtain ⟨⟨kind, n⟩, hfirst⟩ := Option.ne_none_iff_exists'.mp h
    cases kind with
    | gap =>
      exact .inl ⟨cs.take n, cs.drop n, (List.take_append_drop n cs).symm,
        (isGap_of_first? hfirst).1⟩
    | token kind =>
      refine .inr ⟨⟨kind, String.ofList (cs.take n), 0⟩, cs.drop n, ?_,
        Token.isLexeme_of_first? hfirst⟩
      rw [String.toList_ofList, List.take_append_drop]
  · rintro (⟨gap, rest, rfl, hgap⟩ | ⟨t, rest, rfl, ht⟩)
    · exact first?_of_isGap hgap
    · exact first?_of_isLexeme ht rest

theorem not_starts_nil : ¬Starts [] := by
  rw [← first?_ne_none_iff, not_not]
  rfl

/-- Nothing is found in a text exactly if it is dark. -/
theorem occursIn_eq_false_iff : occursIn cs = false ↔ IsDark cs := by
  induction cs with
  | nil =>
    refine iff_of_true rfl fun s hs => ?_
    rw [List.suffix_nil.mp hs]
    exact not_starts_nil
  | cons c cs ih =>
    rw [occursIn, Bool.or_eq_false_iff, ih, Option.isSome_eq_false_iff,
      Option.isNone_iff_eq_none, ← not_not (a := _ = none),
      ← Ne, first?_ne_none_iff]
    constructor
    · rintro ⟨hfirst, hrest⟩ s hs
      rcases List.suffix_cons_iff.mp hs with rfl | hs
      · exact hfirst
      · exact hrest s hs
    · exact fun h => ⟨h _ List.suffix_rfl, fun s hs => h s (hs.trans (List.suffix_cons c cs))⟩

end Lexeme

namespace Token

open Lexeme

variable {cs text front rest : List Char} {c : Char} {n line : Nat} {tokens : List Token}

/-- Whether a text consists of gaps and of the given tokens, in their order. -/
inductive Covers : List Char → List Token → Prop
  | nil : Covers [] []
  | gap {gap rest : List Char} {tokens : List Token} (hgap : IsGap gap rest)
    (h : Covers rest tokens) : Covers (gap ++ rest) tokens
  | token {t : Token} {rest : List Char} {tokens : List Token} (ht : t.IsLexeme)
      (h : Covers rest tokens) :
      Covers (t.text.toList ++ rest) (t :: tokens)

/-- Of a text without comments every character is a blank or belongs to a token. -/
theorem Covers.mem (h : Covers text tokens) (hslash : '/' ∉ text) (hc : c ∈ text) :
    Text.isBlank c = true ∨ ∃ t ∈ tokens, c ∈ t.text.toList := by
  induction h with
  | nil => cases hc
  | gap hgap _ ih =>
    rw [List.mem_append, not_or] at hslash
    rcases List.mem_append.mp hc with hc | hc
    · cases hgap with
      | blanks _ h => exact .inl (h c hc)
      | line | block => simp at hslash
    · exact ih hslash.2 hc
  | @token t _ _ _ _ ih =>
    rw [List.mem_append, not_or] at hslash
    rcases List.mem_append.mp hc with hc | hc
    · exact .inr ⟨t, List.mem_cons_self, hc⟩
    · refine (ih hslash.2 hc).imp_right ?_
      rintro ⟨u, hu, hcu⟩
      exact ⟨u, List.mem_cons_of_mem t hu, hcu⟩

/-- The end of a text is of no concern to a gap in front of something else. -/
theorem isGap_of_append {gap : List Char} (h : IsGap gap (front ++ rest)) : IsGap gap front := by
  cases h with
  | blanks hne h => exact .blanks hne h
  | line h hrest =>
    exact .line h fun c hc => hrest c (by rw [List.head?_append, Option.mem_def.mp hc]; rfl)
  | block h => exact .block h

section Scan

attribute [local irreducible] Lexeme.first?

/-- What is left of a lexeme is passed over, and its lines are counted. -/
theorem scan_over (expand : String → Option (Except SyntaxError (List Token))) (line : Nat)
    (text rest : List Char) :
    scan expand text.length line (text ++ rest) = scan expand 0 (line + text.count '\n') rest := by
  induction text generalizing line with
  | nil => rfl
  | cons c tail ih =>
    have hstep : scan expand (c :: tail).length line (c :: tail ++ rest) =
        scan expand tail.length (if c = '\n' then line + 1 else line) (tail ++ rest) := rfl
    rw [hstep, ih, List.count_cons]
    by_cases hc : c = '\n'
    · rw [if_pos hc, if_pos (by simpa using hc), Nat.add_assoc, Nat.add_comm 1]
    · rw [if_neg hc, if_neg (by simpa using hc), Nat.add_zero]

/-- A gap is passed over, with its line breaks counted. -/
theorem scan_of_gap {gap : List Char} (hfirst : first? (gap ++ rest) = some (.gap, gap.length))
    (hne : gap ≠ []) :
    scan (fun _ => none) 0 line (gap ++ rest) = scan (fun _ =>
      none) 0 (line + gap.count '\n') rest := by
  obtain ⟨c, tail, rfl⟩ := List.exists_cons_of_ne_nil hne
  rw [List.cons_append] at hfirst ⊢
  rw [scan_cons, hfirst]
  exact scan_over _ line (c :: tail) rest

/-- A lexeme becomes a token of the line it stands in. -/
theorem scan_of_lexeme {t : Token}
    (hfirst : first? (t.text.toList ++ rest) = some (.token t.kind, t.text.toList.length))
    (ht : t.IsLexeme) :
    scan (fun _ => none) 0 line (t.text.toList ++ rest) =
      (⟨t.kind, t.text, line⟩ :: ·) <$> scan (fun _ => none) 0 line rest := by
  obtain ⟨hne, -, hline⟩ := ht.solid
  obtain ⟨c, tail, htext⟩ := List.exists_cons_of_ne_nil hne
  have htake : (c :: (tail ++ rest)).take t.text.toList.length = t.text.toList := by
    rw [htext, ← List.cons_append, List.take_left]
  have hpending : scan (fun _ => none) (t.text.toList.length - 1) line (tail ++ rest) =
      scan (fun _ => none) 0 line rest := by
    rw [htext] at hline ⊢
    exact scan_pending (fun hmem => hline (List.mem_cons_of_mem c hmem)) rest
  rw [htext, List.cons_append] at hfirst ⊢
  rw [← htext] at hfirst
  rw [scan_of_token hfirst, htake, hpending, String.ofList_toList]

/-- From its front on a text is covered by gaps and tokens up to a place where neither stands. With
a gap or a token behind that place it is refused. -/
theorem scan_covers (line : Nat) (text : List Char) :
    ∃ front tail tokens, text = front ++ tail ∧ Covers front tokens ∧
    ¬Starts tail ∧ (IsDark tail → scan (fun _ => none) 0 line text = .ok tokens) ∧
      (¬IsDark tail → ∃ c ∈ tail.head?,
        scan (fun _ => none) 0 line text = .error ⟨line + front.count '\n',
            .unexpectedCharacter c⟩) := by
  induction hlength : text.length using Nat.strong_induction_on generalizing text line with
  | _ length ih =>
    cases hfirst : first? text with
    | none =>
      have hstarts : ¬Starts text := by
        rw [← first?_ne_none_iff, not_not, hfirst]
      refine ⟨[], text, [], rfl, .nil, hstarts, ?_⟩
      cases text with
      | nil => exact ⟨fun _ => rfl, fun h => absurd (occursIn_eq_false_iff.mp rfl) h⟩
      | cons c cs =>
        have hdark : IsDark (c :: cs) ↔ occursIn cs = false := by
          rw [← occursIn_eq_false_iff, occursIn, hfirst]
          rfl
        rw [hdark, scan_cons, hfirst]
        cases occursIn cs with
        | false => exact ⟨fun _ => rfl, fun h => absurd rfl h⟩
        | true => exact ⟨fun h => absurd h (by decide), fun _ => ⟨c, rfl, rfl⟩⟩
    | some found =>
      obtain ⟨kind, n⟩ := found
      obtain ⟨hpos, hle⟩ := first?_length hfirst
      obtain ⟨piece, rest, rfl, rfl⟩ : ∃ piece rest, text = piece ++ rest ∧ n = piece.length :=
        ⟨text.take n, text.drop n, (List.take_append_drop n text).symm,
          (List.length_take_of_le hle).symm⟩
      have hne : piece ≠ [] := List.ne_nil_of_length_pos hpos
      have hshorter : rest.length < length := by
        rw [← hlength, List.length_append]
        omega
      cases kind with
      | gap =>
        have hgap : IsGap piece rest := by
          have h := (isGap_of_first? hfirst).1
          rwa [List.take_left, List.drop_left] at h
        obtain ⟨front, tail, tokens, rfl, hcovers, hstarts, hok, herror⟩ :=
          ih _ hshorter (line + piece.count '\n') rest rfl
        rw [scan_of_gap hfirst hne]
        refine ⟨piece ++ front, tail, tokens, (List.append_assoc ..).symm,
          .gap (isGap_of_append hgap) hcovers, hstarts, hok,
          fun h => ?_⟩
        obtain ⟨c, hc, hrefused⟩ := herror h
        exact ⟨c, hc, by rw [hrefused, List.count_append, Nat.add_assoc]⟩
      | token kind =>
        let t : Token := ⟨kind, String.ofList piece, line⟩
        have htext : t.text.toList = piece := String.toList_ofList
        have ht : t.IsLexeme := by
          have h := @isLexeme_of_first? _ kind _ line hfirst
          rwa [List.take_left] at h
        obtain ⟨front, tail, tokens, rfl, hcovers, hstarts, hok, herror⟩ :=
          ih _ hshorter line rest rfl
        have hscan : scan (fun _ => none) 0 line (piece ++ (front ++ tail)) =
            (t :: ·) <$> scan (fun _ => none) 0 line (front ++ tail) := by
          have h := @scan_of_lexeme (front ++ tail) line t (by rw [htext]; exact hfirst) ht
          rwa [htext] at h
        rw [hscan]
        refine ⟨piece ++ front, tail, t :: tokens, (List.append_assoc ..).symm,
          htext ▸ .token ht hcovers, hstarts, fun h => by rw [hok h]; rfl, fun h => ?_⟩
        obtain ⟨c, hc, hrefused⟩ := herror h
        have hline : piece.count '\n' = 0 := List.count_eq_zero.mpr (htext ▸ ht.solid.2.2)
        exact ⟨c, hc, by rw [hrefused, List.count_append, hline, Nat.zero_add]; rfl⟩

end Scan

/-- A text without definitions is read as tokens which, with gaps between them, cover it up to a
place where neither a gap nor a token stands. Without such a place behind its last token nothing is
left out. If nowhere behind the place stands a gap or a token, what is left of the text is dropped
without notice; otherwise the text is refused for its character in that place. -/
theorem ofConfigured_covers (includes options : List String) (text : List Char) :
    ∃ front tail tokens, text = front ++ tail ∧ Covers front tokens ∧ ¬Starts tail ∧
      (IsDark tail → ofConfigured ⟨includes, [], options⟩ text = .ok tokens) ∧
      (¬IsDark tail → ∃ c ∈ tail.head?,
        ofConfigured ⟨includes, [], options⟩ text = .error ⟨front.count '\n' + 1,
            .unexpectedCharacter c⟩) := by
  rw [ofConfigured_eq_ofText rfl, ofText]
  simp only [Nat.add_comm _ 1]
  exact scan_covers 1 text

/-- The replacement of a configured macro may end in a backslash, which belongs to no token and no
gap and is dropped. -/
theorem ofConfigured_drops :
    ofConfigured {} "1 \\".toList = .ok [⟨.number, "1", 1⟩] ∧
      ¬Covers "1 \\".toList [⟨.number, "1", 1⟩] := by
  refine ⟨rfl, fun h => ?_⟩
  rcases h.mem (by decide) (by decide : '\\' ∈ "1 \\".toList) with hblank | ⟨t, ht, hc⟩
  · exact absurd hblank (by decide)
  · have hall : ∀ t ∈ [(⟨.number, "1", 1⟩ : Token)], '\\' ∉ t.text.toList := by decide
    exact hall t ht hc

end Token

end Interop.Header
