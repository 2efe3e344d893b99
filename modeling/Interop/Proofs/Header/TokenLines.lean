import Interop.Proofs.Header.Covering
import Interop.Proofs.Header.Definedness
import Mathlib.Data.List.Forall2

namespace Interop

namespace Text

variable {mark : Char} {cs text head : List Char} {tail : List (List Char)}

theorem exists_pieces (mark : Char) (cs : List Char) :
    ∃ head tail, pieces mark cs = head :: tail := by
  induction cs with
  | nil => exact ⟨[], [], rfl⟩
  | cons c cs ih =>
    obtain ⟨head, tail, hpieces⟩ := ih
    rw [pieces, hpieces]
    split
    · exact ⟨[], head :: tail, rfl⟩
    · exact ⟨c :: head, tail, rfl⟩

/-- Text without the mark belongs to the first piece of what it stands in front of. -/
theorem pieces_prepend (h : mark ∉ cs) (hpieces : pieces mark text = head :: tail) :
    pieces mark (cs ++ text) = (cs ++ head) :: tail := by
  induction cs with
  | nil => exact hpieces
  | cons c cs ih =>
    rw [List.mem_cons, not_or] at h
    rw [List.cons_append, pieces, if_neg (Ne.symm h.1), ih h.2]
    rfl

end Text

namespace Header

namespace Token

open Lexeme

variable {expand : String → Option (Except SyntaxError (List Token))} {config : Configuration}
    {t : Token}
  {tokens uses piece : List Token} {cs text row row' : List Char} {pending line : Nat}

/-- Whether texts stand in a row, one behind the other. -/
def StandIn : (texts : List (List Char)) → (row : List Char) → Prop
  | [], _ => True
  | text :: rest, row => ∃ before behind, row = before ++ text ++ behind ∧ StandIn rest behind

/-- Texts that stand in a row stand in each longer one. -/
theorem StandIn.mono {texts : List (List Char)} (h : StandIn texts row) (hrow : row <:+: row') :
    StandIn texts row' := by
  induction texts generalizing row row' with
  | nil => trivial
  | cons text rest ih =>
    obtain ⟨before, behind, rfl, hrest⟩ := h
    obtain ⟨front, back, rfl⟩ := hrow
    exact ⟨front ++ before, behind ++ back, by simp only [List.append_assoc],
      ih hrest (List.prefix_append _ _).isInfix⟩

/-- Each of the texts occurs in the row. -/
theorem StandIn.infix {texts : List (List Char)} (h : StandIn texts row) {text : List Char}
    (htext : text ∈ texts) :
    text <:+: row := by
  induction texts generalizing row with
  | nil => cases htext
  | cons first rest ih =>
    obtain ⟨before, behind, rfl, hrest⟩ := h
    rcases List.mem_cons.mp htext with rfl | htext
    · exact ⟨before, behind, rfl⟩
    · exact (ih hrest htext).trans (List.suffix_append _ _).isInfix

/-- The texts of those tokens that carry the number of a line. -/
def textsOf (tokens : List Token) (line : Nat) : List (List Char) :=
  (tokens.filter (·.line == line)).map (·.text.toList)

theorem textsOf_cons_self (t : Token) (tokens : List Token) :
    textsOf (t :: tokens) t.line = t.text.toList :: textsOf tokens t.line := by
  simp [textsOf]

theorem textsOf_cons_of_ne (h : t.line ≠ line) (tokens : List Token) :
    textsOf (t :: tokens) line = textsOf tokens line := by
  simp [textsOf, h]

/-- A line before all tokens has no texts. -/
theorem textsOf_eq_nil (h : ∀ t ∈ tokens, line < t.line) : textsOf tokens line = [] := by
  rw [textsOf, List.map_eq_nil_iff, List.filter_eq_nil_iff]
  intro t ht
  have hlt := h t ht
  simp only [beq_iff_eq]
  omega

/-- Whether tokens stand in a text that begins in the given line, in their order, and carry the
numbers of their lines. -/
inductive Placed : (line : Nat) → (text : List Char) → List Token → Prop
  | done {line : Nat} {text : List Char} : Placed line text []
  | skip {line : Nat} {c : Char} {text : List Char} {tokens : List Token}
      (h : Placed (if c = '\n' then line + 1 else line) text tokens) :
        Placed line (c :: text) tokens
  | token {t : Token} {text : List Char} {tokens : List Token} (ht : t.IsLexeme)
      (h : Placed t.line text tokens) :
      Placed t.line (t.text.toList ++ text) (t :: tokens)

/-- The tokens of a text stand in it, in the lines whose numbers they carry. -/
theorem placed_of_scan (h : scan (fun _ => none) pending line cs = .ok tokens) :
    Placed line cs tokens := by
  induction hlength : cs.length using Nat.strong_induction_on generalizing cs pending line
      tokens with
  | _ length ih =>
    subst hlength
    cases cs with
    | nil =>
      obtain rfl := Except.ok.inj h
      exact .done
    | cons c cs =>
      cases pending with
      | succ pending => exact .skip (ih _ (Nat.lt_succ_self _) h rfl)
      | zero =>
        rcases scan_cases h with rfl | ⟨n, hrest⟩ | ⟨kind, n, rest, hfirst, hrest, rfl⟩
        · exact .done
        · exact .skip (ih _ (Nat.lt_succ_self _) hrest rfl)
        · obtain ⟨hpos, hle⟩ := first?_length hfirst
          obtain ⟨n, rfl⟩ := Nat.exists_eq_succ_of_ne_zero hpos.ne'
          let t : Token := ⟨kind, String.ofList ((c :: cs).take (n + 1)), line⟩
          have ht : t.IsLexeme := isLexeme_of_first? hfirst
          have htext : t.text.toList = c :: cs.take n := String.toList_ofList
          have hline : '\n' ∉ cs.take n :=
            fun hmem => ht.solid.2.2 (htext ▸ List.mem_cons_of_mem c hmem)
          have hscan : scan (fun _ => none) 0 line (cs.drop n) = .ok rest := by
            have hlength : (cs.take n).length = n :=
              List.length_take_of_le (Nat.le_of_succ_le_succ hle)
            have hpending : scan (fun _ => none) (cs.take n).length line (cs.take n ++ cs.drop n) =
                scan (fun _ => none) 0 line (cs.drop n) := scan_pending hline _
            rw [hlength, List.take_append_drop] at hpending
            exact hpending.symm.trans hrest
          have hshorter : (cs.drop n).length < (c :: cs).length := by
            rw [List.length_drop, List.length_cons]
            omega
          have hplaced := Placed.token ht (ih _ hshorter hscan rfl : Placed t.line (cs.drop n) rest)
          rwa [htext, List.cons_append, List.take_append_drop] at hplaced

namespace Placed

theorem le (h : Placed line text tokens) : ∀ t ∈ tokens, line ≤ t.line := by
  induction h with
  | done => exact List.forall_mem_nil _
  | skip _ ih =>
    intro t ht
    have hle := ih t ht
    split at hle <;> omega
  | token _ _ ih => exact List.forall_mem_cons.mpr ⟨Nat.le_refl _, ih⟩

theorem pairwise (h : Placed line text tokens) : tokens.Pairwise (·.line ≤ ·.line) := by
  induction h with
  | done => exact List.Pairwise.nil
  | skip _ ih => exact ih
  | token _ h ih => exact List.pairwise_cons.mpr ⟨h.le, ih⟩

/-- In each line stand the tokens that carry its number. -/
theorem standIn (h : Placed line text tokens) (k : Nat) :
    StandIn (textsOf tokens (line + k)) ((Text.pieces '\n' text)[k]?.getD []) := by
  induction h generalizing k with
  | done => trivial
  | @skip line c text tokens h ih =>
    obtain ⟨head, tail, hpieces⟩ := Text.exists_pieces '\n' text
    rw [Text.pieces, hpieces]
    rw [hpieces] at ih
    by_cases hc : c = '\n'
    · rw [if_pos hc] at h ih ⊢
      cases k with
      | zero =>
        rw [Nat.add_zero, textsOf_eq_nil h.le]
        trivial
      | succ k =>
        have hrow := ih k
        rwa [Nat.add_right_comm] at hrow
    · rw [if_neg hc] at ih ⊢
      cases k with
      | zero => exact (ih 0).mono (List.suffix_cons c head).isInfix
      | succ k => exact ih (k + 1)
  | @token t text tokens ht h ih =>
    obtain ⟨head, tail, hpieces⟩ := Text.exists_pieces '\n' text
    rw [Text.pieces_prepend ht.solid.2.2 hpieces]
    rw [hpieces] at ih
    cases k with
    | zero =>
      rw [Nat.add_zero, textsOf_cons_self]
      exact ⟨[], head, rfl, ih 0⟩
    | succ k =>
      rw [textsOf_cons_of_ne (by omega)]
      exact ih (k + 1)

end Placed

/-- What a token of a header is read as under a configuration: the name of a macro as the tokens of
its replacement, which are taken to stand in the line of the name, and anything else as itself. -/
inductive ReadAs (config : Configuration) (t : Token) : List Token → Prop
  | replaced {replacement : String} {tokens : List Token} (hkind : t.kind = .identifier)
      (hreplacement : config.replacement? t.text = some replacement)
        (htokens : ofText replacement.toList = .ok tokens) :
      ReadAs config t (tokens.map ({ · with line := t.line }))
  | itself (h : t.kind = .identifier → config.replacement? t.text = none) : ReadAs config t [t]

theorem readAs_of_expanded
    (h : expanded (fun name => (config.replacement? name).map fun r => ofText r.toList) t =
      .ok piece) :
    ReadAs config t piece := by
  unfold expanded at h
  split at h
  · rename_i hkind
    split at h
    · rename_i read hread
      obtain ⟨replacement, hreplacement, rfl⟩ := Option.map_eq_some_iff.mp hread
      cases htokens : ofText replacement.toList with
      | error e =>
        rw [htokens] at h
        cases h
      | ok tokens =>
        rw [htokens] at h
        obtain rfl := Except.ok.inj h
        exact .replaced hkind hreplacement htokens
    · rename_i hnone
      obtain rfl := Except.ok.inj h
      exact .itself fun _ => Option.map_eq_none_iff.mp hnone
  · rename_i hkind
    obtain rfl := Except.ok.inj h
    exact .itself fun hidentifier => absurd hidentifier hkind

/-- All that a token is read as has its line. -/
theorem ReadAs.line_eq (h : ReadAs config t piece) : ∀ u ∈ piece, u.line = t.line := by
  cases h with
  | replaced =>
    intro u hu
    obtain ⟨_, _, rfl⟩ := List.mem_map.mp hu
    rfl
  | itself => exact List.forall_mem_singleton.mpr rfl

section Scan

attribute [local irreducible] Lexeme.first?

/-- What is read of a text is what its tokens are replaced by, one after the other. -/
theorem exists_uses (h : scan expand pending line cs = .ok tokens) :
    ∃ uses pieces, scan (fun _ => none) pending line cs = .ok uses ∧
      List.Forall₂ (fun use piece => expanded expand use = .ok piece) uses pieces ∧
          tokens = pieces.flatten := by
  induction cs generalizing pending line tokens with
  | nil =>
    obtain rfl := Except.ok.inj h
    exact ⟨[], [], rfl, .nil, rfl⟩
  | cons c cs ih =>
    cases pending with
    | succ pending => exact ih h
    | zero =>
      rw [scan_cons] at h
      cases hfirst : first? (c :: cs) with
      | none =>
        rw [hfirst] at h
        rw [scan_cons, hfirst]
        simp only at h ⊢
        split at h
        · cases h
        · rename_i hdark
          obtain rfl := Except.ok.inj h
          exact ⟨[], [], if_neg hdark, .nil, rfl⟩
      | some found =>
        obtain ⟨kind | kind, n⟩ := found
        · rw [hfirst] at h
          rw [scan_cons, hfirst]
          exact ih h
        · rw [hfirst] at h
          rw [scan_of_token hfirst]
          cases hpiece : expanded expand ⟨kind, String.ofList ((c :: cs).take n), line⟩ with
          | error e =>
            simp only [hpiece] at h
            cases h
          | ok piece =>
            cases hrest : scan expand (n - 1) line cs with
            | error e =>
              simp only [hpiece, hrest] at h
              cases h
            | ok rest =>
              simp only [hpiece, hrest] at h
              obtain rfl := Except.ok.inj h
              obtain ⟨uses, pieces, huses, hpieces, rfl⟩ := ih hrest
              exact ⟨_ :: uses, piece :: pieces, by rw [huses]; rfl, .cons hpiece hpieces, rfl⟩

end Scan

/-- The lines of what is read decrease nowhere if those of what stands in the header do not. -/
theorem pairwise_flatten {pieces : List (List Token)} (h : List.Forall₂ (ReadAs config) uses pieces)
    (huses : uses.Pairwise (·.line ≤ ·.line)) : pieces.flatten.Pairwise (·.line ≤ ·.line) := by
  have hlines : ∀ {uses pieces}, List.Forall₂ (ReadAs config) uses pieces →
      ∀ t ∈ pieces.flatten, ∃ use ∈ uses, t.line = use.line := by
    intro uses pieces h
    induction h with
    | nil => exact fun _ => nofun
    | cons hpiece _ ih =>
      intro t ht
      rcases List.mem_append.mp ht with ht | ht
      · exact ⟨_, List.mem_cons_self, hpiece.line_eq t ht⟩
      · obtain ⟨use, huse, hline⟩ := ih t ht
        exact ⟨use, List.mem_cons_of_mem _ huse, hline⟩
  induction h with
  | nil => exact List.Pairwise.nil
  | @cons use piece uses pieces hpiece hrest ih =>
    obtain ⟨hfirst, huses⟩ := List.pairwise_cons.mp huses
    refine List.pairwise_append.mpr ⟨?_, ih huses, fun t ht u hu => ?_⟩
    · refine List.pairwise_of_forall_mem_list fun t ht u hu => ?_
      rw [hpiece.line_eq t ht, hpiece.line_eq u hu]
    · obtain ⟨other, hother, hline⟩ := hlines hrest u hu
      rw [hpiece.line_eq t ht, hline]
      exact hfirst other hother

end Token

/-- Of a line of a header all is left or nothing. -/
theorem row_preprocess (config : Configuration) (source : String) (k : Nat) :
    let row := (Text.pieces '\n' (preprocess config source).1)[k]?.getD []
    row = [] ∨ (Text.lines source.toList)[k]? = some row := by
  intro row
  let lines := Text.lines source.toList
  have hlength := (LinePart.length_ofLines false lines).symm
  have hpieces : Text.pieces '\n' (preprocess config source).1 =
      RegionState.keep config 1 {} lines (LinePart.ofLines false lines) ++ [[]] := by
    rw [preprocess_eq, Text.pieces_flatMap (lineFeed_notMem_keep config lines fun line =>
      Text.lineFeed_notMem_of_mem_lines)]
  simp only [row, hpieces]
  cases hline : lines[k]? with
  | none =>
    left
    have hle : lines.length ≤ k := List.getElem?_eq_none_iff.mp hline
    rw [List.getElem?_append_right (by rwa [RegionState.length_keep hlength]),
      RegionState.length_keep hlength]
    cases k - lines.length <;> rfl
  | some text =>
    have hlt : k < lines.length := (List.getElem?_eq_some_iff.mp hline).1
    rw [List.getElem?_append_left (by rwa [RegionState.length_keep hlength]),
      RegionState.getElem?_keep hlength, hline, Option.map_some, Option.getD_some]
    split
    · exact .inr rfl
    · exact .inl rfl

namespace Token

variable {config : Configuration} {source : String} {tokens : List Token}

/-- The tokens of a header are those that stand in it, each of them read as itself or as the
replacement of a macro, in the line of its use. What stands in the header carries the number of its
line: the line holds its text, together with the texts of all others that carry the number, one
behind the other. The lines of the tokens decrease nowhere. -/
theorem ofConfigured_lines (h : ofConfigured config (preprocess config source).1 = .ok tokens) :
    ∃ uses pieces, ofText (preprocess config source).1 = .ok uses ∧
      List.Forall₂ (ReadAs config) uses pieces ∧ tokens = pieces.flatten ∧
      (∀ use ∈ uses, 0 < use.line ∧ ∃ row, (Text.lines source.toList)[use.line - 1]? = some row ∧
        use.text.toList <:+: row ∧ StandIn (textsOf uses use.line) row) ∧
      tokens.Pairwise (·.line ≤ ·.line) := by
  obtain ⟨uses, pieces, huses, hpieces, rfl⟩ := exists_uses h
  have hread : List.Forall₂ (ReadAs config) uses pieces := hpieces.imp fun _ _ => readAs_of_expanded
  have hplaced := placed_of_scan huses
  refine ⟨uses, pieces, huses, hread, rfl, fun use huse => ?_,
    pairwise_flatten hread hplaced.pairwise⟩
  have hpos : 0 < use.line := hplaced.le use huse
  refine ⟨hpos, ?_⟩
  have hstand := hplaced.standIn (use.line - 1)
  rw [show 1 + (use.line - 1) = use.line by omega] at hstand
  have htext : use.text.toList ∈ textsOf uses use.line :=
    List.mem_map_of_mem (List.mem_filter.mpr ⟨huse, beq_self_eq_true _⟩)
  have hinfix := hstand.infix htext
  rcases row_preprocess config source (use.line - 1) with hnil | hrow
  · -- a token has a character, so nothing of it can stand in an emptied line
    rw [hnil] at hinfix
    exact absurd (List.infix_nil.mp hinfix) (isLexeme_of_scan huses use huse).solid.1
  · exact ⟨_, hrow, hinfix, hstand⟩

/-- A definition over two lines, a comment over two lines, a macro whose replacement has two lines,
and a region that is not selected. -/
theorem ofConfigured_lines_continued :
    let config : Configuration := { defines := [("N", "2 +\n3")] }
    let source := "#define A \\\n 1\nint /* a\n b */ x = N;\n#if 0\nint y;\n#endif\nint z;"
    let tokens : List Token :=
      [⟨.identifier, "int", 3⟩, ⟨.identifier, "x", 4⟩, ⟨.mark, "=", 4⟩, ⟨.number, "2", 4⟩,
      ⟨.mark, "+", 4⟩, ⟨.number, "3", 4⟩, ⟨.mark, ";", 4⟩, ⟨.identifier, "int", 8⟩,
        ⟨.identifier, "z", 8⟩, ⟨.mark, ";", 8⟩]
    ofConfigured config (preprocess config source).1 = .ok tokens ∧
      ∃ uses pieces, ofText (preprocess config source).1 = .ok uses ∧
        List.Forall₂ (ReadAs config) uses pieces ∧ tokens = pieces.flatten ∧
        (∀ use ∈ uses, 0 < use.line ∧ ∃ row, (Text.lines source.toList)[use.line - 1]? = some row ∧
          use.text.toList <:+: row ∧ StandIn (textsOf uses use.line) row) ∧
        tokens.Pairwise (·.line ≤ ·.line) := by
  intro config source tokens
  have hread : ofConfigured config (preprocess config source).1 = .ok tokens := by decide +kernel
  exact ⟨hread, ofConfigured_lines hread⟩

end Token

end Header

end Interop
