import Interop.Json.Record
import Interop.Proofs.Rules.Pattern
import Interop.Rules.Selection
import Mathlib.Logic.Basic

namespace Interop.Selection

variable {s s' : Selection} {text : String} {json : Json} {items : List Json} {texts : List String}

/-- What a pattern of the signed form says: its text without the sign, and whether it includes. -/
def signed (text : String) : String × Bool :=
  match text.toList with
  | '-' :: rest => (String.ofList rest, false)
  | '+' :: rest => (String.ofList rest, true)
  | _ => (text, true)

/-- The texts of the signed patterns that include, or of those that exclude. -/
def signedAs (isInclude : Bool) (texts : List String) : List String :=
  ((texts.map signed).filter (·.2 == isInclude)).map Prod.fst

/-- The texts in an object's list of a role. -/
def listedAs (role : String) (members : List (String × Json)) : List String :=
  (((members.lookup role).bind Json.items?).getD []).filterMap Json.string?

/-- The texts of the include and of the exclude patterns that a JSON value writes. -/
def written : Json → List String × List String
  | .array items =>
    let texts := items.filterMap Json.string?
    (signedAs true texts, signedAs false texts)
  | .object members => (listedAs "include" members, listedAs "exclude" members)
  | .string text => ([text], [])
  | _ => ([], [])

/-- The object whose two lists hold the patterns of a list of signed patterns. -/
def distributed (items : List Json) : Json :=
  .object [("exclude", .array ((written (.array items)).2.map .string)),
    ("include", .array ((written (.array items)).1.map .string))]

/-- A selection with further patterns. -/
def extended (s : Selection) (includes excludes : List String) : Selection :=
  ⟨s.includes ++ includes.map Pattern.mk, s.excludes ++ excludes.map Pattern.mk⟩

/-- Whether a pattern of the given text is not refused. -/
def Accepts (text : String) : Prop :=
  Pattern.ofText? text = some ⟨text⟩

@[simp]
theorem extended_nil (s : Selection) : s.extended [] [] = s := by
  simp [extended]

@[simp]
theorem extended_extended (s : Selection) (includes excludes includes' excludes' : List String) :
    (s.extended includes excludes).extended includes' excludes' = s.extended
    (includes ++ includes') (excludes ++ excludes') := by
  simp [extended]

/-- The pattern of a text that is not refused. -/
def accepted (text : String) : Except ConfigError Pattern :=
  match Pattern.ofText? text with
  | some p => .ok p
  | none => .error (.patternTooLarge text)

/-- An include pattern is added at the end, unless it is refused. -/
theorem including_eq_ok : s.including text = .ok s' ↔ Accepts text ∧ s' = s.extended [text] [] := by
  have heq : s.including text = accepted text >>= fun p =>
    .ok { s with includes := s.includes ++ [p] } := rfl
  rw [heq, accepted, Accepts]
  cases htext : Pattern.ofText? text with
  | none => simp [bind, Except.bind]
  | some p => simp [bind, Except.bind, Pattern.eq_of_ofText? htext, extended, eq_comm]

/-- An exclude pattern is added at the end, unless it is refused. -/
theorem excluding_eq_ok : s.excluding text = .ok s' ↔ Accepts text ∧ s' = s.extended [] [text] := by
  have heq : s.excluding text = accepted text >>= fun p =>
    .ok { s with excludes := s.excludes ++ [p] } := rfl
  rw [heq, accepted, Accepts]
  cases htext : Pattern.ofText? text with
  | none => simp [bind, Except.bind]
  | some p => simp [bind, Except.bind, Pattern.eq_of_ofText? htext, extended, eq_comm]

/-- A text without a sign includes. -/
theorem signed_of_unsigned (hminus : text.toList.head? ≠ some '-')
    (hplus : text.toList.head? ≠ some '+') :
    signed text = (text, true) := by
  unfold signed
  split
  · rename_i htext
    rw [htext] at hminus
    exact absurd rfl hminus
  · rename_i htext
    rw [htext] at hplus
    exact absurd rfl hplus
  · rfl

/-- A signed pattern is added as its sign says. -/
theorem addSigned_eq (s : Selection) (text : String) :
    s.addSigned text = if (signed text).2 then s.including (signed text).1
      else s.excluding (signed text).1 := by
  rw [addSigned, Text.afterString?, Text.afterString?]
  cases htext : text.toList with
  | nil =>
    rw [signed_of_unsigned (by rw [htext]; nofun) (by rw [htext]; nofun)]
    rfl
  | cons c rest =>
    by_cases hminus : c = '-'
    · subst hminus
      rw [signed, htext]
      rfl
    · by_cases hplus : c = '+'
      · subst hplus
        rw [signed, htext]
        rfl
      · rw [signed_of_unsigned (by simpa [htext] using hminus) (by simpa [htext] using hplus)]
        simp [Text.after?, Ne.symm hminus, Ne.symm hplus]

theorem signedAs_cons (isInclude : Bool) (text : String) (texts : List String) :
    signedAs isInclude (text :: texts) =
      (if (signed text).2 = isInclude then [(signed text).1]
          else []) ++ signedAs isInclude texts := by
  by_cases h : (signed text).2 = isInclude <;> simp [signedAs, h]

theorem signedAs_cons_eq_append (isInclude : Bool) (text : String) (texts : List String) :
    signedAs isInclude (text :: texts) = signedAs isInclude [text] ++ signedAs isInclude texts := by
  rw [signedAs_cons, signedAs_cons isInclude text [], List.append_assoc]
  rfl

/-- A signed pattern is added to one of the two lists, unless it is refused. -/
theorem addSigned_eq_ok : s.addSigned text = .ok s' ↔
    Accepts (signed text).1 ∧ s' = s.extended (signedAs true [text]) (signedAs false [text]) := by
  rw [addSigned_eq]
  cases hsign : (signed text).2 with
  | true => simp [including_eq_ok, signedAs, hsign]
  | false => simp [excluding_eq_ok, signedAs, hsign]

section Lists

variable {add : Selection → String → Except ConfigError Selection} {accepts : String → Prop}

/-- Adds the pattern that an item of a list is. -/
def addItem (add : Selection → String → Except ConfigError Selection) (s : Selection) :
    Json → Except ConfigError Selection
  | .string text => add s text
  | other => .error (.patternNotString other)

/-- A list is added if all its items are texts of patterns that are not refused. -/
theorem foldlM_addItem (includes excludes : List String → List String)
    (hadd : ∀ s text s', add s text = .ok s' ↔ accepts text ∧
      s' = s.extended (includes [text]) (excludes [text]))
    (hincludes : ∀ text texts, includes (text :: texts) = includes [text] ++ includes texts)
    (hnone : includes [] = [])
    (hexcludes : ∀ text texts, excludes (text :: texts) = excludes [text] ++ excludes texts)
    (hnone' : excludes [] = []) :
    items.foldlM (addItem add) s = .ok s' ↔
      ∃ texts, items = texts.map .string ∧ (∀ text ∈ texts, accepts text) ∧
          s' = s.extended (includes texts) (excludes texts) := by
  induction items generalizing s with
  | nil =>
    constructor
    · rintro ⟨⟩
      exact ⟨[], rfl, nofun, by rw [hnone, hnone', extended_nil]⟩
    · rintro ⟨texts, htexts, -, rfl⟩
      rw [List.map_eq_nil_iff.mp htexts.symm, hnone, hnone', extended_nil]
      rfl
  | cons item items ih =>
    rw [List.foldlM_cons]
    constructor
    · intro h
      cases item with
      | string text =>
        cases hfirst : add s text with
        | error e =>
          rw [addItem, hfirst] at h
          cases h
        | ok s₁ =>
          rw [addItem, hfirst] at h
          obtain ⟨haccepts, rfl⟩ := (hadd _ _ _).mp hfirst
          obtain ⟨texts, rfl, hall, rfl⟩ := ih.mp h
          refine ⟨text :: texts, rfl, List.forall_mem_cons.mpr ⟨haccepts, hall⟩, ?_⟩
          rw [extended_extended, ← hincludes, ← hexcludes]
      | _ => cases h
    · rintro ⟨texts, htexts, hall, rfl⟩
      obtain ⟨text, texts, rfl, rfl, hitems⟩ := List.map_eq_cons_iff.mp htexts.symm
      obtain ⟨haccepts, hall⟩ := List.forall_mem_cons.mp hall
      rw [addItem, (hadd s text _).mpr ⟨haccepts, rfl⟩]
      refine ih.mpr ⟨texts, hitems.symm, hall, ?_⟩
      rw [extended_extended, ← hincludes, ← hexcludes]

end Lists

/-- A list of signed patterns is accepted exactly if all items are texts that are not refused, and
it is divided by their signs. -/
theorem foldlM_addSigned : items.foldlM (addItem addSigned) s = .ok s' ↔
    ∃ texts, items = texts.map .string ∧ (∀ text ∈ texts, Accepts (signed text).1) ∧
      s' = s.extended (signedAs true texts) (signedAs false texts) :=
  foldlM_addItem (signedAs true) (signedAs false) (fun _ _ _ => addSigned_eq_ok)
    (signedAs_cons_eq_append true) rfl
    (signedAs_cons_eq_append false) rfl

/-- A list of include patterns is accepted exactly if all items are texts that are not refused. -/
theorem foldlM_including : items.foldlM (addItem including) s = .ok s' ↔
    ∃ texts, items = texts.map .string ∧ (∀ text ∈ texts, Accepts text) ∧
      s' = s.extended texts [] :=
  foldlM_addItem id (fun _ => []) (fun _ _ _ => including_eq_ok) (fun _ _ => rfl) rfl
    (fun _ _ => rfl) rfl

/-- A list of exclude patterns is accepted exactly if all items are texts that are not refused. -/
theorem foldlM_excluding : items.foldlM (addItem excluding) s = .ok s' ↔
    ∃ texts, items = texts.map .string ∧ (∀ text ∈ texts, Accepts text) ∧
      s' = s.extended [] texts :=
  foldlM_addItem (fun _ => []) id (fun _ _ _ => excluding_eq_ok) (fun _ _ => rfl) rfl
    (fun _ _ => rfl) rfl

theorem filterMap_string? (texts : List String) :
    (texts.map Json.string).filterMap Json.string? = texts := by
  rw [List.filterMap_map]
  exact List.filterMap_some

/-- Adds an object's list of patterns, if it has one. -/
def addListed (add : Selection → String → Except ConfigError Selection) (role : String)
    (members : List (String × Json)) (s : Selection) : Except ConfigError Selection :=
  match members.lookup role with
  | none => .ok s
  | some (.array items) => items.foldlM (addItem add) s
  | some _ => .error (.patternsNotArray role)

theorem ofJson_array (items : List Json) :
    ofJson (.array items) = items.foldlM (addItem addSigned) all := by
  change List.foldlM _ _ _ = _
  congr 1
  funext s item
  cases item <;> rfl

/-- An object is read by its include list and then by its exclude list, in whatever order these
stand. -/
theorem ofJson_object (members : List (String × Json)) :
    ofJson (.object members) = (do
      let s ← addListed including "include" members all
      addListed excluding "exclude" members s) := by
  have hitem : ∀ (add : Selection → String → Except ConfigError Selection) (s : Selection)
      (item : Json),
      (do add s (←
        (match item with
          | .string text => .ok text
          | other => .error (.patternNotString other)))) = addItem add s item := by
    intro add s item
    cases item <;> rfl
  have hitems : ∀ add : Selection → String → Except ConfigError Selection, _ = addItem add :=
    fun add => funext fun s => funext fun item => hitem add s item
  unfold addListed
  simp only [← hitems]
  rfl

/-- A list that is missing adds what an empty one adds. -/
theorem addListed_eq_ok {add : Selection → String → Except ConfigError Selection}
    (put : List String → Selection) {role : String} {members : List (String × Json)}
    (hnone : put [] = s)
    (hadd : ∀ items s', items.foldlM (addItem add) s = .ok s' → ∃ texts,
      items = texts.map .string ∧ s' = put texts)
    (h : addListed add role members s = .ok s') : s' = put (listedAs role members) := by
  unfold addListed at h
  split at h
  · rename_i hlookup
    cases h
    rw [listedAs, hlookup]
    exact hnone.symm
  · rename_i items hlookup
    obtain ⟨texts, rfl, rfl⟩ := hadd items s' h
    have htexts : listedAs role members = texts := by
      rw [listedAs, hlookup]
      exact filterMap_string? texts
    rw [htexts]
  · cases h

/-- An object's include list adds the texts that are listed. -/
theorem addListed_including {role : String} {members : List (String × Json)}
    (h : addListed including role members s = .ok s') :
    s' = s.extended (listedAs role members) [] :=
  addListed_eq_ok (s.extended · []) (extended_nil s)
    (fun _ _ h => (foldlM_including.mp h).imp fun _ hadded => ⟨hadded.1, hadded.2.2⟩) h

/-- An object's exclude list adds the texts that are listed. -/
theorem addListed_excluding {role : String} {members : List (String × Json)}
    (h : addListed excluding role members s = .ok s') :
    s' = s.extended [] (listedAs role members) :=
  addListed_eq_ok (s.extended [] ·) (extended_nil s)
    (fun _ _ h => (foldlM_excluding.mp h).imp fun _ hadded => ⟨hadded.1, hadded.2.2⟩) h

/-- The selection that a JSON value describes has the patterns that the value writes. -/
theorem extended_of_ofJson (h : ofJson json = .ok s) :
    s = all.extended (written json).1 (written json).2 := by
  cases json with
  | array items =>
    rw [ofJson_array] at h
    obtain ⟨texts, rfl, -, rfl⟩ := foldlM_addSigned.mp h
    rw [written, filterMap_string?]
  | object members =>
    rw [ofJson_object] at h
    cases hincludes : addListed including "include" members all with
    | error e =>
      rw [hincludes] at h
      cases h
    | ok s₁ =>
      rw [hincludes] at h
      rw [addListed_excluding h, addListed_including hincludes, extended_extended, List.append_nil,
        List.nil_append, written]
  | string text => exact (including_eq_ok.mp h).2
  | null | bool | number => cases h

/-- Signed patterns may as well be distributed to the two lists of an object. -/
theorem ofJson_distributed (h : ofJson (.array items) = .ok s) :
    ofJson (distributed items) = .ok s := by
  rw [ofJson_array] at h
  obtain ⟨texts, rfl, haccepts, rfl⟩ := foldlM_addSigned.mp h
  have hall : ∀ isInclude, ∀ text ∈ signedAs isInclude texts, Accepts text := by
    intro isInclude text htext
    obtain ⟨named, hnamed, rfl⟩ := List.mem_map.mp htext
    obtain ⟨written, hwritten, rfl⟩ := List.mem_map.mp (List.mem_filter.mp hnamed).1
    exact haccepts written hwritten
  have hincludes : ((signedAs true texts).map .string).foldlM (addItem including) all =
      .ok (all.extended (signedAs true texts) []) :=
    foldlM_including.mpr ⟨_, rfl, hall true, rfl⟩
  have hexcludes : ((signedAs false texts).map .string).foldlM (addItem excluding)
      (all.extended (signedAs true texts) []) =
          .ok (all.extended (signedAs true texts) (signedAs false texts)) :=
    foldlM_excluding.mpr ⟨_, rfl, hall false,
      by rw [extended_extended, List.append_nil, List.nil_append]⟩
  rw [distributed, written, filterMap_string?, ofJson_object]
  calc addListed including "include" _ all >>= addListed excluding "exclude" _
    _ = ((signedAs true texts).map .string).foldlM (addItem including) all >>=
        ((signedAs false texts).map .string).foldlM (addItem excluding) := rfl
    _ = .ok (all.extended (signedAs true texts) (signedAs false texts)) := by
        rw [hincludes]
        exact hexcludes

/-- A value is selected if an include pattern matches, or there is none, and no exclude pattern
does. -/
theorem selects_iff (s : Selection) (value : String) :
    s.selects value = true ↔
      (s.includes = [] ∨ ∃ p ∈ s.includes, p.isMatch value = true) ∧
          ∀ p ∈ s.excludes, ¬p.isMatch value = true := by
  simp [selects]

/-- Of the values that a selection is asked for it selects those that some include pattern of its
description covers, if there is one, and no exclude pattern; and the lists of an object describe the
selection that their patterns with signs describe. -/
theorem ofJson_selects (h : ofJson json = .ok s) :
    (∀ value : String, s.selects value = true ↔
      ((written json).1 = [] ∨ ∃ pattern ∈ (written json).1, Glob pattern.toList value.toList) ∧
        ∀ pattern ∈ (written json).2, ¬Glob pattern.toList value.toList) ∧
    ∀ items, json = .array items → ofJson (distributed items) = .ok s := by
  refine ⟨fun value => ?_, fun items heq => ofJson_distributed (heq ▸ h)⟩
  have hincludes : s.includes = (written json).1.map Pattern.mk := by
    rw [extended_of_ofJson h]
    exact List.nil_append _
  have hexcludes : s.excludes = (written json).2.map Pattern.mk := by
    rw [extended_of_ofJson h]
    exact List.nil_append _
  simp only [selects_iff, hincludes, hexcludes, Pattern.isMatch_iff, List.map_eq_nil_iff,
    List.mem_map, exists_exists_and_eq_and, forall_exists_index, and_imp, forall_apply_eq_imp_iff₂]

/-- A star meets a slash but no line feed, a second sign belongs to the pattern, and marks of other
pattern languages stand for themselves. -/
theorem ofJson_selects_signed :
    let items := [Json.string "A*(.)", .string "-*?]", .string "+-+"]
    ∃ s, ofJson (.array items) = .ok s ∧ ofJson (distributed items) = .ok s ∧
      s.selects "A/b(.)" = true ∧ s.selects "-+" = true ∧ s.selects "A\n(.)" = false := by
  intro items
  let s : Selection := ⟨[⟨"A*(.)"⟩, ⟨"-+"⟩], [⟨"*?]"⟩]⟩
  have hok : ofJson (.array items) = .ok s := rfl
  obtain ⟨hselects, hdistributed⟩ := ofJson_selects hok
  have hexcludes : (written (.array items)).2 = ["*?]"] := by decide
  have hapart : ∀ value : String, (Pattern.mk "*?]").isMatch value = false →
      ∀ pattern ∈ (written (.array items)).2, ¬Glob pattern.toList value.toList := by
    intro value hvalue pattern hpattern hglob
    rw [hexcludes, List.mem_singleton] at hpattern
    have hmatch := (Pattern.isMatch_iff ⟨"*?]"⟩ value).mpr (hpattern ▸ hglob)
    rw [hvalue] at hmatch
    cases hmatch
  have hstar : Glob "*(.)".toList (['/', 'b'] ++ "(.)".toList) :=
    .star (by decide) ((Pattern.isMatch_iff ⟨"(.)"⟩ "(.)").mp rfl)
  have hcovered : Glob "A*(.)".toList "A/b(.)".toList := .literal (by decide) (by decide) hstar
  refine ⟨s, hok, hdistributed items rfl, ?_, ?_, rfl⟩
  · exact (hselects _).mpr ⟨.inr ⟨"A*(.)", List.mem_cons_self, hcovered⟩, hapart _ rfl⟩
  · exact (hselects _).mpr ⟨.inr ⟨"-+", by decide, (Pattern.isMatch_iff ⟨"-+"⟩ "-+").mp rfl⟩,
      hapart _ rfl⟩

end Interop.Selection
