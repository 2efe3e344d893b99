import Interop.Proofs.Export.Walk

namespace Interop

namespace Declaration

mutual

/-- Whether in a declaration inside of a container of kind `around` everything stands where it fits.
Files, language linkages and what templates and friends wrap do not count as containers. -/
def Nested (fits : Kind → Kind → Prop) (around : Kind) : Declaration → Prop
  | { kind, name, access, isTemplated, isFriended, flags, type?, returnType?, parameters,
      value?, line, children } =>
    let d : Declaration :=
      { kind, name, access, isTemplated, isFriended, flags, type?, returnType?, parameters,
        value?, line, children }
    if kind == .file || d.isProxy || kind == .linkage then NestedAll fits around children
    else fits kind around ∧ NestedAll fits kind children

/-- Whether in each of several declarations everything stands where it fits. -/
def NestedAll (fits : Kind → Kind → Prop) (around : Kind) : List Declaration → Prop
  | [] => True
  | d :: rest => Nested fits around d ∧ NestedAll fits around rest

end

variable {fits fits' : Kind → Kind → Prop} {around : Kind}

theorem nested_eq (fits : Kind → Kind → Prop) (around : Kind) (d : Declaration) :
    d.Nested fits around =
      if d.kind == .file || d.isProxy || d.kind == .linkage then NestedAll fits around d.children
      else fits d.kind around ∧ NestedAll fits d.kind d.children := by
  cases d
  rw [Nested]

/-- Declarations are nested well exactly if each of them is. -/
theorem nestedAll_iff {ds : List Declaration} :
    NestedAll fits around ds ↔ ∀ d ∈ ds, d.Nested fits around := by
  induction ds with
  | nil => simp [NestedAll]
  | cons d rest ih => simp [NestedAll, ih]

mutual

/-- What stands where it fits in two ways stands where it fits in both. -/
theorem Nested.and :
    (d : Declaration) → (around : Kind) → d.Nested fits around → d.Nested fits' around →
    d.Nested (fun kind outer => fits kind outer ∧ fits' kind outer) around
  | { kind, name, access, isTemplated, isFriended, flags, type?, returnType?, parameters,
      value?, line, children }, around, h, h' => by
    rw [Nested] at h h' ⊢
    split at h
    · rename_i hwrapper
      rw [if_pos hwrapper] at h' ⊢
      exact NestedAll.and children around h h'
    · rename_i hwrapper
      rw [if_neg hwrapper] at h' ⊢
      exact ⟨⟨h.1, h'.1⟩, NestedAll.and children kind h.2 h'.2⟩

/-- Two ways of fitting may be combined. -/
theorem NestedAll.and : (ds : List Declaration) → (around : Kind) → NestedAll fits around ds →
    NestedAll fits' around ds →
      NestedAll (fun kind outer => fits kind outer ∧ fits' kind outer) around ds
  | [], _, _, _ => trivial
  | d :: rest, around, h, h' => ⟨Nested.and d around h.1 h'.1, NestedAll.and rest around h.2 h'.2⟩

end

mutual

/-- If everything fits everywhere, all declarations are nested well. -/
theorem nested_of_forall (h : ∀ kind outer, fits kind outer) :
    (d : Declaration) → (around : Kind) → d.Nested fits around
  | { kind, name, access, isTemplated, isFriended, flags, type?, returnType?, parameters,
      value?, line, children }, around => by
    rw [Nested]
    split
    · exact nestedAll_of_forall h children around
    · exact ⟨h _ _, nestedAll_of_forall h children kind⟩

theorem nestedAll_of_forall (h : ∀ kind outer, fits kind outer) :
    (ds : List Declaration) → (around : Kind) → NestedAll fits around ds
  | [], _ => trivial
  | d :: rest, around => ⟨nested_of_forall h d around, nestedAll_of_forall h rest around⟩

end

section Decidable

variable [∀ kind around, Decidable (fits kind around)]
mutual

def decideNested : (d : Declaration) → (around : Kind) → Decidable (d.Nested fits around)
  | { kind, name, access, isTemplated, isFriended, flags, type?, returnType?, parameters,
      value?, line, children }, around =>
    have := decideNestedAll children around
    have := decideNestedAll children kind
    decidable_of_iff _ (Iff.of_eq (nested_eq fits around
      { kind, name, access, isTemplated, isFriended, flags, type?, returnType?, parameters,
        value?, line, children }).symm)

def decideNestedAll :
    (ds : List Declaration) → (around : Kind) → Decidable (NestedAll fits around ds)
  | [], _ => .isTrue trivial
  | d :: rest, around =>
    have := decideNested d around
    have := decideNestedAll rest around
    decidable_of_iff (Nested fits around d ∧ NestedAll fits around rest) .rfl

end

instance (d : Declaration) (around : Kind) : Decidable (d.Nested fits around) :=
  decideNested d around

end Decidable

end Declaration

namespace Export.Builder

open Overlay

/-- What the steps of a pass have in common: they lead from a workspace to one that `R` relates to
it, and the node of a container is one for which `Ok` holds, whatever happens later. -/
structure Steps (b : Builder) (fits : Kind → Kind → Prop) (R : Workspace → Workspace → Prop)
    (Ok : Kind → NodeId → Workspace → Prop) : Prop where
  refl : ∀ w, R w w
  trans : ∀ {w w' w''}, R w w' → R w' w'' → R w w''
  mono : ∀ {w w' kind id}, R w w' → Ok kind id w → Ok kind id w'
  linkage : ∀ {top d w}, d.kind = .linkage → b.enter top d w = (some top, w)
  enter : ∀ {kind top d w}, Ok kind top w → d.kind ≠ .linkage → fits d.kind kind →
    R w (b.enter top d w).2 ∧ ∀ inner, (b.enter top d w).1 = some inner →
      Ok d.kind inner (b.enter top d w).2
  leaf : ∀ {kind top d w}, Ok kind top w → fits d.kind kind → R w (b.leaf top d w)

namespace Steps

variable {b : Builder} {fits : Kind → Kind → Prop} {R : Workspace → Workspace → Prop}
  {Ok : Kind → NodeId → Workspace → Prop}

mutual

/-- What the steps have in common holds of the pass over a declaration. -/
theorem build (h : b.Steps fits R Ok) : (d : Declaration) → (kind : Kind) → (top : NodeId) →
    (w : Workspace) → d.Nested fits kind → Ok kind top w → R w (b.build top d w)
  | { kind := inner, name, access, isTemplated, isFriended, flags, type?, returnType?, parameters,
      value?, line, children }, kind, top, w, hnested, hok => by
    rw [Declaration.Nested] at hnested
    rw [Builder.build]
    obtain ⟨d, hd⟩ : ∃ d : Declaration,
      Declaration.mk inner name access isTemplated isFriended flags type?
      returnType? parameters value? line children = d := ⟨_, rfl⟩
    have hkind : d.kind = inner := by rw [← hd]
    rw [hd] at hnested ⊢
    split
    · rename_i hwrapper
      rw [if_pos (by rw [hwrapper]; rfl)] at hnested
      exact h.buildAll children kind top w hnested hok
    · rename_i hwrapper
      split
      · by_cases hlinkage : inner = .linkage
        · rw [if_pos (by rw [hlinkage]; simp)] at hnested
          rw [h.linkage (hkind.trans hlinkage)]
          exact h.buildAll children kind top w hnested hok
        · rw [if_neg (by simpa [hlinkage] using hwrapper)] at hnested
          have hfits : fits d.kind kind := hkind ▸ hnested.1
          obtain ⟨hrel, hinner⟩ := h.enter hok (hkind ▸ hlinkage) hfits
          cases henter : b.enter top d w with
          | mk entered w' =>
            rw [henter] at hrel hinner
            cases entered with
            | none => exact hrel
            | some node =>
              exact h.trans hrel
                (h.buildAll children inner node w' hnested.2 (hkind ▸ hinner node rfl))
      · rename_i hleaf
        have hlinkage : inner ≠ .linkage := by
          rintro rfl
          exact hleaf rfl
        rw [if_neg (by simpa [hlinkage] using hwrapper)] at hnested
        exact h.leaf hok (hkind ▸ hnested.1)

/-- The same for several declarations. -/
theorem buildAll (h : b.Steps fits R Ok) :
    (ds : List Declaration) → (kind : Kind) → (top : NodeId) →
    (w : Workspace) → Declaration.NestedAll fits kind ds → Ok kind top w → R w (b.buildAll top ds w)
  | [], _, _, w, _, _ => h.refl w
  | d :: rest, kind, top, w, hnested, hok => by
    rw [Builder.buildAll]
    have hd := h.build d kind top w hnested.1 hok
    exact h.trans hd (h.buildAll rest kind top _ hnested.2 (h.mono hd hok))

end

end Steps

end Export.Builder

end Interop
