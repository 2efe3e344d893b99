import Interop.Proofs.Overlay.Lineage
import Mathlib.Data.List.Nodup

namespace Interop.Overlay.Forest

variable {f : Forest} {id key parent c d top : NodeId} {n : Node} {stops : Kind → Bool}
    {bound : Nat}

/-- The nodes that a walk enters, in this order. It goes no deeper below kinds that it stops at. -/
def preorder (f : Forest) (stops : Kind → Bool) : (bound : Nat) → NodeId → List NodeId
  | 0, _ => []
  | bound + 1, id =>
    match f.node? id with
    | none => []
    | some n => id :: if stops n.kind then [] else (f.children id).flatMap (f.preorder stops bound)

/-- What is reached in preorder lies in the tree and is there. -/
theorem within_of_mem_preorder (h : f.WellFormed) (hmem : key ∈ f.preorder stops bound id) :
    f.Within id key ∧ ∃ n, f.content? key = some n := by
  induction bound generalizing id with
  | zero => cases hmem
  | succ bound ih =>
    unfold preorder at hmem
    cases hn : f.node? id with
    | none =>
      rw [hn] at hmem
      cases hmem
    | some n =>
      rw [hn] at hmem
      rcases List.mem_cons.mp hmem with rfl | hbelow
      · exact ⟨.self, n.unlinked, content?_of_node? hn⟩
      · split at hbelow
        · cases hbelow
        · obtain ⟨c, hc, hkey⟩ := List.mem_flatMap.mp hbelow
          obtain ⟨hwithin, hcontent⟩ := ih hkey
          have hparent := (h.links id c).mp hc
          exact ⟨Within.trans (.step hparent .self) hwithin, hcontent⟩

/-- A bound that leaves room for the ranks below a node lets the walk reach everything below it that
lies behind no stop. -/
theorem mem_preorder (h : f.WellFormed) (hbound : f.size - f.rank id < bound)
    (hwithin : f.Within id key) (hkey : ∃ n, f.content? key = some n)
    (hopen : ∀ outer n, f.content? outer = some n → stops n.kind = true → f.Within outer key →
      outer = key) :
    key ∈ f.preorder stops bound id := by
  induction bound generalizing id with
  | zero => omega
  | succ bound ih =>
    unfold preorder
    by_cases heq : key = id
    · subst heq
      obtain ⟨n, hn⟩ := hkey
      obtain ⟨k, hk, _⟩ := Option.map_eq_some_iff.mp hn
      rw [hk]
      exact List.mem_cons_self
    · obtain ⟨c, hparent, hbelow⟩ := hwithin.child heq
      have hc := (h.links id c).mpr hparent
      obtain ⟨n, hn⟩ := exists_content_of_mem_children hc
      obtain ⟨k, hk, rfl⟩ := Option.map_eq_some_iff.mp hn
      have hnot : ¬stops k.kind = true := fun hstops => heq (hopen id _ hn hstops hwithin).symm
      have hlt := h.rank_lt hparent
      have hle := f.rank_le_size c
      rw [hk]
      simp only [if_neg hnot]
      apply List.mem_cons_of_mem
      apply List.mem_flatMap.mpr
      exact ⟨c, hc, ih (by omega) hbelow⟩

/-- Of two nodes around a third one, one lies within the other. -/
theorem Within.total (hc : f.Within c key) (hd : f.Within d key) : f.Within c d ∨ f.Within d c := by
  induction hc with
  | self => exact .inr hd
  | step hparent hc ih =>
    cases hd with
    | self => exact .inl (.step hparent hc)
    | step hparent' hd =>
      rw [hparent, Option.some.injEq] at hparent'
      subst hparent'
      exact ih hd

/-- In a well-formed forest the rank does not fall on the way down. -/
theorem WellFormed.rank_le_of_within (h : f.WellFormed) (hwithin : f.Within top id) :
    f.rank top ≤ f.rank id := by
  induction hwithin with
  | self => exact Nat.le_refl _
  | step hparent _ ih => exact Nat.le_trans ih (Nat.le_of_lt (h.rank_lt hparent))

/-- Below one parent no node lies within another. -/
theorem WellFormed.eq_of_within_sibling (h : f.WellFormed) (hc : f.parent? c = some parent)
    (hd : f.parent? d = some parent) (hwithin : f.Within c d) : c = d := by
  cases hwithin with
  | self => rfl
  | step hparent hup =>
    rw [hd, Option.some.injEq] at hparent
    subst hparent
    have hle := h.rank_le_of_within hup
    have hlt := h.rank_lt hc
    omega

/-- Preorder reaches no node twice. -/
theorem preorder_nodup (h : f.WellFormed) : (f.preorder stops bound id).Nodup := by
  induction bound generalizing id with
  | zero => exact List.nodup_nil
  | succ bound ih =>
    unfold preorder
    cases f.node? id with
    | none => exact List.nodup_nil
    | some n =>
      apply List.nodup_cons.mpr
      constructor
      · intro hmem
        split at hmem
        · cases hmem
        · obtain ⟨c, hc, hid⟩ := List.mem_flatMap.mp hmem
          have hparent := (h.links id c).mp hc
          have hle := h.rank_le_of_within (within_of_mem_preorder h hid).1
          have hlt := h.rank_lt hparent
          omega
      · split
        · exact List.nodup_nil
        · apply List.nodup_flatMap.mpr
          refine ⟨fun c _ => ih, ?_⟩
          apply (h.nodup id).imp_of_mem
          intro c d hc hd hne key hkey hkey'
          have hparent := (h.links id c).mp hc
          have hparent' := (h.links id d).mp hd
          have htotal := (within_of_mem_preorder h hkey).1.total (within_of_mem_preorder h hkey').1
          rcases htotal with hcd | hdc
          · exact hne (h.eq_of_within_sibling hparent hparent' hcd)
          · exact hne (h.eq_of_within_sibling hparent' hparent hdc).symm

end Interop.Overlay.Forest
