import Interop.Proofs.Overlay.Shift
import Interop.Proofs.Overlay.Walk

namespace Interop.Overlay.Forest

variable {σ τ : Type} {k : Nat} {forest : σ → Forest}
    {visit : WalkEvent → NodeId → Access → σ → Bool × σ}
  {forest' : τ → Forest} {visit' : WalkEvent → NodeId → Access → τ → Bool × τ}

/-- What visits keep, walks keep. -/
theorem walked_keeps {I : σ → Prop}
    (hkeeps : ∀ event id access s, I s → I (visit event id access s).2) (bound : Nat) (id : NodeId)
    {s : σ} (h : I s) : I (walked forest visit bound id s) :=
  walked_rel (R := fun s s' => I s → I s') (fun _ h => h) (fun h h' hs => h' (h hs)) hkeeps bound
    id s h

/-- A walk over a shifted forest does what the walk over the forest does. -/
theorem walked_shift (φ : σ → τ) (I : σ → Prop)
    (hkeeps : ∀ event id access s, I s → I (visit event id access s).2)
    (hforest : ∀ s, forest' (φ s) = (forest s).shift k)
    (hvisit : ∀ event (id : NodeId) access s, I s →
      visit' event (id.shift k) access (φ s) = ((visit event id access s).1,
        φ (visit event id access s).2))
    (bound : Nat) (id : NodeId) {s : σ} (h : I s) :
    walked forest' visit' bound (id.shift k) (φ s) = φ (walked forest visit bound id s) := by
  induction bound generalizing id s with
  | zero => rfl
  | succ bound ih =>
    have hall : ∀ (cs : List NodeId) (s : σ), I s →
        (cs.map (·.shift k)).foldl (fun s c => walked forest' visit' bound c s) (φ s) =
          φ (cs.foldl (fun s c => walked forest visit bound c s) s) ∧
        I (cs.foldl (fun s c => walked forest visit bound c s) s) := by
      intro cs
      induction cs with
      | nil => exact fun s h => ⟨rfl, h⟩
      | cons c rest ihrest =>
        intro s h
        rw [List.map_cons, List.foldl_cons, List.foldl_cons, ih c h]
        exact ihrest _ (walked_keeps hkeeps bound c h)
    rw [walked, walked, hforest, node?_shift]
    cases hn : (forest s).node? id with
    | none => rfl
    | some n =>
      simp only [Option.map_some]
      have hproxy : (n.shift k).isProxy = n.isProxy := rfl
      have hkind : (n.shift k).kind = n.kind := rfl
      have haccess : (n.shift k).access = n.access := rfl
      rw [hproxy, hkind, haccess]
      split
      · exact (hall n.children s h).1
      · split
        · rw [hvisit .enter id n.access s h]
          have hentered := hkeeps .enter id n.access s h
          cases hvisited : visit .enter id n.access s with
          | mk deeper s' =>
            rw [hvisited] at hentered
            simp only
            split
            · obtain ⟨hbelow, hkept⟩ := hall ((forest s').children id) s' hentered
              rw [hforest, children_shift, hbelow, hvisit .exit id n.access _ hkept]
            · rfl
        · rw [hvisit .leaf id n.access s h]

/-- A walk does not depend on its bound. `height` is a number that is less for what is walked below
a node than for the node itself. -/
theorem walked_eq_of_height (I : σ → Prop) (height : NodeId → Nat)
    (hkeeps : ∀ event id access s, I s → I (visit event id access s).2)
    (hplain : ∀ s id n, I s → (forest s).node? id = some n → n.isProxy = false)
    (hheight : ∀ s id n, I s → (forest s).node? id = some n → n.kind.isContainer = true →
      (visit .enter id n.access s).1 = true →
        ∀ c ∈ (forest (visit .enter id n.access s).2).children id, height c < height id)
    {bound other : Nat} {id : NodeId} (hbound : height id < bound) (hother : height id < other)
    {s : σ} (h : I s) :
    walked forest visit bound id s = walked forest visit other id s := by
  induction bound generalizing other id s with
  | zero => omega
  | succ bound ih =>
    cases other with
    | zero => omega
    | succ other =>
      have hall : ∀ (cs : List NodeId), (∀ c ∈ cs, height c < height id) → ∀ s : σ, I s →
          cs.foldl (fun s c => walked forest visit bound c s) s =
            cs.foldl (fun s c => walked forest visit other c s) s := by
        intro cs
        induction cs with
        | nil => exact fun _ _ _ => rfl
        | cons c rest ihrest =>
          intro hlower s h
          have hc := hlower c List.mem_cons_self
          have hsame : walked forest visit bound c s = walked forest visit other c s :=
            ih (by omega) (by omega) h
          rw [List.foldl_cons, List.foldl_cons, ← hsame]
          exact ihrest (fun c hc => hlower c (List.mem_cons_of_mem _ hc))
            _ (walked_keeps hkeeps bound c h)
      rw [walked, walked]
      cases hn : (forest s).node? id with
      | none => rfl
      | some n =>
        simp only [hplain s id n h hn, Bool.false_eq_true, if_false]
        split
        · rename_i hcontainer
          have hlower := hheight s id n h hn hcontainer
          have hentered := hkeeps .enter id n.access s h
          cases hvisited : visit .enter id n.access s with
          | mk deeper s' =>
            rw [hvisited] at hlower hentered
            simp only
            split
            · rename_i hdeeper
              rw [hall _ (hlower hdeeper) s' hentered]
            · rfl
        · rfl

end Interop.Overlay.Forest
