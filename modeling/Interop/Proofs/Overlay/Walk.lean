import Interop.Overlay.Walk
import Interop.Proofs.Overlay.Lineage

namespace Interop.Overlay.Forest

variable {σ : Type}

/-- The state that a walk leaves, as deep as the bound allows. `forest` tells the forest of a
state. -/
def walked (forest : σ → Forest) (visit : WalkEvent → NodeId → Access → σ → Bool × σ) :
    (bound : Nat) → NodeId → σ → σ
  | 0, _, s => s
  | bound + 1, id, s =>
    match (forest s).node? id with
    | none => s
    | some n =>
      if n.isProxy then n.children.foldl (fun s c => walked forest visit bound c s) s
      else if n.kind.isContainer then
        let (deeper, s) := visit .enter id n.access s
        if deeper then
          let s := ((forest s).children id).foldl (fun s c => walked forest visit bound c s) s
          (visit .exit id n.access s).2
        else s
      else (visit .leaf id n.access s).2

/-- How the computations of a monad act on states. -/
structure Runs (m : Type → Type) [Monad m] (σ : Type) where
  run : {α : Type} → m α → σ → α × σ
  pure : ∀ {α : Type} (a : α) (s : σ), run (Pure.pure a) s = (a, s)
  bind : ∀ {α β : Type} (x : m α) (f : α → m β) (s : σ), run (x >>= f) s =
    run (f (run x s).1) (run x s).2
  discard : ∀ {α : Type} (x : m α) (s : σ), run (discard x) s = ((), (run x s).2)

variable {m : Type → Type} [Monad m] {forest : σ → Forest}
  {visit : WalkEvent → NodeId → Access → σ → Bool × σ} {current : m Forest}
  {visitM : WalkEvent → NodeId → Access → m Bool}

/-- Running an action for each item is a fold over the states. -/
theorem Runs.forM (r : Runs m σ) {α : Type} {f : α → m Unit} {g : σ → α → σ} (items : List α)
    (h : ∀ a s, r.run (f a) s = ((), g s a)) (s : σ) :
    r.run (items.forM f) s = ((), items.foldl g s) := by
  induction items generalizing s with
  | nil => exact r.pure () s
  | cons a rest ih =>
    have hcons : (a :: rest).forM f = (f a >>= fun _ => rest.forM f) := rfl
    rw [hcons, r.bind, h]
    exact ih _

/-- A walk leaves the state that the function says. -/
theorem run_walkWithin (r : Runs m σ) (hcurrent : ∀ s, r.run current s = (forest s, s))
    (hvisit : ∀ event id access s, r.run (visitM event id access) s = visit event id access s)
    (bound : Nat) (id : NodeId) (s : σ) :
    r.run (walkWithin current visitM bound id) s = ((), walked forest visit bound id s) := by
  induction bound generalizing id s with
  | zero => exact r.pure () s
  | succ bound ih =>
    rw [walkWithin, r.bind, hcurrent, walked]
    cases (forest s).node? id with
    | none => exact r.pure () s
    | some n =>
      simp only
      split
      · exact r.forM n.children ih s
      · split
        · rw [r.bind, hvisit]
          cases hentered : visit .enter id n.access s with
          | mk deeper s' =>
            simp only
            split
            · rw [r.bind, hcurrent, r.bind, r.forM _ ih, r.discard, hvisit]
            · exact r.pure () s'
        · rw [r.discard, hvisit]

/-- State monads. -/
def Runs.state (σ : Type) : Runs (StateM σ) σ where
  run x s := x.run s
  pure _ _ := rfl
  bind _ _ _ := rfl
  discard _ _ := rfl

/-- Two states, one on top of the other. -/
def Runs.stacked (τ σ : Type) : Runs (StateT τ (StateM σ)) (τ × σ) where
  run x s := let r := (x.run s.1).run s.2; (r.1.1, r.1.2, r.2)
  pure _ _ := rfl
  bind _ _ _ := rfl
  discard _ _ := rfl

/-- What holds between the states around each visit holds between those around the walk. -/
theorem walked_rel {R : σ → σ → Prop} (hrefl : ∀ s, R s s)
    (htrans : ∀ {s s' s''}, R s s' → R s' s'' → R s s'')
    (hvisit : ∀ event id access s, R s (visit event id access s).2) (bound : Nat) (id : NodeId)
    (s : σ) :
    R s (walked forest visit bound id s) := by
  induction bound generalizing id s with
  | zero => exact hrefl s
  | succ bound ih =>
    have hall : ∀ (cs : List NodeId) (s : σ),
        R s (cs.foldl (fun s c => walked forest visit bound c s) s) := by
      intro cs
      induction cs with
      | nil => exact hrefl
      | cons c rest ihs => exact fun s => htrans (ih c s) (ihs _)
    rw [walked]
    split
    · exact hrefl s
    · split
      · exact hall _ s
      · split
        · rename_i n _ _ _
          have henter := hvisit .enter id n.access s
          cases hentered : visit .enter id n.access s with
          | mk deeper s' =>
            rw [hentered] at henter
            simp only
            split
            · exact htrans henter (htrans (hall _ s') (hvisit .exit id n.access _))
            · exact henter
        · exact hvisit .leaf id _ s

end Interop.Overlay.Forest
