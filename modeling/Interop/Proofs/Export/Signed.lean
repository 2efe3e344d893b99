import Interop.Proofs.Generator.Titled
import Interop.Proofs.Header.Units

namespace Interop

namespace Symbol

/-- Whether a symbol ends in a name. -/
def Closed (symbol : String) : Prop :=
  ∃ c, symbol.toList.getLast? = some c ∧ c ≠ ':'

variable {scope name : String}

/-- A name that is qualified with a simple one is closed, whatever the scope is. -/
theorem closed_qualify (hname : name ≠ "") (hsimple : Header.Simple name) :
    Closed (qualify scope name) := by
  have hne : name.toList ≠ [] := fun hnil => hname (String.toList_eq_nil_iff.mp hnil)
  have hcolon : name.toList.getLast hne ≠ ':' := by
    intro heq
    exact absurd (hsimple _ (List.getLast_mem hne)) (by rw [heq]; decide)
  refine ⟨name.toList.getLast hne, ?_, hcolon⟩
  unfold qualify
  split
  · exact List.getLast?_eq_some_getLast hne
  · rw [String.toList_append, List.getLast?_append_of_ne_nil _ hne,
      List.getLast?_eq_some_getLast hne]

/-- What has no name has no symbol that ends in one. -/
theorem not_closed_qualify_empty : ¬Closed (qualify scope "") := by
  rintro ⟨c, hlast, hcolon⟩
  unfold qualify at hlast
  split at hlast
  · cases hlast
  · rw [String.append_empty, String.toList_append, show "::".toList = [':', ':'] from rfl,
      List.getLast?_append] at hlast
    exact hcolon (Option.some.inj hlast).symm

end Symbol

namespace Overlay

variable {w w' : Workspace} {parent : NodeId} {m n : Node} {names : List String}

/-- Whether symbols tell where nodes stand, and that of a namespace ends in its name. -/
structure Signed (w : Workspace) : Prop extends Titled w where
  closed : ∀ id n, w.forest.content? id = some n → n.kind = .nameSpace → Symbol.Closed n.symbol

namespace Signed

/-- Symbols tell where nodes stand after a node has been added whose symbol does. -/
theorem grow (h : Signed w) (hfresh : n.IsFresh) (htitled : Titled (w.grow parent n names))
    (hclosed : n.kind = .nameSpace → Symbol.Closed n.symbol) : Signed (w.grow parent n names) where
  toTitled := htitled
  closed id k hk := by
    rw [Workspace.content?_grow hfresh] at hk
    split at hk
    · exact Option.some.inj hk ▸ hclosed
    · exact h.closed id k hk

/-- Dropping trees keeps the symbols of the others signed. -/
theorem release (h : Signed w) (held : List NodeId) : Signed (w.release held) where
  toTitled := h.toTitled.release held
  closed id n hn := h.closed id n (h.wellFormed.content?_release.mp hn).1

/-- Dropping names keeps the others signed. -/
theorem prune (h : Signed w) : Signed { w with symbols := w.symbols.prune w.forest } where
  toTitled := h.toTitled.prune
  closed := h.closed

/-- A new root bears no name. -/
theorem plant (h : Signed w) : Signed (Generator.plant w).2 where
  toTitled := h.toTitled.plant
  closed id n hn hkind := by
    rw [show (Generator.plant w).2.forest = w.forest.push Node.root from rfl,
      Forest.content?_push] at hn
    split at hn
    · rw [← Option.some.inj hn] at hkind
      cases hkind
    · exact h.closed id n hn hkind

/-- The classes for globals are no namespaces. -/
theorem steps {root : NodeId} (h : Signed w) (hsteps : Globals.Steps root w w') : Signed w' where
  toTitled := h.toTitled.steps hsteps
  closed id n hn hkind :=
    h.closed id n (Globals.Steps.content?_of_ne_class hsteps h.wellFormed hn
      (by simp [hkind])) hkind

/-- Naming keeps kinds and symbols. -/
theorem reshaped (h : Signed w) (hshapes : w.Reshaped w') : Signed w' where
  toTitled := h.toTitled.reshaped hshapes
  closed id n' hn' hkind := by
    obtain ⟨n, hn, hshape⟩ := hshapes.exists_content hn'
    rw [show n'.symbol = n.symbol from Node.eq_of_shape Node.symbol (fun _ => rfl) hshape]
    exact h.closed id n hn ((Node.kind_eq_of_shape hshape).symm.trans hkind)

end Signed

end Overlay

end Interop
