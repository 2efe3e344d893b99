import Interop.Native.Declaration

namespace Interop

/-- What a walk reports. -/
inductive WalkEvent where
  | enter
  | exit
  | leaf
deriving DecidableEq, Repr

namespace WalkEvent

/-- The word for an event. -/
def word : WalkEvent → String
  | enter => "enter"
  | exit => "exit"
  | leaf => "leaf"

end WalkEvent

namespace Declaration

variable {m : Type → Type} [Monad m]

mutual

/-- Walks a declaration. The answer to an entry decides whether the children are walked; the exit
follows in any case. -/
def walk (visit : WalkEvent → Declaration → m Bool) : Declaration → m Unit
  | { kind, name, access, isTemplated, isFriended, flags, type?, returnType?, parameters,
      value?, line, children } => do
    let d : Declaration :=
      { kind, name, access, isTemplated, isFriended, flags, type?, returnType?, parameters,
        value?, line, children }
    if kind == .file || d.isProxy then walkAll visit children
    else if kind.isContainer then
      if ← visit .enter d then walkAll visit children
      discard <| visit .exit d
    else discard <| visit .leaf d

/-- Walks declarations one after the other. -/
def walkAll (visit : WalkEvent → Declaration → m Bool) : List Declaration → m Unit
  | [] => pure ()
  | d :: rest => do
    walk visit d
    walkAll visit rest

end

end Declaration

end Interop
