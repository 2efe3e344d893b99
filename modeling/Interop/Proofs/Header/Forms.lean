import Interop.Native.Declaration
import Interop.Proofs.Header.Steady

namespace Interop

open Header

/-- Whether declarations of the kind can hold nothing, inside of the named class or outside of
classes. -/
def Kind.isBareIn (inClass : Option String) : Kind → Bool
  | file | linkage | nameSpace | enumeration | enumerator | classType | functionTemplate
  | classTemplate | parameter =>
    false
  | constructor | memberFunction | memberVariable | baseClass => inClass.isSome
  | freeFunction | freeVariable => inClass.isNone
  | _ => true

namespace Declaration

variable {inClass : Option String} {d d' : Declaration} {ds ds' : List Declaration}

/-- Whether a declaration holds nothing and is of a kind that can stand inside of the named class or
outside of classes. -/
structure Bare (inClass : Option String) (d : Declaration) : Prop where
  kind : d.kind.isBareIn inClass = true
  children : d.children = []
  proxy : d.isProxy = false

/-- The forms of declarations. A declaration that stands for its children only occurs in a template
or a friend. -/
inductive Form : Option String → Declaration → Prop
  | bare {inClass : Option String} {d : Declaration} (hkind : d.kind.isBareIn inClass = true)
      (hbare : d.children = []) :
      Form inClass d
  | enumeration {inClass : Option String} {d : Declaration} (hkind : d.kind = .enumeration)
      (h : ∀ c ∈ d.children, c.kind = .enumerator ∧ c.children = [] ∧ c.isProxy = false) :
        Form inClass d
  | nameSpace {inClass : Option String} {d : Declaration} (hkind : d.kind = .nameSpace)
      (hname : Simple d.name)
      (hproxy : ∀ c ∈ d.children, c.isProxy = false) (h : ∀ c ∈ d.children, Form none c) :
        Form inClass d
  | group {inClass : Option String} {d : Declaration} (hkind : d.kind = .file ∨ d.kind = .linkage)
      (hproxy : ∀ c ∈ d.children, c.isProxy = false) (h : ∀ c ∈ d.children, Form inClass c) :
        Form inClass d
  | wrapper {inClass : Option String} {d : Declaration}
      (hkind : d.kind = .friend ∨ d.kind = .classTemplate ∨ d.kind = .functionTemplate)
      (h : ∀ c ∈ d.children, Form inClass c) : Form inClass d
  | classType {inClass : Option String} {d : Declaration} (hkind : d.kind = .classType ∨
      d.kind = .classSpecialization)
      (hname : Undotted d.name) (hproxy : ∀ c ∈ d.children, c.isProxy = false)
      (h : ∀ c ∈ d.children, Form (some d.name) c) : Form inClass d

/-- The form of a declaration depends on its kind, its name and its children alone. -/
theorem Form.change (h : d.Form inClass) (hkind : d'.kind = d.kind) (hname : d'.name = d.name)
    (hchildren : d'.children = d.children) : d'.Form inClass := by
  cases h with
  | bare hk hbare => exact .bare (hkind ▸ hk) (hchildren.trans hbare)
  | enumeration hk h => exact .enumeration (hkind.trans hk) (hchildren ▸ h)
  | nameSpace hk hn hproxy h =>
    exact .nameSpace (hkind.trans hk) (hname ▸ hn) (hchildren ▸ hproxy) (hchildren ▸ h)
  | group hk hproxy h => exact .group (hkind ▸ hk) (hchildren ▸ hproxy) (hchildren ▸ h)
  | wrapper hk h => exact .wrapper (hkind ▸ hk) (hchildren ▸ h)
  | classType hk hn hproxy h =>
    exact .classType (hkind ▸ hk) (hname ▸ hn) (hchildren ▸ hproxy)
      (by rw [hchildren, hname]; exact h)

/-- A declaration without types in it is well-formed. -/
theorem Bare.form (h : d.Bare inClass) : d.Form inClass :=
  .bare h.kind h.children

/-- Being bare depends on the kind, the children and being a proxy only. -/
theorem Bare.change (h : d.Bare inClass) (hkind : d'.kind = d.kind)
    (hchildren : d'.children = d.children) (hproxy : d'.isProxy = d.isProxy) : d'.Bare inClass :=
  ⟨hkind ▸ h.kind, hchildren.trans h.children, hproxy.trans h.proxy⟩

/-- Whether several declarations hold nothing. -/
def AllBare (inClass : Option String) (ds : List Declaration) : Prop :=
  ∀ d ∈ ds, d.Bare inClass

theorem AllBare.nil : AllBare inClass [] :=
  nofun

theorem AllBare.cons (h : d.Bare inClass) (hds : AllBare inClass ds) : AllBare inClass (d :: ds) :=
  List.forall_mem_cons.mpr ⟨h, hds⟩

theorem AllBare.reverse (h : AllBare inClass ds) : AllBare inClass ds.reverse :=
  fun d hd => h d (List.mem_reverse.mp hd)

theorem Bare.one (h : d.Bare inClass) : AllBare inClass [d] :=
  AllBare.nil.cons h

end Declaration

end Interop
