import Interop.Proofs.Emit.ClassBlocks

namespace Interop.Emit

open Overlay

/-- What tells a member apart from the others of its class. -/
inductive MemberKey where
  /-- A constructor is told by the types of its parameters. -/
  | constructor (types : List String)
  /-- Any other member is told by its name and the types of its parameters; a value has none. -/
  | named (name : String) (types : List String)
deriving DecidableEq, Repr

namespace MemberKey

/-- The signature of a function with a key. -/
def functionSignature : MemberKey → String
  | constructor types => ".ctor(" ++ ", ".intercalate types ++ ")"
  | named name types => name ++ "(" ++ ", ".intercalate types ++ ")"

/-- The signature of a value with a key. -/
def valueSignature : MemberKey → String
  | constructor _ => ""
  | named name _ => name

end MemberKey

namespace ManagedMember

/-- The key of a member. -/
def key : ManagedMember → MemberKey
  | .constructor _ _ parameters _ => .constructor (parameters.map (·.managed))
  | .method _ _ name parameters _ => .named name (parameters.map (·.managed))
  | .constant _ name _ => .named name []
  | .property _ _ name _ _ => .named name []

/-- Whether a member is a value and no function. -/
def isValue : ManagedMember → Bool
  | .constructor .. => false
  | .method .. => false
  | .constant .. => true
  | .property .. => true

variable {m : ManagedMember} {members : List ManagedMember}

/-- The signature of a function is its name with the types of its parameters. -/
theorem signature_of_function (h : m.isValue = false) : m.signature = m.key.functionSignature := by
  cases m with
  | constructor owner isDerived parameters bridge => rfl
  | method modifier result name parameters statement => rfl
  | constant type name value => cases h
  | property isStatic type name getter setter? => cases h

/-- The signature of a value is its name alone. -/
theorem signature_of_value (h : m.isValue = true) : m.signature = m.key.valueSignature := by
  cases m with
  | constructor owner isDerived parameters bridge => cases h
  | method modifier result name parameters statement => cases h
  | constant type name value => rfl
  | property isStatic type name getter setter? => rfl

/-- Members of one sort have keys of their own if their signatures are their own. -/
private theorem keys_nodup {sort : ManagedMember → Bool} {ofKey : MemberKey → String}
    (hsignature : ∀ m, sort m = true → m.signature = ofKey m.key)
    (h : (members.map signature).Nodup) :
    ((members.filter sort).map key).Nodup := by
  have hmap : ((members.filter sort).map key).map ofKey = (members.filter sort).map signature := by
    rw [List.map_map]
    exact List.map_congr_left fun m hm => (hsignature m (List.mem_filter.mp hm).2).symm
  exact List.Nodup.of_map ofKey (hmap ▸ h.sublist (List.filter_sublist.map signature))

/-- If no signature is repeated, no two functions have the same key. Values are left out, since
their signatures are made in another way. -/
theorem functions_nodup (h : (members.map signature).Nodup) :
    ((members.filter fun m => !m.isValue).map key).Nodup :=
  keys_nodup (fun _ hm => signature_of_function ((Bool.not_eq_true' _).mp hm)) h

/-- If no signature is repeated, no two values have the same key. -/
theorem values_nodup (h : (members.map signature).Nodup) :
    ((members.filter isValue).map key).Nodup :=
  keys_nodup (fun _ hm => signature_of_value hm) h

end ManagedMember

/-- A member that a class has of itself. -/
inductive OwnMember where
  /-- The handle of the native object. -/
  | handle
  /-- The objects by handle. -/
  | cache
  /-- The constructor that takes a handle. -/
  | adopt
  /-- The look-up of an object by its handle. -/
  | lookUp
  /-- The release of the native object. -/
  | release
deriving DecidableEq, Repr

namespace OwnMember

/-- The key of a member. -/
def key : OwnMember → MemberKey
  | handle => .named "instance_" []
  | cache => .named "cache_" []
  | adopt => .constructor ["IntPtr"]
  | lookUp => .named "GetManagedInstance" ["IntPtr"]
  | release => .named "Dispose" []

/-- A class prints each of the members that make it disposable at most once. -/
theorem key_injective : Function.Injective key := by
  intro m m'
  cases m <;> cases m' <;> decide

/-- The row that declares a member. -/
def declaration (c : ManagedClass) : OwnMember → String
  | handle => "internal IntPtr instance_;"
  | cache =>
    let map := "Dictionary<IntPtr, " ++ c.name ++ ">"
    "internal static " ++ hide ++ map ++ " cache_ = new " ++ map ++ "();"
  | adopt => "internal " ++ c.name ++ "(IntPtr instance)" ++ ManagedMember.baseCall c.base?.isSome
  | lookUp => "internal static " ++ hide ++ c.name ++ " GetManagedInstance(IntPtr instance)"
  | release => "public " ++ (if c.base?.isSome then "override" else "virtual") ++ " void Dispose()"
where
  /-- What a member that hides one of the base begins with. -/
  hide : String := if c.base?.isSome then "new " else ""

end OwnMember

namespace ManagedClass

/-- The members that a class has of itself: a static class has none, and a derived one has the
handle of its base. -/
def ownMembers (c : ManagedClass) : List OwnMember :=
  if c.isStatic then []
  else if c.base?.isSome then [.cache, .adopt, .lookUp, .release]
  else [.handle, .cache, .adopt, .lookUp, .release]

theorem ownMembers_nodup (c : ManagedClass) : c.ownMembers.Nodup := by
  unfold ownMembers
  split
  · decide
  · split <;> decide

end ManagedClass

/-- The rows of a level that are no braces and not empty. -/
def Printer.spoken (level : Nat) (p : Printer) : List String :=
  (p.rows.reverse.filter fun r => r.level == level && decide (Spoken r.text)).map Row.text

/-- Whether a printer is at its level again, and has gone on by some texts at a level, apart from
braces and empty rows. -/
structure Prints (level : Nat) (texts : List String) (p q : Printer) : Prop where
  back : q.level = p.level
  spoken : q.spoken level = p.spoken level ++ texts

namespace Prints

variable {level : Nat} {texts : List String} {p q : Printer} {inside : Printer → Printer}

theorem refl (level : Nat) (p : Printer) : Prints level [] p p :=
  ⟨rfl, (List.append_nil _).symm⟩

theorem line (h : Prints level texts p q) (text : String) :
    Prints level (texts ++ if q.level = level ∧
      Spoken text then [text] else []) p (q.line text) := by
  refine ⟨h.back, ?_⟩
  have hspoken := h.spoken
  unfold Printer.spoken at hspoken ⊢
  rw [Printer.line, List.reverse_cons, List.filter_append, List.map_append, hspoken,
    List.append_assoc]
  congr 2
  by_cases htext : q.level = level ∧ Spoken text
  · simp [htext]
  · rw [if_neg htext, List.filter_cons_of_neg (by simpa using htext)]
    rfl

/-- An empty line is no line of a member. -/
theorem mute (h : Prints level texts p q) {text : String} (htext : ¬Spoken text) :
    Prints level texts p (q.line text) := by
  simpa [htext] using h.line text

theorem blank (h : Prints level texts p q) : Prints level texts p q.blank :=
  h.mute (by decide)

/-- A row that stands deeper is not one of the level. -/
theorem deep (h : Prints level texts p q) (hdeep : level < p.level) (text : String) :
    Prints level texts p (q.line text) := by
  have hlevel : q.level ≠ level := by rw [h.back]; omega
  simpa [hlevel] using h.line text

/-- A line at the level of the members is one of their lines. -/
theorem row (h : Prints p.level texts p q) {text : String} (htext : Spoken text) :
    Prints p.level (texts ++ [text]) p (q.line text) := by
  simpa [h.back, htext] using h.line text

/-- The inside of a block stands deeper. -/
theorem inner (h : Prints level texts p q) (hlevel : level ≤ p.level)
    (hinside : ∀ r, level < r.level → Prints level [] r (inside r)) :
    Prints level texts p (inside q.indent).dedent := by
  have hopened : q.indent.spoken level = q.spoken level :=
    (h.mute (by decide : ¬Spoken "\x7b")).spoken.trans h.spoken.symm
  have hdeep : level < q.level + 1 := by
    rw [h.back]
    omega
  have hdone := hinside q.indent hdeep
  have hback : (inside q.indent).level - 1 = q.level := by
    rw [hdone.back]
    rfl
  have hclosed : Prints level texts p { inside q.indent with level :=
      (inside q.indent).level - 1 } := by
    refine ⟨hback.trans h.back, ?_⟩
    have hspoken := hdone.spoken
    rw [List.append_nil, hopened, h.spoken] at hspoken
    exact hspoken
  exact hclosed.mute (by decide)

/-- A block at the level of the members shows its header there. What is inside must stay on deeper
levels. -/
theorem block (h : Prints p.level texts p q) {header : String} (hheader : Spoken header)
    (hinside : ∀ r, p.level < r.level → Prints p.level [] r (inside r)) :
    Prints p.level (texts ++ [header]) p (q.block header inside) :=
  (h.row hheader).inner (Nat.le_refl _) hinside

/-- A block inside of a member shows nothing at the level of the members. -/
theorem deepBlock (h : Prints level texts p q) (hdeep : level < p.level) (header : String)
    (hinside : ∀ r, level < r.level → Prints level [] r (inside r)) :
    Prints level texts p (q.block header inside) :=
  (h.deep hdeep header).inner (Nat.le_of_lt hdeep) hinside

theorem deepLines (hdeep : level < p.level) (lines : List String) (h : Prints level texts p q) :
    Prints level texts p (q.lines lines) := by
  induction lines generalizing q with
  | nil => exact h
  | cons text rest ih => exact ih (h.deep hdeep text)

end Prints

theorem OwnMember.declaration_spoken (c : ManagedClass) (m : OwnMember) :
    Spoken (m.declaration c) := by
  cases m with
  | handle => exact (by decide : Spoken "internal IntPtr instance_;")
  | cache => exact .behind _ (by decide)
  | adopt => exact .before (.before (.before (by decide) _) _) _
  | lookUp => exact .behind _ (by decide)
  | release => exact .behind _ (by decide)

/-- What a class begins with is the declarations of its own members, and else only braces, empty
rows and what stands inside of blocks. -/
theorem ManagedClass.printStart_prints (c : ManagedClass) (p : Printer) :
    Prints p.level (c.ownMembers.map (OwnMember.declaration c)) p (c.printStart p) := by
  have hadopt : ∀ r : Printer, p.level < r.level → Prints p.level [] r
      ((r.line "instance_ = instance;").block "if (instance != IntPtr.Zero)"
          (·.line "cache_[instance] = this;")) :=
    fun r hr => ((Prints.refl _ r).deep hr _).deepBlock hr _ fun r hr => (Prints.refl _ r).deep hr _
  have hlookUp : ∀ r : Printer, p.level < r.level → Prints p.level [] r
      ((((r.block "if (instance == IntPtr.Zero)" (·.line "return null;")).line
        (c.name ++ " value;")).block
        "if (cache_.TryGetValue(instance, out value))" (·.line "return value;")).line
          ("return new " ++ c.name ++ "(instance);")) :=
    fun r hr => ((((Prints.refl _ r).deepBlock hr _ fun r hr => (Prints.refl _ r).deep hr _).deep
      hr _).deepBlock hr _
      fun r hr => (Prints.refl _ r).deep hr _).deep hr _
  have hrelease : ∀ r : Printer, p.level < r.level → Prints p.level [] r
      (r.block "if (instance_ != IntPtr.Zero)"
        (·.lines ["cache_.Remove(instance_);", c.destructor ++ "(instance_);",
            "instance_ = IntPtr.Zero;"])) :=
    fun r hr => (Prints.refl _ r).deepBlock hr _ fun r hr => (Prints.refl _ r).deepLines hr _
  unfold printStart
  cases hstatic : c.isStatic with
  | true =>
    unfold ownMembers
    rw [if_pos hstatic]
    exact .refl _ p
  | false =>
    have hhandle : Prints p.level (if c.base?.isSome then []
        else [OwnMember.handle.declaration c]) p
        (if c.base?.isSome then p else p.line "internal IntPtr instance_;") := by
      split
      · exact .refl _ p
      · exact (Prints.refl _ p).row (OwnMember.declaration_spoken c .handle)
    have hall := (((((((hhandle.row (OwnMember.declaration_spoken c .cache)).blank).block
      (OwnMember.declaration_spoken c .adopt) hadopt).blank).block
        (OwnMember.declaration_spoken c .lookUp)
        hlookUp).blank).block (OwnMember.declaration_spoken c .release) hrelease).blank
    have htexts : c.ownMembers.map (OwnMember.declaration c) =
        (if c.base?.isSome then [] else [OwnMember.handle.declaration c]) ++
          [OwnMember.cache.declaration c] ++ [OwnMember.adopt.declaration c] ++
              [OwnMember.lookUp.declaration c] ++ [OwnMember.release.declaration c] := by
      unfold ownMembers
      rw [hstatic]
      cases c.base?.isSome <;> rfl
    rw [htexts]
    exact hall

/-- Whether the members of every class block have signatures of their own. -/
def Signed (items : List ManagedItem) : Prop :=
  ∀ item ∈ items, ∀ b ∈ item.classBlocks, (b.members.map ManagedMember.signature).Nodup

theorem ManagedItem.mem_classBlocksAll {items : List ManagedItem} {b : ClassBlock} :
    b ∈ classBlocksAll items ↔ ∃ item ∈ items, b ∈ item.classBlocks := by
  induction items with
  | nil => exact iff_of_false List.not_mem_nil nofun
  | cons item rest ih => rw [classBlocksAll, List.mem_append, ih, List.exists_mem_cons_iff]

namespace Signed

variable {items items' : List ManagedItem}

/-- Signatures stay apart in blocks that follow each other, for each class block is checked on its
own. -/
theorem append (h : Signed items) (h' : Signed items') : Signed (items ++ items') :=
  fun item hitem => (List.mem_append.mp hitem).elim (h item) (h' item)

theorem reverse (h : Signed items) : Signed items.reverse :=
  fun item hitem => h item (List.mem_reverse.mp hitem)

theorem singleton {item : ManagedItem}
    (h : ∀ b ∈ item.classBlocks, (b.members.map ManagedMember.signature).Nodup) :
    Signed [item] :=
  fun _ hitem => List.mem_singleton.mp hitem ▸ h

theorem classBlocksAll (h : Signed items) :
    ∀ b ∈ ManagedItem.classBlocksAll items, (b.members.map ManagedMember.signature).Nodup := by
  intro b hb
  obtain ⟨item, hitem, hblock⟩ := ManagedItem.mem_classBlocksAll.mp hb
  exact h item hitem b hblock

end Signed

/-- Whether each open class has noted the signatures of what would stand in its block, which are
their own. The module's own namespace is no block, so a class is told, too, what has been found in
namespaces further in. -/
def Noted : List ManagedMember → List BlockFrame → Prop
  | _, [] => True
  | found, frame :: outer =>
    let members := found ++ ManagedItem.members frame.items
    Signed frame.items ∧
      match frame.block with
      | .nameSpace _ => Noted members outer
      | .classType _ _ =>
        (members.map ManagedMember.signature).Nodup ∧
          (∀ m ∈ members, m.signature ∈ frame.signatures) ∧ Noted [] outer

namespace Noted

variable {found found' : List ManagedMember} {frames outer : List BlockFrame} {frame : BlockFrame}
  {items : List ManagedItem}

theorem sublist (h : Noted found frames) (hfound : found'.Sublist found) : Noted found' frames := by
  induction frames generalizing found found' with
  | nil => trivial
  | cons frame outer ih =>
    have hmembers := hfound.append (List.Sublist.refl (ManagedItem.members frame.items))
    unfold Noted at h ⊢
    refine ⟨h.1, ?_⟩
    cases hblock : frame.block with
    | nameSpace name? =>
      rw [hblock] at h
      exact ih h.2 hmembers
    | classType c isInheritable =>
      rw [hblock] at h
      obtain ⟨-, hnodup, htaken, houter⟩ := h
      exact ⟨hnodup.sublist (hmembers.map _), fun m hm => htaken m (hmembers.subset hm), houter⟩

/-- A block that is opened has nothing in it. -/
theorem openBlock (h : Noted [] frames) (block : OpenBlock) : Noted [] ({ block } :: frames) := by
  unfold Noted
  refine ⟨nofun, ?_⟩
  cases block with
  | nameSpace name? => exact h
  | classType c isInheritable => exact ⟨.nil, nofun, h⟩

/-- What has been found further in may be put into the innermost block. -/
theorem put (h : Noted (found ++ ManagedItem.members items.reverse) (frame :: outer))
    (hitems : Signed items) :
    Noted found ({ frame with items := items.reverse ++ frame.items } :: outer) := by
  have hmembers : found ++ ManagedItem.members (items.reverse ++ frame.items) =
      found ++ ManagedItem.members items.reverse ++ ManagedItem.members frame.items := by
    rw [ManagedItem.members, List.filterMap_append, List.append_assoc]
    rfl
  unfold Noted at h ⊢
  refine ⟨hitems.reverse.append h.1, ?_⟩
  simp only [hmembers]
  exact h.2

/-- A class may take a member whose signature it has not noted, if it notes it. -/
theorem note {m : ManagedMember} {f : BlockFrame} {change : BlockFrame → BlockFrame}
    (hchange : ∀ frame, (change frame).block = frame.block ∧ (change frame).items = frame.items ∧
      (change frame).signatures = m.signature :: frame.signatures)
    (h : Noted found frames) (hclass : frames.find? (·.class?.isSome) = some f)
    (hfree : m.signature ∉ f.signatures) :
    Noted (m :: found) (ManagedState.changeClass change frames) := by
  induction frames generalizing found with
  | nil => cases hclass
  | cons frame outer ih =>
    obtain ⟨hblock', hitems', hsignatures'⟩ := hchange frame
    unfold Noted at h
    unfold ManagedState.changeClass
    rw [List.find?_cons] at hclass
    unfold BlockFrame.class? at hclass ⊢
    cases hblock : frame.block with
    | nameSpace name? =>
      rw [hblock] at h hclass
      simp only [Option.isSome_none, Bool.false_eq_true, if_false]
      unfold Noted
      rw [hblock]
      exact ⟨h.1, ih h.2 hclass⟩
    | classType c isInheritable =>
      rw [hblock] at h hclass
      simp only [Option.isSome_some, if_true]
      obtain rfl : frame = f := Option.some.inj hclass
      obtain ⟨hsigned, hnodup, htaken, houter⟩ := h
      unfold Noted
      rw [hblock', hblock, hitems', hsignatures']
      refine ⟨hsigned, List.nodup_cons.mpr ⟨fun hmem => ?_, hnodup⟩, fun other hother => ?_, houter⟩
      · obtain ⟨other, hother, hsame⟩ := List.mem_map.mp hmem
        exact hfree (hsame ▸ htaken other hother)
      · rcases List.mem_cons.mp hother with rfl | hother
        · exact List.mem_cons_self
        · exact List.mem_cons_of_mem _ (htaken other hother)

end Noted

namespace ManagedState

/-- What a class notes when it takes an offered member. -/
def noting (o : Offer) (frame : BlockFrame) : BlockFrame :=
  { frame with
    bridges := o.bridges.reverse ++ frame.bridges
    signatures := o.signature :: frame.signatures }

/-- It does not matter whether a member is noted or put first. -/
theorem addMember_eq (state : ManagedState) (o : Offer) :
    state.addMember o.signature o.member o.bridges =
    { state with frames := changeClass (noting o) state.frames }.put [.member o.member] := by
  unfold addMember put
  cases hopen : state.frames with
  | nil => rfl
  | cons frame outer =>
    obtain ⟨block, items, bridges, signatures⟩ := frame
    cases block <;> rfl

/-- Whether all members have signatures of their own in their classes, the open ones and the closed
ones. -/
structure Signed (state : ManagedState) : Prop where
  items : Emit.Signed state.items
  frames : Noted [] state.frames

namespace Signed

variable {state : ManagedState} {items : List ManagedItem}

theorem put (hstate : Emit.Signed state.items)
    (hframes : Noted (ManagedItem.members items.reverse) state.frames)
    (hitems : Emit.Signed items) : (state.put items).Signed := by
  unfold ManagedState.put
  split
  · rename_i hopen
    refine ⟨hitems.reverse.append hstate, ?_⟩
    rw [hopen]
    trivial
  · rename_i frame outer hopen
    exact ⟨hstate, Noted.put (by rw [List.nil_append, ← hopen]; exact hframes) hitems⟩

theorem openBlock (h : state.Signed) (block : OpenBlock) : (state.openBlock block).Signed :=
  ⟨h.items, h.frames.openBlock block⟩

/-- A block that is closed takes its members' signatures along. -/
theorem closeBlock (h : state.Signed) : state.closeBlock.Signed := by
  unfold ManagedState.closeBlock
  cases hopen : state.frames with
  | nil => exact h
  | cons frame outer =>
    have hframes := h.frames
    rw [hopen] at hframes
    unfold Noted at hframes
    simp only
    unfold BlockFrame.close
    cases hblock : frame.block with
    | nameSpace name? =>
      rw [hblock] at hframes
      obtain ⟨hsigned, houter⟩ := hframes
      cases name? with
      | none =>
        refine .put h.items ?_ hsigned.reverse
        rw [List.reverse_reverse]
        exact houter
      | some name =>
        exact .put h.items (houter.sublist (List.nil_sublist _))
          (.singleton hsigned.reverse.classBlocksAll)
    | classType c isInheritable =>
      rw [hblock] at hframes
      obtain ⟨hsigned, hnodup, -, houter⟩ := hframes
      refine .put h.items houter (.singleton fun b hb => ?_)
      rcases List.mem_cons.mp hb with rfl | hb
      · rw [ManagedItem.members, List.filterMap_reverse, List.map_reverse, List.nodup_reverse]
        exact hnodup
      · exact hsigned.reverse.classBlocksAll b hb

/-- A proper offer is taken only if its signature is new, so signatures stay apart. -/
theorem take (h : state.Signed) {o : Offer} (ho : o.Proper) : (state.take o).Signed := by
  unfold ManagedState.take
  split
  · exact h
  · rename_i hfree
    obtain ⟨f, hclass, hfree⟩ : ∃ f, state.frames.find? (·.class?.isSome) = some f ∧
        o.member.signature ∉ f.signatures := by
      unfold isTaken at hfree
      cases hclass : state.frames.find? (·.class?.isSome) with
      | none => exact absurd (by rw [hclass]; rfl) hfree
      | some f =>
        rw [hclass] at hfree
        refine ⟨f, rfl, fun hmem => hfree ?_⟩
        rw [ho.signed]
        exact List.contains_iff_mem.mpr hmem
    have hnoted : Noted [o.member] (changeClass (noting o) state.frames) :=
      h.frames.note (fun frame => ⟨rfl, rfl, congrArg (· :: frame.signatures) ho.signed⟩)
        hclass hfree
    rw [addMember_eq]
    exact .put h.items hnoted (.singleton nofun)

/-- Steps that only offer members keep signatures apart. -/
theorem offers {step : ManagedState → ManagedState} (hstep : Offers step) (h : state.Signed) :
    (step state).Signed := by
  cases hclass : state.class? with
  | none =>
    rw [hstep.outside state hclass]
    exact h
  | some c =>
    rcases hstep.inside c with hstays | ⟨o, ho, htakes⟩
    · rw [hstays state hclass]
      exact h
    · rw [htakes state hclass]
      exact h.take ho

/-- Every step of the walk leaves the members of each class with signatures of their own. -/
theorem step (h : state.Signed) (s : Surroundings) (w : Workspace) (event : WalkEvent)
    (id : NodeId) :
    (ManagedState.step s w event id state).2.Signed := by
  unfold ManagedState.step
  simp only
  split
  · exact h.openBlock _
  · exact h.openBlock _
  · exact h.closeBlock
  · exact h.closeBlock
  · exact .put h.items h.frames (.singleton nofun)
  · exact offers (addLeaf_offers s w _) h
  · exact h

end Signed

end ManagedState

namespace ClassBlock

/-- The keys of all members of a class block. -/
def keys (b : ClassBlock) : List MemberKey :=
  b.class_.ownMembers.map OwnMember.key ++ b.members.map ManagedMember.key

/-- Whether the members of a class block keep apart where no signature tells them apart. -/
structure Apart (b : ClassBlock) : Prop where
  /-- No member has the key of one that the class has of itself. -/
  own : ∀ m ∈ b.members, ∀ o ∈ b.class_.ownMembers, m.key ≠ o.key
  /-- No value has the key of a function. -/
  values : ∀ v ∈ b.members, ∀ f ∈ b.members, v.isValue = true → f.isValue = false → v.key ≠ f.key

variable {b : ClassBlock}

/-- Where the members have signatures of their own, a block is free of duplicates exactly if its
members keep apart. -/
theorem nodup_keys_iff (h : (b.members.map ManagedMember.signature).Nodup) :
    b.keys.Nodup ↔ b.Apart := by
  have hown : (b.class_.ownMembers.map OwnMember.key).Nodup :=
    b.class_.ownMembers_nodup.map OwnMember.key_injective
  have hsorts : (b.members.filter ManagedMember.isValue ++ b.members.filter fun m =>
      !m.isValue).Perm b.members :=
    List.filter_append_perm _ _
  have hmembers : (b.members.map ManagedMember.key).Nodup ↔
      ∀ v ∈ b.members, ∀ f ∈ b.members, v.isValue = true → f.isValue = false → v.key ≠ f.key := by
    rw [← (hsorts.map ManagedMember.key).nodup_iff, List.map_append, List.nodup_append]
    simp only [ManagedMember.values_nodup h, ManagedMember.functions_nodup h, true_and,
      List.forall_mem_map, List.mem_filter, Bool.not_eq_true']
    constructor
    · exact fun happart v hv f hf hvalue hfunction => happart v ⟨hv, hvalue⟩ f ⟨hf, hfunction⟩
    · exact fun happart v hv f hf => happart v hv.1 f hf.1 hv.2 hf.2
  rw [keys, List.nodup_append, hmembers]
  simp only [hown, true_and, List.forall_mem_map]
  constructor
  · exact fun happart => ⟨fun m hm o ho hkey => happart.2 o ho m hm hkey.symm, happart.1⟩
  · exact fun happart => ⟨happart.values, fun o ho m hm hkey => happart.own m hm o ho hkey.symm⟩

end ClassBlock

/-- In every class block of a managed file the members have signatures of their own. -/
theorem ManagedFile.signatures_nodup (s : Surroundings) (w : Workspace) (root : NodeId) :
    ∀ b ∈ (ofTree s w root).classBlocks, (b.members.map ManagedMember.signature).Nodup := by
  have hstart : ({} : ManagedState).Signed := ⟨nofun, trivial⟩
  have hwalk : (written s w w.forest.depthBound root {}).Signed :=
    Forest.walked_rel (R := fun before after : ManagedState => before.Signed →
      after.Signed) (fun _ h => h)
      (fun h h' hbefore => h' (h hbefore)) (fun event id _ state h => h.step s w event id)
        w.forest.depthBound root {} hstart
  rw [classBlocks, ofTree_eq]
  exact hwalk.items.reverse.classBlocksAll

/-- In every class block of a managed file, functions are told apart by their names and the types of
their parameters, and values by their names. What a class begins with is its own members, which are
told apart too. So the block is free of duplicates if and only if no exported member has the key of
one of the class's own, and no value has that of a function. -/
theorem ManagedFile.keys_nodup_iff (s : Surroundings) (w : Workspace) (root : NodeId)
    (b : ClassBlock) (hb : b ∈ (ofTree s w root).classBlocks) :
    ((b.members.filter fun m => !m.isValue).map ManagedMember.key).Nodup ∧
    ((b.members.filter ManagedMember.isValue).map ManagedMember.key).Nodup ∧
    (b.class_.ownMembers.map OwnMember.key).Nodup ∧
    (∀ p, Prints p.level (b.class_.ownMembers.map (OwnMember.declaration b.class_)) p
      (b.class_.printStart p)) ∧
    (b.keys.Nodup ↔ b.Apart) := by
  have hsigned := signatures_nodup s w root b hb
  exact ⟨ManagedMember.functions_nodup hsigned, ManagedMember.values_nodup hsigned,
    b.class_.ownMembers_nodup.map OwnMember.key_injective, b.class_.printStart_prints,
    ClassBlock.nodup_keys_iff hsigned⟩

/-- The class blocks of the managed file that one header is exported to. -/
def ClassBlock.ofHeader (text : String) : List ClassBlock :=
  match (Header.FrontEnd.builtin {} ⟨"A.h"⟩ (.text text)).result with
  | .error _ => []
  | .ok u =>
    let g := Generator.ofDirectories ⟨""⟩ ⟨"/o"⟩
    let s : Surroundings :=
      { settings := g.settings, rules := { name := "M" }, root := (g.restart []).1 }
    (ManagedFile.ofTree s (Passes.standard.apply s [u] (g.restart []).2).1 s.root).classBlocks

/-- Overloads are told apart where they cross the bridge in different ways, and are one member where
they cross it in the same way. -/
theorem ManagedFile.keys_nodup_iff_overloads :
    ∃ s w root, ∃ b ∈ (ofTree s w root).classBlocks,
      b ∈ ClassBlock.ofHeader
        "class A { public: void f(int a); void f(int* a); void f(short* a); int x; };" ∧
      b.members.map ManagedMember.key = [.named "f" ["int"], .named "f" ["IntPtr"], .named "x" []] ∧
      b.keys.Nodup ∧ b.Apart := by
  have hcheck : ((ClassBlock.ofHeader
      "class A { public: void f(int a); void f(int* a); void f(short* a); int x; };").map
      fun b => (b.members.map ManagedMember.key, decide b.keys.Nodup)) =
      [([.named "f" ["int"], .named "f" ["IntPtr"], .named "x" []], true)] := by
    decide +kernel
  obtain ⟨b, hb, hkeys⟩ := List.mem_map.mp (hcheck ▸ List.mem_singleton_self _)
  obtain ⟨hmembers, hnodup⟩ := Prod.mk.inj hkeys
  have hof := hb
  unfold ClassBlock.ofHeader at hof
  split at hof
  · cases hof
  · have hnodup := of_decide_eq_true hnodup
    exact ⟨_, _, _, b, hof, hb, hmembers, hnodup,
      (ManagedFile.keys_nodup_iff _ _ _ b hof).2.2.2.2.mp hnodup⟩

/-- A class that is made from a pointer, and has a method named as the release, begins with a
constructor and a release that it declares once more. -/
theorem ManagedFile.keys_meet :
    (ClassBlock.ofHeader "class A { public: A(int* p); void Dispose(); };").map ClassBlock.keys =
      [[.named "instance_" [], .named "cache_" [], .constructor ["IntPtr"],
        .named "GetManagedInstance" ["IntPtr"], .named "Dispose" [], .constructor ["IntPtr"],
          .named "Dispose" []]] ∧
    ∃ s w root, ∃ b ∈ (ofTree s w root).classBlocks, ¬b.keys.Nodup := by
  have hcheck : ((ClassBlock.ofHeader "class A { public: A(int* p); void Dispose(); };").map
      ClassBlock.keys) = [[.named "instance_" [], .named "cache_" [], .constructor ["IntPtr"],
        .named "GetManagedInstance" ["IntPtr"], .named "Dispose" [], .constructor ["IntPtr"],
            .named "Dispose" []]] := by
    decide +kernel
  refine ⟨hcheck, ?_⟩
  obtain ⟨b, hb, hkeys⟩ := List.mem_map.mp (hcheck ▸ List.mem_singleton_self _)
  unfold ClassBlock.ofHeader at hb
  split at hb
  · cases hb
  · refine ⟨_, _, _, b, hb, ?_⟩
    rw [hkeys]
    decide

end Interop.Emit
