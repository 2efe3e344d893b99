import Interop.Emit.Managed

namespace Interop.Emit

/-- A block of a managed file. -/
inductive Block where
  | nameSpace (name : String)
  | classType (name : String)
deriving DecidableEq, Repr

/-- The name of a block. -/
def Block.name : Block → String
  | .nameSpace name | .classType name => name

/-- What a managed file declares for others to refer to. -/
inductive Entry where
  /-- A class or an enum. -/
  | type (name : String)
  | bridge (d : BridgeDeclaration)
deriving DecidableEq, Repr

/-- Bridge declarations inside of the same blocks. -/
def externsAt (inside : List Block) (bridges : List BridgeDeclaration) :
    List (List Block × Entry) :=
  bridges.map fun d => (inside, .bridge d)

/-- What a class declares by itself: its own name, and its destructor inside of it. -/
def ManagedClass.entries (around : List Block) (c : ManagedClass) : List (List Block × Entry) :=
  (around, .type c.name) :: externsAt (around ++ [.classType c.name]) c.bridges

namespace ManagedItem

mutual

/-- What an item declares, each with the blocks that it stands in, the outermost first. -/
def entries (around : List Block) : ManagedItem → List (List Block × Entry)
  | .member _ => []
  | .enumeration e => [(around, .type e.name)]
  | .nameSpace name items => entriesAll (around ++ [.nameSpace name]) items
  | .classType c items bridges =>
    entriesAll (around ++ [.classType c.name]) items ++
      (c.entries around ++ externsAt (around ++ [.classType c.name]) bridges)

/-- What several items declare. -/
def entriesAll (around : List Block) : List ManagedItem → List (List Block × Entry)
  | [] => []
  | item :: rest => entries around item ++ entriesAll around rest

end

variable {x : List Block × Entry} {around : List Block} {items items' : List ManagedItem}

theorem entriesAll_eq : entriesAll around items = items.flatMap (entries around) := by
  induction items with
  | nil => rfl
  | cons item rest ih => rw [entriesAll, List.flatMap_cons, ih]

/-- The entries of items that follow each other do so themselves. -/
theorem entriesAll_append :
    entriesAll around (items ++ items') = entriesAll around items ++ entriesAll around items' := by
  simp only [entriesAll_eq, List.flatMap_append]

/-- The order of items does not matter for which entries there are. -/
theorem entriesAll_reverse : (entriesAll around items.reverse).Perm (entriesAll around items) := by
  rw [entriesAll_eq, entriesAll_eq]
  exact items.reverse_perm.flatMap_right _

theorem mem_entriesAll_reverse :
    x ∈ entriesAll around items.reverse ↔ x ∈ entriesAll around items :=
  entriesAll_reverse.mem_iff

end ManagedItem

/-- What a managed file declares. Everything stands in the namespace of the module. -/
def ManagedFile.entries (m : ManagedFile) : List (List Block × Entry) :=
  ManagedItem.entriesAll [.nameSpace m.module] m.items

namespace OpenBlock

/-- The block that an open block is printed as; the module's namespace is printed anyway. -/
def blocks : OpenBlock → List Block
  | .nameSpace name? => name?.toList.map .nameSpace
  | .classType c _ => [.classType c.name]

/-- What an open block declares by itself. -/
def entries (around : List Block) : OpenBlock → List (List Block × Entry)
  | .nameSpace _ => []
  | .classType c _ => c.entries around

/-- The blocks that are open, from the outermost in. The innermost open block is the first one. -/
def path (base : List Block) : List OpenBlock → List Block
  | [] => base
  | block :: outer => path base outer ++ block.blocks

end OpenBlock

/-- What an open block declares with what has been put into it. -/
def BlockFrame.entries (around : List Block) (frame : BlockFrame) : List (List Block × Entry) :=
  ManagedItem.entriesAll (around ++ frame.block.blocks) frame.items ++
    (frame.block.entries around ++
      if frame.class?.isSome then externsAt (around ++ frame.block.blocks) frame.bridges else [])

namespace ManagedState

variable {base : List Block} {s : ManagedState} {x : List Block × Entry} {items : List ManagedItem}
  {frame : BlockFrame} {frames outer : List BlockFrame}

/-- The blocks that are open, the innermost first. -/
def blocks (s : ManagedState) : List OpenBlock :=
  s.frames.map (·.block)

/-- What open blocks declare. -/
def framesEntries (base : List Block) : List BlockFrame → List (List Block × Entry)
  | [] => []
  | frame :: outer => frame.entries (OpenBlock.path base (outer.map (·.block))) ++
    framesEntries base outer

/-- What will be declared if nothing is added any more. -/
def entries (base : List Block) (s : ManagedState) : List (List Block × Entry) :=
  ManagedItem.entriesAll base s.items ++ framesEntries base s.frames

/-- Putting items into a state opens no block. -/
theorem blocks_put : (s.put items).blocks = s.blocks := by
  unfold put blocks
  split
  · rfl
  · rename_i hframes
    rw [hframes]
    rfl

/-- What is put into the innermost block is declared inside of all open blocks. -/
theorem entries_put :
    ((s.put items).entries base).Perm
      (ManagedItem.entriesAll (OpenBlock.path base s.blocks) items ++ s.entries base) := by
  unfold put blocks
  split
  · rename_i hframes
    simp only [entries, hframes, framesEntries, List.append_nil, List.map_nil, OpenBlock.path,
      ManagedItem.entriesAll_append]
    exact ManagedItem.entriesAll_reverse.append_right _
  · rename_i frame outer hframes
    simp only [entries, hframes, framesEntries, BlockFrame.entries, List.map_cons, OpenBlock.path,
      ManagedItem.entriesAll_append, List.append_assoc]
    exact (List.perm_append_comm_assoc _ _ _).trans (ManagedItem.entriesAll_reverse.append_right _)

theorem mem_entries_put :
    x ∈ (s.put items).entries base ↔
      x ∈ s.entries base ∨ x ∈ ManagedItem.entriesAll (OpenBlock.path base s.blocks) items := by
  rw [entries_put.mem_iff, List.mem_append, or_comm]

/-- A block that is opened adds the entries of its own lines, at the place that it is opened at. -/
theorem entries_openBlock {block : OpenBlock} :
    ((s.openBlock block).entries base).Perm
    (block.entries (OpenBlock.path base s.blocks) ++ s.entries base) := by
  have hframe : BlockFrame.entries (OpenBlock.path base s.blocks) { block } =
      block.entries (OpenBlock.path base s.blocks) := by
    simp [BlockFrame.entries, ManagedItem.entriesAll, externsAt]
  simp only [entries, openBlock, framesEntries, show s.frames.map (·.block) = s.blocks from rfl,
    hframe]
  exact List.perm_append_comm_assoc _ _ _

theorem mem_entries_openBlock {block : OpenBlock} :
    x ∈ (s.openBlock block).entries base ↔
      x ∈ s.entries base ∨ x ∈ block.entries (OpenBlock.path base s.blocks) := by
  rw [entries_openBlock.mem_iff, List.mem_append, or_comm]

/-- A block that is closed declares what it declared while it was open. -/
theorem entries_close {around : List Block} :
    (ManagedItem.entriesAll around frame.close).Perm (frame.entries around) := by
  unfold BlockFrame.close BlockFrame.entries BlockFrame.class?
  split <;> rename_i hblock
  · simpa [hblock, OpenBlock.blocks, OpenBlock.entries] using ManagedItem.entriesAll_reverse
  · simpa [hblock, OpenBlock.blocks, OpenBlock.entries, ManagedItem.entriesAll,
      ManagedItem.entries] using
      ManagedItem.entriesAll_reverse
  · simp only [hblock, OpenBlock.blocks, OpenBlock.entries, ManagedItem.entriesAll,
      ManagedItem.entries, List.append_nil, Option.isSome_some, if_true, externsAt,
        List.map_reverse]
    exact ManagedItem.entriesAll_reverse.append (List.Perm.append_left _ (List.reverse_perm _))

/-- Closing a block leaves the blocks around it. -/
theorem blocks_closeBlock : s.closeBlock.blocks = s.blocks.tail := by
  unfold closeBlock
  split
  · rename_i hframes
    rw [blocks, hframes]
    rfl
  · rename_i hframes
    rw [blocks_put, blocks, blocks, hframes]
    rfl

/-- Closing a block moves its entries outwards without changing their places. -/
theorem entries_closeBlock : (s.closeBlock.entries base).Perm (s.entries base) := by
  unfold closeBlock
  split
  · exact .refl _
  · rename_i frame outer hframes
    refine entries_put.trans ((entries_close.append_right _).trans ?_)
    simp only [entries, hframes, framesEntries, blocks]
    exact List.perm_append_comm_assoc _ _ _

theorem mem_entries_closeBlock : x ∈ s.closeBlock.entries base ↔ x ∈ s.entries base :=
  entries_closeBlock.mem_iff

theorem map_block_changeClass {change : BlockFrame → BlockFrame}
    (hchange : ∀ frame, (change frame).block = frame.block) (frames : List BlockFrame) :
    (changeClass change frames).map (·.block) = frames.map (·.block) := by
  induction frames with
  | nil => rfl
  | cons first outer ih =>
    unfold changeClass
    split
    · simp only [List.map_cons, hchange]
    · simp only [List.map_cons, ih]

variable {signature : String} {m : ManagedMember} {bridges : List BridgeDeclaration}
    {c : ManagedClass}
  {isInheritable : Bool} {around : List OpenBlock}

theorem blocks_addMember : (s.addMember signature m bridges).blocks = s.blocks := by
  have hblocks : (s.addMember signature m bridges).blocks = (s.put [.member m]).blocks := by
    unfold addMember blocks
    apply map_block_changeClass
    intro frame
    rfl
  rw [hblocks, blocks_put]

/-- Inside of a class a member declares its bridge declarations there. -/
theorem mem_entries_addMember (h : s.blocks = .classType c isInheritable :: around) :
    x ∈ (s.addMember signature m bridges).entries base ↔
      x ∈ s.entries base ∨ x ∈ externsAt (OpenBlock.path base s.blocks) bridges := by
  have hput : x ∈ (s.put [.member m]).entries base ↔ x ∈ s.entries base := by
    rw [mem_entries_put]
    simp [ManagedItem.entriesAll, ManagedItem.entries]
  rw [← hput]
  have hblocks := (@blocks_put s [.member m]).trans h
  rw [← @blocks_put s [.member m]]
  unfold addMember
  generalize s.put [.member m] = s at hblocks
  unfold blocks at hblocks ⊢
  cases hframes : s.frames with
  | nil =>
    rw [hframes] at hblocks
    cases hblocks
  | cons frame outer =>
    rw [hframes, List.map_cons, List.cons.injEq] at hblocks
    have hclass : frame.class?.isSome = true := by
      rw [BlockFrame.class?, hblocks.1]
      rfl
    have hnew : BlockFrame.class? { frame with
        bridges := bridges.reverse ++ frame.bridges, signatures :=
          signature :: frame.signatures } = frame.class? := rfl
    simp only [entries, hframes, changeClass, hclass, hnew, if_true, framesEntries,
      BlockFrame.entries, externsAt, List.map_append, List.mem_append, List.map_reverse,
        List.mem_reverse, List.map_cons, OpenBlock.path]
    simp only [or_comm, or_left_comm]

/-- If the innermost block is that of a class, members are added to that class. -/
theorem class?_of_blocks (h : s.blocks = .classType c isInheritable :: around) :
    s.class? = some (c, isInheritable) := by
  unfold blocks at h
  unfold class?
  cases hframes : s.frames with
  | nil =>
    rw [hframes] at h
    cases h
  | cons frame rest =>
    rw [hframes, List.map_cons, List.cons.injEq] at h
    rw [List.findSome?_cons, BlockFrame.class?, h.1]

end ManagedState

end Interop.Emit
