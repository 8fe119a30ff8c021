import InodeFs.Lib.Layout
import InodeFs.Lib.DeviceProgram

/-!
# The disk and its records

The virtual disk is 65536 blocks of 4096 bytes; `disk_read` and `disk_write` refuse every
other block number. A block is read as bytes, as 32 inode records, as 128 directory entries,
as 1024 `int`s or as 512 machine pointers, and each of these readings is a bijection: the
records fill the block without a gap, the alignment gap of `iNode` being a member of its own
(a structure assignment copies it along).

`iNode` is laid out with its members in their order, the alignment gap, and the two arrays of
pointers, 128 bytes in all; `dictiory_content` is 28 name bytes and an `int`, 32 bytes in all. That
the layouts are bijections is what `InodeFs.Lib.Layout` proves of its constructions, and
`Block.inodes`, `Block.entries`, `Block.ints` and `Block.pointers` are those of a whole block.

`vdisk` is the device that the programs of the source run on: a refused access leaves the disk as it
is, and a refused read the buffer.

The members are the words of the machine, with no claim about what they mean: a record with any 128
bytes is a record. What the numbers of a record in use are like is a matter of the invariant of
`InodeFs.State.Sound`.
-/

namespace InodeFs

/-- The bytes of one block, `BLOCK_SIZE` of them. -/
abbrev Block := Fin 4096 → Byte

/-- `iNode`: 128 bytes. `pad` stands for the four bytes the compiler leaves before
`st_nlink` to align it. -/
@[ext]
structure INode where
  stMode : BitVec 32
  pad : BitVec 32
  stNlink : BitVec 64
  stUid : BitVec 32
  stGid : BitVec 32
  stSize : BitVec 64
  atime : BitVec 64
  mtime : BitVec 64
  ctime : BitVec 64
  directPointer : Fin 12 → BitVec 32
  indirectPointer : Fin 2 → BitVec 32
  id : BitVec 32
  makeFull : Fin 12 → Byte

/-- The 28 name bytes of a directory entry. -/
abbrev FileName := Fin 28 → Byte

/-- `DictioryContent`: 32 bytes. -/
@[ext]
structure DictioryContent where
  fileName : FileName
  inodeNumber : BitVec 32

/-! The pointers of an inode and the entries of a block have a first one. -/

instance neZero_two : NeZero 2 := ⟨by decide⟩

instance neZero_twelve : NeZero 12 := ⟨by decide⟩

instance neZero_entries : NeZero 128 := ⟨by decide⟩

/-! ### Layouts -/

/-- A four-byte `int`. -/
def intLayout : Layout (BitVec 32) 4 := Layout.word 4

/-- An eight-byte `long`, `off_t`, `time_t`, `nlink_t` or pointer. -/
def longLayout : Layout (BitVec 64) 8 := Layout.word 8

/-- An array of `char`. -/
def charsLayout (n : ℕ) : Layout (Fin n → Byte) n := Equiv.refl _

/-- The members of an inode record, in order. -/
def INode.members : INode ≃ BitVec 32 × BitVec 32 × BitVec 64 × BitVec 32 × BitVec 32 ×
    BitVec 64 × BitVec 64 × BitVec 64 × BitVec 64 × (Fin 12 → BitVec 32) ×
    (Fin 2 → BitVec 32) × BitVec 32 × (Fin 12 → Byte) where
  toFun x := (x.stMode, x.pad, x.stNlink, x.stUid, x.stGid, x.stSize, x.atime, x.mtime,
    x.ctime, x.directPointer, x.indirectPointer, x.id, x.makeFull)
  invFun t := ⟨t.1, t.2.1, t.2.2.1, t.2.2.2.1, t.2.2.2.2.1, t.2.2.2.2.2.1, t.2.2.2.2.2.2.1,
    t.2.2.2.2.2.2.2.1, t.2.2.2.2.2.2.2.2.1, t.2.2.2.2.2.2.2.2.2.1, t.2.2.2.2.2.2.2.2.2.2.1,
    t.2.2.2.2.2.2.2.2.2.2.2.1, t.2.2.2.2.2.2.2.2.2.2.2.2⟩
  left_inv _ := rfl
  right_inv _ := rfl

/-- The 128 bytes of an inode record. -/
def INode.layout : Layout INode 128 :=
  Layout.via INode.members <|
    intLayout.pair <| intLayout.pair <| longLayout.pair <| intLayout.pair <| intLayout.pair <|
    longLayout.pair <| longLayout.pair <| longLayout.pair <| longLayout.pair <|
    (intLayout.array 12).pair <| (intLayout.array 2).pair <| intLayout.pair <| charsLayout 12

/-- The members of a directory entry, in order. -/
def DictioryContent.members : DictioryContent ≃ FileName × BitVec 32 where
  toFun e := (e.fileName, e.inodeNumber)
  invFun t := ⟨t.1, t.2⟩
  left_inv _ := rfl
  right_inv _ := rfl

/-- The 32 bytes of a directory entry. -/
def DictioryContent.layout : Layout DictioryContent 32 :=
  Layout.via DictioryContent.members ((charsLayout 28).pair intLayout)

namespace Block

/-- A block read as `iNode buffer[32]`. -/
def inodes : Block ≃ (Fin 32 → INode) := (INode.layout.array 32).symm

/-- A block read as `DictioryContent buffer[128]`. -/
def entries : Block ≃ (Fin 128 → DictioryContent) := (DictioryContent.layout.array 128).symm

/-- A block read as `int buffer[1024]`. -/
def ints : Block ≃ (Fin 1024 → BitVec 32) := (intLayout.array 1024).symm

/-- A block read into the first half of `char *buffer[1024]`. -/
def pointers : Block ≃ (Fin 512 → BitVec 64) := (longLayout.array 512).symm

/-- `buffer[i]`, for an index below 4096. -/
def get (b : Block) (i : ℕ) : Byte := if h : i < 4096 then b ⟨i, h⟩ else 0

/-- `buffer[i] = x`. -/
def set (b : Block) (i : ℕ) (x : Byte) : Block := fun j => if j.val = i then x else b j

/-- The block of zero bytes. -/
def zero : Block := fun _ => 0

@[simp] theorem set_apply (b : Block) (i : ℕ) (x : Byte) (j : Fin 4096) :
    b.set i x j = if j.val = i then x else b j := rfl

/-- The name bytes of an entry are the first 28 of its 32 bytes. -/
theorem entries_fileName (b : Block) (j : Fin 128) (i : Fin 28) :
    (b.entries j).fileName i = b ⟨32 * j.val + i.val, by omega⟩ := by
  change b _ = b _
  congr 1
  apply Fin.ext
  simp only [finProdFinEquiv_apply_val, Fin.val_castAdd]
  omega

/-- Element `t` of the block read as pointers is, as an `int`, element `2 * t` of the block
read as `int`s. -/
theorem setWidth_pointers (b : Block) {t : ℕ} (ht : t < 512) :
    (b.pointers ⟨t, ht⟩).setWidth 32 = b.ints ⟨2 * t, by omega⟩ := by
  refine (Layout.setWidth_word_symm (show 4 ≤ 8 by decide) _).trans ?_
  refine congrArg intLayout.symm (funext fun i => congrArg b ?_)
  apply Fin.ext
  simp only [finProdFinEquiv_apply_val, Fin.val_castLE]
  omega

end Block

/-! ### The disk -/

/-- Number of blocks of the virtual disk. -/
def blockNum : ℕ := 65536

/-- The contents of the disk, by block number. -/
abbrev Disk := ℕ → Block

/-- `disk_read` and `disk_write`: block numbers outside `0 .. BLOCK_NUM - 1` are refused. -/
def vdisk : Device Disk Block where
  load d id := if 0 ≤ id ∧ id < blockNum then some (d id.toNat) else none
  store d id b := if 0 ≤ id ∧ id < blockNum then Function.update d id.toNat b else d

/-- A block that exists is read. -/
theorem load_natCast (d : Disk) {n : ℕ} (h : n < blockNum) :
    vdisk.load d (n : ℤ) = some (d n) := by
  simp [vdisk, h]

/-- A block that exists is written. -/
theorem store_natCast (d : Disk) {n : ℕ} (h : n < blockNum) (b : Block) :
    vdisk.store d (n : ℤ) b = Function.update d n b := by
  simp [vdisk, h]

end InodeFs
