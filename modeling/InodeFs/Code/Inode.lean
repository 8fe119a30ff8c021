import InodeFs.Code.Bitmap

/-!
# Inode records and formatting

`mkfs` and the functions that read, replace and initialise a record of the inode table.

The inode table starts at block 4 with 32 records of 128 bytes in each block; its 1024 blocks end
before block 1028, where the data blocks begin. A record is changed by reading its block,
replacing the one record, and writing the block back.

`apply_a_new_inode_and_initial` and its variant for directories are one definition with the mode as
an argument: a search, the marking of what was found, and a record of which some members are set.
The pointers are not among them, so a new record keeps those that were there before.

`mkfs` writes the two maps from buffers on its stack. The one for the data map has 4069 bytes where
4096 are written, twice, so that the 27 bytes behind it are an argument of the model.
-/

namespace InodeFs

variable (env : Env)

/-- `iNode buffer_inode[32]; disk_read(id, buffer_inode);` -/
def readINodes (id : ℤ) : Fs (Fin 32 → INode) := do
  let buffer ← env.read id
  pure buffer.inodes

/-- `disk_write(id, buffer_inode)`. -/
def writeINodes (id : ℤ) (buffer : Fin 32 → INode) : Fs Unit :=
  diskWrite id (Block.inodes.symm buffer)

/-- `just_read_inode_from_disk`. -/
def justReadInodeFromDisk (inodeNumber : ℤ) : Fs INode := do
  let (index, diskId) := inodeFindDiskIdAndIndexInDisk inodeNumber
  let bufferInode ← readINodes env diskId
  Prog.index bufferInode index

/-- `repalce_iNode_according_to_disk_number`. -/
def repalceINodeAccordingToDiskNumber (inodeNumber : ℤ) (newFileNode : INode) : Fs Unit := do
  let (index, diskId) := inodeFindDiskIdAndIndexInDisk inodeNumber
  let bufferInode ← readINodes env diskId
  let bufferInode ← Prog.assign bufferInode index newFileNode
  writeINodes diskId bufferInode

/-! ### Formatting -/

/-- `initial_superblock`. -/
def initialSuperblock : Fs Unit := diskWrite 0 Block.zero

/-- `initial_inode_map`. -/
def initialInodeMap : Fs Unit := diskWrite 1 Block.zero

/-- The 4096 bytes from the address of a `char buffer[4069] = {0}` on: `behind` are the 27
bytes that follow the array in memory. -/
def shortBuffer (behind : Fin 27 → Byte) : Block := fun i =>
  if h : 4069 ≤ i.val then behind ⟨i - 4069, by omega⟩ else 0

/-- `initial_datablock_map`: the buffer is 27 bytes shorter than a block. -/
def initialDatablockMap (behind : Fin 27 → Byte) : Fs Unit := do
  diskWrite 3 (shortBuffer behind)
  diskWrite 2 ((shortBuffer behind).set 0 240)

/-- `give_the_value_to_inode`, on the record. -/
def giveTheValueToInode (x : INode) : INode :=
  { x with stMode := dirMode, stNlink := 1, stUid := env.uid, stGid := env.gid, stSize := 0,
           atime := env.time 0, mtime := env.time 1, ctime := env.time 2 }

/-- `mkfs`. -/
def mkfs (behind : Fin 27 → Byte) : Fs ℤ := do
  initialSuperblock
  initialInodeMap
  initialDatablockMap behind
  makeInodeMapCovered env mainDirectInodePosition
  let (index, diskId) := inodeFindDiskIdAndIndexInDisk mainDirectInodePosition
  let bufferInode ← readINodes env diskId
  let x ← Prog.index bufferInode index
  let bufferInode ← Prog.assign bufferInode index (giveTheValueToInode env x)
  writeINodes diskId bufferInode
  pure 0

/-! ### New inodes -/

/-- The assignments that initialise a fresh record; the pointers are not among them. -/
def freshINode (mode : BitVec 32) (number : ℤ) (x : INode) : INode :=
  { x with stMode := mode, stNlink := 1, stUid := env.uid, stGid := env.gid, stSize := 0,
           atime := env.time 0, mtime := env.time 1, ctime := env.time 2,
           id := BitVec.ofInt 32 number }

/-- The body the two `apply_a_new_inode` functions share. -/
def applyANewInodeWithMode (mode : BitVec 32) : Fs ℤ := do
  let newInodeNumber ← findEmptyInode env
  makeInodeMapCovered env newInodeNumber
  let (index, diskId) := inodeFindDiskIdAndIndexInDisk newInodeNumber
  let inodeBuffer ← readINodes env diskId
  let x ← Prog.index inodeBuffer index
  let inodeBuffer ← Prog.assign inodeBuffer index (freshINode env mode newInodeNumber x)
  writeINodes diskId inodeBuffer
  pure newInodeNumber

/-- `apply_a_new_inode_and_initial`. -/
def applyANewInodeAndInitial : Fs ℤ := applyANewInodeWithMode env regMode

/-- `apply_a_new_inode_and_initial_as_dict`. -/
def applyANewInodeAndInitialAsDict : Fs ℤ := applyANewInodeWithMode env dirMode

end InodeFs
