import InodeFs.Disk.Exec

/-!
# What the functions of the middle layer do

The inode table and the data blocks: reading and replacing a record, taking and initialising
an inode, formatting, and storing an entry in a directory block.

Records and data blocks are addressed in two steps, block and index, and `run_readINodes` and
`run_readEntries` are the first of them. An index that is in bounds is a plain update of the array
(`INode.index_directPointer`, `INode.assign_directPointer`), so that the results speak of
`Disk.setInode` and `Disk.setData` alone.

`run_applyANewInodeWithMode` is the whole of the initialisation, with no assumption on the disk:
where the map is full, inode 0 is marked again and gets a new record. `run_mkfs` gives the formatted
disk in the same way, over any disk.

An entry is stored by reading its block, replacing a slot and writing the block
(`run_addADictInDataBlock`), on whatever block the number leads to, if only that exists.
-/

namespace InodeFs

variable (env : Env)

/-! ### The inode table -/

/-- Record `n` is record `n % 32` of block `4 + n / 32`. -/
theorem inodeFindDiskIdAndIndexInDisk_natCast (n : ℕ) :
    inodeFindDiskIdAndIndexInDisk n = (((n % 32 : ℕ) : ℤ), ((4 + n / 32 : ℕ) : ℤ)) := by
  rw [inodeFindDiskIdAndIndexInDisk, natCast_tmod_ofNat, natCast_tdiv_ofNat]
  exact Prod.ext rfl (Int.natCast_add 4 _).symm

/-- A block of records is read. -/
theorem run_readINodes {n : ℕ} (hn : n < 65536) (d : Disk) :
    (readINodes env n).run vdisk d = some ((d n).inodes, d) := by
  rw [readINodes, Prog.run_bind, run_envRead env hn, Option.bind_some, Prog.pure_eq_ret,
    Prog.run_ret]

/-- A block of records is written. -/
theorem run_writeINodes {n : ℕ} (hn : n < 65536) (buffer : Fin 32 → INode) (d : Disk) :
    (writeINodes n buffer).run vdisk d =
      some ((), Function.update d n (Block.inodes.symm buffer)) :=
  run_diskWrite hn _ d

/-- **`just_read_inode_from_disk`** returns the record. -/
theorem run_justReadInodeFromDisk {n : ℕ} (hn : n < 32768) (d : Disk) :
    (justReadInodeFromDisk env n).run vdisk d = some (d.inode n, d) := by
  have hblock : 4 + n / 32 < 65536 := by omega
  have hindex : n % 32 < 32 := by omega
  simp only [justReadInodeFromDisk, inodeFindDiskIdAndIndexInDisk_natCast]
  rw [Prog.run_bind, run_readINodes env hblock, Option.bind_some, Prog.index_natCast _ hindex,
    Prog.run_ret, Disk.inode]

/-- **`repalce_iNode_according_to_disk_number`** replaces the record. -/
theorem run_repalceINodeAccordingToDiskNumber {n : ℕ} (hn : n < 32768) (x : INode) (d : Disk) :
    (repalceINodeAccordingToDiskNumber env n x).run vdisk d = some ((), d.setInode n x) := by
  have hblock : 4 + n / 32 < 65536 := by omega
  have hindex : n % 32 < 32 := by omega
  simp only [repalceINodeAccordingToDiskNumber, inodeFindDiskIdAndIndexInDisk_natCast]
  rw [Prog.run_bind, run_readINodes env hblock, Option.bind_some, Prog.assign_natCast _ hindex,
    Prog.ret_bind, run_writeINodes hblock, Disk.setInode]

/-- The disk after an inode number is marked and its record initialised. -/
def Disk.withFreshInode (env : Env) (mode : BitVec 32) (d : Disk) (k : ℕ) : Disk :=
  (d.coverInode k).setInode k (freshINode env mode k (d.inode k))

/-- What `applyANewInodeWithMode` does with the number it has found. -/
def initialiseINode (mode : BitVec 32) (newInodeNumber : ℤ) : Fs ℤ := do
  makeInodeMapCovered env newInodeNumber
  let (index, diskId) := inodeFindDiskIdAndIndexInDisk newInodeNumber
  let inodeBuffer ← readINodes env diskId
  let x ← Prog.index inodeBuffer index
  let inodeBuffer ← Prog.assign inodeBuffer index (freshINode env mode newInodeNumber x)
  writeINodes diskId inodeBuffer
  pure newInodeNumber

/-- An inode is searched, and what was found is initialised. -/
theorem applyANewInodeWithMode_eq (mode : BitVec 32) :
    applyANewInodeWithMode env mode = findEmptyInode env >>= initialiseINode env mode := rfl

/-- **The initialisation of a record** marks it, too. -/
theorem run_initialiseINode (mode : BitVec 32) {k : ℕ} (hk : k < 32768) (d : Disk) :
    (initialiseINode env mode k).run vdisk d = some ((k : ℤ), d.withFreshInode env mode k) := by
  have hblock : 4 + k / 32 < 65536 := by omega
  have hindex : k % 32 < 32 := by omega
  rw [initialiseINode, Prog.run_bind, run_makeInodeMapCovered env hk, Option.bind_some]
  simp only [inodeFindDiskIdAndIndexInDisk_natCast]
  rw [Prog.run_bind, run_readINodes env hblock, Option.bind_some, Prog.index_natCast _ hindex,
    Prog.ret_bind, Prog.assign_natCast _ hindex, Prog.ret_bind, Prog.run_bind,
    run_writeINodes hblock, Option.bind_some, Prog.pure_eq_ret, Prog.run_ret,
    Disk.withFreshInode, ← Disk.inode_coverInode k k, Disk.setInode, Disk.inode]

/-- **A new inode** is the one that was found, whether one was free or not. -/
theorem run_applyANewInodeWithMode (mode : BitVec 32) (d : Disk) :
    (applyANewInodeWithMode env mode).run vdisk d =
      some ((d.nextInode : ℤ), d.withFreshInode env mode d.nextInode) := by
  rw [applyANewInodeWithMode_eq, Prog.run_bind, run_findEmptyInode, Option.bind_some,
    run_initialiseINode env mode d.nextInode_lt]

/-! ### Formatting -/

/-- The disk `disk_init` leaves: every block zero. -/
def zeroDisk : Disk := fun _ => Block.zero

/-- A disk with its super block and maps initialised. -/
def Disk.withMaps (d : Disk) (behind : Fin 27 → Byte) : Disk :=
  Function.update (Function.update (Function.update (Function.update d 0 Block.zero) 1
    Block.zero) 3 (shortBuffer behind)) 2 ((shortBuffer behind).set 0 240)

/-- The disk `mkfs` leaves. -/
def Disk.formatted (env : Env) (behind : Fin 27 → Byte) (d : Disk) : Disk :=
  ((d.withMaps behind).coverInode 4).setInode 4 (giveTheValueToInode env (d.inode 4))

theorem Disk.inode_withMaps (d : Disk) (behind : Fin 27 → Byte) (n : ℕ) :
    (d.withMaps behind).inode n = d.inode n := by
  unfold Disk.inode Disk.withMaps
  rw [Function.update_of_ne (by omega), Function.update_of_ne (by omega),
    Function.update_of_ne (by omega), Function.update_of_ne (by omega)]

theorem Disk.data_withMaps (d : Disk) (behind : Fin 27 → Byte) (b : ℕ) :
    (d.withMaps behind).data b = d.data b := by
  unfold Disk.data Disk.withMaps
  rw [Function.update_of_ne (by omega), Function.update_of_ne (by omega),
    Function.update_of_ne (by omega), Function.update_of_ne (by omega)]

/-- **`mkfs`** writes the maps and the root's record, whatever was there. -/
theorem run_mkfs (behind : Fin 27 → Byte) (d : Disk) :
    (mkfs env behind).run vdisk d = some (0, d.formatted env behind) := by
  have hwrite {n : ℕ} (hn : n < 65536) (b : Block) (e : Disk) := run_diskWrite hn b e
  have hmaps : (initialDatablockMap behind).run vdisk
      (Function.update (Function.update d 0 Block.zero) 1 Block.zero) =
        some ((), d.withMaps behind) := by
    rw [initialDatablockMap, Prog.run_bind, show (3 : ℤ) = ((3 : ℕ) : ℤ) from rfl,
      show (2 : ℤ) = ((2 : ℕ) : ℤ) from rfl, hwrite (by decide), Option.bind_some,
      hwrite (by decide), Disk.withMaps]
  have hcover := run_makeInodeMapCovered env (show 4 < 32768 by decide) (d.withMaps behind)
  have hpos := inodeFindDiskIdAndIndexInDisk_natCast 4
  have hinode : giveTheValueToInode env (d.inode 4) =
      giveTheValueToInode env (((d.withMaps behind).coverInode 4).inode 4) := by
    rw [Disk.inode_coverInode, Disk.inode_withMaps]
  rw [mkfs, Prog.run_bind, initialSuperblock, show (0 : ℤ) = ((0 : ℕ) : ℤ) from rfl,
    hwrite (by decide), Option.bind_some, Prog.run_bind, initialInodeMap,
    show (1 : ℤ) = ((1 : ℕ) : ℤ) from rfl, hwrite (by decide), Option.bind_some, Prog.run_bind,
    hmaps, Option.bind_some, Prog.run_bind, mainDirectInodePosition,
    show (4 : ℤ) = ((4 : ℕ) : ℤ) from rfl, hcover, Option.bind_some]
  simp only [hpos]
  rw [Prog.run_bind, run_readINodes env (by decide), Option.bind_some,
    Prog.index_natCast _ (by decide), Prog.ret_bind, Prog.assign_natCast _ (by decide),
    Prog.ret_bind, Prog.run_bind, run_writeINodes (by decide), Option.bind_some,
    Prog.pure_eq_ret, Prog.run_ret, Disk.formatted, hinode, Disk.setInode, Disk.inode]

/-! ### Data blocks -/

/-- Data block `b` is block `1028 + b` of the disk. -/
theorem datablockFindDiskId_natCast (b : ℕ) :
    datablockFindDiskId b = ((1028 + b : ℕ) : ℤ) := (Int.natCast_add 1028 b).symm

/-- A data block that exists is read. -/
theorem run_readData {b : ℕ} (hb : b < 64508) (d : Disk) :
    (env.read (datablockFindDiskId b)).run vdisk d = some (d.data b, d) := by
  rw [datablockFindDiskId_natCast, run_envRead env (by omega), Disk.data]

/-- A data block that exists is written. -/
theorem run_writeData {b : ℕ} (hb : b < 64508) (content : Block) (d : Disk) :
    (diskWrite (datablockFindDiskId b) content).run vdisk d =
      some ((), d.setData b content) := by
  rw [datablockFindDiskId_natCast, run_diskWrite (by omega), Disk.setData]

theorem run_readEntries {b : ℕ} (hb : b < 64508) (d : Disk) :
    (readEntries env (datablockFindDiskId b)).run vdisk d =
      some ((d.data b).entries, d) := by
  rw [readEntries, Prog.run_bind, run_readData env hb, Option.bind_some, Prog.pure_eq_ret,
    Prog.run_ret]

theorem run_readInts {b : ℕ} (hb : b < 64508) (d : Disk) :
    (readInts env (datablockFindDiskId b)).run vdisk d = some ((d.data b).ints, d) := by
  rw [readInts, Prog.run_bind, run_readData env hb, Option.bind_some, Prog.pure_eq_ret,
    Prog.run_ret]

theorem run_writeEntries {b : ℕ} (hb : b < 64508) (buffer : Fin 128 → DictioryContent)
    (d : Disk) :
    (writeEntries (datablockFindDiskId b) buffer).run vdisk d =
      some ((), d.setData b (Block.entries.symm buffer)) :=
  run_writeData hb _ d

/-- An entry is stored in its slot, and the other slots are written back. -/
theorem run_addADictInDataBlock {b j : ℕ} (hb : b < 64508) (hj : j < 128)
    (e : DictioryContent) (d : Disk) :
    (addADictInDataBlock env b e j).run vdisk d =
      some ((), d.setData b ((d.data b).setEntry j e)) := by
  have hmod : j % 128 = j := Nat.mod_eq_of_lt hj
  rw [addADictInDataBlock, Prog.run_bind, run_readEntries env hb, Option.bind_some,
    Prog.assign_natCast _ hj, Prog.ret_bind, run_writeEntries hb]
  simp only [Block.setEntry, hmod]

/-- A pointer read as an `int` is its number. -/
theorem INode.toInt_directPointer {x : INode} {r : ℕ} (hr : r < 12) (h : x.ptr r < 64508) :
    (x.directPointer ⟨r, hr⟩).toInt = (x.ptr r : ℤ) := by
  rw [INode.ptr, dif_pos hr] at h ⊢
  exact toInt_eq_natCast (by omega)

/-- The array of direct pointers has 12 elements. -/
theorem INode.index_directPointer {x : INode} {r : ℕ} (hr : r < 12) :
    (Prog.index x.directPointer (r : ℤ) : Fs (BitVec 32)) = .ret (x.directPointer ⟨r, hr⟩) :=
  Prog.index_natCast _ hr

theorem INode.assign_directPointer {x : INode} {r b : ℕ} (hr : r < 12) :
    (Prog.assign x.directPointer (r : ℤ) (BitVec.ofInt 32 (b : ℤ)) : Fs (Fin 12 → BitVec 32)) =
      .ret (x.setPtr r b).directPointer := by
  rw [Prog.assign_natCast _ hr, INode.setPtr, dif_pos hr, BitVec.ofInt_natCast]

end InodeFs
