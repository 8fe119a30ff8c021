import InodeFs.State.Growth

/-!
# Writing to a file

`run_fsWrite` computes what `fs_write` does to a file whose blocks in reach are direct ones: the
bytes of the first block are laid over its content (a fresh block is mounted first when the
write starts on a block boundary), the rest goes to fresh blocks, and the size becomes the end
of the write. `Sound.written` says what the disk is afterwards.

The program keeps the record of the inode in a local variable until the end. The statements
are about the disk in which that record is stored already, `D.setInode i x`, on which a round
of the loop is `Disk.storeBlock`.

The two copy loops count with two different bounds. The first one stops one byte before the end of
the caller's data (`fillFirst_eq`), and the second one takes one byte more than there are
(`fillNext_eq`); both are given as a stretch of the buffer laid over a block, `Block.paste`.

What a write needs is `Disk.Fits`: it reaches direct blocks only and finds enough free ones.
`Disk.CanWrite` asks in addition that it does not start in a hole.
-/

namespace InodeFs

variable (env : Env)

/-! ### Copying bytes -/

/-- A block with the bytes of `f` laid over the `n` positions from `i` on. -/
def Block.paste (b : Block) (i n : ℕ) (f : ℕ → Byte) : Block := fun j =>
  if i ≤ j.val ∧ j.val < i + n then f (j.val - i) else b j

/-- The pasted bytes, and the others as before. -/
theorem Block.get_paste (b : Block) (i n : ℕ) (f : ℕ → Byte) {j : ℕ} (hj : j < 4096) :
    (b.paste i n f).get j = if i ≤ j ∧ j < i + n then f (j - i) else b.get j := by
  rw [Block.get, dif_pos hj, Block.get, dif_pos hj]
  rfl

@[simp] theorem Block.paste_zero (b : Block) (i : ℕ) (f : ℕ → Byte) : b.paste i 0 f = b :=
  funext fun j => if_neg (by omega)

/-- A byte set and the rest pasted behind it. -/
theorem Block.paste_succ (b : Block) (i n : ℕ) (f : ℕ → Byte) :
    (b.set i (f 0)).paste (i + 1) n (fun k => f (k + 1)) = b.paste i (n + 1) f := by
  funext j
  unfold Block.paste
  rw [Block.set_apply]
  by_cases hj : j.val = i
  · rw [if_neg (by omega), if_pos hj, if_pos (by omega), hj, Nat.sub_self]
  · rw [if_neg hj]
    by_cases hin : i + 1 ≤ j.val ∧ j.val < i + 1 + n
    · rw [if_pos hin, if_pos (by omega)]
      exact congrArg f (by omega)
    · rw [if_neg hin, if_neg (by omega)]

/-- The first copy loop leaves out the last byte. -/
theorem fillFirst_eq (buffer : ℕ → Byte) (size bytes i wrote : ℕ) (block : Block) :
    fillFirst buffer size bytes i wrote block =
      (block.paste i (min bytes (size - 1 - wrote)) fun k => buffer (wrote + k),
        wrote + min bytes (size - 1 - wrote)) := by
  induction bytes generalizing i wrote block with
  | zero => simp [fillFirst]
  | succ bytes ih =>
    rw [fillFirst]
    by_cases hend : (wrote : ℤ) ≥ size - 1
    · have hnone : size - 1 - wrote = 0 := by omega
      rw [if_pos hend, hnone, Nat.min_zero, Block.paste_zero, Nat.add_zero]
    · have hmin : min (bytes + 1) (size - 1 - wrote) = min bytes (size - 1 - (wrote + 1)) + 1 := by
        omega
      have hshift : (fun k => buffer (wrote + 1 + k)) = fun k => buffer (wrote + (k + 1)) :=
        funext fun k => congrArg buffer (by omega)
      have hpaste := block.paste_succ i (min bytes (size - 1 - (wrote + 1)))
        fun k => buffer (wrote + k)
      rw [Nat.add_zero] at hpaste
      rw [if_neg hend, ih, hmin, hshift, hpaste]
      congr 1
      omega

/-- The second copy loop copies one byte more than there are. -/
theorem fillNext_eq (buffer : ℕ → Byte) (size bytes i wrote : ℕ) (block : Block) :
    fillNext buffer size bytes i wrote block =
      (block.paste i (min bytes (size + 1 - wrote)) fun k => buffer (wrote + k),
        wrote + min bytes (size + 1 - wrote)) := by
  induction bytes generalizing i wrote block with
  | zero => simp [fillNext]
  | succ bytes ih =>
    rw [fillNext]
    by_cases hmore : wrote ≤ size
    · have hmin : min (bytes + 1) (size + 1 - wrote) = min bytes (size + 1 - (wrote + 1)) + 1 := by
        omega
      have hshift : (fun k => buffer (wrote + 1 + k)) = fun k => buffer (wrote + (k + 1)) :=
        funext fun k => congrArg buffer (by omega)
      have hpaste := block.paste_succ i (min bytes (size + 1 - (wrote + 1)))
        fun k => buffer (wrote + k)
      rw [Nat.add_zero] at hpaste
      rw [if_pos hmore, ih, hmin, hshift, hpaste]
      congr 1
      omega
    · have hnone : size + 1 - wrote = 0 := by omega
      rw [if_neg hmore, hnone, Nat.min_zero, Block.paste_zero, Nat.add_zero]

/-- A block of the part behind the first block: zeros with the caller's bytes from `wrote` on,
one more than there are. -/
def nextBlock (buffer : ℕ → Byte) (size wrote : ℕ) : Block :=
  Block.zero.paste 0 (min 4096 (size + 1 - wrote)) fun k => buffer (wrote + k)

/-! ### One block -/

/-- A direct rank is mounted in the record, which is not written yet. -/
theorem run_mountBlockToInode {r b : ℕ} (hr : r < 12) (x : INode) (d : Disk) :
    (mountBlockToInodeAccordingToRank env r b x).run vdisk d = some (x.setPtr r b, d) := by
  rw [mountBlockToInodeAccordingToRank, if_pos (by omega), INode.assign_directPointer hr,
    Prog.ret_bind, Prog.pure_eq_ret, Prog.run_ret, INode.setPtr, dif_pos hr]

/-- The number of a direct rank is read off the record. -/
theorem run_dataBlockAtRank {r : ℕ} (hr : r < 12) {x : INode} (hptr : x.ptr r < 64508)
    (d : Disk) : (dataBlockAtRank env r x).run vdisk d = some ((x.ptr r : ℤ), d) := by
  rw [dataBlockAtRank, if_pos (by omega), INode.index_directPointer hr, Prog.ret_bind,
    Prog.pure_eq_ret, Prog.run_ret, INode.toInt_directPointer hr hptr]

/-- The block of a direct rank. -/
theorem run_readTheOneDisk {r : ℕ} (hr : r < 12) {x : INode} (hptr : x.ptr r < 64508) (d : Disk) :
    (readTheOneDiskAccordingToRankInInode env r x).run vdisk d = some (d.data (x.ptr r), d) := by
  rw [readTheOneDiskAccordingToRankInInode,
    Prog.run_bind_some _ (run_dataBlockAtRank env hr hptr d), run_readData env hptr]

/-- The block of a direct rank is written where it is. -/
theorem run_writeIntoDisk {r : ℕ} (hr : r < 12) {x : INode} (hptr : x.ptr r < 64508)
    (content : Block) (d : Disk) :
    (writeIntoDiskAcccordingToRankInInode env r x content).run vdisk d =
      some ((), d.setData (x.ptr r) content) := by
  rw [writeIntoDiskAcccordingToRankInInode,
    Prog.run_bind_some _ (run_dataBlockAtRank env hr hptr d), run_writeData hptr]

namespace Disk

variable {d : Disk} {i r : ℕ} {x : INode}

/-- It is enough to write the record once, at the end. -/
theorem mountBlock_setInode (b : ℕ) :
    (d.setInode i x).mountBlock i r b = (d.coverData b).setInode i (x.setPtr r b) := by
  rw [mountBlock, inode_setInode_self, coverData_setInode, setInode_setInode]

/-- Storing a block leaves the writing of the record to the end, too. -/
theorem storeBlock_setInode (hi : i < 32768) (content : Block) :
    (d.setInode i x).storeBlock i r content =
      ((d.coverData d.nextData).setData d.nextData content).setInode i (x.setPtr r d.nextData) := by
  rw [storeBlock, nextData_congr fun b => dmap_setInode i x b, mountBlock_setInode,
    setData_setInode hi]

end Disk

/-! ### The following blocks -/

/-- **The loop over the following blocks** stores them. -/
theorem run_writeLoop (buffer : ℕ → Byte) {size : ℕ} (hsize : size < 2 ^ 31) {i : ℕ}
    (hi : i < 32768) (fuel r wrote : ℕ) (x : INode) (d : Disk)
    (hfuel : (size - wrote + 4095) / 4096 ≤ fuel) (hr : r + (size - wrote + 4095) / 4096 ≤ 12)
    (hfree : (size - wrote + 4095) / 4096 ≤ d.freeBlocks) :
    ∃ y d', (writeLoop env buffer size fuel r wrote x).run vdisk d = some (y, d') ∧
      d'.setInode i y = (d.setInode i x).storeBlocks i r ((size - wrote + 4095) / 4096)
        fun k => nextBlock buffer size (wrote + 4096 * k) := by
  -- the record is written back at the end, so that the states are compared behind `setInode`
  induction fuel generalizing r wrote x d with
  | zero =>
    have hdone : ¬ (wrote : ℤ) < cInt size := by rw [cInt_natCast hsize]; omega
    have hnone : (size - wrote + 4095) / 4096 = 0 := by omega
    rw [writeLoop, if_neg hdone, hnone]
    exact ⟨x, d, rfl, rfl⟩
  | succ fuel ih =>
    rw [writeLoop, cInt_natCast hsize]
    by_cases hmore : (wrote : ℤ) < size
    · have hn : (size - wrote + 4095) / 4096 = (size - (wrote + 4096) + 4095) / 4096 + 1 := by omega
      have hblock : d.HasBlock := Disk.freeBlocks_pos_iff.mp (by omega)
      have hlt := hblock.nextData_lt
      have hptr : (x.setPtr r d.nextData).ptr r = d.nextData := by
        rw [INode.ptr_setPtr x (by omega) d.nextData_lt, if_pos rfl]
      have hless : ((d.coverData d.nextData).setData d.nextData
          (nextBlock buffer size wrote)).freeBlocks + 1 = d.freeBlocks := by
        rw [Disk.freeBlocks_congr fun b _ => Disk.dmap_setData .., Disk.freeBlocks_coverData hblock]
      obtain ⟨y, d', hrun, hd'⟩ := ih (r + 1) (wrote + min 4096 (size + 1 - wrote))
        (x.setPtr r d.nextData)
        ((d.coverData d.nextData).setData d.nextData (nextBlock buffer size wrote))
        (by omega) (by omega) (by omega)
      refine ⟨y, d', ?_, ?_⟩
      · rw [if_pos hmore, Prog.run_bind_some _ (run_takeDatablock env d),
          Prog.run_bind_some _ (run_mountBlockToInode env (by omega) x _),
          Prog.run_bind_some _ (run_writeIntoDisk env (by omega) (by rwa [hptr]) _ _), hptr,
          fillNext_eq]
        exact hrun
      · have hzero : wrote + 4096 * 0 = wrote := by omega
        rw [hd', hn, Disk.storeBlocks, Disk.storeBlock_setInode hi, hzero]
        by_cases hfull : 4096 ≤ size + 1 - wrote
        · have hcontent : (fun k => nextBlock buffer size (wrote + 4096 * (k + 1))) =
              fun k => nextBlock buffer size (wrote + 4096 + 4096 * k) :=
            funext fun k => congrArg (nextBlock buffer size) (by omega)
          rw [Nat.min_eq_left hfull, hcontent]
        · -- the last round: the count ends one behind the last byte
          have hlast : (size - (wrote + min 4096 (size + 1 - wrote)) + 4095) / 4096 = 0 := by omega
          have hlast' : (size - (wrote + 4096) + 4095) / 4096 = 0 := by omega
          rw [hlast, hlast', Disk.storeBlocks, Disk.storeBlocks]
    · have hnone : (size - wrote + 4095) / 4096 = 0 := by omega
      rw [if_neg hmore, hnone]
      exact ⟨x, d, rfl, rfl⟩

/-! ### The whole operation -/

/-- The number of bytes the first copy loop writes. -/
def firstCount (size offset : ℕ) : ℕ := min (4096 - offset % 4096) (size - 1)

/-- The number of blocks behind the first one. -/
def nextCount (size offset : ℕ) : ℕ := (size - firstCount size offset + 4095) / 4096

/-- The blocks of a write hold it. -/
theorem end_le_blocks (size offset : ℕ) :
    offset + size ≤ 4096 * (offset / 4096 + 1 + nextCount size offset) := by
  unfold nextCount firstCount
  omega

namespace Disk

/-- A write that starts on a block boundary mounts a fresh block for its first bytes. -/
def firstMounted (d : Disk) (i offset : ℕ) : Disk :=
  if offset % 4096 = 0 then d.mountBlock i (offset / 4096) d.nextData else d

/-- The first block is filled. -/
def firstFilled (d : Disk) (i : ℕ) (buffer : ℕ → Byte) (size offset : ℕ) : Disk :=
  (d.firstMounted i offset).setData (((d.firstMounted i offset).inode i).ptr (offset / 4096))
    (((d.firstMounted i offset).blockAt i (offset / 4096)).paste (offset % 4096)
      (firstCount size offset) buffer)

/-- All blocks are stored. -/
def filled (d : Disk) (i : ℕ) (buffer : ℕ → Byte) (size offset : ℕ) : Disk :=
  (d.firstFilled i buffer size offset).storeBlocks i (offset / 4096 + 1) (nextCount size offset)
    fun k => nextBlock buffer size (firstCount size offset + 4096 * k)

/-- The disk after a write. -/
def written (d : Disk) (i : ℕ) (buffer : ℕ → Byte) (size offset : ℕ) : Disk :=
  (d.filled i buffer size offset).setInode i
    (((d.filled i buffer size offset).inode i).withSize (BitVec.ofNat 64 (offset + size)))

/-- The write reaches direct blocks only, and there are enough free blocks. -/
structure Fits (d : Disk) (size offset : ℕ) : Prop where
  rank_le : offset / 4096 + 1 + nextCount size offset ≤ 12
  free : (if offset % 4096 = 0 then 1 else 0) + nextCount size offset ≤ d.freeBlocks

/-- The write reaches direct blocks only, does not start in a hole, and there are enough free
blocks. -/
structure CanWrite (d : Disk) (i size offset : ℕ) : Prop where
  rank_le : offset / 4096 + 1 + nextCount size offset ≤ 12
  first : offset % 4096 ≠ 0 → (d.inode i).ptr (offset / 4096) ≠ 0
  free : (if offset % 4096 = 0 then 1 else 0) + nextCount size offset ≤ d.freeBlocks

variable {d : Disk} {i size offset : ℕ}

/-- The write ends within the direct blocks. -/
theorem Fits.end_le (h : d.Fits size offset) : offset + size ≤ 49152 := by
  have hrank := h.rank_le
  have hend := end_le_blocks size offset
  omega

/-- It starts at a direct rank. -/
theorem Fits.rank_lt (h : d.Fits size offset) : offset / 4096 < 12 := by
  have hrank := h.rank_le
  omega

/-- A write that starts a block finds a free one for it. -/
theorem Fits.hasBlock (h : d.Fits size offset) (h0 : offset % 4096 = 0) : d.HasBlock := by
  have hfree := h.free
  rw [if_pos h0] at hfree
  exact freeBlocks_pos_iff.mp (by omega)

/-- A write inside the blocks of a file has the blocks it needs. -/
theorem CanWrite.fits (h : d.CanWrite i size offset) : d.Fits size offset := ⟨h.rank_le, h.free⟩

theorem CanWrite.end_le (h : d.CanWrite i size offset) : offset + size ≤ 49152 := h.fits.end_le

/-! ### What a write leaves -/

section Fitting

variable {limit : ℕ} (hd : d.Sound limit) (hfile : d.IsFile i) (h : d.Fits size offset)
  (buffer : ℕ → Byte)
include h

/-- The first of the ranks at which a write mounts a block. -/
abbrev firstRank (offset : ℕ) : ℕ := if offset % 4096 = 0 then offset / 4096 else offset / 4096 + 1

include hd hfile in
/-- **Mounting the first block** is a change of the file at one rank at most. -/
theorem FileChange.firstMounted :
    FileChange i (firstRank offset) (offset / 4096 + 1) d (d.firstMounted i offset) limit := by
  unfold firstRank Disk.firstMounted
  split
  · next h0 =>
    have hblock := h.hasBlock h0
    exact .mountBlock hd hfile h.rank_lt hblock.nextData_lt hblock.dmap_nextData
  · exact .refl hd i _

/-- Filling the first block takes a block where the write starts on a block boundary. -/
theorem freeBlocks_firstFilled : (d.firstFilled i buffer size offset).freeBlocks +
    (if offset % 4096 = 0 then 1 else 0) = d.freeBlocks := by
  have hsame : (d.firstFilled i buffer size offset).freeBlocks =
      (d.firstMounted i offset).freeBlocks :=
    freeBlocks_congr fun b _ => by rw [Disk.firstFilled, dmap_setData]
  rw [hsame, Disk.firstMounted]
  split
  · next h0 =>
    have hmounted : (d.mountBlock i (offset / 4096) d.nextData).freeBlocks =
        (d.coverData d.nextData).freeBlocks :=
      freeBlocks_congr fun b _ => by rw [mountBlock, dmap_setInode]
    rw [hmounted, freeBlocks_coverData (h.hasBlock h0)]
  · rw [Nat.add_zero]

/-- After the first block there are enough free ones for the others. -/
theorem nextCount_le_freeBlocks :
    nextCount size offset ≤ (d.firstFilled i buffer size offset).freeBlocks := by
  have hfree := h.free
  have hfirst := freeBlocks_firstFilled (i := i) h buffer
  omega

/-- A write takes a block for each rank it mounts. -/
theorem freeBlocks_written : (d.written i buffer size offset).freeBlocks +
    ((if offset % 4096 = 0 then 1 else 0) + nextCount size offset) = d.freeBlocks := by
  have hfirst := freeBlocks_firstFilled (i := i) h buffer
  have hnext := freeBlocks_storeBlocks (d := d.firstFilled i buffer size offset) i
    (offset / 4096 + 1) (fun k => nextBlock buffer size (firstCount size offset + 4096 * k))
    (nextCount_le_freeBlocks h buffer)
  have hsize : (d.written i buffer size offset).freeBlocks =
      (d.filled i buffer size offset).freeBlocks :=
    freeBlocks_congr fun b _ => by rw [Disk.written, dmap_setInode]
  rw [hsize, filled]
  omega

/-- **The size after a write** is its end, whatever it was before. -/
theorem stSize_written : ((d.written i buffer size offset).inode i).stSize.toNat =
    offset + size := by
  have hend := h.end_le
  rw [Disk.written, inode_setInode_self, INode.stSize_withSize, BitVec.toNat_ofNat]
  exact Nat.mod_eq_of_lt (by omega)

end Fitting

section Written

variable {limit : ℕ} (hd : d.Sound limit) (hfile : d.IsFile i) (h : d.CanWrite i size offset)
  (buffer : ℕ → Byte)
include hd hfile h

omit hfile in
/-- The rank at which the write starts has a block then. -/
theorem ptr_firstMounted : ((d.firstMounted i offset).inode i).ptr (offset / 4096) ≠ 0 := by
  unfold Disk.firstMounted
  split
  · next h0 =>
    rw [ptr_mountBlock h.fits.rank_lt d.nextData_lt, if_pos ⟨rfl, rfl⟩]
    exact hd.pointers.ne_zero_of_free (h.fits.hasBlock h0).dmap_nextData
  · next h0 => exact h.first h0

/-- Filling the first block changes nothing else. -/
theorem FileChange.firstFilled :
    FileChange i (firstRank offset) (offset / 4096 + 1) d
      (d.firstFilled i buffer size offset) limit := by
  have hmount := FileChange.firstMounted hd hfile h.fits
  refine hmount.trans (.setData hmount.sound (hmount.isFile hfile) (ptr_firstMounted hd h) _ _)
    hfile.lt ?_ le_rfl
  unfold firstRank
  split <;> omega

/-- **What a write does to the disk.** -/
theorem FileChange.written (hlimit : 49152 ≤ limit := by decide) :
    FileChange i (firstRank offset) (offset / 4096 + 1 + nextCount size offset) d
      (d.written i buffer size offset) limit := by
  have hfirst := FileChange.firstFilled hd hfile h buffer
  obtain ⟨hnext, -, -⟩ := hfirst.sound.storeBlocks (hfirst.isFile hfile)
    (fun k => nextBlock buffer size (firstCount size offset + 4096 * k)) h.rank_le
    (nextCount_le_freeBlocks h.fits buffer)
  have hlo : firstRank offset ≤ offset / 4096 + 1 := by unfold firstRank; split <;> omega
  have hboth := hfirst.trans hnext hfile.lt hlo (by omega)
  have hend := h.end_le
  have hsize : (BitVec.ofNat 64 (offset + size)).toNat = offset + size := by
    rw [BitVec.toNat_ofNat]
    exact Nat.mod_eq_of_lt (by omega)
  exact hboth.trans (.setInode hboth.sound (hboth.isFile hfile) (INode.sameBlocks_withSize _ _)
    (hsize.trans_le (by omega)) _) hfile.lt (by omega) le_rfl

/-- The blocks of the file after a write. -/
theorem blockAt_written (q : ℕ) : (d.written i buffer size offset).blockAt i q =
    if offset / 4096 + 1 ≤ q ∧ q < offset / 4096 + 1 + nextCount size offset then
      nextBlock buffer size (firstCount size offset + 4096 * (q - (offset / 4096 + 1)))
    else if q = offset / 4096 then
      ((d.firstMounted i offset).blockAt i (offset / 4096)).paste (offset % 4096)
        (firstCount size offset) buffer
    else d.blockAt i q := by
  have hmount := FileChange.firstMounted hd hfile h.fits
  have hfirst := FileChange.firstFilled hd hfile h buffer
  obtain ⟨-, hat, -⟩ := hfirst.sound.storeBlocks (hfirst.isFile hfile)
    (fun k => nextBlock buffer size (firstCount size offset + 4096 * k)) h.rank_le
    (nextCount_le_freeBlocks h.fits buffer)
  rw [Disk.written, blockAt_setInode hfile.lt (INode.sameBlocks_withSize _ _), filled, hat]
  split
  · rfl
  · rw [Disk.firstFilled, hmount.sound.blockAt_setData hfile.lt (ptr_firstMounted hd h)]
    split
    · rfl
    · next hq =>
      rw [Disk.firstMounted]
      split
      · rw [blockAt_mountBlock hfile.lt h.fits.rank_lt d.nextData_lt, if_neg hq]
      · rfl

end Written

end Disk

/-! ### The run of a write -/

/-- The check in front of a write finds the file and does nothing. -/
theorem run_checkWrite {d : Disk} (hd : d.Walkable) {i : ℕ} (hi : i < 32768) {as : List Name}
    (hresolve : d.graph.resolve 4 (as.map Name.fileName) = some i) :
    (checkWrite env (pathChars as)).run vdisk d = some ((), d) := by
  obtain ⟨c, hc⟩ := exists_run_envRead env (datablockFindDiskId
    ((d.inode i).directPointer 0).toInt) d
  rw [checkWrite, Prog.run_bind_some _ (hd.run_understandThePath env hresolve),
    Prog.run_bind_some _ (run_justReadInodeFromDisk env hi d), Prog.run_bind_some _ hc,
    Prog.pure_eq_ret, Prog.run_ret]

section Run

variable {d : Disk} {i size offset limit : ℕ} (hd : d.Sound limit) (hfile : d.IsFile i)

section Fitting

variable (h : d.Fits size offset) (buffer : ℕ → Byte)
include hd hfile h

/-- **The blocks of a write** are filled as `Disk.filled` says. -/
theorem run_writeBlocks : ∃ y d', (writeBlocks env buffer size offset (d.inode i)).run vdisk d =
    some (y, d') ∧ d'.setInode i y = d.filled i buffer size offset := by
  have hend := h.end_le
  have hrank := h.rank_lt
  have hpre : cInt ((offset / 4096 : ℕ) : ℤ) = ((offset / 4096 : ℕ) : ℤ) := cInt_natCast (by omega)
  have hsize : cInt (size : ℤ) = size := cInt_natCast (by omega)
  have hcount : nextCount size offset ≤ size := by unfold nextCount; omega
  -- what remains once the first block is mounted, with record `x` on disk `e`
  have hrest (x : INode) (e : Disk) (he : e.setInode i x = d.firstMounted i offset) :
      ∃ y d', (do
        let firstWriteIn ← readTheOneDiskAccordingToRankInInode env ((offset / 4096 : ℕ) : ℤ) x
        let filled := fillFirst buffer size (4096 - offset % 4096) (offset % 4096) 0 firstWriteIn
        writeIntoDiskAcccordingToRankInInode env ((offset / 4096 : ℕ) : ℤ) x filled.1
        writeLoop env buffer size size (((offset / 4096 : ℕ) : ℤ) + 1) filled.2 x : Fs INode).run
          vdisk e = some (y, d') ∧ d'.setInode i y = d.filled i buffer size offset := by
    have hmount := Disk.FileChange.firstMounted hd hfile h
    have hptr := hmount.sound.pointers.lt i hfile.lt (offset / 4096)
    have hdata : (d.firstMounted i offset).blockAt i (offset / 4096) =
        e.data (x.ptr (offset / 4096)) := by
      rw [← he, Disk.blockAt, Disk.inode_setInode_self, Disk.data_setInode hfile.lt]
    rw [← he, Disk.inode_setInode_self] at hptr
    have hfree := Disk.nextCount_le_freeBlocks (i := i) h buffer
    have hfilled : (e.setData (x.ptr (offset / 4096)) ((e.data (x.ptr (offset / 4096))).paste
        (offset % 4096) (firstCount size offset) buffer)).setInode i x =
          d.firstFilled i buffer size offset := by
      rw [Disk.firstFilled, hdata, ← he, Disk.inode_setInode_self, Disk.setData_setInode hfile.lt]
    rw [← hfilled, Disk.freeBlocks_congr fun b _ => Disk.dmap_setInode i x b] at hfree
    have hfirst : fillFirst buffer size (4096 - offset % 4096) (offset % 4096) 0
        (e.data (x.ptr (offset / 4096))) = ((e.data (x.ptr (offset / 4096))).paste (offset % 4096)
          (firstCount size offset) buffer, firstCount size offset) := by
      rw [fillFirst_eq]
      simp only [Nat.zero_add, Nat.sub_zero, firstCount]
    rw [Prog.run_bind_some _ (run_readTheOneDisk env hrank hptr e)]
    simp only [hfirst]
    rw [Prog.run_bind_some _ (run_writeIntoDisk env hrank hptr _ e), Disk.filled, ← hfilled]
    exact run_writeLoop env buffer (by omega) hfile.lt size _ _ x _ hcount h.rank_le hfree
  rw [writeBlocks]
  simp only [hpre, hsize]
  by_cases h0 : offset % 4096 = 0
  · rw [if_pos h0, Prog.run_bind_some _ (run_takeDatablock env d),
      Prog.run_bind_some _ (run_mountBlockToInode env hrank (d.inode i) _)]
    exact hrest _ _ (by rw [Disk.firstMounted, if_pos h0, Disk.mountBlock])
  · rw [if_neg h0, Prog.pure_eq_ret, Prog.ret_bind]
    exact hrest _ _ (by rw [Disk.firstMounted, if_neg h0, Disk.setInode_inode])

/-- `fs_write` where the path still leads to the file afterwards, for `check_write`. -/
theorem run_fsWrite_of_walkable {as : List Name}
    (hresolve : d.graph.resolve 4 (as.map Name.fileName) = some i) (behind : ℕ → Byte)
    (hwalk : (d.written i buffer size offset).Walkable)
    (hresolve' : (d.written i buffer size offset).graph.resolve 4 (as.map Name.fileName) = some i) :
    (fsWrite env (pathString as behind) buffer size offset).run vdisk d =
      some ((size : ℤ), d.written i buffer size offset) := by
  have hend := h.end_le
  have hsum : cInt (cInt (offset : ℤ) + cInt (size : ℤ)) = ((offset + size : ℕ) : ℤ) := by
    rw [cInt_natCast (by omega), cInt_natCast (by omega), ← Nat.cast_add, cInt_natCast (by omega)]
  obtain ⟨y, d', hrun, hd'⟩ := run_writeBlocks env hd hfile h buffer
  have hwritten : d'.setInode i { y with stSize := BitVec.ofNat 64 (offset + size) } =
      d.written i buffer size offset := by
    rw [Disk.written, ← hd', Disk.inode_setInode_self, Disk.setInode_setInode]
    rfl
  have hpath : (pathString as behind).chars = pathChars as := rfl
  rw [fsWrite, hpath, Prog.run_bind_some _ (hd.walkable.run_understandThePath env hresolve),
    Prog.run_bind_some _ (run_justReadInodeFromDisk env hfile.lt d), Prog.run_bind_some _ hrun]
  simp only [hsum, BitVec.ofInt_natCast]
  rw [Prog.run_bind_some _ (run_repalceINodeAccordingToDiskNumber env hfile.lt _ d'), hwritten,
    Prog.run_bind_some _ (run_checkWrite env hwalk hfile.lt hresolve'),
    Prog.pure_eq_ret, Prog.run_ret, cInt_natCast (by omega)]

end Fitting

include hd hfile in
/-- **`fs_write`** on direct blocks. -/
theorem run_fsWrite (h : d.CanWrite i size offset) (buffer : ℕ → Byte) {as : List Name}
    (hresolve : d.graph.resolve 4 (as.map Name.fileName) = some i) (behind : ℕ → Byte)
    (hlimit : 49152 ≤ limit := by decide) :
    (fsWrite env (pathString as behind) buffer size offset).run vdisk d =
      some ((size : ℤ), d.written i buffer size offset) := by
  have hchange := Disk.FileChange.written hd hfile h buffer hlimit
  exact run_fsWrite_of_walkable env hd hfile h.fits buffer hresolve behind hchange.sound.walkable
    (by rw [hchange.graph, hresolve])

end Run

end InodeFs
