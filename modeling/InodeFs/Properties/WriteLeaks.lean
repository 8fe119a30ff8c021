import InodeFs.Ops.Bounds
import InodeFs.Properties.Writing
import Mathlib.Data.BitVec

/-!
# What else `fs_write` stores

The copy loop for the following blocks runs while `wrote <= size`, so in its last round it copies
`buffer[size]` as well, unless the block is full before. Two memory images that agree on the
caller's bytes give the same program then and only then; in every other case a disk tells them
apart. A write whose ranks leave the arrays has no result and stores the caller's bytes in no sense,
so `StoresOnlyBuffer` asks for results as well.

The bytes behind the caller's are a parameter of the write, as the buffer is a function of the
position and not a list. That a program does not depend on them is shown loop by loop
(`fillFirst_congr`, `writeLoop_congr`), for every record and disk.

For the converse one disk is enough. On a sound disk with a full data map and zeros in data block 0
(`Leaky`), every block taken is block 0, and what the write leaves there is the block of its last
round. With zeros for the caller's bytes it holds nothing but what came from behind them
(`Leaky.run_writeLoop`), so two buffers that differ there leave two disks (`exists_leak`).
-/

namespace InodeFs

variable (env : Env)

/-! ### Writes that end with a block -/

/-- The last block is full when the caller's bytes are used up, and it is not the first one, whose
loop leaves out a byte. -/
def FillsLast (size offset : ℕ) : Prop := (offset + size) % 4096 = 0 ∧ 8192 ≤ offset % 4096 + size

instance (size offset : ℕ) : Decidable (FillsLast size offset) :=
  inferInstanceAs (Decidable (_ ∧ _))

/-- The loop ends at once where everything is written. -/
theorem writeLoop_done (buffer : ℕ → Byte) {size wrote : ℕ} (h : cInt size ≤ wrote)
    (fuel : ℕ) (r : ℤ) (x : INode) : writeLoop env buffer size fuel r wrote x = pure x := by
  cases fuel with
  | zero => rw [writeLoop, if_neg (by omega)]
  | succ fuel => rw [writeLoop, if_neg (by omega)]

section Congr

variable {buffer buffer' : ℕ → Byte} {size : ℕ} (hagree : ∀ k < size, buffer k = buffer' k)
include hagree

/-- A stretch of the buffer that ends within the caller's bytes. -/
theorem paste_congr (b : Block) (i n wrote : ℕ) (hn : wrote + n ≤ size) :
    (b.paste i n fun k => buffer (wrote + k)) = b.paste i n fun k => buffer' (wrote + k) := by
  funext j
  unfold Block.paste
  split
  · exact hagree _ (by omega)
  · rfl

/-- The first loop copies caller's bytes only. -/
theorem fillFirst_congr {s : ℤ} (hs : s ≤ size) (bytes i : ℕ) (block : Block) :
    fillFirst buffer s bytes i 0 block = fillFirst buffer' s bytes i 0 block := by
  rcases lt_or_ge 0 s with hpos | hneg
  · obtain ⟨m, rfl⟩ := Int.eq_ofNat_of_zero_le hpos.le
    rw [fillFirst_eq, fillFirst_eq, paste_congr hagree _ _ _ _ (by omega)]
  · cases bytes with
    | zero => rfl
    | succ bytes => rw [fillFirst, if_pos (by omega), fillFirst, if_pos (by omega)]

/-- The loop over the following blocks: no round goes behind the caller's bytes if they fill whole
blocks, or if the count is the `int` value of a much larger size. -/
theorem writeLoop_congr (hle : cInt size ≤ size) (fuel : ℕ) (r : ℤ) (wrote : ℕ) (x : INode)
    (h : wrote ≤ size ∧ (size - wrote) % 4096 = 0 ∨ cInt size + 4096 ≤ size) :
    writeLoop env buffer size fuel r wrote x = writeLoop env buffer' size fuel r wrote x := by
  induction fuel generalizing r wrote x with
  | zero => rfl
  | succ fuel ih =>
    rw [writeLoop, writeLoop]
    split
    · next hmore =>
      have hround : wrote + min 4096 (size + 1 - wrote) ≤ size := by omega
      have hrest (y : INode) := ih (r + 1) (wrote + min 4096 (size + 1 - wrote)) y (by omega)
      rw [fillNext_eq, fillNext_eq, paste_congr hagree _ _ _ _ hround]
      simp only [hrest]
    · rfl

theorem writeBlocks_congr (offset : ℕ)
    (h : cInt size ≤ 0 ∨ cInt size ≠ size ∨ FillsLast size offset) (x : INode) :
    writeBlocks env buffer size offset x = writeBlocks env buffer' size offset x := by
  have hle := cInt_le size
  have hstart : offset % 4096 < 4096 := Nat.mod_lt _ (by decide)
  have hloop (block : Block) (y : INode) : writeLoop env buffer size size
      (cInt (offset / 4096 : ℕ) + 1)
      (fillFirst buffer' (cInt size) (4096 - offset % 4096) (offset % 4096) 0 block).2 y =
      writeLoop env buffer' size size (cInt (offset / 4096 : ℕ) + 1)
      (fillFirst buffer' (cInt size) (4096 - offset % 4096) (offset % 4096) 0 block).2 y := by
    have hwrote := fillFirst_snd buffer' (cInt size) hstart block
    rcases le_or_gt (cInt (size : ℤ)) 0 with hneg | hpos
    · rw [writeLoop_done env _ (by omega), writeLoop_done env _ (by omega)]
    · have hbig := cInt_eq_or_le hpos.le
      refine writeLoop_congr env hagree hle size _ _ y ?_
      unfold FillsLast at h
      omega
  rw [writeBlocks, writeBlocks]
  simp only [fillFirst_congr hagree hle, hloop]

end Congr

/-! ### A disk that shows the byte behind the buffer

On a full data map every block taken is block 0, and the file has no other. -/

/-- A full data map, zeros in block 0, and a record without blocks. -/
structure Leaky (d : Disk) (x : INode) : Prop where
  low : d 2 = fun _ => 255
  high : d 3 = fun _ => 255
  zero : d.data 0 = Block.zero
  direct : ∀ r, x.directPointer r = 0
  indirect : ∀ k, x.indirectPointer k = 0

theorem toInt_zero : (0 : BitVec 32).toInt = ((0 : ℕ) : ℤ) := rfl

/-- The index and the slot of an indirect rank that fits. -/
theorem exists_rankSlot {r : ℤ} (hr : RankFits r) (h12 : 12 ≤ r) : ∃ k t : ℕ, k < 2 ∧ t < 1024 ∧
    r.tdiv (1024 + 12) = (k : ℤ) ∧ r - (k : ℤ) * 1024 - 12 = (t : ℤ) := by
  obtain ⟨⟨hindex, hindex'⟩, hslot, hslot'⟩ := (rankFits_iff h12).mp hr
  obtain ⟨k, hk⟩ := Int.eq_ofNat_of_zero_le hindex
  obtain ⟨t, ht⟩ := Int.eq_ofNat_of_zero_le hslot
  rw [rankSlot] at hk ht hindex' hslot'
  simp only at hk ht hindex' hslot'
  rw [hk] at ht hindex' hslot'
  exact ⟨k, t, by omega, by omega, hk, ht⟩

namespace Leaky

variable {d : Disk} {x : INode} (h : Leaky d x)
include h

theorem run_takeDatablock : (takeDatablock env).run vdisk d = some (((0 : ℕ) : ℤ), d) := by
  have hset (b : ℕ) (hb : b < 65536) : d.dmap b = true := by
    have hfull := dmap_fullDisk hb
    rw [Disk.dmap] at hfull ⊢
    rwa [h.low, h.high]
  have hnext : d.nextData = 0 := by
    rw [Disk.nextData, Disk.freeData_eq_none.mpr hset, Option.getD_none]
  have hcover : d.coverData 0 = d := by
    rw [Disk.coverData, Disk.orDataMap, if_pos (by decide), h.low]
    refine Function.update_eq_self_iff.mpr ?_
    rw [h.low, Block.orMask]
    exact Function.update_eq_self_iff.mpr rfl
  rw [InodeFs.run_takeDatablock, hnext, hcover]

/-- The index block is block 0, and mounting block 0 leaves it zero. -/
theorem run_mountBlock {r : ℤ} (hr : RankFits r) :
    (mountBlockToInodeAccordingToRank env r ((0 : ℕ) : ℤ) x).run vdisk d = some (x, d) := by
  rw [mountBlockToInodeAccordingToRank]
  by_cases h12 : r < 12
  · obtain ⟨n, rfl⟩ := Int.eq_ofNat_of_zero_le hr.1
    have hn : n < 12 := by omega
    have hsame : Function.update x.directPointer ⟨n, hn⟩ (BitVec.ofInt 32 ((0 : ℕ) : ℤ)) =
        x.directPointer := Function.update_eq_self_iff.mpr (h.direct _).symm
    rw [if_pos h12, Prog.assign_natCast _ hn, hsame]
    rfl
  · obtain ⟨k, t, hk, ht, hindex, hslot⟩ := exists_rankSlot hr (by omega)
    have hzero : Function.update (d.data 0).ints ⟨t, ht⟩ (BitVec.ofInt 32 ((0 : ℕ) : ℤ)) =
        (d.data 0).ints := by
      refine Function.update_eq_self_iff.mpr ?_
      rw [h.zero, Block.ints_zero]
      rfl
    have hsame : d.setData 0 (d.data 0) = d := Function.update_eq_self _ _
    rw [if_neg h12]
    simp only [hindex, hslot]
    rw [Prog.index_natCast _ hk, Prog.ret_bind, h.indirect, toInt_zero,
      Prog.run_bind_some _ (run_readInts env (by decide) d), Prog.assign_natCast _ ht,
      Prog.ret_bind, hzero, writeInts, Equiv.symm_apply_apply,
      Prog.run_bind_some _ (run_writeData (by decide) _ d), hsame]
    rfl

theorem run_dataBlockAtRank {r : ℤ} (hr : RankFits r) :
    (dataBlockAtRank plainEnv r x).run vdisk d = some (((0 : ℕ) : ℤ), d) := by
  rw [dataBlockAtRank]
  by_cases h12 : r < 12
  · obtain ⟨n, rfl⟩ := Int.eq_ofNat_of_zero_le hr.1
    rw [if_pos h12, Prog.index_natCast _ (show n < 12 by omega), h.direct]
    rfl
  · obtain ⟨k, t, hk, ht, hindex, hslot⟩ := exists_rankSlot hr (by omega)
    rw [if_neg h12]
    simp only [hindex, hslot]
    rw [Prog.index_natCast _ hk, Prog.ret_bind, h.indirect, toInt_zero, readPointers,
      Prog.bind_assoc,
      Prog.run_bind_some _ (run_readData plainEnv (by decide) d), Prog.pure_eq_ret, Prog.ret_bind,
      Prog.index_natCast _ ht, Prog.ret_bind, h.zero]
    split
    · rw [Block.pointers_zero]
      rfl
    · have hhigh : plainEnv.stackHigh (datablockFindDiskId ((0 : ℕ) : ℤ)) = Block.zero := rfl
      rw [hhigh, Block.pointers_zero]
      rfl

theorem run_readTheOneDisk {r : ℤ} (hr : RankFits r) :
    (readTheOneDiskAccordingToRankInInode plainEnv r x).run vdisk d = some (Block.zero, d) := by
  rw [readTheOneDiskAccordingToRankInInode, Prog.run_bind_some _ (h.run_dataBlockAtRank hr),
    run_readData plainEnv (by decide), h.zero]

theorem run_writeIntoDisk {r : ℤ} (hr : RankFits r) (content : Block) :
    (writeIntoDiskAcccordingToRankInInode plainEnv r x content).run vdisk d =
      some ((), d.setData 0 content) := by
  rw [writeIntoDiskAcccordingToRankInInode, Prog.run_bind_some _ (h.run_dataBlockAtRank hr),
    run_writeData (by decide)]

theorem setData_zero : d.setData 0 Block.zero = d := by
  rw [← h.zero]
  exact Function.update_eq_self _ _

end Leaky

/-- What is in the last block, if the caller's bytes are zeros. -/
def leftOver (buffer : ℕ → Byte) (size wrote : ℕ) : Block :=
  if (size - wrote) % 4096 = 0 then Block.zero
  else Block.zero.set ((size - wrote) % 4096) (buffer size)

theorem paste_zeros {buffer : ℕ → Byte} {size wrote : ℕ} (hzero : ∀ k < size, buffer k = 0)
    (hlt : wrote < size) :
    (Block.zero.paste 0 (min 4096 (size + 1 - wrote)) fun k => buffer (wrote + k)) =
      if size - wrote < 4096 then Block.zero.set (size - wrote) (buffer size) else Block.zero := by
  funext j
  have hj := j.isLt
  unfold Block.paste
  simp only [Nat.zero_le, Nat.zero_add, Nat.sub_zero, true_and]
  by_cases hfull : size - wrote < 4096
  · rw [if_pos hfull, Block.set_apply]
    by_cases hend : j.val = size - wrote
    · have hsum : wrote + j.val = size := by omega
      rw [if_pos (by omega), if_pos hend, hsum]
    · rw [if_neg hend]
      split
      · exact hzero _ (by omega)
      · rfl
  · rw [if_neg hfull]
    split
    · exact hzero _ (by omega)
    · rfl

/-- The loop over the following blocks: every block but the last is zero and stored in block 0,
which is zero already. -/
theorem Leaky.run_writeLoop {d : Disk} {x : INode} (h : Leaky d x) {buffer : ℕ → Byte} {size : ℕ}
    (hzero : ∀ k < size, buffer k = 0) (hsize : cInt size = size) (fuel wrote : ℕ) (r : ℤ)
    (hlt : wrote < size) (hfuel : size - wrote ≤ fuel) (hr : RankFits r)
    (hlast : RankFits (r + ((size - wrote - 1) / 4096 : ℕ))) :
    (writeLoop plainEnv buffer size fuel r wrote x).run vdisk d =
      some (x, d.setData 0 (leftOver buffer size wrote)) := by
  induction fuel generalizing r wrote with
  | zero => omega
  | succ fuel ih =>
    rw [writeLoop, hsize, if_pos (by omega), fillNext_eq, paste_zeros hzero hlt]
    simp only
    rw [Prog.run_bind_some _ (h.run_takeDatablock plainEnv),
      Prog.run_bind_some _ (h.run_mountBlock plainEnv hr),
      Prog.run_bind_some _ (h.run_writeIntoDisk hr _)]
    by_cases hend : size - wrote ≤ 4096
    · rw [writeLoop_done plainEnv buffer (by omega), leftOver]
      by_cases hfull : size - wrote < 4096
      · have hmod : (size - wrote) % 4096 = size - wrote := Nat.mod_eq_of_lt hfull
        rw [if_pos hfull, hmod, if_neg (by omega)]
        rfl
      · rw [if_neg hfull, if_pos (by omega)]
        rfl
    · have hround : min 4096 (size + 1 - wrote) = 4096 := by omega
      have hmod : (size - (wrote + 4096)) % 4096 = (size - wrote) % 4096 := by omega
      have hrest := ih (wrote + 4096) (r + 1) (by omega) (by omega)
        (by unfold RankFits at hr hlast ⊢; omega) (by unfold RankFits at hr hlast ⊢; omega)
      rw [leftOver, hmod] at hrest
      rw [if_neg (by omega), h.setData_zero, hround, hrest, leftOver]

/-- What the first loop has copied of `size` bytes. -/
def copiedFirst (size offset : ℕ) : ℕ := min (4096 - offset % 4096) (size - 1)

theorem Leaky.run_writeBlocks {d : Disk} {x : INode} (h : Leaky d x) {buffer : ℕ → Byte}
    {size offset : ℕ} (hzero : ∀ k < size, buffer k = 0) (hpos : 0 < size)
    (hsize : cInt size = size)
    (hfits : WriteFits size offset) : (writeBlocks plainEnv buffer size offset x).run vdisk d =
      some (x, d.setData 0 (leftOver buffer size (copiedFirst size offset))) := by
  have hfirst := hfits.first
  have hlast := hfits.last.resolve_left (by omega)
  rw [hsize] at hlast
  have hloop := h.run_writeLoop hzero hsize size (copiedFirst size offset)
    (cInt (offset / 4096 : ℕ) + 1) (by unfold copiedFirst; omega) (by omega)
    (by unfold RankFits at hfirst hlast ⊢; omega)
    (by unfold RankFits at hfirst hlast ⊢; unfold copiedFirst; omega)
  have hfill : fillFirst buffer (cInt size) (4096 - offset % 4096) (offset % 4096) 0 Block.zero =
      (Block.zero, copiedFirst size offset) := by
    rw [hsize, fillFirst_eq]
    refine Prod.ext (funext fun j => ?_) ?_
    · simp only [Block.paste, Nat.sub_zero, Nat.zero_add]
      split
      · exact hzero _ (by omega)
      · rfl
    · simp only [copiedFirst, Nat.sub_zero, Nat.zero_add]
  have hrest : (do
      let firstWriteIn ← readTheOneDiskAccordingToRankInInode plainEnv (cInt (offset / 4096 : ℕ)) x
      let filled := fillFirst buffer (cInt size) (4096 - offset % 4096) (offset % 4096) 0
        firstWriteIn
      writeIntoDiskAcccordingToRankInInode plainEnv (cInt (offset / 4096 : ℕ)) x filled.1
      writeLoop plainEnv buffer size size (cInt (offset / 4096 : ℕ) + 1) filled.2 x).run vdisk d =
        some (x, d.setData 0 (leftOver buffer size (copiedFirst size offset))) := by
    rw [Prog.run_bind_some _ (h.run_readTheOneDisk hfirst)]
    simp only [hfill]
    rw [Prog.run_bind_some _ (h.run_writeIntoDisk hfirst _), h.setData_zero, hloop]
  rw [writeBlocks]
  simp only
  by_cases h0 : offset % 4096 = 0
  · rw [if_pos h0, Prog.run_bind_some _ (h.run_takeDatablock plainEnv),
      Prog.run_bind_some _ (h.run_mountBlock plainEnv hfirst)]
    exact hrest
  · rw [if_neg h0, Prog.pure_eq_ret, Prog.ret_bind]
    exact hrest

namespace Disk

/-- The paths are found as long as the directories and their blocks stay. -/
theorem Sound.walkable_of_same {d t : Disk} (hd : d.Sound)
    (hinode : ∀ p, d.IsDir p → t.inode p = d.inode p) (hdir : ∀ p, t.IsDir p → d.IsDir p)
    (hdata : ∀ b, b ≠ 0 → t.data b = d.data b) : t.Walkable ∧ t.graph = d.graph := by
  have hgraph : t.graph = d.graph := by
    funext p
    refine graph_congr ⟨hdir p, fun hp => ⟨hp.1, by rw [hinode p hp]; exact hp.2⟩⟩ fun hp => ?_
    rw [hinode p hp]
    exact entriesOf_eq_of_blocks rfl (fun _ _ => rfl) fun r hr =>
      hdata _ ((hd.directories.dir p hp).block r hr)
  refine ⟨⟨fun p hp => ?_, fun p hp r hr => ?_, ?_⟩, hgraph⟩
  · rw [hinode p (hdir p hp)]
    exact hd.walkable.count_le p (hdir p hp)
  · rw [hinode p (hdir p hp)]
    exact hd.walkable.ptr_lt p (hdir p hp) r hr
  · rw [hgraph]
    exact hd.walkable.number_lt

/-- The disk with a full data map. -/
def fillMap (d : Disk) : Disk := Function.update (Function.update d 2 fun _ => 255) 3 fun _ => 255

theorem marks_fillMap (d : Disk) : Marks d d.fillMap where
  inode i _ := by
    unfold fillMap inode
    rw [Function.update_of_ne (by omega), Function.update_of_ne (by omega)]
  data b := by
    unfold fillMap data
    rw [Function.update_of_ne (by omega), Function.update_of_ne (by omega)]
  imap i _ hset := by
    unfold fillMap imap
    rwa [Function.update_of_ne (by decide), Function.update_of_ne (by decide)]
  dmap b hb _ := dmap_fullDisk hb

end Disk

/-- An empty file on a disk with a full data map. -/
theorem exists_leaky : ∃ d i, d.Sound ∧ d.graph.resolve 4 (fileNames [nthName 0]) = some i ∧
    d.IsFile i ∧ Leaky d (d.inode i) := by
  obtain ⟨d, hrun, -, number, hnumber, -⟩ := exists_safeRun_files 1 (by decide)
  obtain ⟨hi, hfile, -, hptr⟩ := hnumber 0 Nat.one_pos
  have hd := hrun.sound
  have hmarks := d.marks_fillMap
  have hinode := hmarks.inode _ hfile.lt
  have hnot : ¬ d.fillMap.IsDir (number 0) := fun hdir =>
    hfile.not_isDir ⟨hdir.1, hinode ▸ hdir.2⟩
  refine ⟨d.fillMap, number 0, hd.mark hmarks, by rw [hmarks.graph]; exact hi,
    ⟨hfile.lt, hmarks.imap _ hfile.lt hfile.marked, hnot⟩, ⟨rfl, rfl, ?_, fun r => ?_, fun k => ?_⟩⟩
  · rw [hmarks.data]
    exact hd.zero
  · have hzero := hptr r
    rw [INode.ptr, dif_pos r.isLt] at hzero
    rw [hinode]
    exact BitVec.eq_of_toNat_eq hzero
  · rw [hinode]
    exact hd.pointers.indirect _ hfile.lt k

/-- The whole write on such a disk: the blocks behind the first end up in block 0. -/
theorem Leaky.exists_run_fsWrite {d : Disk} (hd : d.Sound) {as : List Name} {i : ℕ}
    (hi : d.graph.resolve 4 (fileNames as) = some i) (hfile : d.IsFile i) (h : Leaky d (d.inode i))
    {buffer : ℕ → Byte} {size offset : ℕ} (hzero : ∀ k < size, buffer k = 0) (hpos : 0 < size)
    (hsize : cInt size = size) (hfits : WriteFits size offset) (behind : ℕ → Byte) :
    ∃ d', (fsWrite plainEnv (pathString as behind) buffer size offset).run vdisk d =
        some ((size : ℤ), d') ∧
      d'.data 0 = leftOver buffer size (copiedFirst size offset) := by
  set c := leftOver buffer size (copiedFirst size offset)
  set y : INode := { d.inode i with stSize := BitVec.ofInt 64 (cInt (cInt offset + cInt size)) }
  have hmode : y.stMode = (d.inode i).stMode := rfl
  have hsame (j : ℕ) (hj : j < 32768) : (d.setData 0 c).inode j = d.inode j :=
    Disk.inode_setData hj 0 c
  have hinode (p : ℕ) (hp : d.IsDir p) : ((d.setData 0 c).setInode i y).inode p = d.inode p := by
    have hpi : p ≠ i := fun heq => hfile.not_isDir (heq ▸ hp)
    rw [Disk.inode_setInode_of_ne hpi, hsame p hp.1]
  obtain ⟨hwalk, hgraph⟩ := hd.walkable_of_same (t := (d.setData 0 c).setInode i y) hinode
    (fun p hp => (hfile.isDir_of_setInode hmode hsame hp).1)
    (fun b hb => by rw [Disk.data_setInode hfile.lt, Disk.data_setData, if_neg hb])
  have hpath : (pathString as behind).chars = pathChars as := rfl
  refine ⟨(d.setData 0 c).setInode i y, ?_, by
    rw [Disk.data_setInode hfile.lt, Disk.data_setData_self]⟩
  rw [fsWrite, hpath, Prog.run_bind_some _ (hd.walkable.run_understandThePath plainEnv hi),
    Prog.run_bind_some _ (run_justReadInodeFromDisk plainEnv hfile.lt d),
    Prog.run_bind_some _ (h.run_writeBlocks hzero hpos hsize hfits)]
  simp only
  rw [Prog.run_bind_some _ (run_repalceINodeAccordingToDiskNumber plainEnv hfile.lt y _),
    Prog.run_bind_some _ (run_checkWrite plainEnv hwalk hfile.lt (by rw [hgraph]; exact hi)),
    Prog.pure_eq_ret, Prog.run_ret, hsize]

/-! ### Exactly when nothing else is stored -/

/-- The writes of a size and an offset store the first `size` bytes of the buffer alone: whatever
the record, the copying has a result, and two memory images that agree on the caller's bytes leave
the same disk. -/
structure StoresOnlyBuffer (size offset : ℕ) : Prop where
  results : ∀ (env : Env) (d : Disk) (x : INode) (buffer : ℕ → Byte),
    Inside (writeBlocks env buffer size offset x) d
  same : ∀ (env : Env) (d : Disk) (path : CString) (buffer buffer' : ℕ → Byte),
    (∀ k < size, buffer k = buffer' k) →
      ((fsWrite env path buffer size offset).run vdisk d).map Prod.snd =
        ((fsWrite env path buffer' size offset).run vdisk d).map Prod.snd

/-- Zeros, and a one behind them. -/
def oneBehind (size : ℕ) : ℕ → Byte := Function.update 0 size 1

theorem oneBehind_of_lt {size k : ℕ} (hk : k < size) : oneBehind size k = 0 :=
  Function.update_of_ne (by omega) _ _

/-- The last byte stored is `buffer[size]` unless the last block is full before. -/
theorem copiedFirst_mod {size offset : ℕ} (hpos : 0 < size) (h : ¬ FillsLast size offset) :
    (size - copiedFirst size offset) % 4096 ≠ 0 := by
  have hstart : offset % 4096 < 4096 := Nat.mod_lt _ (by decide)
  unfold FillsLast at h
  unfold copiedFirst
  omega

/-- Two buffers of zeros that differ behind the end leave two disks. -/
theorem exists_leak (size offset : ℕ) (hpos : 0 < size) (hsize : cInt size = size)
    (hfills : ¬ FillsLast size offset) (hfits : WriteFits size offset) :
    ∃ d path, ((fsWrite plainEnv path 0 size offset).run vdisk d).map Prod.snd ≠
      ((fsWrite plainEnv path (oneBehind size) size offset).run vdisk d).map Prod.snd := by
  obtain ⟨d, i, hd, hi, hfile, hleaky⟩ := exists_leaky
  have hzeros (k : ℕ) (_ : k < size) : (0 : ℕ → Byte) k = 0 := rfl
  obtain ⟨d₁, hrun₁, hdata₁⟩ := hleaky.exists_run_fsWrite hd hi hfile hzeros hpos hsize hfits
    plainMemory
  obtain ⟨d₂, hrun₂, hdata₂⟩ := hleaky.exists_run_fsWrite hd hi hfile
    (fun _ => oneBehind_of_lt) hpos hsize hfits plainMemory
  refine ⟨d, pathString [nthName 0] plainMemory, fun hsame => ?_⟩
  rw [hrun₁, hrun₂] at hsame
  have hdisk : d₁ = d₂ := Option.some.inj hsame
  have hmod := copiedFirst_mod hpos hfills
  have hlast : (size - copiedFirst size offset) % 4096 < 4096 := Nat.mod_lt _ (by decide)
  have hzero : (d₁.data 0).get ((size - copiedFirst size offset) % 4096) = 0 := by
    rw [hdata₁, leftOver, if_neg hmod, Block.get, dif_pos hlast, Block.set_apply, if_pos rfl]
    rfl
  have hone : (d₂.data 0).get ((size - copiedFirst size offset) % 4096) = 1 := by
    rw [hdata₂, leftOver, if_neg hmod, Block.get, dif_pos hlast, Block.set_apply, if_pos rfl]
    exact Function.update_self _ _ _
  rw [hdisk, hone] at hzero
  exact absurd hzero (by decide)

/-- **Nothing but the caller's bytes is stored** by the writes of a size and an offset exactly if
their ranks lie in the arrays and the copy loops end at once (no size, or one whose `int` value is
another number), or the caller's bytes end with a block behind the first one. -/
theorem write_stores_only_iff (size offset : ℕ) : StoresOnlyBuffer size offset ↔
    WriteFits size offset ∧ (cInt size ≤ 0 ∨ cInt size ≠ size ∨ FillsLast size offset) := by
  constructor
  · intro h
    have hfits : WriteFits size offset :=
      (inside_writeBlocks_iff plainEnv 0 size offset).mp (h.results plainEnv zeroDisk .cleared 0)
    refine ⟨hfits, ?_⟩
    by_contra hcond
    simp only [not_or, not_le, not_not] at hcond
    obtain ⟨hpos, hsize, hfills⟩ := hcond
    obtain ⟨d, path, hne⟩ := exists_leak size offset (by omega) hsize hfills hfits
    exact hne (h.same plainEnv d path _ _ fun k hk => (oneBehind_of_lt hk).symm)
  · rintro ⟨hfits, hcond⟩
    refine ⟨fun env d x buffer => (inside_writeBlocks_iff env buffer size offset).mpr hfits,
      fun env d path buffer buffer' hagree => ?_⟩
    have hsame (x : INode) := writeBlocks_congr env hagree offset hcond x
    simp only [fsWrite, hsame]

/-- A write of a single byte stores the byte behind it, too. -/
theorem not_write_stores_only : ¬ StoresOnlyBuffer 1 0 := by
  intro h
  obtain ⟨d, path, hne⟩ := exists_leak 1 0 (by decide) (by decide) (by decide)
    ⟨by decide, .inr (by decide)⟩
  exact hne (h.same plainEnv d path _ _ fun k hk => (oneBehind_of_lt hk).symm)

end InodeFs
