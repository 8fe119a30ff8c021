import InodeFs.State.Removal
import InodeFs.State.Format

/-!
# Giving blocks back

`make_data_map_uncovered` and `make_inode_map_uncovered` only set bits, and so do the loops that
call them: the release of a file's blocks, the release of a directory's children, and the
shrinking loop of `fs_truncate`. Each of these programs returns from a sound disk and leaves it
as it was but for bits of the maps, `Disk.Marks d`.

What a caller can rely on is stated with `Prog.Keeps`: each of the programs, run on any disk that
differs from a sound one in set bits only, leaves such a disk, and reads what the sound one holds.
With this invariant the loops need no count of what they have set so far, and no order.

`Disk.MarkedFrom d` are these disks. They are sound as well (`MarkedFrom.sound'`), because nothing
in use has become free, and what the bits mark in excess is nobody's concern here.

The second half is about entries by rank. Below rank 12 the block is the first of the directory, and
the entry is read and overwritten there. From rank 12 on the code takes an index block for it, which
a directory does not have, and reads what was in memory; the entry that it gets is `rankEntry`, for
every rank and every content of memory.
-/

namespace InodeFs

variable (env : Env)

open Disk (Marks)

/-- The disks that differ from `d` only in bits that are set, for a sound `d`. -/
structure MarkedFrom (d s : Disk) : Prop where
  sound : d.Sound
  marks : Marks d s

section Released

variable {d : Disk}

theorem MarkedFrom.refl (h : d.Sound) : MarkedFrom d d := ⟨h, Marks.refl d⟩

/-- The disk stays sound: nothing in use is given up. -/
theorem MarkedFrom.sound' {s : Disk} (h : MarkedFrom d s) : s.Sound := h.sound.mark h.marks

/-- Giving a block back marks it, and seven others perhaps. -/
theorem makeDataMapUncovered_keeps {b : ℕ} (hb : b < 65536) :
    (makeDataMapUncovered env b).Keeps vdisk (MarkedFrom d) fun _ => True := fun s hs =>
  ⟨_, _, run_makeDataMapUncovered env hb s, ⟨hs.sound, hs.marks.trans (Disk.marks_uncoverData hb)⟩,
    trivial⟩

/-- The index blocks are read as they were. -/
theorem readInts_keeps {b : ℕ} (hb : b < 64508) :
    (readInts env (datablockFindDiskId b)).Keeps vdisk (MarkedFrom d) (· = (d.data b).ints) :=
  Prog.keeps_of_run fun s hs => ⟨_, run_readInts env hb s, by rw [hs.marks.data]⟩

/-- The records are read as they were. -/
theorem justReadInodeFromDisk_keeps {i : ℕ} (hi : i < 32768) :
    (justReadInodeFromDisk env i).Keeps vdisk (MarkedFrom d) (· = d.inode i) :=
  Prog.keeps_of_run fun s hs => ⟨_, run_justReadInodeFromDisk env hi s, hs.marks.inode i hi⟩

/-! ### The blocks of a file -/

/-- Each round gives one block back. -/
theorem uncoverLoop_keeps {n : ℕ} {numbers : Fin n → BitVec 32}
    (hlt : ∀ j, (numbers j).toNat < 64508) (count i : ℕ) (h : i + count ≤ n) :
    (uncoverLoop env numbers count i).Keeps vdisk (MarkedFrom d) fun _ => True := by
  induction count generalizing i with
  | zero => exact Prog.keeps_pure trivial
  | succ count ih =>
    have hi : i < n := by omega
    have hnumber := hlt ⟨i, hi⟩
    rw [uncoverLoop, Prog.index_natCast _ hi, Prog.ret_bind, toInt_eq_natCast (by omega)]
    exact (makeDataMapUncovered_keeps env (by omega)).bind fun _ _ => ih (i + 1) (by omega)

theorem getMin_toNat_le (a b : ℤ) : (getMin a b).toNat ≤ a.toNat := by
  unfold getMin
  split <;> omega

/-- The numbers of an index block that was never mounted are zeros. -/
theorem uncoverIndexed_keeps {x : INode} (hx : x.indirectPointer = fun _ => 0) (k : Fin 2) (n : ℤ) :
    (do let members ← readInts env (datablockFindDiskId (x.indirectPointer k).toInt)
        uncoverLoop env members (getMin 1024 n).toNat 0).Keeps vdisk (MarkedFrom d)
      fun _ => True := by
  have hcount := getMin_toNat_le 1024 n
  have hzero : ((0 : BitVec 32).toInt) = ((0 : ℕ) : ℤ) := rfl
  rw [hx, hzero]
  intro s hs
  refine ((readInts_keeps env (by decide)).bind fun members hmembers => ?_) s hs
  subst hmembers
  refine uncoverLoop_keeps env (fun j => ?_) _ 0 (by omega)
  rw [hs.sound.zero, Block.ints_zero]
  decide

/-- **The release of a file's blocks** sets bits of the data map. -/
theorem releaseFileDatabock_keeps {x : INode} (hptr : ∀ r, x.ptr r < 64508)
    (hx : x.indirectPointer = fun _ => 0) :
    (releaseFileDatabockByProvideInode env x).Keeps vdisk (MarkedFrom d) fun _ => True := by
  have hnumbers (j : Fin 12) : (x.directPointer j).toNat < 64508 := by
    have hlt := hptr j.val
    rwa [INode.ptr, dif_pos j.isLt] at hlt
  have hcount := getMin_toNat_le 12 (cInt (x.stSize.toInt.tdiv 4096 + 1))
  have hsecond : (if cInt (x.stSize.toInt.tdiv 4096 + 1) > 11 + 1024 then do
        let members ← readInts env (datablockFindDiskId (x.indirectPointer 1).toInt)
        uncoverLoop env members
          (getMin 1024 (cInt (x.stSize.toInt.tdiv 4096 + 1) - 11 - 1024)).toNat 0
      else pure ()).Keeps vdisk (MarkedFrom d) fun _ => True := by
    split
    · exact uncoverIndexed_keeps env hx 1 _
    · exact Prog.keeps_pure trivial
  rw [releaseFileDatabockByProvideInode]
  refine (uncoverLoop_keeps env hnumbers _ 0 (by omega)).bind fun _ _ => ?_
  simp only
  split
  · rw [← Prog.bind_assoc]
    exact (uncoverIndexed_keeps env hx 0 _).bind fun _ _ => hsecond
  · exact hsecond

/-- **Giving back the blocks of an inode** only marks. -/
theorem release_keeps {i : ℕ} (hi : i < 32768) (h : d.Sound) :
    (releaseFileDatabockByProvideInode env (d.inode i)).Keeps vdisk (MarkedFrom d)
      fun _ => True :=
  releaseFileDatabock_keeps env (h.pointers.lt i hi) (funext fun k => h.pointers.indirect i hi k)

/-! ### Entries by rank -/

/-- The number of entries as the code computes it. -/
theorem INode.fileAmount_eq {x : INode} (h : x.count ≤ 1536) : fileAmount x = x.count :=
  INode.cInt_tdiv_stSize h

/-- The entry of a rank below 12, which lies in the first block. -/
theorem run_getFilenameData {x : INode} {r : ℕ} (hr : r < 12) (hptr : x.ptr 0 < 64508) (s : Disk) :
    (getFilenameDataFromDirInRankView env r x).run vdisk s = some (s.entryOf x r, s) := by
  have hdiv : (r : ℤ).tdiv 128 = ((0 : ℕ) : ℤ) := Int.tdiv_eq_zero_of_lt (by omega) (by omega)
  have hmod : (r : ℤ).tmod 128 = (r : ℤ) := Int.tmod_eq_of_lt (by omega) (by omega)
  have hr0 : r / 128 = 0 := by omega
  have hrm : r % 128 = r := by omega
  rw [getFilenameDataFromDirInRankView]
  simp only [hdiv, hmod]
  rw [if_pos (by omega), INode.index_directPointer (by decide), Prog.ret_bind,
    INode.toInt_directPointer (by decide) hptr, Prog.run_bind_some _ (run_readEntries env hptr s),
    Prog.index_natCast _ (by omega), Prog.run_ret, Disk.entryOf, hr0]
  simp only [Block.entry, hrm]

/-- Such an entry is overwritten in the first block. -/
theorem run_writeFilename {x : INode} {r : ℕ} (hr : r < 12) (hptr : x.ptr 0 < 64508)
    (e : DictioryContent) (s : Disk) :
    (writeFilenameIntodirInRankView env r x e).run vdisk s =
      some ((), s.setData (x.ptr 0) ((s.data (x.ptr 0)).setEntry r e)) := by
  have hdiv : (r : ℤ).tdiv 128 = ((0 : ℕ) : ℤ) := Int.tdiv_eq_zero_of_lt (by omega) (by omega)
  have hmod : (r : ℤ).tmod 128 = (r : ℤ) := Int.tmod_eq_of_lt (by omega) (by omega)
  have hrm : r % 128 = r := by omega
  rw [writeFilenameIntodirInRankView]
  simp only [hdiv, hmod]
  rw [if_pos (by omega), INode.index_directPointer (by decide), Prog.ret_bind,
    INode.toInt_directPointer (by decide) hptr, Prog.run_bind_some _ (run_readEntries env hptr s),
    Prog.assign_natCast _ (by omega), Prog.ret_bind, run_writeEntries hptr]
  simp only [Block.setEntry, hrm]

/-- The entry that is found at a rank: from rank 12 on it comes from a buffer that was not read. -/
def rankEntry (s : Disk) (x : INode) (r : ℕ) : DictioryContent :=
  if r < 12 then s.entryOf x r else (env.stack r).entry r

section High

variable {x : INode} {r : ℕ} {s : Disk}

/-- The index block that the code computes for a rank from 12 on. -/
theorem tdiv_highRank (hr : r < 1536) (h12 : 12 ≤ r) :
    ((r : ℤ) - 11).tdiv 1024 = (((r - 11) / 1024 % 2 : ℕ) : ℤ) := by
  have hsub : (r : ℤ) - 11 = ((r - 11 : ℕ) : ℤ) := by omega
  rw [hsub, natCast_tdiv_ofNat]
  exact congrArg Nat.cast (by omega)

/-- The element of that index block. -/
theorem sub_highRank (hr : r < 1536) (h12 : 12 ≤ r) :
    (r : ℤ) - 11 - (((r - 11) / 1024 % 2 : ℕ) : ℤ) * 1024 = (((r - 11) % 1024 : ℕ) : ℤ) := by
  omega

variable (hr : r < 1536) (hptr : x.ptr 0 < 64508) (hx : ∀ k, x.indirectPointer k = 0)
  (hzero : s.data 0 = Block.zero)
include hr hptr hx hzero

/-- The entry a rank is read as. -/
theorem run_getFilenameData_rank :
    (getFilenameDataFromDirInRankView env r x).run vdisk s = some (rankEntry env s x r, s) := by
  by_cases h12 : r < 12
  · rw [run_getFilenameData env h12 hptr, rankEntry, if_pos h12]
  · have h12' : 12 ≤ r := Nat.le_of_not_lt h12
    have hnumber : (0 : BitVec 32).toInt = ((0 : ℕ) : ℤ) := rfl
    have hmod : (r : ℤ).tmod 128 = ((r % 128 : ℕ) : ℤ) := natCast_tmod_ofNat _ _
    rw [getFilenameDataFromDirInRankView]
    simp only [hmod]
    rw [if_neg (by omega)]
    simp only [tdiv_highRank hr h12', sub_highRank hr h12']
    rw [Prog.index_natCast _ (Nat.mod_lt _ (by decide)), Prog.ret_bind, hx, hnumber,
      Prog.run_bind_some _ (run_readInts env (by decide) s), hzero,
      Prog.index_natCast _ (Nat.mod_lt _ (by decide)), Prog.ret_bind, Block.ints_zero, hnumber,
      Prog.run_bind_some _ (run_readData env (by decide) s),
      Prog.index_natCast _ (Nat.mod_lt _ (by decide)), rankEntry, if_neg h12]
    rfl

omit hptr in
/-- From rank 12 on nothing is written: block 0 stands for the index block and for the block its
element names, and is written back. -/
theorem run_writeFilename_high (h12 : 12 ≤ r) (e : DictioryContent) :
    (writeFilenameIntodirInRankView env r x e).run vdisk s = some ((), s) := by
  have hnumber : (0 : BitVec 32).toInt = ((0 : ℕ) : ℤ) := rfl
  have hsame : s.setData 0 (s.data 0) = s := Function.update_eq_self _ _
  have hread : (diskRead (datablockFindDiskId ((0 : ℕ) : ℤ)) (Block.ints.symm Block.zero.ints)).run
      vdisk s = some (s.data 0, s) := run_diskRead (by decide) _ s
  have hwrite := run_writeData (show 0 < 64508 by decide) (s.data 0) s
  rw [writeFilenameIntodirInRankView, if_neg (by omega)]
  simp only [tdiv_highRank hr h12, sub_highRank hr h12]
  rw [Prog.index_natCast _ (Nat.mod_lt _ (by decide)), Prog.ret_bind, hx, hnumber,
    Prog.run_bind_some _ (run_readInts env (by decide) s), hzero,
    Prog.index_natCast _ (Nat.mod_lt _ (by decide)), Prog.ret_bind, Block.ints_zero, hnumber,
    Prog.run_bind_some _ hread, Prog.index_natCast _ (Nat.mod_lt _ (by decide)), Prog.ret_bind]
  rw [hzero] at hwrite hsame ⊢
  rw [Block.ints_zero, hnumber, hwrite, hsame]

end High

/-- **The removal of an entry by rank**, in a directory of any size. -/
theorem run_deleteFile_rank {p k limit : ℕ} {s : Disk} (hp : s.IsDir p) (hs : s.Sound limit)
    (hk : k < (s.inode p).count) :
    (deleteFileAccordingToRank env k (s.inode p)).run vdisk s =
      some ((), if k < 12 then s.setData ((s.inode p).ptr 0)
        ((s.data ((s.inode p).ptr 0)).setEntry k
          (rankEntry env s (s.inode p) ((s.inode p).count - 1))) else s) := by
  have hcount := (hs.directories.dir p hp).count_le
  have hptr := hs.pointers.lt p hp.1 0
  have hx := hs.pointers.indirect p hp.1
  have hlast : ((s.inode p).count : ℤ) - 1 = (((s.inode p).count - 1 : ℕ) : ℤ) := by omega
  rw [deleteFileAccordingToRank, INode.fileAmount_eq hcount, if_neg (by omega), hlast,
    Prog.run_bind_some _ (run_getFilenameData_rank env (by omega) hptr hx hs.zero)]
  by_cases h12 : k < 12
  · rw [run_writeFilename env h12 hptr, if_pos h12]
  · rw [run_writeFilename_high env (by omega) hx hs.zero (Nat.le_of_not_lt h12), if_neg h12]

end Released

end InodeFs
