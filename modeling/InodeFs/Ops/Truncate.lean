import InodeFs.Ops.Remove
import InodeFs.Ops.Read

/-!
# Truncating a file

The two loops of `fs_truncate` run from `now_block_size + 1` to `pre_block_size`, whichever of
the two is larger: for a file that grows there is no round, and for one that shrinks each round
sets bits of the data map. Either way the record with the new size is all that is stored
(`run_fsTruncate`).

The rounds of a shrinking loop look numbers up in the record and pass them to the data map; on a
sound disk each of these numbers exists, so that the loop returns, and leaves a disk that differs in
set bits (`Disk.MarkedFrom`). No pointer is cleared and no block is written: what is behind the new
end is still there, and is read again when the file grows (`byteAt_truncated`).

Where there is no round, every size is accepted (`run_fsTruncate_of_le`), and otherwise a size up to
`2060` blocks. That the disk stays sound needs a size that `fs_read` can address
(`sound_truncated`).

The ranks of the shrinking loop start behind the first one that is cut off, and end one behind the
last; the block at the new end is kept even where the file ends at its start. Which numbers are
given back for which sizes is computed in `InodeFs.Properties.ReleasedBlocks`.
-/

namespace InodeFs

variable (env : Env)

open Disk (Marks)

/-- Bits of the maps are in other blocks than the inode table. -/
theorem Disk.Marks.table_eq {d s : Disk} (h : Marks d s) {n : ℕ} (hn : n < 1024) :
    s (4 + n) = d (4 + n) := by
  refine Block.inodes.injective (funext fun j => ?_)
  have hdiv : (32 * n + j.val) / 32 = n := by omega
  have hmod : (32 * n + j.val) % 32 = j.val := by omega
  have hinode := h.inode (32 * n + j.val) (by omega)
  simpa only [Disk.inode, hdiv, hmod] using hinode

section Shrink

variable {d : Disk} {x : INode} (hptr : ∀ r, x.ptr r < 64508)
  (hx : ∀ k, x.indirectPointer k = 0)
include hptr hx

/-- A round of the shrinking loop. -/
theorem deleteNRankBlock_keeps {r : ℕ} (hr : r < 1036) :
    (deleteNRankBlock env r x).Keeps vdisk (MarkedFrom d) (· = x) := by
  rw [deleteNRankBlock]
  by_cases h12 : (r : ℤ) < 12
  · have h12' : r < 12 := by omega
    have hlt := hptr r
    rw [if_pos h12, INode.index_directPointer h12', Prog.ret_bind,
      INode.toInt_directPointer h12' hlt]
    exact (makeDataMapUncovered_keeps env (by omega)).bind fun _ _ => Prog.keeps_pure rfl
  · have hindex : (r : ℤ).tdiv (12 + 1024) = ((0 : ℕ) : ℤ) :=
      Int.tdiv_eq_zero_of_lt (by omega) (by omega)
    have htransfer : (r : ℤ) - 12 - 1024 * ((0 : ℕ) : ℤ) = ((r - 12 : ℕ) : ℤ) := by omega
    have hnumber : (0 : BitVec 32).toInt = ((0 : ℕ) : ℤ) := rfl
    rw [if_neg h12]
    simp only [hindex, htransfer]
    rw [Prog.index_natCast _ (by decide), Prog.ret_bind, hx, hnumber]
    intro s hs
    have hlow : r - 12 < 1024 := by omega
    -- block 0 stands for the index block, and its elements are zero
    rw [Prog.run_bind_some _ (run_readInts env (by decide) s), hs.sound'.zero,
      Prog.index_natCast _ hlow, Prog.ret_bind, Block.ints_zero, hnumber,
      Prog.pure_eq_ret, Prog.ret_bind]
    have huncover : (do makeDataMapUncovered env ((0 : ℕ) : ℤ); pure x : Fs INode).Keeps vdisk
        (MarkedFrom d) (· = x) :=
      (makeDataMapUncovered_keeps env (by decide)).bind fun _ _ => Prog.keeps_pure rfl
    exact huncover s hs

/-- The loop over the ranks only marks. -/
theorem rankLoop_keeps (rounds r : ℕ) (hr : r + rounds ≤ 1036) :
    (rankLoop (deleteNRankBlock env) rounds r x).Keeps vdisk (MarkedFrom d) (· = x) := by
  induction rounds generalizing r with
  | zero => exact Prog.keeps_pure rfl
  | succ rounds ih =>
    rw [rankLoop]
    refine (deleteNRankBlock_keeps env hptr hx (by omega)).bind fun y hy => ?_
    subst hy
    exact ih (r + 1) (by omega)

end Shrink

/-- The whole blocks of a size, as `fs_truncate` counts them. -/
theorem blocks_eq {m : ℕ} (hm : m < 2 ^ 31) : (cInt (m : ℤ)).tdiv 4096 = ((m / 4096 : ℕ) : ℤ) := by
  rw [cInt_natCast (by omega), natCast_tdiv_ofNat]

/-- The number of whole blocks, as the code computes it. -/
theorem INode.blocks_eq (x : INode) (h : x.stSize.toNat < 2 ^ 31) :
    (cInt x.stSize.toInt).tdiv 4096 = ((x.stSize.toNat / 4096 : ℕ) : ℤ) := by
  rw [toInt_eq_natCast_long (by omega), InodeFs.blocks_eq h]

/-- What follows the loops of `fs_truncate`, for loops that keep the record and set bits. -/
theorem run_storeSize {d s : Disk} {i m : ℕ} (hi : i < 32768) (hs : Marks d s) {p : Fs INode}
    (hrun : p.run vdisk d = some (d.inode i, s)) : (p >>= fun x => do
      let bufferInode ← Prog.assign (d (4 + i / 32)).inodes ((i % 32 : ℕ) : ℤ)
        { x with stSize := BitVec.ofInt 64 m }
      writeINodes ((4 + i / 32 : ℕ) : ℤ) bufferInode
      pure (0 : ℤ)).run vdisk d =
        some (0, s.setInode i ((d.inode i).withSize (BitVec.ofNat 64 m))) := by
  rw [Prog.run_bind_some _ hrun, Prog.assign_natCast _ (show i % 32 < 32 by omega), Prog.ret_bind,
    Prog.run_bind_some _ (run_writeINodes (show 4 + i / 32 < 65536 by omega) _ s),
    Prog.pure_eq_ret, Prog.run_ret, BitVec.ofInt_natCast, Disk.setInode,
    hs.table_eq (show i / 32 < 1024 by omega)]
  rfl

/-- **`fs_truncate` without a round** of its loops, to whatever size: the record with the size. -/
theorem run_fsTruncate_of_le {d : Disk} (hd : d.Walkable) {as : List Name} {i m : ℕ}
    (hi : i < 32768) (hresolve : d.graph.resolve 4 (as.map Name.fileName) = some i)
    (behind : ℕ → Byte)
    (hle : (cInt (d.inode i).stSize.toInt).tdiv 4096 ≤ (cInt (m : ℤ)).tdiv 4096) :
    (fsTruncate env (pathString as behind) m).run vdisk d =
      some (0, d.setInode i ((d.inode i).withSize (BitVec.ofNat 64 m))) := by
  have hx : Prog.index (d (4 + i / 32)).inodes ((i % 32 : ℕ) : ℤ) =
      (.ret (d.inode i) : Fs INode) := Prog.index_natCast _ (show i % 32 < 32 by omega)
  have hrounds : ((cInt (d.inode i).stSize.toInt).tdiv 4096 + 1 -
      ((cInt (m : ℤ)).tdiv 4096 + 1)).toNat = 0 := by omega
  have hpath : (pathString as behind).chars = pathChars as := rfl
  rw [fsTruncate, hpath, Prog.run_bind_some _ (hd.run_understandThePath env hresolve)]
  simp only [inodeFindDiskIdAndIndexInDisk_natCast]
  rw [Prog.run_bind_some _ (run_readINodes env (show 4 + i / 32 < 65536 by omega) d), hx,
    Prog.ret_bind]
  simp only [hrounds]
  -- the same follows in all three cases
  split
  · exact run_storeSize hi (Marks.refl d) rfl
  · split <;> exact run_storeSize hi (Marks.refl d) rfl

/-- **`fs_truncate`** to a size that an inode can address: the size, and bits of the data map unless
the file keeps its number of blocks or grows. -/
theorem run_fsTruncate {d : Disk} (hd : d.Sound) {as : List Name} {i m : ℕ} (hi : i < 32768)
    (hsize : (d.inode i).stSize.toNat ≤ 2146304)
    (hresolve : d.graph.resolve 4 (as.map Name.fileName) = some i) (behind : ℕ → Byte)
    (hm : m ≤ 8437760) :
    ∃ s, MarkedFrom d s ∧ ((d.inode i).stSize.toNat / 4096 ≤ m / 4096 → s = d) ∧
      (fsTruncate env (pathString as behind) m).run vdisk d =
        some (0, s.setInode i ((d.inode i).withSize (BitVec.ofNat 64 m))) := by
  have hpre := (d.inode i).blocks_eq (show (d.inode i).stSize.toNat < 2 ^ 31 by omega)
  have hnow := blocks_eq (show m < 2 ^ 31 by omega)
  by_cases hle : (d.inode i).stSize.toNat / 4096 ≤ m / 4096
  · exact ⟨d, .refl hd, fun _ => rfl,
      run_fsTruncate_of_le env hd.walkable hi hresolve behind (by omega)⟩
  · have hx : Prog.index (d (4 + i / 32)).inodes ((i % 32 : ℕ) : ℤ) =
        (.ret (d.inode i) : Fs INode) := Prog.index_natCast _ (show i % 32 < 32 by omega)
    have hpath : (pathString as behind).chars = pathChars as := rfl
    set pre := (d.inode i).stSize.toNat / 4096 with hpredef
    have hrounds : (((pre : ℕ) : ℤ) + 1 - (((m / 4096 : ℕ) : ℤ) + 1)).toNat = pre - m / 4096 := by
      omega
    have hfirst : ((m / 4096 : ℕ) : ℤ) + 1 + 1 = ((m / 4096 + 2 : ℕ) : ℤ) := by omega
    obtain ⟨x, s, hrun, hs, rfl⟩ := rankLoop_keeps env (hd.pointers.lt i hi)
      (hd.pointers.indirect i hi) (pre - m / 4096) (m / 4096 + 2) (by omega) d (.refl hd)
    refine ⟨s, hs, fun hle' => absurd hle' hle, ?_⟩
    rw [fsTruncate, hpath, Prog.run_bind_some _ (hd.walkable.run_understandThePath env hresolve)]
    simp only [inodeFindDiskIdAndIndexInDisk_natCast]
    rw [Prog.run_bind_some _ (run_readINodes env (show 4 + i / 32 < 65536 by omega) d), hx,
      Prog.ret_bind]
    simp only [hpre, hnow, hrounds, hfirst]
    rw [if_neg (by omega), if_neg (by omega)]
    exact run_storeSize hi hs.marks hrun

/-! ### What a truncation leaves -/

section Truncate

variable {d s : Disk} {i m : ℕ}

/-- **No byte of a block changes** in a truncation. -/
theorem byteAt_truncated (hs : MarkedFrom d s) (hi : i < 32768) {j : ℕ} (hj : j < 32768) (k : ℕ) :
    (s.setInode i ((d.inode i).withSize (BitVec.ofNat 64 m))).byteAt j k = d.byteAt j k := by
  rw [Disk.byteAt, Disk.byteAt, Disk.blockAt, Disk.blockAt, Disk.data_setInode hi, hs.marks.data]
  by_cases hji : j = i
  · subst hji
    rw [Disk.inode_setInode_self, (INode.sameBlocks_withSize _ _).ptr]
  · rw [Disk.inode_setInode_of_ne hji, hs.marks.inode j hj]

/-- No name changes. -/
theorem graph_truncated (hs : MarkedFrom d s) (hfile : d.IsFile i) :
    (s.setInode i ((d.inode i).withSize (BitVec.ofNat 64 m))).graph = d.graph := by
  have hsame := hs.marks.inode i hfile.lt
  have hnot : ¬ s.IsDir i := fun hdir => hfile.not_isDir ⟨hdir.1, hsame ▸ hdir.2⟩
  rw [Disk.graph_setInode_file hfile.lt hnot (hsame ▸ INode.sameBlocks_withSize _ _),
    hs.marks.graph]

/-- The paths lead where they led. -/
theorem resolve_truncated (hs : MarkedFrom d s) (hfile : d.IsFile i) {as : List FileName} {j : ℕ}
    (hj : d.graph.resolve 4 as = some j) :
    (s.setInode i ((d.inode i).withSize (BitVec.ofNat 64 m))).graph.resolve 4 as = some j := by
  rw [graph_truncated hs hfile, hj]

/-- The paths are found whatever the new size is. -/
theorem walkable_truncated (hs : MarkedFrom d s) (hfile : d.IsFile i) :
    (s.setInode i ((d.inode i).withSize (BitVec.ofNat 64 m))).Walkable := by
  have hdir {p : ℕ} (hp : (s.setInode i ((d.inode i).withSize (BitVec.ofNat 64 m))).IsDir p) :
      d.IsDir p ∧ (s.setInode i ((d.inode i).withSize (BitVec.ofNat 64 m))).inode p =
        d.inode p := hfile.isDir_of_setInode rfl hs.marks.inode hp
  refine ⟨fun p hp => ?_, fun p hp r hr => ?_, fun p e he => ?_⟩
  · rw [(hdir hp).2]
    exact hs.sound.walkable.count_le p (hdir hp).1
  · rw [(hdir hp).2]
    exact hs.sound.walkable.ptr_lt p (hdir hp).1 r hr
  · rw [graph_truncated hs hfile] at he
    exact hs.sound.walkable.number_lt p e he

/-- The disk stays sound where the new size can be read. -/
theorem sound_truncated (hs : MarkedFrom d s) (hfile : d.IsFile i) (hm : m ≤ 2146304) :
    (s.setInode i ((d.inode i).withSize (BitVec.ofNat 64 m))).Sound := by
  have hsame := hs.marks.inode i hfile.lt
  have hnot : ¬ s.IsDir i := fun hdir => hfile.not_isDir ⟨hdir.1, hsame ▸ hdir.2⟩
  refine hs.sound'.setInode_file hfile.lt hnot (hsame ▸ INode.sameBlocks_withSize _ _) ?_
  rw [INode.stSize_withSize, BitVec.toNat_ofNat]
  omega

end Truncate

end InodeFs
