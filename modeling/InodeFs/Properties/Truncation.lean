import InodeFs.Properties.Writing

/-!
# Truncation

`truncate_exact_iff`: after `fs_truncate` to a smaller size everything is as it should be; after
one to a larger size exactly when the new positions are among those `fs_read` can address and
the bytes that are stored there are zeros already: the loop over the new blocks has no round.

`TruncateExact` is what the call is for: the bytes of the file up to the smaller size stay, those
from the old size on are zeros, the size is the new one, and no other file reads differently. It is
a statement about `fs_read` before and after, so that it needs no word about blocks; the condition
of `truncate_exact_iff` on the stored bytes is one on the disk before the call.

Behind the ranks with a pointer of their own a read finds index block 0, and what it shows depends
on memory. `wildEnv` is an environment in which this can be seen (`run_fsRead_wildEnv`), and so the
bound on the new size is exact.

Where a file has grown it shows what is stored there, since a truncation writes no byte and gives no
pointer back. So one that has been shortened before shows its old bytes again, unless they were
zeros.
-/

namespace InodeFs

/-! ### What a truncation leaves -/

/-- `fs_truncate` to `m` bytes keeps the prefix, extends with zeros and leaves other files alone. -/
def TruncateExact (env : Env) (behind : ℕ → Byte) (d : Disk) (as : List Name) (i m : ℕ) : Prop :=
  ∃ d', (fsTruncate env (pathString as behind) m).run vdisk d = some (0, d') ∧
    (∃ stat, (fsGetattr env (pathString as behind)).run vdisk d' = some ((0, stat), d') ∧
      stat.stSize.toNat = m) ∧
    (∀ c, ReadsAs env d (pathString as behind) 0 (d.inode i).stSize.toNat c →
      ReadsAs env d' (pathString as behind) 0 (min (d.inode i).stSize.toNat m) c) ∧
    ((d.inode i).stSize.toNat < m →
      ReadsAs env d' (pathString as behind) (d.inode i).stSize.toNat m fun _ => 0) ∧
    ∀ bs j behind', d.graph.resolve 4 (fileNames bs) = some j → d.IsFile j → j ≠ i → ∀ c,
      ReadsAs env d (pathString bs behind') 0 (d.inode j).stSize.toNat c →
        ReadsAs env d' (pathString bs behind') 0 (d.inode j).stSize.toNat c

/-! #### Behind the half-filled index buffer -/

/-- An environment in which the buffers hold what makes a read behind the addressable ranks visible:
every pointer that is not read is 65536, and a refused read shows ones. -/
def wildEnv : Env where
  uid := 0
  gid := 0
  time _ := 0
  stack _ := fun _ => 1
  stackHigh _ := Block.pointers.symm fun _ => 65536
  charSigned := true

/-- The first byte behind rank 523, where no index block is mounted. -/
theorem run_fsRead_wildEnv {d : Disk} (hd : d.Walkable) {as : List Name} {i : ℕ}
    (hresolve : d.graph.resolve 4 (fileNames as) = some i)
    (hx : ∀ k, (d.inode i).indirectPointer k = 0) (behind buffer : ℕ → Byte) :
    ∃ r out, (fsRead wildEnv (pathString as behind) buffer 1 2146304).run vdisk d =
      some ((r, out), d) ∧ out 0 = 1 := by
  have hindex : (524 : ℤ).tdiv (1024 + 12) = ((0 : ℕ) : ℤ) := rfl
  have hcast : (524 : ℤ) - ((0 : ℕ) : ℤ) * 1024 - 12 = ((512 : ℕ) : ℤ) := rfl
  have hnumber : (0 : BitVec 32).toInt = ((0 : ℕ) : ℤ) := rfl
  have hwild : (((65536 : BitVec 64).setWidth 32).toInt) = 65536 := by decide
  have hblock : (dataBlockAtRank wildEnv 524 (d.inode i)).run vdisk d = some (65536, d) := by
    rw [dataBlockAtRank, if_neg (by decide)]
    simp only [hindex, hcast]
    rw [Prog.index_natCast _ (by decide), Prog.ret_bind, hx, hnumber, readPointers, Prog.bind_assoc,
      Prog.run_bind_some _ (run_readData wildEnv (by decide) d), Prog.pure_eq_ret, Prog.ret_bind,
      Prog.index_natCast _ (by decide), Prog.ret_bind, dif_neg (by decide),
      Prog.pure_eq_ret, Prog.run_ret]
    simp only [wildEnv, Equiv.apply_symm_apply, hwild]
  have hrefused : (wildEnv.read (datablockFindDiskId 65536)).run vdisk d =
      some ((fun _ => 1 : Block), d) := by
    have hid : datablockFindDiskId 65536 = 66564 := by decide
    rw [hid]
    rfl
  have hread : (readTheOneDiskAccordingToRankInInode wildEnv (2146304 / 4096 : ℕ) (d.inode i)).run
      vdisk d = some ((fun _ => 1 : Block), d) := by
    rw [readTheOneDiskAccordingToRankInInode]
    exact (Prog.run_bind_some _ hblock).trans hrefused
  exact hd.run_fsRead_byte wildEnv hresolve (by decide) hread behind buffer

/-! #### When a truncation is exact -/

section Exact

variable {d : Disk} {as : List Name} {i m : ℕ}

/-- What is stored behind the old end shows up. -/
theorem not_truncateExact_of_byteAt (hd : d.Sound) (hi : d.graph.resolve 4 (fileNames as) = some i)
    (hfile : d.IsFile i) (hm : m ≤ 2146304) {k : ℕ} (hk : (d.inode i).stSize.toNat ≤ k)
    (hkm : k < m) (hbyte : d.byteAt i k ≠ 0) (env : Env) (behind : ℕ → Byte) :
    ¬ TruncateExact env behind d as i m := by
  rintro ⟨d', hrun, -, -, hzero, -⟩
  obtain ⟨s, hs, -, hrun'⟩ := run_fsTruncate env hd hfile.lt
    (hd.directories.file i hfile.lt hfile.not_isDir) hi behind (show m ≤ 8437760 by omega)
  obtain rfl := (Prod.mk.inj (Option.some.inj (hrun'.symm.trans hrun))).2
  have hreads : ReadsAs env _ (pathString as behind) (d.inode i).stSize.toNat m _ :=
    (sound_truncated hs hfile hm).readsAs env (resolve_truncated hs hfile hi) behind hm
  have heq := (hzero (by omega)).unique hreads hk hkm
  rw [byteAt_truncated hs hfile.lt hfile.lt] at heq
  exact hbyte heq.symm

/-- The first position behind what can be addressed reads as one. -/
theorem not_truncateExact_of_long (hd : d.Sound) (hi : d.graph.resolve 4 (fileNames as) = some i)
    (hfile : d.IsFile i) (hm : m ≤ 8437760) (hlong : 2146304 < m) :
    ¬ TruncateExact wildEnv plainMemory d as i m := by
  have hsize := hd.directories.file i hfile.lt hfile.not_isDir
  rintro ⟨d', hrun, -, -, hzero, -⟩
  obtain ⟨s, hs, -, hrun'⟩ := run_fsTruncate wildEnv hd hfile.lt hsize hi plainMemory hm
  obtain rfl := (Prod.mk.inj (Option.some.inj (hrun'.symm.trans hrun))).2
  obtain ⟨r, out, hread, hout⟩ := hzero (by omega) (fun _ => 0) 1 2146304 hsize (by omega)
  have hunused (k : Fin 2) : ((s.setInode i ((d.inode i).withSize (BitVec.ofNat 64 m))).inode
      i).indirectPointer k = 0 := by
    rw [Disk.inode_setInode_self]
    exact hd.pointers.indirect i hfile.lt k
  obtain ⟨r', out', hread', hout'⟩ := run_fsRead_wildEnv (walkable_truncated hs hfile)
    (resolve_truncated hs hfile hi) hunused plainMemory fun _ => 0
  rw [hread] at hread'
  obtain ⟨-, rfl⟩ := Prod.mk.inj (Prod.mk.inj (Option.some.inj hread')).1
  have hone := (hout 0 Nat.one_pos).symm.trans hout'
  exact absurd hone (by decide)

/-- Over zeros, and within what can be addressed. -/
theorem truncateExact_of_zeros (hd : d.Sound) (hi : d.graph.resolve 4 (fileNames as) = some i)
    (hfile : d.IsFile i) (hm : m ≤ 2146304)
    (hzeros : ∀ k, (d.inode i).stSize.toNat ≤ k → k < m → d.byteAt i k = 0) (env : Env)
    (behind : ℕ → Byte) : TruncateExact env behind d as i m := by
  have hsize := hd.directories.file i hfile.lt hfile.not_isDir
  obtain ⟨s, hs, -, hrun⟩ :=
    run_fsTruncate env hd hfile.lt hsize hi behind (show m ≤ 8437760 by omega)
  have hd' := sound_truncated hs hfile hm
  have hi' := resolve_truncated (m := m) hs hfile hi
  refine ⟨_, hrun, ⟨_, hd'.walkable.run_fsGetattr env hi' behind, ?_⟩, fun c hc => ?_,
    fun _ => ?_, fun bs j behind' hj hfilej hne c hc => ?_⟩
  · rw [Disk.inode_setInode_self, passValueFromINodeToStat, INode.stSize_withSize,
      BitVec.toNat_ofNat]
    omega
  · refine (hd'.readsAs env hi' behind (by omega)).congr fun k _ hk => ?_
    rw [byteAt_truncated hs hfile.lt hfile.lt]
    exact (hd.readsAs env hi behind hsize).unique hc (Nat.zero_le k) (by omega)
  · refine (hd'.readsAs env hi' behind hm).congr fun k hk hkm => ?_
    rw [byteAt_truncated hs hfile.lt hfile.lt]
    exact hzeros k hk hkm
  · have hsizej := hd.directories.file j hfilej.lt hfilej.not_isDir
    refine (hd'.readsAs env (resolve_truncated hs hfile hj) behind' hsizej).congr fun k _ hk => ?_
    rw [byteAt_truncated hs hfile.lt hfilej.lt]
    exact (hd.readsAs env hj behind' hsizej).unique hc (Nat.zero_le k) hk

/-- **A truncation is exact** exactly when the file does not grow, or when it grows within what
`fs_read` can address and over zeros. -/
theorem truncate_exact_iff (h : SafeRun d) (hi : d.graph.resolve 4 (fileNames as) = some i)
    (hfile : d.IsFile i) (hm : m ≤ 4096 * (12 + 2 * 1024)) :
    (∀ env behind, TruncateExact env behind d as i m) ↔
      m ≤ (d.inode i).stSize.toNat ∨ m ≤ 4096 * (12 + 512) ∧
        ∀ k, (d.inode i).stSize.toNat ≤ k → k < m → d.byteAt i k = 0 := by
  have hd := h.sound
  have hsize := hd.directories.file i hfile.lt hfile.not_isDir
  constructor
  · intro hall
    by_contra hcond
    obtain ⟨hgrow, hcond⟩ := not_or.mp hcond
    by_cases hlong : m ≤ 4096 * (12 + 512)
    · refine hcond ⟨hlong, fun k hk hkm => ?_⟩
      by_contra hbyte
      exact not_truncateExact_of_byteAt hd hi hfile hlong hk hkm hbyte plainEnv plainMemory
        (hall plainEnv plainMemory)
    · exact not_truncateExact_of_long hd hi hfile hm (Nat.lt_of_not_le hlong)
        (hall wildEnv plainMemory)
  · rintro (hle | ⟨hle, hzeros⟩)
    · exact truncateExact_of_zeros hd hi hfile (hle.trans hsize) fun k hk hkm => by omega
    · exact truncateExact_of_zeros hd hi hfile hle hzeros

end Exact

/-! #### Three bytes cut to one -/

/-- A file of one byte with an older byte behind it. -/
theorem exists_safeRun_cut : ∃ d i, SafeRun d ∧
    d.graph.resolve 4 (fileNames [nthName 0]) = some i ∧ d.IsFile i ∧
    (d.inode i).stSize.toNat = 1 ∧ d.byteAt i 1 = 7 := by
  obtain ⟨d, i, hrun, hi, hfile, hsize, hbyte, -⟩ := exists_safeRun_three
  obtain ⟨s, hs, -, htruncate⟩ := run_fsTruncate plainEnv hrun.sound hfile.lt
    (by rw [hsize]; decide) hi plainMemory (show 1 ≤ 8437760 by decide)
  refine ⟨_, i, hrun.extend (.truncate [nthName 0] plainMemory 1) ⟨_, hi, hfile, by decide⟩
    htruncate, ?_, ?_, ?_, ?_⟩
  · exact resolve_truncated hs hfile hi
  · have hinode := Disk.inode_setInode_self (d := s) i
      ((d.inode i).withSize (BitVec.ofNat 64 1))
    refine ⟨hfile.lt, ?_, fun hdir => hfile.not_isDir ⟨hdir.1, ?_⟩⟩
    · rw [Disk.imap_setInode]
      exact hs.marks.imap _ hfile.lt hfile.marked
    · have hmode := hdir.2
      rwa [hinode] at hmode
  · rw [Disk.inode_setInode_self, INode.stSize_withSize]
    rfl
  · rw [byteAt_truncated hs hfile.lt hfile.lt, hbyte]

/-- A file of three bytes 7 is cut to two as it should be. -/
theorem truncate_exact_to_two : ∃ d i, SafeRun d ∧ d.IsFile i ∧ (d.inode i).stSize.toNat = 3 ∧
    d.byteAt i 1 = 7 ∧ ∀ env behind, TruncateExact env behind d [nthName 0] i 2 := by
  obtain ⟨d, i, hrun, hi, hfile, hsize, hbyte, -⟩ := exists_safeRun_three
  exact ⟨d, i, hrun, hfile, hsize, hbyte, (truncate_exact_iff hrun hi hfile (by decide)).mpr
    (.inl (by rw [hsize]; decide))⟩

/-- Grown to two bytes again it shows the older byte. -/
theorem not_truncate_exact_older_byte : ∃ d i, SafeRun d ∧ d.IsFile i ∧
    ¬ TruncateExact plainEnv plainMemory d [nthName 0] i 2 := by
  obtain ⟨d, i, hrun, hi, hfile, hsize, hbyte⟩ := exists_safeRun_cut
  refine ⟨d, i, hrun, hfile, not_truncateExact_of_byteAt hrun.sound hi hfile (by decide) (k := 1)
    (by omega) (by decide) ?_ plainEnv plainMemory⟩
  rw [hbyte]
  decide

end InodeFs
