import InodeFs.Code.Statfs
import InodeFs.Properties.Allocation

/-!
# What `fs_statfs` counts

`get_free_block_size` counts nothing at all, and `get_file_number` eight for every byte of the
inode map whose last bit is set. So no map content makes the five numbers right, and a creation
lowers `f_ffree` by eight or not at all.

Both functions compare with zero within a `&`, and the comparison binds more tightly: a byte is
combined with the result of the comparison of a mask with zero, which no mask is. So for
`get_free_block_size` the test fails on every byte (`and_comparison_eq_zero`), and for
`get_file_number` it reads the last bit of the byte in each of the eight rounds
(`and_comparison_ne_zero`).

What the numbers should be is `Statvfs.CountsMaps`, with the clear bits counted by `clearBelow`.
That they are never right follows without looking at a map: the number of files and that of free
inodes, as they are reported, add up to 4096, and the map has 32768 bits.

The second half is about what is seen of a creation in these numbers. Since the bits that are read
are the last ones of the bytes, a creation is counted eight times if its inode is one of those with
a number `8 * n + 7`, and else not at all (`fFfree_created`).
-/

namespace InodeFs

variable (env : Env)

/-! ### The counting loops -/

/-- A body that adds `f i k` in its round. -/
theorem countLoop_eq {body : Fin 4096 → Fin 8 → ℕ → ℕ} {f : Fin 4096 → Fin 8 → ℕ}
    (h : ∀ i k number, body i k number = number + f i k) :
    countLoop body = ∑ i, ∑ k, f i k := by
  have hfold {n : ℕ} (g : Fin n → ℕ) (number : ℕ) :
      (List.finRange n).foldl (fun number i => number + g i) number = number + ∑ i, g i := by
    have hassoc : List.foldl (· + ·) (number + 0) ((List.finRange n).map g) =
        number + List.foldl (· + ·) 0 ((List.finRange n).map g) := List.foldl_assoc
    rw [Fin.sum_univ_def, List.sum_eq_foldl_nat, ← hassoc, Nat.add_zero, List.foldl_map]
  simp only [countLoop, h, hfold, Nat.zero_add]

theorem promote_bitMapMask_ne_zero (k : Fin 8) : env.promote (bitMapMask k) ≠ 0 := by
  intro h
  have hself : env.promote (bitMapMask k) &&& env.promote (bitMapMask k) = 0 := by
    rw [h]
    rfl
  rw [promote_and_promote_eq_zero, and_bitMapMask_eq_zero _ k.isLt,
    Block.getLsbD_bitMapMask k.isLt k.isLt] at hself
  simp at hself

/-- The test of `get_free_block_size` fails on every byte. -/
theorem and_comparison_eq_zero (c : Byte) (k : Fin 8) :
    env.promote c &&& comparison (env.promote (bitMapMask k) = 0) = 0 := by
  rw [comparison, if_neg (promote_bitMapMask_ne_zero env k)]
  exact BitVec.and_zero

/-- The test of `get_file_number` reads the last bit of the byte, whatever the mask is. -/
theorem and_comparison_ne_zero (c : Byte) (k : Fin 8) :
    env.promote c &&& comparison (env.promote (bitMapMask k) ≠ 0) ≠ 0 ↔ c.getLsbD 0 = true := by
  have hone : env.promote c &&& 1 = 0 ↔ c &&& 1 = 0 := by
    have h := promote_and_promote_eq_zero env c 1
    have hpromote : env.promote 1 = 1 := by
      unfold Env.promote
      split <;> rfl
    rwa [hpromote] at h
  have hmask : (1 : Byte) = bitMapMask ⟨7, by decide⟩ := rfl
  have hlast : c &&& 1 = 0 ↔ c.getLsbD 0 = false := by
    rw [hmask]
    exact and_bitMapMask_eq_zero c (by decide)
  rw [comparison, if_pos (promote_bitMapMask_ne_zero env k), ne_eq, hone, hlast, Bool.not_eq_false]

namespace Disk

/-- What `get_file_number` returns: eight for every byte of the inode map with a set last bit. -/
def fileNumber (d : Disk) : ℕ := 8 * (4096 - clearBelow (fun j => d.imap (8 * j + 7)) 4096)

/-- What `fs_statfs` fills in. -/
def statvfs (d : Disk) : Statvfs :=
  ⟨4096, 256 * 256, 0, 0, BitVec.ofInt 64 d.fileNumber, BitVec.ofInt 64 (4096 - d.fileNumber),
    BitVec.ofInt 64 (4096 - d.fileNumber), 24⟩

end Disk

/-- Set bits and clear bits of a map. -/
theorem sum_set_add_clearBelow (f : ℕ → Bool) (n : ℕ) :
    (∑ i : Fin n, if f i.val = true then 1 else 0) + clearBelow f n = n := by
  have hsplit := Finset.card_filter_add_card_filter_not (s := Finset.range n) fun b => f b = true
  simp only [Bool.not_eq_true, Finset.card_range] at hsplit
  rw [Fin.sum_univ_eq_sum_range (fun i => if f i = true then 1 else 0) n, ← Finset.card_filter]
  exact hsplit

theorem run_getFreeBlockSize (d : Disk) :
    (getFreeBlockSize env).run vdisk d = some (0, d) := by
  have hread2 := run_envRead env (show 2 < 65536 by decide) d
  have hread3 := run_envRead env (show 3 < 65536 by decide) d
  rw [getFreeBlockSize, Prog.run_bind, show (2 : ℤ) = ((2 : ℕ) : ℤ) from rfl, hread2,
    Option.bind_some, Prog.run_bind, show (3 : ℤ) = ((3 : ℕ) : ℤ) from rfl, hread3,
    Option.bind_some, Prog.pure_eq_ret, Prog.run_ret, countLoop_eq (f := fun _ _ => 0)]
  · simp
  · intro i k number
    simp only [and_comparison_eq_zero, ne_eq, not_true_eq_false, if_false, Nat.add_zero]

theorem run_getFileNumber (d : Disk) :
    (getFileNumber env).run vdisk d = some ((d.fileNumber : ℤ), d) := by
  have hread := run_envRead env (show 1 < 65536 by decide) d
  have hbit (i : Fin 4096) : (d 1 i).getLsbD 0 = d.imap (8 * i.val + 7) := by
    have hi : (8 * i.val + 7) / 8 = i.val := by omega
    have hmod : (8 * i.val + 7) % 8 = 7 := by omega
    rw [Disk.imap, Block.bit, Block.get, hi, dif_pos i.isLt, hmod]
  have hsum : countLoop (fun i k number =>
      if env.promote (d 1 i) &&& comparison (env.promote (bitMapMask k) ≠ 0) ≠ 0 then number + 1
      else number) = d.fileNumber := by
    rw [countLoop_eq (f := fun i _ => if d.imap (8 * i.val + 7) = true then 1 else 0)]
    · have hset := sum_set_add_clearBelow (fun j => d.imap (8 * j + 7)) 4096
      simp only [Finset.sum_const, Finset.card_univ, Fintype.card_fin, smul_eq_mul,
        ← Finset.mul_sum]
      rw [Disk.fileNumber]
      omega
    · intro i k number
      simp only [and_comparison_ne_zero, hbit]
      split <;> rfl
  rw [getFileNumber, Prog.run_bind, show (1 : ℤ) = ((1 : ℕ) : ℤ) from rfl, hread,
    Option.bind_some, Prog.pure_eq_ret, Prog.run_ret]
  exact congrArg (fun n : ℕ => some ((n : ℤ), d)) hsum

theorem run_fsStatfs (d : Disk) : (fsStatfs env).run vdisk d = some ((0, d.statvfs), d) := by
  simp only [fsStatfs, Prog.run_bind, run_getFreeBlockSize, run_getFileNumber, Option.bind_some]
  rfl

/-! ### The numbers and the maps -/

/-- The numbers are those of the maps: clear bits of blocks 2 and 3, set and clear bits of
block 1. -/
structure Statvfs.CountsMaps (stat : Statvfs) (d : Disk) : Prop where
  bfree : stat.fBfree.toNat = clearBelow d.dmap 65536
  bavail : stat.fBavail.toNat = clearBelow d.dmap 65536
  files : stat.fFiles.toNat = 32768 - clearBelow d.imap 32768
  ffree : stat.fFfree.toNat = clearBelow d.imap 32768
  favail : stat.fFavail.toNat = clearBelow d.imap 32768

namespace Disk

theorem fileNumber_le (d : Disk) : d.fileNumber ≤ 32768 := by
  rw [fileNumber]
  omega

theorem fFiles_statvfs (d : Disk) : d.statvfs.fFiles.toNat = d.fileNumber := by
  have hle := d.fileNumber_le
  change (BitVec.ofInt 64 (d.fileNumber : ℤ)).toNat = d.fileNumber
  rw [BitVec.ofInt_natCast, BitVec.toNat_ofNat]
  exact Nat.mod_eq_of_lt (by omega)

theorem fFfree_statvfs (d : Disk) : d.statvfs.fFfree.toInt = 4096 - d.fileNumber := by
  have hle := d.fileNumber_le
  change (BitVec.ofInt 64 (4096 - (d.fileNumber : ℤ))).toInt = _
  rw [BitVec.toInt_ofInt]
  exact Int.bmod_eq_of_le (by omega) (by omega)

/-- `f_files` and `f_ffree` add up to 4096, the bits of the inode map to 32768. -/
theorem not_countsMaps_statvfs (d : Disk) : ¬ d.statvfs.CountsMaps d := by
  intro h
  have hle : clearBelow d.imap 32768 ≤ 32768 := by
    have hsum := sum_set_add_clearBelow d.imap 32768
    omega
  have hfiles := d.fFiles_statvfs.symm.trans h.files
  have hffree := d.fFfree_statvfs
  rw [BitVec.toInt_eq_toNat_of_lt (by rw [h.ffree]; omega), h.ffree] at hffree
  omega

/-- Setting the bit of inode `k` counts when it is the last one of its byte. -/
theorem fileNumber_set {d d' : Disk} {k : ℕ} (hk : k < 32768) (hfree : d.imap k = false)
    (h : ∀ j < 32768, d'.imap j = (d.imap j || decide (j = k))) :
    d'.fileNumber = d.fileNumber + if k % 8 = 7 then 8 else 0 := by
  by_cases hlast : k % 8 = 7
  · have hk8 : 8 * (k / 8) + 7 = k := by omega
    have hset := clearBelow_set (f := fun j => d.imap (8 * j + 7))
      (g := fun j => d'.imap (8 * j + 7))
      (show k / 8 < 4096 by omega) (by rw [hk8]; exact hfree) fun j hj => by
        have hiff : 8 * j + 7 = k ↔ j = k / 8 := by omega
        simp only [h _ (show 8 * j + 7 < 32768 by omega), hiff]
    have hle := sum_set_add_clearBelow (fun j => d.imap (8 * j + 7)) 4096
    rw [fileNumber, fileNumber, if_pos hlast]
    omega
  · have hsame := clearBelow_congr (f := fun j => d.imap (8 * j + 7))
      (g := fun j => d'.imap (8 * j + 7)) (n := 4096) fun j hj => by
        simp only [h _ (show 8 * j + 7 < 32768 by omega),
          decide_eq_false (show 8 * j + 7 ≠ k by omega), Bool.or_false]
    rw [fileNumber, fileNumber, if_neg hlast, hsame, Nat.add_zero]

/-- **A creation lowers `f_ffree` by eight or not at all**. -/
theorem fFfree_created (d : Disk) (mode : BitVec 32) (p : ℕ) (a : Name) (h : d.HasInode) :
    (d.created env mode p a d.nextInode).statvfs.fFfree +
      BitVec.ofInt 64 (if d.nextInode % 8 = 7 then 8 else 0) = d.statvfs.fFfree := by
  have hfree (s : Disk) : s.statvfs.fFfree = BitVec.ofInt 64 (4096 - s.fileNumber) := rfl
  rw [hfree, hfree, ← BitVec.ofInt_add,
    fileNumber_set d.nextInode_lt h.imap_nextInode (imap_created env mode)]
  refine congrArg (BitVec.ofInt 64) ?_
  split <;> omega

end Disk

/-- **The statistics are never right**: whatever the maps hold, one of the five numbers is not
the one of the maps, and no creation on a sound disk lowers `f_ffree` by one. -/
theorem statfs_never_counts (env : Env) (d : Disk) :
    ∃ stat, (fsStatfs env).run vdisk d = some ((0, stat), d) ∧ ¬ stat.CountsMaps d ∧
      ∀ (kind : Kind) (as : List Name) (a : Name) (p : ℕ) (behind : ℕ → Byte), d.Sound →
        d.graph.resolve 4 (as.map Name.fileName) = some p → d.CanCreate p a →
        ∃ d' stat', (kind.call env (pathString (as ++ [a]) behind)).run vdisk d = some (0, d') ∧
          (fsStatfs env).run vdisk d' = some ((0, stat'), d') ∧
          stat'.fFfree + 1 ≠ stat.fFfree := by
  refine ⟨d.statvfs, run_fsStatfs env d, d.not_countsMaps_statvfs, ?_⟩
  intro kind as a p behind hd hresolve hcreate
  have hrun := run_fsCreate env kind.mode hd hresolve hcreate behind
  have hffree := d.fFfree_created env kind.mode p a hcreate.inode
  refine ⟨_, _, by rw [Kind.call_eq]; exact hrun, run_fsStatfs env _, ?_⟩
  rw [← hffree]
  intro hone
  have hne : (1 : BitVec 64) ≠ BitVec.ofInt 64 (if d.nextInode % 8 = 7 then 8 else 0) := by
    split <;> decide
  exact hne ((BitVec.add_right_inj _).mp hone)

/-- The statistics of the formatted disk, after its first creation. -/
theorem statfs_never_counts_initial : ∃ stat d' stat',
    (fsStatfs plainEnv).run vdisk (Disk.initial plainEnv fun _ => 0) =
      some ((0, stat), Disk.initial plainEnv fun _ => 0) ∧
    ¬ stat.CountsMaps (Disk.initial plainEnv fun _ => 0) ∧
    (Kind.file.call plainEnv (pathString [letter 97] plainMemory)).run vdisk
      (Disk.initial plainEnv fun _ => 0) = some (0, d') ∧
    (fsStatfs plainEnv).run vdisk d' = some ((0, stat'), d') ∧ stat'.fFfree + 1 ≠ stat.fFfree := by
  obtain ⟨stat, hrun, hnot, hcreate⟩ :=
    statfs_never_counts plainEnv (Disk.initial plainEnv fun _ => 0)
  obtain ⟨d', stat', hrun', hstat', hne⟩ := hcreate .file [] (letter 97) 4 plainMemory
    (Disk.sound_initial _ _) rfl (Disk.canCreate_initial _ _ _)
  exact ⟨stat, d', stat', hrun, hnot, hrun', hstat', hne⟩

/-- On the formatted disk every block is reported as used, and 4096 inodes as free where 32767
are. -/
theorem not_statfs_counts_initial : ∃ stat,
    (fsStatfs plainEnv).run vdisk (Disk.initial plainEnv fun _ => 0) =
      some ((0, stat), Disk.initial plainEnv fun _ => 0) ∧
    stat.fBfree = 0 ∧ 0 < clearBelow (Disk.initial plainEnv fun _ => 0).dmap 65536 ∧
    stat.fFiles = 0 ∧ stat.fFfree = 4096 ∧
    clearBelow (Disk.initial plainEnv fun _ => 0).imap 32768 = 32767 ∧
    ¬ stat.CountsMaps (Disk.initial plainEnv fun _ => 0) := by
  have hnumber : (Disk.initial plainEnv fun _ => 0).fileNumber = 0 := by
    have hclear : clearBelow (fun j => (Disk.initial plainEnv fun _ => 0).imap (8 * j + 7)) 4096 =
        4096 := by
      refine (clearBelow_congr fun j hj => ?_).trans (clearBelow_false 4096)
      rw [Disk.imap_initial _ _ (by omega)]
      exact decide_eq_false (by omega)
    rw [Disk.fileNumber, hclear]
  refine ⟨_, run_fsStatfs _ _, rfl, ?_, ?_, ?_, Disk.freeInodes_initial _ _,
    Disk.not_countsMaps_statvfs _⟩
  · exact clearBelow_pos_iff.mpr
      ⟨4, by decide, Disk.dmap_initial_free _ _ le_rfl (.inl (by decide))⟩
  · change BitVec.ofInt 64 ((Disk.initial plainEnv fun _ => 0).fileNumber : ℤ) = 0
    rw [hnumber]
    rfl
  · change BitVec.ofInt 64 (4096 - ((Disk.initial plainEnv fun _ => 0).fileNumber : ℤ)) = 4096
    rw [hnumber]
    rfl

end InodeFs
