import InodeFs.Ops.Bounds
import InodeFs.Properties.Runs

/-!
# Large offsets

No operation compares an offset or a size with what an inode can address, and none returns
`-EFBIG`. So each of them stays inside its arrays exactly if the ranks it goes through are below
2060: for `fs_read` and `fs_write` a matter of the offset and the size alone, for `fs_truncate` also
of the numbers it finds, since it passes them to the data map as they are.

`Inside` says of a program that it does not leave an array. The three operations are taken from the
point at which they have read the record, so that the statement is about every record and every
disk. For the first two the ranks are computed from the offset and the size; the loop of `fs_read`
begins at the first of them, and `fs_write` goes on by one rank for each block.

The loop of `fs_truncate` releases what it finds, and the data map changes under it. Nevertheless
its condition is one on the disk before the call (`TruncateFits`): a release sets bits of blocks 2
and 3 only, which are no index blocks of a record whose numbers come from the data map
(`INode.IndexApart`); and a number that is no number of the map is not made one by setting bits
(`numbersFit_of_inside_deleteLoop`), so that even without this the condition is necessary.
-/

namespace InodeFs

variable (env : Env)

/-! ### Truncation -/

/-- A byte and a mask for exactly the numbers of a map block. -/
theorem map_position_iff {n : ℤ} :
    ((0 ≤ n.tmod 8 ∧ n.tmod 8 < (8 : ℕ)) ∧ 0 ≤ n.tdiv 8 ∧ n.tdiv 8 < (4096 : ℕ)) ↔
      0 ≤ n ∧ n < 32768 := by
  have hsum := Int.mul_tdiv_add_tmod n 8
  constructor
  · rintro ⟨hmask, hbyte⟩
    omega
  · rintro ⟨h0, hlt⟩
    obtain ⟨k, rfl⟩ := Int.eq_ofNat_of_zero_le h0
    rw [natCast_tdiv_ofNat, natCast_tmod_ofNat]
    omega

theorem inside_orIntoMap_iff {table : Fin 8 → Byte} {n : ℤ} {buffer : Block} {f : Block → Fs Unit}
    {d : Disk} (h : ∀ b, Inside (f b) d) :
    Inside (orIntoMap env table n buffer >>= f) d ↔ 0 ≤ n ∧ n < 32768 := by
  rw [← map_position_iff, orIntoMap]
  simp only [Prog.bind_assoc]
  refine inside_index_iff fun mask => ?_
  refine (inside_index_iff fun c => ?_).trans (and_self _).to_iff
  exact (inside_assign_iff fun b => iff_true_intro (h b)).trans (and_true _).to_iff

/-- The data map is changed inside its two blocks for its own numbers only. -/
theorem inside_makeDataMapUncovered_iff {n : ℤ} {d : Disk} :
    Inside (makeDataMapUncovered env n) d ↔ 0 ≤ n ∧ n < 65536 := by
  have hmap : Inside (makeDataMapUncovered env n) d ↔
      0 ≤ (dataMapPosition n).2 ∧ (dataMapPosition n).2 < 32768 := by
    rw [makeDataMapUncovered]
    obtain ⟨buffer, hbuffer⟩ := exists_run_envRead env (dataMapPosition n).1 d
    rw [inside_bind_of_run hbuffer]
    exact inside_orIntoMap_iff env fun b => ⟨_, _, rfl⟩
  rw [hmap, dataMapPosition]
  split <;> omega

/-- What `fs_truncate` does between reading the inode and setting its size. -/
def truncateBlocks (size : ℤ) (x : INode) : Fs INode :=
  let preBlockSize := (cInt x.stSize.toInt).tdiv 4096 + 1
  let nowBlockSize := (cInt size).tdiv 4096 + 1
  let rounds := (preBlockSize - nowBlockSize).toNat
  if preBlockSize = nowBlockSize then pure x
  else if nowBlockSize > preBlockSize then
    rankLoop (addNewEmptyBlockAccordingToRank env) rounds (nowBlockSize + 1) x
  else rankLoop (deleteNRankBlock env) rounds (nowBlockSize + 1) x

theorem fsTruncate_eq (path : CString) (size : ℤ) : fsTruncate env path size = (do
    let inodeNumber ← understandThePath env path.chars
    let (index, diskId) := inodeFindDiskIdAndIndexInDisk inodeNumber
    let bufferInode ← readINodes env diskId
    let x ← Prog.index bufferInode index
    let x ← truncateBlocks env size x
    let bufferInode ← Prog.assign bufferInode index { x with stSize := BitVec.ofInt 64 size }
    writeINodes diskId bufferInode
    pure 0) := by
  rw [fsTruncate]
  simp only [truncateBlocks]
  refine congrArg _ (funext fun inodeNumber => ?_)
  refine congrArg _ (funext fun bufferInode => ?_)
  refine congrArg _ (funext fun x => ?_)
  split
  · rfl
  · split <;> rfl

/-! ### The numbers at the dropped ranks -/

theorem indexSide_lt (r : ℕ) : r / 1036 % 2 < 2 := Nat.mod_lt _ (by decide)

/-- The number a record has at a rank below 2060: its direct pointer, or the element of the index
block as the block is on the disk. -/
def Disk.numberAt (d : Disk) (x : INode) (r : ℕ) : ℤ :=
  if h : r < 12 then (x.directPointer ⟨r, h⟩).toInt
  else
    let id := datablockFindDiskId (x.indirectPointer ⟨r / 1036 % 2, indexSide_lt r⟩).toInt
    ((((vdisk.load d id).getD (env.stack id)).ints ⟨indexBias r, indexBias_lt r⟩)).toInt

/-- The index blocks of a record are none of the two blocks of the data map. Every number that is
mounted comes from that map and is no negative one. -/
def INode.IndexApart (x : INode) : Prop :=
  ∀ k, datablockFindDiskId (x.indirectPointer k).toInt ≠ 2 ∧
    datablockFindDiskId (x.indirectPointer k).toInt ≠ 3

variable {env} {x : INode} {r : ℕ} {d : Disk}

/-- The releasing function finds that number, on every disk. -/
theorem run_releasedAtRank_numberAt (hr : r < 2060) (x : INode) (d : Disk) :
    (releasedAtRank env r x).run vdisk d = some (d.numberAt env x r, d) := by
  rw [releasedAtRank, Disk.numberAt]
  by_cases h12 : r < 12
  · rw [if_pos (by omega), dif_pos h12, INode.index_directPointer h12]
    rfl
  · have hsub : (r : ℤ) - 12 - 1024 * ((r / 1036 % 2 : ℕ) : ℤ) = (indexBias r : ℤ) := by
      rw [← sub_rank (Nat.le_of_not_lt h12) hr]
      ring
    rw [if_neg (by omega), dif_neg h12]
    simp only [add_comm (12 : ℤ) 1024, tdiv_rank hr, hsub]
    rw [Prog.index_natCast _ (Nat.mod_lt _ (by decide)), Prog.ret_bind]
    have hread (id : ℤ) : (readInts env id).run vdisk d =
        some (((vdisk.load d id).getD (env.stack id)).ints, d) := rfl
    rw [Prog.run_bind_some _ (hread _), Prog.index_natCast _ (indexBias_lt r), Prog.ret_bind]
    rfl

/-- A release changes the two blocks of the data map only. -/
theorem load_uncoverData {id : ℤ} (h2 : id ≠ 2) (h3 : id ≠ 3) (d : Disk) (n : ℕ) :
    vdisk.load (d.uncoverData n) id = vdisk.load d id := by
  unfold vdisk Disk.uncoverData Disk.orDataMap
  dsimp only
  split
  · split
    · rw [Function.update_of_ne (by omega)]
    · rw [Function.update_of_ne (by omega)]
  · rfl

theorem INode.IndexApart.numberAt_uncoverData (hx : x.IndexApart) (d : Disk) (n r : ℕ) :
    (d.uncoverData n).numberAt env x r = d.numberAt env x r := by
  unfold Disk.numberAt
  split
  · rfl
  · obtain ⟨h2, h3⟩ := hx ⟨r / 1036 % 2, indexSide_lt r⟩
    simp only [load_uncoverData h2 h3]

/-- A release sets bits. -/
theorem le_orMask (table : Fin 8 → Byte) (b : Block) (n : ℕ) (i : Fin 4096) (j : ℕ)
    (h : (b i).getLsbD j = true) : (b.orMask table n i).getLsbD j = true := by
  unfold Block.orMask
  by_cases hi : i = ⟨n / 8 % 4096, by omega⟩
  · subst hi
    rw [Function.update_self, BitVec.getLsbD_or, h, Bool.true_or]
  · rwa [Function.update_of_ne hi]

/-- Bit `j` of an element of a block read as `int`s is a bit of one of its four bytes. -/
theorem getLsbD_ints (b : Block) (t : Fin 1024) {j : ℕ} (hj : j < 32) :
    (b.ints t).getLsbD j = (b ⟨t.val * 4 + j / 8, by omega⟩).getLsbD (j % 8) := by
  refine (Layout.getLsbD_ofBytes _ hj).trans (congrArg (BitVec.getLsbD · (j % 8)) ?_)
  refine congrArg b (Fin.ext ?_)
  simp only [finProdFinEquiv_apply_val]
  omega

/-- A word with the bits of a smaller one at most is small, too. -/
theorem toNat_lt_of_getLsbD_le {w k : ℕ} {x y : BitVec w}
    (h : ∀ j < w, x.getLsbD j = true → y.getLsbD j = true) (hy : y.toNat < 2 ^ k) :
    x.toNat < 2 ^ k := by
  refine Nat.lt_pow_two_of_testBit _ fun j hj => ?_
  by_contra hbit
  rw [Bool.not_eq_false] at hbit
  by_cases hw : j < w
  · have hset := h j hw hbit
    have hpow : y.toNat < 2 ^ j := hy.trans_le (Nat.pow_le_pow_right (by decide) hj)
    rw [← BitVec.testBit_toNat, Nat.testBit_lt_two_pow hpow] at hset
    cases hset
  · have hpow : x.toNat < 2 ^ j := x.isLt.trans_le (Nat.pow_le_pow_right (by decide) (by omega))
    rw [Nat.testBit_lt_two_pow hpow] at hbit
    cases hbit

/-- A number below `2 ^ 16` has been one before bits were set. -/
theorem toInt_ints_of_le {b c : Block} (h : ∀ i j, (b i).getLsbD j = true → (c i).getLsbD j = true)
    (t : Fin 1024) (hc : 0 ≤ (c.ints t).toInt ∧ (c.ints t).toInt < 65536) :
    0 ≤ (b.ints t).toInt ∧ (b.ints t).toInt < 65536 := by
  have hlt : (c.ints t).toNat < 2 ^ 16 := by
    have hbound := (c.ints t).isLt
    have hvalue := BitVec.toInt_eq_toNat_cond (c.ints t)
    split at hvalue <;> omega
  have hsmall : (b.ints t).toNat < 2 ^ 16 := by
    refine toNat_lt_of_getLsbD_le (fun j hj hbit => ?_) hlt
    rw [getLsbD_ints _ _ hj] at hbit ⊢
    exact h _ _ hbit
  rw [toInt_eq_natCast (by omega)]
  omega

/-- A number of the data map at some rank has been one before a release. -/
theorem numberAt_of_uncoverData (n : ℕ) (h : 0 ≤ (d.uncoverData n).numberAt env x r ∧
    (d.uncoverData n).numberAt env x r < 65536) :
    0 ≤ d.numberAt env x r ∧ d.numberAt env x r < 65536 := by
  have hle (m : ℕ) (i : Fin 4096) (j : ℕ) (hbit : (d m i).getLsbD j = true) :
      (d.uncoverData n m i).getLsbD j = true := by
    unfold Disk.uncoverData Disk.orDataMap
    split <;> rw [Function.update_apply] <;> split
    · next heq => exact le_orMask _ _ _ i j (heq ▸ hbit)
    · exact hbit
    · next heq => exact le_orMask _ _ _ i j (heq ▸ hbit)
    · exact hbit
  unfold Disk.numberAt at h ⊢
  split at h
  · next h12 => rwa [dif_pos h12]
  · next h12 =>
    rw [dif_neg h12]
    refine toInt_ints_of_le (fun i j hbit => ?_) _ h
    unfold vdisk at hbit ⊢
    dsimp only at hbit ⊢
    split
    · next hid =>
      rw [if_pos hid] at hbit
      exact hle _ i j hbit
    · next hid => rwa [if_neg hid] at hbit

/-- The numbers stored at `rounds` ranks from `r` on are numbers of the data map. -/
def NumbersFit (env : Env) (d : Disk) (x : INode) (rounds : ℕ) (r : ℤ) : Prop :=
  ∀ k < rounds, RankFits (r + k) ∧
    0 ≤ d.numberAt env x (r + k).toNat ∧ d.numberAt env x (r + k).toNat < 65536

variable (env)

theorem numbersFit_succ {rounds : ℕ} {r : ℤ} : NumbersFit env d x (rounds + 1) r ↔
    (RankFits r ∧ 0 ≤ d.numberAt env x r.toNat ∧ d.numberAt env x r.toNat < 65536) ∧
      NumbersFit env d x rounds (r + 1) := by
  have hsum (k : ℕ) : r + ((k + 1 : ℕ) : ℤ) = r + 1 + k := by omega
  constructor
  · intro h
    refine ⟨?_, fun k hk => ?_⟩
    · have h0 := h 0 (Nat.succ_pos rounds)
      rwa [Nat.cast_zero, add_zero] at h0
    · rw [← hsum]
      exact h (k + 1) (by omega)
  · rintro ⟨h0, h⟩ k hk
    cases k with
    | zero => rwa [Nat.cast_zero, add_zero]
    | succ k =>
      rw [hsum]
      exact h k (by omega)

/-- A round of the shrinking loop stays inside for the numbers of the data map. -/
theorem inside_deleteLoop_succ {rounds : ℕ} {r : ℤ} :
    Inside (rankLoop (deleteNRankBlock env) (rounds + 1) r x) d ↔
      (RankFits r ∧ 0 ≤ d.numberAt env x r.toNat ∧ d.numberAt env x r.toNat < 65536) ∧
        Inside (rankLoop (deleteNRankBlock env) rounds (r + 1) x)
          (d.uncoverData (d.numberAt env x r.toNat).toNat) := by
  rw [rankLoop, deleteNRankBlock_eq, Prog.bind_assoc]
  by_cases hr : RankFits r
  · obtain ⟨k, rfl⟩ := Int.eq_ofNat_of_zero_le hr.1
    have hlt := hr.2
    rw [inside_bind_of_run (run_releasedAtRank_numberAt (by omega) x d), Prog.bind_assoc,
      Int.toNat_natCast]
    by_cases hnumber : 0 ≤ d.numberAt env x k ∧ d.numberAt env x k < 65536
    · obtain ⟨n, hn⟩ := Int.eq_ofNat_of_zero_le hnumber.1
      rw [hn] at hnumber ⊢
      rw [inside_bind_of_run (run_makeDataMapUncovered env (by omega) d), Int.toNat_natCast]
      exact (and_iff_right ⟨hr, hnumber⟩).symm
    · refine iff_of_false (fun h => hnumber ?_) fun h => hnumber h.1.2
      obtain ⟨_, t, hrun, -⟩ := inside_bind_iff.mp h
      exact (inside_makeDataMapUncovered_iff env).mp ⟨_, t, hrun⟩
  · refine iff_of_false (fun h => hr ?_) fun h => hr h.1.1
    obtain ⟨n, t, hrun, -⟩ := inside_bind_iff.mp h
    exact (inside_releasedAtRank_iff env).mp ⟨n, t, hrun⟩

/-- The shrinking loop stays inside only if every number that is stored at its ranks, before it
starts, is one of the data map. -/
theorem numbersFit_of_inside_deleteLoop {rounds : ℕ} {r : ℤ}
    (h : Inside (rankLoop (deleteNRankBlock env) rounds r x) d) :
    NumbersFit env d x rounds r := by
  induction rounds generalizing r d with
  | zero => exact fun k hk => absurd hk (Nat.not_lt_zero k)
  | succ rounds ih =>
    obtain ⟨hfirst, hrest⟩ := (inside_deleteLoop_succ env).mp h
    refine (numbersFit_succ env).mpr ⟨hfirst, fun k hk => ?_⟩
    obtain ⟨hrank, hnumber⟩ := ih hrest k hk
    exact ⟨hrank, numberAt_of_uncoverData _ hnumber⟩

/-- It does so for all of them, as no release changes an index block. -/
theorem inside_deleteLoop_iff (hx : x.IndexApart) {rounds : ℕ} {r : ℤ} :
    Inside (rankLoop (deleteNRankBlock env) rounds r x) d ↔ NumbersFit env d x rounds r := by
  refine ⟨numbersFit_of_inside_deleteLoop env, fun h => ?_⟩
  induction rounds generalizing r d with
  | zero => exact inside_pure x d
  | succ rounds ih =>
    obtain ⟨hfirst, hrest⟩ := (numbersFit_succ env).mp h
    refine (inside_deleteLoop_succ env).mpr ⟨hfirst, ih fun k hk => ?_⟩
    rw [hx.numberAt_uncoverData]
    exact hrest k hk

/-- A look-up of a number leaves the disk alone. -/
theorem readOnly_releasedAtRank (r : ℤ) (x : INode) : (releasedAtRank env r x).ReadOnly := by
  rw [releasedAtRank]
  split
  · exact (Prog.readOnly_index _ _).bind fun _ => Prog.readOnly_pure _
  · refine (Prog.readOnly_index _ _).bind fun pointer => ?_
    refine Prog.ReadOnly.bind ?_ fun numbers =>
      (Prog.readOnly_index _ _).bind fun _ => Prog.readOnly_pure _
    exact Prog.readOnly_read.mpr fun _ => Prog.readOnly_pure _

/-- The truncations that stay inside: no rank is dropped, or the first and the last of them fit and
the numbers that are stored at them, before the call, are numbers of the data map. -/
structure TruncateFits (d : Disk) (x : INode) (size : ℤ) : Prop where
  ranks : (cInt x.stSize.toInt).tdiv 4096 ≤ (cInt size).tdiv 4096 ∨
    RankFits ((cInt size).tdiv 4096 + 2) ∧ RankFits ((cInt x.stSize.toInt).tdiv 4096 + 1)
  numbers : ∀ r : ℕ, (cInt size).tdiv 4096 + 2 ≤ r → r ≤ (cInt x.stSize.toInt).tdiv 4096 + 1 →
    0 ≤ d.numberAt env x r ∧ d.numberAt env x r < 65536

/-- The same, rank by rank. -/
theorem truncateFits_iff {size : ℤ} : TruncateFits env d x size ↔
    NumbersFit env d x ((cInt x.stSize.toInt).tdiv 4096 - (cInt size).tdiv 4096).toNat
      ((cInt size).tdiv 4096 + 2) := by
  constructor
  · intro h k hk
    obtain ⟨hfirst, hlast⟩ := h.ranks.resolve_left (by omega)
    have hrank : RankFits ((cInt size).tdiv 4096 + 2 + k) := by
      unfold RankFits at hfirst hlast ⊢
      omega
    have h0 := hrank.1
    exact ⟨hrank, h.numbers _ (by omega) (by omega)⟩
  · intro h
    refine ⟨?_, fun r hlow hhigh => ?_⟩
    · rcases le_or_gt ((cInt x.stSize.toInt).tdiv 4096) ((cInt size).tdiv 4096) with hle | hlt
      · exact .inl hle
      · have hfirst := (h 0 (by omega)).1
        have hlast := (h (((cInt x.stSize.toInt).tdiv 4096 - (cInt size).tdiv 4096).toNat - 1)
          (by omega)).1
        unfold RankFits at hfirst hlast ⊢
        omega
    · have hnumber := (h (r - ((cInt size).tdiv 4096 + 2)).toNat (by omega)).2
      have hr : (cInt size).tdiv 4096 + 2 + ((r - ((cInt size).tdiv 4096 + 2)).toNat : ℤ) = r := by
        omega
      rwa [hr, Int.toNat_natCast] at hnumber

/-- Only a truncation that drops ranks goes through any. -/
theorem inside_truncateBlocks_iff_loop (size : ℤ) : Inside (truncateBlocks env size x) d ↔
    Inside (rankLoop (deleteNRankBlock env)
      ((cInt x.stSize.toInt).tdiv 4096 - (cInt size).tdiv 4096).toNat
      ((cInt size).tdiv 4096 + 2) x) d := by
  rw [truncateBlocks]
  have hnext : (cInt size).tdiv 4096 + 1 + 1 = (cInt size).tdiv 4096 + 2 := by omega
  have hrounds : (cInt x.stSize.toInt).tdiv 4096 + 1 - ((cInt size).tdiv 4096 + 1) =
      (cInt x.stSize.toInt).tdiv 4096 - (cInt size).tdiv 4096 := by omega
  rw [hnext, hrounds]
  rcases le_or_gt ((cInt x.stSize.toInt).tdiv 4096) ((cInt size).tdiv 4096) with hle | hlt
  · have hnone : ((cInt x.stSize.toInt).tdiv 4096 - (cInt size).tdiv 4096).toNat = 0 := by omega
    refine iff_of_true ?_ ?_
    · rw [hnone]
      split
      · exact inside_pure x d
      · split <;> exact inside_pure x d
    · rw [hnone]
      exact inside_pure x d
  · rw [if_neg (by omega), if_neg (by omega)]

/-! ### The three operations -/

/-- **Large offsets are not rejected**: for every inode, offset and size, what each of the three
operations does with the record it has read stays inside the arrays exactly if the ranks it goes
through are below 2060, which is where the index into `indirect_pointer` is 0 or 1 and the slot one
of 1024; `fs_truncate` needs besides that the numbers stored there are numbers of the data map. The
last part leaves out the records whose index block is a block of that map, where this is only
needed. -/
theorem large_offsets_iff (env : Env) (d : Disk) (x : INode) (buffer : ℕ → Byte) (size offset : ℕ)
    (length : ℤ) :
    (∀ r, 12 ≤ r → (RankFits r ↔ (0 ≤ (rankSlot r).1 ∧ (rankSlot r).1 < 2) ∧
      0 ≤ (rankSlot r).2 ∧ (rankSlot r).2 < 1024)) ∧
    (Inside (readLoop env x (cInt size) size (cInt (offset / 4096 : ℕ)) (offset % 4096) 0 buffer)
        d ↔ ReadFits size offset) ∧
    (Inside (writeBlocks env buffer size offset x) d ↔ WriteFits size offset) ∧
    (Inside (truncateBlocks env length x) d → TruncateFits env d x length) ∧
    (x.IndexApart → TruncateFits env d x length → Inside (truncateBlocks env length x) d) := by
  refine ⟨fun _ h12 => rankFits_iff h12, inside_readLoop_iff env size offset buffer,
    inside_writeBlocks_iff env buffer size offset, fun h => ?_, fun hx h => ?_⟩
  · exact (truncateFits_iff env).mpr
      (numbersFit_of_inside_deleteLoop env ((inside_truncateBlocks_iff_loop env length).mp h))
  · exact (inside_truncateBlocks_iff_loop env length).mpr
      ((inside_deleteLoop_iff env hx).mpr ((truncateFits_iff env).mp h))

/-- A record of three direct blocks. -/
def threeBlocks : INode :=
  { INode.cleared with
    stSize := 12288
    directPointer := ![4, 5, 6, 0, 0, 0, 0, 0, 0, 0, 0, 0] }

/-- Cut to nothing, it passes the ranks from 2 to 4 on, of which two have no block. -/
theorem large_offsets_three_blocks :
    Inside (truncateBlocks plainEnv 0 threeBlocks) zeroDisk := by
  refine (large_offsets_iff plainEnv zeroDisk threeBlocks 0 0 0 0).2.2.2.2
    (fun k => by revert k; decide) ⟨.inr ⟨by decide, by decide⟩, fun r hlow hhigh => ?_⟩
  have hlow' : 2 ≤ (r : ℤ) := hlow
  have hhigh' : (r : ℤ) ≤ 4 := hhigh
  obtain rfl | rfl | rfl : r = 2 ∨ r = 3 ∨ r = 4 := by omega
  · exact ⟨by decide, by decide⟩
  · exact ⟨by decide, by decide⟩
  · exact ⟨by decide, by decide⟩

/-- A write of one byte into the last block an inode can address: its second block is the one of
rank 2060. A read of one byte at offset `2060 * 4096` leaves the arrays as well. -/
theorem not_large_offsets : ∃ d i, SafeRun d ∧ d.graph.resolve 4 (fileNames [nthName 0]) = some i ∧
    d.IsFile i ∧
    (fsWrite plainEnv (pathString [nthName 0] plainMemory) (fun _ => 7) 1 8433664).run vdisk
      d = none ∧
    (fsRead plainEnv (pathString [nthName 0] plainMemory) (fun _ => 0) 1 8437760).run vdisk d =
      none := by
  obtain ⟨d, hrun, -, number, hnumber, -⟩ := exists_safeRun_files 1 (by decide)
  obtain ⟨hi, hfile, -⟩ := hnumber 0 Nat.one_pos
  have hwrite : ¬ WriteFits 1 8433664 := fun h => absurd h.last (by decide)
  have hread : ¬ ReadFits 1 8437760 := fun h => absurd h.first (by decide)
  have hpath (behind : ℕ → Byte) : (pathString [nthName 0] behind).chars = pathChars [nthName 0] :=
    rfl
  have hresolve := hrun.sound.walkable.run_understandThePath plainEnv hi
  have hinode := run_justReadInodeFromDisk plainEnv hfile.lt d
  refine ⟨d, number 0, hrun, hi, hfile, ?_, ?_⟩
  · rw [fsWrite, hpath, Prog.run_bind_some _ hresolve, Prog.run_bind_some _ hinode, Prog.run_bind,
      not_inside_iff.mp fun h => hwrite ((inside_writeBlocks_iff plainEnv _ _ _).mp h),
      Option.bind_none]
  · rw [fsRead, hpath, Prog.run_bind_some _ hresolve, Prog.run_bind_some _ hinode, Prog.run_bind,
      not_inside_iff.mp fun h => hread ((inside_readLoop_iff plainEnv _ _ _).mp h),
      Option.bind_none]

end InodeFs
