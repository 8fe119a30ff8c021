import InodeFs.Ops.Read

/-!
# Four translations of a rank

`mount_block_to_inode_according_to_rank` and `delete_n_rank_block` look a rank up in an index block
read as 1024 `int`s, `read_the_one_disk_according_to_rank_in_inode` and
`write_into_disk_acccording_to_rank_in_inode` in the same block read into an array of 1024 pointers,
which are twice as wide. `Disk.accessedNumber` and `Disk.releasedNumber` are the numbers the two
kinds find; `ranks_agree_iff` says exactly when a mount is followed by all.

Both kinds see the direct pointers alike, and the first element of an index block: the low four
bytes of a pointer are those of an `int`. Behind that, pointer `k` lies over the elements `2 * k`
and `2 * k + 1`, and the array of pointers extends beyond the block, over what was in memory
(`accessedNumber`). A mount at element `k` is seen, if at all, at pointer `k / 2`.

So the two views agree after a mount only by accident of what the index block held before, and
`ranks_agree_iff` states the accident: the number was there already at the two places where the
views differ. The proof goes through the numbers found (`ranksAgree_iff_numbers`), with one lemma
for the direct ranks and one for the others.
-/

namespace InodeFs

variable (env : Env)

/-! ### Index blocks -/

/-- The number of the index block of a rank from 12 on. -/
def INode.indexBlock (x : INode) (r : ℕ) : ℕ :=
  (x.indirectPointer ⟨r / 1036 % 2, Nat.mod_lt _ (by decide)⟩).toNat

/-- The index blocks are two different data blocks. -/
structure INode.HasIndexBlocks (x : INode) : Prop where
  lt : ∀ k, (x.indirectPointer k).toNat < 64508
  ne : (x.indirectPointer 0).toNat ≠ (x.indirectPointer 1).toNat

/-- The element of the index block that belongs to a rank. -/
def indexBias (r : ℕ) : ℕ := (r - 12) % 1024

theorem indexBias_lt (r : ℕ) : indexBias r < 1024 := Nat.mod_lt _ (by decide)

/-- The index block of a rank, as the code computes it. -/
theorem tdiv_rank {r : ℕ} (hr : r < 2060) :
    (r : ℤ).tdiv (1024 + 12) = ((r / 1036 % 2 : ℕ) : ℤ) := by
  have htdiv : (r : ℤ).tdiv (1024 + 12) = ((r / 1036 : ℕ) : ℤ) := rfl
  rw [htdiv]
  exact congrArg Nat.cast (by omega)

/-- The element of that index block. -/
theorem sub_rank {r : ℕ} (h12 : 12 ≤ r) (hr : r < 2060) :
    (r : ℤ) - ((r / 1036 % 2 : ℕ) : ℤ) * 1024 - 12 = (indexBias r : ℤ) := by
  unfold indexBias
  rcases Nat.lt_or_ge r 1036 with h | h
  · have hside : r / 1036 % 2 = 0 := by omega
    have hbias : (r - 12) % 1024 = r - 12 := Nat.mod_eq_of_lt (by omega)
    rw [hside, hbias]
    omega
  · have hside : r / 1036 % 2 = 1 := by omega
    have hbias : (r - 12) % 1024 = r - 1036 := by omega
    rw [hside, hbias]
    omega

/-- The number of an index block is not negative. -/
theorem INode.HasIndexBlocks.toInt {x : INode} (h : x.HasIndexBlocks) (r : ℕ) :
    (x.indirectPointer ⟨r / 1036 % 2, Nat.mod_lt _ (by decide)⟩).toInt = (x.indexBlock r : ℤ) :=
  toInt_eq_natCast (by have := h.lt ⟨r / 1036 % 2, Nat.mod_lt _ (by decide)⟩; omega)

/-- The index blocks exist on the disk. -/
theorem INode.HasIndexBlocks.indexBlock_lt {x : INode} (h : x.HasIndexBlocks) (r : ℕ) :
    x.indexBlock r < 64508 := h.lt _

/-- Ranks with the same index block and element are the same. -/
theorem INode.HasIndexBlocks.eq_of_indexBias {x : INode} (h : x.HasIndexBlocks) {q r : ℕ}
    (hq12 : 12 ≤ q) (hq : q < 2060) (hr12 : 12 ≤ r) (hr : r < 2060)
    (hblock : x.indexBlock q = x.indexBlock r) (hbias : indexBias q = indexBias r) : q = r := by
  have hside : q / 1036 % 2 = r / 1036 % 2 := by
    unfold indexBlock at hblock
    rcases Nat.mod_two_eq_zero_or_one (q / 1036) with hq2 | hq2 <;>
      rcases Nat.mod_two_eq_zero_or_one (r / 1036) with hr2 | hr2
    · rw [hq2, hr2]
    · simp only [hq2, hr2] at hblock
      exact absurd hblock h.ne
    · simp only [hq2, hr2] at hblock
      exact absurd hblock.symm h.ne
    · rw [hq2, hr2]
  unfold indexBias at hbias
  omega

/-! ### The numbers found -/

/-- The number `delete_n_rank_block` looks up. -/
def releasedAtRank (rank : ℤ) (nowFileInode : INode) : Fs ℤ := do
  if rank < 12 then do
    let pointer ← Prog.index nowFileInode.directPointer rank
    pure pointer.toInt
  else do
    let index := rank.tdiv (12 + 1024)
    let transfer := rank - 12 - 1024 * index
    let pointer ← Prog.index nowFileInode.indirectPointer index
    let temDataBlockNumber ← readInts env (datablockFindDiskId pointer.toInt)
    let number ← Prog.index temDataBlockNumber transfer
    pure number.toInt

/-- What is given back at a rank is looked up first. -/
theorem deleteNRankBlock_eq (rank : ℤ) (x : INode) : deleteNRankBlock env rank x = (do
    let freeDataBlockNumber ← releasedAtRank env rank x
    makeDataMapUncovered env freeDataBlockNumber
    pure x) := by
  rw [deleteNRankBlock, releasedAtRank]
  split <;> simp only [Prog.bind_assoc]

namespace Disk

/-- Element `k` of the index block of a rank, as an `int`. -/
def indexElement (d : Disk) (x : INode) (r k : ℕ) : ℤ :=
  ((d.data (x.indexBlock r)).ints ⟨k % 1024, Nat.mod_lt _ (by decide)⟩).toInt

/-- The number the reading and the writing function find at a rank. The elements of the pointer
array behind the block's 512 hold what was in memory. -/
def accessedNumber (d : Disk) (env : Env) (x : INode) (r : ℕ) : ℤ :=
  if h : r < 12 then (x.directPointer ⟨r, h⟩).toInt
  else if indexBias r < 512 then d.indexElement x r (2 * indexBias r)
  else (((env.stackHigh (datablockFindDiskId (x.indexBlock r))).pointers
    ⟨indexBias r - 512, by have := indexBias_lt r; omega⟩).setWidth 32).toInt

/-- The number the releasing function finds at a rank. -/
def releasedNumber (d : Disk) (x : INode) (r : ℕ) : ℤ :=
  if h : r < 12 then (x.directPointer ⟨r, h⟩).toInt
  else d.indexElement x r (indexBias r)

/-- An index block with the element of a rank replaced. -/
def setIndex (d : Disk) (x : INode) (r n : ℕ) : Disk :=
  d.setData (x.indexBlock r) (Block.ints.symm (Function.update (d.data (x.indexBlock r)).ints
    ⟨indexBias r, indexBias_lt r⟩ (BitVec.ofInt 32 n)))

end Disk

section Run

variable {x : INode} {r : ℕ}

/-- The number that reading and writing look up. -/
theorem run_dataBlockAtRank_eq (hx : x.HasIndexBlocks) (hr : r < 2060) (d : Disk) :
    (dataBlockAtRank env r x).run vdisk d = some (d.accessedNumber env x r, d) := by
  rw [dataBlockAtRank, Disk.accessedNumber]
  by_cases h12 : r < 12
  · rw [if_pos (by omega), dif_pos h12, INode.index_directPointer h12]
    rfl
  · rw [if_neg (by omega), dif_neg h12]
    simp only [tdiv_rank hr, sub_rank (Nat.le_of_not_lt h12) hr]
    rw [Prog.index_natCast _ (Nat.mod_lt _ (by decide)), Prog.ret_bind, hx.toInt, readPointers,
      Prog.bind_assoc, Prog.run_bind_some _ (run_readData env (hx.indexBlock_lt r) d),
      Prog.pure_eq_ret, Prog.ret_bind, Prog.index_natCast _ (indexBias_lt r), Prog.ret_bind]
    by_cases ht : indexBias r < 512
    · have hmod : 2 * indexBias r % 1024 = 2 * indexBias r := Nat.mod_eq_of_lt (by omega)
      rw [dif_pos ht, if_pos ht, Block.setWidth_pointers _ ht, Disk.indexElement]
      simp only [hmod]
      rfl
    · rw [dif_neg ht, if_neg ht]
      rfl

/-- The number that truncating looks up. -/
theorem run_releasedAtRank (hx : x.HasIndexBlocks) (hr : r < 2060) (d : Disk) :
    (releasedAtRank env r x).run vdisk d = some (d.releasedNumber x r, d) := by
  rw [releasedAtRank, Disk.releasedNumber]
  by_cases h12 : r < 12
  · rw [if_pos (by omega), dif_pos h12, INode.index_directPointer h12]
    rfl
  · have hsub : (r : ℤ) - 12 - 1024 * ((r / 1036 % 2 : ℕ) : ℤ) = (indexBias r : ℤ) := by
      rw [← sub_rank (Nat.le_of_not_lt h12) hr]
      ring
    rw [if_neg (by omega), dif_neg h12]
    simp only [add_comm (12 : ℤ) 1024, tdiv_rank hr, hsub]
    rw [Prog.index_natCast _ (Nat.mod_lt _ (by decide)), Prog.ret_bind, hx.toInt,
      Prog.run_bind_some _ (run_readInts env (hx.indexBlock_lt r) d),
      Prog.index_natCast _ (indexBias_lt r), Prog.ret_bind, Disk.indexElement]
    simp only [Nat.mod_eq_of_lt (indexBias_lt r)]
    rfl

/-- Mounting at a rank from 12 on stores the number in an index block. -/
theorem run_mountBlock_index (hx : x.HasIndexBlocks) (h12 : 12 ≤ r) (hr : r < 2060) (n : ℕ)
    (d : Disk) :
    (mountBlockToInodeAccordingToRank env r n x).run vdisk d = some (x, d.setIndex x r n) := by
  rw [mountBlockToInodeAccordingToRank, if_neg (by omega)]
  simp only [tdiv_rank hr, sub_rank h12 hr]
  rw [Prog.index_natCast _ (Nat.mod_lt _ (by decide)), Prog.ret_bind, hx.toInt,
    Prog.run_bind_some _ (run_readInts env (hx.indexBlock_lt r) d),
    Prog.assign_natCast _ (indexBias_lt r), Prog.ret_bind, writeInts,
    Prog.run_bind_some _ (run_writeData (hx.indexBlock_lt r) _ d)]
  rfl

end Run

/-! ### After a mount -/

namespace Disk

variable {d : Disk} {x : INode} {r n : ℕ}

/-- A mount changes one element of one index block. -/
theorem indexElement_setIndex (hn : n < 2 ^ 31) (q k : ℕ) :
    (d.setIndex x r n).indexElement x q k =
      if x.indexBlock q = x.indexBlock r ∧ k % 1024 = indexBias r then (n : ℤ)
      else d.indexElement x q k := by
  rw [indexElement, setIndex, data_setData]
  by_cases hblock : x.indexBlock q = x.indexBlock r
  · rw [if_pos hblock, Equiv.apply_symm_apply, Function.update_apply, indexElement, hblock]
    simp only [Fin.mk.injEq, true_and]
    split
    · exact toInt_ofInt_natCast hn
    · rfl
  · rw [if_neg hblock, if_neg fun h => hblock h.1, indexElement]

/-- Truncating finds what was mounted at each rank. -/
theorem releasedNumber_setIndex (hx : x.HasIndexBlocks) (h12 : 12 ≤ r) (hr : r < 2060)
    (hn : n < 2 ^ 31) {q : ℕ} (hq : q < 2060) :
    (d.setIndex x r n).releasedNumber x q = if q = r then (n : ℤ) else d.releasedNumber x q := by
  rw [releasedNumber, releasedNumber]
  by_cases hq12 : q < 12
  · rw [dif_pos hq12, dif_pos hq12, if_neg (by omega)]
  · rw [dif_neg hq12, dif_neg hq12, indexElement_setIndex hn, Nat.mod_eq_of_lt (indexBias_lt q)]
    by_cases hqr : q = r
    · rw [if_pos hqr, if_pos ⟨by rw [hqr], by rw [hqr]⟩]
    · rw [if_neg hqr, if_neg fun h => hqr (hx.eq_of_indexBias (by omega) hq h12 hr h.1 h.2)]

/-- Reading and writing look at twice the element: what was mounted is found at half of it. -/
theorem accessedNumber_setIndex (env : Env) (hn : n < 2 ^ 31) {q : ℕ} (hq12 : 12 ≤ q)
    (hlow : indexBias q < 512) :
    (d.setIndex x r n).accessedNumber env x q =
      if x.indexBlock q = x.indexBlock r ∧ 2 * indexBias q = indexBias r then (n : ℤ)
      else d.indexElement x q (2 * indexBias q) := by
  have hmod : 2 * indexBias q % 1024 = 2 * indexBias q := Nat.mod_eq_of_lt (by omega)
  rw [accessedNumber, dif_neg (by omega), if_pos hlow, indexElement_setIndex hn, hmod]

/-- The mount is not seen at a rank where the element changed is not read, or held `n` before. -/
theorem accessedNumber_setIndex_eq (env : Env) (hn : n < 2 ^ 31) {q : ℕ}
    (h : x.indexBlock q = x.indexBlock r → 12 ≤ q → 2 * indexBias q = indexBias r →
      d.indexElement x r (indexBias r) = n) :
    (d.setIndex x r n).accessedNumber env x q = d.accessedNumber env x q := by
  by_cases hq12 : q < 12
  · rw [accessedNumber, dif_pos hq12, accessedNumber, dif_pos hq12]
  · by_cases hlow : indexBias q < 512
    · have hq12' : 12 ≤ q := Nat.le_of_not_lt hq12
      rw [accessedNumber_setIndex env hn hq12' hlow, accessedNumber, dif_neg hq12, if_pos hlow]
      split
      · next hsame =>
        rw [← h hsame.1 hq12' hsame.2, ← hsame.2, indexElement, indexElement, hsame.1]
      · rfl
    · rw [accessedNumber, dif_neg hq12, if_neg hlow, accessedNumber, dif_neg hq12, if_neg hlow]

end Disk

/-- **All translations follow a mount**: after block number `n` is mounted at rank `r`, the
reading and the writing function access data block `n` there, the releasing one releases it,
and at every other rank both kinds find the number they found before. -/
def RanksAgree (d : Disk) (x : INode) (r n : ℕ) : Prop :=
  ∃ x' d', (mountBlockToInodeAccordingToRank env r n x).run vdisk d = some (x', d') ∧
    (readTheOneDiskAccordingToRankInInode env r x').run vdisk d' =
      (env.read (datablockFindDiskId n)).run vdisk d' ∧
    (∀ content, (writeIntoDiskAcccordingToRankInInode env r x' content).run vdisk d' =
      (diskWrite (datablockFindDiskId n) content).run vdisk d') ∧
    (deleteNRankBlock env r x').run vdisk d' =
      (makeDataMapUncovered env n >>= fun _ => pure x').run vdisk d' ∧
    (dataBlockAtRank env r x').run vdisk d' = some ((n : ℤ), d') ∧
    (releasedAtRank env r x').run vdisk d' = some ((n : ℤ), d') ∧
    ∀ q : ℕ, q < 2060 → q ≠ r →
      ((dataBlockAtRank env q x').run vdisk d').map Prod.fst =
        ((dataBlockAtRank env q x).run vdisk d).map Prod.fst ∧
      ((releasedAtRank env q x').run vdisk d').map Prod.fst =
        ((releasedAtRank env q x).run vdisk d).map Prod.fst

section Agree

variable {d : Disk} {x : INode} {r n : ℕ}

/-- What the property says in terms of the numbers found. -/
theorem ranksAgree_iff_numbers {x' : INode} {d' : Disk} (hx : x.HasIndexBlocks)
    (hx' : x'.HasIndexBlocks) (hr : r < 2060)
    (hmount : (mountBlockToInodeAccordingToRank env r n x).run vdisk d = some (x', d')) :
    RanksAgree env d x r n ↔ d'.accessedNumber env x' r = n ∧ d'.releasedNumber x' r = n ∧
      ∀ q < 2060, q ≠ r → d'.accessedNumber env x' q = d.accessedNumber env x q ∧
        d'.releasedNumber x' q = d.releasedNumber x q := by
  constructor
  · rintro ⟨y, e, hmount', -, -, -, haccessed, hreleased, hothers⟩
    obtain ⟨rfl, rfl⟩ := Prog.run_inj vdisk hmount hmount'
    rw [run_dataBlockAtRank_eq env hx' hr] at haccessed
    rw [run_releasedAtRank env hx' hr] at hreleased
    refine ⟨(Prod.mk.inj (Option.some.inj haccessed)).1,
      (Prod.mk.inj (Option.some.inj hreleased)).1, fun q hq hqr => ?_⟩
    obtain ⟨haccess, hrelease⟩ := hothers q hq hqr
    rw [run_dataBlockAtRank_eq env hx' hq, run_dataBlockAtRank_eq env hx hq] at haccess
    rw [run_releasedAtRank env hx' hq, run_releasedAtRank env hx hq] at hrelease
    exact ⟨Option.some.inj haccess, Option.some.inj hrelease⟩
  · rintro ⟨haccessed, hreleased, hothers⟩
    have hnumber := run_dataBlockAtRank_eq env hx' hr d'
    have hrelease := run_releasedAtRank env hx' hr d'
    rw [haccessed] at hnumber
    rw [hreleased] at hrelease
    refine ⟨x', d', hmount, ?_, fun content => ?_, ?_, hnumber, hrelease, fun q hq hqr => ?_⟩
    · rw [readTheOneDiskAccordingToRankInInode, Prog.run_bind_some _ hnumber]
    · rw [writeIntoDiskAcccordingToRankInInode, Prog.run_bind_some _ hnumber]
    · rw [deleteNRankBlock_eq, Prog.run_bind_some _ hrelease]
    · obtain ⟨haccess, hrelease⟩ := hothers q hq hqr
      rw [run_dataBlockAtRank_eq env hx' hq, run_dataBlockAtRank_eq env hx hq,
        run_releasedAtRank env hx' hq, run_releasedAtRank env hx hq, haccess, hrelease]
      exact ⟨rfl, rfl⟩

theorem directPointer_setPtr (hr : r < 12) : (x.setPtr r n).directPointer =
    Function.update x.directPointer ⟨r, hr⟩ (BitVec.ofNat 32 n) := by
  rw [INode.setPtr, dif_pos hr]

/-- A direct rank is mounted in the record, where all functions look it up. -/
theorem ranksAgree_direct (hx : x.HasIndexBlocks) (hr : r < 12) (hn : n < 2 ^ 31) :
    RanksAgree env d x r n := by
  have hindex := x.setPtr_indirectPointer r n
  have hblock (q : ℕ) : (x.setPtr r n).indexBlock q = x.indexBlock q := by
    rw [INode.indexBlock, hindex, INode.indexBlock]
  have hx' : (x.setPtr r n).HasIndexBlocks := ⟨hindex ▸ hx.lt, hindex ▸ hx.ne⟩
  have hpointer := directPointer_setPtr (x := x) (n := n) hr
  have hnumber : (BitVec.ofNat 32 n).toInt = n := by
    rw [← BitVec.ofInt_natCast, toInt_ofInt_natCast hn]
  refine (ranksAgree_iff_numbers env hx hx' (by omega) (run_mountBlockToInode env hr x d)).mpr ?_
  unfold Disk.accessedNumber Disk.releasedNumber Disk.indexElement
  simp only [hblock, hpointer]
  refine ⟨?_, ?_, fun q hq hqr => ?_⟩
  · rw [dif_pos hr, Function.update_self, hnumber]
  · rw [dif_pos hr, Function.update_self, hnumber]
  · by_cases hq12 : q < 12
    · have hne : (⟨q, hq12⟩ : Fin 12) ≠ ⟨r, hr⟩ := fun h => hqr (Fin.mk.inj h)
      simp only [dif_pos hq12, Function.update_of_ne hne, and_self]
    · simp only [dif_neg hq12, and_self]

/-- The rank whose pointer is read where a mount at rank `r` writes. -/
theorem indexBias_sub_half (heven : indexBias r % 2 = 0) :
    indexBias (r - indexBias r / 2) = indexBias r / 2 := by
  unfold indexBias at heven ⊢
  omega

/-- The rank at half the element has the same index block. -/
theorem INode.indexBlock_sub_half (x : INode) (hr : r < 2060) :
    x.indexBlock (r - indexBias r / 2) = x.indexBlock r := by
  have hside : (r - indexBias r / 2) / 1036 % 2 = r / 1036 % 2 := by
    rcases Nat.lt_or_ge r 1036 with h | h
    · rw [Nat.div_eq_of_lt h, Nat.div_eq_of_lt (by omega)]
    · have hvalue : indexBias r = r - 1036 := by unfold indexBias; omega
      have hone : r / 1036 = 1 := by omega
      have hone' : (r - indexBias r / 2) / 1036 = 1 := by omega
      rw [hone, hone']
  unfold INode.indexBlock
  simp only [hside]

/-- Behind the elements of the block the array of pointers holds whatever was there. -/
theorem indexBias_lt_of_ranksAgree (hx : x.HasIndexBlocks) (h12 : 12 ≤ r) (hr : r < 2060)
    (hall : ∀ env, RanksAgree env d x r n) : indexBias r < 512 := by
  by_contra hhigh
  set env : Env := { plainEnv with
    stackHigh := fun _ => Block.pointers.symm fun _ => if n = 0 then 1 else 0 } with henv
  obtain ⟨hfound, -⟩ :=
    (ranksAgree_iff_numbers env hx hx hr (run_mountBlock_index env hx h12 hr n d)).mp (hall env)
  rw [Disk.accessedNumber, dif_neg (by omega), if_neg hhigh, henv,
    Equiv.apply_symm_apply] at hfound
  by_cases hn0 : n = 0
  · rw [if_pos hn0, hn0] at hfound
    exact absurd hfound (by decide)
  · rw [if_neg hn0] at hfound
    exact hn0 (Int.ofNat.inj hfound).symm

/-- What a mount at a rank of an index block has to meet for the pointer view to follow it: the
element at twice the rank's is the one read, and an even element is read at half the rank's. -/
theorem ranksAgree_index_iff (hx : x.HasIndexBlocks) (h12 : 12 ≤ r) (hr : r < 2060)
    (hn : n < 2 ^ 31) : (∀ env, RanksAgree env d x r n) ↔
      indexBias r = 0 ∨ indexBias r < 512 ∧ d.indexElement x r (2 * indexBias r) = n ∧
        (indexBias r % 2 = 0 → d.indexElement x r (indexBias r) = n) := by
  have hnumbers (env : Env) :=
    ranksAgree_iff_numbers env hx hx hr (run_mountBlock_index env hx h12 hr n d)
  have hreleased {q : ℕ} (hq : q < 2060) :=
    Disk.releasedNumber_setIndex (d := d) hx h12 hr hn hq
  have haccessed (env : Env) := Disk.accessedNumber_setIndex (d := d) (x := x) (r := r) env hn h12
  constructor
  · intro hall
    -- rank 12 and rank 1036 start their index blocks
    by_cases hzero : indexBias r = 0
    · exact .inl hzero
    have hlow := indexBias_lt_of_ranksAgree hx h12 hr hall
    obtain ⟨hfound, -, hothers⟩ := (hnumbers plainEnv).mp (hall plainEnv)
    rw [haccessed plainEnv hlow, if_neg (by omega)] at hfound
    refine .inr ⟨hlow, hfound, fun heven => ?_⟩
    -- a rank at half the bias is accessed where this one is mounted
    have hbias := indexBias_sub_half heven
    have hblock := x.indexBlock_sub_half hr
    have hq12 : 12 ≤ r - indexBias r / 2 := by
      unfold indexBias
      omega
    obtain ⟨hsame, -⟩ := hothers (r - indexBias r / 2) (by omega) (by omega)
    rw [Disk.accessedNumber_setIndex plainEnv hn hq12 (by omega),
      if_pos ⟨hblock, by omega⟩, Disk.accessedNumber, dif_neg (by omega), if_pos (by omega),
      Disk.indexElement, hblock, hbias, Nat.mul_div_cancel' (Nat.dvd_of_mod_eq_zero heven)] at hsame
    exact hsame.symm
  · intro hcond env
    have hlow : indexBias r < 512 := by rcases hcond with hzero | ⟨hlow, -⟩ <;> omega
    refine (hnumbers env).mpr ⟨?_, ?_, fun q hq hqr => ⟨?_, ?_⟩⟩
    · rw [haccessed env hlow]
      rcases hcond with hzero | ⟨-, hfound, -⟩
      · rw [if_pos ⟨rfl, by omega⟩]
      · rw [hfound, ite_self]
    · rw [hreleased hr, if_pos rfl]
    · refine Disk.accessedNumber_setIndex_eq env hn fun hblock hq12 hdouble => ?_
      rcases hcond with hzero | ⟨-, -, heven⟩
      · exact absurd (hx.eq_of_indexBias hq12 hq h12 hr hblock (by omega)) hqr
      · exact heven (by omega)
    · rw [hreleased hq, if_neg hqr]

/-- **When the translations agree**: exactly at the direct ranks, at the first rank of either
index block, and where the index block held, before the mount, the block number at the two
places where the views differ. -/
theorem ranks_agree_iff (d : Disk) (x : INode) (r n : ℕ) (hr : r < 12 + 2 * 1024)
    (hn : n < 2 ^ 31) (hx : x.HasIndexBlocks) :
    (∀ env, RanksAgree env d x r n) ↔ r < 12 ∨ indexBias r = 0 ∨
      indexBias r < 512 ∧ d.indexElement x r (2 * indexBias r) = n ∧
        (indexBias r % 2 = 0 → d.indexElement x r (indexBias r) = n) := by
  have hr' : r < 2060 := hr
  rcases Nat.lt_or_ge r 12 with h12 | h12
  · exact ⟨fun _ => .inl h12, fun _ env => ranksAgree_direct env hx h12 hn⟩
  · rw [ranksAgree_index_iff hx h12 hr' hn, or_iff_right (Nat.not_lt.mpr h12)]

end Agree

/-- A record whose index blocks are data blocks 4 and 5. -/
def indexedINode : INode := { INode.cleared with indirectPointer := ![4, 5] }

theorem hasIndexBlocks_indexedINode : indexedINode.HasIndexBlocks := ⟨by decide, by decide⟩

/-- The first rank of an index block: the two views share their first four bytes. -/
theorem ranks_agree_first_indirect : RanksAgree plainEnv zeroDisk indexedINode 12 9 :=
  (ranks_agree_iff zeroDisk indexedINode 12 9 (by decide) (by decide)
    hasIndexBlocks_indexedINode).mpr (.inr (.inl rfl)) plainEnv

/-- The next rank: block 9 is mounted there, and block 0 is read. -/
theorem not_ranks_agree_second_indirect :
    ¬ ∀ env, RanksAgree env zeroDisk indexedINode 13 9 := by
  have hzero : zeroDisk.indexElement indexedINode 13 (2 * indexBias 13) = 0 := by
    rw [Disk.indexElement, show zeroDisk.data (indexedINode.indexBlock 13) = Block.zero from rfl,
      Block.ints_zero]
    rfl
  intro h
  rcases (ranksAgree_index_iff hasIndexBlocks_indexedINode (by decide) (by decide)
    (by decide)).mp h with hbias | ⟨-, hfound, -⟩
  · exact absurd hbias (by decide)
  · rw [hzero] at hfound
    exact absurd hfound (by decide)

end InodeFs
