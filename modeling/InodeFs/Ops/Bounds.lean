import InodeFs.Properties.Ranks

/-!
# Which ranks stay inside the arrays

On every disk and for every inode record: a rank translator leaves no array exactly for the
ranks from 0 to 2059 (`rankFits_iff` says why), so the loops of `fs_read` and `fs_write` leave
none exactly if the ranks they go through lie there. Nothing checks a rank before; outside,
the run of the model ends.

The ranks come from a division, of an `int` by 4096, and a loop that counts up. `RankFits` is the
condition for one rank, and a list of ranks fits if each of its members does. For the loop of
`fs_read` and the two of `fs_write` the ranks they go through are computed from the offset and the
size, by the arithmetic of the source, so that the statements hold for negative values and for those
that overflow as well.

Both directions are proved by running the loop as far as it goes: either every rank is served, and
the loop returns, or the first rank that does not fit ends it (`Prog.undefined`).

No condition on the disk is needed, because a number that was read is passed to the device and not
to an array; a refused access is an access. Only the truncation passes it to the map, and is treated
in `InodeFs.Properties.LargeOffsets`.
-/

namespace InodeFs

variable (env : Env)

/-- Run on `d`, the program stays inside all arrays. -/
def Inside {α : Type} (p : Fs α) (d : Disk) : Prop := ∃ a t, p.run vdisk d = some (a, t)

theorem not_inside_iff {α : Type} {p : Fs α} {d : Disk} : ¬ Inside p d ↔ p.run vdisk d = none := by
  rw [Option.eq_none_iff_forall_ne_some]
  exact ⟨fun h q hq => h ⟨q.1, q.2, hq⟩, fun h ⟨a, t, hrun⟩ => h (a, t) hrun⟩

theorem inside_bind_iff {α β : Type} {p : Fs α} {f : α → Fs β} {d : Disk} :
    Inside (p >>= f) d ↔ ∃ a t, p.run vdisk d = some (a, t) ∧ Inside (f a) t := by
  constructor
  · rintro ⟨b, u, hrun⟩
    obtain ⟨a, t, hp, hf⟩ := (Prog.run_bind_eq_some vdisk).mp hrun
    exact ⟨a, t, hp, b, u, hf⟩
  · rintro ⟨a, t, hp, b, u, hf⟩
    exact ⟨b, u, (Prog.run_bind_eq_some vdisk).mpr ⟨a, t, hp, hf⟩⟩

/-- The rest of a program whose first part returns. -/
theorem inside_bind_of_run {α β : Type} {p : Fs α} {f : α → Fs β} {d t : Disk} {a : α}
    (hp : p.run vdisk d = some (a, t)) : Inside (p >>= f) d ↔ Inside (f a) t := by
  rw [Inside, Prog.run_bind_some vdisk hp, Inside]

theorem inside_pure {α : Type} (a : α) (d : Disk) : Inside (pure a : Fs α) d := ⟨a, d, rfl⟩

/-- The element of an array, and then something that depends on no element. -/
theorem inside_index_iff {α β : Type} {n : ℕ} {a : Fin n → α} {i : ℤ} {f : α → Fs β} {d : Disk}
    {P : Prop} (h : ∀ x, Inside (f x) d ↔ P) :
    Inside (Prog.index a i >>= f) d ↔ (0 ≤ i ∧ i < n) ∧ P := by
  by_cases hi : 0 ≤ i ∧ i < n
  · obtain ⟨k, rfl⟩ := Int.eq_ofNat_of_zero_le hi.1
    rw [Prog.index_natCast a (show k < n by omega), Prog.ret_bind, h]
    exact (and_iff_right hi).symm
  · rw [Prog.index_eq_undefined a hi]
    exact iff_of_false (fun ⟨b, t, hrun⟩ => by cases hrun) fun hboth => hi hboth.1

theorem inside_assign_iff {α β : Type} {n : ℕ} {a : Fin n → α} {i : ℤ} {y : α}
    {f : (Fin n → α) → Fs β} {d : Disk} {P : Prop} (h : ∀ x, Inside (f x) d ↔ P) :
    Inside (Prog.assign a i y >>= f) d ↔ (0 ≤ i ∧ i < n) ∧ P := by
  by_cases hi : 0 ≤ i ∧ i < n
  · obtain ⟨k, rfl⟩ := Int.eq_ofNat_of_zero_le hi.1
    rw [Prog.assign_natCast a (show k < n by omega), Prog.ret_bind, h]
    exact (and_iff_right hi).symm
  · rw [Prog.assign_eq_undefined a hi]
    exact iff_of_false (fun ⟨b, t, hrun⟩ => by cases hrun) fun hboth => hi hboth.1

/-- A device call is inside, whatever its block number is. -/
theorem exists_run_readInts (id : ℤ) (d : Disk) :
    ∃ numbers, (readInts env id).run vdisk d = some (numbers, d) := ⟨_, rfl⟩

theorem exists_run_readPointers (id : ℤ) (d : Disk) :
    ∃ numbers, (readPointers env id).run vdisk d = some (numbers, d) := ⟨_, rfl⟩

theorem exists_run_diskWrite (id : ℤ) (b : Block) (d : Disk) :
    ∃ t, (diskWrite id b).run vdisk d = some ((), t) := ⟨_, rfl⟩

/-! ### The translators -/

/-- The ranks an inode can address. -/
def RankFits (r : ℤ) : Prop := 0 ≤ r ∧ r < 2060

instance (r : ℤ) : Decidable (RankFits r) := inferInstanceAs (Decidable (_ ∧ _))

/-- The index into `indirect_pointer` and the slot in the index block of a rank. -/
def rankSlot (r : ℤ) : ℤ × ℤ := (r.tdiv (1024 + 12), r - r.tdiv (1024 + 12) * 1024 - 12)

/-- Up to rank 2059 the index is 0 or 1 and the slot one of 1024, and behind it one of them
is not. -/
theorem rankFits_iff {r : ℤ} (h12 : 12 ≤ r) :
    RankFits r ↔ (0 ≤ (rankSlot r).1 ∧ (rankSlot r).1 < 2) ∧
      0 ≤ (rankSlot r).2 ∧ (rankSlot r).2 < 1024 := by
  obtain ⟨n, rfl⟩ := Int.eq_ofNat_of_zero_le (show 0 ≤ r by omega)
  have htdiv : (n : ℤ).tdiv (1024 + 12) = ((n / 1036 : ℕ) : ℤ) := rfl
  rw [RankFits, rankSlot, htdiv]
  omega

/-- The two branches of a translator are inside together exactly for the ranks that fit. -/
theorem rankFits_iff_branches {r : ℤ} {P Q : Prop} (hdirect : P ↔ 0 ≤ r ∧ r < (12 : ℕ))
    (hindirect : Q ↔ (0 ≤ (rankSlot r).1 ∧ (rankSlot r).1 < (2 : ℕ)) ∧
      0 ≤ (rankSlot r).2 ∧ (rankSlot r).2 < (1024 : ℕ)) :
    (if r < 12 then P else Q) ↔ RankFits r := by
  split
  · rw [hdirect, RankFits]
    omega
  · rw [hindirect, rankFits_iff (by omega)]
    rfl

variable {x : INode} {r : ℤ} {d : Disk}

theorem inside_ite {α : Type} {c : Prop} [Decidable c] {p q : Fs α} :
    Inside (if c then p else q) d ↔ if c then Inside p d else Inside q d := by
  split <;> rfl

/-- The translator of the reading and the writing function. -/
theorem inside_dataBlockAtRank_iff : Inside (dataBlockAtRank env r x) d ↔ RankFits r := by
  rw [dataBlockAtRank, inside_ite]
  refine rankFits_iff_branches ?_ ?_
  · exact (inside_index_iff fun _ => iff_true_intro (inside_pure _ d)).trans (and_true _).to_iff
  · refine inside_index_iff fun pointer => ?_
    obtain ⟨numbers, hnumbers⟩ := exists_run_readPointers env (datablockFindDiskId pointer.toInt) d
    rw [inside_bind_of_run hnumbers]
    exact (inside_index_iff fun _ => iff_true_intro (inside_pure _ d)).trans (and_true _).to_iff

/-- The translator of the mounting function. -/
theorem inside_mountBlock_iff (n : ℤ) :
    Inside (mountBlockToInodeAccordingToRank env r n x) d ↔ RankFits r := by
  rw [mountBlockToInodeAccordingToRank, inside_ite]
  refine rankFits_iff_branches ?_ ?_
  · exact (inside_assign_iff fun _ => iff_true_intro (inside_pure _ d)).trans (and_true _).to_iff
  · refine inside_index_iff fun pointer => ?_
    obtain ⟨numbers, hnumbers⟩ := exists_run_readInts env (datablockFindDiskId pointer.toInt) d
    rw [inside_bind_of_run hnumbers]
    refine (inside_assign_iff fun numbers => iff_true_intro ?_).trans (and_true _).to_iff
    obtain ⟨t, ht⟩ := exists_run_diskWrite (datablockFindDiskId pointer.toInt)
      (Block.ints.symm numbers) d
    rw [writeInts, inside_bind_of_run ht]
    exact inside_pure _ t

/-- The translator of the releasing function. -/
theorem inside_releasedAtRank_iff : Inside (releasedAtRank env r x) d ↔ RankFits r := by
  rw [releasedAtRank, inside_ite]
  refine rankFits_iff_branches ?_ ?_
  · exact (inside_index_iff fun _ => iff_true_intro (inside_pure _ d)).trans (and_true _).to_iff
  · refine inside_index_iff fun pointer => ?_
    obtain ⟨numbers, hnumbers⟩ := exists_run_readInts env (datablockFindDiskId pointer.toInt) d
    rw [inside_bind_of_run hnumbers]
    have hslot : r - 12 - 1024 * r.tdiv (12 + 1024) = (rankSlot r).2 := by
      change r - 12 - 1024 * r.tdiv 1036 = r - r.tdiv 1036 * 1024 - 12
      ring
    rw [hslot]
    exact (inside_index_iff fun _ => iff_true_intro (inside_pure _ d)).trans (and_true _).to_iff

theorem inside_readTheOneDisk_iff :
    Inside (readTheOneDiskAccordingToRankInInode env r x) d ↔ RankFits r := by
  rw [readTheOneDiskAccordingToRankInInode, inside_bind_iff, ← inside_dataBlockAtRank_iff env]
  constructor
  · rintro ⟨b, t, hb, -⟩
    exact ⟨b, t, hb⟩
  · rintro ⟨b, t, hb⟩
    exact ⟨b, t, hb, _, t, rfl⟩

theorem inside_writeIntoDisk_iff (content : Block) :
    Inside (writeIntoDiskAcccordingToRankInInode env r x content) d ↔ RankFits r := by
  rw [writeIntoDiskAcccordingToRankInInode, inside_bind_iff, ← inside_dataBlockAtRank_iff env]
  constructor
  · rintro ⟨b, t, hb, -⟩
    exact ⟨b, t, hb⟩
  · rintro ⟨b, t, hb⟩
    exact ⟨b, t, hb, _, _, rfl⟩

/-! ### The reading loop -/

/-- A rank that fits is read, and the disk stays as it is. -/
theorem exists_run_readTheOneDisk (hr : RankFits r) (x : INode) (d : Disk) :
    ∃ c, (readTheOneDiskAccordingToRankInInode env r x).run vdisk d = some (c, d) := by
  obtain ⟨n, rfl⟩ := Int.eq_ofNat_of_zero_le hr.1
  obtain ⟨b, hb⟩ := exists_run_dataBlockAtRank env (show n < 2060 by have := hr.2; omega) x d
  exact ⟨_, by rw [readTheOneDiskAccordingToRankInInode, Prog.run_bind_some _ hb]; rfl⟩

theorem inside_readRanks_iff (n r : ℕ) :
    Inside (readRanks env x (List.range' r n)) d ↔ n = 0 ∨ r + n ≤ 2060 := by
  -- the first rank that does not fit ends the loop
  induction n generalizing r with
  | zero => exact iff_of_true (inside_pure _ d) (.inl rfl)
  | succ n ih =>
    rw [List.range'_succ, readRanks]
    by_cases hr : RankFits (r : ℤ)
    · obtain ⟨c, hc⟩ := exists_run_readTheOneDisk env hr x d
      have hrest : Inside (readRanks env x (List.range' (r + 1) n) >>= fun blocks =>
          pure (c :: blocks)) d ↔ n = 0 ∨ r + 1 + n ≤ 2060 := by
        rw [← ih, inside_bind_iff]
        constructor
        · rintro ⟨blocks, t, h, -⟩
          exact ⟨blocks, t, h⟩
        · rintro ⟨blocks, t, h⟩
          exact ⟨blocks, t, h, _, t, rfl⟩
      rw [inside_bind_of_run hc, hrest]
      have hlt := hr.2
      omega
    · have hnot : ¬ Inside (readTheOneDiskAccordingToRankInInode env r x) d :=
        fun h => hr ((inside_readTheOneDisk_iff env).mp h)
      refine iff_of_false (fun h => hnot ?_) ?_
      · obtain ⟨c, t, hc, -⟩ := inside_bind_iff.mp h
        exact ⟨c, t, hc⟩
      · rw [RankFits] at hr
        omega

/-- A count that is never reached: the loop goes on until it leaves the arrays. -/
theorem not_inside_readLoop_of_neg {size : ℤ} (hsize : size < 0) (fuel : ℕ) (startBias haveRead : ℕ)
    (buffer : ℕ → Byte) : ¬ Inside (readLoop env x size fuel r startBias haveRead buffer) d := by
  induction fuel generalizing r startBias haveRead buffer d with
  | zero =>
    rw [readLoop, if_neg (by omega)]
    rintro ⟨a, t, hrun⟩
    cases hrun
  | succ fuel ih =>
    rw [readLoop, if_neg (by omega)]
    intro h
    obtain ⟨c, t, -, hrest⟩ := inside_bind_iff.mp h
    exact ih _ _ _ hrest

/-- The requests of `fs_read` that stay inside: nothing is asked for, or the first and the last
rank fit; both numbers are taken as `int`s. -/
structure ReadFits (size offset : ℕ) : Prop where
  size_nonneg : 0 ≤ cInt size
  first : cInt size = 0 ∨ RankFits (cInt (offset / 4096 : ℕ))
  last : cInt size = 0 ∨
    RankFits (cInt (offset / 4096 : ℕ) + (offset % 4096 + cInt size - 1) / 4096)

/-- A conversion to `int` does not enlarge a natural number. -/
theorem cInt_le (n : ℕ) : cInt (n : ℤ) ≤ n := by
  rw [cInt, Int.bmod_def]
  omega

/-- One that changes a natural number and is not negative takes at least `2 ^ 32` off. -/
theorem cInt_eq_or_le {n : ℕ} (h : 0 ≤ cInt (n : ℤ)) :
    cInt (n : ℤ) = n ∨ cInt (n : ℤ) + 2 ^ 32 ≤ n := by
  rw [cInt, Int.bmod_def] at h ⊢
  omega

theorem inside_readLoop_iff (size offset : ℕ) (buffer : ℕ → Byte) :
    Inside (readLoop env x (cInt size) size (cInt (offset / 4096 : ℕ)) (offset % 4096) 0 buffer) d ↔
      ReadFits size offset := by
  rcases lt_or_ge (cInt (size : ℤ)) 0 with hneg | hnonneg
  · exact iff_of_false (not_inside_readLoop_of_neg env hneg _ _ _ _) fun h =>
      absurd h.size_nonneg (by omega)
  · have hle := cInt_le size
    obtain ⟨m, hm⟩ := Int.eq_ofNat_of_zero_le hnonneg
    rw [hm] at hle ⊢
    rcases Nat.eq_zero_or_pos m with rfl | hpos
    · rw [readLoop_done]
      exact iff_of_true (inside_pure _ d) ⟨hnonneg, .inl hm, .inl hm⟩
    · have hne : cInt (size : ℤ) ≠ 0 := by omega
      by_cases hfirst : RankFits (cInt (offset / 4096 : ℕ))
      · obtain ⟨ρ, hρ⟩ := Int.eq_ofNat_of_zero_le hfirst.1
        have hlt := hfirst.2
        -- the positions as the loop counts them: those of the converted rank
        have hrank : (4096 * ρ + offset % 4096 + 0) / 4096 = ρ := by omega
        have hbias : (4096 * ρ + offset % 4096 + 0) % 4096 = offset % 4096 := by omega
        have hloop := readLoop_eq env x m (4096 * ρ + offset % 4096) size 0 buffer (Nat.zero_le _)
          (by omega)
        rw [hrank, hbias, Nat.add_zero] at hloop
        rw [hρ, hloop, ranksBetween, if_pos (by omega), inside_bind_iff]
        have hranks := inside_readRanks_iff env (x := x) (d := d)
          ((4096 * ρ + offset % 4096 + m - 1) / 4096 - (4096 * ρ + offset % 4096) / 4096 + 1)
          ((4096 * ρ + offset % 4096) / 4096)
        constructor
        · rintro ⟨blocks, t, hrun, -⟩
          have hfits := hranks.mp ⟨blocks, t, hrun⟩
          refine ⟨hnonneg, .inr hfirst, .inr ?_⟩
          rw [hρ, hm, RankFits]
          omega
        · intro h
          have hlast := h.last.resolve_left hne
          rw [hρ, hm, RankFits] at hlast
          obtain ⟨blocks, t, hrun⟩ := hranks.mpr (.inr (by omega))
          exact ⟨blocks, t, hrun, inside_pure _ t⟩
      · obtain ⟨fuel, rfl⟩ : ∃ fuel, size = fuel + 1 := ⟨size - 1, by omega⟩
        rw [readLoop, if_neg (by omega)]
        refine iff_of_false (fun h => hfirst ?_) fun h => hfirst (h.first.resolve_left hne)
        obtain ⟨c, t, hc, -⟩ := inside_bind_iff.mp h
        exact (inside_readTheOneDisk_iff env).mp ⟨c, t, hc⟩

/-! ### The writing loop -/

/-- The loop over the following blocks. Each round but the last stores 4096 bytes, so the last rank
is as many behind the first as the bytes left fill blocks. -/
theorem inside_writeLoop_iff (buffer : ℕ → Byte) {size : ℕ} (hle : cInt size ≤ size)
    (fuel wrote : ℕ) (hfuel : cInt size - wrote ≤ fuel) :
    Inside (writeLoop env buffer size fuel r wrote x) d ↔
      cInt size ≤ wrote ∨ RankFits r ∧ RankFits (r + (cInt size - wrote - 1) / 4096) := by
  induction fuel generalizing r wrote x d with
  | zero =>
    rw [writeLoop, if_neg (by omega)]
    exact iff_of_true (inside_pure x d) (.inl (by omega))
  | succ fuel ih =>
    rw [writeLoop]
    by_cases hmore : (wrote : ℤ) < cInt size
    · rw [if_pos hmore, fillNext_eq]
      simp only
      rw [inside_bind_of_run (run_takeDatablock env d), inside_bind_iff]
      -- a round stays inside if its rank fits and those behind it do
      have hrest (y : INode) (t : Disk) :
          Inside
            (writeIntoDiskAcccordingToRankInInode env r y (nextBlock buffer size wrote) >>= fun _ =>
            writeLoop env buffer size fuel (r + 1) (wrote + min 4096 (size + 1 - wrote)) y) t ↔
          RankFits r ∧ RankFits (r + (cInt size - wrote - 1) / 4096) := by
        rw [inside_bind_iff]
        constructor
        · rintro ⟨_, u, hwrite, hloop⟩
          have hr := (inside_writeIntoDisk_iff env _).mp ⟨_, u, hwrite⟩
          have hlater := (ih _ (by omega)).mp hloop
          refine ⟨hr, ?_⟩
          unfold RankFits at hr hlater ⊢
          omega
        · rintro ⟨hr, hlast⟩
          obtain ⟨_, u, hwrite⟩ := (inside_writeIntoDisk_iff env (x := y) (d := t)
            (nextBlock buffer size wrote)).mpr hr
          refine ⟨_, u, hwrite, (ih _ (by omega)).mpr ?_⟩
          unfold RankFits at hr hlast ⊢
          omega
      constructor
      · rintro ⟨y, t, -, h⟩
        exact .inr ((hrest y t).mp h)
      · intro h
        have hfits := h.resolve_left (by omega)
        obtain ⟨y, t, hmount⟩ := (inside_mountBlock_iff env (x := x) d.nextData).mpr hfits.1
        exact ⟨y, t, hmount, (hrest y t).mpr hfits⟩
    · rw [if_neg hmore]
      exact iff_of_true (inside_pure x d) (.inl (by omega))

/-- The requests of `fs_write` that stay inside: the first rank fits, and so does the last one. A
write of one byte or more always goes on into a second block. -/
structure WriteFits (size offset : ℕ) : Prop where
  first : RankFits (cInt (offset / 4096 : ℕ))
  last : cInt size ≤ 0 ∨
    RankFits (cInt (offset / 4096 : ℕ) + max 1 ((offset % 4096 + cInt size - 1) / 4096))

/-- What the first copy loop has copied: nothing, or all but the last byte as far as the block
goes. -/
theorem fillFirst_snd (buffer : ℕ → Byte) (size : ℤ) {start : ℕ} (hstart : start < 4096)
    (block : Block) : ((fillFirst buffer size (4096 - start) start 0 block).2 : ℤ) =
      max 0 (min (4096 - (start : ℤ)) (size - 1)) := by
  rcases lt_or_ge 0 size with hpos | hneg
  · obtain ⟨m, rfl⟩ := Int.eq_ofNat_of_zero_le hpos.le
    rw [fillFirst_eq]
    simp only
    omega
  · obtain ⟨bytes, hbytes⟩ : ∃ bytes, 4096 - start = bytes + 1 := ⟨4095 - start, by omega⟩
    rw [hbytes, fillFirst, if_pos (by omega)]
    omega

/-- The ranks of the two loops together; `b` is the position in the first block. -/
theorem writeFits_arith {ρ s b : ℤ} (h0 : 0 ≤ b) (hb : b < 4096) :
    (s ≤ max 0 (min (4096 - b) (s - 1)) ∨
        RankFits (ρ + 1) ∧ RankFits (ρ + 1 + (s - max 0 (min (4096 - b) (s - 1)) - 1) / 4096)) ∧
      RankFits ρ ↔ RankFits ρ ∧ (s ≤ 0 ∨ RankFits (ρ + max 1 ((b + s - 1) / 4096))) := by
  constructor
  · rintro ⟨h, hfirst⟩
    refine ⟨hfirst, ?_⟩
    unfold RankFits at h hfirst ⊢
    omega
  · rintro ⟨hfirst, hlast⟩
    refine ⟨?_, hfirst⟩
    unfold RankFits at hfirst hlast ⊢
    omega

theorem inside_writeBlocks_iff (buffer : ℕ → Byte) (size offset : ℕ) :
    Inside (writeBlocks env buffer size offset x) d ↔ WriteFits size offset := by
  have hle := cInt_le size
  have hstart : offset % 4096 < 4096 := Nat.mod_lt _ (by decide)
  -- from the reading of the first block on
  have hrest (y : INode) (t : Disk) : Inside (do
      let firstWriteIn ← readTheOneDiskAccordingToRankInInode env (cInt (offset / 4096 : ℕ)) y
      let filled := fillFirst buffer (cInt size) (4096 - offset % 4096) (offset % 4096) 0
        firstWriteIn
      writeIntoDiskAcccordingToRankInInode env (cInt (offset / 4096 : ℕ)) y filled.1
      writeLoop env buffer size size (cInt (offset / 4096 : ℕ) + 1) filled.2 y) t ↔
        WriteFits size offset := by
    have hloop (content : Block) (u : Disk) : Inside (writeLoop env buffer size size
        (cInt (offset / 4096 : ℕ) + 1) (fillFirst buffer (cInt size) (4096 - offset % 4096)
          (offset % 4096) 0 content).2 y) u ∧ RankFits (cInt (offset / 4096 : ℕ)) ↔
          WriteFits size offset := by
      have hwrote := fillFirst_snd buffer (cInt size) hstart content
      rw [inside_writeLoop_iff env buffer hle size _ (by omega), hwrote]
      exact (writeFits_arith (by omega) (by omega)).trans
        ⟨fun h => ⟨h.1, h.2⟩, fun h => ⟨h.first, h.last⟩⟩
    by_cases hfirst : RankFits (cInt (offset / 4096 : ℕ))
    · obtain ⟨c, hc⟩ := exists_run_readTheOneDisk env hfirst y t
      obtain ⟨_, u, hwrite⟩ := (inside_writeIntoDisk_iff env (x := y) (d := t)
        (fillFirst buffer (cInt size) (4096 - offset % 4096) (offset % 4096) 0 c).1).mpr hfirst
      rw [inside_bind_of_run hc]
      simp only
      rw [inside_bind_of_run hwrite, ← hloop c u]
      exact (and_iff_left hfirst).symm
    · refine iff_of_false (fun h => hfirst ?_) fun h => hfirst h.first
      obtain ⟨c, u, hc, -⟩ := inside_bind_iff.mp h
      exact (inside_readTheOneDisk_iff env).mp ⟨c, u, hc⟩
  rw [writeBlocks]
  simp only
  by_cases h0 : offset % 4096 = 0
  · rw [if_pos h0, inside_bind_of_run (run_takeDatablock env d), inside_bind_iff]
    constructor
    · rintro ⟨y, t, -, h⟩
      exact (hrest y t).mp h
    · intro h
      obtain ⟨y, t, hmount⟩ := (inside_mountBlock_iff env (x := x) d.nextData).mpr h.first
      exact ⟨y, t, hmount, (hrest y t).mpr h⟩
  · rw [if_neg h0, Prog.pure_eq_ret, Prog.ret_bind]
    exact hrest x d

end InodeFs
