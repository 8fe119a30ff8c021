import InodeFs.Ops.Write

/-!
# Reading from a file

The loop of `fs_read` reads the blocks of the request once each and copies their bytes
(`readLoop_eq`). On a sound disk, where no index block is mounted, the first 524 ranks give the
bytes `Disk.byteAt` shows (`run_fsRead`). A request may go on into the ranks behind them; it still
returns, and what it finds there is not looked at.

The loop is turned inside out: it reads the blocks of the ranks from `offset / 4096` on
(`readRanks`), and then cuts what it has read. The bytes of the answer are given position by
position, as byte `(offset + k) % 4096` of the block of rank `(offset + k) / 4096`.

A rank below 12 without a block is read from data block 0, which holds zeros on a sound disk. From
rank 12 on the missing index block is data block 0, too, so that the numbers found there are 0
again, up to the half of the index block that the reader has a buffer for. This is where the 524
ranks come from.

The answer of a request is the same for every content of memory within these ranks. Behind them the
reader's array of pointers is not filled, and what it finds depends on what was there.
-/

namespace InodeFs

variable (env : Env)

/-- The byte at position `p` of inode `i`. -/
def Disk.byteAt (d : Disk) (i p : ℕ) : Byte := (d.blockAt i (p / 4096)).get (p % 4096)

/-! ### One block -/

/-- The inner loop copies a stretch of the block. -/
theorem copyOut_eq (block : Block) (size bytes i haveRead : ℕ) (buffer : ℕ → Byte)
    (hmore : haveRead < size) :
    copyOut block size bytes i haveRead buffer =
      (haveRead + min bytes (size - haveRead), fun k =>
        if haveRead ≤ k ∧ k < haveRead + min bytes (size - haveRead) then
          block.get (i + (k - haveRead))
        else buffer k) := by
  induction bytes generalizing i haveRead buffer with
  | zero =>
    rw [copyOut, Nat.zero_min, Nat.add_zero]
    refine congrArg _ (funext fun k => (if_neg ?_).symm)
    omega
  | succ bytes ih =>
    have hmin : min (bytes + 1) (size - haveRead) = min bytes (size - (haveRead + 1)) + 1 := by
      omega
    rw [copyOut]
    -- the copying stops at the last byte that was asked for
    by_cases hend : ((haveRead + 1 : ℕ) : ℤ) = size
    · have hone : min bytes (size - (haveRead + 1)) = 0 := by omega
      rw [if_pos hend, hmin, hone]
      refine congrArg _ (funext fun k => ?_)
      rw [Function.update_apply]
      by_cases hk : k = haveRead
      · rw [if_pos hk, if_pos (by omega), hk, Nat.sub_self, Nat.add_zero]
      · rw [if_neg hk, if_neg (by omega)]
    · rw [if_neg hend, ih _ _ _ (by omega), hmin]
      refine Prod.ext (by simp only; omega) (funext fun k => ?_)
      simp only
      by_cases hk : k = haveRead
      · rw [if_neg (by omega), if_pos (by omega), hk, Function.update_self, Nat.sub_self,
          Nat.add_zero]
      · rw [Function.update_of_ne hk]
        by_cases hin : haveRead + 1 ≤ k ∧ k < haveRead + 1 + min bytes (size - (haveRead + 1))
        · rw [if_pos hin, if_pos (by omega)]
          exact congrArg block.get (by omega)
        · rw [if_neg hin, if_neg (by omega)]

/-- Read the blocks at a list of ranks, in order. -/
def readRanks (x : INode) : List ℕ → Fs (List Block)
  | [] => pure []
  | rank :: ranks => do
    let block ← readTheOneDiskAccordingToRankInInode env rank x
    let blocks ← readRanks x ranks
    pure (block :: blocks)

/-- The ranks that hold the positions from `start` up to `stop`. -/
def ranksBetween (start stop : ℕ) : List ℕ :=
  if start < stop then
    List.range' (start / 4096) ((stop - 1) / 4096 - start / 4096 + 1)
  else []

/-- A buffer with the bytes of consecutive blocks, the first of which holds position `start`, laid
over it from position `start` on; index 0 of the buffer is position `offset`. -/
def flatten (offset start stop : ℕ) (blocks : List Block) (buffer : ℕ → Byte) : ℕ → Byte := fun k =>
  if start ≤ offset + k ∧ offset + k < stop then
    (blocks.getD ((offset + k) / 4096 - start / 4096) Block.zero).get ((offset + k) % 4096)
  else buffer k

theorem readLoop_done (x : INode) (size fuel : ℕ) (rank : ℤ) (startBias : ℕ)
    (buffer : ℕ → Byte) :
    readLoop env x size fuel rank startBias size buffer = .ret buffer := by
  cases fuel <;> rw [readLoop, if_pos rfl] <;> rfl

theorem ranksBetween_self (stop : ℕ) : ranksBetween stop stop = [] := if_neg (lt_irrefl _)

theorem flatten_self (offset stop : ℕ) (blocks : List Block) (buffer : ℕ → Byte) :
    flatten offset stop stop blocks buffer = buffer :=
  funext fun _ => if_neg (by omega)

section Cons

variable {offset haveRead size count : ℕ} (hmore : haveRead < size)
  (hcount : count = min (4096 - (offset + haveRead) % 4096) (size - haveRead))
include hmore hcount

/-- The rank of the block at hand, then those behind its bytes. -/
theorem ranksBetween_cons : ranksBetween (offset + haveRead) (offset + size) =
    (offset + haveRead) / 4096 :: ranksBetween (offset + (haveRead + count)) (offset + size) := by
  rw [ranksBetween, if_pos (by omega), List.range'_succ, ranksBetween]
  split
  · have hstart : (offset + (haveRead + count)) / 4096 = (offset + haveRead) / 4096 + 1 := by
      omega
    have hlength : (offset + size - 1) / 4096 - (offset + haveRead) / 4096 =
        (offset + size - 1) / 4096 - ((offset + haveRead) / 4096 + 1) + 1 := by omega
    rw [hstart, ← hlength]
  · have hlast : (offset + size - 1) / 4096 - (offset + haveRead) / 4096 = 0 := by omega
    rw [hlast, List.range'_zero]

/-- The bytes of the block at hand, then those of the blocks behind it. -/
theorem flatten_cons (block : Block) (blocks : List Block) (buffer : ℕ → Byte) :
    flatten offset (offset + (haveRead + count)) (offset + size) blocks (fun k =>
      if haveRead ≤ k ∧ k < haveRead + count then
        block.get ((offset + haveRead) % 4096 + (k - haveRead)) else buffer k) =
    flatten offset (offset + haveRead) (offset + size) (block :: blocks) buffer := by
  funext k
  unfold flatten
  beta_reduce
  by_cases hin : haveRead ≤ k ∧ k < haveRead + count
  · have hzero : (offset + k) / 4096 - (offset + haveRead) / 4096 = 0 := by omega
    have hmod : (offset + haveRead) % 4096 + (k - haveRead) = (offset + k) % 4096 := by omega
    rw [if_neg (by omega), if_pos hin, if_pos (by omega), hzero, List.getD_cons_zero, hmod]
  · rw [if_neg hin]
    by_cases hlater : haveRead + count ≤ k ∧ k < size
    · have hsucc : (offset + k) / 4096 - (offset + haveRead) / 4096 =
          (offset + k) / 4096 - (offset + (haveRead + count)) / 4096 + 1 := by omega
      rw [if_pos (by omega), if_pos (by omega), hsucc, List.getD_cons_succ]
    · rw [if_neg (by omega), if_neg (by omega)]

end Cons

/-- **The loop over the blocks**: the blocks that hold the bytes asked for are read once each, in
order, and their bytes are copied. -/
theorem readLoop_eq (x : INode) (size offset fuel haveRead : ℕ) (buffer : ℕ → Byte)
    (hhave : haveRead ≤ size) (hfuel : size - haveRead ≤ fuel) :
    readLoop env x size fuel (((offset + haveRead) / 4096 : ℕ) : ℤ) ((offset + haveRead) % 4096)
        haveRead buffer =
      readRanks env x (ranksBetween (offset + haveRead) (offset + size)) >>= fun blocks =>
        pure (flatten offset (offset + haveRead) (offset + size) blocks buffer) := by
  induction fuel generalizing haveRead buffer with
  | zero =>
    obtain rfl : haveRead = size := by omega
    rw [readLoop_done, ranksBetween_self, readRanks, Prog.pure_eq_ret, Prog.ret_bind,
      flatten_self, Prog.pure_eq_ret]
  | succ fuel ih =>
    by_cases hdone : haveRead = size
    · subst hdone
      rw [readLoop_done, ranksBetween_self, readRanks, Prog.pure_eq_ret, Prog.ret_bind,
        flatten_self, Prog.pure_eq_ret]
    · have hmore : haveRead < size := by omega
      have hne : ¬ (haveRead : ℤ) = size := by omega
      -- one round copies `count` bytes out of the block of its rank
      set count := min (4096 - (offset + haveRead) % 4096) (size - haveRead) with hcount
      rw [readLoop, if_neg hne, ranksBetween_cons hmore hcount, readRanks]
      simp only [Prog.bind_assoc, copyOut_eq _ _ _ _ _ _ hmore, ← hcount]
      refine congrArg _ (funext fun block => ?_)
      have hbuffer := flatten_cons hmore hcount block
      by_cases hlast : haveRead + count = size
      · rw [hlast, readLoop_done, ranksBetween_self, readRanks]
        simp only [Prog.pure_eq_ret, Prog.ret_bind]
        rw [← hbuffer, hlast, flatten_self]
      · -- the request goes on at the start of the next block
        have hnext : (((offset + (haveRead + count)) / 4096 : ℕ) : ℤ) =
            (((offset + haveRead) / 4096 : ℕ) : ℤ) + 1 := by omega
        have hzero : (offset + (haveRead + count)) % 4096 = 0 := by omega
        have hrest := ih (haveRead + count) (fun k => if haveRead ≤ k ∧ k < haveRead + count then
          block.get ((offset + haveRead) % 4096 + (k - haveRead)) else buffer k) (by omega)
            (by omega)
        rw [hnext, hzero] at hrest
        rw [hrest]
        simp only [Prog.pure_eq_ret, Prog.ret_bind, hbuffer]

/-! ### The run of a read -/

/-- Every rank an inode can address leads to some number. -/
theorem exists_run_dataBlockAtRank {r : ℕ} (hr : r < 2060) (x : INode) (d : Disk) :
    ∃ b, (dataBlockAtRank env r x).run vdisk d = some (b, d) := by
  rw [dataBlockAtRank]
  by_cases h12 : (r : ℤ) < 12
  · have h12' : r < 12 := by omega
    rw [if_pos h12, INode.index_directPointer h12', Prog.ret_bind]
    exact ⟨_, rfl⟩
  · have hindex : r / 1036 < 2 := by omega
    have htransfer : r - r / 1036 * 1024 - 12 < 1024 := by omega
    have htdiv : (r : ℤ).tdiv (1024 + 12) = ((r / 1036 : ℕ) : ℤ) := rfl
    have hcast : (r : ℤ) - ((r / 1036 : ℕ) : ℤ) * 1024 - 12 =
        ((r - r / 1036 * 1024 - 12 : ℕ) : ℤ) := by omega
    rw [if_neg h12]
    simp only [htdiv, hcast]
    rw [Prog.index_natCast _ hindex, Prog.ret_bind, readPointers, Prog.bind_assoc]
    obtain ⟨c, hc⟩ := exists_run_envRead env
      (datablockFindDiskId (x.indirectPointer ⟨r / 1036, hindex⟩).toInt) d
    rw [Prog.run_bind_some _ hc, Prog.pure_eq_ret, Prog.ret_bind, Prog.index_natCast _ htransfer,
      Prog.ret_bind]
    exact ⟨_, rfl⟩

/-- Where block 0 stands for the index block, its first half leads to block 0. -/
theorem run_dataBlockAtRank_unmounted {r : ℕ} (hr : 12 ≤ r) (hr' : r < 524) {x : INode}
    (hx : ∀ k, x.indirectPointer k = 0) {d : Disk} (hzero : d.data 0 = Block.zero) :
    (dataBlockAtRank env r x).run vdisk d = some (((0 : ℕ) : ℤ), d) := by
  have hindex : (r : ℤ).tdiv (1024 + 12) = ((0 : ℕ) : ℤ) := by
    have htdiv : (r : ℤ).tdiv (1024 + 12) = ((r / 1036 : ℕ) : ℤ) := rfl
    rw [htdiv]
    exact congrArg Nat.cast (by omega)
  have hcast : (r : ℤ) - ((0 : ℕ) : ℤ) * 1024 - 12 = ((r - 12 : ℕ) : ℤ) := by omega
  have hnumber : (0 : BitVec 32).toInt = ((0 : ℕ) : ℤ) := rfl
  have hlow : r - 12 < 512 := by omega
  rw [dataBlockAtRank, if_neg (by omega)]
  simp only [hindex, hcast]
  rw [Prog.index_natCast _ (by decide), Prog.ret_bind, hx, hnumber, readPointers, Prog.bind_assoc,
    Prog.run_bind_some _ (run_readData env (by decide) d), Prog.pure_eq_ret, Prog.ret_bind,
    Prog.index_natCast _ (by omega), Prog.ret_bind, dif_pos hlow, hzero, Block.pointers_zero]
  rfl

/-- The block at a rank, as the views show it, or some block behind the ranks they show. -/
theorem Disk.Sound.exists_run_readTheOneDisk {d : Disk} (hd : d.Sound) {i r : ℕ} (hi : i < 32768)
    (hr : r < 2060) :
    ∃ c, (readTheOneDiskAccordingToRankInInode env r (d.inode i)).run vdisk d = some (c, d) ∧
      (r < 524 → c = d.blockAt i r) := by
  by_cases h12 : r < 12
  · exact ⟨_, run_readTheOneDisk env h12 (hd.pointers.lt i hi r) d, fun _ => rfl⟩
  · by_cases h524 : r < 524
    · refine ⟨d.data 0, ?_, fun _ => ?_⟩
      · rw [readTheOneDiskAccordingToRankInInode, Prog.run_bind_some _
          (run_dataBlockAtRank_unmounted env (by omega) h524 (hd.pointers.indirect i hi) hd.zero),
          run_readData env (by decide)]
      · rw [Disk.blockAt, INode.ptr, dif_neg h12]
    · obtain ⟨b, hb⟩ := exists_run_dataBlockAtRank env hr (d.inode i) d
      obtain ⟨c, hc⟩ := exists_run_envRead env (datablockFindDiskId b) d
      refine ⟨c, ?_, fun h => absurd h h524⟩
      rw [readTheOneDiskAccordingToRankInInode, Prog.run_bind_some _ hb, hc]

/-- The blocks at consecutive ranks that can be read; below `top` they are those of `f`. -/
theorem run_readRanks {d : Disk} {x : INode} {top : ℕ} {f : ℕ → Block} (n r : ℕ)
    (h : ∀ q, r ≤ q → q < r + n → ∃ c, (readTheOneDiskAccordingToRankInInode env q x).run vdisk d =
      some (c, d) ∧ (q < top → c = f q)) :
    ∃ blocks, (readRanks env x (List.range' r n)).run vdisk d = some (blocks, d) ∧
      ∀ j < n, r + j < top → blocks.getD j Block.zero = f (r + j) := by
  induction n generalizing r with
  | zero => exact ⟨[], rfl, fun j hj => absurd hj (Nat.not_lt_zero j)⟩
  | succ n ih =>
    obtain ⟨c, hc, hdata⟩ := h r le_rfl (by omega)
    obtain ⟨blocks, hblocks, hrest⟩ := ih (r + 1) fun q hq hq' => h q (by omega) (by omega)
    refine ⟨c :: blocks, ?_, fun j hj hlt => ?_⟩
    · rw [List.range'_succ, readRanks, Prog.run_bind_some _ hc, Prog.run_bind_some _ hblocks,
        Prog.pure_eq_ret, Prog.run_ret]
    · cases j with
      | zero => exact hdata hlt
      | succ j =>
        have hsucc : r + (j + 1) = r + 1 + j := by omega
        rw [List.getD_cons_succ, hsucc]
        exact hrest j (by omega) (by omega)

theorem Disk.Sound.run_readRanks {d : Disk} (hd : d.Sound) {i : ℕ} (hi : i < 32768) (n r : ℕ)
    (hr : r + n ≤ 2060) :
    ∃ blocks, (readRanks env (d.inode i) (List.range' r n)).run vdisk d = some (blocks, d) ∧
      ∀ j < n, r + j < 524 → blocks.getD j Block.zero = d.blockAt i (r + j) :=
  InodeFs.run_readRanks env n r fun q _ hq => hd.exists_run_readTheOneDisk env hi (by omega)

/-- `fs_read` of a request whose ranks can be read, on a disk of which only the paths are known. -/
theorem Disk.Walkable.run_fsRead_of_ranks {d : Disk} (hd : d.Walkable) {as : List Name} {i : ℕ}
    (hresolve : d.graph.resolve 4 (as.map Name.fileName) = some i) {size offset top : ℕ}
    (hend : offset + size ≤ 8437760)
    (h : ∀ q, 4096 * q < offset + size → ∃ c, (readTheOneDiskAccordingToRankInInode env q
      (d.inode i)).run vdisk d = some (c, d) ∧ (q < top → c = d.blockAt i q))
    (behind buffer : ℕ → Byte) :
    ∃ r out, (fsRead env (pathString as behind) buffer size offset).run vdisk d =
        some ((r, out), d) ∧
      ∀ k < size, offset + k < 4096 * top → out k = d.byteAt i (offset + k) := by
  have hpath : (pathString as behind).chars = pathChars as := rfl
  have hsize : cInt (size : ℤ) = size := cInt_natCast (by omega)
  have hrank : cInt ((offset / 4096 : ℕ) : ℤ) = ((offset / 4096 : ℕ) : ℤ) := cInt_natCast (by omega)
  have hloop := readLoop_eq env (d.inode i) size offset size 0 buffer (Nat.zero_le _) (by omega)
  rw [Nat.add_zero] at hloop
  -- the blocks that are read, up to the ranks an inode has
  obtain ⟨blocks, hblocks, hdata⟩ : ∃ blocks,
      (readRanks env (d.inode i) (ranksBetween offset (offset + size))).run vdisk d =
        some (blocks, d) ∧ ∀ k < size, offset + k < 4096 * top →
          blocks.getD ((offset + k) / 4096 - offset / 4096) Block.zero =
            d.blockAt i ((offset + k) / 4096) := by
    unfold ranksBetween
    split
    · obtain ⟨blocks, hrun, hat⟩ := InodeFs.run_readRanks env (f := d.blockAt i)
        ((offset + size - 1) / 4096 - offset / 4096 + 1) (offset / 4096)
        fun q _ hq => h q (by omega)
      refine ⟨blocks, hrun, fun k hk hpos => ?_⟩
      have hrank : offset / 4096 + ((offset + k) / 4096 - offset / 4096) = (offset + k) / 4096 := by
        omega
      rw [hat _ (by omega) (by omega), hrank]
    · exact ⟨[], rfl, fun k hk => absurd hk (by omega)⟩
  refine ⟨getMin size (cInt (d.inode i).stSize.toInt),
    flatten offset offset (offset + size) blocks buffer, ?_, fun k hk hpos => ?_⟩
  · rw [fsRead, hpath, hsize, hrank,
      Prog.run_bind_some _ (hd.run_understandThePath env hresolve),
      Prog.run_bind_some _ (run_justReadInodeFromDisk env (hd.resolve_lt (by decide) hresolve) d),
      hloop, Prog.bind_assoc, Prog.run_bind_some _ hblocks]
    rfl
  · rw [flatten, if_pos (by omega), hdata k hk hpos, Disk.byteAt]

/-- **`fs_read`** of a request within the blocks an inode can address. -/
theorem run_fsRead {d : Disk} (hd : d.Sound) {as : List Name} {i : ℕ} (hi : i < 32768)
    (hresolve : d.graph.resolve 4 (as.map Name.fileName) = some i) (behind buffer : ℕ → Byte)
    {size offset : ℕ} (hend : offset + size ≤ 8437760) :
    ∃ r out, (fsRead env (pathString as behind) buffer size offset).run vdisk d =
        some ((r, out), d) ∧
      ∀ k < size, offset + k < 2146304 → out k = d.byteAt i (offset + k) :=
  hd.walkable.run_fsRead_of_ranks env hresolve hend
    (fun q hq => hd.exists_run_readTheOneDisk env hi (by omega)) behind buffer

/-- `fs_read` of direct blocks. -/
theorem Disk.Walkable.run_fsRead_direct {d : Disk} (hd : d.Walkable) {as : List Name} {i : ℕ}
    (hresolve : d.graph.resolve 4 (as.map Name.fileName) = some i)
    (hptr : ∀ q < 12, (d.inode i).ptr q < 64508) (behind buffer : ℕ → Byte) {size offset : ℕ}
    (hend : offset + size ≤ 49152) :
    ∃ r out, (fsRead env (pathString as behind) buffer size offset).run vdisk d =
        some ((r, out), d) ∧ ∀ k < size, out k = d.byteAt i (offset + k) := by
  have hread (q : ℕ) (hq : 4096 * q < offset + size) :
      ∃ c, (readTheOneDiskAccordingToRankInInode env q (d.inode i)).run vdisk d = some (c, d) ∧
        (q < 12 → c = d.blockAt i q) :=
    ⟨_, run_readTheOneDisk env (by omega) (hptr q (by omega)) d, fun _ => rfl⟩
  obtain ⟨r, out, hrun, hout⟩ := hd.run_fsRead_of_ranks env hresolve (by omega) hread behind buffer
  exact ⟨r, out, hrun, fun k hk => hout k hk (by omega)⟩

/-- `fs_read` of one byte, on a disk of which only the paths are known. -/
theorem Disk.Walkable.run_fsRead_byte {d : Disk} (hd : d.Walkable) {as : List Name} {i k : ℕ}
    (hresolve : d.graph.resolve 4 (as.map Name.fileName) = some i) (hk : k < 8437760) {c : Block}
    (hread : (readTheOneDiskAccordingToRankInInode env (k / 4096 : ℕ) (d.inode i)).run vdisk d =
      some (c, d)) (behind buffer : ℕ → Byte) :
    ∃ r out, (fsRead env (pathString as behind) buffer 1 k).run vdisk d = some ((r, out), d) ∧
      out 0 = c.get (k % 4096) := by
  have hi := hd.resolve_lt (by decide) hresolve
  have hpath : (pathString as behind).chars = pathChars as := rfl
  have hsize : cInt ((1 : ℕ) : ℤ) = ((1 : ℕ) : ℤ) := cInt_natCast (by decide)
  have hrank : cInt ((k / 4096 : ℕ) : ℤ) = ((k / 4096 : ℕ) : ℤ) := cInt_natCast (by omega)
  have hloop := readLoop_eq env (d.inode i) 1 k 1 0 buffer (Nat.zero_le _) le_rfl
  rw [Nat.add_zero] at hloop
  have hranks : ranksBetween k (k + 1) = [k / 4096] := by
    rw [ranksBetween, if_pos (Nat.lt_succ_self k), Nat.add_sub_cancel, Nat.sub_self]
    rfl
  have hblocks : (readRanks env (d.inode i) [k / 4096]).run vdisk d = some ([c], d) := by
    rw [readRanks, Prog.run_bind_some _ hread]
    rfl
  refine ⟨getMin (1 : ℕ) (cInt (d.inode i).stSize.toInt), flatten k k (k + 1) [c] buffer, ?_, ?_⟩
  · rw [fsRead, hpath, hsize, hrank, Prog.run_bind_some _ (hd.run_understandThePath env hresolve),
      Prog.run_bind_some _ (run_justReadInodeFromDisk env hi d), hloop, hranks, Prog.bind_assoc,
      Prog.run_bind_some _ hblocks]
    rfl
  · rw [flatten, if_pos (by omega), Nat.add_zero, Nat.sub_self, List.getD_cons_zero]

end InodeFs
