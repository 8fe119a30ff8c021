import InodeFs.Properties.Contents

/-!
# Writing

What `fs_write` does to the bytes of the file and of all others. The code mounts a fresh block for
the first rank of a write only where that starts on a block boundary, copies into the first block up
to one byte before the end, and stores the rest in fresh blocks at the following ranks. The size
becomes the end of the write. So

* a write that stays within its first block drops its last byte;
* a write that ends before the end of the file cuts it there;
* a write that starts in a hole goes to data block 0, from which all holes are read.

The bytes after a write to direct blocks are given by `Disk.byteAt_written_front` (before it),
`Disk.byteAt_written_range` and `Disk.byteAt_written_end` (at its positions), for writes that start
in a hole (`Disk.written_hole`) and for all others (`Disk.FileChange.written`) alike. From them:

* `read_back_iff` : `fs_read` gives back what was written exactly when the write goes on into the
  block behind its first one, or the last byte was there before.
* `write_covers_iff` : nothing but what is written changes exactly when the write reaches the end
  of the file, and no hole before it shows what it puts into data block 0.
* `write_isolated` : in a run of safe calls no write touches another file or a directory.
-/

namespace InodeFs

/-! ### The bytes of the file -/

namespace Disk

variable {d : Disk} {i size offset : ℕ}

/-- What a write within its first block leaves at its last position: the byte of the block that is
mounted, or the byte of the file. -/
def underLast (d : Disk) (i size offset : ℕ) : Byte :=
  if offset % 4096 = 0 then (d.data d.nextData).get (size - 1) else d.byteAt i (offset + size - 1)

/-- Position `k` shares a hole with a write: neither has a block, both are served from data block 0,
and the first copy loop of the write fills it there. -/
def SharesHole (d : Disk) (i size offset k : ℕ) : Prop :=
  offset % 4096 ≠ 0 ∧ (d.inode i).ptr (offset / 4096) = 0 ∧ (d.inode i).ptr (k / 4096) = 0 ∧
    offset % 4096 ≤ k % 4096 ∧ k % 4096 < offset % 4096 + firstCount size offset

/-- A write that fits starts in a hole, or it is one that `CanWrite` allows. -/
theorem Fits.hole_or_canWrite (h : d.Fits size offset) (i : ℕ) :
    (offset % 4096 ≠ 0 ∧ (d.inode i).ptr (offset / 4096) = 0) ∨ d.CanWrite i size offset := by
  by_cases hole : offset % 4096 ≠ 0 ∧ (d.inode i).ptr (offset / 4096) = 0
  · exact .inl hole
  · exact .inr ⟨h.rank_le, fun h0 hptr => hole ⟨h0, hptr⟩, h.free⟩

section Bytes

variable (hd : d.Sound) (hfile : d.IsFile i) (h : d.CanWrite i size offset) (buffer : ℕ → Byte)
include hd hfile h

/-- The bytes before the write stay. -/
theorem byteAt_written_before {k : ℕ} (hk : k < offset) :
    (d.written i buffer size offset).byteAt i k = d.byteAt i k := by
  rw [byteAt, blockAt_written hd hfile h, if_neg (by omega)]
  split
  · next hq =>
    rw [Block.get_paste _ _ _ _ (by omega), if_neg (by omega), firstMounted, if_neg (by omega),
      byteAt, hq]
  · rfl

/-- The bytes written are there, up to the last one of a write within its first block. -/
theorem byteAt_written {k : ℕ} (hk : k < size)
    (hlast : 4097 - offset % 4096 ≤ size ∨ k + 1 < size) :
    (d.written i buffer size offset).byteAt i (offset + k) = buffer k := by
  have hfirst : firstCount size offset = min (4096 - offset % 4096) (size - 1) := rfl
  have hnext : nextCount size offset = (size - firstCount size offset + 4095) / 4096 := rfl
  rw [byteAt, blockAt_written hd hfile h]
  by_cases hq : (offset + k) / 4096 = offset / 4096
  · rw [if_neg (by omega), if_pos hq, Block.get_paste _ _ _ _ (by omega), if_pos (by omega)]
    exact congrArg buffer (by omega)
  · rw [if_pos (by omega), nextBlock, Block.get_paste _ _ _ _ (by omega), if_pos (by omega)]
    exact congrArg buffer (by omega)

/-- The last byte of a write within its first block is dropped. -/
theorem byteAt_written_last (hpos : 1 ≤ size) (hsize : size ≤ 4096 - offset % 4096) :
    (d.written i buffer size offset).byteAt i (offset + (size - 1)) =
      d.underLast i size offset := by
  have hfirst : firstCount size offset = size - 1 := Nat.min_eq_right (by omega)
  have hq : (offset + (size - 1)) / 4096 = offset / 4096 := by omega
  rw [byteAt, blockAt_written hd hfile h, if_neg (by omega), if_pos hq,
    Block.get_paste _ _ _ _ (by omega), if_neg (by omega), underLast, firstMounted]
  split
  · rw [blockAt_mountBlock hfile.lt h.fits.rank_lt d.nextData_lt, if_pos rfl]
    exact congrArg _ (by omega)
  · rw [byteAt, ← Nat.add_sub_assoc hpos, ← hq, Nat.add_sub_assoc hpos]

end Bytes

/-! ### Holes

A rank without a block is served from data block 0, and a write that starts at one changes that
block. -/

/-- A position that shares the hole reads as 0. -/
theorem Sound.byteAt_of_sharesHole (hd : d.Sound) {k : ℕ} (h : d.SharesHole i size offset k) :
    d.byteAt i k = 0 := by
  rw [byteAt, blockAt, h.2.2.1, hd.zero, Block.get]
  split
  · rfl
  · rfl

/-- Data block 0 belongs to no directory. -/
theorem Sound.graph_setData_zero (hd : d.Sound) (content : Block) :
    (d.setData 0 content).graph = d.graph := by
  funext p
  by_cases hp : p < 32768
  · have hinode := inode_setData (d := d) hp 0 content
    refine graph_congr ?_ fun hdir => ?_
    · rw [IsDir, IsDir, hinode]
    · rw [hinode]
      refine entriesOf_eq_of_blocks rfl (fun _ _ => rfl) fun r hr => ?_
      rw [data_setData, if_neg ((hd.directories.dir p hdir).block r hr)]
  · rw [graph_of_not_isDir fun h => hp h.1, graph_of_not_isDir fun h => hp h.1]

theorem Sound.walkable_setData_zero (hd : d.Sound) (content : Block) :
    (d.setData 0 content).Walkable where
  count_le p hp := by
    rw [inode_setData hp.1]
    exact hd.walkable.count_le p ⟨hp.1, inode_setData hp.1 0 content ▸ hp.2⟩
  ptr_lt p hp r hr := by
    rw [inode_setData hp.1]
    exact hd.pointers.lt p hp.1 r
  number_lt := by
    rw [hd.graph_setData_zero]
    exact hd.walkable.number_lt

section Hole

variable (hd : d.Sound) (hfile : d.IsFile i) (h : d.Fits size offset) (buffer : ℕ → Byte)
  (h0 : offset % 4096 ≠ 0) (hole : (d.inode i).ptr (offset / 4096) = 0)
include hd hfile h h0 hole

/-- A write into a hole stores its following blocks, and its first bytes in data block 0. -/
theorem written_hole : ∃ e, FileChange i (offset / 4096 + 1)
      (offset / 4096 + 1 + nextCount size offset) d e ∧
    (∀ q, e.blockAt i q =
      if offset / 4096 + 1 ≤ q ∧ q < offset / 4096 + 1 + nextCount size offset then
        nextBlock buffer size (firstCount size offset + 4096 * (q - (offset / 4096 + 1)))
      else d.blockAt i q) ∧
    d.written i buffer size offset =
      e.setData 0 (Block.zero.paste (offset % 4096) (firstCount size offset) buffer) := by
  have hfree : nextCount size offset ≤ d.freeBlocks := by have := h.free; omega
  have hend := h.end_le
  have hsize : (BitVec.ofNat 64 (offset + size)).toNat = offset + size := by
    rw [BitVec.toNat_ofNat]
    exact Nat.mod_eq_of_lt (by omega)
  obtain ⟨hstore, hat, -⟩ := hd.storeBlocks hfile
    (fun k => nextBlock buffer size (firstCount size offset + 4096 * k)) h.rank_le hfree
  have hblocks := INode.sameBlocks_withSize
    ((d.storeBlocks i (offset / 4096 + 1) (nextCount size offset) fun k =>
      nextBlock buffer size (firstCount size offset + 4096 * k)).inode i)
    (BitVec.ofNat 64 (offset + size))
  refine ⟨_, hstore.trans (.setInode hstore.sound (hstore.isFile hfile) hblocks
    (hsize.trans_le (by omega)) _) hfile.lt (by omega) le_rfl, fun q => ?_, ?_⟩
  · rw [blockAt_setInode hfile.lt hblocks, hat]
  · rw [written, filled, firstFilled, firstMounted, if_neg h0, hole, blockAt, hole, hd.zero,
      hd.storeBlocks_setData_zero hfile _ h.rank_le hfree, inode_setData hfile.lt,
      setData_setInode hfile.lt]

/-- The blocks of the file after a write into a hole: ranks without a block show data block 0. -/
theorem blockAt_written_hole (q : ℕ) : (d.written i buffer size offset).blockAt i q =
    if offset / 4096 + 1 ≤ q ∧ q < offset / 4096 + 1 + nextCount size offset then
      nextBlock buffer size (firstCount size offset + 4096 * (q - (offset / 4096 + 1)))
    else if (d.inode i).ptr q = 0 then
      Block.zero.paste (offset % 4096) (firstCount size offset) buffer
    else d.blockAt i q := by
  obtain ⟨e, hchange, hat, hwritten⟩ := written_hole hd hfile h buffer h0 hole
  rw [hwritten, blockAt, inode_setData hfile.lt, data_setData]
  by_cases hq : offset / 4096 + 1 ≤ q ∧ q < offset / 4096 + 1 + nextCount size offset
  · have hne : (e.inode i).ptr q ≠ 0 :=
      hd.pointers.ne_zero_of_free (hchange.ptr_new q hq.1 hq.2)
    rw [if_neg hne, if_pos hq, ← blockAt, hat, if_pos hq]
  · have hsame := hchange.ptr_same q hq
    rw [if_neg hq, hsame]
    refine if_congr Iff.rfl rfl ?_
    rw [← hsame, ← blockAt, hat, if_neg hq]

end Hole

/-! ### Every write to direct blocks -/

section Written

variable (hd : d.Sound) (hfile : d.IsFile i) (h : d.Fits size offset) (buffer : ℕ → Byte)
include hd hfile h

/-- Paths lead where they led before, and the file's direct blocks exist. -/
theorem walkable_written : (d.written i buffer size offset).Walkable ∧
    (d.written i buffer size offset).graph = d.graph ∧
    ∀ q < 12, ((d.written i buffer size offset).inode i).ptr q < 64508 := by
  rcases h.hole_or_canWrite i with ⟨h0, hole⟩ | hw
  · obtain ⟨e, hchange, -, hwritten⟩ := written_hole hd hfile h buffer h0 hole
    refine ⟨hwritten ▸ hchange.sound.walkable_setData_zero _,
      by rw [hwritten, hchange.sound.graph_setData_zero, hchange.graph], fun q _ => ?_⟩
    rw [hwritten, inode_setData hfile.lt]
    exact hchange.sound.pointers.lt i hfile.lt q
  · have hchange := FileChange.written hd hfile hw buffer
    exact ⟨hchange.sound.walkable, hchange.graph,
      fun q _ => hchange.sound.pointers.lt i hfile.lt q⟩

/-- The bytes before the write stay, but for those that share its hole. -/
theorem byteAt_written_front {k : ℕ} (hk : k < offset) :
    (d.SharesHole i size offset k →
      (d.written i buffer size offset).byteAt i k = buffer (k % 4096 - offset % 4096)) ∧
    (¬ d.SharesHole i size offset k →
      (d.written i buffer size offset).byteAt i k = d.byteAt i k) := by
  rcases h.hole_or_canWrite i with ⟨h0, hole⟩ | hw
  · rw [byteAt, blockAt_written_hole hd hfile h buffer h0 hole, if_neg (by omega)]
    constructor
    · rintro ⟨-, -, hptr, hle, hlt⟩
      rw [if_pos hptr, Block.get_paste _ _ _ _ (by omega), if_pos ⟨hle, hlt⟩]
    · intro hnot
      split
      · next hptr =>
        rw [Block.get_paste _ _ _ _ (by omega),
          if_neg fun hin => hnot ⟨h0, hole, hptr, hin.1, hin.2⟩, byteAt, blockAt, hptr, hd.zero]
      · rfl
  · exact ⟨fun hshare => absurd hshare.2.1 (hw.first hshare.1),
      fun _ => byteAt_written_before hd hfile hw buffer hk⟩

/-- The bytes written are there, up to the last one of a write within its first block. -/
theorem byteAt_written_range {k : ℕ} (hk : k < size)
    (hlast : 4097 - offset % 4096 ≤ size ∨ k + 1 < size) :
    (d.written i buffer size offset).byteAt i (offset + k) = buffer k := by
  rcases h.hole_or_canWrite i with ⟨h0, hole⟩ | hw
  · have hfirst : firstCount size offset = min (4096 - offset % 4096) (size - 1) := rfl
    have hnext : nextCount size offset = (size - firstCount size offset + 4095) / 4096 := rfl
    rw [byteAt, blockAt_written_hole hd hfile h buffer h0 hole]
    by_cases hq : (offset + k) / 4096 = offset / 4096
    · rw [if_neg (by omega), hq, if_pos hole, Block.get_paste _ _ _ _ (by omega),
        if_pos (by omega)]
      exact congrArg buffer (by omega)
    · rw [if_pos (by omega), nextBlock, Block.get_paste _ _ _ _ (by omega), if_pos (by omega)]
      exact congrArg buffer (by omega)
  · exact byteAt_written hd hfile hw buffer hk hlast

/-- The last byte of a write within its first block is dropped. -/
theorem byteAt_written_end (hpos : 1 ≤ size) (hsize : size ≤ 4096 - offset % 4096) :
    (d.written i buffer size offset).byteAt i (offset + (size - 1)) =
      d.underLast i size offset := by
  rcases h.hole_or_canWrite i with ⟨h0, hole⟩ | hw
  · have hfirst : firstCount size offset = size - 1 := Nat.min_eq_right (by omega)
    have hq : (offset + (size - 1)) / 4096 = offset / 4096 := by omega
    have hq' : (offset + size - 1) / 4096 = offset / 4096 := by omega
    rw [byteAt, blockAt_written_hole hd hfile h buffer h0 hole, if_neg (by omega), hq, if_pos hole,
      Block.get_paste _ _ _ _ (by omega), if_neg (by omega), underLast, if_neg h0, byteAt, blockAt,
      hq', hole, hd.zero, Nat.add_sub_assoc hpos]
  · exact byteAt_written_last hd hfile hw buffer hpos hsize

end Written

end Disk

/-- `fs_write` of a write to direct blocks. -/
theorem run_fsWrite_of_fits (env : Env) {d : Disk} {as : List Name} {i size offset : ℕ}
    (hd : d.Sound) (hfile : d.IsFile i) (h : d.Fits size offset) (buffer : ℕ → Byte)
    (hi : d.graph.resolve 4 (fileNames as) = some i) (behind : ℕ → Byte) :
    (fsWrite env (pathString as behind) buffer size offset).run vdisk d =
      some ((size : ℤ), d.written i buffer size offset) := by
  obtain ⟨hwalk, hgraph, -⟩ := Disk.walkable_written hd hfile h buffer
  exact run_fsWrite_of_walkable env hd hfile h buffer hi behind hwalk (by rw [hgraph, hi])

/-- What `fs_read` shows of the file afterwards. -/
theorem readsAs_written (env : Env) {d : Disk} {as : List Name} {i size offset start stop : ℕ}
    (hd : d.Sound) (hfile : d.IsFile i) (h : d.Fits size offset) (buffer : ℕ → Byte)
    (hi : d.graph.resolve 4 (fileNames as) = some i) (behind : ℕ → Byte) (hstop : stop ≤ 49152) :
    ReadsAs env (d.written i buffer size offset) (pathString as behind) start stop
      ((d.written i buffer size offset).byteAt i) := by
  obtain ⟨hwalk, hgraph, hptr⟩ := Disk.walkable_written hd hfile h buffer
  exact hwalk.readsAs_direct env (by rw [hgraph, hi]) hptr behind hstop

/-! ### Reading back -/

/-- `fs_write` returns, and `fs_read` of the same range gives back the buffer. -/
def ReadsBack (env : Env) (behind : ℕ → Byte) (d : Disk) (as : List Name) (buffer : ℕ → Byte)
    (size offset : ℕ) : Prop :=
  ∃ d', (fsWrite env (pathString as behind) buffer size offset).run vdisk d =
      some ((size : ℤ), d') ∧
    ∀ memory, ∃ r out, (fsRead env (pathString as behind) memory size offset).run vdisk d' =
      some ((r, out), d') ∧ ∀ k < size, out k = buffer k

section Back

variable {d : Disk} {as : List Name} {i size offset : ℕ}

/-- **Read undoes write** exactly when the write goes on into the block behind its first one, or
the byte at its last position is the one to be written already. -/
theorem read_back_iff (env : Env) (behind : ℕ → Byte) (h : SafeRun d)
    (hi : d.graph.resolve 4 (fileNames as) = some i) (hfile : d.IsFile i)
    (hw : d.Fits size offset) (hsize : 1 ≤ size) (buffer : ℕ → Byte) :
    ReadsBack env behind d as buffer size offset ↔
      4097 - offset % 4096 ≤ size ∨ d.underLast i size offset = buffer (size - 1) := by
  have hd := h.sound
  have hrun := run_fsWrite_of_fits env hd hfile hw buffer hi behind
  have hreads (memory : ℕ → Byte) :=
    readsAs_written env hd hfile hw buffer hi behind hw.end_le memory size offset le_rfl le_rfl
  constructor
  · rintro ⟨d', hrun', hback⟩
    obtain ⟨-, rfl⟩ := Prog.run_inj vdisk hrun hrun'
    obtain ⟨r, out, hread, hout⟩ := hback fun _ => 0
    obtain ⟨r', out', hread', hout'⟩ := hreads fun _ => 0
    rw [hread] at hread'
    obtain ⟨-, rfl⟩ := Prod.mk.inj (Prod.mk.inj (Option.some.inj hread')).1
    refine or_iff_not_imp_left.mpr fun hwithin => ?_
    rw [← hout (size - 1) (by omega), hout' (size - 1) (by omega),
      Disk.byteAt_written_end hd hfile hw buffer hsize (by omega)]
  · intro hcond
    refine ⟨_, hrun, fun memory => ?_⟩
    obtain ⟨r, out, hread, hout⟩ := hreads memory
    refine ⟨r, out, hread, fun k hk => ?_⟩
    rw [hout k hk]
    by_cases hlast : 4097 - offset % 4096 ≤ size ∨ k + 1 < size
    · exact Disk.byteAt_written_range hd hfile hw buffer hk hlast
    · obtain rfl : k = size - 1 := by omega
      rw [Disk.byteAt_written_end hd hfile hw buffer hsize (by omega)]
      exact hcond.resolve_left fun hle => hlast (.inl hle)

end Back

/-! ### What a write covers -/

/-- `fs_write` grows the file to the end of the write at most, and leaves alone the bytes before
and behind it. -/
def WriteCovers (env : Env) (behind : ℕ → Byte) (d : Disk) (as : List Name) (i : ℕ)
    (buffer : ℕ → Byte) (size offset : ℕ) : Prop :=
  ∃ r d', (fsWrite env (pathString as behind) buffer size offset).run vdisk d = some (r, d') ∧
    (∃ stat, (fsGetattr env (pathString as behind)).run vdisk d' = some ((0, stat), d') ∧
      stat.stSize.toNat = max (d.inode i).stSize.toNat (offset + size)) ∧
    ∀ c, ReadsAs env d (pathString as behind) 0 (d.inode i).stSize.toNat c →
      ReadsAs env d' (pathString as behind) 0 (min (d.inode i).stSize.toNat offset) c ∧
      ReadsAs env d' (pathString as behind) (offset + size) (d.inode i).stSize.toNat c

section Covers

variable {d : Disk} {as : List Name} {i size offset : ℕ}

/-- **A write changes only what it covers** exactly when it reaches the end of the file, and what it
puts into data block 0 does not show up in the holes before it. -/
theorem write_covers_iff (env : Env) (behind : ℕ → Byte) (h : SafeRun d)
    (hi : d.graph.resolve 4 (fileNames as) = some i) (hfile : d.IsFile i)
    (hw : d.Fits size offset) (buffer : ℕ → Byte) :
    WriteCovers env behind d as i buffer size offset ↔
      (d.inode i).stSize.toNat ≤ offset + size ∧
      ∀ k < min (d.inode i).stSize.toNat offset, d.SharesHole i size offset k →
        buffer (k % 4096 - offset % 4096) = 0 := by
  have hd := h.sound
  have hend := hw.end_le
  have hle := hd.directories.file i hfile.lt hfile.not_isDir
  have hrun := run_fsWrite_of_fits env hd hfile hw buffer hi behind
  obtain ⟨hwalk, hgraph, -⟩ := Disk.walkable_written hd hfile hw buffer
  have hattr := hwalk.run_fsGetattr env (show _ = some i by rw [hgraph, hi]) behind
  have hsize := Disk.stSize_written (i := i) hw buffer
  have hreads (start stop : ℕ) (hstop : stop ≤ 49152) :
      ReadsAs env (d.written i buffer size offset) (pathString as behind) start stop _ :=
    readsAs_written env hd hfile hw buffer hi behind hstop
  constructor
  · rintro ⟨r, d', hrun', ⟨stat, hattr', hstat⟩, hbytes⟩
    obtain ⟨-, rfl⟩ := Prog.run_inj vdisk hrun hrun'
    rw [hattr] at hattr'
    obtain ⟨-, rfl⟩ := Prod.mk.inj (Prod.mk.inj (Option.some.inj hattr')).1
    rw [passValueFromINodeToStat, hsize] at hstat
    refine ⟨by omega, fun k hk hshare => ?_⟩
    have hsame := (hbytes _ (hd.readsAs env hi behind hle)).1.unique
      (hreads 0 _ (by omega)) (Nat.zero_le k) hk
    rw [← (Disk.byteAt_written_front hd hfile hw buffer (by omega)).1 hshare, ← hsame,
      hd.byteAt_of_sharesHole hshare]
  · rintro ⟨hcond, hholes⟩
    refine ⟨_, _, hrun, ⟨_, hattr, ?_⟩, fun c hc => ⟨?_, ?_⟩⟩
    · rw [passValueFromINodeToStat, hsize]
      omega
    · refine (hreads 0 (min (d.inode i).stSize.toNat offset) (by omega)).congr fun k _ hk => ?_
      have hold := (hd.readsAs env hi behind hle).unique hc (Nat.zero_le k) (by omega)
      have hfront := Disk.byteAt_written_front hd hfile hw buffer (show k < offset by omega)
      by_cases hshare : d.SharesHole i size offset k
      · rw [hfront.1 hshare, hholes k hk hshare, ← hold, hd.byteAt_of_sharesHole hshare]
      · rw [hfront.2 hshare, hold]
    · -- nothing is left behind the write
      exact (hreads (offset + size) (d.inode i).stSize.toNat (by omega)).congr
        fun k hk hk' => absurd hk' (by omega)

end Covers

/-! ### Isolation -/

/-- `fs_write` changes no other file, no listing, and of the bitmaps only bits that were clear. -/
def WriteIsolated (env : Env) (behind : ℕ → Byte) (d : Disk) (as : List Name) (i : ℕ)
    (buffer : ℕ → Byte) (size offset : ℕ) : Prop :=
  ∃ r d', (fsWrite env (pathString as behind) buffer size offset).run vdisk d = some (r, d') ∧
    (∀ bs j behind', d.graph.resolve 4 (fileNames bs) = some j → d.IsFile j → j ≠ i →
      ((fsGetattr env (pathString bs behind')).run vdisk d').map Prod.fst =
        ((fsGetattr env (pathString bs behind')).run vdisk d).map Prod.fst ∧
      ∀ c, ReadsAs env d (pathString bs behind') 0 (d.inode j).stSize.toNat c →
        ReadsAs env d' (pathString bs behind') 0 (d.inode j).stSize.toNat c) ∧
    (∀ bs p behind', d.graph.resolve 4 (fileNames bs) = some p → d.IsDir p →
      ((fsReaddir env (pathString bs behind')).run vdisk d').map Prod.fst =
        ((fsReaddir env (pathString bs behind')).run vdisk d).map Prod.fst) ∧
    (∀ j < 32768, d'.imap j = d.imap j) ∧
    ∀ b < 65536, d.dmap b = true → d'.dmap b = true

section Isolated

variable {d : Disk} {as : List Name} {i size offset : ℕ}

/-- **Files are isolated** in the runs of safe calls. -/
theorem write_isolated (env : Env) (behind : ℕ → Byte) (h : SafeRun d)
    (hi : d.graph.resolve 4 (fileNames as) = some i) (hfile : d.IsFile i)
    (hw : d.CanWrite i size offset) (buffer : ℕ → Byte) :
    WriteIsolated env behind d as i buffer size offset := by
  have hd := h.sound
  have hchange := Disk.FileChange.written hd hfile hw buffer
  refine ⟨_, _, run_fsWrite env hd hfile hw buffer hi behind,
    fun bs j behind' hj hfilej hne => ⟨?_, fun c hc => ?_⟩, fun bs p behind' hp hdir => ?_,
    fun j _ => hchange.imap j, fun b hb hset => (hchange.dmap b hb).mpr (.inl hset)⟩
  · have hj' : (d.written i buffer size offset).graph.resolve 4 (fileNames bs) = some j := by
      rw [hchange.graph, hj]
    rw [hd.walkable.run_fsGetattr env hj, hchange.sound.walkable.run_fsGetattr env hj',
      hchange.inode_ne j hfilej.lt hne]
    rfl
  · have hsizej := hd.directories.file j hfilej.lt hfilej.not_isDir
    refine (hchange.sound.readsAs env (by rw [hchange.graph, hj]) behind' hsizej).congr
      fun k _ hk => ?_
    rw [Disk.byteAt, hchange.blockAt_ne hd hfile.lt hfilej.lt hne]
    exact (hd.readsAs env hj behind' hsizej).unique hc (Nat.zero_le k) hk
  · have hne : p ≠ i := fun heq => hfile.not_isDir (heq ▸ hdir)
    exact hd.run_fsReaddir_congr env hchange.sound hchange.graph hp hdir
      ⟨hdir.1, by rw [hchange.inode_ne p hdir.1 hne]; exact hdir.2⟩ behind'

/-- A write into a hole shows up in the holes of other files. -/
theorem not_writeIsolated_of_holes (env : Env) (behind : ℕ → Byte) (hd : d.Sound)
    (hi : d.graph.resolve 4 (fileNames as) = some i) (hfile : d.IsFile i) (h : d.Fits size offset)
    (h0 : offset % 4096 ≠ 0) (hole : (d.inode i).ptr (offset / 4096) = 0) {bs : List Name} {j k : ℕ}
    (hj : d.graph.resolve 4 (fileNames bs) = some j) (hfilej : d.IsFile j) (hne : j ≠ i)
    (hk : k < (d.inode j).stSize.toNat) (hk12 : k / 4096 < 12)
    (holej : (d.inode j).ptr (k / 4096) = 0) (hle : offset % 4096 ≤ k % 4096)
    (hlt : k % 4096 < offset % 4096 + firstCount size offset) {buffer : ℕ → Byte}
    (hbyte : buffer (k % 4096 - offset % 4096) ≠ 0) :
    ¬ WriteIsolated env behind d as i buffer size offset := by
  rintro ⟨r, d', hrun', hfiles, -⟩
  obtain ⟨e, hchange, -, hwritten⟩ := Disk.written_hole hd hfile h buffer h0 hole
  obtain ⟨hwalk, hgraph, -⟩ := Disk.walkable_written hd hfile h buffer
  have hrun := run_fsWrite_of_fits env hd hfile h buffer hi behind
  obtain ⟨-, rfl⟩ := Prog.run_inj vdisk hrun hrun'
  -- the file is the same, block 0 is not
  have hinode : (d.written i buffer size offset).inode j = d.inode j := by
    rw [hwritten, Disk.inode_setData hfilej.lt, hchange.inode_ne j hfilej.lt hne]
  have hzero : (d.written i buffer size offset).data 0 =
      Block.zero.paste (offset % 4096) (firstCount size offset) buffer := by
    rw [hwritten, Disk.data_setData_self]
  have hblock := run_readTheOneDisk env hk12 (x := d.inode j) (by rw [holej]; decide)
    (d.written i buffer size offset)
  rw [holej, hzero] at hblock
  have hsize := hd.directories.file j hfilej.lt hfilej.not_isDir
  obtain ⟨r', out, hread, hout⟩ := (hfiles bs j plainMemory hj hfilej hne).2 _
    (hd.readsAs env hj plainMemory hsize) (fun _ => 0) 1 k (Nat.zero_le k) hk
  obtain ⟨r'', out', hread', hout'⟩ := hwalk.run_fsRead_byte env (by rw [hgraph]; exact hj)
    (show k < 8437760 by omega) (by rw [hinode]; exact hblock) plainMemory fun _ => 0
  rw [hread] at hread'
  obtain ⟨-, rfl⟩ := Prod.mk.inj (Prod.mk.inj (Option.some.inj hread')).1
  have hold := hout 0 Nat.one_pos
  rw [hout', Block.get_paste _ _ _ _ (by omega), if_pos ⟨hle, hlt⟩, Nat.add_zero, Disk.byteAt,
    Disk.blockAt, holej, hd.zero] at hold
  refine hbyte (hold.trans ?_)
  rw [Block.get]
  split <;> rfl

end Isolated

/-! ### Three bytes in a file, one more written -/

/-- The state after a write. -/
theorem SafeRun.written {d : Disk} (h : SafeRun d) {as : List Name} {i size offset : ℕ}
    (hi : d.graph.resolve 4 (fileNames as) = some i) (hfile : d.IsFile i)
    (hw : d.CanWrite i size offset) (buffer : ℕ → Byte) :
    SafeRun (d.written i buffer size offset) ∧
      (d.written i buffer size offset).graph = d.graph ∧
      (d.written i buffer size offset).IsFile i :=
  have hchange := Disk.FileChange.written h.sound hfile hw buffer
  ⟨h.write hi hfile hw buffer, hchange.graph, hchange.isFile hfile⟩

/-- A file of three bytes. -/
theorem exists_safeRun_three : ∃ d i, SafeRun d ∧
    d.graph.resolve 4 (fileNames [nthName 0]) = some i ∧ d.IsFile i ∧
    (d.inode i).stSize.toNat = 3 ∧ d.byteAt i 1 = 7 ∧ 4 ≤ (d.inode i).ptr 0 ∧ d.CanWrite i 1 1 ∧
    d.Fits 2 3 := by
  obtain ⟨d, hrun, hfree, number, hnumber, -⟩ := exists_safeRun_files 1 (by decide)
  obtain ⟨hi, hfile, -⟩ := hnumber 0 Nat.one_pos
  have hd := hrun.sound
  have hcount : nextCount 3 0 = 1 := by decide
  have hw : d.CanWrite (number 0) 3 0 :=
    ⟨by decide, fun h => absurd rfl h, by rw [if_pos rfl, hcount]; omega⟩
  obtain ⟨hrun', hgraph, hfile'⟩ := hrun.written hi hfile hw fun _ => 7
  have hblocks := Disk.freeBlocks_written (i := number 0) hw.fits fun _ => 7
  have hchange := Disk.FileChange.written hd hfile hw fun _ => 7
  have hone : nextCount 1 1 = 1 := by decide
  -- the block mounted for the three bytes was free, so it is none of the first four
  have hmounted : 4 ≤ ((d.written (number 0) (fun _ => 7) 3 0).inode (number 0)).ptr 0 := by
    have hnew := hchange.ptr_new 0 (by decide) (by decide)
    by_contra hlt
    rw [hd.pointers.reserved _ (Nat.lt_of_not_le hlt)] at hnew
    cases hnew
  refine ⟨_, number 0, hrun', by rw [hgraph, hi], hfile', Disk.stSize_written hw.fits _,
    Disk.byteAt_written (k := 1) hd hfile hw _ (by decide) (.inr (by decide)), hmounted,
    ⟨by decide, fun _ => ?_, ?_⟩, by decide, ?_⟩
  · exact (Nat.lt_of_lt_of_le (by decide) hmounted).ne'
  · rw [if_pos rfl, hcount] at hblocks
    rw [if_neg (by decide), hone]
    omega
  · have htwo : nextCount 2 3 = 1 := by decide
    rw [if_pos rfl, hcount] at hblocks
    rw [if_neg (by decide), htwo]
    omega

/-- A write of a block and a byte is read back. -/
theorem read_back_two_blocks : ∃ d i, SafeRun d ∧ d.IsFile i ∧
    ReadsBack plainEnv plainMemory d [nthName 0] (fun _ => 7) 4097 0 := by
  obtain ⟨d, hrun, hfree, number, hnumber, -⟩ := exists_safeRun_files 1 (by decide)
  obtain ⟨hi, hfile, -⟩ := hnumber 0 Nat.one_pos
  have hcount : nextCount 4097 0 = 1 := by decide
  exact ⟨d, number 0, hrun, hfile, (read_back_iff plainEnv plainMemory hrun hi hfile
    ⟨by decide, by rw [if_pos rfl, hcount]; omega⟩ (by decide) _).mpr
      (.inl (by decide))⟩

/-- A write of one byte is not. -/
theorem not_read_back_one_byte : ∃ d i, SafeRun d ∧ d.IsFile i ∧
    ¬ ReadsBack plainEnv plainMemory d [nthName 0] (fun _ => 8) 1 1 := by
  obtain ⟨d, i, hrun, hi, hfile, -, hbyte, -, hw, -⟩ := exists_safeRun_three
  refine ⟨d, i, hrun, hfile, fun hback => ?_⟩
  rcases (read_back_iff plainEnv plainMemory hrun hi hfile hw.fits le_rfl _).mp hback with
    hlong | hlast
  · exact absurd hlong (by decide)
  · rw [Disk.underLast, if_neg (by decide)] at hlast
    exact absurd (hlast.symm.trans hbyte) (by decide)

/-- Two bytes written behind the three of a file leave these alone. -/
theorem write_covers_append : ∃ d i, SafeRun d ∧ d.IsFile i ∧ (d.inode i).stSize.toNat = 3 ∧
    d.byteAt i 1 = 7 ∧ WriteCovers plainEnv plainMemory d [nthName 0] i (fun _ => 8) 2 3 := by
  obtain ⟨d, i, hrun, hi, hfile, hsize, hbyte, -, hw, hfits⟩ := exists_safeRun_three
  have hmounted : (d.inode i).ptr (3 / 4096) ≠ 0 := hw.first (by decide)
  exact ⟨d, i, hrun, hfile, hsize, hbyte, (write_covers_iff plainEnv plainMemory hrun hi hfile
    hfits _).mpr ⟨by rw [hsize]; decide, fun k _ hshare => absurd hshare.2.1 hmounted⟩⟩

/-- A write in the middle cuts the file. -/
theorem not_write_covers_middle : ∃ d i, SafeRun d ∧ d.IsFile i ∧
    ¬ WriteCovers plainEnv plainMemory d [nthName 0] i (fun _ => 8) 1 1 := by
  obtain ⟨d, i, hrun, hi, hfile, hsize, -, -, hw, -⟩ := exists_safeRun_three
  refine ⟨d, i, hrun, hfile, fun hcovers => ?_⟩
  have hle := ((write_covers_iff plainEnv plainMemory hrun hi hfile hw.fits _).mp hcovers).1
  omega

/-! ### Two files -/

/-- A write to one of two files. -/
theorem write_isolated_two_files : ∃ d i, SafeRun d ∧ d.IsFile i ∧
    WriteIsolated plainEnv plainMemory d [nthName 0] i (fun _ => 7) 3 0 := by
  obtain ⟨d, hrun, hfree, number, hnumber, -⟩ := exists_safeRun_files 2 (by decide)
  obtain ⟨hi, hfile, -⟩ := hnumber 0 (by decide)
  have hcount : nextCount 3 0 = 1 := by decide
  exact ⟨d, number 0, hrun, hfile, write_isolated plainEnv plainMemory hrun hi hfile
    ⟨by decide, fun h => absurd rfl h, by rw [if_pos rfl, hcount]; omega⟩ _⟩

/-- The first file begins with a hole, and so does the second. -/
theorem not_write_isolated_holes : ∃ d i, SafeRun d ∧ d.IsFile i ∧
    ¬ WriteIsolated plainEnv plainMemory d [nthName 0] i (fun _ => 7) 2 1 := by
  obtain ⟨d₀, hrun₀, hfree, number, hnumber, hinj⟩ := exists_safeRun_files 2 (by decide)
  obtain ⟨hi₀, hfile₀, -, hptr₀⟩ := hnumber 0 (by decide)
  obtain ⟨hj₀, hfilej₀, -, hptrj₀⟩ := hnumber 1 (by decide)
  have hne : number 0 ≠ number 1 := fun heq =>
    absurd (hinj 0 (by decide) 1 (by decide) heq) (by decide)
  -- one byte behind two holes of the second file
  have hcount : nextCount 1 8192 = 1 := by decide
  have hw : d₀.CanWrite (number 1) 1 8192 :=
    ⟨by decide, fun h => absurd rfl h, by rw [if_pos rfl, hcount]; omega⟩
  obtain ⟨hrun, hgraph, hfilej⟩ := hrun₀.written hj₀ hfilej₀ hw fun _ => 7
  have hchange := Disk.FileChange.written hrun₀.sound hfilej₀ hw fun _ => 7
  have hblocks := Disk.freeBlocks_written (i := number 1) hw.fits fun _ => 7
  have hsize := Disk.stSize_written (i := number 1) hw.fits fun _ => 7
  have hfile := hchange.isFile_ne hfile₀ hne
  rw [if_pos rfl, hcount] at hblocks
  have hone : nextCount 2 1 = 1 := by decide
  have hhole : ((d₀.written (number 1) (fun _ => 7) 1 8192).inode (number 0)).ptr (1 / 4096) =
      0 := by
    rw [hchange.inode_ne _ hfile₀.lt hne]
    exact hptr₀ _
  have hholej : ((d₀.written (number 1) (fun _ => 7) 1 8192).inode (number 1)).ptr (1 / 4096) = 0 :=
    (hchange.ptr_same _ (by decide)).trans (hptrj₀ _)
  refine ⟨_, number 0, hrun, hfile, not_writeIsolated_of_holes plainEnv plainMemory hrun.sound
    (by rw [hgraph]; exact hi₀) hfile ⟨by decide, ?_⟩ (by decide) hhole
    (by rw [hgraph]; exact hj₀) hfilej hne.symm (k := 1) (by rw [hsize]; decide) (by decide) hholej
    le_rfl (by decide) (by decide)⟩
  rw [if_neg (by decide), hone]
  omega

end InodeFs
