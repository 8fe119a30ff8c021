import InodeFs.State.Capacity

/-!
# What a write does to the disk

A write to a file replaces the content of a block the file has and stores further blocks at
fresh numbers. `FileChange i lo hi d d'` says what such a sequence of steps on file `i`, which
mounts fresh blocks at the ranks from `lo` up to `hi`, does to everything on the disk except
the contents of the file, which `Disk.blockAt` shows: the relation holds for each step and
composes (`FileChange.trans`).

Blocks are found in a file by their ranks. What a step does to them is said in terms of ranks as
well: `blockAt_mountBlock`, `Sound.blockAt_setData` and `Sound.blockAt_storeBlock` give the content
of every rank afterwards. Since no two ranks of any inodes share a block but the reserved one, a
step at one rank is seen at this rank alone.

`storeBlocks` repeats the step over a range of ranks, and `FileChange.storeBlocks` is the induction
over it. With enough free blocks counted (`freeBlocks_storeBlock`) each of its rounds finds one.

The bytes are no part of the relation, as they are what a write is about. They are read off
`blockAt` afterwards, in `InodeFs.Properties.Writing`.
-/

namespace InodeFs

/-- The record with another size. -/
def INode.withSize (x : INode) (s : BitVec 64) : INode := { x with stSize := s }

theorem INode.sameBlocks_withSize (x : INode) (s : BitVec 64) : x.SameBlocks (x.withSize s) :=
  ⟨rfl, fun _ => rfl, rfl⟩

@[simp] theorem INode.stSize_withSize (x : INode) (s : BitVec 64) : (x.withSize s).stSize = s := rfl

namespace Disk

/-- Inode `i` is a regular file in use. -/
structure IsFile (d : Disk) (i : ℕ) : Prop where
  lt : i < 32768
  marked : d.imap i = true
  not_isDir : ¬ d.IsDir i

/-- A record written over a file's makes no directory: the directories are among the old ones. -/
theorem IsFile.isDir_of_setInode {d s : Disk} {i p : ℕ} {y : INode} (hfile : d.IsFile i)
    (hmode : y.stMode = (d.inode i).stMode) (hsame : ∀ j < 32768, s.inode j = d.inode j)
    (hp : (s.setInode i y).IsDir p) : d.IsDir p ∧ (s.setInode i y).inode p = d.inode p := by
  by_cases hpi : p = i
  · subst hpi
    have hdir := hp.2
    rw [inode_setInode_self, hmode] at hdir
    exact absurd ⟨hp.1, hdir⟩ hfile.not_isDir
  · have hinode := (inode_setInode_of_ne hpi y).trans (hsame p hp.1)
    exact ⟨⟨hp.1, by rw [← hinode]; exact hp.2⟩, hinode⟩

/-- The block at rank `r` of inode `i`; block 0 where there is none. -/
def blockAt (d : Disk) (i r : ℕ) : Block := d.data ((d.inode i).ptr r)

/-- Only file `i` changed: its blocks, and its pointers at the ranks from `lo` up to `hi`,
which lead to blocks that were free. No file is longer than `limit` afterwards. -/
structure FileChange (i lo hi : ℕ) (d d' : Disk) (limit : ℕ := 2146304) : Prop where
  sound : d'.Sound limit
  inode_ne : ∀ j < 32768, j ≠ i → d'.inode j = d.inode j
  mode : (d'.inode i).stMode = (d.inode i).stMode
  imap : ∀ j, d'.imap j = d.imap j
  ptr_same : ∀ r, ¬ (lo ≤ r ∧ r < hi) → (d'.inode i).ptr r = (d.inode i).ptr r
  ptr_new : ∀ r, lo ≤ r → r < hi → d.dmap ((d'.inode i).ptr r) = false
  dmap : ∀ b < 65536, d'.dmap b = true ↔
    d.dmap b = true ∨ ∃ r, lo ≤ r ∧ r < hi ∧ (d'.inode i).ptr r = b
  graph : d'.graph = d.graph
  data : ∀ b < 65536, d.dmap b = true → (∀ r, (d.inode i).ptr r = b → b = 0) →
    d'.data b = d.data b

variable {d d' d'' : Disk} {i lo mid hi r b limit : ℕ} {content : Block}

/-- The file stays one. -/
theorem FileChange.isFile (h : FileChange i lo hi d d' limit) (hfile : d.IsFile i) : d'.IsFile i :=
  ⟨hfile.lt, by rw [h.imap]; exact hfile.marked,
    fun hdir => hfile.not_isDir ⟨hfile.lt, h.mode ▸ hdir.2⟩⟩

/-- The other files stay files. -/
theorem FileChange.isFile_ne (h : FileChange i lo hi d d' limit) {j : ℕ} (hfile : d.IsFile j)
    (hne : j ≠ i) : d'.IsFile j :=
  ⟨hfile.lt, by rw [h.imap]; exact hfile.marked,
    fun hdir => hfile.not_isDir ⟨hfile.lt, h.inode_ne j hfile.lt hne ▸ hdir.2⟩⟩

/-- Two parts of a write, one after the other. -/
theorem FileChange.trans (h : FileChange i lo mid d d' limit)
    (h' : FileChange i mid hi d' d'' limit) (hlt : i < 32768) (hlo : lo ≤ mid) (hhi : mid ≤ hi) :
    FileChange i lo hi d d'' limit where
  sound := h'.sound
  inode_ne j hj hne := (h'.inode_ne j hj hne).trans (h.inode_ne j hj hne)
  mode := h'.mode.trans h.mode
  imap j := (h'.imap j).trans (h.imap j)
  ptr_same r hr := (h'.ptr_same r fun h => hr ⟨hlo.trans h.1, h.2⟩).trans
    (h.ptr_same r fun h => hr ⟨h.1, h.2.trans_le hhi⟩)
  ptr_new r hr hr' := by
    by_cases hmid : r < mid
    · rw [h'.ptr_same r (by omega)]
      exact h.ptr_new r hr hmid
    · -- a block that is free after the first part was free before it
      have hlt := h'.sound.pointers.lt i hlt r
      have hfree := h'.ptr_new r (by omega) hr'
      by_contra hset
      rw [(h.dmap _ (by omega)).mpr (.inl (by simpa using hset))] at hfree
      cases hfree
  dmap b hb := by
    rw [h'.dmap b hb, h.dmap b hb]
    constructor
    · rintro ((hset | ⟨r, hr, hr', rfl⟩) | ⟨r, hr, hr', rfl⟩)
      · exact .inl hset
      · exact .inr ⟨r, hr, hr'.trans_le hhi, h'.ptr_same r (by omega)⟩
      · exact .inr ⟨r, hlo.trans hr, hr', rfl⟩
    · rintro (hset | ⟨r, hr, hr', rfl⟩)
      · exact .inl (.inl hset)
      · by_cases hmid : r < mid
        · exact .inl (.inr ⟨r, hr, hmid, (h'.ptr_same r (by omega)).symm⟩)
        · exact .inr ⟨r, by omega, hr', rfl⟩
  graph := h'.graph.trans h.graph
  data b hb hset hown := by
    refine (h'.data b hb ((h.dmap b hb).mpr (.inl hset)) fun r hr => ?_).trans
      (h.data b hb hset hown)
    by_cases hnew : lo ≤ r ∧ r < mid
    · -- a block mounted meanwhile was free before
      have hfree := h.ptr_new r hnew.1 hnew.2
      rw [hr, hset] at hfree
      cases hfree
    · exact hown r ((h.ptr_same r hnew).symm.trans hr)

/-- The blocks of other inodes are as before. -/
theorem FileChange.blockAt_ne (h : FileChange i lo hi d d' limit) (hd : d.Sound limit)
    (hlt : i < 32768) {j : ℕ} (hj : j < 32768) (hne : j ≠ i) (q : ℕ) :
    d'.blockAt j q = d.blockAt j q := by
  rw [blockAt, blockAt, h.inode_ne j hj hne]
  by_cases hzero : (d.inode j).ptr q = 0
  · rw [hzero, h.sound.zero, hd.zero]
  · have hptr := hd.pointers.lt j hj q
    exact h.data _ (by omega) (hd.pointers.marked j hj q hzero) fun r hr =>
      absurd hr (hd.pointers.ptr_ne hj hlt hne hzero)

/-! ### The steps -/

/-- Mounting a free block. -/
theorem FileChange.mountBlock (h : d.Sound limit) (hfile : d.IsFile i) (hr : r < 12)
    (hb : b < 64508) (hfree : d.dmap b = false) :
    FileChange i r (r + 1) d (d.mountBlock i r b) limit where
  sound := h.mountBlock hfile.lt hfile.marked hr hb hfree fun hdir => absurd hdir hfile.not_isDir
  inode_ne j _ hne := by rw [inode_mountBlock, if_neg hne]
  mode := by rw [inode_mountBlock, if_pos rfl, INode.setPtr_stMode]
  imap j := imap_mountBlock j
  ptr_same q hq := by rw [ptr_mountBlock hr (by omega), if_neg (by omega)]
  ptr_new q hq hq' := by rw [ptr_mountBlock hr (by omega), if_pos (by omega)]; exact hfree
  dmap c hc := by
    rw [dmap_mountBlock (by omega) hc, Bool.or_eq_true, decide_eq_true_eq]
    refine or_congr_right ⟨?_, ?_⟩
    · rintro rfl
      exact ⟨r, le_rfl, Nat.lt_succ_self r, by rw [ptr_mountBlock hr (by omega), if_pos ⟨rfl, rfl⟩]⟩
    · rintro ⟨q, hq, hq', rfl⟩
      rw [ptr_mountBlock hr (by omega), if_pos (by omega)]
  graph := graph_mountBlock hfile.lt hr (by omega) fun hdir => absurd hdir hfile.not_isDir
  data c _ _ _ := data_mountBlock hfile.lt c

/-- Replacing the content of a block of the file. -/
theorem FileChange.setData (h : d.Sound limit) (hfile : d.IsFile i) (hr : (d.inode i).ptr r ≠ 0)
    (content : Block) (lo : ℕ) :
    FileChange i lo lo d (d.setData ((d.inode i).ptr r) content) limit where
  sound := h.setData_file hfile.lt hfile.not_isDir hr content
  inode_ne j hj _ := inode_setData hj _ _
  mode := by rw [inode_setData hfile.lt]
  imap j := imap_setData _ _ j
  ptr_same q _ := by rw [inode_setData hfile.lt]
  ptr_new q hq hq' := absurd hq' (by omega)
  dmap c _ := by
    rw [dmap_setData]
    refine (or_iff_left ?_).symm
    rintro ⟨q, hq, hq', -⟩
    omega
  graph := h.graph_setData_file hfile.lt hfile.not_isDir hr content
  data c _ _ hown := by rw [data_setData, if_neg fun hc => hr (by rw [← hc]; exact hown r hc.symm)]

/-- Replacing the record by one with the same blocks. -/
theorem FileChange.setInode (h : d.Sound limit) (hfile : d.IsFile i) {x : INode}
    (hx : (d.inode i).SameBlocks x) (hsize : x.stSize.toNat ≤ limit) (lo : ℕ) :
    FileChange i lo lo d (d.setInode i x) limit where
  sound := h.setInode_file hfile.lt hfile.not_isDir hx hsize
  inode_ne j _ hne := inode_setInode_of_ne hne x
  mode := by rw [inode_setInode_self, hx.mode]
  imap j := imap_setInode i x j
  ptr_same q _ := by rw [inode_setInode_self, hx.ptr]
  ptr_new q hq hq' := absurd hq' (by omega)
  dmap c _ := by
    rw [dmap_setInode]
    refine (or_iff_left ?_).symm
    rintro ⟨q, hq, hq', -⟩
    omega
  graph := graph_setInode_file hfile.lt hfile.not_isDir hx
  data c _ _ _ := data_setInode hfile.lt x c

/-! ### The contents of the file -/

/-- The rank shows what the mounted block holds. -/
theorem blockAt_mountBlock (hi : i < 32768) (hr : r < 12) (hb : b < 65536) (q : ℕ) :
    (d.mountBlock i r b).blockAt i q = if q = r then d.data b else d.blockAt i q := by
  rw [blockAt, data_mountBlock hi, ptr_mountBlock hr hb]
  by_cases hq : q = r
  · rw [if_pos ⟨rfl, hq⟩, if_pos hq]
  · rw [if_neg fun h => hq h.2, if_neg hq, blockAt]

/-- The rank shows what is written to its block, and the others are as before. -/
theorem Sound.blockAt_setData (h : d.Sound limit) (hi : i < 32768) (hr : (d.inode i).ptr r ≠ 0)
    (q : ℕ) :
    (d.setData ((d.inode i).ptr r) content).blockAt i q =
      if q = r then content else d.blockAt i q := by
  rw [blockAt, inode_setData hi, data_setData]
  by_cases hq : q = r
  · rw [if_pos (by rw [hq]), if_pos hq]
  · rw [if_neg fun heq => hq (h.pointers.inj i hi i hi r q hr heq.symm).2.symm, if_neg hq, blockAt]

theorem blockAt_setInode (hi : i < 32768) {x : INode} (hx : (d.inode i).SameBlocks x) (q : ℕ) :
    (d.setInode i x).blockAt i q = d.blockAt i q := by
  rw [blockAt, inode_setInode_self, data_setInode hi, hx.ptr, blockAt]

/-! ### Storing fresh blocks -/

/-- Mount the next free block at rank `r` of inode `i` and fill it. -/
def storeBlock (d : Disk) (i r : ℕ) (content : Block) : Disk :=
  (d.mountBlock i r d.nextData).setData d.nextData content

/-- Store `n` blocks at the ranks from `r` on. -/
def storeBlocks (d : Disk) (i : ℕ) : ℕ → ℕ → (ℕ → Block) → Disk
  | _, 0, _ => d
  | r, n + 1, content =>
    (d.storeBlock i r (content 0)).storeBlocks i (r + 1) n fun k => content (k + 1)

/-- Storing is mounting a free block and overwriting it. -/
theorem storeBlock_eq (hr : r < 12) :
    d.storeBlock i r content = (d.mountBlock i r d.nextData).setData
      (((d.mountBlock i r d.nextData).inode i).ptr r) content := by
  rw [ptr_mountBlock hr d.nextData_lt, if_pos ⟨rfl, rfl⟩, storeBlock]

theorem Sound.ptr_mountBlock_ne_zero (h : d.Sound limit) (hr : r < 12) (hblock : d.HasBlock) :
    ((d.mountBlock i r d.nextData).inode i).ptr r ≠ 0 := by
  rw [ptr_mountBlock hr d.nextData_lt, if_pos ⟨rfl, rfl⟩]
  exact h.pointers.ne_zero_of_free hblock.dmap_nextData

/-- **Storing a block** is a change of the file at one rank. -/
theorem FileChange.storeBlock (h : d.Sound limit) (hfile : d.IsFile i) (hr : r < 12)
    (hblock : d.HasBlock) (content : Block) :
    FileChange i r (r + 1) d (d.storeBlock i r content) limit := by
  have hmount := FileChange.mountBlock h hfile hr hblock.nextData_lt hblock.dmap_nextData
  have hne := h.ptr_mountBlock_ne_zero (i := i) hr hblock
  rw [storeBlock_eq hr]
  exact hmount.trans (.setData hmount.sound (hmount.isFile hfile) hne content (r + 1)) hfile.lt
    (Nat.le_succ r) le_rfl

/-- The rank shows the new content. -/
theorem Sound.blockAt_storeBlock (h : d.Sound limit) (hfile : d.IsFile i) (hr : r < 12)
    (hblock : d.HasBlock) (q : ℕ) : (d.storeBlock i r content).blockAt i q =
      if q = r then content else d.blockAt i q := by
  have hmount := FileChange.mountBlock h hfile hr hblock.nextData_lt hblock.dmap_nextData
  have hne := h.ptr_mountBlock_ne_zero (i := i) hr hblock
  rw [storeBlock_eq hr, hmount.sound.blockAt_setData hfile.lt hne]
  split
  · rfl
  · next hq => rw [blockAt_mountBlock hfile.lt hr d.nextData_lt, if_neg hq]

theorem stSize_storeBlock (hi : i < 32768) :
    ((d.storeBlock i r content).inode i).stSize = (d.inode i).stSize := by
  rw [storeBlock, inode_setData hi, inode_mountBlock, if_pos rfl, INode.setPtr_stSize]

/-- One free block is taken. -/
theorem freeBlocks_storeBlock (i r : ℕ) (content : Block) (hblock : d.HasBlock) :
    (d.storeBlock i r content).freeBlocks + 1 = d.freeBlocks := by
  have hsame : (d.storeBlock i r content).freeBlocks = (d.coverData d.nextData).freeBlocks :=
    freeBlocks_congr fun b _ => by rw [storeBlock, dmap_setData, Disk.mountBlock, dmap_setInode]
  rw [hsame, freeBlocks_coverData hblock]

/-- As many free blocks are taken as are stored. -/
theorem freeBlocks_storeBlocks (i r : ℕ) {n : ℕ} (content : ℕ → Block) (hfree : n ≤ d.freeBlocks) :
    (d.storeBlocks i r n content).freeBlocks + n = d.freeBlocks := by
  induction n generalizing d r content with
  | zero => rw [storeBlocks, Nat.add_zero]
  | succ n ih =>
    have hless : (d.storeBlock i r (content 0)).freeBlocks + 1 = d.freeBlocks :=
      freeBlocks_storeBlock i r (content 0) (freeBlocks_pos_iff.mp (by omega))
    have hrest := ih (d := d.storeBlock i r (content 0)) (r + 1) (fun k => content (k + 1))
      (by omega)
    rw [storeBlocks]
    omega

/-- Storing a block leaves the content of another one alone. -/
theorem storeBlock_setData (hi : i < 32768) (hb : b ≠ d.nextData) (content' : Block) :
    (d.setData b content').storeBlock i r content =
      (d.storeBlock i r content).setData b content' := by
  rw [storeBlock, storeBlock, nextData_congr fun c => dmap_setData b content' c, Disk.mountBlock,
    Disk.mountBlock, coverData_setData, inode_setData hi, ← setData_setInode hi, setData_comm hb]

theorem FileChange.refl (h : d.Sound limit) (i lo : ℕ) : FileChange i lo lo d d limit where
  sound := h
  inode_ne _ _ _ := rfl
  mode := rfl
  imap _ := rfl
  ptr_same _ _ := rfl
  ptr_new r hr hr' := absurd hr' (by omega)
  dmap b _ := by
    refine (or_iff_left ?_).symm
    rintro ⟨q, hq, hq', -⟩
    omega
  graph := rfl
  data _ _ _ _ := rfl

/-- Nor does storing a sequence of blocks take data block 0. -/
theorem Sound.storeBlocks_setData_zero (h : d.Sound limit) (hfile : d.IsFile i) {n : ℕ}
    (content : ℕ → Block) (hr : r + n ≤ 12) (hfree : n ≤ d.freeBlocks) (content' : Block) :
    (d.setData 0 content').storeBlocks i r n content =
      (d.storeBlocks i r n content).setData 0 content' := by
  induction n generalizing d r content with
  | zero => rfl
  | succ n ih =>
    have hblock : d.HasBlock := freeBlocks_pos_iff.mp (by omega)
    have hfirst := FileChange.storeBlock h hfile (show r < 12 by omega) hblock (content 0)
    have hless := freeBlocks_storeBlock i r (content 0) hblock
    rw [Disk.storeBlocks, Disk.storeBlocks, storeBlock_setData hfile.lt
      (h.pointers.ne_zero_of_free hblock.dmap_nextData).symm]
    exact ih hfirst.sound (hfirst.isFile hfile) _ (by omega) (by omega)

/-- **Storing a sequence of fresh blocks.** -/
theorem Sound.storeBlocks (h : d.Sound limit) (hfile : d.IsFile i) {n : ℕ} (content : ℕ → Block)
    (hr : r + n ≤ 12) (hfree : n ≤ d.freeBlocks) :
    FileChange i r (r + n) d (d.storeBlocks i r n content) limit ∧
      (∀ q, (d.storeBlocks i r n content).blockAt i q =
        if r ≤ q ∧ q < r + n then content (q - r) else d.blockAt i q) ∧
      ((d.storeBlocks i r n content).inode i).stSize = (d.inode i).stSize := by
  induction n generalizing d r content with
  | zero =>
    refine ⟨.refl h i r, fun q => ?_, rfl⟩
    rw [if_neg (by omega)]
    rfl
  | succ n ih =>
    have hblock : d.HasBlock := freeBlocks_pos_iff.mp (by omega)
    have hr12 : r < 12 := by omega
    have hfirst := FileChange.storeBlock h hfile hr12 hblock (content 0)
    have hless := freeBlocks_storeBlock i r (content 0) hblock
    obtain ⟨hrest, hat, hsize⟩ := ih (r := r + 1) hfirst.sound (hfirst.isFile hfile)
      (fun k => content (k + 1)) (by omega) (by omega)
    have hend : r + 1 + n = r + (n + 1) := by omega
    rw [hend] at hrest hat
    -- the first block keeps its content while the others are stored behind it
    refine ⟨hfirst.trans hrest hfile.lt (Nat.le_succ r) (by omega), fun q => ?_, ?_⟩
    · rw [Disk.storeBlocks, hat, h.blockAt_storeBlock hfile hr12 hblock]
      by_cases hq : q = r
      · rw [if_neg (by omega), if_pos hq, if_pos (by omega), hq, Nat.sub_self]
      · rw [if_neg hq]
        by_cases hin : r + 1 ≤ q ∧ q < r + (n + 1)
        · rw [if_pos hin, if_pos (by omega)]
          exact congrArg content (by omega)
        · rw [if_neg hin, if_neg (by omega)]
    · rw [Disk.storeBlocks, hsize, stSize_storeBlock hfile.lt]

end Disk

end InodeFs
