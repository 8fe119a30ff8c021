import InodeFs.State.Sound

/-!
# The steps an operation is made of

Every operation that changes the disk is a sequence of a few steps: bits are set, an inode is
initialised, a block is mounted at a rank of an inode, a file's block or record is replaced, an
entry is appended to a directory or taken out of it. Each step has one theorem that it keeps
the invariant (`Sound.…`) and one that says what it does to the naming graph (`graph_…`).

The order follows the operations. `Marks` is what the functions do that should give something back,
`withFreshInode` the beginning of a creation, `mountBlock` and `setData` what writing is made of,
`appendEntry` the end of a creation and of a rename.

Behind the definition of a step come its views, one lemma for each of the maps, the records and the
data blocks, and then the invariant, part by part: `PointersOk`, then `DirOk` of the one directory,
then the naming graph, and `Sound` from these. A step changes one record at most. For such a change
`DirectoriesOk.change` and `GraphOk.congr` leave only the one inode to be looked at.
-/

namespace InodeFs

/-- The records agree on everything the naming graph and the pointers depend on, except for
the size. -/
structure INode.SameBlocks (x y : INode) : Prop where
  mode : y.stMode = x.stMode
  ptr : ∀ r, y.ptr r = x.ptr r
  indirect : y.indirectPointer = x.indirectPointer

/-- The number of entries from the size in bytes. -/
theorem INode.count_eq_of_toNat {x : INode} {n : ℕ} (h : x.stSize.toNat = 32 * n) :
    x.count = n := by
  rw [INode.count, h]
  omega

namespace Disk

variable {d d' : Disk} {limit : ℕ}

/-! ### Replacing a record -/

section Replace

variable {p : ℕ} {y : INode}
  (hinode : ∀ j < 32768, d'.inode j = if j = p then y else d.inode j)
  (hy : (d.inode p).SameBlocks y)
include hinode hy

/-- What is a directory does not change where the mode of the one replaced record stays. -/
theorem isDir_replace {j : ℕ} : d'.IsDir j ↔ d.IsDir j := by
  refine and_congr_right fun hj => ?_
  rw [hinode j hj]
  split
  · next hjp => rw [hy.mode, hjp]
  · rfl

/-- Records with the same blocks have the same pointers. -/
theorem PointersOk.replace (h : d.PointersOk)
    (himap : ∀ i < 32768, d.imap i = true → d'.imap i = true)
    (hdmap : ∀ b < 65536, d.dmap b = true → d'.dmap b = true) : d'.PointersOk := by
  refine h.congr (fun j hj r => ?_) (fun j hj => ?_) himap hdmap
  · rw [hinode j hj]
    split
    · next hjp => rw [hy.ptr, hjp]
    · rfl
  · rw [hinode j hj]
    split
    · next hjp => rw [hy.indirect, hjp]
    · rfl

/-- Of the directories only `p` has to be looked at, if it is one. -/
theorem DirectoriesOk.replace (h : d.DirectoriesOk limit)
    (himap : ∀ j < 32768, d.imap j = true → d'.imap j = true) (hdir : d.IsDir p → d'.DirOk p)
    (hfile : ¬ d.IsDir p → y.stSize.toNat ≤ limit) (hgraph : d'.GraphOk) :
    d'.DirectoriesOk limit := by
  refine h.change (i := p) (fun j hj hjp => ?_) himap ((isDir_replace hinode hy).mpr h.root)
    (fun hp => hdir ((isDir_replace hinode hy).mp hp)) (fun hp hnot => ?_) hgraph
  · rw [hinode j hj, if_neg hjp]
  · rw [hinode p hp, if_pos rfl]
    exact hfile fun hd => hnot ((isDir_replace hinode hy).mpr hd)

end Replace

/-! ### Setting bits -/

/-- The names are read from the records and the data blocks alone. -/
theorem graph_eq_of_same (hinode : ∀ i < 32768, d'.inode i = d.inode i)
    (hdata : ∀ b, d'.data b = d.data b) : d'.graph = d.graph :=
  funext fun p => graph_eq_of_ne (i := p + 1) (fun j hj _ => hinode j hj) (fun _ _ _ => hdata _)
    (Nat.succ_ne_self p).symm

/-- Nothing changes except that bits of the maps are set. -/
structure Marks (d d' : Disk) : Prop where
  inode : ∀ i < 32768, d'.inode i = d.inode i
  data : ∀ b, d'.data b = d.data b
  imap : ∀ i < 32768, d.imap i = true → d'.imap i = true
  dmap : ∀ b < 65536, d.dmap b = true → d'.dmap b = true

theorem Marks.refl (d : Disk) : Marks d d :=
  ⟨fun _ _ => rfl, fun _ => rfl, fun _ _ => id, fun _ _ => id⟩

theorem Marks.trans {d'' : Disk} (h : Marks d d') (h' : Marks d' d'') : Marks d d'' where
  inode i hi := (h'.inode i hi).trans (h.inode i hi)
  data b := (h'.data b).trans (h.data b)
  imap i hi hset := h'.imap i hi (h.imap i hi hset)
  dmap b hb hset := h'.dmap b hb (h.dmap b hb hset)

/-- What the code does to give a data block back only marks. -/
theorem marks_uncoverData {b : ℕ} (hb : b < 65536) : Marks d (d.uncoverData b) where
  inode i _ := inode_uncoverData b i
  data c := data_uncoverData b c
  imap i _ hset := by rwa [imap_uncoverData]
  dmap c hc hset := by rw [dmap_uncoverData hb hc, hset, Bool.true_or]

/-- Marking changes no name. -/
theorem Marks.graph (h : Marks d d') : d'.graph = d.graph := graph_eq_of_same h.inode h.data

/-- Marking more inodes and blocks. -/
theorem Sound.mark (hd : d.Sound limit) (h : Marks d d') : d'.Sound limit where
  pointers := hd.pointers.congr (fun i hi _ => by rw [h.inode i hi])
    (fun i hi => by rw [h.inode i hi]) h.imap h.dmap
  directories := by
    -- no inode changes, so any number serves as the one that does
    refine hd.directories.change (i := 32768) (fun j hj _ => h.inode j hj) h.imap ?_ ?_ ?_
      (hd.directories.graph.congr h.graph h.imap)
    · exact ⟨by decide, by rw [h.inode 4 (by decide)]; exact hd.directories.root.2⟩
    · exact fun hdir => absurd hdir.1 (by decide)
    · exact fun hlt => absurd hlt (by decide)
  zero := by rw [h.data]; exact hd.zero

/-! ### A new inode -/

section NewInode

variable {env : Env} {mode : BitVec 32} {k : ℕ}

/-- The new record, and the others as they were. -/
theorem inode_withFreshInode (i : ℕ) : (d.withFreshInode env mode k).inode i =
    if i = k then freshINode env mode k (d.inode k) else d.inode i := by
  rw [withFreshInode, inode_setInode, inode_coverInode]

theorem imap_withFreshInode {i : ℕ} (hk : k < 32768) (hi : i < 32768) :
    (d.withFreshInode env mode k).imap i = (d.imap i || decide (i = k)) := by
  rw [withFreshInode, imap_setInode, imap_coverInode hk hi]

@[simp] theorem dmap_withFreshInode (b : ℕ) : (d.withFreshInode env mode k).dmap b = d.dmap b := by
  rw [withFreshInode, dmap_setInode, dmap_coverInode]

/-- Initialising a record writes to no data block. -/
theorem data_withFreshInode (hk : k < 32768) (b : ℕ) :
    (d.withFreshInode env mode k).data b = d.data b := by
  rw [withFreshInode, data_setInode hk, data_coverInode]

/-- The record keeps the pointers it had: nothing clears them. -/
@[simp] theorem ptr_freshINode (number : ℤ) (x : INode) (r : ℕ) :
    (freshINode env mode number x).ptr r = x.ptr r := rfl

@[simp] theorem count_freshINode (number : ℤ) (x : INode) :
    (freshINode env mode number x).count = 0 := by
  simp [INode.count, freshINode]

/-- A directory is marked. -/
theorem Sound.not_isDir_of_free (h : d.Sound limit) (hfree : d.imap k = false) : ¬ d.IsDir k := by
  intro hdir
  rw [(h.directories.dir k hdir).marked] at hfree
  cases hfree

/-- **Initialising a free inode** changes no name: it was no directory, and has no entry yet. -/
theorem Sound.graph_withFreshInode (env : Env) (mode : BitVec 32) (h : d.Sound limit)
    (hk : k < 32768) (hfree : d.imap k = false) :
    (d.withFreshInode env mode k).graph = d.graph := by
  funext p
  by_cases hp : p = k
  · subst hp
    rw [graph_of_not_isDir (h.not_isDir_of_free hfree)]
    by_cases hdir : (d.withFreshInode env mode p).IsDir p
    · rw [graph_of_isDir hdir, inode_withFreshInode, if_pos rfl, entriesOf, count_freshINode]
      rfl
    · exact graph_of_not_isDir hdir
  · exact graph_eq_of_ne (fun j _ hj => by rw [inode_withFreshInode, if_neg hj])
      (fun _ _ _ => data_withFreshInode hk _) hp

/-- Initialising a free inode. -/
theorem Sound.withFreshInode (env : Env) (mode : BitVec 32) (h : d.Sound limit) (hk : k < 32768)
    (hfree : d.imap k = false) :
    (d.withFreshInode env mode k).Sound limit := by
  have hroot : k ≠ 4 := fun hk4 => h.not_isDir_of_free (hk4 ▸ hfree) h.directories.root
  have himap (i : ℕ) (hi : i < 32768) (hset : d.imap i = true) :
      (d.withFreshInode env mode k).imap i = true := by
    rw [imap_withFreshInode hk hi, hset, Bool.true_or]
  -- the fresh record keeps the pointers of the old one
  refine ⟨h.pointers.congr (fun i _ r => ?_) (fun i _ => ?_) himap fun b _ hb => by simpa using hb,
    h.directories.change (i := k) (fun j _ hj => by rw [inode_withFreshInode, if_neg hj]) himap ?_
      (fun _ => ?_) (fun _ _ => ?_)
      (h.directories.graph.congr (h.graph_withFreshInode env mode hk hfree) himap),
    by rw [data_withFreshInode hk]; exact h.zero⟩
  · rw [inode_withFreshInode]
    split
    · next hik => rw [ptr_freshINode, hik]
    · rfl
  · rw [inode_withFreshInode]
    split
    · next hik => rw [hik]; rfl
    · rfl
  · exact ⟨by decide, by rw [inode_withFreshInode, if_neg hroot.symm]; exact h.directories.root.2⟩
  · have hcount : ((d.withFreshInode env mode k).inode k).count = 0 := by
      rw [inode_withFreshInode, if_pos rfl, count_freshINode]
    refine ⟨by rw [imap_withFreshInode hk hk]; simp, ?_, by omega, fun r hr => by omega⟩
    rw [hcount, inode_withFreshInode, if_pos rfl]
    rfl
  · rw [inode_withFreshInode, if_pos rfl]
    exact Nat.zero_le _

end NewInode

/-! ### Mounting a block -/

/-- Mark block `b` and store it in direct pointer `r` of inode `i`. -/
def mountBlock (d : Disk) (i r b : ℕ) : Disk :=
  (d.coverData b).setInode i ((d.inode i).setPtr r b)

section MountBlock

variable {i r b : ℕ}

/-- Only the one record changes. -/
theorem inode_mountBlock (j : ℕ) : (d.mountBlock i r b).inode j =
    if j = i then (d.inode i).setPtr r b else d.inode j := by
  rw [mountBlock, inode_setInode, inode_coverData]

@[simp] theorem imap_mountBlock (j : ℕ) : (d.mountBlock i r b).imap j = d.imap j := by
  rw [mountBlock, imap_setInode, imap_coverData]

/-- The block that is mounted is marked. -/
theorem dmap_mountBlock (hb : b < 65536) {c : ℕ} (hc : c < 65536) :
    (d.mountBlock i r b).dmap c = (d.dmap c || decide (c = b)) := by
  rw [mountBlock, dmap_setInode, dmap_coverData hb hc]

theorem data_mountBlock (hi : i < 32768) (c : ℕ) : (d.mountBlock i r b).data c = d.data c := by
  rw [mountBlock, data_setInode hi, data_coverData]

/-- Only the one pointer changes. -/
theorem ptr_mountBlock (hr : r < 12) (hb : b < 65536) (j s : ℕ) :
    ((d.mountBlock i r b).inode j).ptr s =
      if j = i ∧ s = r then b else (d.inode j).ptr s := by
  rw [inode_mountBlock]
  by_cases hj : j = i
  · subst hj
    rw [if_pos rfl, INode.ptr_setPtr _ hr hb]
    simp
  · rw [if_neg hj, if_neg fun h => hj h.1]

theorem stSize_mountBlock (j : ℕ) :
    ((d.mountBlock i r b).inode j).stSize = (d.inode j).stSize := by
  rw [inode_mountBlock]
  split
  · next hj => rw [INode.setPtr_stSize, hj]
  · rfl

theorem count_mountBlock (j : ℕ) :
    ((d.mountBlock i r b).inode j).count = (d.inode j).count := by
  rw [INode.count, INode.count, stSize_mountBlock]

theorem indirectPointer_mountBlock (j : ℕ) :
    ((d.mountBlock i r b).inode j).indirectPointer = (d.inode j).indirectPointer := by
  rw [inode_mountBlock]
  split
  · next hj => rw [INode.setPtr_indirectPointer, hj]
  · rfl

theorem isDir_mountBlock (j : ℕ) : (d.mountBlock i r b).IsDir j ↔ d.IsDir j := by
  rw [IsDir, IsDir, inode_mountBlock]
  split
  · next hj => rw [INode.setPtr_stMode, hj]
  · rfl

/-- A block mounted behind the ranks in use changes no listing. -/
theorem graph_mountBlock (hi : i < 32768) (hr : r < 12) (hb : b < 65536)
    (hunused : d.IsDir i → (d.inode i).count ≤ 128 * r) :
    (d.mountBlock i r b).graph = d.graph := by
  funext p
  refine graph_congr (isDir_mountBlock p) fun hdir =>
    entriesOf_eq_of_blocks (count_mountBlock p) (fun s hs => ?_) fun s _ => data_mountBlock hi _
  rw [ptr_mountBlock hr hb, if_neg]
  rintro ⟨rfl, rfl⟩
  have hle := hunused hdir
  omega

/-- Marking a block clears no bit. -/
theorem dmap_mountBlock_of_marked (hb : b < 65536) {c : ℕ} (hc : c < 65536)
    (hset : d.dmap c = true) : (d.mountBlock i r b).dmap c = true := by
  rw [dmap_mountBlock hb hc, hset, Bool.true_or]

/-- **Mounting a free block** at a direct rank of a marked inode keeps the pointers in order:
nothing pointed to it before. -/
theorem PointersOk.mountBlock (h : d.PointersOk) (hset : d.imap i = true) (hr : r < 12)
    (hb : b < 64508) (hfree : d.dmap b = false) : (d.mountBlock i r b).PointersOk := by
  have hb' : b < 65536 := by omega
  constructor
  case lt =>
    intro j hj s
    rw [ptr_mountBlock hr hb']
    split
    · exact hb
    · exact h.lt j hj s
  case marked =>
    intro j hj s hs
    rw [ptr_mountBlock hr hb'] at hs ⊢
    split at hs
    · next heq => rw [if_pos heq, dmap_mountBlock hb' hb']; simp
    · next hne =>
      have hlt := h.lt j hj s
      rw [if_neg hne]
      exact dmap_mountBlock_of_marked hb' (by omega) (h.marked j hj s hs)
  case inj =>
    -- a free block is nobody's, so the new pointer meets no old one
    intro j hj k hk s t hs heq
    rw [ptr_mountBlock hr hb'] at hs heq
    rw [ptr_mountBlock hr hb'] at heq
    split at heq
    · next hjs =>
      split at heq
      · next hkt => exact ⟨hjs.1.trans hkt.1.symm, hjs.2.trans hkt.2.symm⟩
      · exact absurd heq.symm (h.ptr_ne_of_free hk hfree)
    · next hjs =>
      rw [if_neg hjs] at hs
      split at heq
      · exact absurd heq (h.ptr_ne_of_free hj hfree)
      · exact h.inj j hj k hk s t hs heq
  case indirect =>
    intro j hj k
    rw [indirectPointer_mountBlock]
    exact h.indirect j hj k
  case fresh =>
    -- inode `i` is in use
    intro j hj hjfree s
    rw [imap_mountBlock] at hjfree
    rw [ptr_mountBlock hr hb', if_neg, h.fresh j hj hjfree s]
    rintro ⟨rfl, -⟩
    rw [hset] at hjfree
    cases hjfree
  case reserved => exact fun c hc => dmap_mountBlock_of_marked hb' (by omega) (h.reserved c hc)

/-- Directories stay what they are where a block is mounted, since their sizes stay. -/
theorem Sound.dirOk_mountBlock (h : d.Sound limit) (hr : r < 12) (hb : b < 65536)
    (hfree : d.dmap b = false) {p : ℕ} (hp : d.IsDir p) : (d.mountBlock i r b).DirOk p := by
  have hok := h.directories.dir p hp
  refine ⟨by rw [imap_mountBlock]; exact hok.marked,
    by rw [stSize_mountBlock, count_mountBlock]; exact hok.size_eq,
    by rw [count_mountBlock]; exact hok.count_le, fun s hs => ?_⟩
  rw [count_mountBlock] at hs
  rw [ptr_mountBlock hr hb]
  split
  · exact h.pointers.ne_zero_of_free hfree
  · exact hok.block s hs

/-- Mounting a free block. -/
theorem Sound.mountBlock (h : d.Sound limit) (hi : i < 32768) (hset : d.imap i = true) (hr : r < 12)
    (hb : b < 64508) (hfree : d.dmap b = false)
    (hunused : d.IsDir i → (d.inode i).count ≤ 128 * r) : (d.mountBlock i r b).Sound limit := by
  have hb' : b < 65536 := by omega
  refine ⟨h.pointers.mountBlock hset hr hb hfree,
    ⟨(isDir_mountBlock 4).mpr h.directories.root, fun p hp => ?_, fun j hj hnot => ?_,
      h.directories.graph.congr (graph_mountBlock hi hr hb' hunused) fun j _ hj => ?_⟩, ?_⟩
  · exact h.dirOk_mountBlock hr hb' hfree ((isDir_mountBlock p).mp hp)
  · rw [stSize_mountBlock]
    exact h.directories.file j hj fun hd => hnot ((isDir_mountBlock j).mpr hd)
  · rwa [imap_mountBlock]
  · rw [data_mountBlock hi]
    exact h.zero

end MountBlock

/-! ### Changing a regular file -/

section File

variable {i : ℕ} {x : INode}

/-- A regular file's record replaced by one with the same blocks. -/
theorem graph_setInode_file (hi : i < 32768) (hnot : ¬ d.IsDir i)
    (hx : (d.inode i).SameBlocks x) : (d.setInode i x).graph = d.graph := by
  funext p
  by_cases hp : p = i
  · subst hp
    rw [graph_of_not_isDir hnot, graph_of_not_isDir]
    rw [IsDir, inode_setInode_self, hx.mode]
    exact hnot
  · exact graph_eq_of_ne (fun j _ hj => inode_setInode_of_ne hj x)
      (fun _ _ _ => data_setInode hi _ _) hp

/-- A file's record may be replaced by one with the same blocks. -/
theorem Sound.setInode_file (h : d.Sound limit) (hi : i < 32768) (hnot : ¬ d.IsDir i)
    (hx : (d.inode i).SameBlocks x) (hsize : x.stSize.toNat ≤ limit) :
    (d.setInode i x).Sound limit := by
  have himap (j : ℕ) (_ : j < 32768) (hset : d.imap j = true) :
      (d.setInode i x).imap j = true := by rwa [imap_setInode]
  have hinode (j : ℕ) (_ : j < 32768) : (d.setInode i x).inode j = if j = i then x else d.inode j :=
    inode_setInode ..
  refine ⟨h.pointers.replace hinode hx himap fun b _ hb => by rwa [dmap_setInode],
    h.directories.replace hinode hx himap (fun hdir => absurd hdir hnot) (fun _ => hsize)
      (h.directories.graph.congr (graph_setInode_file hi hnot hx) himap), ?_⟩
  rw [data_setInode hi]
  exact h.zero

/-- A block of a regular file replaced. -/
theorem Sound.graph_setData_file (h : d.Sound limit) (hi : i < 32768) (hnot : ¬ d.IsDir i) {r : ℕ}
    (hr : (d.inode i).ptr r ≠ 0) (content : Block) :
    (d.setData ((d.inode i).ptr r) content).graph = d.graph := by
  funext p
  by_cases hp : p = i
  · subst hp
    rw [graph_of_not_isDir hnot, graph_of_not_isDir]
    rw [IsDir, inode_setData hi]
    exact hnot
  · refine graph_eq_of_ne (fun j hj _ => inode_setData hj _ _) (fun hdir s _ => ?_) hp
    rw [data_setData, if_neg (h.pointers.ptr_ne hi hdir.1 (Ne.symm hp) hr)]

/-- A file's block may be overwritten: no directory and no other file has it. -/
theorem Sound.setData_file (h : d.Sound limit) (hi : i < 32768) (hnot : ¬ d.IsDir i) {r : ℕ}
    (hr : (d.inode i).ptr r ≠ 0) (content : Block) :
    (d.setData ((d.inode i).ptr r) content).Sound limit := by
  have himap (j : ℕ) (_ : j < 32768) (hset : d.imap j = true) :
      (d.setData ((d.inode i).ptr r) content).imap j = true := by rwa [imap_setData]
  refine ⟨h.pointers.congr (fun j hj _ => by rw [inode_setData hj])
      (fun j hj => by rw [inode_setData hj]) himap fun b _ hb => by rwa [dmap_setData],
    h.directories.change (i := i) (fun j hj _ => inode_setData hj _ _) himap ?_ (fun hdir => ?_)
      (fun _ hnot' => ?_)
      (h.directories.graph.congr (h.graph_setData_file hi hnot hr content) himap),
    by rw [data_setData, if_neg hr.symm]; exact h.zero⟩
  · exact ⟨by decide, by rw [inode_setData (by decide)]; exact h.directories.root.2⟩
  · rw [IsDir, inode_setData hi] at hdir
    exact absurd hdir hnot
  · rw [inode_setData hi]
    exact h.directories.file i hi hnot

end File

/-! ### Appending an entry -/

/-- Store entry `e` behind the entries of directory `p`, whose record becomes `y`. -/
def appendEntry (d : Disk) (p : ℕ) (e : DictioryContent) (y : INode) : Disk :=
  (d.setData ((d.inode p).ptr ((d.inode p).count / 128))
    ((d.data ((d.inode p).ptr ((d.inode p).count / 128))).setEntry (d.inode p).count e)).setInode p
      y

section Append

variable {p : ℕ} {e : DictioryContent} {y : INode}

/-- Only the record of the directory is replaced. -/
theorem inode_appendEntry {j : ℕ} (hj : j < 32768) :
    (d.appendEntry p e y).inode j = if j = p then y else d.inode j := by
  rw [appendEntry, inode_setInode, inode_setData hj]

@[simp] theorem imap_appendEntry (j : ℕ) : (d.appendEntry p e y).imap j = d.imap j := by
  rw [appendEntry, imap_setInode, imap_setData]

@[simp] theorem dmap_appendEntry (b : ℕ) : (d.appendEntry p e y).dmap b = d.dmap b := by
  rw [appendEntry, dmap_setInode, dmap_setData]

/-- Only the block of the next entry is written, in that entry's slot. -/
theorem data_appendEntry (hp : p < 32768) (b : ℕ) :
    (d.appendEntry p e y).data b =
      if b = (d.inode p).ptr ((d.inode p).count / 128) then
        (d.data b).setEntry (d.inode p).count e
      else d.data b := by
  rw [appendEntry, data_setInode hp, data_setData]
  split
  · next hb => rw [hb]
  · rfl

/-- The slot that is written lies behind the entries in use. -/
theorem Sound.entryOf_appendEntry (h : d.Sound limit) (hp : d.IsDir p)
    (hblock : (d.inode p).ptr ((d.inode p).count / 128) ≠ 0) {x : INode}
    (hx : ∀ r, x.ptr r = (d.inode p).ptr r) {j : ℕ} (hj : j < (d.inode p).count) :
    (d.appendEntry p e y).entryOf x j = d.entryOf (d.inode p) j := by
  rw [entryOf, entryOf, hx, data_appendEntry hp.1]
  split
  · next heq =>
    have hrank := (h.pointers.inj p hp.1 p hp.1 _ _ hblock heq.symm).2
    rw [Block.entry_setEntry, if_neg (by omega)]
  · rfl

/-- **Appending an entry** inserts an edge behind those of the directory. -/
theorem Sound.graph_appendEntry (h : d.Sound limit) (hp : d.IsDir p)
    (hblock : (d.inode p).ptr ((d.inode p).count / 128) ≠ 0) (hy : (d.inode p).SameBlocks y)
    (hcount : y.count = (d.inode p).count + 1) :
    (d.appendEntry p e y).graph = d.graph.insert p e.fileName e.inodeNumber.toNat := by
  funext q
  rw [NameGraph.insert_apply]
  split
  · next hq =>
    subst hq
    have hdir : (d.appendEntry q e y).IsDir q :=
      (isDir_replace (fun j hj => inode_appendEntry hj) hy).mpr hp
    have hlast : (d.appendEntry q e y).entryOf y (d.inode q).count = e := by
      rw [entryOf, hy.ptr, data_appendEntry hp.1, if_pos rfl, Block.entry_setEntry, if_pos rfl]
    rw [graph_of_isDir hdir, graph_of_isDir hp, inode_appendEntry hp.1, if_pos rfl,
      entriesOf_append hcount fun j hj => h.entryOf_appendEntry hp hblock hy.ptr hj, hlast,
      List.map_append]
    rfl
  · next hq =>
    refine graph_eq_of_ne (fun j hj hjp => by rw [inode_appendEntry hj, if_neg hjp])
      (fun hdir s _ => ?_) hq
    rw [data_appendEntry hp.1, if_neg (h.pointers.ptr_ne hp.1 hdir.1 (Ne.symm hq) hblock)]

/-- The directory itself: the rank of the new entry has a block, as the others have. -/
theorem Sound.dirOk_appendEntry (h : d.Sound limit) (hp : d.IsDir p)
    (hlt : (d.inode p).count < 1536)
    (hblock : (d.inode p).ptr ((d.inode p).count / 128) ≠ 0) (hy : (d.inode p).SameBlocks y)
    (hsize : y.stSize.toNat = (d.inode p).stSize.toNat + 32)
    (hcount : y.count = (d.inode p).count + 1) : (d.appendEntry p e y).DirOk p := by
  have hok := h.directories.dir p hp
  have hinode : (d.appendEntry p e y).inode p = y := by rw [inode_appendEntry hp.1, if_pos rfl]
  refine ⟨by rw [imap_appendEntry]; exact hok.marked, ?_, ?_, fun r hr => ?_⟩
  · rw [hinode, hcount, hsize, hok.size_eq, Nat.mul_succ]
  · rw [hinode, hcount]
    exact hlt
  · rw [hinode, hcount] at hr
    rw [hinode, hy.ptr]
    by_cases hused : 128 * r < (d.inode p).count
    · exact hok.block r hused
    · have hrank : r = (d.inode p).count / 128 := by omega
      rw [hrank]
      exact hblock

/-- The graph gets one edge, to an inode that has a number, a mark and no other name. -/
theorem GraphOk.appendEntry (h : d.GraphOk)
    (hgraph : (d.appendEntry p e y).graph = d.graph.insert p e.fileName e.inodeNumber.toNat)
    {a : Name} (ha : a.fileName = e.fileName) (hfresh : d.graph.lookup p e.fileName = none)
    (hnumber : e.inodeNumber.toNat < 32768) (hset : d.imap e.inodeNumber.toNat = true)
    (hroot : e.inodeNumber.toNat ≠ 4)
    (hunnamed : ∀ q b, (b, e.inodeNumber.toNat) ∉ d.graph q) : (d.appendEntry p e y).GraphOk := by
  refine ⟨?_, fun q f hf => ?_, fun q f hf => ?_, fun q f hf => ?_⟩
  · rw [hgraph]
    exact h.proper.insert hfresh hroot hunnamed
  all_goals
    rw [hgraph, NameGraph.mem_insert] at hf
    rcases hf with hf | ⟨-, rfl⟩
  · exact h.target_lt q f hf
  · exact hnumber
  · rw [imap_appendEntry]
    exact h.target_marked q f hf
  · rwa [imap_appendEntry]
  · exact h.named q f hf
  · exact ⟨a, ha⟩

/-- Appending an entry for an inode that no directory names yet. -/
theorem Sound.appendEntry (h : d.Sound limit) (hp : d.IsDir p) (hlt : (d.inode p).count < 1536)
    (hblock : (d.inode p).ptr ((d.inode p).count / 128) ≠ 0) (hy : (d.inode p).SameBlocks y)
    (hsize : y.stSize.toNat = (d.inode p).stSize.toNat + 32) {a : Name}
    (ha : a.fileName = e.fileName)
    (hfresh : d.graph.lookup p e.fileName = none) (hnumber : e.inodeNumber.toNat < 32768)
    (hset : d.imap e.inodeNumber.toNat = true) (hroot : e.inodeNumber.toNat ≠ 4)
    (hunnamed : ∀ q b, (b, e.inodeNumber.toNat) ∉ d.graph q) :
    (d.appendEntry p e y).Sound limit := by
  have hcount : y.count = (d.inode p).count + 1 :=
    INode.count_eq_of_toNat (by rw [hsize, (h.directories.dir p hp).size_eq, Nat.mul_succ])
  have hgraph := h.graph_appendEntry (e := e) hp hblock hy hcount
  have himap (j : ℕ) (_ : j < 32768) (hj : d.imap j = true) :
      (d.appendEntry p e y).imap j = true := by rwa [imap_appendEntry]
  have hinode (j : ℕ) (hj : j < 32768) : (d.appendEntry p e y).inode j =
      if j = p then y else d.inode j := inode_appendEntry hj
  refine ⟨h.pointers.replace hinode hy himap fun b _ hb => by rwa [dmap_appendEntry],
    h.directories.replace hinode hy himap
      (fun _ => h.dirOk_appendEntry hp hlt hblock hy hsize hcount) (fun hnot => absurd hp hnot)
      (h.directories.graph.appendEntry hgraph ha hfresh hnumber hset hroot hunnamed), ?_⟩
  rw [data_appendEntry hp.1, if_neg hblock.symm]
  exact h.zero

end Append

end Disk

end InodeFs
