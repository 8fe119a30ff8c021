import InodeFs.Ops.Handles
import InodeFs.Properties.Runs
import InodeFs.State.Tree

/-!
# What a change spares

`Disk.Spares S d d'` says that every inode in use outside `S` has the same record and the same
bytes on both disks, so that it stands for the same node of the file tree. Each change that an
operation makes spares all inodes but one or two, and the relation composes.

The members of a record that are shown, and that no call changes once it is initialised, are
compared as `INode.SameLabels`: a change of a record's pointers, of its size or of its other times
keeps them. For the bytes it is enough that the blocks of the spared inodes stay
(`byteAt_eq_of_blocks`); what is left to look at are the one or two inodes that a call is about.

`Marks.spares` and `FileChange.spares` take the relation from what is known of the steps, and
`Sound.spares_addEntry` and `Sound.spares_removeEntry` from those on directories.

The relation is used in two ways. The tree of a disk changes at the path of an inode that is not
spared only (`Spares.node`); and the answers about a path stay what they are as long as the requests
of a run spare its inode.
-/

namespace InodeFs

/-- The members of a record that no call changes once it is initialised, those that are shown. -/
structure INode.SameLabels (x y : INode) : Prop where
  mode : y.stMode = x.stMode
  nlink : y.stNlink = x.stNlink
  uid : y.stUid = x.stUid
  gid : y.stGid = x.stGid
  atime : y.atime = x.atime

namespace INode

variable (env : Env) {x y z : INode}

theorem SameLabels.refl (x : INode) : x.SameLabels x := ⟨rfl, rfl, rfl, rfl, rfl⟩

theorem SameLabels.trans (h : x.SameLabels y) (h' : y.SameLabels z) : x.SameLabels z :=
  ⟨h'.mode.trans h.mode, h'.nlink.trans h.nlink, h'.uid.trans h.uid, h'.gid.trans h.gid,
    h'.atime.trans h.atime⟩

theorem sameLabels_setPtr (x : INode) (r b : ℕ) : x.SameLabels (x.setPtr r b) := by
  rw [setPtr]
  split <;> exact ⟨rfl, rfl, rfl, rfl, rfl⟩

theorem sameLabels_withSize (x : INode) (s : BitVec 64) : x.SameLabels (x.withSize s) :=
  ⟨rfl, rfl, rfl, rfl, rfl⟩

theorem sameLabels_grown (clock : ℕ) (x : INode) : x.SameLabels (x.grown env clock) :=
  ⟨rfl, rfl, rfl, rfl, rfl⟩

theorem sameLabels_shrunk (clock : ℕ) (x : INode) : x.SameLabels (x.shrunk env clock) :=
  ⟨rfl, rfl, rfl, rfl, rfl⟩

theorem sameLabels_touched (x : INode) : x.SameLabels (x.touched env) := ⟨rfl, rfl, rfl, rfl, rfl⟩

/-- A write sets no time. -/
theorem times_setPtr (x : INode) (r b : ℕ) :
    (x.setPtr r b).mtime = x.mtime ∧ (x.setPtr r b).ctime = x.ctime := by
  rw [setPtr]
  split <;> exact ⟨rfl, rfl⟩

end INode

namespace Disk

/-- Every inode in use outside `S` is as before, and stays in use. -/
structure Spares (S : ℕ → Prop) (d d' : Disk) : Prop where
  imap : ∀ j < 32768, d.imap j = true → d'.imap j = true
  inode : ∀ j < 32768, d.imap j = true → ¬ S j → d'.inode j = d.inode j
  byteAt : ∀ j < 32768, d.imap j = true → ¬ S j → ¬ d.IsDir j → d'.byteAt j = d.byteAt j

variable {S T : ℕ → Prop} {d s d' : Disk} {p k i j : ℕ}

/-- One change after the other spares what both spare. -/
theorem Spares.trans (h : Spares S d s) (h' : Spares T s d') :
    Spares (fun j => S j ∨ T j) d d' where
  imap j hj hset := h'.imap j hj (h.imap j hj hset)
  inode j hj hset hnot := (h'.inode j hj (h.imap j hj hset) fun hT => hnot (.inr hT)).trans
    (h.inode j hj hset fun hS => hnot (.inl hS))
  byteAt j hj hset hnot hdir := by
    have hS : ¬ S j := fun hS => hnot (.inl hS)
    refine (h'.byteAt j hj (h.imap j hj hset) (fun hT => hnot (.inr hT)) fun hd => hdir ?_).trans
      (h.byteAt j hj hset hS hdir)
    exact ⟨hj, h.inode j hj hset hS ▸ hd.2⟩

/-- More inodes may be concerned. -/
theorem Spares.mono (h : Spares S d d') (hST : ∀ j, S j → T j) : Spares T d d' where
  imap := h.imap
  inode j hj hset hnot := h.inode j hj hset fun hS => hnot (hST j hS)
  byteAt j hj hset hnot := h.byteAt j hj hset fun hS => hnot (hST j hS)

/-- The node of an inode that is spared. -/
theorem Spares.node (h : Spares S d d') (hj : j < 32768) (hset : d.imap j = true) (hS : ¬ S j) :
    d'.node j = d.node j := by
  have hinode := h.inode j hj hset hS
  have hdir : d'.IsDir j ↔ d.IsDir j := by rw [IsDir, IsDir, hinode]
  have hcontents : d'.contents j = d.contents j := by
    by_cases hd : d.IsDir j
    · rw [contents_of_isDir hd, contents_of_isDir (hdir.mpr hd)]
    · rw [contents_of_not_isDir hd, contents_of_not_isDir fun hd' => hd (hdir.mp hd'), bytes, bytes,
        hinode, h.byteAt j hj hset hS hd]
  rw [Disk.node, Disk.node, hcontents, attributes, attributes, hinode]

/-- The bytes of a file are spared if its blocks are: the reserved block holds zeros. -/
theorem byteAt_eq_of_blocks (hd : d.Sound) (hd' : d'.Sound)
    (hinode : d'.inode j = d.inode j)
    (hdata : ∀ r, (d.inode j).ptr r ≠ 0 → d'.data ((d.inode j).ptr r) =
      d.data ((d.inode j).ptr r)) :
    d'.byteAt j = d.byteAt j := by
  funext q
  rw [Disk.byteAt, Disk.byteAt, blockAt, blockAt, hinode]
  by_cases hzero : (d.inode j).ptr (q / 4096) = 0
  · rw [hzero, hd'.zero, hd.zero]
  · rw [hdata _ hzero]

/-! ### The changes -/

/-- Marking spares every inode. -/
theorem Marks.spares (h : Marks d d') : Spares (fun _ => False) d d' where
  imap := h.imap
  inode j hj _ _ := h.inode j hj
  byteAt j hj _ _ _ := by
    funext q
    rw [Disk.byteAt, Disk.byteAt, blockAt, blockAt, h.inode j hj, h.data]

/-- A change of a file spares the other inodes. -/
theorem FileChange.spares {lo hi : ℕ} (hd : d.Sound) (hi' : i < 32768)
    (h : FileChange i lo hi d d') : Spares (· = i) d d' where
  imap j _ hset := by rwa [h.imap]
  inode j hj _ hne := h.inode_ne j hj hne
  byteAt j hj _ hne _ := by
    funext q
    rw [Disk.byteAt, Disk.byteAt, h.blockAt_ne hd hi' hj hne]

/-- A record is replaced. -/
theorem spares_setInode {x : INode} (hi : i < 32768) : Spares (· = i) d (d.setInode i x) where
  imap j _ hset := by rwa [imap_setInode]
  inode j _ _ hne := inode_setInode_of_ne hne x
  byteAt j _ _ hne _ := by
    funext q
    rw [Disk.byteAt, Disk.byteAt, blockAt, blockAt, inode_setInode_of_ne hne, data_setInode hi]

/-- An inode that was free is initialised. -/
theorem spares_withFreshInode (env : Env) (mode : BitVec 32) (hk : k < 32768)
    (hfree : d.imap k = false) : Spares (fun _ => False) d (d.withFreshInode env mode k) := by
  have hne (j : ℕ) (hset : d.imap j = true) : j ≠ k := by
    rintro rfl
    rw [hfree] at hset
    cases hset
  refine ⟨fun j hj hset => by rw [imap_withFreshInode hk hj, hset, Bool.true_or],
    fun j _ hset _ => by rw [inode_withFreshInode, if_neg (hne j hset)], fun j _ hset _ _ => ?_⟩
  funext q
  rw [Disk.byteAt, Disk.byteAt, blockAt, blockAt, inode_withFreshInode, if_neg (hne j hset),
    data_withFreshInode hk]

/-- An entry is added: to a free block or to one of the directory's. -/
theorem Sound.spares_addEntry (h : d.Sound) (hp : d.IsDir p) (hcount : (d.inode p).count < 1536)
    (hroom : d.HasRoom (d.inode p)) (env : Env) (e : DictioryContent) (clock : ℕ)
    (h' : (d.addEntry env e clock p).Sound) :
    Spares (· = p) d (d.addEntry env e clock p) where
  imap j _ hset := by rwa [imap_addEntry]
  inode j hj _ hne := inode_addEntry_of_ne hj hne
  byteAt j hj _ hne _ := by
    refine byteAt_eq_of_blocks h h' (inode_addEntry_of_ne hj hne) fun r hr => ?_
    obtain ⟨-, -, hdir, hsame, -⟩ := h.roomFor hp hcount hroom
    have hdata (b : ℕ) : (d.roomFor p).data b = d.data b := by
      rw [Disk.roomFor]
      split
      · exact data_mountBlock hp.1 b
      · rfl
    rw [Disk.addEntry, data_appendEntry hp.1, hdata, if_neg]
    -- the block that is written is mounted in the directory
    obtain ⟨hsound, -, -, -, hblock⟩ := h.roomFor hp hcount hroom
    have hown := hsound.pointers.ptr_ne (i := p) (j := j) (s := r) hp.1 hj (Ne.symm hne) hblock
    rwa [hsame, ← inode_roomFor_of_ne hne]

/-- An entry is removed. -/
theorem Sound.spares_removeEntry {y : INode} (h : d.Sound) (hp : d.IsDir p)
    (hk : k < (d.inode p).count) (h' : (d.removeEntry p k y).Sound) :
    Spares (· = p) d (d.removeEntry p k y) where
  imap j _ hset := by rwa [imap_removeEntry]
  inode j hj _ hne := by rw [inode_removeEntry hj, if_neg hne]
  byteAt j hj _ hne _ := by
    refine byteAt_eq_of_blocks h h' (by rw [inode_removeEntry hj, if_neg hne]) fun r _ => ?_
    rw [data_removeEntry hp.1, data_overwriteEntry_of_ne]
    exact h.pointers.ptr_ne hp.1 hj (Ne.symm hne) (h.ptr_zero_ne hp hk)

end Disk

end InodeFs
