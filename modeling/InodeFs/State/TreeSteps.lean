import InodeFs.Properties.Renaming
import InodeFs.Properties.Writing
import InodeFs.Spec.Service
import InodeFs.State.Spared

/-!
# What a call does to the file tree

Each changing call, on the disk, does to the file tree of the disk what `Op.Admits` says: the
change of the naming graph is a change of paths, and the records it replaces are those of one or
two nodes, which have one path each.

Each theorem has two halves. One is about the naming graph, whose change is known from
`InodeFs.Ops.Create`, `InodeFs.State.Removal` and `InodeFs.Properties.Runs`, and the general facts
of `InodeFs.Lib.PathTree` turn it into a change of paths. The other one is about labels: the records
that a call replaces have new nodes, and every other inode in use is spared (`Disk.Spares`).

The results are `Sound.tree_created`, `Sound.tree_written`, `tree_truncated`, `tree_removed`,
`Sound.tree_touched` and `Sound.tree_moveEntry`, one for each kind of call. What a write or a
truncation leaves open about the bytes is `Sound.overwritten` and `resized`.

The times are read off the clock of the environment, in the order in which the source asks for them,
so that the two stamps of a rename are four different readings.
-/

namespace InodeFs

open Disk (Marks)

namespace Disk

variable {d d' : Disk} {as : List Name} {a : Name} {i p k : ℕ} {env : Env}

/-- A change that spares all nodes but one changes what is at its path. -/
theorem Sound.tree_modify (hd : d.Sound) (h : Spares (· = i) d d')
    (hi : d.graph.resolve 4 (fileNames as) = some i) {f : Node → Node}
    (hnode : d'.node i = f (d.node i)) :
    d.graph.tree 4 Name.fileName d'.node = d.tree.modify as f :=
  hd.directories.graph.proper.tree_modify Name.fileName_injective hi hnode fun _ _ hj hne =>
    h.node (hd.lt_of_named (named_of_resolve hj)) (hd.imap_of_named (named_of_resolve hj)) hne

/-- A directory whose record changed is the same node with other times. -/
theorem node_stamped {y : INode} {mtime ctime : BitVec 64} (hp : d.IsDir p)
    (hinode : d'.inode p = y) (hy : (d.inode p).SameLabels y) (hmtime : y.mtime = mtime)
    (hctime : y.ctime = ctime) : d'.node p = (d.node p).stamped mtime ctime := by
  have hdir : d'.IsDir p := ⟨hp.1, by rw [hinode, hy.mode]; exact hp.2⟩
  rw [node, contents_of_isDir hdir, attributes, hinode, hy.uid, hy.gid, hy.atime, hmtime, hctime,
    Node.stamped, node, contents_of_isDir hp, attributes]

/-- A file whose size or blocks changed is the same node with other bytes. -/
theorem node_withBytes {y : INode} (hi : ¬ d.IsDir i) (hinode : d'.inode i = y)
    (hy : (d.inode i).SameLabels y) (hmtime : y.mtime = (d.inode i).mtime)
    (hctime : y.ctime = (d.inode i).ctime) : d'.node i = (d.node i).withBytes (d'.bytes i) := by
  have hdir : ¬ d'.IsDir i := fun h => hi ⟨h.1, by rw [← hy.mode, ← hinode]; exact h.2⟩
  rw [node, contents_of_not_isDir hdir, attributes, hinode, hy.uid, hy.gid, hy.atime, hmtime,
    hctime]
  rfl

/-! ### Creation -/

theorem sameLabels_addEntry (env : Env) (hp : p < 32768) (clock : ℕ) (e : DictioryContent) :
    (d.inode p).SameLabels ((d.addEntry env e clock p).inode p) := by
  rw [inode_addEntry_self hp, withBlock]
  split
  · exact (INode.sameLabels_setPtr _ _ _).trans (INode.sameLabels_grown env clock _)
  · exact INode.sameLabels_grown env clock _

/-- A directory with one entry more has two new times. -/
theorem node_grown (hp : d.IsDir p) {clock : ℕ} {e : DictioryContent} :
    (d.addEntry env e clock p).node p =
      (d.node p).stamped (env.time clock) (env.time (clock + 1)) :=
  node_stamped hp rfl (sameLabels_addEntry env hp.1 clock e) (by rw [inode_addEntry_self hp.1]; rfl)
    (by rw [inode_addEntry_self hp.1]; rfl)

/-- The node of a fresh inode. -/
theorem node_fresh (kind : Kind) (hk : k < 32768)
    (hinode : d'.inode k = freshINode env kind.mode k (d.inode k)) :
    d'.node k = .fresh env kind.contents := by
  have hattributes : d'.attributes k = ⟨env.uid, env.gid, env.time 0, env.time 1, env.time 2⟩ := by
    rw [attributes, hinode]
    rfl
  have hcontents : d'.contents k = kind.contents := by
    cases kind with
    | file =>
      have hdir : ¬ d'.IsDir k := fun h => by
        have hmode : regMode = dirMode := by rw [← h.2, hinode]; rfl
        exact absurd hmode (by decide)
      rw [contents_of_not_isDir hdir, bytes, hinode]
      rfl
    | directory => exact contents_of_isDir ⟨hk, by rw [hinode]; rfl⟩
  rw [node, hattributes, hcontents, Node.fresh]

/-- A creation concerns the parent alone. -/
theorem Sound.spares_created (hd : d.Sound) (mode : BitVec 32) (h : d.CanCreate p a) :
    Spares (· = p) d (d.created env mode p a d.nextInode) := by
  have hfree := h.inode.imap_nextInode
  have hparent := h.inode_parent env mode hd
  refine ((spares_withFreshInode env mode d.nextInode_lt hfree).trans
    ((hd.withFreshInode env mode d.nextInode_lt hfree).spares_addEntry
      (h.isDir_parent env mode hd) (by rw [hparent]; exact h.count_lt)
      (h.hasRoom env mode hd) env _ 3 (hd.created env mode h))).mono
    fun j hj => hj.resolve_left id

theorem Sound.sameLabels_created (hd : d.Sound) (mode : BitVec 32) (h : d.CanCreate p a) :
    (d.inode p).SameLabels ((d.created env mode p a d.nextInode).inode p) := by
  have hlabels := sameLabels_addEntry env (d := d.withFreshInode env mode d.nextInode) h.dir.1 3
    ⟨a.fileName, BitVec.ofInt 32 d.nextInode⟩
  rwa [h.inode_parent env mode hd] at hlabels

/-- **A creation, in the tree**: the parent is stamped and the path is set. -/
theorem Sound.tree_created (hd : d.Sound) (kind : Kind) (h : d.CanCreate p a)
    (hp : d.graph.resolve 4 (fileNames as) = some p) :
    (d.created env kind.mode p a d.nextInode).tree =
      (d.tree.modify as (.stamped (env.time 3) (env.time 4))).set (as ++ [a])
        (.fresh env kind.contents) := by
  set d' := d.created env kind.mode p a d.nextInode with hd'
  have hfree := h.inode.imap_nextInode
  have hgraph : d'.graph = d.graph.insert p a.fileName d.nextInode :=
    hd.graph_created env kind.mode h
  have hleaf : d.graph d.nextInode = [] := graph_of_not_isDir (hd.not_isDir_of_free hfree)
  have hinsert := hd.directories.graph.proper.tree_insert d'.graph d'.node
    Name.fileName_injective (e := a) (i := d.nextInode) hp h.fresh
    (fun q b => by rw [hgraph, NameGraph.lookup_insert h.fresh])
    (fun b => NameGraph.lookup_eq_none.mpr fun e he => by rw [hleaf] at he; cases he)
    (h.ne_nextInode hd).symm
  have hnode : d'.node p = (d.node p).stamped (env.time 3) (env.time 4) := by
    rw [hd', Disk.created, node_grown (h.isDir_parent env kind.mode hd),
      (spares_withFreshInode env kind.mode d.nextInode_lt hfree).node h.dir.1
        (hd.directories.dir p h.dir).marked id]
  rw [tree, hinsert, hd.tree_modify (hd.spares_created kind.mode h) hp hnode,
    node_fresh kind d.nextInode_lt (h.inode_created_new env kind.mode hd)]

/-! ### Writing and truncation -/

section Write

variable {size offset : ℕ}

theorem sameLabels_storeBlocks (hi : i < 32768) (r n : ℕ) (content : ℕ → Block) :
    (d.inode i).SameLabels ((d.storeBlocks i r n content).inode i) ∧
      ((d.storeBlocks i r n content).inode i).mtime = (d.inode i).mtime ∧
      ((d.storeBlocks i r n content).inode i).ctime = (d.inode i).ctime := by
  induction n generalizing d r content with
  | zero => exact ⟨.refl _, rfl, rfl⟩
  | succ n ih =>
    obtain ⟨hlabels, hmtime, hctime⟩ := ih (d := d.storeBlock i r (content 0)) (r + 1)
      fun k => content (k + 1)
    have hfirst : (d.storeBlock i r (content 0)).inode i = (d.inode i).setPtr r d.nextData := by
      rw [storeBlock, inode_setData hi, inode_mountBlock, if_pos rfl]
    rw [hfirst] at hlabels hmtime hctime
    obtain ⟨hmtime', hctime'⟩ := INode.times_setPtr (d.inode i) r d.nextData
    exact ⟨(INode.sameLabels_setPtr _ _ _).trans hlabels, hmtime.trans hmtime',
      hctime.trans hctime'⟩

/-- A write changes the size and the blocks of a record only. -/
theorem sameLabels_written (d : Disk) (size offset : ℕ) (hi : i < 32768) (buffer : ℕ → Byte) :
    (d.inode i).SameLabels ((d.written i buffer size offset).inode i) ∧
      ((d.written i buffer size offset).inode i).mtime = (d.inode i).mtime ∧
      ((d.written i buffer size offset).inode i).ctime = (d.inode i).ctime := by
  have hfirst : (d.inode i).SameLabels ((d.firstFilled i buffer size offset).inode i) ∧
      ((d.firstFilled i buffer size offset).inode i).mtime = (d.inode i).mtime ∧
      ((d.firstFilled i buffer size offset).inode i).ctime = (d.inode i).ctime := by
    rw [firstFilled, inode_setData hi, firstMounted]
    split
    · rw [inode_mountBlock, if_pos rfl]
      exact ⟨INode.sameLabels_setPtr _ _ _, INode.times_setPtr _ _ _⟩
    · exact ⟨.refl _, rfl, rfl⟩
  obtain ⟨hlabels, hmtime, hctime⟩ := sameLabels_storeBlocks
    (d := d.firstFilled i buffer size offset) hi (offset / 4096 + 1) (nextCount size offset)
    fun k => nextBlock buffer size (firstCount size offset + 4096 * k)
  rw [written, inode_setInode_self, filled]
  exact ⟨(hfirst.1.trans hlabels).trans (INode.sameLabels_withSize _ _),
    hmtime.trans hfirst.2.1, hctime.trans hfirst.2.2⟩

/-- **A write, in the tree**: the bytes at the path are replaced. -/
theorem Sound.tree_written (hd : d.Sound) (hfile : d.IsFile i) (h : d.CanWrite i size offset)
    (buffer : ℕ → Byte) (hi : d.graph.resolve 4 (fileNames as) = some i) :
    (d.written i buffer size offset).tree =
      d.tree.modify as (.withBytes ((d.written i buffer size offset).bytes i)) := by
  have hchange := FileChange.written hd hfile h buffer
  obtain ⟨hlabels, hmtime, hctime⟩ := sameLabels_written d size offset hfile.lt buffer
  rw [tree, hchange.graph]
  exact hd.tree_modify (hchange.spares hd hfile.lt) hi
    (node_withBytes hfile.not_isDir rfl hlabels hmtime hctime)

/-- The bytes after a write. -/
theorem Sound.overwritten (hd : d.Sound) (hfile : d.IsFile i) (h : d.CanWrite i size offset)
    (buffer : ℕ → Byte) :
    Overwritten (d.bytes i) buffer size offset ((d.written i buffer size offset).bytes i) where
  length := by rw [length_bytes, stSize_written h.fits]
  before k hk hold := by
    rw [length_bytes] at hold
    rw [getElem?_bytes (by rw [stSize_written h.fits]; omega), getElem?_bytes hold,
      byteAt_written_before hd hfile h buffer hk]
  written k hk hlast := by
    rw [getElem?_bytes (by rw [stSize_written h.fits]; omega),
      byteAt_written hd hfile h buffer hk hlast]

/-- A truncation. -/
theorem spares_truncated {m : ℕ} (hs : MarkedFrom d s) (hfile : d.IsFile i) :
    Spares (· = i) d (s.setInode i ((d.inode i).withSize (BitVec.ofNat 64 m))) :=
  (hs.marks.spares.trans (spares_setInode hfile.lt)).mono fun _ hj => hj.resolve_left id

/-- **A truncation, in the tree**: the bytes at the path are replaced. -/
theorem tree_truncated {m : ℕ} (hs : MarkedFrom d s) (hfile : d.IsFile i)
    (hi : d.graph.resolve 4 (fileNames as) = some i) :
    (s.setInode i ((d.inode i).withSize (BitVec.ofNat 64 m))).tree =
      d.tree.modify as (.withBytes
        ((s.setInode i ((d.inode i).withSize (BitVec.ofNat 64 m))).bytes i)) := by
  rw [tree, graph_truncated hs hfile]
  exact hs.sound.tree_modify (spares_truncated hs hfile) hi (node_withBytes hfile.not_isDir
    (inode_setInode_self _ _) (INode.sameLabels_withSize _ _) rfl rfl)

/-- The bytes after a truncation. -/
theorem resized {m : ℕ} (hs : MarkedFrom d s) (hfile : d.IsFile i) (hm : m ≤ 2146304) :
    Resized (d.bytes i) m ((s.setInode i ((d.inode i).withSize (BitVec.ofNat 64 m))).bytes i) := by
  have hsize : ((s.setInode i ((d.inode i).withSize (BitVec.ofNat 64 m))).inode i).stSize.toNat =
      m := by
    rw [inode_setInode_self, INode.stSize_withSize, BitVec.toNat_ofNat]
    exact Nat.mod_eq_of_lt (by omega)
  refine ⟨by rw [length_bytes, hsize], fun k hk hold => ?_⟩
  rw [length_bytes] at hold
  rw [getElem?_bytes (by rw [hsize]; exact hk), getElem?_bytes hold,
    byteAt_truncated hs hfile.lt hfile.lt]

end Write

/-! ### Removal -/

section Removed

variable {name : Name} (hs : MarkedFrom d s) (hp : d.IsDir p) (hcount : (d.inode p).count ≤ 12)
  (hk : k < (d.inode p).count) (hmarks : Marks (s.removeEntry p k ((d.inode p).shrunk env 0)) d')
include hs hp hk hmarks

omit hs hk in
/-- The directory shrinks by an entry. -/
theorem inode_removed : d'.inode p = (d.inode p).shrunk env 0 := by
  rw [hmarks.inode p hp.1, inode_removeEntry hp.1, if_pos rfl]

include hcount in
/-- A removal concerns the directory alone. -/
theorem spares_removed : Spares (· = p) d d' := by
  have hinode : s.inode p = d.inode p := hs.marks.inode p hp.1
  have hsp : s.IsDir p := ⟨hp.1, hinode ▸ hp.2⟩
  have hremoved := (hs.sound'.removed env 0 hsp (by rw [hinode]; exact hcount)
    (by rw [hinode]; exact hk)).1
  rw [hinode] at hremoved
  refine ((hs.marks.spares.trans (hs.sound'.spares_removeEntry hsp (by rw [hinode]; exact hk)
    hremoved)).trans hmarks.spares).mono fun j hj => ?_
  exact (hj.resolve_right id).resolve_left id

include hcount in
/-- An entry taken out of a directory, as `fs_unlink` and `fs_rmdir` leave it. -/
theorem tree_removed (hfinds : d.Finds as name p i)
    (hedge : (d.entryOf (d.inode p) k).edge = (name.fileName, i)) :
    d'.tree = (d.tree.modify as (.stamped (env.time 1) (env.time 0))).prune (as ++ [name]) := by
  have hmem := NameGraph.mem_of_lookup hfinds.2
  have hproper := hs.sound.directories.graph.proper
  obtain ⟨-, hgraph⟩ := hs.of_removed hp hcount hk hmarks
  rw [hedge] at hgraph
  have hremove := hproper.tree_remove d'.graph d'.node Name.fileName_injective
    (e := name) hfinds.1 fun q b => by
      rw [(hproper.remove p _).lookup_of_similar hgraph, hproper.lookup_remove hmem]
  have hnode : d'.node p = (d.node p).stamped (env.time 1) (env.time 0) :=
    node_stamped hp (inode_removed hp hmarks) (INode.sameLabels_shrunk env 0 _) rfl rfl
  rw [tree, hremove, hs.sound.tree_modify (spares_removed hs hp hcount hk hmarks) hfinds.1 hnode]

end Removed

/-- A touched node. -/
theorem Sound.tree_touched (hd : d.Sound) (hi : d.graph.resolve 4 (fileNames as) = some i) :
    (d.setInode i ((d.inode i).touched env)).tree = d.tree.modify as (.touched (env.time 0)) := by
  have hlt := hd.lt_of_named (named_of_resolve hi)
  have hinode := inode_setInode_self (d := d) i ((d.inode i).touched env)
  have hcontents : (d.setInode i ((d.inode i).touched env)).contents i = d.contents i := by
    have hdir : (d.setInode i ((d.inode i).touched env)).IsDir i ↔ d.IsDir i :=
      isDir_replace (fun j _ => inode_setInode ..) (INode.sameBlocks_touched env _)
    have hbytes : (d.setInode i ((d.inode i).touched env)).bytes i = d.bytes i := by
      rw [bytes, bytes, hinode, INode.stSize_touched]
      refine List.map_congr_left fun q _ => ?_
      rw [Disk.byteAt, Disk.byteAt, blockAt_setInode hlt (INode.sameBlocks_touched env _)]
    rw [contents, contents, hbytes]
    simp only [hdir]
  have hnode : (d.setInode i ((d.inode i).touched env)).node i =
      (d.node i).touched (env.time 0) := by
    rw [node, hcontents, attributes, hinode]
    rfl
  rw [tree, graph_setInode hlt (INode.sameBlocks_touched env _) rfl]
  exact hd.tree_modify (spares_setInode hlt) hi hnode

/-! ### Renaming -/

section Move

variable {parent parent' : List Name} {name name' : Name} {q : ℕ} (hd : d.Sound)
  (h : d.CanRename parent parent' name name' p q i) (hk : k < (d.inode p).count)
include hd h hk

omit hk hd in
/-- The other directories stay directories. -/
theorem isDir_removeEntry_of_ne {y : INode} : (d.removeEntry p k y).IsDir q := by
  refine ⟨h.dir.1, ?_⟩
  rw [inode_removeEntry h.dir.1, if_neg h.ne]
  exact h.dir.2

omit hk hd in
/-- The old directory shrinks by an entry. -/
theorem inode_moveEntry :
    (d.moveEntry env p k q).inode p = (d.inode p).shrunk env 2 := by
  have hp := h.finds.isDir
  rw [Disk.moveEntry, inode_addEntry_of_ne hp.1 h.ne.symm, inode_removeEntry hp.1, if_pos rfl]

omit hd hk in
theorem sameLabels_moveEntry : (d.inode q).SameLabels ((d.moveEntry env p k q).inode q) := by
  have hlabels := sameLabels_addEntry env (d := d.removeEntry p k ((d.inode p).shrunk env 2))
    h.dir.1 0 (d.entryOf (d.inode p) k)
  rwa [inode_removeEntry h.dir.1, if_neg h.ne] at hlabels

/-- A move concerns the two directories alone. -/
theorem Sound.spares_moveEntry (hedge : (d.entryOf (d.inode p) k).edge = (name.fileName, i)) :
    Spares (fun j => j = p ∨ j = q) d (d.moveEntry env p k q) := by
  have hp := h.finds.isDir
  obtain ⟨hremoved, -⟩ := hd.removed env 2 hp h.small hk
  have hinode : (d.removeEntry p k ((d.inode p).shrunk env 2)).inode q = d.inode q := by
    rw [inode_removeEntry h.dir.1, if_neg h.ne]
  have hroom : (d.removeEntry p k ((d.inode p).shrunk env 2)).HasRoom
      ((d.removeEntry p k ((d.inode p).shrunk env 2)).inode q) := by
    rw [hinode]
    simpa only [HasRoom, HasBlock, dmap_removeEntry] using h.room
  exact (hd.spares_removeEntry hp hk hremoved).trans
    (hremoved.spares_addEntry (isDir_removeEntry_of_ne h) (by rw [hinode]; exact h.count_lt) hroom
      env _ 0 (hd.moveEntry h env hk hedge).1)

/-- **A rename, in the tree**: both directories are stamped, and the node moves under its old name.
-/
theorem Sound.tree_moveEntry (hedge : (d.entryOf (d.inode p) k).edge = (name.fileName, i)) :
    (d.moveEntry env p k q).tree =
      ((d.tree.modify parent (.stamped (env.time 3) (env.time 2))).modify parent'
        (.stamped (env.time 0) (env.time 1))).move (parent ++ [name]) (parent' ++ [name]) := by
  set d' := d.moveEntry env p k q with hd'
  have hp := h.finds.isDir
  have hproper := hd.directories.graph.proper
  obtain ⟨hremoved, -⟩ := hd.removed env 2 hp h.small hk
  -- the nodes of the two directories
  have hnodep : d'.node p = (d.node p).stamped (env.time 3) (env.time 2) :=
    node_stamped hp (inode_moveEntry h) (INode.sameLabels_shrunk env 2 _) rfl rfl
  have hnodeq : d'.node q = (d.node q).stamped (env.time 0) (env.time 1) := by
    rw [hd', Disk.moveEntry, node_grown (isDir_removeEntry_of_ne h),
      (hd.spares_removeEntry hp hk hremoved).node h.dir.1 (hd.directories.dir q h.dir).marked h.ne]
  have hmove := hproper.tree_move d'.graph d'.node Name.fileName_injective
    (e := name) (c := name) h.finds.1 h.finds.2 h.found h.below
    (hd.lookup_moveEntry h env hk hedge)
  have hlabels : d.graph.tree 4 Name.fileName d'.node =
      (d.tree.modify parent (.stamped (env.time 3) (env.time 2))).modify parent'
        (.stamped (env.time 0) (env.time 1)) :=
    hproper.tree_modify_two Name.fileName_injective h.finds.1 h.found h.ne hnodep hnodeq
      fun _ j hj hjp hjq => (hd.spares_moveEntry h hk hedge).node
        (hd.lt_of_named (named_of_resolve hj)) (hd.imap_of_named (named_of_resolve hj))
          fun hand => hand.elim hjp hjq
  rw [tree, hmove, hlabels]

end Move

end Disk

end InodeFs
