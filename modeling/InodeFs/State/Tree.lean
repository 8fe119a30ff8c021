import InodeFs.Properties.Contents
import InodeFs.Spec.FileTree

/-!
# The file tree of a disk

The abstraction from a disk to the file tree it stands for: the naming graph gives the paths, the
inode records the attributes, and the blocks the bytes.

`Disk.tree` labels each inode with its node (`Disk.node`), and takes the path tree of the naming
graph. The contents of a directory are not part of its label: its children are other paths of the
tree, so that a new entry changes the label of the parent only in its times.

Two things are not on the tree. The mode is one of two, and shown as the kind of the contents;
`Disk.Plain` says that this loses nothing. Link counts are 1 throughout. Both are what `fs_getattr`
reports, and `Sound.stat_tree` that it can be computed from the node at a path.

A sound disk has one path for each named inode, so that a change of one inode is a change at one
path. The listing of a directory has an order that the tree does not have; `Sound.exists_children`
says that it names the children, each once.
-/

namespace InodeFs

namespace Disk

variable (d : Disk)

/-- The owner and the times of an inode. -/
def attributes (i : ℕ) : Attributes :=
  ⟨(d.inode i).stUid, (d.inode i).stGid, (d.inode i).atime, (d.inode i).mtime, (d.inode i).ctime⟩

/-- The bytes of an inode below its size. -/
def bytes (i : ℕ) : List Byte := (List.range (d.inode i).stSize.toNat).map (d.byteAt i)

/-- What an inode is. -/
def contents (i : ℕ) : Contents := if d.IsDir i then .directory else .file (d.bytes i)

/-- The node of an inode. -/
def node (i : ℕ) : Node := ⟨d.attributes i, d.contents i⟩

/-- **The file tree** of a disk. -/
def tree : FileTree := d.graph.tree 4 Name.fileName d.node

/-- Inode `i` is the root or has a name. -/
def Named (i : ℕ) : Prop := i = 4 ∨ ∃ p a, (a, i) ∈ d.graph p

/-- The named inodes have one link, and are directories or regular files. -/
structure Plain : Prop where
  nlink : ∀ i, d.Named i → (d.inode i).stNlink = 1
  mode : ∀ i, d.Named i → ¬ d.IsDir i → (d.inode i).stMode = regMode

variable {d} {d' : Disk} {as : List Name} {a : Name} {i p : ℕ}

/-- What a path leads to is the root or has a name. -/
theorem named_of_resolve {cs : List FileName} (h : d.graph.resolve 4 cs = some i) : d.Named i := by
  cases cs using List.reverseRecOn with
  | nil => exact .inl (Option.some.inj h).symm
  | append_singleton cs c =>
    obtain ⟨p, -, hp⟩ := NameGraph.resolve_concat_eq_some.mp h
    exact .inr ⟨p, c, NameGraph.mem_of_lookup hp⟩

theorem Sound.lt_of_named (hd : d.Sound) (h : d.Named i) : i < 32768 := by
  rcases h with rfl | ⟨p, a, h⟩
  · decide
  · exact hd.directories.graph.target_lt p _ h

/-- What has a name is marked. -/
theorem Sound.imap_of_named (hd : d.Sound) (h : d.Named i) : d.imap i = true := by
  rcases h with rfl | ⟨p, a, h⟩
  · exact (hd.directories.dir 4 hd.directories.root).marked
  · exact hd.directories.graph.target_marked p _ h

/-- A path that is found leads to a directory or to a file in use. -/
theorem Sound.isFile_of_named (hd : d.Sound) (h : d.Named i) (hdir : ¬ d.IsDir i) : d.IsFile i :=
  ⟨hd.lt_of_named h, hd.imap_of_named h, hdir⟩

/-- The node at a path is the one of the inode there. -/
theorem tree_of_resolve (h : d.graph.resolve 4 (fileNames as) = some i) :
    d.tree as = some (d.node i) := NameGraph.tree_of_resolve h

theorem tree_nil : d.tree [] = some (d.node 4) := rfl

/-- A node at a path comes from an inode there. -/
theorem exists_of_tree {x : Node} (h : d.tree as = some x) :
    ∃ i, d.graph.resolve 4 (fileNames as) = some i ∧ d.node i = x := Option.map_eq_some_iff.mp h

/-- The tree has nothing exactly where no path leads. -/
theorem tree_eq_none : d.tree as = none ↔ d.graph.resolve 4 (fileNames as) = none :=
  NameGraph.tree_eq_none

/-- Above every node there are nodes. -/
theorem tree_closed : d.tree.Closed := NameGraph.tree_closed

/-- A name that is not in a directory. -/
theorem tree_concat_eq_none (h : d.graph.resolve 4 (fileNames as) = some p) :
    d.tree (as ++ [a]) = none ↔ d.graph.lookup p a.fileName = none := by
  rw [tree_eq_none, fileNames, List.map_append, NameGraph.resolve_append, h, Option.bind_some,
    List.map_singleton, NameGraph.resolve_cons]
  cases d.graph.lookup p a.fileName <;> simp

theorem contents_of_isDir (h : d.IsDir i) : d.contents i = .directory := if_pos h

theorem contents_of_not_isDir (h : ¬ d.IsDir i) : d.contents i = .file (d.bytes i) := if_neg h

/-- A directory of the tree is one of the disk. -/
theorem exists_of_isDirectory (h : d.tree.IsDirectory as) :
    ∃ p, d.graph.resolve 4 (fileNames as) = some p ∧ d.IsDir p := by
  obtain ⟨x, hx, hdir⟩ := h
  obtain ⟨p, hp, rfl⟩ := exists_of_tree hx
  refine ⟨p, hp, ?_⟩
  by_contra hnot
  rw [node, contents_of_not_isDir hnot] at hdir
  cases hdir

/-- The inode of a file with its bytes. -/
theorem Sound.exists_isFile (hd : d.Sound) {bytes : List Byte} (h : d.tree.HasBytes as bytes) :
    ∃ i, d.graph.resolve 4 (fileNames as) = some i ∧ d.IsFile i ∧ d.bytes i = bytes := by
  obtain ⟨x, hx, hbytes⟩ := h
  obtain ⟨i, hi, rfl⟩ := exists_of_tree hx
  have hnot : ¬ d.IsDir i := fun hdir => by
    rw [node, contents_of_isDir hdir] at hbytes
    cases hbytes
  rw [node, contents_of_not_isDir hnot] at hbytes
  exact ⟨i, hi, hd.isFile_of_named (named_of_resolve hi) hnot, Contents.file.inj hbytes⟩

/-- The contents are as long as the size says. -/
@[simp] theorem length_bytes (d : Disk) (i : ℕ) :
    (d.bytes i).length = (d.inode i).stSize.toNat := by
  simp [bytes]

/-- They are the bytes of the blocks. -/
theorem getElem?_bytes {k : ℕ} (hk : k < (d.inode i).stSize.toNat) :
    (d.bytes i)[k]? = some (d.byteAt i k) := by
  simp [bytes, hk]

/-! ### What the observers see -/

/-- The children of a directory are the names of its edges. -/
theorem mem_children_tree (h : d.graph.resolve 4 (fileNames as) = some p) :
    a ∈ d.tree.children as ↔ a.fileName ∈ (d.graph p).map Prod.fst := by
  have hresolve : d.graph.resolve 4 (fileNames (as ++ [a])) =
      (d.graph.lookup p a.fileName).bind fun q => d.graph.resolve q [] := by
    rw [fileNames, List.map_append, NameGraph.resolve_append, h, Option.bind_some]
    rfl
  rw [FileTree.mem_children, ne_eq, tree_eq_none, hresolve]
  cases hl : d.graph.lookup p a.fileName with
  | none =>
    simp only [Option.bind_none, not_true_eq_false, List.mem_map, false_iff]
    rintro ⟨e, he, hea⟩
    exact NameGraph.lookup_eq_none.mp hl e he hea
  | some j =>
    simp only [Option.bind_some, NameGraph.resolve_nil, reduceCtorEq, not_false_eq_true, true_iff]
    exact List.mem_map_of_mem (f := Prod.fst) (NameGraph.mem_of_lookup hl)

/-- The names of a directory, each once, are its children. -/
theorem Sound.exists_children (hd : d.Sound) (h : d.graph.resolve 4 (fileNames as) = some p) :
    ∃ names : List Name, (d.graph p).map Prod.fst = fileNames names ∧ names.Nodup ∧
      ∀ a, a ∈ names ↔ a ∈ d.tree.children as := by
  obtain ⟨names, hnames⟩ := hd.exists_names p
  refine ⟨names, hnames, ?_, fun a => ?_⟩
  · have hnodup := hd.directories.graph.proper.names p
    rw [hnames] at hnodup
    exact hnodup.of_map _
  · rw [mem_children_tree h, hnames, List.mem_map_of_injective Name.fileName_injective]

/-- A directory has as many children as entries. -/
theorem Sound.ncard_children (hd : d.Sound) (h : d.graph.resolve 4 (fileNames as) = some p)
    (hp : d.IsDir p) : (d.tree.children as).ncard = (d.inode p).count := by
  obtain ⟨names, hnames, hnodup, hmem⟩ := hd.exists_children h
  have hset : d.tree.children as = (names.toFinset : Set Name) := by
    ext a
    rw [Finset.mem_coe, List.mem_toFinset, hmem]
  have hlength := congrArg List.length hnames
  rw [List.length_map, length_graph hp, List.length_map] at hlength
  rw [hset, Set.ncard_coe_finset, List.toFinset_card_of_nodup hnodup, hlength]

/-- The size of a node as the tree has it. -/
theorem Sound.size_tree (hd : d.Sound) (h : d.graph.resolve 4 (fileNames as) = some i) :
    d.tree.size as (d.node i) = (d.inode i).stSize.toNat := by
  by_cases hdir : d.IsDir i
  · rw [FileTree.size_of_directory (contents_of_isDir hdir), hd.ncard_children h hdir,
      (hd.directories.dir i hdir).size_eq]
  · rw [FileTree.size_of_file (contents_of_not_isDir hdir), length_bytes]

/-- **The attributes** that are read from the record are those of the tree. -/
theorem Sound.stat_tree (hd : d.Sound) (hplain : d.Plain)
    (h : d.graph.resolve 4 (fileNames as) = some i) :
    passValueFromINodeToStat (d.inode i) = d.tree.stat as (d.node i) := by
  have hnamed := named_of_resolve h
  have hmode : (d.inode i).stMode = (d.contents i).mode := by
    by_cases hdir : d.IsDir i
    · rw [contents_of_isDir hdir, hdir.2, Contents.mode]
    · rw [contents_of_not_isDir hdir, hplain.mode i hnamed hdir, Contents.mode]
  rw [passValueFromINodeToStat, FileTree.stat, hd.size_tree h, hplain.nlink i hnamed, hmode,
    BitVec.ofNat_toNat, BitVec.setWidth_eq]
  rfl

end Disk

end InodeFs
