import InodeFs.Lib.Traces
import InodeFs.Properties.MissingPaths
import InodeFs.Properties.ReadLength
import InodeFs.Properties.Start
import InodeFs.Properties.Statistics
import InodeFs.State.TreeSteps

/-!
# The service is a file tree

A run of the file system is what its process does from `main` on: requests of the kernel, each
served by the callback in `fs_operations`, whose answers are all that a user sees.
`service_refines` says that the requests and answers of every run of safe requests are those of a
run of the abstract file tree, and that every safe request is answered.

The tree is `InodeFs.Spec.FileTree`, and what its answers may be is `InodeFs.Spec.Service`. It is
the tree of this file system, and not an ideal one: the number of bytes that `fs_read` reports does
not depend on the offset, a write leaves open the last byte of a block it ends in and cuts the file
at its end, the bytes behind the old end of a file that grows are open, and `fs_rename` keeps the
old name. What it does say is that no request has an effect on anything but its node, and that there
is nothing else to see.

A request is safe if its call is (`Op.Safe`), or if it only reads and what it needs is there.
`Op.Safe.refines` and `Callback.Safe.refines` are the step of the simulation, one case for each
callback, with `Disk.tree` as the map from disks to trees; `Disk.Plain` is what the simulation adds
to soundness, that the inodes with names have the labels of files and directories. The induction
over the run is that of `InodeFs.Lib.Traces`.
-/

namespace InodeFs

open Disk (Marks)

/-! ### Requests that are safe -/

/-- What a request needs to be answered as the tree says: a changing call is safe; a path is found
where it is needed, or its last component alone is missing, in a directory that is not full; and a
read stays within what an inode can address. The tree says what the code does then, and that is not
always what the request is for: it has the defects that show in safe requests. -/
def Callback.Safe (d : Disk) : Callback → Prop
  | .change op => op.Safe d
  | .getattr path _ => d.tree path ≠ none ∨ ∃ as a, path = as ++ [a] ∧
      d.tree.IsDirectory as ∧ (d.tree.children as).ncard < 1536
  | .readdir path _ => d.tree.IsDirectory path
  | .read path _ _ size offset => (∃ bytes, d.tree.HasBytes path bytes) ∧
      offset + size ≤ 8437760
  | .utime path _ => d.tree path ≠ none
  | .openFile path _ => d.tree path ≠ none
  | .statfs | .release _ _ | .opendir _ _ | .releasedir _ _ => True

/-! ### Labels stay -/

namespace Disk

variable {d d' : Disk} {a : Name} {i p k : ℕ} {env : Env}

/-- Named inodes keep their labels, or are initialised. -/
theorem Plain.change (h : d.Plain) (hnamed : ∀ j, d'.Named j →
      d.Named j ∧ (d.inode j).SameLabels (d'.inode j) ∨
      (d'.inode j).stNlink = 1 ∧ ((d'.inode j).stMode = regMode ∨ d'.IsDir j)) : d'.Plain where
  nlink j hj := by
    rcases hnamed j hj with ⟨hold, hlabels⟩ | ⟨hnlink, -⟩
    · rw [hlabels.nlink, h.nlink j hold]
    · exact hnlink
  mode j hj hdir := by
    rcases hnamed j hj with ⟨hold, hlabels⟩ | ⟨-, hmode⟩
    · rw [hlabels.mode]
      exact h.mode j hold fun hd => hdir ⟨hd.1, by rw [hlabels.mode]; exact hd.2⟩
    · exact hmode.resolve_right hdir

/-- The named inodes are among the old ones, and those that are not spared keep their labels. -/
theorem Plain.of_spares {S : ℕ → Prop} (h : d.Plain) (hd : d.Sound) (hspares : Spares S d d')
    (hnamed : ∀ j, d'.Named j → d.Named j)
    (hlabels : ∀ j, d.Named j → S j → (d.inode j).SameLabels (d'.inode j)) : d'.Plain :=
  h.change fun j hj => .inl ⟨hnamed j hj, by
    have hold := hnamed j hj
    by_cases hS : S j
    · exact hlabels j hold hS
    · rw [hspares.inode j (hd.lt_of_named hold) (hd.imap_of_named hold) hS]
      exact .refl _⟩

theorem Named.of_graph (hgraph : d'.graph = d.graph) (h : d'.Named i) : d.Named i := by
  rwa [Named, ← hgraph]

theorem plain_initial (env : Env) (behind : Fin 27 → Byte) : (initial env behind).Plain := by
  have hroot (i : ℕ) (hi : (initial env behind).Named i) : i = 4 := by
    rcases hi with rfl | ⟨p, a, hmem⟩
    · rfl
    · rw [graph_initial] at hmem
      cases hmem
  refine ⟨fun i hi => ?_,
    fun i hi hdir => absurd ((isDir_initial env behind).mpr (hroot i hi)) hdir⟩
  rw [hroot i hi, inode_initial, if_pos rfl]
  rfl

/-- The new inode has one link and the mode it was asked for. -/
theorem Plain.created (hplain : d.Plain) (hd : d.Sound) (kind : Kind) (h : d.CanCreate p a) :
    (d.created env kind.mode p a d.nextInode).Plain := by
  have hnew := h.inode_created_new env kind.mode hd
  refine hplain.change fun j hj => ?_
  have hcases : d.Named j ∨ j = d.nextInode := by
    rcases hj with rfl | ⟨q, b, hmem⟩
    · exact .inl (.inl rfl)
    · rw [hd.graph_created env kind.mode h] at hmem
      rcases NameGraph.mem_insert.mp hmem with hold | ⟨-, heq⟩
      · exact .inl (.inr ⟨q, b, hold⟩)
      · exact .inr (Prod.mk.inj heq).2
  rcases hcases with hold | rfl
  · refine .inl ⟨hold, ?_⟩
    by_cases hjp : j = p
    · rw [hjp]
      exact hd.sameLabels_created kind.mode h
    · rw [(hd.spares_created kind.mode h).inode j (hd.lt_of_named hold) (hd.imap_of_named hold) hjp]
      exact .refl _
  · refine .inr ⟨by rw [hnew]; rfl, ?_⟩
    cases kind with
    | file => exact .inl (by rw [hnew]; rfl)
    | directory => exact .inr ⟨d.nextInode_lt, by rw [hnew]; rfl⟩

/-- A change of one inode that leaves the naming graph and the labels. -/
theorem Plain.of_graph (hplain : d.Plain) (hd : d.Sound) (hspares : Spares (· = i) d d')
    (hgraph : d'.graph = d.graph) (hlabels : (d.inode i).SameLabels (d'.inode i)) : d'.Plain :=
  hplain.of_spares hd hspares (fun _ => .of_graph hgraph) fun j _ hj => by rw [hj]; exact hlabels

/-- An entry less. -/
theorem Plain.removed {s : Disk} (hplain : d.Plain) (hs : MarkedFrom d s) (hp : d.IsDir p)
    (hcount : (d.inode p).count ≤ 12) (hk : k < (d.inode p).count)
    (hmarks : Marks (s.removeEntry p k ((d.inode p).shrunk env 0)) d') : d'.Plain := by
  obtain ⟨-, hgraph⟩ := hs.of_removed hp hcount hk hmarks
  refine hplain.of_spares hs.sound (spares_removed hs hp hcount hk hmarks) (fun j hj => ?_)
    fun j _ hj => ?_
  · refine hj.imp_right ?_
    rintro ⟨q, b, hmem⟩
    exact ⟨q, b, (hs.sound.directories.graph.proper.mem_remove.mp (hgraph.mem.mp hmem)).1⟩
  · rw [hj, inode_removed hp hmarks]
    exact INode.sameLabels_shrunk env 0 _

/-- An entry moved. -/
theorem Plain.moveEntry {parent parent' : List Name} {name name' : Name} {q : ℕ}
    (hplain : d.Plain) (hd : d.Sound) (h : d.CanRename parent parent' name name' p q i)
    (env : Env) (hk : k < (d.inode p).count)
    (hedge : (d.entryOf (d.inode p) k).edge = (name.fileName, i)) :
    (d.moveEntry env p k q).Plain := by
  obtain ⟨-, g, hsimilar, hgraph⟩ := hd.moveEntry h env hk hedge
  refine hplain.of_spares hd (hd.spares_moveEntry h hk hedge) (fun j hj => ?_) fun j _ hj => ?_
  · refine hj.imp_right ?_
    rintro ⟨r, b, hmem⟩
    rw [hgraph] at hmem
    rcases NameGraph.mem_insert.mp hmem with hold | ⟨-, heq⟩
    · exact ⟨r, b, (hd.directories.graph.proper.mem_remove.mp (hsimilar.mem.mp hold)).1⟩
    · obtain ⟨rfl, rfl⟩ := Prod.mk.inj heq
      exact ⟨p, _, NameGraph.mem_of_lookup h.finds.2⟩
  · rcases hj with rfl | rfl
    · rw [inode_moveEntry h]
      exact INode.sameLabels_shrunk env 2 _
    · exact sameLabels_moveEntry h

end Disk

/-! ### Changing calls -/

/-- What a safe request leaves: a sound disk whose named inodes are labelled, with no inode bit
cleared. -/
structure Disk.Proceeds (d d' : Disk) : Prop where
  sound : d'.Sound
  plain : d'.Plain
  imap : ∀ i < 32768, d.imap i = true → d'.imap i = true

/-- **A safe call does to the tree what is specified**, and returns what is specified. -/
theorem Op.Safe.refines {d : Disk} (hd : d.Sound) (hplain : d.Plain) {op : Op} (h : op.Safe d)
    (env : Env) : ∃ d', (op.prog env).run vdisk d = some (op.value, d') ∧ d.Proceeds d' ∧
      op.Admits env d.tree d'.tree := by
  cases op with
  | create c behind =>
    obtain ⟨p, hp, hc⟩ := h
    refine ⟨_, ?_, ⟨hd.created env c.kind.mode hc, hplain.created hd c.kind hc,
      (hd.spares_created c.kind.mode hc).imap⟩, hd.tree_created c.kind hc hp⟩
    rw [Op.prog, Creation.prog_eq]
    exact run_fsCreate env c.kind.mode hd hp hc behind
  | write path behind buffer size offset =>
    obtain ⟨i, hi, hfile, hw⟩ := h
    have hchange := Disk.FileChange.written hd hfile hw buffer
    have hspares := hchange.spares hd hfile.lt
    exact ⟨_, run_fsWrite env hd hfile hw buffer hi behind,
      ⟨hchange.sound, hplain.of_graph hd hspares hchange.graph
        (Disk.sameLabels_written d size offset hfile.lt buffer).1, hspares.imap⟩,
      d.bytes i, _, ⟨_, Disk.tree_of_resolve hi, Disk.contents_of_not_isDir hfile.not_isDir⟩,
      hd.overwritten hfile hw buffer, hd.tree_written hfile hw buffer hi⟩
  | truncate path behind size =>
    obtain ⟨i, hi, hfile, hsize⟩ := h
    obtain ⟨s, hs, -, hrun⟩ := run_fsTruncate env hd hfile.lt
      (hd.directories.file i hfile.lt hfile.not_isDir) hi behind (show size ≤ 8437760 by omega)
    have hspares := Disk.spares_truncated (m := size) hs hfile
    refine ⟨_, hrun, ⟨sound_truncated hs hfile hsize,
      hplain.of_graph hd hspares (graph_truncated hs hfile) ?_, hspares.imap⟩,
      d.bytes i, _, ⟨_, Disk.tree_of_resolve hi, Disk.contents_of_not_isDir hfile.not_isDir⟩,
      Disk.resized hs hfile hsize, Disk.tree_truncated hs hfile hi⟩
    rw [Disk.inode_setInode_self]
    exact INode.sameLabels_withSize _ _
  | unlink parent name behind =>
    obtain ⟨hsplit, p, i, hfinds, hcount⟩ := h
    obtain ⟨k, s, d', hrun, hk, hedge, hs, hmarks⟩ :=
      run_fsUnlink env hd hfinds.isDir hcount hsplit hfinds.1 hfinds.2
    exact ⟨_, hrun, ⟨(hs.of_removed hfinds.isDir hcount hk hmarks).1,
      hplain.removed hs hfinds.isDir hcount hk hmarks,
      (Disk.spares_removed hs hfinds.isDir hcount hk hmarks).imap⟩,
      Disk.tree_removed hs hfinds.isDir hcount hk hmarks hfinds hedge⟩
  | rmdir parent name behind =>
    obtain ⟨hsplit, p, i, hfinds, hdir, hcount, hcount'⟩ := h
    obtain ⟨k, s, d', hrun, hk, hedge, hs, hmarks⟩ :=
      run_fsRmdir env hd hfinds.isDir hdir hcount hcount' hsplit hfinds.1 hfinds.2
    exact ⟨_, hrun, ⟨(hs.of_removed hfinds.isDir hcount hk hmarks).1,
      hplain.removed hs hfinds.isDir hcount hk hmarks,
      (Disk.spares_removed hs hfinds.isDir hcount hk hmarks).imap⟩,
      Disk.tree_removed hs hfinds.isDir hcount hk hmarks hfinds hedge⟩
  | rename parent name behind parent' name' behind' =>
    obtain ⟨hsplit, hsplit', p, q, i, hr⟩ := h
    obtain ⟨k, hk, hedge, hrun⟩ := run_fsRename env hd hr.finds.isDir hr.small hr.dir hr.ne
      hr.count_lt hr.room hsplit hsplit' hr.finds.1 hr.finds.2 hr.found hr.below
    exact ⟨_, hrun, ⟨(hd.moveEntry hr env hk hedge).1, hplain.moveEntry hd hr env hk hedge,
      (hd.spares_moveEntry hr hk hedge).imap⟩, hd.tree_moveEntry hr hk hedge⟩

/-! ### The other requests -/

namespace Disk

variable {d : Disk} {as : List Name} (hd : d.Sound) (env : Env) (behind : ℕ → Byte)
include hd

/-- `fs_getattr` of what is there. -/
theorem Sound.run_getattr (hplain : d.Plain) {x : Node} (h : d.tree as = some x) :
    (fsGetattr env (pathString as behind)).run vdisk d = some ((0, d.tree.stat as x), d) := by
  obtain ⟨i, hi, rfl⟩ := exists_of_tree h
  rw [hd.walkable.run_fsGetattr env hi, hd.stat_tree hplain hi]

/-- `fs_getattr` of what is not there. -/
theorem Sound.run_getattr_missing {a : Name} (h : d.tree (as ++ [a]) = none)
    (hdir : d.tree.IsDirectory as) (hroom : (d.tree.children as).ncard < 1536) :
    (fsGetattr env (pathString (as ++ [a]) behind)).run vdisk d =
      some ((negENOENT, Stat.cleared), d) := by
  obtain ⟨p, hp, hpdir⟩ := exists_of_isDirectory hdir
  rw [hd.ncard_children hp hpdir] at hroom
  have hlookup := (tree_concat_eq_none hp).mp h
  have hchars : (pathString (as ++ [a]) behind).chars =
      joinNames as ++ slash :: (a.chars ++ []) := by
    rw [List.append_nil]
    exact pathChars_concat as a
  have hmissing : d.Missing (pathString (as ++ [a]) behind).chars p a.chars [] :=
    ⟨⟨as, hchars, hp⟩, hpdir, a.ne_nil, a.noSlash, a.noNul, .inl rfl, fun b hb => by
      rwa [Name.ext hb]⟩
  rw [hmissing.run_fsGetattr env hd, if_pos ⟨rfl, a.length_le.trans (by decide), hroom⟩]

/-- `fs_readdir` of a directory. -/
theorem Sound.run_readdir (hdir : d.tree.IsDirectory as) :
    ∃ names : List Name, (fsReaddir env (pathString as behind)).run vdisk d =
        some ((0, names.map Name.chars), d) ∧
      names.Nodup ∧ ∀ a, a ∈ names ↔ a ∈ d.tree.children as := by
  obtain ⟨p, hp, hpdir⟩ := exists_of_isDirectory hdir
  obtain ⟨names, hnames, hnodup, hmem⟩ := hd.exists_children hp
  exact ⟨names, hd.walkable.run_fsReaddir env hp hpdir hnames behind, hnodup, hmem⟩

/-- `fs_read` of a file. -/
theorem Sound.run_read {bytes : List Byte} (h : d.tree.HasBytes as bytes) (buffer : ℕ → Byte)
    {size offset : ℕ} (hend : offset + size ≤ 8437760) :
    ∃ out, (fsRead env (pathString as behind) buffer size offset).run vdisk d =
        some ((((min size bytes.length : ℕ) : ℤ), out), d) ∧
      ∀ k < size, offset + k < bytes.length → bytes[offset + k]? = some (out k) := by
  obtain ⟨i, hi, hfile, rfl⟩ := hd.exists_isFile h
  have hsize := hd.directories.file i hfile.lt hfile.not_isDir
  obtain ⟨r, out, hrun, hout⟩ := InodeFs.run_fsRead env hd hfile.lt hi behind buffer hend
  -- the value is set from the two sizes before anything is read
  have hr : r = (min size (d.bytes i).length : ℕ) := by
    have hfrom := hd.run_fsRead_from env hi hfile behind buffer size offset
    rw [hrun] at hfrom
    obtain ⟨buffer', t, -, hret⟩ := (Prog.run_bind_eq_some vdisk).mp hfrom.symm
    rw [Prog.pure_eq_ret, Prog.run_ret, Option.some.injEq, Prod.mk.injEq, Prod.mk.injEq] at hret
    rw [← hret.1.1, length_bytes, cInt_natCast (by omega), cInt_natCast (by omega), getMin]
    split <;> omega
  refine ⟨out, hr ▸ hrun, fun k hk hlt => ?_⟩
  rw [length_bytes] at hlt
  rw [getElem?_bytes hlt, hout k hk (by omega)]

end Disk

/-- **A safe request is answered** as the tree admits. -/
theorem Callback.Safe.refines {d : Disk} (hd : d.Sound) (hplain : d.Plain) {request : Callback}
    (h : request.Safe d) (env : Env) : ∃ answer d',
      (request.operation.prog env).run vdisk d = some (answer, d') ∧ d.Proceeds d' ∧
        request.Admits env d.tree answer d'.tree := by
  have hsame : d.Proceeds d := ⟨hd, hplain, fun _ _ hset => hset⟩
  cases request with
  | change op =>
    obtain ⟨d', hrun, hproceeds, hadmits⟩ := Op.Safe.refines hd hplain h env
    refine ⟨.code op.value, d', ?_, hproceeds, rfl, hadmits⟩
    rw [Callback.operation, Op.prog_operation, Prog.run_bind_some _ hrun]
    rfl
  | getattr path behind =>
    cases hx : d.tree path with
    | some x =>
      refine ⟨.attributes 0 (d.tree.stat path x), d, ?_, hsame, rfl, by rw [hx]⟩
      rw [Callback.operation, FsOperation.prog,
        Prog.run_bind_some _ (hd.run_getattr env behind hplain hx)]
      rfl
    | none =>
      obtain ⟨as, a, rfl, hdir, hroom⟩ := h.resolve_left fun hne => hne hx
      refine ⟨.attributes negENOENT .cleared, d, ?_, hsame, rfl, by rw [hx]⟩
      rw [Callback.operation, FsOperation.prog,
        Prog.run_bind_some _ (hd.run_getattr_missing env behind hx hdir hroom)]
      rfl
  | readdir path behind =>
    obtain ⟨names, hrun, hnodup, hmem⟩ := hd.run_readdir env behind h
    refine ⟨.listing 0 (names.map Name.chars), d, ?_, hsame, rfl, names, rfl, hnodup, hmem⟩
    rw [Callback.operation, FsOperation.prog, Prog.run_bind_some _ hrun]
    rfl
  | read path behind buffer size offset =>
    obtain ⟨⟨bytes, hbytes⟩, hend⟩ := h
    obtain ⟨out, hrun, hout⟩ := hd.run_read env behind hbytes buffer hend
    refine ⟨.bytes (min size bytes.length : ℕ) out, d, ?_, hsame, rfl, bytes, out, hbytes, rfl,
      hout⟩
    rw [Callback.operation, FsOperation.prog, Prog.run_bind_some _ hrun]
    rfl
  | utime path behind =>
    obtain ⟨x, hx⟩ := Option.ne_none_iff_exists'.mp h
    obtain ⟨i, hi, rfl⟩ := Disk.exists_of_tree hx
    have hlt := hd.lt_of_named (Disk.named_of_resolve hi)
    have hspares := Disk.spares_setInode (d := d) (x := (d.inode i).touched env) hlt
    refine ⟨.times 0 ⟨(d.inode i).atime, env.time 0⟩, _, ?_, ⟨hd.touched env hlt,
      hplain.of_graph hd hspares (Disk.graph_setInode hlt (INode.sameBlocks_touched env _) rfl) ?_,
      hspares.imap⟩, _, hx, rfl, hd.tree_touched hi⟩
    · rw [Callback.operation, FsOperation.prog,
        Prog.run_bind_some _ (hd.walkable.run_fsUtime env hi behind)]
      rfl
    · rw [Disk.inode_setInode_self]
      exact INode.sameLabels_touched env _
  | statfs =>
    refine ⟨.statistics 0 d.statvfs, d, ?_, hsame, rfl, _, rfl, rfl, rfl, rfl, rfl, rfl⟩
    rw [Callback.operation, FsOperation.prog, Prog.run_bind_some _ (run_fsStatfs env d)]
    rfl
  | openFile path behind =>
    obtain ⟨x, hx⟩ := Option.ne_none_iff_exists'.mp h
    obtain ⟨i, hi, -⟩ := Disk.exists_of_tree hx
    refine ⟨.code 0, d, ?_, hsame, rfl, rfl⟩
    rw [Callback.operation, FsOperation.prog,
      Prog.run_bind_some _ (hd.walkable.run_fsOpen env hi behind)]
    rfl
  | release path behind => exact ⟨.code 0, d, rfl, hsame, rfl, rfl⟩
  | opendir path behind => exact ⟨.code 0, d, rfl, hsame, rfl, rfl⟩
  | releasedir path behind => exact ⟨.code 0, d, rfl, hsame, rfl, rfl⟩

/-! ### Runs -/

/-- A request with its answer. -/
structure Event where
  env : Env
  request : Callback
  answer : Answer

/-- `main` has handed over disk `d`, whatever was on the virtual disk before. -/
def Started (d : Disk) : Prop :=
  ∃ (env : Env) (behind : Fin 27 → Byte) (fuse : Option (List Byte)) (opens : ℕ → Bool)
    (old : Disk), old.Bounded ∧ (main env behind fuse opens).run vdisk old = some (none, d)

/-- A safe request is served. -/
def Served (d : Disk) (e : Event) (d' : Disk) : Prop :=
  e.request.Safe d ∧ (e.request.operation.prog e.env).run vdisk d = some (e.answer, d')

/-- The runs of the process in which every request is safe. -/
abbrev ServiceRun : List Event → Disk → Prop := Trace Started Served

/-- The runs in which every request is safe, from disk `d` on. -/
abbrev ServiceFrom (d : Disk) : List Event → Disk → Prop := Trace (· = d) Served

/-- The runs of the file tree. -/
abbrev TreeRun : List Event → FileTree → Prop :=
  Trace (fun t => ∃ env, t = .initial env) fun t e t' => e.request.Admits e.env t e.answer t'

/-- The tree of the disk that `main` hands over. -/
theorem Disk.tree_initial (env : Env) (behind : Fin 27 → Byte) :
    (initial env behind).tree = .initial env := by
  funext as
  cases as with
  | nil =>
    have hroot := (isDir_initial env behind).mpr rfl
    rw [tree_nil, FileTree.initial, if_pos rfl, Disk.node,
      contents_of_isDir hroot, attributes, inode_initial, if_pos rfl, Node.fresh]
    rfl
  | cons a as =>
    rw [FileTree.initial, if_neg (List.cons_ne_nil a as), tree_eq_none, fileNames, List.map_cons,
      NameGraph.resolve_cons, NameGraph.lookup, graph_initial]
    rfl

theorem Started.initial {d : Disk} (h : Started d) : ∃ env behind, d = .initial env behind := by
  obtain ⟨env, behind, fuse, opens, old, hold, hmain⟩ := h
  exact ⟨env, behind, eq_initial_of_run_main env behind hold hmain⟩

/-- What is served, is served soundly. -/
theorem Served.step {d d' : Disk} {e : Event} (h : Served d e d') (hd : d.Sound)
    (hplain : d.Plain) :
    d.Proceeds d' ∧ e.request.Admits e.env d.tree e.answer d'.tree := by
  obtain ⟨hsafe, hrun⟩ := h
  obtain ⟨answer, s, hrun', hs⟩ := hsafe.refines hd hplain e.env
  obtain ⟨rfl, rfl⟩ := Prod.mk.inj (Option.some.inj (hrun'.symm.trans hrun))
  exact hs

/-- The disk that a changing call leaves. -/
theorem Served.eq_of_run {d s t : Disk} {env : Env} {op : Op} {answer : Answer} {r : ℤ}
    (h : Served d ⟨env, .change op, answer⟩ s) (hrun : (op.prog env).run vdisk d = some (r, t)) :
    s = t := by
  have hserved := h.2
  rw [Callback.operation, Op.prog_operation, Prog.run_bind_some _ hrun] at hserved
  exact (Prod.mk.inj (Option.some.inj hserved)).2.symm

theorem Callback.Safe.exists_served {d : Disk} (hd : d.Sound) (hplain : d.Plain)
    {request : Callback} (h : request.Safe d) (env : Env) :
    ∃ answer d', Served d ⟨env, request, answer⟩ d' := by
  obtain ⟨answer, d', hrun, -⟩ := h.refines hd hplain env
  exact ⟨answer, d', h, hrun⟩

/-- Every state of a run is sound and plain. -/
theorem ServiceRun.sound {l : List Event} {d : Disk} (h : ServiceRun l d) : d.Sound ∧ d.Plain := by
  refine h.invariant (I := fun _ d => d.Sound ∧ d.Plain) (fun d hd => ?_) fun l d e d' hI hs => ?_
  · obtain ⟨env, behind, rfl⟩ := hd.initial
    exact ⟨Disk.sound_initial env behind, Disk.plain_initial env behind⟩
  · obtain ⟨hproceeds, -⟩ := hs.step hI.1 hI.2
    exact ⟨hproceeds.sound, hproceeds.plain⟩

/-- A run begins with the formatted disk. -/
theorem ServiceRun.of_mkfs {env : Env} {behind : Fin 27 → Byte} {r : ℤ} {d : Disk}
    (h : (mkfs env behind).run vdisk zeroDisk = some (r, d)) : ServiceRun [] d := by
  rw [Disk.run_mkfs_zeroDisk] at h
  obtain ⟨-, rfl⟩ := Prod.mk.inj (Option.some.inj h)
  exact .init ⟨env, behind, some (List.replicate 8 1), fun _ => true, zeroDisk,
    fun _ _ => rfl, run_main_started env behind (fun _ _ => rfl) (by decide) fun _ _ => rfl⟩

/-- A safe call is a request that is served. -/
theorem Op.Safe.served {d d' : Disk} {op : Op} {env : Env} {r : ℤ} (h : op.Safe d)
    (call : (op.prog env).run vdisk d = some (r, d')) :
    Served d ⟨env, .change op, .code r⟩ d' := by
  refine ⟨h, ?_⟩
  rw [Callback.operation, Op.prog_operation, Prog.run_bind_some _ call]
  rfl

/-- The calls of a safe run are requests of the service. -/
theorem SafeRun.serviceRun {d : Disk} (h : SafeRun d) : ∃ l, ServiceRun l d := by
  induction h with
  | init _ h => exact ⟨[], .of_mkfs h⟩
  | step _ ok call ih =>
    obtain ⟨l, hl⟩ := ih
    exact ⟨_, hl.step (Op.Safe.served ok call)⟩

/-- The request is a creation, of what the log says. -/
def Event.Makes (e : Event) (c : Created) : Prop :=
  ∃ behind, e.request = .change (.create c.toCreation behind)

/-- The calls of a run of creations are requests of the service. -/
theorem CreationRun.serviceRun {log : List Created} {d : Disk} (h : CreationRun log d) :
    ∃ l, ServiceRun l d ∧ List.Forall₂ Event.Makes l log := by
  induction h with
  | init h => exact ⟨[], .of_mkfs h, .nil⟩
  | @step log d d' δ c env behind r e run allowed call entry ih =>
    obtain ⟨l, hl, hmakes⟩ := ih
    obtain ⟨p, hp, hcan⟩ := run.refines.canCreate allowed
    have hserved : Served d ⟨env, .change (.create c behind), .code r⟩ d' :=
      Op.Safe.served ⟨p, hp, hcan⟩ call
    exact ⟨_, hl.step hserved, List.rel_append hmakes (.cons ⟨behind, rfl⟩ .nil)⟩

/-- **The service is a file tree**: the requests and answers of a run of safe requests, from the
start of the process on, are those of a run of the file tree, which ends in the tree of the disk;
and every request that is safe there is answered. -/
theorem service_refines {l : List Event} {d : Disk} (h : ServiceRun l d) :
    TreeRun l d.tree ∧ ∀ (env : Env) (request : Callback), request.Safe d →
      ∃ answer d', ServiceRun (l ++ [⟨env, request, answer⟩]) d' := by
  constructor
  · have hmatched : ∃ t : FileTree, TreeRun l t ∧ d.Sound ∧ d.Plain ∧ d.tree = t :=
      h.simulation (R := fun (d : Disk) (t : FileTree) => d.Sound ∧ d.Plain ∧ d.tree = t)
      (fun d hd => by
        obtain ⟨env, behind, rfl⟩ := hd.initial
        exact ⟨_, ⟨env, Disk.tree_initial env behind⟩, Disk.sound_initial env behind,
          Disk.plain_initial env behind, rfl⟩)
      fun d t e d' hR hs => by
        obtain ⟨hd, hplain, rfl⟩ := hR
        obtain ⟨hproceeds, hadmits⟩ := hs.step hd hplain
        exact ⟨_, hadmits, hproceeds.sound, hproceeds.plain, rfl⟩
    obtain ⟨t, ht, -, -, rfl⟩ := hmatched
    exact ht
  · intro env request hsafe
    obtain ⟨hd, hplain⟩ := h.sound
    obtain ⟨answer, d', hserved⟩ := hsafe.exists_served hd hplain env
    exact ⟨answer, d', h.step hserved⟩

theorem serviceRun_initial : ServiceRun [] (.initial plainEnv fun _ => 0) :=
  .of_mkfs (Disk.run_mkfs_zeroDisk plainEnv fun _ => 0)

/-- The run of `mkdir /a`, `mknod /a/b`, `mkdir /a/c` and a listing of `/a`. -/
theorem service_refines_nested : ∃ l e d i j k, ServiceRun (l ++ [e]) d ∧
    List.Forall₂ Event.Makes l (nestedLog (letter 97) (letter 98) (letter 99) i j k) ∧
    e.request = .readdir [letter 97] plainMemory ∧ e.answer = .listing 0 [[98], [99]] ∧
    TreeRun (l ++ [e]) d.tree := by
  obtain ⟨i, j, k, d, hd, -⟩ := exists_creationRun_nested (letter 97) (b := letter 98)
    (c := letter 99) fun heq => absurd (congrArg Name.chars heq) (by decide)
  have hr := hd.refines
  have hparent := isDirPath_nestedLog (letter 97) (letter 98) (letter 99) i j k
  obtain ⟨p, hp, hdir⟩ := hr.exists_dir hparent
  have hlisting := hr.sound.walkable.run_fsReaddir plainEnv hp hdir (hr.listing _ p hparent hp)
    plainMemory
  rw [children_nestedLog] at hlisting
  obtain ⟨l, hl, hmakes⟩ := hd.serviceRun
  have hserved : Served d ⟨plainEnv, .readdir [letter 97] plainMemory, .listing 0 [[98], [99]]⟩ d :=
    ⟨⟨_, Disk.tree_of_resolve hp, Disk.contents_of_isDir hdir⟩, by
      rw [Callback.operation, FsOperation.prog, Prog.run_bind_some _ hlisting]
      rfl⟩
  have hrun := hl.step hserved
  exact ⟨l, _, d, i, j, k, hrun, hmakes, rfl, rfl, (service_refines hrun).1⟩

end InodeFs
