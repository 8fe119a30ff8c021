import InodeFs.State.Capacity
import InodeFs.Ops.Effects

/-!
# Creation refines a tree

A run of `fs_mknod` and `fs_mkdir` from the formatted disk is followed by its log, the list of
the calls with the inode numbers their entries got. The log says what the tree is: which paths
are directories and which names they hold, in which order. `Refines log d` relates the two,
`Refines.step` shows that every allowed call returns 0 and keeps the relation, and
`creation_refines_tree` reads the answers of the file system off the log.

An inode number is a detail of the disk, but the calls hand it to the kernel, and so the log keeps
it: the number of a call is the one in the entry that the call stores, and `creation_refines_tree`
has the numbers of different paths different.

What an allowed call needs is in `Allowed`, in terms of the log where it can be: the parent is one
of the directories of the log, it has not the name, and it is not full. Only that an inode is free
is said of the disk. The rest of what the code needs, such as a free block for the first entry of a
directory, follows from the relation (`Refines.canCreate`).

The step is proved in three parts, as `Refines` has them: the paths that led somewhere lead there
still, the new path leads to the new inode, and the listings are those of the longer log. Each of
them is a fact about the naming graph with one edge more, taken from `InodeFs.Lib.NameGraph`.
-/

namespace InodeFs

/-! ### The log of a run -/

/-- What a call creates. -/
inductive Kind : Type
  | file
  | directory
  deriving DecidableEq

/-- The mode of what is created. -/
def Kind.mode : Kind → BitVec 32
  | .file => regMode
  | .directory => dirMode

/-- The operation that creates it. -/
def Kind.call (kind : Kind) (env : Env) (path : CString) : Fs ℤ :=
  match kind with
  | .file => fsMknod env path
  | .directory => fsMkdir env path

/-- A call of `fs_mknod` or `fs_mkdir`. -/
structure Creation where
  kind : Kind
  parent : List Name
  name : Name

/-- The path of the call. -/
def Creation.path (c : Creation) : List Name := c.parent ++ [c.name]

/-- The call; `behind` are the bytes behind its path in memory. -/
def Creation.prog (env : Env) (c : Creation) (behind : ℕ → Byte) : Fs ℤ :=
  c.kind.call env (pathString c.path behind)

/-- A call that was made, with the inode number of its entry. -/
structure Created extends Creation where
  number : ℕ

/-- The path is the root or was created as a directory. -/
def IsDirPath (log : List Created) (as : List Name) : Prop :=
  as = [] ∨ ∃ c ∈ log, c.kind = .directory ∧ c.path = as

/-- The names created in a directory, in the order of their creation. -/
def children (log : List Created) (as : List Name) : List Name :=
  (log.filter fun c => c.parent = as).map fun c => c.name

/-- What the kernel and the limits of the code guarantee of a call: its parent is a directory
with fewer than `128 * 12` entries that does not have the name yet, and an inode is free. -/
structure Allowed (log : List Created) (d : Disk) (c : Creation) : Prop where
  parent : IsDirPath log c.parent
  room : (children log c.parent).length < 128 * 12
  fresh : c.name ∉ children log c.parent
  inode : d.HasInode

/-- The runs of creating calls from the formatted disk, with their logs. The number in the log
is the one in the entry the call stores. -/
inductive CreationRun : List Created → Disk → Prop
  | init {env : Env} {behind : Fin 27 → Byte} {r : ℤ} {d : Disk}
      (h : (mkfs env behind).run vdisk zeroDisk = some (r, d)) : CreationRun [] d
  | step {log : List Created} {d d' δ : Disk} {c : Creation} {env : Env} {behind : ℕ → Byte}
      {r : ℤ} {e : DictioryContent} (run : CreationRun log d) (allowed : Allowed log d c)
      (call : (c.prog env behind).run vdisk d = some (r, d'))
      (entry : (δ, .entry e) ∈ (c.prog env behind).notes vdisk d) :
      CreationRun (log ++ [⟨c, e.inodeNumber.toNat⟩]) d'

/-! ### Logs -/

theorem Kind.call_eq (kind : Kind) (env : Env) (path : CString) :
    kind.call env path = fsCreate env (applyANewInodeWithMode env kind.mode) path := by
  cases kind <;> rfl

theorem Creation.prog_eq (env : Env) (c : Creation) (behind : ℕ → Byte) :
    c.prog env behind =
      fsCreate env (applyANewInodeWithMode env c.kind.mode) (pathString c.path behind) :=
  c.kind.call_eq env _

theorem children_concat (log : List Created) (c : Created) (as : List Name) :
    children (log ++ [c]) as = children log as ++ if c.parent = as then [c.name] else [] := by
  unfold children
  rw [List.filter_append, List.map_append]
  congr 1
  by_cases h : c.parent = as
  · simp [h]
  · simp [h]

theorem isDirPath_concat {log : List Created} {c : Created} {as : List Name} :
    IsDirPath (log ++ [c]) as ↔ IsDirPath log as ∨ c.kind = .directory ∧ c.path = as := by
  unfold IsDirPath
  constructor
  · rintro (h | ⟨b, hb, hpath⟩)
    · exact .inl (.inl h)
    · rcases List.mem_append.mp hb with hb | hb
      · exact .inl (.inr ⟨b, hb, hpath⟩)
      · obtain rfl := List.mem_singleton.mp hb
        exact .inr hpath
  · rintro ((h | ⟨b, hb, hpath⟩) | hpath)
    · exact .inl h
    · exact .inr ⟨b, List.mem_append_left _ hb, hpath⟩
    · exact .inr ⟨c, by simp, hpath⟩

/-! ### The relation between log and disk -/

/-- The names of a path as the file names in the graph. -/
abbrev fileNames (as : List Name) : List FileName := as.map Name.fileName

/-- **The refinement relation**: every created path leads to its number, with the mode of its
call, directories list their children, and a free inode always comes with a free block. -/
structure Refines (log : List Created) (d : Disk) : Prop where
  sound : d.Sound
  free : d.freeInodes ≤ d.freeBlocks
  resolve : ∀ c ∈ log, d.graph.resolve 4 (fileNames c.path) = some c.number
  mode : ∀ c ∈ log, (d.inode c.number).stMode = c.kind.mode
  size : ∀ c ∈ log, c.kind = .file → (d.inode c.number).stSize = 0
  listing : ∀ as p, IsDirPath log as → d.graph.resolve 4 (fileNames as) = some p →
    (d.graph p).map Prod.fst = fileNames (children log as)
  parents : ∀ c ∈ log, IsDirPath log c.parent

namespace Refines

variable {log : List Created} {d : Disk} {as : List Name}

theorem number_lt (h : Refines log d) {c : Created} (hc : c ∈ log) : c.number < 32768 :=
  h.sound.walkable.resolve_lt (by decide) (h.resolve c hc)

/-- Directories of the log are directories on the disk. -/
theorem exists_dir (h : Refines log d) (has : IsDirPath log as) :
    ∃ p, d.graph.resolve 4 (fileNames as) = some p ∧ d.IsDir p := by
  rcases has with rfl | ⟨c, hc, hkind, rfl⟩
  · exact ⟨4, rfl, h.sound.directories.root⟩
  · refine ⟨c.number, h.resolve c hc, h.number_lt hc, ?_⟩
    rw [h.mode c hc, hkind]
    rfl

theorem count_eq (h : Refines log d) (has : IsDirPath log as) {p : ℕ}
    (hp : d.graph.resolve 4 (fileNames as) = some p) (hdir : d.IsDir p) :
    (d.inode p).count = (children log as).length := by
  have hlength := congrArg List.length (h.listing as p has hp)
  rwa [List.length_map, List.length_map, Disk.length_graph hdir] at hlength

theorem lookup_eq_none (h : Refines log d) (has : IsDirPath log as) {p : ℕ}
    (hp : d.graph.resolve 4 (fileNames as) = some p) {a : Name} (ha : a ∉ children log as) :
    d.graph.lookup p a.fileName = none := by
  rw [NameGraph.lookup_eq_none]
  intro e he heq
  have hmem : e.1 ∈ fileNames (children log as) := by
    rw [← h.listing as p has hp]
    exact List.mem_map_of_mem he
  rw [heq] at hmem
  exact ha ((List.mem_map_of_injective Name.fileName_injective).mp hmem)

/-- The created inodes are in use. -/
theorem marked (h : Refines log d) {c : Created} (hc : c ∈ log) : d.imap c.number = true := by
  obtain ⟨q, -, hq⟩ := NameGraph.resolve_map_concat.mp (h.resolve c hc)
  exact h.sound.directories.graph.target_marked q _ (NameGraph.mem_of_lookup hq)

theorem number_ne_nextInode (h : Refines log d) (hinode : d.HasInode) {c : Created} (hc : c ∈ log) :
    c.number ≠ d.nextInode := by
  intro heq
  have hmarked := h.marked hc
  rw [heq, hinode.imap_nextInode] at hmarked
  cases hmarked

/-- Files are no directories. -/
theorem number_ne_of_isDir (h : Refines log d) {p : ℕ} (hp : d.IsDir p) {c : Created}
    (hc : c ∈ log) (hkind : c.kind = .file) : c.number ≠ p := by
  rintro rfl
  have hmode := hp.2
  rw [h.mode c hc, hkind] at hmode
  exact absurd hmode (by decide)

/-- An allowed call meets what the code needs. -/
theorem canCreate (h : Refines log d) {c : Creation} (hc : Allowed log d c) :
    ∃ p, d.graph.resolve 4 (fileNames c.parent) = some p ∧ d.CanCreate p c.name := by
  obtain ⟨p, hp, hdir⟩ := h.exists_dir hc.parent
  have hblock : d.HasBlock := by
    have hpos := Disk.freeInodes_pos_iff.mpr hc.inode
    exact Disk.freeBlocks_pos_iff.mp (hpos.trans_le h.free)
  refine ⟨p, hp, hdir, hc.inode, ?_, h.lookup_eq_none hc.parent hp hc.fresh, fun _ => hblock⟩
  rw [h.count_eq hc.parent hp hdir]
  exact hc.room

end Refines

theorem refines_initial (env : Env) (behind : Fin 27 → Byte) :
    Refines [] (Disk.initial env behind) where
  sound := Disk.sound_initial env behind
  free := Disk.freeInodes_le_freeBlocks_initial env behind
  resolve c hc := by cases hc
  mode c hc := by cases hc
  size c hc := by cases hc
  listing as p _ _ := by rw [Disk.graph_initial]; rfl
  parents c hc := by cases hc

/-! ### One call -/

section Step

variable {log : List Created} {d : Disk} {c : Creation} {p : ℕ}

/-- The new log entry. -/
abbrev Creation.numbered (c : Creation) (k : ℕ) : Created := ⟨c, k⟩

/-- A directory whose path is new has no children in the log. -/
theorem Refines.children_path_eq_nil (h : Refines log d) (hc : d.CanCreate p c.name)
    (hp : d.graph.resolve 4 (fileNames c.parent) = some p) : children log c.path = [] := by
  rw [children, List.map_eq_nil_iff, List.filter_eq_nil_iff]
  intro b hb hpath
  obtain ⟨q, hq, -⟩ := h.exists_dir (h.parents b hb)
  rw [of_decide_eq_true hpath] at hq
  obtain ⟨p', hp', hlookup⟩ := NameGraph.resolve_map_concat.mp hq
  obtain rfl : p = p' := Option.some.inj (hp.symm.trans hp')
  rw [hc.fresh] at hlookup
  cases hlookup

/-- Paths that led somewhere before still lead there. -/
theorem Refines.resolve_created (h : Refines log d) (hc : d.CanCreate p c.name) (env : Env)
    {as : List Name} {q : ℕ} (hq : d.graph.resolve 4 (fileNames as) = some q) :
    (d.created env c.kind.mode p c.name d.nextInode).graph.resolve 4 (fileNames as) = some q := by
  rw [h.sound.graph_created env c.kind.mode hc]
  exact NameGraph.resolve_insert hc.fresh hq

/-- The path of the call leads to the new inode. -/
theorem Refines.resolve_path_created (h : Refines log d) (hc : d.CanCreate p c.name)
    (hp : d.graph.resolve 4 (fileNames c.parent) = some p) (env : Env) :
    (d.created env c.kind.mode p c.name d.nextInode).graph.resolve 4 (fileNames c.path) =
      some d.nextInode := by
  refine NameGraph.resolve_map_concat.mpr ⟨p, h.resolve_created hc env hp, ?_⟩
  rw [h.sound.graph_created env c.kind.mode hc, NameGraph.lookup_insert hc.fresh,
    if_pos ⟨rfl, rfl⟩]

/-- The directories list the children of the longer log. -/
theorem Refines.listing_created (h : Refines log d) (hc : d.CanCreate p c.name)
    (hp : d.graph.resolve 4 (fileNames c.parent) = some p) (env : Env) {as : List Name} {q : ℕ}
    (has : IsDirPath (log ++ [c.numbered d.nextInode]) as)
    (hq : (d.created env c.kind.mode p c.name d.nextInode).graph.resolve 4 (fileNames as) =
      some q) :
    ((d.created env c.kind.mode p c.name d.nextInode).graph q).map Prod.fst =
      fileNames (children (log ++ [c.numbered d.nextInode]) as) := by
  rw [children_concat, h.sound.graph_created env c.kind.mode hc, NameGraph.insert_apply]
  rcases isDirPath_concat.mp has with has | ⟨-, rfl⟩
  · -- an old directory: its listing grows if it is the parent
    obtain ⟨q', hq', -⟩ := h.exists_dir has
    obtain rfl : q' = q := Option.some.inj ((h.resolve_created hc env hq').symm.trans hq)
    have hlisting := h.listing as q' has hq'
    by_cases hqp : q' = p
    · have hpath : c.parent = as :=
        List.map_injective_iff.mpr Name.fileName_injective
          (h.sound.directories.graph.proper.resolve_inj (hqp ▸ hp) hq')
      rw [if_pos hqp, if_pos hpath, ← hqp, List.map_append, hlisting, fileNames, fileNames,
        List.map_append]
      rfl
    · have hpath : c.parent ≠ as := by
        rintro rfl
        exact hqp (Option.some.inj (hq'.symm.trans hp))
      rw [if_neg hqp, if_neg hpath, List.append_nil, hlisting]
  · -- the new directory is empty
    obtain rfl : d.nextInode = q :=
      Option.some.inj ((h.resolve_path_created hc hp env).symm.trans hq)
    have hpath : c.parent ≠ c.path := by
      intro heq
      have hlength := congrArg List.length heq
      simp [Creation.path] at hlength
    rw [if_neg (Ne.symm (hc.ne_nextInode h.sound)), if_neg hpath, List.append_nil,
      Disk.graph_of_not_isDir (h.sound.not_isDir_of_free hc.inode.imap_nextInode),
      h.children_path_eq_nil hc hp]
    rfl

/-- **One call keeps the relation.** -/
theorem Refines.step (h : Refines log d) (hparent : IsDirPath log c.parent)
    (hp : d.graph.resolve 4 (fileNames c.parent) = some p) (hc : d.CanCreate p c.name)
    (env : Env) :
    Refines (log ++ [c.numbered d.nextInode]) (d.created env c.kind.mode p c.name d.nextInode) := by
  -- what holds of the old calls and of the new one holds of the longer log
  have hforall {P : Created → Prop} (hlog : ∀ b ∈ log, P b) (hlast : P (c.numbered d.nextInode)) :
      ∀ b ∈ log ++ [c.numbered d.nextInode], P b := by
    intro b hb
    rcases List.mem_append.mp hb with hb | hb
    · exact hlog b hb
    · rw [List.mem_singleton.mp hb]
      exact hlast
  refine ⟨h.sound.created env c.kind.mode hc,
    Disk.freeInodes_le_freeBlocks_created h.sound hc h.free,
    hforall (fun b hb => h.resolve_created hc env (h.resolve b hb))
      (h.resolve_path_created hc hp env),
    hforall (fun b hb => ?_) ?_, hforall (fun b hb hkind => ?_) fun _ => ?_,
    fun as q has hq => h.listing_created hc hp env has hq,
    hforall (fun b hb => isDirPath_concat.mpr (.inl (h.parents b hb)))
      (isDirPath_concat.mpr (.inl hparent))⟩
  · by_cases hbp : b.number = p
    · rw [hbp, hc.stMode_created_parent env c.kind.mode h.sound, ← hbp, h.mode b hb]
    · rw [Disk.inode_created_of_ne env c.kind.mode (h.number_lt hb) hbp
        (h.number_ne_nextInode hc.inode hb), h.mode b hb]
  · rw [hc.inode_created_new env c.kind.mode h.sound]
    rfl
  · rw [Disk.inode_created_of_ne env c.kind.mode (h.number_lt hb)
      (h.number_ne_of_isDir hc.dir hb hkind) (h.number_ne_nextInode hc.inode hb), h.size b hb hkind]
  · rw [hc.inode_created_new env c.kind.mode h.sound]
    rfl

/-- An allowed call returns 0. -/
theorem Refines.run_prog (h : Refines log d)
    (hp : d.graph.resolve 4 (fileNames c.parent) = some p) (hc : d.CanCreate p c.name)
    (env : Env) (behind : ℕ → Byte) :
    (c.prog env behind).run vdisk d =
      some (0, d.created env c.kind.mode p c.name d.nextInode) := by
  rw [Creation.prog_eq]
  exact run_fsCreate env c.kind.mode h.sound hp hc behind

end Step

/-- Every run refines its log. -/
theorem CreationRun.refines {log : List Created} {d : Disk} (h : CreationRun log d) :
    Refines log d := by
  induction h with
  | init h =>
    rw [Disk.run_mkfs_zeroDisk] at h
    obtain ⟨-, rfl⟩ := Prod.mk.inj (Option.some.inj h)
    exact refines_initial _ _
  | step run allowed call entry ih =>
    obtain ⟨p, hp, hc⟩ := ih.canCreate allowed
    rw [ih.run_prog hp hc] at call
    obtain ⟨-, rfl⟩ := Prod.mk.inj (Option.some.inj call)
    rw [Creation.prog_eq] at entry
    rw [inodeNumber_of_mem_notes _ entry, Disk.toNat_newEntry]
    exact ih.step allowed.parent hp hc _

/-- The files of a run have no blocks. -/
theorem CreationRun.ptr_eq_zero {log : List Created} {d : Disk} (h : CreationRun log d) :
    ∀ c ∈ log, c.kind = .file → ∀ r, (d.inode c.number).ptr r = 0 := by
  induction h with
  | init => exact fun c hc => absurd hc List.not_mem_nil
  | @step log d d' δ c env behind r e run allowed call entry ih =>
    have href := run.refines
    obtain ⟨p, hp, hc⟩ := href.canCreate allowed
    rw [href.run_prog hp hc] at call
    obtain ⟨-, rfl⟩ := Prod.mk.inj (Option.some.inj call)
    rw [Creation.prog_eq] at entry
    rw [inodeNumber_of_mem_notes _ entry, Disk.toNat_newEntry]
    intro b hb hkind r
    rcases List.mem_append.mp hb with hb | hb
    · rw [Disk.inode_created_of_ne env c.kind.mode (href.number_lt hb)
        (href.number_ne_of_isDir hc.dir hb hkind) (href.number_ne_nextInode hc.inode hb)]
      exact ih b hb hkind r
    · obtain rfl := List.mem_singleton.mp hb
      rw [hc.inode_created_new env c.kind.mode href.sound, Disk.ptr_freshINode]
      exact href.sound.pointers.fresh _ d.nextInode_lt hc.inode.imap_nextInode r

/-- An allowed call extends a run. -/
theorem CreationRun.extend {log : List Created} {d : Disk} (h : CreationRun log d) {c : Creation}
    (hc : Allowed log d c) : ∃ p, d.CanCreate p c.name ∧
      CreationRun (log ++ [c.numbered d.nextInode])
        (d.created plainEnv c.kind.mode p c.name d.nextInode) := by
  obtain ⟨p, hp, hcan⟩ := h.refines.canCreate hc
  have hcall := h.refines.run_prog hp hcan plainEnv plainMemory
  have hentry := mem_notes_fsCreate plainEnv c.kind.mode
    (pathString c.path plainMemory) (splitPath_eq c.parent c.name)
    (h.refines.sound.walkable.run_understandThePath plainEnv hp)
  rw [← Creation.prog_eq] at hentry
  have hrun := CreationRun.step h hc hcall hentry
  rw [Disk.toNat_newEntry] at hrun
  exact ⟨p, hcan, hrun⟩

/-- One call more, and one free inode less. -/
theorem CreationRun.exists_extend {log : List Created} {d : Disk} (h : CreationRun log d)
    {c : Creation} (hc : Allowed log d c) : ∃ k d', CreationRun (log ++ [c.numbered k]) d' ∧
      d'.freeInodes + 1 = d.freeInodes := by
  obtain ⟨p, -, hrun⟩ := h.extend hc
  exact ⟨_, _, hrun, Disk.freeInodes_created plainEnv c.kind.mode p c.name hc.inode⟩

/-! ### The tree -/

/-- **Creation refines a tree.** After any run of creations: an allowed call returns 0; every
created path resolves to the number in its entry, and different paths to different numbers;
`fs_getattr` reports mode and size; `fs_readdir` hands out exactly the children's names, each
once, in order of creation; and a name that a directory with free entries does not have
resolves to `-ENOENT`. -/
theorem creation_refines_tree {log : List Created} {d : Disk} (h : CreationRun log d) (env : Env)
    (behind : ℕ → Byte) :
    (∀ c, Allowed log d c → ∃ d', (c.prog env behind).run vdisk d = some (0, d')) ∧
    (∀ c ∈ log, (understandThePath env (pathString c.path behind).chars).run vdisk d =
      some ((c.number : ℤ), d)) ∧
    (∀ b ∈ log, ∀ c ∈ log, b.path ≠ c.path → b.number ≠ c.number) ∧
    (∀ c ∈ log, ∃ stat, (fsGetattr env (pathString c.path behind)).run vdisk d =
      some ((0, stat), d) ∧ stat.stMode = c.kind.mode ∧ (c.kind = .file → stat.stSize = 0)) ∧
    (∀ as, IsDirPath log as → ∃ stat, (fsGetattr env (pathString as behind)).run vdisk d =
      some ((0, stat), d) ∧ stat.stMode = dirMode ∧
        stat.stSize.toNat = 32 * (children log as).length) ∧
    (∀ as, IsDirPath log as → (children log as).Nodup ∧
      (fsReaddir env (pathString as behind)).run vdisk d =
        some ((0, (children log as).map Name.chars), d)) ∧
    (∀ as a, IsDirPath log as → (children log as).length < 128 * 12 → a ∉ children log as →
      (understandThePath env (pathString (as ++ [a]) behind).chars).run vdisk d =
        some (negENOENT, d)) := by
  have hr := h.refines
  have hwalk := hr.sound.walkable
  have hinj : Function.Injective fileNames := List.map_injective_iff.mpr Name.fileName_injective
  refine ⟨fun c hc => ?_, fun c hc => hwalk.run_understandThePath env (hr.resolve c hc),
    fun b hb c hc hpath hnumber => ?_, fun c hc => ?_, fun as has => ?_, fun as has => ?_,
    fun as a has hroom ha => ?_⟩
  · obtain ⟨p, hp, hcan⟩ := hr.canCreate hc
    exact ⟨_, hr.run_prog hp hcan env behind⟩
  · refine hpath (hinj (hr.sound.directories.graph.proper.resolve_inj (hr.resolve b hb) ?_))
    rw [hnumber]
    exact hr.resolve c hc
  · exact ⟨_, hwalk.run_fsGetattr env (hr.resolve c hc) behind, hr.mode c hc, hr.size c hc⟩
  · obtain ⟨p, hp, hdir⟩ := hr.exists_dir has
    refine ⟨_, hwalk.run_fsGetattr env hp behind, hdir.2, ?_⟩
    rw [← hr.count_eq has hp hdir]
    exact (hr.sound.directories.dir p hdir).size_eq
  · obtain ⟨p, hp, hdir⟩ := hr.exists_dir has
    have hlisting := hr.listing as p has hp
    have hnodup := hr.sound.directories.graph.proper.names p
    rw [hlisting] at hnodup
    exact ⟨hnodup.of_map _, hwalk.run_fsReaddir env hp hdir hlisting behind⟩
  · obtain ⟨p, hp, hdir⟩ := hr.exists_dir has
    have hcount := hr.count_eq has hp hdir
    exact hwalk.run_understandThePath_missing env hp hdir (by omega) (hr.lookup_eq_none has hp ha)

/-! ### A directory in the root, with a file and a directory -/

/-- The log of `mkdir /a`, `mknod /a/b` and `mkdir /a/c`. -/
def nestedLog (a b c : Name) (i j k : ℕ) : List Created :=
  [Creation.numbered ⟨.directory, [], a⟩ i, Creation.numbered ⟨.file, [a], b⟩ j,
    Creation.numbered ⟨.directory, [a], c⟩ k]

section Nested

variable (a b c : Name) (i j k : ℕ)

theorem isDirPath_nestedLog : IsDirPath (nestedLog a b c i j k) [a] :=
  .inr ⟨_, List.mem_cons_self, rfl, rfl⟩

theorem children_nestedLog : children (nestedLog a b c i j k) [a] = [b, c] := by
  simp [children, nestedLog, Creation.numbered]

variable {b c}

theorem exists_creationRun_nested (hne : c ≠ b) :
    ∃ i j k d, CreationRun (nestedLog a b c i j k) d ∧ d.HasInode := by
  have hinodes := Disk.freeInodes_initial plainEnv fun _ => 0
  obtain ⟨i, d₁, hrun₁, hfree₁⟩ := CreationRun.exists_extend
    (.init (Disk.run_mkfs_zeroDisk plainEnv fun _ => 0)) (c := ⟨.directory, [], a⟩)
    ⟨.inl rfl, by simp [children], List.not_mem_nil, Disk.freeInodes_pos_iff.mp (by omega)⟩
  have hparent (l : List Created) : IsDirPath
      (([] ++ [Creation.numbered ⟨.directory, [], a⟩ i]) ++ l) [a] :=
    .inr ⟨_, List.mem_cons_self, rfl, rfl⟩
  obtain ⟨j, d₂, hrun₂, hfree₂⟩ := hrun₁.exists_extend (c := ⟨.file, [a], b⟩)
    ⟨by simpa using hparent [], by simp [children, Creation.numbered],
      by simp [children, Creation.numbered], Disk.freeInodes_pos_iff.mp (by omega)⟩
  obtain ⟨k, d₃, hrun₃, hfree₃⟩ := hrun₂.exists_extend (c := ⟨.directory, [a], c⟩)
    ⟨hparent _, by simp [children, Creation.numbered],
      by simpa [children, Creation.numbered] using hne, Disk.freeInodes_pos_iff.mp (by omega)⟩
  exact ⟨i, j, k, d₃, hrun₃, Disk.freeInodes_pos_iff.mp (by omega)⟩

end Nested

/-- After `mkdir /a`, `mknod /a/b` and `mkdir /a/c` the last two are found and listed, in this
order, `/a/d` is not found, and `mknod /a/c/e` returns 0. -/
theorem creation_refines_tree_nested : ∃ i j k d,
    CreationRun (nestedLog (letter 97) (letter 98) (letter 99) i j k) d ∧
    (∃ d', (fsMknod plainEnv (pathString [letter 97, letter 99, letter 101] plainMemory)).run vdisk
      d = some (0, d')) ∧
    (understandThePath plainEnv [47, 97, 47, 98]).run vdisk d = some ((j : ℤ), d) ∧
    (understandThePath plainEnv [47, 97, 47, 99]).run vdisk d = some ((k : ℤ), d) ∧ j ≠ k ∧
    (∃ stat, (fsGetattr plainEnv (pathString [letter 97] plainMemory)).run vdisk d =
      some ((0, stat), d) ∧ stat.stMode = dirMode ∧ stat.stSize.toNat = 64) ∧
    (fsReaddir plainEnv (pathString [letter 97] plainMemory)).run vdisk d =
      some ((0, [[98], [99]]), d) ∧
    (understandThePath plainEnv [47, 97, 47, 100]).run vdisk d = some (negENOENT, d) := by
  obtain ⟨i, j, k, d, hd, hinode⟩ := exists_creationRun_nested (letter 97) (b := letter 98)
    (c := letter 99) fun heq => absurd (congrArg Name.chars heq) (by decide)
  obtain ⟨hallowed, hresolve, hnumbers, -, hattr, hlisting, hmissing⟩ :=
    creation_refines_tree hd plainEnv plainMemory
  have hparent := isDirPath_nestedLog (letter 97) (letter 98) (letter 99) i j k
  have hchildren := children_nestedLog (letter 97) (letter 98) (letter 99) i j k
  have hb := List.mem_cons_of_mem (Creation.numbered ⟨.directory, [], letter 97⟩ i)
    (List.mem_cons_self (a := Creation.numbered ⟨.file, [letter 97], letter 98⟩ j)
      (l := [Creation.numbered ⟨.directory, [letter 97], letter 99⟩ k]))
  have hc : Creation.numbered ⟨.directory, [letter 97], letter 99⟩ k ∈
      nestedLog (letter 97) (letter 98) (letter 99) i j k := List.mem_of_getLast? rfl
  refine ⟨i, j, k, d, hd, hallowed ⟨.file, [letter 97, letter 99], letter 101⟩
    ⟨.inr ⟨_, hc, rfl, rfl⟩, by simp [children, nestedLog, Creation.numbered],
      by simp [children, nestedLog, Creation.numbered], hinode⟩, hresolve _ hb, hresolve _ hc,
    hnumbers _ hb _ hc ?_, ?_, ?_, hmissing _ (letter 100) hparent ?_ ?_⟩
  · exact fun heq => absurd (congrArg (List.map Name.chars) heq)
      (by simp [Creation.path, letter])
  · obtain ⟨stat, hcall, hmode, hsize⟩ := hattr _ hparent
    rw [hchildren] at hsize
    exact ⟨stat, hcall, hmode, hsize⟩
  · have hcall := (hlisting _ hparent).2
    rwa [hchildren] at hcall
  · rw [hchildren]
    decide
  · rw [hchildren]
    exact fun hmem => absurd (List.mem_map_of_mem (f := Name.chars) hmem) (by decide)

end InodeFs
