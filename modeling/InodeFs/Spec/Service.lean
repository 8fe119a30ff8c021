import InodeFs.Code.Main
import InodeFs.Properties.Runs
import InodeFs.Spec.FileTree

/-!
# The service, as a file tree

The requests that the kernel makes of the callbacks, and what the abstract file tree admits for
each: the answers, and the trees it may leave. The tree is deterministic except for the bytes
that the code leaves open, which `Overwritten` and `Resized` describe.

`Callback` has a constructor for each request, with the path as a list of names and the bytes behind
it in memory, and `Callback.operation` is the entry of the table that serves it. `Op.Admits` is the
change of the tree for each changing call, and `Callback.Admits` the answer and the tree for every
request.

The tree describes the program and not an ideal file system. What is found of the source's mistakes
in safe requests is in it: `fs_read` reports `min size length` whatever the offset is, a write ends
the file where it ends, the bytes of a file that grows are any, a rename keeps the old last
component, and `fs_statfs` reports no free block. `Callback.Concerns` says at which paths a request
can change something, and is used for what stays.
-/

namespace InodeFs

/-! ### Requests -/

/-- A request: one of the calls that change the disk, or of the others. -/
inductive Callback : Type
  | change (op : Op)
  | getattr (path : List Name) (behind : ℕ → Byte)
  | readdir (path : List Name) (behind : ℕ → Byte)
  | read (path : List Name) (behind buffer : ℕ → Byte) (size offset : ℕ)
  | utime (path : List Name) (behind : ℕ → Byte)
  | statfs
  | openFile (path : List Name) (behind : ℕ → Byte)
  | release (path : List Name) (behind : ℕ → Byte)
  | opendir (path : List Name) (behind : ℕ → Byte)
  | releasedir (path : List Name) (behind : ℕ → Byte)

/-- The callback of a changing call. -/
def Op.operation : Op → FsOperation
  | .create c behind =>
    match c.kind with
    | .file => .mknod (pathString c.path behind)
    | .directory => .mkdir (pathString c.path behind)
  | .write path behind buffer size offset => .write (pathString path behind) buffer size offset
  | .truncate path behind size => .truncate (pathString path behind) size
  | .unlink parent name behind => .unlink (pathString (parent ++ [name]) behind)
  | .rmdir parent name behind => .rmdir (pathString (parent ++ [name]) behind)
  | .rename parent name behind parent' name' behind' =>
    .rename (pathString (parent ++ [name]) behind) (pathString (parent' ++ [name']) behind')

/-- The callback that serves a request. -/
def Callback.operation : Callback → FsOperation
  | .change op => op.operation
  | .getattr path behind => .getattr (pathString path behind)
  | .readdir path behind => .readdir (pathString path behind)
  | .read path behind buffer size offset => .read (pathString path behind) buffer size offset
  | .utime path behind => .utime (pathString path behind)
  | .statfs => .statfs
  | .openFile path behind => .openFile (pathString path behind)
  | .release path behind => .release (pathString path behind)
  | .opendir path behind => .opendir (pathString path behind)
  | .releasedir path behind => .releasedir (pathString path behind)

theorem Op.prog_operation (env : Env) (op : Op) :
    op.operation.prog env = op.prog env >>= fun r => pure (.code r) := by
  cases op with
  | create c behind =>
    rw [Op.operation, Op.prog, Creation.prog]
    cases c.kind <;> rfl
  | write path behind buffer size offset => rfl
  | truncate path behind size => rfl
  | unlink parent name behind => rfl
  | rmdir parent name behind => rfl
  | rename parent name behind parent' name' behind' => rfl

/-! ### What the tree admits -/

/-- What a creation makes. -/
def Kind.contents : Kind → Contents
  | .file => .file []
  | .directory => .directory

/-- The value a changing call returns. -/
def Op.value : Op → ℤ
  | .write _ _ _ size _ => size
  | _ => 0

/-- **The trees a changing call may leave.** A rename moves the node under its old name. -/
def Op.Admits (env : Env) (t t' : FileTree) : Op → Prop
  | .create c _ =>
    t' = (t.modify c.parent (.stamped (env.time 3) (env.time 4))).set c.path
      (.fresh env c.kind.contents)
  | .write path _ buffer size offset => ∃ old new, t.HasBytes path old ∧
      Overwritten old buffer size offset new ∧ t' = t.modify path (.withBytes new)
  | .truncate path _ size => ∃ old new, t.HasBytes path old ∧ Resized old size new ∧
      t' = t.modify path (.withBytes new)
  | .unlink parent name _ =>
    t' = (t.modify parent (.stamped (env.time 1) (env.time 0))).prune (parent ++ [name])
  | .rmdir parent name _ =>
    t' = (t.modify parent (.stamped (env.time 1) (env.time 0))).prune (parent ++ [name])
  | .rename parent name _ parent' _ _ =>
    t' = ((t.modify parent (.stamped (env.time 3) (env.time 2))).modify parent'
      (.stamped (env.time 0) (env.time 1))).move (parent ++ [name]) (parent' ++ [name])

/-- **The answers and trees a request may have.** -/
def Callback.Admits (env : Env) (t : FileTree) (answer : Answer) (t' : FileTree) : Callback → Prop
  | .change op => answer = .code op.value ∧ op.Admits env t t'
  | .getattr path _ => t' = t ∧ answer =
      match t path with
      | some x => .attributes 0 (t.stat path x)
      | none => .attributes negENOENT .cleared
  | .readdir path _ => t' = t ∧ ∃ names : List Name, answer = .listing 0 (names.map Name.chars) ∧
      names.Nodup ∧ ∀ a, a ∈ names ↔ a ∈ t.children path
  | .read path _ _ size offset => t' = t ∧ ∃ bytes out, t.HasBytes path bytes ∧
      answer = .bytes (min size bytes.length : ℕ) out ∧
      ∀ k < size, offset + k < bytes.length → bytes[offset + k]? = some (out k)
  | .utime path _ => ∃ x, t path = some x ∧
      answer = .times 0 ⟨x.attributes.atime, env.time 0⟩ ∧
      t' = t.modify path (.touched (env.time 0))
  | .statfs => t' = t ∧ ∃ stat, answer = .statistics 0 stat ∧ stat.fBsize = 4096 ∧
      stat.fBlocks = 65536 ∧ stat.fBfree = 0 ∧ stat.fBavail = 0 ∧ stat.fNamemax = 24
  | .openFile _ _ => t' = t ∧ answer = .code 0
  | .release _ _ => t' = t ∧ answer = .code 0
  | .opendir _ _ => t' = t ∧ answer = .code 0
  | .releasedir _ _ => t' = t ∧ answer = .code 0

/-! ### What a request concerns -/

/-- The paths at which a changing call makes or removes something. -/
def Op.Relinks (as : List Name) : Op → Prop
  | .create c _ => as = c.path
  | .write _ _ _ _ _ => False
  | .truncate _ _ _ => False
  | .unlink parent name _ => parent ++ [name] <+: as
  | .rmdir parent name _ => parent ++ [name] <+: as
  | .rename parent name _ parent' _ _ => parent ++ [name] <+: as ∨ parent' ++ [name] <+: as

/-- The paths at which a changing call replaces a node. -/
def Op.updated : Op → List (List Name)
  | .create c _ => [c.parent]
  | .write path _ _ _ _ => [path]
  | .truncate path _ _ => [path]
  | .unlink parent _ _ => [parent]
  | .rmdir parent _ _ => [parent]
  | .rename parent _ _ parent' _ _ => [parent, parent']

/-- The request is about what is at a path. -/
def Callback.Concerns (as : List Name) : Callback → Prop
  | .change op => as ∈ op.updated ∨ op.Relinks as
  | .utime path _ => as = path
  | _ => False

/-- What is made or removed in a directory replaces the node of the directory. -/
theorem Op.not_relinks_concat {op : Op} {as : List Name} (hnot : ¬ op.Relinks as)
    (hne : as ∉ op.updated) (a : Name) : ¬ op.Relinks (as ++ [a]) := by
  have hbelow {bs : List Name} {b : Name} (hbs : ¬ bs ++ [b] <+: as) (hne : as ≠ bs) :
      ¬ bs ++ [b] <+: as ++ [a] := by
    intro hpre
    rcases List.prefix_concat_iff.mp hpre with heq | hpre'
    · exact hne (List.append_inj' heq rfl).1.symm
    · exact hbs hpre'
  cases op with
  | create c behind =>
    intro heq
    exact hne (List.mem_singleton.mpr (List.append_inj' heq rfl).1)
  | write path behind buffer size offset => exact id
  | truncate path behind size => exact id
  | unlink parent name behind => exact hbelow hnot (List.ne_of_not_mem_cons hne)
  | rmdir parent name behind => exact hbelow hnot (List.ne_of_not_mem_cons hne)
  | rename parent name behind parent' name' behind' =>
    obtain ⟨hold, hnew⟩ := not_or.mp hnot
    obtain ⟨hparent, hparent'⟩ := List.ne_and_not_mem_of_not_mem_cons hne
    intro hor
    exact hor.elim (hbelow hold hparent) (hbelow hnew (List.ne_of_not_mem_cons hparent'))

namespace Op.Admits

variable {env : Env} {t t' : FileTree} {op : Op} {as : List Name} (h : op.Admits env t t')
include h

/-- Elsewhere nothing is made or removed. -/
theorem eq_none_iff (hnot : ¬ op.Relinks as) : t' as = none ↔ t as = none := by
  cases op with
  | create c behind => rw [h, PathTree.set_of_ne hnot, PathTree.modify_eq_none_iff]
  | write path behind buffer size offset =>
    obtain ⟨old, new, -, -, rfl⟩ := h
    exact PathTree.modify_eq_none_iff
  | truncate path behind size =>
    obtain ⟨old, new, -, -, rfl⟩ := h
    exact PathTree.modify_eq_none_iff
  | unlink parent name behind =>
    rw [h, PathTree.prune_of_not_prefix hnot, PathTree.modify_eq_none_iff]
  | rmdir parent name behind =>
    rw [h, PathTree.prune_of_not_prefix hnot, PathTree.modify_eq_none_iff]
  | rename parent name behind parent' name' behind' =>
    obtain ⟨hold, hnew⟩ := not_or.mp hnot
    rw [h, PathTree.move_of_not_prefix hold hnew, PathTree.modify_eq_none_iff,
      PathTree.modify_eq_none_iff]

/-- Where nothing is made, removed or replaced, everything is as it was. -/
theorem apply_eq (hnot : ¬ op.Relinks as) (hne : as ∉ op.updated) : t' as = t as := by
  cases op with
  | create c behind =>
    rw [h, PathTree.set_of_ne hnot, PathTree.modify_of_ne (List.ne_of_not_mem_cons hne)]
  | write path behind buffer size offset =>
    obtain ⟨old, new, -, -, rfl⟩ := h
    exact PathTree.modify_of_ne (List.ne_of_not_mem_cons hne)
  | truncate path behind size =>
    obtain ⟨old, new, -, -, rfl⟩ := h
    exact PathTree.modify_of_ne (List.ne_of_not_mem_cons hne)
  | unlink parent name behind =>
    rw [h, PathTree.prune_of_not_prefix hnot,
      PathTree.modify_of_ne (List.ne_of_not_mem_cons hne)]
  | rmdir parent name behind =>
    rw [h, PathTree.prune_of_not_prefix hnot,
      PathTree.modify_of_ne (List.ne_of_not_mem_cons hne)]
  | rename parent name behind parent' name' behind' =>
    obtain ⟨hold, hnew⟩ := not_or.mp hnot
    obtain ⟨hparent, hparent'⟩ := List.ne_and_not_mem_of_not_mem_cons hne
    rw [h, PathTree.move_of_not_prefix hold hnew,
      PathTree.modify_of_ne (List.ne_of_not_mem_cons hparent'), PathTree.modify_of_ne hparent]

/-- A directory that is not concerned keeps its names. -/
theorem children_eq (hnot : ¬ op.Relinks as) (hne : as ∉ op.updated) :
    t'.children as = t.children as := by
  ext a
  rw [FileTree.mem_children, FileTree.mem_children, ne_eq, ne_eq,
    h.eq_none_iff (Op.not_relinks_concat hnot hne a)]

end Op.Admits

/-- **A request that does not concern a path** leaves the node there, and the names in it. -/
theorem Callback.Admits.unconcerned {env : Env} {t t' : FileTree} {answer : Answer}
    {request : Callback} {as : List Name} (h : request.Admits env t answer t')
    (hnot : ¬ request.Concerns as) : t' as = t as ∧ t'.children as = t.children as := by
  cases request with
  | change op =>
    obtain ⟨-, hop⟩ := h
    obtain ⟨hne, hlinks⟩ := not_or.mp hnot
    exact ⟨hop.apply_eq hlinks hne, hop.children_eq hlinks hne⟩
  | utime path behind =>
    obtain ⟨x, -, -, rfl⟩ := h
    refine ⟨PathTree.modify_of_ne hnot, ?_⟩
    ext a
    rw [FileTree.mem_children, FileTree.mem_children, ne_eq, ne_eq, PathTree.modify_eq_none_iff]
  | getattr path behind => rw [h.1]; exact ⟨rfl, rfl⟩
  | readdir path behind => rw [h.1]; exact ⟨rfl, rfl⟩
  | read path behind buffer size offset => rw [h.1]; exact ⟨rfl, rfl⟩
  | statfs => rw [h.1]; exact ⟨rfl, rfl⟩
  | openFile path behind => rw [h.1]; exact ⟨rfl, rfl⟩
  | release path behind => rw [h.1]; exact ⟨rfl, rfl⟩
  | opendir path behind => rw [h.1]; exact ⟨rfl, rfl⟩
  | releasedir path behind => rw [h.1]; exact ⟨rfl, rfl⟩

end InodeFs
