import InodeFs.Properties.Runs
import InodeFs.Ops.Resolve

/-!
# Paths that do not exist

`-ENOENT` is the number -2 here, and the number of an inode is what `understand_the_path` is used
for: only `fs_getattr` looks at it before it reads the record. Everywhere else `buffer_inode[-2]`
or the mask of the inode map at index -2 is accessed, or (in `fs_rename`) nothing at all tests the
number. `missing_refused_iff` says which calls are left: the lookup itself and `fs_getattr`, for
the last component of a path.

`Missing` says which component of a path is the first that is not there, and what is behind it. If
something is behind it the walk goes on with inode -2, which has no record, and no call has a
meaning (`Missing.run_understandThePath`). If it is the last one the lookup returns `-ENOENT`, and
each operation is followed from there by a lemma of its own.

A call without a meaning is one that leaves an array: the run of its program has no result. For
`fs_rename` this need not be so, as it may find both directories though not the file, and then it
returns 0 in any case (`returnsOnly_fsRename`), which is no refusal either.
-/

namespace InodeFs

variable (env : Env)

/-- The path leads to directory `p`, whose next component `b` it does not have; `tail` is what is
left of the path. -/
structure Disk.Missing (d : Disk) (path : List Byte) (p : ℕ) (b tail : List Byte) : Prop where
  parent : ∃ as : List Name, path = joinNames as ++ slash :: (b ++ tail) ∧
    d.graph.resolve 4 (fileNames as) = some p
  dir : d.IsDir p
  ne_nil : b ≠ []
  noSlash : ∀ c ∈ b, c ≠ slash
  noNul : ∀ c ∈ b, c ≠ 0
  rest : tail = [] ∨ ∃ r, tail = slash :: r
  missing : ∀ a : Name, a.chars = b → d.graph.lookup p a.fileName = none

/-- The child `last` of a path. -/
def CString.child (path : CString) (last : List Byte) (noNul : ∀ c ∈ last, c ≠ 0) : CString where
  chars := path.chars ++ slash :: last
  noNul c hc := by
    rcases List.mem_append.mp hc with hc | hc
    · exact path.noNul c hc
    · rcases List.mem_cons.mp hc with rfl | hc
      · decide
      · exact noNul c hc
  behind := path.behind

/-- The calls that take a path; a creation takes a child of it. -/
inductive PathCall : Type
  | lookup
  | getattr
  | read (buffer : ℕ → Byte) (size offset : ℕ)
  | write (buffer : ℕ → Byte) (size offset : ℕ)
  | truncate (size : ℤ)
  | unlink
  | rename (newname : CString)
  | mknod (last : List Byte) (noNul : ∀ c ∈ last, c ≠ 0) (noSlash : ∀ c ∈ last, c ≠ slash)
  | mkdir (last : List Byte) (noNul : ∀ c ∈ last, c ≠ 0) (noSlash : ∀ c ∈ last, c ≠ slash)

/-- The call returns `-ENOENT` and leaves the disk as it was. -/
def PathCall.Refused (path : CString) (d : Disk) : PathCall → Prop
  | .lookup => (understandThePath env path.chars).run vdisk d = some (negENOENT, d)
  | .getattr => ∃ attr, (fsGetattr env path).run vdisk d = some ((negENOENT, attr), d)
  | .read buffer size offset =>
    ∃ out, (fsRead env path buffer size offset).run vdisk d = some ((negENOENT, out), d)
  | .write buffer size offset =>
    (fsWrite env path buffer size offset).run vdisk d = some (negENOENT, d)
  | .truncate size => (fsTruncate env path size).run vdisk d = some (negENOENT, d)
  | .unlink => (fsUnlink env path).run vdisk d = some (negENOENT, d)
  | .rename newname => (fsRename env path newname).run vdisk d = some (negENOENT, d)
  | .mknod last noNul _ =>
    (fsMknod env (path.child last noNul)).run vdisk d = some (negENOENT, d)
  | .mkdir last noNul _ =>
    (fsMkdir env (path.child last noNul)).run vdisk d = some (negENOENT, d)

/-! ### The number -2 -/

/-- A table of records has no element -2. -/
theorem index_negative {γ : Type} {n : ℕ} (a : Fin n → γ) :
    (Prog.index a (-2) : Fs γ) = .undefined := by
  unfold Prog.index
  exact dif_neg (by omega)

theorem run_makeInodeMapUncovered_negENOENT (d : Disk) :
    (makeInodeMapUncovered env negENOENT).run vdisk d = none := by
  have hmask : negENOENT.tmod 8 = -2 := rfl
  obtain ⟨buffer, hbuffer⟩ := exists_run_envRead env 1 d
  rw [makeInodeMapUncovered, Prog.run_bind_some _ hbuffer, orIntoMap]
  simp only [hmask]
  rw [index_negative]
  rfl

theorem run_mountInFather_negENOENT (e : DictioryContent) (d : Disk) :
    (mountInFather env negENOENT e).run vdisk d = none := by
  have hposition : inodeFindDiskIdAndIndexInDisk negENOENT = (-2, ((4 : ℕ) : ℤ)) := rfl
  simp only [mountInFather, hposition]
  rw [Prog.run_bind_some _ (run_readINodes env (by decide) d), index_negative]
  rfl

section Missing

variable {d : Disk} (hd : d.Sound) {path : CString} {p : ℕ} {b tail : List Byte}
  (h : d.Missing path.chars p b tail)
include hd h

/-- **The lookup of a missing path**. -/
theorem Disk.Missing.run_understandThePath : (understandThePath env path.chars).run vdisk d =
    if tail = [] ∧ b.length ≤ 30 ∧ (d.inode p).count < 1536 then some (negENOENT, d) else none := by
  obtain ⟨as, hpath, hresolve⟩ := h.parent
  have hnone (e : DictioryContent) (he : e ∈ d.entriesOf (d.inode p)) :
      e.fileName ≠ fileNameOf (padTo30 b) := by
    obtain ⟨j, hj, rfl⟩ := List.mem_map.mp he
    have hmem := Disk.mem_graph.mpr ⟨h.dir, j, List.mem_range.mp hj, rfl⟩
    obtain ⟨a, ha⟩ := hd.directories.graph.named p _ hmem
    intro heq
    have hname : a.fileName = fileNameOf (padTo30 b) := ha.trans heq
    have hlookup := h.missing a ((Name.fileNameOf_padTo30_eq_iff h.noNul).mp hname.symm).symm
    exact NameGraph.lookup_eq_none.mp hlookup _ hmem ha.symm
  rw [hpath, hd.walkable.run_understandThePath_via env hresolve (b ++ tail)]
  exact hd.walkable.run_understandLoop_missing env h.dir
    (fun hnil => h.ne_nil (List.append_eq_nil_iff.mp hnil).1) h.noSlash h.rest hnone 4

/-- Whatever uses the number without a test has no meaning. -/
theorem Disk.Missing.run_eq_none {α : Type} {f : ℤ → Fs α}
    (hf : (f negENOENT).run vdisk d = none) :
    (understandThePath env path.chars >>= f).run vdisk d = none := by
  rw [Prog.run_bind, h.run_understandThePath env hd]
  split
  · exact hf
  · rfl

/-! ### The calls -/

/-- `fs_getattr` tests the number, and returns it. -/
theorem Disk.Missing.run_fsGetattr : (fsGetattr env path).run vdisk d =
    if tail = [] ∧ b.length ≤ 30 ∧ (d.inode p).count < 1536 then
      some ((negENOENT, Stat.cleared), d)
    else none := by
  rw [fsGetattr, Prog.run_bind, h.run_understandThePath env hd]
  split
  · rw [Option.bind_some, if_pos rfl]
    rfl
  · rfl

theorem Disk.Missing.run_fsRead (buffer : ℕ → Byte) (size offset : ℕ) :
    (fsRead env path buffer size offset).run vdisk d = none := by
  refine h.run_eq_none env hd ?_
  rw [Prog.run_bind, run_justReadInodeFromDisk_negENOENT, Option.bind_none]

theorem Disk.Missing.run_fsWrite (buffer : ℕ → Byte) (size offset : ℕ) :
    (fsWrite env path buffer size offset).run vdisk d = none := by
  refine h.run_eq_none env hd ?_
  rw [Prog.run_bind, run_justReadInodeFromDisk_negENOENT, Option.bind_none]

theorem Disk.Missing.run_fsTruncate (size : ℤ) :
    (fsTruncate env path size).run vdisk d = none := by
  have hposition : inodeFindDiskIdAndIndexInDisk negENOENT = (-2, ((4 : ℕ) : ℤ)) := rfl
  refine h.run_eq_none env hd ?_
  simp only [hposition]
  rw [Prog.run_bind_some _ (run_readINodes env (by decide) d), index_negative]
  rfl

/-- `fs_unlink` may find the directory; at the latest the inode map has no bit -2. -/
theorem Disk.Missing.run_fsUnlink : (fsUnlink env path).run vdisk d = none := by
  rw [fsUnlink]
  cases unlinkDirName path with
  | none => rfl
  | some dirName =>
    refine h.run_eq_none env hd (Option.eq_none_iff_forall_ne_some.mpr fun q hq => ?_)
    obtain ⟨_, _, -, hq⟩ := (Prog.run_bind_eq_some vdisk).mp hq
    obtain ⟨_, _, -, hq⟩ := (Prog.run_bind_eq_some vdisk).mp hq
    obtain ⟨_, _, -, hq⟩ := (Prog.run_bind_eq_some vdisk).mp hq
    obtain ⟨_, t, hmap, -⟩ := (Prog.run_bind_eq_some vdisk).mp hq
    rw [run_makeInodeMapUncovered_negENOENT] at hmap
    cases hmap

/-- A creation in a missing directory fills the inode before it looks for the directory's record. -/
theorem Disk.Missing.run_fsCreate (apply : Fs ℤ) (last : List Byte) (noNul : ∀ c ∈ last, c ≠ 0)
    (noSlash : ∀ c ∈ last, c ≠ slash) :
    (fsCreate env apply (path.child last noNul)).run vdisk d = none := by
  have hchars : (path.child last noNul).chars = path.chars ++ slash :: last := rfl
  have hne : path.chars ≠ [] := by
    obtain ⟨as, hpath, -⟩ := h.parent
    rw [hpath]
    exact List.append_ne_nil_of_right_ne_nil _ (List.cons_ne_nil _ _)
  rw [fsCreate, hchars, splitPath_append _ noSlash, if_neg hne]
  split
  · rfl
  · rw [Prog.ret_bind]
    refine h.run_eq_none env hd (Option.eq_none_iff_forall_ne_some.mpr fun q hq => ?_)
    obtain ⟨number, t, -, hq⟩ := (Prog.run_bind_eq_some vdisk).mp hq
    rw [Prog.note_bind, Prog.run_note, Prog.pure_eq_ret, Prog.ret_bind,
      run_mountInFather_negENOENT] at hq
    cases hq

end Missing

/-- Whatever the program returns is `r`. -/
def ReturnsOnly (p : Fs ℤ) (r : ℤ) : Prop := ∀ d a t, p.run vdisk d = some (a, t) → a = r

theorem returnsOnly_bind {α : Type} {p : Fs α} {f : α → Fs ℤ} {r : ℤ}
    (hf : ∀ a, ReturnsOnly (f a) r) : ReturnsOnly (p >>= f) r := fun d b u hrun => by
  obtain ⟨a, t, -, hthen⟩ := (Prog.run_bind_eq_some vdisk).mp hrun
  exact hf a t b u hthen

theorem returnsOnly_pure (r : ℤ) : ReturnsOnly (pure r) r := fun _ _ _ hrun => by
  cases hrun
  rfl

/-- `fs_rename` tests no number, and returns 0. -/
theorem returnsOnly_fsRename (path newname : CString) :
    ReturnsOnly (fsRename env path newname) 0 := by
  refine returnsOnly_bind fun fileInodeNumber => ?_
  split
  · exact returnsOnly_bind fun _ => returnsOnly_bind fun _ => returnsOnly_bind fun _ =>
      returnsOnly_bind fun _ => returnsOnly_bind fun _ => returnsOnly_bind fun _ =>
      returnsOnly_bind fun _ => returnsOnly_bind fun _ => returnsOnly_pure 0
  · exact fun _ _ _ hrun => by cases hrun

/-- **Which calls refuse a missing path**: the lookup and `fs_getattr` do exactly if the missing
component is the last one, fits into `son_name` and is looked up in a directory with a slot left;
the others never do. -/
theorem missing_refused_iff {d : Disk} (hd : d.Sound) {path : CString} {p : ℕ} {b tail : List Byte}
    (h : d.Missing path.chars p b tail) (call : PathCall) : call.Refused env path d ↔
      (call = .lookup ∨ call = .getattr) ∧ tail = [] ∧ b.length ≤ 30 ∧
        (d.inode p).count < 128 * 12 := by
  -- `lookup` and `getattr` answer with the error, the other calls do not
  cases call with
  | lookup =>
    rw [PathCall.Refused, h.run_understandThePath env hd, Option.ite_none_right_eq_some]
    exact ⟨fun hcond => ⟨.inl rfl, hcond.1⟩, fun hcond => ⟨hcond.2, rfl⟩⟩
  | getattr =>
    rw [PathCall.Refused, h.run_fsGetattr env hd]
    refine ⟨fun ⟨attr, hrun⟩ => ?_, fun hcond => ⟨Stat.cleared, if_pos hcond.2⟩⟩
    rw [Option.ite_none_right_eq_some] at hrun
    exact ⟨.inr rfl, hrun.1⟩
  | read buffer size offset =>
    rw [PathCall.Refused, h.run_fsRead env hd]
    simp
  | write buffer size offset =>
    rw [PathCall.Refused, h.run_fsWrite env hd]
    simp
  | truncate size =>
    rw [PathCall.Refused, h.run_fsTruncate env hd]
    simp
  | unlink =>
    rw [PathCall.Refused, h.run_fsUnlink env hd]
    simp
  | rename newname =>
    refine ⟨fun hrun => ?_, fun hcond => by simp at hcond⟩
    exact absurd (returnsOnly_fsRename env path newname d _ _ hrun) (by decide)
  | mknod last noNul noSlash =>
    rw [PathCall.Refused, fsMknod, h.run_fsCreate env hd _ _ _ noSlash]
    simp
  | mkdir last noNul noSlash =>
    rw [PathCall.Refused, fsMkdir, h.run_fsCreate env hd _ _ _ noSlash]
    simp

/-! ### On a formatted disk -/

theorem missing_initial (a : Name) {path : CString} {tail : List Byte}
    (hpath : path.chars = slash :: (a.chars ++ tail)) (htail : tail = [] ∨ ∃ r, tail = slash :: r) :
    (Disk.initial plainEnv fun _ => 0).Missing path.chars 4 a.chars tail where
  parent := ⟨[], hpath, rfl⟩
  dir := (Disk.isDir_initial _ _).mpr rfl
  ne_nil := a.ne_nil
  noSlash := a.noSlash
  noNul := a.noNul
  rest := htail
  missing b _ := by rw [NameGraph.lookup, Disk.graph_initial]; rfl

/-- `getattr /@@`. -/
theorem missing_refused_getattr : PathCall.getattr.Refused plainEnv
    (pathString [nthName 0] plainMemory) (Disk.initial plainEnv fun _ => 0) :=
  (missing_refused_iff plainEnv (Disk.sound_initial plainEnv fun _ => 0)
    (missing_initial (nthName 0) rfl (.inl rfl)) .getattr).mpr
      ⟨.inr rfl, rfl, by decide, by rw [Disk.count_initial]; decide⟩

/-- `unlink /@@`, and the lookup of `/@@/@A`. -/
theorem not_missing_refused :
    ¬ PathCall.unlink.Refused plainEnv (pathString [nthName 0] plainMemory)
      (Disk.initial plainEnv fun _ => 0) ∧
    ¬ PathCall.lookup.Refused plainEnv (pathString [nthName 0, nthName 1] plainMemory)
      (Disk.initial plainEnv fun _ => 0) := by
  have hd := Disk.sound_initial plainEnv fun _ => 0
  refine ⟨fun hrun => ?_, fun hrun => ?_⟩
  · rw [PathCall.Refused,
      (missing_initial (nthName 0) rfl (.inl rfl)).run_fsUnlink plainEnv hd] at hrun
    cases hrun
  · rw [PathCall.Refused, (missing_initial (nthName 0) rfl
      (.inr ⟨(nthName 1).chars, rfl⟩)).run_understandThePath plainEnv hd, if_neg fun hcond =>
        absurd hcond.1 (List.cons_ne_nil _ _)] at hrun
    cases hrun

end InodeFs
