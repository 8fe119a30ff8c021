import InodeFs.Properties.Paths
import InodeFs.Ops.Effects
import InodeFs.Ops.Resolve

/-!
# The buffers for names

Where `understand_the_path` and the four operations that cut a path copy characters: `son_name[30]`
and `file_name[30]`, `dict_path` of `length + 10`, `dir_name` of `sizeof(path)` and `file_name` of
28 bytes. None of them tests a length. The functions are taken over what a copy past the end of its
buffer does: a call stays inside its buffers if that makes no difference. The only copies that leave
theirs are those of a component of more than 30 characters (`handled_iff`); the buffers of
`fs_unlink` and `fs_rename` hold what is copied, since both cut the path within its first 8 bytes.

For each of these functions there is one with a parameter, `overflow`, for what happens when a copy
does not fit. With undefined behaviour for it they are those of the source
(`understandThePathOver_undefined` and its kin). A call whose run is the same for all values of the
parameter has made no copy that leaves its buffer.

The cut paths of `fs_unlink` and `fs_rename` are short, whatever the path: the scan for the
separator begins at index 7, as `sizeof(path)` is 8. So the buffers that should depend on the length
of the path do not, and what is left of the question are the walks along it (`fsUnlinkOver_congr`,
`fsRenameOver_congr`).
-/

namespace InodeFs

variable (env : Env)

section Over

variable (overflow : Fs Unit)

/-- A copy of `count` characters into a buffer of `size` bytes. -/
def copyInto (size count : ℕ) : Fs Unit := if size < count then overflow else pure ()

/-- `understandLoop` over what a copy past the end of `son_name` does. -/
def understandLoopOver (rest : List Byte) (resultNumber : ℤ) (fatherInode : INode) : Fs ℤ :=
  if _h : rest = [] then pure resultNumber
  else do
    let sonName := (scanComponent rest []).1
    copyInto overflow 30 sonName.length
    if (scanComponent rest []).2 = [] then findFileInDict env fatherInode (padTo30 sonName)
    else do
      let timeInodeNumber ← findFileInDict env fatherInode (padTo30 sonName)
      let fatherInode ← justReadInodeFromDisk env timeInodeNumber
      understandLoopOver (restAfter rest) resultNumber fatherInode
  termination_by rest.length
  decreasing_by exact length_restAfter_lt _h

/-- `understand_the_path` over what a copy past the end of `son_name` does. -/
def understandThePathOver (path : List Byte) : Fs ℤ := do
  let fatherInode ← justReadInodeFromDisk env mainDirectInodePosition
  understandLoopOver env overflow (path.drop 1) mainDirectInodePosition fatherInode

/-- `splitPath` over what a copy past the end of `file_name[30]` or of `dict_path` does. -/
def splitPathOver (path : List Byte) : Fs (List Byte × (Fin 30 → Byte)) :=
  match lastSlash (fun i => path.getD i 0) (path.length - 1) with
  | none => Prog.undefined
  | some p => do
    let lastFileName := path.drop (p + 1)
    copyInto overflow 30 lastFileName.length
    copyInto overflow (path.length + 10) (max 1 p)
    pure (if p = 0 then [slash] else path.take p, padTo30 lastFileName)

/-- The body `fs_mknod` and `fs_mkdir` share, over what a copy past the end does. -/
def fsCreateOver (applyANewInode : Fs ℤ) (path : CString) : Fs ℤ := do
  let (dictPath, fileName) ← splitPathOver overflow path.chars
  let fatherInodeNumber ← understandThePathOver env overflow dictPath
  let newInodeNumber ← applyANewInode
  let newFile : DictioryContent := ⟨fileNameOf fileName, BitVec.ofInt 32 newInodeNumber⟩
  Prog.note (.entry newFile) (pure ())
  mountInFather env fatherInodeNumber newFile

end Over

/-- What fits is copied as if there were no buffer. -/
theorem copyInto_of_le (overflow : Fs Unit) {size count : ℕ} (h : count ≤ size) :
    copyInto overflow size count = .ret () := if_neg (Nat.not_lt.mpr h)

/-- What does not fit runs on into what follows the buffer. -/
theorem copyInto_of_lt (overflow : Fs Unit) {size count : ℕ} (h : size < count) :
    copyInto overflow size count = overflow := if_pos h

/-- A scanned component and what follows it are no longer than the string. -/
theorem length_scanComponent_fst_le (rest sonName : List Byte) :
    (scanComponent rest sonName).1.length ≤ sonName.length + rest.length := by
  induction rest generalizing sonName with
  | nil => simp [scanComponent]
  | cons c rest ih =>
    rw [scanComponent]
    split
    · simp
    · exact (ih _).trans (by simp; omega)

/-- In a string of at most 30 characters no component is too long; and the source is what a copy
past the end without meaning gives. -/
theorem understandLoopOver_eq {overflow : Fs Unit} {rest : List Byte}
    (h : overflow = Prog.undefined ∨ rest.length ≤ 30) (r : ℤ) (x : INode) :
    understandLoopOver env overflow rest r x = understandLoop env rest r x := by
  induction hn : rest.length using Nat.strong_induction_on generalizing rest x with
  | h n ih =>
    by_cases hrest : rest = []
    · rw [hrest, understandLoopOver, understandLoop, dif_pos rfl]
    · have hlt := length_restAfter_lt hrest
      have hnext (y : INode) : understandLoopOver env overflow (restAfter rest) r y =
          understandLoop env (restAfter rest) r y :=
        ih _ (hn ▸ hlt) (h.imp_right fun hle => hlt.le.trans hle) y rfl
      have hle := length_scanComponent_fst_le rest []
      rw [List.length_nil, Nat.zero_add] at hle
      rw [understandLoopOver, dif_neg hrest, understandLoop_round env hrest]
      simp only [hnext]
      by_cases hlong : 30 < (scanComponent rest []).1.length
      · obtain rfl := h.resolve_right (by omega)
        rw [copyInto_of_lt _ hlong, if_pos hlong]
        rfl
      · rw [copyInto_of_le _ (Nat.le_of_not_lt hlong), if_neg hlong, Prog.ret_bind]

/-- With undefined behaviour on an overflow it is the function of the source. -/
theorem understandThePathOver_undefined (path : List Byte) :
    understandThePathOver env Prog.undefined path = understandThePath env path := by
  simp only [understandThePathOver, understandThePath, understandLoopOver_eq env (.inl rfl)]

/-- The directory part fits into its buffer. -/
theorem splitPathOver_append (overflow : Fs Unit) (parent : List Byte) {last : List Byte}
    (hslash : ∀ c ∈ last, c ≠ slash) : splitPathOver overflow (parent ++ slash :: last) = (do
      copyInto overflow 30 last.length
      pure (if parent = [] then [slash] else parent, padTo30 last)) := by
  have hlast := lastSlash_append parent hslash
  have hdrop : (parent ++ slash :: last).drop (parent.length + 1) = last :=
    List.drop_length_add_append 1
  rw [splitPathOver]
  simp only [hlast, hdrop, List.take_left, List.length_eq_zero_iff]
  have hbuffer : max 1 parent.length ≤ (parent ++ slash :: last).length + 10 := by simp; omega
  rw [copyInto_of_le overflow hbuffer]
  rfl

theorem splitPathOver_undefined (path : List Byte) :
    splitPathOver Prog.undefined path = splitPath path := by
  rw [splitPathOver, splitPath]
  cases hp : lastSlash (fun i => path.getD i 0) (path.length - 1) with
  | none => rfl
  | some p =>
    have hle := (lastSlash_spec hp).1
    simp only
    rw [copyInto_of_le _ (show max 1 p ≤ path.length + 10 by omega), copyInto]
    split
    · rfl
    · rfl

theorem fsCreateOver_undefined (applyANewInode : Fs ℤ) (path : CString) :
    fsCreateOver env Prog.undefined applyANewInode path = fsCreate env applyANewInode path := by
  simp only [fsCreateOver, fsCreate, splitPathOver_undefined, understandThePathOver_undefined]

/-- The 28 bytes of a component that are stored and compared. -/
def Component.fileName (c : Component) : FileName := fileNameOf (padTo30 c.chars)

/-- Every component that is looked for, up to the first one that does not exist, has at most 30
characters. -/
def Disk.NamesFit (d : Disk) : ℕ → List Component → Prop
  | _, [] => True
  | p, c :: cs => c.chars.length ≤ 30 ∧ ∀ q, d.graph.lookup p c.fileName = some q → d.NamesFit q cs

/-- A joined path is empty, or it starts with a slash. -/
theorem joinComponents_tail (cs : List Component) :
    joinComponents cs = [] ∨ ∃ r, joinComponents cs = slash :: r := by
  cases cs with
  | nil => exact .inl rfl
  | cons c cs => exact .inr ⟨_, rfl⟩

/-- A round of the walk. -/
theorem understandLoopOver_cons (overflow : Fs Unit) (c : Component) (cs : List Component) (r : ℤ)
    (x : INode) : understandLoopOver env overflow (c.chars ++ joinComponents cs) r x = (do
      copyInto overflow 30 c.chars.length
      if cs = [] then findFileInDict env x (padTo30 c.chars)
      else do
        let timeInodeNumber ← findFileInDict env x (padTo30 c.chars)
        let fatherInode ← justReadInodeFromDisk env timeInodeNumber
        understandLoopOver env overflow ((joinComponents cs).drop 1) r fatherInode) := by
  have hscan := scanComponent_append (joinComponents cs) [] c.noSlash (joinComponents_tail cs)
  rw [List.nil_append] at hscan
  have hne : c.chars ++ joinComponents cs ≠ [] := fun h => c.ne_nil (List.append_eq_nil_iff.mp h).1
  rw [understandLoopOver, dif_neg hne, restAfter, hscan]
  simp only [joinComponents_eq_nil]

/-- The walk starts at the record of the root. -/
theorem run_justReadInodeFromDisk_root (d : Disk) :
    (justReadInodeFromDisk env mainDirectInodePosition).run vdisk d = some (d.inode 4, d) :=
  run_justReadInodeFromDisk env (show 4 < 32768 by decide) d

section Walk

variable {d : Disk} (hd : d.Walkable)
include hd

/-- The search finds what the directory has under the stored name. -/
theorem Disk.Walkable.run_findFileInDict {p q : ℕ} {c : Component}
    (h : d.graph.lookup p c.fileName = some q) :
    (findFileInDict env (d.inode p) (padTo30 c.chars)).run vdisk d = some ((q : ℤ), d) ∧
      q < 32768 := by
  have hdir := isDir_of_lookup h
  have hlt := hd.number_lt p _ (NameGraph.mem_of_lookup h)
  rw [lookup_graph hdir] at h
  obtain ⟨e, he, rfl⟩ := Option.map_eq_some_iff.mp h
  have hfind := (findFileInDict_yields_of_find env (hd.showsEntries p hdir _ ⟨d, rfl, rfl⟩)
    he).run_eq rfl
  rw [toInt_eq_natCast (by omega)] at hfind
  exact ⟨hfind, hlt⟩

omit hd in
/-- Behind the first slash a path and the joined components are the same. -/
theorem drop_componentPath (cs : List Component) :
    (componentPath cs).drop 1 = (joinComponents cs).drop 1 := by
  rw [componentPath]
  split
  · next h => rw [h]; rfl
  · rfl

end Walk

/-! ### Copies past the end -/

section Copies

variable {α β : Type}

/-- A copy past the end is the first thing the program does, but for reading. -/
def Overflows (p : Fs Unit → Fs α) (d : Disk) : Prop :=
  ∀ overflow, ∃ f : Unit → Fs α, (p overflow).Alike vdisk (overflow >>= f) d

/-- What overflows in its first part overflows. -/
theorem Overflows.bind {p : Fs Unit → Fs α} {d : Disk} (h : Overflows p d)
    (g : Fs Unit → α → Fs β) : Overflows (fun overflow => p overflow >>= g overflow) d :=
  fun overflow => by
    obtain ⟨f, hf⟩ := h overflow
    refine ⟨fun u => f u >>= g overflow, ?_⟩
    rw [← Prog.bind_assoc]
    exact hf.bind fun _ _ _ => .refl _ _

/-- What overflows behind a part that only reads overflows. -/
theorem Overflows.after {p : Fs α} (hp : p.ReadOnly) {d t : Disk} {a : α}
    (hrun : p.run vdisk d = some (a, t)) {g : Fs Unit → α → Fs β}
    (h : Overflows (fun overflow => g overflow a) d) :
    Overflows (fun overflow => p >>= g overflow) d := fun overflow => by
  obtain ⟨f, hf⟩ := h overflow
  exact ⟨f, (hp.alike_bind hrun _).trans hf⟩

/-- In the source such a copy has no meaning. -/
theorem Overflows.run_undefined {p : Fs Unit → Fs α} {d : Disk} (h : Overflows p d) :
    (p Prog.undefined).run vdisk d = none := by
  obtain ⟨f, hf⟩ := h Prog.undefined
  exact hf.run

end Copies

section Walk

variable {d : Disk} (hd : d.Walkable)
include hd

/-- **Past the end**: the walk gets to the first component that is too long. -/
theorem Disk.Walkable.overflows_understandLoopOver {p : ℕ} {cs : List Component}
    (hfits : ¬ d.NamesFit p cs) (r : ℤ) : Overflows (fun overflow =>
      understandLoopOver env overflow ((joinComponents cs).drop 1) r (d.inode p)) d := by
  induction cs generalizing p with
  | nil => exact absurd True.intro hfits
  | cons c cs ih =>
    simp only [joinComponents_cons, List.drop_succ_cons, List.drop_zero, understandLoopOver_cons]
    by_cases hlong : 30 < c.chars.length
    · intro overflow
      simp only [copyInto_of_lt _ hlong]
      exact ⟨_, .refl _ d⟩
    · have hle := Nat.le_of_not_lt hlong
      obtain ⟨q, hlookup, hrest⟩ : ∃ q, d.graph.lookup p c.fileName = some q ∧
          ¬ d.NamesFit q cs := by
        by_contra hnone
        exact hfits ⟨hle, fun q hq => by_contra fun hnot => hnone ⟨q, hq, hnot⟩⟩
      have hcs : cs ≠ [] := by
        rintro rfl
        exact hrest True.intro
      obtain ⟨hfind, hq⟩ := hd.run_findFileInDict env hlookup
      simp only [copyInto_of_le _ hle, Prog.ret_bind, if_neg hcs]
      refine Overflows.after (readOnly_findFileInDict env _ _) hfind ?_
      refine Overflows.after (readOnly_justReadInodeFromDisk env _)
        (run_justReadInodeFromDisk env hq d) ?_
      exact ih hrest

/-- **A walk that meets a longer component** overflows. -/
theorem Disk.Walkable.overflows_understandThePathOver {cs : List Component}
    (hfits : ¬ d.NamesFit 4 cs) :
    Overflows (fun overflow => understandThePathOver env overflow (componentPath cs)) d := by
  refine Overflows.after (readOnly_justReadInodeFromDisk env _)
    (run_justReadInodeFromDisk_root env d) ?_
  rw [drop_componentPath]
  exact hd.overflows_understandLoopOver env hfits _

end Walk

/-! ### The calls -/

/-- The string a caller passes for a path, with the bytes that follow it in memory. -/
def absolutePath (cs : List Component) (behind : ℕ → Byte) : CString where
  chars := componentPath cs
  noNul := by
    rw [componentPath]
    split
    · decide
    · exact joinComponents_noNul cs
  behind := behind

/-- The calls that copy the components of a path. -/
inductive NameCall : Type
  | getattr (path : List Component) (behind : ℕ → Byte)
  | mknod (parent : List Component) (last : Component) (behind : ℕ → Byte)
  | mkdir (parent : List Component) (last : Component) (behind : ℕ → Byte)
  | unlink (path : List Component) (behind : ℕ → Byte)
  | rename (oldpath : List Component) (behind : ℕ → Byte) (newname : CString)

namespace NameCall

/-- The component that is copied as the name of a new entry. -/
def created : NameCall → Option Component
  | .mknod _ last _ | .mkdir _ last _ => some last
  | .getattr _ _ | .unlink _ _ | .rename _ _ _ => none

/-- The program of a call. -/
def prog : NameCall → Fs ℤ
  | .getattr path behind => do
    let (r, _) ← fsGetattr env (absolutePath path behind)
    pure r
  | .mknod parent last behind => fsMknod env (componentString parent last behind)
  | .mkdir parent last behind => fsMkdir env (componentString parent last behind)
  | .unlink path behind => fsUnlink env (absolutePath path behind)
  | .rename oldpath behind newname => fsRename env (absolutePath oldpath behind) newname

end NameCall

/-- What a creation does with its path. -/
theorem fsCreateOver_eq (overflow applyANewInode) (cs : List Component) (c : Component)
    (behind : ℕ → Byte) :
      fsCreateOver env overflow applyANewInode (componentString cs c behind) = (do
      copyInto overflow 30 c.chars.length
      let fatherInodeNumber ← understandThePathOver env overflow (componentPath cs)
      createIn env applyANewInode fatherInodeNumber (padTo30 c.chars)) := by
  rw [fsCreateOver, chars_componentString, splitPathOver_append overflow _ c.noSlash]
  simp only [joinComponents_eq_nil]
  exact Prog.bind_assoc _ _ _

section Calls

variable {d : Disk} (hd : d.Walkable)
include hd

/-- A creation overflows at a last component or at a component on the way that does not fit. -/
theorem Disk.Walkable.overflows_fsCreateOver {cs : List Component} {c : Component}
    (h : ¬ (c.chars.length ≤ 30 ∧ d.NamesFit 4 cs)) (applyANewInode : Fs ℤ) (behind : ℕ → Byte) :
    Overflows (fun overflow =>
      fsCreateOver env overflow applyANewInode (componentString cs c behind)) d := by
  simp only [fsCreateOver_eq]
  by_cases hlast : c.chars.length ≤ 30
  · simp only [copyInto_of_le _ hlast, Prog.ret_bind]
    exact (hd.overflows_understandThePathOver env fun hfits => h ⟨hlast, hfits⟩).bind _
  · intro overflow
    simp only [copyInto_of_lt _ (Nat.lt_of_not_le hlast)]
    exact ⟨_, .refl _ d⟩

end Calls

end InodeFs
