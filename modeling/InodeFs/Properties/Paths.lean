import InodeFs.Ops.Remove
import InodeFs.State.Capacity

/-!
# Where a path is cut

Paths of components of any length. `path_resolution` says that the forward scan of
`understand_the_path` is compositional (the last component is searched in the directory its
prefix resolves to) and that `fs_mknod` and `fs_mkdir`, which scan backwards, cut the same
string at the same place; `restAfter` is what a round of the forward scan leaves to read.

`splits_agree_iff` says exactly for which paths `fs_unlink` and `fs_rename`, which scan backwards
from index `sizeof(path) - 1`, cut where `fs_mknod` and `fs_mkdir` do.

A path is built from its components, which have at least one character and neither a separator nor a
NUL; what is behind its NUL in memory is a parameter, since the scan of `fs_unlink` and `fs_rename`
starts at a fixed index and may be behind it. That the components can be had back from the string
(`components_joinComponents`) makes the agreement one about directories and not about the strings
themselves, which may end in a separator or not.

Termination is a matter of the forward scan alone. Each of its rounds leaves less of the string
(`length_restAfter_lt`), so as many rounds as there are characters are enough
(`understandLoop_eq_rounds`), for every string.
-/

namespace InodeFs

variable (env : Env)

/-! ### Components -/

/-- A **component** of a path, of any length. -/
structure Component where
  chars : List Byte
  ne_nil : chars ≠ []
  noSlash : ∀ c ∈ chars, c ≠ slash
  noNul : ∀ c ∈ chars, c ≠ 0

/-- The components, each behind its separator. -/
def joinComponents (cs : List Component) : List Byte := cs.flatMap fun c => slash :: c.chars

/-- The absolute path of a list of components; `"/"` is that of the empty one. -/
def componentPath (cs : List Component) : List Byte :=
  if cs = [] then [slash] else joinComponents cs

@[simp] theorem joinComponents_nil : joinComponents [] = [] := rfl

@[simp] theorem joinComponents_cons (c : Component) (cs : List Component) :
    joinComponents (c :: cs) = slash :: (c.chars ++ joinComponents cs) := rfl

/-- The last component comes behind a slash. -/
theorem joinComponents_concat (cs : List Component) (c : Component) :
    joinComponents (cs ++ [c]) = joinComponents cs ++ slash :: c.chars := by
  rw [joinComponents, List.flatMap_append, List.flatMap_singleton, joinComponents]

theorem joinComponents_eq_nil {cs : List Component} : joinComponents cs = [] ↔ cs = [] := by
  cases cs with
  | nil => exact ⟨fun _ => rfl, fun _ => rfl⟩
  | cons c cs => simp

theorem componentPath_concat (cs : List Component) (c : Component) :
    componentPath (cs ++ [c]) = joinComponents cs ++ slash :: c.chars := by
  rw [componentPath, if_neg (by simp), joinComponents_concat]

/-- A path has no NUL inside. -/
theorem joinComponents_noNul (cs : List Component) : ∀ b ∈ joinComponents cs, b ≠ 0 := by
  intro b hb
  obtain ⟨c, -, hb⟩ := List.mem_flatMap.mp hb
  rcases List.mem_cons.mp hb with rfl | hb
  · decide
  · exact c.noNul b hb

/-- The string a caller passes for a path of at least one component, with the bytes that
follow it in memory. -/
def componentString (cs : List Component) (c : Component) (behind : ℕ → Byte) : CString where
  chars := componentPath (cs ++ [c])
  noNul := by
    rw [componentPath, if_neg (by simp)]
    exact joinComponents_noNul _
  behind := behind

/-! ### Resolution is compositional -/

/-- The components a prefix of the walk is made of are walked first. -/
theorem understandLoop_concat {cs : List Component} {b c : Component}
    (hlength : ∀ a ∈ b :: cs ++ [c], a.chars.length ≤ 28) (r : ℤ) (x : INode) :
    understandLoop env (b.chars ++ joinComponents (cs ++ [c])) r x = (do
      let inodeNumber ← understandLoop env (b.chars ++ joinComponents cs) r x
      let fatherInode ← justReadInodeFromDisk env inodeNumber
      findFileInDict env fatherInode (padTo30 c.chars)) := by
  have hle (a : Component) (ha : a ∈ b :: cs ++ [c]) : a.chars.length ≤ 30 :=
    (hlength a ha).trans (by decide)
  have hb := hle b (by simp)
  induction cs generalizing b x with
  | nil =>
    have hc := hle c (by simp)
    rw [List.nil_append, joinComponents_cons, joinComponents_nil, List.append_nil,
      List.append_nil, understandLoop_inner env hb b.noSlash,
      understandLoop_last env b.ne_nil hb b.noSlash]
    simp only [understandLoop_last env c.ne_nil hc c.noSlash]
  | cons a cs ih =>
    have hrest : ∀ e ∈ a :: cs ++ [c], e ∈ b :: (a :: cs) ++ [c] := fun e he =>
      List.mem_cons_of_mem _ he
    rw [List.cons_append, joinComponents_cons, joinComponents_cons,
      understandLoop_inner env hb b.noSlash, understandLoop_inner env hb b.noSlash]
    simp only [Prog.bind_assoc]
    refine congrArg _ (funext fun inodeNumber => congrArg _ (funext fun fatherInode => ?_))
    exact ih (fun e he => hlength e (hrest e he)) fatherInode (fun e he => hle e (hrest e he))
      (hle a (by simp))

/-- The same for whole paths, the root's record being read once more for the prefix `"/"`. -/
theorem run_understandThePath_concat {d : Disk} {cs : List Component} {c : Component} {k : ℕ}
    (hlength : ∀ a ∈ cs ++ [c], a.chars.length ≤ 28) (hk : k < 32768)
    (hpre : (understandThePath env (componentPath cs)).run vdisk d = some ((k : ℤ), d)) :
    (understandThePath env (componentPath (cs ++ [c]))).run vdisk d =
      (findFileInDict env (d.inode k) (padTo30 c.chars)).run vdisk d := by
  have hread : (justReadInodeFromDisk env mainDirectInodePosition).run vdisk d =
      some (d.inode 4, d) := run_justReadInodeFromDisk env (show 4 < 32768 by decide) d
  cases cs with
  | nil =>
    have hroot := run_understandThePath_root env d
    obtain rfl : k = 4 := by
      have hvalue := (Prog.run_inj vdisk hroot hpre).1
      exact (Int.ofNat.inj hvalue).symm
    have hc : c.chars.length ≤ 30 := (hlength c (by simp)).trans (by decide)
    rw [componentPath_concat, understandThePath, Prog.run_bind_some _ hread,
      joinComponents_nil, List.nil_append, List.drop_succ_cons, List.drop_zero,
      understandLoop_last env c.ne_nil hc c.noSlash]
  | cons b cs =>
    rw [componentPath, if_neg (by simp), understandThePath, Prog.run_bind_some _ hread,
      joinComponents_cons, List.drop_succ_cons, List.drop_zero] at hpre
    rw [componentPath, if_neg (by simp), understandThePath, Prog.run_bind_some _ hread,
      List.cons_append, joinComponents_cons, List.drop_succ_cons, List.drop_zero,
      understandLoop_concat env hlength, Prog.run_bind_some _ hpre,
      Prog.run_bind_some _ (run_justReadInodeFromDisk env hk d)]

/-! ### The loop of the walk ends -/

/-- What a round of the outer loop of `understand_the_path` leaves to read: the inner loop stops
at a separator, which is skipped, or at the end. -/
def restAfter (rest : List Byte) : List Byte := (scanComponent rest []).2.drop 1

/-- Every round leaves less to read. -/
theorem length_restAfter_lt {rest : List Byte} (h : rest ≠ []) :
    (restAfter rest).length < rest.length := by
  have hle := length_scanComponent_le rest []
  have hpos := List.length_pos_of_ne_nil h
  rw [restAfter, List.length_drop]
  omega

/-- The outer loop of `understand_the_path` with a limit on its rounds; `cutOff` stands for
what follows when the limit is reached before the end of the string. -/
def understandRounds (cutOff : Fs ℤ) : ℕ → List Byte → ℤ → INode → Fs ℤ
  | 0, rest, r, _ => if rest = [] then pure r else cutOff
  | rounds + 1, rest, r, x =>
    if rest = [] then pure r
    else if 30 < (scanComponent rest []).1.length then Prog.undefined
    else if (scanComponent rest []).2 = [] then
      findFileInDict env x (padTo30 (scanComponent rest []).1)
    else do
      let timeInodeNumber ← findFileInDict env x (padTo30 (scanComponent rest []).1)
      let fatherInode ← justReadInodeFromDisk env timeInodeNumber
      understandRounds cutOff rounds (restAfter rest) r fatherInode

/-- A round of the loop, whatever its component: unless the component overflows its buffer the
loop continues with what `restAfter` leaves, or ends with the lookup of the last component. -/
theorem understandLoop_round {rest : List Byte} (h : rest ≠ []) (r : ℤ) (x : INode) :
    understandLoop env rest r x =
      if 30 < (scanComponent rest []).1.length then Prog.undefined
      else if (scanComponent rest []).2 = [] then
        findFileInDict env x (padTo30 (scanComponent rest []).1)
      else (do
        let timeInodeNumber ← findFileInDict env x (padTo30 (scanComponent rest []).1)
        let fatherInode ← justReadInodeFromDisk env timeInodeNumber
        understandLoop env (restAfter rest) r fatherInode) := by
  obtain ⟨c, chars, rfl⟩ := List.exists_cons_of_ne_nil h
  rw [understandLoop, restAfter]
  split
  · rfl
  · split
    · next h => rw [if_pos h]
    · next h =>
      rw [h, if_neg (by simp)]
      rfl

/-- As many rounds as there are characters to read are enough. -/
theorem understandLoop_eq_rounds (cutOff : Fs ℤ) {rounds : ℕ} {rest : List Byte}
    (h : rest.length ≤ rounds) (r : ℤ) (x : INode) :
    understandLoop env rest r x = understandRounds env cutOff rounds rest r x := by
  induction rounds generalizing rest x with
  | zero =>
    obtain rfl := List.eq_nil_of_length_eq_zero (Nat.le_zero.mp h)
    rw [understandLoop, understandRounds, if_pos rfl]
  | succ rounds ih =>
    rw [understandRounds]
    by_cases hrest : rest = []
    · rw [hrest, understandLoop, if_pos rfl]
    · have hlt := length_restAfter_lt hrest
      have hnext (y : INode) := ih (show (restAfter rest).length ≤ rounds by omega) y
      -- both sides make the same round, and the rest is shorter
      rw [if_neg hrest, understandLoop_round env hrest]
      simp only [hnext]

/-! ### Resolution and creation search and add in one directory -/

/-- What `fs_mknod` and `fs_mkdir` do once they have their parent's inode number and the name
to store. -/
def createIn (applyANewInode : Fs ℤ) (fatherInodeNumber : ℤ) (fileName : Fin 30 → Byte) :
    Fs ℤ := do
  let newInodeNumber ← applyANewInode
  let newFile : DictioryContent := ⟨fileNameOf fileName, BitVec.ofInt 32 newInodeNumber⟩
  Prog.note (.entry newFile) (pure ())
  mountInFather env fatherInodeNumber newFile

/-- The inode that was found is initialised, and its entry is mounted. -/
theorem run_createIn_eq (mode : BitVec 32) (k : ℤ) (fileName : Fin 30 → Byte) (d : Disk) :
    (createIn env (applyANewInodeWithMode env mode) k fileName).run vdisk d =
      (mountInFather env k ⟨fileNameOf fileName, BitVec.ofInt 32 d.nextInode⟩).run vdisk
        (d.withFreshInode env mode d.nextInode) := by
  rw [createIn, Prog.run_bind_some _ (run_applyANewInodeWithMode env mode d), Prog.note_bind,
    Prog.run_note, Prog.pure_eq_ret, Prog.ret_bind]

theorem run_fsCreate_createIn {applyANewInode : Fs ℤ} (path : CString) {d : Disk} {k : ℤ}
    {dictPath : List Byte} {fileName : Fin 30 → Byte}
    (hsplit : splitPath path.chars = .ret (dictPath, fileName))
    (hpre : (understandThePath env dictPath).run vdisk d = some (k, d)) :
    (fsCreate env applyANewInode path).run vdisk d =
      (createIn env applyANewInode k fileName).run vdisk d := by
  rw [fsCreate, hsplit, Prog.ret_bind, Prog.run_bind_some _ hpre]
  rfl

/-- **Path resolution is compositional and agrees with the split made at creation**. Where every
proper prefix of a path resolves, the path resolves to what the lookup of its last component
in the directory of its longest proper prefix gives; `fs_mknod` and `fs_mkdir` cut the path into
that prefix and that component and add their entry in that directory. The loop of the walk
ends for every string: it never needs more rounds than the string has characters. -/
theorem path_resolution (d : Disk) (cs : List Component) (c : Component)
    (hlength : ∀ a ∈ cs ++ [c], a.chars.length ≤ 28)
    (hpre : ∀ i, 1 ≤ i → i ≤ cs.length → ∃ k : ℕ, k < 32768 ∧
      (understandThePath env (componentPath (cs.take i))).run vdisk d = some ((k : ℤ), d)) :
    (∃ k : ℕ, k < 32768 ∧ (cs = [] → k = 4) ∧
      (understandThePath env (componentPath cs)).run vdisk d = some ((k : ℤ), d) ∧
      (understandThePath env (componentPath (cs ++ [c]))).run vdisk d =
        (findFileInDict env (d.inode k) (padTo30 c.chars)).run vdisk d ∧
      splitPath (componentPath (cs ++ [c])) = pure (componentPath cs, padTo30 c.chars) ∧
      ∀ behind, (fsMknod env (componentString cs c behind)).run vdisk d =
          (createIn env (applyANewInodeAndInitial env) k (padTo30 c.chars)).run vdisk d ∧
        (fsMkdir env (componentString cs c behind)).run vdisk d =
          (createIn env (applyANewInodeAndInitialAsDict env) k (padTo30 c.chars)).run vdisk d) ∧
    ∀ (path : List Byte) (cutOff : Fs ℤ), understandThePath env path = (do
      let fatherInode ← justReadInodeFromDisk env mainDirectInodePosition
      understandRounds env cutOff path.length (path.drop 1) mainDirectInodePosition
        fatherInode) := by
  have hc : ¬ 30 < c.chars.length := by
    have := hlength c (by simp)
    omega
  have hsplit : splitPath (componentPath (cs ++ [c])) =
      .ret (componentPath cs, padTo30 c.chars) := by
    rw [componentPath_concat, splitPath_append _ c.noSlash, if_neg hc, componentPath]
    simp only [joinComponents_eq_nil]
  -- the parent is the root or one of the prefixes
  obtain ⟨k, hk, hroot, hrun⟩ : ∃ k : ℕ, k < 32768 ∧ (cs = [] → k = 4) ∧
      (understandThePath env (componentPath cs)).run vdisk d = some ((k : ℤ), d) := by
    by_cases hnil : cs = []
    · subst hnil
      exact ⟨4, by decide, fun _ => rfl, run_understandThePath_root env d⟩
    · obtain ⟨k, hk, hrun⟩ := hpre cs.length (List.length_pos_of_ne_nil hnil) le_rfl
      rw [List.take_length] at hrun
      exact ⟨k, hk, fun h => absurd h hnil, hrun⟩
  refine ⟨⟨k, hk, hroot, hrun, run_understandThePath_concat env hlength hk hrun, hsplit,
    fun behind => ⟨?_, ?_⟩⟩, fun path cutOff => ?_⟩
  · exact run_fsCreate_createIn env (componentString cs c behind) hsplit hrun
  · exact run_fsCreate_createIn env (componentString cs c behind) hsplit hrun
  · rw [understandThePath]
    refine congrArg _ (funext fun fatherInode => ?_)
    exact understandLoop_eq_rounds env cutOff (by simp) _ _

/-- After `mkdir /a` on the formatted disk, `/a` resolves to inode 0. -/
theorem run_understandThePath_directoryA :
    ∃ d, (understandThePath plainEnv [47, 97]).run vdisk d = some (((0 : ℕ) : ℤ), d) := by
  have hsound := Disk.sound_initial plainEnv fun _ => 0
  have hcreate := Disk.canCreate_initial plainEnv (fun _ => 0) (letter 97)
  have hcreated := hsound.created plainEnv dirMode hcreate
  have hresolve : ((Disk.initial plainEnv fun _ => 0).created plainEnv dirMode 4 (letter 97)
      (Disk.initial plainEnv fun _ => 0).nextInode).graph.resolve 4
        ([letter 97].map Name.fileName) = some 0 := by
    rw [hsound.graph_created plainEnv dirMode hcreate, Disk.nextInode_initial, List.map_singleton,
      NameGraph.resolve_cons, NameGraph.lookup_insert hcreate.fresh, if_pos ⟨rfl, rfl⟩]
    rfl
  exact ⟨_, hcreated.walkable.run_understandThePath plainEnv hresolve⟩

/-- `/a/b` where `/a` exists: `b` is searched in, and added to, the directory inode 0. -/
theorem path_resolution_directoryA : ∃ (d : Disk) (k : ℕ),
    (understandThePath plainEnv [47, 97, 47, 98]).run vdisk d =
      (findFileInDict plainEnv (d.inode k) (padTo30 [98])).run vdisk d ∧
    splitPath [47, 97, 47, 98] = pure ([47, 97], padTo30 [98]) := by
  obtain ⟨d, hd⟩ := run_understandThePath_directoryA
  obtain ⟨⟨k, -, -, -, hrun, hsplit, -⟩, -⟩ := path_resolution plainEnv d
    [⟨[97], by decide, by decide, by decide⟩] ⟨[98], by decide, by decide, by decide⟩ (by decide)
    fun i h1 hi => by
      obtain rfl : i = 1 := Nat.le_antisymm hi h1
      exact ⟨0, by decide, hd⟩
  exact ⟨d, k, hrun, hsplit⟩

/-! ### The directory a string denotes -/

/-- The components of a string, read between its separators; empty ones do not count, so `""` and
`"/"` have none. -/
def components (s : List Byte) : List (List Byte) := (s.splitOn slash).filter (· ≠ [])

/-- A slash separates what is before it from what is behind it. -/
theorem components_append (s t : List Byte) :
    components (s ++ slash :: t) = components s ++ components t := by
  rw [components, List.splitOn_append_cons_self, List.filter_append, components, components]

theorem components_nil : components [] = [] := rfl

theorem components_eq_singleton {s : List Byte} (hne : s ≠ []) (hslash : ∀ c ∈ s, c ≠ slash) :
    components s = [s] := by
  have hnot : slash ∉ s := fun h => hslash _ h rfl
  rw [components, List.splitOn_eq_singleton hnot]
  simp [hne]

/-- The components of a joined path are those it was joined from. -/
theorem components_joinComponents (cs : List Component) :
    components (joinComponents cs) = cs.map Component.chars := by
  induction cs using List.reverseRecOn with
  | nil => exact components_nil
  | append_singleton cs c ih =>
    rw [joinComponents_concat, components_append, ih, components_eq_singleton c.ne_nil c.noSlash,
      List.map_append, List.map_singleton]

/-- Between a separator of a path and its end there is a component. -/
theorem components_ne_nil_of_join {cs : List Component} {s t : List Byte}
    (h : joinComponents cs = s ++ slash :: t) : components t ≠ [] := by
  induction cs generalizing s with
  | nil => simp at h
  | cons c cs ih =>
    rw [joinComponents_cons] at h
    cases s with
    | nil =>
      obtain ⟨-, rfl⟩ := List.cons.inj h
      cases cs with
      | nil =>
        rw [joinComponents_nil, List.append_nil, components_eq_singleton c.ne_nil c.noSlash]
        exact List.cons_ne_nil _ _
      | cons b cs =>
        rw [joinComponents_cons, components_append, components_eq_singleton c.ne_nil c.noSlash]
        exact List.cons_ne_nil _ _
    | cons b s =>
      obtain ⟨-, h⟩ := List.cons.inj h
      -- the separator lies in the rest of the path, not in the component
      rcases List.append_eq_append_iff.mp h with ⟨u, -, hu⟩ | ⟨u, hu, hrest⟩
      · exact ih hu
      · cases u with
        | nil => exact ih (s := []) hrest.symm
        | cons b' u =>
          obtain ⟨rfl, -⟩ := List.cons.inj hrest
          exact absurd rfl (c.noSlash slash (by simp [hu]))

/-! ### Four splits of one path -/

/-- The parent directory's string as each operation computes it: `fs_mknod` and `fs_mkdir` by
`splitPath`, `fs_unlink` and `fs_rename` by theirs. All denote the directory with the given
components. -/
structure SplitsAgree (path : CString) (parent : List (List Byte)) : Prop where
  create : ∃ dictPath fileName, splitPath path.chars = pure (dictPath, fileName) ∧
    components dictPath = parent
  unlink : ∃ dir, unlinkDirName path = some dir ∧ components dir = parent
  rename : ∃ dir, renameDirName path = some dir ∧ components dir = parent

section Split

variable {cs : List Component} {c : Component} {behind : ℕ → Byte}

theorem chars_componentString :
    (componentString cs c behind).chars = joinComponents cs ++ slash :: c.chars :=
  componentPath_concat cs c

/-- The slash in front of the last component. -/
theorem get_componentString_parent :
    (componentString cs c behind).get (joinComponents cs).length = slash := by
  rw [CString.get, chars_componentString, if_pos (by simp)]
  simp

/-- Behind the last separator, the string's memory holds another one only behind the NUL. -/
theorem get_componentString_ne {i : ℕ} (hi : (joinComponents cs).length < i)
    (hle : i ≤ (componentPath (cs ++ [c])).length) :
    (componentString cs c behind).get i ≠ slash := by
  rw [componentPath_concat, List.length_append, List.length_cons] at hle
  obtain ⟨m, rfl⟩ := Nat.exists_eq_add_of_lt hi
  rw [CString.get, chars_componentString, List.length_append, List.length_cons]
  by_cases hm : m < c.chars.length
  · rw [if_pos (by omega), List.getD_eq_getElem?_getD, List.getElem?_append_right (by omega),
      show (joinComponents cs).length + m + 1 - (joinComponents cs).length = m + 1 by omega,
      List.getElem?_cons_succ, List.getElem?_eq_getElem hm, Option.getD_some]
    exact c.noSlash _ (List.getElem_mem hm)
  · rw [if_neg (by omega), if_pos (by omega)]
    decide

/-- Cutting at an earlier separator, or at one behind the string, gives another directory. -/
theorem eq_parent_of_components {q : ℕ}
    (hq : (componentString cs c behind).get q = slash)
    (hdir : components ((componentString cs c behind).chars.take q) = cs.map Component.chars) :
    q = (joinComponents cs).length := by
  rw [chars_componentString] at hdir
  -- a slash in front of this one would split the parent, and there is none behind it
  rcases Nat.lt_trichotomy q (joinComponents cs).length with hlt | heq | hgt
  · have hget : (joinComponents cs)[q] = slash := by
      rw [CString.get, chars_componentString, if_pos (by simp; omega),
        List.getD_eq_getElem?_getD, List.getElem?_append_left hlt, List.getElem?_eq_getElem hlt,
        Option.getD_some] at hq
      exact hq
    have hcut : joinComponents cs =
        (joinComponents cs).take q ++ slash :: (joinComponents cs).drop (q + 1) := by
      conv_lhs => rw [← List.take_append_drop q (joinComponents cs)]
      rw [List.drop_eq_getElem_cons hlt, hget]
    have hparent := components_joinComponents cs
    rw [hcut, components_append] at hparent
    rw [List.take_append_of_le_length hlt.le, ← hparent] at hdir
    exact absurd (List.append_right_eq_self.mp hdir.symm) (components_ne_nil_of_join hcut)
  · exact heq
  · have hlength : (componentPath (cs ++ [c])).length < q := by
      by_contra hle
      exact get_componentString_ne hgt (Nat.le_of_not_lt hle) hq
    rw [componentPath_concat] at hlength
    rw [List.take_of_length_le hlength.le, components_append, components_joinComponents,
      components_eq_singleton c.ne_nil c.noSlash] at hdir
    exact absurd (List.append_right_eq_self.mp hdir) (List.cons_ne_nil _ _)

/-- The scans start behind the NUL of a short path. -/
theorem get_componentString_behind (behind : ℕ → Byte) {i : ℕ}
    (hi : (componentPath (cs ++ [c])).length < i) :
    (componentString cs c behind).get i = behind (i - (componentPath (cs ++ [c])).length - 1) := by
  have hchars : (componentString cs c behind).chars = componentPath (cs ++ [c]) := rfl
  rw [CString.get, hchars, if_neg (Nat.not_lt.mpr hi.le), if_neg (Nat.ne_of_gt hi)]
  rfl

/-- What is in front of it is the parent's path. -/
theorem take_chars_componentString :
    (componentString cs c behind).chars.take (joinComponents cs).length = joinComponents cs := by
  rw [chars_componentString, List.take_left]

/-- The scan of `fs_rename` ends at the separator before the last component. -/
theorem lastSlash_componentString (hle : (joinComponents cs).length ≤ 7)
    (hnone : ∀ i, (componentPath (cs ++ [c])).length < i → i ≤ 7 →
      behind (i - (componentPath (cs ++ [c])).length - 1) ≠ slash) :
    lastSlash (componentString cs c behind).get 7 = some (joinComponents cs).length := by
  refine lastSlash_eq_some get_componentString_parent hle fun i hi hi7 => ?_
  by_cases hlength : i ≤ (componentPath (cs ++ [c])).length
  · exact get_componentString_ne hi hlength
  · rw [get_componentString_behind behind (by omega)]
    exact hnone i (by omega) hi7

/-- **Where the operations split a path alike**: exactly when its last component fits the name
buffer of `fs_mknod` and `fs_mkdir`, its last separator is among the first `sizeof(path)` bytes,
and no byte behind its NUL, up to that many bytes, is a separator. -/
theorem splits_agree_iff (cs : List Component) (c : Component) (behind : ℕ → Byte) :
    SplitsAgree (componentString cs c behind) (cs.map Component.chars) ↔
      c.chars.length ≤ 30 ∧ (joinComponents cs).length ≤ 7 ∧
        ∀ i, (componentPath (cs ++ [c])).length < i → i ≤ 7 →
          behind (i - (componentPath (cs ++ [c])).length - 1) ≠ slash := by
  constructor
  · rintro ⟨⟨dictPath, fileName, hsplit, -⟩, -, dir, hrename, hdir⟩
    rw [chars_componentString, splitPath_append _ c.noSlash] at hsplit
    obtain ⟨q, hq, rfl⟩ := Option.map_eq_some_iff.mp hrename
    obtain ⟨hle, hslash, hnone⟩ := lastSlash_spec hq
    rw [copiedString_eq] at hdir
    obtain rfl := eq_parent_of_components hslash hdir
    refine ⟨?_, hle, fun i hi hi7 => ?_⟩
    · by_contra hlong
      rw [if_pos (by omega)] at hsplit
      cases hsplit
    · rw [← get_componentString_behind behind hi]
      refine hnone i ?_ hi7
      rw [componentPath_concat, List.length_append] at hi
      omega
  · rintro ⟨hlong, hle, hnone⟩
    have hlast := lastSlash_componentString hle hnone
    have hsplit := splitPath_append (joinComponents cs) c.noSlash
    rw [← chars_componentString (c := c), if_neg (Nat.not_lt.mpr hlong)] at hsplit
    refine ⟨⟨_, _, hsplit, ?_⟩, ?_, ?_⟩
    · split
      · next h => rw [joinComponents_eq_nil.mp h]; rfl
      · exact components_joinComponents cs
    · refine ⟨_, by rw [unlinkDirName, hlast, Option.map_some], ?_⟩
      rw [copiedString_eq, take_chars_componentString]
      split
      · next h =>
        rw [joinComponents_eq_nil.mp (List.length_eq_zero_iff.mp h)]
        rfl
      · exact components_joinComponents cs
    · refine ⟨_, by rw [renameDirName, hlast, Option.map_some], ?_⟩
      rw [copiedString_eq, take_chars_componentString, components_joinComponents]

end Split

/-- `/abcdefgh/x`: the scan from index 7 passes the separator before `x`, and `fs_rename` cuts off
the empty string, the root. -/
theorem not_splits_agree_long_parent :
    ¬ SplitsAgree (componentString [⟨[97, 98, 99, 100, 101, 102, 103, 104], by decide, by decide,
      by decide⟩] ⟨[120], by decide, by decide, by decide⟩ plainMemory)
      [[97, 98, 99, 100, 101, 102, 103, 104]] := by
  rintro ⟨-, -, dir, hrename, hdir⟩
  obtain rfl : [] = dir := Option.some.inj hrename
  exact absurd hdir (by decide)

end InodeFs
