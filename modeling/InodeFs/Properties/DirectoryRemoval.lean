import InodeFs.Properties.Fsck
import InodeFs.Properties.LargeOffsets

/-!
# What `fs_rmdir` frees

`make_inode_map_uncovered` sets bits and clears none, and `fs_rmdir` passes the numbers of the
children to the data map. So the directory stays marked whatever it holds, and the call never
fails with an error: there is no state in which it does what it is for
(`rmdir_never_frees`).

What the call is for is `RmdirFrees`: it fails with `-ENOTEMPTY` or frees the directory and all that
is below it. The source removes the children itself, as the loop of `rmdirLoop` shows, so that
either is a way to do it right; the code does neither. `OnlyMarks` says of a program that it sets
bits of the two maps and does nothing else, for every disk and every result. It is kept by
sequencing, and holds of the loop with whatever the loop reads (`onlyMarks_rmdirLoop`): the
children's entries may be anything.

The last part of the call is `fs_unlink`, which changes entries and a record. There the inode map is
followed alone (`imap_of_run_fsUnlink`). The path handed to it is cut within its first 8 bytes, and
the name that comes out is that of a directory on the way, or the path itself (`unlinkDirName_eq`),
so that no bit is cleared whichever it is.
-/

namespace InodeFs

variable (env : Env)

open Disk (Marks)

/-- `-ENOTEMPTY`. -/
def negENOTEMPTY : ℤ := -39

namespace Disk

/-- Inode `i` is directory `p`, or below it at any depth. -/
def Under (d : Disk) (p i : ℕ) : Prop := ∃ as, d.graph.resolve p as = some i

/-- The inodes of `p` and of what is below it are free on `t`, all others are as they were on `d`,
and so are the blocks that no inode below `p` held. -/
structure Freed (d t : Disk) (p : ℕ) : Prop where
  free : ∀ i < 32768, d.Under p i → t.imap i = false
  imap : ∀ i < 32768, ¬ d.Under p i → t.imap i = d.imap i
  dmap : ∀ b < 65536, t.dmap b ≠ d.dmap b → ∃ i place, d.Under p i ∧ d.Holds b i place

/-- What `fs_rmdir` is for: it fails and nothing has changed, or the directory is freed. -/
def RmdirFrees (d : Disk) (path : CString) (p : ℕ) : Prop :=
  ∃ r t, (fsRmdir env path).run vdisk d = some (r, t) ∧ (r = negENOTEMPTY ∧ t = d ∨ d.Freed t p)

end Disk

/-! ### Programs that set bits -/

/-- Whatever the program returns, it has changed bits of the maps only, and cleared none. -/
def OnlyMarks {α : Type} (p : Fs α) : Prop := ∀ d a t, p.run vdisk d = some (a, t) → Marks d t

section OnlyMarks

variable {α β : Type} {p : Fs α}

theorem OnlyMarks.bind {f : α → Fs β} (hp : OnlyMarks p) (hf : ∀ a, OnlyMarks (f a)) :
    OnlyMarks (p >>= f) := fun d b u hrun => by
  obtain ⟨a, t, hfirst, hthen⟩ := (Prog.run_bind_eq_some vdisk).mp hrun
  exact (hp d a t hfirst).trans (hf a t b u hthen)

theorem onlyMarks_of_readOnly (h : p.ReadOnly) : OnlyMarks p := fun d a t hrun => by
  rw [h.run_state vdisk hrun]
  exact Marks.refl d

theorem onlyMarks_pure (a : α) : OnlyMarks (pure a) := onlyMarks_of_readOnly (Prog.readOnly_pure a)

theorem onlyMarks_makeDataMapUncovered (n : ℤ) : OnlyMarks (makeDataMapUncovered env n) :=
  fun d a t hrun => by
    obtain ⟨h0, hlt⟩ := (inside_makeDataMapUncovered_iff env).mp ⟨a, t, hrun⟩
    obtain ⟨b, rfl⟩ := Int.eq_ofNat_of_zero_le h0
    rw [run_makeDataMapUncovered env (by omega)] at hrun
    cases hrun
    exact Disk.marks_uncoverData (by omega)

theorem onlyMarks_uncoverLoop {n : ℕ} (numbers : Fin n → BitVec 32) (count i : ℕ) :
    OnlyMarks (uncoverLoop env numbers count i) := by
  induction count generalizing i with
  | zero => exact onlyMarks_pure ()
  | succ count ih =>
    exact (onlyMarks_of_readOnly (Prog.readOnly_index _ _)).bind fun number =>
      (onlyMarks_makeDataMapUncovered env number.toInt).bind fun _ => ih (i + 1)

theorem onlyMarks_releaseFileDatabock (x : INode) :
    OnlyMarks (releaseFileDatabockByProvideInode env x) := by
  have hindexed (k : Fin 2) (count : ℕ) : OnlyMarks (do
      let members ← readInts env (datablockFindDiskId (x.indirectPointer k).toInt)
      uncoverLoop env members count 0) :=
    (onlyMarks_of_readOnly (readOnly_readInts env _)).bind fun members =>
      onlyMarks_uncoverLoop env members count 0
  have hsecond : OnlyMarks (if cInt (x.stSize.toInt.tdiv 4096 + 1) > 11 + 1024 then do
        let members ← readInts env (datablockFindDiskId (x.indirectPointer 1).toInt)
        uncoverLoop env members
          (getMin 1024 (cInt (x.stSize.toInt.tdiv 4096 + 1) - 11 - 1024)).toNat 0
      else pure ()) := by
    split
    · exact hindexed 1 _
    · exact onlyMarks_pure ()
  rw [releaseFileDatabockByProvideInode]
  refine (onlyMarks_uncoverLoop env _ _ 0).bind fun _ => ?_
  simp only
  split
  · rw [← Prog.bind_assoc]
    exact (hindexed 0 _).bind fun _ => hsecond
  · exact hsecond

/-- **The loop of `fs_rmdir`**, whatever it reads as the entries of the directory. -/
theorem onlyMarks_rmdirLoop (x : INode) (left i : ℕ) : OnlyMarks (rmdirLoop env x left i) := by
  induction left generalizing i with
  | zero => exact onlyMarks_pure ()
  | succ left ih =>
    exact (onlyMarks_of_readOnly (readOnly_getFilenameData env _ x)).bind fun e =>
      (onlyMarks_of_readOnly (readOnly_justReadInodeFromDisk env _)).bind fun y =>
        (onlyMarks_releaseFileDatabock env y).bind fun _ =>
          (onlyMarks_makeDataMapUncovered env _).bind fun _ => ih (i + 1)

end OnlyMarks

/-! ### The directory that `fs_unlink` takes -/

/-- Up to a separator a path has the names before it. -/
theorem take_joinNames (as : List Name) {j : ℕ} (hj : (joinNames as)[j]? = some slash) :
    ∃ m, (joinNames as).take j = joinNames (as.take m) := by
  induction as generalizing j with
  | nil => cases hj
  | cons a as ih =>
    rw [joinNames_cons] at hj ⊢
    cases j with
    | zero => exact ⟨0, rfl⟩
    | succ j =>
      rw [List.getElem?_cons_succ] at hj
      rcases Nat.lt_or_ge j a.chars.length with hlt | hge
      · rw [List.getElem?_append_left hlt, List.getElem?_eq_getElem hlt] at hj
        exact absurd (Option.some.inj hj) (a.noSlash _ (List.getElem_mem hlt))
      · rw [List.getElem?_append_right hge] at hj
        obtain ⟨m, hm⟩ := ih hj
        refine ⟨m + 1, ?_⟩
        rw [List.take_succ_cons, List.take_append, List.take_of_length_le hge, hm,
          List.take_succ_cons, joinNames_cons]

/-- The name that `fs_unlink` cuts from a path is that of a directory the path leads through, or
the path itself. -/
theorem unlinkDirName_eq {as : List Name} (hne : as ≠ []) {behind : ℕ → Byte} {dirName : List Byte}
    (h : unlinkDirName (pathString as behind) = some dirName) :
    ∃ m, dirName = pathChars (as.take m) := by
  have hchars : (pathString as behind).chars = joinNames as := pathChars_of_ne_nil hne
  rw [unlinkDirName, Option.map_eq_some_iff] at h
  obtain ⟨j, hlast, hdir⟩ := h
  obtain ⟨-, hslash, -⟩ := lastSlash_spec hlast
  by_cases h0 : j = 0
  · rw [if_pos h0] at hdir
    exact ⟨0, by rw [← hdir, List.take_zero]; rfl⟩
  · rw [if_neg h0, copiedString_eq, hchars] at hdir
    rcases Nat.lt_or_ge j (joinNames as).length with hlt | hge
    · rw [CString.get, hchars, if_pos hlt, List.getD_eq_getElem?_getD,
        List.getElem?_eq_getElem hlt, Option.getD_some] at hslash
      obtain ⟨m, hm⟩ := take_joinNames as (j := j) (by rw [List.getElem?_eq_getElem hlt, hslash])
      refine ⟨m, ?_⟩
      rw [← hdir, hm, pathChars_of_ne_nil fun hnil => ?_]
      -- a separator at index 0 was dealt with before
      rw [hnil] at hm
      have hlength := congrArg List.length hm
      rw [List.length_take, joinNames_nil, List.length_nil] at hlength
      omega
    · refine ⟨as.length, ?_⟩
      rw [← hdir, List.take_of_length_le hge, List.take_length, pathChars_of_ne_nil hne]

/-! ### The directory stays marked -/

section Unlink

variable {d : Disk} (hd : d.Sound) {q i : ℕ} (hq : d.IsDir q) (hi : i < 32768)
include hd hq hi

/-- The loop of `fs_unlink` returns in every directory, and clears no bit of the inode map. -/
theorem exists_run_unlinkLoop (left j : ℕ) (hleft : j + left = (d.inode q).count) :
    ∃ t, (unlinkLoop env i (d.inode q) left j).run vdisk d = some ((), t) ∧
      ∀ m < 32768, d.imap m = true → t.imap m = true := by
  have hcount := (hd.directories.dir q hq).count_le
  induction left generalizing j with
  | zero => exact ⟨d, rfl, fun _ _ => id⟩
  | succ left ih =>
    rw [unlinkLoop, Prog.run_bind_some _ (run_getFilenameData_rank env (by omega)
      (hd.pointers.lt q hq.1 0) (hd.pointers.indirect q hq.1) hd.zero)]
    split
    · obtain ⟨_, s, hrelease, hs, -⟩ := release_keeps env hi hd d (.refl hd)
      have hsame := hs.marks.inode q hq.1
      have hdelete := run_deleteFile_rank env (p := q) (k := j) (s := s) ⟨hq.1, hsame ▸ hq.2⟩
        hs.sound' (by rw [hsame]; omega)
      rw [hsame] at hdelete
      refine ⟨_, by rw [Prog.run_bind_some _ (run_justReadInodeFromDisk env hi d),
        Prog.run_bind_some _ hrelease, hdelete], fun m hm hset => ?_⟩
      split
      · rw [Disk.imap_setData]
        exact hs.marks.imap m hm hset
      · exact hs.marks.imap m hm hset
    · exact ih (j + 1) (by omega)

end Unlink

/-- An unlinked path leads to an inode that stays marked. -/
theorem imap_of_run_fsUnlink {d : Disk} (hd : d.Sound) {as : List Name} (hne : as ≠ []) {i : ℕ}
    (hi : d.graph.resolve 4 (fileNames as) = some i) (hdir : d.IsDir i) {behind : ℕ → Byte} {r : ℤ}
    {t : Disk} (hrun : (fsUnlink env (pathString as behind)).run vdisk d = some (r, t)) :
    t.imap i = true := by
  cases hname : unlinkDirName (pathString as behind) with
  | none =>
    rw [fsUnlink, hname] at hrun
    cases hrun
  | some dirName =>
    obtain ⟨m, rfl⟩ := unlinkDirName_eq hne hname
    -- the directory's name resolves, since the whole path does
    obtain ⟨q, hq, hrest⟩ : ∃ q, d.graph.resolve 4 (fileNames (as.take m)) = some q ∧
        d.graph.resolve q (fileNames (as.drop m)) = some i := by
      rw [← List.take_append_drop m as, fileNames, List.map_append, NameGraph.resolve_append,
        Option.bind_eq_some_iff] at hi
      exact hi
    have hqdir : d.IsDir q := by
      cases hdrop : as.drop m with
      | nil =>
        rw [hdrop] at hrest
        exact Option.some.inj hrest ▸ hdir
      | cons a bs =>
        rw [hdrop, fileNames, List.map_cons, NameGraph.resolve_cons,
          Option.bind_eq_some_iff] at hrest
        obtain ⟨k, hk, -⟩ := hrest
        exact Disk.isDir_of_lookup hk
    obtain ⟨u, hloop, hkept⟩ := exists_run_unlinkLoop env hd hqdir hdir.1 (d.inode q).count 0
      (Nat.zero_add _)
    have hpath : (pathString as behind).chars = pathChars as := rfl
    rw [fsUnlink_eq env hname, hpath, run_unlinkFrom env hd hqdir hdir.1
      (hd.walkable.run_understandThePath env hi) (hd.walkable.run_understandThePath env hq) hloop]
      at hrun
    cases hrun
    rw [Disk.imap_setInode, Disk.imap_uncoverInode hdir.1 hdir.1,
      hkept i hdir.1 (hd.directories.dir i hdir).marked, Bool.true_or]

/-- **What `fs_rmdir` leaves**: whenever it returns, it returns 0, and the directory is marked. -/
theorem imap_of_run_fsRmdir {d : Disk} (hd : d.Sound) {as : List Name} (hne : as ≠ []) {p : ℕ}
    (hp : d.graph.resolve 4 (fileNames as) = some p) (hdir : d.IsDir p) {behind : ℕ → Byte} {r : ℤ}
    {t : Disk} (hrun : (fsRmdir env (pathString as behind)).run vdisk d = some (r, t)) :
    r = 0 ∧ t.imap p = true := by
  have hpath : (pathString as behind).chars = pathChars as := rfl
  rw [fsRmdir, hpath, Prog.run_bind_some _ (hd.walkable.run_understandThePath env hp),
    Prog.run_bind_some _ (run_justReadInodeFromDisk env hdir.1 d)] at hrun
  cases hlast : lastSlash (pathString as behind).get 7 with
  | none =>
    rw [hlast] at hrun
    cases hrun
  | some j =>
    rw [hlast] at hrun
    obtain ⟨_, s, hloop, hthen⟩ := (Prog.run_bind_eq_some vdisk).mp hrun
    obtain ⟨_, u, hunlink, hlast⟩ := (Prog.run_bind_eq_some vdisk).mp hthen
    cases hlast
    have hmarks := onlyMarks_rmdirLoop env _ _ _ d _ s hloop
    refine ⟨rfl, imap_of_run_fsUnlink env (hd.mark hmarks) hne (by rw [hmarks.graph]; exact hp)
      ⟨hdir.1, ?_⟩ hunlink⟩
    rw [hmarks.inode p hdir.1]
    exact hdir.2

/-- **`fs_rmdir` never frees a directory**, empty or not, and never fails with an error. -/
theorem rmdir_never_frees {d : Disk} (hd : d.Sound) {as : List Name} (hne : as ≠ []) {p : ℕ}
    (hp : d.graph.resolve 4 (fileNames as) = some p) (hdir : d.IsDir p) (behind : ℕ → Byte) :
    ¬ d.RmdirFrees env (pathString as behind) p := by
  rintro ⟨r, t, hrun, houtcome⟩
  obtain ⟨rfl, hmarked⟩ := imap_of_run_fsRmdir env hd hne hp hdir hrun
  rcases houtcome with ⟨hfail, -⟩ | hfreed
  · exact absurd hfail (by decide)
  · rw [hfreed.free p hdir.1 ⟨[], rfl⟩] at hmarked
    cases hmarked

/-- `rmdir /a` where `/a` holds a file and a directory. -/
theorem rmdir_never_frees_nested : ∃ d q, SafeRun d ∧ d.IsDir q ∧ (d.inode q).count = 2 ∧
    d.graph.resolve 4 (fileNames [letter 97]) = some q ∧
    ¬ d.RmdirFrees plainEnv (pathString [letter 97] plainMemory) q := by
  obtain ⟨i, j, k, d, hd, -⟩ := exists_creationRun_nested (letter 97) (b := letter 98)
    (c := letter 99) fun heq => absurd (congrArg Name.chars heq) (by decide)
  have hr := hd.refines
  have hparent := isDirPath_nestedLog (letter 97) (letter 98) (letter 99) i j k
  obtain ⟨q, hq, hdir⟩ := hr.exists_dir hparent
  have hcount := hr.count_eq hparent hq hdir
  rw [children_nestedLog] at hcount
  exact ⟨d, q, hd.safeRun, hdir, hcount, hq,
    rmdir_never_frees plainEnv hr.sound (List.cons_ne_nil _ _) hq hdir plainMemory⟩

/-- `rmdir` of an empty directory of the root returns 0, and its inode is still marked. -/
theorem not_rmdir_frees : ∃ d q t, SafeRun d ∧ d.IsDir q ∧ (d.inode q).count = 0 ∧
    (fsRmdir plainEnv (pathString [nthName 0] plainMemory)).run vdisk d = some (0, t) ∧
    t.imap q = true ∧ ¬ d.RmdirFrees plainEnv (pathString [nthName 0] plainMemory) q := by
  obtain ⟨d, q, i, hrun, hr, hempty⟩ := exists_safeRun_directory (nthName 1)
  have hlookup : d.graph.lookup 4 (nthName 0).fileName = some q := by
    have hfound : d.graph.resolve 4 ([] ++ [(nthName 0).fileName]) = some q := hr.found
    obtain ⟨p, hp, hlookup⟩ := NameGraph.resolve_concat_eq_some.mp hfound
    exact Option.some.inj hp ▸ hlookup
  obtain ⟨-, -, t, hcall, -⟩ := run_fsRmdir plainEnv hrun.sound hr.finds.isDir hr.dir hr.small
    (by omega) (show SplitsAt [] (nthName 0) plainMemory by decide) rfl hlookup
  have hmarked := (imap_of_run_fsRmdir plainEnv hrun.sound (List.cons_ne_nil _ _) hr.found hr.dir
    hcall).2
  refine ⟨d, q, t, hrun, hr.dir, hempty, hcall, hmarked, ?_⟩
  rintro ⟨r, u, hrun', houtcome⟩
  obtain ⟨rfl, rfl⟩ := Prog.run_inj vdisk hcall hrun'
  rcases houtcome with ⟨hfail, -⟩ | hfreed
  · exact absurd hfail (by decide)
  · rw [hfreed.free q hr.dir.1 ⟨[], rfl⟩] at hmarked
    cases hmarked

end InodeFs
