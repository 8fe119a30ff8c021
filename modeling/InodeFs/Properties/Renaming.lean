import InodeFs.Properties.Runs

/-!
# Renaming

`fs_rename` appends the entry under its old name, to a directory read before the old one is
written back. `rename_exact` says what is needed for it to move exactly one name: the parents
are two directories, the last component stays, the new directory does not have it, and neither
the entries nor the paths reach the limits of the code. With another last component the file is
not found where it was moved to (`not_renameExact_of_ne`).

`RenameExact` is stated of lookups alone: the new path resolves to the inode, the old one does not,
what is below goes with it, and every other path leads where it led. It is proved of the disk
`Disk.moveEntry`, on which the entry is taken from the one directory and put into the other
(`resolve_moveEntry`, `resolve_moveEntry_new`, `resolve_moveEntry_behind`), by facts of
`InodeFs.Lib.NameGraph` about an edge that is moved.

That the parents differ is needed since the record of the new directory is read before the old one
is stored. That the last component stays is needed since the entry is copied with its name;
`not_renameExact_of_ne` needs nothing else to go wrong.
-/

namespace InodeFs

/-- `understand_the_path` resolves the path to `n`. -/
def LeadsTo (env : Env) (d : Disk) (as : List Name) (n : ℤ) : Prop :=
  (understandThePath env (pathChars as)).run vdisk d = some (n, d)

/-- `fs_rename` returns 0 and moves one name: the new path leads to inode `i`, the old one does not
resolve, an entry that was at the new path is gone, what lay below the old path lies below the new
one, and all other paths lead where they led before. -/
def RenameExact (env : Env) (d : Disk) (parent : List Name) (name : Name) (behind : ℕ → Byte)
    (parent' : List Name) (name' : Name) (behind' : ℕ → Byte) (i : ℕ) : Prop :=
  ∃ d', (fsRename env (pathString (parent ++ [name]) behind)
      (pathString (parent' ++ [name']) behind')).run vdisk d = some (0, d') ∧
    LeadsTo env d' (parent' ++ [name']) i ∧
    (parent ++ [name] ≠ parent' ++ [name'] → LeadsTo env d' (parent ++ [name]) negENOENT) ∧
    (∀ q j, d.graph.resolve 4 (fileNames parent') = some q →
      d.graph.lookup q name'.fileName = some j → j ≠ i → (name'.fileName, j) ∉ d'.graph q) ∧
    (∀ as j, d.graph.resolve 4 (fileNames (parent ++ [name] ++ as)) = some j →
      LeadsTo env d' (parent' ++ [name'] ++ as) j) ∧
    ∀ as j, d.graph.resolve 4 (fileNames as) = some j → ¬ parent ++ [name] <+: as →
      ¬ parent' ++ [name'] <+: as → LeadsTo env d' as j

section Rename

variable {d : Disk} {parent parent' : List Name} {name name' : Name} {p q i limit : ℕ}

/-- The entries after a move. -/
theorem Disk.Sound.lookup_moveEntry (hd : d.Sound limit)
    (h : d.CanRename parent parent' name name' p q i) (env : Env) {k : ℕ}
    (hk : k < (d.inode p).count) (hedge : (d.entryOf (d.inode p) k).edge = (name.fileName, i))
    (r : ℕ) (b : FileName) :
    (d.moveEntry env p k q).graph.lookup r b =
      if r = q ∧ b = name.fileName then some i
      else if r = p ∧ b = name.fileName then none else d.graph.lookup r b := by
  obtain ⟨-, g, hsimilar, hgraph⟩ := hd.moveEntry h env hk hedge
  have hproper := hd.directories.graph.proper
  have hlookup (r : ℕ) (b : FileName) : g.lookup r b =
      if r = p ∧ b = name.fileName then none else d.graph.lookup r b := by
    rw [(hproper.remove p _).lookup_of_similar hsimilar,
      hproper.lookup_remove (NameGraph.mem_of_lookup h.finds.2)]
  rw [hgraph, NameGraph.lookup_insert, hlookup]
  rw [hlookup, if_neg fun hand => h.ne hand.1, h.fresh]

theorem prefix_of_fileNames {as bs : List Name} : fileNames as <+: fileNames bs ↔ as <+: bs :=
  List.prefix_map_iff_of_injective Name.fileName_injective

/-- Every path but the moved one leads where it led before. -/
theorem Disk.Sound.resolve_moveEntry (hd : d.Sound limit)
    (h : d.CanRename parent parent' name name' p q i) (env : Env) {k : ℕ}
    (hk : k < (d.inode p).count) (hedge : (d.entryOf (d.inode p) k).edge = (name.fileName, i))
    {as : List Name} {j : ℕ} (hj : d.graph.resolve 4 (fileNames as) = some j)
    (havoid : ¬ parent ++ [name] <+: as) :
    (d.moveEntry env p k q).graph.resolve 4 (fileNames as) = some j := by
  refine hd.directories.graph.proper.resolve_avoid (a := name.fileName) h.finds.1
    (fun r b l hl hne => ?_) (fun hpre => ?_) hj
  · rw [hd.lookup_moveEntry h env hk hedge, if_neg, if_neg hne, hl]
    rintro ⟨rfl, rfl⟩
    rw [h.fresh] at hl
    cases hl
  · rw [← List.map_singleton, ← List.map_append] at hpre
    exact havoid (prefix_of_fileNames.mp hpre)

/-- The moved path. -/
theorem Disk.Sound.resolve_moveEntry_new (hd : d.Sound limit)
    (h : d.CanRename parent parent' name name' p q i) (env : Env) {k : ℕ}
    (hk : k < (d.inode p).count) (hedge : (d.entryOf (d.inode p) k).edge = (name.fileName, i)) :
    (d.moveEntry env p k q).graph.resolve 4 (fileNames (parent' ++ [name])) = some i := by
  refine NameGraph.resolve_map_concat.mpr
    ⟨q, hd.resolve_moveEntry h env hk hedge h.found h.below, ?_⟩
  rw [hd.lookup_moveEntry h env hk hedge, if_pos ⟨rfl, rfl⟩]

/-- What lay behind the old entry lies behind the new one. -/
theorem Disk.Sound.resolve_moveEntry_behind (hd : d.Sound limit)
    (h : d.CanRename parent parent' name name' p q i) (env : Env) {k : ℕ}
    (hk : k < (d.inode p).count) (hedge : (d.entryOf (d.inode p) k).edge = (name.fileName, i))
    {as : List Name} {j : ℕ}
    (hj : d.graph.resolve 4 (fileNames (parent ++ [name] ++ as)) = some j) :
    (d.moveEntry env p k q).graph.resolve 4 (fileNames (parent' ++ [name] ++ as)) = some j := by
  have hold : d.graph.resolve 4 ((parent ++ [name]).map Name.fileName) = some i :=
    NameGraph.resolve_map_concat.mpr ⟨p, h.finds⟩
  rw [fileNames, List.map_append, NameGraph.resolve_append] at hj ⊢
  rw [hd.resolve_moveEntry_new h env hk hedge]
  rw [hold] at hj
  refine hd.directories.graph.proper.resolve_behind h.finds.1 h.finds.2 (fun r b l hl hne => ?_) hj
  rw [hd.lookup_moveEntry h env hk hedge, if_neg, if_neg hne, hl]
  rintro ⟨rfl, rfl⟩
  rw [h.fresh] at hl
  cases hl

/-- The old directory after a move. -/
theorem Disk.inode_moveEntry_old (env : Env) {k : ℕ} (hp : d.IsDir p) (hne : q ≠ p) :
    (d.moveEntry env p k q).inode p = (d.inode p).shrunk env 2 := by
  rw [moveEntry, inode_addEntry_of_ne hp.1 hne.symm, inode_removeEntry hp.1, if_pos rfl]

/-- **A rename moves exactly one name** if its parents are two directories and the last component
stays, within the limits that `CanRename` states. -/
theorem rename_exact (env : Env) {behind behind' : ℕ → Byte} (h : SafeRun d)
    (hsplit : SplitsAt parent name behind) (hsplit' : SplitsAt parent' name behind')
    (hr : d.CanRename parent parent' name name p q i) :
    RenameExact env d parent name behind parent' name behind' i := by
  have hd := h.sound
  have hp := hr.finds.isDir
  obtain ⟨k, hk, hedge, hrun⟩ := run_fsRename env hd hp hr.small hr.dir hr.ne hr.count_lt hr.room
    hsplit hsplit' hr.finds.1 hr.finds.2 hr.found hr.below
  obtain ⟨hsound, -⟩ := hd.moveEntry hr env hk hedge
  have hlookup := hd.lookup_moveEntry hr env hk hedge
  have hleads {as : List Name} {j : ℕ}
      (hj : (d.moveEntry env p k q).graph.resolve 4 (fileNames as) = some j) :
      LeadsTo env (d.moveEntry env p k q) as j := hsound.walkable.run_understandThePath env hj
  refine ⟨_, hrun, hleads (hd.resolve_moveEntry_new hr env hk hedge), fun _ => ?_,
    fun r j hres hl => ?_,
    fun as j hj => hleads (hd.resolve_moveEntry_behind hr env hk hedge hj),
    fun as j hj havoid _ => hleads (hd.resolve_moveEntry hr env hk hedge hj havoid)⟩
  · -- the old directory has the name no more, and free entries
    have hinode := Disk.inode_moveEntry_old env (k := k) hp hr.ne
    have hshrunk : ((d.inode p).shrunk env 2).stSize.toNat + 32 = (d.inode p).stSize.toNat :=
      INode.toNat_shrunk env 2 (by rw [(hd.directories.dir p hp).size_eq]; omega)
    refine hsound.walkable.run_understandThePath_missing env
      (hd.resolve_moveEntry hr env hk hedge hr.finds.1 fun hpre => ?_)
      ⟨hp.1, by rw [hinode]; exact hp.2⟩ ?_ ?_
    · have hle := hpre.length_le
      rw [List.length_append, List.length_singleton] at hle
      omega
    · have hcount := hr.small
      rw [INode.count] at hcount
      rw [hinode, INode.count]
      omega
    · rw [hlookup, if_neg fun hand => hr.ne hand.1.symm, if_pos ⟨rfl, rfl⟩]
  · obtain rfl : q = r := Option.some.inj (hr.found.symm.trans hres)
    rw [hr.fresh] at hl
    cases hl

/-- With another last component the new path does not lead to the file: the entry keeps its name. -/
theorem not_renameExact_of_ne (env : Env) {behind behind' : ℕ → Byte} (hd : d.Sound)
    (hsplit : SplitsAt parent name behind) (hsplit' : SplitsAt parent' name' behind')
    (hr : d.CanRename parent parent' name name' p q i) (hne : name' ≠ name)
    (hcount : (d.inode q).count + 1 < 1536) :
    ¬ RenameExact env d parent name behind parent' name' behind' i := by
  rintro ⟨d', hrun', hnew, -⟩
  obtain ⟨k, hk, hedge, hrun⟩ :=
    run_fsRename env hd hr.finds.isDir hr.small hr.dir hr.ne hr.count_lt
    hr.room hsplit hsplit' hr.finds.1 hr.finds.2 hr.found hr.below
  obtain ⟨-, rfl⟩ := Prog.run_inj vdisk hrun hrun'
  obtain ⟨hsound, g, hsimilar, hgraph⟩ := hd.moveEntry hr env hk hedge
  have hlookup := hd.lookup_moveEntry hr env hk hedge
  have hfound := hd.resolve_moveEntry hr env hk hedge hr.found hr.below
  have hdir : (d.moveEntry env p k q).IsDir q := Disk.isDir_of_lookup (a := name.fileName) (i := i)
    (by rw [hlookup, if_pos ⟨rfl, rfl⟩])
  have hother : (d.moveEntry env p k q).graph.lookup q name'.fileName =
      d.graph.lookup q name'.fileName := by
    rw [hlookup, if_neg fun hand => hne (Name.fileName_injective hand.2),
      if_neg fun hand => hr.ne hand.1]
  -- what the new name leads to lies in `q` and is not inode `i`
  cases hl : d.graph.lookup q name'.fileName with
  | some j =>
    have hj : LeadsTo env _ (parent' ++ [name']) j := hsound.walkable.run_understandThePath env
      (NameGraph.resolve_map_concat.mpr ⟨q, hfound, hother.trans hl⟩)
    have heq : j = i := Int.ofNat.inj (Prog.run_inj vdisk hj hnew).1
    rw [heq] at hl
    exact hr.ne (hd.directories.graph.proper.eq_of_target (NameGraph.mem_of_lookup hl)
      (NameGraph.mem_of_lookup hr.finds.2)).1
  | none =>
    have hlength : (d.moveEntry env p k q).graph q = g q ++ [(name.fileName, i)] := by
      rw [hgraph, NameGraph.insert_apply, if_pos rfl]
    have hold : (g q).length = (d.graph q).length := by
      rw [(hsimilar q).length_eq, NameGraph.remove_apply, if_neg hr.ne]
    have hmissing := hsound.walkable.run_understandThePath_missing env hfound hdir (by
      rw [← Disk.length_graph hdir, hlength, List.length_append, hold, Disk.length_graph hr.dir]
      exact hcount) (hother.trans hl)
    exact absurd (Prog.run_inj vdisk hmissing hnew).1
      (by rw [negENOENT]; omega)

end Rename

/-! ### A file moved into a directory -/

/-- A root with an empty directory and a file. -/
theorem exists_safeRun_directory (name' : Name) : ∃ d q i, SafeRun d ∧
    d.CanRename [] [nthName 0] (nthName 1) name' 4 q i ∧ (d.inode q).count = 0 := by
  have hne : nthName 1 ≠ nthName 0 := fun heq =>
    absurd (nthName_inj (by decide) (by decide) heq) (by decide)
  have hinodes := Disk.freeInodes_initial plainEnv fun _ => 0
  obtain ⟨k, d₁, hrun₁, hfree₁⟩ := CreationRun.exists_extend
    (.init (Disk.run_mkfs_zeroDisk plainEnv fun _ => 0)) (c := ⟨.directory, [], nthName 0⟩)
    ⟨.inl rfl, by decide, List.not_mem_nil, Disk.freeInodes_pos_iff.mp (by omega)⟩
  obtain ⟨i, d, hrun, hfree⟩ := hrun₁.exists_extend (c := ⟨.file, [], nthName 1⟩)
    ⟨.inl rfl, by simp [children], by simpa [children] using hne,
      Disk.freeInodes_pos_iff.mp (by omega)⟩
  have hr := hrun.refines
  have hdirectory : IsDirPath ([] ++ [Creation.numbered ⟨.directory, [], nthName 0⟩ k] ++
      [Creation.numbered ⟨.file, [], nthName 1⟩ i]) [nthName 0] :=
    .inr ⟨Creation.numbered ⟨.directory, [], nthName 0⟩ k, by simp, rfl, rfl⟩
  have hroot := hr.sound.directories.root
  obtain ⟨q, hq, hdir⟩ := hr.exists_dir hdirectory
  have hcount := hr.count_eq hdirectory hq hdir
  have hcount₄ := hr.count_eq (.inl rfl) rfl hroot
  -- the directory `q` is the only other one, and nothing was created in it
  have hempty : (d.inode q).count = 0 := by rw [hcount]; rfl
  have hfile : d.graph.lookup 4 (nthName 1).fileName = some i := by
    have hresolve : d.graph.resolve 4 ([] ++ [(nthName 1).fileName]) = some i :=
      hr.resolve (Creation.numbered ⟨.file, [], nthName 1⟩ i) (by simp)
    obtain ⟨r, hr, hlookup⟩ := NameGraph.resolve_concat_eq_some.mp hresolve
    exact Option.some.inj hr ▸ hlookup
  have hblocks : d.HasBlock := by
    have hle := hr.free
    exact Disk.freeBlocks_pos_iff.mp (by omega)
  refine ⟨d, q, i, hrun.safeRun, ⟨⟨rfl, hfile⟩, hq, hdir, ?_, ?_, by omega, fun _ => hblocks,
    hr.lookup_eq_none hdirectory hq List.not_mem_nil, fun hpre => ?_⟩, hempty⟩
  · have hresolve : d.graph.resolve 4 ([] ++ [(nthName 0).fileName]) = some q := hq
    obtain ⟨r, -, hlookup⟩ := NameGraph.resolve_concat_eq_some.mp hresolve
    exact hr.sound.directories.graph.proper.root (NameGraph.mem_of_lookup hlookup)
  · rw [hcount₄]
    simp [children]
  · exact hne (List.cons_prefix_cons.mp hpre).1

/-- `rename /@A /@@/@A`. -/
theorem rename_exact_into_directory : ∃ d i, SafeRun d ∧
    RenameExact plainEnv d [] (nthName 1) plainMemory [nthName 0] (nthName 1) plainMemory i := by
  obtain ⟨d, q, i, hrun, hr, -⟩ := exists_safeRun_directory (nthName 1)
  exact ⟨d, i, hrun, rename_exact plainEnv hrun (by decide) (by decide) hr⟩

/-- `rename /@A /@@/@B`. -/
theorem not_rename_exact_other_name : ∃ d q i, SafeRun d ∧
    d.CanRename [] [nthName 0] (nthName 1) (nthName 2) 4 q i ∧
    ¬ RenameExact plainEnv d [] (nthName 1) plainMemory [nthName 0] (nthName 2) plainMemory i := by
  obtain ⟨d, q, i, hrun, hr, hcount⟩ := exists_safeRun_directory (nthName 2)
  refine ⟨d, q, i, hrun, hr, not_renameExact_of_ne plainEnv hrun.sound (by decide) (by decide) hr
    (fun heq => ?_) (by omega)⟩
  exact absurd (nthName_inj (by decide) (by decide) heq) (by decide)

end InodeFs
