import InodeFs.Disk.RecordExec

/-!
# Functions that only read, and what the others note

Looking a path up writes nothing, on whatever disk; and of the functions that change the disk
only the two creating operations note an entry.

`Prog.ReadOnly` is a property of the program, shown once for each function by following its
definition. It gives that the disk is as it was behind the call, and that nothing was noted.

A note is made where a number is taken from the data map and where the entry of a new file is
complete. `TakesBlocks` says of the functions in between that all their notes are of the first kind,
so that the entry of a creation is the only one (`entry_of_mem_notes`): it holds the name that the
path was cut to and the number that the search for an inode returned, on any disk on which the
parent is found.

The number in the entry is one that is noted and not one that is read off the disk afterwards. Both
are needed: that the entry gets to the disk is a matter of the directory's room, while the number is
handed out in any case.
-/

namespace InodeFs

variable (env : Env)

/-! ### Reading -/

theorem readOnly_envRead (id : ℤ) : (env.read id).ReadOnly :=
  Prog.readOnly_read.mpr fun _ => Prog.readOnly_pure _

theorem readOnly_readINodes (id : ℤ) : (readINodes env id).ReadOnly :=
  (readOnly_envRead env id).bind fun _ => Prog.readOnly_pure _

theorem readOnly_readEntries (id : ℤ) : (readEntries env id).ReadOnly :=
  (readOnly_envRead env id).bind fun _ => Prog.readOnly_pure _

theorem readOnly_readInts (id : ℤ) : (readInts env id).ReadOnly :=
  (readOnly_envRead env id).bind fun _ => Prog.readOnly_pure _

theorem readOnly_justReadInodeFromDisk (n : ℤ) : (justReadInodeFromDisk env n).ReadOnly :=
  (readOnly_readINodes env _).bind fun _ => Prog.readOnly_index _ _

/-- The searches for something free read one map each. -/
theorem readOnly_findEmptyInode : (findEmptyInode env).ReadOnly := by
  refine (readOnly_envRead env _).bind fun _ => ?_
  split <;> exact Prog.readOnly_pure _

theorem readOnly_findEmptyDatablock : (findEmptyDatablock env).ReadOnly := by
  refine (readOnly_envRead env _).bind fun _ => ?_
  split
  · exact Prog.readOnly_pure _
  · refine (readOnly_envRead env _).bind fun _ => ?_
    split <;> exact Prog.readOnly_pure _

theorem readOnly_getFilenameData (r : ℤ) (x : INode) :
    (getFilenameDataFromDirInRankView env r x).ReadOnly := by
  rw [getFilenameDataFromDirInRankView]
  simp only
  split
  · exact (Prog.readOnly_index _ _).bind fun _ =>
      (readOnly_readEntries env _).bind fun _ => Prog.readOnly_index _ _
  · exact (Prog.readOnly_index _ _).bind fun _ => (readOnly_readInts env _).bind fun _ =>
      (Prog.readOnly_index _ _).bind fun _ => (readOnly_envRead env _).bind fun _ =>
        Prog.readOnly_index _ _

theorem readOnly_visitedDirectlyLoop (fileSize : ℤ) (x : INode) (son : Fin 30 → Byte)
    (blocks i : ℕ) (visited : ℤ) :
    (visitedDirectlyLoop env fileSize x son blocks i visited).ReadOnly := by
  induction blocks generalizing i visited with
  | zero => exact Prog.readOnly_undefined
  | succ blocks ih =>
    rw [visitedDirectlyLoop]
    refine (Prog.readOnly_index _ _).bind fun _ => (readOnly_readEntries env _).bind fun _ => ?_
    split
    · exact Prog.readOnly_pure _
    · exact (Prog.readOnly_index _ _).bind fun _ => Prog.readOnly_pure _
    · exact ih _ _

theorem readOnly_visitIndirectLoop (fileSize : ℤ) (index : Fin 1024 → BitVec 32)
    (son : Fin 30 → Byte) (blocks i : ℕ) (visited : ℤ) :
    (visitIndirectLoop env fileSize index son blocks i visited).ReadOnly := by
  induction blocks generalizing i visited with
  | zero => exact Prog.readOnly_undefined
  | succ blocks ih =>
    rw [visitIndirectLoop]
    refine (Prog.readOnly_index _ _).bind fun _ => (readOnly_readEntries env _).bind fun _ => ?_
    split
    · exact Prog.readOnly_pure _
    · exact (Prog.readOnly_index _ _).bind fun _ => Prog.readOnly_pure _
    · exact ih _ _

/-- The indirect parts are searched through an index block. -/
theorem readOnly_visitIndirect (which : Fin 2) (start fileSize : ℤ) (x : INode)
    (son : Fin 30 → Byte) : (visitIndirect env which start fileSize x son).ReadOnly :=
  (readOnly_readInts env _).bind fun _ => readOnly_visitIndirectLoop env _ _ _ _ _ _

/-- **`find_file_in_dict`** writes nothing, whatever the directory holds. -/
theorem readOnly_findFileInDict (x : INode) (son : Fin 30 → Byte) :
    (findFileInDict env x son).ReadOnly := by
  refine (readOnly_visitedDirectlyLoop env _ _ _ _ _ _).bind fun _ => ?_
  split
  · refine (readOnly_visitIndirect env _ _ _ _ _).bind fun _ => ?_
    split
    · exact readOnly_visitIndirect env _ _ _ _ _
    · exact Prog.readOnly_pure _
  · exact Prog.readOnly_pure _

/-- A round of the walk reads a record and searches a directory. -/
theorem readOnly_understandLoop (rest : List Byte) (r : ℤ) (x : INode) :
    (understandLoop env rest r x).ReadOnly := by
  induction h : rest.length using Nat.strong_induction_on generalizing rest x with
  | _ n ih =>
    cases rest with
    | nil => rw [understandLoop]; exact Prog.readOnly_pure _
    | cons c chars =>
      rw [understandLoop]
      split
      · exact Prog.readOnly_undefined
      · split
        · exact readOnly_findFileInDict env _ _
        · next rest' hrest =>
          have hle := length_scanComponent_le (c :: chars) []
          rw [hrest] at hle
          refine (readOnly_findFileInDict env _ _).bind fun _ =>
            (readOnly_justReadInodeFromDisk env _).bind fun _ => ih rest'.length ?_ _ _ rfl
          rw [List.length_cons] at hle
          omega

/-- **`understand_the_path`** writes nothing, whatever the path is. -/
theorem readOnly_understandThePath (path : List Byte) : (understandThePath env path).ReadOnly :=
  (readOnly_justReadInodeFromDisk env _).bind fun _ => readOnly_understandLoop env _ _ _

/-! ### What is noted, and what is returned -/

/-- The note is about the data block the allocator returns on the disk as it is. -/
def Note.IsNextData (d : Disk) : Note → Prop
  | .entry _ => False
  | .block n => n = d.nextData

section Sat

/-- Everything the program notes is a block handed out by the allocator. -/
abbrev TakesBlocks {α : Type} (p : Fs α) (Q : α → Prop := fun _ => True) : Prop :=
  p.Sat vdisk Note.IsNextData Q

variable {P : Disk → Note → Prop}

/-- A write notes nothing. -/
theorem sat_diskWrite (id : ℤ) (b : Block) : (diskWrite id b).Sat vdisk P fun _ => True :=
  Prog.sat_write (Prog.sat_pure True.intro)

theorem sat_orIntoMap (table : Fin 8 → Byte) (n : ℤ) (b : Block) :
    (orIntoMap env table n b).Sat vdisk P fun _ => True :=
  (Prog.readOnly_index _ _).sat.bind fun _ _ => (Prog.readOnly_index _ _).sat.bind fun _ _ =>
    Prog.sat_assign _ _ _

theorem sat_makeInodeMapCovered (n : ℤ) :
    (makeInodeMapCovered env n).Sat vdisk P fun _ => True :=
  (readOnly_envRead env _).sat.bind fun _ _ => (sat_orIntoMap env _ _ _).bind
    fun _ _ => sat_diskWrite _ _

theorem sat_makeDataMapCovered (n : ℤ) :
    (makeDataMapCovered env n).Sat vdisk P fun _ => True :=
  (readOnly_envRead env _).sat.bind fun _ _ => (sat_orIntoMap env _ _ _).bind
    fun _ _ => sat_diskWrite _ _

/-- The initialisation of an inode takes no block and makes no entry. -/
theorem sat_applyANewInodeWithMode (mode : BitVec 32) :
    (applyANewInodeWithMode env mode).Sat vdisk P fun _ => True := by
  refine Prog.Sat.bind (Q := fun _ => True) ?_ fun _ _ =>
    (sat_makeInodeMapCovered env _).bind fun _ _ => (readOnly_readINodes env _).sat.bind
    fun _ _ => (Prog.readOnly_index _ _).sat.bind fun _ _ => (Prog.sat_assign _ _ _).bind
    fun _ _ => (sat_diskWrite _ _).bind fun _ _ => Prog.sat_pure True.intro
  refine (readOnly_envRead env _).sat.bind fun _ _ => ?_
  split <;> exact Prog.sat_pure True.intro

/-- The two statements that take a data block, and what follows them. -/
theorem takeDatablock_bind {α : Type} (f : ℤ → Fs α) : takeDatablock env >>= f =
    findEmptyDatablock env >>= fun n => Prog.note (.block n) (makeDataMapCovered env n >>= fun _ =>
      f n) := by
  rw [takeDatablock, Prog.bind_assoc]
  refine congrArg _ (funext fun n => ?_)
  rw [Prog.note_bind, Prog.note_bind, Prog.pure_eq_ret, Prog.ret_bind, Prog.bind_assoc]
  rfl

/-- The two statements note the number that the search returned. -/
theorem takesBlocks_takeDatablock : TakesBlocks (takeDatablock env) := by
  intro d
  refine ⟨fun x hx => ?_, fun _ _ _ => True.intro⟩
  rw [← Prog.bind_ret (takeDatablock env), takeDatablock_bind, Prog.notes_bind,
    (readOnly_findEmptyDatablock env).notes_eq_nil, List.nil_append, run_findEmptyDatablock,
    Option.map_some, Option.getD_some, Prog.notes_note, List.mem_cons] at hx
  rcases hx with rfl | hx
  · rfl
  · exact (((sat_makeDataMapCovered env _).bind fun _ _ =>
      Prog.sat_pure (Q := fun _ => True) True.intro) d).1 x hx

theorem sat_addADictInDataBlock (b : ℤ) (e : DictioryContent) (j : ℤ) :
    (addADictInDataBlock env b e j).Sat vdisk P fun _ => True :=
  (readOnly_readEntries env _).sat.bind fun _ _ => (Prog.sat_assign _ _ _).bind
    fun _ _ => sat_diskWrite _ _

/-- The branch of `add_file_to_dict` behind the direct blocks, from its index block on. -/
private theorem takesBlocks_storeIndirect (y : INode) (e : DictioryContent) (bias disk : ℤ) :
    TakesBlocks (do
      let bufferNumber ← readInts env (datablockFindDiskId (y.directPointer 0).toInt)
      if bias = 0 then do
        let dataBlockNodeNumber ← takeDatablock env
        let bufferNumber ← Prog.assign bufferNumber (disk - 12)
          (BitVec.ofInt 32 dataBlockNodeNumber)
        writeInts (datablockFindDiskId (y.directPointer 0).toInt) bufferNumber
        addADictInDataBlock env dataBlockNodeNumber e bias
        pure y
      else do
        let number ← Prog.index bufferNumber (disk - 12)
        addADictInDataBlock env number.toInt e bias
        pure y : Fs INode) (· = y) := by
  refine (readOnly_readInts env _).sat.bind fun _ _ => ?_
  split
  · exact (takesBlocks_takeDatablock env).bind fun _ _ => (Prog.sat_assign _ _ _).bind fun _ _ =>
      (sat_diskWrite _ _).bind fun _ _ => (sat_addADictInDataBlock env _ _ _).bind
      fun _ _ => Prog.sat_pure rfl
  · exact (Prog.readOnly_index _ _).sat.bind fun _ _ =>
      (sat_addADictInDataBlock env _ _ _).bind fun _ _ => Prog.sat_pure rfl

/-- Storing an entry takes blocks, and keeps the size for the caller. -/
theorem takesBlocks_storeInDict (x : INode) (e : DictioryContent) :
    TakesBlocks (storeInDict env x e) (·.stSize = x.stSize) := by
  have htake := takesBlocks_takeDatablock env
  rw [storeInDict]
  simp only
  split
  · split
    · exact htake.bind fun _ _ => (Prog.sat_assign _ _ _).bind fun _ _ =>
        (sat_addADictInDataBlock env _ _ _).bind fun _ _ => Prog.sat_pure rfl
    · exact (Prog.readOnly_index _ _).sat.bind fun _ _ =>
        (sat_addADictInDataBlock env _ _ _).bind fun _ _ => Prog.sat_pure rfl
  · split
    · split
      · exact htake.bind fun _ _ => (takesBlocks_storeIndirect env _ _ _ _).mono
          fun _ hy => by rw [hy]
      · exact (takesBlocks_storeIndirect env _ _ _ _).mono fun _ hy => by rw [hy]
    · exact Prog.sat_pure rfl

/-- Adding an entry adds 32 to the size, on whatever branch. -/
theorem takesBlocks_addFileToDict (clock : ℕ) (x : INode) (e : DictioryContent) :
    TakesBlocks (addFileToDict env clock x e) (·.stSize = x.stSize + 32) :=
  (takesBlocks_storeInDict env x e).bind fun y hy => Prog.sat_pure (by rw [hy])

/-- Behind the note of the entry only blocks are noted. -/
theorem takesBlocks_mountInFather (p : ℤ) (e : DictioryContent) :
    TakesBlocks (mountInFather env p e) := by
  refine (readOnly_readINodes env _).sat.bind fun _ _ => (Prog.readOnly_index _ _).sat.bind
    fun _ _ => (takesBlocks_addFileToDict env _ _ _).bind fun _ _ =>
    (Prog.sat_assign _ _ _).bind fun _ _ => (sat_diskWrite _ _).bind fun _ _ =>
    (readOnly_envRead env _).sat.bind fun _ _ => ?_
  split <;> exact Prog.sat_pure True.intro

/-! ### Blocks of files -/

theorem readOnly_dataBlockAtRank (rank : ℤ) (x : INode) :
    (dataBlockAtRank env rank x).ReadOnly := by
  rw [dataBlockAtRank]
  split
  · exact (Prog.readOnly_index _ _).bind fun _ => Prog.readOnly_pure _
  · exact (Prog.readOnly_index _ _).bind fun _ =>
      ((readOnly_envRead env _).bind fun _ => Prog.readOnly_pure _).bind fun _ =>
      (Prog.readOnly_index _ _).bind fun _ => Prog.readOnly_pure _

theorem readOnly_readTheOneDisk (rank : ℤ) (x : INode) :
    (readTheOneDiskAccordingToRankInInode env rank x).ReadOnly :=
  (readOnly_dataBlockAtRank env rank x).bind fun _ => readOnly_envRead env _

/-- Writing a block that a file has takes none. -/
theorem sat_writeIntoDisk (rank : ℤ) (x : INode) (content : Block) :
    (writeIntoDiskAcccordingToRankInInode env rank x content).Sat vdisk P fun _ => True :=
  (readOnly_dataBlockAtRank env rank x).sat.bind fun _ _ => sat_diskWrite _ _

theorem sat_mountBlockToInode (rank b : ℤ) (x : INode) :
    (mountBlockToInodeAccordingToRank env rank b x).Sat vdisk P fun _ => True := by
  rw [mountBlockToInodeAccordingToRank]
  split
  · exact (Prog.sat_assign _ _ _).bind fun _ _ => Prog.sat_pure True.intro
  · exact (Prog.readOnly_index _ _).sat.bind fun _ _ => (readOnly_readInts env _).sat.bind
      fun _ _ => (Prog.sat_assign _ _ _).bind fun _ _ => (sat_diskWrite _ _).bind
      fun _ _ => Prog.sat_pure True.intro

theorem sat_repalceINode (n : ℤ) (x : INode) :
    (repalceINodeAccordingToDiskNumber env n x).Sat vdisk P fun _ => True :=
  (readOnly_readINodes env _).sat.bind fun _ _ => (Prog.sat_assign _ _ _).bind
    fun _ _ => sat_diskWrite _ _

/-- The check that precedes a write. -/
theorem readOnly_checkWrite (path : List Byte) : (checkWrite env path).ReadOnly :=
  (readOnly_understandThePath env _).bind fun _ => (readOnly_justReadInodeFromDisk env _).bind
    fun _ => (readOnly_envRead env _).bind fun _ => Prog.readOnly_pure _

end Sat

/-- The split of a path touches no block. -/
theorem splitPath_cases (path : List Byte) :
    splitPath path = .undefined ∨ ∃ split, splitPath path = .ret split := by
  rw [splitPath]
  split
  · exact .inl rfl
  · simp only
    split
    · exact .inl rfl
    · exact .inr ⟨_, rfl⟩

/-- **The entry that a creation makes**: the name from its path, and the number that the inode
search returned on the disk as it was. Its record has been initialised by then, and nothing else. -/
theorem entry_of_mem_notes {mode : BitVec 32} {path : CString} {d δ : Disk} {e : DictioryContent}
    {dictPath : List Byte} {fileName : Fin 30 → Byte}
    (hsplit : splitPath path.chars = .ret (dictPath, fileName))
    (h : (δ, .entry e) ∈ (fsCreate env (applyANewInodeWithMode env mode) path).notes vdisk d) :
    δ = d.withFreshInode env mode d.nextInode ∧
      e = ⟨fileNameOf fileName, BitVec.ofInt 32 d.nextInode⟩ := by
  rw [fsCreate, hsplit, Prog.ret_bind, Prog.notes_bind,
    (readOnly_understandThePath env dictPath).notes_eq_nil, List.nil_append] at h
  -- the search for an inode starts on `d`, since the walk only reads
  cases hwalk : (understandThePath env dictPath).run vdisk d with
  | none =>
    rw [hwalk] at h
    cases h
  | some q =>
    obtain ⟨p, d'⟩ := q
    obtain rfl := (readOnly_understandThePath env dictPath).run_state vdisk hwalk
    rw [hwalk, Option.map_some, Option.getD_some, Prog.notes_bind, run_applyANewInodeWithMode,
      Option.map_some, Option.getD_some, List.mem_append] at h
    rcases h with h | h
    · exact ((sat_applyANewInodeWithMode (P := fun _ _ => False) env mode d').1 _ h).elim
    · rw [Prog.note_bind, Prog.notes_note, List.mem_cons] at h
      rcases h with h | h
      · rwa [Prod.mk.injEq, Note.entry.injEq] at h
      · rw [Prog.pure_eq_ret, Prog.ret_bind] at h
        exact ((takesBlocks_mountInFather env _ _ _).1 _ h).elim

/-- The number in the entry, without the name. -/
theorem inodeNumber_of_mem_notes {mode : BitVec 32} {path : CString} {d δ : Disk}
    {e : DictioryContent}
    (h : (δ, .entry e) ∈ (fsCreate env (applyANewInodeWithMode env mode) path).notes vdisk d) :
    e.inodeNumber = BitVec.ofInt 32 d.nextInode := by
  rcases splitPath_cases path.chars with hsplit | ⟨⟨dictPath, fileName⟩, hsplit⟩
  · rw [fsCreate, hsplit, Prog.undefined_bind] at h
    cases h
  · rw [(entry_of_mem_notes env hsplit h).2]

/-- A creation whose parent is found notes its entry. -/
theorem mem_notes_fsCreate (mode : BitVec 32) (path : CString) {d : Disk} {dictPath : List Byte}
    {fileName : Fin 30 → Byte} {p : ℤ} (hsplit : splitPath path.chars = .ret (dictPath, fileName))
    (hwalk : (understandThePath env dictPath).run vdisk d = some (p, d)) :
    (d.withFreshInode env mode d.nextInode,
        .entry ⟨fileNameOf fileName, BitVec.ofInt 32 d.nextInode⟩) ∈
      (fsCreate env (applyANewInodeWithMode env mode) path).notes vdisk d := by
  rw [fsCreate, hsplit, Prog.ret_bind, Prog.notes_bind, hwalk, Option.map_some, Option.getD_some,
    Prog.notes_bind, run_applyANewInodeWithMode, Option.map_some, Option.getD_some,
    Prog.note_bind, Prog.notes_note]
  simp

end InodeFs
