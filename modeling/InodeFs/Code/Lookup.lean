import InodeFs.Code.Inode

/-!
# Names and paths

The search for a name in a directory, the resolution of a path, and the two operations that
only look: `fs_getattr` and `fs_readdir`.

`find_file_in_dict` searches in up to three parts: the direct blocks, and the blocks of the two
index blocks. Each part counts the entries it has seen, stops at the last one with `-ENOENT`, and
ends without a value when its blocks are used up; a part that returns `-ENOENT` in a larger
directory is followed by the next one.

`understand_the_path` copies one component after the other into `son_name`, 30 bytes that nothing
guards, and looks each of them up in the record found so far. A missing component is `-ENOENT` as
the number of the next record, which only the last round returns as it is.

The names that `fs_readdir` hands out are C strings in the entries: what it passes on ends at the
first NUL, in the name bytes or behind them.
-/

namespace InodeFs

variable (env : Env)

/-- `DictioryContent buffer[128]; disk_read(id, buffer);` -/
def readEntries (id : ℤ) : Fs (Fin 128 → DictioryContent) := do
  let buffer ← env.read id
  pure buffer.entries

/-- `disk_write(id, buffer)`. -/
def writeEntries (id : ℤ) (buffer : Fin 128 → DictioryContent) : Fs Unit :=
  diskWrite id (Block.entries.symm buffer)

/-- `int buffer[1024]; disk_read(id, buffer);` -/
def readInts (id : ℤ) : Fs (Fin 1024 → BitVec 32) := do
  let buffer ← env.read id
  pure buffer.ints

/-- `disk_write(id, buffer)`. -/
def writeInts (id : ℤ) (buffer : Fin 1024 → BitVec 32) : Fs Unit :=
  diskWrite id (Block.ints.symm buffer)

/-! ### The search in a directory -/

/-- `same_name`. -/
def sameName (sonName : Fin 30 → Byte) (nameWeGet : DictioryContent) : Bool :=
  decide (fileNameOf sonName = nameWeGet.fileName)

/-- How the loop over the 128 entries of a block ends: the count reached the number of
entries, an entry with the name was met, or the block is used up. -/
inductive Scan : Type
  | missing
  | found (j : ℕ)
  | next (visitedFile : ℤ)

/-- The loop over `j` of the three `visit` functions. -/
def scanEntries (fileSize : ℤ) (sonName : Fin 30 → Byte) :
    List DictioryContent → ℕ → ℤ → Scan
  | [], _, visitedFile => .next visitedFile
  | entry :: entries, j, visitedFile =>
    if visitedFile ≥ fileSize then .missing
    else if sameName sonName entry then .found j
    else scanEntries fileSize sonName entries (j + 1) (visitedFile + 1)

/-- The loop over `i` of `visited_directly_to_get_file`, with `blocks` iterations left. The
function ends without a value when they are used up. -/
def visitedDirectlyLoop (fileSize : ℤ) (fatherInode : INode) (sonName : Fin 30 → Byte) :
    ℕ → ℕ → ℤ → Fs ℤ
  | 0, _, _ => Prog.undefined
  | blocks + 1, i, visitedFile => do
    let pointer ← Prog.index fatherInode.directPointer i
    let fileNameBuffer ← readEntries env (datablockFindDiskId pointer.toInt)
    match scanEntries fileSize sonName (List.ofFn fileNameBuffer) 0 visitedFile with
    | .missing => pure negENOENT
    | .found j => do
      let entry ← Prog.index fileNameBuffer j
      pure entry.inodeNumber.toInt
    | .next visitedFile =>
      visitedDirectlyLoop fileSize fatherInode sonName blocks (i + 1) visitedFile

/-- `visited_directly_to_get_file`. -/
def visitedDirectlyToGetFile (fileSize : ℤ) (fatherInode : INode) (sonName : Fin 30 → Byte) :
    Fs ℤ :=
  visitedDirectlyLoop env fileSize fatherInode sonName
    (getMin (fileSize.tdiv 128 + 1) 12).toNat 0 0

/-- The loop over `i` of `visit_first_indirect_to_get_file` and
`visit_second_indirect_to_get_file`. A hit at entry `j` returns the number of entry `i`. -/
def visitIndirectLoop (fileSize : ℤ) (datablockIndexBuffer : Fin 1024 → BitVec 32)
    (sonName : Fin 30 → Byte) : ℕ → ℕ → ℤ → Fs ℤ
  | 0, _, _ => Prog.undefined
  | blocks + 1, i, visitedFile => do
    let pointer ← Prog.index datablockIndexBuffer i
    let fileNameBuffer ← readEntries env (datablockFindDiskId pointer.toInt)
    match scanEntries fileSize sonName (List.ofFn fileNameBuffer) 0 visitedFile with
    | .missing => pure negENOENT
    | .found _ => do
      let entry ← Prog.index fileNameBuffer i
      pure entry.inodeNumber.toInt
    | .next visitedFile =>
      visitIndirectLoop fileSize datablockIndexBuffer sonName blocks (i + 1) visitedFile

/-- The body the two indirect visits share: which index block, and the count it starts at. -/
def visitIndirect (which : Fin 2) (start fileSize : ℤ) (fatherInode : INode)
    (sonName : Fin 30 → Byte) : Fs ℤ := do
  let datablockIndexBuffer ←
    readInts env (datablockFindDiskId (fatherInode.indirectPointer which).toInt)
  visitIndirectLoop env fileSize datablockIndexBuffer sonName 1024 0 start

/-- `visit_first_indirect_to_get_file`. -/
def visitFirstIndirectToGetFile (fileSize : ℤ) (fatherInode : INode)
    (sonName : Fin 30 → Byte) : Fs ℤ :=
  visitIndirect env 0 (12 * 128) fileSize fatherInode sonName

/-- `visit_second_indirect_to_get_file`. -/
def visitSecondIndirectToGetFile (fileSize : ℤ) (fatherInode : INode)
    (sonName : Fin 30 → Byte) : Fs ℤ :=
  visitIndirect env 1 (12 * 128 + 1024 * 128) fileSize fatherInode sonName

/-- `find_file_in_dict`. -/
def findFileInDict (fatherInode : INode) (sonName : Fin 30 → Byte) : Fs ℤ := do
  let fileSize := (cInt fatherInode.stSize.toInt).tdiv 32
  let result ← visitedDirectlyToGetFile env fileSize fatherInode sonName
  if fileSize > 12 * 128 ∧ result = negENOENT then do
    let result ← visitFirstIndirectToGetFile env fileSize fatherInode sonName
    if fileSize > 12 * 128 + 1024 * 128 ∧ result = negENOENT then
      visitSecondIndirectToGetFile env fileSize fatherInode sonName
    else pure result
  else pure result

/-! ### Path resolution -/

/-- The inner loop of `understand_the_path`: from the characters still to be read, those up
to the next `'/'`, behind the ones already in `son_name`, and what is left to read. -/
def scanComponent : List Byte → List Byte → List Byte × List Byte
  | [], sonName => (sonName, [])
  | c :: rest, sonName =>
    if c = slash then (sonName, c :: rest) else scanComponent rest (sonName ++ [c])

theorem length_scanComponent_le (rest sonName : List Byte) :
    (scanComponent rest sonName).2.length ≤ rest.length := by
  induction rest generalizing sonName with
  | nil => simp [scanComponent]
  | cons c rest ih =>
    rw [scanComponent]
    split
    · simp
    · exact (ih _).trans (Nat.le_succ _)

/-- The outer loop of `understand_the_path`, on the characters still to be read. A component
of more than 30 characters is written past the end of `son_name`. -/
def understandLoop (rest : List Byte) (resultNumber : ℤ) (fatherInode : INode) : Fs ℤ :=
  match rest with
  | [] => pure resultNumber
  | c :: chars =>
    let scan := scanComponent (c :: chars) []
    if 30 < scan.1.length then Prog.undefined
    else
      match _hrest : scan.2 with
      | [] => findFileInDict env fatherInode (padTo30 scan.1)
      | _ :: rest' => do
        let timeInodeNumber ← findFileInDict env fatherInode (padTo30 scan.1)
        let fatherInode ← justReadInodeFromDisk env timeInodeNumber
        understandLoop rest' resultNumber fatherInode
  termination_by rest.length
  decreasing_by
    have h := length_scanComponent_le (c :: chars) []
    have hscan : (scanComponent (c :: chars) []).2.length = rest'.length + 1 :=
      congrArg List.length _hrest
    simp only [List.length_cons] at h ⊢
    omega

/-- `understand_the_path`, on the characters of the path. The loop starts behind the first
character. -/
def understandThePath (path : List Byte) : Fs ℤ := do
  let fatherInode ← justReadInodeFromDisk env mainDirectInodePosition
  understandLoop env (path.drop 1) mainDirectInodePosition fatherInode

/-! ### Attributes and listings -/

/-- The members of `struct stat` that are filled in. -/
structure Stat where
  stMode : BitVec 32
  stNlink : BitVec 64
  stUid : BitVec 32
  stGid : BitVec 32
  stSize : BitVec 64
  stAtime : BitVec 64
  stCtime : BitVec 64
  stMtime : BitVec 64

/-- `memset(attr, 0, sizeof(struct stat))`. -/
def Stat.cleared : Stat := ⟨0, 0, 0, 0, 0, 0, 0, 0⟩

/-- `pass_value_from_iNode_to_stat`. -/
def passValueFromINodeToStat (x : INode) : Stat :=
  ⟨x.stMode, x.stNlink, x.stUid, x.stGid, x.stSize, x.atime, x.ctime, x.mtime⟩

/-- `fs_getattr`: the return value and the structure `attr` points to. -/
def fsGetattr (path : CString) : Fs (ℤ × Stat) := do
  let iNodeNumber ← understandThePath env path.chars
  if iNodeNumber = negENOENT then pure (iNodeNumber, Stat.cleared)
  else do
    let aimInode ← justReadInodeFromDisk env iNodeNumber
    pure (0, passValueFromINodeToStat aimInode)

/-- `get_fuul_disk_according_to_rank`. -/
def getFuulDiskAccordingToRank (rank : ℤ) (aimInode : INode) : Fs Block := do
  if rank < 12 then do
    let pointer ← Prog.index aimInode.directPointer rank
    env.read (datablockFindDiskId pointer.toInt)
  else do
    let index := (rank - 11).tdiv 1024
    let transBias := rank - 11 - index * 1024
    let pointer ← Prog.index aimInode.indirectPointer index
    let bufferDataBlockNumber ← readInts env (datablockFindDiskId pointer.toInt)
    let pointer ← Prog.index bufferDataBlockNumber transBias
    env.read (datablockFindDiskId pointer.toInt)

/-- The string `file_name_buffer[cnt].file_name` as `filler` reads it: the bytes from that
address up to the next NUL. If the buffer holds none, the string leaves it. -/
def nameAt (fileNameBuffer : Block) (cnt : ℕ) : Fs (List Byte) :=
  let bytes := (List.ofFn fileNameBuffer).drop (32 * cnt)
  if 0 ∈ bytes then pure (bytes.takeWhile (· ≠ 0)) else Prog.undefined

/-- The loop over `cnt` of `fs_readdir`, with `slots` entries of the block left; `filled` is
what the filler was handed so far. -/
def fillLoop (fileSize : ℤ) (fileNameBuffer : Block) :
    ℕ → ℕ → ℤ → List (List Byte) → Fs (ℤ × List (List Byte))
  | 0, _, visitedSize, filled => pure (visitedSize, filled)
  | slots + 1, cnt, visitedSize, filled =>
    if visitedSize < fileSize then do
      let name ← nameAt fileNameBuffer cnt
      fillLoop fileSize fileNameBuffer slots (cnt + 1) (visitedSize + 1) (filled ++ [name])
    else pure (visitedSize, filled)

/-- The loop over `i` of `fs_readdir`. -/
def readdirLoop (fileSize : ℤ) (aimNode : INode) :
    ℕ → ℕ → ℤ → List (List Byte) → Fs (List (List Byte))
  | 0, _, _, filled => pure filled
  | blocks + 1, i, visitedSize, filled => do
    let fileNameBuffer ← getFuulDiskAccordingToRank env i aimNode
    let (visitedSize, filled) ← fillLoop fileSize fileNameBuffer 128 0 visitedSize filled
    readdirLoop fileSize aimNode blocks (i + 1) visitedSize filled

/-- `fs_readdir`: the return value and the names handed to `filler`, in order. -/
def fsReaddir (path : CString) : Fs (ℤ × List (List Byte)) := do
  let iNodeNumber ← understandThePath env path.chars
  let aimNode ← justReadInodeFromDisk env iNodeNumber
  let fileSize := cInt (aimNode.stSize.toInt.tdiv 32)
  let pointer ← Prog.index aimNode.directPointer 0
  let _ ← env.read (datablockFindDiskId pointer.toInt)
  let diskSize := fileSize.tdiv 128 + 1
  let names ← readdirLoop env fileSize aimNode diskSize.toNat 0 0 []
  pure (0, names)

end InodeFs
