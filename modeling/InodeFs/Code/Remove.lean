import InodeFs.Code.Create

/-!
# Removal and renaming

`fs_unlink`, `fs_rmdir`, `fs_rename` and the functions that address a directory's entries by
their rank. These operations split their path from the character at `sizeof(path) - 1`, which
is 7, backwards.

The functions by rank read the block of an entry for the ranks below 12 only, which is what the
first twelve entries of a directory need; for every other rank they return an element of a buffer
that nothing has filled. `delete_file_according_to_rank` copies the last entry over the one to be
removed, and the callers shorten the directory by one entry.

`fs_rmdir` gives the blocks of what the directory holds back, and passes their inode numbers to the
data map, before it takes the directory's own entry out. `fs_rename` takes the entry out of the one
directory and mounts it, with the name it has, in the other one, whose record it has read before.
-/

namespace InodeFs

variable (env : Env)

/-- `make_data_map_uncovered(numbers[i])` for `count` numbers from `i` on. -/
def uncoverLoop {n : ℕ} (numbers : Fin n → BitVec 32) : ℕ → ℕ → Fs Unit
  | 0, _ => pure ()
  | count + 1, i => do
    let number ← Prog.index numbers i
    makeDataMapUncovered env number.toInt
    uncoverLoop numbers count (i + 1)

/-- `release_file_databock_by_provide_inode`. -/
def releaseFileDatabockByProvideInode (aimInode : INode) : Fs Unit := do
  let datablockAmount := cInt (aimInode.stSize.toInt.tdiv 4096 + 1)
  uncoverLoop env aimInode.directPointer (getMin 12 datablockAmount).toNat 0
  if datablockAmount > 11 then do
    let bias := datablockAmount - 11
    let members ← readInts env (datablockFindDiskId (aimInode.indirectPointer 0).toInt)
    uncoverLoop env members (getMin 1024 bias).toNat 0
  else pure ()
  if datablockAmount > 11 + 1024 then do
    let bias := datablockAmount - 11 - 1024
    let members ← readInts env (datablockFindDiskId (aimInode.indirectPointer 1).toInt)
    uncoverLoop env members (getMin 1024 bias).toNat 0
  else pure ()

/-- `get_filename_data_from_dir_in_rank_view`. From rank 12 on the block is read into the
index buffer, and an element of the uninitialised entry buffer is returned. -/
def getFilenameDataFromDirInRankView (rank : ℤ) (dirInode : INode) : Fs DictioryContent := do
  let diskRank := rank.tdiv 128
  let diskBias := rank.tmod 128
  if rank < 12 then do
    let pointer ← Prog.index dirInode.directPointer diskRank
    let bufferFileInfo ← readEntries env (datablockFindDiskId pointer.toInt)
    Prog.index bufferFileInfo diskBias
  else do
    let index := (rank - 11).tdiv 1024
    let indirectBias := rank - 11 - index * 1024
    let pointer ← Prog.index dirInode.indirectPointer index
    let buffer ← readInts env (datablockFindDiskId pointer.toInt)
    let number ← Prog.index buffer indirectBias
    let _ ← env.read (datablockFindDiskId number.toInt)
    Prog.index (env.stack rank).entries diskBias

/-- `write_filename_intodir_in_rank_view`. From rank 12 on the entry goes to a buffer that is
not written, and the index buffer is written to the block its element names. -/
def writeFilenameIntodirInRankView (rank : ℤ) (dirInode : INode) (aimData : DictioryContent) :
    Fs Unit := do
  let diskRank := rank.tdiv 128
  let bias := rank.tmod 128
  if rank < 12 then do
    let pointer ← Prog.index dirInode.directPointer diskRank
    let bufferFileInfo ← readEntries env (datablockFindDiskId pointer.toInt)
    let bufferFileInfo ← Prog.assign bufferFileInfo bias aimData
    writeEntries (datablockFindDiskId pointer.toInt) bufferFileInfo
  else do
    let index := (rank - 11).tdiv 1024
    let indirectBias := rank - 11 - index * 1024
    let pointer ← Prog.index dirInode.indirectPointer index
    let buffer ← readInts env (datablockFindDiskId pointer.toInt)
    let number ← Prog.index buffer indirectBias
    let buffer ← diskRead (datablockFindDiskId number.toInt) (Block.ints.symm buffer)
    let number ← Prog.index buffer.ints indirectBias
    diskWrite (datablockFindDiskId number.toInt) buffer

/-- The number of entries of a directory: `st_size / 32`. -/
def fileAmount (dirInode : INode) : ℤ := cInt (dirInode.stSize.toInt.tdiv 32)

/-- `delete_file_according_to_rank`: the last entry is copied over the one at `rank`. -/
def deleteFileAccordingToRank (rank : ℤ) (dirInode : INode) : Fs Unit := do
  if rank = fileAmount dirInode then pure ()
  else do
    let lastFile ← getFilenameDataFromDirInRankView env (fileAmount dirInode - 1) dirInode
    writeFilenameIntodirInRankView env rank dirInode lastFile

/-! ### Unlinking -/

/-- The characters of the string that the first `length` bytes of the memory `get`, copied
into a zeroed buffer, form. -/
def copiedString (get : ℕ → Byte) (length : ℕ) : List Byte :=
  ((List.range length).map get).takeWhile (· ≠ 0)

/-- The directory name `fs_unlink` cuts from the path, from index `sizeof(path) - 1` on. -/
def unlinkDirName (path : CString) : Option (List Byte) :=
  (lastSlash path.get 7).map fun pathLength =>
    if pathLength = 0 then [slash] else copiedString path.get pathLength

/-- The loop of `fs_unlink` over the entries, `left` of them from rank `i` on. -/
def unlinkLoop (fileInode : ℤ) (dirINode : INode) : ℕ → ℕ → Fs Unit
  | 0, _ => pure ()
  | left + 1, i => do
    let file ← getFilenameDataFromDirInRankView env i dirINode
    if file.inodeNumber.toInt = fileInode then do
      let x ← justReadInodeFromDisk env fileInode
      releaseFileDatabockByProvideInode env x
      deleteFileAccordingToRank env i dirINode
    else unlinkLoop fileInode dirINode left (i + 1)

/-- `fs_unlink`. -/
def fsUnlink (path : CString) : Fs ℤ :=
  match unlinkDirName path with
  | none => Prog.undefined
  | some dirName => do
    let fileInode ← understandThePath env path.chars
    let dirInodeNumber ← understandThePath env dirName
    let dirINode ← justReadInodeFromDisk env dirInodeNumber
    unlinkLoop env fileInode dirINode (fileAmount dirINode).toNat 0
    makeInodeMapUncovered env fileInode
    repalceINodeAccordingToDiskNumber env dirInodeNumber
      { dirINode with stSize := dirINode.stSize - 32, ctime := env.time 0, mtime := env.time 1 }
    pure 0

/-- The loop of `fs_rmdir` over the entries, `left` of them from rank `i` on. It releases the
children's blocks, and passes their inode numbers to the data map. -/
def rmdirLoop (dirInode : INode) : ℕ → ℕ → Fs Unit
  | 0, _ => pure ()
  | left + 1, i => do
    let fileInfo ← getFilenameDataFromDirInRankView env i dirInode
    let x ← justReadInodeFromDisk env fileInfo.inodeNumber.toInt
    releaseFileDatabockByProvideInode env x
    makeDataMapUncovered env fileInfo.inodeNumber.toInt
    rmdirLoop dirInode left (i + 1)

/-- `fs_rmdir`. The directory name it cuts from the path is not used. -/
def fsRmdir (path : CString) : Fs ℤ := do
  let dirINodeNumber ← understandThePath env path.chars
  let dirInode ← justReadInodeFromDisk env dirINodeNumber
  match lastSlash path.get 7 with
  | none => Prog.undefined
  | some _ => do
    rmdirLoop env dirInode (fileAmount dirInode).toNat 0
    let _ ← fsUnlink env path
    pure 0

/-! ### Renaming -/

/-- The directory name `fs_rename` cuts from each of its paths: empty for a separator at
index 0, which resolves to the root as well. -/
def renameDirName (path : CString) : Option (List Byte) :=
  (lastSlash path.get 7).map (copiedString path.get)

/-- The loop of `fs_rename` over the entries, `left` of them from rank `i` on; `weWant` is the
entry read last. -/
def renameLoop (fileInodeNumber : ℤ) (oldDirInode : INode) :
    ℕ → ℕ → DictioryContent → Fs DictioryContent
  | 0, _, weWant => pure weWant
  | left + 1, i, _ => do
    let weWant ← getFilenameDataFromDirInRankView env i oldDirInode
    if weWant.inodeNumber.toInt = fileInodeNumber then do
      deleteFileAccordingToRank env i oldDirInode
      pure weWant
    else renameLoop fileInodeNumber oldDirInode left (i + 1) weWant

/-- `fs_rename`. -/
def fsRename (oldpath newname : CString) : Fs ℤ := do
  let fileInodeNumber ← understandThePath env oldpath.chars
  match renameDirName oldpath, renameDirName newname with
  | some oldDir, some newDir => do
    let oldDirInodeNumber ← understandThePath env oldDir
    let oldDirInode ← justReadInodeFromDisk env oldDirInodeNumber
    let weWant ← renameLoop env fileInodeNumber oldDirInode (fileAmount oldDirInode).toNat 0
      ((env.stack oldDirInodeNumber).entries 0)
    let newDirInodeNumber ← understandThePath env newDir
    let newDirInode ← justReadInodeFromDisk env newDirInodeNumber
    let newInode ← addFileToDict env 0 newDirInode weWant
    repalceINodeAccordingToDiskNumber env newDirInodeNumber newInode
    repalceINodeAccordingToDiskNumber env oldDirInodeNumber
      { oldDirInode with
        stSize := oldDirInode.stSize - 32, ctime := env.time 2, mtime := env.time 3 }
    pure 0
  | _, _ => Prog.undefined

end InodeFs
