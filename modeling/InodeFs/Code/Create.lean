import InodeFs.Code.Lookup

/-!
# Creation

`add_file_to_dict` and the two creating operations.

`fs_mknod` and `fs_mkdir` are the same code up to the function that initialises the new record, and
are one definition `fsCreate` here with that function as an argument. It cuts the path at its last
separator, walks to the parent, initialises the record, and mounts the entry in the parent. The
number of entries is compared with the limit behind all of these steps, and only decides what the
call returns.

`add_file_to_dict` has six branches, by the number of entries: the direct blocks, the part of the
first index block and that of the second one, each with or without a new block. Those that take an
index block go on with `direct_pointer[0]` in the place of the new block, which is kept.

The note `Note.entry` marks the moment at which the new entry is complete, so that a statement can
say which number a call has handed out.
-/

namespace InodeFs

variable (env : Env)

/-- `add_a_dict_in_data_block`. -/
def addADictInDataBlock (dataBlockNodeNumber : ℤ) (aimFile : DictioryContent)
    (filePosition : ℤ) : Fs Unit := do
  let diskId := datablockFindDiskId dataBlockNodeNumber
  let fileBuffer ← readEntries env diskId
  let fileBuffer ← Prog.assign fileBuffer filePosition aimFile
  writeEntries diskId fileBuffer

/-- The part of `add_file_to_dict` that stores the entry, up to its last `}`: the direct
blocks, a fresh one for every 128th entry, and behind them the branch that keeps its block
numbers in the block of `direct_pointer[0]`. -/
def storeInDict (dictInode : INode) (aimFile : DictioryContent) : Fs INode := do
  let preFileNumber := cInt (dictInode.stSize.toInt.tdiv 32)
  let preDiskNumber := preFileNumber.tdiv 128
  let bias := preFileNumber.tmod 128
  if preDiskNumber < 12 then
    if bias = 0 then do
      let dataBlockNodeNumber ← takeDatablock env
      let directPointer ← Prog.assign dictInode.directPointer preDiskNumber
        (BitVec.ofInt 32 dataBlockNodeNumber)
      addADictInDataBlock env dataBlockNodeNumber aimFile 0
      pure { dictInode with directPointer := directPointer }
    else do
      let pointer ← Prog.index dictInode.directPointer preDiskNumber
      addADictInDataBlock env pointer.toInt aimFile bias
      pure dictInode
  else if preDiskNumber < 12 + 1024 then do
    let dictInode ←
      if preDiskNumber = 12 then do
        let dataNumber ← takeDatablock env
        let indirectPointer := Function.update dictInode.indirectPointer 0
          (BitVec.ofInt 32 dataNumber)
        pure { dictInode with indirectPointer := indirectPointer }
      else pure dictInode
    let indexId := datablockFindDiskId (dictInode.directPointer 0).toInt
    let bufferNumber ← readInts env indexId
    if bias = 0 then do
      let dataBlockNodeNumber ← takeDatablock env
      let bufferNumber ← Prog.assign bufferNumber (preDiskNumber - 12)
        (BitVec.ofInt 32 dataBlockNodeNumber)
      writeInts indexId bufferNumber
      addADictInDataBlock env dataBlockNodeNumber aimFile bias
      pure dictInode
    else do
      let number ← Prog.index bufferNumber (preDiskNumber - 12)
      addADictInDataBlock env number.toInt aimFile bias
      pure dictInode
  else pure dictInode

/-- `add_file_to_dict`. `clock` is the index of its first call of `time(NULL)`. -/
def addFileToDict (clock : ℕ) (dictInode : INode) (aimFile : DictioryContent) : Fs INode := do
  let dictInode ← storeInDict env dictInode aimFile
  pure { dictInode with
    stSize := dictInode.stSize + 32, mtime := env.time clock, ctime := env.time (clock + 1) }

/-- The split of `fs_mknod` and `fs_mkdir`: the directory path, which is `"/"` when the last
separator comes first, and the file name. A path without separator is scanned past its first
character, a file name of more than 30 characters is written past the end of `file_name`. -/
def splitPath (path : List Byte) : Fs (List Byte × (Fin 30 → Byte)) :=
  match lastSlash (fun i => path.getD i 0) (path.length - 1) with
  | none => Prog.undefined
  | some p =>
    let lastFileName := path.drop (p + 1)
    if 30 < lastFileName.length then Prog.undefined
    else pure (if p = 0 then [slash] else path.take p, padTo30 lastFileName)

/-- The end of `fs_mknod` and `fs_mkdir`: mount the new entry in the parent's directory. -/
def mountInFather (fatherInodeNumber : ℤ) (newFile : DictioryContent) : Fs ℤ := do
  let (index, diskId) := inodeFindDiskIdAndIndexInDisk fatherInodeNumber
  let bufferInode ← readINodes env diskId
  let father ← Prog.index bufferInode index
  let father ← addFileToDict env 3 father newFile
  let bufferInode ← Prog.assign bufferInode index father
  writeINodes diskId bufferInode
  let _ ← env.read (datablockFindDiskId (father.directPointer 0).toInt)
  if father.stSize.toInt.tdiv 32 > 128 * 12 then pure negENOSPC else pure 0

/-- The body `fs_mknod` and `fs_mkdir` share, with the function that supplies the inode. -/
def fsCreate (applyANewInode : Fs ℤ) (path : CString) : Fs ℤ := do
  let (dictPath, fileName) ← splitPath path.chars
  let fatherInodeNumber ← understandThePath env dictPath
  let newInodeNumber ← applyANewInode
  let newFile : DictioryContent := ⟨fileNameOf fileName, BitVec.ofInt 32 newInodeNumber⟩
  Prog.note (.entry newFile) (pure ())
  mountInFather env fatherInodeNumber newFile

/-- `fs_mknod`; its `mode` and `dev` are not used. -/
def fsMknod (path : CString) : Fs ℤ := fsCreate env (applyANewInodeAndInitial env) path

/-- `fs_mkdir`; its `mode` is not used. -/
def fsMkdir (path : CString) : Fs ℤ := fsCreate env (applyANewInodeAndInitialAsDict env) path

end InodeFs
