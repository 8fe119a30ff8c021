import InodeFs.Code.Lookup

/-!
# File contents

`fs_read`, `fs_write`, `fs_truncate` and the functions that translate the rank of a block in
its file to a data block. Block ranks below 12 go through `direct_pointer`; the others are
looked up in an index block, which the mounting functions read as 1024 `int`s and the reading
and writing ones as an array of `char *`.

The loops are recursive functions of what the source counts with, a rank and the number of bytes
read or written so far, and end with the test that the source makes. Where it is not plain that they
end there is a bound on the rounds, large enough not to be reached, since each of them reads or
writes at least one byte. The rounds of `fs_truncate` are known before: both of its loops go from
`now_block_size + 1` to `pre_block_size`, so the one for a file that grows has none.

`read_the_one_disk_according_to_rank_in_inode` and its counterpart for writing read an index block
into an array of pointers. The array is longer than the block, and its elements behind that are
taken from the environment, as memory had them.
-/

namespace InodeFs

variable (env : Env)

/-! ### Ranks -/

/-- `char *real_data_node_number[1024]; disk_read(id, real_data_node_number);`, which fills
the first 512 elements. -/
def readPointers (id : ℤ) : Fs (Fin 1024 → BitVec 64) := do
  let buffer ← env.read id
  pure fun t =>
    if h : t.val < 512 then buffer.pointers ⟨t, h⟩
    else (env.stackHigh id).pointers ⟨t - 512, by omega⟩

/-- The data block number at a rank, as `read_the_one_disk_according_to_rank_in_inode` and
`write_into_disk_acccording_to_rank_in_inode` look it up. -/
def dataBlockAtRank (rank : ℤ) (nowFileInode : INode) : Fs ℤ := do
  if rank < 12 then do
    let pointer ← Prog.index nowFileInode.directPointer rank
    pure pointer.toInt
  else do
    let index := rank.tdiv (1024 + 12)
    let transferRank := rank - index * 1024 - 12
    let pointer ← Prog.index nowFileInode.indirectPointer index
    let realDataNodeNumber ← readPointers env (datablockFindDiskId pointer.toInt)
    let number ← Prog.index realDataNodeNumber transferRank
    pure (number.setWidth 32).toInt

/-- `read_the_one_disk_according_to_rank_in_inode`. -/
def readTheOneDiskAccordingToRankInInode (rank : ℤ) (nowFileInode : INode) : Fs Block := do
  let number ← dataBlockAtRank env rank nowFileInode
  env.read (datablockFindDiskId number)

/-- `write_into_disk_acccording_to_rank_in_inode`. -/
def writeIntoDiskAcccordingToRankInInode (rank : ℤ) (newFileNode : INode) (content : Block) :
    Fs Unit := do
  let number ← dataBlockAtRank env rank newFileNode
  diskWrite (datablockFindDiskId number) content

/-- `mount_block_to_inode_according_to_rank`. -/
def mountBlockToInodeAccordingToRank (rank dataBlockNumber : ℤ) (nowFileNode : INode) :
    Fs INode := do
  if rank < 12 then do
    let directPointer ← Prog.assign nowFileNode.directPointer rank
      (BitVec.ofInt 32 dataBlockNumber)
    pure { nowFileNode with directPointer := directPointer }
  else do
    let index := rank.tdiv (1024 + 12)
    let bias := rank - index * 1024 - 12
    let pointer ← Prog.index nowFileNode.indirectPointer index
    let bufferNumber ← readInts env (datablockFindDiskId pointer.toInt)
    let bufferNumber ← Prog.assign bufferNumber bias (BitVec.ofInt 32 dataBlockNumber)
    writeInts (datablockFindDiskId pointer.toInt) bufferNumber
    pure nowFileNode

/-! ### Reading -/

/-- The inner loop of `fs_read`, with `bytes` bytes of the block left from index `i` on. -/
def copyOut (temReadBuffer : Block) (size : ℤ) :
    ℕ → ℕ → ℕ → (ℕ → Byte) → ℕ × (ℕ → Byte)
  | 0, _, haveRead, buffer => (haveRead, buffer)
  | bytes + 1, i, haveRead, buffer =>
    let buffer := Function.update buffer haveRead (temReadBuffer.get i)
    if ((haveRead + 1 : ℕ) : ℤ) = size then (haveRead + 1, buffer)
    else copyOut temReadBuffer size bytes (i + 1) (haveRead + 1) buffer

/-- The outer loop of `fs_read`. Each round reads at least one byte, so `fuel`, the number of
bytes asked for, is never used up before the count is reached. -/
def readLoop (nowFileInode : INode) (size : ℤ) :
    ℕ → ℤ → ℕ → ℕ → (ℕ → Byte) → Fs (ℕ → Byte)
  | 0, _, _, haveRead, buffer =>
    if (haveRead : ℤ) = size then pure buffer else Prog.undefined
  | fuel + 1, rank, startBias, haveRead, buffer =>
    if (haveRead : ℤ) = size then pure buffer
    else do
      let temReadBuffer ← readTheOneDiskAccordingToRankInInode env rank nowFileInode
      let copied := copyOut temReadBuffer size (4096 - startBias) startBias haveRead buffer
      readLoop nowFileInode size fuel (rank + 1) 0 copied.1 copied.2

/-- `fs_read`: the return value and the memory behind `buffer`. -/
def fsRead (path : CString) (buffer : ℕ → Byte) (size offset : ℕ) :
    Fs (ℤ × (ℕ → Byte)) := do
  let iNodeNumber ← understandThePath env path.chars
  let nowFileInode ← justReadInodeFromDisk env iNodeNumber
  let buffer ← readLoop env nowFileInode (cInt size) size (cInt (offset / 4096 : ℕ))
    (offset % 4096) 0 buffer
  pure (getMin (cInt size) (cInt nowFileInode.stSize.toInt), buffer)

/-! ### Writing -/

/-- `check_write`, which only prints. -/
def checkWrite (path : List Byte) : Fs Unit := do
  let iNodeNumber ← understandThePath env path
  let here ← justReadInodeFromDisk env iNodeNumber
  let _ ← env.read (datablockFindDiskId (here.directPointer 0).toInt)
  pure ()

/-- The copy loop for the first block of `fs_write`, with `bytes` bytes of the block left
from index `i` on. It stops one byte before the end of the caller's data. -/
def fillFirst (buffer : ℕ → Byte) (size : ℤ) : ℕ → ℕ → ℕ → Block → Block × ℕ
  | 0, _, wrote, block => (block, wrote)
  | bytes + 1, i, wrote, block =>
    if (wrote : ℤ) ≥ size - 1 then (block, wrote)
    else fillFirst buffer size bytes (i + 1) (wrote + 1) (block.set i (buffer wrote))

/-- The copy loop for the following blocks of `fs_write`. It stops one byte behind the end of
the caller's data. -/
def fillNext (buffer : ℕ → Byte) (size : ℕ) : ℕ → ℕ → ℕ → Block → Block × ℕ
  | 0, _, wrote, block => (block, wrote)
  | bytes + 1, i, wrote, block =>
    if wrote ≤ size then
      fillNext buffer size bytes (i + 1) (wrote + 1) (block.set i (buffer wrote))
    else (block, wrote)

/-- The loop of `fs_write` over the following blocks. Each round writes at least one byte, so
`fuel`, the number of bytes to write, is never used up before the loop ends. -/
def writeLoop (buffer : ℕ → Byte) (size : ℕ) : ℕ → ℤ → ℕ → INode → Fs INode
  | 0, _, wrote, newFileInode =>
    if (wrote : ℤ) < cInt size then Prog.undefined else pure newFileInode
  | fuel + 1, rank, wrote, newFileInode =>
    if (wrote : ℤ) < cInt size then do
      let filled := fillNext buffer size 4096 0 wrote Block.zero
      let temNumber ← takeDatablock env
      let newFileInode ← mountBlockToInodeAccordingToRank env rank temNumber newFileInode
      writeIntoDiskAcccordingToRankInInode env rank newFileInode filled.1
      writeLoop buffer size fuel (rank + 1) filled.2 newFileInode
    else pure newFileInode

/-- The middle of `fs_write`: everything between reading the file's inode and setting its
size. A write that starts on a block boundary takes and mounts a block first. -/
def writeBlocks (buffer : ℕ → Byte) (size offset : ℕ) (newFileInode : INode) : Fs INode := do
  let preNumberSize := cInt (offset / 4096 : ℕ)
  let startPosition := offset % 4096
  let newFileInode ←
    if startPosition = 0 then do
      let temNumber ← takeDatablock env
      mountBlockToInodeAccordingToRank env preNumberSize temNumber newFileInode
    else pure newFileInode
  let firstWriteIn ← readTheOneDiskAccordingToRankInInode env preNumberSize newFileInode
  let filled := fillFirst buffer (cInt size) (4096 - startPosition) startPosition 0 firstWriteIn
  writeIntoDiskAcccordingToRankInInode env preNumberSize newFileInode filled.1
  writeLoop env buffer size size (preNumberSize + 1) filled.2 newFileInode

/-- `fs_write`; `buffer` is the memory from the caller's address on. -/
def fsWrite (path : CString) (buffer : ℕ → Byte) (size offset : ℕ) : Fs ℤ := do
  let iNodeNumber ← understandThePath env path.chars
  let newFileInode ← justReadInodeFromDisk env iNodeNumber
  let newFileInode ← writeBlocks env buffer size offset newFileInode
  let stSize := BitVec.ofInt 64 (cInt (cInt offset + cInt size))
  repalceINodeAccordingToDiskNumber env iNodeNumber { newFileInode with stSize := stSize }
  checkWrite env path.chars
  pure (cInt size)

/-! ### Truncation -/

/-- `delete_n_rank_block`. -/
def deleteNRankBlock (rank : ℤ) (nowFileInode : INode) : Fs INode := do
  let freeDataBlockNumber ←
    if rank < 12 then do
      let pointer ← Prog.index nowFileInode.directPointer rank
      pure pointer.toInt
    else do
      let index := rank.tdiv (12 + 1024)
      let transfer := rank - 12 - 1024 * index
      let pointer ← Prog.index nowFileInode.indirectPointer index
      let temDataBlockNumber ← readInts env (datablockFindDiskId pointer.toInt)
      let number ← Prog.index temDataBlockNumber transfer
      pure number.toInt
  makeDataMapUncovered env freeDataBlockNumber
  pure nowFileInode

/-- `add_new_empty_block_according_to_rank`. -/
def addNewEmptyBlockAccordingToRank (rank : ℤ) (nowFileNumber : INode) : Fs INode := do
  if rank < 12 then do
    let dataBlockNumber ← takeDatablock env
    let directPointer ← Prog.assign nowFileNumber.directPointer rank
      (BitVec.ofInt 32 dataBlockNumber)
    pure { nowFileNumber with directPointer := directPointer }
  else do
    let nowFileNumber ←
      if rank = 12 then do
        let dataBlockNumber ← takeDatablock env
        let indirectPointer := Function.update nowFileNumber.indirectPointer 0
          (BitVec.ofInt 32 dataBlockNumber)
        pure { nowFileNumber with indirectPointer := indirectPointer }
      else pure nowFileNumber
    let nowFileNumber ←
      if rank = 12 + 1024 then do
        let dataBlockNumber ← takeDatablock env
        let indirectPointer := Function.update nowFileNumber.indirectPointer 1
          (BitVec.ofInt 32 dataBlockNumber)
        pure { nowFileNumber with indirectPointer := indirectPointer }
      else pure nowFileNumber
    let index := rank.tdiv (1024 + 12)
    let bias := rank - index * 1024 - 12
    let pointer ← Prog.index nowFileNumber.indirectPointer index
    let bufferIndex ← readInts env (datablockFindDiskId pointer.toInt)
    let dataBlockNumber ← takeDatablock env
    let bufferIndex ← Prog.assign bufferIndex bias (BitVec.ofInt 32 dataBlockNumber)
    writeInts (datablockFindDiskId pointer.toInt) bufferIndex
    pure nowFileNumber

/-- `for (int i = ...; ...; i++) inode = step(i, inode);`, with `rounds` rounds left. -/
def rankLoop (step : ℤ → INode → Fs INode) : ℕ → ℤ → INode → Fs INode
  | 0, _, x => pure x
  | rounds + 1, i, x => do
    let x ← step i x
    rankLoop step rounds (i + 1) x

/-- `fs_truncate`. Both loops run from `now_block_size + 1` to `pre_block_size`. -/
def fsTruncate (path : CString) (size : ℤ) : Fs ℤ := do
  let inodeNumber ← understandThePath env path.chars
  let (index, diskId) := inodeFindDiskIdAndIndexInDisk inodeNumber
  let bufferInode ← readINodes env diskId
  let x ← Prog.index bufferInode index
  let preBlockSize := (cInt x.stSize.toInt).tdiv 4096 + 1
  let nowBlockSize := (cInt size).tdiv 4096 + 1
  let rounds := (preBlockSize - nowBlockSize).toNat
  let x ←
    if preBlockSize = nowBlockSize then pure x
    else if nowBlockSize > preBlockSize then
      rankLoop (addNewEmptyBlockAccordingToRank env) rounds (nowBlockSize + 1) x
    else rankLoop (deleteNRankBlock env) rounds (nowBlockSize + 1) x
  let bufferInode ← Prog.assign bufferInode index { x with stSize := BitVec.ofInt 64 size }
  writeINodes diskId bufferInode
  pure 0

end InodeFs
