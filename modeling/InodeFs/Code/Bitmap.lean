import InodeFs.Code.Base

/-!
# Bitmaps

The allocation maps: block 1 has a bit for each of the 32768 inodes, blocks 2 and 3 one for
each of 65536 data blocks, bit `n` being mask `n % 8` of byte `n / 8`.

The order of the bits is the one of the table `bit_map_mask`, the highest bit of a byte first. The
two searches count masks from the start of the map and return 0 when they find none, which is also
the number of inode 0 and of the reserved data block 0.

The four setting functions are a division with remainder and an assignment `|=`. Those that are to
give a number back use the same assignment, with the table `uncover_data_block` of the complements
of the masks, so that they set bits as well. Their division differs from the one of the searches,
and they are translated as they stand: the agreement of the two is
`InodeFs.Properties.AllocationOrder`.
-/

namespace InodeFs

variable (env : Env)

/-- `bit_map_mask`. -/
def bitMapMask : Fin 8 → Byte := ![128, 64, 32, 16, 8, 4, 2, 1]

/-- `uncover_data_block`. -/
def uncoverDataBlock : Fin 8 → Byte := ![127, 191, 223, 239, 247, 251, 253, 254]

/-- The loop over `k`: the number to return at the first clear bit of the byte, or the count
reached behind it. -/
def scanMasks (c : Byte) : List Byte → ℕ → ℕ ⊕ ℕ
  | [], number => .inr number
  | mask :: masks, number =>
    if env.promote c &&& env.promote mask = 0 then .inl number
    else scanMasks c masks (number + 1)

/-- The loop over `j`. -/
def scanBytes : List Byte → ℕ → ℕ ⊕ ℕ
  | [], number => .inr number
  | c :: buffer, number =>
    match scanMasks env c (List.ofFn bitMapMask) number with
    | .inl found => .inl found
    | .inr number => scanBytes buffer number

/-- `find_empty_inode`. -/
def findEmptyInode : Fs ℤ := do
  let buffer ← env.read 1
  match scanBytes env (List.ofFn buffer) 0 with
  | .inl number => pure number
  | .inr _ => pure 0

/-- `inode_find_disk_id_and_index_in_disk`: the index in the block and the block. -/
def inodeFindDiskIdAndIndexInDisk (inodeNumber : ℤ) : ℤ × ℤ :=
  (inodeNumber.tmod 32, 4 + inodeNumber.tdiv 32)

/-- `buffer[number / 8] = buffer[number / 8] | table[number % 8]`, the statement of the four
functions that change a map. -/
def orIntoMap (table : Fin 8 → Byte) (number : ℤ) (buffer : Block) : Fs Block := do
  let bias := number.tdiv 8
  let mask ← Prog.index table (number.tmod 8)
  let c ← Prog.index buffer bias
  Prog.assign buffer bias ((env.promote c ||| env.promote mask).setWidth 8)

/-- `make_inode_map_covered`. -/
def makeInodeMapCovered (inodeNumber : ℤ) : Fs Unit := do
  let buffer ← env.read 1
  let buffer ← orIntoMap env bitMapMask inodeNumber buffer
  diskWrite 1 buffer

/-- `make_inode_map_uncovered`: like `make_inode_map_covered`, the complement table is
combined with `|`. -/
def makeInodeMapUncovered (inodeNumber : ℤ) : Fs Unit := do
  let buffer ← env.read 1
  let buffer ← orIntoMap env uncoverDataBlock inodeNumber buffer
  diskWrite 1 buffer

/-- `find_empty_datablock`: block 2, then block 3 with the count running on. -/
def findEmptyDatablock : Fs ℤ := do
  let buffer ← env.read 2
  match scanBytes env (List.ofFn buffer) 0 with
  | .inl number => pure number
  | .inr number =>
    let buffer ← env.read 3
    match scanBytes env (List.ofFn buffer) number with
    | .inl number => pure number
    | .inr _ => pure 0

/-- `datablock_find_disk_id`. -/
def datablockFindDiskId (dataBlockNumber : ℤ) : ℤ := 1028 + dataBlockNumber

/-- The map block of a data block number, and the number counted from that block on. -/
def dataMapPosition (dataBlockNumber : ℤ) : ℤ × ℤ :=
  if dataBlockNumber ≥ 32768 then (3, dataBlockNumber - 32768) else (2, dataBlockNumber)

/-- `make_data_map_covered`. -/
def makeDataMapCovered (dataBlockNumber : ℤ) : Fs Unit := do
  let (id, number) := dataMapPosition dataBlockNumber
  let buffer ← env.read id
  let buffer ← orIntoMap env bitMapMask number buffer
  diskWrite id buffer

/-- `make_data_map_uncovered`. -/
def makeDataMapUncovered (dataBlockNumber : ℤ) : Fs Unit := do
  let (id, number) := dataMapPosition dataBlockNumber
  let buffer ← env.read id
  let buffer ← orIntoMap env uncoverDataBlock number buffer
  diskWrite id buffer

/-- The two statements that take a data block, the same at all nine places that do:
`n = find_empty_datablock(); make_data_map_covered(n);`. -/
def takeDatablock : Fs ℤ := do
  let number ← findEmptyDatablock env
  Prog.note (.block number) (pure ())
  makeDataMapCovered env number
  pure number

end InodeFs
