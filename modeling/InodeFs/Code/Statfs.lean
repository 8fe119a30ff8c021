import InodeFs.Code.Bitmap

/-!
# Statistics

`fs_statfs` and its two counting functions. In their tests `buffer[i] & bit_map_mask[k] == 0`
and `... != 0` the comparison binds tighter than `&`.

The two tests are translated as C reads them, as `buffer[i] & (bit_map_mask[k] == 0)` and `buffer[i]
& (bit_map_mask[k] != 0)`: the first one is 0 for every byte, and the second one is the last bit of
the byte, eight times. The five numbers that the call reports are computed from these counts, each
of them by a call of its own, which reads its map again.
-/

namespace InodeFs

variable (env : Env)

/-- The members of `struct statvfs` that are filled in. -/
structure Statvfs where
  fBsize : BitVec 64
  fBlocks : BitVec 64
  fBfree : BitVec 64
  fBavail : BitVec 64
  fFiles : BitVec 64
  fFfree : BitVec 64
  fFavail : BitVec 64
  fNamemax : BitVec 64

/-- The value of a comparison, an `int`. -/
def comparison (p : Prop) [Decidable p] : BitVec 32 := if p then 1 else 0

/-- `for (int i = 0; i < 4096; i++) for (int k = 0; k < 8; k++)`, on the count of the body. -/
def countLoop (body : Fin 4096 → Fin 8 → ℕ → ℕ) : ℕ :=
  (List.finRange 4096).foldl (fun number i =>
    (List.finRange 8).foldl (fun number k => body i k number) number) 0

/-- `get_free_block_size`. -/
def getFreeBlockSize : Fs ℤ := do
  let bufferFirst ← env.read 2
  let bufferSecond ← env.read 3
  pure (countLoop fun i k freeNumber =>
    let mask := env.promote (bitMapMask k)
    let freeNumber :=
      if env.promote (bufferFirst i) &&& comparison (mask = 0) ≠ 0 then freeNumber + 1
      else freeNumber
    if env.promote (bufferSecond i) &&& comparison (mask = 0) ≠ 0 then freeNumber + 1
    else freeNumber)

/-- `get_file_number`. -/
def getFileNumber : Fs ℤ := do
  let numberBuffer ← env.read 1
  pure (countLoop fun i k fileAmount =>
    let mask := env.promote (bitMapMask k)
    if env.promote (numberBuffer i) &&& comparison (mask ≠ 0) ≠ 0 then fileAmount + 1
    else fileAmount)

/-- `fs_statfs`: the return value and the structure `stat` points to. -/
def fsStatfs : Fs (ℤ × Statvfs) := do
  let bfree ← getFreeBlockSize env
  let bavail ← getFreeBlockSize env
  let files ← getFileNumber env
  let ffree ← getFileNumber env
  let favail ← getFileNumber env
  pure (0, ⟨4096, 256 * 256, BitVec.ofInt 64 bfree, BitVec.ofInt 64 bavail,
    BitVec.ofInt 64 files, BitVec.ofInt 64 (4096 - ffree), BitVec.ofInt 64 (4096 - favail), 24⟩)

end InodeFs
