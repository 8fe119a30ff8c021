import InodeFs.Disk.Records
import Mathlib.Data.Fin.VecNotation

/-!
# The C environment of the file system

What the functions of `fs.c` take from outside the disk: the process and the clock, the
bytes an uninitialised buffer happens to hold, the signedness of `char`, and the memory a
path argument lies in. Every function takes an `Env`, and every result about one holds for
each `Env`, so nothing depends on these bytes unless it says so.

An array access out of bounds and the value of a function that ended without `return` have
no meaning in C; there the program is `Prog.undefined`. `printf` output is not modelled.

The environment is fixed for a call and read as a function: `time k` is the answer to the `k`-th
question for the time, and a block that is read into an uninitialised buffer is read over `stack
id`, which shows only where the disk refuses the read. A run of several calls may take another
environment for each.

The programs are those of `InodeFs.Lib.DeviceProgram` over blocks of 4096 bytes. Their notes
(`Note`) are no part of the source. They mark the moments at which an entry is mounted and a block
number is taken, so that a property may speak of them.
-/

namespace InodeFs

/-- What a call takes from its surroundings. `time k` is what the `k`-th call of
`time(NULL)` of the operation returns; `stack id` and `stackHigh id` are the bytes that an
uninitialised 4096-byte buffer (and the second half of an 8192-byte one) holds where the
read of block `id` that should fill it is refused. -/
structure Env where
  uid : BitVec 32
  gid : BitVec 32
  time : ℕ → BitVec 64
  stack : ℤ → Block
  stackHigh : ℤ → Block
  charSigned : Bool

/-- What a run is observed to do: an entry is mounted into a directory, or a data block
number is taken from the data map. -/
inductive Note : Type
  | entry (e : DictioryContent)
  | block (number : ℤ)

/-- The functions of `fs.c`, as programs over the virtual disk. -/
abbrev Fs := Prog Block Note

/-! ### Constants -/

/-- `-ENOENT`. -/
def negENOENT : ℤ := -2

/-- `-ENOSPC`. -/
def negENOSPC : ℤ := -28

/-- `DIRMODE`: `S_IFDIR|0755`. -/
def dirMode : BitVec 32 := 0x41ED

/-- `REGMODE`: `S_IFREG|0644`. -/
def regMode : BitVec 32 := 0x81A4

/-- `Main_Direct_Inode_Position`: the root directory's inode number. -/
def mainDirectInodePosition : ℤ := 4

/-- The character `'/'`. -/
def slash : Byte := 47

/-! ### Integers and characters -/

/-- The conversion of an integer to `int`. -/
def cInt (x : ℤ) : ℤ := x.bmod (2 ^ 32)

/-- The integer promotion of a `char`. -/
def Env.promote (env : Env) (c : Byte) : BitVec 32 :=
  if env.charSigned then c.signExtend 32 else c.setWidth 32

/-- `get_min`. -/
def getMin (a b : ℤ) : ℤ := if a > b then b else a

/-! ### Device calls -/

/-- `disk_read(id, buffer)`: a refused read leaves the buffer as it was. -/
def diskRead (id : ℤ) (buffer : Block) : Fs Block :=
  .read id fun r => .ret (r.getD buffer)

/-- `disk_write(id, buffer)`. -/
def diskWrite (id : ℤ) (buffer : Block) : Fs Unit :=
  .write id buffer (.ret ())

/-- `disk_read` into an uninitialised local buffer. -/
def Env.read (env : Env) (id : ℤ) : Fs Block := diskRead id (env.stack id)

/-! ### Strings in memory -/

/-- A C string in memory: its characters, the terminating NUL, and the bytes that lie
behind the NUL. -/
structure CString where
  chars : List Byte
  noNul : ∀ c ∈ chars, c ≠ 0
  behind : ℕ → Byte

/-- `path[i]`. -/
def CString.get (s : CString) (i : ℕ) : Byte :=
  if i < s.chars.length then s.chars.getD i 0
  else if i = s.chars.length then 0 else s.behind (i - s.chars.length - 1)

/-- `while (get[i] != '/') i--`, the backward scan for a separator that ends four functions'
split of their path; it never ends in memory that holds no separator at or before `i`. -/
def lastSlash (get : ℕ → Byte) : ℕ → Option ℕ
  | 0 => if get 0 = slash then some 0 else none
  | i + 1 => if get (i + 1) = slash then some (i + 1) else lastSlash get i

/-- A zero-initialised `char` array of 30 bytes with some characters copied into it. -/
def padTo30 (name : List Byte) : Fin 30 → Byte := fun i => name.getD i 0

/-- The first 28 bytes of a 30-byte name buffer, as they are copied into an entry. -/
def fileNameOf (name : Fin 30 → Byte) : FileName := fun i => name (i.castLE (by omega))

end InodeFs
