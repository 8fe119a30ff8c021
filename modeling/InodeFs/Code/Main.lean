import InodeFs.Code.File
import InodeFs.Code.Handles
import InodeFs.Code.Remove
import InodeFs.Code.Statfs

/-!
# The process

`main` up to the point where it hands over to `fuse_main`, and the table of callbacks that
`fuse_main` is given. `disk_init` opens its files itself; what `fopen` does on them is a parameter.

`main` and `disk_init` are translated with every way in which they end: no file `fuse~`, a word in
it that is too short or too long for the array of the block's path, a block file that cannot be
opened. Only where none of these happens is the disk formatted and handed over.

`FsOperation` has one constructor for each entry of the table `fs_operations`, with the arguments
that the kernel passes and the callback uses, and `Answer` one for each kind of result. With them a
request is served by one function, whatever it asks for.
-/

namespace InodeFs

/-! ### Starting -/

/-- The loop over `i` of `disk_init`, with `blocks` iterations left; `opens i` says whether the
file of block `i` can be opened for writing. Its name, `disk_prefix` of `length` characters and the
number `i`, is put together in an array of 256. -/
def diskInitLoop (length : ℕ) (opens : ℕ → Bool) : ℕ → ℕ → Fs ℤ
  | 0, _ => pure 0
  | blocks + 1, i =>
    if 256 < length + (Nat.toDigits 10 i).length + 1 then Prog.undefined
    else if opens i then do
      diskWrite i Block.zero
      diskInitLoop length opens blocks (i + 1)
    else pure 1

/-- `disk_init`; `fuse` is the word that `fscanf` reads from the file `fuse~`, if it can be opened.
The last 8 characters of the word are replaced by the 11 of `"vdisk/block"`, in an array of 256. -/
def diskInit (fuse : Option (List Byte)) (opens : ℕ → Bool) : Fs ℤ :=
  match fuse with
  | none => pure 1
  | some diskPrefix =>
    if diskPrefix.length < 8 ∨ 256 < diskPrefix.length - 8 + 11 + 1 then Prog.undefined
    else diskInitLoop (diskPrefix.length - 8 + 11) opens blockNum 0

/-- `main`, up to the call of `fuse_main`: the value it returns if it does not come to that. -/
def main (env : Env) (behind : Fin 27 → Byte) (fuse : Option (List Byte)) (opens : ℕ → Bool) :
    Fs (Option ℤ) := do
  let r ← diskInit fuse opens
  if r ≠ 0 then pure (some (-1))
  else do
    let r ← mkfs env behind
    if r ≠ 0 then pure (some (-2)) else pure none

/-! ### The callbacks -/

/-- A call of a member of `fs_operations`, with those of its arguments that are used. -/
inductive FsOperation : Type
  | getattr (path : CString)
  | readdir (path : CString)
  | read (path : CString) (buffer : ℕ → Byte) (size offset : ℕ)
  | mkdir (path : CString)
  | rmdir (path : CString)
  | unlink (path : CString)
  | rename (oldpath newname : CString)
  | truncate (path : CString) (size : ℤ)
  | utime (path : CString)
  | mknod (path : CString)
  | write (path : CString) (buffer : ℕ → Byte) (size offset : ℕ)
  | statfs
  | openFile (path : CString)
  | release (path : CString)
  | opendir (path : CString)
  | releasedir (path : CString)

/-- What a callback hands back: its value, and the memory it was given to fill. -/
inductive Answer : Type
  | code (r : ℤ)
  | attributes (r : ℤ) (attr : Stat)
  | listing (r : ℤ) (names : List (List Byte))
  | bytes (r : ℤ) (buffer : ℕ → Byte)
  | times (r : ℤ) (buffer : Utimbuf)
  | statistics (r : ℤ) (stat : Statvfs)

/-- `fs_operations`. -/
def FsOperation.prog (env : Env) : FsOperation → Fs Answer
  | getattr path => do let (r, attr) ← fsGetattr env path; pure (.attributes r attr)
  | readdir path => do let (r, names) ← fsReaddir env path; pure (.listing r names)
  | read path buffer size offset => do
    let (r, buffer) ← fsRead env path buffer size offset
    pure (.bytes r buffer)
  | mkdir path => do let r ← fsMkdir env path; pure (.code r)
  | rmdir path => do let r ← fsRmdir env path; pure (.code r)
  | unlink path => do let r ← fsUnlink env path; pure (.code r)
  | rename oldpath newname => do let r ← fsRename env oldpath newname; pure (.code r)
  | truncate path size => do let r ← fsTruncate env path size; pure (.code r)
  | utime path => do let (r, buffer) ← fsUtime env path; pure (.times r buffer)
  | mknod path => do let r ← fsMknod env path; pure (.code r)
  | write path buffer size offset => do
    let r ← fsWrite env path buffer size offset
    pure (.code r)
  | statfs => do let (r, stat) ← fsStatfs env; pure (.statistics r stat)
  | openFile path => do let r ← fsOpen env path; pure (.code r)
  | release path => do let r ← fsRelease path; pure (.code r)
  | opendir path => do let r ← fsOpendir path; pure (.code r)
  | releasedir path => do let r ← fsReleasedir path; pure (.code r)

end InodeFs
