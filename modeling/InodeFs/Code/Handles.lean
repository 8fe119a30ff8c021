import InodeFs.Code.Lookup

/-!
# Times and handles

`fs_utime` and the callbacks around an open file or directory. The file system keeps nothing in
the `fuse_file_info` it is handed, so these take a path only.

`fs_utime` reads the record, sets `ctime` alone, and hands `atime` and the new `ctime` back through
the buffer it was given; the times that the kernel asks for are not looked at. `fs_open` walks to
the path and reads the record it finds, and the three others return 0 at once.
-/

namespace InodeFs

variable (env : Env)

/-- `struct utimbuf`. -/
structure Utimbuf where
  actime : BitVec 64
  modtime : BitVec 64

/-- `fs_utime`: the return value and the structure `buffer` points to. The times it holds are not
read; it is filled from the record, whose `ctime` alone is set. -/
def fsUtime (path : CString) : Fs (ℤ × Utimbuf) := do
  let inodeNumber ← understandThePath env path.chars
  let (index, diskId) := inodeFindDiskIdAndIndexInDisk inodeNumber
  let bufferInode ← readINodes env diskId
  let x ← Prog.index bufferInode index
  let x := { x with ctime := env.time 0 }
  let bufferInode ← Prog.assign bufferInode index x
  writeINodes diskId bufferInode
  pure (0, ⟨x.atime, x.ctime⟩)

/-- `fs_open`, which looks the path up and leaves it at that. -/
def fsOpen (path : CString) : Fs ℤ := do
  let iNodeNumber ← understandThePath env path.chars
  let _ ← justReadInodeFromDisk env iNodeNumber
  pure 0

/-- `fs_release`. -/
def fsRelease (_path : CString) : Fs ℤ := pure 0

/-- `fs_opendir`. -/
def fsOpendir (_path : CString) : Fs ℤ := pure 0

/-- `fs_releasedir`. -/
def fsReleasedir (_path : CString) : Fs ℤ := pure 0

end InodeFs
