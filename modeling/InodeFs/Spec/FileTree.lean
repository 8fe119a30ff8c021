import InodeFs.Code.Lookup
import InodeFs.Disk.Directory
import InodeFs.Lib.PathTree
import Mathlib.Data.Set.Card

/-!
# The abstract file tree

What the file system is for, without blocks, maps and inode numbers: a path leads to a node, which
is a directory or a file with its bytes, and has an owner and three times. A directory has no list
of its own; its children are the paths one component longer that lead somewhere.

A `FileTree` is a path tree of nodes, that is, a function from paths to nodes; it has no invariant
but what the operations of `InodeFs.Lib.PathTree` give it. The size that `fs_getattr` reports is
computed (`FileTree.size`): 32 bytes for each child of a directory, and the length of a file. So a
creation does not have to count anything.

The times of a node are the two that the calls of the source set; the access time is set once, when
the node is made.
-/

namespace InodeFs

/-- What a node has besides its contents. -/
structure Attributes where
  uid : BitVec 32
  gid : BitVec 32
  atime : BitVec 64
  mtime : BitVec 64
  ctime : BitVec 64

/-- What a node is: a directory, or a file with its bytes. -/
inductive Contents : Type
  | directory
  | file (bytes : List Byte)

/-- `st_mode`. -/
def Contents.mode : Contents → BitVec 32
  | directory => dirMode
  | file _ => regMode

/-- A **node**. -/
structure Node where
  attributes : Attributes
  contents : Contents

namespace Node

/-- A node made now. -/
def fresh (env : Env) (contents : Contents) : Node :=
  ⟨⟨env.uid, env.gid, env.time 0, env.time 1, env.time 2⟩, contents⟩

/-- A directory in which an entry was made or removed. -/
def stamped (mtime ctime : BitVec 64) (x : Node) : Node :=
  { x with attributes := { x.attributes with mtime := mtime, ctime := ctime } }

/-- A node whose times were asked for. -/
def touched (ctime : BitVec 64) (x : Node) : Node :=
  { x with attributes := { x.attributes with ctime := ctime } }

/-- A file with other bytes. -/
def withBytes (bytes : List Byte) (x : Node) : Node := { x with contents := .file bytes }

end Node

/-- A **file tree**. -/
abbrev FileTree := PathTree Name Node

namespace FileTree

variable (t : FileTree)

/-- The names in the directory at a path. -/
def children (as : List Name) : Set Name := {a | t (as ++ [a]) ≠ none}

/-- The path leads to a directory. -/
def IsDirectory (as : List Name) : Prop := ∃ x, t as = some x ∧ x.contents = .directory

/-- The path leads to a file with these bytes. -/
def HasBytes (as : List Name) (bytes : List Byte) : Prop :=
  ∃ x, t as = some x ∧ x.contents = .file bytes

/-- The size of a node: 32 bytes for each name, or the number of bytes. -/
noncomputable def size (as : List Name) (x : Node) : ℕ :=
  match x.contents with
  | .directory => 32 * (t.children as).ncard
  | .file bytes => bytes.length

/-- The attributes of the node `x` at a path, as they are reported. -/
noncomputable def stat (as : List Name) (x : Node) : Stat where
  stMode := x.contents.mode
  stNlink := 1
  stUid := x.attributes.uid
  stGid := x.attributes.gid
  stSize := BitVec.ofNat 64 (t.size as x)
  stAtime := x.attributes.atime
  stCtime := x.attributes.ctime
  stMtime := x.attributes.mtime

variable {t} {as : List Name} {a : Name} {x : Node} {bytes : List Byte}

/-- A child is a name behind which there is something. -/
theorem mem_children : a ∈ t.children as ↔ t (as ++ [a]) ≠ none := Iff.rfl

/-- A directory has 32 bytes for every child. -/
theorem size_of_directory (h : x.contents = .directory) :
    t.size as x = 32 * (t.children as).ncard := by
  rw [size, h]

/-- A file has as many bytes as it holds. -/
theorem size_of_file (h : x.contents = .file bytes) : t.size as x = bytes.length := by
  rw [size, h]

/-- The attributes of a node depend on the tree by its names only. -/
theorem stat_congr {t' : FileTree} (h : t'.children as = t.children as) (x : Node) :
    t'.stat as x = t.stat as x := by
  rw [stat, stat, size, size, h]

/-- The tree of a file system that was just formatted: an empty root. -/
def initial (env : Env) : FileTree := fun as =>
  if as = [] then some (.fresh env .directory) else none

end FileTree

/-- The bytes of a file after a write: those before the offset are kept as far as there are any,
those written are in place, except perhaps the last one where the write ends in the block it starts
in, and the file ends where the write does. -/
structure Overwritten (old : List Byte) (buffer : ℕ → Byte) (size offset : ℕ) (new : List Byte) :
    Prop where
  length : new.length = offset + size
  before : ∀ k < offset, k < old.length → new[k]? = old[k]?
  written : ∀ k < size, 4097 - offset % 4096 ≤ size ∨ k + 1 < size →
    new[offset + k]? = some (buffer k)

/-- The bytes of a file after a change of its length. -/
structure Resized (old : List Byte) (size : ℕ) (new : List Byte) : Prop where
  length : new.length = size
  kept : ∀ k < size, k < old.length → new[k]? = old[k]?

end InodeFs
