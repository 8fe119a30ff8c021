import InodeFs.Lib.NameGraph
import InodeFs.Disk.RecordExec

/-!
# Directories and names

A directory is an inode with `DIRMODE`; entry `j` of its `st_size / 32` entries is slot
`j % 128` of the block at rank `j / 128`. Read this way the disk is a naming graph
(`Disk.graph`) on inode numbers, in which the absolute paths are resolved from the root, inode 4.

A `Name` is a path component the file system was made for: 1 to 24 bytes (the `f_namemax` of
`fs_statfs`) without separator and NUL. It fits into the 28 name bytes of an entry with a NUL
behind it, so no two names look alike there (`Name.fileName_injective`).

`Disk.entriesOf` lists the entries of a record, whether it is the one on the disk or one that a
request has in its memory; the graph takes them as edges, with the name bytes as they are stored.
Two disks have the same graph where they have the same records and the blocks of directories hold
the same.

A path is joined from its names with a separator before each (`pathChars`), as the kernel passes it,
and lies in memory with a NUL behind it and anything behind that (`pathString`).
-/

namespace InodeFs

/-! ### Names and paths -/

/-- A **name**: a path component of 1 to 24 bytes. -/
structure Name where
  chars : List Byte
  ne_nil : chars ≠ []
  length_le : chars.length ≤ 24
  noSlash : ∀ c ∈ chars, c ≠ slash
  noNul : ∀ c ∈ chars, c ≠ 0

namespace Name

/-- A name is its characters. -/
@[ext]
theorem ext {a b : Name} (h : a.chars = b.chars) : a = b := by
  cases a; cases b; cases h; rfl

instance : DecidableEq Name := fun a b => decidable_of_iff (a.chars = b.chars) ⟨ext, congrArg _⟩

/-- The name as the name bytes of a directory entry. -/
def fileName (a : Name) : FileName := fun i => a.chars.getD i 0

/-- Behind the characters the field is filled with NULs. -/
theorem fileName_ne_zero_iff (a : Name) (i : Fin 28) :
    a.fileName i ≠ 0 ↔ i.val < a.chars.length := by
  rw [fileName, List.getD_eq_getElem?_getD]
  constructor
  · intro h
    by_contra hi
    exact h (by rw [List.getElem?_eq_none (Nat.le_of_not_lt hi), Option.getD_none])
  · intro h
    rw [List.getElem?_eq_getElem h, Option.getD_some]
    exact a.noNul _ (List.getElem_mem h)

/-- Different names are stored differently. -/
theorem fileName_injective : Function.Injective fileName := by
  intro a b h
  have hlt (i : ℕ) (hi : i < 28) : i < a.chars.length ↔ i < b.chars.length := by
    rw [← a.fileName_ne_zero_iff ⟨i, hi⟩, ← b.fileName_ne_zero_iff ⟨i, hi⟩, h]
  have ha := a.length_le
  have hb := b.length_le
  have hlen : a.chars.length = b.chars.length := by
    have h1 := hlt a.chars.length (by omega)
    have h2 := hlt b.chars.length (by omega)
    omega
  refine ext (List.ext_getElem hlen fun i hi hi' => ?_)
  have hbyte := congrFun h ⟨i, by omega⟩
  simpa [fileName, List.getD_eq_getElem?_getD, hi, hi'] using hbyte

/-- What `fs_mknod` and `fs_mkdir` copy into an entry. -/
theorem fileNameOf_padTo30 (a : Name) : fileNameOf (padTo30 a.chars) = a.fileName := rfl

end Name

/-- The components of a path, each behind its separator. -/
def joinNames (as : List Name) : List Byte := as.flatMap fun a => slash :: a.chars

/-- The characters of an absolute path. -/
def pathChars (as : List Name) : List Byte := if as = [] then [slash] else joinNames as

@[simp] theorem joinNames_nil : joinNames [] = [] := rfl

@[simp] theorem joinNames_cons (a : Name) (as : List Name) :
    joinNames (a :: as) = slash :: (a.chars ++ joinNames as) := rfl

/-- Paths are joined name by name. -/
theorem joinNames_append (as bs : List Name) :
    joinNames (as ++ bs) = joinNames as ++ joinNames bs := List.flatMap_append

@[simp] theorem pathChars_nil : pathChars [] = [slash] := rfl

theorem pathChars_of_ne_nil {as : List Name} (h : as ≠ []) : pathChars as = joinNames as :=
  if_neg h

/-- The last component comes behind a slash. -/
theorem pathChars_concat (as : List Name) (a : Name) :
    pathChars (as ++ [a]) = joinNames as ++ slash :: a.chars := by
  rw [pathChars_of_ne_nil (by simp), joinNames_append]
  simp

/-- A path has no NUL inside. -/
theorem joinNames_noNul (as : List Name) : ∀ c ∈ joinNames as, c ≠ 0 := by
  intro c hc
  obtain ⟨a, -, hc⟩ := List.mem_flatMap.mp hc
  rcases List.mem_cons.mp hc with rfl | hc
  · decide
  · exact a.noNul c hc

/-- The string a caller passes for a path, with the bytes that follow it in memory. -/
def pathString (as : List Name) (behind : ℕ → Byte) : CString where
  chars := pathChars as
  noNul := by
    rw [pathChars]
    split
    · decide
    · exact joinNames_noNul as
  behind := behind

/-! ### Directories on the disk -/

/-- The number of entries of a directory. -/
def INode.count (x : INode) : ℕ := x.stSize.toNat / 32

/-- The number of entries as the lookup computes it. -/
theorem INode.tdiv_cInt_stSize (x : INode) (h : x.count ≤ 1536) :
    (cInt x.stSize.toInt).tdiv 32 = x.count := by
  have hsize : x.stSize.toNat < 2 ^ 31 := by unfold INode.count at h; omega
  rw [toInt_eq_natCast_long (by omega), cInt_natCast hsize, natCast_tdiv_ofNat, INode.count]

/-- The number of entries as the other functions compute it. -/
theorem INode.cInt_tdiv_stSize {x : INode} (h : x.count ≤ 1536) :
    cInt (x.stSize.toInt.tdiv 32) = x.count := by
  have hsize : x.stSize.toNat < 2 ^ 63 := by unfold INode.count at h; omega
  rw [toInt_eq_natCast_long hsize, natCast_tdiv_ofNat,
    cInt_natCast (by unfold INode.count at h; omega), INode.count]

/-- The edge a directory entry stands for. -/
def DictioryContent.edge (e : DictioryContent) : FileName × ℕ :=
  (e.fileName, e.inodeNumber.toNat)

namespace Disk

/-- Inode `p` is a directory. -/
def IsDir (d : Disk) (p : ℕ) : Prop := p < 32768 ∧ (d.inode p).stMode = dirMode

instance (d : Disk) (p : ℕ) : Decidable (d.IsDir p) := inferInstanceAs (Decidable (_ ∧ _))

/-- Entry `j` of the directory with record `x`. -/
def entryOf (d : Disk) (x : INode) (j : ℕ) : DictioryContent := (d.data (x.ptr (j / 128))).entry j

/-- The entries of the directory with record `x`, in order. -/
def entriesOf (d : Disk) (x : INode) : List DictioryContent :=
  (List.range x.count).map (d.entryOf x)

/-- The **naming graph** of the disk. -/
def graph (d : Disk) : NameGraph ℕ FileName := fun p =>
  if d.IsDir p then (d.entriesOf (d.inode p)).map DictioryContent.edge else []

@[simp] theorem length_entriesOf (d : Disk) (x : INode) : (d.entriesOf x).length = x.count := by
  simp [entriesOf]

/-- The entries are read slot by slot. -/
theorem getElem_entriesOf (d : Disk) (x : INode) {j : ℕ} (h : j < (d.entriesOf x).length) :
    (d.entriesOf x)[j] = d.entryOf x j := by
  simp [entriesOf]

/-- An entry is in one of the first `count` slots. -/
theorem mem_entriesOf {d : Disk} {x : INode} {e : DictioryContent} :
    e ∈ d.entriesOf x ↔ ∃ j < x.count, d.entryOf x j = e := by
  simp [entriesOf]

/-- An entry is read from one block through one pointer. -/
theorem entryOf_congr {d d' : Disk} {x x' : INode} {j : ℕ}
    (hptr : x'.ptr (j / 128) = x.ptr (j / 128))
    (hdata : d'.data (x.ptr (j / 128)) = d.data (x.ptr (j / 128))) :
    d'.entryOf x' j = d.entryOf x j := by
  rw [entryOf, entryOf, hptr, hdata]

/-- Two records show the same entries where they show the same slots. -/
theorem entriesOf_congr {d d' : Disk} {x x' : INode} (hcount : x'.count = x.count)
    (h : ∀ j < x.count, d'.entryOf x' j = d.entryOf x j) : d'.entriesOf x' = d.entriesOf x := by
  rw [entriesOf, entriesOf, hcount]
  exact List.map_congr_left fun j hj => h j (List.mem_range.mp hj)

/-- One entry more at the end. -/
theorem entriesOf_append {d d' : Disk} {x x' : INode} (hcount : x'.count = x.count + 1)
    (h : ∀ j < x.count, d'.entryOf x' j = d.entryOf x j) :
    d'.entriesOf x' = d.entriesOf x ++ [d'.entryOf x' x.count] := by
  rw [entriesOf, entriesOf, hcount, List.range_succ, List.map_append, List.map_singleton]
  exact congrArg (· ++ _) (List.map_congr_left fun j hj => h j (List.mem_range.mp hj))

/-- The edges of a directory are its entries, in order. -/
theorem graph_of_isDir {d : Disk} {p : ℕ} (h : d.IsDir p) :
    d.graph p = (d.entriesOf (d.inode p)).map DictioryContent.edge := if_pos h

/-- A directory has as many edges as entries. -/
theorem length_graph {d : Disk} {p : ℕ} (h : d.IsDir p) :
    (d.graph p).length = (d.inode p).count := by
  rw [graph_of_isDir h, List.length_map, length_entriesOf]

theorem graph_of_not_isDir {d : Disk} {p : ℕ} (h : ¬ d.IsDir p) : d.graph p = [] := if_neg h

/-- Only directories have edges. -/
theorem isDir_of_mem_graph {d : Disk} {p : ℕ} {e : FileName × ℕ} (h : e ∈ d.graph p) :
    d.IsDir p := by
  by_contra hp
  rw [graph_of_not_isDir hp] at h
  cases h

/-- An edge is an entry of a directory. -/
theorem mem_graph {d : Disk} {p : ℕ} {e : FileName × ℕ} :
    e ∈ d.graph p ↔
      d.IsDir p ∧ ∃ j < (d.inode p).count, (d.entryOf (d.inode p) j).edge = e := by
  constructor
  · intro h
    have hp := isDir_of_mem_graph h
    rw [graph_of_isDir hp] at h
    obtain ⟨f, hf, rfl⟩ := List.mem_map.mp h
    obtain ⟨j, hj, rfl⟩ := mem_entriesOf.mp hf
    exact ⟨hp, j, hj, rfl⟩
  · rintro ⟨hp, j, hj, rfl⟩
    rw [graph_of_isDir hp]
    exact List.mem_map_of_mem (mem_entriesOf.mpr ⟨j, hj, rfl⟩)

/-- The graph of a disk is read from the kinds and the entries of its directories. -/
theorem graph_congr {d d' : Disk} {p : ℕ} (hdir : d'.IsDir p ↔ d.IsDir p)
    (h : d.IsDir p → d'.entriesOf (d'.inode p) = d.entriesOf (d.inode p)) :
    d'.graph p = d.graph p := by
  by_cases hp : d.IsDir p
  · rw [graph_of_isDir hp, graph_of_isDir (hdir.mpr hp), h hp]
  · rw [graph_of_not_isDir hp, graph_of_not_isDir fun hp' => hp (hdir.mp hp')]

/-- A lookup in the graph is the search for the first entry with the name. -/
theorem lookup_graph {d : Disk} {p : ℕ} (hp : d.IsDir p) (a : FileName) :
    d.graph.lookup p a =
      ((d.entriesOf (d.inode p)).find? fun e => e.fileName = a).map fun e =>
        e.inodeNumber.toNat := by
  rw [NameGraph.lookup, graph_of_isDir hp, List.find?_map, Option.map_map]
  rfl

/-- Where a name is found there is a directory. -/
theorem isDir_of_lookup {d : Disk} {p i : ℕ} {a : FileName} (h : d.graph.lookup p a = some i) :
    d.IsDir p := isDir_of_mem_graph (NameGraph.mem_of_lookup h)

end Disk

end InodeFs
