import InodeFs.Ops.Look

/-!
# The invariant of the disk

`Disk.Sound` is what the operations keep in the states they can deal with (`Op.Safe`), stated on the
disk alone, for all 32768 inode records:

* `PointersOk`: the pointers of all records lead to existing blocks that are marked in the
  data map, no two of them to the same one except to the reserved block 0 (which stands for
  "no block"), the index pointers are unused, and the record of a free inode has no pointer.
* `DirectoriesOk`: directories are marked, within the limits of the code and have a block for
  every rank they use; regular files are of at most `limit` bytes; the naming graph is proper, and
  its edges are named by names and lead to marked inodes.
* block 0 holds zeros.

The limit is that of the `12 + 512` blocks that `fs_read` can address (its buffer for the first
index block is half filled), unless another one is given. The steps keep the invariant for any: what
they store does not depend on how much of a file can be read.

Nothing is said about bits that are set without need: the invariant is about what is in use
and never about what leaked.
-/

namespace InodeFs

namespace Disk

/-- The pointers of the inode table. -/
structure PointersOk (d : Disk) : Prop where
  lt : ∀ i < 32768, ∀ r, (d.inode i).ptr r < 64508
  marked : ∀ i < 32768, ∀ r, (d.inode i).ptr r ≠ 0 → d.dmap ((d.inode i).ptr r) = true
  inj : ∀ i < 32768, ∀ j < 32768, ∀ r s, (d.inode i).ptr r ≠ 0 →
    (d.inode i).ptr r = (d.inode j).ptr s → i = j ∧ r = s
  indirect : ∀ i < 32768, ∀ k, (d.inode i).indirectPointer k = 0
  fresh : ∀ i < 32768, d.imap i = false → ∀ r, (d.inode i).ptr r = 0
  reserved : ∀ b < 4, d.dmap b = true

/-- One directory: marked, a whole number of entries, at most `128 * 12`, and a block for every
rank that holds one. -/
structure DirOk (d : Disk) (p : ℕ) : Prop where
  marked : d.imap p = true
  size_eq : (d.inode p).stSize.toNat = 32 * (d.inode p).count
  count_le : (d.inode p).count ≤ 1536
  block : ∀ r, 128 * r < (d.inode p).count → (d.inode p).ptr r ≠ 0

/-- The naming graph. -/
structure GraphOk (d : Disk) : Prop where
  proper : d.graph.Proper 4
  target_lt : ∀ p e, e ∈ d.graph p → e.2 < 32768
  target_marked : ∀ p e, e ∈ d.graph p → d.imap e.2 = true
  named : ∀ p e, e ∈ d.graph p → ∃ a : Name, a.fileName = e.1

/-- The directories, and the regular files of at most `limit` bytes. -/
structure DirectoriesOk (d : Disk) (limit : ℕ := 2146304) : Prop where
  root : d.IsDir 4
  dir : ∀ p, d.IsDir p → d.DirOk p
  file : ∀ i < 32768, ¬ d.IsDir i → (d.inode i).stSize.toNat ≤ limit
  graph : d.GraphOk

/-- **The invariant**, for regular files of at most `limit` bytes. -/
structure Sound (d : Disk) (limit : ℕ := 2146304) : Prop where
  pointers : d.PointersOk
  directories : d.DirectoriesOk limit
  zero : d.data 0 = Block.zero

variable {d d' : Disk} {limit : ℕ}

/-- A larger limit asks for less. -/
theorem Sound.mono {limit' : ℕ} (h : d.Sound limit) (hle : limit ≤ limit') : d.Sound limit' where
  pointers := h.pointers
  directories := ⟨h.directories.root, h.directories.dir,
    fun i hi hnot => (h.directories.file i hi hnot).trans hle, h.directories.graph⟩
  zero := h.zero

theorem Sound.walkable (h : d.Sound limit) : d.Walkable where
  count_le p hp := (h.directories.dir p hp).count_le
  ptr_lt p hp r _ := h.pointers.lt p hp.1 r
  number_lt := h.directories.graph.target_lt

/-- Other inodes' blocks are other blocks. -/
theorem PointersOk.ptr_ne (h : d.PointersOk) {i j r s : ℕ} (hi : i < 32768) (hj : j < 32768)
    (hij : i ≠ j) (hr : (d.inode i).ptr r ≠ 0) : (d.inode j).ptr s ≠ (d.inode i).ptr r :=
  fun heq => hij (h.inj i hi j hj r s hr heq.symm).1

/-- A free block is nobody's. -/
theorem PointersOk.ptr_ne_of_free (h : d.PointersOk) {i r b : ℕ} (hi : i < 32768)
    (hb : d.dmap b = false) : (d.inode i).ptr r ≠ b := by
  rintro rfl
  by_cases h0 : (d.inode i).ptr r = 0
  · rw [h0, h.reserved 0 (by decide)] at hb
    cases hb
  · rw [h.marked i hi r h0] at hb
    cases hb

theorem PointersOk.ne_zero_of_free (h : d.PointersOk) {b : ℕ} (hb : d.dmap b = false) : b ≠ 0 := by
  rintro rfl
  rw [h.reserved 0 (by decide)] at hb
  cases hb

/-! ### What the parts of the invariant depend on -/

/-- The pointers are fine as long as no record changes its own and no bit is cleared. -/
theorem PointersOk.congr (h : d.PointersOk)
    (hptr : ∀ i < 32768, ∀ r, (d'.inode i).ptr r = (d.inode i).ptr r)
    (hindirect : ∀ i < 32768, (d'.inode i).indirectPointer = (d.inode i).indirectPointer)
    (himap : ∀ i < 32768, d.imap i = true → d'.imap i = true)
    (hdmap : ∀ b < 65536, d.dmap b = true → d'.dmap b = true) : d'.PointersOk where
  lt i hi r := by rw [hptr i hi]; exact h.lt i hi r
  marked i hi r hr := by
    rw [hptr i hi] at hr ⊢
    have hlt := h.lt i hi r
    exact hdmap _ (by omega) (h.marked i hi r hr)
  inj i hi j hj r s hr heq := by
    rw [hptr i hi] at hr heq
    rw [hptr j hj] at heq
    exact h.inj i hi j hj r s hr heq
  indirect i hi k := by rw [hindirect i hi]; exact h.indirect i hi k
  fresh i hi hfree r := by
    rw [hptr i hi]
    refine h.fresh i hi ?_ r
    by_contra hset
    rw [himap i hi (by simpa using hset)] at hfree
    cases hfree
  reserved b hb := hdmap b (by omega) (h.reserved b hb)

theorem GraphOk.congr (h : d.GraphOk) (hgraph : d'.graph = d.graph)
    (himap : ∀ i < 32768, d.imap i = true → d'.imap i = true) : d'.GraphOk where
  proper := hgraph ▸ h.proper
  target_lt := hgraph ▸ h.target_lt
  target_marked p e he := by
    rw [hgraph] at he
    exact himap _ (h.target_lt p e he) (h.target_marked p e he)
  named := hgraph ▸ h.named

/-- Only inode `i` changes: it is enough to look at `i` and at the graph. -/
theorem DirectoriesOk.change (h : d.DirectoriesOk limit) {i : ℕ}
    (hinode : ∀ j < 32768, j ≠ i → d'.inode j = d.inode j)
    (himap : ∀ j < 32768, d.imap j = true → d'.imap j = true) (hroot : d'.IsDir 4)
    (hdir : d'.IsDir i → d'.DirOk i)
    (hfile : i < 32768 → ¬ d'.IsDir i → (d'.inode i).stSize.toNat ≤ limit)
    (hgraph : d'.GraphOk) : d'.DirectoriesOk limit where
  root := hroot
  dir p hp := by
    by_cases hpi : p = i
    · exact hpi ▸ hdir (hpi ▸ hp)
    · have hp' : d.IsDir p := ⟨hp.1, by rw [← hinode p hp.1 hpi]; exact hp.2⟩
      have hok := h.dir p hp'
      have heq := hinode p hp.1 hpi
      exact ⟨himap p hp.1 hok.marked, by rw [heq]; exact hok.size_eq,
        by rw [heq]; exact hok.count_le, by rw [heq]; exact hok.block⟩
  file j hj hnot := by
    by_cases hji : j = i
    · exact hji ▸ hfile (hji ▸ hj) (hji ▸ hnot)
    · rw [hinode j hj hji]
      exact h.file j hj fun hd => hnot ⟨hj, by rw [hinode j hj hji]; exact hd.2⟩
  graph := hgraph

/-- The entries of a directory are read from the blocks of its ranks. -/
theorem entriesOf_eq_of_blocks {x x' : INode} (hcount : x'.count = x.count)
    (hptr : ∀ r, 128 * r < x.count → x'.ptr r = x.ptr r)
    (hdata : ∀ r, 128 * r < x.count → d'.data (x.ptr r) = d.data (x.ptr r)) :
    d'.entriesOf x' = d.entriesOf x :=
  entriesOf_congr hcount fun j hj =>
    entryOf_congr (hptr _ (by omega)) (hdata _ (by omega))

/-- A change of inode `i` and of blocks that no other directory uses leaves the listing of
every other inode alone. -/
theorem graph_eq_of_ne {i p : ℕ} (hinode : ∀ j < 32768, j ≠ i → d'.inode j = d.inode j)
    (hdata : d.IsDir p → ∀ r, 128 * r < (d.inode p).count →
      d'.data ((d.inode p).ptr r) = d.data ((d.inode p).ptr r)) (hp : p ≠ i) :
    d'.graph p = d.graph p := by
  by_cases hlt : p < 32768
  · have heq := hinode p hlt hp
    refine graph_congr ?_ fun hdir => ?_
    · rw [IsDir, IsDir, heq]
    · exact entriesOf_eq_of_blocks (by rw [heq]) (fun r _ => by rw [heq]) (hdata hdir)
  · rw [graph_of_not_isDir fun h => hlt h.1, graph_of_not_isDir fun h => hlt h.1]

end Disk

end InodeFs
