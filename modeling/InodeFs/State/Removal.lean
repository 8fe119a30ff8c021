import InodeFs.State.Steps

/-!
# Taking an entry out of a directory

`delete_file_according_to_rank` copies the last entry over the one to be removed, and its
callers write the directory's record back with a smaller size. On a directory of at most 12
entries, for which the functions that address entries by rank work, the two steps together take
one edge out of the naming graph, up to the order of the entries (`Sound.graph_removeEntry`).

In between the directory has the last entry twice, in two slots, and still has its old size. The
disk after the first step alone, `Disk.overwriteEntry`, is not sound, since two edges lead to one
inode; but paths are still found on it (`Sound.walkable_overwriteEntry`), and this is all that the
rest of `fs_rename` needs, which walks to the other directory on this disk.

A removal gives nothing back, and the record of the inode stays as it is. On the disk it leaves,
`Disk.removeEntry`, the maps are those of before (`imap_removeEntry`, `dmap_removeEntry`).

From 13 entries on the functions by rank miss the last entry, and what they copy is no entry of the
directory. This is treated in `InodeFs.Ops.Release`, where the entry of a rank is computed for every
rank, and in `InodeFs.Properties.Entries`.
-/

namespace InodeFs

/-- A list of values whose `k`-th is replaced by the last, which is dropped. -/
theorem perm_eraseIdx_range {α : Type} (f : ℕ → α) {n k : ℕ} (hk : k ≤ n) :
    ((List.range n).map fun j => if j = k then f n else f j).Perm
      (((List.range (n + 1)).map f).eraseIdx k) := by
  rw [List.range_succ, List.map_append]
  by_cases hlast : k = n
  · subst hlast
    rw [List.eraseIdx_append_of_length_le (by simp)]
    refine List.Perm.of_eq ?_
    simp only [List.length_map, List.length_range, Nat.sub_self, List.map_singleton,
      List.eraseIdx_cons_zero, List.append_nil]
    refine List.map_congr_left fun j hj => if_neg ?_
    rw [List.mem_range] at hj
    omega
  · have hlt : k < ((List.range n).map f).length := by
      rw [List.length_map, List.length_range]
      omega
    have hset : ((List.range n).map fun j => if j = k then f n else f j) =
        ((List.range n).map f).set k (f n) := by
      refine List.ext_getElem (by simp) fun j hj hj' => ?_
      rw [List.getElem_set, List.getElem_map, List.getElem_map, List.getElem_range]
      simp only [eq_comm]
    rw [hset, List.eraseIdx_append_of_lt_length hlt]
    exact (List.set_perm_cons_eraseIdx hlt (f n)).trans (List.perm_append_singleton (f n) _).symm

namespace Disk

variable {d : Disk} {p k limit : ℕ} {y : INode}

/-- The last entry of directory `p` copied over entry `k`. -/
def overwriteEntry (d : Disk) (p k : ℕ) : Disk :=
  d.setData ((d.inode p).ptr 0) ((d.data ((d.inode p).ptr 0)).setEntry k
    (d.entryOf (d.inode p) ((d.inode p).count - 1)))

/-- Entry `k` taken out of directory `p`, whose record becomes `y`. -/
def removeEntry (d : Disk) (p k : ℕ) (y : INode) : Disk := (d.overwriteEntry p k).setInode p y

/-- Overwriting an entry touches no record. -/
theorem inode_overwriteEntry {j : ℕ} (hj : j < 32768) :
    (d.overwriteEntry p k).inode j = d.inode j := inode_setData hj _ _

@[simp] theorem imap_overwriteEntry (j : ℕ) : (d.overwriteEntry p k).imap j = d.imap j :=
  imap_setData _ _ _

@[simp] theorem dmap_overwriteEntry (b : ℕ) : (d.overwriteEntry p k).dmap b = d.dmap b :=
  dmap_setData _ _ _

/-- The record of the directory is the only one that is replaced. -/
theorem inode_removeEntry {j : ℕ} (hj : j < 32768) :
    (d.removeEntry p k y).inode j = if j = p then y else d.inode j := by
  rw [removeEntry, inode_setInode, inode_overwriteEntry hj]

@[simp] theorem imap_removeEntry (j : ℕ) : (d.removeEntry p k y).imap j = d.imap j := by
  rw [removeEntry, imap_setInode, imap_overwriteEntry]

@[simp] theorem dmap_removeEntry (b : ℕ) : (d.removeEntry p k y).dmap b = d.dmap b := by
  rw [removeEntry, dmap_setInode, dmap_overwriteEntry]

/-- The removal writes the block in which the entry is overwritten. -/
theorem data_removeEntry (hp : p < 32768) (b : ℕ) :
    (d.removeEntry p k y).data b = (d.overwriteEntry p k).data b := by
  rw [removeEntry, data_setInode hp]

/-- Only the first block of the directory is written. -/
theorem data_overwriteEntry_of_ne {b : ℕ} (hb : b ≠ (d.inode p).ptr 0) :
    (d.overwriteEntry p k).data b = d.data b := by
  rw [overwriteEntry, data_setData, if_neg hb]

/-- The first block holds all entries that can be addressed by rank. -/
theorem entryOf_overwriteEntry (hcount : (d.inode p).count ≤ 12) (hk : k < (d.inode p).count)
    {x : INode} (hx : x.ptr 0 = (d.inode p).ptr 0) {j : ℕ} (hj : j < (d.inode p).count) :
    (d.overwriteEntry p k).entryOf x j =
      if j = k then d.entryOf (d.inode p) ((d.inode p).count - 1) else d.entryOf (d.inode p) j := by
  have hj0 : j / 128 = 0 := by omega
  have hjm : j % 128 = j := by omega
  have hkm : k % 128 = k := by omega
  rw [entryOf, hj0, hx, overwriteEntry, data_setData_self, Block.entry_setEntry, hjm, hkm]
  split
  · rfl
  · rw [entryOf, hj0]

section Remove

variable (h : d.Sound limit) (hp : d.IsDir p) (hcount : (d.inode p).count ≤ 12)
  (hk : k < (d.inode p).count)
include h hp hcount hk

omit hcount in
/-- A directory with entries has a first block. -/
theorem Sound.ptr_zero_ne : (d.inode p).ptr 0 ≠ 0 :=
  (h.directories.dir p hp).block 0 (by omega)

omit hcount in
/-- The other directories keep their names. -/
theorem Sound.graph_removeEntry_of_ne {q : ℕ} (hq : q ≠ p) :
    (d.removeEntry p k y).graph q = d.graph q := by
  refine graph_eq_of_ne (fun j hj hjp => by rw [inode_removeEntry hj, if_neg hjp])
    (fun hdir s _ => ?_) hq
  rw [data_removeEntry hp.1, data_overwriteEntry_of_ne
    (h.pointers.ptr_ne hp.1 hdir.1 hq.symm (h.ptr_zero_ne hp hk))]

/-- **Removing an entry** takes one edge out of the naming graph. -/
theorem Sound.graph_removeEntry (hy : (d.inode p).SameBlocks y)
    (hsize : y.count + 1 = (d.inode p).count) :
    (d.removeEntry p k y).graph.Similar
      (d.graph.remove p (d.entryOf (d.inode p) k).edge) := by
  intro q
  rw [NameGraph.remove_apply]
  split
  · next hq =>
    subst hq
    have hdir : (d.removeEntry q k y).IsDir q :=
      (isDir_replace (fun j hj => inode_removeEntry hj) hy).mpr hp
    have hentry (j : ℕ) (hj : j < y.count) : ((d.removeEntry q k y).entryOf y j).edge =
        if j = k then (d.entryOf (d.inode q) y.count).edge
        else (d.entryOf (d.inode q) j).edge := by
      have hlast : (d.inode q).count - 1 = y.count := by omega
      rw [entryOf_congr (d := d.overwriteEntry q k) rfl (data_removeEntry hp.1 _),
        entryOf_overwriteEntry hcount hk (hy.ptr 0) (by omega), hlast]
      split <;> rfl
    have hlen : k < (d.graph q).length := by rw [length_graph hp]; exact hk
    have hgraph : d.graph q =
        (List.range (y.count + 1)).map fun j => (d.entryOf (d.inode q) j).edge := by
      rw [graph_of_isDir hp, entriesOf, hsize, List.map_map]
      rfl
    have hkth : (d.entryOf (d.inode q) k).edge = (d.graph q)[k] := by
      simp [hgraph]
    have hnew : (d.removeEntry q k y).graph q = (List.range y.count).map fun j =>
        if j = k then (d.entryOf (d.inode q) y.count).edge
        else (d.entryOf (d.inode q) j).edge := by
      rw [graph_of_isDir hdir, inode_removeEntry hp.1, if_pos rfl, entriesOf, List.map_map]
      exact List.map_congr_left fun j hj => hentry j (List.mem_range.mp hj)
    rw [hkth]
    -- overwriting with the last entry and shrinking erases one element, up to the order
    refine List.Perm.trans ?_ (List.erase_getElem hlen).symm
    rw [hnew, hgraph]
    exact perm_eraseIdx_range (fun j => (d.entryOf (d.inode q) j).edge) (by omega)
  · next hq => rw [h.graph_removeEntry_of_ne hp hk hq]

/-- Removing an entry keeps the invariant. -/
theorem Sound.removeEntry (hy : (d.inode p).SameBlocks y)
    (hsize : y.stSize.toNat + 32 = (d.inode p).stSize.toNat) :
    (d.removeEntry p k y).Sound limit := by
  have hok := h.directories.dir p hp
  have hcount' : y.count + 1 = (d.inode p).count := by
    rw [INode.count]
    have hsize' := hok.size_eq
    omega
  have hgraph := h.graph_removeEntry hp hcount hk hy hcount'
  -- no edge is new
  have hmem (q : ℕ) (e : FileName × ℕ) (he : e ∈ (d.removeEntry p k y).graph q) : e ∈ d.graph q :=
    (h.directories.graph.proper.mem_remove.mp (hgraph.mem.mp he)).1
  have himap (j : ℕ) (_ : j < 32768) (hj : d.imap j = true) :
      (d.removeEntry p k y).imap j = true := by rwa [imap_removeEntry]
  have hinode (j : ℕ) (hj : j < 32768) : (d.removeEntry p k y).inode j =
      if j = p then y else d.inode j := inode_removeEntry hj
  refine ⟨h.pointers.replace hinode hy himap fun b _ hb => by rwa [dmap_removeEntry],
    h.directories.replace hinode hy himap (fun _ => ?_) (fun hnot => absurd hp hnot)
      ⟨(h.directories.graph.proper.remove p _).of_similar hgraph,
        fun q e he => h.directories.graph.target_lt q e (hmem q e he),
        fun q e he => himap _ (h.directories.graph.target_lt q e (hmem q e he))
          (h.directories.graph.target_marked q e (hmem q e he)),
        fun q e he => h.directories.graph.named q e (hmem q e he)⟩, ?_⟩
  · have hself : (d.removeEntry p k y).inode p = y := by rw [hinode p hp.1, if_pos rfl]
    have hsize' := hok.size_eq
    have hle := hok.count_le
    refine ⟨himap p hp.1 hok.marked, ?_, ?_, fun r hr => ?_⟩
    · rw [hself]
      omega
    · rw [hself]
      omega
    · rw [hself] at hr
      rw [hself, hy.ptr]
      exact hok.block r (by omega)
  · rw [data_removeEntry hp.1, data_overwriteEntry_of_ne (h.ptr_zero_ne hp hk).symm]
    exact h.zero

/-! #### Between the two steps -/

omit hcount in
theorem Sound.graph_overwriteEntry_of_ne {q : ℕ} (hq : q ≠ p) :
    (d.overwriteEntry p k).graph q = d.graph q := by
  refine graph_eq_of_ne (i := p) (fun j hj _ => inode_overwriteEntry hj) (fun hdir s _ => ?_) hq
  exact data_overwriteEntry_of_ne (h.pointers.ptr_ne hp.1 hdir.1 hq.symm (h.ptr_zero_ne hp hk))

omit h in
/-- The last entry is in the slot of the removed one as well, until the size shrinks. -/
theorem mem_graph_overwriteEntry_self {f : FileName × ℕ} :
    f ∈ (d.overwriteEntry p k).graph p ↔ ∃ j < (d.inode p).count,
      (if j = k then d.entryOf (d.inode p) ((d.inode p).count - 1)
        else d.entryOf (d.inode p) j).edge = f := by
  have hdir : (d.overwriteEntry p k).IsDir p :=
    ⟨hp.1, by rw [inode_overwriteEntry hp.1]; exact hp.2⟩
  rw [mem_graph, and_iff_right hdir, inode_overwriteEntry hp.1]
  refine exists_congr fun j => and_congr_right fun hj => ?_
  rw [entryOf_overwriteEntry hcount hk rfl hj]

/-- Before the record is written back the last entry is there twice, and the other one is gone. -/
theorem Sound.mem_graph_of_overwriteEntry {q : ℕ} {f : FileName × ℕ}
    (hf : f ∈ (d.overwriteEntry p k).graph q) : f ∈ d.graph q := by
  by_cases hq : q = p
  · subst hq
    obtain ⟨j, hj, rfl⟩ := (mem_graph_overwriteEntry_self hp hcount hk).mp hf
    split
    · exact mem_graph.mpr ⟨hp, _, by omega, rfl⟩
    · exact mem_graph.mpr ⟨hp, j, hj, rfl⟩
  · rwa [h.graph_overwriteEntry_of_ne hp hk hq] at hf

/-- The other names are still found. -/
theorem Sound.lookup_overwriteEntry {q j : ℕ} {b : FileName} (hl : d.graph.lookup q b = some j)
    (hne : ¬ (q = p ∧ b = (d.entryOf (d.inode p) k).fileName)) :
    (d.overwriteEntry p k).graph.lookup q b = some j := by
  refine h.directories.graph.proper.lookup_of_subset
    (fun f hf => h.mem_graph_of_overwriteEntry hp hcount hk hf) ?_
  have hmem := NameGraph.mem_of_lookup hl
  by_cases hq : q = p
  · subst hq
    obtain ⟨-, m, hm, hedge⟩ := mem_graph.mp hmem
    refine (mem_graph_overwriteEntry_self hp hcount hk).mpr ⟨m, hm, ?_⟩
    rw [if_neg fun hmk => hne ⟨rfl, ?_⟩, hedge]
    rw [← hmk]
    exact (congrArg Prod.fst hedge).symm
  · rwa [h.graph_overwriteEntry_of_ne hp hk hq]

/-- Paths are still found while an entry is there twice. -/
theorem Sound.walkable_overwriteEntry : (d.overwriteEntry p k).Walkable where
  count_le q hq := by
    rw [inode_overwriteEntry hq.1]
    exact h.walkable.count_le q ⟨hq.1, by rw [← inode_overwriteEntry hq.1]; exact hq.2⟩
  ptr_lt q hq r _ := by
    rw [inode_overwriteEntry hq.1]
    exact h.pointers.lt q hq.1 r
  number_lt q f hf := h.directories.graph.target_lt q f
    (h.mem_graph_of_overwriteEntry hp hcount hk hf)

end Remove

end Disk

end InodeFs
