import InodeFs.State.Passage
import Mathlib.Data.List.GetD

/-!
# The stages of a changing call

A changing call goes through stages `e 0`, `e 1`, ..., each a disk that what is in use is the same
as on (`Disk.Staged`): blocks and records that are still free, and the two maps, may differ. The
passage of each inode follows from what the stages have.

A writer's stages are given by a list of disks with the final disk behind them (`through`). Most
calls have one or two: up to the last write everything in use is as before, and with this write the
new record is there (`ReplacedAt`). What is written before goes to blocks that are still free, and
`Disk.Resembles` is equality up to such blocks and the maps.

`Leaves S` says that a stage changes nothing of the inodes outside `S`. It is proved for each step
of a call, and gives what all stages keep (`kept_through`), from which the passage of an inode
outside `S` follows at once, and the others are left to `Passage.of_through`.

An inode that a call makes is a case of its own. Nothing leads to it before the entry is there, and
from then on it has its final record (`Settled`), since the record is written before the entry.
-/

namespace InodeFs

/-- A block of the inode map or of the data map. -/
def MapBlock (id : ℤ) : Prop := 1 ≤ id ∧ id ≤ 3

instance (id : ℤ) : Decidable (MapBlock id) := inferInstanceAs (Decidable (_ ∧ _))

namespace Disk

/-- What is in use on `e` is the same on `s`. -/
structure Resembles (e s : Disk) : Prop where
  inode : ∀ i < 32768, e.imap i = true → s.inode i = e.inode i
  data : ∀ b < 65536, e.dmap b = true → s.data b = e.data b

/-- The disk is in stage `j` of the stages `e`. -/
abbrev Staged (e : ℕ → Disk) (j : ℕ) (s : Disk) : Prop := (e j).Resembles s

/-- What is in use on `d` is in use in all stages. -/
structure Kept (d : Disk) (e : ℕ → Disk) : Prop where
  imap : ∀ j, ∀ i < 32768, d.imap i = true → (e j).imap i = true
  dmap : ∀ j, ∀ b < 65536, d.dmap b = true → (e j).dmap b = true

/-! ### Resemblance -/

section Resembles

variable {e s : Disk}

theorem Resembles.refl (e : Disk) : e.Resembles e := ⟨fun _ _ _ => rfl, fun _ _ _ => rfl⟩

theorem Resembles.of_eq (hinode : ∀ i < 32768, s.inode i = e.inode i)
    (hdata : ∀ b, s.data b = e.data b) : e.Resembles s :=
  ⟨fun i hi _ => hinode i hi, fun b _ _ => hdata b⟩

/-- Marking changes nothing that an observer looks at. -/
theorem Marks.resembles (h : Marks e s) : e.Resembles s := .of_eq h.inode h.data

/-- Nor does one more marked block. -/
theorem Resembles.coverData (h : e.Resembles s) (b : ℕ) : e.Resembles (s.coverData b) :=
  ⟨fun i hi hset => by rw [inode_coverData, h.inode i hi hset],
    fun c hc hset => by rw [data_coverData, h.data c hc hset]⟩

/-- The same with fewer bits set. -/
theorem Resembles.of_marks {t : Disk} (h : Marks e s) (h' : s.Resembles t) : e.Resembles t :=
  ⟨fun i hi hset => (h'.inode i hi (h.imap i hi hset)).trans (h.inode i hi),
    fun b hb hset => (h'.data b hb (h.dmap b hb hset)).trans (h.data b)⟩

/-- The record of a free inode does not count. -/
theorem Resembles.setInode {k : ℕ} (h : e.Resembles s) (hk : k < 32768) (hfree : e.imap k = false)
    (x : INode) : e.Resembles (s.setInode k x) where
  inode i hi hset := by
    rw [inode_setInode_of_ne, h.inode i hi hset]
    rintro rfl
    rw [hfree] at hset
    cases hset
  data b hb hset := by rw [data_setInode hk, h.data b hb hset]

/-- The content of a free block does not count. -/
theorem Resembles.setData {b : ℕ} (h : e.Resembles s) (hfree : e.dmap b = false) (content : Block) :
    e.Resembles (s.setData b content) where
  inode i hi hset := by rw [inode_setData hi, h.inode i hi hset]
  data c hc hset := by
    rw [data_setData, if_neg, h.data c hc hset]
    rintro rfl
    rw [hfree] at hset
    cases hset

/-- The maps do not count. -/
theorem ignores_resembles (e : Disk) : vdisk.Ignores MapBlock e.Resembles := by
  intro s id b hid
  have hsame {n : ℕ} (hn : 4 ≤ n) : vdisk.store s id b n = s n := by
    obtain ⟨-, hhigh⟩ := hid
    simp only [vdisk]
    split
    · exact Function.update_of_ne (by omega) _ _
    · rfl
  have hinode (i : ℕ) : Disk.inode (vdisk.store s id b) i = s.inode i := by
    rw [Disk.inode, hsame (by omega), Disk.inode]
  have hdata (c : ℕ) : Disk.data (vdisk.store s id b) c = s.data c := hsame (by omega)
  constructor
  · intro h
    exact ⟨fun i hi hset => (hinode i).symm.trans (h.inode i hi hset),
      fun c hc hset => (hdata c).symm.trans (h.data c hc hset)⟩
  · intro h
    exact ⟨fun i hi hset => (hinode i).trans (h.inode i hi hset),
      fun c hc hset => (hdata c).trans (h.data c hc hset)⟩

end Resembles

/-! ### The passage of one inode -/

/-- The record of inode `i` is replaced in stage `n`, and what the new one leads to is there from
then on. -/
structure ReplacedAt (d d' : Disk) (e : ℕ → Disk) (n i : ℕ) : Prop where
  before : ∀ j < n, (e j).inode i = d.inode i
  after : ∀ j, n ≤ j → (e j).inode i = d'.inode i
  marked : ∀ j, n ≤ j → ∀ r, (e j).dmap ((d'.inode i).ptr r) = true
  data : ∀ j, n ≤ j → ∀ r, (e j).data ((d'.inode i).ptr r) = d'.data ((d'.inode i).ptr r)

section Inode

variable {d d' s : Disk} {e : ℕ → Disk} {i j n : ℕ}

/-- All pointers lead to blocks in use. -/
theorem PointersOk.dmap_ptr (h : d.PointersOk) (hi : i < 32768) (r : ℕ) :
    d.dmap ((d.inode i).ptr r) = true := by
  by_contra hfree
  exact h.ptr_ne_of_free hi (by simpa using hfree) rfl

theorem Sound.imap_of_lookup (hd : d.Sound) {p : ℕ} {a : FileName}
    (h : d.graph.lookup p a = some i) : d.imap i = true :=
  hd.directories.graph.target_marked p _ (NameGraph.mem_of_lookup h)

/-- The call makes no inode. -/
theorem settled_of_old {At : ℕ → Disk → Prop}
    (h : ∀ p a i, d'.graph.lookup p a = some i → d.imap i = true) (j : ℕ) :
    Settled d d' At j := by
  intro k t _ _ p a i hl hfree
  rw [h p a i hl] at hfree
  cases hfree

variable (hd : d.Sound) (hkept : d.Kept e)
include hd hkept

/-- The blocks that the old records lead to are those of the stage. -/
theorem Kept.data_ptr (hi : i < 32768) (hs : Staged e j s) (r : ℕ) :
    s.data ((d.inode i).ptr r) = (e j).data ((d.inode i).ptr r) := by
  have hlt := hd.pointers.lt i hi r
  exact hs.data _ (by omega) (hkept.dmap j _ (by omega) (hd.pointers.dmap_ptr hi r))

/-- The entries are read in any stage as in the first. -/
theorem Kept.entriesOf (hi : i < 32768) (hs : Staged e j s) :
    s.entriesOf (d.inode i) = (e j).entriesOf (d.inode i) :=
  entriesOf_congr rfl fun _ _ => entryOf_congr rfl (hkept.data_ptr hd hi hs _)

omit hd in
/-- The record of an inode in use is read in any stage as in the first. -/
theorem Kept.inode_eq (hi : i < 32768) (hset : d.imap i = true) (hs : Staged e j s) :
    s.inode i = (e j).inode i := hs.inode i hi (hkept.imap j i hi hset)

/-- An inode that the call has nothing to do with. -/
theorem InodePassage.of_same (hi : i < 32768) (hset : d.imap i = true)
    (hinode : ∀ j, (e j).inode i = d.inode i) (hinode' : d'.inode i = d.inode i)
    (hdata : ∀ j r, (e j).data ((d.inode i).ptr r) = d.data ((d.inode i).ptr r)) :
    InodePassage d d' (Staged e) i := by
  have hsame (j : ℕ) (s : Disk) (hs : Staged e j s) : s.inode i = d.inode i :=
    (hkept.inode_eq hi hset hs).trans (hinode j)
  have hblock (j : ℕ) (s : Disk) (hs : Staged e j s) (r : ℕ) :
      s.data ((d.inode i).ptr r) = d.data ((d.inode i).ptr r) :=
    (hkept.data_ptr hd hi hs r).trans (hdata j r)
  refine ⟨fun j s hs => .inl (hsame j s hs), .inl hinode', fun _ => .inl fun j s hs => ?_,
    fun _ j s hs => .inl (hsame j s hs), fun _ j s hs q => .inl ?_,
    fun _ j s hs => .inl (hsame j s hs)⟩
  · exact entriesOf_congr rfl fun _ _ => entryOf_congr rfl (hblock j s hs _)
  · rw [hblock j s hs]
    rfl

section Replaced

variable (h : ReplacedAt d d' e n i) (hset : d.imap i = true)
include h hset

omit hd in
/-- The record is the old one up to a stage, and the new one from there on. -/
theorem ReplacedAt.inode_cases (hi : i < 32768) (hs : Staged e j s) :
    j < n ∧ s.inode i = d.inode i ∨ n ≤ j ∧ s.inode i = d'.inode i := by
  rw [hkept.inode_eq hi hset hs]
  rcases Nat.lt_or_ge j n with hj | hj
  · exact .inl ⟨hj, h.before j hj⟩
  · exact .inr ⟨hj, h.after j hj⟩

omit hd hkept hset in
/-- From that stage on the new blocks are there. -/
theorem ReplacedAt.data_ptr (hd' : d'.Sound) (hi : i < 32768) (hj : n ≤ j) (hs : Staged e j s)
    (r : ℕ) : s.data ((d'.inode i).ptr r) = d'.data ((d'.inode i).ptr r) := by
  have hlt := hd'.pointers.lt i hi r
  exact (hs.data _ (by omega) (h.marked j hj r)).trans (h.data j hj r)

/-- A directory whose record is replaced. -/
theorem InodePassage.of_directory (hd' : d'.Sound) (hdir : d.IsDir i)
    (hedges : d.SameEdges d' i) (hsettled : Settled d d' (Staged e) n)
    (hold : (∀ j, (e j).entriesOf (d.inode i) = d.entriesOf (d.inode i)) ∨
      ((d.inode i).count ≤ 12 ∧ Settled d d' (Staged e) 0 ∧ ∀ j,
        d.Enumerates i ((e j).entriesOf (d.inode i)) ∨
          d'.Enumerates i ((e j).entriesOf (d.inode i)))) :
    InodePassage d d' (Staged e) i := by
  have hi := hdir.1
  refine ⟨fun j s hs => (h.inode_cases hkept hset hi hs).imp And.right And.right, .inr hedges,
    fun _ => hold.imp (fun hconst j s hs => ?_) fun ⟨hcount, hall, hlists⟩ =>
      ⟨hcount, hall, fun j s hs => ?_⟩,
    fun _ j s hs => (h.inode_cases hkept hset hi hs).imp And.right fun ⟨hj, hx⟩ =>
      ⟨hx, hsettled.from_le hj, fun k t hjk ht => ?_⟩,
    fun hnot => absurd hdir hnot, fun hnot => absurd hdir hnot⟩
  · rw [hkept.entriesOf hd hi hs, hconst j]
  · rw [hkept.entriesOf hd hi hs]
    exact hlists j
  · exact entriesOf_congr rfl fun _ _ => entryOf_congr rfl (h.data_ptr hd' hi (hj.trans hjk) ht _)

/-- A file whose record is replaced. -/
theorem InodePassage.of_file (hd' : d'.Sound) (hi : i < 32768) (hnot : ¬ d.IsDir i)
    (hedges : d.SameEdges d' i)
    (hold : ∀ j q, ((e j).data ((d.inode i).ptr (q / 4096))).get (q % 4096) = d.byteAt i q ∨
      q < (d'.inode i).stSize.toNat ∧
        ((e j).data ((d.inode i).ptr (q / 4096))).get (q % 4096) = d'.byteAt i q) :
    InodePassage d d' (Staged e) i := by
  refine ⟨fun j s hs => (h.inode_cases hkept hset hi hs).imp And.right And.right, .inr hedges,
    fun hdir => absurd hdir hnot, fun hdir => absurd hdir hnot, fun _ j s hs q => ?_,
    fun _ j s hs => (h.inode_cases hkept hset hi hs).imp And.right fun ⟨hj, hx⟩ =>
      ⟨hx, fun k t hjk ht q => ?_⟩⟩
  · rw [hkept.data_ptr hd hi hs]
    exact hold j q
  · rw [h.data_ptr hd' hi (hj.trans hjk) ht]
    rfl

end Replaced

end Inode

/-! ### What a change leaves alone -/

/-- Every inode in use outside `S` has the same record and the same blocks on both disks, and what
is in use stays in use. -/
structure Leaves (S : ℕ → Prop) (d s : Disk) : Prop where
  imap : ∀ i < 32768, d.imap i = true → s.imap i = true
  dmap : ∀ b < 65536, d.dmap b = true → s.dmap b = true
  zero : s.data 0 = d.data 0
  inode : ∀ i < 32768, d.imap i = true → ¬ S i → s.inode i = d.inode i
  data : ∀ i < 32768, d.imap i = true → ¬ S i → ∀ r,
    s.data ((d.inode i).ptr r) = d.data ((d.inode i).ptr r)

section Leaves

variable {S : ℕ → Prop} {d s t : Disk} {b i p : ℕ}

theorem Leaves.refl (S : ℕ → Prop) (d : Disk) : Leaves S d d :=
  ⟨fun _ _ => id, fun _ _ => id, rfl, fun _ _ _ _ => rfl, fun _ _ _ _ _ => rfl⟩

/-- What two changes leave alone, they leave alone together. -/
theorem Leaves.trans (h : Leaves S d s) (h' : Leaves S s t) : Leaves S d t where
  imap i hi hset := h'.imap i hi (h.imap i hi hset)
  dmap b hb hset := h'.dmap b hb (h.dmap b hb hset)
  zero := h'.zero.trans h.zero
  inode i hi hset hS := (h'.inode i hi (h.imap i hi hset) hS).trans (h.inode i hi hset hS)
  data i hi hset hS r := by
    have hdata := h'.data i hi (h.imap i hi hset) hS r
    rw [h.inode i hi hset hS] at hdata
    rw [hdata, h.data i hi hset hS]

/-- More inodes may be concerned. -/
theorem Leaves.mono {T : ℕ → Prop} (h : Leaves S d s) (hST : ∀ j, S j → T j) : Leaves T d s :=
  ⟨h.imap, h.dmap, h.zero, fun i hi hset hT => h.inode i hi hset fun hS => hT (hST i hS),
    fun i hi hset hT => h.data i hi hset fun hS => hT (hST i hS)⟩

/-- Marking leaves everything else alone. -/
theorem Marks.leaves (h : Marks d s) (S : ℕ → Prop) : Leaves S d s :=
  ⟨h.imap, h.dmap, h.data 0, fun i hi _ _ => h.inode i hi, fun _ _ _ _ _ => h.data _⟩

/-- The record of an inode of `S`, or of a free one, is replaced. -/
theorem leaves_setInode (hi : i < 32768) (h : S i ∨ d.imap i = false) (x : INode) :
    Leaves S d (d.setInode i x) where
  imap j _ hset := by rwa [imap_setInode]
  dmap c _ hset := by rwa [dmap_setInode]
  zero := data_setInode hi _ _
  inode j _ hset hS := by
    refine inode_setInode_of_ne ?_ x
    rintro rfl
    rcases h with h | h
    · exact hS h
    · rw [h] at hset
      cases hset
  data j _ _ _ r := data_setInode hi _ _

/-- A block is replaced that no inode outside `S` has. -/
theorem leaves_setData (h0 : b ≠ 0) (h : ∀ i < 32768, d.imap i = true → ¬ S i → ∀ r,
    (d.inode i).ptr r ≠ b) (content : Block) : Leaves S d (d.setData b content) where
  imap j _ hset := by rwa [imap_setData]
  dmap c _ hset := by rwa [dmap_setData]
  zero := by rw [data_setData, if_neg h0.symm]
  inode j hj _ _ := inode_setData hj _ _
  data j hj hset hS r := by rw [data_setData, if_neg (h j hj hset hS r)]

/-- A free block is nobody's. -/
theorem PointersOk.leaves_setData_free (h : d.PointersOk) (hb : d.dmap b = false)
    (content : Block) : Leaves S d (d.setData b content) :=
  leaves_setData (h.ne_zero_of_free hb) (fun _ hi _ _ _ => h.ptr_ne_of_free hi hb) content

/-- A block of one inode is not a block of the others. -/
theorem PointersOk.leaves_setData (h : d.PointersOk) (hp : p < 32768) (hS : S p) {r : ℕ}
    (hr : (d.inode p).ptr r ≠ 0) (content : Block) :
    Leaves S d (d.setData ((d.inode p).ptr r) content) := by
  refine Disk.leaves_setData hr (fun i hi _ hnot _ => h.ptr_ne hp hi (fun hpi => ?_) hr) content
  rw [← hpi] at hnot
  exact hnot hS

end Leaves

/-! ### The stages of a list -/

/-- The disks of `l`, one after the other, and then `d'`. -/
def through (l : List Disk) (d' : Disk) (j : ℕ) : Disk := l.getD j d'

section Through

variable {S : ℕ → Prop} {d d' : Disk} {l l' : List Disk} {i j : ℕ}

/-- Behind the last stage the disk is the final one. -/
theorem through_of_le (h : l.length ≤ j) : through l d' j = d' := List.getD_eq_default _ _ h

theorem forall_through {P : Disk → Prop} (hl : ∀ x ∈ l, P x) (hd' : P d') (j : ℕ) :
    P (through l d' j) := by
  rcases Nat.lt_or_ge j l.length with hj | hj
  · rw [through, List.getD_eq_getElem _ _ hj]
    exact hl _ (List.getElem_mem hj)
  · rw [through_of_le hj]
    exact hd'

/-- The record is replaced behind the stages of `l`. -/
theorem ReplacedAt.of_through (hd' : d'.Sound) (hi : i < 32768)
    (hbefore : ∀ x ∈ l, x.inode i = d.inode i)
    (hafter : ∀ x ∈ l', x.inode i = d'.inode i ∧ ∀ r, x.dmap ((d'.inode i).ptr r) = true ∧
      x.data ((d'.inode i).ptr r) = d'.data ((d'.inode i).ptr r)) :
    ReplacedAt d d' (through (l ++ l') d') l.length i := by
  have hlater (j : ℕ) (hj : l.length ≤ j) :
      through (l ++ l') d' j = through l' d' (j - l.length) := by
    rw [through, List.getD_append_right _ _ _ _ hj, through]
  have hrest (j : ℕ) (hj : l.length ≤ j) := forall_through hafter
    ⟨rfl, fun r => ⟨hd'.pointers.dmap_ptr hi r, rfl⟩⟩ (j - l.length)
  refine ⟨fun j hj => ?_, fun j hj => ?_, fun j hj r => ?_, fun j hj r => ?_⟩
  · rw [through, List.getD_append _ _ _ _ hj, List.getD_eq_getElem _ _ hj]
    exact hbefore _ (List.getElem_mem hj)
  · rw [hlater j hj]
    exact (hrest j hj).1
  · rw [hlater j hj]
    exact ((hrest j hj).2 r).1
  · rw [hlater j hj]
    exact ((hrest j hj).2 r).2

/-- The record is replaced in the last stage. -/
theorem ReplacedAt.at_end (hd' : d'.Sound) (hi : i < 32768)
    (hbefore : ∀ x ∈ l, x.inode i = d.inode i) : ReplacedAt d d' (through l d') l.length i := by
  have h : ReplacedAt d d' (through (l ++ []) d') l.length i :=
    .of_through hd' hi hbefore fun x hx => absurd hx List.not_mem_nil
  rwa [List.append_nil] at h

theorem settled_at_end (hd' : d'.Sound) : Settled d d' (Staged (through l d')) l.length := by
  intro k t hk ht p a i hl _
  rw [Staged, through_of_le hk] at ht
  exact ht.inode i (hd'.directories.graph.target_lt p _ (NameGraph.mem_of_lookup hl))
    (hd'.imap_of_lookup hl)

/-- What every stage leaves alone is kept. -/
theorem kept_through (hl : ∀ x ∈ l, Leaves S d x) (hl' : Leaves S d d') :
    Kept d (through l d') :=
  ⟨forall_through (fun x hx => (hl x hx).imap) hl'.imap,
    forall_through (fun x hx => (hl x hx).dmap) hl'.dmap⟩

/-- **The passage through the stages of a list**, where only the inodes of `S` are changed. -/
theorem Passage.of_through (hd : d.Sound) (hd' : d'.Sound)
    (hcompatible : ∀ p a i j, d.graph.lookup p a = some i → d'.graph.lookup p a = some j → i = j)
    (hl : ∀ x ∈ l, Leaves S d x) (hl' : Leaves S d d')
    (hS : ∀ i < 32768, d.imap i = true → S i → InodePassage d d' (Staged (through l d')) i) :
    Passage d d' (Staged (through l d')) := by
  have hleaves := forall_through hl hl'
  refine ⟨hd, hd', hcompatible, fun j s hs => ?_, fun i hi hset => ?_⟩
  · have hmarked := (hleaves j).dmap 0 (by decide) (hd.pointers.reserved 0 (by decide))
    rw [hs.data 0 (by decide) hmarked, (hleaves j).zero, hd.zero]
  · by_cases hi' : S i
    · exact hS i hi hset hi'
    · exact .of_same hd (kept_through hl hl') hi hset (fun j => (hleaves j).inode i hi hset hi')
        (hl'.inode i hi hset hi') fun j => (hleaves j).data i hi hset hi'

end Through

end Disk

end InodeFs
