import InodeFs.Properties.Runs
import InodeFs.State.Staging

/-!
# The passages of the calls on names

A creation stores its entry behind those that the directory has, and then the record with the larger
size. A removal copies the last entry over the one removed, and then stores the record with the
smaller size; a rename does both, in the two directories. In between a directory shows what it had,
or what it has.

The three passages are proved from the steps of the calls: `Passage.created`, `Passage.removed` and
`Passage.moveEntry`. For each of them the stages are written down, with what is written in each
stage to blocks and records that nobody uses yet left out (`Disk.Resembles`), and the directory
concerned is looked at in every stage.

A rename changes two directories one after the other, and passes through a disk on which the name is
in neither of them, or in both. A reader looks at one directory at a time, which shows one name less
or one more; where a name is found in any stage, it is one that was there or the one moved
(`CanRename.lookup_cases`).
-/

namespace InodeFs

variable (env : Env)

namespace Disk

/-! ### Changes that are not seen -/

section Changes

variable {S : ℕ → Prop} {d s : Disk} {b k p : ℕ}

theorem marks_coverData (hb : b < 65536) : Marks d (d.coverData b) where
  inode i _ := inode_coverData ..
  data c := data_coverData ..
  imap i _ hset := by rwa [imap_coverData]
  dmap c hc hset := by rw [dmap_coverData hb hc, hset, Bool.true_or]

theorem leaves_withFreshInode (mode : BitVec 32) (hk : k < 32768) (hfree : d.imap k = false) :
    Leaves S d (d.withFreshInode env mode k) := by
  have hne {j : ℕ} (hset : d.imap j = true) : j ≠ k := by
    rintro rfl
    rw [hfree] at hset
    cases hset
  refine ⟨fun j hj hset => ?_, fun c _ hset => ?_, data_withFreshInode hk 0, fun j _ hset _ => ?_,
    fun j _ _ _ _ => data_withFreshInode hk _⟩
  · rw [imap_withFreshInode hk hj, hset, Bool.true_or]
  · rwa [dmap_withFreshInode]
  · rw [inode_withFreshInode, if_neg (hne hset)]

/-- The record of a new inode does not count before its number is in the map. -/
theorem resembles_withFreshInode (mode : BitVec 32) (hk : k < 32768) (hfree : d.imap k = false) :
    d.Resembles (d.withFreshInode env mode k) where
  inode j hj hset :=
    (leaves_withFreshInode (S := fun _ => False) env mode hk hfree).inode j hj hset id
  data c _ _ := data_withFreshInode hk c

theorem Marks.overwriteEntry (h : Marks d s) (hp : p < 32768) :
    Marks (d.overwriteEntry p k) (s.overwriteEntry p k) := by
  have hentry (x : INode) (j : ℕ) : s.entryOf x j = d.entryOf x j := entryOf_congr rfl (h.data _)
  refine ⟨fun i hi => ?_, fun c => ?_, fun i hi hset => ?_, fun c hc hset => ?_⟩
  · rw [inode_overwriteEntry hi, inode_overwriteEntry hi, h.inode i hi]
  · rw [Disk.overwriteEntry, Disk.overwriteEntry, data_setData, data_setData, h.inode p hp, h.data,
      h.data, hentry]
  · rw [imap_overwriteEntry] at hset ⊢
    exact h.imap i hi hset
  · rw [dmap_overwriteEntry] at hset ⊢
    exact h.dmap c hc hset

end Changes

/-! ### An entry is stored -/

section Store

variable {S : ℕ → Prop} {d : Disk} {b p : ℕ} {e : DictioryContent} {x : INode}

theorem inode_storeEntry {j : ℕ} (hj : j < 32768) : (d.storeEntry x e).inode j = d.inode j := by
  rw [storeEntry]
  split
  · rw [inode_setData hj, inode_coverData]
  · exact inode_setData hj _ _

theorem data_storeEntry : (d.storeEntry x e).data b =
    if b = d.blockFor x x.count then (d.data b).setEntry x.count e else d.data b := by
  rw [storeEntry, blockFor]
  split
  · rw [data_setData, data_coverData]
    split
    · next hb => rw [hb]
    · rfl
  · rw [data_setData]
    split
    · next hb => rw [hb]
    · rfl

/-- Storing the entry and the record is adding the entry. -/
theorem addEntry_eq (hp : p < 32768) (hcount : (d.inode p).count < 1536) (clock : ℕ) :
    d.addEntry env e clock p = (d.storeEntry (d.inode p) e).setInode p
      ((d.withBlock (d.inode p)).grown env clock) := by
  rw [addEntry, inode_roomFor, ← setInode_storeEntry hp hcount]

/-- The entries of a directory fill its blocks up to the one of the last. -/
theorem Sound.ptr_count_ne (h : d.Sound) (hp : d.IsDir p) (hcount : (d.inode p).count % 128 ≠ 0) :
    (d.inode p).ptr ((d.inode p).count / 128) ≠ 0 :=
  (h.directories.dir p hp).block _ (by omega)

variable (h : d.PointersOk) (hp : p < 32768) (hroom : d.HasRoom (d.inode p))
  (hne : (d.inode p).count % 128 ≠ 0 → (d.inode p).ptr ((d.inode p).count / 128) ≠ 0)
include h hp hroom hne

/-- The block is fresh, or one of the directory's. -/
theorem PointersOk.leaves_storeEntry (hS : S p) : Leaves S d (d.storeEntry (d.inode p) e) := by
  rw [storeEntry]
  split
  · next h0 =>
    rw [← coverData_setData]
    exact (h.leaves_setData_free (hroom h0).dmap_nextData _).trans
      ((marks_coverData d.nextData_lt).leaves S)
  · next h0 => exact h.leaves_setData hp hS (hne h0) _

/-- The entry is stored behind those that are there. -/
theorem PointersOk.entriesOf_storeEntry :
    (d.storeEntry (d.inode p) e).entriesOf (d.inode p) = d.entriesOf (d.inode p) := by
  refine entriesOf_congr rfl fun j hj => ?_
  rw [entryOf, data_storeEntry]
  split
  · next hb =>
    rw [blockFor] at hb
    split at hb
    · next h0 => exact absurd hb (h.ptr_ne_of_free hp (hroom h0).dmap_nextData)
    · next h0 =>
      obtain ⟨-, hrank⟩ := h.inj p hp p hp _ _ (hne h0) hb.symm
      rw [Block.entry_setEntry, if_neg (by omega)]
      rfl
  · rfl

end Store

/-! ### Creation -/

section Create

variable {d : Disk} {p : ℕ} {a : Name} (mode : BitVec 32)

/-- The disk on which a creation has stored its entry, and not yet the record of the directory. -/
def entered (d : Disk) (mode : BitVec 32) (p : ℕ) (a : Name) (k : ℕ) : Disk :=
  (d.withFreshInode env mode k).storeEntry ((d.withFreshInode env mode k).inode p)
    ⟨a.fileName, BitVec.ofInt 32 k⟩

variable (hd : d.Sound) (h : d.CanCreate p a)
include hd h

theorem CanCreate.created_eq : d.created env mode p a d.nextInode =
    (d.entered env mode p a d.nextInode).setInode p (((d.withFreshInode env mode
      d.nextInode).withBlock (d.inode p)).grown env 3) := by
  have hinode := h.inode_parent env mode hd
  rw [created, entered, addEntry_eq env h.dir.1 (by rw [hinode]; exact h.count_lt), hinode]

theorem CanCreate.leaves_entered : Leaves (· = p) d (d.entered env mode p a d.nextInode) := by
  have hsound := hd.withFreshInode env mode d.nextInode_lt h.inode.imap_nextInode
  exact (leaves_withFreshInode env mode d.nextInode_lt h.inode.imap_nextInode).trans
    (hsound.pointers.leaves_storeEntry h.dir.1 (h.hasRoom env mode hd)
      (hsound.ptr_count_ne (h.isDir_parent env mode hd)) rfl)

theorem CanCreate.entriesOf_entered : (d.entered env mode p a d.nextInode).entriesOf (d.inode p) =
    d.entriesOf (d.inode p) := by
  have hsound := hd.withFreshInode env mode d.nextInode_lt h.inode.imap_nextInode
  have hentries := hsound.pointers.entriesOf_storeEntry (e := ⟨a.fileName,
    BitVec.ofInt 32 d.nextInode⟩) h.dir.1 (h.hasRoom env mode hd)
      (hsound.ptr_count_ne (h.isDir_parent env mode hd))
  rw [h.inode_parent env mode hd] at hentries
  rw [entered, h.inode_parent env mode hd, hentries]
  exact entriesOf_congr rfl fun _ _ => entryOf_congr rfl (data_withFreshInode d.nextInode_lt _)

/-- **The passage of a creation.** -/
theorem Passage.created : Passage d (d.created env mode p a d.nextInode)
    (Staged (through [d, d.entered env mode p a d.nextInode]
      (d.created env mode p a d.nextInode))) := by
  have hsound := hd.created env mode h
  have hgraph := hd.graph_created env mode h
  have hentered := h.leaves_entered env mode hd
  have hleaves : Leaves (· = p) d (d.created env mode p a d.nextInode) := by
    rw [h.created_eq env mode hd]
    exact hentered.trans (leaves_setInode (S := (· = p)) h.dir.1 (.inl rfl) _)
  have hl (x : Disk) (hx : x ∈ [d, d.entered env mode p a d.nextInode]) : Leaves (· = p) d x := by
    rcases List.mem_pair.mp hx with rfl | rfl
    · exact .refl _ x
    · exact hentered
  have hlookup (q : ℕ) (b : FileName) : (d.created env mode p a d.nextInode).graph.lookup q b =
      if q = p ∧ b = a.fileName then some d.nextInode else d.graph.lookup q b := by
    rw [hgraph, NameGraph.lookup_insert h.fresh]
  refine .of_through hd hsound (fun q b i j hi hj => ?_) hl hleaves fun j hj hset hjp => ?_
  · rw [hlookup] at hj
    split at hj
    · next heq =>
      rw [heq.1, heq.2, h.fresh] at hi
      cases hi
    · exact Option.some.inj (hi.symm.trans hj)
  obtain rfl := hjp
  have hne := h.ne_nextInode hd
  refine .of_directory hd (kept_through hl hleaves) (.at_end hsound hj fun x hx => ?_) hset hsound
    h.dir (fun q b => ?_) (settled_at_end hsound) (.inl (forall_through (P := fun x =>
      x.entriesOf (d.inode j) = d.entriesOf (d.inode j)) (fun x hx => ?_) ?_))
  · rcases List.mem_pair.mp hx with rfl | rfl
    · rfl
    · rw [entered, inode_storeEntry hj, h.inode_parent env mode hd]
  · rw [hlookup]
    split
    · next heq =>
      rw [heq.1, heq.2, h.fresh, Option.some.injEq]
      exact iff_of_false (fun hnone => by cases hnone) hne.symm
    · exact Iff.rfl
  · rcases List.mem_pair.mp hx with rfl | rfl
    · rfl
    · exact h.entriesOf_entered env mode hd
  · rw [h.created_eq env mode hd, ← h.entriesOf_entered env mode hd]
    exact entriesOf_congr rfl fun _ _ => entryOf_congr rfl (data_setInode hj _ _)

end Create

/-! ### Removal -/

section Remove

variable {d s d' : Disk} {p k i clock : ℕ} {as : List Name} {a : FileName}

/-- Once the last entry is copied, the old record shows what the directory has afterwards, with one
entry twice, or, where the last entry is the one removed, what it had. -/
theorem enumerates_overwriteEntry (hp : d.IsDir p) (hcount : (d.inode p).count ≤ 12)
    (hk : k < (d.inode p).count) (hp' : d'.IsDir p)
    (hsize : (d'.inode p).count + 1 = (d.inode p).count)
    (hentry : ∀ j < (d'.inode p).count, d'.entryOf (d'.inode p) j =
      (d.overwriteEntry p k).entryOf (d.inode p) j) :
    d.Enumerates p ((d.overwriteEntry p k).entriesOf (d.inode p)) ∨
      d'.Enumerates p ((d.overwriteEntry p k).entriesOf (d.inode p)) := by
  have hat {j : ℕ} (hj : j < (d.inode p).count) :=
    entryOf_overwriteEntry hcount hk (x := d.inode p) rfl hj
  by_cases hlast : k + 1 = (d.inode p).count
  · have hk' : (d.inode p).count - 1 = k := by omega
    have heq : (d.overwriteEntry p k).entriesOf (d.inode p) = d.entriesOf (d.inode p) := by
      refine entriesOf_congr rfl fun j hj => ?_
      rw [hat hj, hk']
      split
      · next hjk => rw [hjk]
      · rfl
    rw [heq]
    exact .inl (enumerates_entriesOf hp)
  · refine .inr fun f => ?_
    rw [List.mem_map, mem_graph, and_iff_right hp']
    constructor
    · rintro ⟨x, hx, rfl⟩
      obtain ⟨j, hj, rfl⟩ := mem_entriesOf.mp hx
      by_cases hj' : j < (d'.inode p).count
      · exact ⟨j, hj', by rw [hentry j hj']⟩
      · -- the last entry is the one at rank `k`
        have hjlast : (d.inode p).count - 1 = j := by omega
        refine ⟨k, by omega, ?_⟩
        rw [hentry k (by omega), hat hk, if_pos rfl, hat hj, if_neg (by omega), hjlast]
    · rintro ⟨j, hj, rfl⟩
      exact ⟨_, mem_entriesOf.mpr ⟨j, by omega, rfl⟩, by rw [hentry j hj]⟩

theorem Sound.leaves_overwriteEntry {S : ℕ → Prop} (hd : d.Sound) (hp : d.IsDir p)
    (hk : k < (d.inode p).count) (hS : S p) : Leaves S d (d.overwriteEntry p k) :=
  hd.pointers.leaves_setData hp.1 hS (hd.ptr_zero_ne hp hk) _

/-- The entry of a directory is not the directory. -/
theorem Sound.target_ne (hd : d.Sound) (hp : d.graph.resolve 4 (fileNames as) = some p)
    (ha : d.graph.lookup p a = some i) : i ≠ p := by
  rintro rfl
  have hsame := hd.directories.graph.proper.resolve_inj hp
    (NameGraph.resolve_concat_eq_some.mpr ⟨i, hp, ha⟩)
  exact List.cons_ne_nil a [] (List.self_eq_append_right.mp hsame)

/-- **The directory that loses an entry**: its record is stored last, and until then it shows what
it has before or afterwards. -/
theorem InodePassage.of_shrunk {l : List Disk} (hd : d.Sound) (hd' : d'.Sound) (hp : d.IsDir p)
    (hcount : (d.inode p).count ≤ 12) (hk : k < (d.inode p).count)
    (hrecord : d'.inode p = (d.inode p).shrunk env clock)
    (hdata : ∀ r, d'.data ((d.inode p).ptr r) = (d.overwriteEntry p k).data ((d.inode p).ptr r))
    (hkept : Kept d (through l d')) (hinode : ∀ x ∈ l, x.inode p = d.inode p)
    (hl : ∀ x ∈ l, x = d ∨ ∀ r, x.data ((d.inode p).ptr r) =
      (d.overwriteEntry p k).data ((d.inode p).ptr r))
    (hedges : d.SameEdges d' p) (hsettled : ∀ n, Settled d d' (Staged (through l d')) n) :
    InodePassage d d' (Staged (through l d')) p := by
  have hsize := INode.toNat_shrunk env clock (x := d.inode p) (by
    rw [(hd.directories.dir p hp).size_eq]
    omega)
  have hlists : d.Enumerates p ((d.overwriteEntry p k).entriesOf (d.inode p)) ∨
      d'.Enumerates p ((d.overwriteEntry p k).entriesOf (d.inode p)) :=
    enumerates_overwriteEntry hp hcount hk ⟨hp.1, by rw [hrecord]; exact hp.2⟩
      (by rw [hrecord, INode.count, INode.count]; omega)
      fun j _ => by rw [hrecord]; exact entryOf_congr rfl (hdata _)
  have hentries {x : Disk} (hx : ∀ r, x.data ((d.inode p).ptr r) =
      (d.overwriteEntry p k).data ((d.inode p).ptr r)) :
      x.entriesOf (d.inode p) = (d.overwriteEntry p k).entriesOf (d.inode p) :=
    entriesOf_congr rfl fun _ _ => entryOf_congr rfl (hx _)
  refine .of_directory hd hkept (.at_end hd' hp.1 hinode) (hd.directories.dir p hp).marked hd' hp
    hedges (hsettled _) (.inr ⟨hcount, hsettled 0, forall_through (P := fun x =>
      d.Enumerates p (x.entriesOf (d.inode p)) ∨ d'.Enumerates p (x.entriesOf (d.inode p)))
        (fun x hx => ?_) ?_⟩)
  · rcases hl x hx with rfl | hx
    · exact .inl (enumerates_entriesOf hp)
    · rw [hentries hx]
      exact hlists
  · rw [hentries hdata]
    exact hlists

/-- **The passage of a removal.** -/
theorem Passage.removed (hs : MarkedFrom d s) (hcount : (d.inode p).count ≤ 12)
    (hk : k < (d.inode p).count)
    (hmarks : Marks (s.removeEntry p k ((d.inode p).shrunk env clock)) d')
    (hparent : d.graph.resolve 4 (fileNames as) = some p) (hlookup : d.graph.lookup p a = some i)
    (hedge : (d.entryOf (d.inode p) k).edge = (a, i)) :
    Passage d d' (Staged (through [d, d.overwriteEntry p k] d')) := by
  have hd := hs.sound
  have hp := isDir_of_lookup hlookup
  have hproper := hd.directories.graph.proper
  obtain ⟨hd', hsimilar⟩ := hs.of_removed hp hcount hk hmarks
  rw [hedge] at hsimilar
  have hgraph (q : ℕ) (b : FileName) : d'.graph.lookup q b =
      if q = p ∧ b = a then none else d.graph.lookup q b := by
    rw [(hproper.remove p _).lookup_of_similar hsimilar,
      hproper.lookup_remove (NameGraph.mem_of_lookup hlookup)]
  have hover := hd.leaves_overwriteEntry (S := (· = p)) hp hk rfl
  have hmarked := hs.marks.overwriteEntry (k := k) hp.1
  have hleaves : Leaves (· = p) d d' := by
    refine (hover.trans (hmarked.leaves _)).trans (Leaves.trans ?_ (hmarks.leaves _))
    exact leaves_setInode (S := (· = p)) hp.1 (.inl rfl) _
  have hl (x : Disk) (hx : x ∈ [d, d.overwriteEntry p k]) : Leaves (· = p) d x := by
    rcases List.mem_pair.mp hx with rfl | rfl
    · exact .refl _ x
    · exact hover
  -- the last disk has the entries of the one in between
  have hdata (b : ℕ) : d'.data b = (d.overwriteEntry p k).data b := by
    rw [hmarks.data, data_removeEntry hp.1, hmarked.data]
  have hinode : d'.inode p = (d.inode p).shrunk env clock := by
    rw [hmarks.inode p hp.1, inode_removeEntry hp.1, if_pos rfl]
  have hold (q : ℕ) (b : FileName) (j : ℕ) (hj : d'.graph.lookup q b = some j) :
      d.graph.lookup q b = some j := by
    rw [hgraph] at hj
    split at hj
    · cases hj
    · exact hj
  refine .of_through hd hd' (fun q b j j' hj hj' =>
    Option.some.inj (hj.symm.trans (hold q b j' hj'))) hl hleaves fun j _ _ hjp => ?_
  obtain rfl := hjp
  refine .of_shrunk env hd hd' hp hcount hk hinode (fun r => hdata _) (kept_through hl hleaves)
    (fun x hx => ?_) (fun x hx => ?_) (fun q b => ?_)
    (settled_of_old fun q b m hm => hd.imap_of_lookup (hold q b m hm))
  · rcases List.mem_pair.mp hx with rfl | rfl
    · rfl
    · exact inode_overwriteEntry hp.1
  · rcases List.mem_pair.mp hx with rfl | rfl
    · exact .inl rfl
    · exact .inr fun _ => rfl
  · rw [hgraph]
    split
    · next heq =>
      rw [heq.1, heq.2, hlookup, Option.some.injEq]
      exact iff_of_false (hd.target_ne hparent hlookup) fun hnone => by cases hnone
    · exact Iff.rfl

end Remove

/-! ### Renaming -/

/-- The disk on which a rename has stored the entry in directory `q`. -/
def moved (d : Disk) (p k q : ℕ) : Disk :=
  (d.overwriteEntry p k).storeEntry (d.inode q) (d.entryOf (d.inode p) k)

/-- The disk on which a rename has stored the record of directory `q` as well. -/
def movedInto (env : Env) (d : Disk) (p k q : ℕ) : Disk :=
  (d.moved p k q).setInode q (((d.overwriteEntry p k).withBlock (d.inode q)).grown env 0)

section Rename

variable {d : Disk} {p k q i : ℕ} {parent parent' : List Name} {name name' : Name}
  (hd : d.Sound) (h : d.CanRename parent parent' name name' p q i) (hk : k < (d.inode p).count)

theorem PointersOk.overwriteEntry (h : d.PointersOk) (p k : ℕ) :
    (d.overwriteEntry p k).PointersOk :=
  h.congr (fun j hj r => by rw [inode_overwriteEntry hj])
    (fun j hj => by rw [inode_overwriteEntry hj]) (fun j _ hset => by rwa [imap_overwriteEntry])
    fun b _ hset => by rwa [dmap_overwriteEntry]

include h

theorem CanRename.ne_directory (hd : d.Sound) : i ≠ q := by
  rintro rfl
  have hresolve := NameGraph.resolve_map_concat.mpr ⟨p, h.finds.1, h.finds.2⟩
  have hsame := List.map_injective_iff.mpr Name.fileName_injective
    (hd.directories.graph.proper.resolve_inj hresolve h.found)
  exact h.below (hsame ▸ List.prefix_rfl)

/-- The directory that the entry goes to has a place for it once it is taken out. -/
theorem CanRename.hasRoom_overwriteEntry :
    (d.overwriteEntry p k).HasRoom ((d.overwriteEntry p k).inode q) := by
  rw [inode_overwriteEntry h.dir.1]
  simpa only [HasRoom, HasBlock, dmap_overwriteEntry] using h.room

theorem CanRename.moveEntry_eq : d.moveEntry env p k q =
    (d.movedInto env p k q).setInode p ((d.inode p).shrunk env 2) :=
  (setInode_storeEntry_overwriteEntry env h.finds.isDir h.dir h.ne h.count_lt).symm

include hd

theorem CanRename.leaves_moved : Leaves (· = q) (d.overwriteEntry p k) (d.moved p k q) := by
  have hinode : (d.overwriteEntry p k).inode q = d.inode q := inode_overwriteEntry h.dir.1
  rw [moved, ← hinode]
  refine (hd.pointers.overwriteEntry p k).leaves_storeEntry h.dir.1 h.hasRoom_overwriteEntry ?_ rfl
  rw [hinode]
  exact hd.ptr_count_ne h.dir

theorem CanRename.entriesOf_moved : (d.moved p k q).entriesOf (d.inode q) =
    (d.overwriteEntry p k).entriesOf (d.inode q) := by
  have hinode : (d.overwriteEntry p k).inode q = d.inode q := inode_overwriteEntry h.dir.1
  rw [moved, ← hinode]
  refine (hd.pointers.overwriteEntry p k).entriesOf_storeEntry h.dir.1 h.hasRoom_overwriteEntry ?_
  rw [hinode]
  exact hd.ptr_count_ne h.dir

include hk

/-- What each stage of a rename has of the two directories and of everything else. -/
theorem CanRename.leaves_stages {x : Disk}
    (hx : x ∈ [d.overwriteEntry p k, d.moved p k q, d.movedInto env p k q, d.moveEntry env p k q]) :
    Leaves (fun j => j = p ∨ j = q) d x ∧
      (∀ r, x.data ((d.inode p).ptr r) = (d.overwriteEntry p k).data ((d.inode p).ptr r)) ∧
      x.entriesOf (d.inode q) = d.entriesOf (d.inode q) := by
  have hp := h.finds.isDir
  have hmarked (j : ℕ) (hdir : d.IsDir j) := (hd.directories.dir j hdir).marked
  have hover := hd.leaves_overwriteEntry (S := fun j => j = p ∨ j = q) hp hk (.inl rfl)
  have hover' := (hd.leaves_overwriteEntry (S := (· = p)) hp hk rfl).data q h.dir.1
    (hmarked q h.dir) h.ne
  have hmoved := h.leaves_moved (k := k) hd
  have hdata (r : ℕ) : (d.moved p k q).data ((d.inode p).ptr r) =
      (d.overwriteEntry p k).data ((d.inode p).ptr r) := by
    have heq := hmoved.data p hp.1 (by rw [imap_overwriteEntry]; exact hmarked p hp) h.ne.symm r
    rwa [inode_overwriteEntry hp.1] at heq
  have hentries : (d.overwriteEntry p k).entriesOf (d.inode q) = d.entriesOf (d.inode q) :=
    entriesOf_congr rfl fun _ _ => entryOf_congr rfl (hover' _)
  have hsecond := h.entriesOf_moved (k := k) hd
  have hmoved' := hmoved.mono (T := fun j => j = p ∨ j = q) fun _ => .inr
  have hinto : Leaves (fun j => j = p ∨ j = q) d (d.movedInto env p k q) :=
    (hover.trans hmoved').trans (leaves_setInode h.dir.1 (.inl (.inr rfl)) _)
  have hblocks (b : ℕ) : (d.movedInto env p k q).data b = (d.moved p k q).data b :=
    data_setInode h.dir.1 _ _
  rw [List.mem_cons, List.mem_cons, List.mem_pair] at hx
  rcases hx with rfl | rfl | rfl | rfl
  · exact ⟨hover, fun _ => rfl, hentries⟩
  · exact ⟨hover.trans hmoved', hdata, hsecond.trans hentries⟩
  · exact ⟨hinto, fun r => (hblocks _).trans (hdata r),
      (entriesOf_congr rfl fun _ _ => entryOf_congr rfl (hblocks _)).trans
        (hsecond.trans hentries)⟩
  · rw [h.moveEntry_eq env]
    have hlast (b : ℕ) : ((d.movedInto env p k q).setInode p ((d.inode p).shrunk env 2)).data b =
        (d.moved p k q).data b := (data_setInode hp.1 _ _).trans (hblocks b)
    exact ⟨hinto.trans (leaves_setInode hp.1 (.inl (.inl rfl)) _),
      fun r => (hlast _).trans (hdata r),
      (entriesOf_congr rfl fun _ _ => entryOf_congr rfl (hlast _)).trans (hsecond.trans hentries)⟩

section Names

variable (hedge : (d.entryOf (d.inode p) k).edge = (name.fileName, i))
include hedge

theorem CanRename.lookup_moveEntry (r : ℕ) (b : FileName) :
    (d.moveEntry env p k q).graph.lookup r b = if r = q ∧ b = name.fileName then some i
      else if r = p ∧ b = name.fileName then none else d.graph.lookup r b := by
  have hproper := hd.directories.graph.proper
  obtain ⟨-, g, hsimilar, hinsert⟩ := hd.moveEntry h env hk hedge
  have hremoved (r : ℕ) (b : FileName) : g.lookup r b =
      if r = p ∧ b = name.fileName then none else d.graph.lookup r b := by
    rw [(hproper.remove p _).lookup_of_similar hsimilar,
      hproper.lookup_remove (NameGraph.mem_of_lookup h.finds.2)]
  rw [hinsert, NameGraph.lookup_insert (by rw [hremoved, if_neg fun hand => h.ne hand.1, h.fresh]),
    hremoved]

/-- A name that is there afterwards is the one moved, or was there. -/
theorem CanRename.lookup_cases {r j : ℕ} {b : FileName}
    (hj : (d.moveEntry env p k q).graph.lookup r b = some j) :
    (d.graph.lookup r b = none ∧ j = i) ∨ d.graph.lookup r b = some j := by
  rw [h.lookup_moveEntry env hd hk hedge] at hj
  split at hj
  · next heq =>
    rw [heq.1, heq.2]
    exact .inl ⟨h.fresh, (Option.some.inj hj).symm⟩
  · split at hj
    · cases hj
    · exact .inr hj

theorem CanRename.sameEdges {m : ℕ} (hm : i ≠ m) : d.SameEdges (d.moveEntry env p k q) m := by
  intro r b
  rw [h.lookup_moveEntry env hd hk hedge]
  split
  · next heq =>
    rw [heq.1, heq.2, h.fresh, Option.some.injEq]
    exact iff_of_false (fun hnone => by cases hnone) hm
  · split
    · next heq =>
      rw [heq.1, heq.2, h.finds.2, Option.some.injEq]
      exact iff_of_false hm fun hnone => by cases hnone
    · exact Iff.rfl

end Names

/-- The disks that a rename passes before the one it leaves. -/
theorem CanRename.mem_stages {x : Disk}
    (hx : x ∈ [d, d.overwriteEntry p k, d.moved p k q, d.movedInto env p k q]) :
    x = d ∨ Leaves (fun j => j = p ∨ j = q) d x ∧
      (∀ r, x.data ((d.inode p).ptr r) = (d.overwriteEntry p k).data ((d.inode p).ptr r)) ∧
      x.entriesOf (d.inode q) = d.entriesOf (d.inode q) := by
  rcases List.mem_cons.mp hx with rfl | hx
  · exact .inl rfl
  · exact .inr (h.leaves_stages env hd hk (List.mem_append_left [d.moveEntry env p k q] hx))

omit hd h hk in
/-- The first of them have the records of the start. -/
theorem inode_stages {x : Disk} (hx : x ∈ [d, d.overwriteEntry p k, d.moved p k q]) {j : ℕ}
    (hj : j < 32768) : x.inode j = d.inode j := by
  rw [List.mem_cons, List.mem_pair] at hx
  rcases hx with rfl | rfl | rfl
  · rfl
  · exact inode_overwriteEntry hj
  · exact (inode_storeEntry hj).trans (inode_overwriteEntry hj)

omit hd hk in
/-- The record of the new directory is stored before that of the old one. -/
theorem CanRename.replacedAt (hd' : (d.moveEntry env p k q).Sound) :
    ReplacedAt d (d.moveEntry env p k q)
      (through ([d, d.overwriteEntry p k, d.moved p k q] ++ [d.movedInto env p k q])
        (d.moveEntry env p k q)) 3 q := by
  have hrecord : (d.moveEntry env p k q).inode q = (d.movedInto env p k q).inode q := by
    rw [h.moveEntry_eq env, inode_setInode_of_ne h.ne]
  refine .of_through hd' h.dir.1 (fun x hx => inode_stages hx h.dir.1) fun x hx => ?_
  obtain rfl := List.mem_singleton.mp hx
  refine ⟨hrecord.symm, fun r => ⟨?_, ?_⟩⟩
  · have hmarked := hd'.pointers.dmap_ptr h.dir.1 r
    rw [hrecord] at hmarked ⊢
    rwa [h.moveEntry_eq env, dmap_setInode] at hmarked
  · rw [h.moveEntry_eq env, data_setInode h.finds.isDir.1]

/-- **The passage of a rename.** -/
theorem Passage.moveEntry (hedge : (d.entryOf (d.inode p) k).edge = (name.fileName, i)) :
    Passage d (d.moveEntry env p k q) (Staged (through
      [d, d.overwriteEntry p k, d.moved p k q, d.movedInto env p k q]
        (d.moveEntry env p k q))) := by
  have hp := h.finds.isDir
  obtain ⟨hd', -⟩ := hd.moveEntry h env hk hedge
  have hlast := h.leaves_stages env hd hk (x := d.moveEntry env p k q) (by simp)
  have hleaves (x : Disk)
      (hx : x ∈ [d, d.overwriteEntry p k, d.moved p k q, d.movedInto env p k q]) :
      Leaves (fun j => j = p ∨ j = q) d x := by
    rcases h.mem_stages env hd hk hx with rfl | h
    · exact .refl _ x
    · exact h.1
  have hkept := kept_through hleaves hlast.1
  have hsettled (n : ℕ) : Settled d (d.moveEntry env p k q) (Staged
      (through [d, d.overwriteEntry p k, d.moved p k q, d.movedInto env p k q]
        (d.moveEntry env p k q))) n := by
    refine settled_of_old (fun r b m hm => ?_) n
    rcases h.lookup_cases env hd hk hedge hm with ⟨-, rfl⟩ | hm'
    · exact hd.imap_of_lookup h.finds.2
    · exact hd.imap_of_lookup hm'
  refine .of_through hd hd' (fun r b j j' hj hj' => ?_) hleaves hlast.1 fun j hj hset hS => ?_
  · rcases h.lookup_cases env hd hk hedge hj' with ⟨hnone, -⟩ | hj''
    · rw [hnone] at hj
      cases hj
    · exact Option.some.inj (hj.symm.trans hj'')
  rcases hS with rfl | rfl
  · -- the old directory
    have hrecord : (d.moveEntry env j k q).inode j = (d.inode j).shrunk env 2 := by
      rw [h.moveEntry_eq env, inode_setInode_self]
    refine .of_shrunk env hd hd' hp h.small hk hrecord hlast.2.1 hkept (fun x hx => ?_)
      (fun x hx => (h.mem_stages env hd hk hx).imp_right fun hx => hx.2.1)
      (h.sameEdges env hd hk hedge (hd.target_ne h.finds.1 h.finds.2)) hsettled
    rcases List.mem_append.mp (show x ∈ [d, d.overwriteEntry j k, d.moved j k q] ++
        [d.movedInto env j k q] from hx) with hx | hx
    · exact inode_stages hx hj
    · have hmoved : d.moved j k q ∈ [d, d.overwriteEntry j k, d.moved j k q] := by simp
      rw [List.mem_singleton.mp hx, movedInto, inode_setInode_of_ne h.ne.symm,
        inode_stages hmoved hj]
  · -- the new directory
    refine .of_directory hd hkept (h.replacedAt env hd') hset hd' h.dir
      (h.sameEdges env hd hk hedge (h.ne_directory hd)) (hsettled _)
      (.inl (forall_through (P := fun x => x.entriesOf (d.inode j) = d.entriesOf (d.inode j))
        (fun x hx => ?_) hlast.2.2))
    rcases h.mem_stages env hd hk hx with rfl | hx
    · rfl
    · exact hx.2.2

end Rename

end Disk

end InodeFs
