import InodeFs.State.Steps
import InodeFs.Ops.Create
import InodeFs.Disk.Changes

/-!
# A disk on which two creations are under way

Two creations in the directories `p` and `q` of a sound disk `d` have made the lists of changes
`l` and `l'`. `Disk.Joint` says what holds at every moment: the disk is `d` with both lists
applied, each list holds changes that its creation may make (`Disk.Permits`), the parts that were
changed are marked, and no part was changed by both. A bit that is found clear is therefore in
nobody's list, and to set it is to acquire the part (`Joint.acquire_inode`, `Joint.acquire_block`);
a part that is a creation's own keeps what it holds whatever the other one does (`Joint.inode_eq`,
`Joint.data_eq`).

Changes commute where they are made to different parts, so that the order in which the two creations
have made them can be forgotten: the disk is that of the one list and then the other. To make a
change is to add it to the end of one's own list; `Joint.concat` says what has to hold of it for
that.

A part is an inode, with its bit and its record, or a data block, with its bit and its content.
Setting its bit acquires a part; the record of the directory that a creation works in, and the last
of its blocks, are the creation's own from the start, with the bits set.
-/

namespace InodeFs

/-- Record `y` of a directory has the entries of record `x`, and perhaps more. -/
structure INode.Extends (x y : INode) : Prop where
  le : x.count ≤ y.count
  count_le : y.count ≤ 1536
  ptr_lt : ∀ r < 12, y.ptr r < 64508
  ptr_eq : ∀ r, 128 * r < x.count → y.ptr r = x.ptr r

namespace Disk

/-- The block that holds the last entries of directory `p`, where they do not fill it. -/
def IsLastBlock (d : Disk) (p b : ℕ) : Prop :=
  (d.inode p).count % 128 ≠ 0 ∧ b = (d.inode p).ptr ((d.inode p).count / 128)

/-- The changes that a creation in directory `p` of disk `d` may make: those of inodes and blocks
that are free, of the directory's record, and of the slots behind its last entry. -/
def Permits (d : Disk) (p : ℕ) : Change → Prop
  | .coverInode i => i < 32768 ∧ d.imap i = false
  | .setInode i x => i < 32768 ∧ (d.imap i = false ∨ i = p ∧ (d.inode p).Extends x)
  | .coverData b => b < 64508 ∧ d.dmap b = false
  | .setData b content => b < 64508 ∧ (d.dmap b = false ∨ d.IsLastBlock p b ∧
      ∀ j < (d.inode p).count, j / 128 = (d.inode p).count / 128 →
        content.entry j = (d.data b).entry j)

/-- What a creation in directory `p` has done so far, seen on the disk `s` as it is. -/
structure Share (d : Disk) (p : ℕ) (l : List Change) (s : Disk) : Prop where
  permits : ∀ c ∈ l, d.Permits p c
  marked : ∀ c ∈ l, s.Marked c.part
  once : ∀ b b', .coverData b ∈ l → .coverData b' ∈ l → b = b'

/-- **Two creations under way**. -/
structure Joint (d : Disk) (p q : ℕ) (l l' : List Change) (s : Disk) : Prop where
  eq : s = (d.applyAll l').applyAll l
  left : d.Share p l s
  right : d.Share q l' s
  disjoint : ∀ c ∈ l, ∀ c' ∈ l', c.part ≠ c'.part

/-- What is written stays: no bit is cleared, and a record that differs from the one on `d` is not
replaced any more. -/
structure Lasts (d s t : Disk) : Prop where
  imap : ∀ i < 32768, s.imap i = true → t.imap i = true
  dmap : ∀ b < 65536, s.dmap b = true → t.dmap b = true
  inode : ∀ i < 32768, s.inode i = d.inode i ∨ t.inode i = s.inode i

/-- Two directories of a sound disk, each with room for an entry, and two free blocks. -/
structure Parents (d : Disk) (p q : ℕ) : Prop where
  sound : d.Sound
  left : d.IsDir p
  right : d.IsDir q
  ne : p ≠ q
  count_left : (d.inode p).count < 1536
  count_right : (d.inode q).count < 1536
  blocks : ∃ b < 64508, ∃ b' < 64508, b ≠ b' ∧ d.dmap b = false ∧ d.dmap b' = false

variable {d s t u : Disk} {p q : ℕ} {l l' : List Change} {c : Change}

/-! ### Permitted changes -/

theorem Permits.inRange (h : d.Permits p c) : c.part.InRange := by
  cases c with
  | coverInode i => exact h.1
  | setInode i x => exact h.1
  | coverData b => exact h.1
  | setData b content => exact h.1

/-- A marked inode is changed only as the directory. -/
theorem Permits.eq_of_inode (h : d.Permits p c) {i : ℕ} (hi : d.imap i = true)
    (hpart : c.part = .inode i) : i = p ∧ ∃ x, c = .setInode i x ∧ (d.inode p).Extends x := by
  cases c with
  | coverInode j =>
    obtain rfl := Part.inode.inj hpart
    rw [h.2] at hi
    cases hi
  | setInode j x =>
    obtain rfl := Part.inode.inj hpart
    rcases h.2 with hfree | ⟨hp, hx⟩
    · rw [hfree] at hi
      cases hi
    · exact ⟨hp, x, rfl, hx⟩
  | coverData b => cases hpart
  | setData b content => cases hpart

/-- A marked block is changed only as the last one of the directory, behind its entries. -/
theorem Permits.eq_of_block (h : d.Permits p c) {b : ℕ} (hb : d.dmap b = true)
    (hpart : c.part = .block b) : d.IsLastBlock p b ∧ ∃ content, c = .setData b content ∧
      ∀ j < (d.inode p).count, j / 128 = (d.inode p).count / 128 →
        content.entry j = (d.data b).entry j := by
  cases c with
  | coverInode j => cases hpart
  | setInode j x => cases hpart
  | coverData b' =>
    obtain rfl := Part.block.inj hpart
    rw [h.2] at hb
    cases hb
  | setData b' content =>
    obtain rfl := Part.block.inj hpart
    rcases h.2 with hfree | ⟨hlast, hentry⟩
    · rw [hfree] at hb
      cases hb
    · exact ⟨hlast, content, rfl, hentry⟩

/-! ### What lasts -/

theorem Lasts.refl (d s : Disk) : d.Lasts s s :=
  ⟨fun _ _ h => h, fun _ _ h => h, fun _ _ => .inr rfl⟩

theorem Lasts.trans (h : d.Lasts s t) (h' : d.Lasts t u) : d.Lasts s u where
  imap i hi hset := h'.imap i hi (h.imap i hi hset)
  dmap b hb hset := h'.dmap b hb (h.dmap b hb hset)
  inode i hi := by
    rcases h.inode i hi with hs | hst
    · exact .inl hs
    · rcases h'.inode i hi with ht | htu
      · exact .inl (hst ▸ ht)
      · exact .inr (htu.trans hst)

theorem Lasts.apply (hc : c.part.InRange) (h : ∀ i x, c = .setInode i x → s.inode i = d.inode i) :
    d.Lasts s (s.apply c) where
  imap i hi hset := (imap_apply hc hi).mpr (.inl hset)
  dmap b hb hset := (dmap_apply hc hb).mpr (.inl hset)
  inode i hi := by
    rcases inode_apply (d := s) (c := c) hi with heq | heq
    · exact .inr heq
    · exact .inl (h i _ heq)

theorem Marked.apply {a : Part} (ha : a.InRange) (hc : c.part.InRange) (h : s.Marked a) :
    (s.apply c).Marked a := by
  cases a with
  | inode i => exact (imap_apply hc ha).mpr (.inl h)
  | block b =>
    have hb : b < 64508 := ha
    exact (dmap_apply hc (by omega)).mpr (.inl h)

/-! ### Shares -/

theorem share_nil (d : Disk) (p : ℕ) (s : Disk) : d.Share p [] s :=
  ⟨fun _ hc => absurd hc List.not_mem_nil, fun _ hc => absurd hc List.not_mem_nil,
    fun _ _ hb => absurd hb List.not_mem_nil⟩

/-- The other creation makes a change. -/
theorem Share.apply (h : d.Share p l s) (hc : c.part.InRange) : d.Share p l (s.apply c) :=
  ⟨h.permits, fun b hb => (h.marked b hb).apply (h.permits b hb).inRange hc, h.once⟩

/-- The creation itself makes a change. -/
theorem Share.concat (h : d.Share p l s) (hc : d.Permits p c) (hmarked : (s.apply c).Marked c.part)
    (honce : ∀ b, c = .coverData b → ∀ b', .coverData b' ∉ l) :
      d.Share p (l ++ [c]) (s.apply c) where
  permits b hb := by
    rcases List.mem_append.mp hb with hb | hb
    · exact h.permits b hb
    · rwa [List.mem_singleton.mp hb]
  marked b hb := by
    rcases List.mem_append.mp hb with hb | hb
    · exact (h.marked b hb).apply (h.permits b hb).inRange hc.inRange
    · rwa [List.mem_singleton.mp hb]
  once b b' hb hb' := by
    rcases List.mem_append.mp hb with hb | hb <;> rcases List.mem_append.mp hb' with hb' | hb'
    · exact h.once b b' hb hb'
    · exact absurd hb (honce b' (List.mem_singleton.mp hb').symm b)
    · exact absurd hb' (honce b (List.mem_singleton.mp hb).symm b')
    · exact Change.coverData.inj ((List.mem_singleton.mp hb).trans (List.mem_singleton.mp hb').symm)

/-! ### Two creations -/

theorem joint_nil (d : Disk) (p q : ℕ) : d.Joint p q [] [] d :=
  ⟨rfl, share_nil d p d, share_nil d q d, fun _ hc => absurd hc List.not_mem_nil⟩

theorem Parents.symm (h : d.Parents p q) : d.Parents q p :=
  ⟨h.sound, h.right, h.left, h.ne.symm, h.count_right, h.count_left, h.blocks⟩

namespace Joint

variable (h : d.Joint p q l l' s)
include h

theorem symm : d.Joint q p l' l s := by
  refine ⟨?_, h.right, h.left, fun c hc c' hc' => (h.disjoint c' hc' c hc).symm⟩
  rw [h.eq]
  exact applyAll_comm (fun c hc => (h.right.permits c hc).inRange)
    (fun c hc => (h.left.permits c hc).inRange) fun c hc c' hc' => (h.disjoint c' hc' c hc).symm

/-- One of the two makes a change of a part that the other one has not changed. -/
theorem concat (hc : d.Permits p c) (hmarked : (s.apply c).Marked c.part)
    (hdisjoint : ∀ c' ∈ l', c.part ≠ c'.part)
    (honce : ∀ b, c = .coverData b → ∀ b', .coverData b' ∉ l) :
    d.Joint p q (l ++ [c]) l' (s.apply c) where
  eq := by rw [h.eq, applyAll_concat]
  left := h.left.concat hc hmarked honce
  right := h.right.apply hc.inRange
  disjoint b hb b' hb' := by
    rcases List.mem_append.mp hb with hb | hb
    · exact h.disjoint b hb b' hb'
    · rw [List.mem_singleton.mp hb]
      exact hdisjoint b' hb'

/-! ### Bits -/

theorem imap_iff {i : ℕ} (hi : i < 32768) :
    s.imap i = true ↔ d.imap i = true ∨ .coverInode i ∈ l ∨ .coverInode i ∈ l' := by
  rw [h.eq, imap_applyAll (fun c hc => (h.left.permits c hc).inRange) hi,
    imap_applyAll (fun c hc => (h.right.permits c hc).inRange) hi, or_assoc,
    or_comm (a := _ ∈ l')]

theorem dmap_iff {b : ℕ} (hb : b < 65536) :
    s.dmap b = true ↔ d.dmap b = true ∨ .coverData b ∈ l ∨ .coverData b ∈ l' := by
  rw [h.eq, dmap_applyAll (fun c hc => (h.left.permits c hc).inRange) hb,
    dmap_applyAll (fun c hc => (h.right.permits c hc).inRange) hb, or_assoc,
    or_comm (a := _ ∈ l')]

/-- What is not marked was changed by nobody. -/
theorem part_ne_of_free {a : Part} (ha : ¬ s.Marked a) : ∀ c ∈ l', a ≠ c.part := by
  rintro c hc rfl
  exact ha (h.right.marked c hc)

/-- **A clear inode bit is acquired** by setting it. -/
theorem acquire_inode {i : ℕ} (hi : i < 32768) (hfree : s.imap i = false) :
    d.imap i = false ∧ d.Joint p q (l ++ [.coverInode i]) l' (s.coverInode i) := by
  have hset : ¬ s.Marked (.inode i) := by simp [Marked, hfree]
  have hd : d.imap i = false := by
    by_contra hne
    exact hset ((h.imap_iff hi).mpr (.inl (by simpa using hne)))
  exact ⟨hd, h.concat ⟨hi, hd⟩ ((imap_apply (c := .coverInode i) hi hi).mpr (.inr rfl))
    (h.part_ne_of_free hset) fun b hb => by cases hb⟩

/-- **A clear data bit is acquired** by setting it. -/
theorem acquire_block {b : ℕ} (hb : b < 64508) (hfree : s.dmap b = false)
    (honce : ∀ b', .coverData b' ∉ l) :
    d.dmap b = false ∧ d.Joint p q (l ++ [.coverData b]) l' (s.coverData b) := by
  have hb' : b < 65536 := by omega
  have hset : ¬ s.Marked (.block b) := by simp [Marked, hfree]
  have hd : d.dmap b = false := by
    by_contra hne
    exact hset ((h.dmap_iff hb').mpr (.inl (by simpa using hne)))
  exact ⟨hd, h.concat ⟨hb, hd⟩ ((dmap_apply (c := .coverData b) hb hb').mpr (.inr rfl))
    (h.part_ne_of_free hset) fun _ _ => honce⟩

/-- As long as one of the two has taken no block, one of any two free blocks is left. -/
theorem exists_free (hlast : ∀ b, .coverData b ∉ l) {b b' : ℕ} (hb : b < 64508) (hb' : b' < 64508)
    (hne : b ≠ b') (hfree : d.dmap b = false) (hfree' : d.dmap b' = false) :
    s.dmap b = false ∨ s.dmap b' = false := by
  by_contra hset
  rw [not_or, Bool.not_eq_false, Bool.not_eq_false, h.dmap_iff (by omega),
    h.dmap_iff (by omega)] at hset
  have hmem : Change.coverData b ∈ l' := by simpa [hfree, hlast] using hset.1
  have hmem' : Change.coverData b' ∈ l' := by simpa [hfree', hlast] using hset.2
  exact hne (h.right.once b b' hmem hmem')

/-! ### Records and blocks -/

/-- A record that neither has replaced. -/
theorem inode_eq {i : ℕ} (hi : i < 32768) (hl : ∀ x, .setInode i x ∉ l)
    (hl' : ∀ c ∈ l', c.part ≠ .inode i) : s.inode i = d.inode i := by
  rw [h.eq]
  have hleft := inode_applyAll (d := d.applyAll l') (l := l) hi
  have hright := inode_applyAll (d := d) (l := l') hi
  rw [hleft.resolve_right (hl _), hright.resolve_right fun hmem => hl' _ hmem rfl]

/-- A block that neither has replaced. -/
theorem data_eq {b : ℕ} (hl : ∀ content, .setData b content ∉ l)
    (hl' : ∀ c ∈ l', c.part ≠ .block b) : s.data b = d.data b := by
  rw [h.eq]
  have hleft := data_applyAll (d := d.applyAll l') (fun c hc => (h.left.permits c hc).inRange) b
  have hright := data_applyAll (d := d) (fun c hc => (h.right.permits c hc).inRange) b
  rw [hleft.resolve_right (hl _), hright.resolve_right fun hmem => hl' _ hmem rfl]

variable (hd : d.Parents p q)
include hd

/-- The directory of the one is not changed by the other. -/
theorem part_ne_parent : ∀ c ∈ l', c.part ≠ .inode p := fun c hc hpart =>
  hd.ne ((h.right.permits c hc).eq_of_inode
    (hd.sound.directories.dir p hd.left).marked hpart).1

/-- Nor are its last entries. -/
theorem part_ne_lastBlock {b : ℕ} (hb : d.IsLastBlock p b) : ∀ c ∈ l', c.part ≠ .block b := by
  intro c hc hpart
  have hblock := (hd.sound.directories.dir p hd.left).block ((d.inode p).count / 128) (by
    have := hb.1
    omega)
  have hmarked := hd.sound.pointers.marked p hd.left.1 _ hblock
  rw [← hb.2] at hmarked
  obtain ⟨hlast, -⟩ := (h.right.permits c hc).eq_of_block hmarked hpart
  have hsame := hb.2.symm.trans hlast.2
  exact hd.ne (hd.sound.pointers.inj p hd.left.1 q hd.right.1 _ _ hblock hsame).1

/-- The father's record, as long as his creation has not written it back. -/
theorem inode_parent (hl : ∀ x, .setInode p x ∉ l) : s.inode p = d.inode p :=
  h.inode_eq hd.left.1 hl (h.part_ne_parent hd)

end Joint

end Disk

end InodeFs
