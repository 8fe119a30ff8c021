import InodeFs.State.Format

/-!
# How much is left

The number of free inodes and of free data blocks that exist. Taking one lowers its count by
one. On the formatted disk there are at least as many free blocks as free inodes.

`Disk.freeInodes` and `Disk.freeBlocks` count clear bits, with the bound up to which the numbers
stand for something: 32768 inodes, and the 64508 data blocks that fit on the disk behind the inode
table, although the data map has 65536 bits. `clearBelow` is the count for any map, so that what is
said of the one holds of the other (`clearBelow_set`, `clearBelow_congr`).

A creation takes one inode and at most one block (`freeInodes_created`, `freeBlocks_created`). So
the inequality of the formatted disk is kept by creations (`freeInodes_le_freeBlocks_created`), and
along their runs a free inode is all that has to be asked for.

The counts are used in both directions. A call that needs some blocks asks for as many to be
counted, and is given them one by one (`clearBelow_pos_iff`); and along a run the counts say how
much has been used up.
-/

namespace InodeFs

/-- The number of clear bits below `n` of a map. -/
def clearBelow (f : ℕ → Bool) (n : ℕ) : ℕ := ((Finset.range n).filter fun b => f b = false).card

/-- There is a clear number where one is counted. -/
theorem clearBelow_pos_iff {f : ℕ → Bool} {n : ℕ} :
    0 < clearBelow f n ↔ ∃ b < n, f b = false := by
  rw [clearBelow, Finset.card_pos]
  constructor
  · rintro ⟨b, hb⟩
    rw [Finset.mem_filter, Finset.mem_range] at hb
    exact ⟨b, hb⟩
  · rintro ⟨b, hb, hfree⟩
    exact ⟨b, Finset.mem_filter.mpr ⟨Finset.mem_range.mpr hb, hfree⟩⟩

/-- Two that are counted are different. -/
theorem exists_two_of_clearBelow {f : ℕ → Bool} {n : ℕ} (h : 2 ≤ clearBelow f n) :
    ∃ b < n, ∃ b' < n, b ≠ b' ∧ f b = false ∧ f b' = false := by
  obtain ⟨b, hb, b', hb', hne⟩ := Finset.one_lt_card.mp h
  rw [Finset.mem_filter, Finset.mem_range] at hb hb'
  exact ⟨b, hb.1, b', hb'.1, hne, hb.2, hb'.2⟩

/-- Setting a clear bit. -/
theorem clearBelow_set {f g : ℕ → Bool} {n b : ℕ} (hb : b < n) (hfree : f b = false)
    (h : ∀ c < n, g c = (f c || decide (c = b))) : clearBelow g n + 1 = clearBelow f n := by
  have herase : ((Finset.range n).filter fun c => g c = false) =
      ((Finset.range n).filter fun c => f c = false).erase b := by
    ext c
    simp only [Finset.mem_filter, Finset.mem_erase, Finset.mem_range]
    constructor
    · rintro ⟨hc, hg⟩
      rw [h c hc, Bool.or_eq_false_iff, decide_eq_false_iff_not] at hg
      exact ⟨hg.2, hc, hg.1⟩
    · rintro ⟨hcb, hc, hf⟩
      exact ⟨hc, by rw [h c hc, hf, decide_eq_false hcb]; rfl⟩
  have hmem : b ∈ (Finset.range n).filter fun c => f c = false :=
    Finset.mem_filter.mpr ⟨Finset.mem_range.mpr hb, hfree⟩
  rw [clearBelow, clearBelow, herase, Finset.card_erase_add_one hmem]

@[simp] theorem clearBelow_false (n : ℕ) : clearBelow (fun _ => false) n = n := by
  rw [clearBelow, Finset.filter_true_of_mem fun _ _ => rfl, Finset.card_range]

/-- The count depends on the numbers below the bound. -/
theorem clearBelow_congr {f g : ℕ → Bool} {n : ℕ} (h : ∀ c < n, g c = f c) :
    clearBelow g n = clearBelow f n := by
  rw [clearBelow, clearBelow]
  congr 1
  exact Finset.filter_congr fun c hc => by rw [h c (Finset.mem_range.mp hc)]

namespace Disk

/-- The number of free inodes. -/
def freeInodes (d : Disk) : ℕ := clearBelow d.imap 32768

/-- The number of free data blocks that exist. -/
def freeBlocks (d : Disk) : ℕ := clearBelow d.dmap 64508

variable {d d' : Disk}

/-- An inode is free where one is counted. -/
theorem freeInodes_pos_iff : 0 < d.freeInodes ↔ d.HasInode := clearBelow_pos_iff

/-- A block is free where one is counted. -/
theorem freeBlocks_pos_iff : 0 < d.freeBlocks ↔ d.HasBlock := clearBelow_pos_iff

theorem freeBlocks_congr (h : ∀ b < 65536, d'.dmap b = d.dmap b) : d'.freeBlocks = d.freeBlocks :=
  clearBelow_congr fun b hb => h b (by omega)

/-- Marking the block that is found takes one. -/
theorem freeBlocks_coverData (h : d.HasBlock) :
    (d.coverData d.nextData).freeBlocks + 1 = d.freeBlocks :=
  clearBelow_set h.nextData_lt h.dmap_nextData fun c hc =>
    dmap_coverData d.nextData_lt (by omega)

/-- An entry costs at most one block. -/
theorem freeBlocks_addEntry (env : Env) (e : DictioryContent) (clock : ℕ) {p : ℕ}
    (hroom : d.HasRoom (d.inode p)) :
    d.freeBlocks ≤ (d.addEntry env e clock p).freeBlocks + 1 := by
  by_cases h0 : (d.inode p).count % 128 = 0
  · have hb := hroom h0
    refine (clearBelow_set hb.nextData_lt hb.dmap_nextData fun c hc => ?_).ge
    rw [dmap_addEntry (by omega)]
    simp [h0]
  · have hsame : (d.addEntry env e clock p).freeBlocks = d.freeBlocks :=
      freeBlocks_congr fun b hb => by rw [dmap_addEntry hb]; simp [h0]
    omega

/-- A creation takes one inode. -/
theorem freeInodes_created (env : Env) (mode : BitVec 32) (p : ℕ) (a : Name) (h : d.HasInode) :
    (d.created env mode p a d.nextInode).freeInodes + 1 = d.freeInodes :=
  clearBelow_set d.nextInode_lt h.imap_nextInode fun j hj => imap_created env mode j hj

/-- A creation takes at most one block. -/
theorem freeBlocks_created (env : Env) (mode : BitVec 32) {p : ℕ} {a : Name} (hd : d.Sound)
    (h : d.CanCreate p a) :
    d.freeBlocks ≤ (d.created env mode p a d.nextInode).freeBlocks + 1 := by
  have hblocks := freeBlocks_addEntry env ⟨a.fileName, BitVec.ofInt 32 d.nextInode⟩ 3
    (h.hasRoom env mode hd)
  have hsame : (d.withFreshInode env mode d.nextInode).freeBlocks = d.freeBlocks :=
    freeBlocks_congr fun b _ => dmap_withFreshInode b
  rwa [← created, hsame] at hblocks

/-- A creation keeps at least as many free blocks as free inodes. -/
theorem freeInodes_le_freeBlocks_created {env : Env} {mode : BitVec 32} {p : ℕ} {a : Name}
    (hd : d.Sound) (h : d.CanCreate p a) (hfree : d.freeInodes ≤ d.freeBlocks) :
    (d.created env mode p a d.nextInode).freeInodes ≤
      (d.created env mode p a d.nextInode).freeBlocks := by
  have hinodes := freeInodes_created env mode p a h.inode
  have hblocks := freeBlocks_created env mode hd h
  omega

/-- All inodes but the root's are free. -/
theorem freeInodes_initial (env : Env) (behind : Fin 27 → Byte) :
    (initial env behind).freeInodes = 32767 := by
  have hset := clearBelow_set (f := fun _ => false) (g := (initial env behind).imap)
    (n := 32768) (b := 4) (by decide) rfl fun c hc => by
      rw [imap_initial _ _ hc, Bool.false_or]
  rw [clearBelow_false] at hset
  rw [freeInodes]
  omega

/-- A first entry in the root. -/
theorem canCreate_initial (env : Env) (behind : Fin 27 → Byte) (a : Name) :
    (initial env behind).CanCreate 4 a := by
  refine ⟨(isDir_initial _ _).mpr rfl, ⟨0, by decide, ?_⟩, ?_, ?_, fun _ => ⟨4, by decide,
    dmap_initial_free _ _ le_rfl (.inl (by decide))⟩⟩
  · rw [imap_initial _ _ (by decide)]
    rfl
  · rw [count_initial]
    decide
  · rw [NameGraph.lookup, graph_initial]
    rfl

/-- On the formatted disk there are blocks for as many entries as inodes. -/
theorem freeInodes_le_freeBlocks_initial (env : Env) (behind : Fin 27 → Byte) :
    (initial env behind).freeInodes ≤ (initial env behind).freeBlocks := by
  have hinodes : (initial env behind).freeInodes ≤ 32768 := by
    have hle := Finset.card_filter_le (Finset.range 32768) fun b =>
      (initial env behind).imap b = false
    rwa [Finset.card_range] at hle
  have hblocks : (Finset.Ico 4 32552 ∪ Finset.Ico 32768 64508).card ≤
      (initial env behind).freeBlocks := by
    rw [freeBlocks, clearBelow]
    refine Finset.card_le_card fun b hb => ?_
    rw [Finset.mem_union, Finset.mem_Ico, Finset.mem_Ico] at hb
    rw [Finset.mem_filter, Finset.mem_range]
    exact ⟨by omega, dmap_initial_free env behind (by omega) (by omega)⟩
  have hdisjoint : Disjoint (Finset.Ico 4 32552) (Finset.Ico 32768 64508) := by
    rw [Finset.disjoint_left]
    intro b hb hb'
    rw [Finset.mem_Ico] at hb hb'
    omega
  rw [Finset.card_union_of_disjoint hdisjoint, Nat.card_Ico, Nat.card_Ico] at hblocks
  omega

end Disk

end InodeFs
