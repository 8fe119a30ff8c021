import InodeFs.Disk.RecordExec

/-!
# Lists of changes

A request that writes a block it has just read makes one of four changes of the views: a bit of
a map is set, a record or a data block is replaced. Each change is about one **part** of the
disk, an inode or a data block. Changes of different parts commute (`Disk.applyAll_comm`), so
that what two requests leave does not depend on the order of their steps, and a part that a
list of changes is not about stays as it is.

`Change` lists the four kinds. Marking is the only one in which a part may be met twice by two
requests that are both about to write; it is idempotent, and ORing masks commutes, so that the lists
of two requests can be applied in one order or the other.

The last lemmas read a disk off the list that led to it: what is marked was marked before or by the
list (`imap_applyAll`, `dmap_applyAll`), and a record or block that was replaced once has this
content (`inode_applyAll_of_mem`, `data_applyAll_of_mem`).

A change is given by what it makes of one disk block (`Change.edit`), so that two changes of
different blocks commute without further ado. What is left are two changes of one block, which are
of two bits of a map or of two records of a block.
-/

namespace InodeFs

/-- A part of the disk: an inode with its map bit and record, or a data block with its bit. -/
inductive Part : Type
  | inode (i : ℕ)
  | block (b : ℕ)

/-- A change of one part. -/
inductive Change : Type
  | coverInode (i : ℕ)
  | setInode (i : ℕ) (x : INode)
  | coverData (b : ℕ)
  | setData (b : ℕ) (content : Block)

/-- The part exists on the disk. -/
def Part.InRange : Part → Prop
  | inode i => i < 32768
  | block b => b < 64508

/-- The part a change is about. -/
def Change.part : Change → Part
  | coverInode i => .inode i
  | setInode i _ => .inode i
  | coverData b => .block b
  | setData b _ => .block b

namespace Disk

variable (d : Disk)

/-- The bit of the part is set. -/
def Marked : Part → Prop
  | .inode i => d.imap i = true
  | .block b => d.dmap b = true

/-- Make a change. -/
def apply : Change → Disk
  | .coverInode i => d.coverInode i
  | .setInode i x => d.setInode i x
  | .coverData b => d.coverData b
  | .setData b content => d.setData b content

/-- Make the changes of a list, one after the other. -/
def applyAll (l : List Change) : Disk := l.foldl apply d

@[simp] theorem applyAll_nil : d.applyAll [] = d := rfl

@[simp] theorem applyAll_cons (c : Change) (l : List Change) :
    d.applyAll (c :: l) = (d.apply c).applyAll l := rfl

/-- A list of changes is applied part by part. -/
theorem applyAll_append (l l' : List Change) : d.applyAll (l ++ l') = (d.applyAll l).applyAll l' :=
  List.foldl_append

theorem applyAll_concat (l : List Change) (c : Change) :
    d.applyAll (l ++ [c]) = (d.applyAll l).apply c := applyAll_append d l [c]

end Disk

/-! ### Changes of different parts commute -/

/-- Masks are ORed in any order. -/
theorem Block.orMask_comm (table : Fin 8 → Byte) (b : Block) (n m : ℕ) :
    (b.orMask table n).orMask table m = (b.orMask table m).orMask table n := by
  have hidx (k : ℕ) : k / 8 % 4096 < 4096 := Nat.mod_lt _ (by decide)
  by_cases h : (⟨n / 8 % 4096, hidx n⟩ : Fin 4096) = ⟨m / 8 % 4096, hidx m⟩
  · simp only [orMask, h, Function.update_self, Function.update_idem]
    rw [BitVec.or_assoc, BitVec.or_assoc, BitVec.or_comm (table _) (table _)]
  · simp only [orMask, Function.update_of_ne h, Function.update_of_ne (Ne.symm h)]
    exact Function.update_comm h _ _ _

/-- A mask ORed twice is ORed once. -/
theorem Block.orMask_orMask (table : Fin 8 → Byte) (b : Block) (n : ℕ) :
    (b.orMask table n).orMask table n = b.orMask table n := by
  simp only [orMask, Function.update_self, Function.update_idem]
  rw [BitVec.or_assoc, BitVec.or_self]

/-- Setting a bit that is set. -/
theorem Block.orMask_eq_self {b : Block} {n : ℕ} (hn : n < 32768) (h : b.bit n = true) :
    b.orMask bitMapMask n = b := by
  have hbyte : n / 8 < 4096 := by omega
  have hmod : n / 8 % 4096 = n / 8 := Nat.mod_eq_of_lt hbyte
  rw [bit, Block.get, dif_pos hbyte] at h
  have hsame : b ⟨n / 8, hbyte⟩ ||| bitMapMask ⟨n % 8, by omega⟩ = b ⟨n / 8, hbyte⟩ := by
    refine BitVec.eq_of_getLsbD_eq fun j hj => ?_
    obtain ⟨i, hi, rfl⟩ : ∃ i, i < 8 ∧ j = 7 - i := ⟨7 - j, by omega, by omega⟩
    rw [BitVec.getLsbD_or, getLsbD_bitMapMask _ hi]
    by_cases hin : i = n % 8
    · rw [hin, h, Bool.true_or]
    · simp [hin]
  simp only [orMask, hmod, hsame, Function.update_eq_self]

namespace Change

/-- The disk block a change rewrites. -/
def target : Change → ℕ
  | coverInode _ => 1
  | setInode i _ => 4 + i / 32
  | coverData b => if b < 32768 then 2 else 3
  | setData b _ => 1028 + b

theorem mod_32_lt (i : ℕ) : i % 32 < 32 := Nat.mod_lt i (by decide)

/-- What a change makes of the disk block it rewrites. -/
def edit : Change → Block → Block
  | coverInode i, buffer => buffer.orMask bitMapMask i
  | setInode i x, buffer =>
    Block.inodes.symm (Function.update buffer.inodes ⟨i % 32, mod_32_lt i⟩ x)
  | coverData b, buffer => buffer.orMask bitMapMask (if b < 32768 then b else b - 32768)
  | setData _ content, _ => content

/-- A change edits one block. -/
theorem apply_eq_update (d : Disk) (c : Change) :
    d.apply c = Function.update d c.target (c.edit (d c.target)) := by
  cases c with
  | coverData b =>
    rw [Disk.apply, Disk.coverData, Disk.orDataMap]
    simp only [target, edit]
    split
    · rfl
    · rfl
  | _ => rfl

/-- Changes of different parts that rewrite one block set different bits, or different records. -/
theorem edit_comm {c c' : Change} (hc : c.part.InRange) (hc' : c'.part.InRange)
    (hpart : c.part ≠ c'.part) (htarget : c.target = c'.target) (buffer : Block) :
    c.edit (c'.edit buffer) = c'.edit (c.edit buffer) := by
  -- most kinds of changes rewrite different disk blocks; two of a kind are left
  cases c with
  | coverInode i =>
    cases c' with
    | coverInode j => exact Block.orMask_comm _ _ _ _
    | setInode j x => simp only [target] at htarget; omega
    | coverData b => simp only [target] at htarget; split at htarget <;> omega
    | setData b content => simp only [target] at htarget; omega
  | setInode i x =>
    have hi : i < 32768 := hc
    cases c' with
    | setInode j y =>
      simp only [target] at htarget
      have hij : i ≠ j := fun h => hpart (congrArg Part.inode h)
      have hindex : (⟨j % 32, by omega⟩ : Fin 32) ≠ ⟨i % 32, by omega⟩ := fun h =>
        hij (by have := Fin.mk.inj h; omega)
      simp only [edit, Equiv.apply_symm_apply]
      rw [Function.update_comm hindex]
    | coverInode j => simp only [target] at htarget; omega
    | coverData b => simp only [target] at htarget; split at htarget <;> omega
    | setData b content => simp only [target] at htarget; omega
  | coverData b =>
    cases c' with
    | coverData b' => exact Block.orMask_comm _ _ _ _
    | coverInode j => simp only [target] at htarget; split at htarget <;> omega
    | setInode j x => simp only [target] at htarget; split at htarget <;> omega
    | setData b' content => simp only [target] at htarget; split at htarget <;> omega
  | setData b content =>
    cases c' with
    | setData b' content' =>
      simp only [target] at htarget
      exact absurd (congrArg Part.block (show b = b' by omega)) hpart
    | coverInode j => simp only [target] at htarget; omega
    | setInode j x =>
      have hj : j < 32768 := hc'
      simp only [target] at htarget
      omega
    | coverData b' => simp only [target] at htarget; split at htarget <;> omega

end Change

namespace Disk

variable {d : Disk} {l l' : List Change}

/-- **Changes of different parts commute.** -/
theorem apply_comm {c c' : Change} (hc : c.part.InRange) (hc' : c'.part.InRange)
    (hpart : c.part ≠ c'.part) : (d.apply c).apply c' = (d.apply c').apply c := by
  simp only [Change.apply_eq_update]
  by_cases h : c.target = c'.target
  · rw [h, Function.update_self, Function.update_self, Function.update_idem, Function.update_idem,
      Change.edit_comm hc hc' hpart h]
  · rw [Function.update_of_ne h, Function.update_of_ne (Ne.symm h)]
    exact Function.update_comm h _ _ _

/-- A change commutes with changes of other parts. -/
theorem applyAll_apply_comm {c : Change} (hc : c.part.InRange) (hl : ∀ c' ∈ l, c'.part.InRange)
    (hpart : ∀ c' ∈ l, c.part ≠ c'.part) : (d.apply c).applyAll l = (d.applyAll l).apply c := by
  induction l generalizing d with
  | nil => rfl
  | cons c' l ih =>
    rw [applyAll_cons, apply_comm hc (hl c' (List.mem_cons_self ..))
      (hpart c' (List.mem_cons_self ..)), ih (fun b hb => hl b (List.mem_cons_of_mem _ hb))
        fun b hb => hpart b (List.mem_cons_of_mem _ hb)]
    rfl

/-- **Lists of changes of different parts commute.** -/
theorem applyAll_comm (hl : ∀ c ∈ l, c.part.InRange) (hl' : ∀ c ∈ l', c.part.InRange)
    (hpart : ∀ c ∈ l, ∀ c' ∈ l', c.part ≠ c'.part) :
    (d.applyAll l).applyAll l' = (d.applyAll l').applyAll l := by
  induction l generalizing d with
  | nil => rfl
  | cons c l ih =>
    rw [applyAll_cons, applyAll_cons, ih (fun b hb => hl b (List.mem_cons_of_mem _ hb))
        fun b hb => hpart b (List.mem_cons_of_mem _ hb),
      applyAll_apply_comm (hl c (List.mem_cons_self ..)) hl' (hpart c (List.mem_cons_self ..))]

/-! ### What a list of changes leaves -/

/-- The inode map changes where an inode is marked, and nowhere else. -/
theorem imap_apply {c : Change} (hc : c.part.InRange) {i : ℕ} (hi : i < 32768) :
    (d.apply c).imap i = true ↔ d.imap i = true ∨ c = .coverInode i := by
  cases c with
  | coverInode j =>
    rw [apply, imap_coverInode hc hi, Bool.or_eq_true, decide_eq_true_eq, Change.coverInode.injEq,
      eq_comm (a := i)]
  | setInode j x => simp [apply]
  | coverData b => simp [apply]
  | setData b content => simp [apply]

theorem dmap_apply {c : Change} (hc : c.part.InRange) {b : ℕ} (hb : b < 65536) :
    (d.apply c).dmap b = true ↔ d.dmap b = true ∨ c = .coverData b := by
  cases c with
  | coverData b' =>
    have hb' : b' < 64508 := hc
    rw [apply, dmap_coverData (by omega) hb, Bool.or_eq_true, decide_eq_true_eq,
      Change.coverData.injEq, eq_comm (a := b)]
  | coverInode j => simp [apply]
  | setInode j x => simp [apply]
  | setData b content => simp [apply]

/-- A record changes where it is replaced. -/
theorem inode_apply {c : Change} {i : ℕ} (hi : i < 32768) :
    (d.apply c).inode i = d.inode i ∨ c = .setInode i ((d.apply c).inode i) := by
  cases c with
  | coverInode j => exact .inl (inode_coverInode j i)
  | setInode j x =>
    rw [apply, inode_setInode]
    by_cases h : i = j
    · exact .inr (by rw [if_pos h, h])
    · exact .inl (if_neg h)
  | coverData b => exact .inl (inode_coverData b i)
  | setData b content => exact .inl (inode_setData hi b content)

/-- A data block changes where it is written. -/
theorem data_apply {c : Change} (hc : c.part.InRange) (b : ℕ) :
    (d.apply c).data b = d.data b ∨ c = .setData b ((d.apply c).data b) := by
  cases c with
  | coverInode j => exact .inl (data_coverInode j b)
  | setInode j x => exact .inl (data_setInode hc x b)
  | coverData b' => exact .inl (data_coverData b' b)
  | setData b' content =>
    rw [apply, data_setData]
    by_cases h : b = b'
    · exact .inr (by rw [if_pos h, h])
    · exact .inl (if_neg h)

/-- A bit of the inode map is set where it was, or where the list sets it. -/
theorem imap_applyAll (hl : ∀ c ∈ l, c.part.InRange) {i : ℕ} (hi : i < 32768) :
    (d.applyAll l).imap i = true ↔ d.imap i = true ∨ .coverInode i ∈ l := by
  induction l generalizing d with
  | nil => simp
  | cons c l ih =>
    rw [applyAll_cons, ih fun b hb => hl b (List.mem_cons_of_mem _ hb),
      imap_apply (hl c (List.mem_cons_self ..)) hi, List.mem_cons, eq_comm (a := c), or_assoc]

/-- What is marked at the end was marked before or by one of the changes. -/
theorem dmap_applyAll (hl : ∀ c ∈ l, c.part.InRange) {b : ℕ} (hb : b < 65536) :
    (d.applyAll l).dmap b = true ↔ d.dmap b = true ∨ .coverData b ∈ l := by
  induction l generalizing d with
  | nil => simp
  | cons c l ih =>
    rw [applyAll_cons, ih fun b hb => hl b (List.mem_cons_of_mem _ hb),
      dmap_apply (hl c (List.mem_cons_self ..)) hb, List.mem_cons, eq_comm (a := c), or_assoc]

/-- A record is what it was, or one the list writes. -/
theorem inode_applyAll {i : ℕ} (hi : i < 32768) :
    (d.applyAll l).inode i = d.inode i ∨ .setInode i ((d.applyAll l).inode i) ∈ l := by
  induction l generalizing d with
  | nil => exact .inl rfl
  | cons c l ih =>
    rw [applyAll_cons]
    rcases ih (d := d.apply c) with h | h
    · rw [h]
      rcases inode_apply (d := d) (c := c) hi with h' | h'
      · exact .inl h'
      · exact .inr (List.mem_cons.mpr (.inl h'.symm))
    · exact .inr (List.mem_cons_of_mem _ h)

theorem data_applyAll (hl : ∀ c ∈ l, c.part.InRange) (b : ℕ) :
    (d.applyAll l).data b = d.data b ∨ .setData b ((d.applyAll l).data b) ∈ l := by
  induction l generalizing d with
  | nil => exact .inl rfl
  | cons c l ih =>
    rw [applyAll_cons]
    rcases ih (d := d.apply c) fun b hb => hl b (List.mem_cons_of_mem _ hb) with h | h
    · rw [h]
      rcases data_apply (d := d) (hl c (List.mem_cons_self ..)) b with h' | h'
      · exact .inl h'
      · exact .inr (List.mem_cons.mpr (.inl h'.symm))
    · exact .inr (List.mem_cons_of_mem _ h)

/-- A record that the list writes, always the same one. -/
theorem inode_applyAll_of_mem {i : ℕ} (hi : i < 32768) {x : INode} (hmem : .setInode i x ∈ l)
    (honly : ∀ y, .setInode i y ∈ l → y = x) : (d.applyAll l).inode i = x := by
  induction l generalizing d with
  | nil => cases hmem
  | cons c l ih =>
    rw [applyAll_cons]
    by_cases hin : .setInode i x ∈ l
    · exact ih hin fun y hy => honly y (List.mem_cons_of_mem _ hy)
    · obtain rfl : .setInode i x = c := (List.mem_cons.mp hmem).resolve_right hin
      rcases inode_applyAll (d := d.apply (.setInode i x)) (l := l) hi with h | h
      · rw [h, apply, inode_setInode, if_pos rfl]
      · exact honly _ (List.mem_cons_of_mem _ h)

/-- A block that is written with one content only has it at the end. -/
theorem data_applyAll_of_mem (hl : ∀ c ∈ l, c.part.InRange) {b : ℕ} {content : Block}
    (hmem : .setData b content ∈ l) (honly : ∀ content', .setData b content' ∈ l →
      content' = content) : (d.applyAll l).data b = content := by
  induction l generalizing d with
  | nil => cases hmem
  | cons c l ih =>
    rw [applyAll_cons]
    by_cases hin : .setData b content ∈ l
    · exact ih (fun c hc => hl c (List.mem_cons_of_mem _ hc)) hin fun y hy =>
        honly y (List.mem_cons_of_mem _ hy)
    · obtain rfl : .setData b content = c := (List.mem_cons.mp hmem).resolve_right hin
      rcases data_applyAll (d := d.apply (.setData b content)) (l := l)
          (fun c hc => hl c (List.mem_cons_of_mem _ hc)) b with h | h
      · rw [h, apply, data_setData, if_pos rfl]
      · exact honly _ (List.mem_cons_of_mem _ h)

end Disk

end InodeFs
