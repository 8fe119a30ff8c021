import InodeFs.Code.Remove
import InodeFs.Code.File

/-!
# The disk as maps, records and blocks

The layer the results are stated on: a disk is looked at as an inode map, a data map, a table
of inode records and an array of data blocks, and changed by marking a number, replacing a
record and replacing a data block. The lemmas say what each change does to each of the four
views; `InodeFs.Disk.Exec` shows that the functions of `fs.c` make exactly these changes.

The views are independent of each other: a change shows in one of them, and the others are as they
were. So almost every lemma is one of two kinds, the view that a change is about (`imap_coverInode`,
`inode_setInode`, `data_setData`) and a view that it leaves alone, which is a simp lemma. A block of
records and a data block never coincide, which needs the bound on the number of the record.

Changes of different parts may change places (`setInode_comm`, `setData_setInode`,
`coverData_setData`), which is used where the code writes a record back that it has read before.

Bits of a map are numbered from the highest bit of a byte on, as the masks of the source have it. A
number beyond a map, or a record beyond the table, is a number all the same; the lemmas ask for the
bounds where they matter.
-/

namespace InodeFs

/-! ### Bits of a map block -/

namespace Block

/-- Bit `n` of a map block: mask `n % 8` of byte `n / 8`, the highest bit first. -/
def bit (b : Block) (n : ℕ) : Bool := (b.get (n / 8)).getLsbD (7 - n % 8)

/-- A map block with an element of a mask table combined into the byte of number `n`. -/
def orMask (table : Fin 8 → Byte) (b : Block) (n : ℕ) : Block :=
  Function.update b ⟨n / 8 % 4096, by omega⟩
    (b ⟨n / 8 % 4096, by omega⟩ ||| table ⟨n % 8, by omega⟩)

/-- A mask has one bit. -/
theorem getLsbD_bitMapMask {k j : ℕ} (hk : k < 8) (hj : j < 8) :
    (bitMapMask ⟨k, hk⟩).getLsbD (7 - j) = decide (j = k) := by
  have h : ∀ k j : Fin 8, (bitMapMask k).getLsbD (7 - j.val) = decide (j.val = k.val) := by
    decide
  exact h ⟨k, hk⟩ ⟨j, hj⟩

/-- The masks of the uncovering functions have the seven other bits. -/
theorem getLsbD_uncoverDataBlock {k j : ℕ} (hk : k < 8) (hj : j < 8) :
    (uncoverDataBlock ⟨k, hk⟩).getLsbD (7 - j) = decide (j ≠ k) := by
  have h : ∀ k j : Fin 8, (uncoverDataBlock k).getLsbD (7 - j.val) = decide (j.val ≠ k.val) := by
    decide
  exact h ⟨k, hk⟩ ⟨j, hj⟩

/-- ORing a mask into a byte of a map sets bits of that byte. -/
theorem bit_orMask (table : Fin 8 → Byte) (b : Block) {n m : ℕ} (hn : n < 32768)
    (hm : m < 32768) :
    (b.orMask table n).bit m =
      (b.bit m || (decide (m / 8 = n / 8) && (table ⟨n % 8, by omega⟩).getLsbD (7 - m % 8))) := by
  have hn8 : n / 8 % 4096 = n / 8 := by omega
  have hm8 : m / 8 < 4096 := by omega
  simp only [bit, Block.get, dif_pos hm8, orMask, Function.update_apply, Fin.mk.injEq, hn8]
  by_cases h : m / 8 = n / 8
  · simp [h]
  · simp [h]

/-- Covering sets one bit. -/
theorem bit_orMask_bitMapMask (b : Block) {n m : ℕ} (hn : n < 32768) (hm : m < 32768) :
    (b.orMask bitMapMask n).bit m = (b.bit m || decide (m = n)) := by
  rw [bit_orMask _ _ hn hm, getLsbD_bitMapMask _ (by omega)]
  congr 1
  rw [← Bool.decide_and]
  exact decide_eq_decide.mpr (by omega)

/-- "Uncovering" clears no bit: it sets the seven other bits of the byte. -/
theorem bit_orMask_uncoverDataBlock (b : Block) {n m : ℕ} (hn : n < 32768) (hm : m < 32768) :
    (b.orMask uncoverDataBlock n).bit m = (b.bit m || decide (m / 8 = n / 8 ∧ m ≠ n)) := by
  rw [bit_orMask _ _ hn hm, getLsbD_uncoverDataBlock _ (by omega)]
  congr 1
  rw [← Bool.decide_and]
  exact decide_eq_decide.mpr (by omega)

/-- Slot `j` of a directory block. -/
def entry (b : Block) (j : ℕ) : DictioryContent := b.entries ⟨j % 128, by omega⟩

/-- A directory block with slot `j` replaced. -/
def setEntry (b : Block) (j : ℕ) (e : DictioryContent) : Block :=
  entries.symm (Function.update b.entries ⟨j % 128, by omega⟩ e)

/-- One slot is replaced. -/
theorem entry_setEntry (b : Block) (i j : ℕ) (e : DictioryContent) :
    (b.setEntry j e).entry i = if i % 128 = j % 128 then e else b.entry i := by
  simp only [entry, setEntry, Equiv.apply_symm_apply, Function.update_apply, Fin.mk.injEq]

end Block

/-! ### Pointers of a record -/

namespace INode

/-- The data block number in direct pointer `r`. -/
def ptr (x : INode) (r : ℕ) : ℕ := if h : r < 12 then (x.directPointer ⟨r, h⟩).toNat else 0

/-- The record with direct pointer `r` replaced. -/
def setPtr (x : INode) (r b : ℕ) : INode :=
  if h : r < 12 then
    { x with directPointer := Function.update x.directPointer ⟨r, h⟩ (BitVec.ofNat 32 b) }
  else x

/-- One direct pointer is replaced. -/
theorem ptr_setPtr (x : INode) {r b : ℕ} (hr : r < 12) (hb : b < 65536) (q : ℕ) :
    (x.setPtr r b).ptr q = if q = r then b else x.ptr q := by
  have hb' : b < 2 ^ 32 := by omega
  by_cases hq : q < 12
  · by_cases h : q = r
    · subst h
      simpa [ptr, setPtr, hr] using hb'
    · simp [ptr, setPtr, hr, hq, h]
  · have hqr : q ≠ r := by omega
    simp [ptr, hq, hqr]

@[simp] theorem setPtr_stMode (x : INode) (r b : ℕ) : (x.setPtr r b).stMode = x.stMode := by
  unfold setPtr; split <;> rfl

@[simp] theorem setPtr_stSize (x : INode) (r b : ℕ) : (x.setPtr r b).stSize = x.stSize := by
  unfold setPtr; split <;> rfl

@[simp] theorem setPtr_indirectPointer (x : INode) (r b : ℕ) :
    (x.setPtr r b).indirectPointer = x.indirectPointer := by
  unfold setPtr; split <;> rfl

end INode

/-! ### Views of the disk -/

namespace Disk

variable (d : Disk)

/-- The inode map. -/
def imap (n : ℕ) : Bool := (d 1).bit n

/-- The data map: block 2, then block 3. -/
def dmap (n : ℕ) : Bool := if n < 32768 then (d 2).bit n else (d 3).bit (n - 32768)

/-- The inode table: record `n % 32` of block `4 + n / 32`. -/
def inode (n : ℕ) : INode := (d (4 + n / 32)).inodes ⟨n % 32, by omega⟩

/-- The data blocks. -/
def data (b : ℕ) : Block := d (1028 + b)

/-! ### Changes -/

/-- Mark an inode number. -/
def coverInode (n : ℕ) : Disk := Function.update d 1 ((d 1).orMask bitMapMask n)

/-- What `make_inode_map_uncovered` does. -/
def uncoverInode (n : ℕ) : Disk := Function.update d 1 ((d 1).orMask uncoverDataBlock n)

/-- Combine a mask into the data map at number `n`. -/
def orDataMap (table : Fin 8 → Byte) (n : ℕ) : Disk :=
  if n < 32768 then Function.update d 2 ((d 2).orMask table n)
  else Function.update d 3 ((d 3).orMask table (n - 32768))

/-- Mark a data block number. -/
def coverData (n : ℕ) : Disk := d.orDataMap bitMapMask n

/-- What `make_data_map_uncovered` does. -/
def uncoverData (n : ℕ) : Disk := d.orDataMap uncoverDataBlock n

/-- Replace an inode record. -/
def setInode (n : ℕ) (x : INode) : Disk :=
  Function.update d (4 + n / 32)
    (Block.inodes.symm (Function.update (d (4 + n / 32)).inodes ⟨n % 32, by omega⟩ x))

/-- Replace a data block. -/
def setData (b : ℕ) (content : Block) : Disk := Function.update d (1028 + b) content

variable {d}

/-! ### The inode map -/

/-- Covering an inode marks it. -/
theorem imap_coverInode {n m : ℕ} (hn : n < 32768) (hm : m < 32768) :
    (d.coverInode n).imap m = (d.imap m || decide (m = n)) := by
  simp only [imap, coverInode, Function.update_self]
  exact Block.bit_orMask_bitMapMask _ hn hm

/-- Uncovering an inode marks its seven neighbours. -/
theorem imap_uncoverInode {n m : ℕ} (hn : n < 32768) (hm : m < 32768) :
    (d.uncoverInode n).imap m = (d.imap m || decide (m / 8 = n / 8 ∧ m ≠ n)) := by
  simp only [imap, uncoverInode, Function.update_self]
  exact Block.bit_orMask_uncoverDataBlock _ hn hm

@[simp] theorem imap_orDataMap (table : Fin 8 → Byte) (n m : ℕ) :
    (d.orDataMap table n).imap m = d.imap m := by
  unfold orDataMap imap
  split <;> rw [Function.update_of_ne (by decide)]

@[simp] theorem imap_coverData (n m : ℕ) : (d.coverData n).imap m = d.imap m :=
  imap_orDataMap _ _ _

@[simp] theorem imap_uncoverData (n m : ℕ) : (d.uncoverData n).imap m = d.imap m :=
  imap_orDataMap _ _ _

@[simp] theorem imap_setInode (n : ℕ) (x : INode) (m : ℕ) :
    (d.setInode n x).imap m = d.imap m := by
  unfold setInode imap
  rw [Function.update_of_ne (by omega)]

@[simp] theorem imap_setData (b : ℕ) (content : Block) (m : ℕ) :
    (d.setData b content).imap m = d.imap m := by
  unfold setData imap
  rw [Function.update_of_ne (by omega)]

/-! ### The data map -/

@[simp] theorem dmap_coverInode (n m : ℕ) : (d.coverInode n).dmap m = d.dmap m := by
  unfold coverInode dmap
  rw [Function.update_of_ne (by decide), Function.update_of_ne (by decide)]

@[simp] theorem dmap_uncoverInode (n m : ℕ) : (d.uncoverInode n).dmap m = d.dmap m := by
  unfold uncoverInode dmap
  rw [Function.update_of_ne (by decide), Function.update_of_ne (by decide)]

theorem dmap_orDataMap (table : Fin 8 → Byte) {n m : ℕ} (hn : n < 65536) (hm : m < 65536) :
    (d.orDataMap table n).dmap m =
      (d.dmap m || (decide (m / 8 = n / 8) && (table ⟨n % 8, by omega⟩).getLsbD (7 - m % 8))) := by
  rw [orDataMap, dmap, dmap]
  by_cases hn2 : n < 32768 <;> by_cases hm2 : m < 32768
  · simp only [if_pos hn2, if_pos hm2]
    rw [Function.update_self, Block.bit_orMask _ _ hn2 hm2]
  · have hne : ¬ m / 8 = n / 8 := by omega
    simp only [if_pos hn2, if_neg hm2]
    rw [Function.update_of_ne (by decide)]
    simp [hne]
  · have hne : ¬ m / 8 = n / 8 := by omega
    simp only [if_neg hn2, if_pos hm2]
    rw [Function.update_of_ne (by decide)]
    simp [hne]
  · obtain ⟨n, rfl⟩ := Nat.exists_eq_add_of_le (Nat.le_of_not_lt hn2)
    obtain ⟨m, rfl⟩ := Nat.exists_eq_add_of_le (Nat.le_of_not_lt hm2)
    have hdiv : (32768 + m) / 8 = (32768 + n) / 8 ↔ m / 8 = n / 8 := by omega
    have hmod : ∀ k, (32768 + k) % 8 = k % 8 := fun k => by omega
    simp only [if_neg hn2, if_neg hm2, Nat.add_sub_cancel_left, hdiv, hmod]
    rw [Function.update_self, Block.bit_orMask _ _ (by omega) (by omega)]

/-- Covering a block marks it. -/
theorem dmap_coverData {n m : ℕ} (hn : n < 65536) (hm : m < 65536) :
    (d.coverData n).dmap m = (d.dmap m || decide (m = n)) := by
  rw [coverData, dmap_orDataMap _ hn hm, Block.getLsbD_bitMapMask _ (by omega)]
  congr 1
  rw [← Bool.decide_and]
  exact decide_eq_decide.mpr (by omega)

/-- Uncovering a block marks its seven neighbours. -/
theorem dmap_uncoverData {n m : ℕ} (hn : n < 65536) (hm : m < 65536) :
    (d.uncoverData n).dmap m = (d.dmap m || decide (m / 8 = n / 8 ∧ m ≠ n)) := by
  rw [uncoverData, dmap_orDataMap _ hn hm, Block.getLsbD_uncoverDataBlock _ (by omega)]
  congr 1
  rw [← Bool.decide_and]
  exact decide_eq_decide.mpr (by omega)

@[simp] theorem dmap_setInode (n : ℕ) (x : INode) (m : ℕ) :
    (d.setInode n x).dmap m = d.dmap m := by
  unfold setInode dmap
  rw [Function.update_of_ne (by omega), Function.update_of_ne (by omega)]

@[simp] theorem dmap_setData (b : ℕ) (content : Block) (m : ℕ) :
    (d.setData b content).dmap m = d.dmap m := by
  unfold setData dmap
  rw [Function.update_of_ne (by omega), Function.update_of_ne (by omega)]

/-! ### The inode table -/

@[simp] theorem inode_coverInode (n m : ℕ) : (d.coverInode n).inode m = d.inode m := by
  unfold coverInode inode
  rw [Function.update_of_ne (by omega)]

@[simp] theorem inode_uncoverInode (n m : ℕ) : (d.uncoverInode n).inode m = d.inode m := by
  unfold uncoverInode inode
  rw [Function.update_of_ne (by omega)]

@[simp] theorem inode_orDataMap (table : Fin 8 → Byte) (n m : ℕ) :
    (d.orDataMap table n).inode m = d.inode m := by
  unfold orDataMap inode
  split <;> rw [Function.update_of_ne (by omega)]

@[simp] theorem inode_coverData (n m : ℕ) : (d.coverData n).inode m = d.inode m :=
  inode_orDataMap _ _ _

@[simp] theorem inode_uncoverData (n m : ℕ) : (d.uncoverData n).inode m = d.inode m :=
  inode_orDataMap _ _ _

/-- One record is replaced. -/
theorem inode_setInode (n : ℕ) (x : INode) (m : ℕ) :
    (d.setInode n x).inode m = if m = n then x else d.inode m := by
  unfold setInode inode
  by_cases hb : m / 32 = n / 32
  · rw [hb, Function.update_self, Equiv.apply_symm_apply, Function.update_apply]
    have hiff : (⟨m % 32, by omega⟩ : Fin 32) = ⟨n % 32, by omega⟩ ↔ m = n := by
      rw [Fin.mk.injEq]
      omega
    simp only [hiff]
  · have hmn : m ≠ n := fun h => hb (h ▸ rfl)
    rw [Function.update_of_ne (by omega), if_neg hmn]

@[simp] theorem inode_setInode_self (n : ℕ) (x : INode) : (d.setInode n x).inode n = x := by
  rw [inode_setInode, if_pos rfl]

theorem inode_setInode_of_ne {n m : ℕ} (h : m ≠ n) (x : INode) :
    (d.setInode n x).inode m = d.inode m := by
  rw [inode_setInode, if_neg h]

theorem inode_setData {m : ℕ} (hm : m < 32768) (b : ℕ) (content : Block) :
    (d.setData b content).inode m = d.inode m := by
  unfold setData inode
  rw [Function.update_of_ne (by omega)]

/-! ### Data blocks -/

@[simp] theorem data_coverInode (n b : ℕ) : (d.coverInode n).data b = d.data b := by
  unfold coverInode data
  rw [Function.update_of_ne (by omega)]

@[simp] theorem data_uncoverInode (n b : ℕ) : (d.uncoverInode n).data b = d.data b := by
  unfold uncoverInode data
  rw [Function.update_of_ne (by omega)]

@[simp] theorem data_orDataMap (table : Fin 8 → Byte) (n b : ℕ) :
    (d.orDataMap table n).data b = d.data b := by
  unfold orDataMap data
  split <;> rw [Function.update_of_ne (by omega)]

@[simp] theorem data_coverData (n b : ℕ) : (d.coverData n).data b = d.data b :=
  data_orDataMap _ _ _

@[simp] theorem data_uncoverData (n b : ℕ) : (d.uncoverData n).data b = d.data b :=
  data_orDataMap _ _ _

theorem data_setInode {n : ℕ} (hn : n < 32768) (x : INode) (b : ℕ) :
    (d.setInode n x).data b = d.data b := by
  unfold setInode data
  rw [Function.update_of_ne (by omega)]

/-- One data block is replaced. -/
theorem data_setData (b : ℕ) (content : Block) (c : ℕ) :
    (d.setData b content).data c = if c = b then content else d.data c := by
  unfold setData data
  rw [Function.update_apply]
  simp

@[simp] theorem data_setData_self (b : ℕ) (content : Block) :
    (d.setData b content).data b = content := by
  rw [data_setData, if_pos rfl]

/-! ### Changes of different parts commute -/

theorem setInode_inode (d : Disk) (n : ℕ) : d.setInode n (d.inode n) = d := by
  rw [setInode, inode, Function.update_eq_self, Equiv.symm_apply_apply, Function.update_eq_self]

theorem setInode_setInode (n : ℕ) (x y : INode) :
    (d.setInode n x).setInode n y = d.setInode n y := by
  simp only [setInode, Function.update_self, Equiv.apply_symm_apply, Function.update_idem]

/-- Different records are replaced in any order. -/
theorem setInode_comm {n m : ℕ} (h : m ≠ n) (x y : INode) :
    (d.setInode n x).setInode m y = (d.setInode m y).setInode n x := by
  by_cases hblock : 4 + m / 32 = 4 + n / 32
  · have hindex : (⟨m % 32, by omega⟩ : Fin 32) ≠ ⟨n % 32, by omega⟩ := fun heq =>
      h (by have := Fin.mk.inj heq; omega)
    simp only [setInode, hblock, Function.update_self, Equiv.apply_symm_apply, Function.update_idem,
      Function.update_comm hindex]
  · simp only [setInode, Function.update_of_ne hblock, Function.update_of_ne (Ne.symm hblock)]
    exact Function.update_comm (Ne.symm hblock) _ _ _

theorem setData_setInode {n : ℕ} (hn : n < 32768) (x : INode) (b : ℕ) (content : Block) :
    (d.setInode n x).setData b content = (d.setData b content).setInode n x := by
  have hne : 4 + n / 32 ≠ 1028 + b := by omega
  simp only [setInode, setData, Function.update_of_ne hne]
  exact Function.update_comm hne _ _ _

/-- Different data blocks are replaced in any order. -/
theorem setData_comm {b c : ℕ} (h : b ≠ c) (content content' : Block) :
    (d.setData b content).setData c content' = (d.setData c content').setData b content := by
  have hne : 1028 + b ≠ 1028 + c := by omega
  simp only [setData]
  exact Function.update_comm hne _ _ _

theorem orDataMap_setData (table : Fin 8 → Byte) (b : ℕ) (content : Block) (n : ℕ) :
    (d.setData b content).orDataMap table n = (d.orDataMap table n).setData b content := by
  have h2 : 1028 + b ≠ 2 := by omega
  have h3 : 1028 + b ≠ 3 := by omega
  unfold orDataMap
  split
  · simp only [setData, Function.update_of_ne h2.symm]
    exact Function.update_comm h2 _ _ _
  · simp only [setData, Function.update_of_ne h3.symm]
    exact Function.update_comm h3 _ _ _

theorem coverData_setData (b : ℕ) (content : Block) (n : ℕ) :
    (d.setData b content).coverData n = (d.coverData n).setData b content :=
  orDataMap_setData _ _ _ _

theorem orDataMap_setInode (table : Fin 8 → Byte) (n : ℕ) (x : INode) (b : ℕ) :
    (d.setInode n x).orDataMap table b = (d.orDataMap table b).setInode n x := by
  have h2 : 4 + n / 32 ≠ 2 := by omega
  have h3 : 4 + n / 32 ≠ 3 := by omega
  unfold orDataMap
  split
  · simp only [setInode, Function.update_of_ne h2, Function.update_of_ne h2.symm]
    exact Function.update_comm h2 _ _ _
  · simp only [setInode, Function.update_of_ne h3, Function.update_of_ne h3.symm]
    exact Function.update_comm h3 _ _ _

theorem coverData_setInode (n : ℕ) (x : INode) (b : ℕ) :
    (d.setInode n x).coverData b = (d.coverData b).setInode n x := orDataMap_setInode _ _ _ _

end Disk

end InodeFs
