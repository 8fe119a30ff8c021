import InodeFs.Ops.Create

/-!
# The formatted disk

What `disk_init` and `mkfs` leave, whatever the 27 bytes behind the buffer of
`initial_datablock_map` are: a sound disk whose only directory is the empty root, with all
inodes but the root's free, and with at least 64288 data blocks that exist and are free.

The disk is computed from the run of `mkfs` (`run_mkfs_zeroDisk`) as `Disk.initial`, and everything
else is read off it, view by view: `imap_initial`, `dmap_initial`, `inode_initial`, `data_initial`.
The data map is the only one that depends on the 27 bytes. They are the bits from 32552 to 32767 and
from 65320 on of the map; the second range stands for no block.

`sound_initial` is where every run of `InodeFs.Properties.Runs` starts. `plainEnv`, `plainMemory`
and `letter` are the surroundings, the memory and the names of the examples that stand behind the
theorems.

The bytes behind the buffer are a parameter throughout, so that whatever is shown of a run holds for
each content of that memory. The number 64288 is what is left of the 64508 blocks if the bytes that
lie over existing blocks mark all of theirs, besides the four that are reserved.
-/

namespace InodeFs

/-! ### Zeros -/

/-- The record whose 128 bytes are zero. -/
def INode.cleared : INode := ⟨0, 0, 0, 0, 0, 0, 0, 0, 0, fun _ => 0, fun _ => 0, 0, fun _ => 0⟩

theorem INode.layout_cleared : INode.layout INode.cleared = fun _ => 0 := by
  have hint : intLayout 0 = fun _ => 0 := Layout.word_zero 4
  have hlong : longLayout 0 = fun _ => 0 := Layout.word_zero 8
  exact Layout.pair_zero hint <| Layout.pair_zero hint <| Layout.pair_zero hlong <|
    Layout.pair_zero hint <| Layout.pair_zero hint <| Layout.pair_zero hlong <|
    Layout.pair_zero hlong <| Layout.pair_zero hlong <| Layout.pair_zero hlong <|
    Layout.pair_zero (Layout.array_zero fun _ => hint) <|
    Layout.pair_zero (Layout.array_zero fun _ => hint) <| Layout.pair_zero hint rfl

/-- A block of zeros, seen as records. -/
theorem Block.inodes_zero (j : Fin 32) : Block.zero.inodes j = INode.cleared := by
  have h : Block.inodes.symm (fun _ => INode.cleared) = Block.zero :=
    Layout.array_zero fun _ => INode.layout_cleared
  rw [← h, Equiv.apply_symm_apply]

theorem Block.ints_zero (j : Fin 1024) : Block.zero.ints j = 0 := by
  have h : Block.ints.symm (fun _ => 0) = Block.zero :=
    Layout.array_zero fun _ => Layout.word_zero 4
  rw [← h, Equiv.apply_symm_apply]

theorem Block.pointers_zero (j : Fin 512) : Block.zero.pointers j = 0 := by
  have h : Block.pointers.symm (fun _ => 0) = Block.zero :=
    Layout.array_zero fun _ => Layout.word_zero 8
  rw [← h, Equiv.apply_symm_apply]

theorem Block.bit_zero (n : ℕ) : Block.zero.bit n = false := by
  rw [Block.bit, Block.get]
  split <;> simp [Block.zero]

/-! ### The views of the formatted disk -/

namespace Disk

variable (env : Env) (behind : Fin 27 → Byte)

/-- The disk the file system starts with. -/
def initial : Disk := zeroDisk.formatted env behind

/-- **`mkfs`** on a disk of zeros. -/
theorem run_mkfs_zeroDisk : (mkfs env behind).run vdisk zeroDisk = some (0, initial env behind) :=
  run_mkfs env behind zeroDisk

/-- The root has a record, and all others are zeros. -/
theorem inode_initial (i : ℕ) : (initial env behind).inode i =
    if i = 4 then giveTheValueToInode env INode.cleared else INode.cleared := by
  have hzero (j : ℕ) : zeroDisk.inode j = INode.cleared := Block.inodes_zero _
  rw [initial, formatted, inode_setInode, inode_coverInode, inode_withMaps, hzero, hzero]

/-- Formatting writes to no data block. -/
theorem data_initial (b : ℕ) : (initial env behind).data b = Block.zero := by
  rw [initial, formatted, data_setInode (by decide), data_coverInode, data_withMaps]
  rfl

/-- Exactly the root is marked. -/
theorem imap_initial {i : ℕ} (hi : i < 32768) :
    (initial env behind).imap i = decide (i = 4) := by
  have hmap : (zeroDisk.withMaps behind).imap i = false := by
    rw [imap, withMaps, Function.update_of_ne (by decide), Function.update_of_ne (by decide),
      Function.update_self, Block.bit_zero]
  rw [initial, formatted, imap_setInode, imap_coverInode (by decide) hi, hmap, Bool.false_or]

/-- The bits of the data map come from the buffer of 4069 bytes and the 27 behind it. -/
theorem dmap_initial (b : ℕ) : (initial env behind).dmap b =
    if b < 32768 then ((shortBuffer behind).set 0 240).bit b
    else (shortBuffer behind).bit (b - 32768) := by
  rw [initial, formatted, dmap_setInode, dmap_coverInode, dmap, withMaps, Function.update_self,
    Function.update_of_ne (by decide), Function.update_self]

/-- The bytes of the buffer itself are zeros. -/
theorem bit_shortBuffer {n : ℕ} (hn : n < 32552) : (shortBuffer behind).bit n = false := by
  have h8 : n / 8 < 4096 := by omega
  rw [Block.bit, Block.get, dif_pos h8, shortBuffer, dif_neg (by simp; omega)]
  simp

/-- The first byte, 240, marks the four reserved blocks. -/
theorem bit_shortBuffer_set {n : ℕ} (hn : n < 32552) :
    ((shortBuffer behind).set 0 240).bit n = decide (n < 4) := by
  have h8 : n / 8 < 4096 := by omega
  rw [Block.bit, Block.get, dif_pos h8, Block.set_apply]
  by_cases h0 : n / 8 = 0
  · have hlow : ∀ k : Fin 8, (240 : Byte).getLsbD (7 - k.val) = decide (k.val < 4) := by decide
    have hmod : n % 8 = n := by omega
    rw [if_pos h0, hmod]
    exact hlow ⟨n, by omega⟩
  · have hbit := bit_shortBuffer behind hn
    rw [Block.bit, Block.get, dif_pos h8] at hbit
    rw [if_neg h0, hbit]
    exact (decide_eq_false (by omega)).symm

/-- The reserved blocks are marked. -/
theorem dmap_initial_reserved {b : ℕ} (hb : b < 4) : (initial env behind).dmap b = true := by
  rw [dmap_initial, if_pos (by omega), bit_shortBuffer_set behind (by omega)]
  exact decide_eq_true hb

/-- Outside the bytes of the map that the short buffer does not cover, everything is free. -/
theorem dmap_initial_free {b : ℕ} (hb : 4 ≤ b) (h : b < 32552 ∨ 32768 ≤ b ∧ b < 64508) :
    (initial env behind).dmap b = false := by
  rw [dmap_initial]
  rcases h with h | h
  · rw [if_pos (by omega), bit_shortBuffer_set behind h]
    exact decide_eq_false (by omega)
  · rw [if_neg (by omega), bit_shortBuffer behind (by omega)]

/-- With zeros behind the short buffer, everything but the reserved blocks is free. -/
theorem dmap_initial_of_zero {behind : Fin 27 → Byte} (hbehind : ∀ k, behind k = 0) {b : ℕ}
    (hb : b < 65536) : (initial env behind).dmap b = decide (b < 4) := by
  have hbuffer : shortBuffer behind = Block.zero := by
    funext j
    unfold shortBuffer
    split
    · exact hbehind _
    · rfl
  rw [dmap_initial]
  by_cases hlow : b < 32552
  · rw [if_pos (by omega), bit_shortBuffer_set behind hlow]
  · have hfree : decide (b < 4) = false := decide_eq_false (by omega)
    have hne : b / 8 ≠ 0 := by omega
    rw [hbuffer, Block.bit_zero, hfree]
    split
    · rw [Block.bit, Block.get, dif_pos (by omega), Block.set_apply, if_neg hne]
      exact BitVec.getLsbD_zero
    · rfl

/-- Byte `k` behind the short buffer is byte `4069 + k` of the second map block. -/
theorem dmap_initial_behind (k : Fin 27) {j : ℕ} (hj : j < 8) :
    (initial env behind).dmap (32768 + 8 * (4069 + k.val) + (7 - j)) = (behind k).getLsbD j := by
  have hk := k.isLt
  have hoffset : 32768 + 8 * (4069 + k.val) + (7 - j) - 32768 = 8 * (4069 + k.val) + (7 - j) := by
    omega
  have hdiv : (8 * (4069 + k.val) + (7 - j)) / 8 = 4069 + k.val := by omega
  have hmod : 7 - (8 * (4069 + k.val) + (7 - j)) % 8 = j := by omega
  rw [dmap_initial, if_neg (by omega), hoffset, Block.bit, Block.get, hdiv, hmod,
    dif_pos (by omega), shortBuffer, dif_pos (by simp)]
  exact congrArg (fun i => (behind i).getLsbD j) (Fin.ext (Nat.add_sub_cancel_left ..))

/-- The root is the only directory. -/
theorem isDir_initial {p : ℕ} : (initial env behind).IsDir p ↔ p = 4 := by
  rw [IsDir, inode_initial]
  constructor
  · rintro ⟨-, hmode⟩
    by_contra hp
    rw [if_neg hp] at hmode
    exact absurd hmode (by decide)
  · rintro rfl
    exact ⟨by decide, rfl⟩

theorem ptr_initial (i r : ℕ) : ((initial env behind).inode i).ptr r = 0 := by
  rw [inode_initial]
  split <;> (unfold INode.ptr; split <;> rfl)

theorem stSize_initial (i : ℕ) : ((initial env behind).inode i).stSize = 0 := by
  rw [inode_initial]
  split <;> rfl

/-- The root is empty. -/
theorem count_initial (i : ℕ) : ((initial env behind).inode i).count = 0 := by
  rw [INode.count, stSize_initial]
  rfl

/-- No name is in use. -/
theorem graph_initial (p : ℕ) : (initial env behind).graph p = [] := by
  by_cases hp : (initial env behind).IsDir p
  · rw [graph_of_isDir hp, entriesOf, count_initial]
    rfl
  · exact graph_of_not_isDir hp

/-- **The formatted disk is sound.** -/
theorem sound_initial : (initial env behind).Sound where
  pointers := by
    refine ⟨fun i _ r => ?_, fun i _ r hr => absurd (ptr_initial env behind i r) hr,
      fun i _ _ _ r _ hr => absurd (ptr_initial env behind i r) hr, fun i _ k => ?_,
      fun i _ _ r => ptr_initial env behind i r, fun b hb => dmap_initial_reserved env behind hb⟩
    · rw [ptr_initial]
      decide
    · rw [inode_initial]
      split <;> rfl
  directories := by
    refine ⟨(isDir_initial env behind).mpr rfl, fun p hp => ?_, fun i _ _ => ?_, ?_⟩
    · refine ⟨?_, ?_, ?_, fun r hr => ?_⟩
      · rw [imap_initial env behind hp.1]
        exact decide_eq_true ((isDir_initial env behind).mp hp)
      · rw [count_initial, stSize_initial]
        rfl
      · rw [count_initial]
        decide
      · rw [count_initial] at hr
        omega
    · rw [stSize_initial]
      decide
    · -- the root is empty: the graph has no edges
      have hmem (p : ℕ) (e : FileName × ℕ) : e ∉ (initial env behind).graph p := by
        rw [graph_initial]
        exact List.not_mem_nil
      refine ⟨⟨fun p => ?_, fun p => ?_, fun hp _ => absurd hp (hmem _ _),
        fun hp => absurd hp (hmem _ _)⟩, fun p e he => absurd he (hmem p e),
        fun p e he => absurd he (hmem p e), fun p e he => absurd he (hmem p e)⟩ <;>
        simp [graph_initial]
  zero := data_initial env behind 0

/-- The first file made gets inode 0, before the root. -/
theorem nextInode_initial : (initial env behind).nextInode = 0 := by
  have hfree : (initial env behind).freeInode = some 0 := by
    refine freeInode_eq_some.mpr ⟨by decide, ?_, fun m hm => absurd hm (Nat.not_lt_zero m)⟩
    rw [imap_initial env behind (by decide)]
    rfl
  rw [nextInode, hfree, Option.getD_some]

/-- The first block taken is the first one that is not reserved. -/
theorem nextData_initial : (initial env behind).nextData = 4 := by
  have hfree : (initial env behind).freeData = some 4 := by
    refine freeData_eq_some.mpr ⟨by decide, dmap_initial_free env behind le_rfl (.inl (by decide)),
      fun m hm => dmap_initial_reserved env behind hm⟩
  rw [nextData, hfree, Option.getD_some]

end Disk

/-! ### Concrete surroundings -/

/-- Surroundings with zeros everywhere and signed characters, for the worked cases. -/
def plainEnv : Env where
  uid := 0
  gid := 0
  time _ := 0
  stack _ := Block.zero
  stackHigh _ := Block.zero
  charSigned := true

/-- Memory full of NULs. -/
def plainMemory : ℕ → Byte := fun _ => 0

/-- Names of one letter. -/
def letter (c : Byte) (hslash : c ≠ slash := by decide) (hnul : c ≠ 0 := by decide) : Name where
  chars := [c]
  ne_nil := List.cons_ne_nil c []
  length_le := by simp
  noSlash _ hb := by rwa [List.mem_singleton.mp hb]
  noNul _ hb := by rwa [List.mem_singleton.mp hb]

end InodeFs
