import InodeFs.Disk.Changes
import InodeFs.State.Format

/-!
# Freeing

`uncover_data_block` is the complement of `bit_map_mask`, a table of masks to combine with `&`,
but both functions that free a number combine it with `|`. `freeing_iff` says of either map what
comes of that: the bit of the number stays as it is and the seven others of its byte are set, so
that a call frees a number exactly where it has nothing to do. Nothing that was taken is given
back.

What freeing should be is stated apart from the code, as five properties of a map (`Frees`,
`Undoes`, `FindsAgain`, `FreesOnce`, `FreesInAnyOrder`), for either map and every number. The last
two hold, as bits are only ever set: freeing twice is freeing once, and the order of two calls does
not matter. `Undoes` never holds of a free number, and the first and the third hold only where the
map happens to need nothing.

`AllocationMap` has the two maps as one, so that every lemma is proved once. The maps differ in size
and in the block a number is in; the bits of a byte are the same.
-/

namespace InodeFs

/-- The two allocation maps. -/
inductive AllocationMap : Type
  | inodes
  | blocks

namespace AllocationMap

/-- How many numbers the map is for. -/
def size : AllocationMap → ℕ
  | inodes => 32768
  | blocks => 65536

/-- Is the number taken? -/
def bit : AllocationMap → Disk → ℕ → Bool
  | inodes => Disk.imap
  | blocks => Disk.dmap

/-- The disk block in which the bit of the number lies. -/
def block : AllocationMap → ℕ → ℕ
  | inodes, _ => 1
  | blocks, n => if n < 32768 then 2 else 3

/-- The function that takes a number. -/
def makeCovered (env : Env) : AllocationMap → ℤ → Fs Unit
  | inodes => makeInodeMapCovered env
  | blocks => makeDataMapCovered env

/-- The function that gives a number back. -/
def makeUncovered (env : Env) : AllocationMap → ℤ → Fs Unit
  | inodes => makeInodeMapUncovered env
  | blocks => makeDataMapUncovered env

/-- The function that finds a free number. -/
def findEmpty (env : Env) : AllocationMap → Fs ℤ
  | inodes => findEmptyInode env
  | blocks => findEmptyDatablock env

/-! ### What freeing is to do -/

section Laws

variable (map : AllocationMap) (env : Env) (d : Disk) (n : ℕ)

/-- **The number is freed**: its bit is cleared, and nothing else changes. -/
def Frees : Prop := ∃ d', (map.makeUncovered env n).run vdisk d = some ((), d') ∧
  map.bit d' n = false ∧ (∀ m < map.size, m ≠ n → map.bit d' m = map.bit d m) ∧
  ∀ id, id ≠ map.block n → d' id = d id

/-- Freeing undoes taking. -/
def Undoes : Prop := ∃ d',
  (map.makeCovered env n >>= fun _ => map.makeUncovered env n).run vdisk d =
  some ((), d') ∧ ∀ m < map.size, map.bit d' m = map.bit d m

/-- A number that was taken and freed is found. -/
def FindsAgain : Prop := ∃ d', (map.makeCovered env n >>= fun _ => map.makeUncovered env n >>=
  fun _ => map.findEmpty env).run vdisk d = some ((n : ℤ), d')

/-- Freeing a number twice is freeing it once. -/
def FreesOnce : Prop := (map.makeUncovered env n >>= fun _ => map.makeUncovered env n).run vdisk d =
  (map.makeUncovered env n).run vdisk d

/-- Two numbers may be freed in either order. -/
def FreesInAnyOrder (m : ℕ) : Prop :=
  (map.makeUncovered env n >>= fun _ => map.makeUncovered env m).run vdisk d =
    (map.makeUncovered env m >>= fun _ => map.makeUncovered env n).run vdisk d

end Laws

/-! ### What the functions do -/

/-- The disk with the number taken. -/
def cover : AllocationMap → Disk → ℕ → Disk
  | inodes => Disk.coverInode
  | blocks => Disk.coverData

/-- The disk that the freeing function leaves. -/
def uncover : AllocationMap → Disk → ℕ → Disk
  | inodes => Disk.uncoverInode
  | blocks => Disk.uncoverData

/-- The lowest free number, or 0. -/
def next : AllocationMap → Disk → ℕ
  | inodes => Disk.nextInode
  | blocks => Disk.nextData

variable (map : AllocationMap) {d : Disk} {n m : ℕ}

theorem run_makeCovered (env : Env) (hn : n < map.size) (d : Disk) :
    (map.makeCovered env n).run vdisk d = some ((), map.cover d n) := by
  cases map with
  | inodes => exact run_makeInodeMapCovered env hn d
  | blocks => exact run_makeDataMapCovered env hn d

theorem run_makeUncovered (env : Env) (hn : n < map.size) (d : Disk) :
    (map.makeUncovered env n).run vdisk d = some ((), map.uncover d n) := by
  cases map with
  | inodes => exact run_makeInodeMapUncovered env hn d
  | blocks => exact run_makeDataMapUncovered env hn d

theorem run_findEmpty (env : Env) (d : Disk) :
    (map.findEmpty env).run vdisk d = some ((map.next d : ℤ), d) := by
  cases map with
  | inodes => exact run_findEmptyInode env d
  | blocks => exact run_findEmptyDatablock env d

/-- Covering marks one number. -/
theorem bit_cover (hn : n < map.size) (hm : m < map.size) :
    map.bit (map.cover d n) m = (map.bit d m || decide (m = n)) := by
  cases map with
  | inodes => exact Disk.imap_coverInode hn hm
  | blocks => exact Disk.dmap_coverData hn hm

/-- Freeing sets the other bits of the byte. -/
theorem bit_uncover (hn : n < map.size) (hm : m < map.size) :
    map.bit (map.uncover d n) m = (map.bit d m || decide (m / 8 = n / 8 ∧ m ≠ n)) := by
  cases map with
  | inodes => exact Disk.imap_uncoverInode hn hm
  | blocks => exact Disk.dmap_uncoverData hn hm

/-- The bit itself stays as it is. -/
theorem bit_uncover_self (hn : n < map.size) : map.bit (map.uncover d n) n = map.bit d n := by
  rw [map.bit_uncover hn hn]
  simp

/-- Uncovering writes to one block of the map. -/
theorem uncover_apply_of_ne {id : ℕ} (hid : id ≠ map.block n) : map.uncover d n id = d id := by
  cases map with
  | inodes => exact Function.update_of_ne hid _ _
  | blocks =>
    rw [block] at hid
    rw [uncover, Disk.uncoverData, Disk.orDataMap]
    split
    · next h =>
      rw [if_pos h] at hid
      exact Function.update_of_ne hid _ _
    · next h =>
      rw [if_neg h] at hid
      exact Function.update_of_ne hid _ _

/-- The search returns a number that is free and the lowest such, or 0 if there is none. -/
theorem next_eq_iff : map.next d = n ↔
    n < map.size ∧ map.bit d n = false ∧ (∀ m < n, map.bit d m = true) ∨
      n = 0 ∧ ∀ m < map.size, map.bit d m = true := by
  have hiff (free : Option ℕ)
      (hsome : ∀ k, free = some k ↔
        k < map.size ∧ map.bit d k = false ∧ ∀ m < k, map.bit d m = true)
      (hnone : free = none ↔ ∀ m < map.size, map.bit d m = true) :
      free.getD 0 = n ↔ n < map.size ∧ map.bit d n = false ∧ (∀ m < n, map.bit d m = true) ∨
        n = 0 ∧ ∀ m < map.size, map.bit d m = true := by
    rw [← hsome n, ← hnone]
    cases free with
    | none => simp [eq_comm]
    | some k => simp
  cases map with
  | inodes => exact hiff d.freeInode (fun _ => Disk.freeInode_eq_some) Disk.freeInode_eq_none
  | blocks => exact hiff d.freeData (fun _ => Disk.freeData_eq_some) Disk.freeData_eq_none

/-- Uncovering twice is uncovering once: bits are only set. -/
theorem uncover_uncover (d : Disk) (n : ℕ) :
    map.uncover (map.uncover d n) n = map.uncover d n := by
  cases map with
  | inodes =>
    simp only [uncover, Disk.uncoverInode, Function.update_self, Function.update_idem,
      Block.orMask_orMask]
  | blocks =>
    simp only [uncover, Disk.uncoverData, Disk.orDataMap]
    split
    · simp only [Function.update_self, Function.update_idem, Block.orMask_orMask]
    · simp only [Function.update_self, Function.update_idem, Block.orMask_orMask]

/-- The order of two uncoverings does not matter. -/
theorem uncover_comm (d : Disk) (n m : ℕ) :
    map.uncover (map.uncover d n) m = map.uncover (map.uncover d m) n := by
  cases map with
  | inodes =>
    simp only [uncover, Disk.uncoverInode, Function.update_self, Function.update_idem]
    rw [Block.orMask_comm]
  | blocks =>
    have h23 : (2 : ℕ) ≠ 3 := by decide
    simp only [uncover, Disk.uncoverData, Disk.orDataMap]
    by_cases hn : n < 32768 <;> by_cases hm : m < 32768
    · simp only [if_pos hn, if_pos hm, Function.update_self, Function.update_idem]
      rw [Block.orMask_comm]
    · simp only [if_pos hn, if_neg hm, Function.update_of_ne h23, Function.update_of_ne h23.symm]
      exact Function.update_comm h23 _ _ _
    · simp only [if_neg hn, if_pos hm, Function.update_of_ne h23, Function.update_of_ne h23.symm]
      exact Function.update_comm h23.symm _ _ _
    · simp only [if_neg hn, if_neg hm, Function.update_self, Function.update_idem]
      rw [Block.orMask_comm]

/-! ### Nothing is given back -/

section Freeing

variable (env : Env) (d) (hn : n < map.size)
include hn

/-- **Giving a number back frees it** exactly where it was free, and its seven neighbours were not.
-/
theorem frees_iff : map.Frees env d n ↔ map.bit d n = false ∧
    ∀ m < map.size, m / 8 = n / 8 → m ≠ n → map.bit d m = true := by
  rw [Frees, map.run_makeUncovered env hn]
  constructor
  · rintro ⟨d', hrun, hclear, hsame, -⟩
    obtain ⟨-, rfl⟩ := Prod.mk.inj (Option.some.inj hrun)
    rw [map.bit_uncover_self hn] at hclear
    refine ⟨hclear, fun m hm hbyte hne => ?_⟩
    have hbit := hsame m hm hne
    rwa [map.bit_uncover hn hm, decide_eq_true ⟨hbyte, hne⟩, Bool.or_true, eq_comm] at hbit
  · rintro ⟨hclear, hset⟩
    refine ⟨_, rfl, (map.bit_uncover_self hn).trans hclear, fun m hm hne => ?_,
      fun id hid => map.uncover_apply_of_ne hid⟩
    rw [map.bit_uncover hn hm]
    by_cases hbyte : m / 8 = n / 8
    · rw [hset m hm hbyte hne, Bool.true_or]
    · simp [hbyte]

/-- What is taken and freed, together with its byte, stays taken. -/
theorem bit_uncover_cover {m : ℕ} (hm : m < map.size) :
    map.bit (map.uncover (map.cover d n) n) m = (map.bit d m || decide (m / 8 = n / 8)) := by
  rw [map.bit_uncover hn hm, map.bit_cover hn hm, Bool.or_assoc, ← Bool.decide_or]
  congr 1
  exact decide_eq_decide.mpr (by omega)

/-- Covering and uncovering a free number does not lead back. -/
theorem not_undoes (hfree : map.bit d n = false) : ¬ map.Undoes env d n := by
  rintro ⟨d', hrun, hsame⟩
  rw [Prog.run_bind_some _ (map.run_makeCovered env hn d), map.run_makeUncovered env hn] at hrun
  obtain ⟨-, rfl⟩ := Prod.mk.inj (Option.some.inj hrun)
  have hbit := hsame n hn
  rw [map.bit_uncover_cover d hn hn, hfree] at hbit
  simp at hbit

/-- The number is found again only if it is 0 and everything behind the first byte is marked. -/
theorem findsAgain_iff : map.FindsAgain env d n ↔
    n = 0 ∧ ∀ m < map.size, 8 ≤ m → map.bit d m = true := by
  have hrun : (map.makeCovered env n >>= fun _ => map.makeUncovered env n >>=
      fun _ => map.findEmpty env).run vdisk d =
        some ((map.next (map.uncover (map.cover d n) n) : ℤ), map.uncover (map.cover d n) n) := by
    rw [Prog.run_bind_some _ (map.run_makeCovered env hn d),
      Prog.run_bind_some _ (map.run_makeUncovered env hn _), map.run_findEmpty]
  have hfinds : map.FindsAgain env d n ↔ map.next (map.uncover (map.cover d n) n) = n := by
    rw [FindsAgain, hrun]
    simp
  have hset : map.bit (map.uncover (map.cover d n) n) n = true := by
    rw [map.bit_uncover_cover d hn hn, decide_eq_true rfl, Bool.or_true]
  rw [hfinds, next_eq_iff, hset]
  -- the search can only come back with its 0 for a full map
  constructor
  · rintro (⟨-, hfree, -⟩ | ⟨rfl, hfull⟩)
    · cases hfree
    · refine ⟨rfl, fun m hm h8 => ?_⟩
      have hbit := hfull m hm
      rwa [map.bit_uncover_cover d hn hm, decide_eq_false (by omega), Bool.or_false] at hbit
  · rintro ⟨rfl, hfull⟩
    refine .inr ⟨rfl, fun m hm => ?_⟩
    rw [map.bit_uncover_cover d hn hm]
    by_cases h8 : 8 ≤ m
    · rw [hfull m hm h8, Bool.true_or]
    · rw [decide_eq_true (by omega), Bool.or_true]

/-- A second call does nothing more. -/
theorem freesOnce : map.FreesOnce env d n := by
  rw [FreesOnce, Prog.run_bind_some _ (map.run_makeUncovered env hn d),
    map.run_makeUncovered env hn, map.run_makeUncovered env hn, uncover_uncover]

/-- Two numbers may be given back in any order. -/
theorem freesInAnyOrder {m : ℕ} (hm : m < map.size) : map.FreesInAnyOrder env d n m := by
  rw [FreesInAnyOrder, Prog.run_bind_some _ (map.run_makeUncovered env hn d),
    Prog.run_bind_some _ (map.run_makeUncovered env hm d), map.run_makeUncovered env hm,
    map.run_makeUncovered env hn, uncover_comm]

end Freeing

end AllocationMap

/-- **Freeing.** On either map and for every number: the call frees the number exactly where its
bit is clear and the other seven of its byte are set; it never undoes taking a free number; it is
idempotent, and any two calls commute; and the search comes back with the number only as the 0 it
returns for a full map. -/
theorem freeing_iff (map : AllocationMap) (env : Env) (d : Disk) {n : ℕ} (hn : n < map.size) :
    (map.Frees env d n ↔ map.bit d n = false ∧
      ∀ m < map.size, m / 8 = n / 8 → m ≠ n → map.bit d m = true) ∧
    (map.bit d n = false → ¬ map.Undoes env d n) ∧ map.FreesOnce env d n ∧
    (∀ m < map.size, map.FreesInAnyOrder env d n m) ∧
    (map.FindsAgain env d n ↔ n = 0 ∧ ∀ m < map.size, 8 ≤ m → map.bit d m = true) :=
  ⟨map.frees_iff d env hn, map.not_undoes d env hn, map.freesOnce d env hn,
    fun _ hm => map.freesInAnyOrder d env hn hm, map.findsAgain_iff d env hn⟩

/-- A call that has nothing to do. -/
theorem freeing_nothing_to_do :
    AllocationMap.inodes.Frees plainEnv (zeroDisk.uncoverInode 0) 0 := by
  have hmap {m : ℕ} (hm : m < 32768) :
      (zeroDisk.uncoverInode 0).imap m = decide (m / 8 = 0 ∧ m ≠ 0) := by
    rw [Disk.imap_uncoverInode (by decide) hm, Disk.imap, zeroDisk, Block.bit_zero, Bool.false_or]
  refine (freeing_iff .inodes plainEnv _ (show 0 < 32768 by decide)).1.mpr
    ⟨hmap (by decide), fun m hm hbyte hne => ?_⟩
  exact (hmap hm).trans (decide_eq_true ⟨hbyte, hne⟩)

/-- On the formatted disk the root's inode is not freed, and taking inode 0 is not undone. -/
theorem not_freeing_formatted :
    ¬ AllocationMap.inodes.Frees plainEnv (Disk.initial plainEnv fun _ => 0) 4 ∧
      ¬ AllocationMap.inodes.Undoes plainEnv (Disk.initial plainEnv fun _ => 0) 0 := by
  refine ⟨fun h => ?_, AllocationMap.inodes.not_undoes _ _ (show 0 < 32768 by decide)
    (Disk.imap_initial _ _ (by decide))⟩
  have hclear : (Disk.initial plainEnv fun _ => 0).imap 4 = false :=
    ((AllocationMap.inodes.frees_iff _ _ (show 4 < 32768 by decide)).mp h).1
  rw [Disk.imap_initial _ _ (by decide)] at hclear
  cases hclear

end InodeFs
