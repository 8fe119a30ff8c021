import InodeFs.Code.Main
import InodeFs.State.Format

/-!
# Starting

`main` keeps nothing of what the virtual disk held before: `disk_init` writes zeros over it, block
after block, and `mkfs` formats it. If a block's file cannot be opened the process gives up, with
the blocks before it erased.

The virtual disk is a directory of files, one for each block, and the name of such a file is built
in a buffer of a fixed size from the word in the file `fuse~`. A word that is too short or too long
leaves an array of the source, and there is no result. Which files can be opened is a parameter, a
function from block numbers.

The loop of `disk_init` is followed by its first block that cannot be opened
(`run_diskInitLoop_of_not`), or to its end (`run_diskInitLoop`). What it has erased is
`Disk.erased`. A disk is erased as a whole only if it has no blocks behind the last one, which
`Disk.Bounded` says; then nothing of the old contents is left for `mkfs`, and the run begins with
`Disk.initial` (`eq_initial_of_run_main`).
-/

namespace InodeFs

namespace Disk

/-- There are no blocks from `BLOCK_NUM` on. -/
def Bounded (d : Disk) : Prop := ∀ n, blockNum ≤ n → d n = Block.zero

/-- The disk with its first `n` blocks erased. -/
def erased (d : Disk) (n : ℕ) : Disk := fun m => if m < n then Block.zero else d m

theorem erased_succ (d : Disk) (n : ℕ) :
    d.erased (n + 1) = Function.update (d.erased n) n Block.zero := by
  funext m
  rw [Function.update_apply, erased, erased]
  split <;> split <;> simp_all <;> omega

theorem erased_zero (d : Disk) : d.erased 0 = d := by
  funext m
  rw [erased, if_neg (Nat.not_lt_zero m)]

/-- Nothing is left of a disk that is erased up to its end. -/
theorem Bounded.erased_blockNum {d : Disk} (h : d.Bounded) : d.erased blockNum = zeroDisk := by
  funext m
  rw [erased, zeroDisk]
  split
  · rfl
  · next hm => exact h m (Nat.not_lt.mp hm)

end Disk

variable {opens : ℕ → Bool} {d : Disk}

/-! ### The loop -/

section Loop

variable {length : ℕ}

/-- The name of a block's file fits. -/
theorem name_fits (hlength : length ≤ 250) {i : ℕ} (hi : i < blockNum) :
    ¬ 256 < length + (Nat.toDigits 10 i).length + 1 := by
  have hdigits := (Nat.length_toDigits_le_iff (k := 5) (by decide : 1 < 10) (by decide)).mpr
    (hi.trans (by decide : blockNum < 10 ^ 5))
  omega

/-- One block more is erased. -/
theorem run_diskInitLoop_succ (hlength : length ≤ 250) {i : ℕ} (hi : i < blockNum)
    (hopens : opens i = true) (blocks : ℕ) :
    (diskInitLoop length opens (blocks + 1) i).run vdisk (d.erased i) =
      (diskInitLoop length opens blocks (i + 1)).run vdisk (d.erased (i + 1)) := by
  rw [diskInitLoop, if_neg (name_fits hlength hi), if_pos hopens,
    Prog.run_bind_some _ (run_diskWrite hi _ _), ← Disk.erased_succ]

theorem run_diskInitLoop (hlength : length ≤ 250) (blocks i : ℕ) (hend : i + blocks = blockNum)
    (hopens : ∀ k < blockNum, opens k = true) :
    (diskInitLoop length opens blocks i).run vdisk (d.erased i) =
      some (0, d.erased blockNum) := by
  induction blocks generalizing i with
  | zero =>
    obtain rfl : i = blockNum := hend
    rfl
  | succ blocks ih =>
    rw [run_diskInitLoop_succ hlength (by omega) (hopens i (by omega))]
    exact ih (i + 1) (by omega)

/-- The name of a block with a number of five digits does not fit any more. -/
theorem run_diskInitLoop_long (hlength : 250 < length) (blocks i : ℕ)
    (hend : i + blocks = blockNum) (hi : i ≤ 10000) (hopens : ∀ k < blockNum, opens k = true)
    (s : Disk) : (diskInitLoop length opens blocks i).run vdisk s = none := by
  induction blocks generalizing i s with
  | zero =>
    have hnum : blockNum = 65536 := rfl
    omega
  | succ blocks ih =>
    rw [diskInitLoop]
    split
    · rfl
    · next hfits =>
      have hlt : i < blockNum := by omega
      have hne : i ≠ 10000 := by
        rintro rfl
        have hdigits : (Nat.toDigits 10 10000).length = 5 := by decide
        omega
      rw [if_pos (hopens i hlt), Prog.run_bind_some _ (run_diskWrite hlt _ _)]
      exact ih (i + 1) (by omega) (by omega) _

end Loop

/-! ### `main` -/

section Main

variable (env : Env) (behind : Fin 27 → Byte) {word : List Byte}

/-- The word in `fuse~` is too short. -/
theorem run_main_short (hlength : word.length < 8) :
    (main env behind (some word) opens).run vdisk d = none := by
  rw [main, diskInit, if_pos (.inl hlength)]
  rfl

/-- The word in `fuse~` is too long. -/
theorem run_main_long (hlength : 247 < word.length) (hopens : ∀ k < blockNum, opens k = true) :
    (main env behind (some word) opens).run vdisk d = none := by
  rw [main, diskInit]
  split
  · rfl
  · rw [Prog.run_bind, run_diskInitLoop_long (by omega) blockNum 0 (Nat.zero_add _)
      (Nat.zero_le _) hopens]
    rfl

theorem diskInit_inside (hlength : 8 ≤ word.length ∧ word.length ≤ 247) :
    diskInit (some word) opens = diskInitLoop (word.length - 8 + 11) opens blockNum 0 :=
  if_neg (by omega)

/-- All blocks can be opened. -/
theorem run_main_started (hd : d.Bounded) (hlength : 8 ≤ word.length ∧ word.length ≤ 247)
    (hopens : ∀ k < blockNum, opens k = true) :
    (main env behind (some word) opens).run vdisk d = some (none, .initial env behind) := by
  have hrun := run_diskInitLoop (d := d) (by omega : word.length - 8 + 11 ≤ 250) blockNum 0
    (Nat.zero_add _) hopens
  rw [Disk.erased_zero, hd.erased_blockNum] at hrun
  rw [main, diskInit_inside hlength, Prog.run_bind_some _ hrun, if_neg (by simp),
    Prog.run_bind_some _ (Disk.run_mkfs_zeroDisk env behind)]
  rfl

/-- The loop hands over only if it has erased every block. -/
theorem diskInitLoop_result {length : ℕ} (blocks i : ℕ) (hend : i + blocks = blockNum) {r : ℤ}
    {s t : Disk} (h : (diskInitLoop length opens blocks i).run vdisk s = some (r, t)) :
    r = 1 ∨ r = 0 ∧ ∀ k < blockNum, i ≤ k → opens k = true := by
  induction blocks generalizing i s with
  | zero =>
    obtain ⟨rfl, -⟩ := Prod.mk.inj (Option.some.inj h)
    exact .inr ⟨rfl, fun k hk hik => by omega⟩
  | succ blocks ih =>
    rw [diskInitLoop] at h
    split at h
    · cases h
    split at h
    · next hopens =>
      rw [Prog.run_bind_some _ (run_diskWrite (show i < blockNum by omega) _ _)] at h
      refine (ih (i + 1) (by omega) h).imp_right fun ⟨hr, hall⟩ => ⟨hr, fun k hk hik => ?_⟩
      rcases hik.eq_or_lt with rfl | hlt
      · exact hopens
      · exact hall k hk hlt
    · obtain ⟨rfl, -⟩ := Prod.mk.inj (Option.some.inj h)
      exact .inl rfl

/-- Where `main` hands over, it does so with the freshly formatted disk. -/
theorem eq_initial_of_run_main {fuse : Option (List Byte)} {d' : Disk} (hd : d.Bounded)
    (h : (main env behind fuse opens).run vdisk d = some (none, d')) :
    d' = .initial env behind := by
  cases fuse with
  | none => cases h
  | some word =>
    obtain ⟨r, s, hinit, hrest⟩ := (Prog.run_bind_eq_some vdisk).mp h
    have hzero : r = 0 := by
      by_contra hne
      rw [if_pos hne] at hrest
      cases hrest
    by_cases hlength : word.length < 8
    · rw [run_main_short env behind hlength] at h
      cases h
    have hopens : ∀ k < blockNum, opens k = true := by
      rw [diskInit] at hinit
      split at hinit
      · cases hinit
      · rcases diskInitLoop_result blockNum 0 (Nat.zero_add _) hinit with hone | ⟨-, hall⟩
        · rw [hone] at hzero
          cases hzero
        · exact fun k hk => hall k hk k.zero_le
    by_cases hlong : 247 < word.length
    · rw [run_main_long env behind hlong hopens] at h
      cases h
    · rw [run_main_started env behind hd (by omega) hopens] at h
      exact (Prod.mk.inj (Option.some.inj h)).2.symm

end Main

end InodeFs
