import Mathlib.Data.List.Sort
import Mathlib.Tactic

/-!
# First-fit allocation

The numbers below `n` that are clear in a map, in ascending order (`clearNumbers`). Taking the
lowest one leaves the others (`clearNumbers_eq_cons`), so an allocator that takes it again and
again hands them out in this order.

Nothing is said about where the map lies: the library speaks of a map `f : ℕ → Bool` and a bound.
The list is a filtered range, so that its members (`mem_clearNumbers`), its order
(`clearNumbers_pairwise`) and its first members (`take_clearNumbers`) come from the lemmas on lists.

An allocator that returns the lowest clear number and sets its bit goes from `f` to a map `g` as
`clearNumbers_eq_cons` has it; `k` rounds return the first `k` members, by induction on `k`.

There may be fewer clear numbers than rounds. The list ends then, and what an allocator returns for
a full map is not said here; `exists_of_length_pos` gives a clear number where the list goes on.
-/

namespace InodeFs

/-- The clear numbers below `n`, in ascending order. -/
def clearNumbers (f : ℕ → Bool) (n : ℕ) : List ℕ := (List.range n).filter fun m => !f m

variable {f g : ℕ → Bool} {n m : ℕ}

/-- The members are the clear numbers. -/
@[simp] theorem mem_clearNumbers : m ∈ clearNumbers f n ↔ m < n ∧ f m = false := by
  simp [clearNumbers]

/-- They come in ascending order. -/
theorem clearNumbers_pairwise (f : ℕ → Bool) (n : ℕ) : (clearNumbers f n).Pairwise (· < ·) :=
  List.pairwise_lt_range.filter _

theorem clearNumbers_nodup (f : ℕ → Bool) (n : ℕ) : (clearNumbers f n).Nodup :=
  (clearNumbers_pairwise f n).imp ne_of_lt

/-- They depend on the map below the bound. -/
theorem clearNumbers_congr (h : ∀ j < n, f j = g j) : clearNumbers f n = clearNumbers g n :=
  List.filter_congr fun j hj => by rw [h j (List.mem_range.mp hj)]

/-- The first clear numbers are those below a smaller bound. -/
theorem take_clearNumbers {l : List ℕ} (h : m ≤ n) (hl : clearNumbers f m = l) :
    (clearNumbers f n).take l.length = l := by
  obtain ⟨k, rfl⟩ := Nat.exists_eq_add_of_le h
  rw [← hl, clearNumbers, clearNumbers, List.range_add, List.filter_append, List.take_left]

/-- **Taking the lowest clear number** leaves the other ones. -/
theorem clearNumbers_eq_cons (hm : m < n) (hclear : f m = false) (hleast : ∀ j < m, f j = true)
    (hg : ∀ j < n, g j = (f j || decide (j = m))) :
    clearNumbers f n = m :: clearNumbers g n := by
  have hmem (j : ℕ) : j ∈ clearNumbers g n ↔ j < n ∧ f j = false ∧ j ≠ m := by
    rw [mem_clearNumbers]
    refine and_congr_right fun hj => ?_
    rw [hg j hj, Bool.or_eq_false_iff, decide_eq_false_iff_not]
  have hnext (j : ℕ) (hj : j ∈ clearNumbers g n) : m < j := by
    obtain ⟨-, hfree, hne⟩ := (hmem j).mp hj
    by_contra hle
    rw [hleast j (by omega)] at hfree
    cases hfree
  have hsorted : (m :: clearNumbers g n).Pairwise (· < ·) :=
    List.pairwise_cons.mpr ⟨hnext, clearNumbers_pairwise g n⟩
  -- two increasing lists with the same members are equal
  refine List.Perm.eq_of_pairwise (fun a b _ _ hab hba => absurd hab (by omega))
    (clearNumbers_pairwise f n) hsorted
    ((List.perm_ext_iff_of_nodup (clearNumbers_nodup f n) (hsorted.imp ne_of_lt)).mpr fun j => ?_)
  rw [List.mem_cons, hmem, mem_clearNumbers]
  constructor
  · rintro ⟨hj, hfree⟩
    by_cases hjm : j = m
    · exact .inl hjm
    · exact .inr ⟨hj, hfree, hjm⟩
  · rintro (rfl | ⟨hj, hfree, -⟩)
    · exact ⟨hm, hclear⟩
    · exact ⟨hj, hfree⟩

/-- There is a clear number where the list is not empty. -/
theorem exists_of_length_pos (h : 0 < (clearNumbers f n).length) : ∃ m < n, f m = false := by
  obtain ⟨m, hm⟩ := List.exists_mem_of_length_pos h
  exact ⟨m, mem_clearNumbers.mp hm⟩

end InodeFs
