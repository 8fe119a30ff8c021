import InodeFs.Lib.FirstFit
import InodeFs.State.Format

/-!
# Allocation order

The finders and the setters of the two maps are separate code: a search that counts bits, and a
division with remainder. `allocation_order` says that they name the same bits: repeated, they hand
out the lowest clear numbers in ascending order and set exactly their bits, on every disk.

Both are the same pattern, a step that takes the lowest clear number of a map and touches nothing
else (`TakesLowest`). `takesLowest_takeInode` and `takesLowest_coverDatablock` show it of the code,
and the repetition is treated once, by `TakesLowest.rounds`: the list of the clear numbers of a map
is computed by `clearNumbers` of `InodeFs.Lib.FirstFit`, and taking the lowest drops its head.

A map may be full before the rounds are over. A finder returns 0 then, as it does for a clear bit 0;
so `allocation_order` is about at most as many rounds as there are clear bits.

`allocation_order_initial` runs five rounds on either map of the formatted disk, where the root's
inode and the reserved blocks are passed over.
-/

namespace InodeFs

variable (env : Env)

/-- `k` rounds of an allocation step. -/
def rounds (step : Fs ℤ) : ℕ → Fs (List ℤ)
  | 0 => pure []
  | k + 1 => do
    let number ← step
    let numbers ← rounds step k
    pure (number :: numbers)

/-- `n = find_empty_inode(); make_inode_map_covered(n);` -/
def takeInode : Fs ℤ := do
  let number ← findEmptyInode env
  makeInodeMapCovered env number
  pure number

/-- `n = find_empty_datablock(); make_data_map_covered(n);` -/
def coverDatablock : Fs ℤ := do
  let number ← findEmptyDatablock env
  makeDataMapCovered env number
  pure number

/-- A step that takes the lowest clear number of the map `view` and changes nothing outside the
blocks `ids`. -/
def TakesLowest (view : Disk → ℕ → Bool) (n : ℕ) (ids : ℕ → Prop) (step : Fs ℤ) : Prop :=
  ∀ d : Disk, (∃ m < n, view d m = false) → ∃ (m : ℕ) (d' : Disk),
    step.run vdisk d = some ((m : ℤ), d') ∧ m < n ∧ view d m = false ∧
    (∀ j < m, view d j = true) ∧ (∀ j < n, view d' j = (view d j || decide (j = m))) ∧
    ∀ id, ¬ ids id → d' id = d id

/-- Rounds of such a step hand out the clear numbers in order. -/
theorem TakesLowest.rounds {view : Disk → ℕ → Bool} {n : ℕ} {ids : ℕ → Prop} {step : Fs ℤ}
    (h : TakesLowest view n ids step) (k : ℕ) (d : Disk)
    (hk : k ≤ (clearNumbers (view d) n).length) :
    ∃ d', (InodeFs.rounds step k).run vdisk d =
        some (((clearNumbers (view d) n).take k).map Nat.cast, d') ∧
      (∀ j < n, view d' j = (view d j || decide (j ∈ (clearNumbers (view d) n).take k))) ∧
      ∀ id, ¬ ids id → d' id = d id := by
  induction k generalizing d with
  | zero => exact ⟨d, rfl, fun j _ => by simp, fun id _ => rfl⟩
  | succ k ih =>
    obtain ⟨m, d₁, hstep, hm, hclear, hleast, hview, hsame⟩ :=
      h d (exists_of_length_pos (by omega))
    have hcons := clearNumbers_eq_cons hm hclear hleast hview
    have hlength := congrArg List.length hcons
    rw [List.length_cons] at hlength
    obtain ⟨d', hrun, hview', hsame'⟩ := ih d₁ (by omega)
    refine ⟨d', ?_, fun j hj => ?_, fun id hid => (hsame' id hid).trans (hsame id hid)⟩
    · rw [InodeFs.rounds, Prog.run_bind_some _ hstep, Prog.run_bind_some _ hrun, Prog.pure_eq_ret,
        Prog.run_ret, hcons, List.take_succ_cons, List.map_cons]
    · rw [hview' j hj, hview j hj, hcons, List.take_succ_cons, Bool.or_assoc, ← Bool.decide_or]
      simp only [List.mem_cons]

theorem takesLowest_takeInode : TakesLowest Disk.imap 32768 (· = 1) (takeInode env) := by
  rintro d ⟨m, hm, hfree⟩
  obtain ⟨k, hk, -⟩ := Disk.exists_freeInode hm hfree
  obtain ⟨hlt, hclear, hleast⟩ := Disk.freeInode_eq_some.mp hk
  have hnext : d.nextInode = k := by rw [Disk.nextInode, hk, Option.getD_some]
  refine ⟨k, d.coverInode k, ?_, hlt, hclear, hleast, fun j hj => Disk.imap_coverInode hlt hj,
    fun id hid => Function.update_of_ne hid _ _⟩
  rw [takeInode, Prog.run_bind_some _ (run_findEmptyInode env d), hnext,
    Prog.run_bind_some _ (run_makeInodeMapCovered env hlt d), Prog.pure_eq_ret, Prog.run_ret]

theorem takesLowest_coverDatablock :
    TakesLowest Disk.dmap 65536 (fun id => id = 2 ∨ id = 3) (coverDatablock env) := by
  rintro d ⟨m, hm, hfree⟩
  obtain ⟨k, hk, -⟩ := Disk.exists_freeData hm hfree
  obtain ⟨hlt, hclear, hleast⟩ := Disk.freeData_eq_some.mp hk
  have hnext : d.nextData = k := by rw [Disk.nextData, hk, Option.getD_some]
  refine ⟨k, d.coverData k, ?_, hlt, hclear, hleast, fun j hj => Disk.dmap_coverData hlt hj,
    fun id hid => ?_⟩
  · rw [coverDatablock, Prog.run_bind_some _ (run_findEmptyDatablock env d), hnext,
      Prog.run_bind_some _ (run_makeDataMapCovered env hlt d), Prog.pure_eq_ret, Prog.run_ret]
  · obtain ⟨h2, h3⟩ := not_or.mp hid
    unfold Disk.coverData Disk.orDataMap
    split
    · exact Function.update_of_ne h2 _ _
    · exact Function.update_of_ne h3 _ _

/-- **Allocation order.** `k` rounds on either map return its `k` lowest clear numbers in strictly
ascending order; afterwards exactly their bits are set in addition, and no other block has
changed. -/
theorem allocation_order (d : Disk) (k : ℕ) :
    (k ≤ (clearNumbers d.imap 32768).length →
      ((clearNumbers d.imap 32768).take k).Pairwise (· < ·) ∧
      ∃ d', (rounds (takeInode env) k).run vdisk d =
          some (((clearNumbers d.imap 32768).take k).map Nat.cast, d') ∧
        (∀ j < 32768, d'.imap j =
          (d.imap j || decide (j ∈ (clearNumbers d.imap 32768).take k))) ∧
        ∀ id, id ≠ 1 → d' id = d id) ∧
    (k ≤ (clearNumbers d.dmap 65536).length →
      ((clearNumbers d.dmap 65536).take k).Pairwise (· < ·) ∧
      ∃ d', (rounds (coverDatablock env) k).run vdisk d =
          some (((clearNumbers d.dmap 65536).take k).map Nat.cast, d') ∧
        (∀ j < 65536, d'.dmap j =
          (d.dmap j || decide (j ∈ (clearNumbers d.dmap 65536).take k))) ∧
        ∀ id, id ≠ 2 ∧ id ≠ 3 → d' id = d id) := by
  refine ⟨fun hk => ⟨(clearNumbers_pairwise _ _).take, (takesLowest_takeInode env).rounds k d hk⟩,
    fun hk => ⟨(clearNumbers_pairwise _ _).take, ?_⟩⟩
  obtain ⟨d', hrun, hmap, hsame⟩ := (takesLowest_coverDatablock env).rounds k d hk
  exact ⟨d', hrun, hmap, fun id hid => hsame id (not_or.mpr hid)⟩

/-- Five rounds on each map of the formatted disk: the root's inode 4 is passed over, and so are the
first four bits of the data map. -/
theorem allocation_order_initial :
    (∃ d', (rounds (takeInode plainEnv) 5).run vdisk (Disk.initial plainEnv fun _ => 0) =
      some ([0, 1, 2, 3, 5], d')) ∧
    ∃ d', (rounds (coverDatablock plainEnv) 5).run vdisk (Disk.initial plainEnv fun _ => 0) =
      some ([4, 5, 6, 7, 8], d') := by
  have hinode : clearNumbers (Disk.initial plainEnv fun _ => 0).imap 6 = [0, 1, 2, 3, 5] :=
    clearNumbers_congr (g := fun j => decide (j = 4)) fun j hj => Disk.imap_initial _ _ (by omega)
  have hblock : clearNumbers (Disk.initial plainEnv fun _ => 0).dmap 9 = [4, 5, 6, 7, 8] :=
    clearNumbers_congr (g := fun j => decide (j < 4)) fun j hj => by
      by_cases h4 : j < 4
      · rw [Disk.dmap_initial_reserved _ _ h4, decide_eq_true h4]
      · rw [Disk.dmap_initial_free _ _ (by omega) (.inl (by omega)), decide_eq_false h4]
  have hinodes : (clearNumbers (Disk.initial plainEnv fun _ => 0).imap 32768).take 5 =
      [0, 1, 2, 3, 5] := take_clearNumbers (l := [0, 1, 2, 3, 5]) (by decide) hinode
  have hblocks : (clearNumbers (Disk.initial plainEnv fun _ => 0).dmap 65536).take 5 =
      [4, 5, 6, 7, 8] := take_clearNumbers (l := [4, 5, 6, 7, 8]) (by decide) hblock
  have hlength := congrArg List.length hinodes
  have hlength' := congrArg List.length hblocks
  rw [List.length_take] at hlength hlength'
  obtain ⟨horder, horder'⟩ := allocation_order plainEnv (Disk.initial plainEnv fun _ => 0) 5
  obtain ⟨-, d', hrun, -⟩ := horder (min_eq_left_iff.mp hlength)
  obtain ⟨-, d'', hrun', -⟩ := horder' (min_eq_left_iff.mp hlength')
  rw [hinodes] at hrun
  rw [hblocks] at hrun'
  exact ⟨⟨d', hrun⟩, d'', hrun'⟩

end InodeFs
