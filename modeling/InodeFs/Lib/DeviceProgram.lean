import Mathlib.Tactic

/-!
# Programs over a block device

A `Prog β ν α` is a sequential program that reads and writes blocks of type `β` through
integer block identifiers and returns an `α`: a tree whose nodes are the device accesses,
in the order in which the program makes them. Everything between two accesses is local to
the program and has no node. The device may refuse an access: a refused read hands the
program `none`, a refused write does nothing, and neither stops it. `undefined` is the end
of a program whose next step has no meaning (an array index out of bounds, the value of a
function that returned none). `note` records an observation of type `ν` and has no effect.

The same tree has two meanings: `run` executes it alone on a device state, and the
interleavings of `InodeFs.Lib.Interleaving` execute two of them on one. `notes` lists the
observations a run makes, each with the device state at that moment, and `moments` adds the
program that is left to run behind each.

Properties of a program are given by recursion on the tree, and each of them comes with a rule for
sequencing, so that it is shown of a function from those of the functions it calls.

* `ReadOnly`, `Sat`, `AtNotes`: what a program writes and notes, from every state.
* `Keeps`, `Yields`: what it returns, from the states of an invariant, and from states that may
  change between two reads.
* `Alike`: two programs that do the same from one state.
-/

namespace InodeFs

/-- A program over a device with blocks `β`, noting observations `ν` and returning `α`. -/
inductive Prog (β ν α : Type) : Type
  | ret (a : α)
  | read (id : ℤ) (next : Option β → Prog β ν α)
  | write (id : ℤ) (b : β) (next : Prog β ν α)
  | note (n : ν) (next : Prog β ν α)
  | undefined

/-- A device with states `σ` and blocks `β`: `load` answers `none` where it refuses. -/
structure Device (σ β : Type) where
  load : σ → ℤ → Option β
  store : σ → ℤ → β → σ

namespace Prog

variable {σ β ν α γ δ : Type}

/-- Sequencing: `f` continues with the value `p` returns. -/
protected def bind : Prog β ν α → (α → Prog β ν γ) → Prog β ν γ
  | ret a, f => f a
  | read id next, f => read id fun r => (next r).bind f
  | write id b next, f => write id b (next.bind f)
  | note n next, f => note n (next.bind f)
  | undefined, _ => undefined

instance : Monad (Prog β ν) where
  pure := ret
  bind := Prog.bind

@[simp] theorem pure_eq_ret (a : α) : (pure a : Prog β ν α) = ret a := rfl

@[simp] theorem ret_bind (a : α) (f : α → Prog β ν γ) : ret a >>= f = f a := rfl

@[simp] theorem read_bind (id : ℤ) (next : Option β → Prog β ν α) (f : α → Prog β ν γ) :
    read id next >>= f = read id fun r => next r >>= f := rfl

@[simp] theorem write_bind (id : ℤ) (b : β) (next : Prog β ν α) (f : α → Prog β ν γ) :
    write id b next >>= f = write id b (next >>= f) := rfl

@[simp] theorem note_bind (n : ν) (next : Prog β ν α) (f : α → Prog β ν γ) :
    note n next >>= f = note n (next >>= f) := rfl

@[simp] theorem undefined_bind (f : α → Prog β ν γ) :
    (undefined : Prog β ν α) >>= f = undefined := rfl

/-- Returning what was returned changes nothing. -/
theorem bind_ret (p : Prog β ν α) : p >>= ret = p := by
  induction p with
  | ret a => rfl
  | read id next ih => rw [read_bind]; exact congrArg (read id) (funext ih)
  | write id b next ih => rw [write_bind, ih]
  | note n next ih => rw [note_bind, ih]
  | undefined => rfl

/-- Sequencing is associative. -/
theorem bind_assoc (p : Prog β ν α) (f : α → Prog β ν γ) (g : γ → Prog β ν δ) :
    p >>= f >>= g = p >>= fun a => f a >>= g := by
  induction p with
  | ret a => rfl
  | read id next ih => simp only [read_bind]; exact congrArg (read id) (funext ih)
  | write id b next ih => simp only [write_bind, ih]
  | note n next ih => simp only [note_bind, ih]
  | undefined => rfl

/-! ### Local arrays -/

/-- The element of a C array at an `int` index. -/
def index {n : ℕ} (a : Fin n → γ) (i : ℤ) : Prog β ν γ :=
  if h : 0 ≤ i ∧ i < n then ret (a ⟨i.toNat, by omega⟩) else undefined

/-- The C array with the element at an `int` index replaced. -/
def assign {n : ℕ} (a : Fin n → γ) (i : ℤ) (x : γ) : Prog β ν (Fin n → γ) :=
  if h : 0 ≤ i ∧ i < n then ret (Function.update a ⟨i.toNat, by omega⟩ x) else undefined

/-- An index within the array. -/
theorem index_natCast {n : ℕ} (a : Fin n → γ) {i : ℕ} (h : i < n) :
    (index a (i : ℤ) : Prog β ν γ) = ret (a ⟨i, h⟩) := by
  rw [index, dif_pos ⟨by omega, by omega⟩]
  rfl

/-- An access out of bounds has no meaning. -/
theorem index_eq_undefined {n : ℕ} (a : Fin n → γ) {i : ℤ} (h : ¬ (0 ≤ i ∧ i < n)) :
    (index a i : Prog β ν γ) = undefined := dif_neg h

/-- An index behind the array. -/
theorem index_of_ge {n : ℕ} (a : Fin n → γ) {i : ℕ} (h : n ≤ i) :
    (index a (i : ℤ) : Prog β ν γ) = undefined := index_eq_undefined a (by omega)

theorem assign_natCast {n : ℕ} (a : Fin n → γ) {i : ℕ} (h : i < n) (x : γ) :
    (assign a (i : ℤ) x : Prog β ν (Fin n → γ)) = ret (Function.update a ⟨i, h⟩ x) := by
  rw [assign, dif_pos ⟨by omega, by omega⟩]
  rfl

/-- An assignment outside the array. -/
theorem assign_eq_undefined {n : ℕ} (a : Fin n → γ) {i : ℤ} (h : ¬ (0 ≤ i ∧ i < n)) (x : γ) :
    (assign a i x : Prog β ν (Fin n → γ)) = undefined := dif_neg h

-- the bound check on a concrete array is not to be evaluated
attribute [irreducible] index assign

/-! ### Sequential execution -/

variable (D : Device σ β)

/-- Execute a program alone: its value and the device state it leaves, or `none` where the
program has no meaning. -/
def run : Prog β ν α → σ → Option (α × σ)
  | ret a, s => some (a, s)
  | read id next, s => (next (D.load s id)).run s
  | write id b next, s => next.run (D.store s id b)
  | note _ next, s => next.run s
  | undefined, _ => none

/-- The observations of a run, each with the device state it is made in. -/
def notes : Prog β ν α → σ → List (σ × ν)
  | ret _, _ => []
  | read id next, s => (next (D.load s id)).notes s
  | write id b next, s => next.notes (D.store s id b)
  | note n next, s => (s, n) :: next.notes s
  | undefined, _ => []

@[simp] theorem run_ret (a : α) (s : σ) : (ret a : Prog β ν α).run D s = some (a, s) := rfl

@[simp] theorem run_read (id : ℤ) (next : Option β → Prog β ν α) (s : σ) :
    (read id next).run D s = (next (D.load s id)).run D s := rfl

@[simp] theorem run_write (id : ℤ) (b : β) (next : Prog β ν α) (s : σ) :
    (write id b next).run D s = next.run D (D.store s id b) := rfl

@[simp] theorem run_note (n : ν) (next : Prog β ν α) (s : σ) :
    (note n next).run D s = next.run D s := rfl

@[simp] theorem run_undefined (s : σ) : (undefined : Prog β ν α).run D s = none := rfl

@[simp] theorem run_bind (p : Prog β ν α) (f : α → Prog β ν γ) (s : σ) :
    (p >>= f).run D s = (p.run D s).bind fun q => (f q.1).run D q.2 := by
  induction p generalizing s with
  | ret a => rfl
  | read id next ih => exact ih _ s
  | write id b next ih => exact ih _
  | note n next ih => exact ih s
  | undefined => rfl

/-- The second part of a sequenced program starts where the first one ends. -/
theorem run_bind_some {p : Prog β ν α} {f : α → Prog β ν γ} {s t : σ} {a : α}
    (h : p.run D s = some (a, t)) : (p >>= f).run D s = (f a).run D t := by
  rw [run_bind, h, Option.bind_some]

/-- A program leaves one value and one state. -/
theorem run_inj {p : Prog β ν α} {s t u : σ} {a b : α} (h : p.run D s = some (a, t))
    (h' : p.run D s = some (b, u)) : a = b ∧ t = u :=
  Prod.mk.inj (Option.some.inj (h.symm.trans h'))

/-- A sequenced program returns exactly when both parts do. -/
theorem run_bind_eq_some {p : Prog β ν α} {f : α → Prog β ν γ} {s : σ} {r : γ × σ} :
    (p >>= f).run D s = some r ↔
      ∃ a t, p.run D s = some (a, t) ∧ (f a).run D t = some r := by
  rw [run_bind, Option.bind_eq_some_iff]
  exact ⟨fun ⟨⟨a, t⟩, h⟩ => ⟨a, t, h⟩, fun ⟨a, t, h⟩ => ⟨(a, t), h⟩⟩

@[simp] theorem notes_ret (a : α) (s : σ) : (ret a : Prog β ν α).notes D s = [] := rfl

@[simp] theorem notes_read (id : ℤ) (next : Option β → Prog β ν α) (s : σ) :
    (read id next).notes D s = (next (D.load s id)).notes D s := rfl

@[simp] theorem notes_write (id : ℤ) (b : β) (next : Prog β ν α) (s : σ) :
    (write id b next).notes D s = next.notes D (D.store s id b) := rfl

@[simp] theorem notes_note (n : ν) (next : Prog β ν α) (s : σ) :
    (note n next).notes D s = (s, n) :: next.notes D s := rfl

@[simp] theorem notes_undefined (s : σ) : (undefined : Prog β ν α).notes D s = [] := rfl

/-- The observations of a sequenced program: the first part's, and then those the second
part makes in the state it is entered in, if it is. -/
@[simp] theorem notes_bind (p : Prog β ν α) (f : α → Prog β ν γ) (s : σ) :
    (p >>= f).notes D s =
      p.notes D s ++ ((p.run D s).map fun q => (f q.1).notes D q.2).getD [] := by
  induction p generalizing s with
  | ret a => simp
  | read id next ih => exact ih _ s
  | write id b next ih => exact ih _
  | note n next ih => simp [ih]
  | undefined => rfl

/-! ### Programs that only read -/

/-- The program reads, and neither writes a block nor notes anything, whatever it reads. -/
def ReadOnly : Prog β ν α → Prop
  | ret _ => True
  | read _ next => ∀ r, (next r).ReadOnly
  | write _ _ _ => False
  | note _ _ => False
  | undefined => True

theorem readOnly_read {id : ℤ} {next : Option β → Prog β ν α} :
    (read id next).ReadOnly ↔ ∀ r, (next r).ReadOnly := Iff.rfl

theorem not_readOnly_write {id : ℤ} {b : β} {next : Prog β ν α} : ¬ (write id b next).ReadOnly :=
  fun h => h

theorem not_readOnly_note {n : ν} {next : Prog β ν α} : ¬ (note n next).ReadOnly := fun h => h

theorem readOnly_pure (a : α) : (pure a : Prog β ν α).ReadOnly := trivial

/-- What is undefined has no writes to show. -/
theorem readOnly_undefined : (undefined : Prog β ν α).ReadOnly := trivial

/-- Two programs that only read, one after the other. -/
theorem ReadOnly.bind {p : Prog β ν α} {f : α → Prog β ν γ} (hp : p.ReadOnly)
    (hf : ∀ a, (f a).ReadOnly) : (p >>= f).ReadOnly := by
  induction p with
  | ret a => exact hf a
  | read id next ih => exact fun r => ih r (hp r)
  | write id b next ih => exact hp.elim
  | note n next ih => exact hp.elim
  | undefined => trivial

theorem readOnly_index {n : ℕ} (a : Fin n → γ) (i : ℤ) :
    (index a i : Prog β ν γ).ReadOnly := by
  unfold index
  split <;> trivial

theorem readOnly_assign {n : ℕ} (a : Fin n → γ) (i : ℤ) (x : γ) :
    (assign a i x : Prog β ν (Fin n → γ)).ReadOnly := by
  unfold assign
  split <;> trivial

/-- A program that only reads leaves the device as it was. -/
theorem ReadOnly.run_state {p : Prog β ν α} (hp : p.ReadOnly) {s t : σ} {a : α}
    (h : p.run D s = some (a, t)) : t = s := by
  induction p with
  | ret b => cases h; rfl
  | read id next ih => exact ih _ (hp _) h
  | write id b next ih => exact hp.elim
  | note n next ih => exact hp.elim
  | undefined => cases h

/-- A program that only reads notes nothing. -/
theorem ReadOnly.notes_eq_nil {p : Prog β ν α} (hp : p.ReadOnly) (s : σ) : p.notes D s = [] := by
  induction p with
  | ret b => rfl
  | read id next ih => exact ih _ (hp _)
  | write id b next ih => exact hp.elim
  | note n next ih => exact hp.elim
  | undefined => rfl

/-! ### What holds of every run -/

/-- `p.Sat D P Q`: from every state, what the program notes has `P` together with the state it
is noted in, and what it returns has `Q`. -/
def Sat (P : σ → ν → Prop) (p : Prog β ν α) (Q : α → Prop) : Prop :=
  ∀ s, (∀ x ∈ p.notes D s, P x.1 x.2) ∧ ∀ a t, p.run D s = some (a, t) → Q a

section Sat

variable {D} {P : σ → ν → Prop} {p : Prog β ν α} {Q : α → Prop}

/-- **Sequencing**: what holds of the first result is what the rest may rely on. -/
theorem Sat.bind {f : α → Prog β ν γ} {R : γ → Prop} (hp : p.Sat D P Q)
    (hf : ∀ a, Q a → (f a).Sat D P R) : (p >>= f).Sat D P R := by
  intro s
  obtain ⟨hnotes, hrun⟩ := hp s
  rw [notes_bind, run_bind]
  cases hs : p.run D s with
  | none => exact ⟨fun x hx => hnotes x (by simpa using hx), fun a t h => by cases h⟩
  | some q =>
    obtain ⟨hnotes', hrun'⟩ := hf q.1 (hrun q.1 q.2 hs) q.2
    refine ⟨fun x hx => ?_, hrun'⟩
    rcases List.mem_append.mp hx with hx | hx
    · exact hnotes x hx
    · exact hnotes' x hx

theorem sat_pure {a : α} (h : Q a) : (pure a : Prog β ν α).Sat D P Q := fun s =>
  ⟨fun x hx => (List.not_mem_nil hx).elim, fun b t hb => by
    cases hb
    exact h⟩

/-- A weaker postcondition. -/
theorem Sat.mono {R : α → Prop} (hp : p.Sat D P Q) (h : ∀ a, Q a → R a) : p.Sat D P R := fun s =>
  ⟨(hp s).1, fun a t ht => h a ((hp s).2 a t ht)⟩

theorem sat_undefined : (undefined : Prog β ν α).Sat D P Q := fun s =>
  ⟨fun x hx => (List.not_mem_nil hx).elim, fun b t hb => by
    cases hb⟩

theorem sat_write {id : ℤ} {b : β} {next : Prog β ν α} (h : next.Sat D P Q) :
    (write id b next).Sat D P Q := fun s => h (D.store s id b)

theorem sat_assign {n : ℕ} (a : Fin n → γ) (i : ℤ) (x : γ) :
    (assign a i x : Prog β ν (Fin n → γ)).Sat D P fun _ => True := by
  unfold assign
  split
  · exact sat_pure True.intro
  · exact sat_undefined

/-- A program that only reads keeps any requirement on notes. -/
theorem ReadOnly.sat (hp : p.ReadOnly) : p.Sat D P fun _ => True := fun s => by
  rw [hp.notes_eq_nil]
  exact ⟨fun x hx => (List.not_mem_nil hx).elim, fun _ _ _ => True.intro⟩

end Sat

/-! ### What is left to run -/

/-- The observations of a run, each with the device state it is made in and the program that is
left to run behind it. -/
def moments : Prog β ν α → σ → List (σ × ν × Prog β ν α)
  | ret _, _ => []
  | read id next, s => (next (D.load s id)).moments s
  | write id b next, s => next.moments (D.store s id b)
  | note n next, s => (s, n, next) :: next.moments s
  | undefined, _ => []

/-- The next write of a run, accepted or not, and the program that is left behind it. -/
def firstWrite : Prog β ν α → σ → Option ((ℤ × β) × Prog β ν α)
  | ret _, _ => none
  | read id next, s => (next (D.load s id)).firstWrite s
  | write id b next, _ => some ((id, b), next)
  | note _ next, s => next.firstWrite s
  | undefined, _ => none

/-- The moments are the notes with what was left to run. -/
theorem map_moments (p : Prog β ν α) (s : σ) :
    (p.moments D s).map (fun m => (m.1, m.2.1)) = p.notes D s := by
  induction p generalizing s with
  | ret a => rfl
  | read id next ih => exact ih _ s
  | write id b next ih => exact ih _
  | note n next ih => exact congrArg _ (ih s)
  | undefined => rfl

/-- Every note is noted at a moment. -/
theorem exists_mem_moments {D : Device σ β} {p : Prog β ν α} {s t : σ} {n : ν}
    (h : (t, n) ∈ p.notes D s) : ∃ q, (t, n, q) ∈ p.moments D s := by
  rw [← map_moments] at h
  obtain ⟨m, hm, heq⟩ := List.mem_map.mp h
  cases heq
  exact ⟨m.2.2, hm⟩

/-- The moments of a sequence: those of the first part, then those of the rest. -/
theorem moments_bind (p : Prog β ν α) (f : α → Prog β ν γ) (s : σ) :
    (p >>= f).moments D s = (p.moments D s).map (fun m => (m.1, m.2.1, m.2.2 >>= f)) ++
      ((p.run D s).map fun q => (f q.1).moments D q.2).getD [] := by
  induction p generalizing s with
  | ret a => rfl
  | read id next ih => exact ih _ s
  | write id b next ih => exact ih _
  | note n next ih => exact congrArg _ (ih s)
  | undefined => rfl

/-- A first part that writes decides the first write. -/
theorem firstWrite_bind {p : Prog β ν α} {f : α → Prog β ν γ} {s : σ} {w : ℤ × β}
    {q : Prog β ν α} (h : p.firstWrite D s = some (w, q)) :
    (p >>= f).firstWrite D s = some (w, q >>= f) := by
  induction p generalizing s with
  | ret a => cases h
  | read id next ih => exact ih _ h
  | write id b next ih => cases h; rfl
  | note n next ih => exact ih h
  | undefined => cases h

/-- One that only reads leaves it to the second part. -/
theorem ReadOnly.firstWrite_bind {p : Prog β ν α} (hp : p.ReadOnly) {f : α → Prog β ν γ} {s t : σ}
    {a : α} (h : p.run D s = some (a, t)) :
    (p >>= f).firstWrite D s = (f a).firstWrite D s := by
  induction p with
  | ret b => cases h; rfl
  | read id next ih => exact ih _ (hp _) h
  | write id b next ih => exact hp.elim
  | note n next ih => exact hp.elim
  | undefined => cases h

/-- The run goes on behind the first write. -/
theorem run_firstWrite {p : Prog β ν α} {s : σ} {w : ℤ × β} {q : Prog β ν α}
    (h : p.firstWrite D s = some (w, q)) : p.run D s = q.run D (D.store s w.1 w.2) := by
  induction p generalizing s with
  | ret a => cases h
  | read id next ih => exact ih _ h
  | write id b next ih => cases h; rfl
  | note n next ih => exact ih h
  | undefined => cases h

/-- What the program notes has `P`, together with the state it is noted in and the program that is
left to run. -/
def AtNotes (P : σ → ν → Prog β ν α → Prop) (p : Prog β ν α) : Prop :=
  ∀ s, ∀ m ∈ p.moments D s, P m.1 m.2.1 m.2.2

section AtNotes

variable {D} {P : σ → ν → Prog β ν γ → Prop}

/-- A first part that notes nothing. -/
theorem Sat.atNotes_bind {p : Prog β ν α} {Q : α → Prop} {f : α → Prog β ν γ}
    (hp : p.Sat D (fun _ _ => False) Q) (hf : ∀ a, Q a → (f a).AtNotes D P) :
    (p >>= f).AtNotes D P := by
  intro s m hm
  obtain ⟨hnotes, hrun⟩ := hp s
  have hnone : p.moments D s = [] := by
    refine List.eq_nil_iff_forall_not_mem.mpr fun m hm => hnotes (m.1, m.2.1) ?_
    rw [← map_moments]
    exact List.mem_map_of_mem hm
  rw [moments_bind, hnone, List.map_nil, List.nil_append] at hm
  cases hs : p.run D s with
  | none =>
    rw [hs] at hm
    exact absurd hm List.not_mem_nil
  | some q =>
    rw [hs] at hm
    exact hf q.1 (hrun q.1 q.2 hs) q.2 m hm

theorem atNotes_pure (a : γ) : (pure a : Prog β ν γ).AtNotes D P :=
  fun _ _ hm => absurd hm List.not_mem_nil

theorem atNotes_undefined : (undefined : Prog β ν γ).AtNotes D P :=
  fun _ _ hm => absurd hm List.not_mem_nil

end AtNotes

/-! ### Programs that return and keep an invariant -/

/-- `p.Keeps D I Q`: from every state in `I` the program returns, a value with `Q` and a state
in `I`. -/
def Keeps (I : σ → Prop) (p : Prog β ν α) (Q : α → Prop) : Prop :=
  ∀ s, I s → ∃ a t, p.run D s = some (a, t) ∧ I t ∧ Q a

section Keeps

variable {D} {I : σ → Prop} {p : Prog β ν α} {Q : α → Prop}

/-- **Sequencing**, under an invariant of the state. -/
theorem Keeps.bind {f : α → Prog β ν γ} {R : γ → Prop} (hp : p.Keeps D I Q)
    (hf : ∀ a, Q a → (f a).Keeps D I R) : (p >>= f).Keeps D I R := by
  intro s hs
  obtain ⟨a, t, h, ht, ha⟩ := hp s hs
  rw [run_bind_some D h]
  exact hf a ha t ht

theorem keeps_pure {a : α} (h : Q a) : (pure a : Prog β ν α).Keeps D I Q :=
  fun s hs => ⟨a, s, rfl, hs, h⟩

/-- A program that leaves the state alone. -/
theorem keeps_of_run (h : ∀ s, I s → ∃ a, p.run D s = some (a, s) ∧ Q a) : p.Keeps D I Q :=
  fun s hs => by
    obtain ⟨a, hrun, ha⟩ := h s hs
    exact ⟨a, s, hrun, hs, ha⟩

end Keeps

-- evaluating it on a concrete program would run into its loops
attribute [irreducible] ReadOnly

/-! ### Programs that behave alike -/

/-- From the state `s` the two programs return the same, leave the same state and note the same. -/
structure Alike (p q : Prog β ν α) (s : σ) : Prop where
  run : p.run D s = q.run D s
  notes : p.notes D s = q.notes D s

section Alike

variable {D}

/-- A program behaves like itself. -/
theorem Alike.refl (p : Prog β ν α) (s : σ) : p.Alike D p s := ⟨rfl, rfl⟩

/-- Programs that behave alike may be continued by such programs. -/
theorem Alike.bind {p q : Prog β ν α} {f g : α → Prog β ν γ} {s : σ} (h : p.Alike D q s)
    (hfg : ∀ a t, p.run D s = some (a, t) → (f a).Alike D (g a) t) :
    (p >>= f).Alike D (q >>= g) s := by
  cases hrun : p.run D s with
  | none => exact ⟨by simp [← h.run, hrun], by simp [← h.run, ← h.notes, hrun]⟩
  | some r =>
    obtain ⟨hnext, hnotes⟩ := hfg r.1 r.2 hrun
    exact ⟨by simp [← h.run, hrun, hnext], by simp [← h.run, ← h.notes, hrun, hnotes]⟩

/-- A first part that only reads may be left out, with the value it returns. -/
theorem ReadOnly.alike_bind {p : Prog β ν α} (hp : p.ReadOnly) {s t : σ} {a : α}
    (hrun : p.run D s = some (a, t)) (f : α → Prog β ν γ) : (p >>= f).Alike D (f a) s := by
  obtain rfl := hp.run_state D hrun
  exact ⟨by simp [hrun], by simp [hrun, hp.notes_eq_nil]⟩

/-- What behaves like a program behaves like what that one behaves like. -/
theorem Alike.trans {p q r : Prog β ν α} {s : σ} (h : p.Alike D q s) (h' : q.Alike D r s) :
    p.Alike D r s := ⟨h.run.trans h'.run, h.notes.trans h'.notes⟩

end Alike

/-! ### Reading a device that others write -/

/-- `p.Yields D S Q`: the program only reads, and returns a value with `Q` even if the device
moves between its reads, as long as it stays in `S`. -/
def Yields (S : σ → Prop) : Prog β ν α → (α → Prop) → Prop
  | ret a, Q => Q a
  | read id next, Q => ∀ s, S s → (next (D.load s id)).Yields S Q
  | write _ _ _, _ => False
  | note _ _, _ => False
  | undefined, _ => False

variable {D} {S : σ → Prop}

@[simp] theorem yields_ret {a : α} {Q : α → Prop} :
    (ret a : Prog β ν α).Yields D S Q ↔ Q a := Iff.rfl

/-- **Sequencing**, where every result is looked at in all the states at once. -/
theorem Yields.bind {p : Prog β ν α} {f : α → Prog β ν γ} {Q : α → Prop} {R : γ → Prop}
    (hp : p.Yields D S Q) (hf : ∀ a, Q a → (f a).Yields D S R) : (p >>= f).Yields D S R := by
  induction p with
  | ret a => exact hf a hp
  | read id next ih => exact fun s hs => ih _ (hp s hs)
  | write id b next ih => exact hp.elim
  | note n next ih => exact hp.elim
  | undefined => exact hp.elim

/-- A weaker condition on the result. -/
theorem Yields.mono {p : Prog β ν α} {Q R : α → Prop} (hp : p.Yields D S Q)
    (h : ∀ a, Q a → R a) : p.Yields D S R := by
  rw [← bind_ret p]
  exact hp.bind h

/-- Alone on a device in `S` such a program returns. -/
theorem Yields.run {p : Prog β ν α} {Q : α → Prop} (hp : p.Yields D S Q) {s : σ} (hs : S s) :
    ∃ a, Q a ∧ p.run D s = some (a, s) := by
  induction p with
  | ret a => exact ⟨a, hp, rfl⟩
  | read id next ih => exact ih _ (hp s hs)
  | write id b next ih => exact hp.elim
  | note n next ih => exact hp.elim
  | undefined => exact hp.elim

/-- A program with one possible result is run to it. -/
theorem Yields.run_eq {p : Prog β ν α} {a : α} (hp : p.Yields D S (· = a)) {s : σ} (hs : S s) :
    p.run D s = some (a, s) := by
  obtain ⟨b, rfl, h⟩ := hp.run hs
  exact h

end Prog

end InodeFs
