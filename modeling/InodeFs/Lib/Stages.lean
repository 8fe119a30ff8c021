import InodeFs.Lib.Pool

/-!
# A program that writes and others that only read

A request that writes takes the device through stages, one after the other; other requests read
meanwhile, each time in a stage that is not before the one of their last read.

* `Prog.Advances`: from the stage at hand, the writes of the program lead to later stages;
* `Prog.Observes`: what a program that only reads returns, in whichever stages it reads;
* `Pool.Watched`: such requests on one device. A step keeps it (`Pool.Watched.step`), and so does a
  run (`Pool.Watched.reaches`);
* `Prog.WritesWithin`, `Prog.WritesOnce`: programs of which it is known where or how often they
  write, so that they advance as their run alone tells.

A stage is given by an index and a set of devices, `At i`, and the indices are in some order that
has neither to be total nor finite. The program that writes is followed through it step by step.
What a program that reads returns is stated together with the stage of its last read, from which the
rest of a program goes on (`Prog.Observes.bind`), and a part that reads once has seen one stage
(`Prog.ReadsOnce.observes`).
-/

namespace InodeFs

section Stages

variable {σ β ν α ζ ι : Type} [Preorder ι]

/-! ### The program that writes -/

/-- `p.Advances D At i s Q`: run from `s` in stage `i`, the writes of the program lead to later and
later stages, and it returns a value with `Q` in the last one. -/
def Prog.Advances (D : Device σ β) (At : ι → σ → Prop) :
    Prog β ν α → ι → σ → (α → ι → σ → Prop) → Prop
  | ret a, i, s, Q => ∃ j, i ≤ j ∧ At j s ∧ Q a j s
  | read id next, i, s, Q => (next (D.load s id)).Advances D At i s Q
  | write id b next, i, s, Q =>
    ∃ j, i ≤ j ∧ At j (D.store s id b) ∧ next.Advances D At j (D.store s id b) Q
  | note _ next, i, s, Q => next.Advances D At i s Q
  | undefined, _, _, _ => False

section Advances

variable {D : Device σ β} {At : ι → σ → Prop} {p : Prog β ν α} {i j : ι} {s t : σ} {a : α}
  {Q : α → ι → σ → Prop}

theorem Prog.advances_ret (hs : At i s) (h : Q a i s) :
    (ret a : Prog β ν α).Advances D At i s Q := ⟨i, le_rfl, hs, h⟩

theorem Prog.advances_note {n : ν} :
    (note n p).Advances D At i s Q ↔ p.Advances D At i s Q := Iff.rfl

/-- The stage that a program starts from may be an earlier one. -/
theorem Prog.Advances.from_le (hp : p.Advances D At j s Q) (hij : i ≤ j) :
    p.Advances D At i s Q := by
  induction p generalizing s with
  | ret a =>
    obtain ⟨k, hjk, hk, hQ⟩ := hp
    exact ⟨k, hij.trans hjk, hk, hQ⟩
  | read id next ih => exact ih _ hp
  | write id b next _ =>
    obtain ⟨k, hjk, hk, hnext⟩ := hp
    exact ⟨k, hij.trans hjk, hk, hnext⟩
  | note n next ih => exact ih hp
  | undefined => exact hp

/-- **Sequencing**: the rest starts in a stage that the first part has reached. -/
theorem Prog.Advances.bind {f : α → Prog β ν ζ} {R : ζ → ι → σ → Prop}
    (hp : p.Advances D At i s Q)
    (hf : ∀ a j t, At j t → Q a j t → (f a).Advances D At j t R) :
    (p >>= f).Advances D At i s R := by
  induction p generalizing i s with
  | ret a =>
    obtain ⟨j, hij, hj, hQ⟩ := hp
    exact (hf a j s hj hQ).from_le hij
  | read id next ih => exact ih _ hp
  | write id b next ih =>
    obtain ⟨j, hij, hj, hnext⟩ := hp
    exact ⟨j, hij, hj, ih hnext⟩
  | note n next ih => exact ih hp
  | undefined => exact hp

/-- A weaker postcondition. -/
theorem Prog.Advances.mono {R : α → ι → σ → Prop} (hp : p.Advances D At i s Q)
    (h : ∀ a j t, At j t → Q a j t → R a j t) : p.Advances D At i s R := by
  rw [← bind_ret p]
  exact hp.bind fun a j t hj hQ => advances_ret hj (h a j t hj hQ)

/-- The stages may be wider. -/
theorem Prog.Advances.stages_mono {At' : ι → σ → Prop} (hp : p.Advances D At i s Q)
    (h : ∀ j t, At j t → At' j t) : p.Advances D At' i s Q := by
  induction p generalizing i s with
  | ret a =>
    obtain ⟨j, hij, hj, hQ⟩ := hp
    exact ⟨j, hij, h j _ hj, hQ⟩
  | read id next ih => exact ih _ hp
  | write id b next ih =>
    obtain ⟨j, hij, hj, hnext⟩ := hp
    exact ⟨j, hij, h j _ hj, ih hnext⟩
  | note n next ih => exact ih hp
  | undefined => exact hp

/-- What the program returns and leaves is what its run alone does. -/
theorem Prog.Advances.of_run (hp : p.Advances D At i s Q) (hrun : p.run D s = some (a, t)) :
    p.Advances D At i s fun a' j t' => Q a' j t' ∧ a' = a ∧ t' = t := by
  induction p generalizing i s with
  | ret b =>
    obtain ⟨rfl, rfl⟩ := Prod.mk.inj (Option.some.inj hrun)
    obtain ⟨j, hij, hj, hQ⟩ := hp
    exact ⟨j, hij, hj, hQ, rfl, rfl⟩
  | read id next ih => exact ih _ hp hrun
  | write id b next ih =>
    obtain ⟨j, hij, hj, hnext⟩ := hp
    exact ⟨j, hij, hj, ih hnext hrun⟩
  | note n next ih => exact ih hp hrun
  | undefined => exact hp.elim

/-- The run alone does what is said of the program. -/
theorem Prog.Advances.exists_run (hp : p.Advances D At i s Q) :
    ∃ a t j, p.run D s = some (a, t) ∧ At j t ∧ Q a j t := by
  induction p generalizing i s with
  | ret a =>
    obtain ⟨j, -, hj, hQ⟩ := hp
    exact ⟨a, s, j, rfl, hj, hQ⟩
  | read id next ih => exact ih _ hp
  | write id b next ih =>
    obtain ⟨j, -, -, hnext⟩ := hp
    exact ih hnext
  | note n next ih => exact ih hp
  | undefined => exact hp.elim

end Advances

/-! ### Where and how often a program writes -/

/-- Writes to the blocks of `S` make no difference to `P`. -/
def Device.Ignores (D : Device σ β) (S : ℤ → Prop) (P : σ → Prop) : Prop :=
  ∀ s id b, S id → (P (D.store s id b) ↔ P s)

/-- Every write of the program, whatever it reads, is to a block of `S`. -/
def Prog.WritesWithin (S : ℤ → Prop) : Prog β ν α → Prop
  | ret _ => True
  | read _ next => ∀ r, (next r).WritesWithin S
  | write id _ next => S id ∧ next.WritesWithin S
  | note _ next => next.WritesWithin S
  | undefined => True

/-- The program writes at most once to a block that is not of `S`, whatever it reads. -/
def Prog.WritesOnce (S : ℤ → Prop) : Prog β ν α → Prop
  | ret _ => True
  | read _ next => ∀ r, (next r).WritesOnce S
  | write id _ next => next.WritesWithin S ∨ S id ∧ next.WritesOnce S
  | note _ next => next.WritesOnce S
  | undefined => True

section Writes

variable {D : Device σ β} {At : ι → σ → Prop} {P : σ → Prop} {p : Prog β ν α} {f : α → Prog β ν ζ}
  {S : ℤ → Prop} {i j : ι} {s t : σ} {a : α}

theorem Prog.writesWithin_pure : (pure a : Prog β ν α).WritesWithin S := trivial

/-- A write to one of the blocks. -/
theorem Prog.writesWithin_write {id : ℤ} {b : β} (hid : S id) (hp : p.WritesWithin S) :
    (write id b p).WritesWithin S := ⟨hid, hp⟩

theorem Prog.writesWithin_note {n : ν} (hp : p.WritesWithin S) : (note n p).WritesWithin S := hp

/-- Two parts that write to the blocks. -/
theorem Prog.WritesWithin.bind (hp : p.WritesWithin S) (hf : ∀ a, (f a).WritesWithin S) :
    (p >>= f).WritesWithin S := by
  induction p with
  | ret a => exact hf a
  | read id next ih => exact fun r => ih r (hp r)
  | write id b next ih => exact ⟨hp.1, ih hp.2⟩
  | note n next ih => exact ih hp
  | undefined => trivial

/-- A program that only reads writes to none of them. -/
theorem Prog.ReadOnly.writesWithin (hp : p.ReadOnly) : p.WritesWithin S := by
  induction p with
  | ret a => trivial
  | read id next ih => exact fun r => ih r (readOnly_read.mp hp r)
  | write id b next ih => exact absurd hp not_readOnly_write
  | note n next ih => exact absurd hp not_readOnly_note
  | undefined => trivial

/-- A run that writes within `S` does not lead out of what ignores `S`, nor into it. -/
theorem Prog.WritesWithin.run_iff (hp : p.WritesWithin S) (hP : D.Ignores S P)
    (hrun : p.run D s = some (a, t)) : P t ↔ P s := by
  induction p generalizing s with
  | ret b =>
    obtain ⟨-, rfl⟩ := Prod.mk.inj (Option.some.inj hrun)
    exact Iff.rfl
  | read id next ih => exact ih _ (hp _) hrun
  | write id b next ih => exact (ih hp.2 hrun).trans (hP s id b hp.1)
  | note n next ih => exact ih hp hrun
  | undefined => cases hrun

/-- No other write is one at most. -/
theorem Prog.WritesWithin.writesOnce (hp : p.WritesWithin S) : p.WritesOnce S := by
  induction p with
  | ret a => trivial
  | read id next ih => exact fun r => ih r (hp r)
  | write id b next ih => exact .inl hp.2
  | note n next ih => exact ih hp
  | undefined => trivial

/-- The one other write, in front. -/
theorem Prog.writesOnce_write {id : ℤ} {b : β} (hp : p.WritesWithin S) :
    (write id b p).WritesOnce S := .inl hp

/-- Behind the one other write there is none. -/
theorem Prog.WritesOnce.bind (hp : p.WritesOnce S) (hf : ∀ a, (f a).WritesWithin S) :
    (p >>= f).WritesOnce S := by
  induction p with
  | ret a => exact (hf a).writesOnce
  | read id next ih => exact fun r => ih r (hp r)
  | write id b next ih => exact hp.imp (fun h => h.bind hf) fun h => ⟨h.1, ih h.2⟩
  | note n next ih => exact ih hp
  | undefined => trivial

/-- The one other write is in the second part. -/
theorem Prog.WritesWithin.writesOnce_bind (hp : p.WritesWithin S) (hf : ∀ a, (f a).WritesOnce S) :
    (p >>= f).WritesOnce S := by
  induction p with
  | ret a => exact hf a
  | read id next ih => exact fun r => ih r (hp r)
  | write id b next ih => exact .inr ⟨hp.1, ih hp.2⟩
  | note n next ih => exact ih hp
  | undefined => trivial

/-- A run that writes once beside `S` goes from the stage it starts in to the stage it ends in,
where the stages ignore `S`. -/
theorem Prog.WritesOnce.advances (hp : p.WritesOnce S) (hS : ∀ k, D.Ignores S (At k))
    (hrun : p.run D s = some (a, t)) (hs : At i s) (hij : i ≤ j) (ht : At j t) :
    p.Advances D At i s fun a' j' t' => a' = a ∧ j' = j ∧ t' = t := by
  have hwithin {q : Prog β ν α} (hq : q.WritesWithin S) {s : σ} (hrun : q.run D s = some (a, t))
      (hs : At j s) : q.Advances D At j s fun a' j' t' => a' = a ∧ j' = j ∧ t' = t := by
    induction q generalizing s with
    | ret b =>
      obtain ⟨rfl, rfl⟩ := Prod.mk.inj (Option.some.inj hrun)
      exact advances_ret hs ⟨rfl, rfl, rfl⟩
    | read id next ih => exact ih _ (hq _) hrun hs
    | write id b next ih =>
      have hnext := (hS j s id b hq.1).mpr hs
      exact ⟨j, le_rfl, hnext, ih hq.2 hrun hnext⟩
    | note n next ih => exact ih hq hrun hs
    | undefined => cases hrun
  induction p generalizing s with
  | ret b =>
    obtain ⟨rfl, rfl⟩ := Prod.mk.inj (Option.some.inj hrun)
    exact ⟨j, hij, ht, rfl, rfl, rfl⟩
  | read id next ih => exact ih _ (hp _) hrun hs
  | write id b next ih =>
    rcases hp with hnext | ⟨hid, hnext⟩
    · -- behind the one write the stage does not change any more
      have hj := (hnext.run_iff (hS j) hrun).mp ht
      exact ⟨j, hij, hj, hwithin hnext hrun hj⟩
    · have hi := (hS i s id b hid).mpr hs
      exact ⟨i, le_rfl, hi, ih hnext hrun hi⟩
  | note n next ih => exact ih hp hrun hs
  | undefined => cases hrun

/-- **A part with one other write** takes one stage further. -/
theorem Prog.WritesOnce.advances_bind {Q : ζ → ι → σ → Prop} (hp : p.WritesOnce S)
    (hS : ∀ k, D.Ignores S (At k)) (hrun : p.run D s = some (a, t)) (hs : At i s) (hij : i ≤ j)
    (ht : At j t) (hf : (f a).Advances D At j t Q) : (p >>= f).Advances D At i s Q := by
  refine (hp.advances hS hrun hs hij ht).bind ?_
  rintro _ _ _ - ⟨rfl, rfl, rfl⟩
  exact hf

/-- A program that only reads leaves the device where it is. -/
theorem Prog.ReadOnly.advances_bind {Q : ζ → ι → σ → Prop} (hp : p.ReadOnly)
    (hrun : p.run D s = some (a, s)) (hf : (f a).Advances D At i s Q) :
    (p >>= f).Advances D At i s Q := by
  induction p with
  | ret b =>
    obtain ⟨rfl, -⟩ := Prod.mk.inj (Option.some.inj hrun)
    exact hf
  | read id next ih => exact ih _ (readOnly_read.mp hp _) hrun
  | write id b next ih => exact absurd hp not_readOnly_write
  | note n next ih => exact absurd hp not_readOnly_note
  | undefined => cases hrun

end Writes

/-! ### The program that reads -/

/-- `p.Observes D At i Q`: the program only reads, and returns a value with `Q` even if the device
goes on to a later stage between any two of its reads, the first of which is in stage `i` or
later. -/
def Prog.Observes (D : Device σ β) (At : ι → σ → Prop) :
    Prog β ν α → ι → (α → ι → Prop) → Prop
  | ret a, i, Q => Q a i
  | read id next, i, Q => ∀ j s, i ≤ j → At j s → (next (D.load s id)).Observes D At j Q
  | write _ _ _, _, _ => False
  | note _ _, _, _ => False
  | undefined, _, _ => False

/-- The program makes no access. -/
def Prog.Local (p : Prog β ν α) : Prop := p = .undefined ∨ ∃ a, p = .ret a

/-- The program reads one block, and makes no other access. -/
def Prog.ReadsOnce (p : Prog β ν α) : Prop := ∃ id next, p = .read id next ∧ ∀ r, (next r).Local

section Observes

variable {D : Device σ β} {At : ι → σ → Prop} {p : Prog β ν α} {f : α → Prog β ν ζ} {i : ι}
  {Q : α → ι → Prop}

@[simp] theorem Prog.observes_ret {a : α} : (ret a : Prog β ν α).Observes D At i Q ↔ Q a i :=
  Iff.rfl

theorem Prog.observes_read {id : ℤ} {next : Option β → Prog β ν α} :
    (read id next).Observes D At i Q ↔
      ∀ j s, i ≤ j → At j s → (next (D.load s id)).Observes D At j Q := Iff.rfl

/-- **Sequencing**: the rest is looked at from a stage on that has been reached. -/
theorem Prog.Observes.bind {R : ζ → ι → Prop} (hp : p.Observes D At i Q)
    (hf : ∀ a j, Q a j → (f a).Observes D At j R) : (p >>= f).Observes D At i R := by
  induction p generalizing i with
  | ret a => exact hf a i hp
  | read id next ih => exact fun j s hij hs => ih _ (hp j s hij hs)
  | write id b next ih => exact hp.elim
  | note n next ih => exact hp.elim
  | undefined => exact hp.elim

/-- A weaker condition on what was observed. -/
theorem Prog.Observes.mono {R : α → ι → Prop} (hp : p.Observes D At i Q)
    (h : ∀ a j, Q a j → R a j) : p.Observes D At i R := by
  rw [← bind_ret p]
  exact hp.bind fun a j hQ => observes_ret.mpr (h a j hQ)

/-- What is done with the value at the end reads nothing. -/
theorem Prog.Observes.map (hp : p.Observes D At i Q) (f : α → ζ) {R : ζ → Prop}
    (h : ∀ a j, Q a j → R (f a)) :
    (p >>= fun a => pure (f a)).Observes D At i fun b _ => R b :=
  hp.bind fun a j hQ => observes_ret.mpr (h a j hQ)

/-- What a program returns on a device that stays in `S`. -/
theorem Prog.Yields.observes {S : σ → Prop} {Q : α → Prop} (hp : p.Yields D S Q)
    (hS : ∀ j s, i ≤ j → At j s → S s) : p.Observes D At i fun a j => Q a ∧ i ≤ j := by
  induction p generalizing i with
  | ret a => exact ⟨hp, le_rfl⟩
  | read id next ih =>
    refine fun j s hij hs => (ih _ (hp s (hS j s hij hs)) fun k t hjk ht =>
      hS k t (hij.trans hjk) ht).mono fun a k hk => ?_
    exact ⟨hk.1, hij.trans hk.2⟩
  | write id b next ih => exact hp.elim
  | note n next ih => exact hp.elim
  | undefined => exact hp.elim

theorem Prog.local_pure (a : α) : (pure a : Prog β ν α).Local := .inr ⟨a, rfl⟩

theorem Prog.local_undefined : (undefined : Prog β ν α).Local := .inl rfl

/-- Two parts without a device. -/
theorem Prog.Local.bind (hp : p.Local) (hf : ∀ a, (f a).Local) : (p >>= f).Local := by
  rcases hp with rfl | ⟨a, rfl⟩
  · exact local_undefined
  · exact hf a

theorem Prog.local_index {n : ℕ} (x : Fin n → ζ) (k : ℤ) :
    (index x k : Prog β ν ζ).Local := by
  unfold index
  split
  · exact local_pure _
  · exact local_undefined

/-- Behind the one read nothing is read. -/
theorem Prog.ReadsOnce.bind (hp : p.ReadsOnce) (hf : ∀ a, (f a).Local) : (p >>= f).ReadsOnce := by
  obtain ⟨id, next, rfl, hnext⟩ := hp
  exact ⟨id, _, rfl, fun r => (hnext r).bind hf⟩

/-- A program that reads once sees the device in one stage. -/
theorem Prog.ReadsOnce.observes {Q : ι → α → Prop} (hp : p.ReadsOnce)
    (h : ∀ j s, i ≤ j → At j s → p.Yields D (· = s) (Q j)) :
    p.Observes D At i fun a j => Q j a ∧ i ≤ j := by
  obtain ⟨id, next, rfl, hnext⟩ := hp
  refine fun j s hij hs => ?_
  have hyields := h j s hij hs s rfl
  rcases hnext (D.load s id) with hundefined | ⟨a, ha⟩
  · rw [hundefined] at hyields
    exact hyields.elim
  · rw [ha] at hyields ⊢
    exact ⟨hyields, hij⟩

end Observes

/-! ### The requests on one device -/

section Step

variable {D : Device σ β} {Ok : WriteRule σ β} {At : ι → σ → Prop} {x y : Request β ν α} {i j : ι}
  {s t : σ}

/-- One step of the request that writes leads to a later stage. -/
theorem Request.Step.advances {Q : α → ι → σ → Prop} (h : x.Step D Ok s y t) (hs : At i s)
    (hx : x.rest.Advances D At i s Q) : ∃ j, i ≤ j ∧ At j t ∧ y.rest.Advances D At j t Q := by
  cases h with
  | read => exact ⟨i, le_rfl, hs, hx⟩
  | write ok => exact hx
  | note => exact ⟨i, le_rfl, hs, hx⟩

/-- One step of a request that reads leaves the device alone, and has seen its stage. -/
theorem Request.Step.observes {R : α → ι → Prop} (h : x.Step D Ok s y t) (hs : At i s) (hji : j ≤ i)
    (hx : x.rest.Observes D At j R) : t = s ∧ y.rest.Observes D At i R := by
  cases h with
  | read => exact ⟨rfl, hx i s hji hs⟩
  | write ok => exact hx.elim
  | note => exact hx.elim

end Step

/-- A request that writes and others that read, on a device in a stage that is not before those the
readers have seen. -/
def Pool.Watched {κ : Type} (D : Device σ β) (At : ι → σ → Prop) (w : κ) (Q : α → ι → σ → Prop)
    (R : κ → α → ι → Prop) (x : Pool σ β ν α κ) : Prop :=
  ∃ i, At i x.device ∧ (x.requests w).rest.Advances D At i x.device Q ∧
    ∀ k, k ≠ w → ∃ j ≤ i, (x.requests k).rest.Observes D At j (R k)

namespace Pool

variable {κ : Type} [DecidableEq κ] {D : Device σ β} {Ok : WriteRule σ β} {At : ι → σ → Prop}
  {w k : κ} {Q : α → ι → σ → Prop} {R : κ → α → ι → Prop} {x y : Pool σ β ν α κ}

/-- **One step** of one of the requests. -/
theorem Watched.step (hx : x.Watched D At w Q R) (h : x.Step D Ok y) : y.Watched D At w Q R := by
  obtain ⟨i, hi, hwriter, hreaders⟩ := hx
  cases h with
  | @access s s' x r k h =>
    rcases eq_or_ne k w with rfl | hk
    · obtain ⟨j, hij, hj, hnext⟩ := h.advances hi hwriter
      refine ⟨j, hj, by simpa only [Function.update_self] using hnext, fun m hm => ?_⟩
      obtain ⟨n, hni, hreader⟩ := hreaders m hm
      exact ⟨n, hni.trans hij, by simpa only [Function.update_of_ne hm] using hreader⟩
    · obtain ⟨j, hji, hreader⟩ := hreaders k hk
      obtain ⟨rfl, hnext⟩ := h.observes hi hji hreader
      refine ⟨i, hi, by simpa only [Function.update_of_ne (Ne.symm hk)] using hwriter,
        fun m hm => ?_⟩
      rcases eq_or_ne m k with rfl | hmk
      · exact ⟨i, le_rfl, by simpa only [Function.update_self] using hnext⟩
      · simpa only [Function.update_of_ne hmk] using hreaders m hm

/-- **A run** of the requests. -/
theorem Watched.reaches (hx : x.Watched D At w Q R) (h : x.Reaches D Ok y) :
    y.Watched D At w Q R := by
  induction h with
  | refl => exact hx
  | tail _ hstep ih => exact ih.step hstep

omit [DecidableEq κ] in
/-- No request runs into undefined behaviour. -/
theorem Watched.ne_undefined (hx : x.Watched D At w Q R) (k : κ) :
    (x.requests k).rest ≠ .undefined := by
  intro heq
  obtain ⟨i, -, hwriter, hreaders⟩ := hx
  rcases eq_or_ne k w with rfl | hk
  · rw [heq] at hwriter
    exact hwriter
  · obtain ⟨j, -, hreader⟩ := hreaders k hk
    rw [heq] at hreader
    exact hreader

omit [DecidableEq κ] in
/-- Where the request that writes has returned. -/
theorem Watched.writer_returned (hx : x.Watched D At w Q R) {a : α}
    (ha : (x.requests w).rest = .ret a) : ∃ i, Q a i x.device := by
  obtain ⟨i, -, hwriter, -⟩ := hx
  rw [ha] at hwriter
  obtain ⟨j, -, -, hQ⟩ := hwriter
  exact ⟨j, hQ⟩

omit [DecidableEq κ] in
/-- Where a request that reads has returned. -/
theorem Watched.reader_returned (hx : x.Watched D At w Q R) (hk : k ≠ w) {b : α}
    (hb : (x.requests k).rest = .ret b) : ∃ j, R k b j := by
  obtain ⟨i, -, -, hreaders⟩ := hx
  obtain ⟨j, -, hreader⟩ := hreaders k hk
  rw [hb] at hreader
  exact ⟨j, hreader⟩

end Pool

-- evaluating them on a concrete program would run into its loops
attribute [irreducible] Prog.Advances Prog.Observes Prog.WritesWithin Prog.WritesOnce

end Stages

end InodeFs
