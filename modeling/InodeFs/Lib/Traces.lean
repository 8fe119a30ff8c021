import Mathlib.Tactic

/-!
# Traces

The runs of a labelled transition system, with the labels of their steps in order. An invariant is
shown for the first states and for one step (`Trace.invariant`); a system of which every first
state and every step is matched along a relation by another one has its traces
(`Trace.simulation`).

`Trace Start Step l s` is inductive in the run: it starts with no label in a state of `Start`, and a
step appends its label. `Trace.invariant` may speak of the labels so far. `Trace.simulation` is
stated with a relation between the states of the two systems, and gives a run of the other one with
the same labels, which is refinement in the sense of traces; `Trace.append` puts two runs together.

The states and labels are of any types, and a system is given by two predicates. What else a step
does, as that it can be taken at all, is no matter of traces. A system whose states carry an
invariant is matched with the invariant as a part of the relation, so that one use of
`Trace.simulation` gives both.
-/

namespace InodeFs

variable {σ τ α : Type}

/-- The state `s` is reached from a first state by steps with the labels `l`. -/
inductive Trace (Init : σ → Prop) (Step : σ → α → σ → Prop) : List α → σ → Prop
  | init {s : σ} (h : Init s) : Trace Init Step [] s
  | step {l : List α} {s s' : σ} {a : α} (run : Trace Init Step l s) (h : Step s a s') :
      Trace Init Step (l ++ [a]) s'

namespace Trace

variable {Init : σ → Prop} {Step : σ → α → σ → Prop} {Init' : τ → Prop}
  {Step' : τ → α → τ → Prop} {l m : List α} {s s' : σ}

/-- What holds of the first states and is kept by every step holds of every state of a run. -/
theorem invariant {I : List α → σ → Prop} (hinit : ∀ s, Init s → I [] s)
    (hstep : ∀ l s a s', I l s → Step s a s' → I (l ++ [a]) s') (h : Trace Init Step l s) :
    I l s := by
  induction h with
  | init h => exact hinit _ h
  | step _ h ih => exact hstep _ _ _ _ ih h

/-- **Simulation**: what is matched step by step along a relation is matched run by run. -/
theorem simulation {R : σ → τ → Prop} (hinit : ∀ s, Init s → ∃ t, Init' t ∧ R s t)
    (hstep : ∀ s t a s', R s t → Step s a s' → ∃ t', Step' t a t' ∧ R s' t')
    (h : Trace Init Step l s) : ∃ t, Trace Init' Step' l t ∧ R s t := by
  induction h with
  | init h =>
    obtain ⟨t, ht, hR⟩ := hinit _ h
    exact ⟨t, .init ht, hR⟩
  | step _ h ih =>
    obtain ⟨t, ht, hR⟩ := ih
    obtain ⟨t', ht', hR'⟩ := hstep _ _ _ _ hR h
    exact ⟨t', .step ht ht', hR'⟩

/-- A run goes on where another one ends. -/
theorem append (h : Trace Init Step l s) (h' : Trace (· = s) Step m s') :
    Trace Init Step (l ++ m) s' := by
  induction h' with
  | init h' => rwa [List.append_nil, h']
  | step _ h' ih =>
    rw [← List.append_assoc]
    exact ih.step h'

end Trace

end InodeFs
