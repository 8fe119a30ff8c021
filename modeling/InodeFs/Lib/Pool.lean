import InodeFs.Lib.Interleaving
import Mathlib.Data.DFinsupp.WellFounded

/-!
# Any number of requests

Requests that are served on one device, each by a thread of its own: a step is one access of one of
them. Where no step is left all of them have returned, and no interleaving of finitely many goes on
for ever.

A `Pool` has any family of requests, of which a step replaces one; the others keep what they have
seen and what they have left to run. `Pool.wellFounded_step` needs the family to be finite. It is
the lexicographic order over the family, in which the one request has taken a step down its tree
(`Prog.wellFounded_follows`) and the others are the same.

The runs of a single request are paths of the pool: `reaches_of_run_bind` for the first part of a
program, `reaches_of_run` for a whole one. With them orders of accesses are exhibited in which
requests are interrupted where one likes.

A pool differs from the two requests of `InodeFs.Lib.Interleaving` in that nothing is said of the
ways in which requests disturb each other; what holds along a run of a pool is shown by an invariant
of the pool, as in `InodeFs.Lib.Stages` for one request that writes.
-/

namespace InodeFs

/-- Requests on one device. -/
structure Pool (σ β ν α κ : Type) where
  device : σ
  requests : κ → Request β ν α

section Pool

variable {σ β ν α ζ κ : Type} [DecidableEq κ]

section Step

variable (D : Device σ β) (Ok : WriteRule σ β)

/-- One step: an access of one of the requests. -/
inductive Pool.Step : Pool σ β ν α κ → Pool σ β ν α κ → Prop
  | access {s s' : σ} {x : κ → Request β ν α} {r : Request β ν α} (k : κ)
      (h : (x k).Step D Ok s r s') : Step ⟨s, x⟩ ⟨s', Function.update x k r⟩

/-- The states an **interleaving** of the requests leads to. -/
def Pool.Reaches : Pool σ β ν α κ → Pool σ β ν α κ → Prop := Relation.ReflTransGen (Pool.Step D Ok)

end Step

namespace Pool

variable {D : Device σ β} {x y z : Pool σ β ν α κ} {k : κ}

theorem Reaches.trans {Ok : WriteRule σ β} (h : x.Reaches D Ok y) (h' : y.Reaches D Ok z) :
    x.Reaches D Ok z := Relation.ReflTransGen.trans h h'

/-- Where no step is left a request has returned. -/
theorem returned_of_not_step (hk : (x.requests k).rest ≠ .undefined)
    (h : ∀ y, ¬ x.Step D WriteRule.any y) : ∃ a, (x.requests k).rest = .ret a := by
  by_contra hret
  obtain ⟨r, s, hstep⟩ := (x.requests k).exists_step D x.device hk (not_exists.mp hret)
  exact h _ (.access k hstep)

/-- **No interleaving goes on for ever.** -/
theorem wellFounded_step [Finite κ] (D : Device σ β) (Ok : WriteRule σ β) :
    WellFounded fun y x : Pool σ β ν α κ => x.Step D Ok y := by
  have hwf := Pi.Lex.wellFounded (WellOrderingRel : κ → κ → Prop)
    fun _ => Prog.wellFounded_follows (β := β) (ν := ν) (α := α)
  refine Subrelation.wf (fun {y x} h => ?_)
    (InvImage.wf (fun (x : Pool σ β ν α κ) k => (x.requests k).rest) hwf)
  cases h with
  | @access s s' x r k h =>
    refine ⟨k, fun j hj => congrArg Request.rest (Function.update_of_ne (ne_of_irrefl hj) r x), ?_⟩
    have hrest := h.follows
    rwa [← Function.update_self k r x] at hrest

/-- One access, and what another run of the same request leaves. -/
theorem Reaches.head {requests : κ → Request β ν α} {r r' : Request β ν α} {s s' t : σ}
    (h : (requests k).Step D WriteRule.any s r s')
    (hrest : Reaches D WriteRule.any ⟨s', Function.update requests k r⟩
      ⟨t, Function.update (Function.update requests k r) k r'⟩) :
    Reaches D WriteRule.any ⟨s, requests⟩ ⟨t, Function.update requests k r'⟩ := by
  rw [Function.update_idem] at hrest
  exact Relation.ReflTransGen.head (Pool.Step.access k h) hrest

/-- A request that takes the steps of the first part of its program while the others rest. -/
theorem reaches_of_run_bind {p : Prog β ν ζ} {f : ζ → Prog β ν α} {requests : κ → Request β ν α}
    {seen : ℤ → Option β} {a : ζ} {s t : σ} (hk : requests k = ⟨p >>= f, seen⟩)
    (h : p.run D s = some (a, t)) : ∃ seen', Reaches D WriteRule.any ⟨s, requests⟩
      ⟨t, Function.update requests k ⟨f a, seen'⟩⟩ := by
  induction p generalizing s requests seen with
  | ret b =>
    obtain ⟨rfl, rfl⟩ := Prod.mk.inj (Option.some.inj h)
    refine ⟨seen, ?_⟩
    rw [← Prog.ret_bind b f, ← hk, Function.update_eq_self]
    exact .refl
  | read id next ih =>
    obtain ⟨seen', hrest⟩ := ih _ (Function.update_self ..) h
    exact ⟨seen', Reaches.head (by rw [hk]; exact .read) hrest⟩
  | write id b next ih =>
    obtain ⟨seen', hrest⟩ := ih (Function.update_self ..) h
    exact ⟨seen', Reaches.head (by rw [hk]; exact .write trivial) hrest⟩
  | note n next ih =>
    obtain ⟨seen', hrest⟩ := ih (Function.update_self ..) h
    exact ⟨seen', Reaches.head (by rw [hk]; exact .note) hrest⟩
  | undefined => cases h

/-- A request that runs to its end while the others rest. -/
theorem reaches_of_run {p : Prog β ν α} {requests : κ → Request β ν α} {seen : ℤ → Option β} {a : α}
    {s t : σ} (hk : requests k = ⟨p, seen⟩) (h : p.run D s = some (a, t)) :
    ∃ seen', Reaches D WriteRule.any ⟨s, requests⟩
      ⟨t, Function.update requests k ⟨.ret a, seen'⟩⟩ := by
  rw [← Prog.bind_ret p] at hk
  exact reaches_of_run_bind hk h

end Pool

end Pool

end InodeFs
