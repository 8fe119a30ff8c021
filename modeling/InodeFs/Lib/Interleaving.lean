import InodeFs.Lib.DeviceProgram
import Mathlib.Logic.Relation
import Mathlib.Order.GameAdd

/-!
# Interleavings of two programs

Two requests are served on one device. A step is one access of one of the two, and
everything between two accesses of a request is local to it. A request remembers of every
block what it last read from it or wrote to it; a `WriteRule` says which writes are allowed, so
that one relation serves for all interleavings and for those that keep a discipline.

* `Prog.Beside`: what a request does while another one takes steps in between, told by ghost
  states: `I g h s` relates the request's own ghost state, the other one's and the device. A
  write may move the own ghost state; between two accesses the other request moves its ghost
  state and the device, as far as `I` and the relation `G` that both guarantee allow.
* `Pair.Together`: two such requests on one device; a step keeps it (`Pair.Together.step`), and
  so does a run (`Pair.Together.reaches`).
* `Prog.Alone`: a request that takes all its steps while the other one rests.
* `Pair.wellFounded_step`: no interleaving goes on for ever.

A rule for writes does not say how a request keeps to it. `Prog.Informed` is a way for a request
that runs alone: it writes what it has read, and nobody has changed that in the meantime
(`Prog.Informed.alone`).
-/

namespace InodeFs

/-- A **request** in flight: what is left of its program, and what it last read from each block
or wrote to it. -/
structure Request (β ν α : Type) where
  rest : Prog β ν α
  seen : ℤ → Option β

/-- A discipline on writes: may a request that has seen what it has seen write `b` to a block,
the device being in this state? -/
abbrev WriteRule (σ β : Type) : Type := σ → (ℤ → Option β) → ℤ → β → Prop

/-- Every write is allowed. -/
def WriteRule.any {σ β : Type} : WriteRule σ β := fun _ _ _ _ => True

/-- Two requests on one device. -/
structure Pair (σ β ν α : Type) where
  device : σ
  left : Request β ν α
  right : Request β ν α

section Interleaving

variable {σ β ν α ζ γ δ : Type}

/-- A request at its start. -/
def Request.start (p : Prog β ν α) : Request β ν α := ⟨p, fun _ => none⟩

section Step

variable (D : Device σ β) (Ok : WriteRule σ β)

/-- One access of a request. -/
inductive Request.Step : Request β ν α → σ → Request β ν α → σ → Prop
  | read {id : ℤ} {next : Option β → Prog β ν α} {seen : ℤ → Option β} {s : σ} :
      Step ⟨.read id next, seen⟩ s
        ⟨next (D.load s id), Function.update seen id (D.load s id)⟩ s
  | write {id : ℤ} {b : β} {next : Prog β ν α} {seen : ℤ → Option β} {s : σ}
      (ok : Ok s seen id b) :
      Step ⟨.write id b next, seen⟩ s ⟨next, Function.update seen id (some b)⟩ (D.store s id b)
  | note {n : ν} {next : Prog β ν α} {seen : ℤ → Option β} {s : σ} :
      Step ⟨.note n next, seen⟩ s ⟨next, seen⟩ s

/-- One step of the two: an access of the one or of the other. -/
inductive Pair.Step : Pair σ β ν α → Pair σ β ν α → Prop
  | left {s s' : σ} {x x' y : Request β ν α} (h : x.Step D Ok s x' s') :
      Step ⟨s, x, y⟩ ⟨s', x', y⟩
  | right {s s' : σ} {x y y' : Request β ν α} (h : y.Step D Ok s y' s') :
      Step ⟨s, x, y⟩ ⟨s', x, y'⟩

/-- The states an **interleaving** of the two leads to. -/
def Pair.Reaches : Pair σ β ν α → Pair σ β ν α → Prop := Relation.ReflTransGen (Pair.Step D Ok)

end Step

/-- A request that is neither at its end nor at an access without a meaning has a step. -/
theorem Request.exists_step (D : Device σ β) (x : Request β ν α) (s : σ)
    (hx : x.rest ≠ .undefined) (hret : ∀ a, x.rest ≠ .ret a) :
    ∃ x' s', x.Step D WriteRule.any s x' s' := by
  obtain ⟨rest, seen⟩ := x
  cases rest with
  | ret a => exact absurd rfl (hret a)
  | read id next => exact ⟨_, _, .read⟩
  | write id b next => exact ⟨_, _, .write trivial⟩
  | note n next => exact ⟨_, _, .note⟩
  | undefined => exact absurd rfl hx

/-- What has returned makes no step. -/
theorem Request.not_step_of_ret {D : Device σ β} {Ok : WriteRule σ β} {x x' : Request β ν α}
    {s s' : σ} {a : α} (hx : x.rest = .ret a) : ¬ x.Step D Ok s x' s' := by
  rintro (_ | _ | _) <;> cases hx

/-- Where no step is left both have returned. -/
theorem Pair.returned_of_not_step {D : Device σ β} {x : Pair σ β ν α}
    (hleft : x.left.rest ≠ .undefined) (hright : x.right.rest ≠ .undefined)
    (h : ∀ y, ¬ x.Step D WriteRule.any y) :
    (∃ a, x.left.rest = .ret a) ∧ ∃ b, x.right.rest = .ret b := by
  constructor
  · by_contra hret
    obtain ⟨x', s', hstep⟩ := x.left.exists_step D x.device hleft (not_exists.mp hret)
    exact h _ (.left hstep)
  · by_contra hret
    obtain ⟨y', s', hstep⟩ := x.right.exists_step D x.device hright (not_exists.mp hret)
    exact h _ (.right hstep)

/-- The pair with its sides exchanged. -/
def Pair.swap (x : Pair σ β ν α) : Pair σ β ν α := ⟨x.device, x.right, x.left⟩

variable {D : Device σ β} {Ok : WriteRule σ β}

/-- The requests may change places. -/
theorem Pair.Step.swap {x y : Pair σ β ν α} (h : x.Step D Ok y) : x.swap.Step D Ok y.swap := by
  cases h with
  | left h => exact .right h
  | right h => exact .left h

namespace Pair.Reaches

variable {x y z : Pair σ β ν α}

theorem swap (h : x.Reaches D Ok y) : x.swap.Reaches D Ok y.swap :=
  Relation.ReflTransGen.lift Pair.swap (fun _ _ => Step.swap) _ _ h

theorem trans (h : x.Reaches D Ok y) (h' : y.Reaches D Ok z) : x.Reaches D Ok z :=
  Relation.ReflTransGen.trans h h'

end Pair.Reaches

/-! ### Interleavings end -/

/-- What is left of a program after one access. -/
inductive Prog.Follows : Prog β ν α → Prog β ν α → Prop
  | read (id : ℤ) (next : Option β → Prog β ν α) (r : Option β) : Follows (next r) (.read id next)
  | write (id : ℤ) (b : β) (next : Prog β ν α) : Follows next (.write id b next)
  | note (n : ν) (next : Prog β ν α) : Follows next (.note n next)

/-- A program has no infinite run. -/
theorem Prog.wellFounded_follows : WellFounded (Prog.Follows : Prog β ν α → Prog β ν α → Prop) := by
  refine ⟨fun p => ?_⟩
  induction p with
  | ret a => exact ⟨_, fun q h => by cases h⟩
  | read id next ih => exact ⟨_, fun q h => by cases h; exact ih _⟩
  | write id b next ih => exact ⟨_, fun q h => by cases h; exact ih⟩
  | note n next ih => exact ⟨_, fun q h => by cases h; exact ih⟩
  | undefined => exact ⟨_, fun q h => by cases h⟩

/-- A step goes on with what is left of the program. -/
theorem Request.Step.follows {x y : Request β ν α} {s t : σ} (h : x.Step D Ok s y t) :
    y.rest.Follows x.rest := by
  cases h with
  | read => exact .read _ _ _
  | write => exact .write _ _ _
  | note => exact .note _ _

/-- **No interleaving goes on for ever.** -/
theorem Pair.wellFounded_step (D : Device σ β) (Ok : WriteRule σ β) :
    WellFounded fun y x : Pair σ β ν α => x.Step D Ok y := by
  have hwf := (Prog.wellFounded_follows (β := β) (ν := ν) (α := α)).prod_gameAdd
    (Prog.wellFounded_follows (β := β) (ν := ν) (α := α))
  refine Subrelation.wf (fun {y x} h => ?_)
    (InvImage.wf (fun x : Pair σ β ν α => (x.left.rest, x.right.rest)) hwf)
  cases h with
  | left h => exact .fst h.follows
  | right h => exact .snd h.follows

/-! ### A request beside another one -/

/-- `p.Beside D Ok I G seen g s Q`: the request, which took its last step in `s`, takes each of
its steps as `I` and `G` say, whatever the other request does in between, and returns a value
with `Q`. -/
def Prog.Beside (D : Device σ β) (Ok : WriteRule σ β) (I : γ → δ → σ → Prop) (G : σ → σ → Prop) :
    Prog β ν α → (ℤ → Option β) → γ → σ → (α → (ℤ → Option β) → γ → σ → Prop) → Prop
  | ret a, seen, g, s, Q => Q a seen g s
  | read id next, seen, g, s, Q => ∀ h t, G s t → I g h t →
      (next (D.load t id)).Beside D Ok I G (Function.update seen id (D.load t id)) g t Q
  | write id b next, seen, g, s, Q => ∀ h t, G s t → I g h t → Ok t seen id b →
      ∃ g', I g' h (D.store t id b) ∧ G t (D.store t id b) ∧
        next.Beside D Ok I G (Function.update seen id (some b)) g' (D.store t id b) Q
  | note _ next, seen, g, s, Q => next.Beside D Ok I G seen g s Q
  | undefined, _, _, _, _ => False

section Beside

variable {I : γ → δ → σ → Prop} {G : σ → σ → Prop} {seen : ℤ → Option β} {g : γ} {s : σ}

@[simp] theorem Prog.beside_ret {a : α} {Q : α → (ℤ → Option β) → γ → σ → Prop} :
    (ret a : Prog β ν α).Beside D Ok I G seen g s Q ↔ Q a seen g s := Iff.rfl

theorem Prog.beside_read {id : ℤ} {next : Option β → Prog β ν α}
    {Q : α → (ℤ → Option β) → γ → σ → Prop} :
    (read id next).Beside D Ok I G seen g s Q ↔ ∀ h t, G s t → I g h t →
      (next (D.load t id)).Beside D Ok I G (Function.update seen id (D.load t id)) g t Q := Iff.rfl

theorem Prog.beside_write {id : ℤ} {b : β} {next : Prog β ν α}
    {Q : α → (ℤ → Option β) → γ → σ → Prop} :
    (write id b next).Beside D Ok I G seen g s Q ↔ ∀ h t, G s t → I g h t → Ok t seen id b →
      ∃ g', I g' h (D.store t id b) ∧ G t (D.store t id b) ∧
        next.Beside D Ok I G (Function.update seen id (some b)) g' (D.store t id b) Q := Iff.rfl

@[simp] theorem Prog.beside_note {n : ν} {next : Prog β ν α}
    {Q : α → (ℤ → Option β) → γ → σ → Prop} :
    (note n next).Beside D Ok I G seen g s Q ↔ next.Beside D Ok I G seen g s Q := Iff.rfl

@[simp] theorem Prog.not_beside_undefined {Q : α → (ℤ → Option β) → γ → σ → Prop} :
    ¬ (undefined : Prog β ν α).Beside D Ok I G seen g s Q := id

/-- **Sequencing**, beside another request. -/
theorem Prog.Beside.bind {p : Prog β ν α} {f : α → Prog β ν ζ}
    {Q : α → (ℤ → Option β) → γ → σ → Prop} {R : ζ → (ℤ → Option β) → γ → σ → Prop}
    (hp : p.Beside D Ok I G seen g s Q)
    (hf : ∀ a seen' g' s', Q a seen' g' s' → (f a).Beside D Ok I G seen' g' s' R) :
    (p >>= f).Beside D Ok I G seen g s R := by
  induction p generalizing seen g s with
  | ret a => exact hf a seen g s hp
  | read id next ih => exact fun h t hst hI => ih _ (hp h t hst hI)
  | write id b next ih =>
    intro h t hst hI hok
    obtain ⟨g', hI', hG, hnext⟩ := hp h t hst hI hok
    exact ⟨g', hI', hG, ih hnext⟩
  | note n next ih => exact ih hp
  | undefined => exact hp.elim

/-- A weaker postcondition. -/
theorem Prog.Beside.mono {p : Prog β ν α} {Q R : α → (ℤ → Option β) → γ → σ → Prop}
    (hp : p.Beside D Ok I G seen g s Q) (h : ∀ a seen' g' s', Q a seen' g' s' → R a seen' g' s') :
    p.Beside D Ok I G seen g s R := by
  rw [← bind_ret p]
  exact hp.bind h

/-- A request that only reads, on a device that stays in `S`. -/
theorem Prog.Yields.beside {S : σ → Prop} {p : Prog β ν α} {Q : α → Prop} (hp : p.Yields D S Q)
    (hS : ∀ h t, I g h t → S t) :
    p.Beside D Ok I G seen g s fun a _ g' _ => Q a ∧ g' = g := by
  induction p generalizing seen s with
  | ret a => exact ⟨hp, rfl⟩
  | read id next ih => exact fun h t _ hI => ih _ (hp t (hS h t hI))
  | write id b next ih => exact hp.elim
  | note n next ih => exact hp.elim
  | undefined => exact hp.elim

/-- Two requests on one device, each of which goes on as it has guaranteed. -/
def Pair.Together (D : Device σ β) (Ok : WriteRule σ β) (I : γ → δ → σ → Prop) (G : σ → σ → Prop)
    (Q : α → (ℤ → Option β) → γ → σ → Prop) (R : α → (ℤ → Option β) → δ → σ → Prop)
    (x : Pair σ β ν α) : Prop :=
  ∃ g h s t, I g h x.device ∧ G s x.device ∧ G t x.device ∧
    x.left.rest.Beside D Ok I G x.left.seen g s Q ∧
    x.right.rest.Beside D Ok (fun h g => I g h) G x.right.seen h t R

namespace Pair

variable {Q : α → (ℤ → Option β) → γ → σ → Prop} {R : α → (ℤ → Option β) → δ → σ → Prop}
  {x y : Pair σ β ν α}

/-- The roles of the two requests are the same. -/
theorem Together.swap (hx : x.Together D Ok I G Q R) :
    x.swap.Together D Ok (fun h g => I g h) G R Q := by
  obtain ⟨g, h, s, t, hI, hs, ht, hleft, hright⟩ := hx
  exact ⟨h, g, t, s, hI, ht, hs, hright, hleft⟩

/-- A step of the left request. -/
private theorem Together.step_left (hrefl : ∀ s, G s s) (htrans : ∀ {s t u}, G s t → G t u → G s u)
    {s s' : σ} {x x' y : Request β ν α} (hx : Together D Ok I G Q R ⟨s, x, y⟩)
    (h : x.Step D Ok s x' s') : Together D Ok I G Q R ⟨s', x', y⟩ ∧ G s s' := by
  obtain ⟨g, h', u, v, hI, hu, hv, hleft, hright⟩ := hx
  cases h with
  | read => exact ⟨⟨g, h', s, v, hI, hrefl s, hv, hleft h' s hu hI, hright⟩, hrefl s⟩
  | write ok =>
    obtain ⟨g', hI', hG, hnext⟩ := hleft h' s hu hI ok
    exact ⟨⟨g', h', _, v, hI', hrefl _, htrans hv hG, hnext, hright⟩, hG⟩
  | note => exact ⟨⟨g, h', u, v, hI, hu, hv, hleft, hright⟩, hrefl s⟩

/-- **One step** of either request keeps what both have guaranteed. -/
theorem Together.step (hrefl : ∀ s, G s s) (htrans : ∀ {s t u}, G s t → G t u → G s u)
    (hx : x.Together D Ok I G Q R) (h : x.Step D Ok y) :
    y.Together D Ok I G Q R ∧ G x.device y.device := by
  cases h with
  | left h => exact Together.step_left hrefl htrans hx h
  | right h =>
    obtain ⟨hy, hG⟩ := Together.step_left hrefl htrans hx.swap h
    exact ⟨hy.swap, hG⟩

/-- **A run** keeps what both have guaranteed. -/
theorem Together.reaches (hrefl : ∀ s, G s s) (htrans : ∀ {s t u}, G s t → G t u → G s u)
    (hx : x.Together D Ok I G Q R) (h : x.Reaches D Ok y) :
    y.Together D Ok I G Q R ∧ G x.device y.device := by
  induction h with
  | refl => exact ⟨hx, hrefl _⟩
  | tail _ hstep ih =>
    obtain ⟨hy, hG⟩ := ih
    obtain ⟨hz, hG'⟩ := hy.step hrefl htrans hstep
    exact ⟨hz, htrans hG hG'⟩

/-- Neither request comes to an access that has no meaning. -/
theorem Together.ne_undefined (hx : x.Together D Ok I G Q R) :
    x.left.rest ≠ .undefined ∧ x.right.rest ≠ .undefined := by
  obtain ⟨g, h, s, t, -, -, -, hleft, hright⟩ := hx
  refine ⟨fun heq => ?_, fun heq => ?_⟩
  · rw [heq] at hleft
    exact Prog.not_beside_undefined hleft
  · rw [heq] at hright
    exact Prog.not_beside_undefined hright

/-- Where both have returned, both have what they were to return. -/
theorem Together.returned (hx : x.Together D Ok I G Q R) {a b : α} (ha : x.left.rest = .ret a)
    (hb : x.right.rest = .ret b) : ∃ g h s t, I g h x.device ∧ G s x.device ∧ G t x.device ∧
      Q a x.left.seen g s ∧ R b x.right.seen h t := by
  obtain ⟨g, h, s, t, hI, hs, ht, hleft, hright⟩ := hx
  rw [ha] at hleft
  rw [hb] at hright
  exact ⟨g, h, s, t, hI, hs, ht, hleft, hright⟩

end Pair

end Beside

-- evaluating it on a concrete program would run into its loops
attribute [irreducible] Prog.Beside

/-! ### A request while the other one rests -/

/-- `p.Alone D Ok seen s Q`: the request takes all its steps without one of the other request in
between, its writes are allowed, and it returns a value with `Q`. -/
def Prog.Alone (D : Device σ β) (Ok : WriteRule σ β) :
    Prog β ν α → (ℤ → Option β) → σ → (α → (ℤ → Option β) → σ → Prop) → Prop
  | ret a, seen, s, Q => Q a seen s
  | read id next, seen, s, Q =>
    (next (D.load s id)).Alone D Ok (Function.update seen id (D.load s id)) s Q
  | write id b next, seen, s, Q =>
    Ok s seen id b ∧ next.Alone D Ok (Function.update seen id (some b)) (D.store s id b) Q
  | note _ next, seen, s, Q => next.Alone D Ok seen s Q
  | undefined, _, _, _ => False

section Alone

@[simp] theorem Prog.alone_ret {a : α} {seen : ℤ → Option β} {s : σ}
    {Q : α → (ℤ → Option β) → σ → Prop} : (ret a : Prog β ν α).Alone D Ok seen s Q ↔ Q a seen s :=
  Iff.rfl

theorem Prog.alone_read {id : ℤ} {next : Option β → Prog β ν α} {seen : ℤ → Option β} {s : σ}
    {Q : α → (ℤ → Option β) → σ → Prop} : (read id next).Alone D Ok seen s Q ↔
      (next (D.load s id)).Alone D Ok (Function.update seen id (D.load s id)) s Q := Iff.rfl

theorem Prog.alone_write {id : ℤ} {b : β} {next : Prog β ν α} {seen : ℤ → Option β} {s : σ}
    {Q : α → (ℤ → Option β) → σ → Prop} : (write id b next).Alone D Ok seen s Q ↔
      Ok s seen id b ∧ next.Alone D Ok (Function.update seen id (some b)) (D.store s id b) Q :=
        Iff.rfl

theorem Prog.alone_note {n : ν} {next : Prog β ν α} {seen : ℤ → Option β} {s : σ}
    {Q : α → (ℤ → Option β) → σ → Prop} :
    (note n next).Alone D Ok seen s Q ↔ next.Alone D Ok seen s Q := Iff.rfl

variable {p : Prog β ν α} {seen : ℤ → Option β} {s : σ}

/-- **Sequencing**, where nothing else runs. -/
theorem Prog.Alone.bind {f : α → Prog β ν ζ} {Q : α → (ℤ → Option β) → σ → Prop}
    {R : ζ → (ℤ → Option β) → σ → Prop} (hp : p.Alone D Ok seen s Q)
    (hf : ∀ a seen' t, Q a seen' t → (f a).Alone D Ok seen' t R) :
    (p >>= f).Alone D Ok seen s R := by
  induction p generalizing seen s with
  | ret a => exact hf a seen s hp
  | read id next ih => exact ih _ hp
  | write id b next ih => exact ⟨hp.1, ih hp.2⟩
  | note n next ih => exact ih hp
  | undefined => exact hp.elim

/-- Where every write is allowed, this is `Prog.run`. -/
theorem Prog.alone_of_run (hok : ∀ s seen id b, Ok s seen id b) (seen : ℤ → Option β)
    {a : α} {t : σ}
    (h : p.run D s = some (a, t)) : p.Alone D Ok seen s fun a' _ t' => a' = a ∧ t' = t := by
  induction p generalizing seen s with
  | ret b =>
    cases h
    exact ⟨rfl, rfl⟩
  | read id next ih => exact ih _ _ h
  | write id b next ih => exact ⟨hok _ _ _ _, ih _ h⟩
  | note n next ih => exact ih _ h
  | undefined => cases h

/-- The left request takes the steps of the first part of its program. -/
theorem Prog.Alone.reaches {f : α → Prog β ν ζ} {Q : α → (ℤ → Option β) → σ → Prop}
    (hp : p.Alone D Ok seen s Q) (y : Request β ν ζ) : ∃ a seen' t, Q a seen' t ∧
      Pair.Reaches D Ok ⟨s, ⟨p >>= f, seen⟩, y⟩ ⟨t, ⟨f a, seen'⟩, y⟩ := by
  induction p generalizing seen s with
  | ret a => exact ⟨a, seen, s, hp, .refl⟩
  | read id next ih =>
    obtain ⟨a, seen', t, hQ, hreach⟩ := ih _ hp
    exact ⟨a, seen', t, hQ, .head (.left .read) hreach⟩
  | write id b next ih =>
    obtain ⟨a, seen', t, hQ, hreach⟩ := ih hp.2
    exact ⟨a, seen', t, hQ, .head (.left (.write hp.1)) hreach⟩
  | note n next ih =>
    obtain ⟨a, seen', t, hQ, hreach⟩ := ih hp
    exact ⟨a, seen', t, hQ, .head (.left .note) hreach⟩
  | undefined => exact hp.elim

/-- The left request takes all its steps. -/
theorem Prog.Alone.reaches_ret {Q : α → (ℤ → Option β) → σ → Prop} (hp : p.Alone D Ok seen s Q)
    (y : Request β ν α) : ∃ a seen' t, Q a seen' t ∧
      Pair.Reaches D Ok ⟨s, ⟨p, seen⟩, y⟩ ⟨t, ⟨.ret a, seen'⟩, y⟩ := by
  have hreach := hp.reaches (f := Prog.ret) y
  rwa [bind_ret] at hreach

end Alone

attribute [irreducible] Prog.Alone

/-! ### Programs that write what they have read -/

/-- `p.Informed D Fine known s`: run from `s` alone, the program writes only to blocks that it has
read or that are `known`, and only what is `Fine` there. -/
def Prog.Informed (D : Device σ β) (Fine : σ → ℤ → β → Prop) : Prog β ν α → Set ℤ → σ → Prop
  | ret _, _, _ => True
  | read id next, known, s => (next (D.load s id)).Informed D Fine (insert id known) s
  | write id b next, known, s =>
    id ∈ known ∧ Fine s id b ∧ next.Informed D Fine known (D.store s id b)
  | note _ next, known, s => next.Informed D Fine known s
  | undefined, _, _ => True

section Informed

variable {Fine : σ → ℤ → β → Prop} {p : Prog β ν α} {known : Set ℤ} {s t : σ} {a : α}

@[simp] theorem Prog.informed_ret : (ret a : Prog β ν α).Informed D Fine known s := trivial

theorem Prog.informed_read {id : ℤ} {next : Option β → Prog β ν α} :
    (read id next).Informed D Fine known s ↔
      (next (D.load s id)).Informed D Fine (insert id known) s := Iff.rfl

theorem Prog.informed_write {id : ℤ} {b : β} : (write id b p).Informed D Fine known s ↔
    id ∈ known ∧ Fine s id b ∧ p.Informed D Fine known (D.store s id b) := Iff.rfl

@[simp] theorem Prog.informed_note {n : ν} :
    (note n p).Informed D Fine known s ↔ p.Informed D Fine known s := Iff.rfl

/-- **Sequencing**: what was read stays known. -/
theorem Prog.Informed.bind {f : α → Prog β ν ζ} (hp : p.Informed D Fine known s)
    (hrun : p.run D s = some (a, t))
    (hf : ∀ known', known ⊆ known' → (f a).Informed D Fine known' t) :
    (p >>= f).Informed D Fine known s := by
  induction p generalizing known s with
  | ret b =>
    cases hrun
    exact hf known subset_rfl
  | read id next ih =>
    exact ih _ hp hrun fun known' h => hf known' ((Set.subset_insert id known).trans h)
  | write id b next ih => exact ⟨hp.1, hp.2.1, ih hp.2.2 hrun hf⟩
  | note n next ih => exact ih hp hrun hf
  | undefined => cases hrun

/-- A program that only reads writes nothing that it has not read. -/
theorem Prog.ReadOnly.informed (hp : p.ReadOnly) : p.Informed D Fine known s := by
  induction p generalizing known with
  | ret a => trivial
  | read id next ih => exact ih _ (Prog.readOnly_read.mp hp _)
  | write id b next ih => exact absurd hp Prog.not_readOnly_write
  | note n next ih => exact absurd hp Prog.not_readOnly_note
  | undefined => trivial

/-- Such a program, run alone, keeps every rule that allows to write where the block is as it was
seen last. -/
theorem Prog.Informed.alone
    (hstore : ∀ s id b, Fine s id b → ∀ i, D.load (D.store s id b) i =
      if i = id then some b else D.load s i)
    (hok : ∀ s seen id b, D.load s id = seen id → Fine s id b → Ok s seen id b)
    {seen : ℤ → Option β} (hp : p.Informed D Fine known s) (hrun : p.run D s = some (a, t))
    (hseen : ∀ i ∈ known, seen i = D.load s i) :
    p.Alone D Ok seen s fun a' _ t' => a' = a ∧ t' = t := by
  induction p generalizing known seen s with
  | ret b =>
    cases hrun
    exact Prog.alone_ret.mpr ⟨rfl, rfl⟩
  | read id next ih =>
    refine Prog.alone_read.mpr (ih _ hp hrun fun i hi => ?_)
    -- what is read becomes known, and is as the device has it
    by_cases hid : i = id
    · rw [hid, Function.update_self]
    · rw [Function.update_of_ne hid]
      exact hseen i (Set.mem_of_mem_insert_of_ne hi hid)
  | write id b next ih =>
    obtain ⟨hknown, hfine, hnext⟩ := hp
    refine Prog.alone_write.mpr ⟨hok s seen id b (hseen id hknown).symm hfine,
      ih hnext hrun fun i hi => ?_⟩
    rw [hstore s id b hfine, Function.update_apply]
    split
    · rfl
    · exact hseen i hi
  | note n next ih => exact Prog.alone_note.mpr (ih hp hrun hseen)
  | undefined => cases hrun

end Informed

attribute [irreducible] Prog.Informed

end Interleaving

end InodeFs
