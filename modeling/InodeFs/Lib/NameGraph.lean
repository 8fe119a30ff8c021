import Mathlib.Tactic

/-!
# Naming graphs

A naming graph gives each node an ordered list of named edges: the directories of a file
system, with nodes `ι` and names `ν`. A path is a list of names, resolved from a node by
following the first edge of each name.

* `insert` appends an edge, `remove` takes an edge out of one node's list. Both are described by
  what they do to `lookup`.
* `Proper` says that no node has two edges of one name, no node is named twice, and the root
  is not named; then paths from the root are unique (`Proper.resolve_inj`), and a path that does
  not go through an edge is resolved without it (`Proper.resolve_avoid`).
* `Similar` graphs have the same edges at each node, in some order. Proper graphs that are
  similar have the same lookups.

Edges are listed, and not given as a function, since the order of entries is seen in a listing, and
since a name may be there twice; `lookup` takes the first. That this does not happen is what
`Proper` says. It is kept by an insertion under a fresh name of a node that is not named
(`Proper.insert`), and by every removal (`Proper.remove`).
-/

namespace InodeFs

/-- A **naming graph**: the named edges of each node, in order. -/
abbrev NameGraph (ι ν : Type) := ι → List (ν × ι)

namespace NameGraph

variable {ι ν : Type} {g : NameGraph ι ν} {root p q i j : ι} {a b : ν} {as bs : List ν}

section Lookup

variable [DecidableEq ν]

/-- The target of the first edge of `p` named `a`. -/
def lookup (g : NameGraph ι ν) (p : ι) (a : ν) : Option ι :=
  ((g p).find? fun e => e.1 = a).map Prod.snd

/-- Follow a path from a node. -/
def resolve (g : NameGraph ι ν) : ι → List ν → Option ι
  | p, [] => some p
  | p, a :: as => (g.lookup p a).bind fun q => g.resolve q as

/-- What is looked up is an edge. -/
theorem mem_of_lookup (h : g.lookup p a = some i) : (a, i) ∈ g p := by
  obtain ⟨⟨b, j⟩, hfind, rfl⟩ := Option.map_eq_some_iff.mp h
  have hb : b = a := by simpa using List.find?_some hfind
  subst hb
  exact List.mem_of_find?_eq_some hfind

/-- Nothing is looked up where no edge has the name. -/
theorem lookup_eq_none : g.lookup p a = none ↔ ∀ e ∈ g p, e.1 ≠ a := by
  simp [lookup, List.find?_eq_none]

@[simp] theorem resolve_nil : g.resolve p [] = some p := rfl

theorem resolve_cons : g.resolve p (a :: as) = (g.lookup p a).bind fun q => g.resolve q as := rfl

/-- A path is resolved part by part. -/
theorem resolve_append : g.resolve p (as ++ bs) = (g.resolve p as).bind (g.resolve · bs) := by
  induction as generalizing p with
  | nil => rfl
  | cons a as ih =>
    rw [List.cons_append, resolve_cons, resolve_cons]
    cases g.lookup p a with
    | none => rfl
    | some q => exact ih

/-- The last step of a resolution. -/
theorem resolve_concat_eq_some :
    g.resolve p (as ++ [a]) = some i ↔ ∃ q, g.resolve p as = some q ∧ g.lookup q a = some i := by
  rw [resolve_append, Option.bind_eq_some_iff]
  simp [resolve_cons]

/-- The last step, for components that stand for the edge names. -/
theorem resolve_map_concat {γ : Type*} {f : γ → ν} {cs : List γ} {c : γ} :
    g.resolve p ((cs ++ [c]).map f) = some i ↔
      ∃ q, g.resolve p (cs.map f) = some q ∧ g.lookup q (f c) = some i := by
  rw [List.map_append]
  exact resolve_concat_eq_some

/-- A graph that keeps the lookups that succeed keeps the resolutions that do. -/
theorem resolve_mono {g' : NameGraph ι ν} (h : ∀ q b j, g.lookup q b = some j →
    g'.lookup q b = some j) (hr : g.resolve p as = some i) : g'.resolve p as = some i := by
  induction as generalizing p with
  | nil => exact hr
  | cons a as ih =>
    rw [resolve_cons, Option.bind_eq_some_iff] at hr ⊢
    obtain ⟨q, hq, hrest⟩ := hr
    exact ⟨q, h _ _ _ hq, ih hrest⟩

end Lookup

/-! ### Adding an edge -/

section Insert

variable [DecidableEq ι]

/-- Append an edge from `p` named `a` to `i`. -/
def insert (g : NameGraph ι ν) (p : ι) (a : ν) (i : ι) : NameGraph ι ν :=
  Function.update g p (g p ++ [(a, i)])

theorem insert_apply : g.insert p a i q = if q = p then g p ++ [(a, i)] else g q := by
  rw [insert, Function.update_apply]

/-- The edges after an insertion are the old ones and the new one. -/
theorem mem_insert {e : ν × ι} :
    e ∈ g.insert p a i q ↔ e ∈ g q ∨ (q = p ∧ e = (a, i)) := by
  rw [insert_apply]
  by_cases h : q = p
  · subst h; simp
  · simp [h]

variable [DecidableEq ν]

/-- **Looking up after an insertion**: the new name, and the others as before. -/
theorem lookup_insert (ha : g.lookup p a = none) :
    (g.insert p a i).lookup q b = if q = p ∧ b = a then some i else g.lookup q b := by
  unfold lookup at ha ⊢
  rw [insert_apply]
  by_cases hq : q = p
  · subst hq
    rw [if_pos rfl, List.find?_append]
    by_cases hb : b = a
    · subst hb
      rw [Option.map_eq_none_iff.mp ha]
      simp
    · have hab : a ≠ b := fun h => hb h.symm
      simp [hb, hab]
  · simp [hq]

/-- What was found is found still: the new edge is behind the others and has a new name. -/
theorem resolve_insert (ha : g.lookup p a = none) (hr : g.resolve q as = some j) :
    (g.insert p a i).resolve q as = some j := by
  refine resolve_mono (fun q b j hj => ?_) hr
  rw [lookup_insert ha]
  split
  · next h => rw [h.1, h.2, ha] at hj; cases hj
  · exact hj

end Insert

/-! ### Proper graphs -/

/-- Every edge is the only one of its name at its node and the only one to its target, and
none leads to the root. -/
structure Proper (g : NameGraph ι ν) (root : ι) : Prop where
  names : ∀ p, ((g p).map Prod.fst).Nodup
  targets : ∀ p, ((g p).map Prod.snd).Nodup
  source : ∀ {p q a b i}, (a, i) ∈ g p → (b, i) ∈ g q → p = q
  root : ∀ {p a i}, (a, i) ∈ g p → i ≠ root

/-- A vertex has one name, in one place. -/
theorem Proper.eq_of_target (h : g.Proper root) (hp : (a, i) ∈ g p) (hq : (b, i) ∈ g q) :
    p = q ∧ a = b := by
  obtain rfl := h.source hp hq
  have := List.inj_on_of_nodup_map (h.targets p) hp hq rfl
  exact ⟨rfl, congrArg Prod.fst this⟩

section Resolution

variable [DecidableEq ν]

/-- Every edge is found under its name. -/
theorem Proper.lookup_eq_some (h : g.Proper root) :
    g.lookup p a = some i ↔ (a, i) ∈ g p := by
  refine ⟨mem_of_lookup, fun hmem => ?_⟩
  cases hl : g.lookup p a with
  | none => exact absurd rfl (lookup_eq_none.mp hl _ hmem)
  | some j =>
    have hedge := List.inj_on_of_nodup_map (h.names p) (mem_of_lookup hl) hmem rfl
    exact congrArg some (congrArg Prod.snd hedge)

/-- An edge that is left in a part of a proper graph's edges is still found under its name. -/
theorem Proper.lookup_of_subset {g' : NameGraph ι ν} (h : g.Proper root)
    (hsub : ∀ e ∈ g' p, e ∈ g p) (hmem : (a, i) ∈ g' p) : g'.lookup p a = some i := by
  cases hl : g'.lookup p a with
  | none => exact absurd rfl (lookup_eq_none.mp hl _ hmem)
  | some j =>
    have hedge := List.inj_on_of_nodup_map (h.names p) (hsub _ (mem_of_lookup hl)) (hsub _ hmem) rfl
    exact congrArg some (congrArg Prod.snd hedge)

/-- In a proper graph a node is reached from the root by at most one path. -/
theorem Proper.resolve_inj (h : g.Proper root) (ha : g.resolve root as = some i)
    (hb : g.resolve root bs = some i) : as = bs := by
  induction as using List.reverseRecOn generalizing bs i with
  | nil =>
    cases bs using List.reverseRecOn with
    | nil => rfl
    | append_singleton bs b =>
      obtain rfl : root = i := by simpa using ha
      obtain ⟨q, -, hq⟩ := resolve_concat_eq_some.mp hb
      exact absurd rfl (h.root (mem_of_lookup hq))
  | append_singleton as a ih =>
    obtain ⟨p, hp, hpa⟩ := resolve_concat_eq_some.mp ha
    cases bs using List.reverseRecOn with
    | nil =>
      obtain rfl : root = i := by simpa using hb
      exact absurd rfl (h.root (mem_of_lookup hpa))
    | append_singleton bs b =>
      obtain ⟨q, hq, hqb⟩ := resolve_concat_eq_some.mp hb
      obtain ⟨rfl, rfl⟩ := h.eq_of_target (mem_of_lookup hpa) (mem_of_lookup hqb)
      rw [ih hp hq]

end Resolution

/-- Inserting a fresh node under a fresh name keeps a graph proper. -/
theorem Proper.insert [DecidableEq ι] [DecidableEq ν] (h : g.Proper root)
    (ha : g.lookup p a = none) (hroot : i ≠ root) (hi : ∀ q b, (b, i) ∉ g q) :
    (g.insert p a i).Proper root where
  names q := by
    rw [insert_apply]
    split
    · -- the new name is not in use
      rw [List.map_append, List.nodup_append]
      refine ⟨h.names p, by simp, fun x hx y hy hxy => ?_⟩
      obtain ⟨e, he, rfl⟩ := List.mem_map.mp hx
      exact lookup_eq_none.mp ha e he (by simpa [← hxy] using hy)
    · exact h.names q
  targets q := by
    rw [insert_apply]
    split
    · -- nothing leads to `i` yet
      rw [List.map_append, List.nodup_append]
      refine ⟨h.targets p, by simp, fun x hx y hy hxy => ?_⟩
      obtain ⟨⟨b, j⟩, he, rfl⟩ := List.mem_map.mp hx
      obtain rfl : j = i := by simpa [← hxy] using hy
      exact hi p b he
    · exact h.targets q
  source := by
    intro p' q' b c k hp hq
    rw [mem_insert] at hp hq
    -- an old and a new edge with one target: the target would be `i`
    rcases hp with hp | ⟨rfl, hp⟩ <;> rcases hq with hq | ⟨rfl, hq⟩
    · exact h.source hp hq
    · obtain ⟨-, rfl⟩ := Prod.mk.inj hq
      exact absurd hp (hi _ _)
    · obtain ⟨-, rfl⟩ := Prod.mk.inj hp
      exact absurd hq (hi _ _)
    · rfl
  root := by
    intro q b k hk
    rcases mem_insert.mp hk with hk | ⟨-, hk⟩
    · exact h.root hk
    · obtain ⟨-, rfl⟩ := Prod.mk.inj hk
      exact hroot

/-- A path that does not go through an edge is resolved by every graph that has the other
lookups. -/
theorem Proper.resolve_avoid [DecidableEq ν] {g' : NameGraph ι ν} (h : g.Proper root)
    (hp : g.resolve root as = some p)
    (hkeep : ∀ q b j, g.lookup q b = some j → ¬ (q = p ∧ b = a) → g'.lookup q b = some j)
    (havoid : ¬ as ++ [a] <+: bs) (hr : g.resolve root bs = some i) :
    g'.resolve root bs = some i := by
  induction bs using List.reverseRecOn generalizing i with
  | nil => exact hr
  | append_singleton bs b ih =>
    obtain ⟨q, hq, hb⟩ := resolve_concat_eq_some.mp hr
    refine resolve_concat_eq_some.mpr ⟨q, ih (fun hpre => ?_) hq, hkeep q b i hb ?_⟩
    · exact havoid (hpre.trans (List.prefix_append bs [b]))
    · -- the last edge is the one to avoid only behind its own path
      rintro ⟨rfl, rfl⟩
      exact havoid (h.resolve_inj hp hq ▸ List.prefix_rfl)

/-- What lies behind an edge is resolved from there without it. -/
theorem Proper.resolve_behind [DecidableEq ν] {g' : NameGraph ι ν} (h : g.Proper root)
    (hp : g.resolve root as = some p) (ha : g.lookup p a = some i)
    (hkeep : ∀ q b j, g.lookup q b = some j → ¬ (q = p ∧ b = a) → g'.lookup q b = some j)
    (hr : g.resolve i bs = some j) : g'.resolve i bs = some j := by
  induction bs using List.reverseRecOn generalizing j with
  | nil => exact hr
  | append_singleton bs b ih =>
    obtain ⟨q, hq, hb⟩ := resolve_concat_eq_some.mp hr
    refine resolve_concat_eq_some.mpr ⟨q, ih hq, hkeep q b j hb ?_⟩
    -- the directory of the edge does not lie behind it
    rintro ⟨rfl, -⟩
    have hlong : g.resolve root (as ++ [a] ++ bs) = some q := by
      rw [resolve_append, resolve_concat_eq_some.mpr ⟨q, hp, ha⟩]
      exact hq
    have hlength := congrArg List.length (h.resolve_inj hlong hp)
    rw [List.length_append, List.length_append, List.length_singleton] at hlength
    omega

/-! ### Removing an edge -/

/-- No edge is there twice. -/
theorem Proper.nodup (h : g.Proper root) (p : ι) : (g p).Nodup := (h.names p).of_map _

/-- A graph with fewer edges is proper, too. -/
theorem Proper.of_sublist {g' : NameGraph ι ν} (h : g.Proper root)
    (hsub : ∀ p, ((g' p).Sublist (g p))) : g'.Proper root where
  names p := (h.names p).sublist ((hsub p).map _)
  targets p := (h.targets p).sublist ((hsub p).map _)
  source hp hq := h.source ((hsub _).subset hp) ((hsub _).subset hq)
  root hp := h.root ((hsub _).subset hp)

/-- The same edges at each node, in some order. -/
def Similar (g g' : NameGraph ι ν) : Prop := ∀ p, (g p).Perm (g' p)

section Remove

variable [DecidableEq ι] [DecidableEq ν] {e : ν × ι}

/-- Take an edge of `p` out. -/
def remove (g : NameGraph ι ν) (p : ι) (e : ν × ι) : NameGraph ι ν :=
  Function.update g p ((g p).erase e)

theorem remove_apply : g.remove p e q = if q = p then (g p).erase e else g q := by
  rw [remove, Function.update_apply]

/-- Exactly the one edge goes. -/
theorem Proper.mem_remove (h : g.Proper root) {f : ν × ι} :
    f ∈ g.remove p e q ↔ f ∈ g q ∧ ¬ (q = p ∧ f = e) := by
  rw [remove_apply]
  by_cases hq : q = p
  · subst hq
    rw [if_pos rfl, (h.nodup q).mem_erase_iff]
    simp [and_comm]
  · simp [hq]

/-- Removing an edge keeps a graph proper. -/
theorem Proper.remove (h : g.Proper root) (p : ι) (e : ν × ι) : (g.remove p e).Proper root :=
  h.of_sublist fun q => by
    rw [remove_apply]
    split
    · next hq => exact hq ▸ List.erase_sublist
    · exact List.Sublist.refl _

/-- **Looking up after a removal**: the name is gone, and the others are as before. -/
theorem Proper.lookup_remove (h : g.Proper root) (he : e ∈ g p) :
    (g.remove p e).lookup q b = if q = p ∧ b = e.1 then none else g.lookup q b := by
  refine Option.ext fun j => ?_
  rw [(h.remove p e).lookup_eq_some, h.mem_remove]
  by_cases hqb : q = p ∧ b = e.1
  · obtain ⟨rfl, rfl⟩ := hqb
    rw [if_pos ⟨rfl, rfl⟩]
    refine ⟨fun hj => absurd ⟨rfl, ?_⟩ hj.2, fun hj => nomatch hj⟩
    exact List.inj_on_of_nodup_map (h.names q) hj.1 he rfl
  · rw [if_neg hqb, h.lookup_eq_some]
    exact and_iff_left fun hj => hqb ⟨hj.1, congrArg Prod.fst hj.2⟩

end Remove

/-- Similar graphs have the same edges. -/
theorem Similar.mem {g' : NameGraph ι ν} (h : g.Similar g') {e : ν × ι} : e ∈ g p ↔ e ∈ g' p :=
  (h p).mem_iff

/-- A graph that is similar to a proper one is proper: the order does not matter. -/
theorem Proper.of_similar {g' : NameGraph ι ν} (h : g.Proper root) (hs : g'.Similar g) :
    g'.Proper root where
  names p := ((hs p).map _).nodup_iff.mpr (h.names p)
  targets p := ((hs p).map _).nodup_iff.mpr (h.targets p)
  source hp hq := h.source (hs.mem.mp hp) (hs.mem.mp hq)
  root hp := h.root (hs.mem.mp hp)

/-- In proper graphs the order of the edges does not matter for looking up. -/
theorem Proper.lookup_of_similar [DecidableEq ν] {g' : NameGraph ι ν} (h : g.Proper root)
    (hs : g'.Similar g) : g'.lookup p a = g.lookup p a :=
  Option.ext fun i => by
    rw [(h.of_similar hs).lookup_eq_some, h.lookup_eq_some, hs.mem]

end NameGraph

end InodeFs
