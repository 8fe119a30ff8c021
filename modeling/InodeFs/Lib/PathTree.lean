import InodeFs.Lib.NameGraph

/-!
# Path trees

A path tree says of each path what it leads to, if anything: the abstract view of a naming
graph whose nodes carry labels, in which the nodes themselves are no longer seen.

* `set` and `modify` change one path, `prune` takes a path out with everything below it, and
  `move` puts what was at a path and below it at another one.
* `NameGraph.tree` is the path tree of a graph. In a proper graph each node has one path, so that
  the changes of the graph become these changes of the tree: a new label is a `set`
  (`Proper.tree_relabel`, `Proper.tree_modify`), a new leaf is a `set` (`Proper.tree_insert`), an
  edge taken out is a `prune` (`Proper.tree_remove`), and an edge put elsewhere a `move`
  (`Proper.tree_move`).

A path tree is a function, and its operations are given by what they do to each path (`set_apply`,
`modify_apply`, `prune_apply`, `move_apply`); which of them may change places follows by cases on
paths. `Closed` trees have nothing below a path that leads nowhere, as the trees of graphs do. Then
what is made and taken out again leaves the tree as it was (`Closed.prune_set`), and so does what is
moved and moved back (`Closed.move_move`).

All facts about changed graphs rest on one, `Proper.resolve_edit`: where one edge is changed, the
paths through it are resolved behind its new target, and all others as before.
-/

namespace InodeFs

/-- A **path tree**: what each path leads to. -/
abbrev PathTree (γ κ : Type) := List γ → Option κ

namespace PathTree

variable {γ κ : Type} [DecidableEq γ] {t : PathTree γ κ} {as bs cs : List γ} {x : κ} {f : κ → κ}

/-- Let a path lead to `x`. -/
def set (t : PathTree γ κ) (as : List γ) (x : κ) : PathTree γ κ := Function.update t as (some x)

/-- Change what a path leads to. -/
def modify (t : PathTree γ κ) (as : List γ) (f : κ → κ) : PathTree γ κ :=
  Function.update t as ((t as).map f)

/-- Take a path out, with everything below it. -/
def prune (t : PathTree γ κ) (as : List γ) : PathTree γ κ := fun cs =>
  if as <+: cs then none else t cs

/-- Take a path out and put what it led to, with everything below it, at another path. -/
def move (t : PathTree γ κ) (as bs : List γ) : PathTree γ κ := fun cs =>
  if bs <+: cs then t (as ++ cs.drop bs.length) else t.prune as cs

theorem set_apply : t.set as x cs = if cs = as then some x else t cs := by
  rw [set, Function.update_apply]

theorem modify_apply : t.modify as f cs = if cs = as then (t as).map f else t cs := by
  rw [modify, Function.update_apply]

theorem prune_apply : t.prune as cs = if as <+: cs then none else t cs := rfl

theorem move_apply :
    t.move as bs cs = if bs <+: cs then t (as ++ cs.drop bs.length) else t.prune as cs := rfl

theorem set_of_ne (h : cs ≠ as) : t.set as x cs = t cs := by rw [set_apply, if_neg h]

theorem modify_of_ne (h : cs ≠ as) : t.modify as f cs = t cs := by rw [modify_apply, if_neg h]

/-- What is not below the path stays. -/
theorem prune_of_not_prefix (h : ¬ as <+: cs) : t.prune as cs = t cs := by
  rw [prune_apply, if_neg h]

/-- What is below neither of the paths stays. -/
theorem move_of_not_prefix (has : ¬ as <+: cs) (hbs : ¬ bs <+: cs) : t.move as bs cs = t cs := by
  rw [move_apply, if_neg hbs, prune_of_not_prefix has]

/-- A change leaves nothing out. -/
theorem modify_eq_none_iff : t.modify as f cs = none ↔ t cs = none := by
  rw [modify_apply]
  split
  · next heq => rw [heq, Option.map_eq_none_iff]
  · exact Iff.rfl

/-- Changing what is there is setting it. -/
theorem modify_eq_set (h : t as = some x) : t.modify as f = t.set as (f x) := by
  rw [modify, h, set, Option.map_some]

/-! ### Changes that meet -/

theorem modify_self : t.modify as f as = (t as).map f := by rw [modify_apply, if_pos rfl]

/-- Two changes at one path are one. -/
theorem modify_modify {g : κ → κ} : (t.modify as f).modify as g = t.modify as (g ∘ f) := by
  funext cs
  by_cases hcs : cs = as
  · rw [hcs, modify_self, modify_self, modify_self, Option.map_map]
  · rw [modify_of_ne hcs, modify_of_ne hcs, modify_of_ne hcs]

/-- Changes at different paths may change places. -/
theorem modify_comm {g : κ → κ} (h : as ≠ bs) :
    (t.modify as f).modify bs g = (t.modify bs g).modify as f := by
  funext cs
  by_cases has : cs = as
  · rw [has, modify_of_ne h, modify_self, modify_self, modify_of_ne h]
  · by_cases hbs : cs = bs
    · rw [hbs, modify_self, modify_of_ne h.symm, modify_of_ne h.symm, modify_self]
    · rw [modify_of_ne hbs, modify_of_ne has, modify_of_ne has, modify_of_ne hbs]

/-- A change elsewhere may come before or after. -/
theorem set_modify (h : cs ≠ as) : (t.set as x).modify cs f = (t.modify cs f).set as x := by
  funext ds
  by_cases hds : ds = cs
  · rw [hds, modify_self, set_of_ne h, set_of_ne h, modify_self]
  · rw [modify_of_ne hds, set_apply, set_apply, modify_of_ne hds]

/-- A change outside of what is pruned may come before or after. -/
theorem prune_modify (h : ¬ as <+: cs) : (t.prune as).modify cs f = (t.modify cs f).prune as := by
  funext ds
  by_cases hds : ds = cs
  · rw [hds, modify_self, prune_of_not_prefix h, prune_of_not_prefix h, modify_self]
  · rw [modify_of_ne hds, prune_apply, prune_apply, modify_of_ne hds]

/-- A change outside of what is moved may come before or after. -/
theorem move_modify (has : ¬ as <+: cs) (hbs : ¬ bs <+: cs) :
    (t.move as bs).modify cs f = (t.modify cs f).move as bs := by
  funext ds
  by_cases hds : ds = cs
  · rw [hds, modify_self, move_of_not_prefix has hbs, move_of_not_prefix has hbs, modify_self]
  · have hbelow : as ++ ds.drop bs.length ≠ cs := by
      rintro rfl
      exact has (List.prefix_append _ _)
    rw [modify_of_ne hds, move_apply, move_apply, modify_of_ne hbelow, ← prune_modify has,
      modify_of_ne hds]

/-- Below a path that leads nowhere there is nothing. -/
def Closed (t : PathTree γ κ) : Prop := ∀ as bs, t as = none → t (as ++ bs) = none

omit [DecidableEq γ] in
/-- Below nothing there is nothing. -/
theorem Closed.of_prefix (h : t.Closed) (hpre : as <+: cs) (hnone : t as = none) : t cs = none := by
  obtain ⟨ds, rfl⟩ := hpre
  exact h as ds hnone

/-- A changed node is still there. -/
theorem Closed.modify (h : t.Closed) : (t.modify as f).Closed := by
  intro cs ds hnone
  rw [modify_eq_none_iff] at hnone ⊢
  exact h cs ds hnone

/-- What was made is taken out. -/
theorem Closed.prune_set (h : t.Closed) (hnone : t as = none) : (t.set as x).prune as = t := by
  funext cs
  rw [prune_apply]
  split
  · next hpre => exact (h.of_prefix hpre hnone).symm
  · next hpre => exact set_of_ne fun heq => hpre (heq ▸ List.prefix_rfl)

/-- What was moved is moved back. -/
theorem Closed.move_move (h : t.Closed) (hnone : t bs = none) : (t.move as bs).move bs as = t := by
  funext cs
  rw [move_apply]
  split
  · next hpre =>
    obtain ⟨ds, rfl⟩ := hpre
    rw [List.drop_left, move_apply, if_pos (List.prefix_append bs ds), List.drop_left]
  · next hpre =>
    rw [prune_apply]
    split
    · next hpre' => exact (h.of_prefix hpre' hnone).symm
    · next hpre' => exact move_of_not_prefix hpre hpre'

end PathTree

namespace NameGraph

variable {ι ν γ κ : Type} [DecidableEq ν] [DecidableEq γ] {g g' : NameGraph ι ν}
  {root p q i j : ι} {a b : ν} {as bs cs ds : List ν}

/-! ### Resolution after a change of one edge -/

/-- A node from which `p` is not reached is resolved without the edges of `p`. -/
theorem resolve_congr_of_unreached (hlookup : ∀ q b, q ≠ p → g'.lookup q b = g.lookup q b)
    (hunreached : ∀ ds, g.resolve i ds ≠ some p) (ds : List ν) :
    g'.resolve i ds = g.resolve i ds := by
  induction ds using List.reverseRecOn with
  | nil => rfl
  | append_singleton ds d ih =>
    rw [resolve_append, resolve_append, ih]
    cases hq : g.resolve i ds with
    | none => rfl
    | some q =>
      have hne : q ≠ p := fun h => hunreached ds (h ▸ hq)
      rw [Option.bind_some, Option.bind_some, resolve_cons, resolve_cons, hlookup q d hne]
      cases g.lookup q d <;> rfl

/-- In a proper graph nothing behind an edge leads back to the edge. -/
theorem Proper.resolve_ne (h : g.Proper root) (hp : g.resolve root as = some p)
    (ha : g.lookup p a = some i) (ds : List ν) : g.resolve i ds ≠ some p := by
  intro hds
  have hlong : g.resolve root (as ++ [a] ++ ds) = some p := by
    rw [resolve_append, resolve_concat_eq_some.mpr ⟨p, hp, ha⟩]
    exact hds
  have hlength := congrArg List.length (h.resolve_inj hlong hp)
  rw [List.length_append, List.length_append, List.length_singleton] at hlength
  omega

/-- **One edge changed**: paths that go through it are resolved behind its new target, all other
ones as before. -/
theorem Proper.resolve_edit (h : g.Proper root) (hp : g.resolve root as = some p) {o : Option ι}
    (hlookup : ∀ q b, q ≠ p ∨ b ≠ a → g'.lookup q b = g.lookup q b)
    (hedge : g'.lookup p a = o) (hbehind : ∀ i ∈ o, ∀ ds, g.resolve i ds ≠ some p)
    (cs : List ν) :
    g'.resolve root cs = if as ++ [a] <+: cs then
      o.bind fun i => g.resolve i (cs.drop (as.length + 1)) else g.resolve root cs := by
  induction cs using List.reverseRecOn with
  | nil => rw [if_neg (by simp)]; rfl
  | append_singleton cs c ih =>
    rw [resolve_append, ih]
    by_cases hpre : as ++ [a] <+: cs
    · -- already behind the edge
      have hlength := hpre.length_le
      rw [List.length_append, List.length_singleton] at hlength
      rw [if_pos hpre, if_pos (hpre.trans (List.prefix_append cs [c])),
        List.drop_append_of_le_length hlength]
      cases o with
      | none => rfl
      | some i =>
        rw [Option.bind_some, Option.bind_some, resolve_append]
        cases hq : g.resolve i (cs.drop (as.length + 1)) with
        | none => rfl
        | some q =>
          have hne : q ≠ p := fun hqp => hbehind i rfl _ (hqp ▸ hq)
          rw [Option.bind_some, Option.bind_some, resolve_cons, resolve_cons,
            hlookup q c (.inl hne)]
          cases g.lookup q c <;> rfl
    · rw [if_neg hpre]
      by_cases hlast : as ++ [a] <+: cs ++ [c]
      · -- the path of the edge itself
        obtain ⟨rfl, rfl⟩ : cs = as ∧ c = a := by
          rcases List.prefix_concat_iff.mp hlast with heq | hpre'
          · obtain ⟨rfl, hca⟩ := List.append_inj' heq.symm rfl
            exact ⟨rfl, by simpa using hca⟩
          · exact absurd hpre' hpre
        rw [if_pos List.prefix_rfl, hp, Option.bind_some, resolve_cons, hedge]
        have hdrop : (cs ++ [c]).drop (cs.length + 1) = [] := by
          rw [List.drop_eq_nil_iff, List.length_append, List.length_singleton]
        rw [hdrop]
        rfl
      · rw [if_neg hlast, resolve_append]
        cases hq : g.resolve root cs with
        | none => rfl
        | some q =>
          have hne : q ≠ p ∨ c ≠ a := by
            by_contra hboth
            obtain ⟨rfl, rfl⟩ : q = p ∧ c = a := by simpa using hboth
            exact hlast (h.resolve_inj hp hq ▸ List.prefix_rfl)
          rw [Option.bind_some, Option.bind_some, resolve_cons, resolve_cons, hlookup q c hne]
          cases g.lookup q c <;> rfl

/-! ### The path tree of a graph -/

/-- The **path tree** of a graph with labelled nodes, on components that stand for edge names. -/
def tree (g : NameGraph ι ν) (root : ι) (f : γ → ν) (label : ι → κ) : PathTree γ κ := fun cs =>
  (g.resolve root (cs.map f)).map label

section Tree

variable {f : γ → ν} {label label' : ι → κ} {es fs hs : List γ} {c e : γ}

omit [DecidableEq γ] in
/-- The label at a path is the one of the vertex there. -/
theorem tree_of_resolve (h : g.resolve root (es.map f) = some i) :
    g.tree root f label es = some (label i) := by
  rw [tree, h, Option.map_some]

omit [DecidableEq γ] in
/-- The tree has nothing exactly where no path leads. -/
theorem tree_eq_none : g.tree root f label es = none ↔ g.resolve root (es.map f) = none :=
  Option.map_eq_none_iff

omit [DecidableEq γ] in
/-- The tree of a graph is closed: a path is resolved step by step. -/
theorem tree_closed : (g.tree root f label).Closed := by
  intro es hs hnone
  rw [tree_eq_none] at hnone ⊢
  rw [List.map_append, resolve_append, hnone, Option.bind_none]

variable (hf : Function.Injective f) (h : g.Proper root)
include hf h

/-- A node is labelled anew. -/
theorem Proper.tree_relabel (hi : g.resolve root (es.map f) = some i)
    (hlabel : ∀ (hs : List γ) (j : ι), g.resolve root (hs.map f) = some j → j ≠ i → label' j =
      label j) :
    g.tree root f label' = (g.tree root f label).set es (label' i) := by
  funext hs
  rw [PathTree.set_apply]
  split
  · next heq => rw [heq, tree_of_resolve hi]
  · next hne =>
    refine Option.map_congr fun j hj => hlabel hs j hj ?_
    rintro rfl
    exact hne (hf.list_map (h.resolve_inj hj hi))

/-- What is at one path is changed. -/
theorem Proper.tree_modify (hi : g.resolve root (es.map f) = some i) {m : κ → κ}
    (hnode : label' i = m (label i))
    (hlabel : ∀ (hs : List γ) (j : ι), g.resolve root (hs.map f) = some j → j ≠ i →
      label' j = label j) :
    g.tree root f label' = (g.tree root f label).modify es m := by
  rw [h.tree_relabel hf hi hlabel, PathTree.modify_eq_set (tree_of_resolve hi), hnode]

/-- What is at two paths is changed. -/
theorem Proper.tree_modify_two [DecidableEq ι] (hi : g.resolve root (es.map f) = some i)
    (hj : g.resolve root (fs.map f) = some j) (hne : j ≠ i) {m n : κ → κ}
    (hnode : label' i = m (label i)) (hnode' : label' j = n (label j))
    (hlabel : ∀ (hs : List γ) (k : ι), g.resolve root (hs.map f) = some k → k ≠ i → k ≠ j →
      label' k = label k) :
    g.tree root f label' = ((g.tree root f label).modify es m).modify fs n := by
  -- first only the one node has its new label
  have hfirst : g.tree root f (Function.update label i (label' i)) =
      (g.tree root f label).modify es m :=
    h.tree_modify hf hi (by rw [Function.update_self, hnode]) fun hs k _ hk =>
      Function.update_of_ne hk _ _
  rw [← hfirst]
  refine h.tree_modify hf hj (by rw [Function.update_of_ne hne, hnode']) fun hs k hk hkj => ?_
  by_cases hki : k = i
  · rw [hki, Function.update_self]
  · rw [Function.update_of_ne hki, hlabel hs k hk hki hkj]

variable (g') (label)

/-- `Proper.resolve_edit` on components. -/
theorem Proper.resolve_map_edit (hp : g.resolve root (es.map f) = some p) {o : Option ι}
    (hlookup : ∀ q b, q ≠ p ∨ b ≠ f e → g'.lookup q b = g.lookup q b)
    (hedge : g'.lookup p (f e) = o) (hbehind : ∀ i ∈ o, ∀ ds, g.resolve i ds ≠ some p)
    (hs : List γ) : g'.resolve root (hs.map f) = if es ++ [e] <+: hs then
      o.bind fun i => g.resolve i ((hs.drop (es ++ [e]).length).map f)
      else g.resolve root (hs.map f) := by
  have hpre : es.map f ++ [f e] <+: hs.map f ↔ es ++ [e] <+: hs := by
    rw [← List.map_singleton, ← List.map_append]
    exact List.prefix_map_iff_of_injective hf
  rw [h.resolve_edit hp hlookup hedge hbehind, List.length_map, List.map_drop,
    List.length_append, List.length_singleton]
  simp only [hpre]

/-- A new edge to a node without edges. -/
theorem Proper.tree_insert [DecidableEq ι] (hp : g.resolve root (es.map f) = some p)
    (ha : g.lookup p (f e) = none)
    (hlookup : ∀ q b, g'.lookup q b = if q = p ∧ b = f e then some i else g.lookup q b)
    (hleaf : ∀ b, g.lookup i b = none) (hne : i ≠ p) :
    g'.tree root f label = (g.tree root f label).set (es ++ [e]) (label i) := by
  -- nothing but the node itself is behind the new edge
  have hbehind (d : ν) (ds : List ν) : g.resolve i (d :: ds) = none := by
    rw [resolve_cons, hleaf, Option.bind_none]
  have hedit := h.resolve_map_edit g' hf hp (e := e) (o := some i)
    (fun q b hqb => by rw [hlookup, if_neg (by tauto)]) (by rw [hlookup, if_pos ⟨rfl, rfl⟩])
    fun j hj ds hds => by
      obtain rfl := Option.some.inj hj
      cases ds with
      | nil => exact hne (Option.some.inj hds)
      | cons d ds =>
        rw [hbehind] at hds
        cases hds
  funext hs
  rw [PathTree.set_apply, tree, hedit, tree]
  by_cases hpre : es ++ [e] <+: hs
  · obtain ⟨rest, rfl⟩ := hpre
    rw [if_pos (List.prefix_append _ _), Option.bind_some, List.drop_left]
    cases rest with
    | nil => rw [if_pos (List.append_nil _)]; rfl
    | cons d rest =>
      have hold : g.resolve root ((es ++ [e] ++ d :: rest).map f) = none := by
        rw [List.map_append, resolve_append, List.map_append, resolve_append, hp,
          Option.bind_some, List.map_singleton, resolve_cons, ha]
        rfl
      rw [if_neg (by simp), List.map_cons, hbehind, hold]
  · rw [if_neg hpre, if_neg]
    rintro rfl
    exact hpre List.prefix_rfl

/-- An edge is taken out. -/
theorem Proper.tree_remove [DecidableEq ι] (hp : g.resolve root (es.map f) = some p)
    (hlookup : ∀ q b, g'.lookup q b = if q = p ∧ b = f e then none else g.lookup q b) :
    g'.tree root f label = (g.tree root f label).prune (es ++ [e]) := by
  funext hs
  rw [PathTree.prune_apply, tree, h.resolve_map_edit g' hf hp (e := e) (o := none)
    (fun q b hqb => by rw [hlookup, if_neg (by tauto)]) (by rw [hlookup, if_pos ⟨rfl, rfl⟩])
    fun j hj => nomatch hj]
  split <;> rfl

/-- An edge is taken out and put at another node, not behind itself. -/
theorem Proper.tree_move [DecidableEq ι] (hp : g.resolve root (es.map f) = some p)
    (hi : g.lookup p (f e) = some i) (hq : g.resolve root (fs.map f) = some q)
    (hbelow : ¬ es ++ [e] <+: fs)
    (hlookup : ∀ r b, g'.lookup r b = if r = q ∧ b = f c then some i
      else if r = p ∧ b = f e then none else g.lookup r b) :
    g'.tree root f label = (g.tree root f label).move (es ++ [e]) (fs ++ [c]) := by
  -- between the two steps the edge is out
  set g₁ := g.remove p (f e, i) with hg₁
  have hmem := mem_of_lookup hi
  have hproper : g₁.Proper root := h.remove p _
  have hlookup₁ (r : ι) (b : ν) : g₁.lookup r b = if r = p ∧ b = f e then none else g.lookup r b :=
    h.lookup_remove hmem
  have hout := h.resolve_map_edit g₁ hf hp (e := e) (o := none)
    (fun q b hqb => by rw [hlookup₁, if_neg (by tauto)]) (by rw [hlookup₁, if_pos ⟨rfl, rfl⟩])
    fun j hj => nomatch hj
  have hbehind (ds : List ν) : g₁.resolve i ds = g.resolve i ds :=
    resolve_congr_of_unreached (fun r b hr => by rw [hlookup₁, if_neg fun hand => hr hand.1])
      (h.resolve_ne hp hi) ds
  have hq₁ : g₁.resolve root (fs.map f) = some q := by rw [hout, if_neg hbelow, hq]
  have hin := hproper.resolve_map_edit g' hf hq₁ (e := c) (o := some i)
    (fun r b hrb => by rw [hlookup, if_neg (by tauto), hlookup₁])
    (by rw [hlookup, if_pos ⟨rfl, rfl⟩]) fun j hj ds hds => by
      obtain rfl := Option.some.inj hj
      rw [hbehind] at hds
      -- the new directory would lie behind the edge
      have hlong : g.resolve root (es.map f ++ [f e] ++ ds) = some q := by
        rw [resolve_append, resolve_concat_eq_some.mpr ⟨p, hp, hi⟩]
        exact hds
      have hpre : (es ++ [e]).map f <+: fs.map f := by
        rw [← h.resolve_inj hlong hq, List.map_append, List.map_singleton]
        exact List.prefix_append _ _
      exact hbelow ((List.prefix_map_iff_of_injective hf).mp hpre)
  funext hs
  rw [PathTree.move_apply, tree, hin]
  split
  · rw [Option.bind_some, hbehind, tree, List.map_append, resolve_append, List.map_append,
      List.map_singleton, resolve_concat_eq_some.mpr ⟨p, hp, hi⟩, Option.bind_some]
  · rw [PathTree.prune_apply, hout]
    split <;> rfl

end Tree

end NameGraph

end InodeFs
