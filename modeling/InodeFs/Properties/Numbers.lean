import InodeFs.Properties.Service

/-!
# Inode numbers over a run

No request clears a bit of the inode map, so that an inode number is handed out once in the life
of a file system: removals give nothing back, and a run makes at most 32767 files and
directories, however many are there at a time.

A run is followed together with the numbers it hands out. `Event.number` reads the number of a
creation off the disk behind it, by the new name in the naming graph, and `NumbersOk` is the
invariant: the numbers are different, all are marked, and with the clear bits they make up no more
than the map. `Served.number` is its step, and every run of the service is a run with numbers
(`ServiceRun.exists_numbered`).

That numbers are handed out once is no merit: it says that what is removed is lost. A file system
with no free inode left has to be formatted.

A disk is followed from its formatting on. The bound 32767 is the size of the inode map less the
root.
-/

namespace InodeFs

/-- Clear bits are lost where bits are kept. -/
theorem clearBelow_mono {f g : ℕ → Bool} {n : ℕ} (h : ∀ k < n, f k = true → g k = true) :
    clearBelow g n ≤ clearBelow f n := by
  refine Finset.card_le_card fun k hk => ?_
  simp only [Finset.mem_filter, Finset.mem_range] at hk ⊢
  refine ⟨hk.1, ?_⟩
  by_contra hset
  rw [h k hk.1 (by simpa using hset)] at hk
  exact absurd hk.2 (by decide)

variable {d d' : Disk} {e : Event} {n : Option ℕ}

/-- The number of the inode that a creation makes, seen behind the new name. -/
def Event.number (d' : Disk) (e : Event) : Option ℕ :=
  match e.request with
  | .change (.create c _) => d'.graph.resolve 4 (fileNames c.path)
  | _ => none

/-- A request is served, and hands out the number `n`, if any. -/
def Numbered (d : Disk) (e : Event × Option ℕ) (d' : Disk) : Prop :=
  Served d e.1 d' ∧ e.2 = e.1.number d'

/-! ### One request -/

/-- **A request hands out a number that was free**, and takes at least it. -/
theorem Served.number (h : Served d e d') (hd : d.Sound) (hplain : d.Plain) :
    (∀ c behind, e.request ≠ .change (.create c behind)) ∧ e.number d' = none ∧
      d'.freeInodes ≤ d.freeInodes ∨
    ∃ k, e.number d' = some k ∧ k < 32768 ∧ d.imap k = false ∧ d'.imap k = true ∧
      d'.freeInodes + 1 = d.freeInodes := by
  obtain ⟨⟨-, -, himap⟩, -⟩ := h.step hd hplain
  have hle : d'.freeInodes ≤ d.freeInodes := clearBelow_mono himap
  by_cases hcreate : ∃ c behind, e.request = .change (.create c behind)
  · obtain ⟨c, behind, hrequest⟩ := hcreate
    obtain ⟨env, request, answer⟩ := e
    obtain rfl : request = .change (.create c behind) := hrequest
    obtain ⟨p, hp, hc⟩ := h.1
    have hrun : ((Op.create c behind).prog env).run vdisk d =
        some (0, d.created env c.kind.mode p c.name d.nextInode) := by
      rw [Op.prog, Creation.prog_eq]
      exact run_fsCreate env c.kind.mode hd hp hc behind
    obtain rfl := h.eq_of_run hrun
    have hgraph := hd.graph_created env c.kind.mode hc
    have hresolve : (d.created env c.kind.mode p c.name d.nextInode).graph.resolve 4
        (fileNames c.path) = some d.nextInode := by
      rw [Creation.path, fileNames, List.map_append, List.map_singleton, hgraph]
      exact NameGraph.resolve_concat_eq_some.mpr ⟨p, NameGraph.resolve_insert hc.fresh hp,
        by rw [NameGraph.lookup_insert hc.fresh, if_pos ⟨rfl, rfl⟩]⟩
    refine .inr ⟨d.nextInode, hresolve, d.nextInode_lt, hc.inode.imap_nextInode, ?_,
      Disk.freeInodes_created env c.kind.mode p c.name hc.inode⟩
    rw [Disk.imap_created env c.kind.mode _ d.nextInode_lt, decide_eq_true rfl, Bool.or_true]
  · refine .inl ⟨fun c behind heq => hcreate ⟨c, behind, heq⟩, ?_, hle⟩
    rw [Event.number]
    split
    · next c behind heq => exact absurd ⟨c, behind, heq⟩ hcreate
    · rfl

/-! ### Runs -/

/-- The numbers that a run has handed out. -/
def numbersOf (l : List (Event × Option ℕ)) : List ℕ := l.filterMap Prod.snd

@[simp] theorem numbersOf_concat (l : List (Event × Option ℕ)) (e : Event × Option ℕ) :
    numbersOf (l ++ [e]) = numbersOf l ++ e.2.toList := by
  rw [numbersOf, List.filterMap_append, numbersOf]
  cases h : e.2 <;> simp [h]

/-- What holds of the numbers handed out so far. -/
structure NumbersOk (l : List (Event × Option ℕ)) (d : Disk) : Prop where
  sound : d.Sound
  plain : d.Plain
  nodup : (numbersOf l).Nodup
  marked : ∀ k ∈ numbersOf l, k < 32768 ∧ k ≠ 4 ∧ d.imap k = true
  count : (numbersOf l).length + d.freeInodes ≤ 32767
  made : ∀ e ∈ l, ∀ c behind, e.1.request = .change (.create c behind) → e.2 ≠ none

theorem numbersOk_initial (env : Env) (behind : Fin 27 → Byte) :
    NumbersOk [] (.initial env behind) where
  sound := Disk.sound_initial env behind
  plain := Disk.plain_initial env behind
  nodup := List.nodup_nil
  marked k hk := absurd hk List.not_mem_nil
  count := by
    have hsame : (Disk.initial env behind).freeInodes =
        (Disk.initial plainEnv behind).freeInodes :=
      clearBelow_congr fun j hj => by
        rw [Disk.imap_initial env behind hj, Disk.imap_initial plainEnv behind hj]
    rw [hsame, Disk.freeInodes_initial]
    decide
  made e he := absurd he List.not_mem_nil

theorem NumbersOk.step {l : List (Event × Option ℕ)} {e : Event × Option ℕ} (h : NumbersOk l d)
    (hstep : Numbered d e d') : NumbersOk (l ++ [e]) d' := by
  obtain ⟨hserved, hnumber⟩ := hstep
  obtain ⟨⟨hd', hplain', himap⟩, -⟩ := hserved.step h.sound h.plain
  have hkept (k : ℕ) (hk : k ∈ numbersOf l) : k < 32768 ∧ k ≠ 4 ∧ d'.imap k = true := by
    obtain ⟨hlt, hne, hset⟩ := h.marked k hk
    exact ⟨hlt, hne, himap k hlt hset⟩
  have hcount := h.count
  have hmade (hlast : ∀ c behind, e.1.request = .change (.create c behind) → e.2 ≠ none) :
      ∀ e' ∈ l ++ [e], ∀ c behind, e'.1.request = .change (.create c behind) → e'.2 ≠ none := by
    intro e' he'
    rcases List.mem_append.mp he' with hold | hnew
    · exact h.made e' hold
    · rwa [List.mem_singleton.mp hnew]
  rcases hserved.number h.sound h.plain with ⟨hnot, hnone, hle⟩ | ⟨k, hk, hlt, hfree, hset, hfewer⟩
  · have hsame : numbersOf (l ++ [e]) = numbersOf l := by
      rw [numbersOf_concat, hnumber, hnone, Option.toList_none, List.append_nil]
    refine ⟨hd', hplain', hsame ▸ h.nodup, fun k hk => hkept k (hsame ▸ hk), by rw [hsame]; omega,
      hmade fun c behind hrequest => absurd hrequest (hnot c behind)⟩
  · have hmore : numbersOf (l ++ [e]) = numbersOf l ++ [k] := by
      rw [numbersOf_concat, hnumber, hk, Option.toList_some]
    -- the new number was free, those of the run were not
    have hnew : k ∉ numbersOf l := by
      intro hmem
      have hmarked := (h.marked k hmem).2.2
      rw [hfree] at hmarked
      cases hmarked
    have hroot : k ≠ 4 := by
      rintro rfl
      rw [(h.sound.directories.dir 4 h.sound.directories.root).marked] at hfree
      cases hfree
    refine ⟨hd', hplain', ?_, fun j hj => ?_, ?_, hmade fun _ _ _ => ?_⟩
    · rw [hmore]
      exact List.nodup_append.mpr ⟨h.nodup, List.nodup_singleton k, fun j hj m hm => by
        rw [List.mem_singleton.mp hm]
        exact fun heq => hnew (heq ▸ hj)⟩
    · rw [hmore, List.mem_append, List.mem_singleton] at hj
      rcases hj with hj | rfl
      · exact hkept j hj
      · exact ⟨hlt, hroot, hset⟩
    · rw [hmore, List.length_append, List.length_singleton]
      omega
    · rw [hnumber, hk]
      exact Option.some_ne_none k

/-- **Every number is handed out once**: in a run of safe requests the numbers of the inodes that
creations make are pairwise different and none is the root's, whatever is removed in between; and
with the inodes that are still free they are at most 32767. -/
theorem numbers_unique {l : List (Event × Option ℕ)} (h : Trace Started Numbered l d) :
    (numbersOf l).Nodup ∧ (∀ k ∈ numbersOf l, k < 32768 ∧ k ≠ 4) ∧
      (numbersOf l).length + d.freeInodes ≤ 32767 ∧
      ∀ e ∈ l, ∀ c behind, e.1.request = .change (.create c behind) → e.2 ≠ none := by
  have hok : NumbersOk l d := h.invariant (fun d hd => by
    obtain ⟨env, behind, rfl⟩ := hd.initial
    exact numbersOk_initial env behind) fun _ _ _ _ hI hstep => hI.step hstep
  exact ⟨hok.nodup, fun k hk => ⟨(hok.marked k hk).1, (hok.marked k hk).2.1⟩, hok.count, hok.made⟩

/-- Every run is a run with numbers. -/
theorem ServiceRun.exists_numbered {l : List Event} (h : ServiceRun l d) :
    ∃ l' : List (Event × Option ℕ), l'.map Prod.fst = l ∧ Trace Started Numbered l' d := by
  induction h with
  | init h => exact ⟨[], rfl, .init h⟩
  | @step l s s' e _ hserved ih =>
    obtain ⟨l', hmap, hrun⟩ := ih
    refine ⟨l' ++ [(e, e.number s')], by rw [List.map_append, hmap]; rfl, hrun.step ⟨hserved, rfl⟩⟩

/-- The numbers after two creations, of which one is in the other. -/
theorem numbers_unique_directory : ∃ (l : List (Event × Option ℕ)) (d : Disk),
    Trace Started Numbered l d ∧ (numbersOf l).Nodup ∧
      (numbersOf l).length + d.freeInodes ≤ 32767 := by
  obtain ⟨d, q, i, hrun, -⟩ := exists_safeRun_directory (nthName 1)
  obtain ⟨l, hl⟩ := hrun.serviceRun
  obtain ⟨l', -, hl'⟩ := hl.exists_numbered
  exact ⟨l', d, hl', (numbers_unique hl').1, (numbers_unique hl').2.2.1⟩

end InodeFs
