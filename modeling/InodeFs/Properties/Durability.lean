import InodeFs.Properties.Service

/-!
# What stays

A request changes what it concerns (`Callback.Concerns`) and nothing else: over a run of requests
none of which concerns a path, the answers about the path stay what they are
(`unconcerned_answers`), and what was written to a file is there to be read as long as no request
concerns the file (`written_stays`).

Both are about runs of any length, and proved over the file tree: `InodeFs.Spec.FileTree` says what
an operation of the tree leaves alone, `ServiceFrom.unconcerned` carries it along a run by
induction, and the answers before and after are those of the same node. Nothing of blocks or maps is
needed again.

A listing names what a directory holds, and a request that concerns a name in it concerns the
directory. The times of a node are among what `fs_getattr` answers, so that touching a path concerns
it. A request for what is below it does not, unless it makes or removes a name in the directory
itself.
-/

namespace InodeFs

variable {l l' : List Event} {d d' : Disk} {as : List Name}

/-- The node and the names at a path that no request of a run concerns. -/
theorem ServiceFrom.unconcerned (hd : d.Sound) (hplain : d.Plain) (h : ServiceFrom d l d')
    (hfree : ∀ e ∈ l, ¬ e.request.Concerns as) : d'.Sound ∧ d'.Plain ∧
      d'.tree as = d.tree as ∧ d'.tree.children as = d.tree.children as := by
  refine h.invariant (I := fun l d' => (∀ e ∈ l, ¬ e.request.Concerns as) → d'.Sound ∧ d'.Plain ∧
    d'.tree as = d.tree as ∧ d'.tree.children as = d.tree.children as) ?_ ?_ hfree
  · rintro _ rfl -
    exact ⟨hd, hplain, rfl, rfl⟩
  · intro l s e s' ih hserved hfree
    obtain ⟨hs, hplain, htree, hchildren⟩ := ih fun e he => hfree e (List.mem_append_left _ he)
    obtain ⟨⟨hs', hplain', -⟩, hadmits⟩ := hserved.step hs hplain
    obtain ⟨htree', hchildren'⟩ := hadmits.unconcerned
      (hfree e (List.mem_append_right l (List.mem_singleton_self e)))
    exact ⟨hs', hplain', htree'.trans htree, hchildren'.trans hchildren⟩

/-- **No request disturbs what it does not concern**: over a run of requests that do not concern a
path, `fs_getattr` of the path answers the same, `fs_readdir` lists the same names, and `fs_read`
the same bytes. -/
theorem unconcerned_answers (h : ServiceRun l d) (h' : ServiceFrom d l' d')
    (hfree : ∀ e ∈ l', ¬ e.request.Concerns as) (env env' : Env) (behind behind' : ℕ → Byte) :
    (d.tree as ≠ none → ∃ attr,
      (fsGetattr env (pathString as behind)).run vdisk d = some ((0, attr), d) ∧
      (fsGetattr env' (pathString as behind')).run vdisk d' = some ((0, attr), d')) ∧
    (d.tree.IsDirectory as → ∃ names names' : List Name, names.Perm names' ∧
      (fsReaddir env (pathString as behind)).run vdisk d = some ((0, names.map Name.chars), d) ∧
      (fsReaddir env' (pathString as behind')).run vdisk d' =
        some ((0, names'.map Name.chars), d')) ∧
    ∀ bytes, d.tree.HasBytes as bytes → ∀ (buffer buffer' : ℕ → Byte) (size offset : ℕ),
      offset + size ≤ 8437760 → ∃ r out out',
        (fsRead env (pathString as behind) buffer size offset).run vdisk d = some ((r, out), d) ∧
        (fsRead env' (pathString as behind') buffer' size offset).run vdisk d' =
          some ((r, out'), d') ∧
        ∀ k < size, offset + k < bytes.length → out k = out' k := by
  obtain ⟨hd, hplain⟩ := h.sound
  obtain ⟨hd', hplain', htree, hchildren⟩ := ServiceFrom.unconcerned hd hplain h' hfree
  refine ⟨fun hne => ?_, fun hdir => ?_, fun bytes hbytes buffer buffer' size offset hend => ?_⟩
  · obtain ⟨x, hx⟩ := Option.ne_none_iff_exists'.mp hne
    have hx' : d'.tree as = some x := htree.trans hx
    refine ⟨d.tree.stat as x, hd.run_getattr env behind hplain hx, ?_⟩
    rw [hd'.run_getattr env' behind' hplain' hx', FileTree.stat_congr hchildren]
  · have hdir' : d'.tree.IsDirectory as := by
      obtain ⟨x, hx, hcontents⟩ := hdir
      exact ⟨x, htree.trans hx, hcontents⟩
    obtain ⟨names, hrun, hnodup, hmem⟩ := hd.run_readdir env behind hdir
    obtain ⟨names', hrun', hnodup', hmem'⟩ := hd'.run_readdir env' behind' hdir'
    refine ⟨names, names', (List.perm_ext_iff_of_nodup hnodup hnodup').mpr fun a => ?_, hrun, hrun'⟩
    rw [hmem, hmem', hchildren]
  · have hbytes' : d'.tree.HasBytes as bytes := by
      obtain ⟨x, hx, hcontents⟩ := hbytes
      exact ⟨x, htree.trans hx, hcontents⟩
    obtain ⟨out, hrun, hout⟩ := hd.run_read env behind hbytes buffer hend
    obtain ⟨out', hrun', hout'⟩ := hd'.run_read env' behind' hbytes' buffer' hend
    exact ⟨_, out, out', hrun, hrun', fun k hk hlt =>
      Option.some.inj ((hout k hk hlt).symm.trans (hout' k hk hlt))⟩

/-- In a sound state the root can be touched, which does not concern what is in it. -/
theorem exists_touched (hd : d.Sound) (hplain : d.Plain) : ∃ e d', ServiceFrom d [e] d' ∧
    e.request = .utime [] plainMemory := by
  have hsafe : Callback.Safe d (.utime [] plainMemory) := by
    rw [Callback.Safe, Disk.tree_nil]
    exact Option.some_ne_none _
  obtain ⟨answer, d', hserved⟩ := hsafe.exists_served hd hplain plainEnv
  have hstart : ServiceFrom d [] d := .init rfl
  exact ⟨_, d', hstart.step hserved, rfl⟩

/-- The root is touched after `/@@` was made. -/
theorem unconcerned_answers_touched : ∃ d d' e attr, ServiceFrom d [e] d' ∧
    e.request = .utime [] plainMemory ∧
    (fsGetattr plainEnv (pathString [nthName 0] plainMemory)).run vdisk d = some ((0, attr), d) ∧
    (fsGetattr plainEnv (pathString [nthName 0] plainMemory)).run vdisk d' =
      some ((0, attr), d') := by
  obtain ⟨d, hrun, -, number, hnumber, -⟩ := exists_safeRun_files 1 (by decide)
  obtain ⟨hi, -⟩ := hnumber 0 Nat.one_pos
  obtain ⟨l, hl⟩ := hrun.serviceRun
  obtain ⟨e, d', he, hrequest⟩ := exists_touched hl.sound.1 hl.sound.2
  have hfree : ∀ e' ∈ [e], ¬ e'.request.Concerns [nthName 0] := by
    simp [hrequest, Callback.Concerns]
  have hsome : d.tree [nthName 0] ≠ none := by
    rw [Disk.tree_of_resolve hi]
    exact Option.some_ne_none _
  obtain ⟨attr, hget⟩ :=
    (unconcerned_answers hl he hfree plainEnv plainEnv plainMemory plainMemory).1 hsome
  exact ⟨d, d', e, attr, he, hrequest, hget⟩

/-- **What was written stays**: after a write, and any later run of requests that do not concern
the file, `fs_read` returns what was written (but for the last byte, where the write ended in the
block it started in). -/
theorem written_stays (h : ServiceRun l d) {s : Disk} {env : Env} {behind buffer : ℕ → Byte}
    {size offset : ℕ} {answer : Answer}
    (hwrite : Served d ⟨env, .change (.write as behind buffer size offset), answer⟩ s)
    (h' : ServiceFrom s l' d') (hfree : ∀ e ∈ l', ¬ e.request.Concerns as) (env' : Env)
    (behind' buffer' : ℕ → Byte) {size' offset' : ℕ} (hend : offset' + size' ≤ 8437760) :
    answer = .code size ∧ ∃ out, (fsRead env' (pathString as behind') buffer' size' offset').run
        vdisk d' = some ((((min size' (offset + size) : ℕ) : ℤ), out), d') ∧
      ∀ k < size, 4097 - offset % 4096 ≤ size ∨ k + 1 < size →
        ∀ k' < size', offset' + k' = offset + k → out k' = buffer k := by
  obtain ⟨hd, hplain⟩ := h.sound
  obtain ⟨⟨hs, hplain', -⟩, hvalue, old, new, ⟨x, hx, -⟩, hnew, htree⟩ := hwrite.step hd hplain
  obtain ⟨hd', -, hsame, -⟩ := ServiceFrom.unconcerned hs hplain' h' hfree
  have hbytes : d'.tree.HasBytes as new := by
    refine ⟨x.withBytes new, ?_, rfl⟩
    rw [hsame, htree, PathTree.modify_apply, if_pos rfl, hx, Option.map_some]
  obtain ⟨out, hrun, hout⟩ := hd'.run_read env' behind' hbytes buffer' hend
  rw [hnew.length] at hrun hout
  refine ⟨hvalue, out, hrun, fun k hk hlast k' hk' heq => ?_⟩
  have hread := hout k' hk' (by omega)
  rw [heq, hnew.written k hk hlast] at hread
  exact (Option.some.inj hread).symm

/-- Three bytes are written to `/@@`, the root is touched, and the bytes are read. -/
theorem written_stays_three : ∃ d out,
    (fsRead plainEnv (pathString [nthName 0] plainMemory) (fun _ => 0) 3 0).run vdisk d =
      some ((3, out), d) ∧ out 1 = 7 := by
  obtain ⟨d, hrun, hfree, number, hnumber, -⟩ := exists_safeRun_files 1 (by decide)
  obtain ⟨hi, hfile, -⟩ := hnumber 0 Nat.one_pos
  obtain ⟨l, hl⟩ := hrun.serviceRun
  have hcount : nextCount 3 0 = 1 := by decide
  have hw : d.CanWrite (number 0) 3 0 :=
    ⟨by decide, fun h => absurd rfl h, by rw [if_pos rfl, hcount]; omega⟩
  have hsafe : Callback.Safe d (.change (.write [nthName 0] plainMemory (fun _ => 7) 3 0)) :=
    ⟨_, hi, hfile, hw⟩
  obtain ⟨answer, s, hserved⟩ := hsafe.exists_served hl.sound.1 hl.sound.2 plainEnv
  obtain ⟨⟨hs, hplain, -⟩, -⟩ := hserved.step hl.sound.1 hl.sound.2
  obtain ⟨e, d', he, hrequest⟩ := exists_touched hs hplain
  obtain ⟨-, out, hread, hout⟩ := written_stays hl hserved he
    (by simp [hrequest, Callback.Concerns]) plainEnv plainMemory (fun _ => 0)
    (show 0 + 3 ≤ 8437760 by decide)
  exact ⟨d', out, hread, hout 1 (by decide) (.inr (by decide)) 1 (by decide) rfl⟩

end InodeFs
