import InodeFs.Properties.Service

/-!
# What is undone

A name that is made and removed again, and a rename that is taken back, leave the file tree as it
was, but for the times of the directories: no other path, node or byte is another one.

Both are facts about the file tree, where they are an equation between trees up to `touched` and
`stamped` (`create_remove`, `move_move`), carried over to the disk by the step of the simulation in
`InodeFs.Properties.Service`. The disk itself is another one: the inode number of a removed file
stays marked, and the block of a directory's first entry stays with the directory.

That the second call can be made at all is a matter of the code, and the second half of each result.
The path of a removal has to be cut where that of the creation is, within its first 8 bytes; a
removal needs fewer than 12 names in the directory before the creation, since the last entry is read
by rank; and the way back of a rename needs the same of the directory it leaves, and that the one it
returns to is not empty now.

The times of the directory are what a user can still see of both calls: those of the second one.
-/

namespace InodeFs

variable {l : List Event} {d s : Disk} {env : Env} {answer : Answer}

namespace FileTree

variable {t t₁ t₂ : FileTree}

/-- Made and removed. -/
theorem create_remove {as : List Name} {a : Name} {x : Node} {m c m' c' : BitVec 64}
    (h : t.Closed) (hnone : t (as ++ [a]) = none) :
    (((t.modify as (.stamped m c)).set (as ++ [a]) x).modify as (.stamped m' c')).prune
      (as ++ [a]) = t.modify as (.stamped m' c') := by
  have hne : as ≠ as ++ [a] := by simp
  rw [PathTree.set_modify hne, PathTree.modify_modify,
    h.modify.prune_set (PathTree.modify_eq_none_iff.mpr hnone)]
  rfl

/-- Moved and moved back. -/
theorem move_move {as bs : List Name} {a : Name} {m c m' c' m₁ c₁ m₁' c₁' : BitVec 64}
    (h : t.Closed) (hne : bs ≠ as) (hnone : t (bs ++ [a]) = none) (hsome : t as ≠ none)
    (hbelow : ¬ as ++ [a] <+: bs) :
    (((((t.modify as (.stamped m c)).modify bs (.stamped m' c')).move (as ++ [a])
      (bs ++ [a])).modify bs (.stamped m₁ c₁)).modify as (.stamped m₁' c₁')).move (bs ++ [a])
        (as ++ [a]) = (t.modify as (.stamped m₁' c₁')).modify bs (.stamped m₁ c₁) := by
  have has : ¬ as ++ [a] <+: as := fun hpre => by simpa using hpre.length_le
  have hbs : ¬ bs ++ [a] <+: bs := fun hpre => by simpa using hpre.length_le
  have hbelow' : ¬ bs ++ [a] <+: as := fun hpre => hsome (h.of_prefix hpre hnone)
  rw [PathTree.move_modify hbelow hbs, PathTree.move_modify has hbelow',
    h.modify.modify.modify.modify.move_move
      (by simpa only [PathTree.modify_eq_none_iff] using hnone),
    PathTree.modify_modify, PathTree.modify_comm hne, PathTree.modify_modify]
  -- the times that are set last are those that stay
  rfl

end FileTree

namespace Disk

variable {d : Disk} {parent parent' : List Name} {a name name' : Name} {p q i k : ℕ}

/-- What was just made can be removed. -/
theorem CanCreate.finds_created (hd : d.Sound) (h : d.CanCreate p a)
    (hp : d.graph.resolve 4 (fileNames parent) = some p) (env : Env) (kind : Kind) :
    (d.created env kind.mode p a d.nextInode).Finds parent a p d.nextInode ∧
      ((d.created env kind.mode p a d.nextInode).inode p).count = (d.inode p).count + 1 := by
  have hgraph := hd.graph_created env kind.mode h
  have hfinds : (d.created env kind.mode p a d.nextInode).Finds parent a p d.nextInode := by
    refine ⟨?_, ?_⟩
    · rw [hgraph]
      exact NameGraph.resolve_insert h.fresh hp
    · rw [hgraph, NameGraph.lookup_insert h.fresh, if_pos ⟨rfl, rfl⟩]
  refine ⟨hfinds, ?_⟩
  rw [← length_graph hfinds.isDir, ← length_graph h.dir, hgraph, NameGraph.insert_apply, if_pos rfl,
    List.length_append, List.length_singleton]

/-- What was just moved can be moved back, if the new directory was small, and the old one is not
empty now. -/
theorem CanRename.back (hd : d.Sound) (h : d.CanRename parent parent' name name' p q i)
    (env : Env) (hk : k < (d.inode p).count)
    (hedge : (d.entryOf (d.inode p) k).edge = (name.fileName, i)) (hq : (d.inode q).count < 12)
    (hp : (d.inode p).count ≠ 1) (b : Name) :
    (d.moveEntry env p k q).CanRename parent' parent name b q p i := by
  obtain ⟨hsound, g, hsimilar, hgraph⟩ := hd.moveEntry h env hk hedge
  have hlookup := hd.lookup_moveEntry h env hk hedge
  have hmem := NameGraph.mem_of_lookup h.finds.2
  have hbelow : ¬ parent ++ [name] <+: parent := fun hpre => by simpa using hpre.length_le
  have hfinds : (d.moveEntry env p k q).Finds parent' name q i :=
    ⟨hd.resolve_moveEntry h env hk hedge h.found h.below, by rw [hlookup, if_pos ⟨rfl, rfl⟩]⟩
  have hfound := hd.resolve_moveEntry h env hk hedge h.finds.1 hbelow
  have hdir : (d.moveEntry env p k q).IsDir p := by
    have hold := h.finds.isDir
    refine ⟨hold.1, ?_⟩
    rw [inode_moveEntry h, (INode.sameLabels_shrunk env 2 _).mode]
    exact hold.2
  -- one entry more in the one directory, one less in the other
  have hcountq : ((d.moveEntry env p k q).inode q).count = (d.inode q).count + 1 := by
    rw [← length_graph hfinds.isDir, ← length_graph h.dir, hgraph, NameGraph.insert_apply,
      if_pos rfl, List.length_append, List.length_singleton, (hsimilar q).length_eq,
      NameGraph.remove_apply, if_neg h.ne]
  have hcountp : ((d.moveEntry env p k q).inode p).count + 1 = (d.inode p).count := by
    have hpos := List.length_pos_of_mem hmem
    rw [← length_graph hdir, ← length_graph h.finds.isDir, hgraph, NameGraph.insert_apply,
      if_neg h.ne.symm, (hsimilar p).length_eq, NameGraph.remove_apply, if_pos rfl,
      List.length_erase_of_mem hmem]
    omega
  have hsmall := h.small
  refine ⟨hfinds, hfound, hdir, h.ne.symm, by omega, by omega, fun h0 => by omega, ?_, ?_⟩
  · rw [hlookup, if_neg fun hand => h.ne hand.1.symm, if_pos ⟨rfl, rfl⟩]
  · intro hpre
    have hnone := tree_closed.of_prefix hpre ((tree_concat_eq_none h.found).mpr h.fresh)
    rw [tree_of_resolve h.finds.1] at hnone
    cases hnone

end Disk

/-- **Removal undoes creation**: a name that is made and then removed, by `fs_unlink` or
`fs_rmdir`, leaves the tree as it was, but for the times of the directory; and it can be removed
if the directory had fewer than 12 names. -/
theorem creation_undone (h : ServiceRun l d) {c : Creation} {behind : ℕ → Byte}
    (hcreate : Served d ⟨env, .change (.create c behind), answer⟩ s) (behind' : ℕ → Byte) :
    (∀ op ∈ [Op.unlink c.parent c.name behind', Op.rmdir c.parent c.name behind'],
      ∀ env' answer' d', Served s ⟨env', .change op, answer'⟩ d' →
        d'.tree = d.tree.modify c.parent (.stamped (env'.time 1) (env'.time 0))) ∧
    (SplitsAt c.parent c.name behind' → (d.tree.children c.parent).ncard < 12 →
      (Op.unlink c.parent c.name behind').Safe s ∧
      (c.kind = .directory → (Op.rmdir c.parent c.name behind').Safe s)) := by
  obtain ⟨hd, hplain⟩ := h.sound
  obtain ⟨p, hp, hc⟩ := hcreate.1
  obtain ⟨⟨hs, hplain', -⟩, -, hmade⟩ := hcreate.step hd hplain
  refine ⟨fun op hop env' answer' d' hremove => ?_, fun hsplit hsmall => ?_⟩
  · obtain ⟨-, -, hgone⟩ := hremove.step hs hplain'
    have hnone := (Disk.tree_concat_eq_none hp).mpr hc.fresh
    rcases List.mem_pair.mp hop with rfl | rfl
    · rw [hgone, hmade, Creation.path, FileTree.create_remove Disk.tree_closed hnone]
    · rw [hgone, hmade, Creation.path, FileTree.create_remove Disk.tree_closed hnone]
  · have hrun : ((Op.create c behind).prog env).run vdisk d =
        some (0, d.created env c.kind.mode p c.name d.nextInode) := by
      rw [Op.prog, Creation.prog_eq]
      exact run_fsCreate env c.kind.mode hd hp hc behind
    obtain rfl := hcreate.eq_of_run hrun
    obtain ⟨hfinds, hcount⟩ := hc.finds_created hd hp env c.kind
    rw [hd.ncard_children hp hc.dir] at hsmall
    refine ⟨⟨hsplit, p, _, hfinds, by omega⟩, fun hkind => ⟨hsplit, p, _, hfinds, ?_, by omega, ?_⟩⟩
    · exact ⟨d.nextInode_lt, by rw [hc.inode_created_new env c.kind.mode hd, hkind]; rfl⟩
    · rw [hc.inode_created_new env c.kind.mode hd, Disk.count_freshINode]
      decide

/-- `mkdir /a` and `rmdir /a`. -/
theorem creation_undone_initial : ∃ d s d' : Disk,
    (∃ answer, Served d ⟨plainEnv,
      .change (.create ⟨.directory, [], letter 97⟩ plainMemory), answer⟩ s) ∧
    (∃ answer, Served s ⟨plainEnv, .change (.rmdir [] (letter 97) plainMemory), answer⟩ d') ∧
    d'.tree = d.tree.modify [] (.stamped 0 0) := by
  have hd := serviceRun_initial.sound
  have hcan : Callback.Safe (.initial plainEnv fun _ => 0)
      (.change (.create ⟨.directory, [], letter 97⟩ plainMemory)) :=
    ⟨4, rfl, Disk.canCreate_initial plainEnv (fun _ => 0) (letter 97)⟩
  obtain ⟨answer, s, hcreate⟩ := hcan.exists_served hd.1 hd.2 plainEnv
  obtain ⟨hundo, hsafe⟩ := creation_undone serviceRun_initial hcreate plainMemory
  have hempty : ((Disk.initial plainEnv fun _ => 0).tree.children []).ncard < 12 := by
    rw [hd.1.ncard_children (p := 4) rfl hd.1.directories.root, Disk.count_initial]
    decide
  obtain ⟨⟨hs, hplain, -⟩, -⟩ := hcreate.step hd.1 hd.2
  have hcan' : Callback.Safe s (.change (.rmdir [] (letter 97) plainMemory)) :=
    (hsafe (by decide) hempty).2 rfl
  obtain ⟨answer', d', hremove⟩ := hcan'.exists_served hs hplain plainEnv
  exact ⟨_, s, d', ⟨answer, hcreate⟩, ⟨answer', hremove⟩,
    hundo _ (List.mem_pair.mpr (.inr rfl)) plainEnv answer' d' hremove⟩

/-- **A rename is undone by the rename back**: the tree is as it was, with everything below the
name, but for the times of the two directories; and it can be undone if the new directory had fewer
than 12 names and the old one another one. -/
theorem rename_undone (h : ServiceRun l d) {parent parent' : List Name} {name b : Name}
    {m m' : ℕ → Byte}
    (hthere : Served d ⟨env, .change (.rename parent name m parent' b m'), answer⟩ s)
    (b' : Name) (m₁ m₁' : ℕ → Byte) :
    (∀ env' answer' d', Served s
      ⟨env', .change (.rename parent' name m₁ parent b' m₁'), answer'⟩ d' →
        d'.tree = (d.tree.modify parent (.stamped (env'.time 0) (env'.time 1))).modify parent'
          (.stamped (env'.time 3) (env'.time 2))) ∧
    (SplitsAt parent' name m₁ → SplitsAt parent b' m₁' → (d.tree.children parent').ncard < 12 →
      (d.tree.children parent).ncard ≠ 1 →
        (Op.rename parent' name m₁ parent b' m₁').Safe s) := by
  obtain ⟨hd, hplain⟩ := h.sound
  obtain ⟨hsplit, hsplit', p, q, i, hr⟩ := hthere.1
  obtain ⟨⟨hs, hplain', -⟩, -, hmoved⟩ := hthere.step hd hplain
  refine ⟨fun env' answer' d' hback => ?_, fun hcut hcut' hq hp => ?_⟩
  · obtain ⟨-, -, hmoved'⟩ := hback.step hs hplain'
    have hnone := (Disk.tree_concat_eq_none hr.found).mpr hr.fresh
    have hsome : d.tree parent ≠ none := by
      rw [Disk.tree_of_resolve hr.finds.1]
      exact Option.some_ne_none _
    have hne : parent' ≠ parent := by
      rintro rfl
      exact hr.ne (Option.some.inj (hr.found.symm.trans hr.finds.1))
    rw [hmoved', hmoved, FileTree.move_move Disk.tree_closed hne hnone hsome hr.below]
  · obtain ⟨k, hk, hedge, hrun⟩ := run_fsRename env hd hr.finds.isDir hr.small hr.dir hr.ne
      hr.count_lt hr.room hsplit hsplit' hr.finds.1 hr.finds.2 hr.found hr.below
    obtain rfl := hthere.eq_of_run hrun
    rw [hd.ncard_children hr.found hr.dir] at hq
    rw [hd.ncard_children hr.finds.1 hr.finds.isDir] at hp
    exact ⟨hcut, hcut', q, p, i, hr.back hd env hk hedge hq hp b'⟩

/-- `rename /@A /@@/@A` and back. -/
theorem rename_undone_directory : ∃ d s d' : Disk,
    (∃ answer, Served d ⟨plainEnv,
      .change (.rename [] (nthName 1) plainMemory [nthName 0] (nthName 1) plainMemory), answer⟩ s) ∧
    (∃ answer, Served s ⟨plainEnv,
      .change (.rename [nthName 0] (nthName 1) plainMemory [] (nthName 1)
      plainMemory), answer⟩ d') ∧
    d'.tree = (d.tree.modify [] (.stamped 0 0)).modify [nthName 0] (.stamped 0 0) := by
  obtain ⟨d, q, i, hrun, hr, hcount⟩ := exists_safeRun_directory (nthName 1)
  obtain ⟨l, hl⟩ := hrun.serviceRun
  obtain ⟨hd, hplain⟩ := hl.sound
  have hcan : Callback.Safe d
      (.change (.rename [] (nthName 1) plainMemory [nthName 0] (nthName 1) plainMemory)) :=
    ⟨by decide, by decide, 4, q, i, hr⟩
  obtain ⟨answer, s, hthere⟩ := hcan.exists_served hd hplain plainEnv
  obtain ⟨hundo, hsafe⟩ := rename_undone hl hthere (nthName 1) plainMemory plainMemory
  -- the root has both names
  have hroot : (d.tree.children []).ncard ≠ 1 := by
    intro hone
    obtain ⟨a, ha⟩ := Set.ncard_eq_one.mp hone
    have hmem : nthName 1 ∈ d.tree.children [] := by
      rw [FileTree.mem_children, ne_eq, Disk.tree_concat_eq_none hr.finds.1, hr.finds.2]
      exact Option.some_ne_none _
    have hmem' : nthName 0 ∈ d.tree.children [] := by
      rw [FileTree.mem_children, List.nil_append, Disk.tree_of_resolve hr.found]
      exact Option.some_ne_none _
    rw [ha, Set.mem_singleton_iff] at hmem hmem'
    exact absurd (nthName_inj (by decide) (by decide) (hmem.trans hmem'.symm)) (by decide)
  have hcan' : Callback.Safe s
      (.change (.rename [nthName 0] (nthName 1) plainMemory [] (nthName 1) plainMemory)) :=
    hsafe (by decide) (by decide) (by rw [hd.ncard_children hr.found hr.dir, hcount]; decide) hroot
  obtain ⟨⟨hs, hplain', -⟩, -⟩ := hthere.step hd hplain
  obtain ⟨answer', d', hback⟩ := hcan'.exists_served hs hplain' plainEnv
  exact ⟨d, s, d', ⟨answer, hthere⟩, ⟨answer', hback⟩, hundo plainEnv answer' d' hback⟩

end InodeFs
