import InodeFs.Properties.Renaming
import InodeFs.Properties.Ranks
import InodeFs.State.Tight

/-!
# The maps and what is in use

`Disk.Fsck` says that the bits of both maps are set for what is in use and for nothing else.
`Disk.Sound` has the one direction, that what is in use is marked. The other one is lost where
something would have to be given back, since nothing ever is: `fsck` holds it along the runs of
calls that leave nothing behind (`Op.Tidy`), and `not_fsck_of_unlink` shows it lost after every
`fs_unlink`.

A tidy call is one after which nothing would have to be given back. The safe creations are all
among them. A safe write is one if it mounts each block at a rank that has none, and ends behind the
blocks of the file; a safe rename if the directory it takes the name from keeps an entry. A
truncation is one if it gives the loop of `fs_truncate` no round and cuts off no block, to whatever
size: it need not be safe, since the maps do not tell how much of a file can be read. No removal is
tidy.

`Disk.Tidy` is the invariant carried along: every mark is accounted for, and directories have
exactly the blocks their entries take. The disks are sound up to the length of files, which is
bounded by what an `off_t` can hold. The three kinds of changes are `Tidy.created`,
`Tidy.fileChange` and `Tidy.moveEntry`, and only the converse direction is added there to what is
known of sound disks.

The check is made over what is reached from the root. A directory that is not reached has no say:
its entries do not count as names of an inode, and its blocks not as blocks in use.
-/

namespace InodeFs

/-! ### The check -/

namespace Disk

/-- Inode `i` is the root, or is reached from it. -/
def Reached (d : Disk) (i : ℕ) : Prop := ∃ as, d.graph.resolve 4 (fileNames as) = some i

/-- Entry `k` of directory `p` names inode `j`. -/
def Names (d : Disk) (j p k : ℕ) : Prop :=
  d.IsDir p ∧ k < (d.inode p).count ∧ (d.entryOf (d.inode p) k).inodeNumber.toNat = j

/-- Inode `i` holds data block `b` as the block of a rank below its end or as an index block. -/
def Holds (d : Disk) (b i : ℕ) : ℕ ⊕ Fin 2 → Prop
  | .inl r => r < ((d.inode i).stSize.toNat + 4095) / 4096 ∧ d.releasedNumber (d.inode i) r = b
  | .inr k => ((d.inode i).indirectPointer k).toInt = b

/-- **The fsck invariant**: an inode is marked if and only if it is the root or exactly one entry
of a directory that is reached names it; a data block is marked if and only if it is reserved or
exactly one inode that is reached holds it, in exactly one place. -/
structure Fsck (d : Disk) : Prop where
  imap : ∀ j < 32768, d.imap j = true ↔
    j = 4 ∨ ∃! e : ℕ × ℕ, d.Reached e.1 ∧ d.Names j e.1 e.2
  dmap : ∀ b < 64508, d.dmap b = true ↔
    b < 4 ∨ ∃! h : ℕ × (ℕ ⊕ Fin 2), d.Reached h.1 ∧ d.Holds b h.1 h.2

variable {d : Disk} {i j p q k l b limit : ℕ}

theorem Names.mem_graph (h : d.Names j p k) :
    ((d.entryOf (d.inode p) k).fileName, j) ∈ d.graph p :=
  Disk.mem_graph.mpr ⟨h.1, k, h.2.1, Prod.ext rfl h.2.2⟩

/-- An inode is named once. -/
theorem GraphOk.names_unique (hd : d.GraphOk) (h : d.Names j p k) (h' : d.Names j q l) :
    p = q ∧ k = l := by
  obtain ⟨rfl, -⟩ := hd.proper.eq_of_target h.mem_graph h'.mem_graph
  have htargets := hd.proper.targets p
  rw [graph_of_isDir h.1, entriesOf, List.map_map, List.map_map] at htargets
  exact ⟨rfl, List.inj_on_of_nodup_map htargets (List.mem_range.mpr h.2.1)
    (List.mem_range.mpr h'.2.1) (h.2.2.trans h'.2.2.symm)⟩

theorem Sound.reached_lt (hd : d.Sound limit) (h : d.Reached i) : i < 32768 := by
  obtain ⟨as, has⟩ := h
  exact hd.walkable.resolve_lt (by decide) has

/-- What is reached and not the root is named in a directory that is reached. -/
theorem Reached.exists_names (h : d.Reached i) (hroot : i ≠ 4) :
    ∃ p k, d.Reached p ∧ d.Names i p k := by
  obtain ⟨as, has⟩ := h
  rcases List.eq_nil_or_concat as with rfl | ⟨bs, a, rfl⟩
  · exact absurd (Option.some.inj has).symm hroot
  · rw [List.concat_eq_append] at has
    obtain ⟨p, hp, hlookup⟩ := NameGraph.resolve_map_concat.mp has
    obtain ⟨hdir, k, hk, hedge⟩ := Disk.mem_graph.mp (NameGraph.mem_of_lookup hlookup)
    exact ⟨p, k, ⟨bs, hp⟩, hdir, hk, congrArg Prod.snd hedge⟩

/-- Behind the direct ranks no block is found but block 0, and there are no index blocks. -/
theorem Sound.ptr_eq_of_holds (hd : d.Sound limit) (hi : i < 32768) {place : ℕ ⊕ Fin 2}
    (h : d.Holds b i place) (h4 : 4 ≤ b) : ∃ r, place = .inl r ∧ (d.inode i).ptr r = b := by
  have hindirect := hd.pointers.indirect i hi
  cases place with
  | inl r =>
    obtain ⟨-, hnumber⟩ := h
    refine ⟨r, rfl, ?_⟩
    by_cases hr : r < 12
    · rw [releasedNumber, dif_pos hr,
        INode.toInt_directPointer hr (hd.pointers.lt i hi r)] at hnumber
      exact Int.ofNat.inj hnumber
    · rw [releasedNumber, dif_neg hr, indexElement, INode.indexBlock, hindirect] at hnumber
      have hblock : (0 : BitVec 32).toNat = 0 := rfl
      rw [hblock, hd.zero, Block.ints_zero] at hnumber
      have hzero : (0 : BitVec 32).toInt = 0 := rfl
      omega
  | inr k =>
    have hnumber : ((d.inode i).indirectPointer k).toInt = b := h
    rw [hindirect] at hnumber
    have hzero : (0 : BitVec 32).toInt = 0 := rfl
    omega

/-- The invariant of the runs that leave nothing behind: files may be of any length. -/
structure Tidy (d : Disk) : Prop where
  sound : d.Sound (2 ^ 63)
  tight : d.Tight
  reached : ∀ j < 32768, d.imap j = true → d.Reached j

/-- **A tidy disk passes the check.** -/
theorem Tidy.consistent (h : d.Tidy) : d.Fsck where
  imap j hj := by
    have hd := h.sound
    constructor
    · intro hset
      by_cases hroot : j = 4
      · exact .inl hroot
      · -- what is marked is reached, and thus named
        obtain ⟨p, k, hp, hnames⟩ := (h.reached j hj hset).exists_names hroot
        refine .inr ⟨(p, k), ⟨hp, hnames⟩, ?_⟩
        rintro ⟨q, l⟩ ⟨-, hnames'⟩
        obtain ⟨rfl, rfl⟩ := hd.directories.graph.names_unique hnames hnames'
        rfl
    · rintro (rfl | ⟨e, ⟨-, hnames⟩, -⟩)
      · exact (hd.directories.dir 4 hd.directories.root).marked
      · exact hd.directories.graph.target_marked _ _ hnames.mem_graph
  dmap b hb := by
    have hd := h.sound
    constructor
    · intro hset
      rcases Nat.lt_or_ge b 4 with h4 | h4
      · exact .inl h4
      · obtain ⟨i, hi, r, hr⟩ := h.tight.held b hb h4 hset
        have hne : (d.inode i).ptr r ≠ 0 := by omega
        -- an inode has pointers at the ranks below 12 only
        have hr12 : r < 12 := by
          by_contra hr12
          exact hne (by rw [INode.ptr, dif_neg hr12])
        have hmarked : d.imap i = true := by
          by_contra hfree
          exact hne (hd.pointers.fresh i hi (by simpa using hfree) r)
        have hbelow := h.tight.below i hi r hne
        have hrank : r < ((d.inode i).stSize.toNat + 4095) / 4096 := by omega
        refine .inr ⟨(i, .inl r), ⟨h.reached i hi hmarked, hrank, ?_⟩, ?_⟩
        · rw [releasedNumber, dif_pos hr12,
            INode.toInt_directPointer hr12 (hd.pointers.lt i hi r), hr]
        · rintro ⟨i', place⟩ ⟨hreached', hholds'⟩
          have hi' := hd.reached_lt hreached'
          obtain ⟨r', rfl, hr'⟩ := hd.ptr_eq_of_holds hi' hholds' h4
          obtain ⟨rfl, rfl⟩ := hd.pointers.inj i hi i' hi' r r' hne (hr.trans hr'.symm)
          rfl
    · rintro (h4 | ⟨⟨i, place⟩, ⟨hreached, hholds⟩, -⟩)
      · exact hd.pointers.reserved b h4
      · rcases Nat.lt_or_ge b 4 with h4 | h4
        · exact hd.pointers.reserved b h4
        · have hi : i < 32768 := hd.reached_lt hreached
          obtain ⟨r, -, hr⟩ := hd.ptr_eq_of_holds hi hholds h4
          have hne : (d.inode i).ptr r ≠ 0 := by rw [hr]; omega
          exact hr ▸ hd.pointers.marked i hi r hne

end Disk

/-! ### Calls that leave nothing behind -/

/-- **The tidy calls**, which need nothing to be given back: a write mounts blocks only at ranks
that have none and lie below the new end, and ends behind all blocks of the file; a truncation keeps
or raises the number of whole blocks, as the code takes it of an `int`, and ends behind all blocks,
too; nothing is unlinked; a rename leaves the old directory another entry. -/
def Op.Tidy (d : Disk) : Op → Prop
  | .create c _ => ∃ p, d.graph.resolve 4 (fileNames c.parent) = some p ∧ d.CanCreate p c.name
  | .write path _ _ size offset => ∃ i, d.graph.resolve 4 (fileNames path) = some i ∧ d.IsFile i ∧
      d.CanWrite i size offset ∧
      (∀ r, Disk.firstRank offset ≤ r → r < offset / 4096 + 1 + nextCount size offset →
        (d.inode i).ptr r = 0 ∧ 4096 * r < offset + size) ∧
      ∀ r, (d.inode i).ptr r ≠ 0 → 4096 * r < offset + size
  | .truncate path _ size => ∃ i, d.graph.resolve 4 (fileNames path) = some i ∧ d.IsFile i ∧
      size < 2 ^ 63 ∧ (cInt (d.inode i).stSize.toInt).tdiv 4096 ≤ (cInt (size : ℤ)).tdiv 4096 ∧
      ∀ r, (d.inode i).ptr r ≠ 0 → 4096 * r < size
  | .unlink _ _ _ => False
  | .rmdir _ _ _ => False
  | .rename parent name behind parent' name' behind' => SplitsAt parent name behind ∧
      SplitsAt parent' name' behind' ∧ ∃ p q i, d.CanRename parent parent' name name' p q i ∧
        2 ≤ (d.inode p).count

/-- The runs of tidy calls, from a disk formatted with zeros behind the buffer of the data map. -/
abbrev TidyRun : Disk → Prop := RunOf (fun behind => ∀ k, behind k = 0) fun d op => op.Tidy d

namespace Disk

variable {d : Disk} {p q k i size offset : ℕ}

theorem tidy_initial (env : Env) {behind : Fin 27 → Byte} (hbehind : ∀ k, behind k = 0) :
    (initial env behind).Tidy where
  sound := (sound_initial env behind).mono (by decide)
  tight := tight_initial env hbehind
  reached j hj hset := by
    rw [imap_initial env behind hj, decide_eq_true_eq] at hset
    exact ⟨[], by rw [hset]; rfl⟩

theorem Tidy.created (h : d.Tidy) (env : Env) (mode : BitVec 32) {as : List Name} {a : Name}
    (hp : d.graph.resolve 4 (fileNames as) = some p) (hc : d.CanCreate p a) :
    (d.created env mode p a d.nextInode).Tidy := by
  have hd := h.sound
  have hfree := hc.inode.imap_nextInode
  have hgraph := hd.graph_created env mode hc
  have hold {bs : List Name} {j : ℕ} (hj : d.graph.resolve 4 (fileNames bs) = some j) :
      (d.created env mode p a d.nextInode).graph.resolve 4 (fileNames bs) = some j := by
    rw [hgraph]
    exact NameGraph.resolve_insert hc.fresh hj
  refine ⟨hd.created env mode hc, ?_, fun j hj hset => ?_⟩
  · exact (h.tight.withFreshInode hd env mode d.nextInode_lt hfree).addEntry
      (hd.withFreshInode env mode d.nextInode_lt hfree) (hc.isDir_parent env mode hd)
      (by rw [hc.inode_parent env mode hd]; exact hc.count_lt) (hc.hasRoom env mode hd)
  · rw [imap_created env mode j hj, Bool.or_eq_true, decide_eq_true_eq] at hset
    rcases hset with hset | rfl
    · obtain ⟨bs, hbs⟩ := h.reached j hj hset
      exact ⟨bs, hold hbs⟩
    · refine ⟨as ++ [a], NameGraph.resolve_map_concat.mpr ⟨p, hold hp, ?_⟩⟩
      rw [hgraph, NameGraph.lookup_insert hc.fresh, if_pos ⟨rfl, rfl⟩]

/-- A change of a file's blocks and size. -/
theorem Tidy.fileChange (h : d.Tidy) {d' : Disk} {lo hi : ℕ}
    (hchange : FileChange i lo hi d d' (2 ^ 63)) (htight : d'.Tight) : d'.Tidy where
  sound := hchange.sound
  tight := htight
  reached j hj hset := by
    rw [hchange.imap] at hset
    obtain ⟨as, has⟩ := h.reached j hj hset
    exact ⟨as, by rw [hchange.graph, has]⟩

/-- A move of an entry from a directory that has another one. -/
theorem Tidy.moveEntry (h : d.Tidy) {parent parent' : List Name} {name name' : Name}
    (hr : d.CanRename parent parent' name name' p q i) (htwo : 2 ≤ (d.inode p).count) (env : Env)
    (hk : k < (d.inode p).count)
    (hedge : (d.entryOf (d.inode p) k).edge = (name.fileName, i)) :
    (d.moveEntry env p k q).Tidy := by
  have hd := h.sound
  have hp := hr.finds.isDir
  have hinode : (d.removeEntry p k ((d.inode p).shrunk env 2)).inode q = d.inode q := by
    rw [inode_removeEntry hr.dir.1, if_neg hr.ne]
  refine ⟨(hd.moveEntry hr env hk hedge).1, ?_, fun j hj hset => ?_⟩
  · refine (h.tight.removeEntry hd hp hr.small htwo).addEntry (hd.removed env 2 hp hr.small hk).1
      ⟨hr.dir.1, by rw [hinode]; exact hr.dir.2⟩ (by rw [hinode]; exact hr.count_lt) ?_
    rw [hinode]
    simpa only [HasRoom, HasBlock, dmap_removeEntry] using hr.room
  · rw [Disk.moveEntry, imap_addEntry, imap_removeEntry] at hset
    obtain ⟨as, has⟩ := h.reached j hj hset
    by_cases hbelow : parent ++ [name] <+: as
    · obtain ⟨bs, rfl⟩ := hbelow
      exact ⟨parent' ++ [name] ++ bs, hd.resolve_moveEntry_behind hr env hk hedge has⟩
    · exact ⟨as, hd.resolve_moveEntry hr env hk hedge has hbelow⟩

end Disk

/-- **A tidy call** returns, and leaves a tidy disk. -/
theorem Op.Tidy.step {d : Disk} (hd : d.Tidy) {op : Op} (h : op.Tidy d) (env : Env) :
    ∃ r d', (op.prog env).run vdisk d = some (r, d') ∧ d'.Tidy := by
  have hs := hd.sound
  cases op with
  | create c behind =>
    obtain ⟨p, hp, hc⟩ := h
    refine ⟨0, _, ?_, hd.created env c.kind.mode hp hc⟩
    rw [Op.prog, Creation.prog_eq]
    exact run_fsCreate env c.kind.mode hs hp hc behind
  | write path behind buffer size offset =>
    obtain ⟨i, hi, hfile, hw, hnew, hold⟩ := h
    have hchange := Disk.FileChange.written hs hfile hw buffer
    have hsize := Disk.stSize_written (i := i) hw.fits buffer
    exact ⟨_, _, run_fsWrite env hs hfile hw buffer hi behind, hd.fileChange hchange
      (hd.tight.fileChange hchange hfile.lt (by rwa [hsize]) (by rwa [hsize]))⟩
  | truncate path behind size =>
    obtain ⟨i, hi, hfile, hsize, hblocks, hold⟩ := h
    have hnat : (BitVec.ofNat 64 size).toNat = size := by
      rw [BitVec.toNat_ofNat]
      exact Nat.mod_eq_of_lt (by omega)
    have hchange := Disk.FileChange.setInode hs hfile
      (INode.sameBlocks_withSize (d.inode i) (BitVec.ofNat 64 size)) (hnat.trans_le hsize.le) 0
    have hend : ((d.setInode i ((d.inode i).withSize
        (BitVec.ofNat 64 size))).inode i).stSize.toNat = size := by
      rw [Disk.inode_setInode_self, INode.stSize_withSize, hnat]
    exact ⟨_, _, run_fsTruncate_of_le env hs.walkable hfile.lt hi behind hblocks,
      hd.fileChange hchange (hd.tight.fileChange hchange hfile.lt
        (fun r _ hr => absurd hr (Nat.not_lt_zero r)) (by rwa [hend]))⟩
  | unlink parent name behind => exact h.elim
  | rmdir parent name behind => exact h.elim
  | rename parent name behind parent' name' behind' =>
    obtain ⟨hsplit, hsplit', p, q, i, hr, htwo⟩ := h
    obtain ⟨k, hk, hedge, hrun⟩ := run_fsRename env hs hr.finds.isDir hr.small hr.dir hr.ne
      hr.count_lt hr.room hsplit hsplit' hr.finds.1 hr.finds.2 hr.found hr.below
    exact ⟨_, _, hrun, hd.moveEntry hr htwo env hk hedge⟩

theorem TidyRun.tidy {d : Disk} (h : TidyRun d) : d.Tidy := by
  refine RunOf.invariant h (fun env behind hbehind => Disk.tidy_initial env hbehind)
    fun d op env r d' hd hop hcall => ?_
  obtain ⟨r', t, hrun, ht⟩ := Op.Tidy.step hd hop env
  rw [hrun] at hcall
  obtain ⟨-, rfl⟩ := Prod.mk.inj (Option.some.inj hcall)
  exact ht

/-- **The maps agree with what is in use** in every state of a tidy run. -/
theorem fsck {d : Disk} (h : TidyRun d) : d.Fsck := h.tidy.consistent

/-! ### Unlinking -/

/-- An unlinked inode stays marked. -/
theorem not_fsck_of_unlink {env : Env} {d d' : Disk} (hd : d.Sound) {parent : List Name}
    {name : Name} {behind : ℕ → Byte} {p i : ℕ} {r : ℤ} (hsplit : SplitsAt parent name behind)
    (hfinds : d.Finds parent name p i) (hcount : (d.inode p).count ≤ 12)
    (hrun : (fsUnlink env (pathString (parent ++ [name]) behind)).run vdisk d = some (r, d')) :
    ¬ d'.Fsck := by
  obtain ⟨k, s, t, hrun', hk, hedge, hs, hmarks⟩ :=
    run_fsUnlink env hd hfinds.isDir hcount hsplit hfinds.1 hfinds.2
  obtain ⟨-, rfl⟩ := Prog.run_inj vdisk hrun hrun'
  obtain ⟨hsound, hgraph⟩ := hs.of_removed hfinds.isDir hcount hk hmarks
  rw [hedge] at hgraph
  have hproper := hd.directories.graph.proper
  have hmem := NameGraph.mem_of_lookup hfinds.2
  have hi := hd.directories.graph.target_lt p _ hmem
  have hmarked : d'.imap i = true := by
    refine hmarks.imap i hi ?_
    rw [Disk.imap_removeEntry]
    exact hs.marks.imap i hi (hd.directories.graph.target_marked p _ hmem)
  intro hfsck
  rcases (hfsck.imap i hi).mp hmarked with hroot | ⟨e, ⟨-, hnames⟩, -⟩
  · exact hproper.root hmem hroot
  · obtain ⟨hold, hne⟩ := hproper.mem_remove.mp (hgraph.mem.mp hnames.mem_graph)
    obtain ⟨hp, hname⟩ := hproper.eq_of_target hold hmem
    exact hne ⟨hp, Prod.ext hname rfl⟩

/-! ### One file made, and unlinked again -/

/-- `mknod` of one file in the root: it is empty, and has no blocks. -/
theorem exists_tidyRun_file : ∃ d i, TidyRun d ∧ d.Sound ∧ d.Finds [] (nthName 0) 4 i ∧
    (d.inode 4).count ≤ 12 ∧ d.IsFile i ∧ (d.inode i).stSize = 0 ∧ ∀ r, (d.inode i).ptr r = 0 := by
  have hcan := Disk.canCreate_initial plainEnv (fun _ => 0) (nthName 0)
  have hsound := Disk.sound_initial plainEnv fun _ => 0
  have hcall : (Op.prog plainEnv (.create ⟨.file, [], nthName 0⟩ plainMemory)).run vdisk
      (Disk.initial plainEnv fun _ => 0) =
        some (0, (Disk.initial plainEnv fun _ => 0).created plainEnv
        Kind.file.mode 4 (nthName 0) (Disk.initial plainEnv fun _ => 0).nextInode) := by
    rw [Op.prog, Creation.prog_eq]
    exact run_fsCreate plainEnv Kind.file.mode hsound rfl hcan plainMemory
  have hnew := hcan.inode_created_new plainEnv Kind.file.mode hsound
  have hgraph := hsound.graph_created plainEnv Kind.file.mode hcan
  have hcount : ((Disk.initial plainEnv fun _ => 0).created plainEnv Kind.file.mode 4 (nthName 0)
      (Disk.initial plainEnv fun _ => 0).nextInode).graph 4 =
        [((nthName 0).fileName, (Disk.initial plainEnv fun _ => 0).nextInode)] := by
    rw [hgraph, NameGraph.insert_apply, if_pos rfl, Disk.graph_initial, List.nil_append]
  have hlookup : ((Disk.initial plainEnv fun _ => 0).created plainEnv Kind.file.mode 4 (nthName 0)
      (Disk.initial plainEnv fun _ => 0).nextInode).graph.lookup 4 (nthName 0).fileName =
        some (Disk.initial plainEnv fun _ => 0).nextInode := by
    rw [hgraph, NameGraph.lookup_insert hcan.fresh, if_pos ⟨rfl, rfl⟩]
  refine ⟨_, _, .step (.init (fun _ => rfl) (Disk.run_mkfs_zeroDisk plainEnv fun _ => 0))
    (show Op.Tidy _ (.create ⟨.file, [], nthName 0⟩ plainMemory) from ⟨4, rfl, hcan⟩) hcall,
    hsound.created plainEnv Kind.file.mode hcan, ⟨rfl, hlookup⟩, ?_,
    ⟨Disk.nextInode_lt _, ?_, ?_⟩, by rw [hnew]; rfl, fun r => ?_⟩
  · rw [← Disk.length_graph (Disk.isDir_of_lookup hlookup), hcount]
    decide
  · rw [Disk.imap_created plainEnv Kind.file.mode _ (Disk.nextInode_lt _), decide_eq_true rfl,
      Bool.or_true]
  · rintro ⟨-, hmode⟩
    rw [hnew] at hmode
    exact absurd hmode (by decide)
  · rw [hnew, Disk.ptr_freshINode, Disk.ptr_initial]

/-- After the `mknod`, and a truncation of the file to more than `fs_read` can address. -/
theorem fsck_one_file : ∃ d i, TidyRun d ∧ d.graph.resolve 4 (fileNames [nthName 0]) = some i ∧
    (d.inode i).stSize.toNat = 2 ^ 40 ∧ d.Fsck := by
  obtain ⟨d, i, hrun, hsound, hfinds, -, hfile, hsize, hptr⟩ := exists_tidyRun_file
  have hresolve : d.graph.resolve 4 (fileNames [nthName 0]) = some i :=
    NameGraph.resolve_map_concat.mpr ⟨4, hfinds⟩
  have hrounds : (cInt (d.inode i).stSize.toInt).tdiv 4096 ≤
      (cInt ((2 ^ 40 : ℕ) : ℤ)).tdiv 4096 := by
    rw [hsize]
    decide
  have hgrown : TidyRun _ := hrun.step
    (show Op.Tidy d (.truncate [nthName 0] plainMemory (2 ^ 40)) from
      ⟨i, hresolve, hfile, by decide, hrounds, fun r hr => absurd (hptr r) hr⟩)
    (run_fsTruncate_of_le plainEnv hsound.walkable hfile.lt hresolve plainMemory hrounds)
  refine ⟨_, i, hgrown, ?_, ?_, fsck hgrown⟩
  · rw [Disk.graph_setInode_file hfile.lt hfile.not_isDir (INode.sameBlocks_withSize _ _), hresolve]
  · rw [Disk.inode_setInode_self, INode.stSize_withSize]
    decide

/-- After an `unlink` of the file. -/
theorem not_fsck_unlinked_file : ∃ d i d', TidyRun d ∧ d.Finds [] (nthName 0) 4 i ∧
    (fsUnlink plainEnv (pathString [nthName 0] plainMemory)).run vdisk d = some (0, d') ∧
    ¬ d'.Fsck := by
  obtain ⟨d, i, hrun, hsound, hfinds, hcount, -⟩ := exists_tidyRun_file
  have hsplit : SplitsAt [] (nthName 0) plainMemory := by decide
  obtain ⟨k, s, d', hcall, -⟩ :=
    run_fsUnlink plainEnv hsound hfinds.isDir hcount hsplit hfinds.1 hfinds.2
  exact ⟨d, i, d', hrun, hfinds, hcall, not_fsck_of_unlink hsound hsplit hfinds hcount hcall⟩

end InodeFs
