import InodeFs.Properties.Allocation
import InodeFs.Ops.Rename
import InodeFs.Ops.Truncate

/-!
# Runs of all operations

`RunOf Start Ok d` says that disk `d` is reached from a disk formatted as `Start` allows by calls of
the seven operations that change the disk, each allowed by `Ok` in the state it is made in.
`Op.Safe` are the calls whose condition holds: that each of them returns and keeps the invariant is
`Op.Safe.step`, and what it gives for a whole run is `SafeRun.sound`.

Each operation has its condition, which says when it does what it is called for: a creation that
there is room, a write that it reaches direct blocks only and does not start in a hole, a removal
that its path is cut right and that the entries are few enough to be read by rank, a rename that it
goes from one directory to another. The conditions are about the state before the call. What becomes
of the calls that do not meet them is the subject of the other modules, which find out how far each
condition can be relaxed.

Names have from 1 to 24 bytes, as `Name` has it; longer ones are in `InodeFs.Properties.LongNames`.
The environment may be another one at each call, which leaves open what the clock, the user and
uninitialised memory are.

`RunOf.invariant` is the induction that all properties of runs use. The two kinds of runs, `SafeRun`
here and `TidyRun` in `InodeFs.Properties.Fsck`, differ in `Ok` and in what they ask of the
formatted disk.
-/

namespace InodeFs

open Disk (Marks)

/-! ### Calls -/

/-- A call of an operation, with the memory behind its paths. -/
inductive Op : Type
  | create (c : Creation) (behind : ℕ → Byte)
  | write (path : List Name) (behind buffer : ℕ → Byte) (size offset : ℕ)
  | truncate (path : List Name) (behind : ℕ → Byte) (size : ℕ)
  | unlink (parent : List Name) (name : Name) (behind : ℕ → Byte)
  | rmdir (parent : List Name) (name : Name) (behind : ℕ → Byte)
  | rename (parent : List Name) (name : Name) (behind : ℕ → Byte) (parent' : List Name)
      (name' : Name) (behind' : ℕ → Byte)

/-- The program of a call. -/
def Op.prog (env : Env) : Op → Fs ℤ
  | .create c behind => c.prog env behind
  | .write path behind buffer size offset => fsWrite env (pathString path behind) buffer size offset
  | .truncate path behind size => fsTruncate env (pathString path behind) size
  | .unlink parent name behind => fsUnlink env (pathString (parent ++ [name]) behind)
  | .rmdir parent name behind => fsRmdir env (pathString (parent ++ [name]) behind)
  | .rename parent name behind parent' name' behind' =>
    fsRename env (pathString (parent ++ [name]) behind) (pathString (parent' ++ [name']) behind')

/-- The runs from the formatted disk whose calls are allowed by `Ok`; `Start` is about the bytes
behind the buffer that `mkfs` writes. -/
inductive RunOf (Start : (Fin 27 → Byte) → Prop) (Ok : Disk → Op → Prop) : Disk → Prop
  | init {env : Env} {behind : Fin 27 → Byte} {r : ℤ} {d : Disk} (start : Start behind)
      (h : (mkfs env behind).run vdisk zeroDisk = some (r, d)) : RunOf Start Ok d
  | step {d d' : Disk} {op : Op} {env : Env} {r : ℤ} (run : RunOf Start Ok d) (ok : Ok d op)
      (call : (op.prog env).run vdisk d = some (r, d')) : RunOf Start Ok d'

/-- What holds of every formatted disk and is kept by every allowed call holds in every state of a
run. -/
theorem RunOf.invariant {Start : (Fin 27 → Byte) → Prop} {Ok : Disk → Op → Prop} {I : Disk → Prop}
    {d : Disk} (h : RunOf Start Ok d)
    (hinit : ∀ env behind, Start behind → I (Disk.initial env behind))
    (hstep : ∀ d op env r d', I d → Ok d op → (op.prog env).run vdisk d = some (r, d') → I d') :
    I d := by
  induction h with
  | init start h =>
    rw [Disk.run_mkfs_zeroDisk] at h
    obtain ⟨-, rfl⟩ := Prod.mk.inj (Option.some.inj h)
    exact hinit _ _ start
  | step _ ok call ih => exact hstep _ _ _ _ _ ih ok call

/-! ### Safe calls -/

namespace Disk

variable (d : Disk)

/-- The directory `parent` and the inode that `name` leads to in it. -/
def Finds (parent : List Name) (name : Name) (p i : ℕ) : Prop :=
  d.graph.resolve 4 (fileNames parent) = some p ∧ d.graph.lookup p name.fileName = some i

/-- What a rename of inode `i` from directory `p` to directory `q` needs. -/
structure CanRename (parent parent' : List Name) (name name' : Name) (p q i : ℕ) : Prop where
  finds : d.Finds parent name p i
  found : d.graph.resolve 4 (fileNames parent') = some q
  dir : d.IsDir q
  ne : q ≠ p
  small : (d.inode p).count ≤ 12
  count_lt : (d.inode q).count < 1536
  room : d.HasRoom (d.inode q)
  fresh : d.graph.lookup q name.fileName = none
  below : ¬ parent ++ [name] <+: parent'

end Disk

/-- **The safe calls.** A creation has what it needs; a write reaches direct blocks only, starts
in no hole and finds enough free blocks; a truncation stays within what `fs_read` can address; an
entry is taken out of a directory of at most 12 entries whose name the code cuts right; a rename
goes to another directory that has room and not the name. These calls keep the disk sound, which is
not to say that they do what they are for. -/
def Op.Safe (d : Disk) : Op → Prop
  | .create c _ => ∃ p, d.graph.resolve 4 (fileNames c.parent) = some p ∧ d.CanCreate p c.name
  | .write path _ _ size offset => ∃ i, d.graph.resolve 4 (fileNames path) = some i ∧ d.IsFile i ∧
      d.CanWrite i size offset
  | .truncate path _ size => ∃ i, d.graph.resolve 4 (fileNames path) = some i ∧ d.IsFile i ∧
      size ≤ 2146304
  | .unlink parent name behind => SplitsAt parent name behind ∧
      ∃ p i, d.Finds parent name p i ∧ (d.inode p).count ≤ 12
  | .rmdir parent name behind => SplitsAt parent name behind ∧
      ∃ p i, d.Finds parent name p i ∧ d.IsDir i ∧ (d.inode p).count ≤ 12 ∧ (d.inode i).count ≤ 12
  | .rename parent name behind parent' name' behind' => SplitsAt parent name behind ∧
      SplitsAt parent' name' behind' ∧ ∃ p q i, d.CanRename parent parent' name name' p q i

/-- The runs of safe calls. -/
abbrev SafeRun : Disk → Prop := RunOf (fun _ => True) fun d op => op.Safe d

/-! ### What a safe call leaves -/

namespace Disk

variable {d : Disk} {p q k i limit : ℕ}

/-- The directory of a name that is found. -/
theorem Finds.isDir {parent : List Name} {name : Name} (h : d.Finds parent name p i) :
    d.IsDir p := isDir_of_lookup h.2

/-- A disk with one entry less. -/
theorem Sound.removed (hd : d.Sound limit) (env : Env) (clock : ℕ) (hp : d.IsDir p)
    (hcount : (d.inode p).count ≤ 12) (hk : k < (d.inode p).count) :
    (d.removeEntry p k ((d.inode p).shrunk env clock)).Sound limit ∧
      (d.removeEntry p k ((d.inode p).shrunk env clock)).graph.Similar
        (d.graph.remove p (d.entryOf (d.inode p) k).edge) := by
  have hsize := INode.toNat_shrunk env clock (x := d.inode p) (by
    rw [(hd.directories.dir p hp).size_eq]
    omega)
  refine ⟨hd.removeEntry hp hcount hk (INode.sameBlocks_shrunk env clock _) hsize,
    hd.graph_removeEntry hp hcount hk (INode.sameBlocks_shrunk env clock _) ?_⟩
  rw [INode.count, INode.count]
  omega

/-- Entry `k` of directory `p` moved to directory `q`. -/
def moveEntry (env : Env) (d : Disk) (p k q : ℕ) : Disk :=
  (d.removeEntry p k ((d.inode p).shrunk env 2)).addEntry env (d.entryOf (d.inode p) k) 0 q

/-- **A move** takes the edge out of the one directory and puts it into the other. -/
theorem Sound.moveEntry (hd : d.Sound limit) {parent parent' : List Name} {name name' : Name}
    (h : d.CanRename parent parent' name name' p q i) (env : Env) (hk : k < (d.inode p).count)
    (hedge : (d.entryOf (d.inode p) k).edge = (name.fileName, i)) :
    (d.moveEntry env p k q).Sound limit ∧ ∃ g : NameGraph ℕ FileName,
      g.Similar (d.graph.remove p (name.fileName, i)) ∧
      (d.moveEntry env p k q).graph = g.insert q name.fileName i := by
  have hp := h.finds.isDir
  obtain ⟨hsound, hgraph⟩ := hd.removed env 2 hp h.small hk
  rw [hedge] at hgraph
  -- the new directory is as it was when the entry is appended
  have hinode : (d.removeEntry p k ((d.inode p).shrunk env 2)).inode q = d.inode q := by
    rw [inode_removeEntry h.dir.1, if_neg h.ne]
  have hq : (d.removeEntry p k ((d.inode p).shrunk env 2)).IsDir q :=
    ⟨h.dir.1, by rw [hinode]; exact h.dir.2⟩
  have hcount : ((d.removeEntry p k ((d.inode p).shrunk env 2)).inode q).count < 1536 := by
    rw [hinode]
    exact h.count_lt
  have hroom : (d.removeEntry p k ((d.inode p).shrunk env 2)).HasRoom
      ((d.removeEntry p k ((d.inode p).shrunk env 2)).inode q) := by
    rw [hinode]
    simpa only [HasRoom, HasBlock, dmap_removeEntry] using h.room
  have hname : (d.entryOf (d.inode p) k).fileName = name.fileName := congrArg Prod.fst hedge
  have hnumber : (d.entryOf (d.inode p) k).inodeNumber.toNat = i := congrArg Prod.snd hedge
  have hproper := hd.directories.graph.proper
  have hmem := NameGraph.mem_of_lookup h.finds.2
  refine ⟨hsound.addEntry hq hcount hroom hname.symm ?_ ?_ ?_ ?_ ?_,
    _, hgraph, ?_⟩
  · rw [hname, (hproper.remove p _).lookup_of_similar hgraph, hproper.lookup_remove hmem,
      if_neg fun hand => h.ne hand.1, h.fresh]
  · rw [hnumber]
    exact hd.directories.graph.target_lt p _ hmem
  · rw [hnumber, imap_removeEntry]
    exact hd.directories.graph.target_marked p _ hmem
  · rw [hnumber]
    exact hproper.root hmem
  · -- the only edge to the inode was the one removed
    rw [hnumber]
    intro r b hb
    obtain ⟨hold, hne⟩ := hproper.mem_remove.mp (hgraph.mem.mp hb)
    obtain ⟨rfl, rfl⟩ := hproper.eq_of_target hold hmem
    exact hne ⟨rfl, rfl⟩
  · rw [Disk.moveEntry, hsound.graph_addEntry hq hcount hroom, hname, hnumber]

end Disk

/-- The same where bits have been set before and are set behind it. -/
theorem MarkedFrom.of_removed {d s d' : Disk} {p k clock : ℕ} {env : Env} (hs : MarkedFrom d s)
    (hp : d.IsDir p) (hcount : (d.inode p).count ≤ 12) (hk : k < (d.inode p).count)
    (hmarks : Marks (s.removeEntry p k ((d.inode p).shrunk env clock)) d') :
    d'.Sound ∧ d'.graph.Similar (d.graph.remove p (d.entryOf (d.inode p) k).edge) := by
  have hsame := hs.marks.inode p hp.1
  obtain ⟨hsound, hgraph⟩ := hs.sound'.removed env clock ⟨hp.1, hsame ▸ hp.2⟩
    (by rw [hsame]; exact hcount) (by rw [hsame]; exact hk)
  rw [hsame] at hsound hgraph
  refine ⟨hsound.mark hmarks, ?_⟩
  rw [hmarks.graph]
  rwa [hs.marks.graph, Disk.entryOf_congr rfl (hs.marks.data _)] at hgraph

/-- **A safe call** returns, and keeps the invariant. -/
theorem Op.Safe.step {d : Disk} (hd : d.Sound) {op : Op} (h : op.Safe d) (env : Env) :
    ∃ r d', (op.prog env).run vdisk d = some (r, d') ∧ d'.Sound := by
  cases op with
  | create c behind =>
    obtain ⟨p, hp, hc⟩ := h
    refine ⟨0, _, ?_, hd.created env c.kind.mode hc⟩
    rw [Op.prog, Creation.prog_eq]
    exact run_fsCreate env c.kind.mode hd hp hc behind
  | write path behind buffer size offset =>
    obtain ⟨i, hi, hfile, hw⟩ := h
    exact ⟨_, _, run_fsWrite env hd hfile hw buffer hi behind,
      (Disk.FileChange.written hd hfile hw buffer).sound⟩
  | truncate path behind size =>
    obtain ⟨i, hi, hfile, hsize⟩ := h
    obtain ⟨s, hs, -, hrun⟩ := run_fsTruncate env hd hfile.lt
      (hd.directories.file i hfile.lt hfile.not_isDir) hi behind (show size ≤ 8437760 by omega)
    exact ⟨_, _, hrun, sound_truncated hs hfile hsize⟩
  | unlink parent name behind =>
    obtain ⟨hsplit, p, i, hfinds, hcount⟩ := h
    obtain ⟨k, s, d', hrun, hk, -, hs, hmarks⟩ :=
      run_fsUnlink env hd hfinds.isDir hcount hsplit hfinds.1 hfinds.2
    exact ⟨_, _, hrun, (hs.of_removed hfinds.isDir hcount hk hmarks).1⟩
  | rmdir parent name behind =>
    obtain ⟨hsplit, p, i, hfinds, hdir, hcount, hcount'⟩ := h
    obtain ⟨k, s, d', hrun, hk, -, hs, hmarks⟩ :=
      run_fsRmdir env hd hfinds.isDir hdir hcount hcount' hsplit hfinds.1 hfinds.2
    exact ⟨_, _, hrun, (hs.of_removed hfinds.isDir hcount hk hmarks).1⟩
  | rename parent name behind parent' name' behind' =>
    obtain ⟨hsplit, hsplit', p, q, i, hr⟩ := h
    obtain ⟨k, hk, hedge, hrun⟩ := run_fsRename env hd hr.finds.isDir hr.small hr.dir hr.ne
      hr.count_lt hr.room hsplit hsplit' hr.finds.1 hr.finds.2 hr.found hr.below
    exact ⟨_, _, hrun, (hd.moveEntry hr env hk hedge).1⟩

/-- **Every state of a safe run is sound.** -/
theorem SafeRun.sound {d : Disk} (h : SafeRun d) : d.Sound := by
  refine RunOf.invariant (I := fun d => d.Sound) h
    (fun env behind _ => Disk.sound_initial env behind)
    fun d op env r d' hd hsafe hcall => ?_
  obtain ⟨r', t, hrun, ht⟩ := Op.Safe.step hd hsafe env
  rw [hrun] at hcall
  obtain ⟨-, rfl⟩ := Prod.mk.inj (Option.some.inj hcall)
  exact ht

/-! ### Small runs -/

section Extend

variable {d d' : Disk}

theorem SafeRun.extend (h : SafeRun d) (op : Op) (hop : op.Safe d) {env : Env} {r : ℤ}
    (hcall : (op.prog env).run vdisk d = some (r, d')) : SafeRun d' := RunOf.step h hop hcall

/-- A run of allowed creations is safe. -/
theorem CreationRun.safeRun {log : List Created} (h : CreationRun log d) : SafeRun d := by
  induction h with
  | init h => exact .init trivial h
  | @step log d d' δ c env behind r e run allowed call entry ih =>
    obtain ⟨p, hp, hc⟩ := run.refines.canCreate allowed
    exact ih.extend (.create c behind) ⟨p, hp, hc⟩ call

/-- The state after a write. -/
theorem SafeRun.write (h : SafeRun d) {as : List Name} {i : ℕ}
    (hi : d.graph.resolve 4 (fileNames as) = some i) (hfile : d.IsFile i) {size offset : ℕ}
    (hw : d.CanWrite i size offset) (buffer : ℕ → Byte) :
      SafeRun (d.written i buffer size offset) :=
  h.extend (.write as plainMemory buffer size offset) ⟨i, hi, hfile, hw⟩
    (run_fsWrite plainEnv h.sound hfile hw buffer hi plainMemory)

/-- A root directory of `n` empty files, with many free blocks. -/
theorem exists_safeRun_files (n : ℕ) (hn : n ≤ 1536) : ∃ d, SafeRun d ∧
    31231 ≤ d.freeBlocks ∧ ∃ number : ℕ → ℕ, (∀ k < n, d.graph.resolve 4 (fileNames [nthName k]) =
      some (number k) ∧ d.IsFile (number k) ∧ (d.inode (number k)).stSize = 0 ∧
      ∀ r, (d.inode (number k)).ptr r = 0) ∧
      ∀ k < n, ∀ l < n, number k = number l → k = l := by
  obtain ⟨log, d, hrun, hchildren, hfree, hfiles⟩ := exists_creationRun_root n hn
  have hr := hrun.refines
  have hexists (k : ℕ) : ∃ m, k < n → d.graph.resolve 4 (fileNames [nthName k]) = some m ∧
      d.IsFile m ∧ (d.inode m).stSize = 0 ∧ ∀ r, (d.inode m).ptr r = 0 := by
    by_cases hk : k < n
    · have hmem : nthName k ∈ children log [] := by
        rw [hchildren]
        exact List.mem_map_of_mem (List.mem_range.mpr hk)
      obtain ⟨c, hc, hname⟩ := List.mem_map.mp hmem
      have hlog := (List.mem_filter.mp hc).1
      obtain ⟨hkind, hparent⟩ := hfiles c hlog
      have hpath : c.path = [nthName k] := by
        rw [Creation.path, hparent, hname, List.nil_append]
      have hresolve := hr.resolve c hlog
      refine ⟨c.number, fun _ => ⟨hpath ▸ hresolve, ⟨hr.number_lt hlog, hr.marked hlog,
        fun hdir => ?_⟩, hr.size c hlog hkind, hrun.ptr_eq_zero c hlog hkind⟩⟩
      have hmode := hdir.2
      rw [hr.mode c hlog, hkind] at hmode
      exact absurd hmode (by decide)
    · exact ⟨0, fun h => absurd h hk⟩
  choose number hnumber using hexists
  have hblocks := hr.free
  refine ⟨d, hrun.safeRun, by omega, number, hnumber, fun k hk l hl heq => ?_⟩
  have hsame := hr.sound.directories.graph.proper.resolve_inj (hnumber k hk).1
    ((hnumber l hl).1.trans (congrArg some heq.symm))
  have hname := List.map_injective_iff.mpr Name.fileName_injective hsame
  exact nthName_inj (by omega) (by omega) (List.cons.inj hname).1

end Extend

end InodeFs
