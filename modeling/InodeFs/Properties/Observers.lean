import InodeFs.Ops.ObservedContents
import InodeFs.Ops.PassingNames
import InodeFs.Properties.Service

/-!
# A request that writes, and others that do not

The threads of the process may serve any number of requests for files and directories while another
one changes the disk. No callback takes a lock, so that an observer sees blocks of the old disk and
blocks of the new one.

**What it may be answered** is `Callback.Glimpses`: `fs_getattr` answers as before or as after, a
listing has the names of before or those of after, and `fs_read` returns as many bytes as there
were, each of them old or new, or what is there after. `observed_beside` proves it of every safe
request that writes, any number of other requests that are safe before and after it, and every
order of their accesses.

The proof has a request that writes pass through a number of stages (`InodeFs.Ops.Passing`,
`InodeFs.Ops.PassingNames`), and an observer see each block in one of them, the stages never going
back. What an observer can make of such blocks is said by one lemma for each callback
(`Passage.getattr_observes`, `Passage.readdir_observes`, `Passage.read_observes`,
`Passage.open_observes`), and `InodeFs.Lib.Pool` puts any number of them beside the writer.

The bounds of `Callback.Glimpses` are met: in `observed_beside_crossed` a listing reads the record
of its directory before a file is made and the entries afterwards, and shows the names of before.
-/

namespace InodeFs

open Disk (Staged)

/-! ### Requests -/

/-- The requests that write to the disk. -/
def Callback.Writes : Callback → Prop
  | .change _ => True
  | .utime _ _ => True
  | _ => False

/-- **What a request that does not write may be answered** while the tree changes from `t` to
`t'`. -/
def Callback.Glimpses (env : Env) (t t' : FileTree) (answer : Answer) : Callback → Prop
  | .readdir path _ => ∃ names : List Name, answer = .listing 0 (names.map Name.chars) ∧
      ((∀ a, a ∈ names ↔ a ∈ t.children path) ∨ ∀ a, a ∈ names ↔ a ∈ t'.children path)
  | .read path _ _ size offset => ∃ bytes bytes' out, t.HasBytes path bytes ∧
      t'.HasBytes path bytes' ∧
      (answer = .bytes (min size bytes.length : ℕ) out ∧
          (∀ k < size, offset + k < bytes.length →
            bytes[offset + k]? = some (out k) ∨ bytes'[offset + k]? = some (out k)) ∨
        answer = .bytes (min size bytes'.length : ℕ) out ∧
          ∀ k < size, offset + k < bytes'.length → bytes'[offset + k]? = some (out k))
  | request => request.Admits env t answer t ∨ request.Admits env t' answer t'

/-- A request that does not write, with what it reads of its surroundings. -/
structure Observer where
  env : Env
  request : Callback
  reads : ¬ request.Writes

/-- Event `e` and the requests of observers, at their start: the one of no observer is the one that
writes. -/
def Disk.beside (d : Disk) (e : Event) {n : ℕ} (observers : Fin n → Observer) :
    Pool Disk Block Note Answer (Option (Fin n)) where
  device := d
  requests := fun
    | none => .start (e.request.operation.prog e.env)
    | some k => .start ((observers k).request.operation.prog (observers k).env)

/-! ### The request that writes -/

section Writer

variable {d d' : Disk}

/-- A safe call passes from the disk it finds to another one. -/
theorem Op.Safe.passes (hd : d.Sound) {op : Op} (h : op.Safe d) (env : Env) :
    ∃ d' r, d.Passes d' (op.prog env) r := by
  cases op with
  | create c behind =>
    obtain ⟨p, hp, hc⟩ := h
    rw [Op.prog, Creation.prog_eq]
    exact ⟨_, _, passes_fsCreate env c.kind.mode hd hp hc behind⟩
  | write path behind buffer size offset =>
    obtain ⟨i, hi, hfile, hw⟩ := h
    exact ⟨_, _, passes_fsWrite env buffer hd hfile hw hi behind⟩
  | truncate path behind size =>
    obtain ⟨i, hi, hfile, hsize⟩ := h
    obtain ⟨s, -, hpasses⟩ := passes_fsTruncate env hd behind hi hfile hsize
    exact ⟨_, _, hpasses⟩
  | unlink parent name behind =>
    obtain ⟨hsplit, p, i, hfinds, hcount⟩ := h
    obtain ⟨d', hpasses⟩ := passes_fsUnlink env hd hcount hsplit hfinds
    exact ⟨d', _, hpasses⟩
  | rmdir parent name behind =>
    obtain ⟨hsplit, p, i, hfinds, hdir, hcount, hcount'⟩ := h
    obtain ⟨d', hpasses⟩ := passes_fsRmdir env hd hcount hsplit hfinds hdir hcount'
    exact ⟨d', _, hpasses⟩
  | rename parent name behind parent' name' behind' =>
    obtain ⟨hsplit, hsplit', p, q, i, hr⟩ := h
    obtain ⟨d', hpasses⟩ := passes_fsRename env hd hsplit hsplit' hr
    exact ⟨d', _, hpasses⟩

/-- **A request that is served** passes from the disk it finds to the disk it leaves. -/
theorem Served.passes {e : Event} (h : Served d e d') (hd : d.Sound) (hwrites : e.request.Writes) :
    d.Passes d' (e.request.operation.prog e.env) e.answer := by
  suffices hpasses : ∃ s r, d.Passes s (e.request.operation.prog e.env) r by
    obtain ⟨s, r, hpasses⟩ := hpasses
    obtain ⟨rfl, rfl⟩ := Prod.mk.inj (Option.some.inj (hpasses.run.symm.trans h.2))
    exact hpasses
  obtain ⟨env, request, answer⟩ := e
  obtain ⟨hsafe, -⟩ := h
  cases request with
  | change op =>
    obtain ⟨s, r, hpasses⟩ := Op.Safe.passes hd hsafe env
    refine ⟨s, .code r, ?_⟩
    rw [Callback.operation, Op.prog_operation]
    exact hpasses.map Answer.code
  | utime path behind =>
    obtain ⟨x, hx⟩ := Option.ne_none_iff_exists'.mp hsafe
    obtain ⟨i, hi, -⟩ := Disk.exists_of_tree hx
    exact ⟨_, _, (passes_fsUtime env hd behind hi).map fun r => Answer.times r.1 r.2⟩
  | getattr path behind => exact hwrites.elim
  | readdir path behind => exact hwrites.elim
  | read path behind buffer size offset => exact hwrites.elim
  | statfs => exact hwrites.elim
  | openFile path behind => exact hwrites.elim
  | release path behind => exact hwrites.elim
  | opendir path behind => exact hwrites.elim
  | releasedir path behind => exact hwrites.elim

end Writer

/-! ### The request that observes -/

namespace Disk

variable {d d' : Disk} {At : ℕ → Disk → Prop} {as : List Name} {a : Name}

/-- What `fs_getattr` shows is an answer that the tree admits. -/
theorem admits_statAt (e : Disk) (env : Env) (as : List Name) (behind : ℕ → Byte) :
    (Callback.getattr as behind).Admits env e.tree (.attributes (e.statAt as).1 (e.statAt as).2)
      e.tree := by
  refine ⟨rfl, ?_⟩
  rw [statAt]
  cases e.tree as <;> rfl

/-- The directory in which `fs_getattr` looks for the last component. -/
theorem Sound.exists_parent (hd : d.Sound) {behind : ℕ → Byte}
    (h : (Callback.getattr (as ++ [a]) behind).Safe d) :
    ∃ p, d.graph.resolve 4 (fileNames as) = some p ∧ d.IsDir p ∧ d.RoomFor p a := by
  rcases h with hne | ⟨bs, b, heq, hdir, hroom⟩
  · obtain ⟨x, hx⟩ := Option.ne_none_iff_exists'.mp hne
    obtain ⟨i, hi, -⟩ := exists_of_tree hx
    obtain ⟨p, hp, hlookup⟩ := NameGraph.resolve_map_concat.mp hi
    refine ⟨p, hp, isDir_of_lookup hlookup, fun hnone => ?_⟩
    rw [hlookup] at hnone
    cases hnone
  · obtain ⟨rfl, rfl⟩ := List.append_singleton_inj.mp heq
    obtain ⟨p, hp, hpdir⟩ := exists_of_isDirectory hdir
    rw [hd.ncard_children hp hpdir] at hroom
    exact ⟨p, hp, hpdir, fun _ => hroom⟩

section Observer

variable (env : Env) (h : Passage d d' At) {j : ℕ} (behind : ℕ → Byte)
include h

theorem Passage.getattr_observes (hplain : d.Plain) (hplain' : d'.Plain)
    (hsafe : (Callback.getattr as behind).Safe d) (hsafe' : (Callback.getattr as behind).Safe d') :
    (fsGetattr env (pathString as behind)).Observes vdisk At j fun r _ =>
      r = d.statAt as ∨ r = d'.statAt as := by
  cases as using List.reverseRecOn with
  | nil => exact h.fsGetattr_root_observes env hplain hplain' behind
  | append_singleton as a =>
    obtain ⟨p, hp, hdir, hroom⟩ := h.sound.exists_parent hsafe
    obtain ⟨p', hp', hdir', hroom'⟩ := h.sound'.exists_parent hsafe'
    obtain rfl := h.resolve_eq hp hp'
    exact h.fsGetattr_observes env hplain hplain' behind hp hp' hdir hdir' hroom hroom'

theorem Passage.readdir_observes (hdir : d.tree.IsDirectory as) (hdir' : d'.tree.IsDirectory as) :
    (fsReaddir env (pathString as behind)).Observes vdisk At j fun r _ =>
      (Callback.readdir as behind).Glimpses env d.tree d'.tree (.listing r.1 r.2) := by
  obtain ⟨p, hp, hpdir⟩ := exists_of_isDirectory hdir
  obtain ⟨p', hp', hpdir'⟩ := exists_of_isDirectory hdir'
  obtain rfl := h.resolve_eq hp hp'
  refine (h.fsReaddir_observes env behind hp hp' hpdir hpdir').mono ?_
  rintro _ _ ⟨names, rfl, hmem⟩
  exact ⟨names, rfl, hmem⟩

theorem Passage.read_observes {bytes bytes' : List Byte} (hbytes : d.tree.HasBytes as bytes)
    (hbytes' : d'.tree.HasBytes as bytes') (buffer : ℕ → Byte) {size offset : ℕ}
    (hend : offset + size ≤ 8437760) :
    (fsRead env (pathString as behind) buffer size offset).Observes vdisk At j fun r _ =>
      (Callback.read as behind buffer size offset).Glimpses env d.tree d'.tree
        (.bytes r.1 r.2) := by
  obtain ⟨i, hi, hfile, rfl⟩ := h.sound.exists_isFile hbytes
  obtain ⟨i', hi', hfile', rfl⟩ := h.sound'.exists_isFile hbytes'
  obtain rfl := h.resolve_eq hi hi'
  refine (h.fsRead_observes env behind buffer hi hi' hfile hfile' hend).mono fun r _ hr => ?_
  refine ⟨_, _, r.2, hbytes, hbytes', hr.imp (fun hr => ?_) fun hr => ?_⟩
  · exact ⟨by rw [hr.1], hr.2⟩
  · exact ⟨by rw [hr.1], hr.2⟩

theorem Passage.open_observes (hne : d.tree as ≠ none) (hne' : d'.tree as ≠ none) :
    (fsOpen env (pathString as behind)).Observes vdisk At j fun r _ => r = 0 := by
  obtain ⟨x, hx⟩ := Option.ne_none_iff_exists'.mp hne
  obtain ⟨x', hx'⟩ := Option.ne_none_iff_exists'.mp hne'
  obtain ⟨i, hi, -⟩ := exists_of_tree hx
  obtain ⟨i', hi', -⟩ := exists_of_tree hx'
  obtain rfl := h.resolve_eq hi hi'
  have hpath : (pathString as behind).chars = pathChars as := rfl
  rw [fsOpen, hpath]
  refine (h.understandThePath_observes env hi hi').bind ?_
  rintro _ k ⟨rfl, -⟩
  refine (justReadInodeFromDisk_observes env (h.sound.lt_of_named (named_of_resolve hi))).bind ?_
  exact fun _ _ _ => Prog.observes_ret.mpr rfl

omit h in
theorem fsStatfs_observes : (fsStatfs env).Observes vdisk At j fun r _ =>
    ∃ stat, r = (0, stat) ∧ stat.fBsize = 4096 ∧ stat.fBlocks = 65536 ∧ stat.fBfree = 0 ∧
      stat.fBavail = 0 ∧ stat.fNamemax = 24 := by
  have hfree (k : ℕ) : (getFreeBlockSize env).Observes vdisk At k fun r _ => r = 0 := by
    refine (envRead_observes_any env _).bind fun b l _ => ?_
    refine (envRead_observes_any env _).bind fun b' m _ => Prog.observes_ret.mpr ?_
    rw [countLoop_eq (f := fun _ _ => 0)]
    · simp
    · intro i k number
      simp only [and_comparison_eq_zero, ne_eq, not_true_eq_false, if_false, Nat.add_zero]
  have hfiles (k : ℕ) : (getFileNumber env).Observes vdisk At k fun _ _ => True :=
    (envRead_observes_any env _).bind fun _ _ _ => Prog.observes_ret.mpr trivial
  refine (hfree j).bind ?_
  rintro _ k rfl
  refine (hfree k).bind ?_
  rintro _ l rfl
  refine (hfiles l).bind fun files m _ => (hfiles m).bind fun ffree m' _ => ?_
  refine (hfiles m').bind fun favail n _ => Prog.observes_ret.mpr ?_
  exact ⟨_, rfl, rfl, rfl, rfl, rfl, rfl⟩

end Observer

end Disk

/-- **A request that does not write** is answered as before, as after or as in between. -/
theorem Callback.Safe.observes {d d' : Disk} {At : ℕ → Disk → Prop} (h : Disk.Passage d d' At)
    (hplain : d.Plain) (hplain' : d'.Plain) {observer : Callback} (hreads : ¬ observer.Writes)
    (hbefore : observer.Safe d) (hafter : observer.Safe d') (env : Env) (j : ℕ) :
    (observer.operation.prog env).Observes vdisk At j fun answer _ =>
      observer.Glimpses env d.tree d'.tree answer := by
  cases observer with
  | change op => exact absurd trivial hreads
  | utime path behind => exact absurd trivial hreads
  | getattr path behind =>
    refine (h.getattr_observes env behind hplain hplain' hbefore hafter).map
      (fun r => Answer.attributes r.1 r.2) fun r _ hr => ?_
    rcases hr with rfl | rfl
    · exact .inl (d.admits_statAt env path behind)
    · exact .inr (d'.admits_statAt env path behind)
  | readdir path behind =>
    exact (h.readdir_observes env behind hbefore hafter).map (fun r => Answer.listing r.1 r.2)
      fun r _ hr => hr
  | read path behind buffer size offset =>
    obtain ⟨⟨bytes, hbytes⟩, hend⟩ := hbefore
    obtain ⟨⟨bytes', hbytes'⟩, -⟩ := hafter
    exact (h.read_observes env behind hbytes hbytes' buffer hend).map
      (fun r => Answer.bytes r.1 r.2) fun r _ hr => hr
  | statfs =>
    refine (Disk.fsStatfs_observes env).map (fun r => Answer.statistics r.1 r.2) ?_
    rintro _ _ ⟨stat, rfl, hstat⟩
    exact .inl ⟨rfl, stat, rfl, hstat⟩
  | openFile path behind =>
    refine (h.open_observes env behind hbefore hafter).map Answer.code ?_
    rintro _ _ rfl
    exact .inl ⟨rfl, rfl⟩
  | release path behind => exact Prog.observes_ret.mpr (.inl ⟨rfl, rfl⟩)
  | opendir path behind => exact Prog.observes_ret.mpr (.inl ⟨rfl, rfl⟩)
  | releasedir path behind => exact Prog.observes_ret.mpr (.inl ⟨rfl, rfl⟩)

/-! ### All of them in any order -/

/-- **A request that writes beside any number of others**, in any order of their accesses: the one
that writes answers as if it were alone and leaves the disk that it leaves alone, each of the others
has glimpsed what was there before, or after, or was just being written, and all return. -/
theorem observed_beside {l : List Event} {d d' : Disk} (h : ServiceRun l d) {e : Event}
    (hserved : Served d e d') (hwrites : e.request.Writes) {n : ℕ} {observers : Fin n → Observer}
    (hbefore : ∀ k, (observers k).request.Safe d) (hafter : ∀ k, (observers k).request.Safe d')
    {z : Pool Disk Block Note Answer (Option (Fin n))}
    (hz : (d.beside e observers).Reaches vdisk WriteRule.any z) :
    Acc (fun z' z => z.Step vdisk WriteRule.any z') z ∧
      (∀ k, (z.requests k).rest ≠ .undefined) ∧
      (∀ answer, (z.requests none).rest = .ret answer → answer = e.answer ∧ z.device = d') ∧
      (∀ k answer, (z.requests (some k)).rest = .ret answer →
        (observers k).request.Glimpses (observers k).env d.tree d'.tree answer) ∧
      ((∀ z', ¬ z.Step vdisk WriteRule.any z') →
        ∀ k, ∃ answer, (z.requests k).rest = .ret answer) := by
  obtain ⟨hd, hplain⟩ := h.sound
  obtain ⟨hproceeds, -⟩ := hserved.step hd hplain
  obtain ⟨stages, hpassage, hstart, hwriter⟩ := hserved.passes hd hwrites
  -- all of them start in the first stage
  have hstarted : (d.beside e observers).Watched vdisk (Staged stages) none
      (fun answer _ t => answer = e.answer ∧ t = d') fun k answer _ => ∀ m, k = some m →
        (observers m).request.Glimpses (observers m).env d.tree d'.tree answer := by
    refine ⟨0, hstart, hwriter, fun k hk => ⟨0, le_rfl, ?_⟩⟩
    obtain ⟨m, rfl⟩ := Option.ne_none_iff_exists'.mp hk
    refine ((hbefore m).observes hpassage hplain hproceeds.plain (observers m).reads (hafter m)
      (observers m).env 0).mono fun answer _ hanswer m' hm' => ?_
    rwa [← Option.some.inj hm']
  have hwatched := hstarted.reaches hz
  refine ⟨(Pool.wellFounded_step vdisk WriteRule.any).apply z, hwatched.ne_undefined,
    fun answer ha => ?_, fun k answer hb => ?_, fun hend k => ?_⟩
  · obtain ⟨-, hwritten⟩ := hwatched.writer_returned ha
    exact hwritten
  · obtain ⟨-, hglimpses⟩ := hwatched.reader_returned (Option.some_ne_none k) hb
    exact hglimpses k rfl
  · exact Pool.returned_of_not_step (hwatched.ne_undefined k) hend

/-- An observer that has begun when the other request comes to the disk, and goes on when that one
has returned. -/
theorem Served.reaches_between {d d' s : Disk} {e : Event} (h : Served d e d') {n : ℕ}
    (observers : Fin n → Observer) {k : Fin n} {γ : Type} {p : Fs γ} {f : γ → Fs Answer} {a : γ}
    {answer : Answer}
    (hk : (observers k).request.operation.prog (observers k).env = p >>= f)
    (hbegun : p.run vdisk d = some (a, d)) (hrest : (f a).run vdisk d' = some (answer, s)) :
    ∃ w z : Pool Disk Block Note Answer (Option (Fin n)),
      (d.beside e observers).Reaches vdisk WriteRule.any w ∧ w.device = d' ∧
        (w.requests none).rest = .ret e.answer ∧ (w.requests (some k)).rest = f a ∧
      w.Reaches vdisk WriteRule.any z ∧ (z.requests (some k)).rest = .ret answer := by
  have hother : some k ≠ none := Option.some_ne_none k
  -- the first part of the observer
  have hstart : (d.beside e observers).requests (some k) = ⟨p >>= f, fun _ => none⟩ := by
    rw [← hk]
    rfl
  obtain ⟨seen, hfirst⟩ := Pool.reaches_of_run_bind hstart hbegun
  -- all that the other request does
  have hrests : Function.update (d.beside e observers).requests (some k) ⟨f a, seen⟩ none =
      .start (e.request.operation.prog e.env) := Function.update_of_ne hother.symm _ _
  obtain ⟨seen', hsecond⟩ := Pool.reaches_of_run hrests h.2
  -- the rest of the observer
  obtain ⟨seen₃, hthird⟩ := Pool.reaches_of_run
    ((Function.update_of_ne hother _ _).trans (Function.update_self ..)) hrest
  refine ⟨_, _, hfirst.trans hsecond, rfl, ?_, ?_, hthird, ?_⟩
  · simp only [Function.update_self]
  · simp only [Function.update_of_ne hother, Function.update_self]
  · simp only [Function.update_self]

/-- The root is listed while the file `/a` is made: its record is read before, and the entry that
comes then is not in the answer. -/
theorem observed_beside_crossed : ∃ d e d' w z, ServiceRun [] d ∧ Served d e d' ∧
    e.request = .change (.create ⟨.file, [], letter 97⟩ plainMemory) ∧
    (d.beside e fun _ : Fin 1 => ⟨plainEnv, .readdir [] plainMemory, id⟩).Reaches vdisk
      WriteRule.any w ∧ w.device = d' ∧ (w.requests none).rest = .ret e.answer ∧
      (w.requests (some 0)).rest = (readdirRecord plainEnv (d.inode 4) >>= fun r =>
        pure (.listing r.1 r.2)) ∧
    w.Reaches vdisk WriteRule.any z ∧ (z.requests (some 0)).rest = .ret (.listing 0 []) ∧
    letter 97 ∈ d'.tree.children [] ∧
    (Callback.readdir [] plainMemory).Glimpses plainEnv d.tree d'.tree (.listing 0 []) := by
  have hrun := serviceRun_initial
  obtain ⟨hd, hplain⟩ := hrun.sound
  have hlists {d : Disk} (hd : d.Sound) : (Callback.readdir [] plainMemory).Safe d :=
    ⟨_, Disk.tree_nil, Disk.contents_of_isDir hd.directories.root⟩
  have hsafe : (Callback.change (.create ⟨.file, [], letter 97⟩ plainMemory)).Safe
      (.initial plainEnv fun _ => 0) :=
    ⟨4, rfl, Disk.canCreate_initial plainEnv (fun _ => 0) (letter 97)⟩
  obtain ⟨answer, d', hserved⟩ := hsafe.exists_served hd hplain plainEnv
  obtain ⟨hproceeds, -, hadmits⟩ := hserved.step hd hplain
  -- the record of the root, which holds no entry yet
  have hrecord : (understandThePath plainEnv (pathChars []) >>=
      justReadInodeFromDisk plainEnv).run vdisk (.initial plainEnv fun _ => 0) =
        some ((Disk.initial plainEnv fun _ => 0).inode 4, .initial plainEnv fun _ => 0) := by
    have hroot : (Disk.initial plainEnv fun _ => 0).graph.resolve 4 (fileNames []) = some 4 := rfl
    rw [Prog.run_bind_some _ (hd.walkable.run_understandThePath plainEnv hroot)]
    exact run_justReadInodeFromDisk plainEnv (by decide) _
  have hcount := Disk.count_initial plainEnv (fun _ => 0) 4
  have hshows : ShowsEntries (· = d') ((Disk.initial plainEnv fun _ => 0).inode 4) [] := by
    refine ⟨Nat.zero_le _, by omega, fun r _ => ?_, fun _ _ j hj => absurd hj (Nat.not_lt_zero j)⟩
    rw [Disk.ptr_initial]
    decide
  have hlisting := hshows.run_readdirRecord plainEnv hcount.symm fun e he =>
    absurd he List.not_mem_nil
  have hprog : (Callback.readdir [] plainMemory).operation.prog plainEnv =
      (understandThePath plainEnv (pathChars []) >>= justReadInodeFromDisk plainEnv) >>= fun x =>
        readdirRecord plainEnv x >>= fun r => pure (.listing r.1 r.2) := by
    rw [Callback.operation, FsOperation.prog, fsReaddir_eq, Prog.bind_assoc]
    rfl
  obtain ⟨w, z, hw, hdevice, hwriter, hobserver, hz, hreturns⟩ := hserved.reaches_between
    (fun _ : Fin 1 => ⟨plainEnv, .readdir [] plainMemory, id⟩) (k := 0) hprog hrecord
    (by rw [Prog.run_bind_some _ hlisting]; rfl)
  obtain ⟨-, -, -, hglimpses, -⟩ := observed_beside hrun hserved trivial (fun _ => hlists hd)
    (fun _ => hlists hproceeds.sound) (hw.trans hz)
  refine ⟨_, _, d', w, z, hrun, hserved, rfl, hw, hdevice, hwriter, hobserver, hz, hreturns, ?_,
    hglimpses 0 _ hreturns⟩
  rw [FileTree.mem_children, hadmits]
  simp [PathTree.set_apply, Creation.path]

end InodeFs
