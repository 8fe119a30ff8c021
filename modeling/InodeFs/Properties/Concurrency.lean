import InodeFs.Ops.Serial
import InodeFs.Properties.Paths
import InodeFs.Properties.Runs

/-!
# Two creations at the same time

`main` starts the file system with several threads, and no operation takes a lock: the accesses of
two requests come in any order. `CanMeet` says when two creations in different directories are
both due, and `KeepsBoth` what both of them have left when they have returned: two inodes, two
entries that are found, in two blocks.

**The order decides.** Whatever the two creations are, some order of their accesses gives both
entries one inode (`CanMeet.race`): the map is read by both before either writes it. In all
orders in which a write undoes nothing (`upToDate`) both creations are kept
(`concurrent_creations`), which `Disk.Joint` carries from step to step.

The proof takes the two apart. `findNumbers` is a creation up to the inode number it finds, which
only reads, and `createWith` what it does with the number, which does not look whether that is still
free. The race is the order in which both find before one creates. For the orders without a stale
write the rest of each creation is followed through the phases of `InodeFs.Ops.Serial`, and
`Parents.prog_serves` says what each leaves to the other: the walks and the blocks of its directory
are kept, and the maps are seen as they are at the read before a write.

An order that obeys the rule need not be serial. In `CanMeet.crossed` both walk to their directories
before either of them writes.
-/

namespace InodeFs

/-- A call of `fs_mknod` or `fs_mkdir`, with what it reads of its surroundings. -/
structure Call where
  creation : Creation
  env : Env
  behind : ℕ → Byte

/-- The program of the call. -/
def Call.prog (x : Call) : Fs ℤ := x.creation.prog x.env x.behind

/-- Two calls at their start. -/
def Disk.meet (d : Disk) (x y : Call) : Pair Disk Block Note ℤ := ⟨d, .start x.prog, .start y.prog⟩

namespace Disk

variable (d : Disk)

/-- The creation of the call is due in directory `p`. -/
structure Awaits (x : Call) (p : ℕ) : Prop where
  parent : d.graph.resolve 4 (fileNames x.creation.parent) = some p
  can : d.CanCreate p x.creation.name

/-- **Two creations that are both due**, in different directories, with an inode and a block for
each. -/
structure CanMeet (x y : Call) (p q : ℕ) : Prop where
  left : d.Awaits x p
  right : d.Awaits y q
  ne : p ≠ q
  inodes : 2 ≤ d.freeInodes
  blocks : 2 ≤ d.freeBlocks

/-- The block of the entry that directory `p` of `d` gets on `t`. -/
def newBlock (p : ℕ) (t : Disk) : ℕ := (t.inode p).ptr ((d.inode p).count / 128)

/-- **A creation is kept** on `t`: inode `k` was free and is the new one, its entry is the last of
directory `p`, in a marked block that was free if the directory needed one, and the path of the
call leads to it. -/
structure Keeps (x : Call) (p k : ℕ) (t : Disk) : Prop where
  lt : k < 32768
  free : d.imap k = false
  marked : t.imap k = true
  record : t.inode k = freshINode x.env x.creation.kind.mode k (d.inode k)
  entries : t.entriesOf (t.inode p) =
    d.entriesOf (d.inode p) ++ [⟨x.creation.name.fileName, BitVec.ofInt 32 k⟩]
  block_free : (d.inode p).count % 128 = 0 → d.dmap (d.newBlock p t) = false
  block_marked : t.dmap (d.newBlock p t) = true
  found : ∀ env : Env, (understandThePath env (pathChars x.creation.path)).run vdisk t =
    some ((k : ℤ), t)

/-- **Both creations are kept**, each with its own inode and its own block. -/
def KeepsBoth (x y : Call) (p q : ℕ) (t : Disk) : Prop :=
  ∃ k l, k ≠ l ∧ d.newBlock p t ≠ d.newBlock q t ∧ d.Keeps x p k t ∧ d.Keeps y q l t

/-! ### What a creation leaves -/

section Finished

variable {d} {env : Env} {mode : BitVec 32} {name : FileName} {p q k b : ℕ} {l' : List Change}
  {t : Disk}

theorem setInode_mem_creationChanges {i : ℕ} {x : INode} :
    Change.setInode i x ∈ d.creationChanges env mode p k b name ↔
      i = k ∧ x = freshINode env mode k (d.inode k) ∨
        i = p ∧ x = (d.mountedRecord p b).grown env 3 := by
  simp [creationChanges]

theorem setData_mem_creationChanges {i : ℕ} {content : Block} :
    Change.setData i content ∈ d.creationChanges env mode p k b name ↔
      i = b ∧ content = (d.data b).setEntry (d.inode p).count ⟨name, BitVec.ofInt 32 k⟩ := by
  rw [creationChanges, storeChanges]
  split <;> simp

theorem coverInode_mem_creationChanges :
    Change.coverInode k ∈ d.creationChanges env mode p k b name := by
  simp [creationChanges]

variable (hd : d.Parents p q) (hj : d.Joint p q (d.creationChanges env mode p k b name) l' t)
  (hk : k < 32768) (hb : d.Takes p b)
include hd hj

omit hd in
/-- The new inode was free. -/
theorem Joint.free_new : d.imap k = false :=
  (hj.left.permits _ coverInode_mem_creationChanges).2

theorem Joint.ne_new : p ≠ k := by
  rintro rfl
  have hmarked := (hd.sound.directories.dir p hd.left).marked
  rw [hj.free_new] at hmarked
  cases hmarked

include hk in
theorem Joint.inode_new : t.inode k = freshINode env mode k (d.inode k) := by
  rw [hj.eq]
  refine inode_applyAll_of_mem hk (setInode_mem_creationChanges.mpr (.inl ⟨rfl, rfl⟩))
    fun y hy => ?_
  rcases setInode_mem_creationChanges.mp hy with ⟨-, hy⟩ | ⟨hkp, -⟩
  · exact hy
  · exact absurd hkp.symm (hj.ne_new hd)

theorem Joint.inode_grown : t.inode p = (d.mountedRecord p b).grown env 3 := by
  rw [hj.eq]
  refine inode_applyAll_of_mem hd.left.1 (setInode_mem_creationChanges.mpr (.inr ⟨rfl, rfl⟩))
    fun y hy => ?_
  rcases setInode_mem_creationChanges.mp hy with ⟨hpk, -⟩ | ⟨-, hy⟩
  · exact absurd hpk (hj.ne_new hd)
  · exact hy

omit hd in
theorem Joint.data_new :
    t.data b = (d.data b).setEntry (d.inode p).count ⟨name, BitVec.ofInt 32 k⟩ := by
  rw [hj.eq]
  exact data_applyAll_of_mem (fun c hc => (hj.left.permits c hc).inRange)
    (setData_mem_creationChanges.mpr ⟨rfl, rfl⟩) fun _ h => (setData_mem_creationChanges.mp h).2

include hb in
theorem Joint.newBlock_eq : d.newBlock p t = b := by
  have hlt := hb.1
  rw [newBlock, hj.inode_grown hd, (INode.sameBlocks_grown env 3 _).ptr,
    ptr_mountedRecord hd.count_left (by omega)]
  by_cases h0 : (d.inode p).count % 128 = 0
  · rw [if_pos ⟨h0, rfl⟩]
  · rw [if_neg fun h => h0 h.1]
    exact (hb.2 h0).symm

include hb in
/-- **The entry is the last one** of the directory. -/
theorem Joint.entriesOf_eq : t.entriesOf (t.inode p) =
    d.entriesOf (d.inode p) ++ [⟨name, BitVec.ofInt 32 k⟩] := by
  have hcount : (t.inode p).count = (d.inode p).count + 1 := by
    rw [hj.inode_grown hd]
    exact count_grown_mountedRecord hd.count_left (hd.sound.directories.dir p hd.left).size_eq env
  have hshows := hd.showsEntries p hd.left (t.inode p) ⟨t, ⟨_, _, hj⟩, rfl⟩
  rw [entriesOf_append hcount fun j hlt => ?_, entryOf]
  · have hptr : (t.inode p).ptr ((d.inode p).count / 128) = b := hj.newBlock_eq hd hb
    rw [hptr, hj.data_new, Block.entry_setEntry, if_pos rfl]
  · have hentry := hshows.entry t ⟨_, _, hj⟩ j (by rwa [length_entriesOf])
    rwa [getElem_entriesOf] at hentry

include hk hb in
/-- **The entry is found** by a lookup of its path. -/
theorem Joint.run_understandThePath {as : List Name} {a : Name} (hname : name = a.fileName)
    (hresolve : d.graph.resolve 4 (fileNames as) = some p)
    (hfresh : d.graph.lookup p a.fileName = none) (env' : Env) :
    (understandThePath env' (pathChars (as ++ [a]))).run vdisk t = some ((k : ℤ), t) := by
  have hmoment : ∀ s, s = t → d.Moment p q s := fun s hs => hs ▸ ⟨_, _, hj⟩
  have hshow (r : ℕ) (hr : d.IsDir r) (x : INode) (hx : Sighted (· = t) r x) :
      ShowsEntries (· = t) x (d.entriesOf (d.inode r)) := by
    obtain ⟨s, hs, rfl⟩ := hx
    exact (hd.showsEntries r hr _ ⟨s, hmoment s hs, rfl⟩).subset hmoment
  refine (understandThePath_concat_yields env' hshow hd.sound.walkable.number_lt hresolve
    fun x hx => ?_).run_eq rfl
  have hold := hshow p hd.left x hx
  obtain ⟨s, hs, rfl⟩ := hx
  rw [hs] at hold ⊢
  have hshow' := showsEntries_entriesOf (d := t) hold.count_le hold.ptr_lt
  rw [hj.entriesOf_eq hd hb] at hshow'
  rw [lookup_graph hd.left, Option.map_eq_none_iff] at hfresh
  have hfind : (d.entriesOf (d.inode p) ++ [DictioryContent.mk name (BitVec.ofInt 32 k)]).find?
      (fun e : DictioryContent => e.fileName = a.fileName) = some ⟨name, BitVec.ofInt 32 k⟩ := by
    rw [List.find?_append, hfresh]
    simp [hname]
  have hyields := findFileInDict_yields env' hshow' hfind
  rwa [toInt_ofInt_natCast (by omega)] at hyields

end Finished

section Finished

variable {d} {x : Call} {p q k b : ℕ} {l' : List Change} {t : Disk} (hd : d.Parents p q)
  (hx : d.Awaits x p)
  (hj : d.Joint p q (d.creationChanges x.env x.creation.kind.mode p k b x.creation.name.fileName)
    l' t) (hk : k < 32768) (hb : d.Takes p b)
include hd hx hj hk hb

/-- A creation that has made its changes is kept. -/
theorem Joint.keeps : d.Keeps x p k t where
  lt := hk
  free := hj.free_new
  marked := hj.left.marked _ coverInode_mem_creationChanges
  record := hj.inode_new hd hk
  entries := hj.entriesOf_eq hd hb
  block_free h0 := by
    rw [hj.newBlock_eq hd hb]
    refine (hj.left.permits (.coverData b) ?_).2
    simp [creationChanges, storeChanges, h0]
  block_marked := by
    rw [hj.newBlock_eq hd hb]
    exact hj.left.marked _ (setData_mem_creationChanges.mpr ⟨rfl, rfl⟩)
  found := hj.run_understandThePath hd hk hb rfl hx.parent hx.can.fresh

end Finished

end Disk

/-! ### Interleavings -/

namespace Disk

variable {d : Disk} {x y : Call} {p q : ℕ}

theorem CanMeet.parents (h : d.CanMeet x y p q) (hd : d.Sound) : d.Parents p q where
  sound := hd
  left := h.left.can.dir
  right := h.right.can.dir
  ne := h.ne
  count_left := h.left.can.count_lt
  count_right := h.right.can.count_lt
  blocks := exists_two_of_clearBelow h.blocks

/-- A call beside another one in a different directory. -/
theorem Parents.prog_serves (hd : d.Parents p q) (hx : d.Awaits x p) (seen : ℤ → Option Block) :
    d.Serves p q x.prog seen [] d fun r _ l _ => r = 0 ∧ ∃ k b, k < 32768 ∧ d.imap k = false ∧
      d.Takes p b ∧
        l = d.creationChanges x.env x.creation.kind.mode p k b x.creation.name.fileName := by
  rw [Call.prog, Creation.prog_eq]
  exact fsCreate_serves x.env x.creation.kind.mode hd hx.parent x.behind

end Disk

/-- **Two creations in any order of their accesses**: where no write undoes anything, what one has
written stays, and when both have run to their ends both are kept. -/
theorem concurrent_creations {d : Disk} (hd : SafeRun d) {x y : Call} {p q : ℕ}
    (h : d.CanMeet x y p q) {z : Pair Disk Block Note ℤ}
    (hz : (d.meet x y).Reaches vdisk upToDate z) :
    Acc (fun z' z => z.Step vdisk WriteRule.any z') z ∧
      (z.left.rest ≠ .undefined ∧ z.right.rest ≠ .undefined) ∧
      (∀ z', z.Reaches vdisk upToDate z' → d.Lasts z.device z'.device) ∧
      ((∀ z', ¬ z.Step vdisk WriteRule.any z') →
        z.left.rest = .ret 0 ∧ z.right.rest = .ret 0 ∧ d.KeepsBoth x y p q z.device) := by
  have hparents := h.parents hd.sound
  have hsymm : (fun l' l => d.Joint p q l l') = d.Joint q p := by
    funext l' l s
    exact propext ⟨Disk.Joint.symm, Disk.Joint.symm⟩
  have hrefl := Disk.Lasts.refl d
  have hstart := hparents.prog_serves h.left (fun _ => none)
  have hstart' := hparents.symm.prog_serves h.right (fun _ => none)
  rw [Disk.Serves, ← hsymm] at hstart'
  -- both start with nothing done and nothing seen
  have htogether : (d.meet x y).Together vdisk upToDate (d.Joint p q) d.Lasts _ _ :=
    ⟨[], [], d, d, Disk.joint_nil d p q, hrefl d, hrefl d, hstart, hstart'⟩
  obtain ⟨hjoint, -⟩ := htogether.reaches hrefl Disk.Lasts.trans hz
  have hdefined := hjoint.ne_undefined
  refine ⟨(Pair.wellFounded_step vdisk WriteRule.any).apply z, hdefined,
    fun z' hz' => (hjoint.reaches hrefl Disk.Lasts.trans hz').2, fun hend => ?_⟩
  -- where neither can take a step both have returned
  obtain ⟨⟨r, hr⟩, ⟨r', hr'⟩⟩ := Pair.returned_of_not_step hdefined.1 hdefined.2 hend
  obtain ⟨l, l', s, s', hj, -, -, ⟨rfl, k, b, hk, -, hb, rfl⟩, ⟨rfl, k', b', hk', -, hb', rfl⟩⟩ :=
    hjoint.returned hr hr'
  refine ⟨hr, hr', k, k', fun hkk => ?_, fun hbb => ?_, hj.keeps hparents h.left hk hb,
    hj.symm.keeps hparents.symm h.right hk' hb'⟩
  · exact hj.disjoint _ Disk.coverInode_mem_creationChanges _ Disk.coverInode_mem_creationChanges
      (congrArg Part.inode hkk)
  · rw [hj.newBlock_eq hparents hb, hj.symm.newBlock_eq hparents.symm hb'] at hbb
    exact hj.disjoint _ (Disk.setData_mem_creationChanges.mpr ⟨rfl, rfl⟩) _
      (Disk.setData_mem_creationChanges.mpr ⟨rfl, rfl⟩) (congrArg Part.block hbb)

/-! ### The race for an inode -/

section Race

variable (env : Env) (mode : BitVec 32)

/-- A creation up to the inode number it finds, with the parent's number. -/
def findNumbers (dictPath : List Byte) : Fs (ℤ × ℤ) := do
  let fatherInodeNumber ← understandThePath env dictPath
  let newInodeNumber ← findEmptyInode env
  .ret (fatherInodeNumber, newInodeNumber)

/-- What a creation does with the two numbers. -/
def createWith (name : FileName) (numbers : ℤ × ℤ) : Fs ℤ := do
  let newInodeNumber ← initialiseINode env mode numbers.2
  let newFile : DictioryContent := ⟨name, BitVec.ofInt 32 newInodeNumber⟩
  Prog.note (.entry newFile) (pure ())
  mountInFather env numbers.1 newFile

theorem fsCreate_eq_findNumbers (as : List Name) (a : Name) (behind : ℕ → Byte) :
    fsCreate env (applyANewInodeWithMode env mode) (pathString (as ++ [a]) behind) =
      findNumbers env (pathChars as) >>= createWith env mode a.fileName := by
  rw [fsCreate, pathString, splitPath_eq, Prog.ret_bind, applyANewInodeWithMode_eq, findNumbers]
  simp only [Prog.bind_assoc, Prog.ret_bind, Name.fileNameOf_padTo30]
  rfl

variable {d : Disk} {p : ℕ}

theorem run_findNumbers (hd : d.Walkable) {as : List Name}
    (hresolve : d.graph.resolve 4 (fileNames as) = some p) :
    (findNumbers env (pathChars as)).run vdisk d = some (((p : ℤ), (d.nextInode : ℤ)), d) := by
  rw [findNumbers, Prog.run_bind, hd.run_understandThePath env hresolve, Option.bind_some,
    Prog.run_bind, run_findEmptyInode, Option.bind_some, Prog.run_ret]

/-- The rest does not look whether the number is still free. -/
theorem run_createWith (a : Name) {k : ℕ} (hk : k < 32768) (hp : p < 32768) (hne : p ≠ k)
    (hcount : (d.inode p).count < 1536) (hroom : d.HasRoom (d.inode p))
    (hptr : ∀ r < 12, (d.inode p).ptr r < 64508) :
    (createWith env mode a.fileName (p, k)).run vdisk d = some (0, d.created env mode p a k) := by
  have hinode : (d.withFreshInode env mode k).inode p = d.inode p := by
    rw [Disk.inode_withFreshInode, if_neg hne]
  rw [createWith, Prog.run_bind, run_initialiseINode env mode hk, Option.bind_some, Prog.note_bind,
    Prog.run_note, Prog.pure_eq_ret, Prog.ret_bind, run_mountInFather_eq env hp _
      (by rwa [hinode]) (by rw [hinode]; simpa [Disk.HasRoom, Disk.HasBlock] using hroom)
      (by rwa [hinode]), Disk.created]

end Race

namespace Disk

variable {d : Disk} {x y : Call} {p q : ℕ}

theorem CanMeet.symm (h : d.CanMeet x y p q) : d.CanMeet y x q p :=
  ⟨h.right, h.left, h.ne.symm, h.inodes, h.blocks⟩

/-- The disk that a call leaves which nobody disturbs. -/
def served (d : Disk) (x : Call) (p : ℕ) : Disk :=
  d.created x.env x.creation.kind.mode p x.creation.name d.nextInode

theorem Awaits.run_prog (h : d.Awaits x p) (hd : d.Sound) :
    x.prog.run vdisk d = some (0, d.served x p) := by
  rw [Call.prog, Creation.prog_eq]
  exact run_fsCreate x.env x.creation.kind.mode hd h.parent h.can x.behind

/-- After the one creation the other one is still due. -/
theorem CanMeet.awaits_served (h : d.CanMeet x y p q) (hd : d.Sound) :
    (d.served x p).Awaits y q := by
  have hgraph := hd.graph_created x.env x.creation.kind.mode h.left.can
  have hinode : (d.served x p).inode q = d.inode q :=
    inode_created_of_ne _ _ h.right.can.dir.1 h.ne.symm (h.right.can.ne_nextInode hd)
  have hinodes : (d.served x p).freeInodes + 1 = d.freeInodes :=
    freeInodes_created _ _ p _ h.left.can.inode
  have hblocks : d.freeBlocks ≤ (d.served x p).freeBlocks + 1 :=
    freeBlocks_created _ _ hd h.left.can
  have hinodes' := h.inodes
  have hblocks' := h.blocks
  refine ⟨?_, ⟨h.right.can.dir.1, hinode ▸ h.right.can.dir.2⟩, freeInodes_pos_iff.mp (by omega),
    hinode ▸ h.right.can.count_lt, ?_, fun _ => freeBlocks_pos_iff.mp (by omega)⟩
  · rw [served, hgraph]
    exact NameGraph.resolve_insert h.left.can.fresh h.right.parent
  · rw [served, hgraph, NameGraph.lookup_insert h.left.can.fresh,
      if_neg fun hand => h.ne hand.1.symm]
    exact h.right.can.fresh

end Disk

/-- **Every two creations race for an inode**: in some order of their accesses both return 0, and
one inode is taken. -/
theorem Disk.CanMeet.race {d : Disk} (hd : d.Sound) {x y : Call} {p q : ℕ}
    (h : d.CanMeet x y p q) : ∃ z, (d.meet x y).Reaches vdisk WriteRule.any z ∧
      z.left.rest = .ret 0 ∧ z.right.rest = .ret 0 ∧
      ∀ j < 32768, z.device.imap j = (d.imap j || decide (j = d.nextInode)) := by
  have hx := fsCreate_eq_findNumbers x.env x.creation.kind.mode x.creation.parent x.creation.name
    x.behind
  rw [← Creation.path, ← Creation.prog_eq, ← Call.prog] at hx
  have hk := d.nextInode_lt
  have hlt := h.left.can.dir.1
  have hdue := h.symm.awaits_served hd
  have hsound : (d.served y q).Sound := hd.created y.env y.creation.kind.mode h.right.can
  have hrest := run_createWith x.env x.creation.kind.mode x.creation.name hk hlt
    (h.left.can.ne_nextInode hd) hdue.can.count_lt hdue.can.room
    fun r _ => hsound.pointers.lt p hlt r
  have hany (s : Disk) (seen : ℤ → Option Block) (id : ℤ) (b : Block) :
      WriteRule.any s seen id b := trivial
  -- the first one finds the number, the second one runs, the first one goes on
  obtain ⟨_, seen, _, ⟨hnumbers, hdisk⟩, hfirst⟩ := (Prog.alone_of_run hany
    (fun _ => none) (run_findNumbers x.env hd.walkable h.left.parent)).reaches
      (f := createWith x.env x.creation.kind.mode x.creation.name.fileName) (.start y.prog)
  rw [hnumbers, hdisk, ← hx] at hfirst
  obtain ⟨_, seen', _, ⟨hzero, hdisk'⟩, hsecond⟩ := (Prog.alone_of_run hany
    (fun _ => none) (h.right.run_prog hd)).reaches_ret
      ⟨createWith x.env x.creation.kind.mode x.creation.name.fileName
        ((p : ℤ), (d.nextInode : ℤ)), seen⟩
  rw [hzero, hdisk'] at hsecond
  obtain ⟨_, seen'', _, ⟨rfl, rfl⟩, hthird⟩ := (Prog.alone_of_run hany seen
    hrest).reaches_ret ⟨.ret 0, seen'⟩
  refine ⟨_, (hfirst.trans hsecond.swap).trans hthird, rfl, rfl, fun j hj => ?_⟩
  rw [Disk.created, Disk.imap_addEntry, Disk.imap_withFreshInode hk hj, Disk.served,
    Disk.imap_created _ _ j hj, Bool.or_assoc, Bool.or_self]

/-- One inode is not enough for both. -/
theorem Disk.not_keepsBoth_of_imap {d t : Disk} {x y : Call} {p q k : ℕ}
    (himap : ∀ j < 32768, t.imap j = (d.imap j || decide (j = k))) : ¬ d.KeepsBoth x y p q t := by
  rintro ⟨i, j, hne, -, hi, hj⟩
  have heq {l : ℕ} {c : Call} {r : ℕ} (hl : d.Keeps c r l t) : l = k := by
    have hmarked := hl.marked
    rw [himap l hl.lt, hl.free, Bool.false_or, decide_eq_true_eq] at hmarked
    exact hmarked
  exact hne ((heq hi).trans (heq hj).symm)

/-! ### Crossed creations -/

/-- A call is the walk to its directory and what is done there. -/
theorem Call.prog_eq (x : Call) : x.prog =
    understandThePath x.env (pathChars x.creation.parent) >>= fun p =>
      createIn x.env (applyANewInodeWithMode x.env x.creation.kind.mode) p
        (padTo30 x.creation.name.chars) := by
  rw [Call.prog, Creation.prog_eq, fsCreate, pathString, Creation.path, splitPath_eq, Prog.ret_bind]
  rfl

/-- The walk to the directory obeys every rule: it only reads. -/
theorem Disk.Awaits.walk_alone {d : Disk} {x : Call} {p : ℕ} (h : d.Awaits x p) (hd : d.Sound) :
    (understandThePath x.env (pathChars x.creation.parent)).Alone vdisk upToDate (fun _ => none) d
      fun r _ t => r = p ∧ t = d := by
  have hinformed : (understandThePath x.env (pathChars x.creation.parent)).Informed vdisk settles
      ∅ d := (readOnly_understandThePath x.env _).informed
  exact hinformed.alone load_store_of_settles upToDate_of_settles
    (hd.walkable.run_understandThePath x.env h.parent) fun i hi => absurd hi (Set.notMem_empty i)

/-- What is done in the directory obeys the rule, whatever the walk has seen. -/
theorem Disk.Awaits.create_alone {d : Disk} {x : Call} {p : ℕ} (h : d.Awaits x p) (hd : d.Sound)
    (seen : ℤ → Option Block) :
    (createIn x.env (applyANewInodeWithMode x.env x.creation.kind.mode) p
        (padTo30 x.creation.name.chars)).Alone vdisk upToDate seen d
      fun r _ t => r = 0 ∧ t = d.served x p := by
  have hinformed : (createIn x.env (applyANewInodeWithMode x.env x.creation.kind.mode) p
      (padTo30 x.creation.name.chars)).Informed vdisk settles ∅ d :=
    createRest_settles x.env x.creation.kind.mode hd h.can
  have hrun := h.run_prog hd
  rw [Call.prog_eq, Prog.run_bind_some _ (hd.walkable.run_understandThePath x.env h.parent)] at hrun
  exact hinformed.alone load_store_of_settles upToDate_of_settles hrun
    fun i hi => absurd hi (Set.notMem_empty i)

/-- **Two crossed creations obey the rule**: both walk to their directories before either of them
writes, and both return. -/
theorem Disk.CanMeet.crossed {d : Disk} (hd : d.Sound) {x y : Call} {p q : ℕ}
    (h : d.CanMeet x y p q) : ∃ w z : Pair Disk Block Note ℤ,
      (d.meet x y).Reaches vdisk upToDate w ∧ w.Reaches vdisk upToDate z ∧ w.device = d ∧
      w.left.rest = createIn x.env (applyANewInodeWithMode x.env x.creation.kind.mode) p
        (padTo30 x.creation.name.chars) ∧
      w.right.rest = createIn y.env (applyANewInodeWithMode y.env y.creation.kind.mode) q
        (padTo30 y.creation.name.chars) ∧
      z.left.rest = .ret 0 ∧ z.right.rest = .ret 0 := by
  have hsound : (d.served x p).Sound := hd.created x.env x.creation.kind.mode h.left.can
  -- the two walks
  obtain ⟨_, seen, _, ⟨rfl, rfl⟩, hleft⟩ := (h.left.walk_alone hd).reaches
    (f := fun p => createIn x.env (applyANewInodeWithMode x.env x.creation.kind.mode) p
      (padTo30 x.creation.name.chars)) (.start y.prog)
  obtain ⟨_, seen', _, ⟨rfl, rfl⟩, hright⟩ := (h.right.walk_alone hd).reaches
    (f := fun q => createIn y.env (applyANewInodeWithMode y.env y.creation.kind.mode) q
      (padTo30 y.creation.name.chars)) ⟨createIn x.env (applyANewInodeWithMode x.env
        x.creation.kind.mode) p (padTo30 x.creation.name.chars), seen⟩
  rw [← Call.prog_eq] at hleft hright
  -- and then the one and the other
  obtain ⟨_, seen'', _, ⟨rfl, rfl⟩, hfirst⟩ := (h.left.create_alone hd seen).reaches_ret
    ⟨createIn y.env (applyANewInodeWithMode y.env y.creation.kind.mode) q
      (padTo30 y.creation.name.chars), seen'⟩
  obtain ⟨_, seen₃, _, ⟨rfl, rfl⟩, hsecond⟩ :=
    ((h.awaits_served hd).create_alone hsound seen').reaches_ret ⟨.ret 0, seen''⟩
  exact ⟨_, _, hleft.trans hright.swap, hfirst.trans hsecond.swap, rfl, rfl, rfl, rfl, rfl⟩

/-! ### Two creations after `mkdir /@@` -/

/-- `mknod /@A`. -/
def callInRoot : Call := ⟨⟨.file, [], nthName 1⟩, plainEnv, plainMemory⟩

/-- `mknod /@@/@A`. -/
def callInDirectory : Call := ⟨⟨.file, [nthName 0], nthName 1⟩, plainEnv, plainMemory⟩

theorem exists_canMeet : ∃ d q, SafeRun d ∧ d.CanMeet callInRoot callInDirectory 4 q := by
  have hne : nthName 1 ≠ nthName 0 := fun heq =>
    absurd (nthName_inj (by decide) (by decide) heq) (by decide)
  have hinodes := Disk.freeInodes_initial plainEnv fun _ => 0
  obtain ⟨k, d, hrun, hfree⟩ := CreationRun.exists_extend
    (.init (Disk.run_mkfs_zeroDisk plainEnv fun _ => 0)) (c := ⟨.directory, [], nthName 0⟩)
    ⟨.inl rfl, by decide, List.not_mem_nil, Disk.freeInodes_pos_iff.mp (by omega)⟩
  have hr := hrun.refines
  have hinode : d.HasInode := Disk.freeInodes_pos_iff.mp (by omega)
  obtain ⟨p, hp, hroot⟩ := hr.canCreate (c := callInRoot.creation)
    ⟨.inl rfl, by simp [callInRoot, children], by simpa [callInRoot, children] using hne, hinode⟩
  obtain rfl : 4 = p := Option.some.inj hp
  obtain ⟨q, hq, hdirectory⟩ := hr.canCreate (c := callInDirectory.creation)
    ⟨.inr ⟨_, List.mem_singleton.mpr rfl, rfl, rfl⟩, by simp [callInDirectory, children],
      by simp [callInDirectory, children], hinode⟩
  have hq4 : q ≠ 4 := by
    have hresolve : d.graph.resolve 4 ([] ++ [(nthName 0).fileName]) = some q := hq
    obtain ⟨r, -, hlookup⟩ := NameGraph.resolve_concat_eq_some.mp hresolve
    exact hr.sound.directories.graph.proper.root (NameGraph.mem_of_lookup hlookup)
  have hblocks := hr.free
  exact ⟨d, q, hrun.safeRun, ⟨hp, hroot⟩, ⟨hq, hdirectory⟩, hq4.symm, by omega, by omega⟩

/-- Where both have returned no step is left. -/
theorem not_step_of_returned {z : Pair Disk Block Note ℤ} (hleft : z.left.rest = .ret 0)
    (hright : z.right.rest = .ret 0) (z' : Pair Disk Block Note ℤ) :
    ¬ z.Step vdisk WriteRule.any z' := by
  intro h
  cases h with
  | left h => exact Request.not_step_of_ret hleft h
  | right h => exact Request.not_step_of_ret hright h

/-- Both look for their directories first, and then the one writes and the other. -/
theorem concurrent_creations_crossed : ∃ (d : Disk) (q : ℕ) (w z : Pair Disk Block Note ℤ),
    SafeRun d ∧
    (d.meet callInRoot callInDirectory).Reaches vdisk upToDate w ∧ w.device = d ∧
      w.left.rest = createIn plainEnv (applyANewInodeWithMode plainEnv regMode) 4
        (padTo30 (nthName 1).chars) ∧
      w.right.rest = createIn plainEnv (applyANewInodeWithMode plainEnv regMode) q
        (padTo30 (nthName 1).chars) ∧
    w.Reaches vdisk upToDate z ∧ z.left.rest = .ret 0 ∧ z.right.rest = .ret 0 ∧
      d.KeepsBoth callInRoot callInDirectory 4 q z.device := by
  obtain ⟨d, q, hd, h⟩ := exists_canMeet
  obtain ⟨w, z, hw, hz, hdevice, hleft, hright, hdone, hdone'⟩ := h.crossed hd.sound
  exact ⟨d, q, w, z, hd, hw, hdevice, hleft, hright, hz, hdone, hdone',
    ((concurrent_creations hd h (hw.trans hz)).2.2.2 (not_step_of_returned hdone hdone')).2.2⟩

/-- The two at the same time. -/
theorem not_concurrent_creations_race : ∃ d q z, SafeRun d ∧
    d.CanMeet callInRoot callInDirectory 4 q ∧
    (d.meet callInRoot callInDirectory).Reaches vdisk WriteRule.any z ∧ z.left.rest = .ret 0 ∧
      z.right.rest = .ret 0 ∧ ¬ d.KeepsBoth callInRoot callInDirectory 4 q z.device := by
  obtain ⟨d, q, hd, h⟩ := exists_canMeet
  obtain ⟨z, hz, hleft, hright, himap⟩ := h.race hd.sound
  exact ⟨d, q, z, hd, h, hz, hleft, hright, Disk.not_keepsBoth_of_imap himap⟩

end InodeFs
