import InodeFs.Properties.Creation
import InodeFs.Properties.Paths

/-!
# What the allocators hand out, and what a failed creation leaves

The allocators return 0 when their map is full, nobody looks at that value, and `fs_mknod` and
`fs_mkdir` test the size of a directory only behind all their writes. The results say for every
disk exactly when this does not show:

* `handsOutFree_iff`: a creation hands out a free inode, and reports a full inode map, exactly
  when the map has a clear bit;
* `allocation_valid_iff`: a data block is free and exists when it is handed out exactly when
  the map has a clear bit below 64508;
* `failed_creation_unchanged_iff`: a creation that fails changes nothing exactly when it does
  not fail, which is a matter of the parent's size.

What a creation hands out is seen twice: on the disk, where the record is initialised and the entry
is stored (`Disk.Initialised`, `Disk.Entered`), and in the note that the model's `fs_mknod` makes of
the number. Blocks are handed out by three functions, which `Taker` lists. A number handed out is
followed to where it goes: the next write marks it (`MarksNumber`), and what comes then puts it into
the record or into an index block (`PointsTo`). Both hold of every number, free or not
(`Taker.HandsOut.takenAndStored`), so that the result speaks of the disk and not of the note alone.

No error is among what the three functions can return for a full map: a record is returned in any
case, and `fs_write` looks at none of them. So the second half of what they should do never helps
(`Taker.Reports`).
-/

namespace InodeFs

variable (env : Env)

/-! ### A creation on any disk -/

section Anywhere

variable {env} {kind : Kind} {path : CString} {d : Disk} {dictPath : List Byte}
  {fileName : Fin 30 → Byte} {p : ℕ}

/-- A creation whose parent is found makes an inode and mounts its entry. -/
theorem run_call_eq (hsplit : splitPath path.chars = .ret (dictPath, fileName))
    (hwalk : (understandThePath env dictPath).run vdisk d = some ((p : ℤ), d)) :
    (kind.call env path).run vdisk d =
      (mountInFather env p ⟨fileNameOf fileName, BitVec.ofInt 32 d.nextInode⟩).run vdisk
        (d.withFreshInode env kind.mode d.nextInode) := by
  rw [Kind.call_eq, run_fsCreate_createIn env path hsplit hwalk, run_createIn_eq]

/-- The size of the parent decides the result, and grows by 32 whatever the result is. -/
theorem stSize_of_run_call (hsplit : splitPath path.chars = .ret (dictPath, fileName))
    (hwalk : (understandThePath env dictPath).run vdisk d = some ((p : ℤ), d)) (hp : p < 32768)
    {r : ℤ} {d' : Disk} (h : (kind.call env path).run vdisk d = some (r, d')) :
    (d'.inode p).stSize =
        ((d.withFreshInode env kind.mode d.nextInode).inode p).stSize + 32 ∧
      r = if (((d.withFreshInode env kind.mode d.nextInode).inode p).stSize + 32).toInt.tdiv 32 >
        128 * 12 then negENOSPC else 0 := by
  rw [run_call_eq hsplit hwalk, run_mountInFather env hp, Option.map_eq_some_iff] at h
  obtain ⟨q, hq, h⟩ := h
  have hsize := ((takesBlocks_addFileToDict env _ _ _) _).2 _ _ hq
  obtain ⟨hr, hd'⟩ := Prod.mk.inj h
  refine ⟨?_, by rw [← hr, hsize]⟩
  rw [← hsize, ← hd', Disk.inode, Function.update_self, Equiv.apply_symm_apply,
    Function.update_self]

theorem stSize_withFreshInode {mode : BitVec 32} {k : ℕ} :
    ((d.withFreshInode env mode k).inode p).stSize = if p = k then 0 else (d.inode p).stSize := by
  rw [Disk.inode_withFreshInode]
  split <;> rfl

end Anywhere

/-! ### Inodes -/

/-- On the way from disk `d` to disk `δ` inode `n`, which was free, has been marked and initialised,
and no other inode has been touched. -/
structure Disk.Initialised (d : Disk) (kind : Kind) (δ : Disk) (n : ℕ) : Prop where
  lt : n < 32768
  free : d.imap n = false
  marked : δ.imap n = true
  mode : (δ.inode n).stMode = kind.mode
  size : (δ.inode n).stSize = 0
  others : ∀ j < 32768, j ≠ n → δ.imap j = d.imap j ∧ δ.inode j = d.inode j

/-- On the way from disk `δ` to disk `d'` entry `e` has been put behind the entries of directory
`p`, and the other records have been left alone. -/
structure Disk.Entered (δ : Disk) (p : ℕ) (e : DictioryContent) (d' : Disk) : Prop where
  entry : d'.entryOf (d'.inode p) (δ.inode p).count = e
  others : ∀ j < 32768, j ≠ p → d'.inode j = δ.inode j

/-- No inode is handed out twice: the number in the new entry was free, its record is the one that
is initialised, and the entry gets to the disk where directory `p` has room for it; and a call that
finds the inode map full reports an error and leaves the disk as it was. -/
def HandsOutFree (kind : Kind) (path : CString) (p : ℕ) (d : Disk) : Prop :=
  (∀ δ e, (δ, .entry e) ∈ (kind.call env path).notes vdisk d →
    d.Initialised kind δ e.inodeNumber.toNat ∧
      ((δ.inode p).count < 1536 → δ.HasRoom (δ.inode p) → (∀ r < 12, (δ.inode p).ptr r < 64508) →
        ∃ d', (kind.call env path).run vdisk d = some (0, d') ∧ δ.Entered p e d')) ∧
  ((∀ i < 32768, d.imap i = true) → ∃ r < 0, (kind.call env path).run vdisk d = some (r, d))

/-- A free inode is initialised. -/
theorem Disk.HasInode.initialised {d : Disk} (h : d.HasInode) (env : Env) (kind : Kind) :
    d.Initialised kind (d.withFreshInode env kind.mode d.nextInode) d.nextInode where
  lt := d.nextInode_lt
  free := h.imap_nextInode
  marked := by simp [imap_withFreshInode d.nextInode_lt d.nextInode_lt]
  mode := by rw [inode_withFreshInode, if_pos rfl, freshINode]
  size := by rw [inode_withFreshInode, if_pos rfl, freshINode]
  others j hj hne := by
    rw [imap_withFreshInode d.nextInode_lt hj, inode_withFreshInode, if_neg hne]
    exact ⟨by simp [hne], rfl⟩

theorem add_ne_self (s : BitVec 64) : s + 32 ≠ s := by
  intro h
  simp at h

/-- **Inodes are handed out safely exactly when one is free.** -/
theorem handsOutFree_iff {kind : Kind} {path : CString} {d : Disk} {dictPath : List Byte}
    {fileName : Fin 30 → Byte} {p : ℕ}
    (hsplit : splitPath path.chars = .ret (dictPath, fileName))
    (hwalk : (understandThePath env dictPath).run vdisk d = some ((p : ℤ), d)) (hp : p < 32768) :
    HandsOutFree env kind path p d ↔ ∃ i < 32768, d.imap i = false := by
  constructor
  · rintro ⟨-, hfull⟩
    by_contra hnone
    have hset : ∀ i < 32768, d.imap i = true := fun i hi => by
      by_contra hclear
      exact hnone ⟨i, hi, by simpa using hclear⟩
    obtain ⟨r, hr, hrun⟩ := hfull hset
    obtain ⟨hsize, hresult⟩ := stSize_of_run_call hsplit hwalk hp hrun
    rw [stSize_withFreshInode] at hsize hresult
    -- the parent's record changes, unless it is the one that was reinitialised
    split at hsize
    · next heq =>
      rw [if_pos heq, if_neg (by decide)] at hresult
      omega
    · exact add_ne_self _ hsize.symm
  · intro hfree
    refine ⟨fun δ e he => ?_, fun hset => ?_⟩
    · rw [Kind.call_eq] at he
      obtain ⟨rfl, rfl⟩ := entry_of_mem_notes env hsplit he
      rw [d.toNat_newEntry]
      refine ⟨Disk.HasInode.initialised hfree env kind, fun hcount hroom hptr => ?_⟩
      have hcall := run_mountInFather_eq env hp
        ⟨fileNameOf fileName, BitVec.ofInt 32 d.nextInode⟩ hcount hroom hptr
      exact ⟨_, (run_call_eq hsplit hwalk).trans hcall, Disk.entryOf_addEntry hp,
        fun j hj hne => Disk.inode_addEntry_of_ne hj hne⟩
    · obtain ⟨i, hi, hclear⟩ := hfree
      rw [hset i hi] at hclear
      cases hclear

/-- The formatted disk with a full inode map. -/
def fullInodeMap : Disk := Function.update (Disk.initial plainEnv fun _ => 0) 1 fun _ => 255

theorem imap_fullInodeMap {i : ℕ} (hi : i < 32768) : fullInodeMap.imap i = true := by
  have h8 : i / 8 < 4096 := by omega
  have hbit : ∀ k : Fin 8, (255 : Byte).getLsbD (7 - k.val) = true := by decide
  rw [Disk.imap, fullInodeMap, Function.update_self, Block.bit, Block.get, dif_pos h8]
  exact hbit ⟨i % 8, by omega⟩

/-- `/a`. -/
def pathA : CString := pathString [letter 97] plainMemory

theorem splitPath_pathA : splitPath pathA.chars = .ret ([slash], padTo30 [97]) :=
  splitPath_eq [] (letter 97)

/-- With one inode free, `mknod /a` hands out a free one. -/
theorem handsOutFree_iff_initial :
    HandsOutFree plainEnv .file pathA 4 (Disk.initial plainEnv fun _ => 0) :=
  (handsOutFree_iff plainEnv splitPath_pathA (run_understandThePath_root plainEnv _)
    (by decide)).mpr ⟨0, by decide, by rw [Disk.imap_initial _ _ (by decide)]; rfl⟩

/-- With a full inode map, `mknod /a` hands out inode 0, which is in use. -/
theorem not_handsOutFree_fullInodeMap : ¬ HandsOutFree plainEnv .file pathA 4 fullInodeMap := by
  rintro ⟨hentry, -⟩
  have hmem := mem_notes_fsCreate plainEnv regMode pathA splitPath_pathA
    (run_understandThePath_root plainEnv fullInodeMap)
  obtain ⟨hinitialised, -⟩ := hentry _ _ hmem
  have hclear := hinitialised.free
  rw [imap_fullInodeMap hinitialised.lt] at hclear
  cases hclear

/-! ### Data blocks -/

/-- The three functions that take data blocks, with their arguments. -/
inductive Taker : Type
  | write (path : CString) (buffer : ℕ → Byte) (size offset : ℕ)
  | entry (clock : ℕ) (x : INode) (e : DictioryContent)
  | empty (rank : ℤ) (x : INode)

/-- Their work up to the record in which a block can be mounted. `fs_write` then stores that record
and looks at it. -/
def Taker.prog : Taker → Fs INode
  | write path buffer size offset => do
    let iNodeNumber ← understandThePath env path.chars
    let newFileInode ← justReadInodeFromDisk env iNodeNumber
    writeBlocks env buffer size offset newFileInode
  | entry clock x e => addFileToDict env clock x e
  | empty rank x => addNewEmptyBlockAccordingToRank env rank x

/-- The call reports an error; the two functions that return a record cannot. -/
def Taker.Reports (d : Disk) : Taker → Prop
  | write path buffer size offset =>
    ∃ r d', (fsWrite env path buffer size offset).run vdisk d = some (r, d') ∧ r < 0
  | entry _ _ _ => False
  | empty _ _ => False

/-- Run from `d`, the function hands out number `n` on disk `δ`, with `rest` left to run. -/
def Taker.HandsOut (t : Taker) (d δ : Disk) (n : ℤ) (rest : Fs INode) : Prop :=
  (δ, Note.block n, rest) ∈ (t.prog env).moments vdisk d

/-- The number had a clear bit, and its disk block exists. -/
def ValidBlock (δ : Disk) (n : ℤ) : Prop :=
  ∃ b : ℕ, n = b ∧ δ.dmap b = false ∧ 1028 + b < blockNum

/-- The next write sets bit `n` of the data map, and no other. -/
def MarksNumber (δ : Disk) (n : ℤ) (rest : Fs INode) : Prop :=
  ∃ w q, rest.firstWrite vdisk δ = some (w, q) ∧
    ∀ c : ℕ, c < 65536 → (vdisk.store δ w.1 w.2).dmap c = (δ.dmap c || decide ((c : ℤ) = n))

/-- The blocks in which the functions keep block numbers: the two index blocks, and the one that
`add_file_to_dict` takes for such a block. -/
def INode.IsIndexBlock (x : INode) (id : ℤ) : Prop :=
  (∃ k, id = datablockFindDiskId (x.indirectPointer k).toInt) ∨
    id = datablockFindDiskId (x.directPointer 0).toInt

/-- If the program returns, the number is in the record, or the next write stores it in one of the
record's index blocks. -/
def PointsTo (δ : Disk) (n : ℤ) (rest : Fs INode) : Prop :=
  ∀ x d', rest.run vdisk δ = some (x, d') →
    (∃ k, (x.directPointer k).toInt = n) ∨ (∃ k, (x.indirectPointer k).toInt = n) ∨
      ∃ w q, rest.firstWrite vdisk δ = some (w, q) ∧ x.IsIndexBlock w.1 ∧
        ∃ t, (w.2.ints t).toInt = n

/-- What follows the next write, which marks a number, stores `n`. -/
def StoresNumber (δ : Disk) (n : ℤ) (rest : Fs INode) : Prop :=
  ∃ w q, rest.firstWrite vdisk δ = some (w, q) ∧ PointsTo (vdisk.store δ w.1 w.2) n q

/-- Number `n` was free, it exists, and it is the one that is marked and stored; or the call reports
an error and stores no pointer. -/
def Taker.Good (t : Taker) (d δ : Disk) (n : ℤ) (rest : Fs INode) : Prop :=
  (ValidBlock δ n ∧ MarksNumber δ n rest ∧ StoresNumber δ n rest) ∨
    (t.Reports env d ∧ ¬ StoresNumber δ n rest)

/-! #### Marking -/

/-- The next write of the marking function. -/
theorem exists_firstWrite_makeDataMapCovered {b : ℕ} (hb : b < 65536) (d : Disk) :
    ∃ w, (makeDataMapCovered env b).firstWrite vdisk d = some (w, pure ()) ∧
      vdisk.store d w.1 w.2 = d.coverData b := by
  have hwrite (id : ℤ) (block : Block) :
      (diskWrite id block).firstWrite vdisk d = some ((id, block), pure ()) := rfl
  have hcover : ∃ w, (makeDataMapCovered env b).firstWrite vdisk d = some (w, pure ()) := by
    rw [makeDataMapCovered, dataMapPosition_natCast]
    simp only [Env.read, diskRead, Prog.read_bind, Prog.firstWrite, Prog.ret_bind]
    rw [run_orIntoMap env _ (by split <;> omega), Prog.ret_bind]
    exact ⟨_, hwrite _ _⟩
  obtain ⟨w, hw⟩ := hcover
  refine ⟨w, hw, ?_⟩
  have hrun := Prog.run_firstWrite vdisk hw
  rw [run_makeDataMapCovered env hb] at hrun
  exact (Prod.mk.inj (Option.some.inj hrun)).2.symm

/-- The number a program notes is the one that `find_empty_datablock` returns, and it is the one
that is marked and stored. -/
structure TakenAndStored (δ : Disk) (n : ℤ) (rest : Fs INode) : Prop where
  eq_nextData : n = δ.nextData
  marks : MarksNumber δ n rest
  stores : StoresNumber δ n rest

/-- A block that the program notes is taken and stored. -/
def StoresTaken (δ : Disk) : Note → Fs INode → Prop
  | .block n, rest => TakenAndStored δ n rest
  | .entry _, _ => True

/-- Every block that the program takes is stored in what it returns or writes. -/
abbrev KeepsTaken (p : Fs INode) : Prop := p.AtNotes vdisk StoresTaken

/-- What follows the two statements has to store the number. -/
theorem keepsTaken_takeDatablock {f : ℤ → Fs INode}
    (hstore : ∀ (b : ℕ) (δ : Disk), b < 65536 → PointsTo δ b (f b))
    (hrest : ∀ n, KeepsTaken (f n)) : KeepsTaken (takeDatablock env >>= f) := by
  intro δ m hm
  have hfind : (findEmptyDatablock env).moments vdisk δ = [] := by
    have hnone := Prog.map_moments vdisk (findEmptyDatablock env) δ
    rw [(readOnly_findEmptyDatablock env).notes_eq_nil] at hnone
    exact List.map_eq_nil_iff.mp hnone
  rw [takeDatablock_bind, Prog.moments_bind, hfind, run_findEmptyDatablock, Option.map_some,
    Option.getD_some, List.map_nil, List.nil_append] at hm
  have hlt := δ.nextData_lt
  rcases List.mem_cons.mp hm with rfl | hm
  · obtain ⟨w, hw, hstate⟩ := exists_firstWrite_makeDataMapCovered env hlt δ
    have hfirst : (makeDataMapCovered env δ.nextData >>= fun _ => f δ.nextData).firstWrite vdisk δ =
        some (w, f δ.nextData) := Prog.firstWrite_bind vdisk hw
    refine ⟨rfl, ⟨w, _, hfirst, fun c hc => ?_⟩, ⟨w, _, hfirst, hstore _ _ hlt⟩⟩
    rw [hstate, Disk.dmap_coverData hlt hc]
    exact congrArg _ (decide_eq_decide.mpr Int.natCast_inj.symm)
  · exact (sat_makeDataMapCovered env δ.nextData).atNotes_bind (fun _ _ => hrest _) δ m hm

/-! #### Storing -/

/-- A number below `2 ^ 16` comes back from the `int` it is stored in. -/
theorem toInt_update_number {b : ℕ} (hb : b < 65536) {n : ℕ} (f : Fin n → BitVec 32) (k : Fin n) :
    (Function.update f k (BitVec.ofInt 32 (b : ℤ)) k).toInt = b := by
  rw [Function.update_self]
  exact toInt_ofInt_natCast (by omega)

/-- Reading first changes nothing. -/
theorem pointsTo_bind {α : Type} {p : Fs α} (hp : p.ReadOnly) {f : α → Fs INode} {δ : Disk} {n : ℤ}
    (hf : ∀ a, PointsTo δ n (f a)) : PointsTo δ n (p >>= f) := by
  intro y t hrun
  obtain ⟨a, s, hread, hrest⟩ := (Prog.run_bind_eq_some vdisk).mp hrun
  obtain rfl := hp.run_state vdisk hread
  rw [hp.firstWrite_bind vdisk hread]
  exact hf a y t hrest

/-- The number is put in the record, and what follows leaves the record's first pointers alone. -/
theorem pointsTo_direct {x : INode} {rank : ℤ} {b : ℕ} (hb : b < 65536)
    {f : (Fin 12 → BitVec 32) → Fs INode}
    (hf : ∀ a s y t, (f a).run vdisk s = some (y, t) → ∀ k : Fin 12, (k : ℤ) ≤ rank →
      y.directPointer k = a k) (δ : Disk) :
    PointsTo δ b (Prog.assign x.directPointer rank (BitVec.ofInt 32 b) >>= f) := by
  intro y t hrun
  by_cases hrank : 0 ≤ rank ∧ rank < (12 : ℕ)
  · obtain ⟨k, rfl⟩ := Int.eq_ofNat_of_zero_le hrank.1
    have hk : k < 12 := by omega
    rw [Prog.assign_natCast _ hk, Prog.ret_bind] at hrun
    refine .inl ⟨⟨k, hk⟩, ?_⟩
    rw [hf _ _ _ _ hrun ⟨k, hk⟩ le_rfl]
    exact toInt_update_number hb _ _
  · rw [Prog.assign_eq_undefined _ hrank] at hrun
    cases hrun

/-- The number is put in an index block. -/
theorem pointsTo_index {numbers : Fin 1024 → BitVec 32} {bias id : ℤ} {b : ℕ} (hb : b < 65536)
    {g : Fs INode} (hg : ∀ s y t, g.run vdisk s = some (y, t) → y.IsIndexBlock id) (δ : Disk) :
    PointsTo δ b (Prog.assign numbers bias (BitVec.ofInt 32 b) >>= fun numbers =>
      writeInts id numbers >>= fun _ => g) := by
  intro y t hrun
  by_cases hbias : 0 ≤ bias ∧ bias < (1024 : ℕ)
  · obtain ⟨k, rfl⟩ := Int.eq_ofNat_of_zero_le hbias.1
    have hk : k < 1024 := by omega
    rw [Prog.assign_natCast _ hk, Prog.ret_bind] at hrun ⊢
    obtain ⟨_, s, -, hrest⟩ := (Prog.run_bind_eq_some vdisk).mp hrun
    refine .inr (.inr ⟨_, g, rfl, hg _ _ _ hrest, ⟨k, hk⟩, ?_⟩)
    rw [Equiv.apply_symm_apply]
    exact toInt_update_number hb _ _
  · rw [Prog.assign_eq_undefined _ hbias] at hrun
    cases hrun

/-- Mounting a block, when what follows leaves the pointers up to its rank alone. -/
theorem pointsTo_mount {x : INode} {rank : ℤ} {b : ℕ} (hb : b < 65536) {g : INode → Fs INode}
    (hg : ∀ y s z t, (g y).run vdisk s = some (z, t) →
      (∀ k : Fin 12, (k : ℤ) ≤ rank → z.directPointer k = y.directPointer k) ∧
        z.indirectPointer = y.indirectPointer) (δ : Disk) :
    PointsTo δ b (mountBlockToInodeAccordingToRank env rank b x >>= g) := by
  rw [mountBlockToInodeAccordingToRank]
  split
  · rw [Prog.bind_assoc]
    exact pointsTo_direct hb (fun a s y t hrun => (hg _ _ _ _ hrun).1) δ
  · simp only [Prog.bind_assoc]
    by_cases hindex : 0 ≤ rank.tdiv (1024 + 12) ∧ rank.tdiv (1024 + 12) < (2 : ℕ)
    · obtain ⟨k, hk⟩ := Int.eq_ofNat_of_zero_le hindex.1
      rw [hk, Prog.index_natCast _ (show k < 2 by omega), Prog.ret_bind]
      refine pointsTo_bind (readOnly_readInts env _) fun numbers => ?_
      refine pointsTo_index hb (fun s y t hrun => .inl ⟨⟨k, by omega⟩, ?_⟩) δ
      rw [(hg _ _ _ _ hrun).2]
    · intro y t hrun
      rw [Prog.index_eq_undefined _ hindex] at hrun
      cases hrun

/-- A mount changes no pointer but the one of its rank. -/
theorem pointers_of_run_mountBlock {rank n : ℤ} {x y : INode} {s t : Disk}
    (h : (mountBlockToInodeAccordingToRank env rank n x).run vdisk s = some (y, t)) :
    (∀ k : Fin 12, (k : ℤ) ≠ rank → y.directPointer k = x.directPointer k) ∧
      y.indirectPointer = x.indirectPointer := by
  rw [mountBlockToInodeAccordingToRank] at h
  split at h
  · by_cases hrank : 0 ≤ rank ∧ rank < (12 : ℕ)
    · obtain ⟨r, rfl⟩ := Int.eq_ofNat_of_zero_le hrank.1
      rw [Prog.assign_natCast _ (show r < 12 by omega), Prog.ret_bind] at h
      cases h
      exact ⟨fun k hk => Function.update_of_ne (fun heq => hk (by rw [heq])) _ _, rfl⟩
    · rw [Prog.assign_eq_undefined _ hrank] at h
      cases h
  · obtain ⟨_, _, -, h⟩ := (Prog.run_bind_eq_some vdisk).mp h
    obtain ⟨_, _, -, h⟩ := (Prog.run_bind_eq_some vdisk).mp h
    obtain ⟨_, _, -, h⟩ := (Prog.run_bind_eq_some vdisk).mp h
    obtain ⟨_, _, -, h⟩ := (Prog.run_bind_eq_some vdisk).mp h
    cases h
    exact ⟨fun _ _ => rfl, rfl⟩

/-! #### The three functions -/

/-- The loop over the following blocks mounts at their ranks only. -/
theorem pointers_of_run_writeLoop {buffer : ℕ → Byte} {size fuel wrote : ℕ} {rank : ℤ}
    {x y : INode} {s t : Disk}
    (h : (writeLoop env buffer size fuel rank wrote x).run vdisk s = some (y, t)) :
    (∀ k : Fin 12, (k : ℤ) < rank → y.directPointer k = x.directPointer k) ∧
      y.indirectPointer = x.indirectPointer := by
  induction fuel generalizing rank wrote x s with
  | zero =>
    rw [writeLoop] at h
    split at h
    · cases h
    · cases h
      exact ⟨fun _ _ => rfl, rfl⟩
  | succ fuel ih =>
    rw [writeLoop] at h
    split at h
    · obtain ⟨n, u, -, h⟩ := (Prog.run_bind_eq_some vdisk).mp h
      obtain ⟨z, v, hmount, h⟩ := (Prog.run_bind_eq_some vdisk).mp h
      obtain ⟨_, w, -, h⟩ := (Prog.run_bind_eq_some vdisk).mp h
      obtain ⟨hdirect, hindirect⟩ := ih h
      obtain ⟨hdirect', hindirect'⟩ := pointers_of_run_mountBlock env hmount
      exact ⟨fun k hk => (hdirect k (by omega)).trans (hdirect' k (by omega)),
        hindirect.trans hindirect'⟩
    · cases h
      exact ⟨fun _ _ => rfl, rfl⟩

theorem keepsTaken_writeLoop (buffer : ℕ → Byte) (size fuel : ℕ) (rank : ℤ) (wrote : ℕ)
    (x : INode) : KeepsTaken (writeLoop env buffer size fuel rank wrote x) := by
  induction fuel generalizing rank wrote x with
  | zero =>
    rw [writeLoop]
    split
    · exact Prog.atNotes_undefined
    · exact Prog.atNotes_pure x
  | succ fuel ih =>
    rw [writeLoop]
    split
    · refine keepsTaken_takeDatablock env (fun b δ hb => pointsTo_mount env hb ?_ δ) fun n =>
        (sat_mountBlockToInode env _ _ _).atNotes_bind fun _ _ =>
        (sat_writeIntoDisk env _ _ _).atNotes_bind fun _ _ => ih _ _ _
      intro y s z t hrun
      obtain ⟨_, _, -, hloop⟩ := (Prog.run_bind_eq_some vdisk).mp hrun
      obtain ⟨hdirect, hindirect⟩ := pointers_of_run_writeLoop env hloop
      exact ⟨fun k hk => hdirect k (by omega), hindirect⟩
    · exact Prog.atNotes_pure x

theorem keepsTaken_writeBlocks (buffer : ℕ → Byte) (size offset : ℕ) (x : INode) :
    KeepsTaken (writeBlocks env buffer size offset x) := by
  rw [writeBlocks]
  simp only
  split
  · refine keepsTaken_takeDatablock env (fun b δ hb => pointsTo_mount env hb ?_ δ) fun n =>
      (sat_mountBlockToInode env _ _ _).atNotes_bind fun _ _ =>
      (readOnly_readTheOneDisk env _ _).sat.atNotes_bind fun _ _ =>
      (sat_writeIntoDisk env _ _ _).atNotes_bind fun _ _ => keepsTaken_writeLoop env _ _ _ _ _ _
    intro y s z t hrun
    obtain ⟨_, _, -, hrun⟩ := (Prog.run_bind_eq_some vdisk).mp hrun
    obtain ⟨_, _, -, hloop⟩ := (Prog.run_bind_eq_some vdisk).mp hrun
    obtain ⟨hdirect, hindirect⟩ := pointers_of_run_writeLoop env hloop
    exact ⟨fun k hk => hdirect k (by omega), hindirect⟩
  · rw [Prog.pure_eq_ret, Prog.ret_bind]
    exact (readOnly_readTheOneDisk env _ _).sat.atNotes_bind fun _ _ =>
      (sat_writeIntoDisk env _ _ _).atNotes_bind fun _ _ => keepsTaken_writeLoop env _ _ _ _ _ _

/-- The branch of `add_file_to_dict` behind the direct blocks, from its index block on. -/
def storeIndirect (e : DictioryContent) (bias disk : ℤ) (y : INode) : Fs INode := do
  let bufferNumber ← readInts env (datablockFindDiskId (y.directPointer 0).toInt)
  if bias = 0 then do
    let dataBlockNodeNumber ← takeDatablock env
    let bufferNumber ← Prog.assign bufferNumber (disk - 12)
      (BitVec.ofInt 32 dataBlockNodeNumber)
    writeInts (datablockFindDiskId (y.directPointer 0).toInt) bufferNumber
    addADictInDataBlock env dataBlockNodeNumber e bias
    pure y
  else do
    let number ← Prog.index bufferNumber (disk - 12)
    addADictInDataBlock env number.toInt e bias
    pure y

/-- It returns the record it is given. -/
theorem eq_of_run_storeIndirect {e : DictioryContent} {bias disk : ℤ} {y z : INode} {s t : Disk}
    (h : (storeIndirect env e bias disk y).run vdisk s = some (z, t)) : z = y := by
  obtain ⟨_, _, -, h⟩ := (Prog.run_bind_eq_some vdisk).mp h
  split at h
  · obtain ⟨_, _, -, h⟩ := (Prog.run_bind_eq_some vdisk).mp h
    obtain ⟨_, _, -, h⟩ := (Prog.run_bind_eq_some vdisk).mp h
    obtain ⟨_, _, -, h⟩ := (Prog.run_bind_eq_some vdisk).mp h
    obtain ⟨_, _, -, h⟩ := (Prog.run_bind_eq_some vdisk).mp h
    cases h
    rfl
  · obtain ⟨_, _, -, h⟩ := (Prog.run_bind_eq_some vdisk).mp h
    obtain ⟨_, _, -, h⟩ := (Prog.run_bind_eq_some vdisk).mp h
    cases h
    rfl

section Store

variable {g : INode → INode} (hdirect : ∀ y, (g y).directPointer = y.directPointer)
include hdirect

theorem keepsTaken_storeIndirect (e : DictioryContent) (bias disk : ℤ) (y : INode) :
    KeepsTaken (storeIndirect env e bias disk y >>= fun z => pure (g z)) := by
  rw [storeIndirect, Prog.bind_assoc]
  refine (readOnly_readInts env _).sat.atNotes_bind fun numbers _ => ?_
  split
  · simp only [Prog.bind_assoc]
    refine keepsTaken_takeDatablock env (fun b δ hb => pointsTo_index hb (fun s z t hrun => ?_) δ)
      fun n => (Prog.sat_assign _ _ _).atNotes_bind fun _ _ =>
      (sat_diskWrite _ _).atNotes_bind fun _ _ => (sat_addADictInDataBlock env _ _ _).atNotes_bind
      fun _ _ => Prog.atNotes_pure _
    obtain ⟨_, _, -, hrun⟩ := (Prog.run_bind_eq_some vdisk).mp hrun
    cases hrun
    exact .inr (by rw [hdirect])
  · simp only [Prog.bind_assoc]
    exact (Prog.readOnly_index _ _).sat.atNotes_bind fun _ _ =>
      (sat_addADictInDataBlock env _ _ _).atNotes_bind fun _ _ => Prog.atNotes_pure _

theorem keepsTaken_storeInDict (hindirect : ∀ y, (g y).indirectPointer = y.indirectPointer)
    (x : INode) (e : DictioryContent) :
    KeepsTaken (storeInDict env x e >>= fun z => pure (g z)) := by
  rw [storeInDict]
  simp only
  split
  · split
    · simp only [Prog.bind_assoc]
      refine keepsTaken_takeDatablock env (fun b δ hb => pointsTo_direct hb ?_ δ) fun n =>
        (Prog.sat_assign _ _ _).atNotes_bind fun _ _ =>
        (sat_addADictInDataBlock env _ _ _).atNotes_bind fun _ _ => Prog.atNotes_pure _
      intro a s y t hrun k _
      obtain ⟨_, _, -, hrun⟩ := (Prog.run_bind_eq_some vdisk).mp hrun
      cases hrun
      rw [hdirect]
    · simp only [Prog.bind_assoc]
      exact (Prog.readOnly_index _ _).sat.atNotes_bind fun _ _ =>
        (sat_addADictInDataBlock env _ _ _).atNotes_bind fun _ _ => Prog.atNotes_pure _
  · split
    · split
      · -- the block for the index is put in the record, and read nowhere
        rw [Prog.bind_assoc]
        refine keepsTaken_takeDatablock env (fun b δ hb y t hrun => .inr (.inl ⟨0, ?_⟩)) fun n =>
          keepsTaken_storeIndirect env hdirect e _ _ _
        obtain ⟨z, u, hstore, hrest⟩ := (Prog.run_bind_eq_some vdisk).mp hrun
        cases hrest
        rw [hindirect, eq_of_run_storeIndirect env hstore]
        exact toInt_update_number hb x.indirectPointer 0
      · exact keepsTaken_storeIndirect env hdirect e _ _ x
    · exact Prog.atNotes_pure _

end Store

theorem keepsTaken_addFileToDict (clock : ℕ) (x : INode) (e : DictioryContent) :
    KeepsTaken (addFileToDict env clock x e) :=
  keepsTaken_storeInDict env
    (g := fun y => { y with
      stSize := y.stSize + 32, mtime := env.time clock, ctime := env.time (clock + 1) })
    (fun _ => rfl) (fun _ => rfl) x e

/-- The end of `add_new_empty_block_according_to_rank`, behind the branches for the first rank of an
index block. -/
def mountIndexed (rank : ℤ) (y : INode) : Fs INode := do
  let pointer ← Prog.index y.indirectPointer (rank.tdiv (1024 + 12))
  let bufferIndex ← readInts env (datablockFindDiskId pointer.toInt)
  let dataBlockNumber ← takeDatablock env
  let bufferIndex ← Prog.assign bufferIndex (rank - rank.tdiv (1024 + 12) * 1024 - 12)
    (BitVec.ofInt 32 dataBlockNumber)
  writeInts (datablockFindDiskId pointer.toInt) bufferIndex
  pure y

/-- It returns the record it is given. -/
theorem eq_of_run_mountIndexed {rank : ℤ} {y z : INode} {s t : Disk}
    (h : (mountIndexed env rank y).run vdisk s = some (z, t)) : z = y := by
  obtain ⟨_, _, -, h⟩ := (Prog.run_bind_eq_some vdisk).mp h
  obtain ⟨_, _, -, h⟩ := (Prog.run_bind_eq_some vdisk).mp h
  obtain ⟨_, _, -, h⟩ := (Prog.run_bind_eq_some vdisk).mp h
  obtain ⟨_, _, -, h⟩ := (Prog.run_bind_eq_some vdisk).mp h
  obtain ⟨_, _, -, h⟩ := (Prog.run_bind_eq_some vdisk).mp h
  cases h
  rfl

theorem keepsTaken_mountIndexed (rank : ℤ) (y : INode) : KeepsTaken (mountIndexed env rank y) := by
  rw [mountIndexed]
  by_cases hindex : 0 ≤ rank.tdiv (1024 + 12) ∧ rank.tdiv (1024 + 12) < (2 : ℕ)
  · obtain ⟨k, hk⟩ := Int.eq_ofNat_of_zero_le hindex.1
    rw [hk, Prog.index_natCast _ (show k < 2 by omega), Prog.ret_bind]
    refine (readOnly_readInts env _).sat.atNotes_bind fun numbers _ =>
      keepsTaken_takeDatablock env (fun b δ hb => pointsTo_index hb (fun s z t hrun => ?_) δ)
      fun n => (Prog.sat_assign _ _ _).atNotes_bind fun _ _ => (sat_diskWrite _ _).atNotes_bind
      fun _ _ => Prog.atNotes_pure y
    cases hrun
    exact .inl ⟨⟨k, by omega⟩, rfl⟩
  · rw [Prog.index_eq_undefined _ hindex]
    exact Prog.atNotes_undefined

/-- An index block is taken before: it is in the record. -/
theorem keepsTaken_takeIndex (rank : ℤ) (x : INode) (k : Fin 2) :
    KeepsTaken (takeDatablock env >>= fun dataBlockNumber => mountIndexed env rank
      { x with indirectPointer :=
        Function.update x.indirectPointer k (BitVec.ofInt 32 dataBlockNumber) }) := by
  refine keepsTaken_takeDatablock env (fun b δ hb y t hrun => .inr (.inl ⟨k, ?_⟩)) fun n =>
    keepsTaken_mountIndexed env rank _
  rw [eq_of_run_mountIndexed env hrun]
  exact toInt_update_number hb x.indirectPointer k

theorem keepsTaken_addNewEmptyBlock (rank : ℤ) (x : INode) :
    KeepsTaken (addNewEmptyBlockAccordingToRank env rank x) := by
  rw [addNewEmptyBlockAccordingToRank]
  split
  · refine keepsTaken_takeDatablock env (fun b δ hb => pointsTo_direct hb ?_ δ) fun n =>
      (Prog.sat_assign _ _ _).atNotes_bind fun _ _ => Prog.atNotes_pure _
    intro a s y t hrun k _
    cases hrun
    rfl
  · simp only
    split <;> split
    · omega
    · exact keepsTaken_takeIndex env rank x 0
    · exact keepsTaken_takeIndex env rank x 1
    · exact keepsTaken_mountIndexed env rank x

/-! #### The blocks taken -/

/-- **One step**: every number handed out is the allocator's, and it is marked and stored. -/
theorem Taker.HandsOut.takenAndStored {t : Taker} {d δ : Disk} {n : ℤ} {rest : Fs INode}
    (h : t.HandsOut env d δ n rest) : TakenAndStored δ n rest := by
  have hkeeps : KeepsTaken (t.prog env) := by
    cases t with
    | write path buffer size offset =>
      exact (readOnly_understandThePath env _).sat.atNotes_bind fun _ _ =>
        (readOnly_justReadInodeFromDisk env _).sat.atNotes_bind fun _ _ =>
        keepsTaken_writeBlocks env _ _ _ _
    | entry clock x e => exact keepsTaken_addFileToDict env clock x e
    | empty rank x => exact keepsTaken_addNewEmptyBlock env rank x
  exact hkeeps d _ h

/-- All the blocks that `fs_write` takes are taken before it stores the record. -/
theorem notes_fsWrite (path : CString) (buffer : ℕ → Byte) (size offset : ℕ) (d : Disk) :
    (fsWrite env path buffer size offset).notes vdisk d =
      ((Taker.write path buffer size offset).prog env).notes vdisk d := by
  have hstore (i : ℤ) (y : INode) (s : Disk) : (do
      repalceINodeAccordingToDiskNumber env i y
      checkWrite env path.chars
      pure (cInt size) : Fs ℤ).notes vdisk s = [] := by
    have hsilent := ((sat_repalceINode (P := fun _ _ => False) env i y).bind fun _ _ =>
      (readOnly_checkWrite env path.chars).sat.bind fun _ _ =>
      Prog.sat_pure (a := cInt size) (Q := fun _ => True) trivial) s
    exact List.eq_nil_iff_forall_not_mem.mpr hsilent.1
  rw [fsWrite, Taker.prog, Prog.notes_bind, Prog.notes_bind]
  cases (understandThePath env path.chars).run vdisk d with
  | none => rfl
  | some q =>
    simp only [Option.map_some, Option.getD_some]
    rw [Prog.notes_bind, Prog.notes_bind]
    cases (justReadInodeFromDisk env q.1).run vdisk q.2 with
    | none => rfl
    | some r =>
      simp only [Option.map_some, Option.getD_some]
      rw [Prog.notes_bind]
      cases (writeBlocks env buffer size offset r.1).run vdisk r.2 with
      | none => simp
      | some y => simp only [Option.map_some, Option.getD_some, hstore, List.append_nil]

/-- **A block is free and exists exactly when there is one**: the number that is marked and stored
had a clear bit and a disk block if and only if, when it is handed out, the data map has a clear bit
below 64508. No error is reported otherwise, and the number is stored all the same. -/
theorem allocation_valid_iff {t : Taker} {d δ : Disk} {n : ℤ} {rest : Fs INode}
    (h : t.HandsOut env d δ n rest) :
    t.Good env d δ n rest ↔ ∃ b < 64508, δ.dmap b = false := by
  obtain ⟨hnext, hmarks, hstores⟩ := h.takenAndStored
  constructor
  · rintro (⟨⟨b, -, hfree, hlt⟩, -⟩ | ⟨-, hnot⟩)
    · exact ⟨b, by unfold blockNum at hlt; omega, hfree⟩
    · exact absurd hstores hnot
  · intro hblock
    have hlt := Disk.HasBlock.nextData_lt hblock
    exact .inl ⟨⟨δ.nextData, hnext, Disk.HasBlock.dmap_nextData hblock,
      by unfold blockNum; omega⟩, hmarks, hstores⟩

/-- An empty directory. -/
def firstEntry : Taker := .entry 0 INode.cleared ⟨fun _ => 0, 0⟩

/-- The first entry of an empty directory takes a block. -/
theorem exists_handsOut_firstEntry (d : Disk) :
    ∃ rest, firstEntry.HandsOut env d d d.nextData rest := by
  have hsize : cInt (INode.cleared.stSize.toInt.tdiv 32) = 0 := by decide
  have hmem : (d, Note.block d.nextData) ∈ (firstEntry.prog env).notes vdisk d := by
    rw [firstEntry, Taker.prog, addFileToDict, storeInDict, hsize]
    simp only
    rw [if_pos (by decide), if_pos (by decide), Prog.bind_assoc, takeDatablock_bind,
      Prog.notes_bind, run_findEmptyDatablock, Option.map_some, Option.getD_some, Prog.notes_note]
    exact List.mem_append_right _ List.mem_cons_self
  exact Prog.exists_mem_moments hmem

/-- On the formatted disk an empty directory gets block 4 for its first entry. -/
theorem allocation_valid_initial : ∃ rest,
    firstEntry.HandsOut plainEnv (Disk.initial plainEnv fun _ => 0)
      (Disk.initial plainEnv fun _ => 0) 4 rest ∧
    firstEntry.Good plainEnv (Disk.initial plainEnv fun _ => 0)
      (Disk.initial plainEnv fun _ => 0) 4 rest := by
  obtain ⟨rest, h⟩ := exists_handsOut_firstEntry plainEnv (Disk.initial plainEnv fun _ => 0)
  rw [Disk.nextData_initial] at h
  exact ⟨rest, h, (allocation_valid_iff plainEnv h).mpr
    ⟨4, by decide, Disk.dmap_initial_free _ _ le_rfl (.inl (by decide))⟩⟩

/-- A disk on which every bit is set. -/
def fullDisk : Disk := fun _ _ => 255

theorem dmap_fullDisk {b : ℕ} (hb : b < 65536) : fullDisk.dmap b = true := by
  have hbit : ∀ k : Fin 8, (255 : Byte).getLsbD (7 - k.val) = true := by decide
  have hblock (m : ℕ) (hm : m < 32768) : Block.bit (fun _ => 255) m = true := by
    have h8 : m / 8 < 4096 := by omega
    rw [Block.bit, Block.get, dif_pos h8]
    exact hbit ⟨m % 8, by omega⟩
  rw [Disk.dmap]
  split
  · next h => exact hblock b h
  · exact hblock (b - 32768) (by omega)

/-- On a full disk an empty directory gets block 0 for its first entry, which is in use. -/
theorem not_allocation_valid_fullDisk : ∃ rest,
    firstEntry.HandsOut plainEnv fullDisk fullDisk 0 rest ∧
    ¬ firstEntry.Good plainEnv fullDisk fullDisk 0 rest := by
  have hnext : fullDisk.nextData = 0 := by
    rw [Disk.nextData, Disk.freeData_eq_none.mpr fun b hb => dmap_fullDisk hb, Option.getD_none]
  obtain ⟨rest, h⟩ := exists_handsOut_firstEntry plainEnv fullDisk
  rw [hnext] at h
  refine ⟨rest, h, ?_⟩
  rintro (⟨⟨b, hb, hfree, -⟩, -⟩ | ⟨hnone, -⟩)
  · obtain rfl : b = 0 := by omega
    rw [dmap_fullDisk (by decide)] at hfree
    cases hfree
  · exact hnone

/-! ### Failed creations -/

/-- Every inode record, both bitmaps and every directory's listing are the same. -/
structure Unchanged (d d' : Disk) : Prop where
  inode : ∀ i < 32768, d'.inode i = d.inode i
  imap : ∀ i < 32768, d'.imap i = d.imap i
  dmap : ∀ b < 65536, d'.dmap b = d.dmap b
  listing : ∀ env path, ((fsReaddir env path).run vdisk d').map Prod.fst =
    ((fsReaddir env path).run vdisk d).map Prod.fst

/-- **A failed creation leaves everything as it was exactly when the parent has room**, and then
it does not fail: `-ENOSPC` is returned for a directory whose size the call has changed. The
parent has room as well if its record is the free one that the call initialises. -/
theorem failed_creation_unchanged_iff {kind : Kind} {path : CString} {d d' : Disk}
    {dictPath : List Byte} {fileName : Fin 30 → Byte} {p : ℕ} {r : ℤ}
    (hsplit : splitPath path.chars = .ret (dictPath, fileName))
    (hwalk : (understandThePath env dictPath).run vdisk d = some ((p : ℤ), d)) (hp : p < 32768)
    (hrun : (kind.call env path).run vdisk d = some (r, d')) :
    (r < 0 → Unchanged d d') ↔
      p = d.nextInode ∨ ((d.inode p).stSize + 32).toInt.tdiv 32 ≤ 128 * 12 := by
  obtain ⟨hsize, hresult⟩ := stSize_of_run_call hsplit hwalk hp hrun
  rw [stSize_withFreshInode] at hsize hresult
  constructor
  · intro h
    by_contra hroom
    obtain ⟨hne, hgt⟩ := not_or.mp hroom
    rw [if_neg hne] at hsize
    rw [if_neg hne, if_pos (not_le.mp hgt)] at hresult
    have hsame := (h (by rw [hresult]; decide)).inode p hp
    rw [hsame] at hsize
    exact add_ne_self _ hsize.symm
  · intro hroom hr
    by_cases heq : p = d.nextInode
    · rw [if_pos heq, if_neg (by decide)] at hresult
      omega
    · rw [if_neg heq, if_neg (not_lt.mpr (hroom.resolve_left heq))] at hresult
      omega

/-- On the formatted disk `mknod /a` has room. -/
theorem failed_creation_unchanged_initial : ∃ r d',
    (Kind.file.call plainEnv pathA).run vdisk (Disk.initial plainEnv fun _ => 0) = some (r, d') ∧
      (r < 0 → Unchanged (Disk.initial plainEnv fun _ => 0) d') := by
  have hroot := run_understandThePath_root plainEnv (Disk.initial plainEnv fun _ => 0)
  have hcan := Disk.canCreate_initial plainEnv (fun _ => 0) (letter 97)
  have hrun := run_fsCreate plainEnv regMode (Disk.sound_initial plainEnv fun _ => 0)
    (show (Disk.initial plainEnv fun _ => 0).graph.resolve 4 (([] : List Name).map _) = _ from rfl)
    hcan plainMemory
  rw [← Kind.mode, ← Kind.call_eq] at hrun
  refine ⟨_, _, hrun, (failed_creation_unchanged_iff plainEnv splitPath_pathA hroot (by decide)
    hrun).mpr (.inr ?_)⟩
  rw [Disk.stSize_initial]
  decide

/-! #### A full directory -/

/-- The names `@@`, `@A`, ...: 4096 different ones. -/
def nthName (n : ℕ) : Name where
  chars := [BitVec.ofNat 8 (64 + n / 64 % 64), BitVec.ofNat 8 (64 + n % 64)]
  ne_nil := List.cons_ne_nil _ _
  length_le := by simp
  noSlash c hc := by
    have h (k : ℕ) (hk : k < 64) : BitVec.ofNat 8 (64 + k) ≠ slash := by
      intro heq
      have htoNat := congrArg BitVec.toNat heq
      simp [slash] at htoNat
      omega
    simp only [List.mem_cons, List.not_mem_nil, or_false] at hc
    rcases hc with rfl | rfl
    · exact h _ (Nat.mod_lt _ (by decide))
    · exact h _ (Nat.mod_lt _ (by decide))
  noNul c hc := by
    have h (k : ℕ) (hk : k < 64) : BitVec.ofNat 8 (64 + k) ≠ 0 := by
      intro heq
      have htoNat := congrArg BitVec.toNat heq
      simp at htoNat
      omega
    simp only [List.mem_cons, List.not_mem_nil, or_false] at hc
    rcases hc with rfl | rfl
    · exact h _ (Nat.mod_lt _ (by decide))
    · exact h _ (Nat.mod_lt _ (by decide))

theorem nthName_inj {m n : ℕ} (hm : m < 4096) (hn : n < 4096) (h : nthName m = nthName n) :
    m = n := by
  have hchars := congrArg Name.chars h
  simp only [nthName, List.cons.injEq, and_true] at hchars
  have h1 := congrArg BitVec.toNat hchars.1
  have h2 := congrArg BitVec.toNat hchars.2
  simp only [BitVec.toNat_ofNat] at h1 h2
  omega

/-- Up to `128 * 12` files in the root. -/
theorem exists_creationRun_root (n : ℕ) (hn : n ≤ 1536) : ∃ log d, CreationRun log d ∧
    children log [] = (List.range n).map nthName ∧ d.freeInodes + n = 32767 ∧
    ∀ c ∈ log, c.kind = .file ∧ c.parent = [] := by
  induction n with
  | zero =>
    refine ⟨[], _, .init (Disk.run_mkfs_zeroDisk plainEnv fun _ => 0), rfl, ?_,
      fun c hc => absurd hc List.not_mem_nil⟩
    rw [Nat.add_zero, Disk.freeInodes_initial]
  | succ n ih =>
    obtain ⟨log, d, hrun, hchildren, hfree, hfiles⟩ := ih (by omega)
    have hinode : d.HasInode := Disk.freeInodes_pos_iff.mp (by omega)
    -- the name is new, because the names of the former calls have smaller numbers
    have hfresh : nthName n ∉ children log [] := by
      rw [hchildren, List.mem_map]
      rintro ⟨m, hm, heq⟩
      rw [List.mem_range] at hm
      have hmn := nthName_inj (by omega) (by omega) heq
      omega
    have hlength := congrArg List.length hchildren
    rw [List.length_map, List.length_range] at hlength
    obtain ⟨p, hcan, hstep⟩ := hrun.extend (c := ⟨.file, [], nthName n⟩)
      ⟨.inl rfl, by change (children log []).length < _; omega, hfresh, hinode⟩
    refine ⟨_, d.created plainEnv Kind.file.mode p (nthName n) d.nextInode, hstep, ?_, ?_,
      fun c hc => ?_⟩
    · rw [children_concat, hchildren, List.range_succ, List.map_append]
      rfl
    · have hone := Disk.freeInodes_created plainEnv Kind.file.mode p (nthName n)
        hinode
      omega
    · rcases List.mem_append.mp hc with hc | hc
      · exact hfiles c hc
      · obtain rfl := List.mem_singleton.mp hc
        exact ⟨rfl, rfl⟩

/-- In a full directory `add_file_to_dict` still returns. -/
theorem exists_run_addFileToDict {x : INode} (hcount : x.count = 1536) (clock : ℕ)
    (e : DictioryContent) (d : Disk) : ∃ q, (addFileToDict env clock x e).run vdisk d = some q := by
  -- whatever the disk is, each of its steps returns something
  let Returns {α : Type} (p : Fs α) : Prop := p.Keeps vdisk (fun _ => True) fun _ => True
  have hpure {α : Type} (a : α) : Returns (pure a) := Prog.keeps_pure trivial
  have hread (id : ℤ) : Returns (env.read id) := fun s _ => ⟨_, _, rfl, trivial, trivial⟩
  have hwrite (id : ℤ) (b : Block) : Returns (diskWrite id b) :=
    fun s _ => ⟨_, _, rfl, trivial, trivial⟩
  have htake : Returns (takeDatablock env) :=
    fun s _ => ⟨_, _, run_takeDatablock env s, trivial, trivial⟩
  have hassign {α : Type} {n : ℕ} (hn : 0 < n) (a : Fin n → α) (y : α) :
      Returns (Prog.assign a 0 y : Fs (Fin n → α)) := by
    rw [← Nat.cast_zero, Prog.assign_natCast a hn]
    exact hpure _
  have hsize : cInt (x.stSize.toInt.tdiv 32) = 1536 := by
    rw [INode.cInt_tdiv_stSize hcount.le, hcount]
    rfl
  have hdisk : (1536 : ℤ).tdiv 128 = 12 := by decide
  have hbias : (1536 : ℤ).tmod 128 = 0 := by decide
  have hindex : (12 : ℤ) - 12 = 0 := by decide
  have hstore : Returns (storeInDict env x e) := by
    rw [storeInDict, hsize]
    simp only [hdisk, hbias, hindex, if_true]
    rw [if_neg (by decide), if_pos (by decide)]
    exact htake.bind fun _ _ => (hpure _).bind fun y _ =>
      ((hread _).bind fun _ _ => hpure _).bind fun _ _ => htake.bind fun _ _ =>
      (hassign (by decide) _ _).bind fun _ _ => (hwrite _ _).bind fun _ _ =>
      (((hread _).bind fun _ _ => hpure _).bind fun _ _ =>
        (hassign (by decide) _ _).bind fun _ _ => hwrite _ _).bind fun _ _ => hpure _
  obtain ⟨a, t, h, -, -⟩ := hstore.bind (fun y _ => hpure _) d trivial
  exact ⟨_, h⟩

/-- In a root of 1536 files, `mknod /a` fails and leaves the root's record changed. -/
theorem not_failed_creation_unchanged_full_root : ∃ log d r d', CreationRun log d ∧
    (Kind.file.call plainEnv pathA).run vdisk d = some (r, d') ∧ r < 0 ∧ ¬ Unchanged d d' := by
  obtain ⟨log, d, hrun, hchildren, hfree, -⟩ := exists_creationRun_root 1536 le_rfl
  have hr := hrun.refines
  have hroot := run_understandThePath_root plainEnv d
  have hinode : d.HasInode := Disk.freeInodes_pos_iff.mp (by omega)
  have hne : 4 ≠ d.nextInode := by
    intro h4
    have hclear := hinode.imap_nextInode
    rw [← h4] at hclear
    exact hr.sound.not_isDir_of_free hclear hr.sound.directories.root
  have hcount : (d.inode 4).count = 1536 := by
    rw [hr.count_eq (.inl rfl) rfl hr.sound.directories.root, hchildren]
    simp
  have hsize := (hr.sound.directories.dir 4 hr.sound.directories.root).size_eq
  -- the call goes on to the branch for a directory without room
  have hcall : ∃ q, (Kind.file.call plainEnv pathA).run vdisk d = some q := by
    rw [Kind.call_eq, fsCreate, splitPath_pathA, Prog.ret_bind, Prog.run_bind_some _ hroot,
      Prog.run_bind_some _ (run_applyANewInodeWithMode plainEnv Kind.file.mode d), Prog.note_bind,
      Prog.run_note, Prog.pure_eq_ret, Prog.ret_bind, run_mountInFather plainEnv (by decide)]
    obtain ⟨q, hq⟩ := exists_run_addFileToDict plainEnv
      (x := (d.withFreshInode plainEnv Kind.file.mode d.nextInode).inode 4)
      (by rw [Disk.inode_withFreshInode, if_neg hne, hcount]) 3
      ⟨fileNameOf (padTo30 [97]), BitVec.ofInt 32 d.nextInode⟩
      (d.withFreshInode plainEnv Kind.file.mode d.nextInode)
    exact ⟨_, by rw [hq, Option.map_some]⟩
  obtain ⟨⟨r, d'⟩, hcall⟩ := hcall
  obtain ⟨hgrown, hresult⟩ := stSize_of_run_call splitPath_pathA hroot (by decide) hcall
  rw [stSize_withFreshInode, if_neg hne] at hgrown hresult
  have htoNat : ((d.inode 4).stSize + 32).toNat = 49184 := by
    rw [BitVec.toNat_add, hsize, hcount]
    rfl
  have hfull : ((d.inode 4).stSize + 32).toInt.tdiv 32 > 128 * 12 := by
    rw [toInt_eq_natCast_long (by omega), htoNat]
    decide
  rw [if_pos hfull] at hresult
  refine ⟨log, d, r, d', hrun, hcall, by rw [hresult]; decide, fun hsame => ?_⟩
  -- the size of the root has grown
  rw [hsame.inode 4 (by decide)] at hgrown
  exact add_ne_self _ hgrown.symm

end InodeFs
