import InodeFs.Ops.Write
import InodeFs.Properties.Creation
import InodeFs.Properties.Paths

/-!
# The frame of a creation

What `fs_mknod` and `fs_mkdir` change on an arbitrary disk, reachable or not: `creation_frame` says
which bits of the two maps, which members of which two records and which slot of which data
block differ afterwards. The parent's number of entries is taken from the signed `st_size`, as the
code takes it, so a size from -31 to -1 counts as empty.

The disk afterwards is written down, as `withCreation`: the inode is marked and initialised and the
entry stored, each a change of one block. What the maps, records and blocks of that disk are is
computed from the definitions, one lemma for each part (`imap_withCreation`, `dmap_withCreation`,
`inode_withCreation`, `data_withCreation`), and `run_createIn` says that the call leaves just that
disk. So the frame is exact: everything that is not named is as it was, on disks of any contents.

What the call does need is that its path leads to a marked inode, that the name has at most 28
bytes, and that the block for the entry exists if it is not a fresh one.

`creation_frame` is not about the meaning of the entry: whether the name was there already, or
whether the parent is a directory, makes no difference to what is written. What a lookup finds
afterwards is said for sound disks, in `InodeFs.Properties.Creation`.
-/

namespace InodeFs

variable (env : Env)

/-! ### Sizes -/

theorem stSize_withRoom (d : Disk) (x : INode) (n : ℕ) : (d.withRoom x n).stSize = x.stSize := by
  rw [Disk.withRoom]
  split
  · rw [INode.setPtr_stSize]
  · rfl

/-! ### The disk after a creation -/

namespace Disk

/-- The disk after a new inode is initialised and entry `n` for it stored in directory `p`. -/
def withCreation (d : Disk) (env : Env) (mode : BitVec 32) (p n : ℕ) (name : FileName) : Disk :=
  let fresh := d.withFreshInode env mode d.nextInode
  (fresh.withEntry (d.inode p) ⟨name, BitVec.ofInt 32 d.nextInode⟩ n).setInode p
    ((fresh.withRoom (d.inode p) n).grown env 3)

variable {d : Disk} {x : INode} {n : ℕ}

theorem imap_withEntry (e : DictioryContent) (j : ℕ) : (d.withEntry x e n).imap j = d.imap j := by
  rw [withEntry, imap_setData]
  split
  · rw [imap_coverData]
  · rfl

/-- The data map has the block in addition that a first entry takes. -/
theorem dmap_withEntry (e : DictioryContent) {c : ℕ} (hc : c < 65536) :
    (d.withEntry x e n).dmap c = (d.dmap c || decide (n % 128 = 0 ∧ c = d.blockFor x n)) := by
  rw [withEntry, dmap_setData]
  by_cases h0 : n % 128 = 0
  · have hfresh : d.blockFor x n = d.nextData := if_pos h0
    rw [if_pos h0, hfresh, dmap_coverData d.nextData_lt hc]
    simp [h0]
  · rw [if_neg h0]
    simp [h0]

theorem inode_withEntry (e : DictioryContent) {j : ℕ} (hj : j < 32768) :
    (d.withEntry x e n).inode j = d.inode j := by
  rw [withEntry, inode_setData hj]
  split
  · rw [inode_coverData]
  · rfl

/-- One slot of one block is written. -/
theorem data_withEntry (e : DictioryContent) (c : ℕ) : (d.withEntry x e n).data c =
    if c = d.blockFor x n then (d.data c).setEntry n e else d.data c := by
  rw [withEntry, data_setData]
  split
  · next h => rw [h]
  · split
    · rw [data_coverData]
    · rfl

/-- Blocks outside the data map and the data blocks are left alone. -/
theorem withEntry_apply (e : DictioryContent) {b : ℕ} (h2 : b ≠ 2) (h3 : b ≠ 3) (hb : b < 1028) :
    d.withEntry x e n b = d b := by
  unfold withEntry coverData orDataMap setData
  rw [Function.update_of_ne (by omega)]
  split
  · split
    · exact Function.update_of_ne h2 _ _
    · exact Function.update_of_ne h3 _ _
  · rfl

end Disk

section Views

variable {d : Disk} {mode : BitVec 32} {p n : ℕ} {name : FileName}

/-- The initialisation of a record takes no block. -/
theorem Disk.blockFor_withFreshInode (x : INode) :
    (d.withFreshInode env mode d.nextInode).blockFor x n = d.blockFor x n := by
  have hnext : (d.withFreshInode env mode d.nextInode).nextData = d.nextData :=
    Disk.nextData_congr fun b => Disk.dmap_withFreshInode b
  rw [Disk.blockFor, hnext, Disk.blockFor]

/-- The new inode is marked in addition. -/
theorem Disk.imap_withCreation {j : ℕ} (hj : j < 32768) :
    (d.withCreation env mode p n name).imap j = (d.imap j || decide (j = d.nextInode)) := by
  rw [withCreation, imap_setInode, imap_withEntry, imap_withFreshInode d.nextInode_lt hj]

/-- At most one block is marked in addition. -/
theorem Disk.dmap_withCreation {c : ℕ} (hc : c < 65536) :
    (d.withCreation env mode p n name).dmap c =
      (d.dmap c || decide (n % 128 = 0 ∧ c = d.blockFor (d.inode p) n)) := by
  rw [withCreation, dmap_setInode, dmap_withEntry _ hc, dmap_withFreshInode,
    blockFor_withFreshInode]

/-- Two records change: the parent's and the new one. -/
theorem Disk.inode_withCreation {j : ℕ} (hj : j < 32768) :
    (d.withCreation env mode p n name).inode j =
      if j = p then (if n % 128 = 0 then (d.inode p).setPtr (n / 128) (d.blockFor (d.inode p) n)
        else d.inode p).grown env 3
      else if j = d.nextInode then freshINode env mode d.nextInode (d.inode d.nextInode)
      else d.inode j := by
  rw [withCreation, inode_setInode, inode_withEntry _ hj, inode_withFreshInode, withRoom,
    blockFor_withFreshInode]

/-- One slot of one data block changes. -/
theorem Disk.data_withCreation (hp : p < 32768) (c : ℕ) :
    (d.withCreation env mode p n name).data c = if c = d.blockFor (d.inode p) n then
      (d.data c).setEntry n ⟨name, BitVec.ofInt 32 d.nextInode⟩ else d.data c := by
  rw [withCreation, data_setInode hp, data_withEntry, data_withFreshInode d.nextInode_lt,
    blockFor_withFreshInode]

/-- The super block is left alone. -/
theorem Disk.withCreation_zero : d.withCreation env mode p n name 0 = d 0 := by
  rw [withCreation, setInode, Function.update_of_ne (by omega),
    withEntry_apply _ (by decide) (by decide) (by decide), withFreshInode, setInode,
    Function.update_of_ne (by omega), coverInode, Function.update_of_ne (by decide)]

end Views

/-- A creation in a directory of `n` entries. -/
theorem run_createIn {d : Disk} {p n : ℕ} (mode : BitVec 32) (fileName : Fin 30 → Byte)
    (hp : p < 32768) (hnew : p ≠ d.nextInode) (hn : (d.inode p).stSize.toInt.tdiv 32 = n)
    (hlt : n < 1536) (hblock : d.blockFor (d.inode p) n < 64508) :
    (createIn env (applyANewInodeWithMode env mode) p fileName).run vdisk d =
      some (0, d.withCreation env mode p n (fileNameOf fileName)) := by
  set fresh := d.withFreshInode env mode d.nextInode with hfresh
  set newFile : DictioryContent := ⟨fileNameOf fileName, BitVec.ofInt 32 d.nextInode⟩ with hfile
  have hinode : fresh.inode p = d.inode p := by
    rw [hfresh, Disk.inode_withFreshInode, if_neg hnew]
  have hnext : fresh.nextData = d.nextData :=
    Disk.nextData_congr fun b => Disk.dmap_withFreshInode b
  have hstore := run_storeInDict_direct env (d := fresh) newFile hn hlt
    (by rwa [Disk.blockFor, hnext])
  have hadd : (addFileToDict env 3 (d.inode p) newFile).run vdisk fresh =
      some ((fresh.withRoom (d.inode p) n).grown env 3, fresh.withEntry (d.inode p) newFile n) := by
    rw [addFileToDict, Prog.run_bind_some _ hstore]
    rfl
  have hsize : ¬ ((fresh.withRoom (d.inode p) n).grown env 3).stSize.toInt.tdiv 32 > 128 * 12 :=
    tdiv_stSize_grown env (by rwa [stSize_withRoom]) hlt
  have hrecords : fresh.withEntry (d.inode p) newFile n (4 + p / 32) = fresh (4 + p / 32) :=
    Disk.withEntry_apply newFile (by omega) (by omega) (by omega)
  rw [run_createIn_eq, ← hfresh, ← hfile, run_mountInFather env hp, hinode, hadd,
    Option.map_some, if_neg hsize, ← hrecords]
  rfl

/-- **Creating an entry disturbs nothing else**, on any disk. Let the last component of a path
have 1 to 28 bytes and its parent resolve to a marked inode `p` with `n < 128 * 12` entries, whose
block for the next entry, if one is mounted, exists; let an inode and a data block be free. Then
`fs_mknod` and `fs_mkdir` return 0 and change: one clear bit of the inode map, `k`; one clear bit
of the data map, `b`, if the entries fill their blocks, and none otherwise; the records `k` and `p`,
of which `p` keeps all but its size, times and, if a block was taken, the pointer to it; and slot
`n % 128` of block `b`, which now holds the name and the number `k`. -/
theorem creation_frame (kind : Kind) (d : Disk) (path : CString) (parent last : List Byte)
    (hpath : path.chars = parent ++ slash :: last) (hslash : ∀ c ∈ last, c ≠ slash)
    (hlast : 1 ≤ last.length ∧ last.length ≤ 28) (p n : ℕ) (hp : p < 32768)
    (hparent : (understandThePath env (if parent = [] then [slash] else parent)).run vdisk d =
      some ((p : ℤ), d))
    (hmarked : d.imap p = true) (hn : (d.inode p).stSize.toInt.tdiv 32 = n) (hlt : n < 1536)
    (hptr : n % 128 ≠ 0 → (d.inode p).ptr (n / 128) < 64508)
    (hinode : ∃ j < 32768, d.imap j = false) (hblock : ∃ c < 64508, d.dmap c = false) :
    ∃ d' k b, (kind.call env path).run vdisk d = some (0, d') ∧ k < 32768 ∧ b < 64508 ∧
      d.imap k = false ∧ (∀ j < 32768, d'.imap j = (d.imap j || decide (j = k))) ∧
      (n % 128 = 0 → d.dmap b = false ∧
        ∀ c < 65536, d'.dmap c = (d.dmap c || decide (c = b))) ∧
      (n % 128 ≠ 0 → b = (d.inode p).ptr (n / 128) ∧ ∀ c < 65536, d'.dmap c = d.dmap c) ∧
      (∀ j < 32768, j ≠ k → j ≠ p → d'.inode j = d.inode j) ∧
      d'.inode k = freshINode env kind.mode k (d.inode k) ∧
      d'.inode p = { (if n % 128 = 0 then (d.inode p).setPtr (n / 128) b else d.inode p) with
        stSize := (d.inode p).stSize + 32, mtime := env.time 3, ctime := env.time 4 } ∧
      (∀ c, c ≠ b → d'.data c = d.data c) ∧
      (∀ j < 128, j ≠ n % 128 → (d'.data b).entry j = (d.data b).entry j) ∧
      (d'.data b).entry (n % 128) = ⟨fileNameOf (padTo30 last), BitVec.ofInt 32 k⟩ ∧
      d' 0 = d 0 := by
  have hfree : d.imap d.nextInode = false := Disk.HasInode.imap_nextInode hinode
  have hnew : p ≠ d.nextInode := by
    rintro rfl
    rw [hmarked] at hfree
    cases hfree
  have hb : d.blockFor (d.inode p) n < 64508 := by
    rw [Disk.blockFor]
    split
    · exact Disk.HasBlock.nextData_lt hblock
    · next h0 => exact hptr h0
  have hsplit : splitPath path.chars =
      .ret (if parent = [] then [slash] else parent, padTo30 last) := by
    rw [hpath, splitPath_append _ hslash, if_neg (by omega)]
  -- the disk after the call in closed form; each part of the frame is read off it
  have hrun : (kind.call env path).run vdisk d =
      some (0, d.withCreation env kind.mode p n (fileNameOf (padTo30 last))) := by
    rw [Kind.call_eq, run_fsCreate_createIn env _ hsplit hparent,
      run_createIn env kind.mode _ hp hnew hn hlt hb]
  refine ⟨_, d.nextInode, d.blockFor (d.inode p) n, hrun, d.nextInode_lt, hb, hfree,
    fun j hj => Disk.imap_withCreation env hj, fun h0 => ⟨?_, fun c hc => ?_⟩,
    fun h0 => ⟨if_neg h0, fun c hc => ?_⟩, fun j hj hjk hjp => ?_, ?_, ?_, fun c hc => ?_,
    fun j hj hjn => ?_, ?_, Disk.withCreation_zero env⟩
  · rw [Disk.blockFor, if_pos h0]
    exact Disk.HasBlock.dmap_nextData hblock
  · rw [Disk.dmap_withCreation env hc]
    simp only [h0, true_and]
  · rw [Disk.dmap_withCreation env hc]
    simp [h0]
  · rw [Disk.inode_withCreation env hj, if_neg hjp, if_neg hjk]
  · rw [Disk.inode_withCreation env d.nextInode_lt, if_neg hnew.symm, if_pos rfl]
  · rw [Disk.inode_withCreation env hp, if_pos rfl, INode.grown]
    split
    · rw [INode.setPtr_stSize]
    · rfl
  · rw [Disk.data_withCreation env hp, if_neg hc]
  · rw [Disk.data_withCreation env hp, if_pos rfl, Block.entry_setEntry,
      if_neg (by rwa [Nat.mod_eq_of_lt hj])]
  · rw [Disk.data_withCreation env hp, if_pos rfl, Block.entry_setEntry, if_pos (Nat.mod_mod _ _)]

/-- `mknod /a` on the formatted disk: the root is empty and takes a block. -/
theorem creation_frame_initial : ∃ d' k b,
    (fsMknod plainEnv (pathString [letter 97] plainMemory)).run vdisk
      (Disk.initial plainEnv fun _ => 0) = some (0, d') ∧
    (d'.data b).entry 0 = ⟨(letter 97).fileName, BitVec.ofInt 32 k⟩ := by
  have hroot : ((Disk.initial plainEnv fun _ => 0).inode 4).stSize.toInt.tdiv 32 = (0 : ℕ) := by
    rw [Disk.stSize_initial]
    rfl
  obtain ⟨d', k, b, hrun, -, -, -, -, -, -, -, -, -, -, -, hentry, -⟩ := creation_frame plainEnv
    .file (Disk.initial plainEnv fun _ => 0) (pathString [letter 97] plainMemory) [] [97] rfl
    (by decide) (by decide) 4 0 (by decide) (run_understandThePath_root plainEnv _)
    (by rw [Disk.imap_initial _ _ (by decide)]; rfl) hroot (by decide) (by decide)
    ⟨0, by decide, by rw [Disk.imap_initial _ _ (by decide)]; rfl⟩
    ⟨4, by decide, Disk.dmap_initial_free _ _ le_rfl (.inl (by decide))⟩
  exact ⟨d', k, b, hrun, hentry⟩

end InodeFs
