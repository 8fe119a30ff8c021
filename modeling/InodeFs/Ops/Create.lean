import InodeFs.State.Steps

/-!
# Creation

`fs_mknod` and `fs_mkdir` on a sound disk: the new inode is initialised, a block is mounted if
the parent's entries fill their blocks, and an entry is appended (`run_fsCreate`). The disk
that results is sound (`Sound.created`) and has one edge more (`Sound.graph_created`).

The theorems go from the inside to the outside, one for each function of the source. `storeInDict`
chooses a block for the entry and writes it (`run_storeInDict_direct`, which asks for nothing but
that the block exists), `addFileToDict` counts it in the record, `mountInFather` writes the record
back (`run_mountInFather_eq`), and `fsCreate` cuts the path and initialises the inode before.

What they compute is stated twice: as the disk with the entry stored and the record still in the
hands of the caller (`Disk.storeEntry`), and as two of the steps of `InodeFs.State.Steps`, a mounted
block and an appended entry (`Disk.addEntry`). `Disk.setInode_storeEntry` is the bridge; the
invariant and the naming graph follow from the steps. `Disk.CanCreate` collects what the parent and
the maps must offer.
-/

namespace InodeFs

variable (env : Env)

/-! ### The split of the path -/

/-- The backward scan stops at the last slash at or before its start. -/
theorem lastSlash_eq_some {get : ℕ → Byte} {i p : ℕ} (hp : get p = slash) (hi : p ≤ i)
    (hnone : ∀ k, p < k → k ≤ i → get k ≠ slash) : lastSlash get i = some p := by
  induction i with
  | zero =>
    obtain rfl : p = 0 := by omega
    exact if_pos hp
  | succ i ih =>
    rw [lastSlash]
    by_cases hpi : p = i + 1
    · rw [← hpi, if_pos hp]
    · rw [if_neg (hnone (i + 1) (by omega) le_rfl)]
      exact ih (by omega) fun k hk hki => hnone k hk (by omega)

/-- The backward scan finds the last separator up to its start. -/
theorem lastSlash_spec {get : ℕ → Byte} {i p : ℕ} (h : lastSlash get i = some p) :
    p ≤ i ∧ get p = slash ∧ ∀ k, p < k → k ≤ i → get k ≠ slash := by
  induction i with
  | zero =>
    rw [lastSlash] at h
    split at h
    · next hget => cases h; exact ⟨le_rfl, hget, fun k hk hk0 => by omega⟩
    · cases h
  | succ i ih =>
    rw [lastSlash] at h
    split at h
    · next hget => cases h; exact ⟨le_rfl, hget, fun k hk hki => by omega⟩
    · next hget =>
      obtain ⟨hle, hp, hnone⟩ := ih h
      refine ⟨by omega, hp, fun k hk hki => ?_⟩
      by_cases hlast : k = i + 1
      · rwa [hlast]
      · exact hnone k hk (by omega)

/-- In a path the last slash is the one before the last component. -/
theorem lastSlash_append (parent : List Byte) {last : List Byte} (hslash : ∀ c ∈ last, c ≠ slash) :
    lastSlash (fun i => (parent ++ slash :: last).getD i 0)
      ((parent ++ slash :: last).length - 1) = some parent.length := by
  refine lastSlash_eq_some ?_ (by simp) fun k hk hki => ?_
  · simp
  · obtain ⟨m, rfl⟩ := Nat.exists_eq_add_of_lt hk
    rw [List.length_append, List.length_cons] at hki
    have hm : m < last.length := by omega
    have hget : (parent ++ slash :: last).getD (parent.length + m + 1) 0 = last[m] := by
      rw [List.getD_eq_getElem?_getD, List.getElem?_append_right (by omega),
        show parent.length + m + 1 - parent.length = m + 1 by omega,
        List.getElem?_cons_succ, List.getElem?_eq_getElem hm, Option.getD_some]
    rw [hget]
    exact hslash _ (List.getElem_mem hm)

/-- The two creating operations cut a path at its last separator. -/
theorem splitPath_append (parent : List Byte) {last : List Byte} (hslash : ∀ c ∈ last, c ≠ slash) :
    splitPath (parent ++ slash :: last) = if 30 < last.length then Prog.undefined
      else .ret (if parent = [] then [slash] else parent, padTo30 last) := by
  have hlast := lastSlash_append parent hslash
  have hdrop : (parent ++ slash :: last).drop (parent.length + 1) = last :=
    List.drop_length_add_append 1
  rw [splitPath]
  simp only [hlast, hdrop]
  simp only [List.take_left, List.length_eq_zero_iff]
  rfl

/-- A path splits into the path of its parent and its last name. -/
theorem splitPath_eq (as : List Name) (a : Name) :
    splitPath (pathChars (as ++ [a])) = .ret (pathChars as, padTo30 a.chars) := by
  have hlength : ¬ 30 < a.chars.length := by have := a.length_le; omega
  rw [pathChars_concat, splitPath_append _ a.noSlash, if_neg hlength, pathChars]
  cases as with
  | nil => rfl
  | cons b as => rw [if_neg (by simp), if_neg (List.cons_ne_nil b as)]

/-! ### Storing an entry -/

namespace Disk

/-- A data block that the allocator can hand out. -/
def HasBlock (d : Disk) : Prop := ∃ b < 64508, d.dmap b = false

/-- The search for a data block finds one that exists on the disk. -/
theorem HasBlock.nextData_lt {d : Disk} (h : d.HasBlock) : d.nextData < 64508 := by
  obtain ⟨b, hb, hfree⟩ := h
  obtain ⟨k, hk, hle⟩ := exists_freeData (show b < 65536 by omega) hfree
  rw [nextData, hk, Option.getD_some]
  omega

/-- The block it finds is free. -/
theorem HasBlock.dmap_nextData {d : Disk} (h : d.HasBlock) : d.dmap d.nextData = false := by
  obtain ⟨b, hb, hfree⟩ := h
  obtain ⟨k, hk, -⟩ := exists_freeData (show b < 65536 by omega) hfree
  rw [nextData, hk, Option.getD_some]
  exact (freeData_eq_some.mp hk).2.1

/-- An inode that the allocator can hand out. -/
def HasInode (d : Disk) : Prop := ∃ i < 32768, d.imap i = false

/-- The search for an inode finds a free one. -/
theorem HasInode.imap_nextInode {d : Disk} (h : d.HasInode) : d.imap d.nextInode = false := by
  obtain ⟨i, hi, hfree⟩ := h
  obtain ⟨k, hk, -⟩ := exists_freeInode hi hfree
  rw [nextInode, hk, Option.getD_some]
  exact (freeInode_eq_some.mp hk).2.1

/-- A directory with a block for its next entry: the one in use, or one to be had. -/
def HasRoom (d : Disk) (x : INode) : Prop := x.count % 128 = 0 → d.HasBlock

end Disk

/-- The record of a directory after one more entry. -/
def INode.grown (clock : ℕ) (x : INode) : INode :=
  { x with stSize := x.stSize + 32, mtime := env.time clock, ctime := env.time (clock + 1) }

theorem INode.sameBlocks_grown (clock : ℕ) (x : INode) : x.SameBlocks (x.grown env clock) :=
  ⟨rfl, fun _ => rfl, rfl⟩

/-- One entry more is 32 bytes more, as long as the size does not wrap around. -/
theorem INode.toNat_grown (clock : ℕ) {x : INode} (h : x.stSize.toNat < 2 ^ 32) :
    (x.grown env clock).stSize.toNat = x.stSize.toNat + 32 := by
  rw [INode.grown, BitVec.toNat_add]
  exact Nat.mod_eq_of_lt (by simp; omega)

namespace Disk

variable (d : Disk) (x : INode) (e : DictioryContent)

/-- The block of entry `n`: a fresh one for every 128th entry. -/
def blockFor (n : ℕ) : ℕ := if n % 128 = 0 then d.nextData else x.ptr (n / 128)

/-- The record with the block of entry `n` mounted. -/
def withRoom (n : ℕ) : INode :=
  if n % 128 = 0 then x.setPtr (n / 128) (d.blockFor x n) else x

/-- The disk with entry `n` of a directory stored. -/
def withEntry (n : ℕ) : Disk :=
  (if n % 128 = 0 then d.coverData (d.blockFor x n) else d).setData (d.blockFor x n)
    ((d.data (d.blockFor x n)).setEntry n e)

/-- The record with the block of its next entry mounted. -/
def withBlock : INode :=
  if x.count % 128 = 0 then x.setPtr (x.count / 128) d.nextData else x

/-- The disk with the next entry of a directory stored. -/
def storeEntry : Disk :=
  if x.count % 128 = 0 then
    (d.coverData d.nextData).setData d.nextData ((d.data d.nextData).setEntry x.count e)
  else
    d.setData (x.ptr (x.count / 128)) ((d.data (x.ptr (x.count / 128))).setEntry x.count e)

/-- The disk with the block of the next entry of inode `p` mounted. -/
def roomFor (p : ℕ) : Disk :=
  if (d.inode p).count % 128 = 0 then d.mountBlock p ((d.inode p).count / 128) d.nextData else d

/-- The disk with an entry added to directory `p`, with a new block where one is needed. -/
def addEntry (clock p : ℕ) : Disk :=
  (d.roomFor p).appendEntry p e (((d.roomFor p).inode p).grown env clock)

variable {d x e}

/-- Every 128th entry is put in slot 0 of its block. -/
theorem setEntry_zero {b : Block} {n : ℕ} (h : n % 128 = 0) : b.setEntry 0 e = b.setEntry n e := by
  simp only [Block.setEntry, h, Nat.zero_mod]

/-- Storing an entry and writing the record back is appending it. -/
theorem setInode_storeEntry {p : ℕ} (hp : p < 32768) (hcount : (d.inode p).count < 1536)
    (y : INode) : (d.storeEntry (d.inode p) e).setInode p y = (d.roomFor p).appendEntry p e y := by
  have hr : (d.inode p).count / 128 < 12 := by omega
  rw [storeEntry, roomFor]
  split
  · rw [appendEntry, count_mountBlock, ptr_mountBlock hr d.nextData_lt, if_pos ⟨rfl, rfl⟩,
      data_mountBlock hp, mountBlock, setData_setInode hp, setInode_setInode]
  · rw [appendEntry]

/-- The record of the directory has the block mounted. -/
theorem inode_roomFor (p : ℕ) : (d.roomFor p).inode p = d.withBlock (d.inode p) := by
  rw [roomFor, withBlock]
  split
  · rw [inode_mountBlock, if_pos rfl]
  · rfl

/-! ### Adding an entry -/

/-- **Mounting the block of the next entry** keeps the disk sound and the names as they are; the
rank of that entry has a block afterwards. -/
theorem Sound.roomFor {p limit : ℕ} (h : d.Sound limit) (hp : d.IsDir p)
    (hcount : (d.inode p).count < 1536) (hroom : d.HasRoom (d.inode p)) :
    (d.roomFor p).Sound limit ∧ (d.roomFor p).graph = d.graph ∧ (d.roomFor p).IsDir p ∧
      ((d.roomFor p).inode p).count = (d.inode p).count ∧
      ((d.roomFor p).inode p).ptr ((d.inode p).count / 128) ≠ 0 := by
  have hr : (d.inode p).count / 128 < 12 := by omega
  rw [Disk.roomFor]
  split
  · next h0 =>
    have hb := hroom h0
    have hunused : d.IsDir p → (d.inode p).count ≤ 128 * ((d.inode p).count / 128) :=
      fun _ => by omega
    refine ⟨h.mountBlock hp.1 (h.directories.dir p hp).marked hr hb.nextData_lt hb.dmap_nextData
      hunused, graph_mountBlock hp.1 hr d.nextData_lt hunused, (isDir_mountBlock p).mpr hp,
      count_mountBlock p, ?_⟩
    rw [ptr_mountBlock hr d.nextData_lt, if_pos ⟨rfl, rfl⟩]
    exact h.pointers.ne_zero_of_free hb.dmap_nextData
  · next h0 =>
    exact ⟨h, rfl, hp, rfl, (h.directories.dir p hp).block _ (by omega)⟩

@[simp] theorem imap_roomFor (p j : ℕ) : (d.roomFor p).imap j = d.imap j := by
  rw [Disk.roomFor]
  split <;> simp

theorem inode_roomFor_of_ne {p j : ℕ} (hj : j ≠ p) : (d.roomFor p).inode j = d.inode j := by
  rw [Disk.roomFor]
  split
  · rw [inode_mountBlock, if_neg hj]
  · rfl

theorem stSize_roomFor (p : ℕ) : ((d.roomFor p).inode p).stSize = (d.inode p).stSize := by
  rw [inode_roomFor, withBlock]
  split
  · rw [INode.setPtr_stSize]
  · rfl

/-- The data map has at most the fresh block in addition. -/
theorem dmap_roomFor (p : ℕ) {b : ℕ} (hb : b < 65536) : (d.roomFor p).dmap b =
    (d.dmap b || decide ((d.inode p).count % 128 = 0 ∧ b = d.nextData)) := by
  rw [Disk.roomFor]
  split
  · next h0 => rw [dmap_mountBlock d.nextData_lt hb]; simp [h0]
  · next h0 => simp [h0]

section AddEntry

variable {env : Env} {clock p limit : ℕ}

theorem inode_addEntry_of_ne {j : ℕ} (hj : j < 32768) (hjp : j ≠ p) :
    (d.addEntry env e clock p).inode j = d.inode j := by
  rw [addEntry, inode_appendEntry hj, if_neg hjp, inode_roomFor_of_ne hjp]

/-- The directory has the block and one entry more. -/
theorem inode_addEntry_self (hp : p < 32768) :
    (d.addEntry env e clock p).inode p = (d.withBlock (d.inode p)).grown env clock := by
  rw [addEntry, inode_appendEntry hp, if_pos rfl, inode_roomFor]

/-- The entry is behind the ones before. -/
theorem entryOf_addEntry (hp : p < 32768) :
    (d.addEntry env e clock p).entryOf ((d.addEntry env e clock p).inode p) (d.inode p).count =
      e := by
  have hcount : ((d.roomFor p).inode p).count = (d.inode p).count := by
    rw [INode.count, stSize_roomFor, INode.count]
  have hinode : (d.addEntry env e clock p).inode p = ((d.roomFor p).inode p).grown env clock := by
    rw [addEntry, inode_appendEntry hp, if_pos rfl]
  rw [hinode, entryOf, (INode.sameBlocks_grown env clock _).ptr, addEntry, data_appendEntry hp,
    hcount, if_pos rfl, Block.entry_setEntry, if_pos rfl]

@[simp] theorem imap_addEntry (j : ℕ) : (d.addEntry env e clock p).imap j = d.imap j := by
  rw [addEntry, imap_appendEntry, imap_roomFor]

/-- An entry takes a block exactly when the entries before it fill theirs. -/
theorem dmap_addEntry {b : ℕ} (hb : b < 65536) : (d.addEntry env e clock p).dmap b =
    (d.dmap b || decide ((d.inode p).count % 128 = 0 ∧ b = d.nextData)) := by
  rw [addEntry, dmap_appendEntry, dmap_roomFor p hb]

theorem roomFor_setInode {q : ℕ} {y : INode} (hne : p ≠ q) :
    (d.setInode q y).roomFor p = (d.roomFor p).setInode q y := by
  have hnext : (d.setInode q y).nextData = d.nextData := nextData_congr fun b => dmap_setInode q y b
  rw [roomFor, roomFor, inode_setInode_of_ne hne, hnext]
  split
  · rw [mountBlock, mountBlock, inode_setInode_of_ne hne, coverData_setInode, setInode_comm hne]
  · rfl

/-- The record of another inode may be written before or after. -/
theorem addEntry_setInode {q : ℕ} {y : INode} (hq : q < 32768) (hne : p ≠ q) :
    (d.setInode q y).addEntry env e clock p = (d.addEntry env e clock p).setInode q y := by
  rw [addEntry, addEntry, roomFor_setInode hne, appendEntry, appendEntry, inode_setInode_of_ne hne,
    data_setInode hq, setData_setInode hq, setInode_comm hne]

variable (h : d.Sound limit) (hp : d.IsDir p) (hcount : (d.inode p).count < 1536)
include h hp hcount

/-- The size of the directory grows by one entry. -/
theorem Sound.toNat_addEntry (env : Env) (clock : ℕ) :
    (((d.roomFor p).inode p).grown env clock).stSize.toNat = (d.inode p).stSize.toNat + 32 := by
  have hsize := (h.directories.dir p hp).size_eq
  rw [INode.toNat_grown env _ (by rw [stSize_roomFor]; omega), stSize_roomFor]

variable (hroom : d.HasRoom (d.inode p))
include hroom

/-- **An added entry** is an edge of the naming graph, behind those of its directory. -/
theorem Sound.graph_addEntry :
    (d.addEntry env e clock p).graph = d.graph.insert p e.fileName e.inodeNumber.toNat := by
  obtain ⟨hsound, hgraph, hdir, hsame, hblock⟩ := h.roomFor hp hcount hroom
  have hsize := h.toNat_addEntry hp hcount env clock
  rw [addEntry, hsound.graph_appendEntry hdir (hsame ▸ hblock) (INode.sameBlocks_grown env clock _),
    hgraph]
  rw [hsame]
  exact INode.count_eq_of_toNat (by rw [hsize, (h.directories.dir p hp).size_eq, Nat.mul_succ])

/-- Adding an entry for an inode that no directory names yet. -/
theorem Sound.addEntry {a : Name} (ha : a.fileName = e.fileName)
    (hfresh : d.graph.lookup p e.fileName = none) (hnumber : e.inodeNumber.toNat < 32768)
    (hset : d.imap e.inodeNumber.toNat = true) (hroot : e.inodeNumber.toNat ≠ 4)
    (hunnamed : ∀ q b, (b, e.inodeNumber.toNat) ∉ d.graph q) :
    (d.addEntry env e clock p).Sound limit := by
  obtain ⟨hsound, hgraph, hdir, hsame, hblock⟩ := h.roomFor hp hcount hroom
  have hsize := h.toNat_addEntry hp hcount env clock
  refine hsound.appendEntry hdir (by rwa [hsame]) (hsame ▸ hblock)
    (INode.sameBlocks_grown env clock _)
    (by rw [hsize, stSize_roomFor]) ha (by rwa [hgraph]) hnumber (by rwa [imap_roomFor]) hroot ?_
  rw [hgraph]
  exact hunnamed

end AddEntry

end Disk

section Store

variable {d : Disk} {x : INode} (clock : ℕ) (e : DictioryContent)

omit d in
/-- The direct part of `add_file_to_dict`, for a record of `n` entries: the ranks are computed. -/
theorem storeInDict_direct {n : ℕ} (hn : x.stSize.toInt.tdiv 32 = n) (hlt : n < 1536) :
    storeInDict env x e = (if n % 128 = 0 then do
        let dataBlockNodeNumber ← takeDatablock env
        let directPointer ← Prog.assign x.directPointer ((n / 128 : ℕ) : ℤ)
          (BitVec.ofInt 32 dataBlockNodeNumber)
        addADictInDataBlock env dataBlockNodeNumber e 0
        pure { x with directPointer := directPointer }
      else do
        let pointer ← Prog.index x.directPointer ((n / 128 : ℕ) : ℤ)
        addADictInDataBlock env pointer.toInt e ((n % 128 : ℕ) : ℤ)
        pure x) := by
  have hdirect : ((n / 128 : ℕ) : ℤ) < 12 := by omega
  have hnumber : cInt (x.stSize.toInt.tdiv 32) = n := by rw [hn, cInt_natCast (by omega)]
  have hdiv : (n : ℤ).tdiv 128 = ((n / 128 : ℕ) : ℤ) := natCast_tdiv_ofNat _ _
  have hmod : (n : ℤ).tmod 128 = ((n % 128 : ℕ) : ℤ) := natCast_tmod_ofNat _ _
  rw [storeInDict, hnumber]
  simp only [hdiv, hmod, if_pos hdirect, Nat.cast_eq_zero]

/-- The direct part of `add_file_to_dict`, for a record of `n` entries, on any disk. -/
theorem run_storeInDict_direct {n : ℕ} (hn : x.stSize.toInt.tdiv 32 = n) (hlt : n < 1536)
    (hblock : d.blockFor x n < 64508) :
    (storeInDict env x e).run vdisk d = some (d.withRoom x n, d.withEntry x e n) := by
  have hr : n / 128 < 12 := by omega
  rw [storeInDict_direct env e hn hlt]
  simp only [Disk.withRoom, Disk.withEntry]
  by_cases h0 : n % 128 = 0
  · -- a block is taken, and the entry is its first one
    have hfresh : d.blockFor x n = d.nextData := if_pos h0
    have hposition : (0 : ℤ) = ((0 : ℕ) : ℤ) := rfl
    rw [if_pos h0, if_pos h0, if_pos h0,
      Prog.run_bind_some _ (run_takeDatablock env d),
      ← hfresh, INode.assign_directPointer hr, Prog.ret_bind, hposition,
      Prog.run_bind_some _ (run_addADictInDataBlock env hblock (by decide) e _),
      Disk.data_coverData, Disk.setEntry_zero h0, Prog.pure_eq_ret, Prog.run_ret]
    rw [INode.setPtr, dif_pos hr]
  · -- the block of the last entries has room
    have hmounted : d.blockFor x n = x.ptr (n / 128) := if_neg h0
    rw [hmounted] at hblock ⊢
    rw [if_neg h0, if_neg h0, if_neg h0, INode.index_directPointer hr, Prog.ret_bind,
      INode.toInt_directPointer hr hblock,
      Prog.run_bind_some _ (run_addADictInDataBlock env hblock (Nat.mod_lt _ (by decide)) e d),
      Prog.pure_eq_ret, Prog.run_ret]
    simp only [Block.setEntry, Nat.mod_mod]

omit d e in
/-- The number of entries as `add_file_to_dict` computes it before the conversion. -/
theorem INode.tdiv_stSize (hcount : x.count < 1536) : x.stSize.toInt.tdiv 32 = x.count := by
  rw [toInt_eq_natCast_long (by unfold INode.count at hcount; omega), natCast_tdiv_ofNat,
    INode.count]

omit e in
/-- The block of the next entry exists on the disk. -/
theorem Disk.blockFor_count_lt (hcount : x.count < 1536) (hroom : d.HasRoom x)
    (hptr : ∀ r < 12, x.ptr r < 64508) : d.blockFor x x.count < 64508 := by
  rw [Disk.blockFor]
  split
  · next h0 => exact (hroom h0).nextData_lt
  · exact hptr _ (by omega)

/-- **`storeInDict`** where the entry has a direct rank and a block. -/
theorem run_storeInDict (hcount : x.count < 1536) (hroom : d.HasRoom x)
    (hptr : ∀ r < 12, x.ptr r < 64508) :
    (storeInDict env x e).run vdisk d = some (d.withBlock x, d.storeEntry x e) := by
  rw [run_storeInDict_direct env e (INode.tdiv_stSize hcount) hcount
    (Disk.blockFor_count_lt hcount hroom hptr), Disk.withRoom, Disk.withEntry, Disk.blockFor,
    Disk.withBlock, Disk.storeEntry]
  split
  · rfl
  · rfl

/-- **`add_file_to_dict`**: the record it returns has the entry counted, and only the entry is
stored. -/
theorem run_addFileToDict (hcount : x.count < 1536) (hroom : d.HasRoom x)
    (hptr : ∀ r < 12, x.ptr r < 64508) :
    (addFileToDict env clock x e).run vdisk d =
      some ((d.withBlock x).grown env clock, d.storeEntry x e) := by
  rw [addFileToDict, Prog.run_bind, run_storeInDict env e hcount hroom hptr]
  rfl

end Store

/-! ### Mounting in the parent -/

/-- The father's record is read, `add_file_to_dict` runs, the block of records read before is
written back with the father's new record, and the result depends on its size alone. -/
theorem run_mountInFather {d : Disk} {p : ℕ} (hp : p < 32768) (e : DictioryContent) :
    (mountInFather env p e).run vdisk d =
      ((addFileToDict env 3 (d.inode p) e).run vdisk d).map fun q =>
        (if q.1.stSize.toInt.tdiv 32 > 128 * 12 then negENOSPC else 0,
          Function.update q.2 (4 + p / 32) (Block.inodes.symm
            (Function.update (d (4 + p / 32)).inodes ⟨p % 32, Nat.mod_lt _ (by decide)⟩ q.1))) := by
  have hblock : 4 + p / 32 < 65536 := by omega
  have hindex : p % 32 < 32 := by omega
  have hfather : (d (4 + p / 32)).inodes ⟨p % 32, hindex⟩ = d.inode p := rfl
  simp only [mountInFather, inodeFindDiskIdAndIndexInDisk_natCast]
  rw [Prog.run_bind_some _ (run_readINodes env hblock d), Prog.index_natCast _ hindex,
    Prog.ret_bind, Prog.run_bind, hfather]
  cases (addFileToDict env 3 (d.inode p) e).run vdisk d with
  | none => rfl
  | some q =>
    obtain ⟨b, hb⟩ := exists_run_envRead env (datablockFindDiskId (q.1.directPointer 0).toInt)
      (Function.update q.2 (4 + p / 32) (Block.inodes.symm
        (Function.update (d (4 + p / 32)).inodes ⟨p % 32, hindex⟩ q.1)))
    rw [Option.bind_some, Prog.assign_natCast _ hindex, Prog.ret_bind, Prog.run_bind,
      run_writeINodes hblock, Option.bind_some, Prog.run_bind_some _ hb, Option.map_some]
    by_cases hfull : q.1.stSize.toInt.tdiv 32 > 128 * 12
    · rw [if_pos hfull, if_pos hfull]
      rfl
    · rw [if_neg hfull, if_neg hfull]
      rfl

/-- The table of records is not touched by the storing of an entry. -/
theorem Disk.storeEntry_apply {d : Disk} {x : INode} (e : DictioryContent) {n : ℕ} (h4 : 4 ≤ n)
    (hn : n < 1028) : d.storeEntry x e n = d n := by
  unfold storeEntry coverData orDataMap setData
  split
  · rw [Function.update_of_ne (by omega)]
    split <;> rw [Function.update_of_ne (by omega)]
  · rw [Function.update_of_ne (by omega)]

/-- A record of fewer than `128 * 12` entries does not exceed the limit with one more. -/
theorem tdiv_stSize_grown {x : INode} {n clock : ℕ} (h : x.stSize.toInt.tdiv 32 = n)
    (hlt : n < 1536) : ¬ (x.grown env clock).stSize.toInt.tdiv 32 > 128 * 12 := by
  obtain ⟨hlow, hhigh⟩ := bounds_of_tdiv h
  have hthirtytwo : (32 : BitVec 64).toInt = 32 := by decide
  have hsize : (x.grown env clock).stSize.toInt = x.stSize.toInt + 32 := by
    rw [INode.grown, BitVec.toInt_add, hthirtytwo]
    exact Int.bmod_eq_of_le (by omega) (by omega)
  rw [hsize, Int.tdiv_eq_ediv_of_nonneg (by omega)]
  omega

/-- **Mounting in a parent with room** returns 0 and adds the entry. -/
theorem run_mountInFather_eq {d : Disk} {p : ℕ} (hp : p < 32768) (e : DictioryContent)
    (hcount : (d.inode p).count < 1536) (hroom : d.HasRoom (d.inode p))
    (hptr : ∀ r < 12, (d.inode p).ptr r < 64508) :
    (mountInFather env p e).run vdisk d =
      some (0, d.addEntry env e 3 p) := by
  have hresult : ¬ ((d.withBlock (d.inode p)).grown env 3).stSize.toInt.tdiv 32 > 128 * 12 := by
    have hstSize : (d.withBlock (d.inode p)).stSize = (d.inode p).stSize := by
      rw [Disk.withBlock]
      split
      · rw [INode.setPtr_stSize]
      · rfl
    exact tdiv_stSize_grown env (by rw [hstSize, INode.tdiv_stSize hcount]) hcount
  have happly : (d (4 + p / 32)).inodes =
      (d.storeEntry (d.inode p) e (4 + p / 32)).inodes := by
    rw [Disk.storeEntry_apply e (by omega) (by omega)]
  rw [run_mountInFather env hp, run_addFileToDict env 3 e hcount hroom hptr, Option.map_some,
    if_neg hresult, happly, Disk.addEntry, Disk.inode_roomFor,
    ← Disk.setInode_storeEntry hp hcount, Disk.setInode]

/-! ### The creation of a file or directory -/

namespace Disk

/-- The disk after inode `k` is created with a mode and named `a` in directory `p`. -/
def created (d : Disk) (mode : BitVec 32) (p : ℕ) (a : Name) (k : ℕ) : Disk :=
  (d.withFreshInode env mode k).addEntry env ⟨a.fileName, BitVec.ofInt 32 k⟩ 3 p

/-- What the code needs for a creation in directory `p`: a free inode, fewer than `128 * 12`
entries, no entry of this name, and a data block if the entries fill their blocks. -/
structure CanCreate (d : Disk) (p : ℕ) (a : Name) : Prop where
  dir : d.IsDir p
  inode : d.HasInode
  count_lt : (d.inode p).count < 1536
  fresh : d.graph.lookup p a.fileName = none
  room : d.HasRoom (d.inode p)

end Disk

section Create

variable {d : Disk} {p limit : ℕ} {a : Name} (mode : BitVec 32)

/-- A parent is in use, and what is handed out is not. -/
theorem Disk.CanCreate.ne_nextInode (hd : d.Sound limit) (h : d.CanCreate p a) :
    p ≠ d.nextInode := by
  intro hp
  have hfree := h.inode.imap_nextInode
  rw [← hp] at hfree
  exact hd.not_isDir_of_free hfree h.dir

/-- The new record is another one than the parent's. -/
theorem Disk.CanCreate.inode_parent (hd : d.Sound limit) (h : d.CanCreate p a) :
    (d.withFreshInode env mode d.nextInode).inode p = d.inode p := by
  rw [Disk.inode_withFreshInode, if_neg (h.ne_nextInode hd)]

/-- The entry of the new inode is added to the parent's directory. -/
theorem Disk.CanCreate.run_mountInFather (hd : d.Sound limit) (h : d.CanCreate p a) :
    (mountInFather env p ⟨a.fileName, BitVec.ofInt 32 d.nextInode⟩).run vdisk
      (d.withFreshInode env mode d.nextInode) = some (0, d.created env mode p a d.nextInode) := by
  have hinode := h.inode_parent env mode hd
  exact run_mountInFather_eq env (d := d.withFreshInode env mode d.nextInode) h.dir.1
    ⟨a.fileName, BitVec.ofInt 32 d.nextInode⟩ (by rw [hinode]; exact h.count_lt)
    (by rw [hinode]; simpa [Disk.HasRoom, Disk.HasBlock] using h.room)
    (by rw [hinode]; exact fun r _ => hd.pointers.lt p h.dir.1 r)

/-- The shared body of `fs_mknod` and `fs_mkdir`, from the parent's number on. -/
theorem run_fsCreate (hd : d.Sound limit) {as : List Name}
    (hresolve : d.graph.resolve 4 (as.map Name.fileName) = some p) (h : d.CanCreate p a)
    (behind : ℕ → Byte) :
    (fsCreate env (applyANewInodeWithMode env mode) (pathString (as ++ [a]) behind)).run vdisk d =
      some (0, d.created env mode p a d.nextInode) := by
  rw [fsCreate, pathString, splitPath_eq, Prog.ret_bind, Prog.run_bind,
    hd.walkable.run_understandThePath env hresolve, Option.bind_some, Prog.run_bind,
    run_applyANewInodeWithMode, Option.bind_some, Name.fileNameOf_padTo30, Prog.note_bind,
    Prog.run_note, Prog.pure_eq_ret, Prog.ret_bind, h.run_mountInFather env mode hd]

/-- An inode number comes back from the `int` of the entry. -/
theorem Disk.toNat_newEntry (d : Disk) :
    (BitVec.ofInt 32 (d.nextInode : ℤ)).toNat = d.nextInode :=
  toNat_ofInt_natCast (by have := d.nextInode_lt; omega)

variable (hd : d.Sound limit) (h : d.CanCreate p a)
include hd h

theorem Disk.CanCreate.isDir_parent : (d.withFreshInode env mode d.nextInode).IsDir p :=
  ⟨h.dir.1, by rw [h.inode_parent env mode hd]; exact h.dir.2⟩

/-- Initialising an inode takes no data block. -/
theorem Disk.CanCreate.hasRoom : (d.withFreshInode env mode d.nextInode).HasRoom
    ((d.withFreshInode env mode d.nextInode).inode p) := by
  rw [h.inode_parent env mode hd]
  simpa only [HasRoom, HasBlock, dmap_withFreshInode] using h.room

/-- A free inode is not named. -/
theorem Disk.CanCreate.unnamed (q : ℕ) (b : FileName) : (b, d.nextInode) ∉ d.graph q := by
  intro hmem
  have hset := hd.directories.graph.target_marked q _ hmem
  rw [h.inode.imap_nextInode] at hset
  cases hset

/-- **A creation adds one edge** to the naming graph. -/
theorem Disk.Sound.graph_created :
    (d.created env mode p a d.nextInode).graph = d.graph.insert p a.fileName d.nextInode := by
  have hfresh := hd.withFreshInode env mode d.nextInode_lt h.inode.imap_nextInode
  rw [Disk.created, hfresh.graph_addEntry (h.isDir_parent env mode hd)
    (by rw [h.inode_parent env mode hd]; exact h.count_lt) (h.hasRoom env mode hd),
    hd.graph_withFreshInode env mode d.nextInode_lt h.inode.imap_nextInode, d.toNat_newEntry]

/-- **A creation keeps the invariant**. -/
theorem Disk.Sound.created : (d.created env mode p a d.nextInode).Sound limit := by
  have hfresh := hd.withFreshInode env mode d.nextInode_lt h.inode.imap_nextInode
  have hgraph := hd.graph_withFreshInode env mode d.nextInode_lt
    h.inode.imap_nextInode
  refine hfresh.addEntry (h.isDir_parent env mode hd)
    (by rw [h.inode_parent env mode hd]; exact h.count_lt) (h.hasRoom env mode hd) (a := a) rfl
    (by rw [hgraph]; exact h.fresh) ?_ ?_ ?_ ?_
  · rw [d.toNat_newEntry]
    exact d.nextInode_lt
  · rw [d.toNat_newEntry, Disk.imap_withFreshInode d.nextInode_lt d.nextInode_lt]
    simp
  · rw [d.toNat_newEntry]
    intro h4
    have hfree := h.inode.imap_nextInode
    rw [h4] at hfree
    exact hd.not_isDir_of_free hfree hd.directories.root
  · rw [hgraph, d.toNat_newEntry]
    exact h.unnamed hd

omit h hd in
/-- All records but the parent's and the new one stay. -/
theorem Disk.inode_created_of_ne {j k : ℕ} (hj : j < 32768) (hp : j ≠ p) (hk : j ≠ k) :
    (d.created env mode p a k).inode j = d.inode j := by
  rw [Disk.created, Disk.inode_addEntry_of_ne hj hp, Disk.inode_withFreshInode, if_neg hk]

/-- The new record is the one that was initialised: the entry is counted in another. -/
theorem Disk.CanCreate.inode_created_new : (d.created env mode p a d.nextInode).inode d.nextInode =
    freshINode env mode d.nextInode (d.inode d.nextInode) := by
  rw [Disk.created, Disk.inode_addEntry_of_ne d.nextInode_lt (h.ne_nextInode hd).symm,
    Disk.inode_withFreshInode, if_pos rfl]

/-- The parent stays what it was. -/
theorem Disk.CanCreate.stMode_created_parent :
    ((d.created env mode p a d.nextInode).inode p).stMode = (d.inode p).stMode := by
  rw [Disk.created, Disk.inode_addEntry_self h.dir.1, h.inode_parent env mode hd, INode.grown,
    Disk.withBlock]
  split
  · rw [INode.setPtr_stMode]
  · rfl

omit h hd in
/-- Exactly the new inode is marked in addition. -/
theorem Disk.imap_created (j : ℕ) (hj : j < 32768) :
    (d.created env mode p a d.nextInode).imap j = (d.imap j || decide (j = d.nextInode)) := by
  rw [Disk.created, Disk.imap_addEntry, Disk.imap_withFreshInode d.nextInode_lt hj]

end Create

end InodeFs
