import InodeFs.Ops.Beside
import InodeFs.Ops.Effects

/-!
# A creation that is not interrupted

A creation that takes all its steps while nobody else takes one writes only blocks that it has
read, and to a map only to set a bit that was clear (`settles`), so that it obeys the rule
`upToDate`: every function has one theorem (`…_settles`) for its writes, and its value and its
effect are those of its run.

The rule `upToDate` asks of a write that the block on the disk is as the request saw it last. A
request alone has seen every block it writes (`Prog.Informed`, with the set of known blocks), and
nobody has changed them since. What is left to show for each write is that it makes a difference in
a map, and that follows from the bits that were clear before.

`createRest_settles` is the part behind the walk. With it two creations can be run one after the
other, or with their walks crossed, and the rule is obeyed.

The functions of a creation come in the order of the source. For each of them it is said what it has
read before it writes: a record is written back in the block of records that was read with it, an
entry in the block that it was read from.
-/

namespace InodeFs

open Prog (Informed)

/-- A write of a block that exists, which in a map makes a difference. -/
def settles : Disk → ℤ → Block → Prop := fun s id b =>
  0 ≤ id ∧ id < blockNum ∧ (1 ≤ id → id ≤ 3 → vdisk.load s id ≠ some b)

/-- Where blocks are as they were seen last, this is allowed. -/
theorem upToDate_of_settles (s : Disk) (seen : ℤ → Option Block) (id : ℤ) (b : Block)
    (hseen : vdisk.load s id = seen id) (h : settles s id b) : upToDate s seen id b :=
  ⟨hseen, h.2.2⟩

/-- Only the written block is read differently. -/
theorem load_store_of_settles (s : Disk) (id : ℤ) (b : Block) (h : settles s id b) (i : ℤ) :
    vdisk.load (vdisk.store s id b) i = if i = id then some b else vdisk.load s i := by
  obtain ⟨n, rfl⟩ := Int.eq_ofNat_of_zero_le h.1
  have hn : n < blockNum := Int.ofNat_lt.mp h.2.1
  rw [store_natCast s hn]
  by_cases hi : i = n
  · rw [if_pos hi, hi, load_natCast _ hn, Function.update_self]
  · rw [if_neg hi]
    by_cases hrange : 0 ≤ i ∧ i < blockNum
    · obtain ⟨m, rfl⟩ := Int.eq_ofNat_of_zero_le hrange.1
      have hm : m < blockNum := Int.ofNat_lt.mp hrange.2
      rw [load_natCast _ hm, load_natCast _ hm, Function.update_of_ne (by omega)]
    · simp only [vdisk, if_neg hrange]

section Settles

variable (env : Env) {α : Type} {s : Disk} {known : Set ℤ}

/-! ### Accesses -/

/-- A write to a block that was read; in a map it has to change something. -/
theorem diskWrite_settles {n : ℕ} (hn : n < 65536) {b : Block} (hmap : n ≤ 3 → b ≠ s n)
    (hknown : (n : ℤ) ∈ known) : (diskWrite n b).Informed vdisk settles known s := by
  refine Prog.informed_write.mpr ⟨hknown, ⟨by omega, Int.ofNat_lt.mpr hn, fun _ hle heq => ?_⟩,
    Prog.informed_ret⟩
  rw [load_natCast s hn] at heq
  exact hmap (Int.ofNat_le.mp hle) (Option.some.inj heq).symm

/-- What is read is known from then on. -/
theorem envRead_settles {n : ℕ} (hn : n < 65536) {f : Block → Fs α}
    (hf : ∀ known', known ⊆ known' → (n : ℤ) ∈ known' → (f (s n)).Informed vdisk settles known' s) :
    (env.read n >>= f).Informed vdisk settles known s := by
  refine Prog.informed_read.mpr ?_
  rw [load_natCast s hn]
  exact hf _ (Set.subset_insert _ _) (Set.mem_insert _ _)

theorem readINodes_settles {n : ℕ} (hn : n < 65536) {f : (Fin 32 → INode) → Fs α}
    (hf : ∀ known', known ⊆ known' → (n : ℤ) ∈ known' →
      (f (s n).inodes).Informed vdisk settles known' s) :
    (readINodes env n >>= f).Informed vdisk settles known s := by
  rw [readINodes, Prog.bind_assoc]
  exact envRead_settles env hn hf

/-! ### The inode -/

/-- Marking a free inode changes the map. -/
theorem makeInodeMapCovered_settles {k : ℕ} (hk : k < 32768) (hfree : s.imap k = false) :
    (makeInodeMapCovered env k).Informed vdisk settles known s := by
  rw [makeInodeMapCovered, show (1 : ℤ) = ((1 : ℕ) : ℤ) from rfl]
  refine envRead_settles env (by decide) fun known' _ hmem => ?_
  rw [run_orIntoMap env _ hk, Prog.ret_bind]
  refine diskWrite_settles (by decide) (fun _ heq => ?_) hmem
  have hset := Disk.imap_coverInode (d := s) hk hk
  rw [Disk.coverInode, heq, Function.update_eq_self, hfree] at hset
  simp at hset

/-- The record is written behind the map, in a block that was read. -/
theorem initialiseINode_settles (mode : BitVec 32) {k : ℕ} (hk : k < 32768)
    (hfree : s.imap k = false) :
    (initialiseINode env mode k).Informed vdisk settles known s := by
  have hblock : 4 + k / 32 < 65536 := by omega
  have hindex : k % 32 < 32 := Nat.mod_lt _ (by decide)
  rw [initialiseINode]
  refine (makeInodeMapCovered_settles env hk hfree).bind (run_makeInodeMapCovered env hk s)
    fun known' _ => ?_
  simp only [inodeFindDiskIdAndIndexInDisk_natCast]
  refine readINodes_settles env hblock fun known'' _ hmem => ?_
  rw [Prog.index_natCast _ hindex, Prog.ret_bind, Prog.assign_natCast _ hindex, Prog.ret_bind]
  exact Informed.bind (diskWrite_settles hblock (fun hle => by omega) hmem)
    (run_writeINodes hblock _ _) fun _ _ => Prog.informed_ret

/-! ### The data block -/

/-- Marking a free block changes the map. -/
theorem makeDataMapCovered_settles {b : ℕ} (hb : b < 65536) (hfree : s.dmap b = false) :
    (makeDataMapCovered env b).Informed vdisk settles known s := by
  have htarget : (if b < 32768 then 2 else 3) < 65536 := by split <;> decide
  rw [makeDataMapCovered]
  simp only [dataMapPosition_natCast]
  refine envRead_settles env htarget fun known' _ hmem => ?_
  rw [run_orIntoMap env _ (by split <;> omega), Prog.ret_bind]
  refine diskWrite_settles htarget (fun _ heq => ?_) hmem
  have hset := Disk.dmap_coverData (d := s) hb hb
  have hsame : s.coverData b = s := by
    rw [Disk.coverData, Disk.orDataMap]
    split
    · next h =>
      simp only [if_pos h] at heq
      rw [heq, Function.update_eq_self]
    · next h =>
      simp only [if_neg h] at heq
      rw [heq, Function.update_eq_self]
  rw [hsame, hfree] at hset
  simp at hset

/-- Taking a block marks one that was free. -/
theorem takeDatablock_settles (h : s.HasBlock) :
    (takeDatablock env).Informed vdisk settles known s := by
  rw [takeDatablock]
  refine (readOnly_findEmptyDatablock env).informed.bind (run_findEmptyDatablock env s)
    fun known' _ => ?_
  rw [Prog.note_bind, Prog.informed_note, Prog.pure_eq_ret, Prog.ret_bind]
  exact (makeDataMapCovered_settles env s.nextData_lt h.dmap_nextData).bind
    (run_makeDataMapCovered env s.nextData_lt s) fun _ _ => Prog.informed_ret

/-- An entry is stored in a block that was read. -/
theorem addADictInDataBlock_settles {b j : ℕ} (hb : b < 64508) (hj : j < 128)
    (e : DictioryContent) : (addADictInDataBlock env b e j).Informed vdisk settles known s := by
  rw [addADictInDataBlock, readEntries, Prog.bind_assoc, datablockFindDiskId_natCast]
  refine envRead_settles env (by omega) fun known' _ hmem => ?_
  rw [Prog.pure_eq_ret, Prog.ret_bind, Prog.assign_natCast _ hj, Prog.ret_bind]
  exact diskWrite_settles (by omega) (fun hle => by omega) hmem

/-! ### The entry -/

/-- Storing an entry takes a block first where it needs one. -/
theorem storeInDict_settles {x : INode} (e : DictioryContent) (hcount : x.count < 1536)
    (hroom : s.HasRoom x) (hptr : ∀ r < 12, x.ptr r < 64508) :
    (storeInDict env x e).Informed vdisk settles known s := by
  set n := x.count with hn
  have hr : n / 128 < 12 := by omega
  rw [storeInDict_direct env e (INode.tdiv_stSize hcount) hcount]
  by_cases h0 : n % 128 = 0
  · -- a block is taken: its bit is settled before the entry is stored in it
    have hlt := (hroom h0).nextData_lt
    rw [if_pos h0]
    refine (takeDatablock_settles env (hroom h0)).bind (run_takeDatablock env s) fun known' _ => ?_
    rw [INode.assign_directPointer hr, Prog.ret_bind]
    exact Informed.bind (addADictInDataBlock_settles env hlt (show 0 < 128 by decide) e)
      (run_addADictInDataBlock env hlt (show 0 < 128 by decide) e _) fun _ _ => Prog.informed_ret
  · have hblock := hptr (n / 128) hr
    have hslot : n % 128 < 128 := Nat.mod_lt n (by decide)
    rw [if_neg h0, INode.index_directPointer hr, Prog.ret_bind,
      INode.toInt_directPointer hr hblock]
    exact (addADictInDataBlock_settles env hblock hslot e).bind
      (run_addADictInDataBlock env hblock hslot e s) fun _ _ => Prog.informed_ret

/-- The parent's record is written last, in a block that was read first. -/
theorem mountInFather_settles {p : ℕ} (hp : p < 32768) (e : DictioryContent)
    (hcount : (s.inode p).count < 1536) (hroom : s.HasRoom (s.inode p))
    (hptr : ∀ r < 12, (s.inode p).ptr r < 64508) :
    (mountInFather env p e).Informed vdisk settles known s := by
  have hblock : 4 + p / 32 < 65536 := by omega
  have hindex : p % 32 < 32 := Nat.mod_lt _ (by decide)
  have hfather : (s (4 + p / 32)).inodes ⟨p % 32, hindex⟩ = s.inode p := rfl
  simp only [mountInFather, inodeFindDiskIdAndIndexInDisk_natCast]
  refine readINodes_settles env hblock fun known' _ hmem => ?_
  rw [Prog.index_natCast _ hindex, Prog.ret_bind, hfather, addFileToDict_eq, Prog.bind_assoc]
  refine (storeInDict_settles env e hcount hroom hptr).bind
    (run_storeInDict env e hcount hroom hptr) fun known'' hsub => ?_
  rw [Prog.ret_bind, Prog.assign_natCast _ hindex, Prog.ret_bind]
  refine Informed.bind (diskWrite_settles hblock (fun hle => by omega) (hsub hmem))
    (run_writeINodes hblock _ _) fun known₃ _ => ?_
  refine Prog.ReadOnly.informed ((readOnly_envRead env _).bind fun _ => ?_)
  split <;> exact Prog.readOnly_pure _

/-- The part of a creation behind the walk to its directory. -/
theorem createRest_settles {d : Disk} {p : ℕ} {a : Name} (mode : BitVec 32) (hd : d.Sound)
    (h : d.CanCreate p a) :
    (do
      let newInodeNumber ← applyANewInodeWithMode env mode
      let newFile : DictioryContent :=
        ⟨fileNameOf (padTo30 a.chars), BitVec.ofInt 32 newInodeNumber⟩
      Prog.note (.entry newFile) (pure ())
      mountInFather env p newFile : Fs ℤ).Informed vdisk settles known d := by
  have hinode := h.inode_parent env mode hd
  rw [applyANewInodeWithMode_eq, Prog.bind_assoc]
  have hfind : (findEmptyInode env).ReadOnly := by
    rw [findEmptyInode_eq]
    exact (readOnly_envRead env _).bind fun _ => Prog.readOnly_pure _
  refine hfind.informed.bind (run_findEmptyInode env d) fun known' _ => ?_
  refine (initialiseINode_settles env mode d.nextInode_lt h.inode.imap_nextInode).bind
    (run_initialiseINode env mode d.nextInode_lt d) fun known'' _ => ?_
  rw [Prog.note_bind, Prog.informed_note, Prog.pure_eq_ret, Prog.ret_bind]
  exact mountInFather_settles env h.dir.1 _ (by rw [hinode]; exact h.count_lt)
    (by rw [hinode]; simpa [Disk.HasRoom, Disk.HasBlock] using h.room)
    (by rw [hinode]; exact fun r _ => hd.pointers.lt p h.dir.1 r)

end Settles

end InodeFs
