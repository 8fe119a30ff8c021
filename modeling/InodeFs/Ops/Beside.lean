import InodeFs.Lib.Interleaving
import InodeFs.State.Joint

/-!
# A creation beside another one

The functions of a creation, run while another creation takes steps in between. A request
holds no lock, but it may be lucky: `upToDate` says that a write undoes nothing, because the
block is still as the request saw it last and a map is written only where that sets a bit. For
such runs every function has one theorem (`…_serves`) that names the changes it has made when it
returns, and the last one, `fsCreate_serves`, those of the whole creation.

The theorems have one shape. The request comes with the changes it has made so far, `l`, and with
what it has seen of each block; the other one has made some changes `l'`, which are not known and
may have grown when the request comes back to the disk. What is known is that both lists together
are a state of `Disk.Joint`. A read tells what is there now, and a write that is up to date adds a
change to `l` (`diskWrite_serves`).

The data map lies in two blocks, and a search reads the second one only where the first is full.
That a number is still free when its bit is set does not follow from what was read at the search,
but from the rule on writes.
-/

namespace InodeFs

open Prog (Beside)

/-- **A write that undoes nothing**: the block holds what the request last saw there, and a block
of a map is not left as it is (the bit to be set is still clear). -/
def upToDate : WriteRule Disk Block := fun s seen id b =>
  vdisk.load s id = seen id ∧ (1 ≤ id → id ≤ 3 → vdisk.load s id ≠ some b)

/-- The program of a creation in directory `p` beside one in directory `q`. -/
abbrev Disk.Serves {α : Type} (d : Disk) (p q : ℕ) (prog : Fs α) (seen : ℤ → Option Block)
    (l : List Change) (s : Disk) (Q : α → (ℤ → Option Block) → List Change → Disk → Prop) : Prop :=
  prog.Beside vdisk upToDate (d.Joint p q) d.Lasts seen l s Q

section Serves

variable (env : Env) {d s : Disk} {p q : ℕ} {l : List Change} {seen : ℤ → Option Block}

/-! ### Accesses -/

theorem envRead_serves {n : ℕ} (hn : n < 65536)
    {Q : Block → (ℤ → Option Block) → List Change → Disk → Prop}
    (hQ : ∀ l' t, d.Lasts s t → d.Joint p q l l' t →
      Q (t n) (Function.update seen (n : ℤ) (some (t n))) l t) :
    d.Serves p q (env.read n) seen l s Q := by
  refine Prog.beside_read.mpr fun l' t hst hj => ?_
  rw [load_natCast t hn]
  exact Prog.beside_ret.mpr (hQ l' t hst hj)

theorem readINodes_serves {n : ℕ} (hn : n < 65536)
    {Q : (Fin 32 → INode) → (ℤ → Option Block) → List Change → Disk → Prop}
    (hQ : ∀ l' t, d.Lasts s t → d.Joint p q l l' t →
      Q (t n).inodes (Function.update seen (n : ℤ) (some (t n))) l t) :
    d.Serves p q (readINodes env n) seen l s Q :=
  (envRead_serves env hn (Q := fun b seen l t => Q b.inodes seen l t) hQ).bind
    fun _ _ _ _ hQ => Prog.beside_ret.mpr hQ

theorem readEntries_serves {b : ℕ} (hb : b < 64508)
    {Q : (Fin 128 → DictioryContent) → (ℤ → Option Block) → List Change → Disk → Prop}
    (hQ : ∀ l' t, d.Lasts s t → d.Joint p q l l' t →
      Q (t.data b).entries (Function.update seen ((1028 + b : ℕ) : ℤ) (some (t.data b))) l t) :
    d.Serves p q (readEntries env (datablockFindDiskId b)) seen l s Q := by
  rw [readEntries, datablockFindDiskId_natCast]
  exact (envRead_serves env (by omega) (Q := fun b seen l t => Q b.entries seen l t) hQ).bind
    fun _ _ _ _ hQ => Prog.beside_ret.mpr hQ

/-- A read of whatever block changes nothing. -/
theorem envRead_serves_any (id : ℤ) :
    d.Serves p q (env.read id) seen l s fun _ _ l₁ _ => l₁ = l :=
  Prog.beside_read.mpr fun _ _ _ _ => Prog.beside_ret.mpr rfl

theorem Change.target_lt {c : Change} (hc : c.part.InRange) : c.target < 65536 := by
  cases c with
  | coverInode i => exact (by decide : 1 < 65536)
  | setInode i x =>
    have hi : i < 32768 := hc
    exact (by omega : 4 + i / 32 < 65536)
  | coverData b =>
    rw [target]
    split <;> decide
  | setData b content =>
    have hb : b < 64508 := hc
    exact (by omega : 1028 + b < 65536)

/-- **A write** of a block that was read before makes a change: of what is there now, since that
is what was read. -/
theorem diskWrite_serves {c : Change} (hc : c.part.InRange) {buffer : Block}
    (hseen : seen c.target = some buffer)
    (hjoint : ∀ l' t, d.Lasts s t → d.Joint p q l l' t →
      (c.target ≤ 3 → c.edit (t c.target) ≠ t c.target) →
      d.Joint p q (l ++ [c]) l' (t.apply c) ∧ d.Lasts t (t.apply c)) :
    d.Serves p q (diskWrite c.target (c.edit buffer)) seen l s fun _ seen' l₁ t =>
      (l₁ = l ++ [c] ∧ seen' = Function.update seen (c.target : ℤ) (some (c.edit buffer))) ∧
        ∃ l', d.Joint p q l₁ l' t := by
  refine Prog.beside_write.mpr fun l' t hst hj hok => ?_
  have htarget := c.target_lt hc
  have hpos : 1 ≤ c.target := by
    cases c with
    | coverData b =>
      rw [Change.target]
      split <;> decide
    | coverInode i => exact le_rfl
    | setInode i x => exact (by omega : 1 ≤ 4 + i / 32)
    | setData b content => exact (by omega : 1 ≤ 1028 + b)
  -- the write is allowed where the block is as it was seen
  obtain ⟨hload, hchange⟩ := hok
  rw [load_natCast t htarget] at hload hchange
  obtain rfl : t c.target = buffer := Option.some.inj (hload.trans hseen)
  have hstore : vdisk.store t (c.target : ℤ) (c.edit (t c.target)) = t.apply c := by
    rw [store_natCast t htarget, Change.apply_eq_update]
  rw [hstore]
  obtain ⟨hj', hlasts⟩ := hjoint l' t hst hj fun hle heq =>
    hchange (Int.ofNat_le.mpr hpos) (Int.ofNat_le.mpr hle) (congrArg some heq.symm)
  exact ⟨l ++ [c], hj', hlasts, Prog.beside_ret.mpr ⟨⟨rfl, rfl⟩, l', hj'⟩⟩

/-! ### The inode -/

theorem Block.firstClear_lt {b : Block} {n : ℕ} (h : b.firstClear = some n) : n < 32768 := by
  rw [firstClear, List.find?_range_eq_some, List.mem_range] at h
  exact h.2.1

/-- The search reads the map once. -/
theorem findEmptyInode_eq : findEmptyInode env = (do
    let buffer ← env.read (1 : ℕ)
    .ret ((buffer.firstClear.getD 0 : ℕ) : ℤ)) := by
  rw [findEmptyInode]
  refine congrArg (env.read (1 : ℕ) >>= ·) (funext fun buffer => ?_)
  rw [scanBytes_ofFn]
  cases buffer.firstClear <;> simp

theorem findEmptyInode_serves : d.Serves p q (findEmptyInode env) seen l s fun a _ l₁ _ =>
    ∃ k : ℕ, a = k ∧ k < 32768 ∧ l₁ = l := by
  have hread : d.Serves p q (env.read (1 : ℕ)) seen l s fun _ _ l₁ _ => l₁ = l :=
    envRead_serves env (by decide) fun _ _ _ _ => rfl
  rw [findEmptyInode_eq]
  refine hread.bind fun buffer _ l₁ t hl => Prog.beside_ret.mpr ⟨_, rfl, ?_, hl⟩
  cases h : buffer.firstClear with
  | none => decide
  | some n => exact Block.firstClear_lt h

/-- The new inode's bit is set, and it was clear. -/
theorem makeInodeMapCovered_serves {k : ℕ} (hk : k < 32768) :
    d.Serves p q (makeInodeMapCovered env k) seen l s fun _ _ l₁ _ =>
      l₁ = l ++ [.coverInode k] ∧ d.imap k = false := by
  rw [makeInodeMapCovered, show (1 : ℤ) = ((1 : ℕ) : ℤ) from rfl]
  refine Beside.bind (envRead_serves env (by decide)
    (Q := fun b seen' l₁ _ => l₁ = l ∧ seen' ((1 : ℕ) : ℤ) = some b)
    fun _ _ _ _ => ⟨rfl, Function.update_self ..⟩) ?_
  rintro buffer seen' l t ⟨rfl, hseen⟩
  rw [run_orIntoMap env _ hk, Prog.ret_bind]
  refine (diskWrite_serves (c := .coverInode k) hk hseen fun l' u _ hj hchange => ?_).mono ?_
  swap
  · rintro _ _ _ u ⟨⟨rfl, -⟩, l', hj⟩
    have hmem : Change.coverInode k ∈ l ++ [Change.coverInode k] :=
      List.mem_append_right _ (by simp)
    exact ⟨rfl, (hj.left.permits _ hmem).2⟩
  have hfree : u.imap k = false := by
    by_contra hset
    exact hchange (show 1 ≤ 3 by decide) (Block.orMask_eq_self hk ((Bool.not_eq_false _).mp hset))
  exact ⟨(hj.acquire_inode hk hfree).2, .apply hk fun i x hc => by cases hc⟩

/-- The record of an inode that is the creation's own is replaced. -/
theorem writeINodes_serves {k : ℕ} {x : INode} (hpermits : ∀ l' t, d.Joint p q l l' t →
      d.Permits p (.setInode k x) ∧ t.Marked (.inode k) ∧ (∀ c ∈ l', Part.inode k ≠ c.part) ∧
        t.inode k = d.inode k) (hk : k < 32768) {buffer : Block}
    (hseen : seen ((4 + k / 32 : ℕ) : ℤ) = some buffer) :
    d.Serves p q (writeINodes ((4 + k / 32 : ℕ) : ℤ)
      (Function.update buffer.inodes ⟨k % 32, Nat.mod_lt _ (by decide)⟩ x)) seen l s
      fun _ _ l₁ _ => l₁ = l ++ [.setInode k x] := by
  refine (diskWrite_serves (c := .setInode k x) hk hseen fun l' t _ hj _ => ?_).mono
    fun _ _ _ _ h => h.1.1
  obtain ⟨hperm, hmarked, hdisjoint, hsame⟩ := hpermits l' t hj
  refine ⟨hj.concat hperm (hmarked.apply hk hk) hdisjoint fun b hb => ?_,
    .apply hk fun i y hc => ?_⟩
  · cases hb
  · obtain ⟨rfl, rfl⟩ := Change.setInode.inj hc
    exact hsame

/-- **The new inode**: a clear bit is set, and the record behind it initialised. -/
theorem applyANewInodeWithMode_serves (mode : BitVec 32) :
    d.Serves p q (applyANewInodeWithMode env mode) seen [] s fun a _ l₁ _ => ∃ k : ℕ, a = k ∧
      k < 32768 ∧ d.imap k = false ∧
        l₁ = [.coverInode k, .setInode k (freshINode env mode k (d.inode k))] := by
  rw [applyANewInodeWithMode]
  refine (findEmptyInode_serves env).bind ?_
  rintro _ _ _ _ ⟨k, rfl, hk, rfl⟩
  have hblock : 4 + k / 32 < 65536 := by omega
  have hindex : k % 32 < 32 := Nat.mod_lt _ (by decide)
  refine (makeInodeMapCovered_serves env hk).bind ?_
  rintro _ _ _ _ ⟨rfl, hfree⟩
  -- the inode is the creation's own from here on
  have hown (l' : List Change) (t : Disk) (hj : d.Joint p q [.coverInode k] l' t) :
      d.Permits p (.setInode k (freshINode env mode k (d.inode k))) ∧ t.Marked (.inode k) ∧
        (∀ c ∈ l', Part.inode k ≠ c.part) ∧ t.inode k = d.inode k := by
    have hmem := List.mem_singleton_self (Change.coverInode k)
    refine ⟨⟨hk, .inl (hj.left.permits _ hmem).2⟩, hj.left.marked _ hmem, hj.disjoint _ hmem,
      hj.inode_eq hk (fun x hx => ?_) fun c hc => (hj.disjoint _ hmem c hc).symm⟩
    cases List.mem_singleton.mp hx
  simp only [inodeFindDiskIdAndIndexInDisk_natCast]
  refine Beside.bind (readINodes_serves env hblock (Q := fun buffer seen' l₁ t =>
    ∃ block : Block, buffer = block.inodes ∧ buffer ⟨k % 32, hindex⟩ = d.inode k ∧
      seen' ((4 + k / 32 : ℕ) : ℤ) = some block ∧ l₁ = [.coverInode k]) fun l' t _ hj =>
        ⟨_, rfl, (hown l' t hj).2.2.2, Function.update_self .., rfl⟩) ?_
  rintro _ seen' _ t ⟨block, rfl, hrecord, hseen, rfl⟩
  rw [Prog.index_natCast _ hindex, Prog.ret_bind, Prog.assign_natCast _ hindex, Prog.ret_bind,
    hrecord]
  refine (writeINodes_serves hown hk hseen).bind ?_
  rintro _ _ _ _ rfl
  exact Prog.beside_ret.mpr ⟨k, rfl, hk, hfree, rfl⟩

/-! ### The data block -/

/-- What was last seen of the inode table is still known. -/
def SameTable (seen seen' : ℤ → Option Block) : Prop :=
  ∀ n : ℕ, 4 ≤ n → n < 1028 → seen' n = seen n

theorem SameTable.refl (seen : ℤ → Option Block) : SameTable seen seen := fun _ _ _ => rfl

theorem SameTable.trans {seen seen' seen'' : ℤ → Option Block} (h : SameTable seen seen')
    (h' : SameTable seen' seen'') : SameTable seen seen'' :=
  fun n h4 hn => (h' n h4 hn).trans (h n h4 hn)

theorem sameTable_update (seen : ℤ → Option Block) {n : ℕ} (hn : n < 4 ∨ 1028 ≤ n)
    (b : Option Block) : SameTable seen (Function.update seen (n : ℤ) b) :=
  fun m h4 hm => Function.update_of_ne (by omega) _ _

/-- The search reads the second block of the map only where the first one is full. -/
theorem findEmptyDatablock_eq : findEmptyDatablock env = (do
    let low ← env.read (2 : ℕ)
    match low.firstClear with
    | some n => .ret (n : ℤ)
    | none => do
      let high ← env.read (3 : ℕ)
      .ret ((high.firstClear.elim 0 (32768 + ·) : ℕ) : ℤ)) := by
  rw [findEmptyDatablock]
  refine congrArg (env.read (2 : ℕ) >>= ·) (funext fun low => ?_)
  rw [scanBytes_ofFn]
  cases low.firstClear with
  | some n => simp
  | none =>
    simp only
    refine congrArg (env.read (3 : ℕ) >>= ·) (funext fun high => ?_)
    rw [scanBytes_ofFn]
    cases high.firstClear <;> simp

theorem Block.firstClear_eq_none {b : Block} (h : b.firstClear = none) {n : ℕ} (hn : n < 32768) :
    b.bit n = true := by
  rw [firstClear, List.find?_eq_none] at h
  simpa using h n (List.mem_range.mpr hn)

/-- The first clear bit is at most any other. -/
theorem Block.exists_firstClear_le {b : Block} {n : ℕ} (hn : n < 32768) (hfree : b.bit n = false) :
    ∃ k, b.firstClear = some k ∧ k ≤ n := by
  cases h : b.firstClear with
  | none =>
    have hset := firstClear_eq_none h hn
    rw [hfree] at hset
    cases hset
  | some k =>
    refine ⟨k, rfl, Nat.le_of_not_lt fun hlt => ?_⟩
    rw [firstClear, List.find?_range_eq_some] at h
    have hset := h.2.2 n hlt
    simp [hfree] at hset

variable (hd : d.Parents p q)
include hd

/-- **The search for a data block** finds an existing one: of two that are free the other creation
takes one at most. -/
theorem findEmptyDatablock_serves (honce : ∀ b, .coverData b ∉ l) :
    d.Serves p q (findEmptyDatablock env) seen l s fun a seen' l₁ _ =>
      ∃ b : ℕ, a = b ∧ b < 64508 ∧ l₁ = l ∧ SameTable seen seen' := by
  rw [findEmptyDatablock_eq]
  refine Beside.bind (envRead_serves env (by decide) (Q := fun low seen' l₁ t =>
    low = t 2 ∧ l₁ = l ∧ SameTable seen seen') fun l' t _ hj =>
      ⟨rfl, rfl, sameTable_update seen (n := 2) (.inl (by decide)) _⟩) ?_
  rintro _ seen' l t ⟨rfl, rfl, hsame⟩
  cases hlow : (t 2).firstClear with
  | some n =>
    have hn := Block.firstClear_lt hlow
    exact Prog.beside_ret.mpr ⟨n, rfl, by omega, rfl, hsame⟩
  | none =>
    refine Beside.bind (envRead_serves env (by decide) (Q := fun high seen' l₁ _ =>
      (∃ n, high.firstClear = some n ∧ 32768 + n < 64508) ∧ l₁ = l ∧ SameTable seen seen')
      fun l' u htu hj => ?_) ?_
    · refine ⟨?_, rfl, hsame.trans (sameTable_update seen' (n := 3) (.inl (by decide)) _)⟩
      -- the first block of the map is still full, so the block left is in the second
      have hhigh (b : ℕ) (hb : b < 64508) (hfree : u.dmap b = false) :
          ∃ n, (u 3).firstClear = some n ∧ 32768 + n < 64508 := by
        have hge : ¬ b < 32768 := fun hlt => by
          have hset : t.dmap b = true := by
            rw [Disk.dmap, if_pos hlt]
            exact Block.firstClear_eq_none hlow hlt
          rw [htu.dmap b (by omega) hset] at hfree
          cases hfree
        rw [Disk.dmap, if_neg hge] at hfree
        obtain ⟨n, hn, hle⟩ := Block.exists_firstClear_le (by omega) hfree
        exact ⟨n, hn, by omega⟩
      obtain ⟨b, hb, b', hb', hne, hfree, hfree'⟩ := hd.blocks
      rcases hj.exists_free honce hb hb' hne hfree hfree' with h | h
      · exact hhigh b hb h
      · exact hhigh b' hb' h
    · rintro high seen'' _ u ⟨⟨n, hn, hlt⟩, rfl, hsame'⟩
      rw [hn]
      exact Prog.beside_ret.mpr ⟨_, rfl, hlt, rfl, hsame'⟩

omit hd in
/-- The new block's bit is set, and it was clear. -/
theorem makeDataMapCovered_serves {b : ℕ} (hb : b < 64508) (honce : ∀ b', .coverData b' ∉ l) :
    d.Serves p q (makeDataMapCovered env b) seen l s fun _ seen' l₁ _ =>
      l₁ = l ++ [.coverData b] ∧ SameTable seen seen' := by
  have htarget : (Change.coverData b).target < 4 := by
    rw [Change.target]
    split <;> decide
  rw [makeDataMapCovered]
  simp only [dataMapPosition_natCast]
  refine Beside.bind (envRead_serves env (show (Change.coverData b).target < 65536 by omega)
    (Q := fun buffer seen' l₁ _ => l₁ = l ∧ seen' ((Change.coverData b).target : ℤ) = some buffer ∧
      SameTable seen seen')
    fun _ _ _ _ => ⟨rfl, Function.update_self .., sameTable_update seen (.inl htarget) _⟩) ?_
  rintro buffer seen' l₁ t ⟨rfl, hseen, hsame⟩
  rw [run_orIntoMap env _ (by split <;> omega), Prog.ret_bind]
  refine (diskWrite_serves (c := .coverData b) hb hseen fun l' u _ hj hchange => ?_).mono
    fun _ _ _ _ h => ⟨h.1.1, h.1.2 ▸ hsame.trans (sameTable_update seen' (.inl htarget) _)⟩
  have hfree : u.dmap b = false := by
    by_contra hset
    rw [Bool.not_eq_false, Disk.dmap] at hset
    refine hchange (by omega) (Block.orMask_eq_self (by split <;> omega) ?_)
    rw [Change.target]
    split
    · next h => rwa [if_pos h] at hset
    · next h => rwa [if_neg h] at hset
  exact ⟨(hj.acquire_block hb hfree honce).2, .apply hb fun i x hc => by cases hc⟩

/-- A data block is taken: one that exists and was free. -/
theorem takeDatablock_serves (honce : ∀ b, .coverData b ∉ l) :
    d.Serves p q (takeDatablock env) seen l s fun a seen' l₁ _ =>
      ∃ b : ℕ, a = b ∧ b < 64508 ∧ l₁ = l ++ [.coverData b] ∧ SameTable seen seen' := by
  rw [takeDatablock]
  refine (findEmptyDatablock_serves env hd honce).bind ?_
  rintro _ seen' _ t ⟨b, rfl, hb, rfl, hsame⟩
  rw [Prog.note_bind, Prog.beside_note, Prog.pure_eq_ret, Prog.ret_bind]
  refine (makeDataMapCovered_serves env hb honce).bind ?_
  rintro _ seen'' _ u ⟨rfl, hsame'⟩
  exact Prog.beside_ret.mpr ⟨b, rfl, hb, rfl, hsame.trans hsame'⟩

omit hd in
/-- An entry is stored in a block that is the creation's own. -/
theorem addADictInDataBlock_serves {b j : ℕ} (hb : b < 64508) (hj : j < 128) (e : DictioryContent)
    (hown : ∀ l' t, d.Joint p q l l' t → d.Permits p (.setData b ((d.data b).setEntry j e)) ∧
      t.Marked (.block b) ∧ (∀ c ∈ l', Part.block b ≠ c.part) ∧ t.data b = d.data b) :
    d.Serves p q (addADictInDataBlock env b e j) seen l s fun _ seen' l₁ _ =>
      l₁ = l ++ [.setData b ((d.data b).setEntry j e)] ∧ SameTable seen seen' := by
  have hmod : j % 128 = j := Nat.mod_eq_of_lt hj
  rw [addADictInDataBlock]
  refine Beside.bind (readEntries_serves env hb (Q := fun buffer seen' l₁ _ =>
    buffer = (d.data b).entries ∧ l₁ = l ∧
      seen' ((1028 + b : ℕ) : ℤ) = some (d.data b) ∧ SameTable seen seen')
    fun l' t _ hj' => ?_) ?_
  · -- nobody else stores entries in the block, so that the one read is that of the start
    obtain ⟨-, -, -, hdata⟩ := hown l' t hj'
    rw [hdata]
    exact ⟨rfl, rfl, Function.update_self .., sameTable_update seen (.inr (by omega)) _⟩
  · rintro _ seen' _ t ⟨rfl, rfl, hseen, hsame⟩
    rw [Prog.assign_natCast _ hj, Prog.ret_bind, writeEntries, datablockFindDiskId_natCast]
    have hcontent : Block.entries.symm (Function.update (d.data b).entries ⟨j, hj⟩ e) =
        (d.data b).setEntry j e := by
      simp only [Block.setEntry, hmod]
    rw [hcontent]
    refine (diskWrite_serves (c := .setData b ((d.data b).setEntry j e)) hb hseen
      fun l' u _ hj' _ => ?_).mono fun _ _ _ _ h =>
        ⟨h.1.1, h.1.2 ▸ hsame.trans
          (sameTable_update seen' (.inr (show 1028 ≤ 1028 + b by omega)) _)⟩
    obtain ⟨hperm, hmarked, hdisjoint, -⟩ := hown l' u hj'
    exact ⟨hj'.concat hperm (hmarked.apply hb hb) hdisjoint (fun b' hc => by cases hc),
      .apply hb fun i x hc => by cases hc⟩

end Serves

/-! ### The entry -/

namespace Disk

variable (d : Disk) (p b : ℕ)

/-- The record of directory `p` with block `b` mounted for its next entry. -/
def mountedRecord : INode :=
  if (d.inode p).count % 128 = 0 then (d.inode p).setPtr ((d.inode p).count / 128) b else d.inode p

/-- The changes that store the next entry of directory `p` in block `b`. -/
def storeChanges (e : DictioryContent) : List Change :=
  (if (d.inode p).count % 128 = 0 then [.coverData b] else []) ++
    [.setData b ((d.data b).setEntry (d.inode p).count e)]

/-- The block is the one that the next entry of directory `p` goes to. -/
def Takes : Prop := b < 64508 ∧
  ((d.inode p).count % 128 ≠ 0 → b = (d.inode p).ptr ((d.inode p).count / 128))

variable {d p b}

@[simp] theorem setInode_notMem_storeChanges (e : DictioryContent) (i : ℕ) (x : INode) :
    Change.setInode i x ∉ d.storeChanges p b e := by
  rw [storeChanges]
  split <;> simp

theorem stSize_mountedRecord : (d.mountedRecord p b).stSize = (d.inode p).stSize := by
  rw [mountedRecord]
  split
  · rw [INode.setPtr_stSize]
  · rfl

theorem ptr_mountedRecord (hcount : (d.inode p).count < 1536) (hb : b < 65536) (r : ℕ) :
    (d.mountedRecord p b).ptr r =
      if (d.inode p).count % 128 = 0 ∧ r = (d.inode p).count / 128 then b
      else (d.inode p).ptr r := by
  rw [mountedRecord]
  split
  · next h0 => rw [INode.ptr_setPtr _ (by omega) hb]; simp [h0]
  · next h0 => rw [if_neg fun h => h0 h.1]

theorem count_grown_mountedRecord (hcount : (d.inode p).count < 1536)
    (hsize : (d.inode p).stSize.toNat = 32 * (d.inode p).count) (env : Env) :
    ((d.mountedRecord p b).grown env 3).count = (d.inode p).count + 1 := by
  refine INode.count_eq_of_toNat ?_
  rw [INode.toNat_grown env 3 (by rw [stSize_mountedRecord]; omega), stSize_mountedRecord, hsize]
  omega

/-- The directory's new record has its former entries. -/
theorem Sound.extends_mountedRecord (hd : d.Sound) (hp : d.IsDir p)
    (hcount : (d.inode p).count < 1536) (hb : b < 64508) (env : Env) :
    (d.inode p).Extends ((d.mountedRecord p b).grown env 3) := by
  have hgrown := count_grown_mountedRecord (b := b) hcount (hd.directories.dir p hp).size_eq env
  have hptr (r : ℕ) := ((INode.sameBlocks_grown env 3 (d.mountedRecord p b)).ptr r).trans
    (ptr_mountedRecord hcount (show b < 65536 by omega) r)
  refine ⟨by omega, by omega, fun r _ => ?_, fun r hr => ?_⟩
  · rw [hptr]
    split
    · exact hb
    · exact hd.pointers.lt p hp.1 r
  · rw [hptr, if_neg (by omega)]

end Disk

section Serves

variable (env : Env) {d s : Disk} {p q : ℕ} {l : List Change} {seen : ℤ → Option Block}
  (hd : d.Parents p q)
include hd

/-- The direct part of `add_file_to_dict`: in a block that is taken, or behind the last entries. -/
theorem storeInDict_serves (e : DictioryContent) (honce : ∀ b, .coverData b ∉ l)
    (hdata : ∀ b content, .setData b content ∉ l) :
    d.Serves p q (storeInDict env (d.inode p) e) seen l s fun x seen' l₁ _ => ∃ b, d.Takes p b ∧
      x = d.mountedRecord p b ∧ l₁ = l ++ d.storeChanges p b e ∧ SameTable seen seen' := by
  set n := (d.inode p).count with hn
  have hcount := hd.count_left
  have hr : n / 128 < 12 := by omega
  rw [storeInDict_direct env e (INode.tdiv_stSize hcount) hcount]
  -- `n % 128 = 0` is when the entries fill their blocks
  by_cases h0 : n % 128 = 0
  · rw [if_pos h0]
    refine (takeDatablock_serves env hd honce).bind ?_
    rintro _ seen' _ t ⟨b, rfl, hb, rfl, hsame⟩
    have hmem : Change.coverData b ∈ l ++ [.coverData b] := List.mem_append_right _ (by simp)
    rw [INode.assign_directPointer hr, Prog.ret_bind]
    refine (addADictInDataBlock_serves env hb (show 0 < 128 by decide) e fun l' u hj => ?_).bind ?_
    · -- the block is the creation's own since its bit was set
      refine ⟨⟨hb, .inl (hj.left.permits _ hmem).2⟩, hj.left.marked _ hmem, hj.disjoint _ hmem,
        hj.data_eq (fun content hc => ?_) fun c hc => (hj.disjoint _ hmem c hc).symm⟩
      rcases List.mem_append.mp hc with hc | hc
      · exact hdata _ _ hc
      · cases List.mem_singleton.mp hc
    · rintro _ seen'' _ u ⟨rfl, hsame'⟩
      refine Prog.beside_ret.mpr ⟨b, ⟨hb, fun h => absurd h0 h⟩, ?_, ?_, hsame.trans hsame'⟩
      · rw [Disk.mountedRecord, if_pos h0, INode.setPtr, dif_pos hr]
      · rw [Disk.storeChanges, if_pos h0, List.append_assoc, Disk.setEntry_zero h0]
  · have hblock := hd.sound.pointers.lt p hd.left.1 (n / 128)
    have hlast : d.IsLastBlock p ((d.inode p).ptr (n / 128)) := ⟨h0, rfl⟩
    rw [if_neg h0, INode.index_directPointer hr, Prog.ret_bind,
      INode.toInt_directPointer hr hblock]
    refine (addADictInDataBlock_serves env hblock (Nat.mod_lt n (by decide)) e
      fun l' u hj => ?_).bind ?_
    · -- the block of the last entries belongs to the directory
      have hused := (hd.sound.directories.dir p hd.left).block (n / 128) (by omega)
      have hmarked := hd.sound.pointers.marked p hd.left.1 _ hused
      refine ⟨⟨hblock, .inr ⟨hlast, fun j hj' hrank => ?_⟩⟩,
        (hj.dmap_iff (by omega)).mpr (.inl hmarked),
        fun c hc => (hj.part_ne_lastBlock hd hlast c hc).symm,
        hj.data_eq (hdata _) (hj.part_ne_lastBlock hd hlast)⟩
      rw [Block.entry_setEntry, if_neg (by omega)]
    · rintro _ seen' _ u ⟨rfl, hsame⟩
      refine Prog.beside_ret.mpr ⟨_, ⟨hblock, fun _ => rfl⟩, ?_, ?_, hsame⟩
      · rw [Disk.mountedRecord, if_neg h0]
      · rw [Disk.storeChanges, if_neg h0, List.nil_append, ← hn]
        simp only [Block.setEntry, Nat.mod_mod]

omit hd in
theorem addFileToDict_eq (clock : ℕ) (x : INode) (e : DictioryContent) :
    addFileToDict env clock x e = storeInDict env x e >>= fun y => .ret (y.grown env clock) := rfl

/-- **The entry is mounted**: stored in the directory, whose record is written back. -/
theorem mountInFather_serves (e : DictioryContent) (honce : ∀ b, .coverData b ∉ l)
    (hdata : ∀ b content, .setData b content ∉ l) (hrecord : ∀ x, .setInode p x ∉ l) :
    d.Serves p q (mountInFather env p e) seen l s fun a _ l₁ _ => a = 0 ∧ ∃ b, d.Takes p b ∧
      l₁ = l ++ d.storeChanges p b e ++ [.setInode p ((d.mountedRecord p b).grown env 3)] := by
  have hcount := hd.count_left
  have hlt := hd.left.1
  have hblock : 4 + p / 32 < 1028 := by omega
  have hindex : p % 32 < 32 := Nat.mod_lt _ (by decide)
  simp only [mountInFather, inodeFindDiskIdAndIndexInDisk_natCast]
  refine Beside.bind (readINodes_serves env (by omega) (Q := fun buffer seen' l₁ _ =>
    ∃ block : Block, buffer = block.inodes ∧ buffer ⟨p % 32, hindex⟩ = d.inode p ∧
      seen' ((4 + p / 32 : ℕ) : ℤ) = some block ∧ l₁ = l) fun l' t _ hj =>
        ⟨_, rfl, hj.inode_parent hd hrecord, Function.update_self .., rfl⟩) ?_
  rintro _ seen' l t ⟨block, rfl, hfather, hseen, rfl⟩
  rw [Prog.index_natCast _ hindex, Prog.ret_bind, hfather, addFileToDict_eq, Prog.bind_assoc]
  refine (storeInDict_serves env hd e honce hdata).bind ?_
  rintro _ seen'' _ u ⟨b, hb, rfl, rfl, hsame⟩
  rw [Prog.ret_bind, Prog.assign_natCast _ hindex, Prog.ret_bind]
  -- the record was read before the entry was stored and is written after it
  have hnone (x : INode) : Change.setInode p x ∉ l ++ d.storeChanges p b e := fun hx => by
    rcases List.mem_append.mp hx with hx | hx
    · exact hrecord x hx
    · exact Disk.setInode_notMem_storeChanges _ _ _ hx
  refine (writeINodes_serves (x := (d.mountedRecord p b).grown env 3) (fun l' v hj => ?_) hlt
    ((hsame _ (by omega) hblock).trans hseen)).bind ?_
  · have hmarked := (hd.sound.directories.dir p hd.left).marked
    exact ⟨⟨hlt, .inr ⟨rfl, hd.sound.extends_mountedRecord hd.left hcount hb.1 env⟩⟩,
      (hj.imap_iff hlt).mpr (.inl hmarked), fun c hc => (hj.part_ne_parent hd c hc).symm,
      hj.inode_parent hd hnone⟩
  · rintro _ _ _ v rfl
    refine (envRead_serves_any env _).bind ?_
    rintro _ _ _ w rfl
    have hsize : ((d.mountedRecord p b).stSize).toInt.tdiv 32 = (d.inode p).count := by
      rw [Disk.stSize_mountedRecord, INode.tdiv_stSize hcount]
    rw [if_neg (tdiv_stSize_grown env hsize hcount)]
    exact Prog.beside_ret.mpr ⟨rfl, b, hb, rfl⟩

end Serves

/-! ### The walk -/

namespace Disk

variable {d : Disk} {p q : ℕ} {l l' : List Change} {t : Disk}

theorem Sound.extends_refl (hd : d.Sound) {r : ℕ} (hr : d.IsDir r) :
    (d.inode r).Extends (d.inode r) :=
  ⟨le_rfl, (hd.directories.dir r hr).count_le, fun s _ => hd.pointers.lt r hr.1 s, fun _ _ => rfl⟩

namespace Joint

variable (hj : d.Joint p q l l' t) (hd : d.Parents p q) {r : ℕ} (hr : d.IsDir r)
include hj hd hr

/-- A directory has its entries, and perhaps one more. -/
theorem extends_inode : (d.inode r).Extends (t.inode r) := by
  have hmarked := (hd.sound.directories.dir r hr).marked
  rw [hj.eq]
  rcases inode_applyAll (d := d.applyAll l') (l := l) hr.1 with h | h
  · rw [h]
    rcases inode_applyAll (d := d) (l := l') hr.1 with h' | h'
    · rw [h']
      exact hd.sound.extends_refl hr
    · obtain ⟨rfl, x, hx, hext⟩ := (hj.right.permits _ h').eq_of_inode hmarked rfl
      rwa [(Change.setInode.inj hx).2]
  · obtain ⟨rfl, x, hx, hext⟩ := (hj.left.permits _ h).eq_of_inode hmarked rfl
    rwa [(Change.setInode.inj hx).2]

/-- An entry of a directory stays. -/
theorem entry_eq {j : ℕ} (hlt : j < (d.inode r).count) :
    (t.data ((d.inode r).ptr (j / 128))).entry j = d.entryOf (d.inode r) j := by
  have hused := (hd.sound.directories.dir r hr).block (j / 128) (by omega)
  have hmarked := hd.sound.pointers.marked r hr.1 _ hused
  have hsame {p : ℕ} {c : Change} {content : Block} (hp : d.IsDir p) (hc : d.Permits p c)
      (heq : c = .setData ((d.inode r).ptr (j / 128)) content) :
      content.entry j = (d.data ((d.inode r).ptr (j / 128))).entry j := by
    obtain ⟨hlast, content', hcontent, hentry⟩ :=
      hc.eq_of_block hmarked (show c.part = .block _ by rw [heq]; rfl)
    obtain rfl := (Change.setData.inj (heq.symm.trans hcontent)).2
    obtain ⟨rfl, hrank⟩ := hd.sound.pointers.inj r hr.1 p hp.1 _ _ hused hlast.2
    exact hentry j hlt hrank
  rw [hj.eq, entryOf]
  rcases data_applyAll (d := d.applyAll l') (fun c hc => (hj.left.permits c hc).inRange)
    ((d.inode r).ptr (j / 128)) with h | h
  · rw [h]
    rcases data_applyAll (d := d) (fun c hc => (hj.right.permits c hc).inRange)
      ((d.inode r).ptr (j / 128)) with h' | h'
    · rw [h']
    · exact hsame hd.right (hj.right.permits _ h') rfl
  · exact hsame hd.left (hj.left.permits _ h) rfl

end Joint

/-- The moments of two creations. -/
def Moment (d : Disk) (p q : ℕ) (t : Disk) : Prop := ∃ l l', d.Joint p q l l' t

/-- **Every directory shows its entries**, at every moment and to whoever has read its record at
another. -/
theorem Parents.showsEntries (hd : d.Parents p q) (r : ℕ) (hr : d.IsDir r) (x : INode)
    (hx : Sighted (d.Moment p q) r x) :
    ShowsEntries (d.Moment p q) x (d.entriesOf (d.inode r)) := by
  obtain ⟨s, ⟨l, l', hj⟩, rfl⟩ := hx
  have hext := hj.extends_inode hd hr
  refine ⟨?_, hext.count_le, hext.ptr_lt, ?_⟩
  · rw [length_entriesOf]
    exact hext.le
  · rintro u ⟨m, m', hj'⟩ j hlt
    rw [length_entriesOf] at hlt
    rw [getElem_entriesOf, entryOf, hext.ptr_eq _ (by omega)]
    exact hj'.entry_eq hd hr hlt

/-- What a creation in directory `p` changes: inode `k` is taken and filled, and its entry stored
in block `b`. -/
def creationChanges (d : Disk) (env : Env) (mode : BitVec 32) (p k b : ℕ) (name : FileName) :
    List Change :=
  [.coverInode k, .setInode k (freshINode env mode k (d.inode k))] ++
    d.storeChanges p b ⟨name, BitVec.ofInt 32 k⟩ ++
    [.setInode p ((d.mountedRecord p b).grown env 3)]

end Disk

/-- **A creation beside another one**: the changes it has made when it returns. -/
theorem fsCreate_serves (env : Env) (mode : BitVec 32) {d s : Disk} {p q : ℕ}
    {seen : ℤ → Option Block} (hd : d.Parents p q) {as : List Name} {a : Name}
    (hresolve : d.graph.resolve 4 (as.map Name.fileName) = some p) (behind : ℕ → Byte) :
    d.Serves p q (fsCreate env (applyANewInodeWithMode env mode) (pathString (as ++ [a]) behind))
      seen [] s fun r _ l _ => r = 0 ∧ ∃ k b, k < 32768 ∧ d.imap k = false ∧ d.Takes p b ∧
        l = d.creationChanges env mode p k b a.fileName := by
  rw [fsCreate, pathString, splitPath_eq, Prog.ret_bind]
  have hwalk := understandThePath_yields env hd.showsEntries hd.sound.walkable.number_lt hresolve
  refine (hwalk.beside fun l' t hj => ⟨_, l', hj⟩).bind ?_
  rintro _ seen' _ t ⟨rfl, rfl⟩
  refine (applyANewInodeWithMode_serves env mode).bind ?_
  rintro _ seen'' _ u ⟨k, rfl, hk, hfree, rfl⟩
  rw [Name.fileNameOf_padTo30, Prog.note_bind, Prog.beside_note, Prog.pure_eq_ret, Prog.ret_bind]
  have hmarked := (hd.sound.directories.dir p hd.left).marked
  have hne : p ≠ k := by
    rintro rfl
    rw [hfree] at hmarked
    cases hmarked
  refine (mountInFather_serves env hd _ (by simp) (by simp) (by simp [hne])).mono ?_
  rintro _ _ _ v ⟨rfl, b, hb, rfl⟩
  exact ⟨rfl, k, b, hk, hfree, hb, rfl⟩

end InodeFs
