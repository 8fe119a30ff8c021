import InodeFs.Ops.Effects
import InodeFs.State.Format

/-!
# The search for a name

`find_file_in_dict` on any disk and any record whose entries lie in blocks that exist. Its three
loops over blocks are one loop, `searchLoop`, that differs in where a block comes from and in what
a hit returns. `lookup_exact_iff` says exactly when it returns the number of the first entry with
the name, or `-ENOENT` where there is none.

The loops are followed by two lemmas about `searchLoop`, one for a hit and one for none
(`Shows.run_found`, `Shows.run_none`). They ask only that the blocks which hold entries show the
right slots (`Shows`), and this is shown of the direct blocks and of an index block once each. The
recursion is on the number of blocks left.

An error is no end of the search. The direct visit returns `-ENOENT` if it ends within its blocks,
and runs off the end of the function if the directory fills them; the indirect visits are made after
an `-ENOENT` alone, and a hit in block `i` of one gives entry `i` of that block, whichever matched.
`lookup_exact_iff` is the sum of these cases: where the direct visit has the answer it is right, and
behind that a search is right by chance only.
-/

namespace InodeFs

variable (env : Env)

/-! ### The loop of the three visits -/

/-- The loop over `i` of the `visit` functions. -/
def searchLoop (readBlock : ℕ → Fs (Fin 128 → DictioryContent))
    (result : ℕ → ℕ → (Fin 128 → DictioryContent) → Fs ℤ) (fileSize : ℤ)
    (sonName : Fin 30 → Byte) : ℕ → ℕ → ℤ → Fs ℤ
  | 0, _, _ => Prog.undefined
  | blocks + 1, i, visitedFile => do
    let fileNameBuffer ← readBlock i
    match scanEntries fileSize sonName (List.ofFn fileNameBuffer) 0 visitedFile with
    | .missing => pure negENOENT
    | .found j => result i j fileNameBuffer
    | .next visitedFile =>
      searchLoop readBlock result fileSize sonName blocks (i + 1) visitedFile

/-- The direct visit is the loop over the direct blocks. -/
theorem visitedDirectlyLoop_eq (fileSize : ℤ) (x : INode) (son : Fin 30 → Byte) (blocks i : ℕ)
    (visitedFile : ℤ) :
    visitedDirectlyLoop env fileSize x son blocks i visitedFile =
      searchLoop (fun i => do
          let pointer ← Prog.index x.directPointer i
          readEntries env (datablockFindDiskId pointer.toInt))
        (fun _ j buffer => do
          let entry ← Prog.index buffer j
          pure entry.inodeNumber.toInt) fileSize son blocks i visitedFile := by
  induction blocks generalizing i visitedFile with
  | zero => rfl
  | succ blocks ih =>
    rw [visitedDirectlyLoop, searchLoop, Prog.bind_assoc]
    refine congrArg _ (funext fun pointer => congrArg _ (funext fun buffer => ?_))
    cases scanEntries fileSize son (List.ofFn buffer) 0 visitedFile with
    | missing => rfl
    | found j => rfl
    | next v => exact ih (i + 1) v

/-- An indirect visit is the loop over the blocks of an index block; it returns entry `i` of block
`i`. -/
theorem visitIndirectLoop_eq (fileSize : ℤ) (numbers : Fin 1024 → BitVec 32) (son : Fin 30 → Byte)
    (blocks i : ℕ) (visitedFile : ℤ) :
    visitIndirectLoop env fileSize numbers son blocks i visitedFile =
      searchLoop (fun i => do
          let pointer ← Prog.index numbers i
          readEntries env (datablockFindDiskId pointer.toInt))
        (fun i _ buffer => do
          let entry ← Prog.index buffer i
          pure entry.inodeNumber.toInt) fileSize son blocks i visitedFile := by
  induction blocks generalizing i visitedFile with
  | zero => rfl
  | succ blocks ih =>
    rw [visitIndirectLoop, searchLoop, Prog.bind_assoc]
    refine congrArg _ (funext fun pointer => congrArg _ (funext fun buffer => ?_))
    cases scanEntries fileSize son (List.ofFn buffer) 0 visitedFile with
    | missing => rfl
    | found j => rfl
    | next v => exact ih (i + 1) v

section Search

variable {readBlock : ℕ → Fs (Fin 128 → DictioryContent)}
  (result : ℕ → ℕ → (Fin 128 → DictioryContent) → Fs ℤ) {n start : ℕ} {son : Fin 30 → Byte}
  {d : Disk} {slot : ℕ → DictioryContent}

/-- A block is always read, and the blocks that hold entries below `n` show the slots from `start`
on. -/
structure Shows (readBlock : ℕ → Fs (Fin 128 → DictioryContent)) (n start count : ℕ) (d : Disk)
    (slot : ℕ → DictioryContent) : Prop where
  returns : ∀ i < count, ∃ buffer, (readBlock i).run vdisk d = some (buffer, d)
  slots : ∀ i < count, start + 128 * i < n →
    (readBlock i).run vdisk d = some (fun k => slot (start + 128 * i + k.val), d)

variable {count : ℕ} (h : Shows readBlock n start count d slot)
include h

/-- A hit: the recursion is on the blocks left, which start at or before the hit. -/
theorem Shows.run_found {q : ℕ} (hmatch : sameName son (slot q) = true) (hq : q < n)
    (hfirst : ∀ j, start ≤ j → j < q → sameName son (slot j) = false) (blocks i : ℕ)
    (hcount : i + blocks = count) (hi : start + 128 * i ≤ q) (hend : q < start + 128 * count) :
    (searchLoop readBlock result n son blocks i ((start + 128 * i : ℕ) : ℤ)).run vdisk d =
      (result ((q - start) / 128) ((q - start) % 128)
        fun k => slot (start + 128 * ((q - start) / 128) + k.val)).run vdisk d := by
  induction blocks generalizing i with
  | zero => omega
  | succ blocks ih =>
    rw [searchLoop, Prog.run_bind_some _ (h.slots i (by omega) (by omega))]
    by_cases hlast : q < start + 128 * i + 128
    · obtain ⟨m, rfl⟩ := Nat.exists_eq_add_of_le hi
      have hm : m < 128 := by omega
      have hdiv : (start + 128 * i + m - start) / 128 = i := by omega
      have hmod : (start + 128 * i + m - start) % 128 = m := by omega
      have hother (c : ℕ) (hc : c < m) : sameName son (slot (start + 128 * i + c)) = false :=
        hfirst _ (by omega) (by omega)
      rw [scanBlock_found hm hq hmatch hother, hdiv, hmod]
    · rw [scanBlock_next (by omega) fun m hm => hfirst _ (by omega) (by omega)]
      exact ih (i + 1) (by omega) (by omega)

/-- No hit: the search ends with `-ENOENT` if there are blocks for more than `n` entries, and runs
off the end of the function otherwise. -/
theorem Shows.run_none (hnone : ∀ j, start ≤ j → j < n → j < start + 128 * count →
      sameName son (slot j) = false) (blocks i : ℕ)
    (hcount : i + blocks = count) (hi : start + 128 * i ≤ n) :
    (searchLoop readBlock result n son blocks i ((start + 128 * i : ℕ) : ℤ)).run vdisk d =
      if n < start + 128 * count then some (negENOENT, d) else none := by
  induction blocks generalizing i with
  | zero => rw [searchLoop, if_neg (by omega)]; rfl
  | succ blocks ih =>
    rw [searchLoop]
    by_cases hend : start + 128 * i = n
    · -- the block behind the last entry is read and not looked at
      obtain ⟨buffer, hread⟩ := h.returns i (by omega)
      rw [Prog.run_bind_some _ hread, scanBlock_missing hi (by omega) fun m _ hmn => by omega,
        if_pos (by omega)]
      rfl
    · rw [Prog.run_bind_some _ (h.slots i (by omega) (by omega))]
      by_cases hlast : n < start + 128 * i + 128
      · rw [scanBlock_missing hi hlast fun m hm hmn => hnone _ (by omega) hmn (by omega),
          if_pos (by omega)]
        rfl
      · rw [scanBlock_next (by omega) fun m hm => hnone _ (by omega) (by omega) (by omega)]
        exact ih (i + 1) (by omega) (by omega)

end Search

/-! ### Slots of a directory -/

namespace Disk

/-- The block number at a rank of a directory: in the record, then in the two index blocks. -/
def dirBlock (d : Disk) (x : INode) (r : ℕ) : ℕ :=
  if r < 12 then x.ptr r
  else ((d.data (x.indirectPointer ⟨(r - 12) / 1024 % 2, Nat.mod_lt _ (by decide)⟩).toNat).ints
    ⟨(r - 12) % 1024, Nat.mod_lt _ (by decide)⟩).toNat

/-- Slot `j` of a directory. -/
def dirSlot (d : Disk) (x : INode) (j : ℕ) : DictioryContent :=
  (d.data (d.dirBlock x (j / 128))).entry j

/-- The first `n` entries lie in blocks that exist: at most `12 + 2 * 1024` of them, reached by
the index blocks from the thirteenth on. -/
structure Mounted (d : Disk) (x : INode) (n : ℕ) : Prop where
  le : n ≤ 128 * (12 + 2 * 1024)
  index : ∀ k : Fin 2, 128 * (12 + 1024 * k.val) < n → (x.indirectPointer k).toNat < 64508
  block : ∀ r, 128 * r < n → d.dirBlock x r < 64508

variable {d : Disk} {x : INode} {n : ℕ}

theorem entry_eq_entries (b : Block) (i k : ℕ) (hk : k < 128) :
    b.entry (128 * i + k) = b.entries ⟨k, hk⟩ := by
  have hmod : (128 * i + k) % 128 = k := by omega
  simp only [Block.entry, hmod]

/-- The direct blocks. -/
theorem Mounted.shows_direct (h : d.Mounted x n) {count : ℕ} (hcount : count ≤ 12) :
    Shows (fun i => do
      let pointer ← Prog.index x.directPointer i
      readEntries env (datablockFindDiskId pointer.toInt)) n 0 count d (d.dirSlot x) where
  returns i hi := by
    obtain ⟨b, hb⟩ := exists_run_envRead env
      (datablockFindDiskId (x.directPointer ⟨i, by omega⟩).toInt) d
    refine ⟨b.entries, ?_⟩
    rw [Prog.index_natCast _ (by omega), Prog.ret_bind, readEntries, Prog.run_bind_some _ hb]
    rfl
  slots i hi hin := by
    have hi12 : i < 12 := by omega
    have hlt := h.block i (by omega)
    have hblock : d.dirBlock x i = x.ptr i := if_pos hi12
    rw [hblock] at hlt
    have hslots : (fun k : Fin 128 => d.dirSlot x (0 + 128 * i + k.val)) =
        (d.data (x.ptr i)).entries := by
      funext k
      have hdiv : (128 * i + k.val) / 128 = i := by omega
      rw [Nat.zero_add, dirSlot, hdiv, hblock, entry_eq_entries _ _ _ k.isLt]
    rw [INode.index_directPointer hi12, Prog.ret_bind, INode.toInt_directPointer hi12 hlt,
      run_readEntries env hlt, hslots]

/-- The blocks of an index block. -/
theorem Mounted.shows_indirect (h : d.Mounted x n) (k : Fin 2) :
    Shows (fun i => do
      let pointer ← Prog.index (d.data (x.indirectPointer k).toNat).ints i
      readEntries env (datablockFindDiskId pointer.toInt)) n (128 * (12 + 1024 * k.val)) 1024 d
      (d.dirSlot x) where
  returns i hi := by
    obtain ⟨b, hb⟩ := exists_run_envRead env
      (datablockFindDiskId ((d.data (x.indirectPointer k).toNat).ints ⟨i, hi⟩).toInt) d
    refine ⟨b.entries, ?_⟩
    rw [Prog.index_natCast _ hi, Prog.ret_bind, readEntries, Prog.run_bind_some _ hb]
    rfl
  slots i hi hin := by
    have hlt := h.block (12 + 1024 * k.val + i) (by omega)
    have hside : (12 + 1024 * k.val + i - 12) / 1024 % 2 = k.val := by omega
    have hbias : (12 + 1024 * k.val + i - 12) % 1024 = i := by omega
    have hblock : d.dirBlock x (12 + 1024 * k.val + i) =
        ((d.data (x.indirectPointer k).toNat).ints ⟨i, hi⟩).toNat := by
      rw [dirBlock, if_neg (by omega)]
      simp only [hside, hbias]
    rw [hblock] at hlt
    have hslots : (fun j : Fin 128 =>
          d.dirSlot x (128 * (12 + 1024 * k.val) + 128 * i + j.val)) =
        (d.data ((d.data (x.indirectPointer k).toNat).ints ⟨i, hi⟩).toNat).entries := by
      funext j
      have hdiv : (128 * (12 + 1024 * k.val) + 128 * i + j.val) / 128 = 12 + 1024 * k.val + i := by
        omega
      rw [dirSlot, hdiv, hblock, ← Nat.mul_add, entry_eq_entries _ _ _ j.isLt]
    rw [Prog.index_natCast _ hi, Prog.ret_bind, toInt_eq_natCast (by omega),
      run_readEntries env hlt, hslots]

end Disk

/-! ### The result of a search -/

/-- The first entry with a name has index `q`. -/
def Disk.FirstNamed (d : Disk) (x : INode) (son : Fin 30 → Byte) (start q : ℕ) : Prop :=
  start ≤ q ∧ fileNameOf son = (d.dirSlot x q).fileName ∧
    ∀ j, start ≤ j → j < q → fileNameOf son ≠ (d.dirSlot x j).fileName

/-- What a lookup is for: the number of the first of `n` entries with the name, or `-ENOENT`. -/
def Disk.lookupResult (d : Disk) (x : INode) (son : Fin 30 → Byte) (n : ℕ) : ℤ :=
  match (List.range n).find? fun j => fileNameOf son = (d.dirSlot x j).fileName with
  | some q => (d.dirSlot x q).inodeNumber.toInt
  | none => negENOENT

/-- The search of index block `k` returns `-ENOENT`: there is no entry with the name in its part,
which has room for more; or the first one lies in a block `i < 128` of the part, in which entry `i`
has that number. -/
def Disk.IndirectENOENT (d : Disk) (x : INode) (son : Fin 30 → Byte) (n k : ℕ) : Prop :=
  n < 128 * (12 + 1024 * (k + 1)) ∧
      (∀ j, 128 * (12 + 1024 * k) ≤ j → j < n → fileNameOf son ≠ (d.dirSlot x j).fileName) ∨
    ∃ q < n, d.FirstNamed x son (128 * (12 + 1024 * k)) q ∧
      (q - 128 * (12 + 1024 * k)) / 128 < 128 ∧
      (d.dirSlot x (128 * (12 + 1024 * k) + 129 *
        ((q - 128 * (12 + 1024 * k)) / 128))).inodeNumber.toInt = negENOENT

section Result

variable {d : Disk} {x : INode} {son : Fin 30 → Byte} {n : ℕ}

/-- Where there is a first entry with the name, its number. -/
theorem Disk.lookupResult_of_firstNamed {q : ℕ} (h : d.FirstNamed x son 0 q) (hq : q < n) :
    d.lookupResult x son n = (d.dirSlot x q).inodeNumber.toInt := by
  have hfind : ((List.range n).find? fun j => fileNameOf son = (d.dirSlot x j).fileName) =
      some q := by
    refine List.find?_range_eq_some.mpr ⟨decide_eq_true h.2.1, List.mem_range.mpr hq,
      fun j hj => ?_⟩
    simpa using h.2.2 j (Nat.zero_le _) hj
  rw [lookupResult, hfind]

/-- Where there is none, `-ENOENT`. -/
theorem Disk.lookupResult_of_none
    (h : ∀ j < n, fileNameOf son ≠ (d.dirSlot x j).fileName) :
    d.lookupResult x son n = negENOENT := by
  have hfind : ((List.range n).find? fun j => fileNameOf son = (d.dirSlot x j).fileName) =
      none := by
    rw [List.find?_eq_none]
    intro j hj
    simpa using h j (List.mem_range.mp hj)
  rw [lookupResult, hfind]

/-- Below any bound there is a first entry with the name, or none. -/
theorem Disk.exists_firstNamed (d : Disk) (x : INode) (son : Fin 30 → Byte) (start n : ℕ) :
    (∃ q < n, d.FirstNamed x son start q) ∨
      ∀ j, start ≤ j → j < n → fileNameOf son ≠ (d.dirSlot x j).fileName := by
  by_cases h : ∃ j, (start ≤ j ∧ j < n) ∧ fileNameOf son = (d.dirSlot x j).fileName
  · obtain ⟨⟨hstart, hlt⟩, hname⟩ := Nat.find_spec h
    refine .inl ⟨Nat.find h, hlt, hstart, hname, fun j hj hlt' heq => ?_⟩
    exact Nat.find_min h hlt' ⟨⟨hj, hlt'.trans hlt⟩, heq⟩
  · exact .inr fun j hj hlt heq => h ⟨j, ⟨hj, hlt⟩, heq⟩

theorem sameName_eq_true {e : DictioryContent} :
    sameName son e = true ↔ fileNameOf son = e.fileName := decide_eq_true_iff

theorem sameName_eq_false {e : DictioryContent} :
    sameName son e = false ↔ fileNameOf son ≠ e.fileName := decide_eq_false_iff_not

/-- At most twelve blocks are visited directly. -/
theorem visitedDirectlyToGetFile_eq (n : ℕ) : visitedDirectlyToGetFile env n x son =
    visitedDirectlyLoop env n x son (min (n / 128 + 1) 12) 0 0 := by
  have hblocks : (getMin ((n : ℤ).tdiv 128 + 1) 12).toNat = min (n / 128 + 1) 12 := by
    rw [natCast_tdiv_ofNat, getMin]
    split <;> omega
  rw [visitedDirectlyToGetFile, hblocks]

/-- **The direct visit finds** the first entry with the name. -/
theorem run_visitedDirectly_found (h : d.Mounted x n) {q : ℕ} (hq : d.FirstNamed x son 0 q)
    (hn : q < n) (hlt : q < 1536) : (visitedDirectlyToGetFile env n x son).run vdisk d =
      some ((d.dirSlot x q).inodeNumber.toInt, d) := by
  have hshows : Shows _ n 0 (min (n / 128 + 1) 12) d (d.dirSlot x) := h.shows_direct env (by omega)
  have hrun := hshows.run_found (fun _ j buffer => do
      let entry ← Prog.index buffer j
      pure entry.inodeNumber.toInt) (sameName_eq_true.mpr hq.2.1) hn
    (fun j hj hjq => sameName_eq_false.mpr (hq.2.2 j hj hjq)) (min (n / 128 + 1) 12) 0
    (Nat.zero_add _) (Nat.zero_le _) (by omega)
  have hslot : 0 + 128 * ((q - 0) / 128) + (q - 0) % 128 = q := by omega
  rw [visitedDirectlyToGetFile_eq, visitedDirectlyLoop_eq]
  refine Eq.trans hrun ?_
  rw [Prog.index_natCast _ (Nat.mod_lt _ (by decide)), Prog.ret_bind, hslot]
  rfl

/-- **The direct visit finds nothing**: `-ENOENT` where the directory ends within it, and no result
otherwise. -/
theorem run_visitedDirectly_none (h : d.Mounted x n)
    (hnone : ∀ j < n, j < 1536 → fileNameOf son ≠ (d.dirSlot x j).fileName) :
    (visitedDirectlyToGetFile env n x son).run vdisk d =
      if n < 1536 then some (negENOENT, d) else none := by
  have hshows : Shows _ n 0 (min (n / 128 + 1) 12) d (d.dirSlot x) := h.shows_direct env (by omega)
  have hrun := hshows.run_none (fun _ j buffer => do
      let entry ← Prog.index buffer j
      pure entry.inodeNumber.toInt)
        (fun j _ hj hlt => sameName_eq_false.mpr (hnone j hj (by omega))) (min (n / 128 + 1) 12) 0
    (Nat.zero_add _) (Nat.zero_le _)
  have hiff : n < 0 + 128 * min (n / 128 + 1) 12 ↔ n < 1536 := by omega
  rw [visitedDirectlyToGetFile_eq, visitedDirectlyLoop_eq]
  refine Eq.trans hrun ?_
  simp only [hiff]

/-- There is one first entry with a name. -/
theorem Disk.FirstNamed.eq {start q r : ℕ} (hq : d.FirstNamed x son start q)
    (hr : d.FirstNamed x son start r) : q = r := by
  rcases Nat.lt_trichotomy q r with hlt | heq | hgt
  · exact absurd hq.2.1 (hr.2.2 q hq.1 hlt)
  · exact heq
  · exact absurd hr.2.1 (hq.2.2 r hr.1 hgt)

/-- When the search of index block `k` returns `-ENOENT`. -/
theorem run_visitIndirect_iff (son : Fin 30 → Byte) (h : d.Mounted x n) (k : Fin 2)
    (hn : 128 * (12 + 1024 * k.val) < n) :
    (visitIndirect env k ((128 * (12 + 1024 * k.val) : ℕ) : ℤ) n x son).run vdisk d =
        some (negENOENT, d) ↔ d.IndirectENOENT x son n k := by
  have hlt := h.index k hn
  have hshows := h.shows_indirect env k
  set start := 128 * (12 + 1024 * k.val) with hstart
  have hend : 128 * (12 + 1024 * (k.val + 1)) = start + 128 * 1024 := by omega
  rw [visitIndirect, toInt_eq_natCast (by omega), Prog.run_bind_some _ (run_readInts env hlt d),
    visitIndirectLoop_eq, Disk.IndirectENOENT, ← hstart, hend]
  rcases d.exists_firstNamed x son start n with ⟨q, hqn, hq⟩ | hnone
  · have hright : (∃ q < n, d.FirstNamed x son start q ∧ (q - start) / 128 < 128 ∧
          (d.dirSlot x (start + 129 * ((q - start) / 128))).inodeNumber.toInt = negENOENT) ↔
        (q - start) / 128 < 128 ∧
          (d.dirSlot x (start + 129 * ((q - start) / 128))).inodeNumber.toInt = negENOENT :=
      ⟨fun ⟨r, _, hr, hrest⟩ => hq.eq hr ▸ hrest, fun hrest => ⟨q, hqn, hq, hrest⟩⟩
    rw [hright, or_iff_right fun hleft => hleft.2 q hq.1 hqn hq.2.1]
    by_cases hpart : q < start + 128 * 1024
    · -- the entry returned has the block's number as its index
      have hrun := hshows.run_found (fun i _ buffer => do
          let entry ← Prog.index buffer i
          pure entry.inodeNumber.toInt) (sameName_eq_true.mpr hq.2.1) hqn
        (fun j hj hjq => sameName_eq_false.mpr (hq.2.2 j hj hjq)) 1024 0 (Nat.zero_add _)
        (by rw [Nat.mul_zero]; exact hq.1) hpart
      rw [Nat.mul_zero, Nat.add_zero] at hrun
      refine (iff_of_eq (congrArg (· = _) hrun)).trans ?_
      by_cases hindex : (q - start) / 128 < 128
      · have hslot : start + 128 * ((q - start) / 128) + (q - start) / 128 =
            start + 129 * ((q - start) / 128) := by omega
        rw [Prog.index_natCast _ hindex, Prog.ret_bind, hslot, Prog.pure_eq_ret, Prog.run_ret,
          Option.some.injEq, Prod.mk.injEq, eq_self_iff_true, and_true, and_iff_right hindex]
      · rw [Prog.index_of_ge _ (by omega), Prog.undefined_bind]
        exact iff_of_false (Option.some_ne_none _).symm fun hfalse => hindex hfalse.1
    · have hrun := hshows.run_none (fun i _ buffer => do
          let entry ← Prog.index buffer i
          pure entry.inodeNumber.toInt)
        (fun j hj _ hjp => sameName_eq_false.mpr (hq.2.2 j hj (by omega))) 1024 0 (Nat.zero_add _)
        (by rw [Nat.mul_zero]; omega)
      rw [Nat.mul_zero, Nat.add_zero, if_neg (by omega)] at hrun
      refine (iff_of_eq (congrArg (· = _) hrun)).trans ?_
      exact iff_of_false (Option.some_ne_none _).symm fun hfalse => absurd hfalse.1 (by omega)
  · have hrun := hshows.run_none (fun i _ buffer => do
        let entry ← Prog.index buffer i
        pure entry.inodeNumber.toInt)
      (fun j hj hjn _ => sameName_eq_false.mpr (hnone j hj hjn)) 1024 0 (Nat.zero_add _)
      (by rw [Nat.mul_zero]; omega)
    rw [Nat.mul_zero, Nat.add_zero] at hrun
    refine (iff_of_eq (congrArg (· = _) hrun)).trans ?_
    rw [or_iff_left fun ⟨q, hqn, hq, _⟩ => hnone q hq.1 hqn hq.2.1, and_iff_left hnone]
    split
    · next hroom => exact ⟨fun _ => hroom, fun _ => rfl⟩
    · next hroom => exact iff_of_false (Option.some_ne_none _).symm hroom

/-- The number of entries, computed from the size truncated to an `int`. -/
theorem tdiv_cInt_of_tdiv (hn : x.stSize.toInt.tdiv 32 = n) (hle : n ≤ 128 * (12 + 2 * 1024)) :
    (cInt x.stSize.toInt).tdiv 32 = n := by
  obtain ⟨hlow, hhigh⟩ := bounds_of_tdiv hn
  have hsize : cInt x.stSize.toInt = x.stSize.toInt :=
    Int.bmod_eq_of_le (by omega) (by omega)
  rw [hsize, hn]

/-- Where the direct part returns `-ENOENT` in a directory with more entries, the indirect parts
are searched, and the result is `-ENOENT` again exactly if theirs are. -/
theorem run_searchBehind_iff (h : d.Mounted x n) (hn : 1536 < n) :
    (visitFirstIndirectToGetFile env n x son >>= fun result =>
        if (n : ℤ) > 12 * 128 + 1024 * 128 ∧ result = negENOENT then
          visitSecondIndirectToGetFile env n x son
        else pure result).run vdisk d = some (negENOENT, d) ↔
      d.IndirectENOENT x son n 0 ∧ (128 * (12 + 1024) < n → d.IndirectENOENT x son n 1) := by
  have hfirst := run_visitIndirect_iff env son h 0 (by simpa using hn)
  have hbig : (n : ℤ) > 12 * 128 + 1024 * 128 ↔ 128 * (12 + 1024) < n := by omega
  have hstate {a : ℤ} {t : Disk} (hrun : (visitFirstIndirectToGetFile env n x son).run vdisk d =
      some (a, t)) : t = d := (readOnly_visitIndirect env _ _ _ _ _).run_state vdisk hrun
  rw [Prog.run_bind_eq_some]
  constructor
  · rintro ⟨a, t, hrun, hrest⟩
    obtain rfl := hstate hrun
    by_cases hagain : (n : ℤ) > 12 * 128 + 1024 * 128 ∧ a = negENOENT
    · obtain ⟨hn', rfl⟩ := hagain
      rw [if_pos ⟨hn', rfl⟩] at hrest
      exact ⟨hfirst.mp hrun, fun hn' => (run_visitIndirect_iff env son h 1 hn').mp hrest⟩
    · rw [if_neg hagain] at hrest
      obtain ⟨rfl, -⟩ := Prod.mk.inj (Option.some.inj hrest)
      exact ⟨hfirst.mp hrun, fun hn' => absurd ⟨hbig.mpr hn', rfl⟩ hagain⟩
  · rintro ⟨hzero, hone⟩
    refine ⟨negENOENT, d, hfirst.mpr hzero, ?_⟩
    by_cases hn' : (n : ℤ) > 12 * 128 + 1024 * 128
    · rw [if_pos ⟨hn', rfl⟩]
      exact (run_visitIndirect_iff env son h 1 (hbig.mp hn')).mpr (hone (hbig.mp hn'))
    · rw [if_neg fun hand => hn' hand.1]
      rfl

/-- **When a lookup is exact**: in a directory of fewer than `128 * 12` entries, always; in a larger
one, exactly when the name is among the first `128 * 12` entries and, if there are more and the
number found is the code of `-ENOENT` itself, the indirect parts, which are then searched as
well, give that number again. -/
theorem lookup_exact_iff (d : Disk) (x : INode) (son : Fin 30 → Byte) (n : ℕ)
    (hn : x.stSize.toInt.tdiv 32 = n) (hmounted : d.Mounted x n) :
    (findFileInDict env x son).run vdisk d = some (d.lookupResult x son n, d) ↔
      n < 128 * 12 ∨ ∃ q < n, q < 128 * 12 ∧ d.FirstNamed x son 0 q ∧
        (128 * 12 < n → (d.dirSlot x q).inodeNumber.toInt = negENOENT →
          d.IndirectENOENT x son n 0 ∧ (128 * (12 + 1024) < n → d.IndirectENOENT x son n 1)) := by
  have hbig : (n : ℤ) > 12 * 128 ↔ 128 * 12 < n := by omega
  rw [findFileInDict, tdiv_cInt_of_tdiv hn hmounted.le]
  rcases d.exists_firstNamed x son 0 (min n 1536) with ⟨q, hqmin, hq⟩ | hnone
  · have hqn : q < n := by omega
    have hq1536 : q < 1536 := by omega
    have hright : (∃ r < n, r < 128 * 12 ∧ d.FirstNamed x son 0 r ∧
          (128 * 12 < n → (d.dirSlot x r).inodeNumber.toInt = negENOENT →
            d.IndirectENOENT x son n 0 ∧ (128 * (12 + 1024) < n → d.IndirectENOENT x son n 1))) ↔
        (128 * 12 < n → (d.dirSlot x q).inodeNumber.toInt = negENOENT →
          d.IndirectENOENT x son n 0 ∧ (128 * (12 + 1024) < n → d.IndirectENOENT x son n 1)) := by
      constructor
      · rintro ⟨r, -, -, hr, hrest⟩
        exact hq.eq hr ▸ hrest
      · exact fun hrest => ⟨q, hqn, hq1536, hq, hrest⟩
    rw [hright, Disk.lookupResult_of_firstNamed hq hqn,
      Prog.run_bind_some _ (run_visitedDirectly_found env hmounted hq hqn hq1536)]
    by_cases hagain : (n : ℤ) > 12 * 128 ∧ (d.dirSlot x q).inodeNumber.toInt = negENOENT
    · have hn' := hbig.mp hagain.1
      rw [if_pos hagain, hagain.2, or_iff_right (by omega), forall_prop_of_true hn',
        forall_prop_of_true rfl]
      exact run_searchBehind_iff env hmounted hn'
    · rw [if_neg hagain]
      refine iff_of_true rfl (.inr fun hn' hnumber => absurd ⟨hbig.mpr hn', hnumber⟩ hagain)
  · have hdirect := run_visitedDirectly_none env hmounted
      fun j hjn hj => hnone j (Nat.zero_le j) (by omega)
    have hleft : ¬ ∃ q < n, q < 128 * 12 ∧ d.FirstNamed x son 0 q ∧
        (128 * 12 < n → (d.dirSlot x q).inodeNumber.toInt = negENOENT →
          d.IndirectENOENT x son n 0 ∧ (128 * (12 + 1024) < n → d.IndirectENOENT x son n 1)) := by
      rintro ⟨q, hqn, hq1536, hq, -⟩
      exact hnone q hq.1 (by omega) hq.2.1
    rw [or_iff_left hleft]
    by_cases hsmall : n < 128 * 12
    · rw [if_pos (by omega)] at hdirect
      rw [Prog.run_bind_some _ hdirect, if_neg fun hand => absurd (hbig.mp hand.1) (by omega),
        Disk.lookupResult_of_none fun j hj => hnone j (Nat.zero_le j) (by omega)]
      exact iff_of_true rfl hsmall
    · rw [if_neg (by omega)] at hdirect
      rw [Prog.run_bind, hdirect]
      exact iff_of_false (Option.some_ne_none _).symm hsmall

end Result

/-! ### Directories in data block 0 -/

/-- A record of `n` entries whose blocks are data block 0. -/
def sizedINode (n : ℕ) : INode := { INode.cleared with stSize := BitVec.ofNat 64 (32 * n) }

/-- Up to twelve blocks of entries are mounted. -/
theorem mounted_sizedINode (d : Disk) {n : ℕ} (hn : n ≤ 1536) : d.Mounted (sizedINode n) n where
  le := by omega
  index k hk := by omega
  block r hr := by
    have hr12 : r < 12 := by omega
    have hpointer : (sizedINode n).directPointer ⟨r, hr12⟩ = 0 := rfl
    rw [Disk.dirBlock, if_pos hr12, INode.ptr, dif_pos hr12, hpointer]
    decide

/-- No slot of a block of zeros has the name `a`. -/
theorem fileNameOf_ne_dirSlot_zeroDisk (x : INode) (j : ℕ) :
    fileNameOf (padTo30 [97]) ≠ (zeroDisk.dirSlot x j).fileName := by
  intro hname
  have hbyte : (97 : Byte) = 0 := by
    have hfirst := congrFun hname 0
    rw [Disk.dirSlot, Block.entry, Block.entries_fileName] at hfirst
    exact hfirst
  exact absurd hbyte (by decide)

/-- Data block 0 with the names `a`, `b` and `b`, and inodes 5, 6 and 7. -/
def namesDisk : Disk :=
  zeroDisk.setData 0 (((Block.zero.setEntry 0 ⟨fileNameOf (padTo30 [97]), 5⟩).setEntry 1
    ⟨fileNameOf (padTo30 [98]), 6⟩).setEntry 2 ⟨fileNameOf (padTo30 [98]), 7⟩)

theorem dirSlot_namesDisk (n : ℕ) :
    namesDisk.dirSlot (sizedINode n) 0 = ⟨fileNameOf (padTo30 [97]), 5⟩ ∧
      namesDisk.dirSlot (sizedINode n) 1 = ⟨fileNameOf (padTo30 [98]), 6⟩ := by
  have hblock : namesDisk.dirBlock (sizedINode n) 0 = 0 := rfl
  rw [Disk.dirSlot, Disk.dirSlot, Nat.zero_div, hblock, namesDisk, Disk.data_setData_self]
  simp [Block.entry_setEntry]

/-- The name `b` behind the name `a`: its first entry. -/
theorem lookup_exact_second_of_three :
    namesDisk.lookupResult (sizedINode 3) (padTo30 [98]) 3 = 6 ∧
    (findFileInDict plainEnv (sizedINode 3) (padTo30 [98])).run vdisk namesDisk =
      some (namesDisk.lookupResult (sizedINode 3) (padTo30 [98]) 3, namesDisk) := by
  obtain ⟨hfirst, hsecond⟩ := dirSlot_namesDisk 3
  have hnamed : namesDisk.FirstNamed (sizedINode 3) (padTo30 [98]) 0 1 := by
    refine ⟨Nat.zero_le 1, by rw [hsecond], fun j _ hj => ?_⟩
    obtain rfl : j = 0 := by omega
    rw [hfirst]
    exact fun hname => absurd (congrFun hname 0) (by decide)
  refine ⟨?_, (lookup_exact_iff plainEnv namesDisk (sizedINode 3) (padTo30 [98]) 3 (by decide)
    (mounted_sizedINode namesDisk (by decide))).mpr (.inl (by decide))⟩
  rw [Disk.lookupResult_of_firstNamed hnamed (by decide), hsecond]
  rfl

/-- A full directory without the name: the direct search ends without a result. -/
theorem not_lookup_exact_full :
    (findFileInDict plainEnv (sizedINode 1536) (padTo30 [97])).run vdisk zeroDisk ≠
      some (zeroDisk.lookupResult (sizedINode 1536) (padTo30 [97]) 1536, zeroDisk) := by
  have hsize : (cInt (sizedINode 1536).stSize.toInt).tdiv 32 = ((1536 : ℕ) : ℤ) := by decide
  have hdirect := run_visitedDirectly_none plainEnv (mounted_sizedINode zeroDisk le_rfl)
    fun j _ _ => fileNameOf_ne_dirSlot_zeroDisk (sizedINode 1536) j
  rw [if_neg (by decide)] at hdirect
  rw [findFileInDict, hsize, Prog.run_bind, hdirect]
  exact (Option.some_ne_none _).symm

end InodeFs
