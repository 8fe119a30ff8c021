import InodeFs.Properties.Allocation
import InodeFs.Properties.Frame
import InodeFs.Properties.Lookup

/-!
# The growth of a directory

`add_file_to_dict` keeps the entries of a directory of less than `128 * 12` entries, and appends
one. `Disk.Represents d x es` is the invariant of the growth: it ties the number of entries to the
blocks that are valid, over any disk. At the next entry the index block is taken, but the block of
`direct_pointer[0]` is used for it.

`Built` are the directories that the function itself has built, with anything happening to the rest
of the disk in between but that a block is given back. By induction on it the invariant holds up to
1536 entries (`Built.represents`), and `append_exact` is read off the invariant: the new entry comes
behind the former ones, which are as they were, and of the marked blocks only the directory's
change.

At 1536 entries two blocks are taken, one as the index block and one for the entry. The number of
the second one is stored into the directory's first block, over the first four bytes of its first
name (`Represents.run_storeInDict_full`); that those were other bytes is seen from byte 2 of the
block, which is zero in a block number (`Block.byte_two_of_ints`).
-/

namespace InodeFs

variable (env : Env)

namespace Disk

/-- The first `n` entries of a directory, from its direct blocks and the index blocks. -/
def slots (d : Disk) (x : INode) (n : ℕ) : List DictioryContent := (List.range n).map (d.dirSlot x)

/-- The directories that are built by successive calls of `add_file_to_dict`, each with a free
block if it needs one. Meanwhile the rest of the disk may change, as long as no block is given
back. -/
inductive Built : Disk → INode → List DictioryContent → Prop
  | empty {d : Disk} {x : INode} (size : x.stSize = 0) : Built d x []
  | append {d d' : Disk} {x x' : INode} {es : List DictioryContent} (built : Built d x es)
      (room : d.HasRoom x) (env : Env) (clock : ℕ) (e : DictioryContent)
      (call : (addFileToDict env clock x e).run vdisk d = some (x', d')) : Built d' x' (es ++ [e])
  | meanwhile {d t : Disk} {x : INode} {es : List DictioryContent} (built : Built d x es)
      (data : ∀ r, 128 * r < x.count → t.data (d.dirBlock x r) = d.data (d.dirBlock x r))
      (dmap : ∀ b < 65536, d.dmap b = true → t.dmap b = true) : Built t x es

/-- A further entry is appended: the former ones are as they were, and no marked block changes that
is none of the directory's. -/
def AppendsExactly (clock : ℕ) (d : Disk) (x : INode) (es : List DictioryContent)
    (e : DictioryContent) : Prop :=
  d.slots x es.length = es ∧ ∃ x' d', (addFileToDict env clock x e).run vdisk d = some (x', d') ∧
    d'.slots x' (es.length + 1) = es ++ [e] ∧
    ∀ b < 65536, d.dmap b = true → (∀ r, 128 * r < es.length → b ≠ d.dirBlock x r) →
      d'.data b = d.data b

/-! ### The invariant -/

/-- The direct blocks of record `x` hold the entries `es`: every rank below the end has a marked
block of its own. -/
structure Represents (d : Disk) (x : INode) (es : List DictioryContent) : Prop where
  le : es.length ≤ 1536
  size_eq : x.stSize.toNat = 32 * es.length
  lt : ∀ r, 128 * r < es.length → x.ptr r < 64508
  marked : ∀ r, 128 * r < es.length → d.dmap (x.ptr r) = true
  inj : ∀ r s, 128 * r < es.length → 128 * s < es.length → x.ptr r = x.ptr s → r = s
  entry : ∀ j (h : j < es.length), d.entryOf x j = es[j]

variable {d : Disk} {x : INode} {es : List DictioryContent}

theorem represents_nil (h : x.stSize = 0) : d.Represents x [] where
  le := Nat.zero_le _
  size_eq := by rw [h]; rfl
  lt r hr := absurd hr (Nat.not_lt_zero _)
  marked r hr := absurd hr (Nat.not_lt_zero _)
  inj r _ hr := absurd hr (Nat.not_lt_zero _)
  entry j hj := absurd hj (Nat.not_lt_zero _)

theorem Represents.count_eq (h : d.Represents x es) : x.count = es.length := by
  have hsize := h.size_eq
  rw [INode.count]
  omega

/-- The direct blocks are all there is. -/
theorem Represents.dirBlock_eq (h : d.Represents x es) {r : ℕ} (hr : 128 * r < es.length)
    (t : Disk) : t.dirBlock x r = x.ptr r := by
  have hle := h.le
  rw [dirBlock, if_pos (by omega)]

theorem Represents.slots_eq (h : d.Represents x es) : d.slots x es.length = es := by
  refine List.ext_getElem (by rw [slots, List.length_map, List.length_range]) fun j hj hj' => ?_
  simp only [slots, List.getElem_map, List.getElem_range]
  rw [← h.entry j hj', dirSlot, h.dirBlock_eq (by omega), entryOf]

/-- Changes elsewhere, with no block given back. -/
theorem Represents.congr {t : Disk} (h : d.Represents x es)
    (hdata : ∀ r, 128 * r < es.length → t.data (x.ptr r) = d.data (x.ptr r))
    (hdmap : ∀ b < 65536, d.dmap b = true → t.dmap b = true) : t.Represents x es where
  le := h.le
  size_eq := h.size_eq
  lt := h.lt
  marked r hr := hdmap _ (by have := h.lt r hr; omega) (h.marked r hr)
  inj := h.inj
  entry j hj := by rw [entryOf_congr rfl (hdata _ (by omega)), h.entry j hj]

theorem ptr_withRoom {n : ℕ} (hn : n < 1536) (r : ℕ) : (d.withRoom x n).ptr r =
    if n % 128 = 0 ∧ r = n / 128 then d.blockFor x n else x.ptr r := by
  rw [withRoom]
  by_cases h0 : n % 128 = 0
  · have hfresh : d.blockFor x n = d.nextData := if_pos h0
    rw [if_pos h0, hfresh, INode.ptr_setPtr _ (by omega) d.nextData_lt]
    simp only [h0, true_and]
  · rw [if_neg h0, if_neg fun hand => h0 hand.1]

/-- The current rank has the block written. -/
theorem ptr_withRoom_current {n : ℕ} (hn : n < 1536) :
    (d.withRoom x n).ptr (n / 128) = d.blockFor x n := by
  rw [ptr_withRoom hn]
  split
  · rfl
  · next h0 => rw [blockFor, if_neg fun h0' => h0 ⟨h0', rfl⟩]

theorem ptr_withRoom_former {n r : ℕ} (hn : n < 1536) (hne : r ≠ n / 128) :
    (d.withRoom x n).ptr r = x.ptr r := by
  rw [ptr_withRoom hn, if_neg fun hand => hne hand.2]

section Append

variable (h : d.Represents x es) (hroom : d.HasRoom x)
include h hroom

/-- The block of the next entry exists, and is fresh if it is the first of its block. -/
theorem Represents.blockFor_lt : d.blockFor x es.length < 64508 := by
  rw [blockFor]
  split
  · next h0 => exact (hroom (by rw [h.count_eq]; exact h0)).nextData_lt
  · exact h.lt _ (by omega)

/-- Only the block of the current rank is written. -/
theorem Represents.ne_blockFor {r : ℕ} (hr : 128 * r < es.length)
    (hne : r ≠ es.length / 128) : x.ptr r ≠ d.blockFor x es.length := by
  rw [blockFor]
  split
  · next h0 =>
    intro heq
    have hmarked := h.marked r hr
    rw [heq, (hroom (by rw [h.count_eq]; exact h0)).dmap_nextData] at hmarked
    cases hmarked
  · exact fun heq => hne (h.inj _ _ hr (by omega) heq)

variable (hsmall : es.length < 1536)
include hsmall

/-- **A further entry**. -/
theorem Represents.append (clock : ℕ) (e : DictioryContent) :
    (d.withEntry x e es.length).Represents ((d.withRoom x es.length).grown env clock)
      (es ++ [e]) := by
  have hsame := INode.sameBlocks_grown env clock (d.withRoom x es.length)
  have hblock := h.blockFor_lt hroom
  have hsize := h.size_eq
  have hstSize : (d.withRoom x es.length).stSize = x.stSize := stSize_withRoom d x es.length
  refine ⟨?_, ?_, fun r hr => ?_, fun r hr => ?_, fun r s hr hs heq => ?_, fun j hj => ?_⟩
  · rw [List.length_append, List.length_singleton]
    omega
  · rw [INode.toNat_grown env clock (by rw [hstSize]; omega), hstSize, hsize, List.length_append,
      List.length_singleton]
    omega
  all_goals rw [List.length_append, List.length_singleton] at *
  · rw [hsame.ptr]
    -- the rank of the new entry, or a rank in front of it
    by_cases hcurrent : r = es.length / 128
    · rw [hcurrent, ptr_withRoom_current hsmall]
      exact hblock
    · rw [ptr_withRoom_former hsmall hcurrent]
      exact h.lt r (by omega)
  · rw [hsame.ptr]
    by_cases hcurrent : r = es.length / 128
    · rw [hcurrent, ptr_withRoom_current hsmall, dmap_withEntry e (by omega)]
      by_cases h0 : es.length % 128 = 0
      · simp [h0]
      · rw [blockFor, if_neg h0, h.marked _ (by omega), Bool.true_or]
    · have hlt := h.lt r (by omega)
      rw [ptr_withRoom_former hsmall hcurrent, dmap_withEntry e (by omega), h.marked r (by omega),
        Bool.true_or]
  · rw [hsame.ptr, hsame.ptr] at heq
    -- two ranks share a block only if the current one does with a former
    by_cases hr' : r = es.length / 128 <;> by_cases hs' : s = es.length / 128
    · rw [hr', hs']
    · rw [hr', ptr_withRoom_current hsmall, ptr_withRoom_former hsmall hs'] at heq
      exact absurd heq.symm (h.ne_blockFor hroom (by omega) hs')
    · rw [hs', ptr_withRoom_current hsmall, ptr_withRoom_former hsmall hr'] at heq
      exact absurd heq (h.ne_blockFor hroom (by omega) hr')
    · rw [ptr_withRoom_former hsmall hr', ptr_withRoom_former hsmall hs'] at heq
      exact h.inj r s (by omega) (by omega) heq
  · rw [entryOf, hsame.ptr, data_withEntry]
    by_cases hcurrent : j / 128 = es.length / 128
    · rw [hcurrent, ptr_withRoom_current hsmall, if_pos rfl, Block.entry_setEntry]
      -- in the current block the entry is the new one, or lies in front of it
      by_cases hlast : j = es.length
      · rw [if_pos (by rw [hlast])]
        simp [hlast]
      · rw [if_neg (by omega), List.getElem_append_left (by omega), ← h.entry j (by omega), entryOf,
          hcurrent, blockFor, if_neg (by omega)]
    · rw [ptr_withRoom_former hsmall hcurrent, if_neg (h.ne_blockFor hroom (by omega) hcurrent),
        List.getElem_append_left (by omega), ← h.entry j (by omega), entryOf]

/-- The call itself. -/
theorem Represents.run_addFileToDict (clock : ℕ) (e : DictioryContent) :
    (addFileToDict env clock x e).run vdisk d =
      some ((d.withRoom x es.length).grown env clock, d.withEntry x e es.length) := by
  have hn : x.stSize.toInt.tdiv 32 = es.length := by
    have hsize := h.size_eq
    rw [toInt_eq_natCast_long (by omega), natCast_tdiv_ofNat, hsize,
      Nat.mul_div_cancel_left _ (by decide)]
  rw [addFileToDict, Prog.run_bind_some _ (run_storeInDict_direct env e hn hsmall
    (h.blockFor_lt hroom))]
  rfl

theorem Represents.appendsExactly (clock : ℕ) (e : DictioryContent) :
    AppendsExactly env clock d x es e := by
  have happend := h.append env hroom hsmall clock e
  refine ⟨h.slots_eq, _, _, h.run_addFileToDict env hroom hsmall clock e, ?_,
    fun b hb hmarked hne => ?_⟩
  · have hslots := happend.slots_eq
    rwa [List.length_append, List.length_singleton] at hslots
  · rw [data_withEntry, if_neg]
    rintro rfl
    rw [blockFor] at hmarked hne
    split at hmarked
    · next h0 =>
      rw [(hroom (by rw [h.count_eq]; exact h0)).dmap_nextData] at hmarked
      cases hmarked
    · next h0 =>
      rw [if_neg h0] at hne
      exact hne (es.length / 128) (by omega) (h.dirBlock_eq (by omega) d).symm

end Append

/-- What a directory is built of is what its blocks hold. -/
theorem Built.represents (h : d.Built x es) (hle : es.length ≤ 1536) : d.Represents x es := by
  induction h with
  | empty size => exact represents_nil size
  | append built room env clock e call ih =>
    rw [List.length_append, List.length_singleton] at hle
    have hrep := ih (by omega)
    rw [hrep.run_addFileToDict env room (by omega) clock e] at call
    cases call
    exact hrep.append env room (by omega) clock e
  | meanwhile built data dmap ih =>
    have hrep := ih hle
    refine hrep.congr (fun r hr => ?_) dmap
    rw [← hrep.dirBlock_eq hr, data r (by rw [hrep.count_eq]; exact hr)]

theorem freeBlocks_withEntry (hroom : d.HasRoom x) (e : DictioryContent) :
    d.freeBlocks ≤ (d.withEntry x e x.count).freeBlocks + 1 := by
  by_cases h0 : x.count % 128 = 0
  · have hb := hroom h0
    refine (clearBelow_set hb.nextData_lt hb.dmap_nextData fun c hc => ?_).ge
    have hfresh : d.blockFor x x.count = d.nextData := if_pos h0
    rw [dmap_withEntry e (by omega), hfresh]
    simp [h0]
  · have hsame : (d.withEntry x e x.count).freeBlocks = d.freeBlocks :=
      freeBlocks_congr fun b hb => by rw [dmap_withEntry e hb]; simp [h0]
    omega

/-- Every list of entries can be built where there are enough free blocks. -/
theorem exists_built (hsize : x.stSize = 0) (es : List DictioryContent) (hle : es.length ≤ 1536)
    (hfree : es.length ≤ d.freeBlocks) :
    ∃ (d' : Disk) (x' : INode), d'.Built x' es ∧ d.freeBlocks ≤ d'.freeBlocks + es.length := by
  induction es using List.reverseRecOn with
  | nil => exact ⟨d, x, .empty hsize, Nat.le_add_right _ _⟩
  | append_singleton es e ih =>
    rw [List.length_append, List.length_singleton] at hle hfree ⊢
    obtain ⟨d', x', hbuilt, hfree'⟩ := ih (by omega) (by omega)
    have hrep := hbuilt.represents (by omega)
    have hroom : d'.HasRoom x' := fun _ => freeBlocks_pos_iff.mp (by omega)
    refine ⟨_, _, hbuilt.append hroom plainEnv 0 e
      (hrep.run_addFileToDict plainEnv hroom (by omega) 0 e), ?_⟩
    have hblocks := freeBlocks_withEntry hroom e
    rw [hrep.count_eq] at hblocks
    omega

end Disk

/-! ### The thirteenth block -/

/-- Byte 2 of a block is byte 2 of its first `int`. -/
theorem Block.byte_two_of_ints (b : Block) (h : (b.ints ⟨0, by decide⟩).toNat < 65536) :
    b ⟨2, by decide⟩ = 0 := by
  have hbyte : b ⟨2, by decide⟩ = intLayout (b.ints ⟨0, by decide⟩) 2 := by
    have harray := Layout.array_apply intLayout b.ints ⟨2, by decide⟩
    rwa [Block.ints, Equiv.apply_symm_apply] at harray
  rw [hbyte]
  refine BitVec.eq_of_toNat_eq ?_
  change ((b.ints ⟨0, by decide⟩).extractLsb' (8 * 2) 8).toNat = 0
  rw [BitVec.extractLsb'_toNat, Nat.shiftRight_eq_div_pow, Nat.div_eq_of_lt (by omega)]

section Full

variable {d d₁ : Disk} {x : INode} {es : List DictioryContent} (h : d.Represents x es)
  (hfull : es.length = 1536) (hd₁ : d₁ = d.coverData d.nextData) (hb₁ : d₁.HasBlock)
include h hfull hd₁ hb₁

/-- The number of the thirteenth block is not that of the first one. -/
theorem Disk.Represents.nextData_ne : d₁.nextData ≠ x.ptr 0 := by
  intro heq
  have hlt := h.lt 0 (by omega)
  have hmarked : d₁.dmap (x.ptr 0) = true := by
    rw [hd₁, Disk.dmap_coverData d.nextData_lt (by omega), h.marked 0 (by omega), Bool.true_or]
  rw [← heq, hb₁.dmap_nextData] at hmarked
  cases hmarked

/-- Two blocks are taken; the number of the second one is stored as an `int` in the first block of
the directory, the entry in the second one. -/
theorem Disk.Represents.run_storeInDict_full (e : DictioryContent) :
    (storeInDict env x e).run vdisk d = some ({ x with
        indirectPointer := Function.update x.indirectPointer 0 (BitVec.ofInt 32 d.nextData) },
      ((d₁.coverData d₁.nextData).setData (x.ptr 0) (Block.ints.symm (Function.update
        (d₁.data (x.ptr 0)).ints ⟨0, by decide⟩ (BitVec.ofInt 32 d₁.nextData)))).setData
          d₁.nextData ((d₁.data d₁.nextData).setEntry 0 e)) := by
  -- 1536 entries: rank 12, and the first of its slots
  have hn : cInt (x.stSize.toInt.tdiv 32) = 1536 := by
    have hsize := h.size_eq
    rw [toInt_eq_natCast_long (by omega), natCast_tdiv_ofNat, hsize, hfull]
    rfl
  have hdiv : (1536 : ℤ).tdiv 128 = 12 := rfl
  have hmod : (1536 : ℤ).tmod 128 = 0 := rfl
  have hlt := h.lt 0 (by omega)
  have hfirst : (x.directPointer 0).toInt = (x.ptr 0 : ℤ) :=
    INode.toInt_directPointer (show 0 < 12 by decide) hlt
  have hposition : (0 : ℤ) = ((0 : ℕ) : ℤ) := rfl
  have hslot : (12 : ℤ) - 12 = ((0 : ℕ) : ℤ) := rfl
  rw [storeInDict, hn]
  simp only [hdiv, hmod]
  simp only [show ¬ (12 : ℤ) < 12 by decide, show (12 : ℤ) < 12 + 1024 by decide, if_true,
    if_false]
  rw [Prog.run_bind_some _ (run_takeDatablock env d), ← hd₁, Prog.pure_eq_ret,
    Prog.ret_bind]
  simp only [hfirst]
  rw [Prog.run_bind_some _ (run_readInts env hlt d₁),
    Prog.run_bind_some _ (run_takeDatablock env d₁), hslot,
    Prog.assign_natCast _ (show 0 < 1024 by decide), Prog.ret_bind, writeInts,
    Prog.run_bind_some _ (run_writeData hlt _ _), hposition,
    Prog.run_bind_some _ (run_addADictInDataBlock env hb₁.nextData_lt (by decide) e _),
    Disk.data_setData, if_neg (h.nextData_ne hfull hd₁ hb₁), Disk.data_coverData]
  rfl

end Full

/-- **The entry at which the index block is taken**: the number of the thirteenth block is stored in
the first direct block, over the name of the first entry. -/
theorem run_addFileToDict_full {d : Disk} {x : INode} {es : List DictioryContent}
    (h : d.Represents x es) (hfull : es.length = 1536) (hfree : 2 ≤ d.freeBlocks) (clock : ℕ)
    (e : DictioryContent) : ∃ x' d', (addFileToDict env clock x e).run vdisk d = some (x', d') ∧
      x'.ptr 0 = x.ptr 0 ∧ d'.data (x.ptr 0) ⟨2, by decide⟩ = 0 := by
  have hb : d.HasBlock := Disk.freeBlocks_pos_iff.mp (by omega)
  set d₁ := d.coverData d.nextData with hd₁
  have hb₁ : d₁.HasBlock := by
    have hcover := Disk.freeBlocks_coverData hb
    rw [← hd₁] at hcover
    exact Disk.freeBlocks_pos_iff.mp (by omega)
  have hstore := h.run_storeInDict_full env hfull hd₁ hb₁ e
  refine ⟨({ x with indirectPointer := _ } : INode).grown env clock, _,
    by rw [addFileToDict, Prog.run_bind_some _ hstore]; rfl, ?_, ?_⟩
  · rw [(INode.sameBlocks_grown env clock _).ptr]
    rfl
  · have hlt := d₁.nextData_lt
    refine Block.byte_two_of_ints _ ?_
    rw [Disk.data_setData, if_neg (h.nextData_ne hfull hd₁ hb₁).symm, Disk.data_setData_self,
      Equiv.apply_symm_apply, Function.update_self, toNat_ofInt_natCast (by omega)]
    exact hlt

/-! ### Every directory of less than 1536 entries -/

/-- **Appending works** for every directory of less than `128 * 12` entries that
`add_file_to_dict` has built, and every further entry. -/
theorem append_exact {d : Disk} {x : INode} {es : List DictioryContent} (h : d.Built x es)
    (hroom : d.HasRoom x) (hsmall : es.length < 128 * 12) (clock : ℕ) (e : DictioryContent) :
    Disk.AppendsExactly env clock d x es e :=
  (h.represents hsmall.le).appendsExactly env hroom hsmall clock e

/-- The entries of files with names of three characters, `@@x`, `@Ax`, ... -/
def nthEntry (k : ℕ) : DictioryContent :=
  ⟨fileNameOf (padTo30 ((nthName k).chars ++ [120])), BitVec.ofNat 32 (5 + k)⟩

/-- The root of a formatted disk, of any number of entries. -/
theorem exists_built_root (n : ℕ) (hn : n ≤ 1536) : ∃ (d : Disk) (x : INode),
    d.Built x ((List.range n).map nthEntry) ∧ 2 ≤ d.freeBlocks := by
  have hinodes := Disk.freeInodes_initial plainEnv fun _ => 0
  have hblocks := Disk.freeInodes_le_freeBlocks_initial plainEnv fun _ => 0
  have hlength : ((List.range n).map nthEntry).length = n := by
    rw [List.length_map, List.length_range]
  obtain ⟨d, x, hbuilt, hfree⟩ := Disk.exists_built (d := Disk.initial plainEnv fun _ => 0)
    (Disk.stSize_initial plainEnv (fun _ => 0) 4) ((List.range n).map nthEntry) (by omega)
      (by omega)
  exact ⟨d, x, hbuilt, by omega⟩

/-- The last entry that works. -/
theorem append_exact_last : ∃ (d : Disk) (x : INode), d.Built x ((List.range 1535).map nthEntry) ∧
    Disk.AppendsExactly plainEnv 0 d x ((List.range 1535).map nthEntry) (nthEntry 1535) := by
  obtain ⟨d, x, hbuilt, hfree⟩ := exists_built_root 1535 (by decide)
  refine ⟨d, x, hbuilt, append_exact plainEnv hbuilt
    (fun _ => Disk.freeBlocks_pos_iff.mp (by omega)) ?_ 0 (nthEntry 1535)⟩
  rw [List.length_map, List.length_range]
  decide

/-- The next one spoils the first entry. -/
theorem not_append_exact : ∃ (d : Disk) (x : INode), d.Built x ((List.range 1536).map nthEntry) ∧
    2 ≤ d.freeBlocks ∧
    ¬ Disk.AppendsExactly plainEnv 0 d x ((List.range 1536).map nthEntry) (nthEntry 1536) := by
  obtain ⟨d, x, hbuilt, hfree⟩ := exists_built_root 1536 (by decide)
  have hlength : ((List.range 1536).map nthEntry).length = 1536 := by
    rw [List.length_map, List.length_range]
  refine ⟨d, x, hbuilt, hfree, ?_⟩
  rintro ⟨-, x', d', hrun, hslots, -⟩
  obtain ⟨x'', d'', hrun', hptr, hbyte⟩ := run_addFileToDict_full plainEnv
    (hbuilt.represents hlength.le) hlength hfree 0 (nthEntry 1536)
  obtain ⟨rfl, rfl⟩ := Prog.run_inj vdisk hrun hrun'
  -- the first entry has the name `@@x`
  have hfirst : d'.dirSlot x' 0 = nthEntry 0 := by
    have hget : (d'.slots x' (1536 + 1))[0]? = some (nthEntry 0) := by
      rw [← hlength, hslots, List.getElem?_append_left (by omega), List.getElem?_map,
        List.getElem?_range (by decide), Option.map_some]
    rw [Disk.slots, List.getElem?_map, List.getElem?_range (by decide)] at hget
    exact Option.some.inj hget
  have hname := Block.entries_fileName (d'.data (x'.ptr 0)) 0 2
  have hentry : ((d'.data (x'.ptr 0)).entries 0).fileName 2 = 120 := by
    change (d'.dirSlot x' 0).fileName 2 = 120
    rw [hfirst]
    rfl
  rw [hentry, hptr] at hname
  exact absurd (hname.trans hbyte) (by decide)

end InodeFs
