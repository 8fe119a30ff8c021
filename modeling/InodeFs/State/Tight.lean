import InodeFs.Ops.Write
import InodeFs.Ops.Remove

/-!
# Blocks in use

`Disk.Tight` is the other direction of what `Disk.Sound` says of the data map: every block of an
inode lies below the end of the inode, and every marked block behind the reserved ones is the
block of some inode. The steps that keep it are those that need no block to be given back.

`Tight.below` is about ranks, `Tight.held` about marked blocks. Both are kept by creations
(`Tight.withFreshInode`, `Tight.addEntry`), by changes of a file that end behind all of its blocks
(`Tight.fileChange`), and by a removal from a directory that keeps another entry
(`Tight.removeEntry`): with the last entry gone the directory's block would stay mounted behind its
end.

The formatted disk is tight where the 27 bytes behind the buffer of `initial_datablock_map` are
zeros (`tight_initial`); everything they mark is held by nothing.

There is no statement about a truncation that cuts off blocks, since nothing is given back. An
unlinked file keeps its record, and so holds its blocks, though no path leads to them;
`InodeFs.Properties.Fsck`, which puts the two directions together, looks at what is reached.
-/

namespace InodeFs

namespace Disk

/-- No inode has blocks behind its end, and no block is marked without being some inode's. -/
structure Tight (d : Disk) : Prop where
  below : ∀ i < 32768, ∀ r, (d.inode i).ptr r ≠ 0 → 4096 * r < (d.inode i).stSize.toNat
  held : ∀ b < 64508, 4 ≤ b → d.dmap b = true → ∃ i < 32768, ∃ r, (d.inode i).ptr r = b

variable {d d' : Disk} {p k limit : ℕ}

/-- The formatted disk, with zeros behind the buffer of the data map. -/
theorem tight_initial (env : Env) {behind : Fin 27 → Byte} (hbehind : ∀ k, behind k = 0) :
    (initial env behind).Tight where
  below i _ r hr := absurd (ptr_initial env behind i r) hr
  held b hb h4 hset := by
    rw [dmap_initial_of_zero env hbehind (by omega), decide_eq_true_eq] at hset
    omega

/-- A free inode's record may be initialised. -/
theorem Tight.withFreshInode (h : d.Tight) (hd : d.Sound limit) (env : Env) (mode : BitVec 32)
    (hk : k < 32768) (hfree : d.imap k = false) : (d.withFreshInode env mode k).Tight := by
  have hptr (i r : ℕ) : ((d.withFreshInode env mode k).inode i).ptr r = (d.inode i).ptr r := by
    rw [inode_withFreshInode]
    split
    · next hik => rw [ptr_freshINode, hik]
    · rfl
  refine ⟨fun i hi r hr => ?_, fun b hb h4 hset => ?_⟩
  · rw [hptr] at hr
    have hne : i ≠ k := by
      rintro rfl
      exact hr (hd.pointers.fresh i hk hfree r)
    rw [inode_withFreshInode, if_neg hne]
    exact h.below i hi r hr
  · rw [dmap_withFreshInode] at hset
    obtain ⟨i, hi, r, hr⟩ := h.held b hb h4 hset
    exact ⟨i, hi, r, (hptr i r).trans hr⟩

section AddEntry

variable {env : Env} {e : DictioryContent} {clock : ℕ} (h : d.Tight) (hd : d.Sound limit)
  (hp : d.IsDir p)
include h hd hp

/-- A new entry takes a block where the ones in use are full, and grows into it. -/
theorem Tight.addEntry (hcount : (d.inode p).count < 1536) (hroom : d.HasRoom (d.inode p)) :
    (d.addEntry env e clock p).Tight := by
  have hsize := (hd.directories.dir p hp).size_eq
  have hr : (d.inode p).count / 128 < 12 := by omega
  have hgrown : ((d.addEntry env e clock p).inode p).stSize.toNat =
      (d.inode p).stSize.toNat + 32 := by
    rw [Disk.addEntry, inode_appendEntry hp.1, if_pos rfl, hd.toNat_addEntry hp hcount]
  have hptr (r : ℕ) : ((d.addEntry env e clock p).inode p).ptr r =
      if (d.inode p).count % 128 = 0 ∧ r = (d.inode p).count / 128 then d.nextData
      else (d.inode p).ptr r := by
    rw [inode_addEntry_self hp.1, (INode.sameBlocks_grown env clock _).ptr, withBlock]
    by_cases h0 : (d.inode p).count % 128 = 0
    · rw [if_pos h0, INode.ptr_setPtr _ hr d.nextData_lt]
      simp only [h0, true_and]
    · rw [if_neg h0, if_neg fun hand => h0 hand.1]
  refine ⟨fun i hi r hne => ?_, fun b hb h4 hset => ?_⟩
  · by_cases hip : i = p
    · subst hip
      rw [hgrown]
      rw [hptr] at hne
      split at hne
      · omega
      · exact (h.below i hi r hne).trans_le (Nat.le_add_right _ _)
    · rw [inode_addEntry_of_ne hi hip] at hne ⊢
      exact h.below i hi r hne
  · rw [dmap_addEntry (by omega), Bool.or_eq_true, decide_eq_true_eq] at hset
    rcases hset with hset | ⟨h0, rfl⟩
    · obtain ⟨i, hi, r, rfl⟩ := h.held b hb h4 hset
      refine ⟨i, hi, r, ?_⟩
      by_cases hip : i = p
      · subst hip
        -- the rank behind the end had no block
        rw [hptr, if_neg]
        rintro ⟨h0, rfl⟩
        have hlt := h.below i hi _ (show (d.inode i).ptr ((d.inode i).count / 128) ≠ 0 by omega)
        omega
      · rw [inode_addEntry_of_ne hi hip]
    · exact ⟨p, hp.1, (d.inode p).count / 128, by rw [hptr, if_pos ⟨h0, rfl⟩]⟩

/-- An entry may go from a directory with another entry, of at most 12. -/
theorem Tight.removeEntry (hcount : (d.inode p).count ≤ 12) (htwo : 2 ≤ (d.inode p).count) :
    (d.removeEntry p k ((d.inode p).shrunk env clock)).Tight := by
  have hsize := (hd.directories.dir p hp).size_eq
  have hshrunk : ((d.inode p).shrunk env clock).stSize.toNat + 32 = (d.inode p).stSize.toNat :=
    INode.toNat_shrunk env clock (by omega)
  have hptr (i : ℕ) (hi : i < 32768) (r : ℕ) :
      ((d.removeEntry p k ((d.inode p).shrunk env clock)).inode i).ptr r = (d.inode i).ptr r := by
    rw [inode_removeEntry hi]
    split
    · next hip => rw [hip, (INode.sameBlocks_shrunk env clock _).ptr]
    · rfl
  refine ⟨fun i hi r hne => ?_, fun b hb h4 hset => ?_⟩
  · rw [hptr i hi] at hne
    have hlt := h.below i hi r hne
    rw [inode_removeEntry hi]
    split
    · next hip =>
      subst hip
      omega
    · exact hlt
  · rw [dmap_removeEntry] at hset
    obtain ⟨i, hi, r, hr⟩ := h.held b hb h4 hset
    exact ⟨i, hi, r, (hptr i hi r).trans hr⟩

end AddEntry

section File

variable {i size offset : ℕ} (h : d.Tight)
include h

/-- A file whose blocks stay below its new end, where the new ones are mounted at ranks without a
block. -/
theorem Tight.fileChange {lo hi : ℕ} (hchange : FileChange i lo hi d d' limit) (hi' : i < 32768)
    (hnew : ∀ r, lo ≤ r → r < hi → (d.inode i).ptr r = 0 ∧
      4096 * r < (d'.inode i).stSize.toNat)
    (hold : ∀ r, (d.inode i).ptr r ≠ 0 → 4096 * r < (d'.inode i).stSize.toNat) : d'.Tight where
  below j hj r hr := by
    by_cases hji : j = i
    · subst hji
      -- a pointer of the file is new or an old one
      by_cases hin : lo ≤ r ∧ r < hi
      · exact (hnew r hin.1 hin.2).2
      · rw [hchange.ptr_same r hin] at hr
        exact hold r hr
    · rw [hchange.inode_ne j hj hji] at hr ⊢
      exact h.below j hj r hr
  held b hb h4 hset := by
    rcases (hchange.dmap b (by omega)).mp hset with hset | ⟨r, -, -, hr⟩
    · obtain ⟨j, hj, r, rfl⟩ := h.held b hb h4 hset
      refine ⟨j, hj, r, ?_⟩
      by_cases hji : j = i
      · subst hji
        refine hchange.ptr_same r fun hin => ?_
        have hzero := (hnew r hin.1 hin.2).1
        omega
      · rw [hchange.inode_ne j hj hji]
    · exact ⟨i, hi', r, hr⟩

end File

end Disk

end InodeFs
