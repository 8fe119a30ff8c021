import InodeFs.Disk.RecordExec

/-!
# Arrays of records

Every change of an inode record or a directory entry reads a block of records, replaces one and
writes the block back. `ActsAsArray` says of such a pair of functions that the records are those
of an array, each in its own bytes, and `actsAsArray_of_run` that the pair needs only to find
every record at a place of its own. `records_independent` is this for the inode table and for the
directory blocks, which lie in different parts of the disk.

The laws of an array are in `ActsAsArray`: what was put is read back and the other records are as
they were, putting back what was got changes nothing, and of two puts at a record the second one
counts. To these comes where the bytes are: a record fills the bytes of its layout, and a put
changes no other byte of the disk.

The layouts are those of `InodeFs.Lib.Layout`, an inode of 128 bytes and an entry of 32, with 32 and
128 of them in a block. The places are given as functions, a block and an index in it, and need to
be different for different records; that the two tables lie apart is a comparison of block numbers.
-/

namespace InodeFs

/-- **An array of records on the disk**, read by `get` and written by `put`: record `i` fills the
bytes of the layout at its place in its block. -/
structure ActsAsArray {ι α : Type} {per w : ℕ} (L : Layout α w) (valid : ι → Prop) (home : ι → ℕ)
    (place : ι → Fin per) (get : ι → Fs α) (put : ι → α → Fs Unit) : Prop where
  put_get : ∀ d i x, valid i → ∃ d', (put i x).run vdisk d = some ((), d') ∧
    (get i).run vdisk d' = some (x, d') ∧
    (∀ j, valid j → j ≠ i → ∃ y, (get j).run vdisk d = some (y, d) ∧
      (get j).run vdisk d' = some (y, d')) ∧
    (∀ id, id ≠ home i → d' id = d id) ∧
    ∀ (j : Fin per) (k : Fin w), (d' (home i)).get (w * j + k) =
      if j = place i then L x k else (d (home i)).get (w * j + k)
  get_put : ∀ d i, valid i → (get i >>= put i).run vdisk d = some ((), d)
  put_put : ∀ d i x y, valid i →
    (put i x >>= fun _ => put i y).run vdisk d = (put i y).run vdisk d

section ActsAsArray

variable {ι α : Type} {per w : ℕ} {L : Layout α w} {valid : ι → Prop} {home : ι → ℕ}
  {place : ι → Fin per} {get : ι → Fs α} {put : ι → α → Fs Unit} (B : Block ≃ (Fin per → α))

/-- A pair of functions that read and replace one record of a block. -/
theorem actsAsArray_of_run
    (hbytes : ∀ (a : Fin per → α) (j : Fin per) (k : Fin w), (B.symm a).get (w * j + k) = L (a j) k)
    (hinj : ∀ i j, valid i → valid j → home i = home j → place i = place j → i = j)
    (hget : ∀ d i, valid i → (get i).run vdisk d = some (B (d (home i)) (place i), d))
    (hput : ∀ d i x, valid i → (put i x).run vdisk d = some ((), Function.update d (home i)
      (B.symm (Function.update (B (d (home i))) (place i) x)))) :
    ActsAsArray L valid home place get put where
  put_get d i x hi := by
    refine ⟨_, hput d i x hi, ?_, fun j hj hne => ⟨_, hget d j hj, ?_⟩,
      fun id hid => Function.update_of_ne hid _ _, fun j k => ?_⟩
    · rw [hget _ i hi, Function.update_self, Equiv.apply_symm_apply, Function.update_self]
    · rw [hget _ j hj]
      by_cases hhome : home j = home i
      · have hplace : place j ≠ place i := fun h => hne (hinj j i hj hi hhome h)
        rw [hhome, Function.update_self, Equiv.apply_symm_apply, Function.update_of_ne hplace]
      · rw [Function.update_of_ne hhome]
    · rw [Function.update_self, hbytes, Function.update_apply]
      split
      · rfl
      · rw [← hbytes, Equiv.symm_apply_apply]
  get_put d i hi := by
    rw [Prog.run_bind_some _ (hget d i hi), hput d i _ hi, Function.update_eq_self,
      Equiv.symm_apply_apply, Function.update_eq_self]
  put_put d i x y hi := by
    rw [Prog.run_bind_some _ (hput d i x hi), hput _ i y hi, hput d i y hi]
    simp only [Function.update_self, Equiv.apply_symm_apply, Function.update_idem]

end ActsAsArray

/-! ### The two arrays -/

/-- Record `j` of a block fills the bytes from `128 * j` on. -/
theorem Block.get_inodes_symm (a : Fin 32 → INode) (j : Fin 32) (k : Fin 128) :
    (inodes.symm a).get (128 * j + k) = INode.layout (a j) k := by
  have hlt : 128 * j.val + k.val < 4096 := by omega
  rw [get, dif_pos hlt]
  exact Layout.array_mul_add INode.layout a j k hlt

/-- Entry `j` of a block fills the bytes from `32 * j` on. -/
theorem Block.get_entries_symm (a : Fin 128 → DictioryContent) (j : Fin 128) (k : Fin 32) :
    (entries.symm a).get (32 * j + k) = DictioryContent.layout (a j) k := by
  have hlt : 32 * j.val + k.val < 4096 := by omega
  rw [get, dif_pos hlt]
  exact Layout.array_mul_add DictioryContent.layout a j k hlt

/-- **Independent records.** The inode table is an array of 32768 records in the blocks from 4 on,
and the directory blocks are arrays of 128 entries; an update of the table leaves the maps and the
data blocks as they were, and an update of a directory the maps and the table. -/
theorem records_independent (env : Env) :
    ActsAsArray INode.layout (· < 32768) (fun n => 4 + n / 32)
      (fun n => (⟨n % 32, Nat.mod_lt n (by decide)⟩ : Fin 32))
      (fun n => justReadInodeFromDisk env n) (fun n => repalceINodeAccordingToDiskNumber env n) ∧
    ActsAsArray DictioryContent.layout (fun s : ℕ × Fin 128 => s.1 < 64508) (fun s => 1028 + s.1)
      (fun s => s.2)
      (fun s => readEntries env (datablockFindDiskId s.1) >>= fun buffer => .ret (buffer s.2))
      (fun s e => addADictInDataBlock env s.1 e s.2.val) ∧
    (∀ d n x, n < 32768 → ∃ d',
      (repalceINodeAccordingToDiskNumber env (n : ℕ) x).run vdisk d = some ((), d') ∧
        ∀ id, id < 4 ∨ 1028 ≤ id → d' id = d id) ∧
    ∀ d b e j, b < 64508 → j < 128 → ∃ d',
      (addADictInDataBlock env (b : ℕ) e (j : ℕ)).run vdisk d = some ((), d') ∧
        ∀ id < 1028, d' id = d id := by
  refine ⟨actsAsArray_of_run Block.inodes Block.get_inodes_symm (fun n m hn hm hhome hplace => ?_)
      (fun d n hn => ?_) fun d n x hn => ?_,
    actsAsArray_of_run Block.entries Block.get_entries_symm (fun s t _ _ hhome hplace => ?_)
      (fun d s hs => ?_) fun d s e hs => ?_,
    fun d n x hn => ⟨_, run_repalceINodeAccordingToDiskNumber env hn x d, fun id hid => ?_⟩,
    fun d b e j hb hj => ⟨_, run_addADictInDataBlock env hb hj e d, fun id hid => ?_⟩⟩
  · have hindex := Fin.mk.inj hplace
    omega
  · exact run_justReadInodeFromDisk env hn d
  · exact run_repalceINodeAccordingToDiskNumber env hn x d
  · exact Prod.ext (by omega) hplace
  · rw [Prog.run_bind_some _ (run_readEntries env hs d), Prog.run_ret]
    rfl
  · rw [run_addADictInDataBlock env hs s.2.isLt, Disk.setData, Block.setEntry]
    simp only [Nat.mod_eq_of_lt s.2.isLt]
    rfl
  · exact Function.update_of_ne (by omega) _ _
  · exact Function.update_of_ne (by omega) _ _

end InodeFs
