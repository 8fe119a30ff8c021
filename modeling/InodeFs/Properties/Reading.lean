import InodeFs.Ops.Read

/-!
# The flat view of a file

`fs_read` sees the blocks that the rank reader delivers as one flat sequence of bytes:
`readLoop_flat` says which blocks its loop asks for and where their bytes go, for every inode and
whatever the blocks hold.

The flat view is not yet the file. Which block stands at a rank is a question for the rank reader,
treated in `InodeFs.Properties.Ranks`, and how much of the bytes belongs to the file is one for the
size, treated in `InodeFs.Properties.ReadLength`. What is said here is about the loop alone, and so
it needs no invariant: the ranks are gone through once each and in ascending order, and byte `k` of
the buffer comes from position `offset + k`.

The lemmas behind it are in `InodeFs.Ops.Read`, with the loop's invariant: behind a round the buffer
holds what has been asked for so far.

Where a rank cannot be read, because it leaves an array, the loop has no result. So the equation of
the two programs is one for every request, and the statement about bytes one for those whose ranks
can all be read.
-/

namespace InodeFs

variable (env : Env)

/-- **The loop of `fs_read` copies the flat view.** As `fs_read` calls it, the loop is the reading
of the ranks `offset / 4096 .. (offset + size - 1) / 4096`, each once and in ascending order,
followed by a copy; if `B r` is what rank `r` delivers, position `k` of the request gets byte
`(offset + k) % 4096` of block `(offset + k) / 4096`, and nothing else is written. -/
theorem readLoop_flat (x : INode) (buffer : ℕ → Byte) {size offset : ℕ}
    (h : offset + size < 2 ^ 31) :
    readLoop env x (cInt size) size (cInt (offset / 4096 : ℕ)) (offset % 4096) 0 buffer =
        (readRanks env x (ranksBetween offset (offset + size)) >>= fun blocks =>
          pure (flatten offset offset (offset + size) blocks buffer)) ∧
      (size = 0 → ranksBetween offset (offset + size) = []) ∧
      (0 < size → ranksBetween offset (offset + size) =
        List.range' (offset / 4096) ((offset + size - 1) / 4096 - offset / 4096 + 1)) ∧
      ∀ B : ℕ → Block,
        (∀ k < size, flatten offset offset (offset + size)
          ((ranksBetween offset (offset + size)).map B) buffer k =
            (B ((offset + k) / 4096)).get ((offset + k) % 4096)) ∧
        ∀ k, size ≤ k → flatten offset offset (offset + size)
          ((ranksBetween offset (offset + size)).map B) buffer k = buffer k := by
  have hranks (hpos : 0 < size) : ranksBetween offset (offset + size) =
      List.range' (offset / 4096) ((offset + size - 1) / 4096 - offset / 4096 + 1) :=
    if_pos (by omega)
  refine ⟨?_, fun hzero => if_neg (by omega), hranks, fun B => ⟨fun k hk => ?_, fun k hk => ?_⟩⟩
  · have hloop := readLoop_eq env x size offset size 0 buffer (Nat.zero_le _) (by omega)
    rw [Nat.add_zero] at hloop
    rw [cInt_natCast (by omega), cInt_natCast (by omega), hloop]
  · have hindex : (offset + k) / 4096 - offset / 4096 <
        ((List.range' (offset / 4096) ((offset + size - 1) / 4096 - offset / 4096 + 1)).map
          B).length := by
      rw [List.length_map, List.length_range']
      omega
    have hrank : offset / 4096 + ((offset + k) / 4096 - offset / 4096) = (offset + k) / 4096 := by
      omega
    rw [flatten, if_pos (by omega), hranks (by omega), List.getD_eq_getElem?_getD,
      List.getElem?_eq_getElem hindex, Option.getD_some,
      List.getElem_map, List.getElem_range', Nat.one_mul, hrank]
  · rw [flatten, if_neg (by omega)]

/-- Ten bytes from position 4090 on, of an inode without blocks. -/
theorem readLoop_flat_cleared :
    readLoop plainEnv INode.cleared (cInt (10 : ℕ)) 10 (cInt (4090 / 4096 : ℕ)) (4090 % 4096) 0
        (fun _ => 0) =
      (readRanks plainEnv INode.cleared (ranksBetween 4090 (4090 + 10)) >>= fun blocks =>
        pure (flatten 4090 4090 (4090 + 10) blocks fun _ => 0)) :=
  (readLoop_flat plainEnv INode.cleared (fun _ => 0) (show 4090 + 10 < 2 ^ 31 by decide)).1

end InodeFs
