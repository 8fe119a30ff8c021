import InodeFs.Lib.Stages
import InodeFs.State.Tree

/-!
# The passage from one disk to another

A changing call takes the disk through stages, from the disk it finds to the disk it leaves.
`Passage d d' At` says what these have in common, as far as a request can see that reads records
and blocks in between: a record in use is the one before the call or the one after it, and the
entries and the bytes that it leads to are those of the one disk or of the other.

What an observer is told comes from two accesses at least: a record, and then the blocks that its
pointers lead to. The record may be of an earlier stage than the block. `InodePassage` is therefore
about one inode over all stages, and says for the record of either disk what its entries or bytes
are from there on: an observer that has the old record still finds the old contents, or contents of
which each part is old or new.

`Settled` is the state of an inode that no later stage changes. It is what an observer can rely on
once it has seen the new record, and it is kept from stage to stage (`Settled.from_le`).

A creation has one inode that is in use on the later disk only. Whoever finds it finds it by its
entry, and `Settled` says that it has its record by then.
-/

namespace InodeFs

namespace Disk

/-- The entries are those of directory `p`, in some order, and perhaps one of them twice. -/
def Enumerates (e : Disk) (p : ℕ) (l : List DictioryContent) : Prop :=
  ∀ x, x ∈ l.map DictioryContent.edge ↔ x ∈ e.graph p

/-- From stage `j` on, the inodes that the call makes have the records that it gives them. -/
def Settled (d d' : Disk) (At : ℕ → Disk → Prop) (j : ℕ) : Prop :=
  ∀ k t, j ≤ k → At k t → ∀ p a i, d'.graph.lookup p a = some i → d.imap i = false →
    t.inode i = d'.inode i

/-- The two disks have the edges to inode `i` in common. -/
def SameEdges (d d' : Disk) (i : ℕ) : Prop :=
  ∀ p a, d.graph.lookup p a = some i ↔ d'.graph.lookup p a = some i

/-- **The passage of an inode** in use. Its record is replaced once at most. Through the old record
of a directory one reads, in all stages, what it had, or if it has one block, at each moment what
it had or has; through the new record, from the stage in which it is there, what it has. The bytes
of a file are the old ones or the new ones through its old record, and the new ones through its
new record. -/
structure InodePassage (d d' : Disk) (At : ℕ → Disk → Prop) (i : ℕ) : Prop where
  inode : ∀ j s, At j s → s.inode i = d.inode i ∨ s.inode i = d'.inode i
  edges : d'.inode i = d.inode i ∨ d.SameEdges d' i
  old : d.IsDir i →
    (∀ j s, At j s → s.entriesOf (d.inode i) = d.entriesOf (d.inode i)) ∨
    ((d.inode i).count ≤ 12 ∧ Settled d d' At 0 ∧ ∀ j s, At j s →
      d.Enumerates i (s.entriesOf (d.inode i)) ∨ d'.Enumerates i (s.entriesOf (d.inode i)))
  new : d.IsDir i → ∀ j s, At j s → s.inode i = d.inode i ∨
    s.inode i = d'.inode i ∧ Settled d d' At j ∧
      ∀ k t, j ≤ k → At k t → t.entriesOf (d'.inode i) = d'.entriesOf (d'.inode i)
  bytes_old : ¬ d.IsDir i → ∀ j s, At j s → ∀ q,
    (s.data ((d.inode i).ptr (q / 4096))).get (q % 4096) = d.byteAt i q ∨
      q < (d'.inode i).stSize.toNat ∧
        (s.data ((d.inode i).ptr (q / 4096))).get (q % 4096) = d'.byteAt i q
  bytes_new : ¬ d.IsDir i → ∀ j s, At j s → s.inode i = d.inode i ∨
    s.inode i = d'.inode i ∧ ∀ k t, j ≤ k → At k t → ∀ q,
      (t.data ((d'.inode i).ptr (q / 4096))).get (q % 4096) = d'.byteAt i q

/-- **The passage** from disk `d` to disk `d'`. -/
structure Passage (d d' : Disk) (At : ℕ → Disk → Prop) : Prop where
  sound : d.Sound
  sound' : d'.Sound
  compatible : ∀ p a i j, d.graph.lookup p a = some i → d'.graph.lookup p a = some j → i = j
  zero : ∀ j s, At j s → s.data 0 = Block.zero
  each : ∀ i < 32768, d.imap i = true → InodePassage d d' At i

variable {d d' : Disk} {At : ℕ → Disk → Prop} {i j k : ℕ}

/-- A directory is enumerated by its entries. -/
theorem enumerates_entriesOf (h : d.IsDir i) : d.Enumerates i (d.entriesOf (d.inode i)) := by
  intro x
  rw [graph_of_isDir h]

/-- What is settled stays settled. -/
theorem Settled.from_le (h : Settled d d' At j) (hjk : j ≤ k) : Settled d d' At k :=
  fun m t hkm => h m t (hjk.trans hkm)

/-- The passage of a directory. -/
theorem Passage.dir (h : Passage d d' At) (hi : d.IsDir i) : InodePassage d d' At i :=
  h.each i hi.1 (h.sound.directories.dir i hi).marked

/-- The passage of a file. -/
theorem Passage.file (h : Passage d d' At) (hi : d.IsFile i) : InodePassage d d' At i :=
  h.each i hi.lt hi.marked

end Disk

end InodeFs
