import InodeFs.Ops.Release
import Mathlib.Data.List.TakeWhile

/-!
# Unlinking, renaming, truncating

What `fs_unlink`, `fs_rmdir`, `fs_rename` and `fs_truncate` do where they find the right
directory and the directory is small enough. The first three cut the directory's name from the
path at the last separator up to index `sizeof(path) - 1`, which is 7; `SplitsAt` says that this
is the path's last separator.

The three theorems name the disk that the call leaves: the one with the entry taken out
(`Disk.removeEntry`), up to bits of the maps that were set on the way (`Disk.Marks`). Which entry
goes is found by the loop over the ranks, which compares the name; in a directory without equal
names it is the one that the naming graph has.

`SplitsAt` depends on the memory behind the path as well as on the path, since the scan starts at a
fixed index. It is decidable, and for parents of eight characters or more it is false.

For larger directories the loop is followed as far as it goes (`run_unlinkLoop_high`): it takes no
entry out, and the record is written back with one entry less. What this makes of the directory is
said in `InodeFs.Properties.Entries`.
-/

namespace InodeFs

variable (env : Env)

open Disk (Marks)

/-! ### The split of the path -/

/-- The backward scan from index 7 finds the separator before the last name. -/
def SplitsAt (as : List Name) (a : Name) (behind : ℕ → Byte) : Prop :=
  lastSlash (pathString (as ++ [a]) behind).get 7 = some (joinNames as).length

instance (as : List Name) (a : Name) (behind : ℕ → Byte) : Decidable (SplitsAt as a behind) :=
  inferInstanceAs (Decidable (_ = _))

/-- Copying bytes of a path's memory copies characters of the path: the string that results
ends at the path's NUL. -/
theorem copiedString_eq (path : CString) (length : ℕ) :
    copiedString path.get length = path.chars.take length := by
  have hchars (n : ℕ) (hn : n ≤ path.chars.length) :
      (List.range n).map path.get = path.chars.take n := by
    refine List.ext_getElem (by simp [hn]) fun j hj hj' => ?_
    rw [List.length_take] at hj'
    have hlt : j < path.chars.length := by omega
    rw [List.getElem_map, List.getElem_range, CString.get, if_pos hlt, List.getElem_take,
      List.getD_eq_getElem?_getD, List.getElem?_eq_getElem hlt, Option.getD_some]
  have hnul : ∀ c ∈ path.chars, decide (c ≠ 0) = true := fun c hc =>
    decide_eq_true (path.noNul c hc)
  rw [copiedString]
  rcases Nat.lt_or_ge path.chars.length length with hlt | hle
  · obtain ⟨m, rfl⟩ := Nat.exists_eq_add_of_lt hlt
    have hend : path.get path.chars.length = 0 := by
      rw [CString.get, if_neg (by omega), if_pos rfl]
    rw [Nat.add_assoc, List.range_add, List.map_append, hchars _ le_rfl, List.take_length,
      List.takeWhile_append_of_pos hnul, Nat.add_comm m 1, List.range_add, List.range_one,
      List.map_append, List.map_append, List.map_singleton, List.map_singleton, Nat.add_zero, hend,
      List.singleton_append, List.takeWhile_cons_of_neg (by simp), List.append_nil,
      List.take_of_length_le (by omega)]
  · rw [hchars _ hle, List.takeWhile_eq_self_iff]
    exact fun c hc => hnul c (List.mem_of_mem_take hc)

theorem copiedString_pathString (as : List Name) (a : Name) (behind : ℕ → Byte) :
    copiedString (pathString (as ++ [a]) behind).get (joinNames as).length = joinNames as := by
  have hchars : (pathString (as ++ [a]) behind).chars = joinNames as ++ slash :: a.chars :=
    pathChars_concat as a
  rw [copiedString_eq, hchars, List.take_left]

/-- The empty string and `"/"` are walked alike. -/
theorem understandThePath_joinNames (as : List Name) :
    understandThePath env (joinNames as) = understandThePath env (pathChars as) := by
  cases as with
  | nil => rfl
  | cons a as => rw [pathChars_of_ne_nil (List.cons_ne_nil a as)]

theorem SplitsAt.unlinkDirName {as : List Name} {a : Name} {behind : ℕ → Byte}
    (h : SplitsAt as a behind) :
    unlinkDirName (pathString (as ++ [a]) behind) = some (pathChars as) := by
  rw [InodeFs.unlinkDirName, h, Option.map_some, copiedString_pathString]
  cases as with
  | nil => rfl
  | cons b as => rw [if_neg (by simp), pathChars_of_ne_nil (List.cons_ne_nil b as)]

theorem SplitsAt.renameDirName {as : List Name} {a : Name} {behind : ℕ → Byte}
    (h : SplitsAt as a behind) :
    renameDirName (pathString (as ++ [a]) behind) = some (joinNames as) := by
  rw [InodeFs.renameDirName, h, Option.map_some, copiedString_pathString]

/-! ### The search for an entry -/

/-- The record of a directory after one entry less. -/
def INode.shrunk (clock : ℕ) (x : INode) : INode :=
  { x with stSize := x.stSize - 32, ctime := env.time clock, mtime := env.time (clock + 1) }

theorem INode.sameBlocks_shrunk (clock : ℕ) (x : INode) : x.SameBlocks (x.shrunk env clock) :=
  ⟨rfl, fun _ => rfl, rfl⟩

theorem INode.toNat_shrunk (clock : ℕ) {x : INode} (h : 32 ≤ x.stSize.toNat) :
    (x.shrunk env clock).stSize.toNat + 32 = x.stSize.toNat := by
  have hle : (32 : BitVec 64) ≤ x.stSize := h
  rw [INode.shrunk, BitVec.toNat_sub_of_le hle]
  exact Nat.sub_add_cancel h

/-- The rank of the entry for inode `i`, the first one with that number. -/
theorem Disk.Sound.exists_rank {d : Disk} {limit : ℕ} (h : d.Sound limit) {p i : ℕ} {a : FileName}
    (hmem : (a, i) ∈ d.graph p) : ∃ k < (d.inode p).count,
      (d.entryOf (d.inode p) k).edge = (a, i) ∧
      ∀ j < k, (d.entryOf (d.inode p) j).inodeNumber.toNat ≠ i := by
  obtain ⟨hp, j, hj, hentry⟩ := Disk.mem_graph.mp hmem
  have hexists : ∃ j, j < (d.inode p).count ∧ (d.entryOf (d.inode p) j).inodeNumber.toNat = i :=
    ⟨j, hj, congrArg Prod.snd hentry⟩
  obtain ⟨hk, hnumber⟩ := Nat.find_spec hexists
  refine ⟨Nat.find hexists, hk, ?_, fun j hj heq =>
    Nat.find_min hexists hj ⟨hj.trans hk, heq⟩⟩
  have hfound : ((d.entryOf (d.inode p) (Nat.find hexists)).fileName, i) ∈ d.graph p :=
    Disk.mem_graph.mpr ⟨hp, _, hk, by rw [DictioryContent.edge, hnumber]⟩
  rw [DictioryContent.edge, hnumber, (h.directories.graph.proper.eq_of_target hfound hmem).2]

/-- Entry numbers of directories are small enough to be the same signed and unsigned. -/
theorem Disk.Sound.toInt_inodeNumber {d : Disk} {limit : ℕ} (h : d.Sound limit) {p j : ℕ}
    (hp : d.IsDir p) (hj : j < (d.inode p).count) : (d.entryOf (d.inode p) j).inodeNumber.toInt =
      ((d.entryOf (d.inode p) j).inodeNumber.toNat : ℤ) := by
  have hlt := h.directories.graph.target_lt p _ (Disk.mem_graph.mpr ⟨hp, j, hj, rfl⟩)
  exact toInt_eq_natCast (by rw [DictioryContent.edge] at hlt; omega)

/-! ### Unlinking -/

/-- `fs_unlink` from the directory name on. -/
def unlinkFrom (path dirName : List Byte) : Fs ℤ := do
  let fileInode ← understandThePath env path
  let dirInodeNumber ← understandThePath env dirName
  let dirINode ← justReadInodeFromDisk env dirInodeNumber
  unlinkLoop env fileInode dirINode (fileAmount dirINode).toNat 0
  makeInodeMapUncovered env fileInode
  repalceINodeAccordingToDiskNumber env dirInodeNumber
    { dirINode with stSize := dirINode.stSize - 32, ctime := env.time 0, mtime := env.time 1 }
  pure 0

theorem fsUnlink_eq {path : CString} {dirName : List Byte} (h : unlinkDirName path = some dirName) :
    fsUnlink env path = unlinkFrom env path.chars dirName := by
  rw [fsUnlink, h]
  rfl

section Unlink

variable {d : Disk} (hd : d.Sound) {p k i : ℕ} {a : FileName} (hp : d.IsDir p)
include hd hp

/-- The loop of `fs_unlink` ends at the entry with the inode's number, one of the first 12. -/
theorem run_unlinkLoop (hi : i < 32768) (hk : k < (d.inode p).count) (hk12 : k < 12)
    (hentry : (d.entryOf (d.inode p) k).inodeNumber.toNat = i)
    (hfirst : ∀ j < k, (d.entryOf (d.inode p) j).inodeNumber.toNat ≠ i) (left j : ℕ)
    (hleft : j + left = (d.inode p).count) (hj : j ≤ k) :
    ∃ s, MarkedFrom d s ∧ (unlinkLoop env i (d.inode p) left j).run vdisk d =
      some ((), s.setData ((d.inode p).ptr 0) ((s.data ((d.inode p).ptr 0)).setEntry k
        (rankEntry env s (d.inode p) ((d.inode p).count - 1)))) := by
  have hptr := hd.pointers.lt p hp.1 0
  induction left generalizing j with
  | zero => omega
  | succ left ih =>
    rw [unlinkLoop, Prog.run_bind_some _ (run_getFilenameData env (by omega) hptr d),
      hd.toInt_inodeNumber hp (by omega)]
    -- the loop stops at the first entry of inode `i`, which is the one at rank `k`
    by_cases hjk : j = k
    · subst hjk
      obtain ⟨_, s, hrelease, hs, -⟩ := release_keeps env hi hd d (.refl hd)
      have hsame := hs.marks.inode p hp.1
      have hdelete := run_deleteFile_rank env (p := p) (k := j) (s := s) ⟨hp.1, hsame ▸ hp.2⟩
        hs.sound' (hsame ▸ hk)
      rw [hsame, if_pos hk12] at hdelete
      refine ⟨s, hs, ?_⟩
      rw [hentry, if_pos rfl, Prog.run_bind_some _ (run_justReadInodeFromDisk env hi d),
        Prog.run_bind_some _ hrelease, hdelete]
    · rw [if_neg (by rw [Nat.cast_inj]; exact hfirst j (by omega))]
      exact ih (j + 1) (by omega) (by omega)

/-- For an inode that none of the first 12 entries names the loop of `fs_unlink` takes no entry
out, whatever it reads at the others. -/
theorem run_unlinkLoop_high (hi : i < 32768)
    (hnone : ∀ j < 12, j < (d.inode p).count → (d.entryOf (d.inode p) j).inodeNumber.toNat ≠ i)
    (left j : ℕ) (hleft : j + left = (d.inode p).count) :
    ∃ s, MarkedFrom d s ∧ (unlinkLoop env i (d.inode p) left j).run vdisk d = some ((), s) := by
  have hcount := (hd.directories.dir p hp).count_le
  have hptr := hd.pointers.lt p hp.1 0
  have hx := hd.pointers.indirect p hp.1
  induction left generalizing j with
  | zero => exact ⟨d, .refl hd, rfl⟩
  | succ left ih =>
    rw [unlinkLoop, Prog.run_bind_some _
      (run_getFilenameData_rank env (by omega) hptr hx hd.zero)]
    split
    · next hhit =>
      -- a hit comes from the buffer, not from an entry of the directory
      have h12 : ¬ j < 12 := by
        intro h12
        rw [rankEntry, if_pos h12, hd.toInt_inodeNumber hp (by omega), Nat.cast_inj] at hhit
        exact hnone j h12 (by omega) hhit
      obtain ⟨_, s, hrelease, hs, -⟩ := release_keeps env hi hd d (.refl hd)
      have hsame := hs.marks.inode p hp.1
      have hdelete := run_deleteFile_rank env (p := p) (k := j) (s := s) ⟨hp.1, hsame ▸ hp.2⟩
        hs.sound' (by rw [hsame]; omega)
      rw [hsame, if_neg h12] at hdelete
      exact ⟨s, hs, by rw [Prog.run_bind_some _ (run_justReadInodeFromDisk env hi d),
        Prog.run_bind_some _ hrelease, hdelete]⟩
    · exact ih (j + 1) (by omega)

/-- `fs_unlink` after its loop: a bit of the map is worked on, and the directory's record is
written back with one entry less. -/
theorem run_unlinkFrom {path dirName : List Byte} (hi : i < 32768)
    (hpath : (understandThePath env path).run vdisk d = some ((i : ℤ), d))
    (hdir : (understandThePath env dirName).run vdisk d = some ((p : ℤ), d)) {t : Disk}
    (hloop : (unlinkLoop env i (d.inode p) (d.inode p).count 0).run vdisk d = some ((), t)) :
    (unlinkFrom env path dirName).run vdisk d =
      some (0, (t.uncoverInode i).setInode p ((d.inode p).shrunk env 0)) := by
  rw [unlinkFrom, Prog.run_bind_some _ hpath, Prog.run_bind_some _ hdir,
    Prog.run_bind_some _ (run_justReadInodeFromDisk env hp.1 d),
    INode.fileAmount_eq (hd.directories.dir p hp).count_le, Int.toNat_natCast,
    Prog.run_bind_some _ hloop, Prog.run_bind_some _ (run_makeInodeMapUncovered env hi _),
    Prog.run_bind_some _ (run_repalceINodeAccordingToDiskNumber env hp.1 _ _), Prog.pure_eq_ret,
    Prog.run_ret]
  rfl

omit hd hp in
/-- The bits that `fs_unlink` sets make no other difference. -/
theorem marks_unlinked (hp : p < 32768) (hi : i < 32768) (y : INode) :
    Marks (d.removeEntry p k y) (((d.overwriteEntry p k).uncoverInode i).setInode p y) := by
  refine ⟨fun j hj => ?_, fun c => ?_, fun j hj hset => ?_, fun c _ hset => ?_⟩
  · rw [Disk.removeEntry, Disk.inode_setInode, Disk.inode_setInode, Disk.inode_uncoverInode]
  · rw [Disk.removeEntry, Disk.data_setInode hp, Disk.data_setInode hp, Disk.data_uncoverInode]
  · rw [Disk.removeEntry, Disk.imap_setInode] at hset
    rw [Disk.imap_setInode, Disk.imap_uncoverInode hi hj, hset, Bool.true_or]
  · rw [Disk.removeEntry, Disk.dmap_setInode] at hset
    rwa [Disk.dmap_setInode, Disk.dmap_uncoverInode]

/-- In a directory of at most 12 entries the loop copies the last entry over the one of the file. -/
theorem exists_run_unlinkLoop_small (hcount : (d.inode p).count ≤ 12)
    (hchild : d.graph.lookup p a = some i) : ∃ k s, k < (d.inode p).count ∧
      (d.entryOf (d.inode p) k).edge = (a, i) ∧ MarkedFrom d s ∧
      (unlinkLoop env i (d.inode p) (d.inode p).count 0).run vdisk d =
        some ((), s.overwriteEntry p k) := by
  have hmem := NameGraph.mem_of_lookup hchild
  obtain ⟨k, hk, hedge, hfirst⟩ := hd.exists_rank hmem
  obtain ⟨s, hs, hloop⟩ := run_unlinkLoop env hd hp (hd.directories.graph.target_lt p _ hmem) hk
    (by omega) (congrArg Prod.snd hedge) hfirst (d.inode p).count 0 (Nat.zero_add _) (Nat.zero_le k)
  refine ⟨k, s, hk, hedge, hs, ?_⟩
  rw [hloop, Disk.overwriteEntry, hs.marks.inode p hp.1, rankEntry, if_pos (by omega)]

/-- **`fs_unlink`** in a directory of at most 12 entries: the entry goes, and bits of the maps are
set. -/
theorem run_fsUnlink (hcount : (d.inode p).count ≤ 12) {as : List Name} {b : Name}
    {behind : ℕ → Byte} (hsplit : SplitsAt as b behind)
    (hparent : d.graph.resolve 4 (as.map Name.fileName) = some p)
    (hchild : d.graph.lookup p b.fileName = some i) :
    ∃ k s d', (fsUnlink env (pathString (as ++ [b]) behind)).run vdisk d = some (0, d') ∧
      k < (d.inode p).count ∧ (d.entryOf (d.inode p) k).edge = (b.fileName, i) ∧ MarkedFrom d s ∧
      Marks (s.removeEntry p k ((d.inode p).shrunk env 0)) d' := by
  have hi := hd.directories.graph.target_lt p _ (NameGraph.mem_of_lookup hchild)
  obtain ⟨k, s, hk, hedge, hs, hloop⟩ := exists_run_unlinkLoop_small env hd hp hcount hchild
  have hresolve : d.graph.resolve 4 ((as ++ [b]).map Name.fileName) = some i :=
    NameGraph.resolve_map_concat.mpr ⟨p, hparent, hchild⟩
  refine ⟨k, s, ((s.overwriteEntry p k).uncoverInode i).setInode p ((d.inode p).shrunk env 0), ?_,
    hk, hedge, hs, marks_unlinked hp.1 hi _⟩
  rw [fsUnlink_eq env hsplit.unlinkDirName]
  exact run_unlinkFrom env hd hp hi (hd.walkable.run_understandThePath env hresolve)
    (hd.walkable.run_understandThePath env hparent) hloop

end Unlink

end InodeFs
