import InodeFs.Ops.Remove
import InodeFs.Ops.Create

/-!
# Removing directories and renaming

`fs_rmdir` releases the blocks of the directory's children and goes on as `fs_unlink`
(`run_fsRmdir`). `fs_rename` between two directories takes the entry out of the one and appends
it, under its old name, to the other (`run_fsRename`); what it walks and reads in between is a
disk on which the old directory's record is not written back yet.

The source writes the old directory's record last, behind the record of the new one. So the walk to
the new directory and the mounting of the entry run on a disk that is not sound: the old directory
still counts the entry that was overwritten. It is `Disk.overwriteEntry`, on which walks are known
to work, and `addEntry_setInode` lets the record be written first in the result.

Both directories must be different. Within one directory the record that was read first would be
written back over the other one.

The result of a rename is a removal and an addition of an entry, in this order (`run_fsRename`),
with the steps that `InodeFs.State.Removal` and `InodeFs.Ops.Create` have for them. The bits of the
maps stay as they are, unless the new directory needs a block.
-/

namespace InodeFs

variable (env : Env)

open Disk (Marks)

/-! ### Removing a directory -/

/-- The loop of `fs_rmdir` over a directory of at most 12 entries sets bits of the data map. -/
theorem rmdirLoop_keeps {d : Disk} {p : ℕ} (hd : d.Sound) (hp : d.IsDir p)
    (hcount : (d.inode p).count ≤ 12) (left j : ℕ) (hleft : j + left = (d.inode p).count) :
    (rmdirLoop env (d.inode p) left j).Keeps vdisk (MarkedFrom d) fun _ => True := by
  have hptr := hd.pointers.lt p hp.1 0
  induction left generalizing j with
  | zero => exact Prog.keeps_pure trivial
  | succ left ih =>
    have hlt := hd.directories.graph.target_lt p _ (Disk.mem_graph.mpr
      ⟨hp, j, (show j < (d.inode p).count by omega), rfl⟩)
    rw [DictioryContent.edge] at hlt
    have hread : (getFilenameDataFromDirInRankView env j (d.inode p)).Keeps vdisk (MarkedFrom d)
        (· = d.entryOf (d.inode p) j) := Prog.keeps_of_run fun s hs =>
      ⟨_, run_getFilenameData env (by omega) hptr s, Disk.entryOf_congr rfl (hs.marks.data _)⟩
    rw [rmdirLoop]
    refine hread.bind fun e he => ?_
    subst he
    rw [hd.toInt_inodeNumber hp (by omega)]
    refine (justReadInodeFromDisk_keeps env hlt).bind fun x hx => ?_
    subst hx
    exact (release_keeps env hlt hd).bind fun _ _ =>
      (makeDataMapUncovered_keeps env (by omega)).bind fun _ _ => ih (j + 1) (by omega)

/-- **`fs_rmdir`** of a directory and in a directory of at most 12 entries each: the entry goes, and
bits of the maps are set. -/
theorem run_fsRmdir {d : Disk} (hd : d.Sound) {p i : ℕ} (hp : d.IsDir p) (hi : d.IsDir i)
    (hcount : (d.inode p).count ≤ 12) (hcount' : (d.inode i).count ≤ 12) {as : List Name} {b : Name}
    {behind : ℕ → Byte} (hsplit : SplitsAt as b behind)
    (hparent : d.graph.resolve 4 (as.map Name.fileName) = some p)
    (hchild : d.graph.lookup p b.fileName = some i) :
    ∃ k s d', (fsRmdir env (pathString (as ++ [b]) behind)).run vdisk d = some (0, d') ∧
      k < (d.inode p).count ∧ (d.entryOf (d.inode p) k).edge = (b.fileName, i) ∧ MarkedFrom d s ∧
      Marks (s.removeEntry p k ((d.inode p).shrunk env 0)) d' := by
  have hpath : (pathString (as ++ [b]) behind).chars = pathChars (as ++ [b]) := rfl
  have hresolve : d.graph.resolve 4 ((as ++ [b]).map Name.fileName) = some i :=
    NameGraph.resolve_map_concat.mpr ⟨p, hparent, hchild⟩
  -- the loop over the entries sets bits at most
  obtain ⟨_, s, hloop, hs, -⟩ := rmdirLoop_keeps env hd hi hcount' (d.inode i).count 0
    (Nat.zero_add _) d (.refl hd)
  have hsame := hs.marks.inode p hp.1
  have hgraph := hs.marks.graph
  obtain ⟨k, t, d', hrun, hk, hedge, ht, hmarks⟩ := run_fsUnlink env hs.sound' (p := p)
    ⟨hp.1, hsame ▸ hp.2⟩ (by rw [hsame]; exact hcount) hsplit (by rw [hgraph]; exact hparent)
    (by rw [hgraph]; exact hchild)
  rw [hsame] at hk hedge hmarks
  refine ⟨k, t, d', ?_, hk, ?_, ⟨hd, hs.marks.trans ht.marks⟩, hmarks⟩
  · rw [fsRmdir, hpath, Prog.run_bind_some _ (hd.walkable.run_understandThePath env hresolve),
      Prog.run_bind_some _ (run_justReadInodeFromDisk env hi.1 d), hsplit,
      INode.fileAmount_eq (hd.directories.dir i hi).count_le, Int.toNat_natCast]
    simp only
    rw [Prog.run_bind_some _ hloop, Prog.run_bind_some _ hrun]
    rfl
  · rw [← hedge, Disk.entryOf_congr rfl (hs.marks.data _)]

/-! ### Renaming -/

section Rename

variable {d : Disk} {limit : ℕ} (hd : d.Sound limit) {p k i : ℕ} (hp : d.IsDir p)
include hd hp

/-- The loop of `fs_rename` in a directory of at most 12 entries. -/
theorem run_renameLoop (hk : k < (d.inode p).count) (hcount : (d.inode p).count ≤ 12)
    (hentry : (d.entryOf (d.inode p) k).inodeNumber.toNat = i)
    (hfirst : ∀ j < k, (d.entryOf (d.inode p) j).inodeNumber.toNat ≠ i) (left j : ℕ)
    (hleft : j + left = (d.inode p).count) (hj : j ≤ k) (w : DictioryContent) :
    (renameLoop env i (d.inode p) left j w).run vdisk d =
      some (d.entryOf (d.inode p) k, d.overwriteEntry p k) := by
  have hptr := hd.pointers.lt p hp.1 0
  induction left generalizing j w with
  | zero => omega
  | succ left ih =>
    rw [renameLoop, Prog.run_bind_some _ (run_getFilenameData env (by omega) hptr d),
      hd.toInt_inodeNumber hp (by omega)]
    by_cases hjk : j = k
    · subst hjk
      have hdelete := run_deleteFile_rank env hp hd hk
      rw [if_pos (by omega), rankEntry, if_pos (by omega)] at hdelete
      rw [hentry, if_pos rfl, Prog.run_bind_some _ hdelete, Prog.pure_eq_ret, Prog.run_ret]
      rfl
    · rw [if_neg (by rw [Nat.cast_inj]; exact hfirst j (by omega))]
      exact ih (j + 1) (by omega) (by omega) _

/-- The new directory is found on the disk in between as well. -/
theorem resolve_overwriteEntry (hcount : (d.inode p).count ≤ 12) {as bs : List Name} {a : Name}
    {k q : ℕ} (hk : k < (d.inode p).count)
    (hname : (d.entryOf (d.inode p) k).fileName = a.fileName)
    (hparent : d.graph.resolve 4 (as.map Name.fileName) = some p)
    (hnew : d.graph.resolve 4 (bs.map Name.fileName) = some q) (hbelow : ¬ as ++ [a] <+: bs) :
    (d.overwriteEntry p k).graph.resolve 4 (bs.map Name.fileName) = some q := by
  refine hd.directories.graph.proper.resolve_avoid (a := a.fileName) hparent
    (fun r c j hl hne => hd.lookup_overwriteEntry hp hcount hk hl (hname ▸ hne))
    (fun hpre => ?_) hnew
  rw [← List.map_singleton, ← List.map_append] at hpre
  exact hbelow ((List.prefix_map_iff_of_injective Name.fileName_injective).mp hpre)

omit hd in
/-- Taking the entry out of the one directory commutes with appending it to the other. -/
theorem setInode_storeEntry_overwriteEntry {k q : ℕ} (hq : d.IsDir q) (hpq : q ≠ p)
    (hcount' : (d.inode q).count < 1536) :
    (((d.overwriteEntry p k).storeEntry (d.inode q) (d.entryOf (d.inode p) k)).setInode q
        (((d.overwriteEntry p k).withBlock (d.inode q)).grown env 0)).setInode p
          ((d.inode p).shrunk env 2) =
      (d.removeEntry p k ((d.inode p).shrunk env 2)).addEntry env (d.entryOf (d.inode p) k) 0
        q := by
  have hinode : (d.overwriteEntry p k).inode q = d.inode q := Disk.inode_overwriteEntry hq.1
  rw [Disk.removeEntry, Disk.addEntry_setInode hp.1 hpq, Disk.addEntry, Disk.inode_roomFor,
    hinode, ← Disk.setInode_storeEntry hq.1 (by rw [hinode]; exact hcount'), hinode]

/-- **`fs_rename`** out of a directory of at most 12 entries into another one that has room: the
entry is taken out of the one and appended to the other, with its old name. -/
theorem run_fsRename (hcount : (d.inode p).count ≤ 12) {q : ℕ} (hq : d.IsDir q) (hpq : q ≠ p)
    (hcount' : (d.inode q).count < 1536) (hroom : d.HasRoom (d.inode q)) {as bs : List Name}
    {a b : Name} {behind behind' : ℕ → Byte} (hsplit : SplitsAt as a behind)
    (hsplit' : SplitsAt bs b behind')
    (hparent : d.graph.resolve 4 (as.map Name.fileName) = some p)
    (hchild : d.graph.lookup p a.fileName = some i)
    (hnew : d.graph.resolve 4 (bs.map Name.fileName) = some q) (hbelow : ¬ as ++ [a] <+: bs) :
    ∃ k < (d.inode p).count, (d.entryOf (d.inode p) k).edge = (a.fileName, i) ∧
      (fsRename env (pathString (as ++ [a]) behind) (pathString (bs ++ [b]) behind')).run vdisk d =
        some (0, (d.removeEntry p k ((d.inode p).shrunk env 2)).addEntry env
          (d.entryOf (d.inode p) k) 0 q) := by
  have hmem := NameGraph.mem_of_lookup hchild
  have hpath : (pathString (as ++ [a]) behind).chars = pathChars (as ++ [a]) := rfl
  have hresolve : d.graph.resolve 4 ((as ++ [a]).map Name.fileName) = some i := by
    rw [List.map_append]
    exact NameGraph.resolve_concat_eq_some.mpr ⟨p, hparent, hchild⟩
  obtain ⟨k, hk, hedge, hfirst⟩ := hd.exists_rank hmem
  have hname : (d.entryOf (d.inode p) k).fileName = a.fileName := congrArg Prod.fst hedge
  have hinode : (d.overwriteEntry p k).inode q = d.inode q := Disk.inode_overwriteEntry hq.1
  have hwalk := resolve_overwriteEntry hd hp hcount hk hname hparent hnew hbelow
  -- the entry is appended on the disk on which it has been overwritten in the old directory
  have hroom' : (d.overwriteEntry p k).HasRoom (d.inode q) := by
    simpa only [Disk.HasRoom, Disk.HasBlock, Disk.dmap_overwriteEntry] using hroom
  have hadd := run_addFileToDict env 0 (d.entryOf (d.inode p) k) hcount' hroom'
    fun r _ => hd.pointers.lt q hq.1 r
  refine ⟨k, hk, hedge, ?_⟩
  rw [fsRename, hpath, Prog.run_bind_some _ (hd.walkable.run_understandThePath env hresolve),
    hsplit.renameDirName, hsplit'.renameDirName]
  simp only
  rw [understandThePath_joinNames, understandThePath_joinNames,
    Prog.run_bind_some _ (hd.walkable.run_understandThePath env hparent),
    Prog.run_bind_some _ (run_justReadInodeFromDisk env hp.1 d),
    INode.fileAmount_eq (hd.directories.dir p hp).count_le, Int.toNat_natCast,
    Prog.run_bind_some _ (run_renameLoop env hd hp hk hcount (congrArg Prod.snd hedge) hfirst _ 0
      (Nat.zero_add _) (Nat.zero_le k) _),
    Prog.run_bind_some _ ((hd.walkable_overwriteEntry hp hcount hk).run_understandThePath
      env hwalk),
    Prog.run_bind_some _ (run_justReadInodeFromDisk env hq.1 _), hinode,
    Prog.run_bind_some _ hadd,
    Prog.run_bind_some _ (run_repalceINodeAccordingToDiskNumber env hq.1 _ _),
    Prog.run_bind_some _ (run_repalceINodeAccordingToDiskNumber env hp.1 _ _), Prog.pure_eq_ret,
    Prog.run_ret, ← setInode_storeEntry_overwriteEntry env hp hq hpq hcount']
  rfl

end Rename

end InodeFs
