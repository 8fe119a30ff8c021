import InodeFs.Ops.PassageOfNames
import InodeFs.Ops.Passing

/-!
# The stages of the calls on names

`fs_mknod`, `fs_mkdir`, `fs_unlink`, `fs_rmdir` and `fs_rename` go through the stages of their
passages, whatever a request beside them sees of the maps.

A walk reads, and so is the same in every stage; the searches for something free read the maps,
which are not part of a stage. So each call is cut into parts, those that only read, those that
write where nobody looks, and those with one write that is seen (`Prog.WritesOnce`), and each of the
last kind takes one stage further.

The stages themselves, and what is seen in them, are those of `InodeFs.Ops.PassageOfNames`.

A removal sets bits before its first visible write, by giving back what the file had, and does so
rank by rank. These writes go to the maps alone, so that the number of stages does not depend on the
size of the file.

`fsUnlink_advances` is used twice, for `fs_unlink` and for the end of `fs_rmdir`.
-/

namespace InodeFs

variable (env : Env)

open Disk (Marks Staged through ignores_resembles)

/-! ### Creation -/

section Create

variable {e : ℕ → Disk} {s d : Disk} {p : ℕ} {a : Name} {x : DictioryContent}

/-- `fs_mknod` and `fs_mkdir` from the new inode on: the entry is stored, and then the record. -/
theorem mountInFather_advances (hp : p < 32768) (hcount : (s.inode p).count < 1536)
    (hroom : s.HasRoom (s.inode p)) (hptr : ∀ r < 12, (s.inode p).ptr r < 64508)
    (h0 : Staged e 0 s) (h1 : Staged e 1 (s.storeEntry (s.inode p) x))
    (h2 : Staged e 2 (s.addEntry env x 3 p)) :
    (mountInFather env p x).Advances vdisk (Staged e) 0 s fun _ _ _ => True := by
  have hblock : 4 + p / 32 < 65536 := by omega
  have hindex : p % 32 < 32 := by omega
  have hS (k : ℕ) := ignores_resembles (e k)
  have hrecord : (s (4 + p / 32)).inodes ⟨p % 32, hindex⟩ = s.inode p := rfl
  have happly : (s (4 + p / 32)).inodes = (s.storeEntry (s.inode p) x (4 + p / 32)).inodes := by
    rw [Disk.storeEntry_apply x (by omega) (by omega)]
  simp only [mountInFather, inodeFindDiskIdAndIndexInDisk_natCast]
  refine (readOnly_readINodes env _).advances_bind (run_readINodes env hblock s) ?_
  rw [Prog.index_natCast _ hindex, Prog.ret_bind, hrecord]
  refine (writesOnce_addFileToDict env hcount 3 x).advances_bind hS
    (run_addFileToDict env 3 x hcount hroom hptr) h0 (Nat.zero_le 1) h1 ?_
  rw [Prog.assign_natCast _ hindex, Prog.ret_bind, happly]
  refine (writesOnce_writeINodes _ _).advances_bind hS (run_writeINodes hblock _ _) h1
    (Nat.le_succ 1) (by rwa [Disk.addEntry_eq env hp hcount] at h2) ?_
  obtain ⟨b, hb⟩ := exists_run_envRead env (datablockFindDiskId
    (((s.withBlock (s.inode p)).grown env 3).directPointer 0).toInt)
      ((s.storeEntry (s.inode p) x).setInode p ((s.withBlock (s.inode p)).grown env 3))
  refine (readOnly_envRead env _).advances_bind hb ?_
  rw [Disk.addEntry_eq env hp hcount] at h2
  split <;> exact Prog.advances_ret h2 trivial

/-- **`fs_mknod` and `fs_mkdir`** initialise an inode, store its entry, and store the record of the
directory. -/
theorem passes_fsCreate (mode : BitVec 32) (hd : d.Sound) {as : List Name}
    (hresolve : d.graph.resolve 4 (fileNames as) = some p) (h : d.CanCreate p a)
    (behind : ℕ → Byte) : d.Passes (d.created env mode p a d.nextInode)
      (fsCreate env (applyANewInodeWithMode env mode) (pathString (as ++ [a]) behind)) 0 := by
  have hinode := h.inode_parent env mode hd
  have hrun := run_fsCreate env mode hd hresolve h behind
  have hfresh := Disk.resembles_withFreshInode env mode d.nextInode_lt h.inode.imap_nextInode
  refine ⟨_, .created env mode hd h, .refl d, Prog.Advances.mono (Prog.Advances.of_run
    (Q := fun _ _ _ => True) ?_ hrun) fun _ _ _ _ hx => hx.2⟩
  rw [fsCreate, pathString, splitPath_eq, Prog.ret_bind]
  simp only
  refine (readOnly_understandThePath env _).advances_bind
    (hd.walkable.run_understandThePath env hresolve) ?_
  refine (writesOnce_applyANewInode env mode).advances_bind (fun k => ignores_resembles _)
    (run_applyANewInodeWithMode env mode d) (.refl d) le_rfl hfresh ?_
  rw [Prog.note_bind, Prog.pure_eq_ret, Prog.ret_bind, Prog.advances_note]
  exact mountInFather_advances env h.dir.1 (by rw [hinode]; exact h.count_lt)
    (h.hasRoom env mode hd) (fun r _ => by rw [hinode]; exact hd.pointers.lt p h.dir.1 r) hfresh
    (.refl _) (.refl _)

end Create

/-! ### Removal -/

section Remove

variable {d : Disk} {p i : ℕ} {as : List Name} {b : Name} {behind : ℕ → Byte} (hd : d.Sound)
  (hcount : (d.inode p).count ≤ 12) (hsplit : SplitsAt as b behind) (h : d.Finds as b p i)
include hd hcount hsplit h

/-- `fs_unlink` copies the last entry, and then stores the record. -/
theorem fsUnlink_advances : ∃ k s d', k < (d.inode p).count ∧
    (d.entryOf (d.inode p) k).edge = (b.fileName, i) ∧ MarkedFrom d s ∧
    Marks (s.removeEntry p k ((d.inode p).shrunk env 0)) d' ∧
    (fsUnlink env (pathString (as ++ [b]) behind)).Advances vdisk
      (Staged (through [d, d.overwriteEntry p k] d')) 0 d fun r _ t => r = 0 ∧ t = d' := by
  have hp := h.isDir
  have hi := hd.directories.graph.target_lt p _ (NameGraph.mem_of_lookup h.2)
  obtain ⟨k, s, hk, hedge, hs, hloop⟩ := exists_run_unlinkLoop_small env hd hp hcount h.2
  refine ⟨k, s, _, hk, hedge, hs, marks_unlinked hp.1 hi _, ?_⟩
  set e := through [d, d.overwriteEntry p k]
    (((s.overwriteEntry p k).uncoverInode i).setInode p ((d.inode p).shrunk env 0))
  have hS (k : ℕ) := ignores_resembles (e k)
  have hfirst : Staged e 0 d := .refl d
  have hsecond : Staged e 1 (s.overwriteEntry p k) := (hs.marks.overwriteEntry hp.1).resembles
  have hmarked := run_makeInodeMapUncovered env hi (s.overwriteEntry p k)
  have hthird := ((writesWithin_makeInodeMapUncovered env i).run_iff (hS 1) hmarked).mpr hsecond
  have hlast : Staged e 2 (e 2) := .refl _
  rw [fsUnlink_eq env hsplit.unlinkDirName, unlinkFrom]
  refine (readOnly_understandThePath env _).advances_bind (hd.walkable.run_understandThePath env
    (NameGraph.resolve_map_concat.mpr ⟨p, h.1, h.2⟩)) ?_
  refine (readOnly_understandThePath env _).advances_bind
    (hd.walkable.run_understandThePath env h.1) ?_
  refine (readOnly_justReadInodeFromDisk env _).advances_bind
    (run_justReadInodeFromDisk env hp.1 d) ?_
  rw [INode.fileAmount_eq (hd.directories.dir p hp).count_le, Int.toNat_natCast]
  refine (writesOnce_unlinkLoop env _ _ _ _).advances_bind hS hloop hfirst (Nat.zero_le 1)
    hsecond ?_
  refine (writesWithin_makeInodeMapUncovered env _).writesOnce.advances_bind hS hmarked hsecond
    le_rfl hthird ?_
  exact (writesOnce_repalceINode env _ _).advances_bind hS
    (run_repalceINodeAccordingToDiskNumber env hp.1 _ _) hthird (Nat.le_succ 1) hlast
    (Prog.advances_ret hlast ⟨rfl, rfl⟩)

/-- **`fs_unlink`** passes. -/
theorem passes_fsUnlink : ∃ d', d.Passes d' (fsUnlink env (pathString (as ++ [b]) behind)) 0 := by
  obtain ⟨k, s, d', hk, hedge, hs, hmarks, hadvances⟩ := fsUnlink_advances env hd hcount hsplit h
  exact ⟨d', _, .removed env hs hcount hk hmarks h.1 h.2 hedge, .refl d, hadvances⟩

/-- **`fs_rmdir`** sets bits of the data map, and goes on as `fs_unlink`. -/
theorem passes_fsRmdir (hdir : d.IsDir i) (hcount' : (d.inode i).count ≤ 12) :
    ∃ d', d.Passes d' (fsRmdir env (pathString (as ++ [b]) behind)) 0 := by
  have hp := h.isDir
  have hpath : (pathString (as ++ [b]) behind).chars = pathChars (as ++ [b]) := rfl
  -- the loop over the entries leaves the disk as it is, up to the maps
  obtain ⟨_, t, hloop, ht, -⟩ := rmdirLoop_keeps env hd hdir hcount' (d.inode i).count 0
    (Nat.zero_add _) d (.refl hd)
  have hsame := ht.marks.inode p hp.1
  obtain ⟨k, s, d', hk, hedge, hs, hmarks, hadvances⟩ := fsUnlink_advances env ht.sound'
    (by rw [hsame]; exact hcount) hsplit (h := by rw [Disk.Finds, ht.marks.graph]; exact h)
  rw [hsame] at hk hedge hmarks
  rw [Disk.entryOf_congr rfl (ht.marks.data _)] at hedge
  refine ⟨d', _, .removed env ⟨hd, ht.marks.trans hs.marks⟩ hcount hk hmarks h.1 h.2 hedge,
    .refl d, ?_⟩
  set e := through [d, d.overwriteEntry p k] d'
  have hfirst : Staged e 0 d := .refl d
  rw [fsRmdir, hpath]
  refine (readOnly_understandThePath env _).advances_bind (hd.walkable.run_understandThePath env
    (NameGraph.resolve_map_concat.mpr ⟨p, h.1, h.2⟩)) ?_
  refine (readOnly_justReadInodeFromDisk env _).advances_bind
    (run_justReadInodeFromDisk env hdir.1 d) ?_
  rw [hsplit, INode.fileAmount_eq (hd.directories.dir i hdir).count_le, Int.toNat_natCast]
  simp only
  refine (writesWithin_rmdirLoop env _ _ _).writesOnce.advances_bind
    (fun k => ignores_resembles (e k)) hloop hfirst le_rfl ht.marks.resembles ?_
  refine (hadvances.stages_mono fun j u hu => ?_).bind fun r j u hu hr => ?_
  · rcases j with _ | _ | j
    · exact .of_marks ht.marks hu
    · exact .of_marks (ht.marks.overwriteEntry hp.1) hu
    · exact hu
  · exact Prog.advances_ret hu ⟨rfl, hr.2⟩

end Remove

/-! ### Renaming -/

/-- **`fs_rename`** copies the last entry of the old directory, stores the entry in the new one, and
then the records of the new and of the old one. -/
theorem passes_fsRename {d : Disk} (hd : d.Sound) {p q i : ℕ} {parent parent' : List Name}
    {name name' : Name} {behind behind' : ℕ → Byte} (hsplit : SplitsAt parent name behind)
    (hsplit' : SplitsAt parent' name' behind') (h : d.CanRename parent parent' name name' p q i) :
    ∃ d', d.Passes d' (fsRename env (pathString (parent ++ [name]) behind)
      (pathString (parent' ++ [name']) behind')) 0 := by
  have hp := h.finds.isDir
  have hpath : (pathString (parent ++ [name]) behind).chars = pathChars (parent ++ [name]) := rfl
  obtain ⟨k, hk, hedge, hfirst⟩ := hd.exists_rank (NameGraph.mem_of_lookup h.finds.2)
  have hinode : (d.overwriteEntry p k).inode q = d.inode q := Disk.inode_overwriteEntry h.dir.1
  have hwalk := resolve_overwriteEntry hd hp h.small hk (congrArg Prod.fst hedge) h.finds.1 h.found
    h.below
  have hroom := h.hasRoom_overwriteEntry (k := k)
  rw [hinode] at hroom
  refine ⟨_, _, .moveEntry env hd h hk hedge, .refl d, ?_⟩
  set e := through [d, d.overwriteEntry p k, d.moved p k q, d.movedInto env p k q]
    (d.moveEntry env p k q)
  have hS (k : ℕ) := ignores_resembles (e k)
  have hstage (j : ℕ) : Staged e j (e j) := .refl _
  rw [fsRename, hpath]
  refine (readOnly_understandThePath env _).advances_bind (hd.walkable.run_understandThePath env
    (NameGraph.resolve_map_concat.mpr ⟨p, h.finds.1, h.finds.2⟩)) ?_
  rw [hsplit.renameDirName, hsplit'.renameDirName]
  simp only
  rw [understandThePath_joinNames, understandThePath_joinNames]
  refine (readOnly_understandThePath env _).advances_bind
    (hd.walkable.run_understandThePath env h.finds.1) ?_
  refine (readOnly_justReadInodeFromDisk env _).advances_bind
    (run_justReadInodeFromDisk env hp.1 d) ?_
  rw [INode.fileAmount_eq (hd.directories.dir p hp).count_le, Int.toNat_natCast]
  refine (writesOnce_renameLoop env _ _ _ _ _).advances_bind hS
    (run_renameLoop env hd hp hk h.small (congrArg Prod.snd hedge) hfirst _ 0 (Nat.zero_add _)
      (Nat.zero_le k) _) (hstage 0) (Nat.zero_le 1) (hstage 1) ?_
  refine (readOnly_understandThePath env _).advances_bind
    ((hd.walkable_overwriteEntry hp h.small hk).run_understandThePath env hwalk) ?_
  refine (readOnly_justReadInodeFromDisk env _).advances_bind
    (run_justReadInodeFromDisk env h.dir.1 _) ?_
  rw [hinode]
  refine (writesOnce_addFileToDict env h.count_lt 0 _).advances_bind hS
    (run_addFileToDict env 0 _ h.count_lt hroom fun r _ => hd.pointers.lt q h.dir.1 r)
    (hstage 1) (Nat.le_succ 1) (hstage 2) ?_
  refine (writesOnce_repalceINode env _ _).advances_bind hS
    (run_repalceINodeAccordingToDiskNumber env h.dir.1 _ _) (hstage 2) (Nat.le_succ 2)
    (hstage 3) ?_
  refine (writesOnce_repalceINode env _ _).advances_bind hS
    ((run_repalceINodeAccordingToDiskNumber env hp.1 _ _).trans
      (congrArg (fun t => some ((), t)) (h.moveEntry_eq env).symm))
    (hstage 3) (Nat.le_succ 3) (hstage 4) ?_
  exact Prog.advances_ret (hstage 4) ⟨rfl, rfl⟩

end InodeFs
