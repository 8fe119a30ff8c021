import InodeFs.Ops.Rename
import InodeFs.State.Staging

/-!
# Where the functions write

The functions that work on the maps write to no other block; the others write, besides, one block
each. `add_file_to_dict` does so where it stays within the direct blocks.

The lemmas follow the definitions of the source, one for each function; `Prog.WritesWithin MapBlock`
is closed under sequencing, and `Prog.WritesOnce MapBlock` under sequencing with parts of the first
kind. They are about the program and not about a disk, so they hold whatever is read, and in
particular for what a request reads while another one is under way.

Where a function is called with a rank, the block that it writes depends on the record; that it is
one block does not.

What comes of it is a bound on how often a call may be noticed: a program that writes once beside
the maps is seen by others before this write or after it (`Prog.WritesOnce.advances`).
-/

namespace InodeFs

variable (env : Env)

section Maps

/-! ### The maps -/

/-- The mask is computed from what was read. -/
theorem writesWithin_orIntoMap {S : ℤ → Prop} (table : Fin 8 → Byte) (n : ℤ) (b : Block) :
    (orIntoMap env table n b).WritesWithin S :=
  ((Prog.readOnly_index _ _).bind fun _ => (Prog.readOnly_index _ _).bind fun _ =>
    Prog.readOnly_assign _ _ _).writesWithin

theorem writesWithin_diskWrite {id : ℤ} (h : MapBlock id) (b : Block) :
    (diskWrite id b).WritesWithin MapBlock := Prog.writesWithin_write h Prog.writesWithin_pure

/-- A map block is read, changed and written. -/
theorem writesWithin_changeMap {id : ℤ} (h : MapBlock id) (table : Fin 8 → Byte) (n : ℤ) :
    (do let buffer ← env.read id
        let buffer ← orIntoMap env table n buffer
        diskWrite id buffer : Fs Unit).WritesWithin MapBlock :=
  (readOnly_envRead env id).writesWithin.bind fun _ =>
    (writesWithin_orIntoMap env table n _).bind fun _ => writesWithin_diskWrite h _

theorem writesWithin_makeInodeMapCovered (n : ℤ) :
    (makeInodeMapCovered env n).WritesWithin MapBlock := writesWithin_changeMap env (by decide) _ _

theorem writesWithin_makeInodeMapUncovered (n : ℤ) :
    (makeInodeMapUncovered env n).WritesWithin MapBlock :=
  writesWithin_changeMap env (by decide) _ _

/-- The position of a bit is in one of the two blocks of the data map. -/
theorem mapBlock_dataMapPosition (n : ℤ) : MapBlock (dataMapPosition n).1 := by
  rw [dataMapPosition]
  split
  · exact (by decide : MapBlock 3)
  · exact (by decide : MapBlock 2)

theorem writesWithin_makeDataMapCovered (n : ℤ) :
    (makeDataMapCovered env n).WritesWithin MapBlock :=
  writesWithin_changeMap env (mapBlock_dataMapPosition n) _ _

theorem writesWithin_makeDataMapUncovered (n : ℤ) :
    (makeDataMapUncovered env n).WritesWithin MapBlock :=
  writesWithin_changeMap env (mapBlock_dataMapPosition n) _ _

/-- What takes a block writes to the data map only. -/
theorem writesWithin_takeDatablock : (takeDatablock env).WritesWithin MapBlock :=
  (readOnly_findEmptyDatablock env).writesWithin.bind fun _ =>
    (Prog.writesWithin_note Prog.writesWithin_pure).bind fun _ =>
      (writesWithin_makeDataMapCovered env _).bind fun _ => Prog.writesWithin_pure

/-- Giving back the blocks of an index block writes to the map only. -/
theorem writesWithin_uncoverLoop {n : ℕ} (numbers : Fin n → BitVec 32) (count i : ℕ) :
    (uncoverLoop env numbers count i).WritesWithin MapBlock := by
  induction count generalizing i with
  | zero => exact Prog.writesWithin_pure
  | succ count ih =>
    exact (Prog.readOnly_index _ _).writesWithin.bind fun _ =>
      (writesWithin_makeDataMapUncovered env _).bind fun _ => ih (i + 1)

/-- **Giving back the blocks of an inode** writes to the maps only. -/
theorem writesWithin_releaseFileDatabock (x : INode) :
    (releaseFileDatabockByProvideInode env x).WritesWithin MapBlock := by
  have hindexed (id : ℤ) (count : ℕ) : (do
      let members ← readInts env id
      uncoverLoop env members count 0 : Fs Unit).WritesWithin MapBlock :=
    (readOnly_readInts env id).writesWithin.bind fun _ => writesWithin_uncoverLoop env _ _ _
  have hsecond : (if cInt (x.stSize.toInt.tdiv 4096 + 1) > 11 + 1024 then do
        let members ← readInts env (datablockFindDiskId (x.indirectPointer 1).toInt)
        uncoverLoop env members
          (getMin 1024 (cInt (x.stSize.toInt.tdiv 4096 + 1) - 11 - 1024)).toNat 0
      else pure ()).WritesWithin MapBlock := by
    split
    · exact hindexed _ _
    · exact Prog.writesWithin_pure
  rw [releaseFileDatabockByProvideInode]
  refine (writesWithin_uncoverLoop env _ _ _).bind fun _ => ?_
  simp only
  split
  · rw [← Prog.bind_assoc]
    exact (hindexed _ _).bind fun _ => hsecond
  · exact hsecond

/-- `fs_rmdir` gives the children back before it touches the directory. -/
theorem writesWithin_rmdirLoop (x : INode) (left i : ℕ) :
    (rmdirLoop env x left i).WritesWithin MapBlock := by
  induction left generalizing i with
  | zero => exact Prog.writesWithin_pure
  | succ left ih =>
    exact (readOnly_getFilenameData env _ _).writesWithin.bind fun _ =>
      (readOnly_justReadInodeFromDisk env _).writesWithin.bind fun _ =>
        (writesWithin_releaseFileDatabock env _).bind fun _ =>
          (writesWithin_makeDataMapUncovered env _).bind fun _ => ih (i + 1)

/-- `fs_truncate` gives the block of a rank back. -/
theorem writesWithin_deleteNRankBlock (rank : ℤ) (x : INode) :
    (deleteNRankBlock env rank x).WritesWithin MapBlock := by
  have hfree (number : ℤ) : (do makeDataMapUncovered env number; pure x : Fs INode).WritesWithin
      MapBlock := (writesWithin_makeDataMapUncovered env number).bind fun _ =>
    Prog.writesWithin_pure
  rw [deleteNRankBlock]
  split
  · exact (Prog.readOnly_index _ _).writesWithin.bind fun _ => hfree _
  · exact (Prog.readOnly_index _ _).writesWithin.bind fun _ =>
      (readOnly_readInts env _).writesWithin.bind fun _ =>
        (Prog.readOnly_index _ _).writesWithin.bind fun _ => hfree _

/-- It does so rank by rank, and writes the record behind all of them. -/
theorem writesWithin_rankLoop (rounds : ℕ) (i : ℤ) (x : INode) :
    (rankLoop (deleteNRankBlock env) rounds i x).WritesWithin MapBlock := by
  induction rounds generalizing i x with
  | zero => exact Prog.writesWithin_pure
  | succ rounds ih => exact (writesWithin_deleteNRankBlock env i x).bind fun y => ih (i + 1) y

end Maps

/-! ### Records and blocks -/

section Blocks

variable {S : ℤ → Prop}

/-- One write is one step. -/
theorem writesOnce_diskWrite (id : ℤ) (b : Block) : (diskWrite id b).WritesOnce S :=
  Prog.writesOnce_write Prog.writesWithin_pure

theorem writesOnce_writeINodes (id : ℤ) (buffer : Fin 32 → INode) :
    (writeINodes id buffer).WritesOnce S := writesOnce_diskWrite _ _

/-- A record is replaced by one write of its block. -/
theorem writesOnce_repalceINode (n : ℤ) (x : INode) :
    (repalceINodeAccordingToDiskNumber env n x).WritesOnce S :=
  (readOnly_readINodes env _).writesWithin.writesOnce_bind fun _ =>
    (Prog.readOnly_assign _ _ _).writesWithin.writesOnce_bind fun _ => writesOnce_writeINodes _ _

theorem writesOnce_writeIntoDisk (rank : ℤ) (x : INode) (content : Block) :
    (writeIntoDiskAcccordingToRankInInode env rank x content).WritesOnce S :=
  (readOnly_dataBlockAtRank env rank x).writesWithin.writesOnce_bind fun _ =>
    writesOnce_diskWrite _ _

/-- An entry is stored by one write of its block. -/
theorem writesOnce_addADictInDataBlock (number : ℤ) (e : DictioryContent) (position : ℤ) :
    (addADictInDataBlock env number e position).WritesOnce S :=
  (readOnly_readEntries env _).writesWithin.writesOnce_bind fun _ =>
    (Prog.readOnly_assign _ _ _).writesWithin.writesOnce_bind fun _ => writesOnce_diskWrite _ _

/-- An entry is overwritten by one write of its block. -/
theorem writesOnce_writeFilename (rank : ℤ) (x : INode) (e : DictioryContent) :
    (writeFilenameIntodirInRankView env rank x e).WritesOnce S := by
  rw [writeFilenameIntodirInRankView]
  split
  · exact (Prog.readOnly_index _ _).writesWithin.writesOnce_bind fun _ =>
      (readOnly_readEntries env _).writesWithin.writesOnce_bind fun _ =>
        (Prog.readOnly_assign _ _ _).writesWithin.writesOnce_bind fun _ => writesOnce_diskWrite _ _
  · refine (Prog.readOnly_index _ _).writesWithin.writesOnce_bind fun _ =>
      (readOnly_readInts env _).writesWithin.writesOnce_bind fun _ =>
        (Prog.readOnly_index _ _).writesWithin.writesOnce_bind fun _ =>
          Prog.WritesWithin.writesOnce_bind (Prog.ReadOnly.writesWithin ?_) fun _ =>
            (Prog.readOnly_index _ _).writesWithin.writesOnce_bind fun _ => writesOnce_diskWrite _ _
    exact Prog.readOnly_read.mpr fun _ => Prog.readOnly_pure _

/-- The removal of an entry overwrites it by the last one. -/
theorem writesOnce_deleteFile (rank : ℤ) (x : INode) :
    (deleteFileAccordingToRank env rank x).WritesOnce S := by
  rw [deleteFileAccordingToRank]
  split
  · exact Prog.writesWithin_pure.writesOnce
  · exact (readOnly_getFilenameData env _ _).writesWithin.writesOnce_bind fun _ =>
      writesOnce_writeFilename env _ _ _

/-- An inode is made. -/
theorem writesOnce_applyANewInode (mode : BitVec 32) :
    (applyANewInodeWithMode env mode).WritesOnce MapBlock :=
  (readOnly_findEmptyInode env).writesWithin.writesOnce_bind fun _ =>
    (writesWithin_makeInodeMapCovered env _).writesOnce_bind fun _ =>
      (readOnly_readINodes env _).writesWithin.writesOnce_bind fun _ =>
        (Prog.readOnly_index _ _).writesWithin.writesOnce_bind fun _ =>
          (Prog.readOnly_assign _ _ _).writesWithin.writesOnce_bind fun _ =>
            (writesOnce_writeINodes _ _).bind fun _ => Prog.writesWithin_pure

/-- An entry is added, to a direct block. -/
theorem writesOnce_addFileToDict {x : INode} (hcount : x.count < 1536) (clock : ℕ)
    (e : DictioryContent) : (addFileToDict env clock x e).WritesOnce MapBlock := by
  refine Prog.WritesOnce.bind ?_ fun _ => Prog.writesWithin_pure
  rw [storeInDict_direct env e (INode.tdiv_stSize hcount) hcount]
  split
  · exact (writesWithin_takeDatablock env).writesOnce_bind fun _ =>
      (Prog.readOnly_assign _ _ _).writesWithin.writesOnce_bind fun _ =>
        (writesOnce_addADictInDataBlock env _ _ _).bind fun _ => Prog.writesWithin_pure
  · exact (Prog.readOnly_index _ _).writesWithin.writesOnce_bind fun _ =>
      (writesOnce_addADictInDataBlock env _ _ _).bind fun _ => Prog.writesWithin_pure

/-- The loop of `fs_unlink` ends at the entry that it takes out. -/
theorem writesOnce_unlinkLoop (n : ℤ) (x : INode) (left i : ℕ) :
    (unlinkLoop env n x left i).WritesOnce MapBlock := by
  induction left generalizing i with
  | zero => exact Prog.writesWithin_pure.writesOnce
  | succ left ih =>
    refine (readOnly_getFilenameData env _ _).writesWithin.writesOnce_bind fun _ => ?_
    split
    · exact (readOnly_justReadInodeFromDisk env _).writesWithin.writesOnce_bind fun _ =>
        (writesWithin_releaseFileDatabock env _).writesOnce_bind fun _ =>
          writesOnce_deleteFile env _ _
    · exact ih (i + 1)

/-- The loop of `fs_rename`. -/
theorem writesOnce_renameLoop (n : ℤ) (x : INode) (left i : ℕ) (w : DictioryContent) :
    (renameLoop env n x left i w).WritesOnce S := by
  induction left generalizing i w with
  | zero => exact Prog.writesWithin_pure.writesOnce
  | succ left ih =>
    refine (readOnly_getFilenameData env _ _).writesWithin.writesOnce_bind fun _ => ?_
    split
    · exact (writesOnce_deleteFile env _ _).bind fun _ => Prog.writesWithin_pure
    · exact ih (i + 1) _

end Blocks

end InodeFs
