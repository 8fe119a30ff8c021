import InodeFs.Ops.Handles
import InodeFs.Ops.Truncate
import InodeFs.Ops.Write
import InodeFs.Ops.Writes

/-!
# The stages of the calls on one inode

`fs_utime`, `fs_truncate` and `fs_write` replace one record, which is stored last; `fs_write` fills
blocks before, of which one at most is a block that the file has already.

For each call there is a passage of disks (`Passage`) and the statement that its program goes
through the stages of this passage (`Prog.Advances`), collected in `Disk.Passes`. A call whose only
write in use is that of the record goes through one stage (`Passage.passes_once`): everything else
that it writes is a bit of a map, or a block that is free.

`fs_write` is the one with more. Its first block may be one that a reader has in its hands, so its
new content is a stage of its own; the blocks behind it are fresh, and are seen with the new record.

Between its two stages a write has a block of the file with some new bytes and the old record. A
reader that comes then may return new bytes at positions below the old size, and old ones at others,
which is what `Callback.Glimpses` allows it.
-/

namespace InodeFs

variable (env : Env)

open Disk (Marks)

namespace Disk

/-- The program takes disk `d` through stages to disk `d'`, and returns `r`. -/
def Passes {α : Type} (d d' : Disk) (p : Fs α) (r : α) : Prop :=
  ∃ e : ℕ → Disk, Passage d d' (Staged e) ∧ (e 0).Resembles d ∧
    p.Advances vdisk (Staged e) 0 d fun a _ s => a = r ∧ s = d'

variable {d d' : Disk} {i : ℕ}

/-- What is done with the value at the end writes nothing. -/
theorem Passes.map {α β : Type} {p : Fs α} {r : α} (h : d.Passes d' p r) (f : α → β) :
    d.Passes d' (p >>= fun a => pure (f a)) (f r) := by
  obtain ⟨e, hpassage, hstart, hp⟩ := h
  refine ⟨e, hpassage, hstart, hp.bind fun a j s hs ha => ?_⟩
  exact Prog.advances_ret hs ⟨by rw [ha.1], ha.2⟩

theorem Passes.run {α : Type} {p : Fs α} {r : α} (h : d.Passes d' p r) :
    p.run vdisk d = some (r, d') := by
  obtain ⟨e, -, -, hp⟩ := h
  obtain ⟨_, _, _, hrun, -, rfl, rfl⟩ := hp.exists_run
  exact hrun

/-- A change of one record that leaves the names and the blocks alone. -/
theorem Passage.of_record (hd : d.Sound) (hd' : d'.Sound) (hgraph : d'.graph = d.graph)
    (hleaves : Leaves (· = i) d d')
    (hdata : ∀ r, d'.data ((d.inode i).ptr r) = d.data ((d.inode i).ptr r)) :
    Passage d d' (Staged (through [d] d')) := by
  have hl (x : Disk) (hx : x ∈ [d]) : x = d := List.mem_singleton.mp hx
  have hbefore (x : Disk) (hx : x ∈ [d]) : Leaves (· = i) d x := by
    rw [hl x hx]
    exact .refl _ d
  have hkept := kept_through hbefore hleaves
  have hedges : d.SameEdges d' i := fun q a => by rw [hgraph]
  refine .of_through hd hd' (fun q a j j' hj hj' => ?_) hbefore hleaves fun j hj hset hji => ?_
  · rw [hgraph, hj] at hj'
    exact Option.some.inj hj'
  obtain rfl := hji
  have hreplaced : ReplacedAt d d' (through [d] d') 1 j :=
    .at_end hd' hj fun x hx => by rw [hl x hx]
  have hblocks := forall_through (P := fun x => ∀ r, x.data ((d.inode j).ptr r) =
    d.data ((d.inode j).ptr r)) (l := [d]) (fun x hx r => by rw [hl x hx]) hdata
  by_cases hdir : d.IsDir j
  · refine .of_directory hd hkept hreplaced hset hd' hdir hedges
      (settled_of_old (fun q a m hm => ?_) 1) (.inl fun m => ?_)
    · rw [hgraph] at hm
      exact hd.imap_of_lookup hm
    · exact entriesOf_congr rfl fun _ _ => entryOf_congr rfl (hblocks m _)
  · refine .of_file hd hkept hreplaced hset hd' hj hdir hedges fun m q => .inl ?_
    rw [hblocks]
    rfl

/-- A program that writes one block beside the maps passes from the disk it finds to the disk it
leaves. -/
theorem Passage.passes_once {α : Type} {prog : Fs α} {r : α}
    (h : Passage d d' (Staged (through [d] d'))) (hprog : prog.WritesOnce MapBlock)
    (hrun : prog.run vdisk d = some (r, d')) : d.Passes d' prog r := by
  have hfirst : Staged (through [d] d') 0 d := .refl d
  have hlast : Staged (through [d] d') 1 d' := .refl d'
  exact ⟨_, h, hfirst, (hprog.advances (fun _ => ignores_resembles _) hrun hfirst (Nat.zero_le 1)
    hlast).mono fun _ _ _ _ hx => ⟨hx.1, hx.2.2⟩⟩

end Disk

/-! ### Times and sizes -/

section Once

variable {d : Disk} {i : ℕ} {as : List Name} (hd : d.Sound) (behind : ℕ → Byte)
  (hi : d.graph.resolve 4 (fileNames as) = some i)
include hd hi

/-- **`fs_utime`** stores one record. -/
theorem passes_fsUtime : d.Passes (d.setInode i ((d.inode i).touched env))
    (fsUtime env (pathString as behind)) (0, ⟨(d.inode i).atime, env.time 0⟩) := by
  have hlt := hd.walkable.resolve_lt (by decide) hi
  refine (Disk.Passage.of_record hd (hd.touched env hlt)
    (Disk.graph_setInode hlt (INode.sameBlocks_touched env _) rfl)
    (Disk.leaves_setInode (S := (· = i)) hlt (.inl rfl) _)
      fun r => Disk.data_setInode hlt _ _).passes_once ?_ (hd.walkable.run_fsUtime env hi behind)
  exact (readOnly_understandThePath env _).writesWithin.writesOnce_bind fun _ =>
    (readOnly_readINodes env _).writesWithin.writesOnce_bind fun _ =>
      (Prog.readOnly_index _ _).writesWithin.writesOnce_bind fun _ =>
        (Prog.readOnly_assign _ _ _).writesWithin.writesOnce_bind fun _ =>
          (writesOnce_writeINodes _ _).bind fun _ => Prog.writesWithin_pure

omit hd hi in
theorem writesOnce_fsTruncate (path : CString) (size : ℤ) :
    (fsTruncate env path size).WritesOnce MapBlock := by
  refine (readOnly_understandThePath env _).writesWithin.writesOnce_bind fun _ =>
    (readOnly_readINodes env _).writesWithin.writesOnce_bind fun _ =>
      (Prog.readOnly_index _ _).writesWithin.writesOnce_bind fun x => ?_
  -- what follows the loops stores the record
  have hstore (index diskId : ℤ) (buffer : Fin 32 → INode) (x : INode) : (do
      let buffer ← Prog.assign buffer index { x with stSize := BitVec.ofInt 64 size }
      writeINodes diskId buffer
      pure 0 : Fs ℤ).WritesOnce MapBlock :=
    (Prog.readOnly_assign _ _ _).writesWithin.writesOnce_bind fun _ =>
      (writesOnce_writeINodes _ _).bind fun _ => Prog.writesWithin_pure
  simp only
  split
  · exact hstore _ _ _ _
  · split
    · next hgrow =>
      -- a file that grows: there is no round
      have hrounds : ((cInt x.stSize.toInt).tdiv 4096 + 1 -
          ((cInt size).tdiv 4096 + 1)).toNat = 0 := by omega
      rw [hrounds, rankLoop]
      exact hstore _ _ _ _
    · exact (writesWithin_rankLoop env _ _ _).writesOnce_bind fun _ => hstore _ _ _ _

/-- **`fs_truncate`** stores one record. -/
theorem passes_fsTruncate (hfile : d.IsFile i) {m : ℕ} (hm : m ≤ 2146304) :
    ∃ s, MarkedFrom d s ∧ d.Passes (s.setInode i ((d.inode i).withSize (BitVec.ofNat 64 m)))
      (fsTruncate env (pathString as behind) m) 0 := by
  obtain ⟨s, hs, -, hrun⟩ := run_fsTruncate env hd hfile.lt
    (hd.directories.file i hfile.lt hfile.not_isDir) hi behind (show m ≤ 8437760 by omega)
  refine ⟨s, hs, (Disk.Passage.of_record hd (sound_truncated hs hfile hm)
    (graph_truncated hs hfile) ((hs.marks.leaves _).trans
      (Disk.leaves_setInode (S := (· = i)) hfile.lt (.inl rfl) _)) fun r => ?_).passes_once
        (writesOnce_fsTruncate env _ _) hrun⟩
  rw [Disk.data_setInode hfile.lt, hs.marks.data]

end Once

/-! ### Contents -/

namespace Disk

/-- A write that starts within a block has laid its first bytes over it. -/
def firstLaid (d : Disk) (i : ℕ) (buffer : ℕ → Byte) (size offset : ℕ) : Disk :=
  if offset % 4096 = 0 then d
  else d.setData ((d.inode i).ptr (offset / 4096))
    ((d.blockAt i (offset / 4096)).paste (offset % 4096) (firstCount size offset) buffer)

variable {d d' : Disk} {i b size offset : ℕ}

@[simp] theorem dmap_firstLaid (buffer : ℕ → Byte) (c : ℕ) :
    (d.firstLaid i buffer size offset).dmap c = d.dmap c := by
  rw [firstLaid]
  split
  · rfl
  · exact dmap_setData ..

theorem inode_firstLaid (buffer : ℕ → Byte) {j : ℕ} (hj : j < 32768) :
    (d.firstLaid i buffer size offset).inode j = d.inode j := by
  rw [firstLaid]
  split
  · rfl
  · exact inode_setData hj _ _

/-- A change of one file leaves the others alone. -/
theorem FileChange.leaves {lo hi : ℕ} (h : FileChange i lo hi d d') (hd : d.Sound)
    (hi' : i < 32768) : Leaves (· = i) d d' where
  imap j _ hset := by rwa [h.imap]
  dmap c hc hset := (h.dmap c hc).mpr (.inl hset)
  zero := by rw [h.sound.zero, hd.zero]
  inode j hj _ hne := h.inode_ne j hj hne
  data j hj _ hne r := by
    have hblock := h.blockAt_ne hd hi' hj hne r
    rwa [blockAt, blockAt, h.inode_ne j hj hne] at hblock

/-- Fresh blocks are stored behind those in use. -/
theorem data_storeBlocks (hi : i < 32768) {n r : ℕ} (content : ℕ → Block)
    (hfree : n ≤ d.freeBlocks) (hb : b < 65536) (hset : d.dmap b = true) :
    (d.storeBlocks i r n content).data b = d.data b := by
  induction n generalizing d r content with
  | zero => rfl
  | succ n ih =>
    have hblock : d.HasBlock := freeBlocks_pos_iff.mp (by omega)
    have hless := freeBlocks_storeBlock i r (content 0) hblock
    have hne : b ≠ d.nextData := by
      rintro rfl
      rw [hblock.dmap_nextData] at hset
      cases hset
    have hmarked : (d.storeBlock i r (content 0)).dmap b = true := by
      rw [storeBlock, dmap_setData]
      exact dmap_mountBlock_of_marked d.nextData_lt hb hset
    rw [storeBlocks, ih (fun k => content (k + 1)) (by omega) hmarked, storeBlock, data_setData,
      if_neg hne, data_mountBlock hi]

section Written

variable (hd : d.Sound) (hfile : d.IsFile i) (h : d.CanWrite i size offset) (buffer : ℕ → Byte)
include hd hfile h

/-- The blocks in use before a write are those of the stage in between. -/
theorem data_written (hb : b < 65536) (hset : d.dmap b = true) :
    (d.written i buffer size offset).data b = (d.firstLaid i buffer size offset).data b := by
  have hfirst := FileChange.firstFilled hd hfile h buffer
  rw [written, data_setInode hfile.lt, filled, data_storeBlocks hfile.lt _
    (nextCount_le_freeBlocks h.fits buffer) hb ((hfirst.dmap b hb).mpr (.inl hset)), firstFilled,
    firstMounted, firstLaid]
  split
  · next h0 =>
    have hne : b ≠ d.nextData := by
      rintro rfl
      rw [(h.fits.hasBlock h0).dmap_nextData] at hset
      cases hset
    rw [ptr_mountBlock h.fits.rank_lt d.nextData_lt, if_pos ⟨rfl, rfl⟩, data_setData, if_neg hne,
      data_mountBlock hfile.lt]
  · rfl

/-- A byte of the stage in between is the old one, or the new one. -/
theorem get_firstLaid (q : ℕ) :
    ((d.firstLaid i buffer size offset).data ((d.inode i).ptr (q / 4096))).get (q % 4096) =
        d.byteAt i q ∨
      q < ((d.written i buffer size offset).inode i).stSize.toNat ∧
        ((d.firstLaid i buffer size offset).data ((d.inode i).ptr (q / 4096))).get (q % 4096) =
          (d.written i buffer size offset).byteAt i q := by
  rw [firstLaid]
  split
  · exact .inl rfl
  next h0 =>
  rw [data_setData]
  split
  · next hptr =>
    have hne := h.first h0
    obtain ⟨-, hrank⟩ := hd.pointers.inj i hfile.lt i hfile.lt _ _ hne hptr.symm
    by_cases hin : offset % 4096 ≤ q % 4096 ∧ q % 4096 < offset % 4096 + firstCount size offset
    · refine .inr ⟨?_, ?_⟩
      · have hle : firstCount size offset ≤ size := by unfold firstCount; omega
        rw [stSize_written h.fits buffer]
        omega
      · rw [byteAt, ← hrank, blockAt_written hd hfile h buffer, if_neg (by omega), if_pos rfl,
          firstMounted, if_neg h0]
    · refine .inl ?_
      rw [Block.get_paste _ _ _ _ (Nat.mod_lt _ (by decide)), if_neg hin, byteAt, hrank]
  · exact .inl rfl

theorem leaves_firstLaid : Leaves (· = i) d (d.firstLaid i buffer size offset) := by
  rw [firstLaid]
  split
  · exact .refl _ d
  · next h0 => exact hd.pointers.leaves_setData (S := (· = i)) hfile.lt rfl (h.first h0) _

/-- **The passage of a write.** -/
theorem Passage.written : Passage d (d.written i buffer size offset)
    (Staged (through [d, d.firstLaid i buffer size offset] (d.written i buffer size offset))) := by
  have hchange := FileChange.written hd hfile h buffer
  have hleaves := hchange.leaves hd hfile.lt
  have hl (x : Disk) (hx : x ∈ [d, d.firstLaid i buffer size offset]) : Leaves (· = i) d x := by
    rcases List.mem_pair.mp hx with rfl | rfl
    · exact .refl _ x
    · exact leaves_firstLaid hd hfile h buffer
  refine .of_through hd hchange.sound (fun q a j j' hj hj' => ?_) hl hleaves
    fun j hj hset hji => ?_
  · rw [hchange.graph, hj] at hj'
    exact Option.some.inj hj'
  obtain rfl := hji
  refine .of_file hd (kept_through hl hleaves) (.at_end hchange.sound hj fun x hx => ?_) hset
    hchange.sound hj hfile.not_isDir (fun q a => by rw [hchange.graph]) fun m q => ?_
  · rcases List.mem_pair.mp hx with rfl | rfl
    · rfl
    · exact inode_firstLaid buffer hj
  · refine forall_through (P := fun x => (x.data ((d.inode j).ptr (q / 4096))).get (q % 4096) =
        d.byteAt j q ∨ q < ((d.written j buffer size offset).inode j).stSize.toNat ∧
          (x.data ((d.inode j).ptr (q / 4096))).get (q % 4096) =
            (d.written j buffer size offset).byteAt j q) (fun x hx => ?_) ?_ m
    · rcases List.mem_pair.mp hx with rfl | rfl
      · exact .inl rfl
      · exact get_firstLaid hd hfile h buffer q
    · have hlt := hd.pointers.lt j hj (q / 4096)
      rw [data_written hd hfile h buffer (by omega) (hd.pointers.dmap_ptr hj _)]
      exact get_firstLaid hd hfile h buffer q

end Written

end Disk

section Write

variable {e : ℕ → Disk} {j : ℕ} {s d : Disk} {i size offset : ℕ} (buffer : ℕ → Byte)

theorem readOnly_mountBlockToInode {r : ℕ} (hr : r < 12) (b : ℤ) (x : INode) :
    (mountBlockToInodeAccordingToRank env r b x).ReadOnly := by
  rw [mountBlockToInodeAccordingToRank, if_pos (by omega)]
  exact (Prog.readOnly_assign _ _ _).bind fun _ => Prog.readOnly_pure _

open Disk (Staged ignores_resembles) in
/-- The loop over the following blocks stores fresh blocks, which do not count yet. -/
theorem writeLoop_advances (hsize : size < 2 ^ 31) (fuel r wrote : ℕ) (x : INode)
    (hs : Staged e j s) (hmarks : ∀ b < 65536, (e j).dmap b = true → s.dmap b = true)
    (hfuel : (size - wrote + 4095) / 4096 ≤ fuel) (hr : r + (size - wrote + 4095) / 4096 ≤ 12)
    (hfree : (size - wrote + 4095) / 4096 ≤ s.freeBlocks) :
    (writeLoop env buffer size fuel r wrote x).Advances vdisk (Staged e) j s
      fun _ k _ => k = j := by
  induction fuel generalizing r wrote x s with
  | zero =>
    have hdone : ¬ (wrote : ℤ) < cInt size := by rw [cInt_natCast hsize]; omega
    rw [writeLoop, if_neg hdone]
    exact Prog.advances_ret hs rfl
  | succ fuel ih =>
    rw [writeLoop, cInt_natCast hsize]
    split
    · next hmore =>
      have hS (k : ℕ) := ignores_resembles (e k)
      have hblock : s.HasBlock := Disk.freeBlocks_pos_iff.mp (by omega)
      have hlt := hblock.nextData_lt
      have hptr : (x.setPtr r s.nextData).ptr r = s.nextData := by
        rw [INode.ptr_setPtr x (by omega) s.nextData_lt, if_pos rfl]
      -- the block that is taken is none of those in use in this stage
      have hunused : (e j).dmap s.nextData = false := by
        by_contra hset
        have hmarked := hmarks _ s.nextData_lt (by simpa using hset)
        rw [hblock.dmap_nextData] at hmarked
        cases hmarked
      have hcovered : Staged e j (s.coverData s.nextData) := hs.coverData _
      have hstored (content : Block) := hcovered.setData hunused content
      refine (writesWithin_takeDatablock env).writesOnce.advances_bind hS (run_takeDatablock env s)
        hs le_rfl hcovered ?_
      refine (readOnly_mountBlockToInode env (by omega) _ x).advances_bind
        (run_mountBlockToInode env (by omega) x _) ?_
      refine (writesOnce_writeIntoDisk env _ _ _).advances_bind hS
        (run_writeIntoDisk env (by omega) (by rwa [hptr]) _ _) hcovered le_rfl
        (by rw [hptr]; exact hstored _) ?_
      rw [hptr, fillNext_eq]
      refine ih (r + 1) _ _ (hstored _) (fun b hb hset => ?_) (by omega) (by omega) ?_
      · rw [Disk.dmap_setData, Disk.dmap_coverData s.nextData_lt hb, hmarks b hb hset,
          Bool.true_or]
      · have hless := Disk.freeBlocks_coverData hblock
        rw [Disk.freeBlocks_congr fun b _ => Disk.dmap_setData ..]
        omega
    · exact Prog.advances_ret hs rfl

open Disk (Staged ignores_resembles) in
/-- `fs_write` from its first block on: it is laid over, and fresh ones are stored. -/
theorem writeFirst_advances {x : INode} (h : d.Fits size offset)
    (hptr : x.ptr (offset / 4096) < 64508) (hs : Staged e 0 s)
    (hlaid : Staged e 1 (s.setData (x.ptr (offset / 4096)) ((s.data (x.ptr (offset / 4096))).paste
      (offset % 4096) (firstCount size offset) buffer)))
    (hmarks : ∀ b < 65536, (e 1).dmap b = true → s.dmap b = true)
    (hfree : nextCount size offset ≤ s.freeBlocks) :
    (do let firstWriteIn ← readTheOneDiskAccordingToRankInInode env ((offset / 4096 : ℕ) : ℤ) x
        let filled := fillFirst buffer size (4096 - offset % 4096) (offset % 4096) 0 firstWriteIn
        writeIntoDiskAcccordingToRankInInode env ((offset / 4096 : ℕ) : ℤ) x filled.1
        writeLoop env buffer size size (((offset / 4096 : ℕ) : ℤ) + 1) filled.2 x :
          Fs INode).Advances vdisk (Staged e) 0 s fun _ k _ => k = 1 := by
  have hrank := h.rank_lt
  have hend := h.end_le
  have hcount : nextCount size offset ≤ size := by unfold nextCount; omega
  have hfirst : fillFirst buffer size (4096 - offset % 4096) (offset % 4096) 0
      (s.data (x.ptr (offset / 4096))) = ((s.data (x.ptr (offset / 4096))).paste (offset % 4096)
        (firstCount size offset) buffer, firstCount size offset) := by
    rw [fillFirst_eq]
    simp only [Nat.zero_add, Nat.sub_zero, firstCount]
  refine (readOnly_readTheOneDisk env _ _).advances_bind (run_readTheOneDisk env hrank hptr s) ?_
  simp only [hfirst]
  refine (writesOnce_writeIntoDisk env _ _ _).advances_bind (fun k => ignores_resembles (e k))
    (run_writeIntoDisk env hrank hptr _ s) hs (Nat.zero_le 1) hlaid ?_
  refine writeLoop_advances env buffer (by omega) size _ _ x hlaid (fun b hb hset => ?_) hcount
    h.rank_le ?_
  · rw [Disk.dmap_setData]
    exact hmarks b hb hset
  · rw [Disk.freeBlocks_congr fun b _ => Disk.dmap_setData ..]
    exact hfree

section Call

variable (hd : d.Sound) (hfile : d.IsFile i) (h : d.CanWrite i size offset)
include hd hfile h

open Disk (Staged through ignores_resembles) in
theorem writeBlocks_advances (d' : Disk) :
    (writeBlocks env buffer size offset (d.inode i)).Advances vdisk
      (Staged (through [d, d.firstLaid i buffer size offset] d')) 0 d fun _ k _ => k = 1 := by
  have hend := h.end_le
  have hpre : cInt ((offset / 4096 : ℕ) : ℤ) = ((offset / 4096 : ℕ) : ℤ) := cInt_natCast (by omega)
  have hsize : cInt (size : ℤ) = size := cInt_natCast (by omega)
  have hfree := h.free
  have hrank := h.fits.rank_lt
  set e := through [d, d.firstLaid i buffer size offset] d'
  have hfirst : Staged e 0 d := .refl d
  have hone : e 1 = d.firstLaid i buffer size offset := rfl
  rw [writeBlocks]
  simp only [hpre, hsize]
  by_cases h0 : offset % 4096 = 0
  · have hblock := h.fits.hasBlock h0
    have hlt := hblock.nextData_lt
    have hptr : ((d.inode i).setPtr (offset / 4096) d.nextData).ptr (offset / 4096) =
        d.nextData := by rw [INode.ptr_setPtr _ hrank d.nextData_lt, if_pos rfl]
    have hcovered : Staged e 0 (d.coverData d.nextData) := hfirst.coverData _
    rw [if_pos h0] at hfree ⊢
    refine (writesWithin_takeDatablock env).writesOnce.advances_bind
      (fun k => ignores_resembles (e k)) (run_takeDatablock env d) hfirst le_rfl hcovered ?_
    refine (readOnly_mountBlockToInode env hrank _ _).advances_bind
      (run_mountBlockToInode env hrank (d.inode i) _) ?_
    refine writeFirst_advances env buffer h.fits (by rwa [hptr]) hcovered ?_
      (fun b hb hset => ?_) ?_
    · rw [hptr, Staged, hone, Disk.firstLaid, if_pos h0]
      exact ((Disk.Resembles.refl d).coverData _).setData hblock.dmap_nextData _
    · rw [hone, Disk.dmap_firstLaid] at hset
      rw [Disk.dmap_coverData d.nextData_lt hb, hset, Bool.true_or]
    · have hless := Disk.freeBlocks_coverData hblock
      omega
  · rw [if_neg h0] at hfree ⊢
    rw [Prog.pure_eq_ret, Prog.ret_bind]
    refine writeFirst_advances env buffer h.fits (hd.pointers.lt i hfile.lt _) hfirst ?_
      (fun b _ hset => by rwa [hone, Disk.dmap_firstLaid] at hset) (by omega)
    rw [Staged, hone, Disk.firstLaid, if_neg h0]
    exact .refl _

open Disk (Staged through ignores_resembles) in
/-- **`fs_write`** lays its first bytes over a block in use, if it starts within one, stores the
others in fresh blocks, and stores the record. -/
theorem passes_fsWrite {as : List Name} (hi : d.graph.resolve 4 (fileNames as) = some i)
    (behind : ℕ → Byte) : d.Passes (d.written i buffer size offset)
      (fsWrite env (pathString as behind) buffer size offset) size := by
  have hend := h.end_le
  have hchange := Disk.FileChange.written hd hfile h buffer
  have hpath : (pathString as behind).chars = pathChars as := rfl
  obtain ⟨y, t, hrun, ht⟩ := run_writeBlocks env hd hfile h.fits buffer
  have hsum : cInt (cInt (offset : ℤ) + cInt (size : ℤ)) = ((offset + size : ℕ) : ℤ) := by
    rw [cInt_natCast (by omega), cInt_natCast (by omega), ← Nat.cast_add, cInt_natCast (by omega)]
  have hwritten : t.setInode i { y with stSize := BitVec.ofNat 64 (offset + size) } =
      d.written i buffer size offset := by
    rw [Disk.written, ← ht, Disk.inode_setInode_self, Disk.setInode_setInode]
    rfl
  refine ⟨_, .written hd hfile h buffer, .refl d, ?_⟩
  rw [fsWrite, hpath]
  refine (readOnly_understandThePath env _).advances_bind
    (hd.walkable.run_understandThePath env hi) ?_
  refine (readOnly_justReadInodeFromDisk env _).advances_bind
    (run_justReadInodeFromDisk env hfile.lt d) ?_
  refine ((writeBlocks_advances env buffer hd hfile h _).of_run hrun).bind ?_
  rintro _ _ _ hs ⟨rfl, rfl, rfl⟩
  have hlast : Staged (through [d, d.firstLaid i buffer size offset]
      (d.written i buffer size offset)) 2 (d.written i buffer size offset) := .refl _
  simp only [hsum, BitVec.ofInt_natCast]
  refine (writesOnce_repalceINode env _ _).advances_bind (fun k => ignores_resembles _)
    ((run_repalceINodeAccordingToDiskNumber env hfile.lt _ _).trans (by rw [hwritten])) hs
    (Nat.le_succ 1) hlast ?_
  refine (readOnly_checkWrite env _).advances_bind (run_checkWrite env hchange.sound.walkable
    hfile.lt (by rw [hchange.graph, hi])) (Prog.advances_ret hlast ⟨?_, rfl⟩)
  rw [cInt_natCast (by omega)]

end Call

end Write

end InodeFs
