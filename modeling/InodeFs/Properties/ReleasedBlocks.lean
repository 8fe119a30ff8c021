import InodeFs.Properties.Fsck
import InodeFs.Properties.LargeOffsets
import InodeFs.Properties.Writing

/-!
# The blocks given back

Which block numbers `release_file_databock_by_provide_inode` and `fs_truncate` pass to
`make_data_map_uncovered`. The functions are taken over what they call, so that a call can be noted
before it is made: `passed` lists the numbers in order. The release goes through `size / 4096 + 1`
ranks, and from 12 ranks on through one element of the index block too many; the truncation goes
through the ranks that follow the block behind the new end. `releases_exact_iff` says when these are
the blocks that are dropped.

A sound disk has files without index blocks, so what is to be released are the blocks at the direct
ranks; a file with holes has none for those. The release takes each rank as it is, so that for a
hole the reserved block 0 is passed on. The lists are computed by `passes_release` and
`passed_fsTruncate`, over every disk that differs in bits that are set (`Passes`): the calls change
the data map while they go on.

That the parameterised functions are those of the source, once the function they call is put in, is
`releaseOver_eq` and `fsTruncateOver_eq`.
-/

namespace InodeFs

variable (env : Env)

/-! ### The functions over what they call -/

section Over

variable (uncover : ℤ → Fs Unit)

/-- `uncoverLoop` over `make_data_map_uncovered`. -/
def uncoverLoopOver {n : ℕ} (numbers : Fin n → BitVec 32) : ℕ → ℕ → Fs Unit
  | 0, _ => pure ()
  | count + 1, i => do
    let number ← Prog.index numbers i
    uncover number.toInt
    uncoverLoopOver numbers count (i + 1)

/-- `release_file_databock_by_provide_inode` over `make_data_map_uncovered`. -/
def releaseOver (aimInode : INode) : Fs Unit := do
  let datablockAmount := cInt (aimInode.stSize.toInt.tdiv 4096 + 1)
  uncoverLoopOver uncover aimInode.directPointer (getMin 12 datablockAmount).toNat 0
  if datablockAmount > 11 then do
    let bias := datablockAmount - 11
    let members ← readInts env (datablockFindDiskId (aimInode.indirectPointer 0).toInt)
    uncoverLoopOver uncover members (getMin 1024 bias).toNat 0
  else pure ()
  if datablockAmount > 11 + 1024 then do
    let bias := datablockAmount - 11 - 1024
    let members ← readInts env (datablockFindDiskId (aimInode.indirectPointer 1).toInt)
    uncoverLoopOver uncover members (getMin 1024 bias).toNat 0
  else pure ()

/-- `delete_n_rank_block` over `make_data_map_uncovered`. -/
def deleteNRankBlockOver (rank : ℤ) (nowFileInode : INode) : Fs INode := do
  let freeDataBlockNumber ← releasedAtRank env rank nowFileInode
  uncover freeDataBlockNumber
  pure nowFileInode

/-- `fs_truncate` over `make_data_map_uncovered`, as `delete_n_rank_block` calls it. -/
def fsTruncateOver (path : CString) (size : ℤ) : Fs ℤ := do
  let inodeNumber ← understandThePath env path.chars
  let (index, diskId) := inodeFindDiskIdAndIndexInDisk inodeNumber
  let bufferInode ← readINodes env diskId
  let x ← Prog.index bufferInode index
  let preBlockSize := (cInt x.stSize.toInt).tdiv 4096 + 1
  let nowBlockSize := (cInt size).tdiv 4096 + 1
  let rounds := (preBlockSize - nowBlockSize).toNat
  let x ←
    if preBlockSize = nowBlockSize then pure x
    else if nowBlockSize > preBlockSize then
      rankLoop (addNewEmptyBlockAccordingToRank env) rounds (nowBlockSize + 1) x
    else rankLoop (deleteNRankBlockOver env uncover) rounds (nowBlockSize + 1) x
  let bufferInode ← Prog.assign bufferInode index { x with stSize := BitVec.ofInt 64 size }
  writeINodes diskId bufferInode
  pure 0

end Over

/-- With the uncovering function of the source this is the loop of the source. -/
theorem uncoverLoopOver_eq {n : ℕ} (numbers : Fin n → BitVec 32) (count i : ℕ) :
    uncoverLoopOver (makeDataMapUncovered env) numbers count i =
      uncoverLoop env numbers count i := by
  induction count generalizing i with
  | zero => rfl
  | succ count ih => simp only [uncoverLoopOver, uncoverLoop, ih]

/-- The functions of the source are these, over the one they call. -/
theorem releaseOver_eq (x : INode) :
    releaseOver env (makeDataMapUncovered env) x = releaseFileDatabockByProvideInode env x := by
  simp only [releaseOver, releaseFileDatabockByProvideInode, uncoverLoopOver_eq]

/-- With the uncovering function of the source this is `fs_truncate`. -/
theorem fsTruncateOver_eq (path : CString) (size : ℤ) :
    fsTruncateOver env (makeDataMapUncovered env) path size = fsTruncate env path size := by
  have hstep : deleteNRankBlockOver env (makeDataMapUncovered env) = deleteNRankBlock env :=
    funext fun r => funext fun x => (deleteNRankBlock_eq env r x).symm
  rw [fsTruncateOver, fsTruncate, hstep]

/-! ### The numbers passed -/

/-- `make_data_map_uncovered`, noting the number it is called with. -/
def notedUncover (n : ℤ) : Fs Unit := Prog.note (.block n) (makeDataMapUncovered env n)

/-- The block numbers that a program notes, in order. -/
def passed {α : Type} (p : Fs α) (d : Disk) : List ℤ :=
  (p.notes vdisk d).filterMap fun x => match x.2 with
    | .block n => some n
    | .entry _ => none

/-- From every disk that differs from `d` in bits that are set, the program returns `a`, sets bits
and notes the numbers `ns`. -/
def Passes {α : Type} (d : Disk) (p : Fs α) (ns : List ℤ) (a : α) : Prop := ∀ s, MarkedFrom d s →
  ∃ t, p.run vdisk s = some (a, t) ∧ MarkedFrom d t ∧ passed p s = ns

/-- A program that notes nothing. -/
def Silent {α : Type} (p : Fs α) : Prop := p.Sat vdisk (fun _ _ => False) fun _ => True

/-- What is silent notes nothing. -/
theorem Silent.notes_eq_nil {α : Type} {p : Fs α} (h : Silent p) (d : Disk) :
    p.notes vdisk d = [] :=
  List.eq_nil_iff_forall_not_mem.mpr (h d).1

theorem passed_of_silent {α : Type} {p : Fs α} (h : Silent p) (d : Disk) : passed p d = [] := by
  rw [passed, h.notes_eq_nil]
  rfl

theorem silent_makeDataMapUncovered (n : ℤ) : Silent (makeDataMapUncovered env n) := by
  refine (readOnly_envRead env _).sat.bind fun buffer _ => ?_
  refine Prog.Sat.bind (Q := fun _ => True) ?_ fun _ _ =>
    Prog.sat_write (Prog.sat_pure True.intro)
  exact (Prog.readOnly_index _ _).sat.bind fun _ _ => (Prog.readOnly_index _ _).sat.bind fun _ _ =>
    Prog.sat_assign _ _ _

/-- What a sequence passes on, it passes on in this order. -/
theorem passed_bind {α β : Type} {p : Fs α} {f : α → Fs β} {d t : Disk} {a : α}
    (h : p.run vdisk d = some (a, t)) : passed (p >>= f) d = passed p d ++ passed (f a) t := by
  rw [passed, Prog.notes_bind, h, Option.map_some, Option.getD_some, List.filterMap_append]
  rfl

section Passes

variable {α β : Type} {d : Disk} {p : Fs α} {ns ms : List ℤ} {a : α}

/-- **Sequencing** appends what is passed on. -/
theorem Passes.bind {f : α → Fs β} {b : β} (hp : Passes d p ns a) (hf : Passes d (f a) ms b) :
    Passes d (p >>= f) (ns ++ ms) b := fun s hs => by
  obtain ⟨t, hrun, ht, hns⟩ := hp s hs
  obtain ⟨u, hrun', hu, hms⟩ := hf t ht
  exact ⟨u, by rw [Prog.run_bind_some vdisk hrun, hrun'], hu, by rw [passed_bind hrun, hns, hms]⟩

theorem passes_pure (a : α) : Passes d (pure a) [] a := fun s hs => ⟨s, rfl, hs, rfl⟩

/-- A part that only reads passes nothing on. -/
theorem passes_of_run (hread : p.ReadOnly) (h : ∀ s, MarkedFrom d s → p.run vdisk s = some (a, s)) :
    Passes d p [] a := fun s hs => ⟨s, h s hs, hs, passed_of_silent hread.sat s⟩

/-- A call of the uncovering function passes its number on. -/
theorem passes_notedUncover {b : ℕ} (hb : b < 65536) : Passes d (notedUncover env b) [(b : ℤ)] () :=
  fun s hs => by
    refine ⟨s.uncoverData b, run_makeDataMapUncovered env hb s,
      ⟨hs.sound, hs.marks.trans (Disk.marks_uncoverData hb)⟩, ?_⟩
    rw [notedUncover, passed, Prog.notes_note, (silent_makeDataMapUncovered env b).notes_eq_nil]
    rfl

/-- The numbers from element `i` of an array on. -/
theorem passes_uncoverLoop {n : ℕ} {numbers : Fin n → BitVec 32} {f : ℕ → ℕ}
    (hf : ∀ j (hj : j < n), (numbers ⟨j, hj⟩).toInt = f j) (hlt : ∀ j, f j < 65536) (count i : ℕ)
    (h : i + count ≤ n) : Passes d (uncoverLoopOver (notedUncover env) numbers count i)
      ((List.range' i count).map fun j => (f j : ℤ)) () := by
  induction count generalizing i with
  | zero => exact passes_pure ()
  | succ count ih =>
    have hi : i < n := by omega
    rw [uncoverLoopOver, Prog.index_natCast _ hi, Prog.ret_bind, hf i hi, List.range'_succ,
      List.map_cons]
    exact (passes_notedUncover env (hlt i)).bind (ih (i + 1) (by omega))

end Passes

/-! ### What is passed for a regular file -/

section File

variable {d : Disk} (hd : d.Sound) {i : ℕ} (hi : i < 32768)
include hd hi

/-- The elements of the index block, which is block 0. -/
theorem passes_indexed (k : Fin 2) {count : ℕ} (hcount : count ≤ 1024) : Passes d (do
    let members ← readInts env (datablockFindDiskId ((d.inode i).indirectPointer k).toInt)
    uncoverLoopOver (notedUncover env) members count 0)
      ((List.range' 0 count).map fun _ => ((0 : ℕ) : ℤ)) () := by
  have hnumber : (0 : BitVec 32).toInt = ((0 : ℕ) : ℤ) := rfl
  have hread : Passes d (readInts env (datablockFindDiskId ((0 : ℕ) : ℤ))) [] Block.zero.ints :=
    passes_of_run (readOnly_readInts env _) fun s hs => by
      rw [run_readInts env (by decide), hs.sound'.zero]
  rw [hd.pointers.indirect i hi, hnumber]
  exact hread.bind (passes_uncoverLoop env (fun j hj => by rw [Block.ints_zero]; rfl)
    (fun _ => by decide) count 0 (by omega))

/-- **The numbers that the release passes**: the blocks of `size / 4096 + 1` direct ranks, and from
12 ranks on zeros. -/
theorem passes_release (hfile : ¬ d.IsDir i) :
    Passes d (releaseOver env (notedUncover env) (d.inode i))
      ((List.range' 0 (min 12 ((d.inode i).stSize.toNat / 4096 + 1))).map
          (fun r => ((d.inode i).ptr r : ℤ)) ++
        (List.range' 0 ((d.inode i).stSize.toNat / 4096 + 1 - 11)).map
          fun _ => ((0 : ℕ) : ℤ)) () := by
  have hsize := hd.directories.file i hi hfile
  have hptr := hd.pointers.lt i hi
  have hamount : cInt ((d.inode i).stSize.toInt.tdiv 4096 + 1) =
      (((d.inode i).stSize.toNat / 4096 + 1 : ℕ) : ℤ) := by
    have hsucc : (((d.inode i).stSize.toNat / 4096 : ℕ) : ℤ) + 1 =
        (((d.inode i).stSize.toNat / 4096 + 1 : ℕ) : ℤ) := rfl
    rw [toInt_eq_natCast_long (by omega), natCast_tdiv_ofNat, hsucc, cInt_natCast (by omega)]
  set q := (d.inode i).stSize.toNat / 4096 with hq
  -- the two loops' bounds
  have hdirect : (getMin 12 ((q + 1 : ℕ) : ℤ)).toNat = min 12 (q + 1) := by
    unfold getMin
    split <;> omega
  have hindirect : (getMin 1024 (((q + 1 : ℕ) : ℤ) - 11)).toNat = q + 1 - 11 := by
    unfold getMin
    split <;> omega
  rw [releaseOver]
  simp only [hamount, hdirect, hindirect]
  refine (passes_uncoverLoop env (fun r hr => INode.toInt_directPointer hr (hptr r))
    (fun r => (hptr r).trans (by decide)) (min 12 (q + 1)) 0 (by omega)).bind ?_
  rw [if_neg (show ¬ ((q + 1 : ℕ) : ℤ) > 11 + 1024 by omega)]
  by_cases h11 : ((q + 1 : ℕ) : ℤ) > 11
  · rw [if_pos h11, ← Prog.bind_assoc, ← List.append_nil (List.map _ (List.range' 0 (q + 1 - 11)))]
    exact (passes_indexed env hd hi 0 (by omega)).bind (passes_pure ())
  · have hnone : q + 1 - 11 = 0 := by omega
    rw [if_neg h11, hnone]
    exact passes_pure ()

/-- The number at a rank, with block 0 as the index block. -/
theorem run_releasedAtRank_zero {r : ℕ} (hr : r < 1036) {s : Disk} (hs : MarkedFrom d s) :
    (releasedAtRank env r (d.inode i)).run vdisk s = some (((d.inode i).ptr r : ℤ), s) := by
  rw [releasedAtRank]
  by_cases h12 : r < 12
  · rw [if_pos (by omega), INode.index_directPointer h12, Prog.ret_bind,
      INode.toInt_directPointer h12 (hd.pointers.lt i hi r)]
    rfl
  · have hindex : (r : ℤ).tdiv (12 + 1024) = ((0 : ℕ) : ℤ) :=
      Int.tdiv_eq_zero_of_lt (by omega) (by omega)
    have htransfer : (r : ℤ) - 12 - 1024 * ((0 : ℕ) : ℤ) = ((r - 12 : ℕ) : ℤ) := by omega
    have hnumber : (0 : BitVec 32).toInt = ((0 : ℕ) : ℤ) := rfl
    rw [if_neg (by omega)]
    simp only [hindex, htransfer]
    rw [Prog.index_natCast _ (by decide), Prog.ret_bind, hd.pointers.indirect i hi, hnumber,
      Prog.run_bind_some _ (run_readInts env (by decide) s), hs.sound'.zero,
      Prog.index_natCast _ (show r - 12 < 1024 by omega), Prog.ret_bind, Block.ints_zero, hnumber,
      INode.ptr, dif_neg h12]
    rfl

/-- **The numbers that the shrinking loop passes**. -/
theorem passes_shrink (rounds r : ℕ) (hr : r + rounds ≤ 1036) :
    Passes d (rankLoop (deleteNRankBlockOver env (notedUncover env)) rounds r (d.inode i))
      ((List.range' r rounds).map fun r => ((d.inode i).ptr r : ℤ)) (d.inode i) := by
  induction rounds generalizing r with
  | zero => exact passes_pure _
  | succ rounds ih =>
    have hlt := hd.pointers.lt i hi r
    have hread : Passes d (releasedAtRank env r (d.inode i)) [] ((d.inode i).ptr r : ℤ) :=
      passes_of_run (readOnly_releasedAtRank env _ _) fun s hs =>
        run_releasedAtRank_zero env hd hi (by omega) hs
    have hround : Passes d (deleteNRankBlockOver env (notedUncover env) r (d.inode i))
        [((d.inode i).ptr r : ℤ)] (d.inode i) := by
      rw [deleteNRankBlockOver]
      exact hread.bind ((passes_notedUncover env (by omega)).bind (passes_pure (d.inode i)))
    rw [rankLoop, List.range'_succ, List.map_cons]
    exact hround.bind (ih (r + 1) (by omega))

/-- **What `fs_truncate` passes on**: the blocks of the ranks that it cuts off. -/
theorem passed_fsTruncate (hfile : ¬ d.IsDir i) {as : List Name}
    (hresolve : d.graph.resolve 4 (fileNames as) = some i) (behind : ℕ → Byte) {m : ℕ}
    (hm : m < (d.inode i).stSize.toNat) :
    passed (fsTruncateOver env (notedUncover env) (pathString as behind) m) d =
      (List.range' (m / 4096 + 2) ((d.inode i).stSize.toNat / 4096 - m / 4096)).map
        fun r => ((d.inode i).ptr r : ℤ) := by
  have hsize := hd.directories.file i hi hfile
  have hblock : 4 + i / 32 < 65536 := by omega
  have hindex : i % 32 < 32 := by omega
  have hpath : (pathString as behind).chars = pathChars as := rfl
  have hx : Prog.index (d (4 + i / 32)).inodes ((i % 32 : ℕ) : ℤ) =
      (.ret (d.inode i) : Fs INode) := Prog.index_natCast _ hindex
  have hpre := (d.inode i).blocks_eq (show (d.inode i).stSize.toNat < 2 ^ 31 by omega)
  have hnow := blocks_eq (show m < 2 ^ 31 by omega)
  have hrounds : ((((d.inode i).stSize.toNat / 4096 : ℕ) : ℤ) + 1 -
      (((m / 4096 : ℕ) : ℤ) + 1)).toNat = (d.inode i).stSize.toNat / 4096 - m / 4096 := by omega
  have hfirst : ((m / 4096 : ℕ) : ℤ) + 1 + 1 = ((m / 4096 + 2 : ℕ) : ℤ) := by omega
  -- what follows the loop notes nothing
  have hrest (x : INode) : Silent (do
      let bufferInode ← Prog.assign (d (4 + i / 32)).inodes ((i % 32 : ℕ) : ℤ)
        { x with stSize := BitVec.ofInt 64 m }
      writeINodes ((4 + i / 32 : ℕ) : ℤ) bufferInode
      pure (0 : ℤ)) := (Prog.sat_assign _ _ _).bind fun _ _ =>
    Prog.sat_write (Prog.sat_pure True.intro)
  have hloop {p : Fs INode} {ns : List ℤ} (hp : Passes d p ns (d.inode i)) :
      passed (p >>= fun x => do
        let bufferInode ← Prog.assign (d (4 + i / 32)).inodes ((i % 32 : ℕ) : ℤ)
          { x with stSize := BitVec.ofInt 64 m }
        writeINodes ((4 + i / 32 : ℕ) : ℤ) bufferInode
        pure (0 : ℤ)) d = ns := by
    obtain ⟨t, hrun, -, hns⟩ := hp d (.refl hd)
    rw [passed_bind hrun, hns, passed_of_silent (hrest _), List.append_nil]
  rw [fsTruncateOver, hpath, passed_bind (hd.walkable.run_understandThePath env hresolve),
    passed_of_silent (readOnly_understandThePath env _).sat, List.nil_append]
  simp only [inodeFindDiskIdAndIndexInDisk_natCast]
  rw [passed_bind (run_readINodes env hblock d), passed_of_silent (readOnly_readINodes env _).sat,
    List.nil_append, hx, Prog.ret_bind]
  simp only [hpre, hnow, hrounds, hfirst]
  split
  · next heq =>
    have hnone : (d.inode i).stSize.toNat / 4096 - m / 4096 = 0 := by omega
    rw [hnone]
    exact hloop (passes_pure _)
  · rw [if_neg (by omega)]
    exact hloop (passes_shrink env hd hi _ _ (by omega))

end File

/-! ### The dropped blocks -/

/-- The number of blocks that `n` bytes take. -/
def blockCount (n : ℕ) : ℕ := (n + 4095) / 4096

/-- The index blocks of an inode. -/
def INode.indexBlocks (x : INode) : List ℤ :=
  [(x.indirectPointer 0).toInt, (x.indirectPointer 1).toInt].filter (· ≠ 0)

namespace Disk

variable (d : Disk)

/-- The blocks of an inode at the ranks from `lo` on and before `hi`; holes have none. -/
def blocksBetween (x : INode) (lo hi : ℕ) : List ℤ :=
  ((List.range' lo (hi - lo)).map (d.releasedNumber x)).filter (· ≠ 0)

/-- The numbers passed for inode `i` are the ones of `dropped`, each once, and neither reserved ones
nor ones of another inode. -/
structure Drops (i : ℕ) (ns dropped : List ℤ) : Prop where
  exact : ns.Perm dropped
  once : ns.Nodup
  reserved : ∀ b ∈ ns, 4 ≤ b
  own : ∀ b ∈ ns, ∀ j < 32768, j ≠ i → ∀ r, d.releasedNumber (d.inode j) r ≠ b

/-- The release of inode `i` passes its blocks and its index blocks. -/
def ReleasesExactly (i : ℕ) : Prop :=
  d.Drops i (passed (releaseOver env (notedUncover env) (d.inode i)) d)
    (d.blocksBetween (d.inode i) 0 (blockCount (d.inode i).stSize.toNat) ++
      if 12 * 4096 < (d.inode i).stSize.toNat then (d.inode i).indexBlocks else [])

/-- The truncation of inode `i` to `m` bytes passes the blocks behind the new end. -/
def TruncatesExactly (path : CString) (i m : ℕ) : Prop :=
  d.Drops i (passed (fsTruncateOver env (notedUncover env) path m) d)
    (d.blocksBetween (d.inode i) (blockCount m) (blockCount (d.inode i).stSize.toNat))

variable {d} {i : ℕ}

/-- On a sound disk no block is found but those of direct ranks. -/
theorem Sound.releasedNumber_eq (hd : d.Sound) (hi : i < 32768) (r : ℕ) :
    d.releasedNumber (d.inode i) r = ((d.inode i).ptr r : ℤ) := by
  rw [releasedNumber]
  by_cases h12 : r < 12
  · rw [dif_pos h12, INode.toInt_directPointer h12 (hd.pointers.lt i hi r)]
  · have hblock : (0 : BitVec 32).toNat = 0 := rfl
    rw [dif_neg h12, indexElement, INode.indexBlock, hd.pointers.indirect i hi, hblock, hd.zero,
      Block.ints_zero, INode.ptr, dif_neg h12]
    rfl

/-- The mounted blocks of some ranks, from the pointers of the record. -/
theorem Sound.blocksBetween_eq (hd : d.Sound) (hi : i < 32768) (lo hi' : ℕ) :
    d.blocksBetween (d.inode i) lo hi' =
      ((List.range' lo (hi' - lo)).map fun r => ((d.inode i).ptr r : ℤ)).filter (· ≠ 0) := by
  rw [blocksBetween]
  congr 2
  exact funext (hd.releasedNumber_eq hi)

/-- The blocks at ranks that all have one. -/
theorem Sound.drops_ptr (hd : d.Sound) (hi : i < 32768) {lo count : ℕ}
    (hmounted : ∀ r, lo ≤ r → r < lo + count → 4 ≤ (d.inode i).ptr r) :
    d.Drops i ((List.range' lo count).map fun r => ((d.inode i).ptr r : ℤ))
      ((List.range' lo count).map fun r => ((d.inode i).ptr r : ℤ)) where
  exact := .refl _
  once := by
    refine List.Nodup.map_on (fun r hr s hs heq => ?_) List.nodup_range'
    obtain ⟨hr, hr'⟩ := List.mem_range'_1.mp hr
    have h4 := hmounted r hr hr'
    exact (hd.pointers.inj i hi i hi r s (by omega) (Int.ofNat.inj heq)).2
  reserved b hb := by
    obtain ⟨r, hr, rfl⟩ := List.mem_map.mp hb
    obtain ⟨hr, hr'⟩ := List.mem_range'_1.mp hr
    exact_mod_cast hmounted r hr hr'
  own b hb j hj hji s heq := by
    obtain ⟨r, hr, rfl⟩ := List.mem_map.mp hb
    obtain ⟨hr, hr'⟩ := List.mem_range'_1.mp hr
    have h4 := hmounted r hr hr'
    rw [hd.releasedNumber_eq hj] at heq
    exact hji (hd.pointers.inj i hi j hj r s (by omega) (Int.ofNat.inj heq).symm).1.symm

end Disk

/-! ### Exactly when these are released -/

section Exact

variable {d : Disk} (hd : d.Sound) {i : ℕ} (hfile : d.IsFile i)
include hd hfile

/-- **Removal releases a file's blocks exactly** where it ends within a block, has at most eleven of
them, and all are mounted. -/
theorem releasesExactly_iff : d.ReleasesExactly env i ↔ (d.inode i).stSize.toNat % 4096 ≠ 0 ∧
    (d.inode i).stSize.toNat < 45056 ∧
    ∀ r < blockCount (d.inode i).stSize.toNat, 4 ≤ (d.inode i).ptr r := by
  have hi := hfile.lt
  obtain ⟨-, -, -, hpassed⟩ := passes_release env hd hi hfile.not_isDir d (.refl hd)
  rw [Disk.ReleasesExactly, hpassed, hd.blocksBetween_eq hi, Nat.sub_zero]
  set n := (d.inode i).stSize.toNat with hn
  constructor
  · intro h
    -- a twelfth rank brings an element of block 0
    have hsmall : n < 45056 := by
      by_contra hlarge
      have hzero := h.reserved ((0 : ℕ) : ℤ) (List.mem_append_right _ (List.mem_map.mpr
        ⟨0, List.mem_range'_1.mpr ⟨le_rfl, by omega⟩, rfl⟩))
      exact absurd hzero (by decide)
    have hdirect : min 12 (n / 4096 + 1) = n / 4096 + 1 := by omega
    have hnone : n / 4096 + 1 - 11 = 0 := by omega
    rw [hdirect, hnone, List.range'_zero, List.map_nil, List.append_nil,
      if_neg (show ¬ 12 * 4096 < n by omega), List.append_nil] at h
    have hlength := h.exact.length_eq
    have hfilter := List.length_filter_le (fun b : ℤ => decide (b ≠ 0))
      ((List.range' 0 (blockCount n)).map fun r => ((d.inode i).ptr r : ℤ))
    rw [List.length_map, List.length_range'] at hlength hfilter
    unfold blockCount at hfilter hlength ⊢
    refine ⟨by omega, hsmall, fun r hr => ?_⟩
    exact_mod_cast h.reserved _
      (List.mem_map.mpr ⟨r, List.mem_range'_1.mpr ⟨by omega, by omega⟩, rfl⟩)
  · rintro ⟨hmod, hsmall, hmounted⟩
    have hdirect : min 12 (n / 4096 + 1) = blockCount n := by
      unfold blockCount
      omega
    have hnone : n / 4096 + 1 - 11 = 0 := by omega
    have hall : (((List.range' 0 (blockCount n)).map fun r => ((d.inode i).ptr r : ℤ)).filter
        (· ≠ 0)) = (List.range' 0 (blockCount n)).map fun r => ((d.inode i).ptr r : ℤ) := by
      refine List.filter_eq_self.mpr fun b hb => ?_
      obtain ⟨r, hr, rfl⟩ := List.mem_map.mp hb
      have h4 := hmounted r (by have := List.mem_range'_1.mp hr; omega)
      exact decide_eq_true (by omega)
    rw [hdirect, hnone, List.range'_zero, List.map_nil, List.append_nil,
      if_neg (show ¬ 12 * 4096 < n by omega), List.append_nil, hall]
    exact hd.drops_ptr hi fun r _ hr => hmounted r (by omega)

/-- **Truncation releases what it cuts off exactly** where that is no block: the new end is in the
block of the old one, and not at its start if there is a block. -/
theorem truncatesExactly_iff {as : List Name}
    (hresolve : d.graph.resolve 4 (fileNames as) = some i) (behind : ℕ → Byte) {m : ℕ}
    (hm : m < (d.inode i).stSize.toNat) : d.TruncatesExactly env (pathString as behind) i m ↔
      m / 4096 = (d.inode i).stSize.toNat / 4096 ∧
        (m % 4096 ≠ 0 ∨ (d.inode i).ptr (m / 4096) = 0) := by
  have hi := hfile.lt
  rw [Disk.TruncatesExactly, passed_fsTruncate env hd hi hfile.not_isDir hresolve behind hm,
    hd.blocksBetween_eq hi]
  set n := (d.inode i).stSize.toNat with hn
  constructor
  · intro h
    -- the last rank passed is behind the end
    have hsame : m / 4096 = n / 4096 := by
      by_contra hne
      have hlast : ((d.inode i).ptr (n / 4096 + 1) : ℤ) ∈
          (List.range' (m / 4096 + 2) (n / 4096 - m / 4096)).map
            fun r => ((d.inode i).ptr r : ℤ) :=
        List.mem_map.mpr ⟨n / 4096 + 1, List.mem_range'_1.mpr ⟨by omega, by omega⟩, rfl⟩
      have h4 := h.reserved _ hlast
      obtain ⟨r, hr, heq⟩ := List.mem_map.mp (List.mem_filter.mp (h.exact.mem_iff.mp hlast)).1
      have hrange := List.mem_range'_1.mp hr
      have hrank := (hd.pointers.inj i hi i hi r (n / 4096 + 1) (by omega) (Int.ofNat.inj heq)).2
      unfold blockCount at hrange
      omega
    refine ⟨hsame, or_iff_not_imp_left.mpr fun hmod => ?_⟩
    have hnone : n / 4096 - m / 4096 = 0 := by omega
    rw [hnone, List.range'_zero, List.map_nil] at h
    have hdropped := List.filter_eq_nil_iff.mp h.exact.nil_eq.symm _ (List.mem_map.mpr
      ⟨m / 4096, List.mem_range'_1.mpr ⟨by unfold blockCount; omega, by unfold blockCount; omega⟩,
        rfl⟩)
    simpa using hdropped
  · rintro ⟨hsame, hlast⟩
    have hnone : n / 4096 - m / 4096 = 0 := by omega
    have hdropped : ((List.range' (blockCount m) (blockCount n - blockCount m)).map
        fun r => ((d.inode i).ptr r : ℤ)).filter (· ≠ 0) = [] := by
      refine List.filter_eq_nil_iff.mpr fun b hb => ?_
      obtain ⟨r, hr, rfl⟩ := List.mem_map.mp hb
      have hrange := List.mem_range'_1.mp hr
      have hrank : r = m / 4096 ∧ m % 4096 = 0 := by
        unfold blockCount at hrange
        omega
      rw [hrank.1, hlast.resolve_left (not_not_intro hrank.2)]
      simp
    rw [hnone, hdropped]
    exact ⟨.refl _, List.nodup_nil, fun b hb => (List.not_mem_nil hb).elim,
      fun b hb => (List.not_mem_nil hb).elim⟩

end Exact

/-- **The dropped blocks are released** when a regular file of `n` bytes is removed exactly if `n`
is no multiple of the block size, less than 11 blocks, and every block below the end is mounted; and
when the file is cut to `m` bytes exactly if `m` lies in the same block and is not its start, or the
file has no block there. -/
theorem releases_exact_iff {d : Disk} (hd : d.Sound) {as : List Name} {i : ℕ}
    (hi : d.graph.resolve 4 (fileNames as) = some i) (hfile : d.IsFile i) (behind : ℕ → Byte) :
    (d.ReleasesExactly env i ↔ (d.inode i).stSize.toNat % 4096 ≠ 0 ∧
      (d.inode i).stSize.toNat < 11 * 4096 ∧
      ∀ r < blockCount (d.inode i).stSize.toNat, 4 ≤ (d.inode i).ptr r) ∧
    ∀ m < (d.inode i).stSize.toNat, (d.TruncatesExactly env (pathString as behind) i m ↔
      m / 4096 = (d.inode i).stSize.toNat / 4096 ∧
        (m % 4096 ≠ 0 ∨ (d.inode i).ptr (m / 4096) = 0)) :=
  ⟨releasesExactly_iff env hd hfile, fun _ hm => truncatesExactly_iff env hd hfile hi behind hm⟩

/-- A file of three bytes in one block: removed, and cut to one byte. -/
theorem releases_exact_three_bytes : ∃ d i, SafeRun d ∧
    d.graph.resolve 4 (fileNames [nthName 0]) = some i ∧ (d.inode i).stSize.toNat = 3 ∧
    4 ≤ (d.inode i).ptr 0 ∧ d.ReleasesExactly plainEnv i ∧
    d.TruncatesExactly plainEnv (pathString [nthName 0] plainMemory) i 1 := by
  obtain ⟨d, i, hrun, hi, hfile, hsize, -, hmounted, -⟩ := exists_safeRun_three
  obtain ⟨hremoved, hcut⟩ := releases_exact_iff plainEnv hrun.sound hi hfile plainMemory
  refine ⟨d, i, hrun, hi, hsize, hmounted, hremoved.mpr ⟨by omega, by omega, fun r hr => ?_⟩,
    (hcut 1 (by omega)).mpr ⟨by omega, .inl (by decide)⟩⟩
  rw [hsize] at hr
  obtain rfl : r = 0 := by
    unfold blockCount at hr
    omega
  exact hmounted

/-- The release of an empty file passes the reserved block 0, and the cut of a file of three bytes
to nothing passes no block. -/
theorem not_releases_exact : (∃ d i, SafeRun d ∧
    d.graph.resolve 4 (fileNames [nthName 0]) = some i ∧ (d.inode i).stSize.toNat = 0 ∧
    ¬ d.ReleasesExactly plainEnv i) ∧
    ∃ d i, SafeRun d ∧ d.graph.resolve 4 (fileNames [nthName 0]) = some i ∧
      (d.inode i).stSize.toNat = 3 ∧
      ¬ d.TruncatesExactly plainEnv (pathString [nthName 0] plainMemory) i 0 := by
  refine ⟨?_, ?_⟩
  · obtain ⟨d, hrun, -, number, hnumber, -⟩ := exists_safeRun_files 1 (by decide)
    obtain ⟨hi, hfile, hsize, -⟩ := hnumber 0 Nat.one_pos
    have hempty : (d.inode (number 0)).stSize.toNat = 0 := by rw [hsize]; rfl
    refine ⟨d, number 0, hrun, hi, hempty, fun h => ?_⟩
    exact ((releasesExactly_iff plainEnv hrun.sound hfile).mp h).1 (by rw [hempty])
  · obtain ⟨d, i, hrun, hi, hfile, hsize, hbyte, -⟩ := exists_safeRun_three
    refine ⟨d, i, hrun, hi, hsize, fun h => ?_⟩
    have hptr := ((truncatesExactly_iff plainEnv hrun.sound hfile hi plainMemory (by omega)).mp
      h).2.resolve_left (by decide)
    -- its second byte is in a block of its own, not in the zero block
    have hzero : d.byteAt i 1 = 0 := by
      rw [Disk.byteAt, Disk.blockAt, hptr, hrun.sound.zero]
      rfl
    rw [hzero] at hbyte
    exact absurd hbyte (by decide)

end InodeFs
