import InodeFs.State.Format
import InodeFs.Ops.Resolve

/-!
# What formatting leaves

`disk_init` and `mkfs` leave the empty file system exactly when the 27 bytes behind the buffer
of `initial_datablock_map` are zero, since `disk_write` stores them in both blocks of the data
map. A lookup in it answers `-ENOENT` exactly for the paths of one component that fits into
`son_name`: on every deeper path the `-ENOENT` of the first component is used as an inode
number.

`mkfs` writes the buffer of `initial_datablock_map`, which is short of a block by 27 bytes; what is
behind it in memory is `behind` here, and any 27 bytes are possible. They end up at the end of both
blocks of the data map, where they mark blocks that do not exist or hide free ones. `EmptyFs` says
what a formatted disk should be like, without the bytes; the inode of the root is 4, and the first
file made gets inode 0.

The lookup half is about the loop of `understand_the_path`, which does not stop at an error. The
`-ENOENT` of a component in the middle, the number -2, is used as the number of a directory to
search, and the table of inodes has no record for it.
-/

namespace InodeFs

namespace Disk

/-- **The empty file system**: the maps mark the root's inode and the reserved blocks and
nothing else, the root is an empty directory without pointers, everything else is zero, and the
allocators start at inode 0 and data block 4. -/
structure EmptyFs (env : Env) (d : Disk) : Prop where
  imap : ∀ i < 32768, d.imap i = true ↔ i = 4
  dmap : ∀ b < 65536, d.dmap b = true ↔ b < 4
  root : (d.inode 4).stMode = dirMode ∧ (d.inode 4).stSize = 0 ∧
    (∀ r, (d.inode 4).directPointer r = 0) ∧ ∀ k, (d.inode 4).indirectPointer k = 0
  inode : ∀ i < 32768, i ≠ 4 → d.inode i = INode.cleared
  data : ∀ b < 64508, d.data b = Block.zero
  firstInode : (findEmptyInode env).run vdisk d = some (0, d)
  firstBlock : (findEmptyDatablock env).run vdisk d = some (4, d)

variable (env : Env) {behind : Fin 27 → Byte}

theorem emptyFs_initial (hbehind : ∀ k, behind k = 0) : (initial env behind).EmptyFs env where
  imap i hi := by rw [imap_initial env behind hi, decide_eq_true_eq]
  dmap b hb := by rw [dmap_initial_of_zero env hbehind hb, decide_eq_true_eq]
  root := by
    rw [inode_initial, if_pos rfl]
    exact ⟨rfl, rfl, fun _ => rfl, fun _ => rfl⟩
  inode i _ hne := by rw [inode_initial, if_neg hne]
  data b _ := data_initial env behind b
  firstInode := by
    rw [run_findEmptyInode, nextInode_initial]
    rfl
  firstBlock := by
    rw [run_findEmptyDatablock, nextData_initial]
    rfl

/-- The data map holds the bytes behind the short buffer. -/
theorem EmptyFs.behind_eq_zero (h : (initial env behind).EmptyFs env) (k : Fin 27) :
    behind k = 0 := by
  have hk := k.isLt
  refine BitVec.eq_of_getLsbD_eq fun j hj => ?_
  have hmap := h.dmap (32768 + 8 * (4069 + k.val) + (7 - j)) (by omega)
  rw [dmap_initial_behind env behind k hj] at hmap
  have hclear : (behind k).getLsbD j = false := by
    by_contra hset
    have hlt := hmap.mp (by simpa using hset)
    omega
  rw [hclear]
  exact BitVec.getLsbD_zero.symm

theorem entriesOf_initial_root :
    (initial env behind).entriesOf ((initial env behind).inode 4) = [] := by
  rw [entriesOf, count_initial]
  rfl

/-- A lookup on the formatted disk. -/
theorem run_understandThePath_initial {rest : List Byte} (hrest : rest ≠ []) :
    (understandThePath env (slash :: rest)).run vdisk (initial env behind) =
      if slash ∉ rest ∧ rest.length ≤ 30 then some (negENOENT, initial env behind) else none := by
  have hwalkable := (sound_initial env behind).walkable
  have hroot : (initial env behind).IsDir 4 := (isDir_initial env behind).mpr rfl
  obtain ⟨b, tail, rfl, hslash, htail⟩ := exists_component rest
  have hresolve : (initial env behind).graph.resolve 4 (List.map Name.fileName []) = some 4 := rfl
  have hpath := hwalkable.run_understandThePath_via env hresolve (b ++ tail)
  rw [joinNames_nil, List.nil_append] at hpath
  rw [hpath, hwalkable.run_understandLoop_missing env hroot hrest hslash htail
    (by rw [entriesOf_initial_root]; exact fun e he => absurd he List.not_mem_nil), count_initial]
  rcases htail with rfl | ⟨r, rfl⟩
  · have hmem : slash ∉ b := fun h => hslash _ h rfl
    simp [hmem]
  · simp

end Disk

/-- **What formatting leaves**: for all bytes behind the short buffer and every path but the
root's, the file system is the empty one and the lookup of the path fails with `-ENOENT`,
exactly if those bytes are zero and the path is one component of at most 30 characters. -/
theorem format_empty_iff (env : Env) (behind : Fin 27 → Byte) (rest : List Byte)
    (hrest : rest ≠ []) :
    (∃ d, (mkfs env behind).run vdisk zeroDisk = some (0, d) ∧ d.EmptyFs env ∧
        (understandThePath env (slash :: rest)).run vdisk d = some (negENOENT, d)) ↔
      (∀ k, behind k = 0) ∧ slash ∉ rest ∧ rest.length ≤ 30 := by
  constructor
  · rintro ⟨d, hrun, hempty, hlookup⟩
    rw [Disk.run_mkfs_zeroDisk] at hrun
    cases hrun
    rw [Disk.run_understandThePath_initial env hrest, Option.ite_none_right_eq_some] at hlookup
    exact ⟨hempty.behind_eq_zero env, hlookup.1⟩
  · rintro ⟨hbehind, hpath⟩
    exact ⟨_, Disk.run_mkfs_zeroDisk env behind, Disk.emptyFs_initial env hbehind,
      (Disk.run_understandThePath_initial env hrest).trans (if_pos hpath)⟩

theorem format_empty_iff_letter :
    ∃ d, (mkfs plainEnv fun _ => 0).run vdisk zeroDisk = some (0, d) ∧ d.EmptyFs plainEnv ∧
      (understandThePath plainEnv [slash, 97]).run vdisk d = some (negENOENT, d) :=
  (format_empty_iff plainEnv (fun _ => 0) [97] (by decide)).mpr
    ⟨fun _ => rfl, by decide, by decide⟩

/-- With a byte other than zero behind the buffer, and on the path `/a/b`. -/
theorem not_format_empty :
    (¬ ∃ d, (mkfs plainEnv fun _ => 1).run vdisk zeroDisk = some (0, d) ∧ d.EmptyFs plainEnv) ∧
    ∃ d, (mkfs plainEnv fun _ => 0).run vdisk zeroDisk = some (0, d) ∧ d.EmptyFs plainEnv ∧
      (understandThePath plainEnv [slash, 97, slash, 98]).run vdisk d = none := by
  constructor
  · rintro ⟨d, hrun, hempty⟩
    rw [Disk.run_mkfs_zeroDisk] at hrun
    cases hrun
    exact absurd (hempty.behind_eq_zero plainEnv 0) (by decide)
  · exact ⟨_, Disk.run_mkfs_zeroDisk _ _, Disk.emptyFs_initial _ fun _ => rfl,
      (Disk.run_understandThePath_initial _ (by decide)).trans (if_neg (by decide))⟩

end InodeFs
