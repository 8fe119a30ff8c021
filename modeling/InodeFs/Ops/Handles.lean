import InodeFs.Code.Handles
import InodeFs.State.Steps

/-!
# Executing the operations on times and handles

`fs_utime` replaces one record by one with another `ctime`, which no part of the invariant looks
at; the other callbacks of this group leave the disk alone.

The record that `fs_utime` writes is `INode.touched`. It has the same blocks and the same size
(`INode.sameBlocks_touched`), so that the replacement of a record of this kind, which is sound for
files and directories alike (`Sound.setInode`), is all there is to say of it. `fs_open` reads the
record of an inode that a path leads to, and drops it.
-/

namespace InodeFs

variable (env : Env)

/-- The record after `fs_utime`. -/
def INode.touched (x : INode) : INode := { x with ctime := env.time 0 }

theorem INode.sameBlocks_touched (x : INode) : x.SameBlocks (x.touched env) :=
  ⟨rfl, fun _ => rfl, rfl⟩

@[simp] theorem INode.stSize_touched (x : INode) : (x.touched env).stSize = x.stSize := rfl

namespace Disk

variable {env} {d : Disk} {as : List Name} {i : ℕ}

/-- `fs_utime` on a path that is found. -/
theorem Walkable.run_fsUtime (env : Env) (hd : d.Walkable)
    (h : d.graph.resolve 4 (as.map Name.fileName) = some i) (behind : ℕ → Byte) :
    (fsUtime env (pathString as behind)).run vdisk d =
      some ((0, ⟨(d.inode i).atime, env.time 0⟩), d.setInode i ((d.inode i).touched env)) := by
  have hi := hd.resolve_lt (by decide) h
  have hblock : 4 + i / 32 < 65536 := by omega
  have hindex : i % 32 < 32 := by omega
  have hx : Prog.index (d (4 + i / 32)).inodes ((i % 32 : ℕ) : ℤ) =
      (.ret (d.inode i) : Fs INode) := Prog.index_natCast _ hindex
  rw [fsUtime, pathString, Prog.run_bind_some _ (hd.run_understandThePath env h)]
  simp only [inodeFindDiskIdAndIndexInDisk_natCast]
  rw [Prog.run_bind_some _ (run_readINodes env hblock d), hx, Prog.ret_bind,
    Prog.assign_natCast _ hindex, Prog.ret_bind, Prog.run_bind_some _ (run_writeINodes hblock _ d)]
  rfl

/-- `fs_open` on a path that is found. -/
theorem Walkable.run_fsOpen (env : Env) (hd : d.Walkable)
    (h : d.graph.resolve 4 (as.map Name.fileName) = some i) (behind : ℕ → Byte) :
    (fsOpen env (pathString as behind)).run vdisk d = some (0, d) := by
  have hi := hd.resolve_lt (by decide) h
  rw [fsOpen, pathString, Prog.run_bind_some _ (hd.run_understandThePath env h),
    Prog.run_bind_some _ (run_justReadInodeFromDisk env hi d)]
  rfl

/-- A record replaced by one with the same blocks and the same size. -/
theorem graph_setInode {x : INode} (hi : i < 32768) (hx : (d.inode i).SameBlocks x)
    (hsize : x.stSize = (d.inode i).stSize) : (d.setInode i x).graph = d.graph := by
  funext p
  by_cases hp : p = i
  · subst hp
    refine graph_congr (isDir_replace (fun j _ => inode_setInode ..) hx) fun _ => ?_
    rw [inode_setInode_self]
    exact entriesOf_eq_of_blocks (by rw [INode.count, hsize, INode.count])
      (fun r _ => hx.ptr r) fun r _ => data_setInode hi _ _
  · exact graph_eq_of_ne (fun j _ hj => inode_setInode_of_ne hj x)
      (fun _ _ _ => data_setInode hi _ _) hp

/-- A record may be replaced by one of the same size and blocks. -/
theorem Sound.setInode {x : INode} (h : d.Sound) (hi : i < 32768) (hx : (d.inode i).SameBlocks x)
    (hsize : x.stSize = (d.inode i).stSize) : (d.setInode i x).Sound := by
  have himap (j : ℕ) (_ : j < 32768) (hset : d.imap j = true) :
      (d.setInode i x).imap j = true := by rwa [imap_setInode]
  have hinode (j : ℕ) (_ : j < 32768) : (d.setInode i x).inode j = if j = i then x else d.inode j :=
    inode_setInode ..
  have hcount : x.count = (d.inode i).count := by rw [INode.count, hsize, INode.count]
  refine ⟨h.pointers.replace hinode hx himap fun b _ hb => by rwa [dmap_setInode],
    h.directories.replace hinode hx himap (fun hdir => ?_) (fun hnot => ?_)
      (h.directories.graph.congr (graph_setInode hi hx hsize) himap), ?_⟩
  · have hok := h.directories.dir i hdir
    refine ⟨himap i hi hok.marked, ?_, ?_, fun r hr => ?_⟩
    all_goals rw [inode_setInode_self]
    · rw [hsize, hcount, hok.size_eq]
    · rw [hcount]
      exact hok.count_le
    · rw [hx.ptr]
      refine hok.block r ?_
      rwa [inode_setInode_self, hcount] at hr
  · rw [hsize]
    exact h.directories.file i hi hnot
  · rw [data_setInode hi]
    exact h.zero

/-- The times of a record do not matter for soundness. -/
theorem Sound.touched (env : Env) (h : d.Sound) (hi : i < 32768) :
    (d.setInode i ((d.inode i).touched env)).Sound :=
  h.setInode hi (INode.sameBlocks_touched env _) rfl

end Disk

end InodeFs
