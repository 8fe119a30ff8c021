import InodeFs.Properties.Runs

/-!
# What a reader sees

`ReadsAs` says how `fs_read` answers every request within some positions of a file; on a sound
disk it is what `Disk.byteAt` shows (`Disk.Sound.readsAs`). Directories are seen through
`fs_readdir`, whose answer depends on the naming graph alone (`Disk.Sound.run_fsReaddir_congr`).

`ReadsAs` quantifies over all requests, so that it determines the bytes (`ReadsAs.unique`) and is
what other properties of contents are stated with: a write or a truncation is compared with what a
reader was shown before. A reader's answer depends on the path, on the record's pointers and on the
blocks they name. For the direct ranks nothing else of the invariant is needed
(`Disk.Walkable.readsAs_direct`), which lets the bytes be followed through the disks in the middle
of a call.

What `fs_read` returns is another matter: the count ignores the offset, and is treated in
`InodeFs.Properties.ReadLength`. Here the bytes are what is in the buffer at the positions within
the file.
-/

namespace InodeFs

/-! ### Files -/

/-- Every request within the positions from `start` up to `stop` is answered with the bytes of
`c`. -/
def ReadsAs (env : Env) (d : Disk) (path : CString) (start stop : ℕ) (c : ℕ → Byte) : Prop :=
  ∀ (buffer : ℕ → Byte) (size offset : ℕ), start ≤ offset → offset + size ≤ stop →
    ∃ r out, (fsRead env path buffer size offset).run vdisk d = some ((r, out), d) ∧
      ∀ k < size, out k = c (offset + k)

section Reads

variable (env : Env) {d : Disk} {as : List Name} {i start stop : ℕ} {c : ℕ → Byte}

/-- A reader sees the bytes of the file's blocks. -/
theorem Disk.Sound.readsAs (hd : d.Sound) (hi : d.graph.resolve 4 (fileNames as) = some i)
    (behind : ℕ → Byte) (hstop : stop ≤ 2146304) :
    ReadsAs env d (pathString as behind) start stop (d.byteAt i) := by
  intro buffer size offset _ hend
  obtain ⟨r, out, hrun, hout⟩ := run_fsRead env hd (hd.walkable.resolve_lt (by decide) hi) hi behind
    buffer (show offset + size ≤ 8437760 by omega)
  exact ⟨r, out, hrun, fun k hk => hout k hk (by omega)⟩

/-- Of direct blocks this takes only the paths and the pointers. -/
theorem Disk.Walkable.readsAs_direct (hd : d.Walkable)
    (hi : d.graph.resolve 4 (fileNames as) = some i)
    (hptr : ∀ q < 12, (d.inode i).ptr q < 64508) (behind : ℕ → Byte) (hstop : stop ≤ 49152) :
    ReadsAs env d (pathString as behind) start stop (d.byteAt i) := by
  intro buffer size offset _ hend
  exact hd.run_fsRead_direct env hi hptr behind buffer (hend.trans hstop)

variable {env}

theorem ReadsAs.congr {path : CString} {c' : ℕ → Byte} (h : ReadsAs env d path start stop c)
    (heq : ∀ k, start ≤ k → k < stop → c k = c' k) : ReadsAs env d path start stop c' := by
  intro buffer size offset hstart hend
  obtain ⟨r, out, hrun, hout⟩ := h buffer size offset hstart hend
  exact ⟨r, out, hrun, fun k hk => (hout k hk).trans (heq _ (by omega) (by omega))⟩

/-- Two readings agree where both are made. -/
theorem ReadsAs.unique {path : CString} {c' : ℕ → Byte} (h : ReadsAs env d path start stop c)
    (h' : ReadsAs env d path start stop c') {k : ℕ} (hstart : start ≤ k) (hstop : k < stop) :
    c k = c' k := by
  obtain ⟨r, out, hrun, hout⟩ := h (fun _ => 0) 1 k hstart (by omega)
  obtain ⟨r', out', hrun', hout'⟩ := h' (fun _ => 0) 1 k hstart (by omega)
  rw [hrun] at hrun'
  obtain ⟨-, rfl⟩ := Prod.mk.inj (Prod.mk.inj (Option.some.inj hrun')).1
  exact (hout 0 Nat.one_pos).symm.trans (hout' 0 Nat.one_pos)

end Reads

/-! ### Directories -/

section Listing

variable (env : Env) {d d' : Disk} {as : List Name} {p : ℕ}

/-- All entries of a sound disk have names. -/
theorem Disk.Sound.exists_names (hd : d.Sound) (p : ℕ) :
    ∃ names, (d.graph p).map Prod.fst = fileNames names := by
  have hall : ∀ f ∈ (d.graph p).map Prod.fst, ∃ a : Name, a.fileName = f := by
    intro f hf
    obtain ⟨e, he, rfl⟩ := List.mem_map.mp hf
    exact hd.directories.graph.named p e he
  generalize (d.graph p).map Prod.fst = files at hall
  induction files with
  | nil => exact ⟨[], rfl⟩
  | cons f files ih =>
    obtain ⟨a, rfl⟩ := hall f List.mem_cons_self
    obtain ⟨names, hnames⟩ := ih fun g hg => hall g (List.mem_cons_of_mem _ hg)
    exact ⟨a :: names, by rw [hnames]; rfl⟩

/-- Two sound disks with the same graph have the same listings. -/
theorem Disk.Sound.run_fsReaddir_congr (hd : d.Sound) (hd' : d'.Sound) (hgraph : d'.graph = d.graph)
    (hp : d.graph.resolve 4 (fileNames as) = some p) (hdir : d.IsDir p) (hdir' : d'.IsDir p)
    (behind : ℕ → Byte) :
    ((fsReaddir env (pathString as behind)).run vdisk d').map Prod.fst =
      ((fsReaddir env (pathString as behind)).run vdisk d).map Prod.fst := by
  obtain ⟨names, hnames⟩ := hd.exists_names p
  rw [hd.walkable.run_fsReaddir env hp hdir hnames behind,
    hd'.walkable.run_fsReaddir env (by rw [hgraph, hp]) hdir' (by rw [hgraph, hnames]) behind]
  rfl

end Listing

end InodeFs
