import InodeFs.Ops.Observed

/-!
# What is read while a call changes the disk

During the passage from one disk to another, `fs_readdir` lists what the directory has before it or
after it, and `fs_read` returns bytes that are there before it or after it.

A listing is made from one record and up to twelve blocks; the record decides how many entries are
shown. `Disk.Enumerates` says of a list of entries that a record leads to it, and
`Passage.readdirLoop_observes` that the loop shows such a list, the one before or the one after.

`fs_read` reads blocks, by the pointers of the record it has found. Where the writer fills blocks of
the file one by one, the answer may be made of old and new bytes, each at its place;
`readLoop_observes` is the induction over the blocks of the request.

The number of bytes that `fs_read` returns comes from the record, which is read once. So it is the
number before or after, whatever becomes of the blocks while they are read.

A directory may have an entry twice while a removal is under way, since the last one is copied
before the size shrinks. This is why `Disk.Enumerates` allows for one that is there twice.
-/

namespace InodeFs

/-! ### Listings -/

section Listing

variable (env : Env) {S : Disk → Prop} {x : INode} {l : List DictioryContent}

/-- The names that entries give. -/
theorem Disk.Enumerates.exists_names {e : Disk} {p : ℕ} (h : e.Enumerates p l) (he : e.Sound) :
    ∃ names, l.map DictioryContent.fileName = fileNames names ∧
      ∀ a, a ∈ names ↔ e.graph.lookup p a.fileName ≠ none := by
  have hnamed : l.map DictioryContent.fileName ∈ Set.range (List.map Name.fileName) := by
    rw [Set.range_list_map]
    intro f hf
    obtain ⟨x, hx, rfl⟩ := List.mem_map.mp hf
    exact he.directories.graph.named p _ ((h x.edge).mp (List.mem_map_of_mem hx))
  obtain ⟨names, hnames⟩ := hnamed
  refine ⟨names, hnames.symm, fun a => ?_⟩
  rw [← List.mem_map_of_injective Name.fileName_injective, hnames]
  constructor
  · intro ha
    obtain ⟨x, hx, hname⟩ := List.mem_map.mp ha
    exact fun hnone => NameGraph.lookup_eq_none.mp hnone _
      ((h x.edge).mp (List.mem_map_of_mem hx)) hname
  · intro ha
    obtain ⟨i, hi⟩ := Option.ne_none_iff_exists'.mp ha
    obtain ⟨x, hx, hedge⟩ := List.mem_map.mp ((h _).mpr (NameGraph.mem_of_lookup hi))
    exact List.mem_map.mpr ⟨x, hx, congrArg Prod.fst hedge⟩

/-- The whole listing of a directory whose entries are shown. -/
theorem Disk.Enumerates.readdirLoop_yields {e : Disk} {p : ℕ} (h : e.Enumerates p l) (he : e.Sound)
    (hshow : ShowsEntries S x l) (hlength : l.length = x.count) :
    (readdirLoop env x.count x (x.count / 128 + 1) 0 0 []).Yields vdisk S fun r =>
      ∃ names : List Name, r = names.map Name.chars ∧
        ∀ a, a ∈ names ↔ e.graph.lookup p a.fileName ≠ none := by
  obtain ⟨names, hnames, hmem⟩ := h.exists_names he
  obtain ⟨hends, hshown⟩ := Name.shown_of_fileNames hnames
  have hloop := hshow.readdirLoop_yields env hlength hends (x.count / 128 + 1) 0 (Nat.zero_add _)
  rw [Nat.mul_zero, Nat.min_zero, List.take_zero, Nat.cast_zero, hshown] at hloop
  exact hloop.mono fun r hr => ⟨names, hr, hmem⟩

theorem local_nameAt (buffer : Block) (k : ℕ) : (nameAt buffer k).Local := by
  rw [nameAt]
  split
  · exact Prog.local_pure _
  · exact Prog.local_undefined

theorem local_fillLoop (n : ℤ) (buffer : Block) (slots k : ℕ) (v : ℤ) (filled : List (List Byte)) :
    (fillLoop n buffer slots k v filled).Local := by
  induction slots generalizing k v filled with
  | zero => exact Prog.local_pure _
  | succ slots ih =>
    rw [fillLoop]
    split
    · exact (local_nameAt buffer k).bind fun _ => ih _ _ _
    · exact Prog.local_pure _

/-- The listing of a directory of one block reads that block. -/
theorem readsOnce_readdirLoop (hcount : x.count ≤ 12) :
    (readdirLoop env x.count x (x.count / 128 + 1) 0 0 []).ReadsOnce := by
  have hblocks : x.count / 128 + 1 = 1 := by omega
  rw [hblocks, readdirLoop, getFuulDiskAccordingToRank, if_pos (by decide),
    INode.index_directPointer (by decide), Prog.ret_bind]
  exact (readsOnce_envRead env _).bind fun buffer => (local_fillLoop _ _ _ _ _ _).bind fun _ =>
    Prog.local_pure _

end Listing

namespace Disk

section Passage

variable (env : Env) {d d' : Disk} {At : ℕ → Disk → Prop} {p i j : ℕ} {s : Disk} {as : List Name}
  (h : Passage d d' At) (behind : ℕ → Byte)
include h

omit behind in
/-- The rounds of `fs_readdir` list what is there before or after. -/
theorem Passage.readdirLoop_observes (hp : d.IsDir p) (hp' : d'.IsDir p) (hs : At j s) {m : ℕ}
    (hjm : j ≤ m) :
    (readdirLoop env (s.inode p).count (s.inode p) ((s.inode p).count / 128 + 1) 0 0 []).Observes
      vdisk At m fun r _ => ∃ names : List Name, r = names.map Name.chars ∧
        ((∀ a, a ∈ names ↔ d.graph.lookup p a.fileName ≠ none) ∨
          ∀ a, a ∈ names ↔ d'.graph.lookup p a.fileName ≠ none) := by
  refine (h.observes (Q := fun e r => ∃ names : List Name, r = names.map Name.chars ∧
    ∀ a, a ∈ names ↔ e.graph.lookup p a.fileName ≠ none) ((h.shown hp hs).from_le hjm) hp hp'
      (readsOnce_readdirLoop env) fun e _ hsound _ S l hlists hshow hlength =>
        hlists.readdirLoop_yields env hsound hshow hlength).mono fun r k hr => ?_
  rcases hr.1 with ⟨names, hnames, hmem⟩ | ⟨⟨names, hnames, hmem⟩, -⟩
  · exact ⟨names, hnames, .inl hmem⟩
  · exact ⟨names, hnames, .inr hmem⟩

/-- **`fs_readdir`** of a directory that is there before and after lists what it has before or
after. -/
theorem Passage.fsReaddir_observes (hp : d.graph.resolve 4 (fileNames as) = some p)
    (hp' : d'.graph.resolve 4 (fileNames as) = some p) (hdir : d.IsDir p) (hdir' : d'.IsDir p) :
    (fsReaddir env (pathString as behind)).Observes vdisk At j fun r _ =>
      ∃ names : List Name, r = (0, names.map Name.chars) ∧
        ((∀ a, a ∈ names ↔ a ∈ d.tree.children as) ∨ ∀ a, a ∈ names ↔ a ∈ d'.tree.children as) := by
  have hpath : (pathString as behind).chars = pathChars as := rfl
  rw [fsReaddir, hpath]
  refine (h.understandThePath_observes env hp hp').bind ?_
  rintro _ k ⟨rfl, -⟩
  refine (justReadInodeFromDisk_observes env hdir.1).bind ?_
  rintro _ l ⟨⟨s, hs, rfl⟩, -⟩
  have hcount : (s.inode p).count ≤ 1536 := by
    rcases (h.dir hdir).inode l s hs with hx | hx
    · rw [hx]
      exact (h.sound.directories.dir p hdir).count_le
    · rw [hx]
      exact (h.sound'.directories.dir p hdir').count_le
  have hindex : (Prog.index (s.inode p).directPointer 0 : Fs (BitVec 32)) =
      .ret ((s.inode p).directPointer 0) := INode.index_directPointer (r := 0) (by decide)
  have hblocks : (((s.inode p).count : ℤ).tdiv 128 + 1).toNat = (s.inode p).count / 128 + 1 := by
    rw [natCast_tdiv_ofNat]
    omega
  rw [INode.cInt_tdiv_stSize hcount, hindex, Prog.ret_bind]
  refine (envRead_observes_any env _).bind fun _ m hlm => ?_
  simp only [hblocks]
  refine (h.readdirLoop_observes env hdir hdir' hs hlm).bind ?_
  rintro _ _ ⟨names, rfl, hmem⟩
  refine Prog.observes_ret.mpr ⟨names, rfl, hmem.imp (fun hm a => ?_) fun hm a => ?_⟩
  · rw [hm, FileTree.mem_children, ne_eq, ne_eq, tree_concat_eq_none hp]
  · rw [hm, FileTree.mem_children, ne_eq, ne_eq, tree_concat_eq_none hp']

end Passage

end Disk

/-! ### Reading -/

section Reading

variable (env : Env) {At : ℕ → Disk → Prop} {x : INode} {j r : ℕ}

/-- A block at a rank is looked up and read; behind the ranks that the views show it is some
block. -/
theorem readTheOneDisk_observes (hptr : ∀ r, x.ptr r < 64508) (hx : ∀ k, x.indirectPointer k = 0)
    (hzero : ∀ k t, At k t → t.data 0 = Block.zero) (hr : r < 2060) :
    (readTheOneDiskAccordingToRankInInode env r x).Observes vdisk At j fun c k =>
      (r < 524 → ∃ t, At k t ∧ c = t.data (x.ptr r)) ∧ j ≤ k := by
  rw [readTheOneDiskAccordingToRankInInode, dataBlockAtRank]
  by_cases h12 : r < 12
  · rw [if_pos (by omega), INode.index_directPointer h12, Prog.ret_bind, Prog.pure_eq_ret,
      Prog.ret_bind, INode.toInt_directPointer h12 (hptr r), datablockFindDiskId_natCast]
    have hlt := hptr r
    exact (envRead_observes env (by omega)).mono fun c k hc => ⟨fun _ => hc.1, hc.2⟩
  · have hindex : r / 1036 < 2 := by omega
    have htransfer : r - r / 1036 * 1024 - 12 < 1024 := by omega
    have htdiv : (r : ℤ).tdiv (1024 + 12) = ((r / 1036 : ℕ) : ℤ) := rfl
    have hcast : (r : ℤ) - ((r / 1036 : ℕ) : ℤ) * 1024 - 12 =
        ((r - r / 1036 * 1024 - 12 : ℕ) : ℤ) := by omega
    have hnumber : (0 : BitVec 32).toInt = ((0 : ℕ) : ℤ) := rfl
    rw [if_neg (by omega)]
    simp only [htdiv, hcast]
    rw [Prog.index_natCast _ hindex, Prog.ret_bind, hx, hnumber, readPointers,
      datablockFindDiskId_natCast]
    simp only [Prog.bind_assoc, Prog.pure_eq_ret, Prog.ret_bind]
    refine (envRead_observes env (show 1028 + 0 < 65536 by decide)).bind ?_
    rintro _ k ⟨⟨t, ht, rfl⟩, hjk⟩
    rw [Prog.index_natCast _ htransfer, Prog.ret_bind]
    by_cases h524 : r < 524
    · -- the first half of the index block leads to block 0
      have hlow : r - r / 1036 * 1024 - 12 < 512 := by omega
      have hblock : t (1028 + 0) = Block.zero := hzero k t ht
      have hptr0 : x.ptr r = 0 := by rw [INode.ptr, dif_neg h12]
      rw [dif_pos hlow, hblock, Block.pointers_zero]
      exact (envRead_observes env (show 1028 + 0 < 65536 by decide)).mono fun c l hc =>
        ⟨fun _ => by rw [hptr0]; exact hc.1, hjk.trans hc.2⟩
    · exact (envRead_observes_any env _).mono fun c l hkl =>
        ⟨fun hlt => absurd hlt h524, hjk.trans hkl⟩

/-- The blocks at consecutive ranks. -/
theorem readRanks_observes {P : ℕ → Block → Prop}
    (h : ∀ (k r : ℕ), j ≤ k → r < 2060 →
      (readTheOneDiskAccordingToRankInInode env r x).Observes vdisk At k
      fun c l => (r < 524 → P r c) ∧ k ≤ l) (n : ℕ) (hr : r + n ≤ 2060) :
    (readRanks env x (List.range' r n)).Observes vdisk At j fun blocks _ =>
      ∀ m < n, r + m < 524 → P (r + m) (blocks.getD m Block.zero) := by
  induction n generalizing j r with
  | zero => exact Prog.observes_ret.mpr fun m hm => absurd hm (Nat.not_lt_zero m)
  | succ n ih =>
    rw [List.range'_succ, readRanks]
    refine (h j r le_rfl (by omega)).bind ?_
    rintro c k ⟨hc, hjk⟩
    refine (ih (fun l r hkl => h l r (hjk.trans hkl)) (r := r + 1) (by omega)).bind ?_
    intro blocks l hblocks
    refine Prog.observes_ret.mpr fun m hm hlt => ?_
    cases m with
    | zero => exact hc hlt
    | succ m =>
      have hsucc : r + (m + 1) = r + 1 + m := by omega
      rw [List.getD_cons_succ, hsucc]
      exact hblocks m (by omega) (by omega)

/-- The loop of `fs_read` copies the bytes of the blocks that it reads. -/
theorem readLoop_observes {P : ℕ → Block → Prop} {size offset : ℕ} (hend : offset + size ≤ 8437760)
    (h : ∀ (k r : ℕ), j ≤ k → r < 2060 → (readTheOneDiskAccordingToRankInInode env r x).Observes
      vdisk At k fun c l => (r < 524 → P r c) ∧ k ≤ l) (buffer : ℕ → Byte) :
    (readLoop env x (cInt size) size (cInt (offset / 4096 : ℕ)) (offset % 4096) 0 buffer).Observes
      vdisk At j fun out _ => ∀ k < size, offset + k < 2146304 →
        ∃ c, P ((offset + k) / 4096) c ∧ out k = c.get ((offset + k) % 4096) := by
  have hloop := readLoop_eq env x size offset size 0 buffer (Nat.zero_le _) (by omega)
  rw [Nat.add_zero] at hloop
  rw [cInt_natCast (by omega), cInt_natCast (by omega), hloop]
  have hblocks : (readRanks env x (ranksBetween offset (offset + size))).Observes vdisk At j
      fun blocks _ => ∀ k < size, offset + k < 2146304 →
        P ((offset + k) / 4096) (blocks.getD ((offset + k) / 4096 - offset / 4096) Block.zero) := by
    unfold ranksBetween
    split
    · refine (readRanks_observes env h ((offset + size - 1) / 4096 - offset / 4096 + 1)
        (r := offset / 4096) (by omega)).mono fun blocks l hat k hk hlt => ?_
      have hrank : offset / 4096 + ((offset + k) / 4096 - offset / 4096) = (offset + k) / 4096 := by
        omega
      have hblock := hat ((offset + k) / 4096 - offset / 4096) (by omega) (by omega)
      rwa [hrank] at hblock
    · exact Prog.observes_ret.mpr fun k hk => absurd hk (by omega)
  refine hblocks.bind fun blocks l hat => Prog.observes_ret.mpr fun k hk hlt => ?_
  exact ⟨_, hat k hk hlt, by rw [flatten, if_pos (by omega)]⟩

end Reading

namespace Disk

section Passage

variable (env : Env) {d d' : Disk} {At : ℕ → Disk → Prop} {i j : ℕ} {as : List Name}
  (h : Passage d d' At) (behind buffer : ℕ → Byte)
include h

/-- **`fs_read`** of a file that is there before and after returns what it has after, or as many
bytes as it has before, each of which is there before or after. -/
theorem Passage.fsRead_observes (hi : d.graph.resolve 4 (fileNames as) = some i)
    (hi' : d'.graph.resolve 4 (fileNames as) = some i) (hfile : d.IsFile i) (hfile' : d'.IsFile i)
    {size offset : ℕ} (hend : offset + size ≤ 8437760) :
    (fsRead env (pathString as behind) buffer size offset).Observes vdisk At j fun r _ =>
      (r.1 = (min size (d.bytes i).length : ℕ) ∧
        ∀ k < size, offset + k < (d.bytes i).length → (d.bytes i)[offset + k]? = some (r.2 k) ∨
          (d'.bytes i)[offset + k]? = some (r.2 k)) ∨
      r.1 = (min size (d'.bytes i).length : ℕ) ∧
        ∀ k < size, offset + k < (d'.bytes i).length →
          (d'.bytes i)[offset + k]? = some (r.2 k) := by
  have hpath : (pathString as behind).chars = pathChars as := rfl
  have hsize := h.sound.directories.file i hfile.lt hfile.not_isDir
  have hsize' := h.sound'.directories.file i hfile'.lt hfile'.not_isDir
  have hvalue {x : INode} (hx : x.stSize.toNat ≤ 2146304) :
      getMin (cInt size) (cInt x.stSize.toInt) = (min size x.stSize.toNat : ℕ) := by
    rw [toInt_eq_natCast_long (by omega), cInt_natCast (by omega), cInt_natCast (by omega), getMin]
    split <;> omega
  rw [fsRead, hpath]
  refine (h.understandThePath_observes env hi hi').bind ?_
  rintro _ k ⟨rfl, -⟩
  refine (justReadInodeFromDisk_observes env hfile.lt).bind ?_
  rintro _ l ⟨⟨s, hs, rfl⟩, -⟩
  have hloop {e : Disk} (he : e.Sound) :=
    readLoop_observes env (x := e.inode i) (j := l) (P := fun r c =>
      ∃ m t, l ≤ m ∧ At m t ∧ c = t.data ((e.inode i).ptr r)) hend (fun k r hlk hr =>
        (readTheOneDisk_observes env (he.pointers.lt i hfile.lt) (he.pointers.indirect i hfile.lt)
          h.zero hr).mono fun c m hc => ⟨fun hlt => by
            obtain ⟨t, ht, hdata⟩ := hc.1 hlt
            exact ⟨m, t, hlk.trans hc.2, ht, hdata⟩, hc.2⟩) buffer
  rcases (h.file hfile).bytes_new hfile.not_isDir l s hs with hx | ⟨hx, hnew⟩
  · rw [hx]
    refine (hloop h.sound).bind fun out m hout => ?_
    rw [hvalue hsize, ← length_bytes d i]
    refine Prog.observes_ret.mpr (.inl ⟨rfl, fun k hk hlt => ?_⟩)
    rw [length_bytes] at hlt
    obtain ⟨_, ⟨m, t, -, ht, rfl⟩, heq⟩ := hout k hk (by omega)
    simp only [heq]
    rcases (h.file hfile).bytes_old hfile.not_isDir m t ht (offset + k) with hbyte | ⟨hlt', hbyte⟩
    · exact .inl (by rw [getElem?_bytes hlt, hbyte])
    · exact .inr (by rw [getElem?_bytes hlt', hbyte])
  · rw [hx]
    refine (hloop h.sound').bind fun out m hout => ?_
    rw [hvalue hsize', ← length_bytes d' i]
    refine Prog.observes_ret.mpr (.inr ⟨rfl, fun k hk hlt => ?_⟩)
    rw [length_bytes] at hlt
    obtain ⟨_, ⟨m, t, hlm, ht, rfl⟩, heq⟩ := hout k hk (by omega)
    simp only [heq]
    rw [getElem?_bytes hlt, hnew m t hlm ht (offset + k)]

end Passage

end Disk

end InodeFs
