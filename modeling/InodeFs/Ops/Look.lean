import InodeFs.Ops.Walk
import Mathlib.Data.List.TakeWhile

/-!
# Attributes and listings

`fs_getattr` and `fs_readdir` on a disk whose directories are within their limits: the record
of the inode a path names, and the names of a directory's entries in order.

What `fs_readdir` hands out is what an entry shows, its bytes up to the first NUL
(`DictioryContent.shown`). These are the name bytes, and behind them the number of the inode: an
entry whose name fills its 28 bytes shows more than its name. For such entries the string is still
found exactly where the bytes hold a NUL at all (`DictioryContent.Ends`), and this is all that the
loop needs (`ShowsEntries.readdirLoop_yields`). With names of the limits that `fs_statfs` declares
the two are the same (`Name.ends_and_shown`).

The loop is run on a disk that may change between two reads, as long as the record that was read
before still shows its entries (`ShowsEntries`). So the same lemma serves a request alone
(`ShowsEntries.run_readdirRecord`) and one beside another.

`fs_readdir` stops by the number of entries, computed from the record's size, and goes through the
slots of one block after the other. With 1536 entries it reads one block more, whose rank has no
pointer of its own, and uses nothing of it.
-/

namespace InodeFs

variable (env : Env)

theorem Disk.Walkable.resolve_lt {d : Disk} (hd : d.Walkable) {p i : ℕ} {as : List FileName}
    (hp : p < 32768) (h : d.graph.resolve p as = some i) : i < 32768 := by
  induction as using List.reverseRecOn with
  | nil =>
    obtain rfl : p = i := Option.some.inj h
    exact hp
  | append_singleton as a _ =>
    obtain ⟨q, -, hq⟩ := NameGraph.resolve_concat_eq_some.mp h
    exact hd.number_lt q _ (NameGraph.mem_of_lookup hq)

/-! ### Attributes -/

theorem Disk.Walkable.run_fsGetattr {d : Disk} (hd : d.Walkable) {as : List Name} {i : ℕ}
    (h : d.graph.resolve 4 (as.map Name.fileName) = some i) (behind : ℕ → Byte) :
    (fsGetattr env (pathString as behind)).run vdisk d =
      some ((0, passValueFromINodeToStat (d.inode i)), d) := by
  have hi := hd.resolve_lt (by decide) h
  have hne : ¬ (i : ℤ) = negENOENT := by rw [negENOENT]; omega
  rw [fsGetattr, Prog.run_bind, pathString, hd.run_understandThePath env h, Option.bind_some,
    if_neg hne, Prog.run_bind, run_justReadInodeFromDisk env hi]
  rfl

/-! ### Listings -/

/-- The string at an entry: its bytes up to the first NUL. Where the name fills its 28 bytes, those
of the inode number follow. -/
def DictioryContent.shown (e : DictioryContent) : List Byte :=
  (List.ofFn (DictioryContent.layout e)).takeWhile (· ≠ 0)

/-- The name an entry holds: the bytes of `file_name` up to the first NUL, all 28 if there is
none. -/
def DictioryContent.name (e : DictioryContent) : List Byte :=
  (List.ofFn e.fileName).takeWhile (· ≠ 0)

/-- The entry holds a NUL. -/
def DictioryContent.Ends (e : DictioryContent) : Prop :=
  (0 : Byte) ∈ List.ofFn (DictioryContent.layout e)

theorem DictioryContent.bytes_eq (e : DictioryContent) : List.ofFn (DictioryContent.layout e) =
    List.ofFn e.fileName ++ List.ofFn (intLayout e.inodeNumber) :=
  List.ofFn_fin_append e.fileName (intLayout e.inodeNumber)

/-- An inode number that exists ends with a NUL. -/
theorem DictioryContent.ends_of_lt {e : DictioryContent} (h : e.inodeNumber.toNat < 32768) :
    e.Ends := by
  have hlast : intLayout e.inodeNumber 3 = 0 := by
    refine BitVec.eq_of_toNat_eq ?_
    change (e.inodeNumber.extractLsb' 24 8).toNat = 0
    rw [BitVec.extractLsb'_toNat, Nat.shiftRight_eq_div_pow]
    omega
  rw [Ends, bytes_eq]
  exact List.mem_append_right _ (hlast ▸ List.mem_ofFn.mpr ⟨3, rfl⟩)

/-- **What an entry shows is its name** exactly if that ends within `file_name`, or the first byte
of the inode number behind it is NUL. -/
theorem DictioryContent.shown_eq_name_iff (e : DictioryContent) :
    e.shown = e.name ↔ (∃ j, e.fileName j = 0) ∨ e.inodeNumber.toNat % 256 = 0 := by
  have hfirst : (intLayout e.inodeNumber 0).toNat = e.inodeNumber.toNat % 256 := by
    change (e.inodeNumber.extractLsb' 0 8).toNat = _
    rw [BitVec.extractLsb'_toNat, Nat.shiftRight_zero]
  rw [shown, bytes_eq, List.takeWhile_append, ← name]
  by_cases hnul : ∃ j, e.fileName j = 0
  · obtain ⟨j, hj⟩ := hnul
    rw [if_neg fun hlength => ?_]
    · exact iff_of_true rfl (.inl ⟨j, hj⟩)
    · have hall := List.takeWhile_eq_self_iff.mp
        ((List.takeWhile_prefix _).eq_of_length hlength) 0 (hj ▸ List.mem_ofFn.mpr ⟨j, rfl⟩)
      simp at hall
  · have hname : e.name = List.ofFn e.fileName := by
      refine List.takeWhile_eq_self_iff.mpr fun b hb => ?_
      obtain ⟨j, rfl⟩ := List.mem_ofFn.mp hb
      exact decide_eq_true fun hj => hnul ⟨j, hj⟩
    have hnil (b : Byte) (bs : List Byte) : (b :: bs).takeWhile (· ≠ 0) = [] ↔ b.toNat = 0 := by
      rw [← BitVec.toNat_zero (w := 8), ← BitVec.toNat_eq]
      simp [List.takeWhile_cons]
    rw [if_pos (congrArg List.length hname), hname, List.append_right_eq_self, List.ofFn_succ, hnil,
      hfirst, or_iff_right hnul]

/-- The bytes from an entry on are its own, and then others. -/
theorem exists_drop_entry (buffer : Block) {k : ℕ} (hk : k < 128) : ∃ rest,
    (List.ofFn buffer).drop (32 * k) =
      List.ofFn (DictioryContent.layout (buffer.entries ⟨k, hk⟩)) ++ rest := by
  refine ⟨((List.ofFn buffer).drop (32 * k)).drop 32, ?_⟩
  conv_lhs => rw [← List.take_append_drop 32 ((List.ofFn buffer).drop (32 * k))]
  refine congrArg (· ++ _) (List.ext_getElem? fun i => ?_)
  rcases Nat.lt_or_ge i 32 with hi | hi
  · have hlt : 32 * k + i < 4096 := by omega
    rw [List.getElem?_take_of_lt hi, List.getElem?_drop, List.getElem?_ofFn, List.getElem?_ofFn,
      dif_pos hlt, dif_pos hi]
    have hbyte := Layout.array_mul_add DictioryContent.layout buffer.entries ⟨k, hk⟩ ⟨i, hi⟩ hlt
    rw [Block.entries, Equiv.apply_symm_apply] at hbyte
    exact congrArg some hbyte
  · rw [List.getElem?_take_eq_none hi, List.getElem?_ofFn, dif_neg (by omega)]

/-- The string at an entry that holds a NUL. -/
theorem nameAt_eq_shown {buffer : Block} {k : ℕ} (hk : k < 128)
    (h : (buffer.entries ⟨k, hk⟩).Ends) :
    nameAt buffer k = .ret (buffer.entries ⟨k, hk⟩).shown := by
  obtain ⟨rest, hrest⟩ := exists_drop_entry buffer hk
  have htake : (List.ofFn (DictioryContent.layout (buffer.entries ⟨k, hk⟩)) ++ rest).takeWhile
      (· ≠ 0) = (buffer.entries ⟨k, hk⟩).shown := by
    refine List.takeWhile_append.trans (if_neg fun hlength => ?_)
    have hall := List.takeWhile_eq_self_iff.mp
      ((List.takeWhile_prefix _).eq_of_length hlength) 0 h
    simp at hall
  rw [nameAt]
  simp only [hrest]
  rw [if_pos (List.mem_append_left _ h), htake]
  rfl

/-- A list copied into an array of zeros. -/
theorem ofFn_getD (l : List Byte) (n : ℕ) : List.ofFn (fun i : Fin n => l.getD i 0) =
    l.take n ++ List.replicate (n - l.length) 0 := by
  refine List.ext_getElem? fun i => ?_
  rw [List.getElem?_ofFn, List.getElem?_append, List.getElem?_replicate, List.length_take,
    List.getElem?_take]
  by_cases hi : i < n
  · rw [dif_pos hi, List.getD_eq_getElem?_getD, if_pos hi]
    by_cases hl : i < l.length
    · rw [if_pos (by omega), List.getElem?_eq_getElem hl, Option.getD_some]
    · rw [if_neg (by omega), List.getElem?_eq_none (Nat.le_of_not_lt hl), Option.getD_none,
        if_pos (by omega)]
  · rw [dif_neg hi, if_neg (by omega), if_neg (by omega)]

/-- An entry with a name shows it: the name bytes hold a NUL. -/
theorem Name.ends_and_shown {a : Name} {e : DictioryContent} (h : e.fileName = a.fileName) :
    e.Ends ∧ e.shown = a.chars := by
  have hlength := a.length_le
  -- the bytes of the entry are the name's, then a NUL and others
  obtain ⟨rest, hrest⟩ : ∃ rest, List.ofFn (DictioryContent.layout e) = a.chars ++ 0 :: rest := by
    have hname : List.ofFn a.fileName = _ := ofFn_getD a.chars 28
    rw [List.take_of_length_le (by omega),
      show 28 - a.chars.length = 27 - a.chars.length + 1 by omega, List.replicate_succ] at hname
    exact ⟨_, by rw [e.bytes_eq, h, hname, List.append_assoc, List.cons_append]⟩
  refine ⟨?_, ?_⟩
  · rw [DictioryContent.Ends, hrest]
    simp
  · rw [DictioryContent.shown, hrest,
      List.takeWhile_append_of_pos fun c hc => decide_eq_true (a.noNul c hc)]
    simp

/-- Entries with names show them. -/
theorem Name.shown_of_fileNames {l : List DictioryContent} {names : List Name}
    (h : l.map DictioryContent.fileName = names.map Name.fileName) :
    (∀ e ∈ l, e.Ends) ∧ l.map DictioryContent.shown = names.map Name.chars := by
  constructor
  · intro e he
    have hmem : e.fileName ∈ names.map Name.fileName := h ▸ List.mem_map_of_mem he
    obtain ⟨a, -, ha⟩ := List.mem_map.mp hmem
    exact (Name.ends_and_shown ha.symm).1
  · refine List.ext_getElem (by simpa using congrArg List.length h) fun j hj _ => ?_
    rw [List.length_map] at hj
    have hget := List.getElem_of_eq h (i := j) (by rwa [List.length_map])
    rw [List.getElem_map, List.getElem_map] at hget
    rw [List.getElem_map, List.getElem_map, (Name.ends_and_shown hget).2]

/-- The round of `fs_readdir` over one block hands out the strings from the count on, at most as
many as there are slots left. -/
theorem fillLoop_eq {buffer : Block} {shown : List (List Byte)} (slots cnt v : ℕ)
    (filled : List (List Byte)) (hcnt : cnt + slots = 128) (hv : v ≤ shown.length)
    (h : ∀ m < slots, ∀ hm : v + m < shown.length,
      nameAt buffer (cnt + m) = .ret shown[v + m]) :
    fillLoop shown.length buffer slots cnt v filled =
      .ret (((min shown.length (v + slots) : ℕ) : ℤ), filled ++ (shown.drop v).take slots) := by
  induction slots generalizing cnt v filled with
  | zero =>
    rw [fillLoop, Nat.add_zero, Nat.min_eq_right hv]
    simp
  | succ slots ih =>
    rw [fillLoop]
    by_cases hlt : v < shown.length
    · have hname := h 0 (Nat.succ_pos _) hlt
      rw [if_pos (by omega)]
      simp only [Nat.add_zero] at hname
      rw [hname, Prog.ret_bind]
      -- the slot holds the next string; the recursion goes on behind both
      have hrest := ih (cnt + 1) (v + 1) (filled ++ [shown[v]]) (by omega) hlt
        fun m hm hlen => by
          have hnext := h (m + 1) (by omega) (by omega)
          simpa only [Nat.add_assoc, Nat.add_comm 1 m] using hnext
      rw [Nat.cast_succ] at hrest
      rw [hrest, List.drop_eq_getElem_cons hlt, List.take_succ_cons,
        List.append_assoc, List.singleton_append, show v + 1 + slots = v + (slots + 1) by omega]
    · have hge : shown.length ≤ v := Nat.le_of_not_lt hlt
      have heq : v = shown.length := by omega
      rw [if_neg (by omega), List.drop_eq_nil_of_le hge, List.take_nil,
        List.append_nil, Nat.min_eq_left (by omega), heq]
      rfl

/-- A read that may be refused still returns. -/
theorem exists_run_envRead (id : ℤ) (d : Disk) :
    ∃ b, (env.read id).run vdisk d = some (b, d) := ⟨_, rfl⟩

section Listing

variable {S : Disk → Prop} {x : INode} {l : List DictioryContent}

theorem getFuulDiskAccordingToRank_yields {i : ℕ} (hi : i < 12) (hptr : x.ptr i < 64508) :
    (getFuulDiskAccordingToRank env i x).Yields vdisk S fun b => ∃ s,
      S s ∧ b = s.data (x.ptr i) := by
  rw [getFuulDiskAccordingToRank, if_pos (by omega), INode.index_directPointer hi, Prog.ret_bind,
    INode.toInt_directPointer hi hptr, datablockFindDiskId_natCast]
  exact envRead_yields env (by omega)

theorem envRead_yields_any (id : ℤ) : (env.read id).Yields vdisk S fun _ => True :=
  fun _ _ => trivial

/-- Behind the last entry of a full directory the listing reads one block more. -/
theorem getFuulDiskAccordingToRank_yields_any :
    (getFuulDiskAccordingToRank env (12 : ℕ) x).Yields vdisk S fun _ => True := by
  have hindex : (Prog.index x.indirectPointer ((12 - 11 : ℤ).tdiv 1024) : Fs (BitVec 32)) =
      .ret (x.indirectPointer 0) := Prog.index_natCast (i := 0) x.indirectPointer (by decide)
  rw [getFuulDiskAccordingToRank, if_neg (by decide), Nat.cast_ofNat]
  simp only [readInts, hindex, Prog.ret_bind, Prog.bind_assoc, Prog.pure_eq_ret]
  refine (envRead_yields_any env _).bind fun b _ => ?_
  have hindex' : (Prog.index b.ints (12 - 11 - (12 - 11 : ℤ).tdiv 1024 * 1024) :
      Fs (BitVec 32)) = .ret (b.ints 1) := Prog.index_natCast (i := 1) b.ints (by decide)
  rw [hindex', Prog.ret_bind]
  exact envRead_yields_any env _

/-- A block whose slots are the entries of its rank gives their strings. -/
theorem fillLoop_shown {x : INode} {l : List DictioryContent} (hlength : l.length = x.count)
    (hends : ∀ e ∈ l, e.Ends) {i : ℕ} (hi : 128 * i ≤ x.count) {buffer : Block}
    (hbuffer : ∀ m < 128, ∀ hm : 128 * i + m < l.length, buffer.entry m = l[128 * i + m]) :
    fillLoop x.count buffer 128 0 ((min x.count (128 * i) : ℕ) : ℤ)
        ((l.map DictioryContent.shown).take (128 * i)) =
      .ret (((min x.count (128 * (i + 1)) : ℕ) : ℤ),
        (l.map DictioryContent.shown).take (128 * (i + 1))) := by
  have hlen : (l.map DictioryContent.shown).length = x.count := by rw [List.length_map, hlength]
  have hmin : min x.count (128 * i) = 128 * i := by omega
  rw [← hlen] at hmin ⊢
  rw [hmin, fillLoop_eq 128 0 (128 * i) _ rfl (by omega) fun m hm hlt => ?_]
  · rw [Nat.mul_succ, ← List.take_add]
  · rw [List.length_map] at hlt
    have hentry := hbuffer m hm hlt
    simp only [Block.entry, Nat.mod_eq_of_lt hm] at hentry
    rw [Nat.zero_add, List.getElem_map, ← hentry]
    exact nameAt_eq_shown hm (hentry ▸ hends _ (List.getElem_mem hlt))

/-- The rounds of `fs_readdir` from block `i` on, when the strings of the blocks before have been
handed out: over entries that hold a NUL each, it hands out their strings. -/
theorem ShowsEntries.readdirLoop_yields (h : ShowsEntries S x l) (hlength : l.length = x.count)
    (hends : ∀ e ∈ l, e.Ends) (blocks i : ℕ) (hblocks : i + blocks = x.count / 128 + 1) :
    (readdirLoop env x.count x blocks i ((min x.count (128 * i) : ℕ) : ℤ)
        ((l.map DictioryContent.shown).take (128 * i))).Yields vdisk S
      (· = l.map DictioryContent.shown) := by
  have hcount := h.count_le
  induction blocks generalizing i with
  | zero =>
    rw [readdirLoop, List.take_of_length_le (by rw [List.length_map]; omega)]
    rfl
  | succ blocks ih =>
    rw [readdirLoop]
    -- round 12 comes after the last name of a full directory, and what it reads is not looked at
    by_cases hi : i < 12
    · refine (getFuulDiskAccordingToRank_yields env hi (h.ptr_lt i hi)).bind ?_
      rintro _ ⟨s, hs, rfl⟩
      rw [fillLoop_shown hlength hends (by omega) fun m hm hlt => ?_, Prog.ret_bind]
      · exact ih (i + 1) (by omega)
      · have hdiv : (128 * i + m) / 128 = i := by omega
        have hmod : (128 * i + m) % 128 = m % 128 := by omega
        have hentry := h.entry s hs (128 * i + m) hlt
        simpa only [Disk.entryOf, Block.entry, hdiv, hmod] using hentry
    · obtain rfl : i = 12 := by omega
      refine (getFuulDiskAccordingToRank_yields_any env).bind fun b _ => ?_
      rw [fillLoop_shown hlength hends (by omega) fun m _ hlt => by omega, Prog.ret_bind]
      exact ih 13 (by omega)

/-- What `fs_readdir` does with the record it has read. -/
def readdirRecord (aimNode : INode) : Fs (ℤ × List (List Byte)) := do
  let fileSize := cInt (aimNode.stSize.toInt.tdiv 32)
  let pointer ← Prog.index aimNode.directPointer 0
  let _ ← env.read (datablockFindDiskId pointer.toInt)
  let diskSize := fileSize.tdiv 128 + 1
  let names ← readdirLoop env fileSize aimNode diskSize.toNat 0 0 []
  pure (0, names)

theorem fsReaddir_eq (path : CString) : fsReaddir env path =
    (understandThePath env path.chars >>= justReadInodeFromDisk env) >>= readdirRecord env := by
  rw [Prog.bind_assoc]
  rfl

/-- A record whose entries are on the disk is listed, wherever it was read. -/
theorem ShowsEntries.run_readdirRecord {d : Disk} (h : ShowsEntries (· = d) x l)
    (hlength : l.length = x.count) (hends : ∀ e ∈ l, e.Ends) :
    (readdirRecord env x).run vdisk d = some ((0, l.map DictioryContent.shown), d) := by
  -- a read of the first block whose content is not used
  obtain ⟨b, hb⟩ := exists_run_envRead env (datablockFindDiskId (x.directPointer 0).toInt) d
  have hindex : (Prog.index x.directPointer 0 : Fs (BitVec 32)) = .ret (x.directPointer 0) :=
    INode.index_directPointer (r := 0) (by decide)
  have hblocks : ((x.count : ℤ).tdiv 128 + 1).toNat = x.count / 128 + 1 := by
    rw [natCast_tdiv_ofNat]
    omega
  have hloop := (h.readdirLoop_yields env hlength hends (x.count / 128 + 1) 0 (by omega)).run_eq rfl
  rw [Nat.mul_zero, Nat.min_zero, List.take_zero, Nat.cast_zero] at hloop
  rw [readdirRecord, INode.cInt_tdiv_stSize h.count_le, hindex, Prog.ret_bind, Prog.run_bind, hb,
    Option.bind_some]
  simp only [hblocks]
  rw [Prog.run_bind, hloop]
  rfl

end Listing

/-- **The listing** of a directory: the strings at its entries, in order. -/
theorem Disk.Walkable.run_fsReaddir_shown {d : Disk} (hd : d.Walkable) {path : CString} {p : ℕ}
    (h : (understandThePath env path.chars).run vdisk d = some ((p : ℤ), d)) (hp : d.IsDir p)
    (hends : ∀ e ∈ d.entriesOf (d.inode p), e.Ends) : (fsReaddir env path).run vdisk d =
      some ((0, (d.entriesOf (d.inode p)).map DictioryContent.shown), d) := by
  have hshows : ShowsEntries (· = d) (d.inode p) (d.entriesOf (d.inode p)) :=
    showsEntries_entriesOf (hd.count_le p hp) (hd.ptr_lt p hp)
  rw [fsReaddir_eq, Prog.bind_assoc, Prog.run_bind_some _ h,
    Prog.run_bind_some _ (run_justReadInodeFromDisk env hp.1 d)]
  exact hshows.run_readdirRecord env (length_entriesOf d _) hends

/-- **The listing** of a directory of names: each once, in order. -/
theorem Disk.Walkable.run_fsReaddir {d : Disk} (hd : d.Walkable) {as : List Name} {p : ℕ}
    (h : d.graph.resolve 4 (as.map Name.fileName) = some p) (hp : d.IsDir p)
    {names : List Name}
    (hnames : (d.graph p).map Prod.fst = names.map Name.fileName) (behind : ℕ → Byte) :
    (fsReaddir env (pathString as behind)).run vdisk d =
      some ((0, names.map Name.chars), d) := by
  have hfile : (d.entriesOf (d.inode p)).map DictioryContent.fileName =
      names.map Name.fileName := by
    rw [← hnames, graph_of_isDir hp, List.map_map]
    rfl
  obtain ⟨hends, hshown⟩ := Name.shown_of_fileNames hfile
  rw [← hshown]
  exact hd.run_fsReaddir_shown env (hd.run_understandThePath env h) hp hends

end InodeFs
