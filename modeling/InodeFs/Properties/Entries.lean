import InodeFs.Properties.Allocation
import InodeFs.Ops.Remove

/-!
# Unlinking an entry

`fs_unlink` overwrites the entry of its path with the last one and shortens its directory by one
entry. Both are found by rank, with `get_filename_data_from_dir_in_rank_view`, which fills its
buffer for the ranks below 12 only.

`creationsIn log as` are the calls that made the entries of directory `as`, in order; after a run of
creations the directory holds just their entries (`Refines.entriesOf_eq`). What is left of them
behind an `fs_unlink` is said by `Refines.run_unlink_creation`: among the first 12 the entry is
replaced by what the function by rank returns for the last one, from there on nothing is replaced,
and in any case the last one goes. So the call takes exactly the entry of its path out
(`unlink_exact_iff`) exactly when

* the directory has at most 12 entries, or
* the entry is its last one.

Elsewhere an entry of the uninitialised buffer takes the place of the one removed, or the last entry
goes instead of it.
-/

namespace InodeFs

/-! ### Lookups in one directory -/

section Lookup

variable (env : Env) {d : Disk} {x : INode} {a : Name}

/-- An entry is found under its name if no two entries have the same. -/
theorem run_findFileInDict_of_mem (hcount : x.count ≤ 1536) (hptr : ∀ r < 12, x.ptr r < 64508)
    (hnames : ((d.entriesOf x).map DictioryContent.fileName).Nodup) {e : DictioryContent}
    (he : e ∈ d.entriesOf x) (hname : e.fileName = a.fileName) :
    (findFileInDict env x (padTo30 a.chars)).run vdisk d = some (e.inodeNumber.toInt, d) := by
  refine (findFileInDict_yields env (showsEntries_entriesOf hcount hptr) (e := e) ?_).run_eq rfl
  cases hfind : (d.entriesOf x).find? fun e => e.fileName = a.fileName with
  | none =>
    rw [List.find?_eq_none] at hfind
    exact absurd (decide_eq_true hname) (hfind e he)
  | some f =>
    have hf : f.fileName = a.fileName := by simpa using List.find?_some hfind
    exact congrArg some
      (List.inj_on_of_nodup_map hnames (List.mem_of_find?_eq_some hfind) he (hf.trans hname.symm))

theorem run_findFileInDict_missing (hcount : x.count < 1536) (hptr : ∀ r < 12, x.ptr r < 64508)
    (hnone : ∀ e ∈ d.entriesOf x, e.fileName ≠ a.fileName) :
    (findFileInDict env x (padTo30 a.chars)).run vdisk d = some (negENOENT, d) :=
  (findFileInDict_yields_missing env (showsEntries_entriesOf hcount.le hptr)
    (Disk.length_entriesOf d x) hcount hnone).run_eq rfl

end Lookup

/-! ### The entries that the calls made -/

/-- The calls that made the entries of a directory, in order. -/
def creationsIn (log : List Created) (as : List Name) : List Created :=
  log.filter fun c => c.parent = as

/-- The entry a call made. -/
def Created.entry (c : Created) : DictioryContent :=
  ⟨c.name.fileName, BitVec.ofNat 32 c.number⟩

theorem children_eq_map (log : List Created) (as : List Name) :
    children log as = (creationsIn log as).map fun c => c.name := rfl

theorem mem_creationsIn {log : List Created} {as : List Name} {c : Created} :
    c ∈ creationsIn log as ↔ c ∈ log ∧ c.parent = as := by
  simp [creationsIn]

namespace Refines

variable {log : List Created} {d : Disk} {as : List Name} {p : ℕ} (h : Refines log d)
include h

/-- The walk to a directory ends at the inode the graph names. -/
theorem resolve_of_run (has : IsDirPath log as) {env : Env}
    (hrun : (understandThePath env (pathChars as)).run vdisk d = some ((p : ℤ), d)) :
    d.graph.resolve 4 (fileNames as) = some p ∧ d.IsDir p := by
  obtain ⟨q, hq, hdir⟩ := h.exists_dir has
  rw [h.sound.walkable.run_understandThePath env hq] at hrun
  obtain rfl : q = p := by
    have hpair := (Prod.mk.inj (Option.some.inj hrun)).1
    omega
  exact ⟨hq, hdir⟩

theorem toInt_number {c : Created} (hc : c ∈ log) :
    (BitVec.ofNat 32 c.number).toInt = c.number := by
  have hlt := h.number_lt hc
  rw [toInt_eq_natCast (by rw [BitVec.toNat_ofNat]; omega), BitVec.toNat_ofNat]
  omega

variable (has : IsDirPath log as) (hp : d.graph.resolve 4 (fileNames as) = some p)
  (hdir : d.IsDir p)
include hp

/-- The entry of a call is the one its name is found at. -/
theorem mem_graph_of_mem {c : Created} (hc : c ∈ creationsIn log as) :
    (c.name.fileName, c.number) ∈ d.graph p := by
  obtain ⟨hlog, rfl⟩ := mem_creationsIn.mp hc
  obtain ⟨q, hq, hlookup⟩ := NameGraph.resolve_map_concat.mp (h.resolve c hlog)
  obtain rfl : p = q := Option.some.inj (hp.symm.trans hq)
  exact NameGraph.mem_of_lookup hlookup

include has hdir

/-- **The entries of a directory are those of its calls**, in order. -/
theorem entriesOf_eq : d.entriesOf (d.inode p) = (creationsIn log as).map Created.entry := by
  have hcount := h.count_eq has hp hdir
  have hlisting := h.listing as p has hp
  rw [children_eq_map, List.length_map] at hcount
  rw [Disk.graph_of_isDir hdir, children_eq_map, fileNames, List.map_map, List.map_map] at hlisting
  refine List.ext_getElem (by rw [Disk.length_entriesOf, List.length_map, hcount])
    fun j hj hj' => ?_
  rw [List.length_map] at hj'
  have hmem : (creationsIn log as)[j] ∈ creationsIn log as := List.getElem_mem hj'
  -- the `j`-th name is that of the `j`-th call, and a name has one number
  have hname : ((d.entriesOf (d.inode p))[j]).fileName =
      ((creationsIn log as)[j]).name.fileName := by
    have hget := congrArg (·[j]?) hlisting
    simp only [List.getElem?_map, List.getElem?_eq_getElem hj, List.getElem?_eq_getElem hj',
      Option.map_some, Option.some.injEq] at hget
    exact hget
  have hedge : ((d.entriesOf (d.inode p))[j]).edge ∈ d.graph p := by
    rw [Disk.graph_of_isDir hdir]
    exact List.mem_map_of_mem (List.getElem_mem hj)
  have hsame := List.inj_on_of_nodup_map (h.sound.directories.graph.proper.names p) hedge
    (h.mem_graph_of_mem hp hmem) hname
  have hnumber := congrArg Prod.snd hsame
  rw [List.getElem_map]
  refine DictioryContent.ext hname (BitVec.eq_of_toNat_eq ?_)
  have hlt := h.number_lt (mem_creationsIn.mp hmem).1
  rw [Created.entry, BitVec.toNat_ofNat, Nat.mod_eq_of_lt (by omega)]
  exact hnumber

theorem entryOf_eq {i : ℕ} {c : Created} (hi : (creationsIn log as)[i]? = some c) :
    i < (d.inode p).count ∧ d.entryOf (d.inode p) i = c.entry := by
  obtain ⟨hlt, rfl⟩ := List.getElem?_eq_some_iff.mp hi
  have hentries := h.entriesOf_eq has hp hdir
  have hlength := congrArg List.length hentries
  rw [Disk.length_entriesOf, List.length_map] at hlength
  have hlt' : i < (d.entriesOf (d.inode p)).length := by
    rw [Disk.length_entriesOf, hlength]
    exact hlt
  refine ⟨by omega, ?_⟩
  rw [← Disk.getElem_entriesOf d (d.inode p) hlt']
  simp only [hentries, List.getElem_map]

omit has hp in
theorem nodup_names : ((d.entriesOf (d.inode p)).map DictioryContent.fileName).Nodup := by
  have hnames := h.sound.directories.graph.proper.names p
  rw [Disk.graph_of_isDir hdir, List.map_map] at hnames
  exact hnames

end Refines

/-- An entry of zeros is none of a call's: names are not empty. -/
theorem Created.entry_ne_zero (c : Created) {j : Fin 128} :
    Block.zero.entries j ≠ c.entry := by
  intro heq
  have hpos : 0 < c.name.chars.length := List.length_pos_iff.mpr c.name.ne_nil
  refine (c.name.fileName_ne_zero_iff 0).mpr hpos ?_
  rw [show c.name.fileName = c.entry.fileName from rfl, ← heq, Block.entries_fileName]
  rfl

/-- A root directory of `n` files. -/
theorem exists_creationRun_count (n : ℕ) (hn : n ≤ 1536) : ∃ log d, CreationRun log d ∧
    children log [] = (List.range n).map nthName ∧ (d.inode 4).count = n := by
  obtain ⟨log, d, hrun, hchildren, -, -⟩ := exists_creationRun_root n hn
  refine ⟨log, d, hrun, hchildren, ?_⟩
  rw [hrun.refines.count_eq (.inl rfl) rfl hrun.refines.sound.directories.root, hchildren,
    List.length_map, List.length_range]

/-! ### Unlinking an entry -/

/-- `fs_unlink` of entry `c` of directory `as`, with the directory correctly found: one entry
fewer, the entries are the former ones without that of `c`, a lookup of its name gives `-ENOENT`,
and one of every other name what it gave before. -/
def UnlinkExact (env : Env) (log : List Created) (d : Disk) (as : List Name) (p : ℕ)
    (c : Created) : Prop :=
  ∃ r d', (unlinkFrom env (pathChars (as ++ [c.name])) (pathChars as)).run vdisk d = some (r, d') ∧
    (d'.inode p).count + 1 = (d.inode p).count ∧
    (c.entry :: d'.entriesOf (d'.inode p)).Perm (d.entriesOf (d.inode p)) ∧
    (findFileInDict env (d'.inode p) (padTo30 c.name.chars)).run vdisk d' = some (negENOENT, d') ∧
    ∀ b ∈ creationsIn log as, b.name ≠ c.name →
      (findFileInDict env (d'.inode p) (padTo30 b.name.chars)).run vdisk d' =
        some ((b.number : ℤ), d')

section Unlink

/-- Entry `k` of a directory, one of the first 128, is overwritten in the first block. -/
theorem Disk.Sound.entryOf_setEntry {d s : Disk} (h : d.Sound) (hs : Disk.Marks d s) {p k : ℕ}
    (hp : d.IsDir p) (hk : k < 128) (e : DictioryContent) {j : ℕ} (hj : j < (d.inode p).count) :
    (s.setData ((d.inode p).ptr 0) ((s.data ((d.inode p).ptr 0)).setEntry k e)).entryOf
      (d.inode p) j = if j = k then e else d.entryOf (d.inode p) j := by
  have hkm : k % 128 = k := Nat.mod_eq_of_lt hk
  by_cases hj0 : j / 128 = 0
  · have hjm : j % 128 = j := by omega
    rw [Disk.entryOf, hj0, Disk.data_setData_self, Block.entry_setEntry, hjm, hkm,
      Disk.entryOf, hj0, hs.data]
  · have hne : (d.inode p).ptr (j / 128) ≠ (d.inode p).ptr 0 := fun heq =>
      hj0 (h.pointers.inj p hp.1 p hp.1 _ _
        ((h.directories.dir p hp).block _ (by omega)) heq).2
    rw [if_neg (by omega), Disk.entryOf, Disk.data_setData, if_neg hne, hs.data, Disk.entryOf]

variable (env : Env) {log : List Created} {d : Disk} {as : List Name} {p i : ℕ} {c : Created}

theorem MarkedFrom.rankEntry_eq {s : Disk} (h : MarkedFrom d s) (x : INode) (r : ℕ) :
    rankEntry env s x r = rankEntry env d x r := by
  rw [rankEntry, rankEntry, Disk.entryOf_congr rfl (h.marks.data _)]

/-- No other entry of the directory has the number. -/
theorem Refines.number_ne_of_ne (h : Refines log d) (hdir : d.IsDir p)
    (hlt : i < (d.inode p).count)
    (htoNat : (d.entryOf (d.inode p) i).inodeNumber.toNat = c.number) {j : ℕ}
    (hj : j < (d.inode p).count) (hji : j ≠ i) :
    (d.entryOf (d.inode p) j).inodeNumber.toNat ≠ c.number := by
  intro heq
  have hedges := h.sound.directories.graph.proper.targets p
  rw [Disk.graph_of_isDir hdir, List.map_map, Disk.entriesOf, List.map_map] at hedges
  refine hji (List.inj_on_of_nodup_map hedges (List.mem_range.mpr hj) (List.mem_range.mpr hlt) ?_)
  exact heq.trans htoNat.symm

/-- The entries that are left are those the slots hold after the loop, one less. -/
theorem entriesOf_shrunk (hdir : d.IsDir p) (hpos : 32 ≤ (d.inode p).stSize.toNat) {t : Disk}
    (k : ℕ) (f : ℕ → DictioryContent)
    (hf : ∀ j < (d.inode p).count, t.entryOf (d.inode p) j = f j) :
    ((t.uncoverInode k).setInode p ((d.inode p).shrunk env 0)).entriesOf
      ((d.inode p).shrunk env 0) = (List.range ((d.inode p).count - 1)).map f := by
  have hshrunk := INode.toNat_shrunk env 0 (x := d.inode p) hpos
  have hcount : ((d.inode p).shrunk env 0).count = (d.inode p).count - 1 := by
    rw [INode.count, INode.count]
    omega
  rw [Disk.entriesOf, hcount]
  refine List.map_congr_left fun j hj => ?_
  rw [List.mem_range] at hj
  rw [← hf j (by omega)]
  exact Disk.entryOf_congr ((INode.sameBlocks_shrunk env 0 (d.inode p)).ptr _)
    (by rw [Disk.data_setInode hdir.1, Disk.data_uncoverInode])

/-- The entries after `fs_unlink` of entry `i`: one of the first 12 is replaced by what is read as
the last one, and the last one goes. -/
theorem Refines.run_unlink_creation (h : Refines log d) (has : IsDirPath log as)
    (hp : d.graph.resolve 4 (fileNames as) = some p) (hdir : d.IsDir p)
    (hi : (creationsIn log as)[i]? = some c) :
    ∃ d', (unlinkFrom env (pathChars (as ++ [c.name])) (pathChars as)).run vdisk d =
        some (0, d') ∧ d'.inode p = (d.inode p).shrunk env 0 ∧
      d'.entriesOf (d'.inode p) = (List.range ((d.inode p).count - 1)).map fun j =>
        if j = i ∧ i < 12 then rankEntry env d (d.inode p) ((d.inode p).count - 1)
        else d.entryOf (d.inode p) j := by
  obtain ⟨hlt, hentry⟩ := h.entryOf_eq has hp hdir hi
  have hc := List.mem_of_getElem? hi
  obtain ⟨hlog, hparent⟩ := mem_creationsIn.mp hc
  have hnumber := h.number_lt hlog
  have hpath := h.sound.walkable.run_understandThePath env (h.resolve c hlog)
  rw [Creation.path, hparent] at hpath
  have hwalk := h.sound.walkable.run_understandThePath env hp
  have hok := h.sound.directories.dir p hdir
  have hpos : 32 ≤ (d.inode p).stSize.toNat := by
    rw [hok.size_eq]
    omega
  have htoNat : (d.entryOf (d.inode p) i).inodeNumber.toNat = c.number := by
    rw [hentry, Created.entry, BitVec.toNat_ofNat]
    omega
  have hresult {t : Disk}
      (hloop : (unlinkLoop env c.number (d.inode p) (d.inode p).count 0).run vdisk
      d = some ((), t)) := run_unlinkFrom env h.sound hdir hnumber hpath hwalk hloop
  -- an entry below rank 12 is overwritten with the last one, the others stay
  by_cases h12 : i < 12
  · obtain ⟨s, hs, hloop⟩ := run_unlinkLoop env h.sound hdir hnumber hlt h12 htoNat
      (fun j hj => h.number_ne_of_ne hdir hlt htoNat (by omega) (by omega)) _ 0 (Nat.zero_add _)
        (Nat.zero_le i)
    refine ⟨_, hresult hloop, by rw [Disk.inode_setInode, if_pos rfl], ?_⟩
    rw [Disk.inode_setInode, if_pos rfl]
    refine entriesOf_shrunk env hdir hpos c.number _ fun j hj => ?_
    rw [h.sound.entryOf_setEntry hs.marks hdir (by omega) _ hj, hs.rankEntry_eq]
    simp only [h12, and_true]
  · obtain ⟨s, hs, hloop⟩ := run_unlinkLoop_high env h.sound hdir hnumber
      (fun j hj hjc => h.number_ne_of_ne hdir hlt htoNat hjc (by omega)) _ 0 (Nat.zero_add _)
    refine ⟨_, hresult hloop, by rw [Disk.inode_setInode, if_pos rfl], ?_⟩
    rw [Disk.inode_setInode, if_pos rfl]
    refine entriesOf_shrunk env hdir hpos c.number _ fun j _ => ?_
    rw [if_neg fun hand => h12 hand.2]
    exact Disk.entryOf_congr rfl (hs.marks.data _)

/-- What is left of a directory is searched without trouble. -/
theorem Refines.unlinkExact_of_perm (h : Refines log d) (has : IsDirPath log as)
    (hp : d.graph.resolve 4 (fileNames as) = some p) (hdir : d.IsDir p) {r : ℤ} {d' : Disk}
    (hrun : (unlinkFrom env (pathChars (as ++ [c.name])) (pathChars as)).run vdisk d = some (r, d'))
    (hinode : d'.inode p = (d.inode p).shrunk env 0)
    (hperm : (c.entry :: d'.entriesOf (d'.inode p)).Perm (d.entriesOf (d.inode p))) :
    UnlinkExact env log d as p c := by
  have hlength := hperm.length_eq
  rw [List.length_cons, Disk.length_entriesOf, Disk.length_entriesOf] at hlength
  have hle := (h.sound.directories.dir p hdir).count_le
  have hptr (q : ℕ) (_ : q < 12) : (d'.inode p).ptr q < 64508 := by
    rw [hinode, (INode.sameBlocks_shrunk env 0 (d.inode p)).ptr]
    exact h.sound.pointers.lt p hdir.1 q
  have hnames := ((hperm.map DictioryContent.fileName).nodup_iff.mpr (h.nodup_names hdir))
  rw [List.map_cons, List.nodup_cons] at hnames
  refine ⟨r, d', hrun, hlength, hperm, ?_, fun b hb hne => ?_⟩
  · exact run_findFileInDict_missing env (by omega) hptr fun e he heq =>
      hnames.1 (List.mem_map.mpr ⟨e, he, heq⟩)
  · have hentries := h.entriesOf_eq has hp hdir
    have hmem : b.entry ∈ d.entriesOf (d.inode p) := hentries ▸ List.mem_map_of_mem hb
    rcases List.mem_cons.mp (hperm.mem_iff.mpr hmem) with heq | hmem
    · exact absurd (Name.fileName_injective (congrArg DictioryContent.fileName heq)) hne
    · rw [← h.toInt_number (mem_creationsIn.mp hb).1]
      exact run_findFileInDict_of_mem env (by omega) hptr hnames.2 hmem rfl

/-- With a buffer of zeros the entry of a large directory is replaced by zeros, or it is the last
entry that goes. -/
theorem Refines.not_unlinkExact_plainEnv (h : Refines log d) (has : IsDirPath log as)
    (hp : d.graph.resolve 4 (fileNames as) = some p) (hdir : d.IsDir p)
    (hi : (creationsIn log as)[i]? = some c) (hcount : 12 < (d.inode p).count)
    (hlast : i + 1 ≠ (d.inode p).count) : ¬ UnlinkExact plainEnv log d as p c := by
  rintro ⟨r, d', hrun, -, hperm, -, -⟩
  obtain ⟨hlt, hentry⟩ := h.entryOf_eq has hp hdir hi
  obtain ⟨t, ht, -, hentries⟩ := h.run_unlink_creation plainEnv has hp hdir hi
  obtain ⟨-, rfl⟩ := Prog.run_inj vdisk ht hrun
  have hmem : i ∈ List.range ((d.inode p).count - 1) := List.mem_range.mpr (by omega)
  by_cases h12 : i < 12
  · -- an entry of zeros would be one of the directory's
    have hin : rankEntry plainEnv d (d.inode p) ((d.inode p).count - 1) ∈
        t.entriesOf (t.inode p) := by
      rw [hentries]
      exact List.mem_map.mpr ⟨i, hmem, if_pos ⟨rfl, h12⟩⟩
    have hold := hperm.mem_iff.mp (List.mem_cons_of_mem _ hin)
    rw [h.entriesOf_eq has hp hdir] at hold
    obtain ⟨b, -, hb⟩ := List.mem_map.mp hold
    rw [rankEntry, if_neg (by omega)] at hb
    exact b.entry_ne_zero hb.symm
  · -- the entry is still there
    have hin : c.entry ∈ t.entriesOf (t.inode p) := by
      rw [hentries, ← hentry]
      exact List.mem_map.mpr ⟨i, hmem, if_neg fun hand => h12 hand.2⟩
    have hnodup := hperm.nodup_iff.mpr ((h.nodup_names hdir).of_map _)
    exact (List.nodup_cons.mp hnodup).1 hin

/-- **Unlinking takes exactly one entry out exactly when** the directory has at most 12 entries or
the entry is the last one. -/
theorem unlink_exact_iff (h : CreationRun log d) (has : IsDirPath log as)
    (hp : (understandThePath plainEnv (pathChars as)).run vdisk d = some ((p : ℤ), d))
    (hi : (creationsIn log as)[i]? = some c) :
    (∀ env, UnlinkExact env log d as p c) ↔
      (d.inode p).count ≤ 12 ∨ i + 1 = (d.inode p).count := by
  have hr := h.refines
  obtain ⟨hresolve, hdir⟩ := hr.resolve_of_run has hp
  constructor
  · intro hall
    by_contra hcond
    obtain ⟨hcount, hlast⟩ := not_or.mp hcond
    exact hr.not_unlinkExact_plainEnv has hresolve hdir hi (not_le.mp hcount) hlast (hall plainEnv)
  · intro hcond env
    obtain ⟨hlt, hentry⟩ := hr.entryOf_eq has hresolve hdir hi
    obtain ⟨d', hrun, hinode, hentries⟩ := hr.run_unlink_creation env has hresolve hdir hi
    refine hr.unlinkExact_of_perm env has hresolve hdir hrun hinode ?_
    obtain ⟨n, hn⟩ : ∃ n, (d.inode p).count = n + 1 := ⟨(d.inode p).count - 1, by omega⟩
    -- the entries are the old ones without the one removed, up to their order
    have hnew : d'.entriesOf (d'.inode p) = (List.range n).map fun j =>
        if j = i then d.entryOf (d.inode p) n else d.entryOf (d.inode p) j := by
      rw [hentries, hn, Nat.add_sub_cancel]
      refine List.map_congr_left fun j hj => ?_
      rw [List.mem_range] at hj
      by_cases hji : j = i
      · have hsmall : n < 12 := by omega
        rw [if_pos ⟨hji, by omega⟩, if_pos hji, rankEntry, if_pos hsmall]
      · rw [if_neg fun hand => hji hand.1, if_neg hji]
    have hk : i < ((List.range (n + 1)).map (d.entryOf (d.inode p))).length := by
      rw [List.length_map, List.length_range]
      omega
    have hkth : ((List.range (n + 1)).map (d.entryOf (d.inode p)))[i] = c.entry := by
      rw [List.getElem_map, List.getElem_range, hentry]
    rw [hnew, Disk.entriesOf, hn, ← hkth]
    exact ((perm_eraseIdx_range (d.entryOf (d.inode p)) (by omega)).cons _).trans
      (List.getElem_cons_eraseIdx_perm hk)

end Unlink

theorem length_creationsIn {log : List Created} {n : ℕ}
    (h : children log [] = (List.range n).map nthName) : (creationsIn log []).length = n := by
  have hlength := congrArg List.length h
  rwa [children_eq_map, List.length_map, List.length_map, List.length_range] at hlength

/-- The second of five files in the root is unlinked. -/
theorem unlink_exact_second_of_five : ∃ log d c, CreationRun log d ∧
    children log [] = (List.range 5).map nthName ∧ (creationsIn log [])[1]? = some c ∧
    ∀ env, UnlinkExact env log d [] 4 c := by
  obtain ⟨log, d, hrun, hchildren, hcount⟩ := exists_creationRun_count 5 (by decide)
  have hlength := length_creationsIn hchildren
  have hget := List.getElem?_eq_getElem (show 1 < (creationsIn log []).length by omega)
  exact ⟨log, d, _, hrun, hchildren, hget, (unlink_exact_iff hrun (.inl rfl)
    (run_understandThePath_root plainEnv d) hget).mpr (.inl (by omega))⟩

/-- Unlinking the first of 13 files leaves an entry of zeros. -/
theorem not_unlink_exact_thirteen : ∃ log d c, CreationRun log d ∧
    (creationsIn log [])[0]? = some c ∧ ¬ UnlinkExact plainEnv log d [] 4 c := by
  obtain ⟨log, d, hrun, hchildren, hcount⟩ := exists_creationRun_count 13 (by decide)
  have hlength := length_creationsIn hchildren
  have hget := List.getElem?_eq_getElem (show 0 < (creationsIn log []).length by omega)
  exact ⟨log, d, _, hrun, hget, hrun.refines.not_unlinkExact_plainEnv (.inl rfl) rfl
    hrun.refines.sound.directories.root hget (by omega) (by omega)⟩

end InodeFs
