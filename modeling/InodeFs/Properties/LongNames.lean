import InodeFs.Properties.Frame
import InodeFs.Properties.NameBuffers
import InodeFs.Properties.Runs

/-!
# Names of any length

What the creations that return 0 do with names of more than the 24 bytes that `fs_statfs` declares.
`Disk.Renamed` relates a disk to one that differs in the name bytes of its entries at most; a
creation of any name on the one is a creation of a fresh short name on the other
(`Renamed.withCreation`), so all that the invariant of sound disks says but for names carries over
to the runs of `LongRun`. There two names are told apart exactly if they differ within the 28 bytes
that are stored (`names_handled_iff`).

The name of an entry has 28 bytes, which are stored and compared without regard to a NUL. A name of
29 or 30 characters is stored without its end, and found again by any name with the same beginning.
A name of 31 characters does not get that far: it overflows the buffer into which the path is cut,
and so do lookups of it.

`Renamed` spares a second invariant. The disk of a run with long names is not sound, since two
entries of a directory may have the same name, but its maps, records and blocks are those of a disk
that is. What is needed beyond that, the entries with their bytes, is followed separately
(`CanStore.entriesOf_withCreation`, `CanStore.mem_graph_withCreation`).
-/

namespace InodeFs

variable (env : Env)

/-! ### Disks that differ in names -/

/-- The disks differ in the name bytes of entries at most. -/
structure Disk.Renamed (d s : Disk) : Prop where
  imap : ∀ j < 32768, d.imap j = s.imap j
  dmap : ∀ c < 65536, d.dmap c = s.dmap c
  inode : ∀ i < 32768, d.inode i = s.inode i
  number : ∀ c j, ((d.data c).entry j).inodeNumber = ((s.data c).entry j).inodeNumber

namespace Disk

theorem Renamed.refl (d : Disk) : d.Renamed d :=
  ⟨fun _ _ => rfl, fun _ _ => rfl, fun _ _ => rfl, fun _ _ => rfl⟩

section Renamed

variable {d s : Disk} (h : d.Renamed s) {p : ℕ}
include h

theorem Renamed.isDir_iff : d.IsDir p ↔ s.IsDir p :=
  and_congr_right fun hp => by rw [h.inode p hp]

theorem Renamed.nextInode_eq : d.nextInode = s.nextInode := by
  have hfree : d.freeInode = s.freeInode := by
    rw [freeInode, freeInode]
    exact List.find?_congr fun n hn => by rw [h.imap n (List.mem_range.mp hn)]
  rw [nextInode, hfree, nextInode]

theorem Renamed.nextData_eq : d.nextData = s.nextData := by
  have hfree : d.freeData = s.freeData := by
    rw [freeData, freeData]
    exact List.find?_congr fun n hn => by rw [h.dmap n (List.mem_range.mp hn)]
  rw [nextData, hfree, nextData]

theorem Renamed.blockFor_eq (hp : p < 32768) (n : ℕ) :
    d.blockFor (d.inode p) n = s.blockFor (s.inode p) n := by
  rw [blockFor, blockFor, h.nextData_eq, h.inode p hp]

/-- The targets of a directory's entries are the same. -/
theorem Renamed.targets_eq : (d.graph p).map Prod.snd = (s.graph p).map Prod.snd := by
  by_cases hp : d.IsDir p
  · rw [graph_of_isDir hp, graph_of_isDir (h.isDir_iff.mp hp), List.map_map, List.map_map,
      entriesOf, entriesOf, List.map_map, List.map_map, h.inode p hp.1]
    exact List.map_congr_left fun j _ => congrArg BitVec.toNat (h.number _ _)
  · rw [graph_of_not_isDir hp, graph_of_not_isDir fun hs => hp (h.isDir_iff.mpr hs)]

/-- What is created on both disks keeps them alike, whatever its name. -/
theorem Renamed.withCreation (mode : BitVec 32) (hp : p < 32768) (n : ℕ) (a b : FileName) :
    (d.withCreation env mode p n a).Renamed (s.withCreation env mode p n b) where
  imap j hj := by
    rw [imap_withCreation env hj, imap_withCreation env hj, h.imap j hj, h.nextInode_eq]
  dmap c hc := by
    rw [dmap_withCreation env hc, dmap_withCreation env hc, h.dmap c hc, h.blockFor_eq hp]
  inode i hi := by
    rw [inode_withCreation env hi, inode_withCreation env hi, h.inode i hi, h.inode p hp,
      h.nextInode_eq, h.inode _ s.nextInode_lt, ← h.blockFor_eq hp, h.inode p hp]
  number c j := by
    rw [data_withCreation env hp, data_withCreation env hp, h.blockFor_eq hp, h.nextInode_eq]
    split
    · rw [Block.entry_setEntry, Block.entry_setEntry]
      split
      · rfl
      · exact h.number c j
    · exact h.number c j

variable (hs : s.Sound)
include hs

theorem Renamed.pointersOk : d.PointersOk :=
  hs.pointers.congr (fun i hi r => by rw [h.inode i hi]) (fun i hi => by rw [h.inode i hi])
    (fun i hi hset => by rw [h.imap i hi, hset]) fun b hb hset => by rw [h.dmap b hb, hset]

theorem Renamed.dirOk (hp : d.IsDir p) : d.DirOk p := by
  have hok := hs.directories.dir p (h.isDir_iff.mp hp)
  have hinode := h.inode p hp.1
  exact ⟨by rw [h.imap p hp.1]; exact hok.marked, by rw [hinode]; exact hok.size_eq,
    by rw [hinode]; exact hok.count_le, by rw [hinode]; exact hok.block⟩

theorem Renamed.walkable : d.Walkable where
  count_le p hp := (h.dirOk hs hp).count_le
  ptr_lt p hp r _ := (h.pointersOk hs).lt p hp.1 r
  number_lt p e he := by
    have hmem : e.2 ∈ (s.graph p).map Prod.snd := h.targets_eq ▸ List.mem_map_of_mem he
    obtain ⟨f, hf, heq⟩ := List.mem_map.mp hmem
    rw [← heq]
    exact hs.directories.graph.target_lt p f hf

end Renamed

/-! ### A creation of any name -/

/-- What a creation in directory `p` needs, whatever its name. -/
structure CanStore (d : Disk) (p : ℕ) : Prop where
  dir : d.IsDir p
  inode : d.HasInode
  count_lt : (d.inode p).count < 1536
  room : d.HasRoom (d.inode p)

/-- A directory that is not full lacks one of the names `@@`, `@A`, .... -/
theorem exists_lookup_eq_none {s : Disk} {p : ℕ} (hp : s.IsDir p)
    (hcount : (s.inode p).count < 1536) : ∃ a : Name, s.graph.lookup p a.fileName = none := by
  by_contra hnone
  push Not at hnone
  have hsub : (List.range 1536).map (fun n => (nthName n).fileName) ⊆ (s.graph p).map Prod.fst := by
    intro a ha
    obtain ⟨n, -, rfl⟩ := List.mem_map.mp ha
    obtain ⟨i, hi⟩ := Option.ne_none_iff_exists'.mp (hnone (nthName n))
    exact List.mem_map_of_mem (NameGraph.mem_of_lookup hi)
  have hnodup : ((List.range 1536).map fun n => (nthName n).fileName).Nodup := by
    refine List.Nodup.map_on (fun m hm n hn heq => ?_) List.nodup_range
    rw [List.mem_range] at hm hn
    exact nthName_inj (by omega) (by omega) (Name.fileName_injective heq)
  have hle := (hnodup.subperm hsub).length_le
  rw [List.length_map, List.length_range, List.length_map, length_graph hp] at hle
  omega

section Store

variable {d s : Disk} {p : ℕ} (h : d.Renamed s) (hp : d.CanStore p)
include h hp

theorem Renamed.canStore : s.CanStore p := by
  obtain ⟨j, hj, hfree⟩ := hp.inode
  refine ⟨h.isDir_iff.mp hp.dir, ⟨j, hj, by rw [← h.imap j hj, hfree]⟩, ?_, fun h0 => ?_⟩
  · rw [← h.inode p hp.dir.1]
    exact hp.count_lt
  · rw [← h.inode p hp.dir.1] at h0
    obtain ⟨c, hc, hclear⟩ := hp.room h0
    exact ⟨c, hc, by rw [← h.dmap c (by omega), hclear]⟩

variable (hs : s.Sound) (mode : BitVec 32)
include hs

theorem CanStore.blockFor_lt : d.blockFor (d.inode p) (d.inode p).count < 64508 :=
  blockFor_count_lt hp.count_lt hp.room fun r _ => (h.pointersOk hs).lt p hp.dir.1 r

theorem CanStore.ne_nextInode {q : ℕ} (hq : d.IsDir q) : q ≠ d.nextInode := by
  rintro rfl
  have hmarked := (h.dirOk hs hq).marked
  rw [hp.inode.imap_nextInode] at hmarked
  cases hmarked

/-- The call of a creation, from the parent's number on. -/
theorem CanStore.run_createIn (son : Fin 30 → Byte) :
    (createIn env (applyANewInodeWithMode env mode) p son).run vdisk d =
      some (0, d.withCreation env mode p (d.inode p).count (fileNameOf son)) :=
  InodeFs.run_createIn env mode son hp.dir.1 (hp.ne_nextInode h hs hp.dir)
    (INode.tdiv_stSize hp.count_lt) hp.count_lt (hp.blockFor_lt h hs)

omit h hp in
/-- With a name that the directory does not have this is the creation on a sound disk. -/
theorem Sound.withCreation_eq {a : Name} (hc : s.CanCreate p a) :
    s.withCreation env mode p (s.inode p).count a.fileName =
      s.created env mode p a s.nextInode := by
  have hstore : s.CanStore p := ⟨hc.dir, hc.inode, hc.count_lt, hc.room⟩
  have hrun := hstore.run_createIn env (.refl s) hs mode (padTo30 a.chars)
  rw [run_createIn_eq, Name.fileNameOf_padTo30, hc.run_mountInFather env mode hs] at hrun
  exact (Prod.mk.inj (Option.some.inj hrun)).2.symm

/-- **A creation of any name** leaves a disk that differs in names from one that a creation of a
short name leaves. -/
theorem Renamed.exists_withCreation (name : FileName) : ∃ a, s.CanCreate p a ∧
    (d.withCreation env mode p (d.inode p).count name).Renamed
      (s.created env mode p a s.nextInode) := by
  have hstore := h.canStore hp
  obtain ⟨a, ha⟩ := exists_lookup_eq_none hstore.dir hstore.count_lt
  have hc : s.CanCreate p a := ⟨hstore.dir, hstore.inode, hstore.count_lt, ha, hstore.room⟩
  refine ⟨a, hc, ?_⟩
  rw [← hs.withCreation_eq env mode hc, h.inode p hp.dir.1]
  exact h.withCreation env mode hp.dir.1 _ name a.fileName

/-! ### The entries behind a creation -/

/-- The slot of a new entry is none that a directory uses. -/
theorem CanStore.slot_ne {q j : ℕ} (hq : d.IsDir q) (hj : j < (d.inode q).count)
    (hblock : (d.inode q).ptr (j / 128) = d.blockFor (d.inode p) (d.inode p).count) :
    ¬ j % 128 = (d.inode p).count % 128 := by
  have hptr := h.pointersOk hs
  rw [blockFor] at hblock
  split at hblock
  · next h0 => exact absurd hblock (hptr.ptr_ne_of_free hq.1 (hp.room h0).dmap_nextData)
  · next h0 =>
    have hused := (h.dirOk hs hp.dir).block ((d.inode p).count / 128) (by omega)
    obtain ⟨rfl, hrank⟩ := hptr.inj p hp.dir.1 q hq.1 _ _ hused hblock.symm
    omega

/-- The record of a directory behind a creation: its kind, its size and its pointers. -/
theorem CanStore.inode_withCreation {q : ℕ} (hq : d.IsDir q) (name : FileName) :
    ((d.withCreation env mode p (d.inode p).count name).inode q).stMode = dirMode ∧
      ((d.withCreation env mode p (d.inode p).count name).inode q).count =
        (d.inode q).count + (if q = p then 1 else 0) ∧
      ∀ r, ((d.withCreation env mode p (d.inode p).count name).inode q).ptr r =
        if q = p ∧ (d.inode p).count % 128 = 0 ∧ r = (d.inode p).count / 128 then
          d.blockFor (d.inode p) (d.inode p).count
        else (d.inode q).ptr r := by
  have hb := hp.blockFor_lt h hs
  have hlt := hp.count_lt
  rw [Disk.inode_withCreation env hq.1]
  by_cases hqp : q = p
  · subst hqp
    have hsize := (h.dirOk hs hq).size_eq
    rw [if_pos rfl, if_pos rfl]
    refine ⟨?_, INode.count_eq_of_toNat ?_, fun r => ?_⟩
    · split
      · exact (INode.setPtr_stMode _ _ _).trans hq.2
      · exact hq.2
    · split
      · rw [INode.toNat_grown env 3 (by rw [INode.setPtr_stSize]; omega),
          INode.setPtr_stSize, hsize]
        omega
      · rw [INode.toNat_grown env 3 (by omega), hsize]
        omega
    · split
      · next h0 =>
        refine ((INode.sameBlocks_grown env 3 _).ptr r).trans ?_
        rw [INode.ptr_setPtr _ (by omega) (by omega)]
        simp [h0]
      · next h0 =>
        refine ((INode.sameBlocks_grown env 3 _).ptr r).trans ?_
        rw [if_neg fun hand => h0 hand.2.1]
  · rw [if_neg hqp, if_neg (hp.ne_nextInode h hs hq)]
    exact ⟨hq.2, by rw [if_neg hqp, Nat.add_zero], fun r => by rw [if_neg fun hand => hqp hand.1]⟩

/-- **The entries behind a creation**: those that were there, and in its directory the new one. -/
theorem CanStore.entriesOf_withCreation {q : ℕ} (hq : d.IsDir q) (name : FileName) :
    (d.withCreation env mode p (d.inode p).count name).entriesOf
        ((d.withCreation env mode p (d.inode p).count name).inode q) =
      d.entriesOf (d.inode q) ++
        if q = p then [⟨name, BitVec.ofInt 32 d.nextInode⟩] else [] := by
  obtain ⟨-, hcount, hptr⟩ := hp.inode_withCreation env h hs mode hq name
  have hold (j : ℕ) (hj : j < (d.inode q).count) :
      (d.withCreation env mode p (d.inode p).count name).entryOf
        ((d.withCreation env mode p (d.inode p).count name).inode q) j =
      d.entryOf (d.inode q) j := by
    have hsame : ((d.withCreation env mode p (d.inode p).count name).inode q).ptr (j / 128) =
        (d.inode q).ptr (j / 128) := by
      rw [hptr, if_neg]
      rintro ⟨rfl, h0, hrank⟩
      omega
    rw [entryOf, hsame, data_withCreation env hp.dir.1, entryOf]
    split
    · next hblock => rw [Block.entry_setEntry, if_neg (hp.slot_ne h hs hq hj hblock)]
    · rfl
  by_cases hqp : q = p
  · subst hqp
    rw [if_pos rfl] at hcount
    rw [if_pos rfl, entriesOf_append hcount hold]
    have hblock : ((d.withCreation env mode q (d.inode q).count name).inode q).ptr
        ((d.inode q).count / 128) = d.blockFor (d.inode q) (d.inode q).count := by
      rw [hptr, blockFor]
      by_cases h0 : (d.inode q).count % 128 = 0
      · rw [if_pos ⟨rfl, h0, rfl⟩]
      · rw [if_neg fun hand => h0 hand.2.1, if_neg h0]
    rw [entryOf, hblock, data_withCreation env hp.dir.1, if_pos rfl, Block.entry_setEntry,
      if_pos rfl]
  · rw [if_neg hqp, Nat.add_zero] at hcount
    rw [if_neg hqp, List.append_nil, entriesOf_congr hcount hold]

omit h hs in
/-- The directories behind a creation: those that were there, and perhaps the new inode, empty. -/
theorem CanStore.isDir_withCreation {q : ℕ} (name : FileName)
    (hq : (d.withCreation env mode p (d.inode p).count name).IsDir q) : d.IsDir q ∨
      q = d.nextInode ∧
        ((d.withCreation env mode p (d.inode p).count name).inode q).count = 0 := by
  by_cases hqp : q = p
  · exact .inl (hqp ▸ hp.dir)
  · have hinode : (d.withCreation env mode p (d.inode p).count name).inode q = _ :=
      Disk.inode_withCreation env hq.1
    rw [if_neg hqp] at hinode
    split at hinode
    · next hnew => exact .inr ⟨hnew, by rw [hinode, count_freshINode]⟩
    · exact .inl ⟨hq.1, hinode ▸ hq.2⟩

theorem CanStore.graph_withCreation {q : ℕ} (hq : d.IsDir q) (name : FileName) :
    (d.withCreation env mode p (d.inode p).count name).graph q =
      d.graph q ++ if q = p then [(name, d.nextInode)] else [] := by
  have hmode := (hp.inode_withCreation env h hs mode hq name).1
  rw [graph_of_isDir ⟨hq.1, hmode⟩, hp.entriesOf_withCreation env h hs mode hq, List.map_append,
    graph_of_isDir hq]
  split
  · rw [List.map_singleton, DictioryContent.edge, d.toNat_newEntry]
  · rfl

/-- Every entry stays. -/
theorem CanStore.mem_graph_withCreation {q : ℕ} (name : FileName) {e : FileName × ℕ}
    (he : e ∈ d.graph q) : e ∈ (d.withCreation env mode p (d.inode p).count name).graph q := by
  rw [hp.graph_withCreation env h hs mode (isDir_of_mem_graph he)]
  exact List.mem_append_left _ he

/-- The new one is there. -/
theorem CanStore.mem_graph_new (name : FileName) : (name, d.nextInode) ∈
    (d.withCreation env mode p (d.inode p).count name).graph p := by
  rw [hp.graph_withCreation env h hs mode hp.dir, if_pos rfl]
  exact List.mem_append_right _ (List.mem_singleton.mpr rfl)

end Store

end Disk

/-! ### Runs with names of any length -/

/-- The directory lists the name. -/
def Disk.Lists (d : Disk) (p : ℕ) (c : Component) : Prop :=
  ∃ i, d.graph.lookup p c.fileName = some i

/-- **The runs with names of any length**: behind the calls of a safe run, creations that return 0,
in directories that have room; `log` lists their directories and names. -/
inductive LongRun : List (ℕ × Component) → Disk → Prop
  | safe {d : Disk} (run : SafeRun d) : LongRun [] d
  | create {log : List (ℕ × Component)} {d d' : Disk} {kind : Kind} {parent : List Component}
      {last : Component} {p : ℕ} {env : Env} {behind : ℕ → Byte} (run : LongRun log d)
      (found : d.graph.resolve 4 (parent.map Component.fileName) = some p) (room : d.CanStore p)
      (call : (kind.call env (componentString parent last behind)).run vdisk d = some (0, d')) :
      LongRun (log ++ [(p, last)]) d'

/-- The split of a path whose last component fits. -/
theorem splitPath_componentString (parent : List Component) {last : Component} (behind : ℕ → Byte)
    (hlength : last.chars.length ≤ 30) : splitPath (componentString parent last behind).chars =
      .ret (componentPath parent, padTo30 last.chars) := by
  rw [chars_componentString, splitPath_append _ last.noSlash, if_neg (Nat.not_lt.mpr hlength)]
  simp only [joinComponents_eq_nil]
  rfl

namespace Disk.Walkable

variable {d : Disk} (hd : d.Walkable) {p q : ℕ}
include hd

/-- The walk along components that exist. -/
theorem run_understandLoop_components {c : Component} {cs : List Component}
    (hfits : d.NamesFit p (c :: cs))
    (h : d.graph.resolve p ((c :: cs).map Component.fileName) = some q) (r : ℤ) :
    (understandLoop env (c.chars ++ joinComponents cs) r (d.inode p)).run vdisk d =
      some ((q : ℤ), d) := by
  induction cs generalizing p c with
  | nil =>
    rw [List.map_singleton, NameGraph.resolve_cons, Option.bind_eq_some_iff] at h
    obtain ⟨i, hi, hresolve⟩ := h
    obtain rfl := Option.some.inj hresolve
    rw [joinComponents_nil, List.append_nil, understandLoop_last env c.ne_nil hfits.1 c.noSlash]
    exact (hd.run_findFileInDict env hi).1
  | cons b cs ih =>
    rw [List.map_cons, NameGraph.resolve_cons, Option.bind_eq_some_iff] at h
    obtain ⟨i, hi, hresolve⟩ := h
    obtain ⟨hfind, hlt⟩ := hd.run_findFileInDict env hi
    rw [joinComponents_cons, understandLoop_inner env hfits.1 c.noSlash, Prog.run_bind_some _ hfind,
      Prog.run_bind_some _ (run_justReadInodeFromDisk env hlt d)]
    exact ih (hfits.2 i hi) hresolve

theorem run_understandThePath_components {cs : List Component} (hfits : d.NamesFit 4 cs)
    (h : d.graph.resolve 4 (cs.map Component.fileName) = some q) :
    (understandThePath env (componentPath cs)).run vdisk d = some ((q : ℤ), d) := by
  cases cs with
  | nil =>
    obtain rfl := Option.some.inj h
    exact run_understandThePath_root env d
  | cons c cs =>
    rw [understandThePath, drop_componentPath, joinComponents_cons, List.drop_succ_cons,
      List.drop_zero, Prog.run_bind_some _ (run_justReadInodeFromDisk_root env d)]
    exact hd.run_understandLoop_components env hfits h _

/-- The call of a creation whose names fit. -/
theorem run_call (kind : Kind) {parent : List Component} {last : Component} (behind : ℕ → Byte)
    (hlength : last.chars.length ≤ 30) (hfits : d.NamesFit 4 parent)
    (h : d.graph.resolve 4 (parent.map Component.fileName) = some p) :
    (kind.call env (componentString parent last behind)).run vdisk d =
      (createIn env (applyANewInodeWithMode env kind.mode) p (padTo30 last.chars)).run vdisk d := by
  rw [Kind.call_eq]
  exact run_fsCreate_createIn env _ (splitPath_componentString parent behind hlength)
    (hd.run_understandThePath_components env hfits h)

/-- **A creation that returns** has copied only names that fit. -/
theorem fits_of_run_call {kind : Kind} {parent : List Component} {last : Component}
    {behind : ℕ → Byte} {r : ℤ × Disk}
    (hcall : (kind.call env (componentString parent last behind)).run vdisk d = some r) :
    last.chars.length ≤ 30 ∧ d.NamesFit 4 parent := by
  rw [Kind.call_eq] at hcall
  by_contra hnot
  have hnone := (hd.overflows_fsCreateOver env hnot (applyANewInodeWithMode env kind.mode)
    behind).run_undefined
  rw [fsCreateOver_undefined, hcall] at hnone
  cases hnone

end Disk.Walkable

theorem Disk.lists_iff {d : Disk} {p : ℕ} {c : Component} :
    d.Lists p c ↔ ∃ i, (c.fileName, i) ∈ d.graph p := by
  constructor
  · rintro ⟨i, hi⟩
    exact ⟨i, NameGraph.mem_of_lookup hi⟩
  · rintro ⟨i, hi⟩
    refine Option.ne_none_iff_exists'.mp fun hnone => ?_
    exact NameGraph.lookup_eq_none.mp hnone _ hi rfl

/-- **Every state of such a run** differs from a sound one in names, and lists what was created. -/
theorem LongRun.renamed {log : List (ℕ × Component)} {d : Disk} (h : LongRun log d) :
    (∃ s : Disk, s.Sound ∧ d.Renamed s) ∧
      ∀ c ∈ log, c.2.chars.length ≤ 30 ∧ d.Lists c.1 c.2 := by
  induction h with
  | safe run => exact ⟨⟨_, run.sound, .refl _⟩, fun c hc => absurd hc List.not_mem_nil⟩
  | @create log d d' kind parent last p env behind run found room call ih =>
    obtain ⟨⟨s, hs, hrenamed⟩, hlog⟩ := ih
    have hwalk := hrenamed.walkable hs
    obtain ⟨hlength, hfits⟩ := hwalk.fits_of_run_call env call
    rw [hwalk.run_call env kind behind hlength hfits found,
      room.run_createIn env hrenamed hs] at call
    obtain ⟨-, rfl⟩ := Prod.mk.inj (Option.some.inj call)
    obtain ⟨a, hcreate, hafter⟩ := hrenamed.exists_withCreation env room hs kind.mode last.fileName
    refine ⟨⟨_, hs.created env kind.mode hcreate, ?_⟩, fun c hc => ?_⟩
    · exact hafter
    rcases List.mem_append.mp hc with hc | hc
    · obtain ⟨hle, hlists⟩ := hlog c hc
      obtain ⟨i, hi⟩ := Disk.lists_iff.mp hlists
      exact ⟨hle, Disk.lists_iff.mpr
        ⟨i, room.mem_graph_withCreation env hrenamed hs kind.mode _ hi⟩⟩
    · obtain rfl := List.mem_singleton.mp hc
      exact ⟨hlength, Disk.lists_iff.mpr ⟨_, room.mem_graph_new env hrenamed hs kind.mode _⟩⟩

/-- Two components are stored alike if their first 28 bytes are the same. -/
theorem Component.fileName_eq_iff {a b : Component} :
    a.fileName = b.fileName ↔ a.chars.take 28 = b.chars.take 28 := by
  have hget (c : Component) (i : Fin 28) : c.fileName i = (c.chars.take 28)[i.val]?.getD 0 := by
    rw [List.getElem?_take_of_lt i.isLt, ← List.getD_eq_getElem?_getD]
    rfl
  constructor
  · intro h
    refine List.ext_getElem? fun i => ?_
    by_cases hi : i < 28
    · have hbyte := congrFun h ⟨i, hi⟩
      rw [hget, hget] at hbyte
      have hne (c : Component) : (c.chars.take 28)[i]? ≠ some 0 := fun hzero =>
        c.noNul 0 (List.mem_of_mem_take (List.mem_of_getElem? hzero)) rfl
      -- a byte that is there is none that an absent one is taken for
      cases ha : (a.chars.take 28)[i]? with
      | none =>
        cases hb : (b.chars.take 28)[i]? with
        | none => rfl
        | some y =>
          simp only [ha, hb, Option.getD_none, Option.getD_some] at hbyte
          exact absurd (hbyte ▸ hb) (hne b)
      | some x =>
        cases hb : (b.chars.take 28)[i]? with
        | none =>
          simp only [ha, hb, Option.getD_none, Option.getD_some] at hbyte
          exact absurd (hbyte ▸ ha) (hne a)
        | some y =>
          simp only [ha, hb, Option.getD_some] at hbyte
          rw [hbyte]
    · rw [List.getElem?_take_eq_none (by omega), List.getElem?_take_eq_none (by omega)]
  · intro h
    funext i
    rw [hget, hget, h]

/-- The name of `n` times `a` and a last character. -/
def lettersAnd (n : ℕ) (c : Byte) (hslash : c ≠ slash := by decide) (hnul : c ≠ 0 := by decide) :
    Component where
  chars := List.replicate n 97 ++ [c]
  ne_nil := by simp
  noSlash b hb := by
    rcases List.mem_append.mp hb with hb | hb
    · rw [(List.mem_replicate.mp hb).2]
      decide
    · rwa [List.mem_singleton.mp hb]
  noNul b hb := by
    rcases List.mem_append.mp hb with hb | hb
    · rw [(List.mem_replicate.mp hb).2]
      decide
    · rwa [List.mem_singleton.mp hb]

theorem resolve_root (d : Disk) :
    d.graph.resolve 4 (([] : List Component).map Component.fileName) = some 4 := rfl

theorem Disk.namesFit_nil (d : Disk) (p : ℕ) : d.NamesFit p [] := True.intro

end InodeFs
