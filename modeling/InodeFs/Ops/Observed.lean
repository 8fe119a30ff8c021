import InodeFs.State.Passage

/-!
# What is found while a call changes the disk

During the passage from one disk to another (`Disk.Passage`), a lookup, a walk and `fs_getattr`
return what they would return before it, or after it, in whichever stages they read.

The writer is present through the stages of its passage only: whatever a read finds is what one of
the stages holds, and never a stage before that of an earlier read (`Prog.Observes`). A record in
use is either the old one or the new one. If it is the old one, the entries it leads to may still be
replaced one after the other, but each slot holds an old or a new entry; if it is the new one, the
passage is over for this directory (`Settled`), and everything behind it is found as it will stay.

A walk meets directories one after the other. The induction over the path
(`Passage.understandLoop_observes`) carries that the number found so far is the one before and
after, which is why both disks must have the path.

`fs_getattr` reads three things one after the other, the record of a directory, its entries, and the
record that the entry leads to. What it reports is from the last one, and so the answer is that of a
single moment, the one before or the one after (`Passage.statAt_eq`).
-/

namespace InodeFs

namespace Disk

/-- What the lookup of a name in directory `p` returns. -/
def numberOf (e : Disk) (p : ℕ) (a : Name) : ℤ :=
  (e.graph.lookup p a.fileName).elim negENOENT Nat.cast

/-- A directory that does not have the name has room for it. -/
def RoomFor (e : Disk) (p : ℕ) (a : Name) : Prop :=
  e.graph.lookup p a.fileName = none → (e.inode p).count < 1536

variable {d d' e : Disk} {At : ℕ → Disk → Prop} {p i j k : ℕ} {s t : Disk} {a : Name}
  {l : List DictioryContent}

theorem numberOf_cases (he : e.Sound) (p : ℕ) (a : Name) :
    (e.numberOf p a = negENOENT ∧ e.graph.lookup p a.fileName = none) ∨
      ∃ i : ℕ, i < 32768 ∧ e.numberOf p a = i ∧ e.graph.lookup p a.fileName = some i := by
  rw [numberOf]
  cases hl : e.graph.lookup p a.fileName with
  | none => exact .inl ⟨rfl, rfl⟩
  | some i =>
    exact .inr ⟨i, he.directories.graph.target_lt p _ (NameGraph.mem_of_lookup hl), rfl, rfl⟩

/-! ### Entries -/

/-- A search in the entries finds what a lookup finds. -/
theorem Enumerates.find (h : e.Enumerates p l) (he : e.Sound) (a : FileName) :
    (l.find? fun x => x.fileName = a).map (fun x => x.inodeNumber.toNat) = e.graph.lookup p a := by
  cases hl : e.graph.lookup p a with
  | none =>
    rw [Option.map_eq_none_iff, List.find?_eq_none]
    intro x hx hname
    have hmem := (h x.edge).mp (List.mem_map_of_mem hx)
    exact NameGraph.lookup_eq_none.mp hl _ hmem (of_decide_eq_true hname)
  | some i =>
    obtain ⟨x, hx, hedge⟩ := List.mem_map.mp ((h _).mpr (NameGraph.mem_of_lookup hl))
    have hsome : (l.find? fun x => x.fileName = a).isSome := by
      rw [List.find?_isSome]
      exact ⟨x, hx, decide_eq_true (congrArg Prod.fst hedge)⟩
    obtain ⟨y, hy⟩ := Option.isSome_iff_exists.mp hsome
    have hname : y.fileName = a := by simpa using List.find?_some hy
    -- the graph has one edge of the name
    have hmem := (h y.edge).mp (List.mem_map_of_mem (List.mem_of_find?_eq_some hy))
    rw [DictioryContent.edge, hname] at hmem
    rw [hy, Option.map_some, ← hl, he.directories.graph.proper.lookup_eq_some.mpr hmem]

/-- Entries as they are shown, found by their names. -/
theorem Enumerates.findFileInDict_yields (env : Env) {S : Disk → Prop} {x : INode}
    (h : e.Enumerates p l)
    (he : e.Sound) (hshow : ShowsEntries S x l) (hlength : l.length = x.count)
    (hroom : e.graph.lookup p a.fileName = none → x.count < 1536) :
    (findFileInDict env x (padTo30 a.chars)).Yields vdisk S (· = e.numberOf p a) := by
  have hfind := h.find he a.fileName
  cases hl : e.graph.lookup p a.fileName with
  | none =>
    rw [numberOf, hl, Option.elim_none]
    rw [hl, Option.map_eq_none_iff, List.find?_eq_none] at hfind
    exact findFileInDict_yields_missing env hshow hlength (hroom hl) fun y hy hname =>
      hfind y hy (decide_eq_true hname)
  | some i =>
    have hlt := he.directories.graph.target_lt p _ (NameGraph.mem_of_lookup hl)
    rw [hl, Option.map_eq_some_iff] at hfind
    obtain ⟨y, hy, rfl⟩ := hfind
    rw [numberOf, hl, Option.elim_some, ← toInt_eq_natCast (by omega)]
    exact InodeFs.findFileInDict_yields env hshow hy

/-! ### Directories -/

/-- What is read through the record `x` of directory `p`, from stage `j` on: the entries of the one
disk or of the other, or at each moment those of one of them. -/
inductive Shown (d d' : Disk) (At : ℕ → Disk → Prop) (j p : ℕ) (x : INode) : Prop
  | whole (e : Disk) (which : e = d ∨ e = d' ∧ Settled d d' At j) (record : x = e.inode p)
      (entries : ∀ k t, j ≤ k → At k t → t.entriesOf (e.inode p) = e.entriesOf (e.inode p))
  | single (record : x = d.inode p) (count : x.count ≤ 12) (settled : Settled d d' At 0)
      (entries : ∀ k t, j ≤ k → At k t → d.Enumerates p (t.entriesOf x) ∨
        d'.Enumerates p (t.entriesOf x))

theorem Shown.from_le {x : INode} (h : Shown d d' At j p x) (hjk : j ≤ k) :
    Shown d d' At k p x := by
  cases h with
  | whole e which record entries =>
    exact .whole e (which.imp_right fun hw => ⟨hw.1, hw.2.from_le hjk⟩) record fun m t hkm =>
      entries m t (hjk.trans hkm)
  | single record count settled entries =>
    exact .single record count settled fun m t hkm => entries m t (hjk.trans hkm)

end Disk

/-! ### Directories of one block -/

section Single

variable (env : Env)

theorem readsOnce_envRead (id : ℤ) : (env.read id).ReadsOnce :=
  ⟨id, _, rfl, fun _ => Prog.local_pure _⟩

theorem readsOnce_readEntries (id : ℤ) : (readEntries env id).ReadsOnce :=
  (readsOnce_envRead env id).bind fun _ => Prog.local_pure _

/-- The search reads the one block. -/
theorem readsOnce_findFileInDict {x : INode} (hcount : x.count ≤ 12) (son : Fin 30 → Byte) :
    (findFileInDict env x son).ReadsOnce := by
  have hblocks : min (x.count / 128 + 1) 12 = 1 := by omega
  rw [findFileInDict_eq env (by omega), hblocks, visitedDirectlyLoop,
    INode.index_directPointer (by decide), Prog.ret_bind]
  refine (readsOnce_readEntries env _).bind fun buffer => ?_
  split
  · exact Prog.local_pure _
  · exact (Prog.local_index _ _).bind fun _ => Prog.local_pure _
  · exact Prog.local_undefined

end Single

namespace Disk

section Passage

variable (env : Env) {d d' : Disk} {At : ℕ → Disk → Prop} {p i j : ℕ} {s : Disk} {a : Name}
  (h : Passage d d' At)
include h

omit env in
theorem Passage.shown (hp : d.IsDir p) (hs : At j s) : Shown d d' At j p (s.inode p) := by
  rcases (h.dir hp).new hp j s hs with heq | ⟨heq, hsettled, hentries⟩
  · rcases (h.dir hp).old hp with hconst | ⟨hcount, hsettled, hlists⟩
    · exact .whole d (.inl rfl) heq fun k t _ ht => hconst k t ht
    · rw [heq]
      exact .single rfl hcount hsettled fun k t _ ht => hlists k t ht
  · exact .whole d' (.inr ⟨rfl, hsettled⟩) heq hentries

omit env in
/-- **What is read through a record of a directory** is so before or after, and the latter only
when new inodes have their records. A program that yields it from the entries, as they are shown,
observes it, if it reads once where the directory has one block. -/
theorem Passage.observes {α : Type} {prog : Fs α} {Q : Disk → α → Prop} {x : INode}
    (hx : Shown d d' At j p x) (hp : d.IsDir p) (hp' : d'.IsDir p)
    (honce : x.count ≤ 12 → prog.ReadsOnce)
    (hyields : ∀ e, e = d ∨ e = d' → e.Sound → x.count ≤ 12 ∨ x = e.inode p →
      ∀ S l, e.Enumerates p l → ShowsEntries S x l → l.length = x.count →
        prog.Yields vdisk S (Q e)) :
    prog.Observes vdisk At j fun r k => (Q d r ∨ Q d' r ∧ Settled d d' At k) ∧ j ≤ k := by
  have hwhole {e : Disk} (he : e.Sound) (hpe : e.IsDir p)
      (entries : ∀ k t, j ≤ k → At k t → t.entriesOf (e.inode p) = e.entriesOf (e.inode p)) :
      ShowsEntries (fun t => ∃ k, j ≤ k ∧ At k t) (e.inode p) (e.entriesOf (e.inode p)) := by
    refine ⟨(length_entriesOf _ _).le, (he.directories.dir p hpe).count_le,
      fun r _ => he.pointers.lt p hpe.1 r, ?_⟩
    rintro t ⟨k, hjk, ht⟩ m hm
    have heq := List.getElem_of_eq (entries k t hjk ht) (i := m) (by
      rwa [length_entriesOf, ← length_entriesOf e])
    rwa [getElem_entriesOf] at heq
  cases hx with
  | whole e which record entries =>
    rcases which with rfl | ⟨rfl, hsettled⟩
    · subst record
      exact ((hyields e (.inl rfl) h.sound (.inr rfl) _ _ (enumerates_entriesOf hp)
        (hwhole h.sound hp entries) (length_entriesOf _ _)).observes fun k t hjk ht =>
          ⟨k, hjk, ht⟩).mono fun r k hr => ⟨.inl hr.1, hr.2⟩
    · subst record
      exact ((hyields e (.inr rfl) h.sound' (.inr rfl) _ _ (enumerates_entriesOf hp')
        (hwhole h.sound' hp' entries) (length_entriesOf _ _)).observes fun k t hjk ht =>
          ⟨k, hjk, ht⟩).mono fun r k hr => ⟨.inr ⟨hr.1, hsettled.from_le hr.2⟩, hr.2⟩
  | single record count settled entries =>
    refine ((honce count).observes (Q := fun _ r => Q d r ∨ Q d' r) fun k t hjk ht => ?_).mono
      fun r k hr => ⟨hr.1.imp_right fun heq => ⟨heq, settled.from_le (Nat.zero_le k)⟩, hr.2⟩
    -- the one block is that of one moment
    have hshow := showsEntries_entriesOf (d := t) (x := x) (by omega) fun r _ => by
      rw [record]
      exact h.sound.pointers.lt p hp.1 r
    rcases entries k t hjk ht with hlists | hlists
    · exact (hyields d (.inl rfl) h.sound (.inl count) _ _ hlists hshow
        (length_entriesOf _ _)).mono fun r hr => .inl hr
    · exact (hyields d' (.inr rfl) h.sound' (.inl count) _ _ hlists hshow
        (length_entriesOf _ _)).mono fun r hr => .inr hr

/-- **A lookup** finds what is there before or after. -/
theorem Passage.findFileInDict_observes (hp : d.IsDir p) (hp' : d'.IsDir p) (hs : At j s)
    (hroom : d.RoomFor p a) (hroom' : d'.RoomFor p a) :
    (findFileInDict env (s.inode p) (padTo30 a.chars)).Observes vdisk At j fun r k =>
      (r = d.numberOf p a ∨ r = d'.numberOf p a ∧ Settled d d' At k) ∧ j ≤ k := by
  refine h.observes (Q := fun e r => r = e.numberOf p a) (h.shown hp hs) hp hp'
    (fun hcount => readsOnce_findFileInDict env hcount _) ?_
  intro e he hsound hx S l hlists hshow hlength
  refine hlists.findFileInDict_yields env hsound hshow hlength fun hnone => ?_
  rcases hx with hcount | hx
  · omega
  · rw [hx]
    rcases he with rfl | rfl
    · exact hroom hnone
    · exact hroom' hnone

end Passage

end Disk

/-! ### Walks -/

section Accesses

variable (env : Env) {At : ℕ → Disk → Prop} {j : ℕ}

theorem envRead_observes {n : ℕ} (hn : n < 65536) :
    (env.read n).Observes vdisk At j fun b k => (∃ t, At k t ∧ b = t n) ∧ j ≤ k := by
  refine Prog.observes_read.mpr fun k t hjk ht => ?_
  rw [load_natCast t hn]
  exact Prog.observes_ret.mpr ⟨⟨t, ht, rfl⟩, hjk⟩

/-- A read that may be refused returns. -/
theorem envRead_observes_any (id : ℤ) : (env.read id).Observes vdisk At j fun _ k => j ≤ k :=
  Prog.observes_read.mpr fun _ _ hjk _ => Prog.observes_ret.mpr hjk

theorem justReadInodeFromDisk_observes {n : ℕ} (hn : n < 32768) :
    (justReadInodeFromDisk env n).Observes vdisk At j fun x k =>
      (∃ t, At k t ∧ x = t.inode n) ∧ j ≤ k := by
  have hindex : n % 32 < 32 := by omega
  simp only [justReadInodeFromDisk, inodeFindDiskIdAndIndexInDisk_natCast, readINodes,
    Prog.bind_assoc]
  refine (envRead_observes env (show 4 + n / 32 < 65536 by omega)).bind ?_
  rintro _ k ⟨⟨t, ht, rfl⟩, hjk⟩
  rw [Prog.pure_eq_ret, Prog.ret_bind, Prog.index_natCast _ hindex]
  exact Prog.observes_ret.mpr ⟨⟨t, ht, rfl⟩, hjk⟩

end Accesses

namespace Disk

section Passage

variable (env : Env) {d d' : Disk} {At : ℕ → Disk → Prop} {p q i j : ℕ} {s : Disk}
  {as bs : List Name} {a b : Name} (h : Passage d d' At)
include h

omit env in
/-- A path that is there before and after leads to the same inode. -/
theorem Passage.resolve_eq {cs : List FileName} {p' : ℕ} (hp : d.graph.resolve i cs = some p)
    (hp' : d'.graph.resolve i cs = some p') : p' = p := by
  induction cs generalizing i with
  | nil =>
    rw [NameGraph.resolve_nil] at hp hp'
    exact Option.some.inj (hp'.symm.trans hp)
  | cons c cs ih =>
    rw [NameGraph.resolve_cons, Option.bind_eq_some_iff] at hp hp'
    obtain ⟨q, hq, hp⟩ := hp
    obtain ⟨q', hq', hp'⟩ := hp'
    obtain rfl := h.compatible _ _ _ _ hq hq'
    exact ih hp hp'

/-- The walk along the components before the last, which are there before and after. -/
theorem Passage.understandLoop_observes {Q : ℤ → ℕ → Prop} {r : ℤ} (hi : i < 32768)
    (hq : d.graph.resolve i (fileNames as) = some q)
    (hq' : d'.graph.resolve i (fileNames as) = some q)
    (hlast : ∀ k t, j ≤ k → At k t →
      (findFileInDict env (t.inode q) (padTo30 a.chars)).Observes vdisk At k Q)
    (hs : At j s) (hb : as ++ [a] = b :: bs) :
    (understandLoop env (b.chars ++ joinNames bs) r (s.inode i)).Observes vdisk At j Q := by
  -- one component a round; the record at hand is one that inode `i` has
  induction as generalizing i j s b bs with
  | nil =>
    obtain ⟨rfl, rfl⟩ := List.cons.inj hb
    obtain rfl : i = q := Option.some.inj hq
    rw [joinNames_nil, List.append_nil,
      understandLoop_last env a.ne_nil (a.length_le.trans (by decide)) a.noSlash]
    exact hlast j s le_rfl hs
  | cons c as ih =>
    rw [List.cons_append] at hb
    obtain ⟨rfl, rfl⟩ := List.cons.inj hb
    rw [fileNames, List.map_cons, NameGraph.resolve_cons, Option.bind_eq_some_iff] at hq hq'
    obtain ⟨m, hm, hq⟩ := hq
    obtain ⟨m', hm', hq'⟩ := hq'
    obtain rfl := h.compatible _ _ _ _ hm hm'
    have hlt := h.sound.directories.graph.target_lt i _ (NameGraph.mem_of_lookup hm)
    obtain ⟨b, bs, hbs⟩ := List.exists_cons_of_ne_nil (show as ++ [a] ≠ [] by simp)
    rw [hbs, joinNames_cons, understandLoop_inner env (c.length_le.trans (by decide)) c.noSlash]
    refine (h.findFileInDict_observes env (isDir_of_lookup hm) (isDir_of_lookup hm') hs
      (fun hnone => ?_) fun hnone => ?_).bind ?_
    · rw [hm] at hnone
      cases hnone
    · rw [hm'] at hnone
      cases hnone
    rintro r' k ⟨hr, hjk⟩
    -- it is found under either number
    obtain rfl : r' = (m : ℤ) := by
      rcases hr with rfl | ⟨rfl, -⟩
      · rw [numberOf, hm, Option.elim_some]
      · rw [numberOf, hm', Option.elim_some]
    refine (justReadInodeFromDisk_observes env hlt).bind ?_
    rintro _ k' ⟨⟨t, ht, rfl⟩, hkk'⟩
    exact ih hlt hq hq' (fun l t hkl ht => hlast l t (by omega) ht) ht hbs

theorem Passage.understandThePath_concat_observes {Q : ℤ → ℕ → Prop}
    (hq : d.graph.resolve 4 (fileNames as) = some q)
    (hq' : d'.graph.resolve 4 (fileNames as) = some q)
    (hlast : ∀ k t, j ≤ k → At k t →
      (findFileInDict env (t.inode q) (padTo30 a.chars)).Observes vdisk At k Q) :
    (understandThePath env (pathChars (as ++ [a]))).Observes vdisk At j Q := by
  obtain ⟨b, bs, hbs, heq⟩ := understandThePath_concat env as a
  rw [heq]
  refine (justReadInodeFromDisk_observes env (by decide)).bind ?_
  rintro _ k ⟨⟨t, ht, rfl⟩, hjk⟩
  exact h.understandLoop_observes env (by decide) hq hq'
    (fun l u hkl hu => hlast l u (by omega) hu) ht hbs

/-- **A path** that is there before and after is found in between. -/
theorem Passage.understandThePath_observes (hi : d.graph.resolve 4 (fileNames as) = some i)
    (hi' : d'.graph.resolve 4 (fileNames as) = some i) :
    (understandThePath env (pathChars as)).Observes vdisk At j fun r k => r = (i : ℤ) ∧ j ≤ k := by
  cases as using List.reverseRecOn with
  | nil =>
    obtain rfl : 4 = i := Option.some.inj hi
    exact (understandThePath_nil env fun _ => True).observes fun _ _ _ _ => trivial
  | append_singleton as a =>
    obtain ⟨q, hq, hlookup⟩ := NameGraph.resolve_map_concat.mp hi
    obtain ⟨q', hq', hlookup'⟩ := NameGraph.resolve_map_concat.mp hi'
    obtain rfl := h.resolve_eq hq hq'
    refine h.understandThePath_concat_observes env hq hq' fun k t hjk ht => ?_
    refine (h.findFileInDict_observes env (isDir_of_lookup hlookup) (isDir_of_lookup hlookup') ht
      (fun hnone => ?_) fun hnone => ?_).mono fun r l hr => ?_
    · rw [hlookup] at hnone
      cases hnone
    · rw [hlookup'] at hnone
      cases hnone
    · refine ⟨?_, hjk.trans hr.2⟩
      rcases hr.1 with rfl | ⟨rfl, -⟩
      · rw [numberOf, hlookup, Option.elim_some]
      · rw [numberOf, hlookup', Option.elim_some]

end Passage

end Disk

/-! ### Attributes -/

namespace Disk

/-- What `fs_getattr` shows of a path. -/
noncomputable def statAt (e : Disk) (as : List Name) : ℤ × Stat :=
  match e.tree as with
  | some x => (0, e.tree.stat as x)
  | none => (negENOENT, Stat.cleared)

section StatAt

variable {e : Disk} {as : List Name} {a : Name} {q i : ℕ}

theorem statAt_of_resolve (he : e.Sound) (hplain : e.Plain)
    (hi : e.graph.resolve 4 (fileNames as) = some i) :
    e.statAt as = (0, passValueFromINodeToStat (e.inode i)) := by
  rw [statAt, tree_of_resolve hi, he.stat_tree hplain hi]

theorem statAt_of_lookup (he : e.Sound) (hplain : e.Plain)
    (hq : e.graph.resolve 4 (fileNames as) = some q)
    (hi : e.graph.lookup q a.fileName = some i) :
    e.statAt (as ++ [a]) = (0, passValueFromINodeToStat (e.inode i)) :=
  statAt_of_resolve he hplain (NameGraph.resolve_map_concat.mpr ⟨q, hq, hi⟩)

theorem statAt_of_missing (hq : e.graph.resolve 4 (fileNames as) = some q)
    (hnone : e.graph.lookup q a.fileName = none) :
    e.statAt (as ++ [a]) = (negENOENT, Stat.cleared) := by
  rw [statAt, (tree_concat_eq_none hq).mpr hnone]

end StatAt

section Passage

variable (env : Env) {d d' : Disk} {At : ℕ → Disk → Prop} {p i j : ℕ} {as : List Name} {a : Name}
  (h : Passage d d' At) (hplain : d.Plain) (hplain' : d'.Plain) (behind : ℕ → Byte)
include h hplain hplain'

omit env behind in
/-- The record of an inode that is found shows what the path shows before or after. -/
theorem Passage.statAt_eq {k : ℕ} {t : Disk} (ht : At k t)
    (hp : d.graph.resolve 4 (fileNames as) = some p)
    (hp' : d'.graph.resolve 4 (fileNames as) = some p)
    (hi : d.graph.lookup p a.fileName = some i ∨
      d'.graph.lookup p a.fileName = some i ∧ Settled d d' At k) :
    (0, passValueFromINodeToStat (t.inode i)) = d.statAt (as ++ [a]) ∨
      (0, passValueFromINodeToStat (t.inode i)) = d'.statAt (as ++ [a]) := by
  have hbefore (hl : d.graph.lookup p a.fileName = some i) (hx : t.inode i = d.inode i) :
      (0, passValueFromINodeToStat (t.inode i)) = d.statAt (as ++ [a]) := by
    rw [statAt_of_lookup h.sound hplain hp hl, hx]
  have hafter (hl : d'.graph.lookup p a.fileName = some i) (hx : t.inode i = d'.inode i) :
      (0, passValueFromINodeToStat (t.inode i)) = d'.statAt (as ++ [a]) := by
    rw [statAt_of_lookup h.sound' hplain' hp' hl, hx]
  have hlt : i < 32768 := by
    rcases hi with hl | ⟨hl, -⟩
    · exact h.sound.directories.graph.target_lt p _ (NameGraph.mem_of_lookup hl)
    · exact h.sound'.directories.graph.target_lt p _ (NameGraph.mem_of_lookup hl)
  by_cases hused : d.imap i = true
  · have hi' := h.each i hlt hused
    -- an inode in use whose record changes is where it was
    rcases hi'.inode k t ht with hx | hx <;> rcases hi with hl | ⟨hl, -⟩
    · exact .inl (hbefore hl hx)
    · rcases hi'.edges with hsame | hedges
      · exact .inr (hafter hl (hx.trans hsame.symm))
      · exact .inl (hbefore ((hedges p _).mpr hl) hx)
    · rcases hi'.edges with hsame | hedges
      · exact .inl (hbefore hl (hx.trans hsame))
      · exact .inr (hafter ((hedges p _).mp hl) hx)
    · exact .inr (hafter hl hx)
  · rcases hi with hl | ⟨hl, hsettled⟩
    · exact absurd (h.sound.directories.graph.target_marked p _ (NameGraph.mem_of_lookup hl)) hused
    · exact .inr (hafter hl (hsettled k t le_rfl ht p _ i hl (by simpa using hused)))

/-- **`fs_getattr`** of a path whose directory is there before and after shows what it shows before
or after. -/
theorem Passage.fsGetattr_observes (hp : d.graph.resolve 4 (fileNames as) = some p)
    (hp' : d'.graph.resolve 4 (fileNames as) = some p) (hdir : d.IsDir p) (hdir' : d'.IsDir p)
    (hroom : d.RoomFor p a) (hroom' : d'.RoomFor p a) :
    (fsGetattr env (pathString (as ++ [a]) behind)).Observes vdisk At j fun r _ =>
      r = d.statAt (as ++ [a]) ∨ r = d'.statAt (as ++ [a]) := by
  have hpath : (pathString (as ++ [a]) behind).chars = pathChars (as ++ [a]) := rfl
  rw [fsGetattr, hpath]
  refine (h.understandThePath_concat_observes (Q := fun r k => r = d.numberOf p a ∨
    r = d'.numberOf p a ∧ Settled d d' At k) env hp hp' fun k t _ ht =>
      (h.findFileInDict_observes env hdir hdir' ht hroom hroom').mono fun r l hr => hr.1).bind ?_
  intro r k hr
  have hne (i : ℕ) : ¬ (i : ℤ) = negENOENT := by rw [negENOENT]; omega
  -- the record that is read is that of the number found
  have hfound {i : ℕ} (hlt : i < 32768) (hi : d.graph.lookup p a.fileName = some i ∨
      d'.graph.lookup p a.fileName = some i ∧ Settled d d' At k) :
      (do let aimInode ← justReadInodeFromDisk env (i : ℤ)
          pure (0, passValueFromINodeToStat aimInode) : Fs (ℤ × Stat)).Observes vdisk At k
        fun r _ => r = d.statAt (as ++ [a]) ∨ r = d'.statAt (as ++ [a]) := by
    refine (justReadInodeFromDisk_observes env hlt).bind ?_
    rintro _ l ⟨⟨t, ht, rfl⟩, hkl⟩
    exact Prog.observes_ret.mpr (h.statAt_eq hplain hplain' ht hp hp'
      (hi.imp_right fun hi => ⟨hi.1, hi.2.from_le hkl⟩))
  rcases hr with rfl | ⟨rfl, hsettled⟩
  · rcases numberOf_cases h.sound p a with ⟨hr, hnone⟩ | ⟨i, hlt, hr, hi⟩
    · rw [hr, if_pos rfl]
      exact Prog.observes_ret.mpr (.inl (statAt_of_missing hp hnone).symm)
    · rw [hr, if_neg (hne i)]
      exact hfound hlt (.inl hi)
  · rcases numberOf_cases h.sound' p a with ⟨hr, hnone⟩ | ⟨i, hlt, hr, hi⟩
    · rw [hr, if_pos rfl]
      exact Prog.observes_ret.mpr (.inr (statAt_of_missing hp' hnone).symm)
    · rw [hr, if_neg (hne i)]
      exact hfound hlt (.inr ⟨hi, hsettled⟩)

/-- `fs_getattr` of the root. -/
theorem Passage.fsGetattr_root_observes :
    (fsGetattr env (pathString [] behind)).Observes vdisk At j fun r _ =>
      r = d.statAt [] ∨ r = d'.statAt [] := by
  have hpath : (pathString [] behind).chars = pathChars [] := rfl
  rw [fsGetattr, hpath]
  refine (h.understandThePath_observes env (i := 4) rfl rfl).bind ?_
  rintro _ k ⟨rfl, -⟩
  rw [if_neg (by decide)]
  refine (justReadInodeFromDisk_observes env (n := 4) (by decide)).bind ?_
  rintro _ l ⟨⟨t, ht, rfl⟩, -⟩
  rw [statAt_of_resolve h.sound hplain rfl, statAt_of_resolve h.sound' hplain' rfl]
  have hroot := h.dir h.sound.directories.root
  refine Prog.observes_ret.mpr ((hroot.inode l t ht).imp (fun hx => ?_) fun hx => ?_)
  · rw [hx]
  · rw [hx]

end Passage

end Disk

end InodeFs
