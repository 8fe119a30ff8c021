import InodeFs.Properties.LongNames

/-!
# The views of a directory's entries

Four pieces of the code turn the index of an entry into a block and a slot: `fs_readdir`, the
function `get_filename_data_from_dir_in_rank_view` behind `fs_unlink`, `fs_rename` and `fs_rmdir`,
the lookup of a name, and `add_file_to_dict`, which stores it.

`BuiltRun log d` are the runs of creations from the formatted disk that return 0, with names of any
length; `log` lists the directory of each and the entry it made, and `madeIn log p` are the entries
made in directory `p`, in order. Every state of such a run differs from a sound one in name bytes at
most, and its directories hold exactly the entries made in them (`BuiltRun.built`). On this the
listing and the lookup see the entries in their order, whatever its length is.

The views of entry `i` still part (`views_agree_iff`):

* from `i = 12` on, where the function by rank returns an element of a buffer it did not fill;
* for a name that fills the 28 bytes of `file_name`, where `fs_readdir` runs on into the inode
  number unless the first byte of that is NUL;
* where an earlier entry has the same 28 bytes, since a lookup ends there.
-/

namespace InodeFs

variable (env : Env)

/-! ### The runs -/

/-- A creation that was made: the inode of its directory, and the entry it made. -/
structure Made where
  dir : ℕ
  entry : DictioryContent

/-- The entries made in a directory, in order. -/
def madeIn (log : List Made) (p : ℕ) : List DictioryContent :=
  (log.filter fun m => m.dir = p).map Made.entry

/-- **The runs that build directories**: creations from the formatted disk that return 0, in
directories of fewer than `128 * 12` entries, with names of any length, while an inode is free. The
entry in the log is the one that the call makes. -/
inductive BuiltRun : List Made → Disk → Prop
  | init {env : Env} {behind : Fin 27 → Byte} {r : ℤ} {d : Disk}
      (h : (mkfs env behind).run vdisk zeroDisk = some (r, d)) : BuiltRun [] d
  | create {log : List Made} {d d' δ : Disk} {kind : Kind} {parent : List Component}
      {last : Component} {p : ℕ} {env : Env} {behind : ℕ → Byte} {e : DictioryContent}
      (run : BuiltRun log d)
      (found : d.graph.resolve 4 (parent.map Component.fileName) = some p) (dir : d.IsDir p)
      (room : (d.inode p).count < 128 * 12) (inode : d.HasInode)
      (call : (kind.call env (componentString parent last behind)).run vdisk d = some (0, d'))
      (entry : (δ, .entry e) ∈
        (kind.call env (componentString parent last behind)).notes vdisk d) :
      BuiltRun (log ++ [⟨p, e⟩]) d'

theorem madeIn_concat (log : List Made) (m : Made) (p : ℕ) :
    madeIn (log ++ [m]) p = madeIn log p ++ if p = m.dir then [m.entry] else [] := by
  rw [madeIn, List.filter_append, List.map_append, ← madeIn]
  by_cases h : m.dir = p
  · simp [h]
  · simp [h, Ne.symm h]

theorem mem_of_mem_madeIn {log : List Made} {p : ℕ} {e : DictioryContent} (h : e ∈ madeIn log p) :
    ⟨p, e⟩ ∈ log := by
  obtain ⟨m, hm, rfl⟩ := List.mem_map.mp h
  rw [List.mem_filter, decide_eq_true_eq] at hm
  obtain ⟨hlog, rfl⟩ := hm
  exact hlog

/-- **What holds in every state of a run.** The disk differs in names from a sound one on which free
inodes come with free blocks; block 0 is zero; the entries of the log were made in directories,
under names; and every directory holds the entries made in it. -/
structure Built (log : List Made) (d : Disk) : Prop where
  renamed : ∃ s : Disk, s.Sound ∧ s.freeInodes ≤ s.freeBlocks ∧ d.Renamed s
  zero : d.data 0 = Block.zero
  dirs : ∀ m ∈ log, d.IsDir m.dir
  names : ∀ m ∈ log, ∃ c : Component, m.entry.fileName = c.fileName
  entries : ∀ p, d.IsDir p → d.entriesOf (d.inode p) = madeIn log p

theorem built_initial (behind : Fin 27 → Byte) : Built [] (Disk.initial env behind) where
  renamed := ⟨_, Disk.sound_initial env behind, Disk.freeInodes_le_freeBlocks_initial env behind,
    .refl _⟩
  zero := (Disk.sound_initial env behind).zero
  dirs m hm := absurd hm List.not_mem_nil
  names m hm := absurd hm List.not_mem_nil
  entries p hp := by
    obtain rfl := (Disk.isDir_initial env behind).mp hp
    refine List.eq_nil_of_length_eq_zero ?_
    rw [Disk.length_entriesOf, Disk.count_initial]

section Step

variable {log : List Made} {d s : Disk} {p : ℕ}

/-- A directory that is not full has room: a free inode comes with a free block. -/
theorem Disk.Renamed.canStore_of_hasInode (h : d.Renamed s) (hfree : s.freeInodes ≤ s.freeBlocks)
    (hdir : d.IsDir p) (hcount : (d.inode p).count < 128 * 12) (hinode : d.HasInode) :
    d.CanStore p := by
  refine ⟨hdir, hinode, hcount, fun _ => ?_⟩
  obtain ⟨j, hj, hclear⟩ := hinode
  have hpos := Disk.freeInodes_pos_iff.mpr ⟨j, hj, by rw [← h.imap j hj, hclear]⟩
  obtain ⟨c, hc, hclear'⟩ := Disk.freeBlocks_pos_iff.mp (hpos.trans_le hfree)
  exact ⟨c, hc, by rw [h.dmap c (by omega), hclear']⟩

/-- An entry is stored in no block 0. -/
theorem Disk.CanStore.blockFor_ne_zero (h : d.Renamed s) (hs : s.Sound) (hp : d.CanStore p) :
    d.blockFor (d.inode p) (d.inode p).count ≠ 0 := by
  rw [Disk.blockFor]
  split
  · next h0 => exact (h.pointersOk hs).ne_zero_of_free (hp.room h0).dmap_nextData
  · next h0 => exact (h.dirOk hs hp.dir).block _ (by omega)

/-- **One creation keeps it.** -/
theorem Built.step (h : Built log d) (hdir : d.IsDir p) (hcount : (d.inode p).count < 128 * 12)
    (hinode : d.HasInode) (mode : BitVec 32) (c : Component) :
    Built (log ++ [⟨p, c.fileName, BitVec.ofInt 32 d.nextInode⟩])
      (d.withCreation env mode p (d.inode p).count c.fileName) := by
  obtain ⟨s, hs, hfree, hrenamed⟩ := h.renamed
  have hp := hrenamed.canStore_of_hasInode hfree hdir hcount hinode
  refine ⟨?_, ?_, fun m hm => ?_, fun m hm => ?_, fun q hq => ?_⟩
  · obtain ⟨a, hcreate, hafter⟩ := hrenamed.exists_withCreation env hp hs mode c.fileName
    exact ⟨_, hs.created env mode hcreate, Disk.freeInodes_le_freeBlocks_created hs hcreate hfree,
      hafter⟩
  · rw [Disk.data_withCreation env hdir.1, if_neg (hp.blockFor_ne_zero hrenamed hs).symm, h.zero]
  · have hold (q : ℕ) (hq : d.IsDir q) :
        (d.withCreation env mode p (d.inode p).count c.fileName).IsDir q :=
      ⟨hq.1, (hp.inode_withCreation env hrenamed hs mode hq c.fileName).1⟩
    rcases List.mem_append.mp hm with hm | hm
    · exact hold _ (h.dirs m hm)
    · obtain rfl := List.mem_singleton.mp hm
      exact hold p hdir
  · rcases List.mem_append.mp hm with hm | hm
    · exact h.names m hm
    · obtain rfl := List.mem_singleton.mp hm
      exact ⟨c, rfl⟩
  · rw [madeIn_concat]
    rcases hp.isDir_withCreation env mode c.fileName hq with hq' | ⟨rfl, hnew⟩
    · rw [hp.entriesOf_withCreation env hrenamed hs mode hq', h.entries q hq']
    · -- the new directory is empty, and no call was made in it
      have hne (q : ℕ) (hq : d.IsDir q) : d.nextInode ≠ q :=
        (hp.ne_nextInode hrenamed hs hq).symm
      have hnone : madeIn log d.nextInode = [] := by
        refine List.eq_nil_iff_forall_not_mem.mpr fun e he => ?_
        exact hne _ (h.dirs _ (mem_of_mem_madeIn he)) rfl
      rw [if_neg (hne p hdir), hnone]
      refine List.eq_nil_of_length_eq_zero ?_
      rw [Disk.length_entriesOf, hnew]

end Step

/-- Every state of a run is so. -/
theorem BuiltRun.built {log : List Made} {d : Disk} (h : BuiltRun log d) : Built log d := by
  induction h with
  | init h =>
    rw [Disk.run_mkfs_zeroDisk] at h
    obtain ⟨-, rfl⟩ := Prod.mk.inj (Option.some.inj h)
    exact built_initial _ _
  | @create log d d' δ kind parent last p env behind e run found dir room inode call entry ih =>
    obtain ⟨s, hs, hfree, hrenamed⟩ := ih.renamed
    have hp := hrenamed.canStore_of_hasInode hfree dir room inode
    have hwalk := hrenamed.walkable hs
    obtain ⟨hlength, hfits⟩ := hwalk.fits_of_run_call env call
    rw [hwalk.run_call env kind behind hlength hfits found, hp.run_createIn env hrenamed hs] at call
    obtain ⟨-, rfl⟩ := Prod.mk.inj (Option.some.inj call)
    rw [Kind.call_eq] at entry
    rw [(entry_of_mem_notes env (splitPath_componentString parent behind hlength) entry).2]
    exact ih.step env dir room inode kind.mode last

/-! ### The entries of a directory -/

/-- The name of an entry, and what is stored for it. -/
theorem DictioryContent.name_of_fileName {e : DictioryContent} {c : Component}
    (h : e.fileName = c.fileName) :
    ∃ b : Component, b.chars = e.name ∧ b.fileName = e.fileName := by
  have hname : e.name = c.chars.take 28 := by
    have hbytes : List.ofFn c.fileName = _ := ofFn_getD c.chars 28
    rw [name, h, hbytes, List.takeWhile_append_of_pos fun b hb =>
      decide_eq_true (c.noNul b (List.mem_of_mem_take hb))]
    simp
  have hpos : 0 < c.chars.length := List.length_pos_iff.mpr c.ne_nil
  refine ⟨⟨e.name, ?_, fun b hb => ?_, fun b hb => ?_⟩, rfl, ?_⟩
  · rw [hname, ← List.length_pos_iff, List.length_take]
    omega
  · exact c.noSlash b (List.mem_of_mem_take (hname ▸ hb))
  · exact c.noNul b (List.mem_of_mem_take (hname ▸ hb))
  · rw [h, Component.fileName_eq_iff]
    change e.name.take 28 = _
    rw [hname, List.take_take, Nat.min_self]

namespace Built

variable {log : List Made} {d : Disk} {p i : ℕ} (h : Built log d) (hp : d.IsDir p)
include h hp

/-- Entry `i` of a directory is the `i`-th that was made in it. -/
theorem getElem?_madeIn (hi : i < (d.inode p).count) :
    (madeIn log p)[i]? = some (d.entryOf (d.inode p) i) := by
  have hlt : i < (d.entriesOf (d.inode p)).length := by rwa [Disk.length_entriesOf]
  rw [← h.entries p hp, List.getElem?_eq_getElem hlt, Disk.getElem_entriesOf]

/-- The numbers of the entries are inode numbers, no two the same. -/
theorem numbers : (∀ e ∈ madeIn log p, e.inodeNumber.toNat < 32768) ∧
    ((madeIn log p).map fun e => e.inodeNumber.toNat).Nodup := by
  obtain ⟨s, hs, -, hrenamed⟩ := h.renamed
  have hgraph : d.graph p = (madeIn log p).map DictioryContent.edge := by
    rw [Disk.graph_of_isDir hp, h.entries p hp]
  constructor
  · intro e he
    exact (hrenamed.walkable hs).number_lt p e.edge (hgraph ▸ List.mem_map_of_mem he)
  · have htargets := hs.directories.graph.proper.targets p
    rw [← hrenamed.targets_eq, hgraph, List.map_map] at htargets
    exact htargets

omit hp in
/-- An entry that was made is none of zeros: its name is not empty. -/
theorem ne_zero {e : DictioryContent} (he : e ∈ madeIn log p) (j : Fin 128) :
    Block.zero.entries j ≠ e := by
  intro heq
  obtain ⟨c, hc⟩ := h.names _ (mem_of_mem_madeIn he)
  obtain ⟨b, hchars, -⟩ := DictioryContent.name_of_fileName hc
  refine b.ne_nil (hchars.trans ?_)
  change e.name = []
  have hbytes : (Block.zero.entries j).fileName = fun _ => 0 :=
    funext fun k => Block.entries_fileName Block.zero j k
  rw [← heq, DictioryContent.name, hbytes]
  rfl

end Built

/-! ### The views -/

/-- The views of entry `i` of the directory at inode `p` agree: the `i`-th entry made in it is the
entry at rank `i`, the `i`-th string that `fs_readdir` emits is its name, and a lookup of that name
finds its number. -/
def ViewsAgree (env : Env) (path : CString) (log : List Made) (d : Disk) (p i : ℕ) : Prop :=
  ∃ e, (madeIn log p)[i]? = some e ∧
    ((fsReaddir env path).run vdisk d).map (fun q => q.1.2[i]?) = some (some e.name) ∧
    (getFilenameDataFromDirInRankView env i (d.inode p)).run vdisk d = some (e, d) ∧
    (findFileInDict env (d.inode p) (padTo30 e.name)).run vdisk d = some (e.inodeNumber.toInt, d)

section Views

variable {log : List Made} {d : Disk} {p i : ℕ} {path : CString} {e : DictioryContent}

/-- The listing emits what the entry shows, at every index. -/
theorem Built.readdir_iff (h : Built log d) (hp : d.IsDir p)
    (hwalk : (understandThePath env path.chars).run vdisk d = some ((p : ℤ), d))
    (he : (madeIn log p)[i]? = some e) :
    ((fsReaddir env path).run vdisk d).map (fun q => q.1.2[i]?) = some (some e.name) ↔
      (∃ j, e.fileName j = 0) ∨ e.inodeNumber.toNat % 256 = 0 := by
  obtain ⟨s, hs, -, hrenamed⟩ := h.renamed
  have hrun := (hrenamed.walkable hs).run_fsReaddir_shown env hwalk hp fun b hb =>
    DictioryContent.ends_of_lt ((h.numbers hp).1 b (h.entries p hp ▸ hb))
  rw [hrun, Option.map_some, h.entries p hp, List.getElem?_map, he, Option.map_some,
    Option.some.injEq, Option.some.injEq, DictioryContent.shown_eq_name_iff]

/-- The function by rank returns the entry exactly below 12. -/
theorem Built.rank_iff (h : Built log d) (hp : d.IsDir p) (hi : i < (d.inode p).count)
    (he : (madeIn log p)[i]? = some e) :
    (∀ env, (getFilenameDataFromDirInRankView env i (d.inode p)).run vdisk d = some (e, d)) ↔
      i < 12 := by
  obtain ⟨s, hs, -, hrenamed⟩ := h.renamed
  have hptr := (hrenamed.pointersOk hs).lt p hp.1 0
  have hle := (hrenamed.dirOk hs hp).count_le
  have hentry := Option.some.inj ((h.getElem?_madeIn hp hi).symm.trans he)
  constructor
  · intro hall
    by_contra h12
    -- a buffer of zeros is no entry
    have hrun := run_getFilenameData_rank plainEnv (show i < 1536 by omega) hptr
      ((hrenamed.pointersOk hs).indirect p hp.1) h.zero
    rw [hall plainEnv, rankEntry, if_neg h12] at hrun
    exact h.ne_zero (List.mem_of_getElem? he) _ (Prod.mk.inj (Option.some.inj hrun)).1.symm
  · intro h12 env
    rw [run_getFilenameData env h12 hptr, hentry]

/-- The lookup of an entry's name finds the first entry of the same 28 bytes. -/
theorem Built.run_lookup (h : Built log d) (hp : d.IsDir p) (he : e ∈ madeIn log p) :
    ∃ f, (madeIn log p).find? (fun b => b.fileName = e.fileName) = some f ∧
      (findFileInDict env (d.inode p) (padTo30 e.name)).run vdisk d =
        some ((f.inodeNumber.toNat : ℤ), d) := by
  obtain ⟨s, hs, -, hrenamed⟩ := h.renamed
  obtain ⟨c, hc⟩ := h.names _ (mem_of_mem_madeIn he)
  obtain ⟨b, hchars, hname⟩ := DictioryContent.name_of_fileName hc
  obtain ⟨f, hf⟩ : ∃ f, (madeIn log p).find? (fun b => b.fileName = e.fileName) = some f :=
    Option.isSome_iff_exists.mp (List.find?_isSome.mpr ⟨e, he, decide_eq_true rfl⟩)
  have hlookup : d.graph.lookup p b.fileName = some f.inodeNumber.toNat := by
    rw [Disk.lookup_graph hp, h.entries p hp, hname, hf, Option.map_some]
  exact ⟨f, hf, hchars ▸ ((hrenamed.walkable hs).run_findFileInDict env hlookup).1⟩

/-- A lookup of its name finds the entry exactly if no earlier one has the same 28 bytes. -/
theorem Built.lookup_iff (h : Built log d) (hp : d.IsDir p) (he : (madeIn log p)[i]? = some e) :
    (findFileInDict env (d.inode p) (padTo30 e.name)).run vdisk d =
        some (e.inodeNumber.toInt, d) ↔
      ∀ b ∈ (madeIn log p).take i, b.fileName ≠ e.fileName := by
  obtain ⟨hlt, hnodup⟩ := h.numbers hp
  obtain ⟨hi, hget⟩ := List.getElem?_eq_some_iff.mp he
  have hmem : e ∈ madeIn log p := hget ▸ List.getElem_mem hi
  have htoInt : e.inodeNumber.toInt = (e.inodeNumber.toNat : ℤ) := by
    have hnumber := hlt e hmem
    exact toInt_eq_natCast (by omega)
  obtain ⟨f, hf, hfound⟩ := h.run_lookup env hp hmem
  obtain ⟨hfname, j, hj, rfl, hbefore⟩ := List.find?_eq_some_iff_getElem.mp hf
  rw [decide_eq_true_eq] at hfname
  rw [hfound, htoInt, Option.some.injEq, Prod.mk.injEq, Nat.cast_inj, and_iff_left rfl]
  constructor
  · intro heq x hx hxname
    -- numbers are unique, so the first entry with the name is entry `i`
    have hsame := List.inj_on_of_nodup_map hnodup (List.getElem_mem hj) hmem heq
    obtain rfl := (hnodup.of_map _).getElem_inj_iff.mp (hsame.trans hget.symm)
    obtain ⟨k, hk, rfl⟩ := List.mem_take_iff_getElem.mp hx
    have hk' := hbefore k (by omega)
    simp [hxname] at hk'
  · intro hnone
    rcases Nat.lt_trichotomy j i with hji | rfl | hij
    · exact absurd hfname
        (hnone _ (List.mem_take_iff_getElem.mpr ⟨j, by omega, rfl⟩))
    · rw [hget]
    · have hne := hbefore i hij
      simp [hget] at hne

theorem viewsAgree_entry_iff (he : (madeIn log p)[i]? = some e) : ViewsAgree env path log d p i ↔
    ((fsReaddir env path).run vdisk d).map (fun q => q.1.2[i]?) = some (some e.name) ∧
    (getFilenameDataFromDirInRankView env i (d.inode p)).run vdisk d = some (e, d) ∧
    (findFileInDict env (d.inode p) (padTo30 e.name)).run vdisk d =
      some (e.inodeNumber.toInt, d) := by
  simp only [ViewsAgree, he, Option.some.injEq, exists_eq_left']

theorem Built.viewsAgree_iff (h : Built log d) (hp : d.IsDir p)
    (hwalk : ∀ env, (understandThePath env path.chars).run vdisk d = some ((p : ℤ), d))
    (hi : i < (d.inode p).count) : (∀ env, ViewsAgree env path log d p i) ↔
      i < 12 ∧ ∃ e, (madeIn log p)[i]? = some e ∧
        ((∃ j, e.fileName j = 0) ∨ e.inodeNumber.toNat % 256 = 0) ∧
        ∀ b ∈ (madeIn log p).take i, b.fileName ≠ e.fileName := by
  have he := h.getElem?_madeIn hp hi
  have hviews (env : Env) : ViewsAgree env path log d p i ↔ _ := viewsAgree_entry_iff env he
  have : Nonempty Env := ⟨plainEnv⟩
  simp only [hviews, h.readdir_iff _ hp (hwalk _) he, h.lookup_iff _ hp he, forall_and,
    h.rank_iff hp hi he, forall_const, he, Option.some.injEq, exists_eq_left']
  exact and_left_comm

/-- **When all views of an entry agree**: for the first 12 entries, if the name ends within
`file_name` or the inode number begins with a NUL, and no earlier entry has the same 28 bytes. -/
theorem views_agree_iff (h : BuiltRun log d) (hp : d.IsDir p)
    (hwalk : ∀ env, (understandThePath env path.chars).run vdisk d = some ((p : ℤ), d))
    (hi : i < (d.inode p).count) : (∀ env, ViewsAgree env path log d p i) ↔
      i < 12 ∧ ∃ e, (madeIn log p)[i]? = some e ∧
        ((∃ j, e.fileName j = 0) ∨ e.inodeNumber.toNat % 256 = 0) ∧
        ∀ b ∈ (madeIn log p).take i, b.fileName ≠ e.fileName :=
  h.built.viewsAgree_iff hp hwalk hi

end Views

/-! ### Files in the root -/

/-- The inode number of the `n`-th file of the formatted disk: the root is inode 4. -/
def rootNumber (n : ℕ) : ℕ := if n < 4 then n else n + 1

/-- The entries of files with these names. -/
def rootEntries (names : List Component) : List DictioryContent :=
  names.mapIdx fun n c => ⟨c.fileName, BitVec.ofNat 32 (rootNumber n)⟩

/-- The numbers stay below the bound, and pass over the root's. -/
theorem rootNumber_lt {n : ℕ} (hn : n < 1536) : rootNumber n < 32768 ∧ rootNumber n ≠ 4 := by
  unfold rootNumber
  split <;> omega

/-- Where `n` files have been made the search finds the number of the next one. -/
theorem nextInode_eq_rootNumber {d : Disk} {n : ℕ} (hn : n < 1536)
    (himap : ∀ j < 32768, d.imap j = decide (j = 4 ∨ j < rootNumber n)) :
    d.HasInode ∧ d.nextInode = rootNumber n := by
  obtain ⟨hlt, hne⟩ := rootNumber_lt hn
  have hclear : d.imap (rootNumber n) = false := by
    rw [himap _ hlt]
    exact decide_eq_false fun h => h.elim hne (Nat.lt_irrefl _)
  -- every number below is taken
  have hfirst : d.freeInode = some (rootNumber n) := by
    refine Disk.freeInode_eq_some.mpr ⟨hlt, hclear, fun m hm => ?_⟩
    rw [himap m (by omega)]
    exact decide_eq_true (.inr hm)
  exact ⟨⟨_, hlt, hclear⟩, by rw [Disk.nextInode, hfirst, Option.getD_some]⟩

/-- One file more in the root, of any name that fits. -/
theorem BuiltRun.create_root {log : List Made} {d : Disk} (h : BuiltRun log d) {c : Component}
    (hfits : c.chars.length ≤ 30) (hdir : d.IsDir 4) (hcount : (d.inode 4).count < 1536)
    (hinode : d.HasInode) :
    ∃ d', BuiltRun (log ++ [⟨4, ⟨c.fileName, BitVec.ofNat 32 d.nextInode⟩⟩]) d' ∧ d'.IsDir 4 ∧
      ∀ j < 32768, d'.imap j = (d.imap j || decide (j = d.nextInode)) := by
  obtain ⟨s, hs, hfree, hrenamed⟩ := h.built.renamed
  have hp := hrenamed.canStore_of_hasInode hfree hdir hcount hinode
  have hwalk := hrenamed.walkable hs
  have hcall : (Kind.file.call plainEnv (componentString [] c plainMemory)).run vdisk d = _ :=
    hwalk.run_call plainEnv .file plainMemory hfits (Disk.namesFit_nil d 4) (resolve_root d)
  rw [hp.run_createIn plainEnv hrenamed hs] at hcall
  have hentry := mem_notes_fsCreate plainEnv Kind.file.mode
    (componentString [] c plainMemory) (splitPath_componentString [] plainMemory hfits)
    (hwalk.run_understandThePath_components plainEnv (Disk.namesFit_nil d 4) (resolve_root d))
  rw [← Kind.call_eq] at hentry
  exact ⟨_, h.create (resolve_root d) hdir hcount hp.inode hcall hentry,
    ⟨by decide, (hp.inode_withCreation plainEnv hrenamed hs _ hdir _).1⟩,
    fun j hj => Disk.imap_withCreation plainEnv hj⟩

/-- Files of any names in the root. -/
theorem exists_builtRun_root (names : List Component) (hcount : names.length ≤ 128 * 12)
    (hshort : ∀ c ∈ names, c.chars.length ≤ 30) : ∃ log d, BuiltRun log d ∧
      madeIn log 4 = rootEntries names ∧ d.IsDir 4 ∧
      ∀ j < 32768, d.imap j = decide (j = 4 ∨ j < rootNumber names.length) := by
  induction names using List.reverseRecOn with
  | nil =>
    refine ⟨[], _, .init (Disk.run_mkfs_zeroDisk plainEnv fun _ => 0), rfl,
      (Disk.isDir_initial _ _).mpr rfl, fun j hj => ?_⟩
    rw [Disk.imap_initial _ _ hj]
    simp [rootNumber]
  | append_singleton names c ih =>
    rw [List.length_append, List.length_singleton] at hcount
    obtain ⟨log, d, hrun, hmade, hdir, himap⟩ :=
      ih (by omega) fun b hb => hshort b (List.mem_append_left _ hb)
    have hlength : (d.inode 4).count = names.length := by
      have hentries := congrArg List.length (hrun.built.entries 4 hdir)
      rwa [Disk.length_entriesOf, hmade, rootEntries, List.length_mapIdx] at hentries
    obtain ⟨hinode, hnext⟩ := nextInode_eq_rootNumber (by omega) himap
    obtain ⟨d', hrun', hdir', himap'⟩ := hrun.create_root
      (hshort c (List.mem_append_right _ (List.mem_singleton.mpr rfl))) hdir (by omega) hinode
    refine ⟨_, d', hrun', ?_, hdir', fun j hj => ?_⟩
    · rw [madeIn_concat, if_pos rfl, hmade, rootEntries, rootEntries, List.mapIdx_concat, hnext]
    · rw [himap' j hj, himap j hj, hnext, List.length_append, List.length_singleton,
        ← Bool.decide_or, decide_eq_decide]
      unfold rootNumber
      split <;> split <;> omega

theorem Built.count_eq {log : List Made} {d : Disk} (h : Built log d) {p : ℕ} (hp : d.IsDir p) :
    (d.inode p).count = (madeIn log p).length := by
  rw [← h.entries p hp, Disk.length_entriesOf]

/-- Of three files in the root, the second is seen alike by all. -/
theorem views_agree_three_files : ∃ log d, BuiltRun log d ∧
    madeIn log 4 = rootEntries [lettersAnd 0 98, lettersAnd 26 98, lettersAnd 0 99] ∧
    ∀ env, ViewsAgree env (pathString [] plainMemory) log d 4 1 := by
  obtain ⟨log, d, hrun, hmade, hdir, -⟩ := exists_builtRun_root
    [lettersAnd 0 98, lettersAnd 26 98, lettersAnd 0 99] (by decide) (by decide)
  have hcount := hrun.built.count_eq hdir
  rw [hmade] at hcount
  refine ⟨log, d, hrun, hmade, (views_agree_iff hrun hdir
    (fun env => run_understandThePath_root env d) (by rw [hcount]; decide)).mpr ?_⟩
  rw [hmade]
  exact ⟨by decide, _, rfl, by decide, by decide⟩

/-- The thirteenth of the root's files is not found by rank, and the listing of one with a name of
28 bytes runs on into its inode number. -/
theorem not_views_agree : (∃ log d, BuiltRun log d ∧
      madeIn log 4 = rootEntries ((List.range 13).map fun n => lettersAnd n 98) ∧
      ¬ ∀ env, ViewsAgree env (pathString [] plainMemory) log d 4 12) ∧
    ∃ log d, BuiltRun log d ∧
      madeIn log 4 = rootEntries [lettersAnd 0 98, lettersAnd 27 98] ∧
      ¬ ∀ env, ViewsAgree env (pathString [] plainMemory) log d 4 1 := by
  constructor
  · obtain ⟨log, d, hrun, hmade, hdir, -⟩ := exists_builtRun_root
      ((List.range 13).map fun n => lettersAnd n 98) (by decide) (by decide)
    refine ⟨log, d, hrun, hmade, fun hall => ?_⟩
    have hagree := (hrun.built.viewsAgree_iff hdir (fun env => run_understandThePath_root env d)
      (by rw [hrun.built.count_eq hdir, hmade]; decide)).mp hall
    exact absurd hagree.1 (by decide)
  · obtain ⟨log, d, hrun, hmade, hdir, -⟩ := exists_builtRun_root
      [lettersAnd 0 98, lettersAnd 27 98] (by decide) (by decide)
    refine ⟨log, d, hrun, hmade, fun hall => ?_⟩
    obtain ⟨-, e, he, hname, -⟩ := (hrun.built.viewsAgree_iff hdir
      (fun env => run_understandThePath_root env d)
      (by rw [hrun.built.count_eq hdir, hmade]; decide)).mp hall
    rw [hmade] at he
    obtain rfl := Option.some.inj he
    exact absurd hname (by decide)

end InodeFs
