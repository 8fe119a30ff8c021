import InodeFs.Disk.Directory

/-!
# Path resolution

`understand_the_path` finds on the disk what `NameGraph.resolve` finds in the disk's graph. The
results are stated for a disk that may change between two reads (`Prog.Yields`), as long as
it keeps the directories the walk meets, so that they hold for a request that runs alone and
for one that runs beside another.

* `visitedDirectlyLoop_yields_found`, `visitedDirectlyLoop_yields_missing`: one directory;
* `understandThePath_yields`: a path whose components exist;
* `run_understandThePath`, `run_understandThePath_missing`: the same for a request alone, and
  a last component that does not exist.

What a directory shows is taken apart from what it is: `ShowsEntries` says that every disk of a set
shows certain entries as the first ones of a record, and the search of a block, of a directory and
along a path need no more than that. A request alone has the set of one disk. Beside another one,
which may append an entry or replace a record by one that is larger, the set has all disks that may
be met on the way.

`Disk.Walkable` collects what the walks need of a disk that stays as it is: directories that are not
too large, and pointers to blocks that exist.
-/

namespace InodeFs

variable (env : Env)

/-! ### Reading a disk that may change -/

theorem envRead_yields {S : Disk → Prop} {n : ℕ} (hn : n < 65536) :
    (env.read n).Yields vdisk S fun b => ∃ s, S s ∧ b = s n := by
  intro s hs
  rw [load_natCast s hn]
  exact ⟨s, hs, rfl⟩

theorem readEntries_yields {S : Disk → Prop} {b : ℕ} (hb : b < 64508) :
    (readEntries env (datablockFindDiskId b)).Yields vdisk S
      fun buffer => ∃ s, S s ∧ buffer = (s.data b).entries := by
  rw [readEntries, datablockFindDiskId_natCast]
  refine (envRead_yields env (by omega)).bind fun buffer hread => ?_
  obtain ⟨s, hs, hbuffer⟩ := hread
  exact ⟨s, hs, congrArg _ hbuffer⟩

theorem readINodes_yields {S : Disk → Prop} {n : ℕ} (hn : n < 65536) :
    (readINodes env n).Yields vdisk S fun buffer => ∃ s, S s ∧ buffer = (s n).inodes := by
  rw [readINodes]
  refine (envRead_yields env hn).bind fun buffer hread => ?_
  obtain ⟨s, hs, hbuffer⟩ := hread
  exact ⟨s, hs, congrArg _ hbuffer⟩

theorem justReadInodeFromDisk_yields {S : Disk → Prop} {n : ℕ} (hn : n < 32768) :
    (justReadInodeFromDisk env n).Yields vdisk S fun x => ∃ s, S s ∧ x = s.inode n := by
  have hblock : 4 + n / 32 < 65536 := by omega
  have hindex : n % 32 < 32 := by omega
  simp only [justReadInodeFromDisk, inodeFindDiskIdAndIndexInDisk_natCast]
  refine (readINodes_yields env hblock).bind fun buffer ⟨s, hs, hbuffer⟩ => ?_
  rw [Prog.index_natCast _ hindex]
  exact ⟨s, hs, congrFun hbuffer _⟩

/-! ### The search in one block -/

section Scan

variable {n : ℕ} {son : Fin 30 → Byte}

theorem scanEntries_found {l : List DictioryContent} {j v k : ℕ} (hk : k < l.length)
    (hn : v + k < n) (hmatch : sameName son l[k] = true)
    (hfirst : ∀ i (hi : i < k), sameName son l[i] = false) :
    scanEntries n son l j v = .found (j + k) := by
  induction l generalizing j v k with
  | nil => cases hk
  | cons e l ih =>
    have hv : ¬ (v : ℤ) ≥ n := by omega
    rw [scanEntries, if_neg hv]
    cases k with
    | zero =>
      exact if_pos hmatch
    | succ k =>
      have he : sameName son e = false := hfirst 0 (Nat.succ_pos k)
      have hrest := ih (j := j + 1) (v := v + 1) (Nat.lt_of_succ_lt_succ hk) (by omega) hmatch
        fun i hi => hfirst (i + 1) (Nat.succ_lt_succ hi)
      rw [if_neg (by simp [he])]
      rw [Nat.cast_succ] at hrest
      rw [hrest]
      congr 1
      omega

theorem scanEntries_next (son : Fin 30 → Byte) {l : List DictioryContent} {j v : ℕ}
    (hn : v + l.length ≤ n) (hnone : ∀ e ∈ l, sameName son e = false) :
    scanEntries n son l j v = .next ((v + l.length : ℕ) : ℤ) := by
  induction l generalizing j v with
  | nil => rfl
  | cons e l ih =>
    rw [List.length_cons] at hn ⊢
    have hv : ¬ (v : ℤ) ≥ n := by omega
    have he := hnone e (List.mem_cons_self ..)
    have hrest := ih (j := j + 1) (v := v + 1) (by omega)
      fun e he => hnone e (List.mem_cons_of_mem _ he)
    rw [Nat.cast_succ] at hrest
    rw [scanEntries, if_neg hv, if_neg (by simp [he]), hrest]
    congr 2
    omega

theorem scanEntries_missing (son : Fin 30 → Byte) {l : List DictioryContent} {j v : ℕ}
    (hv : v ≤ n) (hn : n < v + l.length) (hnone : ∀ i (hi : i < l.length),
      i < n - v → sameName son l[i] = false) :
    scanEntries n son l j v = .missing := by
  induction l generalizing j v with
  | nil => simp at hn; omega
  | cons e l ih =>
    rw [List.length_cons] at hn
    rw [scanEntries]
    split
    · rfl
    · next hlt =>
      have he : sameName son e = false := hnone 0 (by simp) (by omega)
      have hrest := ih (j := j + 1) (v := v + 1) (by omega) (by omega) fun i hi hin =>
        hnone (i + 1) (by simpa using hi) (by omega)
      rw [Nat.cast_succ] at hrest
      rw [if_neg (by simp [he]), hrest]

variable {buffer : Fin 128 → DictioryContent} {v : ℕ}

/-- A block with the name: the search stops at its first entry of that name. -/
theorem scanBlock_found {m : ℕ} (hm : m < 128) (hn : v + m < n)
    (hmatch : sameName son (buffer ⟨m, hm⟩) = true)
    (hfirst : ∀ i (hi : i < m), sameName son (buffer ⟨i, hi.trans hm⟩) = false) :
    scanEntries n son (List.ofFn buffer) 0 v = .found m := by
  have hlength : m < (List.ofFn buffer).length := by rwa [List.length_ofFn]
  have hfound := scanEntries_found (j := 0) hlength hn (by rwa [List.getElem_ofFn]) fun i hi => by
    rw [List.getElem_ofFn]
    exact hfirst i hi
  rw [hfound, Nat.zero_add]

/-- A block without the name whose slots are all in use is passed. -/
theorem scanBlock_next (hn : v + 128 ≤ n)
    (hnone : ∀ m (hm : m < 128), sameName son (buffer ⟨m, hm⟩) = false) :
    scanEntries n son (List.ofFn buffer) 0 v = .next ((v + 128 : ℕ) : ℤ) := by
  have hnext := scanEntries_next (n := n) son (l := List.ofFn buffer) (j := 0)
    (by rwa [List.length_ofFn]) fun e he => by
      obtain ⟨⟨m, hm⟩, rfl⟩ := List.mem_ofFn.mp he
      exact hnone m hm
  rw [hnext, List.length_ofFn]

/-- A block without the name in which the entries end. -/
theorem scanBlock_missing (hv : v ≤ n) (hn : n < v + 128)
    (hnone : ∀ m (hm : m < 128), v + m < n → sameName son (buffer ⟨m, hm⟩) = false) :
    scanEntries n son (List.ofFn buffer) 0 v = .missing := by
  refine scanEntries_missing son hv (by rwa [List.length_ofFn]) fun m hm hmn => ?_
  rw [List.getElem_ofFn]
  exact hnone m _ (by omega)

end Scan

/-! ### The search in one directory -/

/-- Every disk in `S` shows the directory record `x` the entries `l`, as its first ones. -/
structure ShowsEntries (S : Disk → Prop) (x : INode) (l : List DictioryContent) : Prop where
  length_le : l.length ≤ x.count
  count_le : x.count ≤ 1536
  ptr_lt : ∀ r < 12, x.ptr r < 64508
  entry : ∀ s, S s → ∀ j (hj : j < l.length), s.entryOf x j = l[j]

/-- A record shows the entries that are read with it, on the disk itself. -/
theorem showsEntries_entriesOf {d : Disk} {x : INode} (hcount : x.count ≤ 1536)
    (hptr : ∀ r < 12, x.ptr r < 64508) : ShowsEntries (· = d) x (d.entriesOf x) := by
  refine ⟨by rw [Disk.length_entriesOf], hcount, hptr, ?_⟩
  rintro _ rfl j hj
  rw [Disk.getElem_entriesOf]

theorem ShowsEntries.subset {S S' : Disk → Prop} {x : INode} {l : List DictioryContent}
    (h : ShowsEntries S x l) (hS : ∀ s, S' s → S s) : ShowsEntries S' x l :=
  ⟨h.length_le, h.count_le, h.ptr_lt, fun s hs => h.entry s (hS s hs)⟩

section Directory

variable {S : Disk → Prop} {x : INode} {l : List DictioryContent} {son : Fin 30 → Byte}

/-- What a round of the search reads: a block whose slots are the entries of its rank. -/
theorem ShowsEntries.readEntries_yields (h : ShowsEntries S x l) {i : ℕ} (hi : i < 12) :
    (readEntries env (datablockFindDiskId (x.directPointer ⟨i, hi⟩).toInt)).Yields vdisk S
      fun buffer => ∀ k (hk : k < 128), ∀ (hj : 128 * i + k < l.length),
        buffer ⟨k, hk⟩ = l[128 * i + k] := by
  rw [INode.toInt_directPointer hi (h.ptr_lt i hi)]
  refine (InodeFs.readEntries_yields env (h.ptr_lt i hi)).mono fun buffer => ?_
  rintro ⟨s, hs, rfl⟩ k hk hj
  have hdiv : (128 * i + k) / 128 = i := by omega
  have hmod : (128 * i + k) % 128 = k := by omega
  have hentry := h.entry s hs (128 * i + k) hj
  simpa only [Disk.entryOf, Block.entry, hdiv, hmod] using hentry

/-- The search finds the first entry with the name. The recursion is on the rounds left; the
invariant is that the `128 * i` entries visited so far have other names. -/
theorem visitedDirectlyLoop_yields_found (h : ShowsEntries S x l) {k : ℕ} (hk : k < l.length)
    (hmatch : sameName son l[k] = true) (hfirst : ∀ i (hi : i < k), sameName son l[i] = false)
    (blocks i : ℕ) (hblocks : i + blocks = min (x.count / 128 + 1) 12) (hi : 128 * i ≤ k) :
    (visitedDirectlyLoop env x.count x son blocks i ((128 * i : ℕ) : ℤ)).Yields vdisk S
      (· = l[k].inodeNumber.toInt) := by
  have hcount := h.count_le
  have hlength := h.length_le
  induction blocks generalizing i with
  | zero => omega
  | succ blocks ih =>
    have hi12 : i < 12 := by omega
    rw [visitedDirectlyLoop, INode.index_directPointer hi12, Prog.ret_bind]
    refine (h.readEntries_yields env hi12).bind fun buffer hbuffer => ?_
    -- the entry is in the block at hand, or in one behind it
    by_cases hlast : k < 128 * i + 128
    · obtain ⟨m, rfl⟩ := Nat.exists_eq_add_of_le hi
      have hm : m < 128 := by omega
      have hslot : sameName son (buffer ⟨m, hm⟩) = true := by rwa [hbuffer m hm hk]
      rw [scanBlock_found hm (by omega) hslot fun c hc => by
        rw [hbuffer c (hc.trans hm) (by omega)]
        exact hfirst _ (by omega)]
      simp only
      rw [Prog.index_natCast _ hm, Prog.ret_bind]
      exact congrArg (·.inodeNumber.toInt) (hbuffer m hm hk)
    · rw [scanBlock_next (by omega) fun m hm => by
        rw [hbuffer m hm (by omega)]
        exact hfirst _ (by omega)]
      exact ih (i + 1) (by omega) (by omega)

/-- In a directory that is not full the search for a name that no entry has ends with
`-ENOENT`. -/
theorem visitedDirectlyLoop_yields_missing (h : ShowsEntries S x l)
    (hlength : l.length = x.count) (hcount : x.count < 1536)
    (hnone : ∀ e ∈ l, sameName son e = false) (blocks i : ℕ)
    (hblocks : i + blocks = min (x.count / 128 + 1) 12) (hi : 128 * i ≤ x.count) :
    (visitedDirectlyLoop env x.count x son blocks i ((128 * i : ℕ) : ℤ)).Yields vdisk S
      (· = negENOENT) := by
  induction blocks generalizing i with
  | zero => omega
  | succ blocks ih =>
    have hi12 : i < 12 := by omega
    rw [visitedDirectlyLoop, INode.index_directPointer hi12, Prog.ret_bind]
    refine (h.readEntries_yields env hi12).bind fun buffer hbuffer => ?_
    have hslot (m : ℕ) (hm : m < 128) (hj : 128 * i + m < l.length) :
        sameName son (buffer ⟨m, hm⟩) = false := by
      rw [hbuffer m hm hj]
      exact hnone _ (List.getElem_mem hj)
    -- the search returns in the block where the entries end
    by_cases hlast : x.count < 128 * i + 128
    · rw [scanBlock_missing hi hlast fun m hm hmn => hslot m hm (by omega)]
      rfl
    · rw [scanBlock_next (by omega) fun m hm => hslot m hm (by omega)]
      exact ih (i + 1) (by omega) (by omega)

theorem findFileInDict_eq (h : x.count ≤ 1536) :
    findFileInDict env x son =
      visitedDirectlyLoop env x.count x son (min (x.count / 128 + 1) 12) 0 0 := by
  have hblocks : (getMin ((x.count : ℤ).tdiv 128 + 1) 12).toNat = min (x.count / 128 + 1) 12 := by
    rw [natCast_tdiv_ofNat, getMin]
    split <;> omega
  have hsmall : ¬ ((x.count : ℤ) > 12 * 128 ∧ True) := by omega
  rw [findFileInDict, x.tdiv_cInt_stSize h, visitedDirectlyToGetFile, hblocks]
  refine Eq.trans (congrArg _ (funext fun result => ?_)) (Prog.bind_ret _)
  exact if_neg fun hlt => hsmall ⟨hlt.1, trivial⟩

/-- What a lookup finds in the entries a directory shows for certain. -/
theorem findFileInDict_yields_of_find (h : ShowsEntries S x l) {e : DictioryContent}
    (hfind : l.find? (fun e => e.fileName = fileNameOf son) = some e) :
    (findFileInDict env x son).Yields vdisk S (· = e.inodeNumber.toInt) := by
  obtain ⟨hmatch, k, hk, rfl, hfirst⟩ := List.find?_eq_some_iff_getElem.mp hfind
  have hcount := h.count_le
  rw [findFileInDict_eq env hcount]
  refine visitedDirectlyLoop_yields_found env h hk ?_ (fun i hi => ?_) _ 0 (by omega) (by omega)
  · exact decide_eq_true (of_decide_eq_true hmatch).symm
  · refine decide_eq_false fun heq => ?_
    have hi : decide (l[i].fileName = fileNameOf son) = false := by
      simpa only [Bool.not_eq_true'] using hfirst i hi
    exact of_decide_eq_false hi heq.symm

theorem findFileInDict_yields (h : ShowsEntries S x l) {a : Name} {e : DictioryContent}
    (hfind : l.find? (fun e => e.fileName = a.fileName) = some e) :
    (findFileInDict env x (padTo30 a.chars)).Yields vdisk S (· = e.inodeNumber.toInt) :=
  findFileInDict_yields_of_find env h hfind

theorem findFileInDict_yields_missing (h : ShowsEntries S x l) (hlength : l.length = x.count)
    (hcount : x.count < 1536) {a : Name} (hnone : ∀ e ∈ l, e.fileName ≠ a.fileName) :
    (findFileInDict env x (padTo30 a.chars)).Yields vdisk S (· = negENOENT) := by
  rw [findFileInDict_eq env hcount.le]
  refine visitedDirectlyLoop_yields_missing env h hlength hcount (fun e he => ?_) _ 0 (by omega)
    (by omega)
  exact decide_eq_false fun heq => hnone e he heq.symm

end Directory

/-! ### The components of a path -/

theorem scanComponent_append {chars : List Byte} (rest acc : List Byte)
    (hchars : ∀ c ∈ chars, c ≠ slash) (hrest : rest = [] ∨ ∃ r, rest = slash :: r) :
    scanComponent (chars ++ rest) acc = (acc ++ chars, rest) := by
  induction chars generalizing acc with
  | nil =>
    rcases hrest with rfl | ⟨r, rfl⟩
    · simp [scanComponent]
    · simp [scanComponent]
  | cons c chars ih =>
    have hc := hchars c (List.mem_cons_self ..)
    rw [List.cons_append, scanComponent, if_neg hc,
      ih _ fun c hc => hchars c (List.mem_cons_of_mem _ hc)]
    simp

/-- The walk at its last component. -/
theorem understandLoop_last {chars : List Byte} (hne : chars ≠ []) (hlength : chars.length ≤ 30)
    (hslash : ∀ c ∈ chars, c ≠ slash) (r : ℤ) (x : INode) :
    understandLoop env chars r x = findFileInDict env x (padTo30 chars) := by
  have hscan := scanComponent_append [] [] hslash (.inl rfl)
  rw [List.append_nil, List.nil_append] at hscan
  obtain ⟨c, cs, rfl⟩ := List.exists_cons_of_ne_nil hne
  rw [understandLoop]
  simp only [hscan, Nat.not_lt.mpr hlength, if_false]
  split
  · rfl
  · next h => rw [hscan] at h; cases h

/-- The walk at an inner component, which may be empty. -/
theorem understandLoop_inner {chars : List Byte} (hlength : chars.length ≤ 30)
    (hslash : ∀ c ∈ chars, c ≠ slash) (rest : List Byte) (r : ℤ) (x : INode) :
    understandLoop env (chars ++ slash :: rest) r x = (do
      let timeInodeNumber ← findFileInDict env x (padTo30 chars)
      let fatherInode ← justReadInodeFromDisk env timeInodeNumber
      understandLoop env rest r fatherInode) := by
  have hscan := scanComponent_append (slash :: rest) [] hslash (.inr ⟨rest, rfl⟩)
  rw [List.nil_append] at hscan
  obtain ⟨c, cs, hcs⟩ := List.exists_cons_of_ne_nil
    (show chars ++ slash :: rest ≠ [] by simp)
  rw [hcs] at hscan ⊢
  rw [understandLoop]
  simp only [hscan, Nat.not_lt.mpr hlength, if_false]
  split
  · next h => rw [hscan] at h; cases h
  · next h =>
    rw [hscan] at h
    obtain ⟨-, rfl⟩ := List.cons.inj h
    rfl

/-! ### Paths -/

/-- The record of an inode on some disk of `S`. -/
def Sighted (S : Disk → Prop) (p : ℕ) (x : INode) : Prop := ∃ s, S s ∧ x = s.inode p

/-- The walk along the components before the last, and the last lookup. `d` is the disk whose
directories all disks in `S` show. -/
theorem understandLoop_yields {S : Disk → Prop} {d : Disk} {Q : ℤ → Prop}
    (hshow : ∀ q, d.IsDir q → ∀ x, Sighted S q x → ShowsEntries S x (d.entriesOf (d.inode q)))
    (hnumber : ∀ q e, e ∈ d.graph q → e.2 < 32768) {as bs : List Name} {a b : Name}
    {p q : ℕ} {r : ℤ} (hp : p < 32768)
    (hresolve : d.graph.resolve p ((as.map Name.fileName)) = some q)
    (hlast : ∀ x, Sighted S q x → (findFileInDict env x (padTo30 a.chars)).Yields vdisk S Q)
    {x : INode} (hx : Sighted S p x) (hb : as ++ [a] = b :: bs) :
    (understandLoop env (b.chars ++ joinNames bs) r x).Yields vdisk S Q := by
  -- one component a round; the record at hand is one of the directory `p`
  induction as generalizing p x b bs with
  | nil =>
    obtain ⟨rfl, rfl⟩ := List.cons.inj hb
    obtain rfl : p = q := Option.some.inj hresolve
    rw [joinNames_nil, List.append_nil,
      understandLoop_last env a.ne_nil (a.length_le.trans (by decide)) a.noSlash]
    exact hlast x hx
  | cons c as ih =>
    rw [List.cons_append] at hb
    obtain ⟨rfl, rfl⟩ := List.cons.inj hb
    rw [List.map_cons, NameGraph.resolve_cons, Option.bind_eq_some_iff] at hresolve
    obtain ⟨i, hi, hresolve⟩ := hresolve
    have hdir := Disk.isDir_of_lookup hi
    have hlt := hnumber p _ (NameGraph.mem_of_lookup hi)
    rw [Disk.lookup_graph hdir] at hi
    obtain ⟨e, he, rfl⟩ := Option.map_eq_some_iff.mp hi
    obtain ⟨b, bs, hbs⟩ := List.exists_cons_of_ne_nil (show as ++ [a] ≠ [] by simp)
    rw [hbs, joinNames_cons, understandLoop_inner env (c.length_le.trans (by decide)) c.noSlash]
    refine (findFileInDict_yields env (hshow p hdir x hx) he).bind ?_
    rintro _ rfl
    rw [toInt_eq_natCast (by omega)]
    refine (justReadInodeFromDisk_yields env hlt).bind fun y hy => ?_
    exact ih hlt hresolve hy hbs

/-- The walk reads the root's record and continues with the first component. -/
theorem understandThePath_concat (as : List Name) (a : Name) :
    ∃ b bs, as ++ [a] = b :: bs ∧ understandThePath env (pathChars (as ++ [a])) = (do
      let fatherInode ← justReadInodeFromDisk env ((4 : ℕ) : ℤ)
      understandLoop env (b.chars ++ joinNames bs) 4 fatherInode) := by
  obtain ⟨b, bs, hbs⟩ := List.exists_cons_of_ne_nil (show as ++ [a] ≠ [] by simp)
  refine ⟨b, bs, hbs, ?_⟩
  rw [hbs, pathChars_of_ne_nil (List.cons_ne_nil b bs)]
  rfl

theorem understandThePath_nil (S : Disk → Prop) :
    (understandThePath env (pathChars [])).Yields vdisk S (· = 4) := by
  refine (justReadInodeFromDisk_yields env (n := 4) (by decide)).bind fun x _ => ?_
  rw [pathChars_nil, List.drop_succ_cons, List.drop_zero, understandLoop]
  rfl

/-- The root is found on every disk. -/
theorem run_understandThePath_root (d : Disk) :
    (understandThePath env [slash]).run vdisk d = some (((4 : ℕ) : ℤ), d) :=
  (understandThePath_nil env (· = d)).run_eq rfl

theorem understandThePath_concat_yields {S : Disk → Prop} {d : Disk} {Q : ℤ → Prop}
    (hshow : ∀ q, d.IsDir q → ∀ x, Sighted S q x → ShowsEntries S x (d.entriesOf (d.inode q)))
    (hnumber : ∀ q e, e ∈ d.graph q → e.2 < 32768) {as : List Name} {a : Name} {q : ℕ}
    (hresolve : d.graph.resolve 4 (as.map Name.fileName) = some q)
    (hlast : ∀ x, Sighted S q x → (findFileInDict env x (padTo30 a.chars)).Yields vdisk S Q) :
    (understandThePath env (pathChars (as ++ [a]))).Yields vdisk S Q := by
  obtain ⟨b, bs, hbs, heq⟩ := understandThePath_concat env as a
  rw [heq]
  refine (justReadInodeFromDisk_yields env (by decide)).bind fun x hx => ?_
  exact understandLoop_yields env hshow hnumber (by decide) hresolve hlast hx hbs

/-- **A path is resolved as in the graph**, beside other requests that keep what the graph's
disk shows. -/
theorem understandThePath_yields {S : Disk → Prop} {d : Disk}
    (hshow : ∀ q, d.IsDir q → ∀ x, Sighted S q x → ShowsEntries S x (d.entriesOf (d.inode q)))
    (hnumber : ∀ q e, e ∈ d.graph q → e.2 < 32768) {as : List Name} {i : ℕ}
    (hresolve : d.graph.resolve 4 (as.map Name.fileName) = some i) :
    (understandThePath env (pathChars as)).Yields vdisk S (· = (i : ℤ)) := by
  induction as using List.reverseRecOn with
  | nil =>
    obtain rfl : 4 = i := Option.some.inj hresolve
    exact understandThePath_nil env S
  | append_singleton as a _ =>
    rw [List.map_append, List.map_singleton, NameGraph.resolve_concat_eq_some] at hresolve
    obtain ⟨q, hq, hlookup⟩ := hresolve
    have hdir := Disk.isDir_of_lookup hlookup
    have hlt := hnumber q _ (NameGraph.mem_of_lookup hlookup)
    rw [Disk.lookup_graph hdir] at hlookup
    obtain ⟨e, he, rfl⟩ := Option.map_eq_some_iff.mp hlookup
    refine understandThePath_concat_yields env hshow hnumber hq fun x hx => ?_
    rw [← toInt_eq_natCast (by omega)]
    exact findFileInDict_yields env (hshow q hdir x hx) he

/-! ### A request alone -/

/-- The directories of a disk are within the limits of the code: at most `128 * 12` entries,
pointers to existing data blocks, and inode numbers that exist. -/
structure Disk.Walkable (d : Disk) : Prop where
  count_le : ∀ p, d.IsDir p → (d.inode p).count ≤ 1536
  ptr_lt : ∀ p, d.IsDir p → ∀ r < 12, (d.inode p).ptr r < 64508
  number_lt : ∀ p e, e ∈ d.graph p → e.2 < 32768

namespace Disk.Walkable

variable {d : Disk} (hd : d.Walkable) {as : List Name} {a : Name} {p i : ℕ}
include hd

theorem showsEntries (q : ℕ) (hq : d.IsDir q) (x : INode) (hx : Sighted (· = d) q x) :
    ShowsEntries (· = d) x (d.entriesOf (d.inode q)) := by
  obtain ⟨_, rfl, rfl⟩ := hx
  exact showsEntries_entriesOf (hd.count_le q hq) (hd.ptr_lt q hq)

/-- **Resolution**: an existing path. -/
theorem run_understandThePath (hresolve : d.graph.resolve 4 (as.map Name.fileName) = some i) :
    (understandThePath env (pathChars as)).run vdisk d = some ((i : ℤ), d) :=
  (understandThePath_yields env hd.showsEntries hd.number_lt hresolve).run_eq rfl

/-- **Resolution**: a name that a directory with free entries does not have. -/
theorem run_understandThePath_missing
    (hresolve : d.graph.resolve 4 (as.map Name.fileName) = some p) (hp : d.IsDir p)
    (hcount : (d.inode p).count < 1536) (hnone : d.graph.lookup p a.fileName = none) :
    (understandThePath env (pathChars (as ++ [a]))).run vdisk d = some (negENOENT, d) := by
  refine (understandThePath_concat_yields env hd.showsEntries hd.number_lt hresolve ?_).run_eq rfl
  intro x hx
  have hshow := hd.showsEntries p hp x hx
  obtain ⟨_, rfl, rfl⟩ := hx
  refine findFileInDict_yields_missing env hshow (length_entriesOf _ _) hcount fun e he hname => ?_
  rw [lookup_graph hp, Option.map_eq_none_iff, List.find?_eq_none] at hnone
  exact hnone e he (decide_eq_true hname)

end Disk.Walkable

end InodeFs
