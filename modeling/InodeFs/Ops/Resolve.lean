import InodeFs.Properties.Lookup
import InodeFs.State.Sound
import Mathlib.Data.List.TakeWhile

/-!
# Paths that do not resolve

What `understand_the_path` does on a path of any characters: it follows the components that are
names of the graph (`run_understandThePath_via`), and at the first one that is not it returns
`-ENOENT` only if that is the last component of the path, fits into `son_name` and is looked up
in a directory with less than `128 * 12` entries (`run_understandLoop_missing`). In every other
case the walk has no meaning: it ends without a value, leaves `son_name`, or uses `-ENOENT` as
an inode number.

A path is any string here: with empty components, with components that no file can have, and of any
length. `exists_component` takes it apart, one component and the rest behind the next separator, and
the recursion is on the number of characters left. Up to the missing component the walk is that of
`InodeFs.Ops.Walk`, with the directories of the naming graph.

The negative number is no inode number: the record at index -2 is outside the array of a block
(`run_justReadInodeFromDisk_negENOENT`), so that the next round of the loop, or the caller, has no
result.
-/

namespace InodeFs

variable (env : Env)

/-! ### Components -/

/-- A component is stored and compared like the name `a` only if it is `a`. -/
theorem Name.fileNameOf_padTo30_eq_iff {b : List Byte} (hb : ∀ c ∈ b, c ≠ 0) {a : Name} :
    fileNameOf (padTo30 b) = a.fileName ↔ b = a.chars := by
  constructor
  · intro h
    -- names have no zero bytes, so that the length shows in the first zero
    have hlt (i : ℕ) (hi : i < 28) : i < b.length ↔ i < a.chars.length := by
      rw [← a.fileName_ne_zero_iff ⟨i, hi⟩, ← h]
      change _ ↔ b.getD i 0 ≠ 0
      rw [List.getD_eq_getElem?_getD]
      constructor
      · intro hlen
        rw [List.getElem?_eq_getElem hlen, Option.getD_some]
        exact hb _ (List.getElem_mem hlen)
      · intro hne
        by_contra hlen
        exact hne (by rw [List.getElem?_eq_none (Nat.le_of_not_lt hlen), Option.getD_none])
    have ha := a.length_le
    have hlength : b.length = a.chars.length := by
      have h1 := hlt a.chars.length (by omega)
      have h2 := hlt b.length
      omega
    refine List.ext_getElem hlength fun i hi hi' => ?_
    have hbyte := congrFun h ⟨i, by omega⟩
    change b.getD i 0 = a.chars.getD i 0 at hbyte
    simpa [List.getD_eq_getElem?_getD, hi, hi'] using hbyte
  · rintro rfl
    rfl

/-- Every character string is a component, and what follows it from the next separator on. -/
theorem exists_component (rest : List Byte) : ∃ b tail, rest = b ++ tail ∧
    (∀ c ∈ b, c ≠ slash) ∧ (tail = [] ∨ ∃ r, tail = slash :: r) := by
  refine ⟨rest.takeWhile (· ≠ slash), rest.dropWhile (· ≠ slash),
    List.takeWhile_append_dropWhile.symm, fun c hc => ?_, ?_⟩
  · have hne := List.mem_takeWhile_imp hc
    exact of_decide_eq_true hne
  · cases htail : rest.dropWhile (· ≠ slash) with
    | nil => exact .inl rfl
    | cons c r =>
      have hc := List.head_dropWhile_not (· ≠ slash) (l := rest) (by rw [htail]; simp)
      simp only [htail, List.head_cons, decide_eq_false_iff_not, not_not] at hc
      exact .inr ⟨r, by rw [hc]⟩

theorem joinNames_append_slash (as : List Name) (rest : List Byte) :
    joinNames as ++ slash :: rest =
      slash :: (as.flatMap (fun a => a.chars ++ [slash]) ++ rest) := by
  induction as with
  | nil => rfl
  | cons a as ih =>
    rw [joinNames_cons, List.cons_append, List.append_assoc, ih]
    simp

/-! ### The walk -/

/-- A component of more than 30 characters leaves `son_name`. -/
theorem understandLoop_long {b tail : List Byte} (hlength : 30 < b.length)
    (hslash : ∀ c ∈ b, c ≠ slash) (htail : tail = [] ∨ ∃ r, tail = slash :: r) (r : ℤ) (x : INode) :
    understandLoop env (b ++ tail) r x = Prog.undefined := by
  have hscan := scanComponent_append tail [] hslash htail
  rw [List.nil_append] at hscan
  obtain ⟨c, cs, hcs⟩ := List.exists_cons_of_ne_nil (show b ++ tail ≠ [] by
    intro h
    rw [(List.append_eq_nil_iff.mp h).1] at hlength
    cases hlength)
  rw [hcs] at hscan ⊢
  rw [understandLoop]
  simp only [hscan, hlength, if_true]

/-- `-ENOENT` is no inode number: `buffer_inode[-2]` is outside the array. -/
theorem run_justReadInodeFromDisk_negENOENT (d : Disk) :
    (justReadInodeFromDisk env negENOENT).run vdisk d = none := by
  have hposition : inodeFindDiskIdAndIndexInDisk negENOENT = (-2, ((4 : ℕ) : ℤ)) := rfl
  simp only [justReadInodeFromDisk, hposition]
  rw [Prog.run_bind, run_readINodes env (by decide), Option.bind_some]
  rw [show (Prog.index (d 4).inodes (-2) : Fs INode) = Prog.undefined by
    unfold Prog.index
    exact dif_neg (by decide)]
  rfl

namespace Disk.Walkable

variable {d : Disk} (hd : d.Walkable) {p q : ℕ}
include hd

/-- The search for a name that the directory does not have: the thirteenth block is never
looked at, and behind the twelfth the function ends without a value. -/
theorem run_findFileInDict_missing (hp : d.IsDir p) {son : Fin 30 → Byte}
    (hnone : ∀ e ∈ d.entriesOf (d.inode p), e.fileName ≠ fileNameOf son) :
    (findFileInDict env (d.inode p) son).run vdisk d =
      if (d.inode p).count < 1536 then some (negENOENT, d) else none := by
  have hcount := hd.count_le p hp
  have hslot (j : ℕ) (hj : j < 1536) : d.dirSlot (d.inode p) j = d.entryOf (d.inode p) j := by
    rw [dirSlot, dirBlock, if_pos (by omega), entryOf]
  have hmounted : d.Mounted (d.inode p) (d.inode p).count :=
    ⟨by omega, fun k hk => by omega, fun r hr => by
      rw [dirBlock, if_pos (by omega)]
      exact hd.ptr_lt p hp r (by omega)⟩
  have hother (j : ℕ) (hj : j < (d.inode p).count) (hlt : j < 1536) :
      fileNameOf son ≠ (d.dirSlot (d.inode p) j).fileName := by
    rw [hslot j hlt]
    exact fun heq => hnone _ (List.mem_map.mpr ⟨j, List.mem_range.mpr hj, rfl⟩) heq.symm
  have hdirect := run_visitedDirectly_none env hmounted hother
  rw [visitedDirectlyToGetFile_eq] at hdirect
  rw [findFileInDict_eq env hcount, hdirect]

/-- The walk along components that are names of directories. -/
theorem run_understandLoop_via {as : List Name} (hp : p < 32768)
    (hresolve : d.graph.resolve p (as.map Name.fileName) = some q) (rest : List Byte) (r : ℤ) :
    (understandLoop env (as.flatMap (fun a => a.chars ++ [slash]) ++ rest) r (d.inode p)).run
        vdisk d =
      (understandLoop env rest r (d.inode q)).run vdisk d := by
  induction as generalizing p with
  | nil =>
    obtain rfl : p = q := Option.some.inj hresolve
    rfl
  | cons a as ih =>
    rw [List.map_cons, NameGraph.resolve_cons, Option.bind_eq_some_iff] at hresolve
    obtain ⟨i, hi, hresolve⟩ := hresolve
    have hdir := isDir_of_lookup hi
    have hlt := hd.number_lt p _ (NameGraph.mem_of_lookup hi)
    rw [lookup_graph hdir] at hi
    obtain ⟨e, he, rfl⟩ := Option.map_eq_some_iff.mp hi
    have hfind := (findFileInDict_yields env (hd.showsEntries p hdir _ ⟨d, rfl, rfl⟩) he).run_eq rfl
    rw [List.flatMap_cons, List.append_assoc, List.append_assoc, List.singleton_append,
      understandLoop_inner env (a.length_le.trans (by decide)) a.noSlash, Prog.run_bind, hfind,
      Option.bind_some, toInt_eq_natCast (by omega), Prog.run_bind,
      run_justReadInodeFromDisk env hlt, Option.bind_some]
    exact ih hlt hresolve

/-- The path is followed as far as its names go. -/
theorem run_understandThePath_via {as : List Name}
    (hresolve : d.graph.resolve 4 (as.map Name.fileName) = some q) (rest : List Byte) :
    (understandThePath env (joinNames as ++ slash :: rest)).run vdisk d =
      (understandLoop env rest 4 (d.inode q)).run vdisk d := by
  rw [joinNames_append_slash, understandThePath, List.drop_succ_cons, List.drop_zero, Prog.run_bind,
    show mainDirectInodePosition = ((4 : ℕ) : ℤ) from rfl,
    run_justReadInodeFromDisk env (by decide), Option.bind_some]
  exact hd.run_understandLoop_via env (by decide) hresolve rest 4

/-- **The first missing component**. -/
theorem run_understandLoop_missing (hp : d.IsDir p) {b tail : List Byte} (hne : b ++ tail ≠ [])
    (hslash : ∀ c ∈ b, c ≠ slash) (htail : tail = [] ∨ ∃ r, tail = slash :: r)
    (hnone : ∀ e ∈ d.entriesOf (d.inode p), e.fileName ≠ fileNameOf (padTo30 b)) (r : ℤ) :
    (understandLoop env (b ++ tail) r (d.inode p)).run vdisk d =
      if tail = [] ∧ b.length ≤ 30 ∧ (d.inode p).count < 1536 then some (negENOENT, d)
      else none := by
  have hfind := hd.run_findFileInDict_missing env hp hnone
  by_cases hlength : b.length ≤ 30
  · rcases htail with rfl | ⟨rest, rfl⟩
    · rw [List.append_nil] at hne ⊢
      rw [understandLoop_last env hne hlength hslash, hfind]
      simp [hlength]
    · have hinner : ¬ (slash :: rest = [] ∧ b.length ≤ 30 ∧ (d.inode p).count < 1536) :=
        fun h => List.cons_ne_nil _ _ h.1
      rw [if_neg hinner, understandLoop_inner env hlength hslash, Prog.run_bind, hfind]
      split
      · rw [Option.bind_some, Prog.run_bind, run_justReadInodeFromDisk_negENOENT, Option.bind_none]
      · rfl
  · rw [understandLoop_long env (Nat.lt_of_not_le hlength) hslash htail,
      if_neg fun h => hlength h.2.1]
    rfl

end Disk.Walkable

end InodeFs
