import InodeFs.Disk.Algebra

/-!
# What the functions of the lower layer do

Each function of `fs.c` that touches the maps, the inode table or a data block makes one of
the changes of `InodeFs.Disk.Algebra`, and returns what the views hold. From here on the
device programs of these functions are never unfolded.

The searches are loops over bytes and masks that count on; `scanMasks_bitMapMask` and `scanBytes_eq`
say at which bit they stop, and `run_findEmptyInode` and `run_findEmptyDatablock` what is returned,
in terms of the map: its lowest clear bit, or 0. `Disk.nextInode` and `Disk.nextData` are these
numbers, whether anything is free or not.

The setting functions go through the position of a number, `n / 8` and `n % 8`, which for the data
map comes with the choice of one of two blocks. `run_makeInodeMapCovered` and its three siblings
have one proof, `run_orIntoMap`, with the table of masks as an argument. `char` may be signed or
not: the byte that is stored does not depend on it.

The conversions between the numbers of the source, which are `int`s and `long`s, and natural numbers
stand at the beginning. They are used wherever a number below a bound is stored and read back.
-/

namespace InodeFs

variable (env : Env)

/-! ### Integers -/

theorem natCast_tdiv_ofNat (n m : ℕ) [m.AtLeastTwo] :
    (n : ℤ).tdiv (OfNat.ofNat m) = ((n / OfNat.ofNat m : ℕ) : ℤ) := rfl

theorem natCast_tmod_ofNat (n m : ℕ) [m.AtLeastTwo] :
    (n : ℤ).tmod (OfNat.ofNat m) = ((n % OfNat.ofNat m : ℕ) : ℤ) := rfl

/-- The bounds of a signed size of `n` records. -/
theorem bounds_of_tdiv {s : ℤ} {n : ℕ} (h : s.tdiv 32 = n) : -32 < s ∧ s < 32 * n + 32 := by
  have hsum := Int.mul_tdiv_add_tmod s 32
  have hlt := Int.tmod_lt_of_pos s (show (0 : ℤ) < 32 by decide)
  have hgt := Int.lt_tmod_of_pos s (show (0 : ℤ) < 32 by decide)
  rw [h] at hsum
  omega

/-- An `int` holds every number below `2 ^ 31`. -/
theorem cInt_natCast {n : ℕ} (h : n < 2 ^ 31) : cInt (n : ℤ) = n :=
  Int.bmod_eq_of_le (by omega) (by omega)

/-- A number below `2 ^ 31` comes back from an `int`. -/
theorem toInt_ofInt_natCast {n : ℕ} (h : n < 2 ^ 31) : (BitVec.ofInt 32 (n : ℤ)).toInt = n := by
  rw [BitVec.toInt_ofInt]
  exact cInt_natCast h

theorem toNat_ofInt_natCast {n : ℕ} (h : n < 2 ^ 31) : (BitVec.ofInt 32 (n : ℤ)).toNat = n := by
  rw [BitVec.ofInt_natCast, BitVec.toNat_ofNat]
  exact Nat.mod_eq_of_lt (by omega)

/-- A 32-bit word below `2 ^ 31` is the same number signed and unsigned. -/
theorem toInt_eq_natCast {w : BitVec 32} (h : w.toNat < 2 ^ 31) : w.toInt = (w.toNat : ℤ) :=
  BitVec.toInt_eq_toNat_of_lt (by omega)

/-- A 64-bit word below `2 ^ 63` is the same number signed and unsigned. -/
theorem toInt_eq_natCast_long {w : BitVec 64} (h : w.toNat < 2 ^ 63) :
    w.toInt = (w.toNat : ℤ) :=
  BitVec.toInt_eq_toNat_of_lt (by omega)

/-! ### The search of a map block -/

/-- Promotion keeps the eight bits of a `char`, signed or not. -/
theorem getLsbD_promote (c : Byte) {j : ℕ} (hj : j < 8) :
    (env.promote c).getLsbD j = c.getLsbD j := by
  have hj32 : j < 32 := by omega
  cases hs : env.charSigned
  · simp [Env.promote, hs, hj32]
  · rw [Env.promote, hs, if_pos rfl, BitVec.getLsbD_signExtend, if_pos hj]
    simp [hj32]

/-- The allocators' test `(c & mask) == 0` asks whether the two bytes share a bit. -/
theorem promote_and_promote_eq_zero (a b : Byte) :
    env.promote a &&& env.promote b = 0 ↔ a &&& b = 0 := by
  constructor
  · intro h
    refine BitVec.eq_of_getLsbD_eq fun j hj => ?_
    have hbit := congrArg (BitVec.getLsbD · j) h
    simp only [BitVec.getLsbD_and, getLsbD_promote env _ hj] at hbit
    rw [BitVec.getLsbD_and, hbit]
    simp
  · intro h
    cases hs : env.charSigned
    · simp only [Env.promote, hs, Bool.false_eq_true, if_false, ← BitVec.setWidth_and, h]
      rfl
    · simp only [Env.promote, hs, if_true, ← BitVec.signExtend_and, h]
      rfl

/-- Whether `char` is signed does not matter for what is stored. -/
theorem setWidth_promote_or_promote (a b : Byte) :
    (env.promote a ||| env.promote b).setWidth 8 = a ||| b := by
  refine BitVec.eq_of_getLsbD_eq fun j hj => ?_
  rw [BitVec.getLsbD_setWidth, BitVec.getLsbD_or, BitVec.getLsbD_or, getLsbD_promote env _ hj,
    getLsbD_promote env _ hj]
  simp [hj]

/-- The mask picks one bit, the highest one first. -/
theorem and_bitMapMask_eq_zero (c : Byte) {k : ℕ} (hk : k < 8) :
    c &&& bitMapMask ⟨k, hk⟩ = 0 ↔ c.getLsbD (7 - k) = false := by
  constructor
  · intro h
    have hbit := congrArg (BitVec.getLsbD · (7 - k)) h
    simpa [Block.getLsbD_bitMapMask hk hk] using hbit
  · intro h
    refine BitVec.eq_of_getLsbD_eq fun j hj => ?_
    obtain ⟨i, hi, rfl⟩ : ∃ i, i < 8 ∧ j = 7 - i := ⟨7 - j, by omega, by omega⟩
    rw [BitVec.getLsbD_and, Block.getLsbD_bitMapMask hk hi]
    by_cases hik : i = k
    · subst hik
      simp [h]
    · simp [hik]

/-- The inner loop of a search stops at the first clear bit of a byte. -/
theorem scanMasks_bitMapMask (c : Byte) (number : ℕ) :
    scanMasks env c (List.ofFn bitMapMask) number =
      match (List.range 8).find? fun k => !c.getLsbD (7 - k) with
      | some k => .inl (number + k)
      | none => .inr (number + 8) := by
  have hmask : ∀ k (hk : k < 8), (env.promote c &&& env.promote (bitMapMask ⟨k, hk⟩) = 0) =
      (c.getLsbD (7 - k) = false) := fun k hk =>
    propext ((promote_and_promote_eq_zero env c _).trans (and_bitMapMask_eq_zero c hk))
  have hlist : List.ofFn bitMapMask = [bitMapMask ⟨0, by decide⟩, bitMapMask ⟨1, by decide⟩,
    bitMapMask ⟨2, by decide⟩, bitMapMask ⟨3, by decide⟩, bitMapMask ⟨4, by decide⟩,
    bitMapMask ⟨5, by decide⟩, bitMapMask ⟨6, by decide⟩, bitMapMask ⟨7, by decide⟩] := rfl
  have hrange : List.range 8 = [0, 1, 2, 3, 4, 5, 6, 7] := rfl
  simp only [hlist, hrange, scanMasks, hmask, List.find?_cons, List.find?_nil]
  cases c.getLsbD (7 - 0) <;> cases c.getLsbD (7 - 1) <;> cases c.getLsbD (7 - 2) <;>
    cases c.getLsbD (7 - 3) <;> cases c.getLsbD (7 - 4) <;> cases c.getLsbD (7 - 5) <;>
    cases c.getLsbD (7 - 6) <;> cases c.getLsbD (7 - 7) <;> simp

/-- Bit `m` of a list of bytes. -/
def bitOfBytes (l : List Byte) (m : ℕ) : Bool := (l.getD (m / 8) 0).getLsbD (7 - m % 8)

/-- The outer loop stops at the first clear bit of the bytes. -/
theorem scanBytes_eq (l : List Byte) (number : ℕ) :
    scanBytes env l number =
      match (List.range (8 * l.length)).find? fun m => !bitOfBytes l m with
      | some m => .inl (number + m)
      | none => .inr (number + 8 * l.length) := by
  induction l generalizing number with
  | nil => rfl
  | cons c l ih =>
    -- the first byte is searched before the others, whose bits are numbered from 8 on
    have hhead : ((List.range 8).find? fun m => !bitOfBytes (c :: l) m) =
        (List.range 8).find? fun k => !c.getLsbD (7 - k) := by
      refine List.find?_congr fun k hk => ?_
      have hk8 : k < 8 := List.mem_range.mp hk
      simp [bitOfBytes, Nat.div_eq_of_lt hk8, Nat.mod_eq_of_lt hk8]
    have htail : (fun m => !bitOfBytes (c :: l) m) ∘ (8 + ·) = fun m => !bitOfBytes l m := by
      funext m
      have hdiv : (8 + m) / 8 = m / 8 + 1 := by omega
      have hmod : (8 + m) % 8 = m % 8 := by omega
      simp [bitOfBytes, hdiv, hmod]
    have hlen : 8 * (c :: l).length = 8 + 8 * l.length := by
      rw [List.length_cons]
      omega
    rw [scanBytes, scanMasks_bitMapMask, hlen, List.range_add, List.find?_append, List.find?_map,
      htail, hhead]
    cases (List.range 8).find? fun k => !c.getLsbD (7 - k) with
    | some k => rfl
    | none =>
      simp only [ih, Option.none_or]
      cases (List.range (8 * l.length)).find? fun m => !bitOfBytes l m with
      | some m => simp [Nat.add_assoc]
      | none => simp [Nat.add_assoc]


/-- The bits of a block, byte by byte. -/
theorem bitOfBytes_ofFn (b : Block) {m : ℕ} (hm : m < 32768) :
    bitOfBytes (List.ofFn b) m = b.bit m := by
  have hm8 : m / 8 < 4096 := by omega
  rw [bitOfBytes, Block.bit, Block.get, dif_pos hm8, List.getD_eq_getElem?_getD,
    List.getElem?_ofFn, dif_pos hm8, Option.getD_some]

/-- The lowest clear bit of a map block. -/
def Block.firstClear (b : Block) : Option ℕ := (List.range 32768).find? fun n => !b.bit n

/-- The two nested loops of the allocators return the lowest clear bit of the block, counted
from `number` on. -/
theorem scanBytes_ofFn (b : Block) (number : ℕ) :
    scanBytes env (List.ofFn b) number =
      match b.firstClear with
      | some n => .inl (number + n)
      | none => .inr (number + 32768) := by
  have hlen : 8 * (List.ofFn b).length = 32768 := by rw [List.length_ofFn]
  rw [scanBytes_eq, hlen, Block.firstClear]
  rw [List.find?_congr fun n hn => by rw [bitOfBytes_ofFn b (List.mem_range.mp hn)]]

/-! ### Free numbers -/

namespace Disk

/-- The lowest inode number that is clear in the inode map. -/
def freeInode (d : Disk) : Option ℕ := (List.range 32768).find? fun n => !d.imap n

/-- The lowest data block number that is clear in the data map. -/
def freeData (d : Disk) : Option ℕ := (List.range 65536).find? fun n => !d.dmap n

/-- What the search for an inode finds: the lowest clear bit. -/
theorem freeInode_eq_some {d : Disk} {n : ℕ} :
    d.freeInode = some n ↔
      n < 32768 ∧ d.imap n = false ∧ ∀ m < n, d.imap m = true := by
  rw [freeInode, List.find?_range_eq_some, List.mem_range]
  simp only [Bool.not_eq_true', Bool.not_not]
  exact ⟨fun ⟨h1, h2, h3⟩ => ⟨h2, h1, h3⟩, fun ⟨h1, h2, h3⟩ => ⟨h2, h1, h3⟩⟩

/-- It finds nothing in a full map. -/
theorem freeInode_eq_none {d : Disk} : d.freeInode = none ↔ ∀ n < 32768, d.imap n = true := by
  rw [freeInode, List.find?_eq_none]
  simp only [List.mem_range, Bool.not_eq_true', Bool.not_eq_false]

/-- What the search for a data block finds: the lowest clear bit of both blocks. -/
theorem freeData_eq_some {d : Disk} {n : ℕ} :
    d.freeData = some n ↔ n < 65536 ∧ d.dmap n = false ∧ ∀ m < n, d.dmap m = true := by
  rw [freeData, List.find?_range_eq_some, List.mem_range]
  simp only [Bool.not_eq_true', Bool.not_not]
  exact ⟨fun ⟨h1, h2, h3⟩ => ⟨h2, h1, h3⟩, fun ⟨h1, h2, h3⟩ => ⟨h2, h1, h3⟩⟩

/-- It finds nothing where both are full. -/
theorem freeData_eq_none {d : Disk} : d.freeData = none ↔ ∀ n < 65536, d.dmap n = true := by
  rw [freeData, List.find?_eq_none]
  simp only [List.mem_range, Bool.not_eq_true', Bool.not_eq_false]

/-- A clear inode bit makes the search succeed. -/
theorem exists_freeInode {d : Disk} {n : ℕ} (hn : n < 32768) (h : d.imap n = false) :
    ∃ k, d.freeInode = some k ∧ k ≤ n := by
  cases hk : d.freeInode with
  | none => exact absurd (freeInode_eq_none.mp hk n hn) (by simp [h])
  | some k =>
    refine ⟨k, rfl, Nat.le_of_not_lt fun hlt => ?_⟩
    exact absurd ((freeInode_eq_some.mp hk).2.2 n hlt) (by simp [h])

/-- A clear data bit makes the search succeed. -/
theorem exists_freeData {d : Disk} {n : ℕ} (hn : n < 65536) (h : d.dmap n = false) :
    ∃ k, d.freeData = some k ∧ k ≤ n := by
  cases hk : d.freeData with
  | none => exact absurd (freeData_eq_none.mp hk n hn) (by simp [h])
  | some k =>
    refine ⟨k, rfl, Nat.le_of_not_lt fun hlt => ?_⟩
    exact absurd ((freeData_eq_some.mp hk).2.2 n hlt) (by simp [h])

/-- The number the inode allocator returns: the lowest clear one, or 0 in a full map. -/
def nextInode (d : Disk) : ℕ := d.freeInode.getD 0

/-- The number the data block allocator returns: the lowest clear one, or 0 in a full map. -/
def nextData (d : Disk) : ℕ := d.freeData.getD 0

theorem nextInode_lt (d : Disk) : d.nextInode < 32768 := by
  rw [nextInode]
  cases h : d.freeInode with
  | none => simp
  | some n => exact (freeInode_eq_some.mp h).1

theorem nextData_lt (d : Disk) : d.nextData < 65536 := by
  rw [nextData]
  cases h : d.freeData with
  | none => simp
  | some n => exact (freeData_eq_some.mp h).1

/-- What is found depends on the data map alone. -/
theorem nextData_congr {d d' : Disk} (h : ∀ b, d'.dmap b = d.dmap b) :
    d'.nextData = d.nextData := by
  unfold nextData freeData
  simp only [h]

/-- The inode map is one block. -/
theorem freeInode_eq_firstClear (d : Disk) : d.freeInode = (d 1).firstClear := rfl

/-- The data map is two blocks, searched one after the other. -/
theorem freeData_eq_firstClear (d : Disk) :
    d.freeData = (d 2).firstClear.or ((d 3).firstClear.map (32768 + ·)) := by
  have hlow : ((List.range 32768).find? fun n => !d.dmap n) = (d 2).firstClear :=
    List.find?_congr fun n hn => by rw [dmap, if_pos (List.mem_range.mp hn)]
  have hhigh : (fun n => !d.dmap n) ∘ (32768 + ·) = fun n => !(d 3).bit n := by
    funext n
    rw [Function.comp_apply, dmap, if_neg (by omega), Nat.add_sub_cancel_left]
  rw [freeData, show (65536 : ℕ) = 32768 + 32768 from rfl, List.range_add, List.find?_append,
    List.find?_map, hlow, hhigh, Block.firstClear, Block.firstClear]

end Disk

attribute [irreducible] Disk.freeInode Disk.freeData

/-! ### Device calls -/

/-- A block that exists is read. -/
theorem run_diskRead {n : ℕ} (hn : n < 65536) (buffer : Block) (d : Disk) :
    (diskRead n buffer).run vdisk d = some (d n, d) := by
  rw [diskRead, Prog.run_read, load_natCast d hn]
  rfl

theorem run_envRead {n : ℕ} (hn : n < 65536) (d : Disk) :
    (env.read n).run vdisk d = some (d n, d) :=
  run_diskRead hn _ d

/-- A block that exists is written, and no other. -/
theorem run_diskWrite {n : ℕ} (hn : n < 65536) (buffer : Block) (d : Disk) :
    (diskWrite n buffer).run vdisk d = some ((), Function.update d n buffer) := by
  rw [diskWrite, Prog.run_write, store_natCast d hn]
  rfl

/-! ### Maps -/

/-- **`find_empty_inode`** returns the lowest free number, or 0. -/
theorem run_findEmptyInode (d : Disk) :
    (findEmptyInode env).run vdisk d = some ((d.nextInode : ℤ), d) := by
  have hread := run_envRead env (show 1 < 65536 by decide) d
  rw [findEmptyInode, Prog.run_bind, show (1 : ℤ) = ((1 : ℕ) : ℤ) from rfl, hread,
    Option.bind_some, scanBytes_ofFn, Disk.nextInode, Disk.freeInode_eq_firstClear]
  cases (d 1).firstClear <;> simp

/-- **`find_empty_datablock`** returns the lowest free number, or 0. -/
theorem run_findEmptyDatablock (d : Disk) :
    (findEmptyDatablock env).run vdisk d = some ((d.nextData : ℤ), d) := by
  have hread2 := run_envRead env (show 2 < 65536 by decide) d
  have hread3 := run_envRead env (show 3 < 65536 by decide) d
  rw [findEmptyDatablock, Prog.run_bind, show (2 : ℤ) = ((2 : ℕ) : ℤ) from rfl, hread2,
    Option.bind_some, scanBytes_ofFn, Disk.nextData, Disk.freeData_eq_firstClear]
  cases (d 2).firstClear with
  | some n => simp
  | none =>
    simp only
    rw [Prog.run_bind, show (3 : ℤ) = ((3 : ℕ) : ℤ) from rfl, hread3, Option.bind_some,
      scanBytes_ofFn]
    cases (d 3).firstClear <;> simp

/-- The statement the four map functions share. -/
theorem run_orIntoMap (table : Fin 8 → Byte) {n : ℕ} (hn : n < 32768) (b : Block) :
    orIntoMap env table n b = .ret (b.orMask table n) := by
  have hbias : n / 8 < 4096 := by omega
  have hmod : n / 8 % 4096 = n / 8 := Nat.mod_eq_of_lt hbias
  rw [orIntoMap, natCast_tdiv_ofNat, natCast_tmod_ofNat]
  simp only [Prog.index_natCast _ hbias, Prog.index_natCast _ (show n % 8 < 8 by omega),
    Prog.assign_natCast _ hbias, Prog.ret_bind, setWidth_promote_or_promote, Block.orMask, hmod]

/-- **`make_inode_map_covered`** marks the number. -/
theorem run_makeInodeMapCovered {n : ℕ} (hn : n < 32768) (d : Disk) :
    (makeInodeMapCovered env n).run vdisk d = some ((), d.coverInode n) := by
  have hread := run_envRead env (show 1 < 65536 by decide) d
  have hwrite := run_diskWrite (show 1 < 65536 by decide) ((d 1).orMask bitMapMask n) d
  rw [makeInodeMapCovered, Prog.run_bind, show (1 : ℤ) = ((1 : ℕ) : ℤ) from rfl, hread,
    Option.bind_some, run_orIntoMap env _ hn, Prog.ret_bind, hwrite, Disk.coverInode]

/-- **`make_inode_map_uncovered`** ORs the complement of the mask into the byte. -/
theorem run_makeInodeMapUncovered {n : ℕ} (hn : n < 32768) (d : Disk) :
    (makeInodeMapUncovered env n).run vdisk d = some ((), d.uncoverInode n) := by
  have hread := run_envRead env (show 1 < 65536 by decide) d
  have hwrite := run_diskWrite (show 1 < 65536 by decide) ((d 1).orMask uncoverDataBlock n) d
  rw [makeInodeMapUncovered, Prog.run_bind, show (1 : ℤ) = ((1 : ℕ) : ℤ) from rfl, hread,
    Option.bind_some, run_orIntoMap env _ hn, Prog.ret_bind, hwrite, Disk.uncoverInode]

/-- The block of the map a number lies in, and its place there. -/
theorem dataMapPosition_natCast (n : ℕ) : dataMapPosition n =
    (((if n < 32768 then 2 else 3 : ℕ) : ℤ), ((if n < 32768 then n else n - 32768 : ℕ) : ℤ)) := by
  rw [dataMapPosition]
  split
  · rw [if_neg (by omega), if_neg (by omega)]
    exact Prod.ext rfl (by omega)
  · rw [if_pos (by omega), if_pos (by omega)]
    rfl

/-- The four statements of the two data map functions, with their table. -/
private theorem run_dataMap (table : Fin 8 → Byte) {n : ℕ} (hn : n < 65536) (d : Disk) :
    (do
      let buffer ← env.read (dataMapPosition n).1
      let buffer ← orIntoMap env table (dataMapPosition n).2 buffer
      diskWrite (dataMapPosition n).1 buffer : Fs Unit).run vdisk d =
        some ((), d.orDataMap table n) := by
  simp only [dataMapPosition_natCast]
  rw [Prog.run_bind, run_envRead env (by split <;> decide), Option.bind_some,
    run_orIntoMap env _ (by split <;> omega), Prog.ret_bind, run_diskWrite (by split <;> decide),
    Disk.orDataMap]
  split
  · rfl
  · rfl

/-- **`make_data_map_covered`** marks the number. -/
theorem run_makeDataMapCovered {n : ℕ} (hn : n < 65536) (d : Disk) :
    (makeDataMapCovered env n).run vdisk d = some ((), d.coverData n) :=
  run_dataMap env bitMapMask hn d

/-- **`make_data_map_uncovered`** ORs the complement of the mask into the byte. -/
theorem run_makeDataMapUncovered {n : ℕ} (hn : n < 65536) (d : Disk) :
    (makeDataMapUncovered env n).run vdisk d = some ((), d.uncoverData n) :=
  run_dataMap env uncoverDataBlock hn d

/-- Taking a data block: the lowest clear number, or 0 in a full map. -/
theorem run_takeDatablock (d : Disk) :
    (takeDatablock env).run vdisk d = some ((d.nextData : ℤ), d.coverData d.nextData) := by
  rw [takeDatablock, Prog.run_bind, run_findEmptyDatablock, Option.bind_some, Prog.note_bind,
    Prog.run_note, Prog.pure_eq_ret, Prog.ret_bind, Prog.run_bind,
    run_makeDataMapCovered env d.nextData_lt, Option.bind_some, Prog.pure_eq_ret, Prog.run_ret]

end InodeFs
