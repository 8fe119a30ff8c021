import Mathlib.Logic.Equiv.Fin.Basic
import Mathlib.Tactic

/-!
# Fixed byte layouts

A layout of `α` on `n` bytes is a bijection between `α` and the `n`-byte strings: every
byte string is the representation of exactly one value, so decoding what was encoded gives
the value back and encoding what was decoded gives the bytes back. Layouts are closed under
the C constructions the on-disk records are made of:

* `Layout.word n`: a little-endian machine word of `n` bytes;
* `Layout.pair`: one member after the other, without a gap (a gap is a member of its own);
* `Layout.array`: `k` elements one after the other;
* `Layout.via`: a structure with the same members.

`array_apply` says which element a byte belongs to, and `array_mul_add` where the bytes of an
element lie.

As a layout is a bijection, an update of one member is a change of its bytes and of no others, and a
record that is read, changed and written back keeps what is in the gaps. Machine words are bit
vectors; `getLsbD_ofBytes` says in which byte a bit is.
-/

namespace InodeFs

/-- A byte of memory or disk. -/
abbrev Byte := BitVec 8

/-- A **layout**: `α` is represented by exactly `n` bytes, and every `n` bytes represent
some value. -/
abbrev Layout (α : Type) (n : ℕ) := α ≃ (Fin n → Byte)

namespace Layout

variable {α β : Type} {m n : ℕ}

/-- The word whose bit `j` is bit `j % 8` of byte `j / 8`. -/
def ofBytes (f : Fin n → Byte) : BitVec (8 * n) :=
  (BitVec.iunfoldr (fun (j : Fin (8 * n)) (_ : Unit) =>
    ((), (f ⟨j / 8, by omega⟩).getLsbD (j % 8))) ()).2

/-- Bit `j` is in byte `j / 8`. -/
theorem getLsbD_ofBytes (f : Fin n → Byte) {j : ℕ} (hj : j < 8 * n) :
    (ofBytes f).getLsbD j = (f ⟨j / 8, by omega⟩).getLsbD (j % 8) :=
  BitVec.iunfoldr_getLsbD (fun _ => ()) ⟨j, hj⟩ fun _ => rfl

/-- A little-endian word of `n` bytes. -/
def word (n : ℕ) : Layout (BitVec (8 * n)) n where
  toFun w i := w.extractLsb' (8 * i) 8
  invFun := ofBytes
  left_inv w := by
    refine BitVec.eq_of_getLsbD_eq fun j hj => ?_
    rw [getLsbD_ofBytes _ hj, BitVec.getLsbD_extractLsb', Nat.div_add_mod]
    simp [Nat.mod_lt]
  right_inv f := by
    funext i
    refine BitVec.eq_of_getLsbD_eq fun j hj => ?_
    have hi := i.isLt
    have hdiv : (8 * i.val + j) / 8 = i.val := by omega
    have hmod : (8 * i.val + j) % 8 = j := by omega
    rw [BitVec.getLsbD_extractLsb', getLsbD_ofBytes _ (by omega)]
    simp [hdiv, hmod, hj]

/-- Two members, the second right behind the first. -/
def pair (K : Layout α m) (L : Layout β n) : Layout (α × β) (m + n) :=
  (K.prodCongr L).trans (Fin.appendEquiv m n)

/-- `k` elements, one right behind the other. -/
def array (L : Layout α n) (k : ℕ) : Layout (Fin k → α) (k * n) :=
  ((Equiv.piCongrRight fun _ => L).trans (Equiv.curry (Fin k) (Fin n) Byte).symm).trans
    (Equiv.arrowCongr finProdFinEquiv (Equiv.refl Byte))

/-- The layout of a structure, through the tuple of its members. -/
def via (e : α ≃ β) (L : Layout β n) : Layout α n := e.trans L

/-- Byte `i` of an array is byte `i % n` of its element `i / n`. -/
theorem array_apply (L : Layout α n) {k : ℕ} (a : Fin k → α) (i : Fin (k * n)) :
    array L k a i = L (a i.divNat) i.modNat := rfl

/-- Element `j` of an array fills the `n` bytes from `n * j` on. -/
theorem array_mul_add (L : Layout α n) {k : ℕ} (a : Fin k → α) (j : Fin k) (i : Fin n)
    (hlt : n * j + i < k * n) : array L k a ⟨n * j + i, hlt⟩ = L (a j) i := by
  have hn : 0 < n := i.pos
  have hdiv : Fin.divNat (⟨n * j + i, hlt⟩ : Fin (k * n)) = j :=
    Fin.ext (by simp [Fin.divNat, Nat.mul_add_div hn, Nat.div_eq_of_lt i.isLt])
  have hmod : Fin.modNat (⟨n * j + i, hlt⟩ : Fin (k * n)) = i :=
    Fin.ext (by simp [Fin.modNat, Nat.mod_eq_of_lt i.isLt])
  rw [array_apply, hdiv, hmod]

theorem word_symm_apply (f : Fin n → Byte) : (word n).symm f = ofBytes f := rfl

/-- The low part of a word is the word of its first bytes. -/
theorem setWidth_word_symm {k : ℕ} (h : k ≤ n) (f : Fin n → Byte) :
    ((word n).symm f).setWidth (8 * k) = (word k).symm fun i => f (i.castLE h) := by
  have hle : 8 * k ≤ 8 * n := Nat.mul_le_mul_left 8 h
  rw [word_symm_apply, word_symm_apply]
  refine BitVec.eq_of_getLsbD_eq fun j hj => ?_
  rw [BitVec.getLsbD_setWidth, getLsbD_ofBytes _ hj, getLsbD_ofBytes _ (hj.trans_le hle)]
  rw [decide_eq_true hj, Bool.true_and]
  rfl

/-! ### Zero bytes -/

/-- Zero is stored as zeros. -/
theorem word_zero (n : ℕ) : word n 0 = fun _ => 0 := by
  funext i
  refine BitVec.eq_of_getLsbD_eq fun j hj => ?_
  change (BitVec.extractLsb' (8 * i) 8 (0 : BitVec (8 * n))).getLsbD j = _
  rw [BitVec.getLsbD_extractLsb']
  simp

theorem pair_zero {K : Layout α m} {L : Layout β n} {a : α} {b : β} (ha : K a = fun _ => 0)
    (hb : L b = fun _ => 0) : pair K L (a, b) = fun _ => 0 := by
  change Fin.append (K a) (L b) = _
  rw [ha, hb]
  funext i
  refine Fin.addCases (fun i => ?_) (fun i => ?_) i
  · rw [Fin.append_left]
  · rw [Fin.append_right]

/-- An array of what is stored as zeros is stored as zeros. -/
theorem array_zero {L : Layout α n} {k : ℕ} {a : Fin k → α} (ha : ∀ j, L (a j) = fun _ => 0) :
    array L k a = fun _ => 0 := by
  funext i
  rw [array_apply, ha]

end Layout

end InodeFs
