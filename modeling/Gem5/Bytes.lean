import Mathlib

/-!
# Bytes in memory

A buffer is a list of bytes. `slice` reads a part of it and `splice` overwrites one, and the two
agree where they meet and do not see each other elsewhere. `toLE` and `fromLE` are the bytes of a
number, least significant first.
-/

namespace Bytes

open List

abbrev Byte := BitVec 8

section Lists

variable {α : Type*} {l new : List α} {off i n : ℕ}

/-- The `n` elements from position `off` on. -/
def slice (l : List α) (off n : ℕ) : List α := (l.drop off).take n

/-- The list with the elements from position `off` on overwritten, as far as it goes. -/
def splice (l : List α) (off : ℕ) (new : List α) : List α :=
  l.take off ++ new.take (l.length - off) ++ l.drop (off + new.length)

@[simp] theorem length_splice : (splice l off new).length = l.length := by
  simp only [splice, length_append, length_take, length_drop]
  omega

theorem length_slice (h : off + n ≤ l.length) : (slice l off n).length = n := by
  simp only [slice, length_take, length_drop]
  omega

theorem getElem?_splice_of_outside (h : i < off ∨ off + new.length ≤ i) :
    (splice l off new)[i]? = l[i]? := by
  unfold splice
  by_cases ho : l.length < off
  · rw [show l.length - off = 0 by omega, take_zero, append_nil,
      take_of_length_le (by omega), drop_of_length_le (by omega), append_nil]
  have ht : (l.take off).length = off := by
    rw [length_take]
    omega
  rw [append_assoc, getElem?_append, ht]
  rcases h with h | h
  · rw [if_pos h, getElem?_take_of_lt h]
  · rw [if_neg (by omega), getElem?_append, length_take, if_neg (by omega),
      getElem?_drop]
    by_cases hi : i < l.length
    · congr 1
      omega
    · rw [getElem?_eq_none (by omega), getElem?_eq_none (by omega)]

theorem drop_splice (h : off + new.length ≤ l.length) :
    (splice l off new).drop off = new ++ l.drop (off + new.length) := by
  have ht : (l.take off).length = off := by
    rw [length_take]
    omega
  rw [splice, take_of_length_le (show new.length ≤ l.length - off by omega),
    append_assoc, drop_append_of_le_length (by omega),
    drop_of_length_le (by omega), nil_append]

theorem getElem?_splice_add (h : off + new.length ≤ l.length) (hi : i < new.length) :
    (splice l off new)[off + i]? = new[i]? := by
  rw [← getElem?_drop, drop_splice h, getElem?_append_left hi]

theorem slice_splice_self (h : off + new.length ≤ l.length) :
    slice (splice l off new) off new.length = new := by
  rw [slice, drop_splice h, take_left]

theorem slice_add {m : ℕ} : slice l off (n + m) = slice l off n ++ slice l (off + n) m := by
  simp only [slice]
  rw [take_add, drop_drop]

theorem flatMap_slice (l : List α) (m n : ℕ) :
    (List.range n).flatMap (fun k => slice l (k * m) m) = l.take (n * m) := by
  induction n with
  | zero => simp
  | succ n ih =>
    rw [range_succ, flatMap_append, ih, flatMap_cons, flatMap_nil,
      append_nil, Nat.succ_mul, take_add]
    rfl

end Lists

/-- The last `n` bytes of a number, least significant first. -/
def toLE : ℕ → ℕ → List Byte
  | 0, _ => []
  | n + 1, x => BitVec.ofNat 8 x :: toLE n (x / 256)

def fromLE : List Byte → ℕ
  | [] => 0
  | b :: l => b.toNat + 256 * fromLE l

/-- The last `n` bytes of a number, most significant first. -/
def toBE (n x : ℕ) : List Byte := (toLE n x).reverse

def fromBE (l : List Byte) : ℕ := fromLE l.reverse

@[simp] theorem length_toLE : ∀ n x, (toLE n x).length = n
  | 0, _ => rfl
  | n + 1, x => by rw [toLE, length_cons, length_toLE n]

@[simp] theorem length_toBE (n x : ℕ) : (toBE n x).length = n := by simp [toBE]

theorem fromLE_toLE : ∀ n x, fromLE (toLE n x) = x % 256 ^ n
  | 0, x => by simp [toLE, fromLE, Nat.mod_one]
  | n + 1, x => by
    rw [toLE, fromLE, fromLE_toLE n, BitVec.toNat_ofNat, pow_succ' 256, Nat.mod_mul]

theorem toLE_fromLE : ∀ l : List Byte, toLE l.length (fromLE l) = l
  | [] => rfl
  | b :: l => by
    have hb := b.isLt
    have hdiv : (b.toNat + 256 * fromLE l) / 256 = fromLE l := by omega
    have hmod : BitVec.ofNat 8 (b.toNat + 256 * fromLE l) = b := by
      refine BitVec.eq_of_toNat_eq ?_
      rw [BitVec.toNat_ofNat]
      omega
    rw [length_cons, fromLE, toLE, hdiv, hmod, toLE_fromLE l]

theorem fromLE_lt : ∀ l : List Byte, fromLE l < 256 ^ l.length
  | [] => by simp [fromLE]
  | b :: l => by
    have hb := b.isLt
    have hl := fromLE_lt l
    rw [fromLE, length_cons, pow_succ']
    omega

theorem fromLE_eq_iff {l : List Byte} {n x : ℕ} (hl : l.length = n) (hx : x < 256 ^ n) :
    fromLE l = x ↔ l = toLE n x := by
  constructor
  · rintro rfl
    rw [← hl, toLE_fromLE]
  · rintro rfl
    rw [fromLE_toLE, Nat.mod_eq_of_lt hx]

end Bytes
