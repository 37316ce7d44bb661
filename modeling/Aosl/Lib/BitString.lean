import Mathlib.Data.List.Basic
import Mathlib.Tactic.Common

/-!
# Strings of bytes as strings of bits

`bitAt l i` is the bit `i` of a string of bytes, where each byte starts with its highest bit. Bytewise operations are
bitwise ones, and a string is known by its bits.
-/

namespace Lib

def bitAt (l : List UInt8) (i : Nat) : Bool := (l.getD (i / 8) 0).toNat.testBit (7 - i % 8)

section
variable {l r : List UInt8} {b c : UInt8} {i k n : Nat}

theorem bitAt_cons (h : i < 8) (b : UInt8) (l : List UInt8) : bitAt (b :: l) i = b.toNat.testBit (7 - i) := by
  rw [bitAt, Nat.div_eq_of_lt h, Nat.mod_eq_of_lt h]
  rfl

theorem bitAt_cons_add (b : UInt8) (l : List UInt8) (i : Nat) : bitAt (b :: l) (i + 8) = bitAt l i := by
  rw [bitAt, bitAt, Nat.add_div_right i (by decide), Nat.add_mod_right, List.getD_cons_succ]

theorem bitAt_take (h : i < 8 * n) (l : List UInt8) : bitAt (l.take n) i = bitAt l i := by
  have hlt : i / 8 < n := by omega
  simp only [bitAt, List.getD_eq_getElem?_getD, List.getElem?_take, if_pos hlt]

theorem bitAt_drop (n : Nat) (l : List UInt8) (i : Nat) : bitAt (l.drop n) i = bitAt l (8 * n + i) := by
  have hdiv : (8 * n + i) / 8 = n + i / 8 := by omega
  have hmod : (8 * n + i) % 8 = i % 8 := by omega
  simp only [bitAt, List.getD_eq_getElem?_getD, List.getElem?_drop, hdiv, hmod]

theorem bitAt_append (l r : List UInt8) (i : Nat) :
    bitAt (l ++ r) i = if i < 8 * l.length then bitAt l i else bitAt r (i - 8 * l.length) := by
  by_cases h : i < 8 * l.length
  · rw [if_pos h, ← bitAt_take (n := l.length) h, List.take_left]
  · rw [if_neg h, show r = (l ++ r).drop l.length from (List.drop_left).symm, bitAt_drop, List.drop_left]
    congr 1
    omega

theorem byte_ext (h : ∀ i, i < 8 → b.toNat.testBit (7 - i) = c.toNat.testBit (7 - i)) : b = c := by
  apply UInt8.toNat_inj.1
  apply Nat.eq_of_testBit_eq
  intro j
  by_cases hj : j < 8
  · have hbit := h (7 - j) (by omega)
    rwa [show 7 - (7 - j) = j by omega] at hbit
  · have hpow : 2 ^ 8 ≤ 2 ^ j := Nat.pow_le_pow_right (by decide) (by omega)
    rw [Nat.testBit_lt_two_pow (Nat.lt_of_lt_of_le b.toNat_lt hpow),
      Nat.testBit_lt_two_pow (Nat.lt_of_lt_of_le c.toNat_lt hpow)]

theorem eq_iff_bitAt (h : l.length = r.length) : l = r ↔ ∀ i < 8 * l.length, bitAt l i = bitAt r i := by
  refine ⟨fun heq i _ => by rw [heq], fun hbits => ?_⟩
  induction l generalizing r with
  | nil => exact (List.eq_nil_of_length_eq_zero h.symm).symm
  | cons b l ih =>
    cases r with
    | nil => cases h
    | cons c r =>
      rw [List.length_cons] at hbits
      have hbyte : b = c := byte_ext fun i hi => by
        rw [← bitAt_cons hi b l, ← bitAt_cons hi c r]
        exact hbits i (by omega)
      have hrest : l = r := ih (Nat.succ.inj h) fun i hi => by
        rw [← bitAt_cons_add b l, ← bitAt_cons_add c r]
        exact hbits (i + 8) (by omega)
      rw [hbyte, hrest]

theorem bitAt_zipWith {op : UInt8 → UInt8 → UInt8} {bop : Bool → Bool → Bool}
    (hop : ∀ x y j, (op x y).toNat.testBit j = bop (x.toNat.testBit j) (y.toNat.testBit j)) (h : l.length = r.length)
    (hi : i < 8 * l.length) : bitAt (List.zipWith op l r) i = bop (bitAt l i) (bitAt r i) := by
  induction l generalizing r i with
  | nil => cases hi
  | cons b l ih =>
    cases r with
    | nil => cases h
    | cons c r =>
      rw [List.length_cons] at hi
      rw [List.zipWith_cons_cons]
      by_cases h8 : i < 8
      · rw [bitAt_cons h8, bitAt_cons h8, bitAt_cons h8, hop]
      · obtain ⟨j, rfl⟩ := Nat.exists_eq_add_of_le' (Nat.le_of_not_lt h8)
        rw [bitAt_cons_add, bitAt_cons_add, bitAt_cons_add]
        exact ih (Nat.succ.inj h) (by omega)

theorem testBit_and (x y : UInt8) (j : Nat) : (x &&& y).toNat.testBit j = (x.toNat.testBit j && y.toNat.testBit j) := by
  rw [UInt8.toNat_and, Nat.testBit_and]

theorem testBit_xor (x y : UInt8) (j : Nat) :
    (x ^^^ y).toNat.testBit j = (x.toNat.testBit j ^^ y.toNat.testBit j) := by
  rw [UInt8.toNat_xor, Nat.testBit_xor]

/-! ### Masks -/

/-- The byte whose first `k` bits are set. -/
def maskByte (k : Nat) : UInt8 := UInt8.ofNat (0xff00 >>> k)

/-- The `n` bytes of which the first `k` bits are set. -/
def maskBytes : Nat → Nat → List UInt8
  | 0, _ => []
  | n + 1, k => maskByte (min k 8) :: maskBytes n (k - 8)

theorem testBit_maskByte : ∀ k ≤ 8, ∀ i < 8, (maskByte k).toNat.testBit (7 - i) = decide (i < k) := by decide

@[simp] theorem length_maskBytes (n k : Nat) : (maskBytes n k).length = n := by
  induction n generalizing k with
  | zero => rfl
  | succ n ih => rw [maskBytes, List.length_cons, ih]

theorem bitAt_maskBytes (hi : i < 8 * n) : bitAt (maskBytes n k) i = decide (i < k) := by
  induction n generalizing k i with
  | zero => cases hi
  | succ n ih =>
    rw [maskBytes]
    by_cases h8 : i < 8
    · rw [bitAt_cons h8, testBit_maskByte _ (Nat.min_le_right k 8) i h8]
      exact decide_eq_decide.2 (by omega)
    · obtain ⟨j, rfl⟩ := Nat.exists_eq_add_of_le' (Nat.le_of_not_lt h8)
      rw [bitAt_cons_add, ih (by omega)]
      exact decide_eq_decide.2 (by omega)

end

end Lib
