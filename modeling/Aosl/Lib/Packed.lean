import Mathlib.Tactic.Common

/-!
# Two counters packed in one word

A signed word that holds `a - m * k`: the low part `a`, below `m`, counts upwards, the high part `k` counts
downwards in multiples of `m`. These lemmas read the two counters back from comparisons on the word.
-/

namespace Lib

structure Packed (m : Nat) (c : Int) (a k : Nat) : Prop where
  eq : c = a - m * k
  lt : a < m

namespace Packed

variable {m a k : Nat} {c : Int}

theorem mul_le {j : Nat} (hk : j ≤ k) : (m : Int) * j ≤ m * k := by
  exact_mod_cast Nat.mul_le_mul_left m hk

theorem nonneg_iff (h : Packed m c a k) : 0 ≤ c ↔ k = 0 := by
  have := h.eq
  have := h.lt
  constructor
  · intro hc
    by_contra hk
    have := mul_le (m := m) (Nat.one_le_iff_ne_zero.2 hk)
    omega
  · rintro rfl
    omega

theorem eq_zero_iff (h : Packed m c a k) : c = 0 ↔ a = 0 ∧ k = 0 := by
  have := h.eq
  constructor
  · rintro rfl
    have hk := h.nonneg_iff.1 (Int.le_refl 0)
    subst hk
    omega
  · rintro ⟨rfl, rfl⟩
    omega

theorem lt_neg_iff (h : Packed m c a k) : c < -m ↔ 2 ≤ k := by
  have := h.eq
  have := h.lt
  constructor
  · intro hc
    by_contra hk
    have := mul_le (m := m) (j := k) (k := 1) (by omega)
    omega
  · intro hk
    have := mul_le (m := m) hk
    omega

theorem eq_neg_iff (h : Packed m c a k) : c = -m ↔ a = 0 ∧ k = 1 := by
  have := h.eq
  have := h.lt
  constructor
  · intro hc
    have h2 : ¬ 2 ≤ k := fun h2 => by have := h.lt_neg_iff.2 h2; omega
    have h1 : k ≠ 0 := fun h1 => by have := h.nonneg_iff.2 h1; omega
    obtain rfl : k = 1 := by omega
    omega
  · rintro ⟨rfl, rfl⟩
    omega

end Packed

end Lib
