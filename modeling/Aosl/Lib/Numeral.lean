import Mathlib.Algebra.Group.Nat.Defs
import Mathlib.Data.List.Induction
import Mathlib.Tactic.Common

/-!
# Numerals in a text

`Reads digit b t v`: the characters of `t` are digits, and `v` is their number to the base `b`. `Nat.toDigits` writes the
numeral without leading zeros. Where a text is a run of characters of one kind and then something else, the run is
determined by the text (`run_unique`).
-/

namespace Lib

inductive Reads {α : Type} (digit : α → Nat → Prop) (b : Nat) : List α → Nat → Prop where
  | nil : Reads digit b [] 0
  | snoc {t : List α} {v d : Nat} {c : α} : Reads digit b t v → digit c d → Reads digit b (t ++ [c]) (b * v + d)

namespace Reads

variable {α : Type} {digit : α → Nat → Prop} {b v w d : Nat} {t u : List α} {c : α}

theorem snoc_iff : Reads digit b (t ++ [c]) w ↔ ∃ v d, Reads digit b t v ∧ digit c d ∧ w = b * v + d := by
  constructor
  · intro h
    generalize hu : t ++ [c] = u at h
    cases h with
    | nil => simp at hu
    | snoc hv hd =>
      obtain ⟨rfl, hc⟩ := List.append_inj' hu rfl
      obtain rfl := (List.cons.inj hc).1
      exact ⟨_, _, hv, hd, rfl⟩
  · rintro ⟨v, d, hv, hd, rfl⟩
    exact hv.snoc hd

theorem digits (h : Reads digit b t v) : ∀ c ∈ t, ∃ d, digit c d := by
  induction h with
  | nil => simp
  | snoc _ hd ih =>
    intro c hc
    rcases List.mem_append.1 hc with hc | hc
    · exact ih c hc
    · obtain rfl := List.mem_singleton.1 hc
      exact ⟨_, hd⟩

theorem lt (hlt : ∀ c d, digit c d → d < b) (h : Reads digit b t v) : v < b ^ t.length := by
  induction h with
  | nil => simp
  | @snoc t v d c _ hd ih =>
    have hdb := hlt c d hd
    rw [List.length_append, List.length_singleton, Nat.pow_succ, Nat.mul_comm (b ^ t.length) b]
    calc b * v + d < b * v + b := by omega
      _ = b * (v + 1) := by rw [Nat.mul_add, Nat.mul_one]
      _ ≤ b * b ^ t.length := Nat.mul_le_mul_left b ih

theorem unique (huniq : ∀ c d d', digit c d → digit c d' → d = d') (h : Reads digit b t v) (h' : Reads digit b t w) :
    v = w := by
  induction h generalizing w with
  | nil =>
    generalize ht : ([] : List α) = t at h'
    cases h' with
    | nil => rfl
    | snoc => simp at ht
  | snoc _ hd ih =>
    obtain ⟨v', d', hv', hd', rfl⟩ := snoc_iff.1 h'
    rw [ih hv', huniq _ _ _ hd hd']

theorem le_append (hb : 0 < b) (huniq : ∀ c d d', digit c d → digit c d' → d = d') (h : Reads digit b t v)
    (h' : Reads digit b (t ++ u) w) : v ≤ w := by
  induction u using List.reverseRecOn generalizing w with
  | nil =>
    rw [List.append_nil] at h'
    exact Nat.le_of_eq (h.unique huniq h')
  | append_singleton u c ih =>
    rw [← List.append_assoc] at h'
    obtain ⟨v', d, hv', -, rfl⟩ := snoc_iff.1 h'
    calc v ≤ v' := ih hv'
      _ ≤ b * v' := Nat.le_mul_of_pos_left v' hb
      _ ≤ b * v' + d := Nat.le_add_right _ _

end Reads

section
variable {digit : Char → Nat → Prop} {b n : Nat} {c : Char}

theorem reads_toDigits (hb : 1 < b) (hdigit : ∀ d < b, digit (Nat.digitChar d) d) (n : Nat) :
    Reads digit b (Nat.toDigits b n) n := by
  induction n using Nat.strongRecOn with
  | ind n ih =>
    by_cases hn : n < b
    · rw [Nat.toDigits_of_lt_base hn]
      simpa using Reads.nil.snoc (hdigit n hn)
    · rw [Nat.toDigits_of_base_le hb (by omega)]
      have hlt : n / b < n := Nat.div_lt_self (by omega) hb
      have hsnoc := (ih _ hlt).snoc (hdigit (n % b) (Nat.mod_lt n (by omega)))
      rwa [Nat.div_add_mod] at hsnoc

theorem toDigits_head_ne (hb : 1 < b) (hn : b ≤ n) : ∃ c t, Nat.toDigits b n = c :: t ∧ c ≠ '0' := by
  induction n using Nat.strongRecOn with
  | ind n ih =>
    rw [Nat.toDigits_of_base_le hb hn]
    have hpos : 0 < n / b := Nat.div_pos hn (by omega)
    have hlt : n / b < n := Nat.div_lt_self (by omega) hb
    by_cases hsmall : n / b < b
    · rw [Nat.toDigits_of_lt_base hsmall]
      refine ⟨_, _, rfl, fun hzero => ?_⟩
      have := Nat.digitChar_eq_zero.1 hzero
      omega
    · obtain ⟨c, t, ht, hc⟩ := ih _ hlt (by omega)
      exact ⟨c, t ++ [Nat.digitChar (n % b)], by rw [ht]; rfl, hc⟩

end

/-- The run of characters of one kind at the start of a text. -/
theorem run_unique {α : Type} {p : α → Prop} {t u r r' : List α} (ht : ∀ c ∈ t, p c) (hu : ∀ c ∈ u, p c)
    (hr : ∀ c ∈ r.head?, ¬p c) (hr' : ∀ c ∈ r'.head?, ¬p c) (h : t ++ r = u ++ r') : t = u ∧ r = r' := by
  induction t generalizing u with
  | nil =>
    cases u with
    | nil => exact ⟨rfl, h⟩
    | cons c u =>
      obtain rfl : r = c :: (u ++ r') := h
      exact absurd (hu c (by simp)) (hr c rfl)
  | cons c t ih =>
    cases u with
    | nil =>
      obtain rfl : c :: (t ++ r) = r' := h
      exact absurd (ht c (by simp)) (hr' c rfl)
    | cons c' u =>
      obtain ⟨rfl, htail⟩ := List.cons.inj h
      obtain ⟨rfl, rfl⟩ := ih (fun x hx => ht x (List.mem_cons_of_mem _ hx)) (fun x hx => hu x (List.mem_cons_of_mem _ hx))
        htail
      exact ⟨rfl, rfl⟩

theorem prefix_of_run {α : Type} {p : α → Prop} {t u r r' : List α} (ht : ∀ c ∈ t, p c) (hu : ∀ c ∈ u, p c)
    (hr : ∀ c ∈ r.head?, ¬p c) (h : t ++ r = u ++ r') : u <+: t := by
  induction u generalizing t with
  | nil => exact List.nil_prefix
  | cons c u ih =>
    cases t with
    | nil =>
      obtain rfl : r = c :: (u ++ r') := h
      exact absurd (hu c (by simp)) (hr c rfl)
    | cons c' t =>
      obtain ⟨rfl, htail⟩ := List.cons.inj h
      exact List.cons_prefix_cons.2 ⟨rfl, ih (fun x hx => ht x (List.mem_cons_of_mem _ hx))
        (fun x hx => hu x (List.mem_cons_of_mem _ hx)) htail⟩

end Lib
