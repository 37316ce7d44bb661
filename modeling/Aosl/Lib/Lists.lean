import Mathlib.Data.List.Basic
import Mathlib.Tactic.Common

/-!
# Lists of parties

A system with any number of parties keeps their states in a list. These are the lemmas for changing
or removing one of them.
-/

namespace Lib

variable {α : Type} {l : List α} {i : Nat} {a : α}

theorem exists_split (h : l[i]? = some a) : ∃ A B, l = A ++ a :: B ∧
    (∀ b, l.set i b = A ++ b :: B) ∧ l.eraseIdx i = A ++ B := by
  obtain ⟨hi, rfl⟩ := List.getElem?_eq_some_iff.1 h
  refine ⟨l.take i, l.drop (i + 1), ?_, fun b => ?_, List.eraseIdx_eq_take_drop_succ ..⟩
  · rw [← List.drop_eq_getElem_cons hi, List.take_append_drop]
  · rw [List.set_eq_take_append_cons_drop, if_pos hi]

theorem getElem?_concat_cases {b : α} (h : (l ++ [b])[i]? = some a) :
    i < l.length ∧ l[i]? = some a ∨ i = l.length ∧ a = b := by
  rcases Nat.lt_trichotomy i l.length with hlt | rfl | hgt
  · rw [List.getElem?_append_left hlt] at h
    exact .inl ⟨hlt, h⟩
  · rw [List.getElem?_concat_length] at h
    exact .inr ⟨rfl, (Option.some.inj h).symm⟩
  · rw [List.getElem?_eq_none (by rw [List.length_append]; exact hgt)] at h
    cases h

theorem countP_set_add (h : l[i]? = some a) (p : α → Bool) (b : α) :
    (l.set i b).countP p + (if p a then 1 else 0) = l.countP p + if p b then 1 else 0 := by
  obtain ⟨A, B, rfl, hset, -⟩ := exists_split h
  rw [hset]
  simp only [List.countP_append, List.countP_cons]
  omega

theorem countP_cons_toNat (p : α → Bool) (a : α) (l : List α) : (a :: l).countP p = l.countP p + (p a).toNat := by
  rw [List.countP_cons]
  rcases p a
  · rfl
  · rfl

theorem countP_le_one {p : α → Bool} (k : Nat) (h : ∀ (i : Nat) (x : α), l[i]? = some x → i ≠ k → p x = false) :
    l.countP p ≤ 1 := by
  induction l generalizing k with
  | nil => exact Nat.zero_le _
  | cons a l ih =>
    rcases k with _ | k
    · have hrest : l.countP p = 0 := List.countP_eq_zero.2 fun x hx => by
        obtain ⟨i, hi⟩ := List.mem_iff_getElem?.1 hx
        simp [h (i + 1) x hi (Nat.succ_ne_zero i)]
      rw [List.countP_cons, hrest]
      split_ifs <;> omega
    · have ha := h 0 a rfl (Nat.succ_ne_zero k).symm
      rw [List.countP_cons, ha]
      simpa using ih k fun i x hi hik => h (i + 1) x hi (fun heq => hik (Nat.succ.inj heq))

theorem two_le_countP {p : α → Bool} {j : Nat} {b : α} (h : l[i]? = some a) (hj : l[j]? = some b) (hne : i ≠ j)
    (ha : p a = true) (hb : p b = true) : 2 ≤ l.countP p := by
  obtain ⟨A, B, hl, -, herase⟩ := exists_split h
  have hmem : b ∈ A ++ B := by
    rw [← herase]
    exact List.mem_eraseIdx_iff_getElem?.2 ⟨j, Ne.symm hne, hj⟩
  have hpos : 0 < (A ++ B).countP p := List.countP_pos_iff.2 ⟨b, hmem, hb⟩
  rw [List.countP_append] at hpos
  rw [hl, List.countP_append, countP_cons_toNat, ha, Bool.toNat_true]
  omega

theorem countP_flip {p q : α → Bool} (hnodup : l.Nodup) (hmem : a ∈ l) (hp : p a = false) (hq : q a = true)
    (hother : ∀ b ∈ l, b ≠ a → q b = p b) : l.countP q = l.countP p + 1 := by
  induction l with
  | nil => cases hmem
  | cons c l ih =>
    rw [List.nodup_cons] at hnodup
    rw [countP_cons_toNat, countP_cons_toNat]
    rcases List.mem_cons.1 hmem with rfl | hmem
    · have hsame : l.countP q = l.countP p := by
        refine List.countP_congr fun b hb => ?_
        rw [hother b (List.mem_cons_of_mem _ hb) fun heq => hnodup.1 (heq ▸ hb)]
      rw [hsame, hp, hq]
      rfl
    · rw [ih hnodup.2 hmem fun b hb => hother b (List.mem_cons_of_mem _ hb),
        hother c List.mem_cons_self fun heq => hnodup.1 (heq ▸ hmem)]
      omega

theorem exists_rest (h : l[i]? = some a) : ∃ rest : List α, (∀ x ∈ rest, x ∈ l) ∧
    (∀ p : α → Bool, l.countP p = rest.countP p + (p a).toNat) ∧
    ∀ (p : α → Bool) (b : α), (l.set i b).countP p = rest.countP p + (p b).toNat := by
  obtain ⟨A, B, hl, hset, -⟩ := exists_split h
  have hcount : ∀ (p : α → Bool) (b : α), (A ++ b :: B).countP p = (A ++ B).countP p + (p b).toNat := by
    intro p b
    simp only [List.countP_append, countP_cons_toNat]
    omega
  refine ⟨A ++ B, ?_, fun p => ?_, fun p b => ?_⟩
  · intro x hx
    rw [hl]
    rcases List.mem_append.1 hx with hx | hx
    · exact List.mem_append_left _ hx
    · exact List.mem_append_right _ (List.mem_cons_of_mem _ hx)
  · rw [hl]
    exact hcount p a
  · rw [hset]
    exact hcount p b

theorem countP_add_le {p q r : α → Bool} (h : ∀ x, (p x).toNat + (q x).toNat ≤ (r x).toNat) :
    l.countP p + l.countP q ≤ l.countP r := by
  induction l with
  | nil => simp
  | cons x l ih =>
    have hx := h x
    simp only [countP_cons_toNat]
    omega

theorem getElem?_set_ne {j : Nat} {b : α} (h : i ≠ j) : (l.set i b)[j]? = l[j]? := by
  rw [List.getElem?_set, if_neg h]

theorem getElem?_set_cases {j : Nat} {b c : α} (h : (l.set i b)[j]? = some c) :
    j = i ∧ c = b ∨ j ≠ i ∧ l[j]? = some c := by
  by_cases hj : i = j
  · subst hj
    obtain ⟨hlt, hget⟩ := List.getElem?_eq_some_iff.1 h
    rw [List.getElem_set_self] at hget
    exact .inl ⟨rfl, hget.symm⟩
  · rw [List.getElem?_set_ne hj] at h
    exact .inr ⟨Ne.symm hj, h⟩

theorem getElem?_set_self {b : α} (h : l[i]? = some a) : (l.set i b)[i]? = some b := by
  obtain ⟨hi, -⟩ := List.getElem?_eq_some_iff.1 h
  rw [List.getElem?_set, if_pos rfl, if_pos hi]

theorem countP_flatten_set_add {ls : List (List α)} {l : List α} (h : ls[i]? = some l) (p : α → Bool) (l' : List α) :
    (ls.set i l').flatten.countP p + l.countP p = ls.flatten.countP p + l'.countP p := by
  obtain ⟨A, B, rfl, hset, -⟩ := exists_split h
  rw [hset]
  simp only [List.flatten_append, List.flatten_cons, List.countP_append]
  omega

theorem flatten_set_perm {ls : List (List α)} {l : List α} (h : ls[i]? = some l) :
    ∃ R, ls.flatten.Perm (l ++ R) ∧ ∀ l', (ls.set i l').flatten.Perm (l' ++ R) := by
  obtain ⟨A, B, rfl, hset, -⟩ := exists_split h
  refine ⟨A.flatten ++ B.flatten, ?_, fun l' => ?_⟩
  · rw [List.flatten_append, List.flatten_cons]
    exact List.perm_append_comm_assoc _ _ _
  · rw [hset, List.flatten_append, List.flatten_cons]
    exact List.perm_append_comm_assoc _ _ _

theorem modify_of_getElem? (h : l[i]? = some a) (f : α → α) : l.modify i f = l.set i (f a) := by
  rw [List.modify_eq_set_getElem?, h]
  rfl

end Lib
