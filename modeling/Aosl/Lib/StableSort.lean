import Mathlib.Data.List.Perm.Basic
import Mathlib.Data.List.Nodup
import Mathlib.Logic.Function.Basic
import Mathlib.Tactic.Common

/-!
# Stably sorted arrangements

A comparison `cmp : K → K → Int` in the style of C. `StableSort cmp key l g` says that `l` is the
list `g` sorted by key, with equal keys in the order of `g`. It is kept by inserting a new element
behind everything that does not compare greater, and by removing an element.
-/

namespace Lib

variable {α K : Type}

/-- `cmp` is a total preorder, read through the sign of its result. -/
structure TotalPreorder (cmp : K → K → Int) : Prop where
  swap : ∀ a b, 0 < cmp a b ↔ cmp b a < 0
  trans : ∀ a b c, cmp a b ≤ 0 → cmp b c ≤ 0 → cmp a c ≤ 0

namespace TotalPreorder

variable {cmp : K → K → Int} (h : TotalPreorder cmp) {a b c : K}
include h

theorem refl (a : K) : cmp a a = 0 := by
  have := h.swap a a
  omega

theorem le_swap : cmp a b ≤ 0 ↔ 0 ≤ cmp b a := by
  have := h.swap a b
  omega

theorem eq_swap : cmp a b = 0 ↔ cmp b a = 0 := by
  have := h.swap a b
  have := h.swap b a
  omega

theorem pos_congr (hab : cmp a b = 0) : 0 < cmp a c ↔ 0 < cmp b c := by
  have h1 := h.trans a b c (by omega)
  have h2 := h.trans b a c (by have := h.eq_swap.1 hab; omega)
  omega

theorem eq_congr (hab : cmp a b = 0) : cmp c a = 0 ↔ cmp c b = 0 := by
  have h1 := h.pos_congr (c := c) hab
  have h2 := h.trans c a b
  have h3 := h.trans c b a
  have h4 := h.eq_swap.1 hab
  have h5 := h.swap a c
  have h6 := h.swap b c
  omega

end TotalPreorder

/-- `l` is `g` sorted by key, stably. -/
structure StableSort (cmp : K → K → Int) (key : α → K) (l g : List α) : Prop where
  perm : l.Perm g
  sorted : l.Pairwise fun a b => cmp (key a) (key b) ≤ 0
  stable : ∀ k, l.filter (fun a => cmp (key a) k = 0) = g.filter fun a => cmp (key a) k = 0

namespace StableSort

variable {cmp : K → K → Int} {key key' : α → K} {l g : List α} {x : α}

theorem nil : StableSort cmp key [] [] := ⟨.refl _, .nil, fun _ => rfl⟩

theorem congr (h : StableSort cmp key l g) (hk : ∀ a ∈ l, key' a = key a) : StableSort cmp key' l g := by
  have hg : ∀ a ∈ g, key' a = key a := fun a ha => hk a (h.perm.mem_iff.2 ha)
  refine ⟨h.perm, ?_, fun k => ?_⟩
  · exact h.sorted.imp_of_mem fun {a b} ha hb hab => by rwa [hk a ha, hk b hb]
  · rw [List.filter_congr (q := fun a => decide (cmp (key a) k = 0)) fun a ha => by rw [hk a ha],
      List.filter_congr (l := g) (q := fun a => decide (cmp (key a) k = 0)) fun a ha => by rw [hg a ha]]
    exact h.stable k

theorem sign_sorted (hc : TotalPreorder cmp) (h : StableSort cmp key l g) (k : K) :
    l.Pairwise fun a b => (0 < cmp (key a) k → 0 < cmp (key b) k) ∧ (cmp (key b) k < 0 → cmp (key a) k < 0) := by
  refine h.sorted.imp fun {a b} hab => ⟨fun ha => ?_, fun hb => ?_⟩
  · by_contra hb
    have := hc.trans _ _ k hab (by omega)
    omega
  · by_contra ha
    have h1 := hc.trans k _ _ (hc.le_swap.2 (by omega)) hab
    have h2 := hc.swap k (key b)
    omega

theorem filter_append (hc : TotalPreorder cmp) (h : StableSort cmp key l g) (k : K) :
    l.filter (fun a => ¬0 < cmp (key a) k) ++ l.filter (fun a => 0 < cmp (key a) k) = l := by
  have hs := (h.sign_sorted hc k).imp fun h => h.1
  clear h
  induction l with
  | nil => rfl
  | cons a l ih =>
    rw [List.pairwise_cons] at hs
    by_cases ha : 0 < cmp (key a) k
    · have h1 : l.filter (fun a => ¬0 < cmp (key a) k) = [] :=
        List.filter_eq_nil_iff.2 fun b hb => by simpa using hs.1 b hb ha
      have h2 : l.filter (fun a => 0 < cmp (key a) k) = l :=
        List.filter_eq_self.2 fun b hb => by simpa using hs.1 b hb ha
      simp only [List.filter_cons, ha, not_true_eq_false, decide_false, decide_true, Bool.false_eq_true, if_false,
        if_true, h1, h2, List.nil_append]
    · have := ih hs.2
      simp only [List.filter_cons, ha, not_false_eq_true, decide_false, decide_true, Bool.false_eq_true, if_false,
        if_true, List.cons_append, this]

/-- A new element goes behind everything that does not compare greater. -/
theorem insert (hc : TotalPreorder cmp) (h : StableSort cmp key l g) :
    StableSort cmp key (l.filter (fun a => ¬0 < cmp (key a) (key x)) ++
      x :: l.filter (fun a => 0 < cmp (key a) (key x))) (g ++ [x]) := by
  have hl := h.filter_append hc (key x)
  generalize hA : l.filter (fun a => ¬0 < cmp (key a) (key x)) = A at hl
  generalize hB : l.filter (fun a => 0 < cmp (key a) (key x)) = B at hl
  have hAx : ∀ a ∈ A, cmp (key a) (key x) ≤ 0 := fun a ha => by
    rw [← hA] at ha
    simpa using (List.mem_filter.1 ha).2
  have hBx : ∀ b ∈ B, 0 < cmp (key b) (key x) := fun b hb => by
    rw [← hB] at hb
    simpa using (List.mem_filter.1 hb).2
  subst hl
  have hs := List.pairwise_append.1 h.sorted
  refine ⟨?_, ?_, fun k => ?_⟩
  · refine List.perm_middle.trans ?_
    exact ((h.perm.cons x).trans (List.perm_append_singleton x g).symm)
  · refine List.pairwise_append.2 ⟨hs.1, List.pairwise_cons.2 ⟨fun b hb => ?_, hs.2.1⟩, fun a ha b hb => ?_⟩
    · have := (hc.swap _ _).1 (hBx b hb)
      omega
    · rcases List.mem_cons.1 hb with rfl | hb
      exacts [hAx a ha, hs.2.2 a ha b hb]
  · have hst := h.stable k
    rw [List.filter_append] at hst
    rw [List.filter_append, List.filter_append, ← hst]
    by_cases hx : cmp (key x) k = 0
    · have hBk : B.filter (fun a => cmp (key a) k = 0) = [] := List.filter_eq_nil_iff.2 fun b hb => by
        have h1 := (hc.eq_congr (c := key b) hx).2
        have h2 := hBx b hb
        simp only [decide_eq_true_eq]
        omega
      simp [hx, hBk]
    · simp [hx]

theorem erase [DecidableEq α] (h : StableSort cmp key l g) (hn : l.Nodup) (x : α) :
    StableSort cmp key (l.erase x) (g.erase x) := by
  refine ⟨h.perm.erase x, h.sorted.sublist List.erase_sublist, fun k => ?_⟩
  rw [hn.erase_eq_filter, (h.perm.nodup_iff.1 hn).erase_eq_filter, List.filter_filter, List.filter_filter]
  simp only [Bool.and_comm _ (_ != x)]
  rw [← List.filter_filter, ← List.filter_filter, h.stable k]

/-- The first element compares less than any other, or equal to it and is in front of it. -/
theorem head_before (hc : TotalPreorder cmp) (h : StableSort cmp key (x :: l) g) {y : α} (hy : y ∈ g) (hne : y ≠ x) :
    cmp (key x) (key y) < 0 ∨ cmp (key x) (key y) = 0 ∧ [x, y].Sublist g := by
  have hyl : y ∈ l := by simpa [hne] using h.perm.mem_iff.2 hy
  have hle := (List.pairwise_cons.1 h.sorted).1 y hyl
  by_cases heq : cmp (key x) (key y) = 0
  · have hst := h.stable (key y)
    rw [List.filter_cons_of_pos (by simpa using heq)] at hst
    have hmem : y ∈ l.filter fun a => cmp (key a) (key y) = 0 := List.mem_filter.2 ⟨hyl, by simp [hc.refl]⟩
    have hsub : [x, y].Sublist (g.filter fun a => cmp (key a) (key y) = 0) := by
      rw [← hst]
      exact (List.singleton_sublist.2 hmem).cons_cons x
    exact .inr ⟨heq, hsub.trans List.filter_sublist⟩
  · exact .inl (by omega)

end StableSort

end Lib
