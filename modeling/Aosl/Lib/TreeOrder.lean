import Aosl.Lib.Tree
import Mathlib.Algebra.Group.Nat.Defs

/-!
# Orders of visit and heights

The pre-order and the post-order sequence of a tree, a visit of a list that ends as soon as it is told to, and the
height of a balanced tree.
-/

namespace Lib

/-! ### Visits that may end early -/

section
variable {α σ : Type} {f : α → σ → Int × σ} {l : List α} {x : α} {a : σ}

/-- The elements visited, the last answer and the argument after the visit; an answer other than `0` ends it. -/
def visitUntil (f : α → σ → Int × σ) : List α → σ → List α × Int × σ
  | [], a => ([], 0, a)
  | x :: l, a =>
    if (f x a).1 = 0 then (x :: (visitUntil f l (f x a).2).1, (visitUntil f l (f x a).2).2) else ([x], f x a)

theorem visitUntil_prefix (f : α → σ → Int × σ) (l : List α) (a : σ) : (visitUntil f l a).1 <+: l := by
  induction l generalizing a with
  | nil => exact List.prefix_refl _
  | cons x l ih =>
    rw [visitUntil]
    by_cases h : (f x a).1 = 0
    · rw [if_pos h]
      exact List.cons_prefix_cons.2 ⟨rfl, ih _⟩
    · rw [if_neg h]
      exact List.cons_prefix_cons.2 ⟨rfl, List.nil_prefix⟩

theorem visitUntil_all (h : (visitUntil f l a).2.1 = 0) : (visitUntil f l a).1 = l := by
  induction l generalizing a with
  | nil => rfl
  | cons x l ih =>
    rw [visitUntil] at h ⊢
    by_cases h0 : (f x a).1 = 0
    · rw [if_pos h0] at h ⊢
      rw [ih h]
    · rw [if_neg h0] at h
      exact absurd h h0

theorem visitUntil_answer (hgo : ∀ x a, (f x a).1 = 0) (l : List α) (a : σ) : (visitUntil f l a).2.1 = 0 := by
  induction l generalizing a with
  | nil => rfl
  | cons x l ih =>
    rw [visitUntil, if_pos (hgo x a)]
    exact ih _

theorem visitUntil_append (l' : List α) :
    visitUntil f (l ++ l') a =
      if (visitUntil f l a).2.1 = 0 then
        ((visitUntil f l a).1 ++ (visitUntil f l' (visitUntil f l a).2.2).1, (visitUntil f l' (visitUntil f l a).2.2).2)
      else visitUntil f l a := by
  induction l generalizing a with
  | nil => rfl
  | cons x l ih =>
    rw [List.cons_append, visitUntil, visitUntil]
    by_cases h0 : (f x a).1 = 0
    · rw [if_pos h0, if_pos h0, ih]
      by_cases h1 : (visitUntil f l (f x a).2).2.1 = 0
      · rw [if_pos h1, if_pos h1, List.cons_append]
      · rw [if_neg h1, if_neg h1]
    · rw [if_neg h0, if_neg h0, if_neg h0]

end

namespace CTree

variable {α : Type} {t : CTree α} {c : Color} {n : Nat}

/-! ### Orders -/

/-- Every node before its subtrees. -/
def preorder : CTree α → List α
  | leaf => []
  | node l x _ r => x :: (l.preorder ++ r.preorder)

/-- Every node behind its subtrees. -/
def postorder : CTree α → List α
  | leaf => []
  | node l x _ r => l.postorder ++ (r.postorder ++ [x])

theorem preorder_perm (t : CTree α) : t.preorder.Perm t.toList := by
  induction t with
  | leaf => exact .refl _
  | node l x c r ihl ihr => exact ((ihl.append ihr).cons x).trans List.perm_middle.symm

theorem postorder_perm (t : CTree α) : t.postorder.Perm t.toList := by
  induction t with
  | leaf => exact .refl _
  | node l x c r ihl ihr =>
    exact ihl.append ((List.perm_append_singleton x r.postorder).trans (ihr.cons x))

/-! ### Heights -/

def height : CTree α → Nat
  | leaf => 0
  | node l _ _ r => max l.height r.height + 1

theorem height_le_length (t : CTree α) : t.height ≤ t.toList.length := by
  induction t with
  | leaf => exact Nat.le_refl 0
  | node l x c r ihl ihr =>
    rw [height, toList_node, List.length_append, List.length_cons]
    omega

theorem Balanced.height_le (h : Balanced t c n) : t.height ≤ 2 * n + if c = .red then 1 else 0 := by
  induction h with
  | leaf => exact Nat.zero_le _
  | red hl hr ihl ihr =>
    simp only [reduceCtorEq, if_false] at ihl ihr
    simp only [height, if_true]
    omega
  | @black l r x cl cr n hl hr ihl ihr =>
    have hcl : (if cl = .red then 1 else 0) ≤ 1 := by split <;> omega
    have hcr : (if cr = .red then 1 else 0) ≤ 1 := by split <;> omega
    simp only [height, reduceCtorEq, if_false]
    omega

theorem Balanced.two_pow_le (h : Balanced t c n) : 2 ^ n ≤ t.toList.length + 1 := by
  induction h with
  | leaf => exact Nat.le_refl _
  | red hl hr ihl ihr =>
    rw [toList_node, List.length_append, List.length_cons]
    omega
  | black hl hr ihl ihr =>
    rw [toList_node, List.length_append, List.length_cons, Nat.pow_succ]
    omega

theorem Balanced.height_le_log (h : Balanced t .black n) : t.height ≤ 2 * Nat.log2 (t.toList.length + 1) := by
  have hheight := h.height_le
  have hlog : n ≤ Nat.log2 (t.toList.length + 1) := (Nat.le_log2 (Nat.succ_ne_zero _)).2 h.two_pow_le
  simp only [reduceCtorEq, if_false] at hheight
  omega

end CTree

end Lib
