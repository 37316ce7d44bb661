import Mathlib.Data.List.Nodup
import Mathlib.Tactic.Common

/-!
# Doubly linked lists

`Seg link next l e` says that the field `next` leads through the list `l` and from its last element
to `e`; `link` encodes an optional element as a pointer. A doubly linked list is such a segment for
`next` and, read backwards, one for `prev`. Inserting or removing an element changes the fields of
its neighbours only.
-/

namespace Lib

variable {α V : Type}

/-- The field `next` leads through `l` and behind it to `e`. -/
def Seg (link : Option α → V) (next : α → V) : List α → Option α → Prop
  | [], _ => True
  | p :: l, e => next p = link (l.head?.or e) ∧ Seg link next l e

/-- `next'` is `next` except that it leads from the end of `A` to `e`. -/
def Redirect (link : Option α → V) (next next' : α → V) (A : List α) (e : Option α) (l : List α) : Prop :=
  ∀ a ∈ l, (A.getLast? = some a → next' a = link e) ∧ (A.getLast? ≠ some a → next' a = next a)

section seg

variable {link : Option α → V} {next next' : α → V} {A B l : List α} {e e' : Option α} {x : α}

theorem seg_append : Seg link next (A ++ B) e ↔ Seg link next A (B.head?.or e) ∧ Seg link next B e := by
  induction A with
  | nil => simp [Seg]
  | cons p A ih =>
    rw [List.cons_append, Seg, Seg, ih, List.head?_append, Option.or_assoc, and_assoc]

theorem Seg.congr (h : Seg link next l e) (hn : ∀ a ∈ l, next' a = next a) : Seg link next' l e := by
  induction l with
  | nil => trivial
  | cons p l ih =>
    rw [List.forall_mem_cons] at hn
    exact ⟨hn.1.trans h.1, ih h.2 hn.2⟩

theorem Seg.redirect (h : Seg link next A e) (hd : A.Nodup) (hn : Redirect link next next' A e' A) :
    Seg link next' A e' := by
  induction A with
  | nil => trivial
  | cons p A ih =>
    rw [List.nodup_cons] at hd
    cases A with
    | nil => exact ⟨(hn p (by simp)).1 rfl, trivial⟩
    | cons q A =>
      refine ⟨?_, ih h.2 hd.2 fun a ha => ?_⟩
      · rw [(hn p (by simp)).2, h.1]
        · rfl
        · intro hl
          rw [List.getLast?_cons_cons] at hl
          exact hd.1 (List.mem_of_getLast? hl)
      · have := hn a (List.mem_cons_of_mem p ha)
        rwa [List.getLast?_cons_cons] at this

theorem Redirect.not_last (h : Redirect link next next' A e (A ++ B)) (hd : (A ++ B).Nodup) (hx : x ∈ B) :
    next' x = next x := by
  refine (h x (List.mem_append_right A hx)).2 fun hl => ?_
  exact (List.nodup_append.1 hd).2.2 _ (List.mem_of_getLast? hl) _ hx rfl

theorem Seg.insert (h : Seg link next (A ++ B) none) (hd : (A ++ B).Nodup) (hx : next' x = link B.head?)
    (hn : Redirect link next next' A (some x) (A ++ B)) : Seg link next' (A ++ x :: B) none := by
  rw [seg_append] at h ⊢
  refine ⟨h.1.redirect (List.nodup_append.1 hd).1 fun a ha => hn a (List.mem_append_left B ha), ?_, ?_⟩
  · rw [hx, Option.or_none]
  · exact h.2.congr fun a ha => hn.not_last hd ha

theorem Seg.remove (h : Seg link next (A ++ x :: B) none) (hd : (A ++ B).Nodup)
    (hn : Redirect link next next' A B.head? (A ++ B)) : Seg link next' (A ++ B) none := by
  rw [seg_append] at h ⊢
  refine ⟨?_, h.2.2.congr fun a ha => hn.not_last hd ha⟩
  rw [Option.or_none]
  exact h.1.redirect (List.nodup_append.1 hd).1 fun a ha => hn a (List.mem_append_left B ha)

end seg

/-- The pointer `first` and the fields `next` and `prev` hold the doubly linked list `l`. -/
structure DList (link : Option α → V) (first : V) (next prev : α → V) (l : List α) : Prop where
  first_eq : first = link l.head?
  nexts : Seg link next l none
  prevs : Seg link prev l.reverse none

namespace DList

variable {link : Option α → V} {first first' : V} {next next' prev prev' : α → V} {A B l : List α} {x : α}

theorem nil : DList link (link none) next prev [] := ⟨rfl, trivial, trivial⟩

theorem fields (h : DList link first next prev (A ++ x :: B)) :
    next x = link B.head? ∧ prev x = link A.getLast? := by
  have h1 := (seg_append.1 h.nexts).2.1
  have h2 := h.prevs
  rw [List.reverse_append, List.reverse_cons, List.append_assoc, List.singleton_append, seg_append] at h2
  have h3 := h2.2.1
  rw [Option.or_none] at h1 h3
  exact ⟨h1, by rwa [List.head?_reverse] at h3⟩

theorem insert (h : DList link first next prev (A ++ B)) (hd : (A ++ B).Nodup)
    (hf : first' = if A = [] then link (some x) else first) (hnx : next' x = link B.head?)
    (hpx : prev' x = link A.getLast?) (hn : Redirect link next next' A (some x) (A ++ B))
    (hp : Redirect link prev prev' B.reverse (some x) (A ++ B)) : DList link first' next' prev' (A ++ x :: B) := by
  refine ⟨?_, h.nexts.insert hd hnx hn, ?_⟩
  · rw [hf]
    cases A with
    | nil => rfl
    | cons a A => rw [if_neg (List.cons_ne_nil _ _), h.first_eq]; rfl
  · have hs := h.prevs
    rw [List.reverse_append] at hs
    rw [List.reverse_append, List.reverse_cons, List.append_assoc]
    refine hs.insert ?_ (by rw [hpx, List.head?_reverse]) fun a ha => hp a ?_
    · rw [← List.reverse_append, List.nodup_reverse]
      exact hd
    · rwa [← List.reverse_append, List.mem_reverse] at ha

theorem remove (h : DList link first next prev (A ++ x :: B)) (hd : (A ++ B).Nodup)
    (hf : first' = if A = [] then link B.head? else first) (hn : Redirect link next next' A B.head? (A ++ B))
    (hp : Redirect link prev prev' B.reverse A.getLast? (A ++ B)) : DList link first' next' prev' (A ++ B) := by
  refine ⟨?_, h.nexts.remove hd hn, ?_⟩
  · rw [hf]
    cases A with
    | nil => rfl
    | cons a A => rw [if_neg (List.cons_ne_nil _ _), h.first_eq]; rfl
  · have hs := h.prevs
    rw [List.reverse_append, List.reverse_cons, List.append_assoc, List.singleton_append] at hs
    rw [List.reverse_append]
    refine hs.remove ?_ fun a ha => ?_
    · rw [← List.reverse_append, List.nodup_reverse]
      exact hd
    · rw [List.head?_reverse]
      exact hp a (by rwa [← List.reverse_append, List.mem_reverse] at ha)

end DList

end Lib
