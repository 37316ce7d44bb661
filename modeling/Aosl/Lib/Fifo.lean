import Aosl.Lib.DList

/-!
# Singly linked queues

`Fifo link head tail next l` says that `head` and `tail` point to the ends of the list `l`, and that the field `next`
leads through it. Elements are added behind the last one and taken from the front, or all at once.
-/

namespace Lib

variable {α V : Type}

structure Fifo (link : Option α → V) (head tail : V) (next : α → V) (l : List α) : Prop where
  head_eq : head = link l.head?
  tail_eq : tail = link l.getLast?
  nexts : Seg link next l none

namespace Fifo

variable {link : Option α → V} {head tail head' : V} {next next' : α → V} {l : List α} {x : α}

theorem nil : Fifo link (link none) (link none) next [] := ⟨rfl, rfl, trivial⟩

theorem push (h : Fifo link head tail next l) (hnd : l.Nodup) (hhead : head' = if l = [] then link (some x) else head)
    (hx : next' x = link none) (hlast : Redirect link next next' l (some x) l) :
    Fifo link head' (link (some x)) next' (l ++ [x]) := by
  refine ⟨?_, by rw [List.getLast?_append, List.getLast?_singleton, Option.some_or], ?_⟩
  · rw [hhead, h.head_eq]
    cases l with
    | nil => rfl
    | cons a l => rw [if_neg (List.cons_ne_nil _ _)]; rfl
  · have hseg : Seg link next (l ++ []) none := (List.append_nil l).symm ▸ h.nexts
    rw [← List.append_nil l] at hnd
    exact hseg.insert hnd hx fun a ha => hlast a ((List.append_nil l) ▸ ha)

end Fifo

end Lib
