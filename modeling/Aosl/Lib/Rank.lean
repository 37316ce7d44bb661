import Mathlib.Data.List.Chain
import Mathlib.Data.List.Perm.Subperm
import Mathlib.Data.Nat.Find
import Mathlib.Logic.Relation

/-!
# The rank of a relation without cycles

Where no element leads back to itself, the elements of a chain are different. If there is a bound on such chains, the
longest chain from an element is its rank: it goes down along the relation and is below the bound.
-/

namespace Lib
open Relation

variable {α : Type} {R : α → α → Prop} {n : Nat} {a b : α}

/-- There is a chain of `k` steps from `a`. -/
def Reaches (R : α → α → Prop) (a : α) (k : Nat) : Prop := ∃ l : List α, (a :: l).IsChain R ∧ l.length = k

open Classical in
/-- The steps of the longest chain from `a`, if there are at most `n`. -/
noncomputable def rank (R : α → α → Prop) (n : Nat) (a : α) : Nat := Nat.findGreatest (Reaches R a) n

/-- No element leads back to itself, and a chain has at most `n` elements. -/
structure Ranked (R : α → α → Prop) (n : Nat) : Prop where
  acyclic : ∀ a, ¬ TransGen R a a
  length_le : ∀ l : List α, l.IsChain R → l.Nodup → l.length ≤ n

namespace Ranked

theorem nodup (h : Ranked R n) {l : List α} (hchain : l.IsChain R) : l.Nodup := by
  have htrans : l.IsChain (TransGen R) := hchain.imp fun _ _ => .single
  refine htrans.pairwise.imp fun hab heq => ?_
  rw [heq] at hab
  exact h.acyclic _ hab

theorem reaches_lt (h : Ranked R n) {k : Nat} (hreach : Reaches R a k) : k < n := by
  obtain ⟨l, hchain, rfl⟩ := hreach
  exact h.length_le (a :: l) hchain (h.nodup hchain)

open Classical in
theorem reaches_rank : Reaches R a (rank R n a) :=
  Nat.findGreatest_spec (Nat.zero_le n) ⟨[], .singleton a, rfl⟩

theorem rank_lt (h : Ranked R n) (a : α) : rank R n a < n := h.reaches_lt reaches_rank

open Classical in
theorem rank_decreases (h : Ranked R n) (hab : R a b) : rank R n b < rank R n a := by
  obtain ⟨l, hchain, hl⟩ := reaches_rank (R := R) (n := n) (a := b)
  have hlonger : Reaches R a (rank R n b + 1) := ⟨b :: l, .cons_cons hab hchain, congrArg (· + 1) hl⟩
  exact Nat.le_findGreatest (Nat.le_of_lt (h.reaches_lt hlonger)) hlonger

end Ranked

theorem chain_length_le {R : Nat → Nat → Prop} (hlt : ∀ a b, R a b → a < n) (l : List Nat) (hchain : l.IsChain R)
    (hnodup : l.Nodup) : l.length ≤ n + 1 := by
  have hmem : ∀ a ∈ l.dropLast, a ∈ List.range n := by
    clear hnodup
    induction l with
    | nil => simp
    | cons a l ih =>
      cases l with
      | nil => simp
      | cons b l =>
        obtain ⟨hab, hrest⟩ := List.isChain_cons_cons.1 hchain
        rw [List.dropLast_cons_cons]
        exact List.forall_mem_cons.2 ⟨List.mem_range.2 (hlt a b hab), ih hrest⟩
  have hle := (List.subperm_of_subset (List.Nodup.sublist (List.dropLast_sublist l) hnodup) hmem).length_le
  rw [List.length_dropLast, List.length_range] at hle
  omega

end Lib
