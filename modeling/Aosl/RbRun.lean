import Aosl.RbInsert
import Aosl.RbErase
import Aosl.Lib.StableSort
import Aosl.Lib.Steps

/-!
# Runs of the red-black tree

Sequences of `aosl_rb_insert_node`, `aosl_rb_erase` and `aosl_rb_remove` on one root. A node gets its
key before it is inserted and keeps it while it is in the tree; `members` lists the nodes that were
inserted and not removed, in the order of insertion.
-/

namespace Aosl
open Lib Lib.CTree

structure RbCfg (K : Type) where
  mem : RbSt
  key : Ptr → K
  members : List Ptr

inductive RbOp (K : Type) where
  | insert (p : Ptr) (k : K)
  | erase (p : Ptr)
  | remove (k : K)

namespace RbOp

variable {K : Type}

/-- What the functions ask of their callers: `insert` gets a node that is not in the tree, `erase` a
member. -/
def Valid (c : RbCfg K) : RbOp K → Prop
  | insert p _ => p ≠ 0 ∧ p ∉ c.members
  | erase p => p ∈ c.members
  | remove _ => True

instance (c : RbCfg K) : (op : RbOp K) → Decidable (op.Valid c)
  | insert p _ => inferInstanceAs (Decidable (p ≠ 0 ∧ p ∉ c.members))
  | erase p => inferInstanceAs (Decidable (p ∈ c.members))
  | remove _ => .isTrue trivial

end RbOp

namespace RbCfg

variable {K : Type} (cmp : K → K → Int)

/-- One operation; `none` if it dereferences `NULL` or does not end. -/
def step (c : RbCfg K) : RbOp K → Option (RbCfg K)
  | .insert p k => do
    let key := Function.update c.key p k
    let (_, mem) ← (aoslRbInsertNode (fun q => cmp (key q) (key p)) p).run c.mem
    return ⟨mem, key, c.members ++ [p]⟩
  | .erase p => do
    let (_, mem) ← (aoslRbErase p).run c.mem
    return ⟨mem, c.key, c.members.erase p⟩
  | .remove k => do
    let (p, mem) ← (aoslRbRemove (fun q => cmp (c.key q) k)).run c.mem
    return ⟨mem, c.key, c.members.erase p⟩

/-- The tree in memory is a red-black tree whose in-order sequence is the members in sorted order,
equal keys in the order of insertion. -/
def Ok (c : RbCfg K) : Prop :=
  ∃ t m, At c.mem [] t ∧ Balanced t .black m ∧ StableSort cmp c.key t.toList c.members ∧
    c.mem.count = c.members.length

variable {cmp} {c : RbCfg K}

theorem ok_iff : c.Ok cmp ↔ ∃ l, IsRb c.mem l ∧ StableSort cmp c.key l c.members := by
  constructor
  · rintro ⟨t, m, h, hb, hs, hc⟩
    exact ⟨_, ⟨t, m, h, hb, rfl, hc.trans hs.perm.length_eq.symm⟩, hs⟩
  · rintro ⟨l, ⟨t, m, h, hb, rfl, hc⟩, hs⟩
    exact ⟨t, m, h, hb, hs, hc.trans hs.perm.length_eq⟩

end RbCfg

theorem IsRb.nodup {s : RbSt} {l : List Ptr} (h : IsRb s l) : l.Nodup := by
  obtain ⟨t, m, hat, -, rfl, -⟩ := h
  simpa [Zip.labels] using hat.nodup

theorem IsRb.zero_not_mem {s : RbSt} {l : List Ptr} (h : IsRb s l) : 0 ∉ l := by
  obtain ⟨t, m, hat, -, rfl, -⟩ := h
  intro h0
  obtain ⟨z, a, c, b, rfl⟩ := Zip.exists_plug_of_mem h0
  exact (At.plug_iff.2 hat).ne_zero (d := .left) rfl

theorem isRb_init (s : RbSt) : IsRb (aoslRbRootInit s) [] :=
  ⟨.leaf, 0, ⟨trivial, rfl, by simp [Zip.labels]⟩, .leaf, rfl, rfl⟩

/-- `aosl_rb_remove` takes out a node with `rb_cmp = 0`, or nothing if there is none. -/
theorem aoslRbRemove_run {s : RbSt} {cmp : Ptr → Int} {l : List Ptr} (h : IsRb s l) (hs : SignSorted cmp l) :
    ∃ p s', (aoslRbRemove cmp).run s = some (p, s') ∧ IsRb s' (l.erase p) ∧
      (p = 0 ∧ (∀ q ∈ l, cmp q ≠ 0) ∨ p ∈ l ∧ cmp p = 0) := by
  obtain ⟨p, hrun, hp⟩ := aoslFindRbNode_run h hs
  by_cases h0 : p = 0
  · refine ⟨p, s, ?_, ?_, hp⟩
    · simp only [aoslRbRemove, StateT.run_bind, hrun, Option.bind_eq_bind, Option.bind_some, h0, ne_eq,
        not_true_eq_false, if_false]
      rfl
    · rw [List.erase_of_not_mem (h0 ▸ h.zero_not_mem)]
      exact h
  · have hm : p ∈ l := by
      rcases hp with ⟨hp, -⟩ | ⟨hp, -⟩
      exacts [absurd hp h0, hp]
    obtain ⟨s', hrun', h'⟩ := aoslRbErase_run h hm
    refine ⟨p, s', ?_, h', hp⟩
    simp only [aoslRbRemove, StateT.run_bind, hrun, Option.bind_eq_bind, Option.bind_some, ne_eq, h0,
      not_false_eq_true, if_true, hrun']
    rfl

namespace RbCfg

variable {K : Type} {cmp : K → K → Int} {c : RbCfg K}

theorem Ok.step (hc : TotalPreorder cmp) (h : c.Ok cmp) {op : RbOp K} (hv : op.Valid c) :
    ∃ c', c.step cmp op = some c' ∧ c'.Ok cmp := by
  obtain ⟨l, hrb, hs⟩ := ok_iff.1 h
  cases op with
  | insert p k =>
    have hpl : p ∉ l := fun hm => hv.2 (hs.perm.mem_iff.1 hm)
    have hs' : StableSort cmp (Function.update c.key p k) l c.members :=
      hs.congr fun a ha => Function.update_of_ne (ne_of_mem_of_not_mem ha hpl) _ _
    generalize hkey : Function.update c.key p k = key at hs'
    obtain ⟨s', hrun, h'⟩ := aoslRbInsertNode_run hrb (hs'.sign_sorted hc (key p)) hv.1 hpl
    refine ⟨⟨s', key, c.members ++ [p]⟩, ?_, ok_iff.2 ⟨_, h', hs'.insert hc⟩⟩
    simp only [RbCfg.step, hkey, hrun]
    rfl
  | erase p =>
    obtain ⟨s', hrun, h'⟩ := aoslRbErase_run hrb (hs.perm.mem_iff.2 hv)
    refine ⟨⟨s', c.key, c.members.erase p⟩, ?_, ok_iff.2 ⟨_, h', hs.erase hrb.nodup p⟩⟩
    simp only [RbCfg.step, hrun]
    rfl
  | remove k =>
    obtain ⟨p, s', hrun, h', -⟩ := aoslRbRemove_run hrb (hs.sign_sorted hc k)
    refine ⟨⟨s', c.key, c.members.erase p⟩, ?_, ok_iff.2 ⟨_, h', hs.erase hrb.nodup p⟩⟩
    simp only [RbCfg.step, hrun]
    rfl

theorem ok_init (s : RbSt) (key : Ptr → K) : Ok cmp ⟨aoslRbRootInit s, key, []⟩ :=
  ok_iff.2 ⟨[], isRb_init s, .nil⟩

/-- From any memory, every sequence of operations runs to its end without following a `NULL` pointer
and leaves a red-black tree of the members. -/
theorem run_ok (hc : TotalPreorder cmp) (s : RbSt) (key : Ptr → K) (ops : List (RbOp K))
    (hv : Along (RbCfg.step cmp) (fun c op => op.Valid c) ⟨aoslRbRootInit s, key, []⟩ ops) :
    ∃ c, exec (RbCfg.step cmp) ⟨aoslRbRootInit s, key, []⟩ ops = some c ∧ c.Ok cmp :=
  exec_total (fun _ _ h hv => h.step hc hv) (ok_init s key) hv

/-- Integer keys, in a memory full of garbage: two rotations, a splice and equal keys. -/
theorem run_ok_int : ∃ c, exec (RbCfg.step fun a b : Int => a - b)
    ⟨aoslRbRootInit ⟨fun _ => 7, fun _ _ => 9, 3, 5⟩, fun _ => 0, []⟩
    [.insert 1 5, .insert 2 9, .insert 3 7, .insert 4 7, .insert 5 6, .erase 3, .remove 9, .insert 2 5] = some c ∧
      c.Ok fun a b : Int => a - b :=
  run_ok ⟨fun a b => by omega, fun a b c => by omega⟩ _ _ _ (by decide +kernel)

end RbCfg

end Aosl
