import Aosl.RbTraverse
import Aosl.Lib.TreeOrder

/-!
# The three traversals with a callback that reads

`aosl_rb_traverse_dlr`, `aosl_rb_traverse_ldr` and `aosl_rb_traverse_lrd` with a callback that leaves the tree alone: it
is called for the nodes in pre-order, in-order and post-order, up to the first one for which it does not return 0.
-/

namespace Aosl
open Lib

section
variable {σ : Type}

/-! ### The code -/

/-- `__rb_traverse_dlr`, for `done_p` that is not `NULL`. -/
def rbTraverseDlr (func : Ptr → WalkM σ Int) : Nat → Ptr → Int → WalkM σ Int
  | 0, _, _ => failure
  | fuel + 1, node, done => do
    if node = 0 then
      return done
    let done ← if done = 0 then walkVisit func node else pure done
    let done ← if done = 0 then do rbTraverseDlr func fuel (← walkChild .left node) done else pure done
    if done = 0 then do rbTraverseDlr func fuel (← walkChild .right node) done else return done

def aoslRbTraverseDlr (func : Ptr → WalkM σ Int) : WalkM σ Unit := do
  let _ ← rbTraverseDlr func ((← get).mem.count + 1) (← get).mem.rbNode 0

/-- `__rb_traverse_ldr`, for `done_p` that is not `NULL`. -/
def rbTraverseLdrUntil (func : Ptr → WalkM σ Int) : Nat → Ptr → Int → WalkM σ Int
  | 0, _, _ => failure
  | fuel + 1, node, done => do
    if node = 0 then
      return done
    let done ← if done = 0 then do rbTraverseLdrUntil func fuel (← walkChild .left node) done else pure done
    let done ← if done = 0 then walkVisit func node else pure done
    if done = 0 then do rbTraverseLdrUntil func fuel (← walkChild .right node) done else return done

def aoslRbTraverseLdrUntil (func : Ptr → WalkM σ Int) : WalkM σ Unit := do
  let _ ← rbTraverseLdrUntil func ((← get).mem.count + 1) (← get).mem.rbNode 0

/-- A callback that depends on the node and `arg`, and may change what `arg` points to. -/
def callback (f : Ptr → σ → Int × σ) (node : Ptr) : WalkM σ Int := do
  let (done, arg) := f node (← get).arg
  modify ({ · with arg })
  return done

/-! ### What a part of a traversal visits -/

open Lib.CTree

/-- The state after the visit `v`. -/
def WalkSt.seen (w : WalkSt σ) (v : List Ptr × Int × σ) : WalkSt σ :=
  { w with arg := v.2.2, visits := w.visits ++ v.1.map (·, w.mem) }

/-- `m` calls the callback for the nodes of `l`, and returns its last answer. -/
def Visits (f : Ptr → σ → Int × σ) (s : RbSt) (m : WalkM σ Int) (l : List Ptr) : Prop :=
  ∀ w, w.mem = s → w.freed = [] → m.run w = some ((visitUntil f l w.arg).2.1, w.seen (visitUntil f l w.arg))

variable {f : Ptr → σ → Int × σ} {s : RbSt} {m : WalkM σ Int} {l l' : List Ptr} {p : Ptr}

theorem visits_nil : Visits f s (pure 0) [] := fun w _ _ => by
  simp only [visitUntil, WalkSt.seen, List.map_nil, List.append_nil]
  rfl

theorem visits_one (p : Ptr) : Visits f s (walkVisit (callback f) p) [p] := fun w _ _ => by
  have hone : visitUntil f [p] w.arg = ([p], f p w.arg) := by
    rw [visitUntil]
    by_cases h : (f p w.arg).1 = 0
    · rw [if_pos h, visitUntil, ← h]
    · rw [if_neg h]
  rw [hone]
  rfl

theorem Visits.append {next : Int → WalkM σ Int} (h : Visits f s m l) (hstop : ∀ done, done ≠ 0 → next done = pure done)
    (h' : Visits f s (next 0) l') : Visits f s (m >>= next) (l ++ l') := fun w hw hfreed => by
  rw [StateT.run_bind, h w hw hfreed, Option.bind_eq_bind, Option.bind_some, visitUntil_append]
  by_cases h0 : (visitUntil f l w.arg).2.1 = 0
  · rw [if_pos h0, h0, h' (w.seen (visitUntil f l w.arg)) hw hfreed]
    simp only [WalkSt.seen, List.map_append, List.append_assoc]
  · rw [if_neg h0, hstop _ h0]
    rfl

theorem Visits.child {d : Side} {next : Ptr → WalkM σ Int} (hp : p ≠ 0) (h : Visits f s (next (s.child d p)) l) :
    Visits f s (walkChild d p >>= next) l := fun w hw hfreed => by
  have hchild : (walkChild d p).run w = some (s.child d p, w) := by
    have hderef := walkDeref_run (w := w) hp (by simp [hfreed])
    simp only [walkChild, StateT.run_bind, hderef, Option.bind_eq_bind, Option.bind_some, hw.symm]
    rfl
  rw [StateT.run_bind, hchild, Option.bind_eq_bind, Option.bind_some]
  exact h w hw hfreed

/-! ### The traversals -/

variable {t : CTree Ptr} {par : Ptr} {fuel : Nat}

theorem rbTraverseDlr_visits (h : Rep s par t) (hfuel : t.height < fuel) :
    Visits f s (rbTraverseDlr (callback f) fuel (rootPtr t) 0) t.preorder := by
  induction t generalizing par fuel with
  | leaf =>
    obtain ⟨fuel, rfl⟩ := Nat.exists_eq_add_one_of_ne_zero (Nat.ne_of_gt hfuel)
    exact visits_nil (f := f) (s := s)
  | node l x c r ihl ihr =>
    obtain ⟨fuel, rfl⟩ := Nat.exists_eq_add_one_of_ne_zero (Nat.ne_of_gt (Nat.zero_lt_of_lt hfuel))
    obtain ⟨h0, hl, hr, -, hL, hR⟩ := h
    simp only [height] at hfuel
    have hleft := ihl hL (show l.height < fuel by omega)
    have hright := ihr hR (show r.height < fuel by omega)
    rw [← hl] at hleft
    rw [← hr] at hright
    rw [rootPtr, rbTraverseDlr, if_neg h0]
    refine (visits_one x).append (fun done hd => by simp [hd]) ?_
    simp only [if_true]
    refine Visits.child h0 (hleft.append (fun done hd => by simp [hd]) ?_)
    exact Visits.child h0 hright

theorem rbTraverseLdrUntil_visits (h : Rep s par t) (hfuel : t.height < fuel) :
    Visits f s (rbTraverseLdrUntil (callback f) fuel (rootPtr t) 0) t.toList := by
  induction t generalizing par fuel with
  | leaf =>
    obtain ⟨fuel, rfl⟩ := Nat.exists_eq_add_one_of_ne_zero (Nat.ne_of_gt hfuel)
    exact visits_nil (f := f) (s := s)
  | node l x c r ihl ihr =>
    obtain ⟨fuel, rfl⟩ := Nat.exists_eq_add_one_of_ne_zero (Nat.ne_of_gt (Nat.zero_lt_of_lt hfuel))
    obtain ⟨h0, hl, hr, -, hL, hR⟩ := h
    simp only [height] at hfuel
    have hleft := ihl hL (show l.height < fuel by omega)
    have hright := ihr hR (show r.height < fuel by omega)
    rw [← hl] at hleft
    rw [← hr] at hright
    rw [rootPtr, rbTraverseLdrUntil, if_neg h0]
    simp only [if_true]
    refine Visits.child h0 (hleft.append (fun done hd => by simp [hd]) ?_)
    refine (visits_one x).append (fun done hd => by simp [hd]) ?_
    exact Visits.child h0 hright

theorem rbTraverseLrd_visits (h : Rep s par t) (hfuel : t.height < fuel) :
    Visits f s (rbTraverseLrd (callback f) fuel (rootPtr t) 0) t.postorder := by
  induction t generalizing par fuel with
  | leaf =>
    obtain ⟨fuel, rfl⟩ := Nat.exists_eq_add_one_of_ne_zero (Nat.ne_of_gt hfuel)
    exact visits_nil (f := f) (s := s)
  | node l x c r ihl ihr =>
    obtain ⟨fuel, rfl⟩ := Nat.exists_eq_add_one_of_ne_zero (Nat.ne_of_gt (Nat.zero_lt_of_lt hfuel))
    obtain ⟨h0, hl, hr, -, hL, hR⟩ := h
    simp only [height] at hfuel
    have hleft := ihl hL (show l.height < fuel by omega)
    have hright := ihr hR (show r.height < fuel by omega)
    rw [← hl] at hleft
    rw [← hr] at hright
    rw [rootPtr, rbTraverseLrd, if_neg h0]
    simp only [if_true]
    refine Visits.child h0 (hleft.append (fun done hd => by simp [hd]) ?_)
    exact Visits.child h0 (hright.append (fun done hd => by simp [hd]) (visits_one x))

end

open Lib.CTree

/-- The three functions. -/
inductive RbOrder where
  | dlr
  | ldr
  | lrd
deriving DecidableEq

namespace RbOrder

variable {σ : Type}

def traverse : RbOrder → (Ptr → WalkM σ Int) → WalkM σ Unit
  | dlr => aoslRbTraverseDlr
  | ldr => aoslRbTraverseLdrUntil
  | lrd => aoslRbTraverseLrd

def sequence : RbOrder → CTree Ptr → List Ptr
  | dlr => preorder
  | ldr => toList
  | lrd => postorder

theorem sequence_perm (o : RbOrder) (t : CTree Ptr) : (o.sequence t).Perm t.toList := by
  cases o with
  | dlr => exact preorder_perm t
  | ldr => exact .refl _
  | lrd => exact postorder_perm t

theorem traverse_run {f : Ptr → σ → Int × σ} {s : RbSt} {arg : σ} {t : CTree Ptr} (o : RbOrder) (h : At s [] t)
    (hheight : t.height ≤ s.count) :
    (o.traverse (callback f)).run ⟨s, arg, [], []⟩ =
      some ((), WalkSt.seen ⟨s, arg, [], []⟩ (visitUntil f (o.sequence t) arg)) := by
  have hroot : s.rbNode = rootPtr t := h.zrep
  have hfuel : t.height < s.count + 1 := Nat.lt_succ_of_le hheight
  cases o with
  | dlr =>
    simp only [traverse, aoslRbTraverseDlr, StateT.run_bind, StateT.run_get, Option.pure_def, Option.bind_eq_bind,
      Option.bind_some, hroot, rbTraverseDlr_visits h.rep hfuel ⟨s, arg, [], []⟩ rfl rfl]
    rfl
  | ldr =>
    simp only [traverse, aoslRbTraverseLdrUntil, StateT.run_bind, StateT.run_get, Option.pure_def, Option.bind_eq_bind,
      Option.bind_some, hroot, rbTraverseLdrUntil_visits h.rep hfuel ⟨s, arg, [], []⟩ rfl rfl]
    rfl
  | lrd =>
    simp only [traverse, aoslRbTraverseLrd, StateT.run_bind, StateT.run_get, Option.pure_def, Option.bind_eq_bind,
      Option.bind_some, hroot, rbTraverseLrd_visits h.rep hfuel ⟨s, arg, [], []⟩ rfl rfl]
    rfl

end RbOrder

end Aosl
