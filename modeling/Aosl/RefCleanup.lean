import Aosl.RbTraverse
import Aosl.RefNode

/-!
# `refobj_lock_threads_cleanup` on the tree of the thread nodes

The clean-up erases during a traversal. When the fix-up of `aosl_rb_erase` rotates at a node for which the traversal is on
the left, what it lifts out of the right subtree is above the node at which the traversal resumes, and is not visited.
-/

namespace Aosl
open Lib

namespace RefNode

/-- `__thread_node_put`. -/
def threadNodePut (junk : RbSt) (p : Ptr) : WalkM (Ptr → Node) Unit := do
  walkDeref p
  match ((← get).arg p).put with
  | none => freeNode junk p
  | some n => modify fun w => { w with arg := fun q => if q = p then n else w.arg q }

/-- `__check_erase_node`; the clock shows `now`. -/
def checkEraseNode (now : UInt64) (junk : RbSt) (node : Ptr) : WalkM (Ptr → Node) Int := do
  walkDeref node
  if ((← get).arg node).idleSince now then
    onMem (aoslRbErase node)
    threadNodePut junk node
  return 0

def refobjLockThreadsCleanup (now : UInt64) (junk : RbSt) : WalkM (Ptr → Node) Unit := do
  if (← get).mem.count > 64 then
    aoslRbTraverseLrd (checkEraseNode now junk)

open CTree

variable {s junk : RbSt} {l : List Ptr} {nodes : Ptr → Node} {now : UInt64} {w : WalkSt (Ptr → Node)} {p : Ptr}

theorem Node.put_of_idleSince {n : Node} (h : n.idleSince now = true) : n.put = none := by
  have hu : n.usage = 1 := (of_decide_eq_true h).1
  rw [Node.put, hu]
  rfl

theorem threadNodePut_run (hp : p ≠ 0) (hf : p ∉ w.freed) (hput : (w.arg p).put = none) :
    (threadNodePut junk p).run w = (freeNode junk p).run w := by
  rw [threadNodePut, StateT.run_bind, walkDeref_run hp hf]
  simp only [StateT.run_bind, StateT.run_get, Option.pure_def, Option.bind_eq_bind, Option.bind_some, hput]

/-- `__check_erase_node` erases and frees the node if it is idle. -/
theorem checkEraseNode_run {idle : Ptr → Bool} (hidle : ∀ q, (nodes q).idleSince now = idle q) (hw : w.arg = nodes) :
    (checkEraseNode now junk p).run w = (eraseIdle idle junk p).run w := by
  by_cases hp : p = 0 ∨ p ∈ w.freed
  · have hderef : (walkDeref p).run w = none := by
      simp only [walkDeref, StateT.run_bind, StateT.run_get, Option.pure_def, Option.bind_eq_bind, Option.bind_some, if_pos hp]
      rfl
    rw [checkEraseNode, eraseIdle, StateT.run_bind, StateT.run_bind, hderef]
    rfl
  rw [not_or] at hp
  rw [checkEraseNode, eraseIdle, StateT.run_bind, StateT.run_bind, walkDeref_run hp.1 hp.2]
  simp only [Option.bind_eq_bind, Option.bind_some]
  rw [StateT.run_bind, StateT.run_get, Option.pure_def, Option.bind_eq_bind, Option.bind_some]
  dsimp only
  rw [hw, hidle]
  by_cases hi : idle p = true
  · have hput : (nodes p).put = none := Node.put_of_idleSince ((hidle p).trans hi)
    rw [if_pos hi, if_pos hi, StateT.run_bind, StateT.run_bind]
    cases he : (aoslRbErase p).run w.mem with
    | none =>
      have herase : (onMem (aoslRbErase p)).run w = none := by
        change ((aoslRbErase p).run w.mem).map _ = none
        rw [he]
        rfl
      rw [herase]
      rfl
    | some r =>
      rw [onMem_run (s := r.2) he]
      simp only [Option.bind_eq_bind, Option.bind_some]
      rw [StateT.run_bind, StateT.run_bind,
        threadNodePut_run (w := { w with mem := r.2 }) hp.1 hp.2 (by simpa only [hw] using hput)]
  · rw [if_neg hi, if_neg hi]

theorem spared_iff {idle : Ptr → Bool} {s₀ : RbSt} {t : CTree Ptr} {v : List (Ptr × CTree Ptr)}
    (h : Walking idle junk s₀ l nodes w t v) : Spared idle v ↔
      ∀ m ∈ w.visits, idle m.1 = true → ∀ t, At m.2 [] t → ∀ u ∈ t.liftsOf m.1, idle u = false := by
  have hvisits := h.visits
  rw [Spared]
  clear h
  generalize w.visits = visits at hvisits ⊢
  induction hvisits with
  | nil => exact iff_of_true (List.forall_mem_nil _) (List.forall_mem_nil _)
  | @cons a b _ _ hab _ ih =>
    rw [List.forall_mem_cons, List.forall_mem_cons, hab.1]
    refine and_congr (imp_congr_right fun _ => ⟨fun hb t ht => ?_, fun ha => ha _ hab.2⟩) ih
    rwa [ht.unique hab.2]

theorem refobjLockThreadsCleanup_tree {idle : Ptr → Bool} {t : CTree Ptr} {k : Nat} (junk : RbSt)
    (hidle : ∀ q, (nodes q).idleSince now = idle q) (hat : At s [] t) (hb : Balanced t .black k)
    (hcount : s.count = t.toList.length) (hc : 64 < s.count) :
    ∃ w, (refobjLockThreadsCleanup now junk).run ⟨s, nodes, [], []⟩ = some ((), w) ∧
      Walking idle junk s t.toList nodes w (eraseWalk idle s.count t.root t).1 (eraseWalk idle s.count t.root t).2 := by
  have hfunc : ∀ w p, w.arg = nodes → (checkEraseNode now junk p).run w = (eraseIdle idle junk p).run w :=
    fun _ _ => checkEraseNode_run hidle
  obtain ⟨w, hrun, hw, -⟩ := aoslRbTraverseLrd_tree hfunc hat hb hcount
  refine ⟨w, ?_, hw⟩
  simp only [refobjLockThreadsCleanup, StateT.run_bind, StateT.run_get, Option.pure_def, Option.bind_eq_bind,
    Option.bind_some]
  rw [if_pos hc, hrun]

/-- The clean-up removes exactly the idle nodes if and only if no visit of an idle node lifts an idle node out of the
right subtree of a node above. -/
theorem refobjLockThreadsCleanup_exact (now : UInt64) (junk : RbSt) (nodes : Ptr → Node) (h : IsRb s l)
    (hc : 64 < s.count) :
    ∃ w l', (refobjLockThreadsCleanup now junk).run ⟨s, nodes, [], []⟩ = some ((), w) ∧ IsRb w.mem l' ∧
      ((∀ p, p ∈ l' ↔ p ∈ l ∧ (nodes p).idleSince now = false) ↔
        ∀ m ∈ w.visits, (nodes m.1).idleSince now = true → ∀ t, At m.2 [] t →
          ∀ u ∈ t.liftsOf m.1, (nodes u).idleSince now = false) := by
  obtain ⟨t, k, hat, hb, rfl, hcount⟩ := h
  obtain ⟨idle, hidle⟩ : ∃ idle : Ptr → Bool, ∀ q, (nodes q).idleSince now = idle q := ⟨_, fun _ => rfl⟩
  obtain ⟨w, hrun, hw⟩ := refobjLockThreadsCleanup_tree junk hidle hat hb hcount hc
  have hn : t.toList.Nodup := by simpa [Zip.labels] using hat.nodup
  obtain ⟨k', hb'⟩ := hw.balanced
  refine ⟨w, _, hrun, ⟨_, k', hw.at_, hb', rfl, hw.count⟩, ?_⟩
  simp only [hidle]
  rw [← spared_iff hw]
  exact mem_eraseWalk_iff hn (Nat.le_of_eq hcount.symm)

/-- A black tree of height `h` with the nodes from `p` on. -/
def blackTree : Nat → Ptr → CTree Ptr
  | 0, _ => .leaf
  | h + 1, p => .node (blackTree h p) (p + 2 ^ h - 1) .black (blackTree h (p + 2 ^ h))

theorem balanced_blackTree (h : Nat) (p : Ptr) : Balanced (blackTree h p) .black h := by
  induction h generalizing p with
  | zero => exact .leaf
  | succ h ih => exact .black (ih p) (ih _)

/-- What the insertion of 65 nodes in ascending order leaves. -/
def ascendingTree : CTree Ptr :=
  .node (blackTree 4 1) 16 .black <| .node (blackTree 4 17) 32 .red <| .node (blackTree 3 33) 40 .black <|
  .node (blackTree 3 41) 48 .red <| .node (blackTree 2 49) 52 .black <| .node (blackTree 2 53) 56 .red <|
  .node (.node (blackTree 1 57) 58 .red (blackTree 1 59)) 60 .black <| .node (blackTree 1 61) 62 .red <|
  .node (.node .leaf 63 .red .leaf) 64 .black (.node .leaf 65 .red .leaf)

theorem balanced_ascendingTree : Balanced ascendingTree .black 5 :=
  have hb := balanced_blackTree
  .black (hb 4 1) <| .red (hb 4 17) <| .black (hb 3 33) <| .red (hb 3 41) <| .black (hb 2 49) <| .red (hb 2 53) <|
  .black (.red (hb 1 57) (hb 1 59)) <| .red (hb 1 61) <| .black (.red .leaf .leaf) (.red .leaf .leaf)

theorem toList_ascendingTree : ascendingTree.toList = (List.range 65).map (· + 1) := by
  decide +kernel

theorem at_ascendingTree : At (treeMem ascendingTree) [] ascendingTree := by
  refine at_treeMem ?_ ?_ <;> rw [toList_ascendingTree] <;> decide +kernel

theorem count_ascendingTree : (treeMem ascendingTree).count = 65 := by
  change ascendingTree.toList.length = 65
  rw [toList_ascendingTree]
  decide

theorem isRb_ascendingTree : IsRb (treeMem ascendingTree) ((List.range 65).map (· + 1)) :=
  ⟨_, _, at_ascendingTree, balanced_ascendingTree, toList_ascendingTree, by rw [count_ascendingTree]; decide⟩

/-- With 65 idle nodes. -/
theorem refobjLockThreadsCleanup_exact_ascending : ∃ w l',
    (refobjLockThreadsCleanup 60000 (treeMem .leaf)).run ⟨treeMem ascendingTree, fun _ => ⟨1, 0, 0, 0⟩, [], []⟩ =
      some ((), w) ∧ IsRb w.mem l' ∧
    ((∀ p, p ∈ l' ↔ p ∈ (List.range 65).map (· + 1) ∧ Node.idleSince ⟨1, 0, 0, 0⟩ 60000 = false) ↔
      ∀ m ∈ w.visits, Node.idleSince ⟨1, 0, 0, 0⟩ 60000 = true → ∀ t, At m.2 [] t →
        ∀ u ∈ t.liftsOf m.1, Node.idleSince ⟨1, 0, 0, 0⟩ 60000 = false) :=
  refobjLockThreadsCleanup_exact 60000 (treeMem .leaf) (fun _ => ⟨1, 0, 0, 0⟩) isRb_ascendingTree
    (by rw [count_ascendingTree]; decide)

theorem length_eraseWalk_ascendingTree :
    (eraseWalk (fun _ => true) 65 ascendingTree.root ascendingTree).1.toList.length = 50 := by
  decide +kernel

theorem cleanup_ascendingTree {n : Node} (junk : RbSt) (hn : n.idleSince now = true) : ∃ w l',
    (refobjLockThreadsCleanup now junk).run ⟨treeMem ascendingTree, fun _ => n, [], []⟩ = some ((), w) ∧
      IsRb w.mem l' ∧ l'.length = 50 := by
  have hidle : ∀ q : Ptr, ((fun _ => n : Ptr → Node) q).idleSince now = (fun _ => true) q := fun _ => hn
  obtain ⟨w, hrun, hw⟩ := refobjLockThreadsCleanup_tree junk hidle at_ascendingTree balanced_ascendingTree rfl
    (by rw [count_ascendingTree]; decide)
  rw [count_ascendingTree] at hw
  obtain ⟨m, hb⟩ := hw.balanced
  exact ⟨w, _, hrun, ⟨_, m, hw.at_, hb, rfl, hw.count⟩, length_eraseWalk_ascendingTree⟩

theorem not_refobjLockThreadsCleanup_exact : ¬∀ (s : RbSt) (l : List Ptr) (nodes : Ptr → Node) (now : UInt64) (junk : RbSt),
    IsRb s l → 64 < s.count → ∀ w, (refobjLockThreadsCleanup now junk).run ⟨s, nodes, [], []⟩ = some ((), w) →
      ∀ l', IsRb w.mem l' → ∀ p, p ∈ l' ↔ p ∈ l ∧ (nodes p).idleSince now = false := by
  intro H
  have hidle : Node.idleSince ⟨1, 0, 0, 0⟩ 60000 = true := by decide +kernel
  obtain ⟨w, l', hrun, hl', hlen⟩ := cleanup_ascendingTree (treeMem .leaf) hidle
  have hexact := H _ _ _ _ _ isRb_ascendingTree (by rw [count_ascendingTree]; decide) w hrun l' hl'
  obtain ⟨p, hp⟩ := List.exists_mem_of_length_pos (Nat.lt_of_lt_of_eq (Nat.zero_lt_succ 49) hlen.symm)
  exact Bool.noConfusion (hidle.symm.trans ((hexact p).1 hp).2)

end RefNode

end Aosl
