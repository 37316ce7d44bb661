import Aosl.RbEraseTree
import Aosl.Lib.TreeWalk

/-!
# `aosl_rb_traverse_lrd` with a callback that erases

The callback may take the node that it is called with out of the tree and free it, while the recursion holds pointers to
the nodes above. An access through a freed node fails, and from the moment it is freed the memory of a node contains
anything (`junk`).
-/

namespace Aosl
open Lib

/-- The memory of a traversal and the `arg` of its callback. Not in the code: the nodes that were freed, and the nodes in
the order of the calls, each with the memory before the call. -/
structure WalkSt (σ : Type) where
  mem : RbSt
  arg : σ
  freed : List Ptr
  visits : List (Ptr × RbSt)

abbrev WalkM (σ : Type) := StateT (WalkSt σ) Option

section
variable {σ : Type}

/-- Access through `p`: fails for `NULL` and for a freed node. -/
def walkDeref (p : Ptr) : WalkM σ Unit := do
  if p = 0 ∨ p ∈ (← get).freed then
    failure

def walkChild (d : Side) (p : Ptr) : WalkM σ Ptr := do
  walkDeref p
  return (← get).mem.child d p

/-- Runs a function of the tree. -/
def onMem {α : Type} (m : RbM α) : WalkM σ α := fun w => (m.run w.mem).map fun r => (r.1, { w with mem := r.2 })

/-- The memory of the node `p` is as in `junk`. -/
def RbSt.scribble (s junk : RbSt) (p : Ptr) : RbSt :=
  { s with
    child := fun d q => if q = p then junk.child d q else s.child d q
    rbParentColor := fun q => if q = p then junk.rbParentColor q else s.rbParentColor q }

/-- `aosl_free`; from now on the memory of the node contains anything. -/
def freeNode (junk : RbSt) (p : Ptr) : WalkM σ Unit := do
  walkDeref p
  modify fun w => { w with mem := w.mem.scribble junk p, freed := w.freed ++ [p] }

/-- The call of `func` for `node`. -/
def walkVisit (func : Ptr → WalkM σ Int) (node : Ptr) : WalkM σ Int := do
  modify fun w => { w with visits := w.visits ++ [(node, w.mem)] }
  func node

/-- `__rb_traverse_lrd`, for `done_p` that is not `NULL`. -/
def rbTraverseLrd (func : Ptr → WalkM σ Int) : Nat → Ptr → Int → WalkM σ Int
  | 0, _, _ => failure
  | fuel + 1, node, done => do
    if node = 0 then
      return done
    let done ← if done = 0 then do rbTraverseLrd func fuel (← walkChild .left node) done else pure done
    let done ← if done = 0 then do rbTraverseLrd func fuel (← walkChild .right node) done else pure done
    if done = 0 then walkVisit func node else return done

/-- The recursion is no deeper than the tree has nodes. -/
def aoslRbTraverseLrd (func : Ptr → WalkM σ Int) : WalkM σ Unit := do
  let _ ← rbTraverseLrd func ((← get).mem.count + 1) (← get).mem.rbNode 0

/-- A callback that erases and frees the idle nodes. -/
def eraseIdle (idle : Ptr → Bool) (junk : RbSt) (node : Ptr) : WalkM σ Int := do
  walkDeref node
  if idle node then
    onMem (aoslRbErase node)
    freeNode junk node
  return 0

/-! ### One call -/

open CTree

/-- The memory holds the tree `t`, after visits `v` that took `idle` nodes out. The tree was in `s₀`, with the nodes
`l`. -/
structure Walking (idle : Ptr → Bool) (junk s₀ : RbSt) (l : List Ptr) (arg : σ) (w : WalkSt σ) (t : CTree Ptr)
    (v : List (Ptr × CTree Ptr)) : Prop where
  at_ : At w.mem [] t
  balanced : ∃ m, Balanced t .black m
  count : w.mem.count = t.toList.length
  sub : t.toList ⊆ l
  cover : ∀ q ∈ l, q ∈ t.toList ∨ q ∈ w.freed
  freed : w.freed = (v.map Prod.fst).filter idle
  gone : ∀ q ∈ w.freed, q ∈ l ∧ q ∉ t.toList ∧ (∀ d, w.mem.child d q = junk.child d q) ∧ w.mem.rbParentColor q = junk.rbParentColor q
  outside : ∀ q ∉ l, (∀ d, w.mem.child d q = s₀.child d q) ∧ w.mem.rbParentColor q = s₀.rbParentColor q
  visits : List.Forall₂ (fun a b => a.1 = b.1 ∧ At a.2 [] b.2) w.visits v
  arg : w.arg = arg

theorem At.scribble {s junk : RbSt} {z : Zip Ptr} {t : CTree Ptr} {p : Ptr} (h : At s z t) (hp : p ∉ t.toList ++ z.labels) :
    At (s.scribble junk p) z t := by
  rw [List.mem_append, not_or] at hp
  refine ⟨h.rep.congr (s := s) (fun q hq d => ?_) fun q hq => ?_,
    h.zrep.congr (s := s) (fun q hq d => ?_) (fun q hq => ?_) rfl, h.nodup⟩
  · exact if_neg (ne_of_mem_of_not_mem hq hp.1)
  · exact if_neg (ne_of_mem_of_not_mem hq hp.1)
  · exact if_neg (ne_of_mem_of_not_mem hq hp.2)
  · exact if_neg (ne_of_mem_of_not_mem hq hp.2)

theorem walkDeref_run {w : WalkSt σ} {p : Ptr} (hp : p ≠ 0) (hf : p ∉ w.freed) : (walkDeref p).run w = some ((), w) := by
  simp only [walkDeref, StateT.run_bind, StateT.run_get, Option.pure_def, Option.bind_eq_bind, Option.bind_some,
    if_neg (not_or.2 ⟨hp, hf⟩)]
  rfl

theorem freeNode_run {w : WalkSt σ} {p : Ptr} (junk : RbSt) (hp : p ≠ 0) (hf : p ∉ w.freed) :
    (freeNode junk p).run w = some ((), { w with mem := w.mem.scribble junk p, freed := w.freed ++ [p] }) := by
  rw [freeNode, StateT.run_bind, walkDeref_run hp hf]
  rfl

theorem onMem_run {α : Type} {m : RbM α} {w : WalkSt σ} {a : α} {s : RbSt} (h : m.run w.mem = some (a, s)) :
    (onMem m).run w = some (a, { w with mem := s }) := by
  change (m.run w.mem).map _ = _
  rw [h]
  rfl

theorem rootPtr_eq (u : CTree Ptr) : rootPtr u = u.root.getD 0 := by
  cases u <;> rfl

namespace Walking

variable {idle : Ptr → Bool} {junk s₀ : RbSt} {l : List Ptr} {arg : σ} {w : WalkSt σ} {t : CTree Ptr}
  {v : List (Ptr × CTree Ptr)} {p : Ptr}

theorem ne_zero (h : Walking idle junk s₀ l arg w t v) (hp : p ∈ t.toList) : p ≠ 0 := by
  obtain ⟨z, a, c, b, rfl⟩ := Zip.exists_plug_of_mem hp
  exact (At.plug_iff.2 h.at_).ne_zero (d := .left)

theorem not_freed (h : Walking idle junk s₀ l arg w t v) (hp : p ∈ t.toList) : p ∉ w.freed :=
  fun hf => (h.gone p hf).2.1 hp

theorem run_child (h : Walking idle junk s₀ l arg w t v) (hp : p ∈ t.toList) (d : Side) :
    (walkChild d p).run w = some ((t.childOf d p).getD 0, w) := by
  simp only [walkChild, StateT.run_bind, walkDeref_run (h.ne_zero hp) (h.not_freed hp), StateT.run_get, Option.pure_def,
    Option.bind_eq_bind, Option.bind_some]
  obtain ⟨z, a, c, b, rfl⟩ := Zip.exists_plug_of_mem hp
  have hat := At.plug_iff.2 h.at_
  have hn := (Zip.perm_labels z _).nodup_iff.2 hat.nodup
  have hl : w.mem.child .left p = rootPtr a := hat.child_near (d := .left)
  have hr : w.mem.child .right p = rootPtr b := hat.child_far (d := .left)
  rw [childOf, locate_plug hn]
  cases d
  · rw [hl, rootPtr_eq]
    rfl
  · rw [hr, rootPtr_eq]
    rfl

theorem nodup (h : Walking idle junk s₀ l arg w t v) : t.toList.Nodup := by
  have := h.at_.nodup
  rwa [Zip.labels, List.append_nil] at this

theorem erase (h : Walking idle junk s₀ l arg w t v) (hp : p ∈ t.toList) :
    ∃ s', (aoslRbErase p).run w.mem = some ((), s') ∧ At s' [] (t.eraseNode p) ∧
      (∃ m, Balanced (t.eraseNode p) .black m) ∧ s'.count = (t.eraseNode p).toList.length ∧
      (∀ q, q ∈ (t.eraseNode p).toList ↔ q ∈ t.toList ∧ q ≠ p) ∧
      ∀ q ∉ t.toList, (∀ d, s'.child d q = w.mem.child d q) ∧ s'.rbParentColor q = w.mem.rbParentColor q := by
  obtain ⟨m, hb⟩ := h.balanced
  have hn := h.nodup
  have hat := h.at_
  have hc := h.count
  obtain ⟨z, a, c, b, rfl⟩ := Zip.exists_plug_of_mem hp
  rw [← At.plug_iff] at hat
  obtain ⟨s', hrun, hat', hcount, hoff⟩ := aoslRbErase_tree hat hb hc
  rw [eraseNode, locate_plug hn]
  refine ⟨s', hrun, hat', balanced_erase hat hb hc, ?_, fun q => Zip.mem_erase hn, hoff⟩
  rw [hcount, hc, Zip.toList_erase hn, Zip.toList_plug]
  simp only [List.length_append, toList_node, List.length_cons]
  omega

theorem visit (h : Walking idle junk s₀ l arg w t v) (hp : p ∈ t.toList) :
    ∃ w', (walkVisit (eraseIdle idle junk) p).run w = some (0, w') ∧
      Walking idle junk s₀ l arg w' (if idle p then t.eraseNode p else t) (v ++ [(p, t)]) := by
  have hvisits : List.Forall₂ (fun a b => a.1 = b.1 ∧ At a.2 [] b.2) (w.visits ++ [(p, w.mem)]) (v ++ [(p, t)]) :=
    List.rel_append h.visits (.cons ⟨rfl, h.at_⟩ .nil)
  have hfreed : ((v ++ [(p, t)]).map Prod.fst).filter idle = w.freed ++ if idle p then [p] else [] := by
    rw [List.map_append, List.filter_append, ← h.freed]
    split <;> simp [*]
  have hderef : (walkDeref p).run { w with visits := w.visits ++ [(p, w.mem)] } = _ :=
    walkDeref_run (h.ne_zero hp) (h.not_freed hp)
  by_cases hi : idle p
  · obtain ⟨s', hrun, hat', hbal, hcount, hmem, hoff⟩ := h.erase hp
    have herase : (onMem (aoslRbErase p)).run { w with visits := w.visits ++ [(p, w.mem)] } = _ := onMem_run hrun
    have hfree := freeNode_run (w := { w with mem := s', visits := w.visits ++ [(p, w.mem)] }) junk (h.ne_zero hp)
      (h.not_freed hp)
    have hpt : p ∉ (t.eraseNode p).toList := fun hq => ((hmem p).1 hq).2 rfl
    rw [if_pos hi] at hfreed ⊢
    refine ⟨⟨s'.scribble junk p, w.arg, w.freed ++ [p], w.visits ++ [(p, w.mem)]⟩, ?_,
      hat'.scribble (by simpa [Zip.labels] using hpt), hbal, hcount, fun q hq => h.sub ((hmem q).1 hq).1,
      fun q hq => ?_, hfreed.symm, fun q hq => ?_, fun q hq => ?_, hvisits, h.arg⟩
    · simp only [walkVisit, eraseIdle, StateT.run_bind, StateT.run_modify, hderef, Option.pure_def, Option.bind_eq_bind,
        Option.bind_some]
      rw [if_pos hi, StateT.run_bind, herase]
      simp only [Option.bind_eq_bind, Option.bind_some]
      rw [StateT.run_bind, hfree]
      rfl
    · rw [hmem, List.mem_append, List.mem_singleton]
      by_cases hqp : q = p
      · exact .inr (.inr hqp)
      · exact (h.cover q hq).imp (⟨·, hqp⟩) .inl
    · rw [List.mem_append, List.mem_singleton] at hq
      by_cases hqp : q = p
      · subst hqp
        exact ⟨h.sub hp, hpt, fun d => if_pos rfl, if_pos rfl⟩
      · obtain ⟨hql, hqt, hchild, hpc⟩ := h.gone q (hq.resolve_right hqp)
        refine ⟨hql, fun hq' => hqt ((hmem q).1 hq').1, fun d => ?_, ?_⟩
        · exact (if_neg hqp).trans (((hoff q hqt).1 d).trans (hchild d))
        · exact (if_neg hqp).trans ((hoff q hqt).2.trans hpc)
    · have hqt : q ∉ t.toList := fun hq' => hq (h.sub hq')
      have hqp : q ≠ p := fun heq => hqt (heq ▸ hp)
      refine ⟨fun d => ?_, ?_⟩
      · exact (if_neg hqp).trans (((hoff q hqt).1 d).trans ((h.outside q hq).1 d))
      · exact (if_neg hqp).trans ((hoff q hqt).2.trans (h.outside q hq).2)
  · rw [if_neg hi, List.append_nil] at hfreed
    refine ⟨{ w with visits := w.visits ++ [(p, w.mem)] }, ?_, ?_⟩
    · simp only [walkVisit, eraseIdle, StateT.run_bind, StateT.run_modify, hderef, Option.pure_def, Option.bind_eq_bind,
        Option.bind_some]
      rw [if_neg hi]
      rfl
    · rw [if_neg hi]
      exact { h with freed := hfreed.symm, visits := hvisits }

theorem map_visits (h : Walking idle junk s₀ l arg w t v) : w.visits.map Prod.fst = v.map Prod.fst := by
  have := h.visits.imp fun _ _ hab => hab.1
  rw [← List.forall₂_eq_eq_eq, List.forall₂_map_left_iff, List.forall₂_map_right_iff]
  exact this

/-- `__rb_traverse_lrd` does what `eraseWalk` does. -/
theorem lrd {func : Ptr → WalkM σ Int} {fuel : Nat} {q : Option Ptr}
    (hfunc : ∀ w p, w.arg = arg → (func p).run w = (eraseIdle idle junk p).run w)
    (h : Walking idle junk s₀ l arg w t v) (hq : ∀ p ∈ q, p ∈ t.toList) (hfuel : ∀ p ∈ q, Enough fuel (t.InSub p)) :
    ∃ w', (rbTraverseLrd func (fuel + 1) (q.getD 0) 0).run w = some (0, w') ∧
      Walking idle junk s₀ l arg w' (eraseWalk idle fuel q t).1 (v ++ (eraseWalk idle fuel q t).2) := by
  induction fuel generalizing w t v q with
  | zero =>
    obtain rfl : q = none := Option.eq_none_iff_forall_not_mem.2 fun p hp => by
      have := hfuel p hp [p] (List.nodup_singleton p) fun y hy => .inl (List.mem_singleton.1 hy)
      simp at this
    exact ⟨w, rfl, by simpa [eraseWalk] using h⟩
  | succ fuel ih =>
    cases q with
    | none => exact ⟨w, rfl, by simpa [eraseWalk] using h⟩
    | some p =>
      have hp := hq p rfl
      have hn := h.nodup
      have hsides := (walksAt idle fuel).sides hn hp (hfuel p rfl) rfl
      have hp₁ := hsides.mem₁ hn hp
      have hn₁ := hsides.nodup₁ hn
      obtain ⟨w₁, r₁, h₁⟩ := ih h (fun _ hq => (mem_childOf hn hp hq).mem.2) fun _ hq => (hfuel p rfl).child hn fun y =>
        (inSub_childOf hn hp hq).1
      have hright : ∀ q ∈ (eraseWalk idle fuel (t.childOf .left p) t).1.childOf .right p, Enough fuel
          ((eraseWalk idle fuel (t.childOf .left p) t).1.InSub q) := fun _ hq =>
        (hfuel p rfl).child (d := .right) hn fun y hy =>
          hsides.left.far p .left (.inl ⟨rfl, rfl⟩) y ((inSub_childOf hn₁ hp₁ hq).1 hy)
      obtain ⟨w₂, r₂, h₂⟩ := ih h₁ (fun _ hq => (mem_childOf hn₁ hp₁ hq).mem.2) hright
      obtain ⟨w₃, r₃, h₃⟩ := h₂.visit (hsides.mem₂ hn hp)
      refine ⟨w₃, ?_, by simpa [eraseWalk] using h₃⟩
      have hvisit : (walkVisit func p).run w₂ = some (0, w₃) := by
        rw [← r₃]
        exact hfunc _ _ h₂.arg
      rw [Option.getD_some, rbTraverseLrd, if_neg (h.ne_zero hp), if_pos rfl]
      simp only [StateT.run_bind, h.run_child hp, r₁, h₁.run_child hp₁, r₂, Option.bind_eq_bind, Option.bind_some, if_true]
      exact hvisit

theorem start {s : RbSt} {m : Nat} (h : At s [] t) (hb : Balanced t .black m) (hc : s.count = t.toList.length) :
    Walking idle junk s t.toList arg ⟨s, arg, [], []⟩ t [] where
  at_ := h
  balanced := ⟨m, hb⟩
  count := hc
  sub := .refl _
  cover _ hq := .inl hq
  freed := rfl
  gone _ hq := nomatch hq
  outside _ _ := ⟨fun _ => rfl, rfl⟩
  visits := .nil
  arg := rfl

end Walking

theorem aoslRbTraverseLrd_tree {idle : Ptr → Bool} {junk s : RbSt} {arg : σ} {t : CTree Ptr} {m : Nat}
    {func : Ptr → WalkM σ Int} (hfunc : ∀ w p, w.arg = arg → (func p).run w = (eraseIdle idle junk p).run w)
    (h : At s [] t) (hb : Balanced t .black m) (hc : s.count = t.toList.length) :
    ∃ w, (aoslRbTraverseLrd func).run ⟨s, arg, [], []⟩ = some ((), w) ∧
      Walking idle junk s t.toList arg w (eraseWalk idle s.count t.root t).1 (eraseWalk idle s.count t.root t).2 ∧
      Walked idle (fun a d => ∀ p ∈ t.root, t.Below a d p) (fun y => ∃ p ∈ t.root, t.InSub p y) t
        (eraseWalk idle s.count t.root t).1 (eraseWalk idle s.count t.root t).2 := by
  have hstart : Walking idle junk s t.toList arg ⟨s, arg, [], []⟩ t [] := .start h hb hc
  have hn := hstart.nodup
  have hq : ∀ p ∈ t.root, p ∈ t.toList := fun p hp => (inSub_root hn hp).1 (.inl rfl)
  have hfuel : ∀ p ∈ t.root, Enough s.count (t.InSub p) := fun p hp S hS hmem => by
    rw [hc]
    exact List.Nodup.length_le_of_subset hS fun y hy => (inSub_root hn hp).1 (hmem y hy)
  obtain ⟨w, hrun, hw⟩ := hstart.lrd hfunc hq hfuel
  refine ⟨w, ?_, by simpa using hw, walksAt idle s.count t t.root hn hq hfuel⟩
  have hroot : s.rbNode = t.root.getD 0 := Eq.trans h.zrep (rootPtr_eq t)
  simp only [aoslRbTraverseLrd, StateT.run_bind, StateT.run_get, Option.pure_def, Option.bind_eq_bind, Option.bind_some,
    hroot, hrun]
  rfl

theorem Rep.same {s s' : RbSt} {par : Ptr} {t : CTree Ptr} (h : Rep s par t) (h' : Rep s' par t) :
    ∀ q ∈ t.toList, (∀ d, s'.child d q = s.child d q) ∧ s'.rbParentColor q = s.rbParentColor q := by
  induction t generalizing par with
  | leaf => exact fun _ hq => nomatch hq
  | node a x c b iha ihb =>
    obtain ⟨-, hl, hr, hpc, ha, hb⟩ := h
    obtain ⟨-, hl', hr', hpc', ha', hb'⟩ := h'
    intro q hq
    rw [toList_node, List.mem_append, List.mem_cons] at hq
    obtain hq | rfl | hq := hq
    · exact iha ha ha' q hq
    · refine ⟨fun d => ?_, hpc'.trans hpc.symm⟩
      cases d
      · exact hl'.trans hl.symm
      · exact hr'.trans hr.symm
    · exact ihb hb hb' q hq

theorem Walking.same {idle : Ptr → Bool} {junk junk' s₀ : RbSt} {l : List Ptr} {arg : σ} {w w' : WalkSt σ}
    {t : CTree Ptr} {v : List (Ptr × CTree Ptr)} (h : Walking idle junk s₀ l arg w t v)
    (h' : Walking idle junk' s₀ l arg w' t v) : w'.freed = w.freed ∧ w'.mem.rbNode = w.mem.rbNode ∧
      SameOff w.freed w.mem w'.mem := by
  have hoff : ∀ q ∉ w.freed, (∀ d, w'.mem.child d q = w.mem.child d q) ∧
      w'.mem.rbParentColor q = w.mem.rbParentColor q := fun q hq => by
    by_cases hql : q ∈ l
    · exact h.at_.rep.same h'.at_.rep q ((h.cover q hql).resolve_right hq)
    · obtain ⟨hc, hp⟩ := h.outside q hql
      obtain ⟨hc', hp'⟩ := h'.outside q hql
      exact ⟨fun d => (hc' d).trans (hc d).symm, hp'.trans hp.symm⟩
  refine ⟨h'.freed.trans h.freed.symm, Eq.trans h'.at_.zrep (Eq.symm h.at_.zrep), h'.count.trans h.count.symm, ?_, ?_⟩
  · exact fun q hq => (hoff q hq).1
  · exact fun q hq => (hoff q hq).2

/-- A memory that holds `t`. -/
def treeMem (t : CTree Ptr) : RbSt where
  child d p := (t.childOf d p).getD 0
  rbParentColor p := match locate p [] t with
    | none => 0
    | some (z, _, c, _) => pack (upPtr z) c
  rbNode := rootPtr t
  count := t.toList.length

theorem rep_treeMem {z : Zip Ptr} {t : CTree Ptr} (hn : (z.plug t).toList.Nodup) (h0 : 0 ∉ t.toList) :
    Rep (treeMem (z.plug t)) (upPtr z) t := by
  induction t generalizing z with
  | leaf => trivial
  | node l p c r ihl ihr =>
    rw [toList_node, List.mem_append, List.mem_cons, not_or, not_or] at h0
    refine ⟨Ne.symm h0.2.1, ?_, ?_, ?_, ihl (z := ⟨.left, p, c, r⟩ :: z) hn h0.1, ihr (z := ⟨.right, p, c, l⟩ :: z) hn h0.2.2⟩
    · simp only [treeMem, childOf, locate_plug hn, rootPtr_eq]
    · simp only [treeMem, childOf, locate_plug hn, rootPtr_eq]
    · simp only [treeMem, locate_plug hn]

theorem at_treeMem {t : CTree Ptr} (hn : t.toList.Nodup) (h0 : 0 ∉ t.toList) : At (treeMem t) [] t :=
  ⟨rep_treeMem (z := []) hn h0, rfl, by simpa [Zip.labels] using hn⟩

theorem isRb_treeMem {t : CTree Ptr} {m : Nat} (hn : t.toList.Nodup) (h0 : 0 ∉ t.toList) (hb : Balanced t .black m) :
    IsRb (treeMem t) t.toList :=
  ⟨t, m, at_treeMem hn h0, hb, rfl, rfl⟩

/-- Erasing the visited node is safe: every node is visited at most once, the freed nodes are the idle ones of these,
and the others are still a red-black tree. Nothing depends on what freed nodes contain, and nothing writes to them. -/
theorem aoslRbTraverseLrd_run {s : RbSt} {l : List Ptr} (h : IsRb s l) (idle : Ptr → Bool) :
    ∃ v m, v.Nodup ∧ v ⊆ l ∧ ∀ junk, ∃ w : WalkSt Unit,
      (aoslRbTraverseLrd (eraseIdle idle junk)).run ⟨s, (), [], []⟩ = some ((), w) ∧ w.visits.map Prod.fst = v ∧
      w.freed = v.filter idle ∧ IsRb w.mem (l.filter fun p => p ∉ w.freed) ∧ w.mem.rbNode = m.rbNode ∧
      SameOff w.freed m w.mem ∧
      ∀ p ∈ w.freed, (∀ d, w.mem.child d p = junk.child d p) ∧ w.mem.rbParentColor p = junk.rbParentColor p := by
  obtain ⟨t, m, hat, hb, rfl, hc⟩ := h
  have hfunc : ∀ junk (w : WalkSt Unit) p, w.arg = () → (eraseIdle idle junk p).run w = (eraseIdle idle junk p).run w :=
    fun _ _ _ _ => rfl
  have hrun := fun junk => aoslRbTraverseLrd_tree (hfunc junk) hat hb hc
  obtain ⟨w₀, -, hw₀, hwalked⟩ := hrun s
  have hn : t.toList.Nodup := by simpa [Zip.labels] using hat.nodup
  refine ⟨(eraseWalk idle s.count t.root t).2.map Prod.fst, w₀.mem, hwalked.nodup, fun q hq => ?_, fun junk => ?_⟩
  · obtain ⟨p, hp, hq⟩ := hwalked.region q hq
    exact (inSub_root hn hp).1 hq
  · obtain ⟨w, hr, hw, -⟩ := hrun junk
    obtain ⟨hfreed, hroot, hsame⟩ := hw₀.same hw
    have hmem : ∀ q, q ∈ (eraseWalk idle s.count t.root t).1.toList ↔ q ∈ t.toList ∧ q ∉ w.freed := fun q =>
      ⟨fun hq => ⟨hw.sub hq, hw.not_freed hq⟩, fun hq => (hw.cover q hq.1).resolve_right hq.2⟩
    have hlist : (eraseWalk idle s.count t.root t).1.toList = t.toList.filter fun p => p ∉ w.freed :=
      hwalked.toList_eq hn fun q => by simpa using hmem q
    refine ⟨w, hr, hw.map_visits, hw.freed, ?_, hroot, hfreed ▸ hsame, fun p hp => (hw.gone p hp).2.2⟩
    obtain ⟨m', hb'⟩ := hw.balanced
    exact ⟨_, m', hw.at_, hb', hlist, hlist ▸ hw.count⟩

/-- A black node with two red children, of which the right one is idle. -/
theorem aoslRbTraverseLrd_run_three : ∃ v m, v.Nodup ∧ v ⊆ [4, 8, 12] ∧ ∀ junk, ∃ w : WalkSt Unit,
    (aoslRbTraverseLrd (eraseIdle (· == 12) junk)).run
      ⟨treeMem (.node (.node .leaf 4 .red .leaf) 8 .black (.node .leaf 12 .red .leaf)), (), [], []⟩ = some ((), w) ∧
    w.visits.map Prod.fst = v ∧ w.freed = v.filter (· == 12) ∧ IsRb w.mem ([4, 8, 12].filter fun p => p ∉ w.freed) ∧
    w.mem.rbNode = m.rbNode ∧ SameOff w.freed m w.mem ∧
    ∀ p ∈ w.freed, (∀ d, w.mem.child d p = junk.child d p) ∧ w.mem.rbParentColor p = junk.rbParentColor p :=
  aoslRbTraverseLrd_run (isRb_treeMem (by decide) (by decide) (.black (.red .leaf .leaf) (.red .leaf .leaf))) (· == 12)

end

end Aosl
