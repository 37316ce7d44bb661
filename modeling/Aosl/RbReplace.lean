import Aosl.RbRun

/-!
# Putting one node in the place of another

`aosl_rb_replace_node` gives the surroundings of the victim a new node and copies its links and its colour: the in-order
sequence has the new node in the place of the victim, and the shape stays as it was.
-/

namespace Aosl
open Lib Lib.CTree

def aoslRbReplaceNode (victim new : Ptr) : RbM Unit := do
  let parent ← rbParent victim
  rbReplaceChild .left parent victim new
  rbSetParentOpt (← rbChild .left victim) new
  rbSetParentOpt (← rbChild .right victim) new
  -- `*new = *victim`
  setParentColor new (← getParentColor victim)
  setRbChild .right new (← rbChild .right victim)
  setRbChild .left new (← rbChild .left victim)

theorem rbReplaceNode_fields {s : RbSt} {e : Side} {x y par a b : Ptr} (hx : x ≠ 0) (hy : y ≠ 0) (hxy : x ≠ y)
    (hp : s.rbParentColor x / 4 = par) (ha : s.child .left x = a) (hb : s.child .right x = b) (hax : a ≠ x)
    (hbx : b ≠ x) (hab : a ≠ 0 → a ≠ b) (hpx : par ≠ x)
    (he : par ≠ 0 → s.child e par = x ∧ s.child e.flip par ≠ x) :
    ∃ s', (aoslRbReplaceNode x y).run s = some ((), s') ∧ s'.count = s.count ∧
      s'.rbNode = (if par = 0 then y else s.rbNode) ∧
      (∀ f q, s'.child f q = if q = y then s.child f x
        else if par ≠ 0 ∧ q = par ∧ f = e then y else s.child f q) ∧
      ∀ q, s'.rbParentColor q = if q = y then s.rbParentColor x
        else if a ≠ 0 ∧ q = a then 4 * y + s.rbParentColor a % 4
        else if b ≠ 0 ∧ q = b then 4 * y + s.rbParentColor b % 4 else s.rbParentColor q := by
  simp only [aoslRbReplaceNode, StateT.run_bind, Option.bind_eq_bind, Option.bind_some, run_rbParent hx, hp]
  rw [run_rbReplaceChild he]
  by_cases hp0 : par = 0 <;> by_cases ha0 : a = 0 <;> by_cases hb0 : b = 0
  all_goals
    simp [hp0, ha0, hb0, ha, hb, hx, hy, hxy, hpx.symm, run_rbChild, run_setRbChild, run_getParentColor,
      run_setParentColor]
    -- no word of `rb_parent_color` changes where the victim has no child
    first
    | refine ⟨fun f q => ?_, fun q => ?_⟩ <;> (try cases f) <;> grind
    | intro f q
      cases f <;> grind

/-- A node that is not in the tree takes the place of one that is. -/
theorem aoslRbReplaceNode_run {s : RbSt} {l₁ l₂ : List Ptr} {x y : Ptr} (h : IsRb s (l₁ ++ x :: l₂)) (hy : y ≠ 0)
    (hn : y ∉ l₁ ++ x :: l₂) :
    ∃ s', (aoslRbReplaceNode x y).run s = some ((), s') ∧ IsRb s' (l₁ ++ y :: l₂) := by
  have hnodup := h.nodup
  obtain ⟨t, m, hat, hb, hl, hc⟩ := h
  have hx : x ∈ t.toList := by
    rw [hl]
    simp
  obtain ⟨z, l, c, r, rfl⟩ := Zip.exists_plug_of_mem hx
  have hat' := At.plug_iff.2 hat
  have hn' : y ∉ (CTree.node l x c r).toList ++ z.labels := fun hm =>
    hn (hl ▸ (Zip.perm_labels z (.node l x c r)).mem_iff.2 hm)
  obtain ⟨hx0, hcl, hcr, hpc, -, -⟩ := hat'.rep
  have hxy : x ≠ y := by
    rintro rfl
    simp at hn'
  obtain ⟨hpx, hlx, hrx⟩ := hat'.around_ne (.inl rfl)
  obtain ⟨s', hrun, hcnt, hroot, hchild, hpar⟩ := rbReplaceNode_fields (e := upSide z) hx0 hy hxy
    (by rw [hpc, pack_div]) hcl hcr hlx hrx hat'.rootPtr_ne hpx (hat'.upPtr_child (d := .left))
  obtain ⟨hoff, hat''⟩ := hat'.occupy hy hn' hcnt hroot hchild hpar
  -- what is left and right of the victim
  rw [Zip.toList_plug, toList_node, List.append_assoc, List.append_assoc, List.cons_append, ← List.append_assoc] at hl
  rw [← hl, List.nodup_middle, List.nodup_cons, List.mem_append, not_or] at hnodup
  obtain ⟨rfl, -, rfl⟩ := (List.append_cons_inj_of_notMem hnodup.1.1 hnodup.1.2).1 hl
  obtain ⟨n, hbn, hf⟩ := Zip.Fits.of_plug hb
  have hbn' : Balanced (.node l y c r) c n := by
    cases hbn with
    | red hbl hbr => exact .red hbl hbr
    | black hbl hbr => exact .black hbl hbr
  obtain ⟨m', hb'⟩ := hf.plug hbn'
  refine ⟨s', hrun, Zip.plug z (.node l y c r), m', At.plug_iff.1 hat'', hb', ?_, ?_⟩
  · rw [Zip.toList_plug, toList_node]
    simp only [List.append_assoc, List.cons_append]
  · simp only [hcnt, hc, List.length_append, List.length_cons]

end Aosl
