import Aosl.RbSearch

/-!
# `aosl_rb_insert_color` restores the balance

The loop is at a red node whose subtree is balanced and whose path would take a black subtree of the
same height (`Fits z .black n`): only the colour of its parent may be wrong. Each round keeps the
in-order sequence and shortens the path.
-/

namespace Aosl
open Lib Lib.CTree

/-- The situation at the test of the insertion loop. -/
structure InsertInv (s : RbSt) (z : Zip Ptr) (t : CTree Ptr) (n : Nat) : Prop where
  at_ : At s z t
  red : Balanced t .red n
  fits : Zip.Fits z .black n

namespace InsertInv

variable {s : RbSt} {z : Zip Ptr} {t sib u : CTree Ptr} {n : Nat} {d e : Side} {p g : Ptr} {c : Color}

theorem grandparent (h : InsertInv s (⟨d, p, .red, sib⟩ :: z) t n) :
    Balanced sib .black n ∧ ∃ e g u z', z = ⟨e, g, .black, u⟩ :: z' ∧ (∃ cu, Balanced u cu n) ∧
      Zip.Fits z' .black (n + 1) := by
  cases h.fits with
  | red hs hz =>
    cases hz with
    | black hu hz' => exact ⟨hs, _, _, _, _, rfl, ⟨_, hu⟩, hz'⟩

theorem recolor (h : InsertInv s (⟨d, p, .red, sib⟩ :: ⟨e, g, .black, u⟩ :: z) t n)
    (hs : Balanced sib .black n) (hu : Balanced u .red n) (hz : Zip.Fits z .black (n + 1)) :
    ∃ s' t', (rbInsertFix e (rootPtr t) p g).run s = some (rootPtr t', s') ∧ s'.count = s.count ∧
      InsertInv s' z t' (n + 1) ∧
      (z.plug t').toList = (Zip.plug (⟨d, p, .red, sib⟩ :: ⟨e, g, .black, u⟩ :: z) t).toList := by
  have hG := At.up_iff.1 (At.up_iff.1 h.at_)
  obtain ⟨a, q, b, rfl⟩ := hu.exists_mk_red .left
  obtain ⟨-, ha, hb⟩ := hu.mk_red_inv
  obtain ⟨s₁, r₁, c₁, h₁⟩ := hG.setColor_far .black
  obtain ⟨s₂, r₂, c₂, h₂⟩ := h₁.setColor_near .black
  obtain ⟨s₃, r₃, c₃, h₃⟩ := h₂.setColor .red
  refine ⟨s₃, .mk e (.mk d t p .black sib) g .red (.mk .left a q .black b), ?_, by omega,
    ⟨h₃, .mk_red (.mk_black h.red hs) (.mk_black ha hb), hz⟩, ?_⟩
  · have hq := hG.down_far.run_nonNullRed
    rw [rootPtr_mk, color_mk] at hq
    simp only [rbInsertFix, StateT.run_bind, run_rbChild hG.ne_zero, hG.child_far, Option.bind_eq_bind,
      Option.bind_some, hq, rbSetBlack, rbSetRed, decide_true, if_true, rootPtr_mk, r₁, r₂, r₃]
    rfl
  · simp only [Zip.plug, Zip.toList_plug]
    cases d <;> cases e <;> simp [CTree.mk]

/-- A black uncle: after at most two rotations the parent is black. -/
theorem rotate (h : InsertInv s (⟨d, p, .red, sib⟩ :: ⟨e, g, .black, u⟩ :: z) t n)
    (hs : Balanced sib .black n) (hu : Balanced u .black n) (hz : Zip.Fits z .black (n + 1)) :
    ∃ s' z' t', (rbInsertFix e (rootPtr t) p g).run s = some (rootPtr t', s') ∧ s'.count = s.count ∧
      InsertInv s' z' t' n ∧ z'.length = z.length + 1 ∧
      (z'.plug t').toList = (Zip.plug (⟨d, p, .red, sib⟩ :: ⟨e, g, .black, u⟩ :: z) t).toList := by
  have hP := At.up_iff.1 h.at_
  have hG := At.up_iff.1 hP
  obtain ⟨a, x, b, rfl⟩ := h.red.exists_mk_red e
  obtain ⟨-, ha, hb⟩ := h.red.mk_red_inv
  have hinner : s.child e.flip p = x ↔ d = e.flip := by
    constructor
    · intro hx
      by_contra hd
      obtain rfl : d = e := by simpa using Side.eq_flip_of_ne hd
      have hxs : rootPtr sib = x := hP.child_far.symm.trans hx
      have hm : x ∈ sib.toList := hxs ▸ rootPtr_mem (hxs ▸ h.at_.ne_zero)
      have hn := h.at_.nodup_mk
      simp [Zip.labels, hm] at hn
    · rintro rfl
      rw [hP.child_near, rootPtr_mk]
  simp only [rbInsertFix, StateT.run_bind, run_rbChild hG.ne_zero, hG.child_far, Option.bind_eq_bind,
    Option.bind_some, hG.down_far.run_nonNullRed, hu.color_eq, rbSetBlack, rbSetRed, run_rbChild hP.ne_zero,
    rootPtr_mk, hinner, reduceCtorEq, decide_false, Bool.false_eq_true, if_false]
  by_cases hd : d = e.flip
  · subst hd
    rw [mk_flip] at hP
    obtain ⟨s₁, r₁, c₁, h₁⟩ := hP.rotate
    obtain ⟨s₂, r₂, c₂, h₂⟩ := h₁.setColor .black
    obtain ⟨s₃, r₃, c₃, h₃⟩ := (At.up_iff.1 h₂).setColor .red
    obtain ⟨s₄, r₄, c₄, h₄⟩ := h₃.rotate_flip
    refine ⟨s₄, ⟨e, x, .black, .mk e b g .red u⟩ :: z, .mk e sib p .red a, ?_, by omega,
      ⟨h₄.near, .mk_red hs ha, .black (.mk_red hb hu) hz⟩, rfl, ?_⟩
    · simp only [if_true, StateT.run_bind, Option.bind_eq_bind, r₁, Option.bind_some, StateT.run_pure,
        Option.pure_def, r₂, r₃, r₄, rootPtr_mk]
    · simp only [Zip.plug, Zip.toList_plug]
      cases e <;> simp [CTree.mk, Side.flip]
  · obtain rfl : d = e := by simpa using Side.eq_flip_of_ne hd
    obtain ⟨s₁, r₁, c₁, h₁⟩ := hG.setColor_near .black
    obtain ⟨s₂, r₂, c₂, h₂⟩ := h₁.setColor .red
    obtain ⟨s₃, r₃, c₃, h₃⟩ := h₂.rotate_flip
    refine ⟨s₃, ⟨d, p, .black, .mk d sib g .red u⟩ :: z, .mk d a x .red b, ?_, by omega,
      ⟨h₃.near, h.red, .black (.mk_red hs hu) hz⟩, rfl, ?_⟩
    · simp only [hd, if_false, StateT.run_bind, Option.bind_eq_bind, Option.bind_some, StateT.run_pure,
        Option.pure_def, r₁, r₂, r₃, rootPtr_mk]
    · simp only [Zip.plug, Zip.toList_plug]
      cases d <;> simp [CTree.mk]

theorem fix (h : InsertInv s (⟨d, p, .red, sib⟩ :: ⟨e, g, .black, u⟩ :: z) t n)
    (hs : Balanced sib .black n) (hu : Balanced u c n) (hz : Zip.Fits z .black (n + 1)) :
    ∃ s' z' t' n', (rbInsertFix e (rootPtr t) p g).run s = some (rootPtr t', s') ∧ s'.count = s.count ∧
      InsertInv s' z' t' n' ∧ z'.length < z.length + 2 ∧
      (z'.plug t').toList = (Zip.plug (⟨d, p, .red, sib⟩ :: ⟨e, g, .black, u⟩ :: z) t).toList := by
  cases c with
  | red =>
    obtain ⟨s', t', hrun, hcnt, hinv, hl⟩ := h.recolor hs hu hz
    exact ⟨s', z, t', _, hrun, hcnt, hinv, by omega, hl⟩
  | black =>
    obtain ⟨s', z', t', hrun, hcnt, hinv, hlen, hl⟩ := h.rotate hs hu hz
    exact ⟨s', z', t', _, hrun, hcnt, hinv, by omega, hl⟩

/-- The loop ends at a tree that is balanced once the root is black. -/
theorem loop {k : Nat} (h : InsertInv s z t n) (hf : z.length < k) :
    ∃ s' t' m, (rbInsertLoop k (rootPtr t)).run s = some ((), s') ∧ s'.count = s.count ∧ At s' [] t' ∧
      t' ≠ .leaf ∧ Balanced (t'.setColor .black) .black m ∧ t'.toList = (z.plug t).toList := by
  induction k generalizing s z t n with
  | zero => omega
  | succ k ih =>
    obtain ⟨a, x, b, rfl⟩ := h.red.exists_mk_red .left
    simp only [rbInsertLoop, StateT.run_bind, rootPtr_mk, h.at_.run_parent, Option.bind_eq_bind, Option.bind_some]
    rcases z with _ | ⟨⟨d, p, c, sib⟩, z⟩
    · obtain ⟨-, ha, hb⟩ := h.red.mk_red_inv
      exact ⟨s, _, n + 1, rfl, rfl, h.at_, mk_ne_leaf _ _ _ _ _, .black ha hb, rfl⟩
    have hP := At.up_iff.1 h.at_
    have hred := hP.run_nonNullRed
    rw [rootPtr_mk, color_mk] at hred
    simp only [upPtr, hred, Option.bind_some]
    cases c with
    | black =>
      simp only [reduceCtorEq, decide_false, Bool.false_eq_true, if_false]
      cases h.fits with
      | black hs hz =>
        obtain ⟨m, hm⟩ := Zip.Fits.plug (.black hs hz) h.red
        obtain ⟨l, y, r, hr⟩ : ∃ l y r, Zip.plug (⟨d, p, .black, sib⟩ :: z) (.mk .left a x .red b) =
            .node l y .black r := hm.eq_node_of_mem (x := x) (by simp [Zip.toList_plug])
        refine ⟨s, _, m, rfl, rfl, At.plug_iff.1 h.at_, ?_, ?_, rfl⟩
        · rw [hr]; simp
        · rw [hr] at hm ⊢; exact hm
    | red =>
      obtain ⟨hs, e, g, u, z, rfl, ⟨cu, hu⟩, hz⟩ := h.grandparent
      have hG := At.up_iff.1 hP
      have hside := hP.side_eq (.inl (mk_ne_leaf _ _ _ _ _))
      rw [rootPtr_mk] at hside
      simp only [decide_true, if_true, StateT.run_bind, hP.run_parent, Option.bind_eq_bind, Option.bind_some,
        upPtr, run_rbChild hG.ne_zero, hside]
      obtain ⟨s', z', t', n', hrun, hcnt, hinv, hlen, hl⟩ := h.fix hs hu hz
      rw [rootPtr_mk] at hrun
      rw [hrun]
      obtain ⟨s'', t'', m, hrun', hcnt', h'⟩ := ih hinv (by simp only [List.length_cons] at hf; omega)
      rw [hl] at h'
      exact ⟨s'', t'', m, hrun', hcnt'.trans hcnt, h'⟩

end InsertInv

theorem rbLinkNode_run {s : RbSt} {z : Zip Ptr} {x : Ptr} (h : At s z .leaf) (hx : x ≠ 0) (hz : x ∉ z.labels) :
    ∃ s', (rbLinkNode x (upPtr z) (linkOf z)).run s = some ((), s') ∧ s'.count = s.count ∧
      At s' z (.node .leaf x .red .leaf) := by
  have hxz : ∀ q ∈ z.labels, q ≠ x := fun q hq => ne_of_mem_of_not_mem hq hz
  have hrep : ∀ s' : RbSt, s'.child .left x = 0 → s'.child .right x = 0 → s'.rbParentColor x = 4 * upPtr z →
      Rep s' (upPtr z) (.node .leaf x .red .leaf) := fun s' h1 h2 h3 => ⟨hx, h1, h2, h3, trivial, trivial⟩
  have hnd : ((CTree.node .leaf x .red .leaf).toList ++ z.labels).Nodup := by
    simpa [hz] using h.nodup
  simp only [rbLinkNode, StateT.run_bind, run_setParentColor hx, run_setRbChild hx, Option.bind_eq_bind,
    Option.bind_some]
  rcases z with _ | ⟨f, z⟩
  · exact ⟨_, rfl, rfl, hrep _ (by simp) (by simp) (by simp), rfl, hnd⟩
  · obtain ⟨h0, -⟩ := h.zrep
    have hfx : f.x ≠ x := hxz f.x (by simp [Zip.labels])
    rw [linkOf, writeLink, run_setRbChild h0]
    refine ⟨_, rfl, rfl, hrep _ ?_ ?_ ?_, h.zrep.replace ?_ ?_ ?_ ?_, hnd⟩
    · simp [hfx.symm]
    · simp [hfx.symm]
    · simp
    · exact (List.nodup_append.1 h.nodup).2.1
    · intro q hq g
      by_cases hg : g = f.side <;> simp [hg, hxz q hq, upPtr, upSide, rootPtr]
    · intro q hq
      simp [hxz q hq]
    · simp [upPtr, h0]

theorem aoslRbInsertColor_run {s : RbSt} {z : Zip Ptr} {x : Ptr} {m : Nat}
    (h : At s z (.node .leaf x .red .leaf)) (hb : Balanced (z.plug .leaf) .black m) (hc : z.length ≤ s.count + 1) :
    ∃ s', (aoslRbInsertColor x).run s = some ((), s') ∧ s'.count = s.count + 1 ∧ ∃ t' m', At s' [] t' ∧
      Balanced t' .black m' ∧ t'.toList = z.before ++ x :: z.after := by
  obtain ⟨n, h0, hf⟩ := Zip.Fits.of_plug hb
  cases h0
  obtain ⟨s₁, t₁, m₁, r₁, c₁, h₁, hl, hb₁, ht⟩ :=
    InsertInv.loop (k := s.count + 2) ⟨h, .red .leaf .leaf, hf⟩ (by omega)
  cases t₁ with
  | leaf => exact absurd rfl hl
  | node l y c r =>
    obtain ⟨s₂, r₂, c₂, h₂⟩ := At.setColor (d := .left) h₁ .black
    have hroot : s₁.rbNode = y := h₁.zrep
    refine ⟨{ s₂ with count := s₂.count + 1 }, ?_, by simp only; omega, _, m₁, h₂.setCount _, hb₁, ?_⟩
    · simp only [aoslRbInsertColor, StateT.run_bind, StateT.run_get, Option.pure_def, Option.bind_eq_bind,
        Option.bind_some, rbSetBlack]
      rw [show rootPtr (.node .leaf x .red .leaf) = x from rfl] at r₁
      rw [r₁]
      simp only [Option.bind_some, hroot, r₂]
      rfl
    · rw [toList_recolor .left l r y .black c]
      exact ht.trans (by simp [Zip.toList_plug])

theorem rbInsert_run {s : RbSt} {z : Zip Ptr} {t : CTree Ptr} {x : Ptr} {m : Nat} (h : At s z .leaf)
    (ht : z.plug .leaf = t) (hb : Balanced t .black m) (hc : s.count = t.toList.length) (hx : x ≠ 0)
    (hxt : x ∉ t.toList) :
    ∃ s', (rbInsert x (linkOf z) (upPtr z)).run s = some ((), s') ∧ IsRb s' (z.before ++ x :: z.after) := by
  subst ht
  have hlen : (z.plug .leaf).toList.length = z.labels.length := by
    simpa using (Zip.perm_labels z .leaf).length_eq
  have hlab : x ∉ z.labels := fun hm => hxt ((Zip.perm_labels z .leaf).mem_iff.2 (by simpa using hm))
  obtain ⟨s₁, r₁, c₁, h₁⟩ := rbLinkNode_run h hx hlab
  obtain ⟨s₂, r₂, c₂, t', m', h₂, hb₂, ht₂⟩ := aoslRbInsertColor_run h₁ hb (by have := z.length_le_labels; omega)
  refine ⟨s₂, ?_, t', m', h₂, hb₂, ht₂, ?_⟩
  · simp only [rbInsert, StateT.run_bind, r₁, r₂, Option.bind_eq_bind, Option.bind_some]
  · rw [Zip.toList_plug] at hc
    simp only [toList_leaf, List.append_nil, List.length_append] at hc
    simp only [List.length_append, List.length_cons]
    omega

/-- `aosl_rb_insert_node` puts the node behind all nodes that do not compare greater. -/
theorem aoslRbInsertNode_run {s : RbSt} {cmp : Ptr → Int} {l : List Ptr} {x : Ptr} (h : IsRb s l)
    (hs : SignSorted cmp l) (hx : x ≠ 0) (hl : x ∉ l) :
    ∃ s', (aoslRbInsertNode cmp x).run s = some ((), s') ∧
      IsRb s' (l.filter (fun p => ¬0 < cmp p) ++ x :: l.filter (fun p => 0 < cmp p)) := by
  obtain ⟨t, m, hat, hb, rfl, hc⟩ := h
  obtain ⟨z, hrun, hz, hp, hbef, haft⟩ := aoslFindRbLinks_run hat hc hs
  obtain ⟨s', hrun', h'⟩ := rbInsert_run hz hp hb hc hx hl
  rw [hbef, haft] at h'
  refine ⟨s', ?_, h'⟩
  simp only [aoslRbInsertNode, StateT.run_bind, hrun, Option.bind_eq_bind, Option.bind_some]
  exact hrun'

end Aosl
