import Aosl.RbErase
import Aosl.Lib.TreeErase

/-!
# The tree that `aosl_rb_erase` leaves

`aosl_rb_erase` is `Zip.erase` on the tree that the memory holds, and it only writes to nodes of this tree
(`aoslRbErase_tree`). `Held l s₀ s z t` says that `s` holds the tree and came from `s₀` by writes to the nodes `l`.
-/

namespace Aosl
open Lib Lib.CTree

structure Held (l : List Ptr) (s₀ s : RbSt) (z : Zip Ptr) (t : CTree Ptr) : Prop extends At s z t where
  sub : ∀ q ∈ t.toList ++ z.labels, q ∈ l
  off : SameOff l s₀ s

namespace Held

variable {l : List Ptr} {s₀ s s' : RbSt} {z : Zip Ptr} {d : Side} {a b e t sib : CTree Ptr} {x y p o : Ptr}
  {c c' co : Color} {n : Nat}

theorem next {t' : CTree Ptr} {z' : Zip Ptr} (h : Held l s₀ s z t) (h' : At s' z' t') (hoff : SameOff (t.toList ++ z.labels) s s')
    (hsub : ∀ q ∈ t'.toList ++ z'.labels, q ∈ t.toList ++ z.labels) : Held l s₀ s' z' t' :=
  ⟨h', fun q hq => h.sub q (hsub q hq), h.off.trans (hoff.mono fun q hq => h.sub q hq)⟩

theorem up_iff : Held l s₀ s (⟨d, x, c, b⟩ :: z) a ↔ Held l s₀ s z (.mk d a x c b) := by
  have hmem : ∀ q, q ∈ a.toList ++ Zip.labels (⟨d, x, c, b⟩ :: z) ↔ q ∈ (CTree.mk d a x c b).toList ++ z.labels := fun q => by
    simp only [List.mem_append, Zip.labels, List.mem_cons, mem_toList_mk]
    tauto
  exact ⟨fun h => ⟨At.up_iff.1 h.toAt, fun q hq => h.sub q ((hmem q).2 hq), h.off⟩,
    fun h => ⟨At.up_iff.2 h.toAt, fun q hq => h.sub q ((hmem q).1 hq), h.off⟩⟩

theorem plug_iff : Held l s₀ s z t ↔ Held l s₀ s [] (z.plug t) := by
  induction z generalizing t with
  | nil => exact Iff.rfl
  | cons f z ih => exact up_iff.trans ih

theorem setColor (h : Held l s₀ s z (.mk d a x c b)) (c' : Color) :
    ∃ s', (rbSetColor x (colorBit c')).run s = some ((), s') ∧ Held l s₀ s' z (.mk d a x c' b) := by
  refine ⟨_, run_rbSetColor h.ne_zero, h.next ?_ ⟨rfl, fun _ _ _ => rfl, fun q hq => ?_⟩ fun q hq => ?_⟩
  · rw [h.parentColor, pack_mod_two, pack_setColor]
    exact h.recolor c'
  · exact if_neg fun hqx => hq (by simp [hqx])
  · simpa using hq

theorem setColor_near {d' : Side} (h : Held l s₀ s z (.mk d (.mk d' a x c b) y c' e)) (c'' : Color) :
    ∃ s', (rbSetColor x (colorBit c'')).run s = some ((), s') ∧ Held l s₀ s' z (.mk d (.mk d' a x c'' b) y c' e) := by
  obtain ⟨s', hrun, h'⟩ := (up_iff.2 h).setColor c''
  exact ⟨s', hrun, up_iff.1 h'⟩

theorem setColor_far {d' : Side} (h : Held l s₀ s z (.mk d e y c' (.mk d' a x c b))) (c'' : Color) :
    ∃ s', (rbSetColor x (colorBit c'')).run s = some ((), s') ∧ Held l s₀ s' z (.mk d e y c' (.mk d' a x c'' b)) := by
  rw [← mk_flip d] at h
  obtain ⟨s', hrun, h'⟩ := h.setColor_near c''
  exact ⟨s', hrun, by rwa [mk_flip] at h'⟩

theorem rotate (h : Held l s₀ s z (.mk d a x c (.mk d b y c' e))) :
    ∃ s', (rbRotate d x).run s = some ((), s') ∧ Held l s₀ s' z (.mk d (.mk d a x c b) y c' e) := by
  obtain ⟨s', hrun, hoff, h'⟩ := h.toAt.rotate_off
  exact ⟨s', hrun, h.next h' hoff fun q hq => by rwa [toList_rotate]⟩

theorem rotate_flip (h : Held l s₀ s z (.mk d (.mk d a y c' b) x c e)) :
    ∃ s', (rbRotate d.flip x).run s = some ((), s') ∧ Held l s₀ s' z (.mk d a y c' (.mk d b x c e)) := by
  rw [← mk_flip d, ← mk_flip d] at h
  obtain ⟨s', hrun, h'⟩ := h.rotate
  exact ⟨s', hrun, by rwa [mk_flip, mk_flip] at h'⟩

theorem setBlack (h : Held l s₀ s z t) : ∃ s', (if rootPtr t ≠ 0 then rbSetBlack (rootPtr t) else pure ()).run s =
    some ((), s') ∧ Held l s₀ s' z (t.setColor .black) := by
  obtain rfl | ⟨a, x, c, b, rfl⟩ := eq_mk_or_leaf .left t
  · exact ⟨s, rfl, h⟩
  · obtain ⟨s', hrun, h'⟩ := h.setColor .black
    rw [rootPtr_mk, if_pos h.ne_zero, setColor_mk]
    exact ⟨s', hrun, h'⟩

theorem down_far (h : Held l s₀ s z (.mk d a x c b)) : Held l s₀ s (⟨d.flip, x, c, a⟩ :: z) b := by
  rw [up_iff, mk_flip]
  exact h

theorem far (h : Held l s₀ s z (.mk d t p c (.mk d a o co b))) :
    ∃ s', (rbEraseFar d p o).run s = some ((), s') ∧ Held l s₀ s' z (eraseFar d t p c a o b) := by
  obtain ⟨s₁, r₁, h₁⟩ := h.setColor_far c
  obtain ⟨s₂, r₂, h₂⟩ := h₁.setColor .black
  have h₂o := h₂.down_far
  obtain ⟨s₃, r₃, h₃⟩ := h₂o.down_far.setBlack
  rw [up_iff, mk_flip, up_iff, mk_flip] at h₃
  obtain ⟨s₄, r₄, h₄⟩ := h₃.rotate
  refine ⟨s₄, ?_, h₄⟩
  have hcol : (rbColor p).run s = some (colorBit c, s) := by
    rw [run_rbColor h.ne_zero, h.parentColor, pack_mod_two]
  simp only [rbEraseFar, StateT.run_bind, hcol, Option.bind_eq_bind, Option.bind_some, r₁, rbSetBlack, r₂,
    run_rbChild h₂o.ne_zero, h₂o.child_far]
  by_cases hb0 : rootPtr b = 0
  · rw [if_neg (not_not.2 hb0)] at r₃ ⊢
    obtain rfl : s₂ = s₃ := (Prod.mk.inj (Option.some.inj r₃)).2
    exact r₄
  · rw [if_pos hb0] at r₃ ⊢
    rw [rbSetBlack] at r₃
    simp only [StateT.run_bind, r₃, Option.bind_eq_bind, Option.bind_some, r₄]

/-- The run does what the round `r` does: it ends the loop (`none`), goes on at a red focus, where the loop ends, or goes
on above. -/
def Follows (l : List Ptr) (s₀ : RbSt) (z : Zip Ptr) (n : Nat) (res : Option (Option (Ptr × Ptr) × RbSt))
    (r : CTree Ptr × Bool) (c : Color) : Prop :=
  ∃ s', (res = some (none, s') ∧ Held l s₀ s' z r.1 ∧ r.2 = false ∧ r.1.color = c) ∨
    (∃ z' t', res = some (some (rootPtr t', upPtr z'), s') ∧ Held l s₀ s' z' t' ∧ t'.color = .red ∧ r.2 = false ∧
      z'.plug (t'.setColor .black) = z.plug r.1) ∨
    (res = some (some (rootPtr r.1, upPtr z), s') ∧ Held l s₀ s' z r.1 ∧ r.2 = true ∧ Balanced r.1 .black (n + 1) ∧
      Zip.Fits z .black (n + 2))

theorem nephews_black (h : Held l s₀ s z (.mk d t p c (.mk d a o .black b))) (ht : Balanced t .black n)
    (ha : Balanced a .black n) (hb : Balanced b .black n) (hz : Zip.Fits (⟨d, p, c, sib⟩ :: z) .black (n + 1)) :
    Follows l s₀ z n ((rbEraseNephews d p o).run s) (eraseNephews d t p c (.mk d a o .black b)) c := by
  have ho := h.down_far
  have hnear := (up_iff.2 ho).run_nullOrBlack
  have hfar := ho.down_far.run_nullOrBlack
  obtain ⟨s₁, r₁, h₁⟩ := h.setColor_far .red
  have hrun : (rbEraseNephews d p o).run s = some (some (p, upPtr z), s₁) := by
    simp only [rbEraseNephews, StateT.run_bind, run_rbChild ho.ne_zero, ho.child_near, ho.child_far,
      Option.bind_eq_bind, Option.bind_some, hnear, hfar, ha.color_eq, hb.color_eq, decide_true, Bool.and_self,
      if_true, rbSetRed, r₁, h₁.run_parent]
    rfl
  have hroot : rootPtr (.mk d t p c (.mk d a o .red b)) = p := rootPtr_mk ..
  rw [eraseNephews_black ha.color_eq hb.color_eq]
  cases hz with
  | red hs hz =>
    refine ⟨s₁, .inr (.inl ⟨z, _, by rw [hroot]; exact hrun, h₁, color_mk .., rfl, ?_⟩)⟩
    rw [setColor_mk]
    rfl
  | black hs hz =>
    exact ⟨s₁, .inr (.inr ⟨by rw [if_neg Color.noConfusion, hroot]; exact hrun, h₁, rfl, .mk_black ht (.mk_red ha hb), hz⟩)⟩

/-- The part of a round with a black sibling. -/
theorem nephews (h : Held l s₀ s z (.mk d t p c sib)) (ht : Balanced t .black n) (hs : Balanced sib .black (n + 1))
    (hz : Zip.Fits (⟨d, p, c, sib⟩ :: z) .black (n + 1)) :
    Follows l s₀ z n ((rbEraseNephews d p (rootPtr sib)).run s) (eraseNephews d t p c sib) c := by
  obtain ⟨a, o, b, rfl⟩ := hs.exists_mk_of_pos d
  obtain ⟨-, m, ca, cb, hm, ha, hb⟩ := hs.mk_black_inv
  obtain rfl : n = m := by omega
  rw [rootPtr_mk]
  have ho := h.down_far
  have hnear := (up_iff.2 ho).run_nullOrBlack
  have hfar := ho.down_far.run_nullOrBlack
  cases cb with
  | red =>
    obtain ⟨s', hrun, h'⟩ := h.far
    rw [eraseNephews_far hb.color_eq]
    refine ⟨s', .inl ⟨?_, h', rfl, color_mk ..⟩⟩
    simp only [rbEraseNephews, StateT.run_bind, run_rbChild ho.ne_zero, ho.child_near, ho.child_far,
      Option.bind_eq_bind, Option.bind_some, hnear, hfar, hb.color_eq, reduceCtorEq, decide_false, Bool.and_false,
      Bool.false_eq_true, if_false, hrun]
    rfl
  | black =>
    cases ca with
    | black => exact nephews_black h ht ha hb hz
    | red =>
      obtain ⟨a₁, x, a₂, rfl⟩ := ha.exists_mk_red d
      obtain ⟨s₁, r₁, h₁⟩ := ho.setColor_near .black
      obtain ⟨s₂, r₂, h₂⟩ := h₁.setColor .red
      obtain ⟨s₃, r₃, h₃⟩ := h₂.rotate_flip
      rw [up_iff, mk_flip] at h₃
      obtain ⟨s', hrun, h'⟩ := h₃.far
      have hx0 : x ≠ 0 := (up_iff.2 ho).ne_zero
      rw [rootPtr_mk, color_mk] at hnear
      rw [eraseNephews_near hb.color_eq]
      refine ⟨s', .inl ⟨?_, h', rfl, color_mk ..⟩⟩
      simp only [rbEraseNephews, StateT.run_bind, run_rbChild ho.ne_zero, ho.child_near, ho.child_far,
        Option.bind_eq_bind, Option.bind_some, hnear, hfar, hb.color_eq, rootPtr_mk, reduceCtorEq, decide_false,
        decide_true, Bool.false_and, Bool.false_eq_true, if_false, if_true, ne_eq, hx0, not_false_eq_true,
        rbSetBlack, rbSetRed, r₁, r₂, r₃, run_rbChild h.ne_zero, h₃.child_far, hrun]
      rfl

/-- One round of the loop at a black focus below `p`. -/
theorem round (h : Held l s₀ s (⟨d, p, c, sib⟩ :: z) t) (ht : Balanced t .black n)
    (hz : Zip.Fits (⟨d, p, c, sib⟩ :: z) .black (n + 1)) :
    Follows l s₀ z n ((rbEraseFix d p).run s) (eraseRound d t p c sib) c := by
  have hP := up_iff.1 h
  obtain ⟨cs, hs⟩ : ∃ cs, Balanced sib cs (n + 1) := by
    cases hz with
    | red hs _ => exact ⟨_, hs⟩
    | black hs _ => exact ⟨_, hs⟩
  obtain ⟨a, o, b, rfl⟩ := hs.exists_mk_of_pos d
  have hred := hP.down_far.run_isRed
  cases cs with
  | black =>
    have hr := nephews hP ht hs hz
    rw [rootPtr_mk] at hr
    rw [eraseRound_black (color_mk ..)]
    simp only [rbEraseFix, StateT.run_bind, run_rbChild hP.ne_zero, hP.child_far, Option.bind_eq_bind,
      Option.bind_some, rootPtr_mk, hred, reduceCtorEq, decide_false, Bool.false_eq_true, if_false]
    exact hr
  | red =>
    obtain ⟨-, ha, hb⟩ := hs.mk_red_inv
    obtain ⟨rfl, hz'⟩ : c = .black ∧ Zip.Fits z .black (n + 2) := by
      cases hz with
      | red hs' _ => have := hs'.color_eq; rw [color_mk] at this; cases this
      | black _ hz => exact ⟨rfl, hz⟩
    obtain ⟨s₁, r₁, h₁⟩ := hP.setColor_far .black
    obtain ⟨s₂, r₂, h₂⟩ := h₁.setColor .red
    obtain ⟨s₃, r₃, h₃⟩ := h₂.rotate
    have h₃' := up_iff.2 h₃
    obtain ⟨s', hr⟩ := nephews h₃' ht ha (.red ha (.black hb hz'))
    have hrun : (rbEraseFix d p).run s = (rbEraseNephews d p (rootPtr a)).run s₃ := by
      simp only [rbEraseFix, StateT.run_bind, run_rbChild hP.ne_zero, hP.child_far, Option.bind_eq_bind,
        Option.bind_some, rootPtr_mk, hred, decide_true, if_true, rbSetBlack, rbSetRed, r₁, r₂, r₃, h₃'.child_far]
    rw [hrun, eraseRound_red]
    rcases hr with ⟨hres, h', -, -⟩ | ⟨z', t', hres, h', hc, -, hplug⟩ | ⟨-, -, htrue, -⟩
    · exact ⟨s', .inl ⟨hres, up_iff.1 h', rfl, color_mk ..⟩⟩
    · exact ⟨s', .inr (.inl ⟨z', t', hres, h', hc, rfl, hplug⟩)⟩
    · rw [eraseNephews_red] at htrue
      cases htrue

/-- The colour of the root does not depend on what is at the end of the path, but for its colour. -/
theorem color_plug {u u' : CTree Ptr} (h : u.color = u'.color) : (z.plug u).color = (z.plug u').color := by
  induction z generalizing u u' with
  | nil => exact h
  | cons f z ih => exact ih (by rw [color_mk, color_mk])

theorem color_of_fits {u : CTree Ptr} (hz : Zip.Fits z c n) (hu : u.color = c) : (z.plug u).color = .black := by
  induction hz generalizing u with
  | root => exact hu
  | red _ _ ih => exact ih (color_mk ..)
  | black _ _ ih => exact ih (color_mk ..)

/-- After the loop its last `node` becomes black. -/
def loopAndBlack (k : Nat) (node parent : Ptr) : RbM Unit := do
  let node ← rbEraseLoop k node parent
  if node ≠ 0 then
    rbSetBlack node

theorem loop_red {k : Nat} (h : Held l s₀ s z t) (ht : t.color = .red) :
    ∃ s', (loopAndBlack (k + 1) (rootPtr t) (upPtr z)).run s = some ((), s') ∧ Held l s₀ s' z (t.setColor .black) := by
  obtain ⟨s', hrun, h'⟩ := h.setBlack
  refine ⟨s', ?_, h'⟩
  simp only [loopAndBlack, rbEraseLoop, StateT.run_bind, h.run_nullOrBlack, Option.bind_eq_bind, Option.bind_some,
    StateT.run_get, Option.pure_def]
  rw [if_neg (by simp [ht])]
  exact hrun

theorem loop {k : Nat} (h : Held l s₀ s z t) (ht : Balanced t .black n) (hz : Zip.Fits z .black (n + 1))
    (hk : z.length < k) : ∃ s', (loopAndBlack k (rootPtr t) (upPtr z)).run s = some ((), s') ∧
      Held l s₀ s' [] (z.eraseUp t) := by
  induction k generalizing s z t n with
  | zero => omega
  | succ k ih =>
    rcases z with _ | ⟨⟨d, p, c, sib⟩, z⟩
    · obtain ⟨s', hrun, h'⟩ := h.setBlack
      rw [setColor_eq_self ht.color_eq] at h'
      refine ⟨s', ?_, h'⟩
      simp only [loopAndBlack, rbEraseLoop, StateT.run_bind, h.run_nullOrBlack, Option.bind_eq_bind, Option.bind_some,
        StateT.run_get, Option.pure_def]
      rw [if_neg (by simp [show s.rbNode = rootPtr t from h.zrep])]
      exact hrun
    · have hP := up_iff.1 h
      have hne : rootPtr t ≠ s.rbNode := h.rootPtr_ne_rbNode (List.cons_ne_nil _ _)
      have hsib : sib ≠ .leaf := by
        rintro rfl
        cases hz with
        | red hs _ => cases hs
        | black hs _ => cases hs
      have hstep : (loopAndBlack (k + 1) (rootPtr t) p).run s = ((rbEraseFix d p).run s).bind fun r =>
          r.1.elim ((if r.2.rbNode ≠ 0 then rbSetBlack r.2.rbNode else pure ()).run r.2)
            fun next => (loopAndBlack k next.1 next.2).run r.2 := by
        simp only [loopAndBlack, rbEraseLoop, StateT.run_bind, h.run_nullOrBlack, Option.bind_eq_bind, Option.bind_some,
          StateT.run_get, Option.pure_def]
        rw [if_pos (by simp [ht.color_eq, hne])]
        simp only [StateT.run_bind, run_rbChild hP.ne_zero, Option.bind_eq_bind, Option.bind_some,
          h.side_eq (.inr hsib), Option.bind_assoc]
        congr 1
        funext r
        rcases r with ⟨_ | ⟨q, par⟩, s'⟩ <;> rfl
      have hcol : (Zip.plug z (.mk d t p c sib)).color = .black := by
        have := color_of_fits hz ht.color_eq
        exact this
      have hkz : z.length < k := Nat.lt_of_succ_lt_succ hk
      rw [show upPtr (⟨d, p, c, sib⟩ :: z) = p from rfl, hstep, Zip.eraseUp]
      obtain ⟨s₁, ⟨hres, h₁, hfalse, hc⟩ | ⟨z', t', hres, h₁, hred, hfalse, hplug⟩ | ⟨hres, h₁, htrue, hb, hz'⟩⟩ :=
        h.round ht hz
      · rw [hres, hfalse, Option.bind_some, if_neg Bool.false_ne_true]
        have hroot := plug_iff.1 h₁
        obtain ⟨s₂, r₂, h₂⟩ := hroot.setBlack
        rw [setColor_eq_self ((color_plug (hc.trans (color_mk ..).symm)).trans hcol)] at h₂
        rw [← show s₁.rbNode = _ from hroot.zrep] at r₂
        exact ⟨s₂, r₂, h₂⟩
      · rw [hres, hfalse, Option.bind_some, if_neg Bool.false_ne_true, ← hplug]
        obtain ⟨k, rfl⟩ := Nat.exists_eq_succ_of_ne_zero (Nat.ne_of_gt (Nat.zero_lt_of_lt hkz))
        obtain ⟨s₂, r₂, h₂⟩ := h₁.loop_red (k := k) hred
        exact ⟨s₂, r₂, plug_iff.1 h₂⟩
      · rw [hres, htrue, Option.bind_some, if_pos rfl]
        exact ih h₁ hb hz' hkz

/-- Taking out a node. -/
theorem takeOut (h : Held l s₀ s z (.node a x c b)) (hb : b.toList.length ≤ s.count + 1) :
    ∃ s', (rbTakeOut x).run s = some ((rootPtr (z.takeOut a c b).2.1, upPtr (z.takeOut a c b).1,
      colorBit (z.takeOut a c b).2.2), s') ∧ Held l s₀ s' (z.takeOut a c b).1 (z.takeOut a c b).2.1 := by
  have hcr : s.child .right x = rootPtr b := h.child_far (d := .left)
  have hsub : ∀ w u, (∀ q ∈ (Zip.plug w u).toList, q ∈ a.toList ++ b.toList) →
      ∀ q ∈ u.toList ++ Zip.labels (w ++ z), q ∈ (CTree.node a x c b).toList ++ z.labels := fun w u hw q hq => by
    rw [List.mem_append, Zip.mem_labels_append, ← or_assoc, ← Zip.mem_plug] at hq
    refine List.mem_append.2 (hq.imp_left fun hq => ?_)
    rw [toList_node, List.perm_middle.mem_iff]
    exact List.mem_cons_of_mem _ (hw q hq)
  obtain ⟨w, hw, hlist⟩ := Zip.exists_takeOut z a c b
  have hnext : ∀ s', At s' (z.takeOut a c b).1 (z.takeOut a c b).2.1 →
      SameOff ((CTree.node a x c b).toList ++ z.labels) s s' →
      Held l s₀ s' (z.takeOut a c b).1 (z.takeOut a c b).2.1 := fun s' h' hoff => by
    refine h.next h' hoff ?_
    rw [hw]
    exact hsub w _ fun q hq => hlist ▸ hq
  simp only [rbTakeOut, StateT.run_bind, run_rbChild (h.ne_zero (d := .left)), h.child_near (d := .left), hcr,
    Option.bind_eq_bind, Option.bind_some]
  by_cases ha : a = .leaf
  · subst ha
    refine ⟨_, ?_, hnext _ (h.unlink (d := .left)) ?_⟩
    · rw [rootPtr_leaf, if_pos rfl, StateT.run_bind, rbUnlink_run (d := .left) h.toAt]
      rfl
    · exact (sameOff_unlinked s z b).mono (hsub [] b fun q hq => hq)
  rw [if_neg ((At.near (d := .left) h.toAt).rep.rootPtr_ne_zero ha)]
  by_cases hb0 : b = .leaf
  · subst hb0
    rw [Zip.takeOut_right_leaf ha] at hnext ⊢
    refine ⟨_, ?_, hnext _ (h.unlink (d := .right)) ?_⟩
    · rw [rootPtr_leaf, if_pos rfl, StateT.run_bind, rbUnlink_run (d := .right) h.toAt]
      rfl
    · exact (sameOff_unlinked s z a).mono (hsub [] a fun q hq => List.mem_append_left _ hq)
  rw [if_neg (h.down_far (d := .left) |>.rep.rootPtr_ne_zero hb0)]
  obtain ⟨s', zr, y, cy, r', rfl, hleft, hoff, hrun, h'⟩ := rbSplice_run h.toAt ha hb0 hb
  rw [Zip.takeOut_plug ha hleft] at hnext ⊢
  exact ⟨s', hrun, hnext s' h' hoff⟩

end Held

/-- `aosl_rb_erase` leaves the tree `Zip.erase`, and only writes to nodes of the tree. -/
theorem aoslRbErase_tree {s : RbSt} {z : Zip Ptr} {a b : CTree Ptr} {x : Ptr} {c : Color} {m : Nat}
    (h : At s z (.node a x c b)) (hb : Balanced (z.plug (.node a x c b)) .black m)
    (hc : s.count = (z.plug (.node a x c b)).toList.length) :
    ∃ s', (aoslRbErase x).run s = some ((), s') ∧ At s' [] (z.erase a c b) ∧ s'.count = s.count - 1 ∧
      ∀ q ∉ (z.plug (.node a x c b)).toList, (∀ d, s'.child d q = s.child d q) ∧ s'.rbParentColor q = s.rbParentColor q := by
  have hheld : Held (z.plug (.node a x c b)).toList s s z (.node a x c b) :=
    ⟨h, fun q hq => Zip.mem_plug.2 (List.mem_append.1 hq), rfl, fun _ _ _ => rfl, fun _ _ => rfl⟩
  have hlen := (Zip.perm_labels z (.node a x c b)).length_eq
  simp only [toList_node, List.length_append, List.length_cons] at hlen
  obtain ⟨s₁, r₁, h₁⟩ := hheld.takeOut (by omega)
  obtain ⟨d, y, n, hbal, hfits⟩ := Zip.fits_takeOut hb
  have hzlen : (z.takeOut a c b).1.length < s₁.count + 1 := by
    have hle := Zip.length_le_labels (z.takeOut a c b).1
    have hsum := (Zip.perm_labels (z.takeOut a c b).1 (z.takeOut a c b).2.1).length_eq
    rw [Zip.toList_takeOut, List.length_append] at hsum
    have hz := (Zip.perm_labels z .leaf).length_eq
    rw [Zip.toList_plug] at hz
    simp only [toList_leaf, List.length_append, List.length_nil] at hz hsum
    rw [h₁.off.count]
    omega
  have hrun : ∀ s', (if (z.takeOut a c b).2.2 = .black then
      Held.loopAndBlack (s₁.count + 1) (rootPtr (z.takeOut a c b).2.1) (upPtr (z.takeOut a c b).1) else pure ()).run s₁ =
        some ((), s') → (aoslRbErase x).run s = some ((), { s' with count := s'.count - 1 }) := by
    intro s' hs'
    rw [aoslRbErase, StateT.run_bind, r₁]
    simp only [Option.bind_eq_bind, Option.bind_some]
    by_cases hcy : (z.takeOut a c b).2.2 = .black
    · rw [if_pos hcy] at hs'
      have hloop : (rbEraseColor (rootPtr (z.takeOut a c b).2.1) (upPtr (z.takeOut a c b).1)).run s₁ = some ((), s') := hs'
      rw [if_pos (congrArg colorBit hcy), StateT.run_bind, hloop]
      rfl
    · rw [if_neg hcy] at hs'
      obtain rfl : s₁ = s' := (Prod.mk.inj (Option.some.inj hs')).2
      have hred : (z.takeOut a c b).2.2 = .red := by
        cases h : (z.takeOut a c b).2.2 <;> first | rfl | exact absurd h hcy
      rw [if_neg (by rw [hred]; decide)]
      rfl
  suffices ∃ s', (if (z.takeOut a c b).2.2 = .black then
      Held.loopAndBlack (s₁.count + 1) (rootPtr (z.takeOut a c b).2.1) (upPtr (z.takeOut a c b).1) else pure ()).run s₁ =
        some ((), s') ∧ Held (z.plug (.node a x c b)).toList s s' [] (z.erase a c b) by
    obtain ⟨s', hs', h'⟩ := this
    refine ⟨_, hrun s' hs', h'.toAt.setCount _, congrArg (· - 1) h'.off.count, fun q hq => ⟨fun d => ?_, ?_⟩⟩
    · exact h'.off.child q hq d
    · exact h'.off.parentColor q hq
  rw [Zip.erase]
  generalize z.takeOut a c b = m at h₁ hbal hfits hzlen
  obtain ⟨z', t, cy⟩ := m
  dsimp only at h₁ hbal hfits hzlen ⊢
  cases cy with
  | red => exact ⟨s₁, rfl, Held.plug_iff.1 h₁⟩
  | black =>
    obtain ⟨-, k, -, ct, rfl, -, ht⟩ := hbal.mk_black_inv
    rw [if_pos rfl, if_neg Color.noConfusion]
    cases ct with
    | red =>
      obtain ⟨s', hs', h'⟩ := h₁.loop_red (k := s₁.count) ht.color_eq
      rw [if_pos ht.color_eq]
      exact ⟨s', hs', Held.plug_iff.1 h'⟩
    | black =>
      obtain ⟨s', hs', h'⟩ := h₁.loop ht hfits hzlen
      rw [if_neg (by rw [ht.color_eq]; exact Color.noConfusion)]
      exact ⟨s', hs', h'⟩

theorem Rep.unique {s : RbSt} {par : Ptr} {t t' : CTree Ptr} (h : Rep s par t) (h' : Rep s par t')
    (hroot : rootPtr t = rootPtr t') : t = t' := by
  induction t generalizing par t' with
  | leaf => exact (h'.rootPtr_eq_zero.1 hroot.symm).symm
  | node a x c b iha ihb =>
    cases t' with
    | leaf => exact absurd hroot h.1
    | node a' x' c' b' =>
      obtain rfl : x = x' := hroot
      obtain ⟨-, hl, hr, hpc, ha, hb⟩ := h
      obtain ⟨-, hl', hr', hpc', ha', hb'⟩ := h'
      have hc : colorBit c = colorBit c' := by
        rw [← pack_mod_two par c, ← pack_mod_two par c', ← hpc, ← hpc']
      have hcc : c = c' := by cases c <;> cases c' <;> first | rfl | exact absurd hc (by decide)
      rw [iha ha ha' (hl.symm.trans hl'), ihb hb hb' (hr.symm.trans hr'), hcc]

theorem At.unique {s : RbSt} {t t' : CTree Ptr} (h : At s [] t) (h' : At s [] t') : t = t' :=
  h.rep.unique h'.rep (h.zrep.symm.trans h'.zrep)

theorem balanced_erase {s : RbSt} {z : Zip Ptr} {a b : CTree Ptr} {x : Ptr} {c : Color} {m : Nat}
    (h : At s z (.node a x c b)) (hb : Balanced (z.plug (.node a x c b)) .black m)
    (hc : s.count = (z.plug (.node a x c b)).toList.length) : ∃ m', Balanced (z.erase a c b) .black m' := by
  obtain ⟨s₁, r₁, h₁, -⟩ := aoslRbErase_tree h hb hc
  obtain ⟨s₂, r₂, t, m', h₂, hb', -⟩ := aoslRbErase_run (x := x) ⟨_, m, At.plug_iff.1 h, hb, rfl, hc⟩
    (Zip.mem_plug.2 (.inl (by simp)))
  obtain rfl : s₁ = s₂ := (Prod.mk.inj (Option.some.inj (r₁.symm.trans r₂))).2
  exact ⟨m', h₁.unique h₂ ▸ hb'⟩

end Aosl
