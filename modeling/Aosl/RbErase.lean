import Aosl.RbSearch

/-!
# `aosl_rb_erase` keeps the tree balanced

`aosl_rb_erase` first takes the node out of the tree, by unlinking it or by moving its successor to
its place. If a black node left its place, the subtree that moved up is one black node short:
`EraseInv` is the situation at the test of the loop of `__rb_erase_color`, where the path still asks
for a black height of one more than the focus has.
-/

namespace Aosl
open Lib Lib.CTree

/-- The situation at the test of the removal loop: a black focus is one black node short, a red focus
would be right if it were black. -/
structure EraseInv (s : RbSt) (z : Zip Ptr) (t : CTree Ptr) (n : Nat) : Prop where
  at_ : At s z t
  short : t.color = .black → Balanced t .black n
  red : t.color = .red → Balanced (t.setColor .black) .black (n + 1)
  fits : Zip.Fits z .black (n + 1)

/-- The tree is balanced, with the in-order sequence `l`. -/
def Repaired (s : RbSt) (l : List Ptr) : Prop :=
  ∃ t m, At s [] t ∧ t ≠ .leaf ∧ Balanced t .black m ∧ t.toList = l

theorem Repaired.of_plug {s : RbSt} {z : Zip Ptr} {d : Side} {a b : CTree Ptr} {x : Ptr} {c : Color} {n : Nat}
    (h : At s z (.mk d a x c b)) (hb : Balanced (.mk d a x c b) c n) (hz : Zip.Fits z c n) :
    Repaired s (z.plug (.mk d a x c b)).toList := by
  obtain ⟨m, hm⟩ := hz.plug hb
  refine ⟨_, m, At.plug_iff.1 h, fun h0 => ?_, hm, rfl⟩
  have hx : x ∈ (z.plug (.mk d a x c b)).toList := by simp [Zip.toList_plug]
  simp [h0] at hx

namespace EraseInv

variable {s : RbSt} {z : Zip Ptr} {t sib a b : CTree Ptr} {n k : Nat} {d : Side} {p o : Ptr} {c cb : Color}

theorem far_red (h : At s z (.mk d t p c (.mk d a o .black b))) (ht : Balanced t .black n)
    (ha : Balanced a cb n) (hb : Balanced b .red n) (hz : Zip.Fits (⟨d, p, c, sib⟩ :: z) .black (n + 1)) :
    ∃ s', (rbEraseFar d p o).run s = some ((), s') ∧ s'.count = s.count ∧
      Repaired s' (z.plug (.mk d t p c (.mk d a o .black b))).toList := by
  obtain ⟨b₁, q, b₂, rfl⟩ := hb.exists_mk_red .left
  obtain ⟨-, hb₁, hb₂⟩ := hb.mk_red_inv
  obtain ⟨s₁, r₁, c₁, h₁⟩ := h.setColor_far c
  obtain ⟨s₂, r₂, c₂, h₂⟩ := h₁.setColor .black
  have h₂o := h₂.down_far
  obtain ⟨s₃, r₃, c₃, h₃⟩ := h₂o.setColor_far .black
  rw [At.up_iff, mk_flip] at h₃
  obtain ⟨s₄, r₄, c₄, h₄⟩ := h₃.rotate
  have hpl : (z.plug (.mk d (.mk d t p .black a) o c (.mk .left b₁ q .black b₂))).toList =
      (z.plug (.mk d t p c (.mk d a o .black (.mk .left b₁ q .red b₂)))).toList := by
    rw [Zip.toList_plug, Zip.toList_plug]
    cases d <;> simp [CTree.mk]
  have hl : Balanced (.mk d t p .black a) .black (n + 1) := .mk_black ht ha
  have hr : Balanced (.mk .left b₁ q .black b₂) .black (n + 1) := .mk_black hb₁ hb₂
  refine ⟨s₄, ?_, by omega, ?_⟩
  · have hcol : (rbColor p).run s = some (colorBit c, s) := by
      rw [run_rbColor h.ne_zero, h.parentColor, pack_mod_two]
    have hq : q ≠ 0 := h₂o.down_far.ne_zero
    simp only [rbEraseFar, StateT.run_bind, hcol, Option.bind_eq_bind, Option.bind_some, r₁, rbSetBlack, r₂,
      run_rbChild h₂o.ne_zero, h₂o.child_far, rootPtr_mk, ne_eq, hq, not_false_eq_true, if_true, r₃, r₄]
  · rw [← hpl]
    cases hz with
    | red hs hz => exact .of_plug h₄ (.mk_red hl hr) hz
    | black hs hz => exact .of_plug h₄ (.mk_black hl hr) hz

/-- What a round of the loop leaves: the tree is repaired, or the loop goes on higher up or at a red
focus, where it ends. -/
def Round (s : RbSt) (r : Option (Option (Ptr × Ptr) × RbSt)) (k : Nat) (l : List Ptr) : Prop :=
  ∃ s', s'.count = s.count ∧ (r = some (none, s') ∧ Repaired s' l ∨
    ∃ z' t' n', r = some (some (rootPtr t', upPtr z'), s') ∧ EraseInv s' z' t' n' ∧
      (z'.plug t').toList = l ∧ (t'.color = .red ∨ z'.length < k))

theorem nephews_black (h : At s z (.mk d t p c (.mk d a o .black b))) (ht : Balanced t .black n)
    (ha : Balanced a .black n) (hb : Balanced b .black n) (hz : Zip.Fits (⟨d, p, c, sib⟩ :: z) .black (n + 1))
    (hk : c = .red ∨ z.length < k) : Round s ((rbEraseNephews d p o).run s) k (z.plug (.mk d t p c (.mk d a o .black b))).toList := by
  have ho := h.down_far
  have hnear := ho.near.run_nullOrBlack
  have hfar := ho.down_far.run_nullOrBlack
  obtain ⟨s₁, r₁, c₁, h₁⟩ := h.setColor_far .red
  have hpl : (z.plug (.mk d t p c (.mk d a o .red b))).toList =
      (z.plug (.mk d t p c (.mk d a o .black b))).toList := by
    rw [Zip.toList_plug, Zip.toList_plug]
    cases d <;> simp [CTree.mk]
  have hbl : Balanced (.mk d t p .black (.mk d a o .red b)) .black (n + 1) := .mk_black ht (.mk_red ha hb)
  have hrun : (rbEraseNephews d p o).run s = some (some (p, upPtr z), s₁) := by
    simp only [rbEraseNephews, StateT.run_bind, run_rbChild ho.ne_zero, ho.child_near, ho.child_far,
      Option.bind_eq_bind, Option.bind_some, hnear, hfar, ha.color_eq, hb.color_eq, decide_true, Bool.and_self,
      if_true, rbSetRed, r₁, h₁.run_parent]
    rfl
  have hroot : rootPtr (.mk d t p c (.mk d a o .red b)) = p := rootPtr_mk ..
  cases hz with
  | red hs hz =>
    refine ⟨s₁, c₁, .inr ⟨z, _, n, by rw [hroot]; exact hrun, ⟨h₁, ?_, ?_, hz.to_black⟩, hpl, .inl (color_mk ..)⟩⟩
    · rw [color_mk]; exact Color.noConfusion
    · rw [setColor_mk]; exact fun _ => hbl
  | black hs hz =>
    refine ⟨s₁, c₁, .inr ⟨z, _, n + 1, by rw [hroot]; exact hrun, ⟨h₁, fun _ => hbl, ?_, hz⟩, hpl, .inr (hk.resolve_left Color.noConfusion)⟩⟩
    rw [color_mk]; exact Color.noConfusion

/-- The part of a round with a black sibling. -/
theorem nephews (h : At s z (.mk d t p c sib)) (ht : Balanced t .black n)
    (hs : Balanced sib .black (n + 1)) (hz : Zip.Fits (⟨d, p, c, sib⟩ :: z) .black (n + 1))
    (hk : c = .red ∨ z.length < k) :
    Round s ((rbEraseNephews d p (rootPtr sib)).run s) k (z.plug (.mk d t p c sib)).toList := by
  obtain ⟨a, o, b, rfl⟩ := hs.exists_mk_of_pos d
  obtain ⟨-, m, ca, cb, hm, ha, hb⟩ := hs.mk_black_inv
  obtain rfl : n = m := by omega
  rw [rootPtr_mk]
  have ho := h.down_far
  have hnear := ho.near.run_nullOrBlack
  have hfar := ho.down_far.run_nullOrBlack
  cases cb with
  | red =>
    obtain ⟨s', hrun, hcnt, hrep⟩ := far_red h ht ha hb hz
    refine ⟨s', hcnt, .inl ⟨?_, hrep⟩⟩
    simp only [rbEraseNephews, StateT.run_bind, run_rbChild ho.ne_zero, ho.child_near, ho.child_far,
      Option.bind_eq_bind, Option.bind_some, hnear, hfar, hb.color_eq, reduceCtorEq, decide_false, Bool.and_false,
      Bool.false_eq_true, if_false, hrun]
    rfl
  | black =>
    cases ca with
    | black => exact nephews_black h ht ha hb hz hk
    | red =>
      obtain ⟨a₁, x, a₂, rfl⟩ := ha.exists_mk_red d
      obtain ⟨-, ha₁, ha₂⟩ := ha.mk_red_inv
      obtain ⟨s₁, r₁, c₁, h₁⟩ := ho.setColor_near .black
      obtain ⟨s₂, r₂, c₂, h₂⟩ := h₁.setColor .red
      obtain ⟨s₃, r₃, c₃, h₃⟩ := h₂.rotate_flip
      rw [At.up_iff, mk_flip] at h₃
      obtain ⟨s', hrun, hcnt, hrep⟩ := far_red h₃ ht ha₁ (.mk_red ha₂ hb) hz
      have hpl : (z.plug (.mk d t p c (.mk d a₁ x .black (.mk d a₂ o .red b)))).toList =
          (z.plug (.mk d t p c (.mk d (.mk d a₁ x .red a₂) o .black b))).toList := by
        rw [Zip.toList_plug, Zip.toList_plug]
        cases d <;> simp [CTree.mk]
      have hx0 : x ≠ 0 := ho.near.ne_zero
      rw [hpl] at hrep
      rw [rootPtr_mk, color_mk] at hnear
      refine ⟨s', by omega, .inl ⟨?_, hrep⟩⟩
      simp only [rbEraseNephews, StateT.run_bind, run_rbChild ho.ne_zero, ho.child_near, ho.child_far,
        Option.bind_eq_bind, Option.bind_some, hnear, hfar, hb.color_eq, rootPtr_mk, reduceCtorEq, decide_false,
        decide_true, Bool.false_and, Bool.false_eq_true, if_false, if_true, ne_eq, hx0, not_false_eq_true,
        rbSetBlack, rbSetRed, r₁, r₂, r₃, run_rbChild h.ne_zero, h₃.child_far, hrun]
      rfl

theorem exists_sib (h : EraseInv s (⟨d, p, c, sib⟩ :: z) t n) : ∃ cs, Balanced sib cs (n + 1) := by
  cases h.fits with
  | red hs _ => exact ⟨_, hs⟩
  | black hs _ => exact ⟨_, hs⟩

theorem sib_ne_leaf (h : EraseInv s (⟨d, p, c, sib⟩ :: z) t n) : sib ≠ .leaf := by
  obtain ⟨cs, hs⟩ := h.exists_sib
  rintro rfl
  cases hs

/-- One round of the loop at a black focus below `p`. -/
theorem fix (h : EraseInv s (⟨d, p, c, sib⟩ :: z) t n) (ht : t.color = .black) :
    Round s ((rbEraseFix d p).run s) (z.length + 1) (Zip.plug (⟨d, p, c, sib⟩ :: z) t).toList := by
  have hP := At.up_iff.1 h.at_
  obtain ⟨cs, hs⟩ := h.exists_sib
  obtain ⟨a, o, b, rfl⟩ := hs.exists_mk_of_pos d
  have hred := hP.down_far.run_isRed
  cases cs with
  | black =>
    have hr := nephews hP (h.short ht) hs h.fits (.inr (Nat.lt_succ_self _))
    rw [rootPtr_mk] at hr
    simp only [rbEraseFix, StateT.run_bind, run_rbChild hP.ne_zero, hP.child_far, Option.bind_eq_bind,
      Option.bind_some, rootPtr_mk, hred, reduceCtorEq, decide_false, Bool.false_eq_true, if_false]
    exact hr
  | red =>
    obtain ⟨-, ha, hb⟩ := hs.mk_red_inv
    obtain ⟨rfl, hz⟩ : c = .black ∧ Zip.Fits z .black (n + 2) := by
      cases h.fits with
      | red hs' _ => have := hs'.color_eq; rw [color_mk] at this; cases this
      | black _ hz => exact ⟨rfl, hz⟩
    obtain ⟨s₁, r₁, c₁, h₁⟩ := hP.setColor_far .black
    obtain ⟨s₂, r₂, c₂, h₂⟩ := h₁.setColor .red
    obtain ⟨s₃, r₃, c₃, h₃⟩ := h₂.rotate
    have hz' : Zip.Fits (⟨d, p, .red, a⟩ :: ⟨d, o, .black, b⟩ :: z) .black (n + 1) := .red ha (.black hb hz)
    obtain ⟨s', hcnt, hr⟩ := nephews (k := z.length + 1) h₃.near (h.short ht) ha hz' (.inl rfl)
    have hpl : (Zip.plug (⟨d, o, .black, b⟩ :: z) (.mk d t p .red a)).toList =
        (Zip.plug (⟨d, p, .black, .mk d a o .red b⟩ :: z) t).toList := by
      simp only [Zip.plug, Zip.toList_plug]
      cases d <;> simp [CTree.mk]
    rw [hpl] at hr
    have hrun : (rbEraseFix d p).run s = (rbEraseNephews d p (rootPtr a)).run s₃ := by
      simp only [rbEraseFix, StateT.run_bind, run_rbChild hP.ne_zero, hP.child_far, Option.bind_eq_bind,
        Option.bind_some, rootPtr_mk, hred, decide_true, if_true, rbSetBlack, rbSetRed, r₁, r₂, r₃,
        h₃.near.child_far]
    exact ⟨s', by omega, hrun ▸ hr⟩

/-- The loop ends at a focus that only has to be made black. -/
theorem loop {k : Nat} (h : EraseInv s z t n) (hf : t.color = .red ∧ 0 < k ∨ z.length < k) :
    ∃ s' z' t' m, (rbEraseLoop k (rootPtr t) (upPtr z)).run s = some (rootPtr t', s') ∧ s'.count = s.count ∧
      At s' z' t' ∧ Balanced (z'.plug (t'.setColor .black)) .black m ∧ (z'.plug t').toList = (z.plug t).toList := by
  induction k generalizing s z t n with
  | zero => omega
  | succ k ih =>
    simp only [rbEraseLoop, StateT.run_bind, h.at_.run_nullOrBlack, Option.bind_eq_bind, Option.bind_some,
      StateT.run_get, Option.pure_def]
    by_cases ht : t.color = .black
    · rcases z with _ | ⟨⟨d, p, c, sib⟩, z⟩
      · refine ⟨s, [], t, n, ?_, rfl, h.at_, ?_, rfl⟩
        · rw [if_neg (by simp [show s.rbNode = rootPtr t from h.at_.zrep])]
          rfl
        · rw [setColor_eq_self ht]
          exact h.short ht
      · have hP := At.up_iff.1 h.at_
        have hne : rootPtr t ≠ s.rbNode := h.at_.rootPtr_ne_rbNode (List.cons_ne_nil _ _)
        rw [if_pos (by simp [ht, hne])]
        obtain ⟨s₁, c₁, hr⟩ := h.fix ht
        simp only [upPtr, StateT.run_bind, run_rbChild hP.ne_zero, Option.bind_eq_bind, Option.bind_some,
          h.at_.side_eq (.inr h.sib_ne_leaf)]
        rcases hr with ⟨hrun, t', m, h', -, hb', hl'⟩ | ⟨z', t', n', hrun, hinv, hl, hlt⟩
        · rw [hrun]
          refine ⟨s₁, [], t', m, ?_, c₁, h', ?_, hl'⟩
          · rw [← show s₁.rbNode = rootPtr t' from h'.zrep]
            rfl
          · rw [setColor_eq_self hb'.color_eq]
            exact hb'
        · rw [hrun]
          have hzf : z.length + 1 < k + 1 := hf.resolve_left fun hf => by rw [ht] at hf; cases hf.1
          obtain ⟨s₂, z'', t'', m, r₂, c₂, h₂, hb₂, hl₂⟩ := ih hinv (hlt.imp (fun h => ⟨h, by omega⟩) fun h => by omega)
          exact ⟨s₂, z'', t'', m, r₂, by omega, h₂, hb₂, hl₂.trans hl⟩
    · have hr : t.color = .red := by cases hc : t.color <;> first | rfl | exact absurd hc ht
      obtain ⟨m, hm⟩ := h.fits.plug (h.red hr)
      refine ⟨s, z, t, m, ?_, rfl, h.at_, hm, rfl⟩
      rw [if_neg (by simp [ht])]
      rfl

end EraseInv

theorem rbEraseColor_run {s : RbSt} {z : Zip Ptr} {t : CTree Ptr} {n : Nat} (h : EraseInv s z t n)
    (hc : z.length ≤ s.count) :
    ∃ s' t' m, (rbEraseColor (rootPtr t) (upPtr z)).run s = some ((), s') ∧ s'.count = s.count ∧ At s' [] t' ∧
      Balanced t' .black m ∧ t'.toList = (z.plug t).toList := by
  obtain ⟨s₁, z₁, t₁, m, r₁, c₁, h₁, hb, hl⟩ := h.loop (k := s.count + 1) (.inr (by omega))
  have hrun : ∀ s', (if rootPtr t₁ ≠ 0 then rbSetBlack (rootPtr t₁) else pure ()).run s₁ = some ((), s') →
      (rbEraseColor (rootPtr t) (upPtr z)).run s = some ((), s') := by
    intro s' hs'
    simp only [rbEraseColor, StateT.run_bind, StateT.run_get, Option.pure_def, Option.bind_eq_bind,
      Option.bind_some, r₁]
    exact hs'
  have hpl : (z₁.plug (t₁.setColor .black)).toList = (z.plug t).toList := by
    rw [← hl, Zip.toList_plug, Zip.toList_plug, toList_setColor]
  obtain rfl | ⟨a, x, c, b, rfl⟩ := eq_mk_or_leaf .left t₁
  · exact ⟨s₁, _, m, hrun s₁ rfl, c₁, At.plug_iff.1 h₁, hb, hpl⟩
  · obtain ⟨s₂, r₂, c₂, h₂⟩ := h₁.setColor .black
    rw [setColor_mk] at hb hpl
    refine ⟨s₂, _, m, hrun s₂ ?_, by omega, At.plug_iff.1 h₂, hb, hpl⟩
    rw [rootPtr_mk, if_pos h₁.ne_zero]
    exact r₂

/-- The memory after `child` took the place on side `e` below `par`. -/
def unlinked (s : RbSt) (par : Ptr) (e : Side) (child : Ptr) : RbSt :=
  let s := if child = 0 then s else s.setPc child (4 * par + s.rbParentColor child % 4)
  if par = 0 then { s with rbNode := child } else s.setChild e par child

theorem count_unlinked (s : RbSt) (par : Ptr) (e : Side) (child : Ptr) :
    (unlinked s par e child).count = s.count := by
  by_cases h0 : child = 0 <;> by_cases hp : par = 0 <;> simp [unlinked, h0, hp]

theorem sameOff_unlinked (s : RbSt) (z : Zip Ptr) (t : CTree Ptr) :
    SameOff (t.toList ++ z.labels) s (unlinked s (upPtr z) (upSide z) (rootPtr t)) := by
  refine ⟨count_unlinked .., fun q hq d => ?_, fun q hq => ?_⟩ <;> rw [List.mem_append, not_or] at hq
  · by_cases h0 : rootPtr t = 0 <;> by_cases hp : upPtr z = 0 <;> simp [unlinked, h0, hp]
    all_goals
      rintro - rfl
      exact absurd (upPtr_mem hp) hq.2
  · have hqt : rootPtr t ≠ 0 → q ≠ rootPtr t := fun h0 he => hq.1 (he ▸ rootPtr_mem h0)
    by_cases h0 : rootPtr t = 0 <;> by_cases hp : upPtr z = 0 <;> simp [unlinked, h0, hp, hqt]

/-- Taking out a node with at most one child. -/
theorem At.unlink {s : RbSt} {z : Zip Ptr} {d : Side} {x : Ptr} {c : Color} {t : CTree Ptr}
    (h : At s z (.mk d .leaf x c t)) : At (unlinked s (upPtr z) (upSide z) (rootPtr t)) z t := by
  have hn := h.nodup_mk
  simp only [toList_leaf, List.nil_append, List.nodup_cons, List.mem_append, not_or, List.nodup_append] at hn
  obtain ⟨⟨hxt, hxz⟩, hnt, hnz, hd⟩ := hn
  obtain ⟨-, -, -, -, -, hrt⟩ := (rep_mk d).1 h.rep
  have hz := h.zrep
  rw [rootPtr_mk] at hz
  have htz : ∀ q ∈ t.toList, q ∉ z.labels := fun q hq hm => hd q hq q hm rfl
  refine ⟨hrt.setParent hnt ?_ ?_ ?_, hz.replace hnz ?_ ?_ ?_, List.nodup_append.2 ⟨hnt, hnz, hd⟩⟩
  · intro q hq g
    have hqp : upPtr z ≠ 0 → q ≠ upPtr z := fun hp he => htz q hq (he ▸ upPtr_mem hp)
    by_cases h0 : rootPtr t = 0 <;> by_cases hp : upPtr z = 0 <;> simp [unlinked, h0, hp]
    · exact fun _ he => absurd he (hqp hp)
    · exact fun _ he => absurd he (hqp hp)
  · intro q hq hne
    by_cases h0 : rootPtr t = 0 <;> by_cases hp : upPtr z = 0 <;> simp [unlinked, h0, hp, hne]
  · intro h0
    by_cases hp : upPtr z = 0 <;> simp [unlinked, h0, hp]
  · intro q hq g
    have hp : upPtr z ≠ 0 := by
      intro hp
      obtain rfl : z = [] := hz.upPtr_eq_zero.1 hp
      cases hq
    by_cases hg : g = upSide z <;> by_cases h0 : rootPtr t = 0 <;> simp [unlinked, h0, hp, hg]
  · intro q hq
    have hqt : rootPtr t ≠ 0 → q ≠ rootPtr t := fun h0 he => htz _ (rootPtr_mem h0) (he ▸ hq)
    by_cases h0 : rootPtr t = 0 <;> by_cases hp : upPtr z = 0 <;> simp [unlinked, h0, hp]
    · exact fun he => absurd he (hqt h0)
    · exact fun he => absurd he (hqt h0)
  · by_cases h0 : rootPtr t = 0 <;> by_cases hp : upPtr z = 0 <;> simp [unlinked, h0, hp]

theorem rbUnlink_run {s : RbSt} {z : Zip Ptr} {d : Side} {x : Ptr} {c : Color} {t : CTree Ptr}
    (h : At s z (.mk d .leaf x c t)) : (rbUnlink x (rootPtr t)).run s =
      some ((upPtr z, colorBit c), unlinked s (upPtr z) (upSide z) (rootPtr t)) := by
  simp only [rbUnlink, StateT.run_bind, h.run_parent, run_rbColor h.ne_zero, h.parentColor, pack_mod_two,
    Option.bind_eq_bind, Option.bind_some, run_rbSetParentOpt]
  rw [run_rbReplaceChild (e := upSide z)]
  · rfl
  · intro hp
    have := h.upPtr_child hp
    by_cases h0 : rootPtr t = 0 <;> simpa [h0] using this

theorem rbTakePlace_run {s : RbSt} {e : Side} {x y par a b : Ptr} (hx : x ≠ 0) (hy : y ≠ 0) (hxy : x ≠ y)
    (hp : s.rbParentColor x / 4 = par) (ha : s.child .left x = a) (hb : s.child .right x = b) (ha0 : a ≠ 0)
    (hay : a ≠ y) (hby : b ≠ y) (hab : a ≠ b) (hpx : par ≠ x) (hpy : par ≠ y)
    (he : par ≠ 0 → s.child e par = x ∧ s.child e.flip par ≠ x) :
    ∃ s', (rbTakePlace x y).run s = some ((), s') ∧ s'.count = s.count ∧
      s'.rbNode = (if par = 0 then y else s.rbNode) ∧
      (∀ f q, s'.child f q = if q = y then s.child f x
        else if par ≠ 0 ∧ q = par ∧ f = e then y else s.child f q) ∧
      ∀ q, s'.rbParentColor q = if q = y then s.rbParentColor x
        else if q = a then 4 * y + s.rbParentColor a % 4
        else if b ≠ 0 ∧ q = b then 4 * y + s.rbParentColor b % 4 else s.rbParentColor q := by
  simp only [rbTakePlace, StateT.run_bind, run_getParentColor hx, run_setParentColor hy, run_rbChild hx,
    run_setRbChild hy, Option.bind_eq_bind, Option.bind_some, run_rbParent hx]
  rw [run_rbReplaceChild (e := e)]
  · by_cases hp0 : par = 0 <;> by_cases hb0 : b = 0
    all_goals
      simp [hp, hp0, hb0, ha, hb, hxy, hpx.symm, run_rbSetParent ha0]
      refine ⟨fun f q => ?_, fun q => ?_⟩ <;> (try cases f) <;> grind
  · intro h0
    simp [hp] at h0 ⊢
    simp [hpy, he h0]

/-- The memory in which a node `y` that was not in the tree has the links of `x`, and the nodes around point to it. -/
theorem At.occupy {s s' : RbSt} {z : Zip Ptr} {l r : CTree Ptr} {x y : Ptr} {c : Color} (h : At s z (.node l x c r))
    (hy : y ≠ 0) (hn : y ∉ (CTree.node l x c r).toList ++ z.labels) (hcnt : s'.count = s.count)
    (hroot : s'.rbNode = if upPtr z = 0 then y else s.rbNode)
    (hchild : ∀ f q, s'.child f q = if q = y then s.child f x
      else if upPtr z ≠ 0 ∧ q = upPtr z ∧ f = upSide z then y else s.child f q)
    (hpar : ∀ q, s'.rbParentColor q = if q = y then s.rbParentColor x
      else if rootPtr l ≠ 0 ∧ q = rootPtr l then 4 * y + s.rbParentColor (rootPtr l) % 4
      else if rootPtr r ≠ 0 ∧ q = rootPtr r then 4 * y + s.rbParentColor (rootPtr r) % 4 else s.rbParentColor q) :
    SameOff (y :: ((CTree.node l x c r).toList ++ z.labels)) s s' ∧ At s' z (.node l y c r) := by
  obtain ⟨hx, hcl, hcr, hpc, hrl, hrr⟩ := h.rep
  have hnd := h.nodup_mk (d := .left)
  simp only [List.nodup_cons, List.nodup_append, List.mem_append, not_or] at hnd
  obtain ⟨⟨⟨hxl, hxr⟩, hxz⟩, ⟨hnl, hnr, hlr⟩, hnz, hd⟩ := hnd
  simp only [toList_node, List.mem_append, List.mem_cons, not_or] at hn
  obtain ⟨⟨hyl, hyx, hyr⟩, hyz⟩ := hn
  have hcf : ∀ q, q ≠ y → q ∉ z.labels → ∀ g, s'.child g q = s.child g q := fun q h1 h2 g => by
    rw [hchild, if_neg h1, if_neg (by rintro ⟨h0, rfl, -⟩; exact h2 (upPtr_mem h0))]
  have hoff : SameOff (y :: ((CTree.node l x c r).toList ++ z.labels)) s s' := by
    refine ⟨hcnt, fun q hq g => ?_, fun q hq => ?_⟩ <;>
      simp only [List.mem_cons, List.mem_append, toList_node, not_or] at hq
    · exact hcf q hq.1 hq.2.2 g
    · rw [hpar, if_neg hq.1, if_neg (by rintro ⟨h0, rfl⟩; exact hq.2.1.1 (rootPtr_mem h0)),
        if_neg (by rintro ⟨h0, rfl⟩; exact hq.2.1.2.2 (rootPtr_mem h0))]
  refine ⟨hoff, ⟨hy, ?_, ?_, ?_, ?_, ?_⟩, ?_, ?_⟩
  · rw [hchild, if_pos rfl, hcl]
  · rw [hchild, if_pos rfl, hcr]
  · rw [hpar, if_pos rfl, hpc]
  · refine hrl.setParent hnl (fun q hq => hcf q (ne_of_mem_of_not_mem hq hyl) fun hz => hd q (.inl hq) q hz rfl) ?_ ?_
    · intro q hq hne
      rw [hpar, if_neg (ne_of_mem_of_not_mem hq hyl), if_neg fun hh => hne hh.2,
        if_neg (by rintro ⟨h0, rfl⟩; exact hlr _ hq _ (rootPtr_mem h0) rfl)]
    · intro h0
      rw [hpar, if_neg (ne_of_mem_of_not_mem (rootPtr_mem h0) hyl), if_pos ⟨h0, rfl⟩]
  · refine hrr.setParent hnr (fun q hq => hcf q (ne_of_mem_of_not_mem hq hyr) fun hz => hd q (.inr hq) q hz rfl) ?_ ?_
    · intro q hq hne
      rw [hpar, if_neg (ne_of_mem_of_not_mem hq hyr),
        if_neg (by rintro ⟨h0, rfl⟩; exact hlr _ (rootPtr_mem h0) _ hq rfl), if_neg fun hh => hne hh.2]
    · intro h0
      rw [hpar, if_neg (ne_of_mem_of_not_mem (rootPtr_mem h0) hyr),
        if_neg fun he => hlr _ (rootPtr_mem he.1) _ (rootPtr_mem h0) he.2.symm, if_pos ⟨h0, rfl⟩]
  · refine h.zrep.replace hnz (fun q hq g => ?_) (fun q hq => ?_) hroot
    · have hp : upPtr z ≠ 0 := fun hp => by
        obtain rfl : z = [] := h.zrep.upPtr_eq_zero.1 hp
        cases hq
      rw [hchild, if_neg (ne_of_mem_of_not_mem hq hyz)]
      simp [hp, rootPtr]
    · rw [hpar, if_neg (ne_of_mem_of_not_mem hq hyz), if_neg, if_neg]
      · rintro ⟨h0, rfl⟩
        exact hd _ (.inr (rootPtr_mem h0)) _ hq rfl
      · rintro ⟨h0, rfl⟩
        exact hd _ (.inl (rootPtr_mem h0)) _ hq rfl
  · refine (List.Perm.append_right _ (toList_mk_perm .left l y c r)).nodup_iff.2 ?_
    simp only [List.cons_append, List.nodup_cons, List.nodup_append, List.mem_append, not_or]
    exact ⟨⟨⟨hyl, hyr⟩, hyz⟩, ⟨hnl, hnr, hlr⟩, hnz, hd⟩

theorem At.around_ne {s : RbSt} {z : Zip Ptr} {l r : CTree Ptr} {x q : Ptr} {c : Color} (h : At s z (.node l x c r))
    (hq : q = x ∨ q ≠ 0 ∧ q ∉ (CTree.node l x c r).toList ++ z.labels) :
    upPtr z ≠ q ∧ rootPtr l ≠ q ∧ rootPtr r ≠ q := by
  have hnd := h.nodup_mk (d := .left)
  simp only [List.nodup_cons, List.mem_append, not_or] at hnd
  simp only [toList_node, List.mem_append, List.mem_cons, not_or] at hq
  have hout : q ≠ 0 ∧ q ∉ l.toList ∧ q ∉ r.toList ∧ q ∉ z.labels := by
    rcases hq with rfl | ⟨h0, ⟨hl, -, hr⟩, hz⟩
    exacts [⟨h.ne_zero (d := .left), hnd.1.1.1, hnd.1.1.2, hnd.1.2⟩, ⟨h0, hl, hr, hz⟩]
  obtain ⟨h0, hl, hr, hz⟩ := hout
  exact ⟨fun he => hz (he ▸ upPtr_mem (he ▸ h0)), fun he => hl (he ▸ rootPtr_mem (he ▸ h0)),
    fun he => hr (he ▸ rootPtr_mem (he ▸ h0))⟩

theorem At.rootPtr_ne {s : RbSt} {z : Zip Ptr} {l r : CTree Ptr} {x : Ptr} {c : Color} (h : At s z (.node l x c r))
    (hl : rootPtr l ≠ 0) : rootPtr l ≠ rootPtr r := fun he => by
  have hnd := h.nodup_mk (d := .left)
  simp only [List.nodup_cons, List.nodup_append] at hnd
  exact hnd.2.1.2.2 _ (rootPtr_mem hl) _ (rootPtr_mem (he ▸ hl)) he

theorem At.takePlace {s : RbSt} {z : Zip Ptr} {l r : CTree Ptr} {x y : Ptr} {c : Color}
    (h : At s z (.node l x c r)) (hl : l ≠ .leaf) (hy : y ≠ 0)
    (hn : y ∉ (CTree.node l x c r).toList ++ z.labels) :
    ∃ s', (rbTakePlace x y).run s = some ((), s') ∧
      SameOff (y :: ((CTree.node l x c r).toList ++ z.labels)) s s' ∧ At s' z (.node l y c r) := by
  obtain ⟨hx, hcl, hcr, hpc, hrl, -⟩ := h.rep
  have hl0 : rootPtr l ≠ 0 := hrl.rootPtr_ne_zero hl
  have hyx : x ≠ y := by
    rintro rfl
    simp at hn
  obtain ⟨hpx, -, -⟩ := h.around_ne (.inl rfl)
  obtain ⟨hpy, hly, hry⟩ := h.around_ne (.inr ⟨hy, hn⟩)
  obtain ⟨s', hrun, hcnt, hroot, hchild, hpar⟩ := rbTakePlace_run (e := upSide z) hx hy hyx (by rw [hpc, pack_div])
    hcl hcr hl0 hly hry (h.rootPtr_ne hl0) hpx hpy (h.upPtr_child (d := .left))
  refine ⟨s', hrun, h.occupy hy hn hcnt hroot hchild fun q => ?_⟩
  rw [hpar]
  simp only [ne_eq, hl0, not_false_eq_true, true_and]

theorem rbLeftmost_run {s : RbSt} {fuel : Nat} {z : Zip Ptr} {t : CTree Ptr} (h : At s z t) (ht : t ≠ .leaf)
    (hf : t.toList.length ≤ fuel) :
    ∃ zr y c r, (rbLeftmost fuel (rootPtr t)).run s = some (y, s) ∧ t = Zip.plug zr (.node .leaf y c r) ∧
      ∀ f ∈ zr, f.side = .left := by
  induction fuel generalizing z t with
  | zero =>
    cases t with
    | leaf => exact absurd rfl ht
    | node l x c r => simp at hf
  | succ fuel ih =>
    cases t with
    | leaf => exact absurd rfl ht
    | node l x c r =>
      rw [show rootPtr (.node l x c r) = x from rfl]
      simp only [rbLeftmost, StateT.run_bind, run_rbChild (h.ne_zero (d := .left)), h.child_near (d := .left),
        Option.bind_eq_bind, Option.bind_some]
      by_cases hl : l = .leaf
      · subst hl
        exact ⟨[], x, c, r, rfl, rfl, by simp⟩
      · have hl' := h.near (d := .left)
        rw [if_neg (hl'.rep.rootPtr_ne_zero hl)]
        simp only [toList_node, List.length_append, List.length_cons] at hf
        obtain ⟨zr, y, c', r', hrun, rfl, hz⟩ := ih hl' hl (by omega)
        refine ⟨zr ++ [⟨.left, x, c, r⟩], y, c', r', hrun, by rw [Zip.plug_append]; rfl, ?_⟩
        simpa [or_imp, forall_and] using hz

/-- The successor takes the place of a node with two children. -/
theorem rbSplice_run {s : RbSt} {z : Zip Ptr} {l r : CTree Ptr} {x : Ptr} {c : Color}
    (h : At s z (.node l x c r)) (hl : l ≠ .leaf) (hr : r ≠ .leaf) (hc : r.toList.length ≤ s.count + 1) :
    ∃ s' zr y cy r', r = Zip.plug zr (.node .leaf y cy r') ∧ (∀ f ∈ zr, f.side = .left) ∧
      SameOff ((CTree.node l x c r).toList ++ z.labels) s s' ∧
      (rbSplice x).run s = some ((rootPtr r', upPtr (zr ++ ⟨.right, y, c, l⟩ :: z), colorBit cy), s') ∧
      At s' (zr ++ ⟨.right, y, c, l⟩ :: z) r' := by
  have hd := h.down_far (d := .left)
  obtain ⟨zr, y, cy, r', hrun, rfl, hleft⟩ := rbLeftmost_run hd hr hc
  have hy : At s (zr ++ ⟨.right, x, c, l⟩ :: z) (.node .leaf y cy r') := At.append_iff.2 hd
  have hu := hy.unlink (d := .left)
  generalize hs₁ : unlinked s _ _ _ = s₁ at hu
  have h₁ : At s₁ z (.node l x c (Zip.plug zr r')) := At.up_iff.1 (At.append_iff.1 hu)
  have hperm : ∀ u, (u.toList ++ Zip.labels (zr ++ ⟨.right, x, c, l⟩ :: z)).Perm
      ((CTree.node l x c (Zip.plug zr u)).toList ++ z.labels) := fun u => by
    refine (Zip.perm_labels _ u).symm.trans ?_
    rw [Zip.plug_append]
    exact Zip.perm_labels z _
  have hyn : y ∉ (CTree.node l x c (Zip.plug zr r')).toList ++ z.labels := fun hm =>
    (List.nodup_cons.1 (hy.nodup_mk (d := .left))).1 ((hperm r').mem_iff.2 hm)
  obtain ⟨s₂, r₂, hoff, h₂⟩ := h₁.takePlace hl (hy.ne_zero (d := .left)) hyn
  have hsub : y :: ((CTree.node l x c (Zip.plug zr r')).toList ++ z.labels) ⊆
      (CTree.node l x c (Zip.plug zr (.node .leaf y cy r'))).toList ++ z.labels := fun q hq => by
    refine (hperm _).mem_iff.1 ?_
    rcases List.mem_cons.1 hq with rfl | hq
    · simp
    · exact List.mem_cons_of_mem _ ((hperm r').mem_iff.2 hq)
  have hoff' : SameOff ((CTree.node l x c (Zip.plug zr (.node .leaf y cy r'))).toList ++ z.labels) s s₂ := by
    refine .trans ((hs₁ ▸ sameOff_unlinked s _ r').mono fun q hq => hsub (List.mem_cons_of_mem _ ?_)) (hoff.mono hsub)
    exact (hperm r').mem_iff.1 hq
  have hx0 := h.ne_zero (d := .left)
  have hy0 := hy.ne_zero (d := .left)
  have hcx : s.child .right x = rootPtr (Zip.plug zr (.node .leaf y cy r')) := h.child_far (d := .left)
  have hcy : s.child .right y = rootPtr r' := hy.child_far (d := .left)
  refine ⟨s₂, zr, y, cy, r', rfl, hleft, hoff', ?_, At.append_iff.2 (h₂.down_far (d := .left))⟩
  simp only [rbSplice, StateT.run_bind, StateT.run_get, Option.pure_def, Option.bind_eq_bind, Option.bind_some,
    run_rbChild hx0, hcx, hrun, run_rbChild hy0, hcy, hy.run_parent (d := .left), run_rbColor hy0,
    hy.parentColor (d := .left), pack_mod_two, run_rbSetParentOpt]
  rcases zr with _ | ⟨f, zr⟩
  · rw [List.nil_append, show upPtr (⟨.right, x, c, l⟩ :: z) = x from rfl] at *
    rw [show upSide (⟨.right, x, c, l⟩ :: z) = .right from rfl, unlinked, if_neg hx0] at hs₁
    simp only [if_true, StateT.run_bind, run_setRbChild hx0, hs₁, Option.bind_eq_bind, Option.bind_some, r₂]
    rfl
  · have hf : f.side = .left := hleft f (by simp)
    have hf0 : f.x ≠ 0 := hy.zrep.1
    have hfx : f.x ≠ x := by
      have hn := (List.nodup_append.1 hy.nodup).2.1
      rintro rfl
      simp [Zip.labels, Zip.mem_labels_append] at hn
    rw [List.cons_append, show upPtr (f :: (zr ++ ⟨.right, x, c, l⟩ :: z)) = f.x from rfl] at *
    rw [show upSide (f :: (zr ++ ⟨.right, x, c, l⟩ :: z)) = .left from hf, unlinked, if_neg hf0] at hs₁
    simp only [hfx, if_false, StateT.run_bind, run_setRbChild hf0, hs₁, Option.bind_eq_bind, Option.bind_some, r₂]
    rfl

theorem rbEraseColor_of_unlinked {s : RbSt} {z : Zip Ptr} {t : CTree Ptr} {d : Side} {x : Ptr} {c : Color} {n : Nat}
    (h : At s z t) (hb : Balanced (.mk d .leaf x c t) c n) (hz : Zip.Fits z c n) (hc : z.length ≤ s.count) :
    ∃ s' t' m, (if colorBit c = colorBit .black then rbEraseColor (rootPtr t) (upPtr z) else pure ()).run s =
      some ((), s') ∧ s'.count = s.count ∧ At s' [] t' ∧ Balanced t' .black m ∧
      t'.toList = (z.plug t).toList := by
  cases c with
  | red =>
    obtain ⟨-, -, ht⟩ := hb.mk_red_inv
    obtain ⟨m, hm⟩ := hz.to_black.plug ht
    exact ⟨s, _, m, rfl, rfl, At.plug_iff.1 h, hm, rfl⟩
  | black =>
    obtain ⟨-, m, -, ct, rfl, -, ht⟩ := hb.mk_black_inv
    refine rbEraseColor_run (n := m) ⟨h, fun hc => ?_, fun hc => ?_, hz⟩ hc
    · rw [ht.color_eq] at hc
      exact hc ▸ ht
    · rw [ht.color_eq] at hc
      subst hc
      exact ht.setColor_black

/-- The first half of `aosl_rb_erase`: a node `y` with at most one child leaves its place `z'`, and `x`
leaves the in-order sequence. -/
theorem rbTakeOut_run {s : RbSt} {z : Zip Ptr} {l r : CTree Ptr} {x : Ptr} {c : Color} {m : Nat}
    (h : At s z (.node l x c r)) (hb : Balanced (z.plug (.node l x c r)) .black m)
    (hc : r.toList.length ≤ s.count + 1) :
    ∃ s' z' t d y cy n, (rbTakeOut x).run s = some ((rootPtr t, upPtr z', colorBit cy), s') ∧ s'.count = s.count ∧
      At s' z' t ∧ Balanced (.mk d .leaf y cy t) cy n ∧ Zip.Fits z' cy n ∧
      (z'.plug t).toList = z.before ++ (l.toList ++ r.toList) ++ z.after := by
  obtain ⟨n, hbn, hzn⟩ := Zip.Fits.of_plug hb
  have hcr : s.child .right x = rootPtr r := h.child_far (d := .left)
  simp only [rbTakeOut, StateT.run_bind, run_rbChild (h.ne_zero (d := .left)), h.child_near (d := .left), hcr,
    Option.bind_eq_bind, Option.bind_some]
  by_cases hl : l = .leaf
  · subst hl
    refine ⟨_, z, r, .left, x, c, n, ?_, count_unlinked .., h.unlink (d := .left), hbn, hzn, by
      rw [Zip.toList_plug]; simp⟩
    rw [rootPtr_leaf, if_pos rfl, StateT.run_bind, rbUnlink_run (d := .left) h]
    rfl
  rw [if_neg (h.near (d := .left) |>.rep.rootPtr_ne_zero hl)]
  by_cases hr : r = .leaf
  · subst hr
    refine ⟨_, z, l, .right, x, c, n, ?_, count_unlinked .., h.unlink (d := .right), hbn, hzn, by
      rw [Zip.toList_plug]; simp⟩
    rw [rootPtr_leaf, if_pos rfl, StateT.run_bind, rbUnlink_run (d := .right) h]
    rfl
  rw [if_neg (h.down_far (d := .left) |>.rep.rootPtr_ne_zero hr)]
  obtain ⟨s', zr, y, cy, r', rfl, hleft, hoff, hrun, h'⟩ := rbSplice_run h hl hr hc
  have hbef := Zip.before_eq_nil hleft
  have hb' : Balanced (Zip.plug (zr ++ ⟨.right, x, c, l⟩ :: z) (.node .leaf y cy r')) .black m := by
    rw [Zip.plug_append]
    exact hb
  obtain ⟨k, hbk, hzk⟩ := Zip.Fits.of_plug hb'
  refine ⟨s', _, r', .left, y, cy, k, hrun, hoff.count, h', hbk, hzk.relabel y, ?_⟩
  rw [Zip.plug_append]
  simp [Zip.plug, Zip.toList_plug, CTree.mk, hbef]

/-- `aosl_rb_erase` takes the node out of the in-order sequence. -/
theorem aoslRbErase_run {s : RbSt} {l : List Ptr} {x : Ptr} (h : IsRb s l) (hx : x ∈ l) :
    ∃ s', (aoslRbErase x).run s = some ((), s') ∧ IsRb s' (l.erase x) := by
  obtain ⟨t, m, hat, hb, rfl, hc⟩ := h
  obtain ⟨z, a, c, b, rfl⟩ := Zip.exists_plug_of_mem hx
  have h := At.plug_iff.2 hat
  have hlen := (Zip.perm_labels z (.node a x c b)).length_eq
  simp only [toList_node, List.length_append, List.length_cons] at hlen
  obtain ⟨s₁, z₁, t₁, d, y, cy, n, r₁, c₁, h₁, hb₁, hz₁, hl₁⟩ := rbTakeOut_run h hb (by omega)
  have hlen₁ := (Zip.perm_labels z₁ t₁).length_eq
  have hle := z₁.length_le_labels
  have herase : (z.plug (.node a x c b)).toList.erase x = (z₁.plug t₁).toList := by
    have hn := h.nodup_mk (d := .left)
    simp only [List.nodup_cons, List.mem_append, Zip.mem_labels_iff, not_or] at hn
    obtain ⟨⟨⟨hxa, -⟩, hxz, -⟩, -⟩ := hn
    have hsplit : (z.plug (.node a x c b)).toList = (z.before ++ a.toList) ++ x :: (b.toList ++ z.after) := by
      simp [Zip.toList_plug]
    rw [hsplit, List.erase_append_right _ (by simp [hxz, hxa]), List.erase_cons_head, hl₁]
    simp
  have hlist : s.count = (z₁.plug t₁).toList.length + 1 := by
    rw [← herase, List.length_erase_of_mem hx]
    omega
  obtain ⟨s₂, t₂, m₂, r₂, c₂, h₂, hb₂, ht₂⟩ := rbEraseColor_of_unlinked h₁ hb₁ hz₁ (by
    rw [List.length_append] at hlen₁; omega)
  refine ⟨{ s₂ with count := s₂.count - 1 }, ?_, t₂, m₂, h₂.setCount _, hb₂, ht₂.trans herase.symm, ?_⟩
  · have : (aoslRbErase x).run s = StateT.run ((if colorBit cy = colorBit .black then
        rbEraseColor (rootPtr t₁) (upPtr z₁) else pure ()) >>= fun _ =>
          modify fun s => { s with count := s.count - 1 }) s₁ := by
      rw [aoslRbErase, StateT.run_bind, r₁]
      by_cases hcy : colorBit cy = colorBit .black
      · simp only [Option.bind_eq_bind, Option.bind_some, if_pos hcy]
      · simp only [Option.bind_eq_bind, Option.bind_some, if_neg hcy, pure_bind]
    rw [this, StateT.run_bind, r₂]
    rfl
  · rw [herase]
    simp only
    omega

end Aosl
