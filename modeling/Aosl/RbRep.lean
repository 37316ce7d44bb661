import Aosl.Rbtree

/-!
# The tree in memory

`Rep s par t` says that the memory `s` holds the tree `t` below a node `par`: child fields, parent
links and colours. `At s z t` splits the whole tree at a subtree `t` with path `z`; its nodes are
distinct. The focus can be moved freely (`At.up`, `At.down`), and the writes of the fix-up loops are
local at the focus: `At.recolor` for a colour, `At.rotate` for a rotation.
-/

namespace Aosl
open Lib Lib.CTree

/-- The packed word of a node with parent `par` and colour `c`. -/
def pack (par : Ptr) (c : Color) : Nat := 4 * par + colorBit c

@[simp] theorem pack_div (par : Ptr) (c : Color) : pack par c / 4 = par := by
  cases c <;> simp only [pack, colorBit] <;> omega

@[simp] theorem pack_mod_two (par : Ptr) (c : Color) : pack par c % 2 = colorBit c := by
  cases c <;> simp only [pack, colorBit] <;> omega

@[simp] theorem pack_mod_four (par : Ptr) (c : Color) : pack par c % 4 = colorBit c := by
  cases c <;> simp only [pack, colorBit] <;> omega

theorem pack_setColor (par : Ptr) (c c' : Color) :
    pack par c - colorBit c + colorBit c' = pack par c' := by
  simp only [pack]; omega

@[simp] theorem colorBit_eq_zero {c : Color} : colorBit c = 0 ↔ c = .red := by
  cases c <;> simp [colorBit]

@[simp] theorem colorBit_eq_one {c : Color} : colorBit c = 1 ↔ c = .black := by
  cases c <;> simp [colorBit]

/-- The address of the root node, `NULL` for a leaf. -/
def rootPtr : CTree Ptr → Ptr
  | .leaf => 0
  | .node _ p _ _ => p

@[simp] theorem rootPtr_leaf : rootPtr .leaf = 0 := rfl

@[simp] theorem rootPtr_mk (d : Side) (a : CTree Ptr) (p : Ptr) (c : Color) (b : CTree Ptr) :
    rootPtr (.mk d a p c b) = p := by cases d <;> rfl

/-- The memory holds the tree `t`, whose root has the parent `par`. -/
def Rep (s : RbSt) : Ptr → CTree Ptr → Prop
  | _, .leaf => True
  | par, .node l p c r => p ≠ 0 ∧ s.child .left p = rootPtr l ∧ s.child .right p = rootPtr r ∧
      s.rbParentColor p = pack par c ∧ Rep s p l ∧ Rep s p r

/-- The node above the hole of a path, `NULL` at the root. -/
def upPtr : Zip Ptr → Ptr
  | [] => 0
  | f :: _ => f.x

/-- The side on which the hole hangs below `upPtr`. -/
def upSide : Zip Ptr → Side
  | [] => .left
  | f :: _ => f.side

/-- The memory holds the path `z` with the node `h` in its hole. -/
def ZRep (s : RbSt) : Zip Ptr → Ptr → Prop
  | [], h => s.rbNode = h
  | f :: z, h => f.x ≠ 0 ∧ s.child f.side f.x = h ∧ s.child f.side.flip f.x = rootPtr f.sib ∧
      s.rbParentColor f.x = pack (upPtr z) f.c ∧ Rep s f.x f.sib ∧ ZRep s z f.x

/-- The memory holds the tree `z.plug t`, seen at its subtree `t`. -/
structure At (s : RbSt) (z : Zip Ptr) (t : CTree Ptr) : Prop where
  rep : Rep s (upPtr z) t
  zrep : ZRep s z (rootPtr t)
  nodup : (t.toList ++ z.labels).Nodup

/-- The memory only changed at the nodes `l`. -/
structure SameOff (l : List Ptr) (s s' : RbSt) : Prop where
  count : s'.count = s.count
  child : ∀ q ∉ l, ∀ d, s'.child d q = s.child d q
  parentColor : ∀ q ∉ l, s'.rbParentColor q = s.rbParentColor q

theorem SameOff.trans {l : List Ptr} {s s' s'' : RbSt} (h : SameOff l s s') (h' : SameOff l s' s'') : SameOff l s s'' where
  count := h'.count.trans h.count
  child q hq d := (h'.child q hq d).trans (h.child q hq d)
  parentColor q hq := (h'.parentColor q hq).trans (h.parentColor q hq)

theorem SameOff.mono {l l' : List Ptr} {s s' : RbSt} (h : SameOff l s s') (hl : l ⊆ l') : SameOff l' s s' where
  count := h.count
  child q hq := h.child q fun hm => hq (hl hm)
  parentColor q hq := h.parentColor q fun hm => hq (hl hm)

section frame

variable {s : RbSt} {par p v h : Ptr} {w : Nat} {d : Side} {t : CTree Ptr} {z : Zip Ptr}

theorem rep_mk {a b : CTree Ptr} {c : Color} (d : Side) : Rep s par (.mk d a p c b) ↔
    p ≠ 0 ∧ s.child d p = rootPtr a ∧ s.child d.flip p = rootPtr b ∧ s.rbParentColor p = pack par c ∧
      Rep s p a ∧ Rep s p b := by
  cases d
  · exact Iff.rfl
  · simp only [CTree.mk, Rep, Side.flip]
    tauto

theorem Rep.congr {s' : RbSt} (hc : ∀ q ∈ t.toList, ∀ d, s'.child d q = s.child d q)
    (hp : ∀ q ∈ t.toList, s'.rbParentColor q = s.rbParentColor q) (h : Rep s par t) : Rep s' par t := by
  induction t generalizing par with
  | leaf => trivial
  | node l q c r ihl ihr =>
    obtain ⟨h0, hl, hr, hpc, hL, hR⟩ := h
    have hq : q ∈ (CTree.node l q c r).toList := by simp
    refine ⟨h0, by rw [hc q hq, hl], by rw [hc q hq, hr], by rw [hp q hq, hpc], ihl ?_ ?_ hL, ihr ?_ ?_ hR⟩
    · exact fun q' hq' => hc q' (by simp [hq'])
    · exact fun q' hq' => hp q' (by simp [hq'])
    · exact fun q' hq' => hc q' (by simp [hq'])
    · exact fun q' hq' => hp q' (by simp [hq'])

theorem ZRep.congr {s' : RbSt} (hc : ∀ q ∈ z.labels, ∀ d, s'.child d q = s.child d q)
    (hp : ∀ q ∈ z.labels, s'.rbParentColor q = s.rbParentColor q) (hr : s'.rbNode = s.rbNode)
    (h : ZRep s z v) : ZRep s' z v := by
  induction z generalizing v with
  | nil => exact hr.trans h
  | cons f z ih =>
    obtain ⟨h0, h1, h2, h3, h4, h5⟩ := h
    have hx : f.x ∈ Zip.labels (f :: z) := by simp [Zip.labels]
    refine ⟨h0, by rw [hc _ hx, h1], by rw [hc _ hx, h2], by rw [hp _ hx, h3], h4.congr ?_ ?_, ih ?_ ?_ h5⟩
    · exact fun q hq => hc q (by simp [Zip.labels, hq])
    · exact fun q hq => hp q (by simp [Zip.labels, hq])
    · exact fun q hq => hc q (by simp [Zip.labels, hq])
    · exact fun q hq => hp q (by simp [Zip.labels, hq])

theorem Rep.rootPtr_ne_zero (h : Rep s par t) (ht : t ≠ .leaf) : rootPtr t ≠ 0 := by
  cases t with
  | leaf => exact absurd rfl ht
  | node l q c r => exact h.1

theorem Rep.rootPtr_eq_zero (h : Rep s par t) : rootPtr t = 0 ↔ t = .leaf := by
  cases t with
  | leaf => simp
  | node l q c r => simpa [rootPtr] using h.1

theorem rootPtr_mem (h : rootPtr t ≠ 0) : rootPtr t ∈ t.toList := by
  cases t with
  | leaf => exact absurd rfl h
  | node l q c r => simp [rootPtr]

theorem Rep.setParent {par' : Ptr} {s' : RbSt} (hn : t.toList.Nodup)
    (hc : ∀ q ∈ t.toList, ∀ d, s'.child d q = s.child d q)
    (hp : ∀ q ∈ t.toList, q ≠ rootPtr t → s'.rbParentColor q = s.rbParentColor q)
    (hr : rootPtr t ≠ 0 → s'.rbParentColor (rootPtr t) = 4 * par' + s.rbParentColor (rootPtr t) % 4)
    (h : Rep s par t) : Rep s' par' t := by
  cases t with
  | leaf => trivial
  | node l q c r =>
    obtain ⟨h0, hl, hr', hpc, hL, hR⟩ := h
    obtain ⟨-, ⟨hqr, -⟩, hd⟩ : l.toList.Nodup ∧ (q ∉ r.toList ∧ r.toList.Nodup) ∧
        ∀ a ∈ l.toList, a ≠ q ∧ ∀ b ∈ r.toList, a ≠ b := by simpa [List.nodup_append] using hn
    have hq : q ∈ (CTree.node l q c r).toList := by simp
    refine ⟨h0, by rw [hc q hq, hl], by rw [hc q hq, hr'], ?_, hL.congr ?_ ?_, hR.congr ?_ ?_⟩
    · rw [show q = rootPtr (.node l q c r) from rfl, hr h0]
      simp only [rootPtr, hpc, pack_mod_four]
      rfl
    · exact fun q' hq' => hc q' (by simp [hq'])
    · exact fun q' hq' => hp q' (by simp [hq']) (hd q' hq').1
    · exact fun q' hq' => hc q' (by simp [hq'])
    · exact fun q' hq' => hp q' (by simp [hq']) (ne_of_mem_of_not_mem hq' hqr)

theorem upPtr_mem (h : upPtr z ≠ 0) : upPtr z ∈ z.labels := by
  cases z with
  | nil => exact absurd rfl h
  | cons f z => simp [upPtr, Zip.labels]

theorem ZRep.upPtr_eq_zero (h : ZRep s z v) : upPtr z = 0 ↔ z = [] := by
  cases z with
  | nil => simp [upPtr]
  | cons f z => simpa [upPtr] using h.1

theorem ZRep.rbNode_mem (h : ZRep s z v) (hz : z ≠ []) : s.rbNode ∈ z.labels ∧ s.rbNode ≠ 0 := by
  induction z generalizing v with
  | nil => exact absurd rfl hz
  | cons f z ih =>
    obtain ⟨h0, -, -, -, -, h5⟩ := h
    cases z with
    | nil => rw [show s.rbNode = f.x from h5]; exact ⟨by simp [Zip.labels], h0⟩
    | cons f' z =>
      obtain ⟨hm, hn⟩ := ih h5 (List.cons_ne_nil _ _)
      exact ⟨List.mem_cons_of_mem _ (List.mem_append_right _ hm), hn⟩

theorem ZRep.replace {s' : RbSt} {v' : Ptr} (hn : z.labels.Nodup)
    (hc : ∀ q ∈ z.labels, ∀ g, s'.child g q = if q = upPtr z ∧ g = upSide z then v' else s.child g q)
    (hp : ∀ q ∈ z.labels, s'.rbParentColor q = s.rbParentColor q)
    (hr : s'.rbNode = if upPtr z = 0 then v' else s.rbNode) (h : ZRep s z v) : ZRep s' z v' := by
  cases z with
  | nil => exact hr
  | cons f z =>
    obtain ⟨h0, h1, h2, h3, h4, h5⟩ := h
    have hx : f.x ∈ Zip.labels (f :: z) := by simp [Zip.labels]
    have hxn : f.x ∉ f.sib.toList ++ Zip.labels z := (List.nodup_cons.1 hn).1
    have hc' : ∀ q ∈ f.sib.toList ++ Zip.labels z, ∀ g, s'.child g q = s.child g q := fun q hq g => by
      rw [hc q (List.mem_cons_of_mem _ hq), if_neg (by rintro ⟨rfl, -⟩; exact hxn hq)]
    refine ⟨h0, ?_, ?_, by rw [hp _ hx, h3], h4.congr ?_ ?_, h5.congr ?_ ?_ ?_⟩
    · rw [hc _ hx, if_pos ⟨rfl, rfl⟩]
    · rw [hc _ hx, if_neg fun hh => Side.flip_ne _ hh.2, h2]
    · exact fun q hq => hc' q (List.mem_append_left _ hq)
    · exact fun q hq => hp q (by simp [Zip.labels, hq])
    · exact fun q hq => hc' q (List.mem_append_right _ hq)
    · exact fun q hq => hp q (by simp [Zip.labels, hq])
    · simpa [upPtr, h0] using hr

end frame

/-! ### Running the field accesses -/

section run

variable {s : RbSt} {p v : Ptr} {d : Side}

@[simp] theorem run_deref (h : p ≠ 0) : (deref p).run s = some ((), s) := by
  simp only [deref, if_neg h]
  rfl

@[simp] theorem run_rbChild (h : p ≠ 0) : (rbChild d p).run s = some (s.child d p, s) := by
  simp [rbChild, h]

@[simp] theorem run_setRbChild (h : p ≠ 0) : (setRbChild d p v).run s = some ((), s.setChild d p v) := by
  simp [setRbChild, h]

@[simp] theorem run_getParentColor (h : p ≠ 0) : (getParentColor p).run s = some (s.rbParentColor p, s) := by
  simp [getParentColor, h]

@[simp] theorem run_setParentColor {w : Nat} (h : p ≠ 0) :
    (setParentColor p w).run s = some ((), s.setPc p w) := by
  simp [setParentColor, h]

@[simp] theorem run_rbParent (h : p ≠ 0) : (rbParent p).run s = some (s.rbParentColor p / 4, s) := by
  simp [rbParent, h]

@[simp] theorem run_rbColor (h : p ≠ 0) : (rbColor p).run s = some (s.rbParentColor p % 2, s) := by
  simp [rbColor, h]

@[simp] theorem run_rbIsRed (h : p ≠ 0) :
    (rbIsRed p).run s = some (s.rbParentColor p % 2 == 0, s) := by
  simp [rbIsRed, h]

@[simp] theorem run_rbIsBlack (h : p ≠ 0) :
    (rbIsBlack p).run s = some (!(s.rbParentColor p % 2 == 0), s) := by
  simp [rbIsBlack, h]

@[simp] theorem run_rbSetColor {c : Nat} (h : p ≠ 0) : (rbSetColor p c).run s =
    some ((), s.setPc p (s.rbParentColor p - s.rbParentColor p % 2 + c)) := by
  simp [rbSetColor, h]

@[simp] theorem run_rbSetParent (h : p ≠ 0) :
    (rbSetParent p v).run s = some ((), s.setPc p (4 * v + s.rbParentColor p % 4)) := by
  simp [rbSetParent, h]

@[simp] theorem run_setRbNode : (setRbNode p).run s = some ((), { s with rbNode := p }) := rfl

@[simp] theorem child_setChild {e : Side} {q : Ptr} :
    (s.setChild d p v).child e q = if e = d ∧ q = p then v else s.child e q := rfl

@[simp] theorem child_setPc {w : Nat} : (s.setPc p w).child = s.child := rfl

@[simp] theorem rbParentColor_setChild : (s.setChild d p v).rbParentColor = s.rbParentColor := rfl

@[simp] theorem rbParentColor_setPc {w : Nat} {q : Ptr} :
    (s.setPc p w).rbParentColor q = if q = p then w else s.rbParentColor q := rfl

@[simp] theorem rbNode_setChild : (s.setChild d p v).rbNode = s.rbNode := rfl

@[simp] theorem rbNode_setPc {w : Nat} : (s.setPc p w).rbNode = s.rbNode := rfl

@[simp] theorem count_setChild : (s.setChild d p v).count = s.count := rfl

@[simp] theorem count_setPc {w : Nat} : (s.setPc p w).count = s.count := rfl

@[simp] theorem run_rbSetParentOpt : (rbSetParentOpt p v).run s =
    some ((), if p = 0 then s else s.setPc p (4 * v + s.rbParentColor p % 4)) := by
  by_cases h : p = 0
  · simp only [rbSetParentOpt, if_pos h]
    rfl
  · simp only [rbSetParentOpt, if_neg h, run_rbSetParent h]

/-- `rbReplaceChild` for a `node` that is the child on side `e` and not the other child. -/
theorem run_rbReplaceChild {e : Side} {par x y : Ptr}
    (he : par ≠ 0 → s.child e par = x ∧ s.child e.flip par ≠ x) : (rbReplaceChild d par x y).run s =
      some ((), if par = 0 then { s with rbNode := y } else s.setChild e par y) := by
  by_cases hp : par = 0
  · simp only [rbReplaceChild, if_pos hp, run_setRbNode]
  · obtain ⟨he1, he2⟩ := he hp
    simp only [rbReplaceChild, if_neg hp, StateT.run_bind, run_rbChild hp, Option.bind_eq_bind,
      Option.bind_some]
    by_cases hde : d = e
    · rw [if_pos (hde ▸ he1), run_setRbChild hp, hde]
    · obtain rfl := Side.eq_flip_of_ne hde
      rw [if_neg he2, run_setRbChild hp, Side.flip_flip]

end run

theorem rbRotate_run {s : RbSt} {d e : Side} {x y par rl : Ptr} (hx : x ≠ 0) (hy : y ≠ 0) (hxy : x ≠ y)
    (h1 : s.child d.flip x = y) (h2 : s.rbParentColor x / 4 = par) (h3 : s.child d y = rl)
    (hpx : par ≠ x) (hpy : par ≠ y) (hrx : rl ≠ x) (hry : rl ≠ y)
    (he : par ≠ 0 → s.child e par = x ∧ s.child e.flip par ≠ x) :
    ∃ s', (rbRotate d x).run s = some ((), s') ∧ s'.count = s.count ∧
      s'.rbNode = (if par = 0 then y else s.rbNode) ∧
      (∀ f q, s'.child f q = if q = x ∧ f = d.flip then rl else if q = y ∧ f = d then x
        else if par ≠ 0 ∧ q = par ∧ f = e then y else s.child f q) ∧
      ∀ q, s'.rbParentColor q = if q = x then 4 * y + s.rbParentColor x % 4
        else if q = y then 4 * par + s.rbParentColor y % 4
        else if rl ≠ 0 ∧ q = rl then 4 * x + s.rbParentColor rl % 4 else s.rbParentColor q := by
  simp only [rbRotate, StateT.run_bind, run_rbChild hx, h1, Option.bind_eq_bind, Option.bind_some,
    run_rbParent hx, h2, run_rbChild hy, h3, run_setRbChild hx, run_setRbChild hy, run_rbSetParentOpt,
    run_rbSetParent hy]
  rw [run_rbReplaceChild (e := e)]
  · simp only [Option.bind_some, run_rbSetParent hx]
    refine ⟨_, rfl, ?_, ?_, fun f q => ?_, fun q => ?_⟩
    · by_cases hr : rl = 0 <;> by_cases hp : par = 0 <;> simp [hr, hp]
    · by_cases hr : rl = 0 <;> by_cases hp : par = 0 <;> simp [hr, hp]
    · by_cases hr : rl = 0 <;> by_cases hp : par = 0 <;> simp [hr, hp] <;> grind
    · by_cases hr : rl = 0 <;> by_cases hp : par = 0 <;> simp [hr, hp] <;> grind
  · intro hp
    by_cases hr : rl = 0 <;> simp [hr, he hp, hpx, hpy]

namespace At

variable {s : RbSt} {z : Zip Ptr} {d : Side} {a b e : CTree Ptr} {x y : Ptr} {c c' : Color}

theorem up_iff : At s (⟨d, x, c, b⟩ :: z) a ↔ At s z (.mk d a x c b) := by
  have hn : (a.toList ++ Zip.labels (⟨d, x, c, b⟩ :: z)).Nodup ↔ ((CTree.mk d a x c b).toList ++ z.labels).Nodup := by
    refine ((List.Perm.append_right _ (toList_mk_perm d a x c b)).nodup_iff.trans ?_).symm
    refine List.Perm.nodup_iff ?_
    simpa [Zip.labels] using List.perm_middle.symm
  constructor
  · rintro ⟨hr, ⟨h0, h1, h2, h3, h4, h5⟩, hnd⟩
    exact ⟨(rep_mk d).2 ⟨h0, h1, h2, h3, hr, h4⟩, by rwa [rootPtr_mk], hn.1 hnd⟩
  · rintro ⟨hr, hz, hnd⟩
    obtain ⟨h0, h1, h2, h3, h4, h5⟩ := (rep_mk d).1 hr
    rw [rootPtr_mk] at hz
    exact ⟨h4, ⟨h0, h1, h2, h3, h5, hz⟩, hn.2 hnd⟩

theorem down_far (h : At s z (.mk d a x c b)) : At s (⟨d.flip, x, c, a⟩ :: z) b := by
  rw [up_iff, mk_flip]
  exact h

theorem plug_iff {t : CTree Ptr} : At s z t ↔ At s [] (z.plug t) := by
  induction z generalizing t with
  | nil => exact Iff.rfl
  | cons f z ih => exact up_iff.trans ih

theorem append_iff {z' : Zip Ptr} {t : CTree Ptr} : At s (z' ++ z) t ↔ At s z (z'.plug t) := by
  rw [plug_iff, Zip.plug_append, ← plug_iff]

theorem ne_zero (h : At s z (.mk d a x c b)) : x ≠ 0 := ((rep_mk d).1 h.rep).1

theorem child_near (h : At s z (.mk d a x c b)) : s.child d x = rootPtr a := ((rep_mk d).1 h.rep).2.1

theorem child_far (h : At s z (.mk d a x c b)) : s.child d.flip x = rootPtr b :=
  ((rep_mk d).1 h.rep).2.2.1

theorem parentColor (h : At s z (.mk d a x c b)) : s.rbParentColor x = pack (upPtr z) c :=
  ((rep_mk d).1 h.rep).2.2.2.1

theorem near (h : At s z (.mk d a x c b)) : At s (⟨d, x, c, b⟩ :: z) a := up_iff.2 h

theorem nodup_mk (h : At s z (.mk d a x c b)) : (x :: (a.toList ++ b.toList ++ z.labels)).Nodup :=
  (List.Perm.append_right _ (toList_mk_perm d a x c b)).nodup_iff.1 h.nodup

theorem recolor (h : At s z (.mk d a x c b)) (c' : Color) :
    At (s.setPc x (pack (upPtr z) c')) z (.mk d a x c' b) := by
  have hn := h.nodup_mk
  obtain ⟨hr, hz, hnd⟩ := h
  obtain ⟨h0, h1, h2, h3, h4, h5⟩ := (rep_mk d).1 hr
  have hx : x ∉ a.toList ++ b.toList ++ z.labels := (List.nodup_cons.1 hn).1
  simp only [List.mem_append, not_or] at hx
  refine ⟨(rep_mk d).2 ⟨h0, h1, h2, by simp, h4.congr ?_ ?_, h5.congr ?_ ?_⟩, ?_, ?_⟩
  · exact fun _ _ _ => rfl
  · exact fun q hq => by simp [ne_of_mem_of_not_mem hq hx.1.1]
  · exact fun _ _ _ => rfl
  · exact fun q hq => by simp [ne_of_mem_of_not_mem hq hx.1.2]
  · rw [rootPtr_mk] at hz ⊢
    refine hz.congr ?_ ?_ ?_
    · exact fun _ _ _ => rfl
    · exact fun q hq => by simp [ne_of_mem_of_not_mem hq hx.2]
    · rfl
  · rwa [toList_recolor d a b x c' c]

theorem upPtr_child (h : At s z (.mk d a x c b)) (h0 : upPtr z ≠ 0) :
    s.child (upSide z) (upPtr z) = x ∧ s.child (upSide z).flip (upPtr z) ≠ x := by
  cases z with
  | nil => exact absurd rfl h0
  | cons f z =>
    obtain ⟨-, h1, h2, -, -, -⟩ := h.zrep
    rw [rootPtr_mk] at h1
    refine ⟨h1, fun he => ?_⟩
    have hx : x ∈ f.sib.toList := by
      have h3 : rootPtr f.sib = x := h2.symm.trans he
      rw [← h3]
      exact rootPtr_mem (h3 ▸ h.ne_zero)
    have hn := h.nodup_mk
    simp [Zip.labels, hx] at hn

theorem nodup_rotate (h : At s z (.mk d a x c (.mk d b y c' e))) :
    (x :: (a.toList ++ (y :: (b.toList ++ e.toList)) ++ z.labels)).Nodup := by
  refine List.Perm.nodup_iff ?_ |>.1 h.nodup_mk
  exact List.Perm.cons _ (((toList_mk_perm d b y c' e).append_left _).append_right _)

theorem rotate_fields (h : At s z (.mk d a x c (.mk d b y c' e))) :
    ∃ s', (rbRotate d x).run s = some ((), s') ∧ s'.count = s.count ∧
      s'.rbNode = (if upPtr z = 0 then y else s.rbNode) ∧
      (∀ f q, s'.child f q = if q = x ∧ f = d.flip then rootPtr b else if q = y ∧ f = d then x
        else if upPtr z ≠ 0 ∧ q = upPtr z ∧ f = upSide z then y else s.child f q) ∧
      ∀ q, s'.rbParentColor q = if q = x then 4 * y + s.rbParentColor x % 4
        else if q = y then 4 * upPtr z + s.rbParentColor y % 4
        else if rootPtr b ≠ 0 ∧ q = rootPtr b then 4 * x + s.rbParentColor (rootPtr b) % 4 else s.rbParentColor q := by
  have hy := h.down_far
  have hn := h.nodup_rotate
  simp only [List.nodup_cons, List.nodup_append, List.mem_append, List.mem_cons, not_or] at hn
  obtain ⟨⟨⟨-, hxy, hxb, -⟩, hxz⟩, ⟨-, ⟨⟨hyb, -⟩, -⟩, -⟩, -, hd⟩ := hn
  have hup : ∀ q, q ∉ z.labels → q ≠ 0 → upPtr z ≠ q := fun q hq h0 he =>
    hq (he ▸ upPtr_mem (he ▸ h0))
  have hrt : ∀ q, q ∉ b.toList → q ≠ 0 → rootPtr b ≠ q := fun q hq h0 he =>
    hq (he ▸ rootPtr_mem (he ▸ h0))
  have hyz : y ∉ z.labels := fun hq => hd y (.inr (.inl rfl)) y hq rfl
  exact rbRotate_run (e := upSide z) h.ne_zero hy.ne_zero hxy
    (by rw [h.child_far, rootPtr_mk]) (by rw [h.parentColor, pack_div]) hy.child_near
    (hup x hxz h.ne_zero) (hup y hyz hy.ne_zero) (hrt x hxb h.ne_zero) (hrt y hyb hy.ne_zero) h.upPtr_child

/-- A rotation at the focus. -/
theorem rotate (h : At s z (.mk d a x c (.mk d b y c' e))) :
    ∃ s', (rbRotate d x).run s = some ((), s') ∧ s'.count = s.count ∧
      At s' z (.mk d (.mk d a x c b) y c' e) := by
  have hy := h.down_far
  have hn := h.nodup_rotate
  simp only [List.nodup_cons, List.nodup_append, List.mem_append, List.mem_cons, not_or] at hn
  obtain ⟨⟨⟨hxa, hxy, hxb, hxe⟩, hxz⟩, ⟨hna, ⟨⟨hyb, hye⟩, hnb, hne, hbe⟩, hab⟩, hnz, hd⟩ := hn
  have hyz : y ∉ z.labels := fun hq => hd y (.inr (.inl rfl)) y hq rfl
  obtain ⟨s', hrun, hcnt, hroot, hchild, hpc⟩ := h.rotate_fields
  have hcf : ∀ q, q ≠ x → q ≠ y → q ∉ z.labels → ∀ g, s'.child g q = s.child g q := fun q h1 h2 h3 g => by
    rw [hchild, if_neg fun hh => h1 hh.1, if_neg fun hh => h2 hh.1,
      if_neg (by rintro ⟨h0, rfl, -⟩; exact h3 (upPtr_mem h0))]
  have hpf : ∀ q, q ≠ x → q ≠ y → q ∉ b.toList → s'.rbParentColor q = s.rbParentColor q :=
    fun q h1 h2 h3 => by
      rw [hpc, if_neg h1, if_neg h2, if_neg (by rintro ⟨h0, rfl⟩; exact h3 (rootPtr_mem h0))]
  have hda : ∀ q ∈ a.toList, q ≠ x ∧ q ≠ y ∧ q ∉ z.labels ∧ q ∉ b.toList := fun q hq =>
    ⟨ne_of_mem_of_not_mem hq hxa, hab q hq y (.inl rfl), fun hz => hd q (.inl hq) q hz rfl,
      fun hb => hab q hq q (.inr (.inl hb)) rfl⟩
  have hdb : ∀ q ∈ b.toList, q ≠ x ∧ q ≠ y ∧ q ∉ z.labels := fun q hq =>
    ⟨ne_of_mem_of_not_mem hq hxb, ne_of_mem_of_not_mem hq hyb, fun hz => hd q (.inr (.inr (.inl hq))) q hz rfl⟩
  have hde : ∀ q ∈ e.toList, q ≠ x ∧ q ≠ y ∧ q ∉ z.labels ∧ q ∉ b.toList := fun q hq =>
    ⟨ne_of_mem_of_not_mem hq hxe, ne_of_mem_of_not_mem hq hye, fun hz => hd q (.inr (.inr (.inr hq))) q hz rfl,
      fun hb => hbe q hb q hq rfl⟩
  obtain ⟨-, hca, -, hpx, hra, -⟩ := (rep_mk d).1 h.rep
  obtain ⟨-, hcb, hce, hpy, hrb, hre⟩ := (rep_mk d).1 hy.rep
  refine ⟨s', hrun, hcnt, ?_, ?_, by rw [← toList_rotate]; exact h.nodup⟩
  · refine (rep_mk d).2 ⟨hy.ne_zero, ?_, ?_, ?_, (rep_mk d).2 ⟨h.ne_zero, ?_, ?_, ?_, ?_, ?_⟩, ?_⟩
    · rw [hchild, if_neg fun hh => hxy hh.1.symm, if_pos ⟨rfl, rfl⟩, rootPtr_mk]
    · rw [hchild, if_neg fun hh => hxy hh.1.symm, if_neg fun hh => Side.flip_ne d hh.2,
        if_neg (by rintro ⟨h0, rfl, -⟩; exact hyz (upPtr_mem h0)), hce]
    · rw [hpc, if_neg (Ne.symm hxy), if_pos rfl, hpy, pack_mod_four, pack]
    · rw [hchild, if_neg fun hh => Side.ne_flip d hh.2, if_neg fun hh => hxy hh.1,
        if_neg (by rintro ⟨h0, rfl, -⟩; exact hxz (upPtr_mem h0)), hca]
    · rw [hchild, if_pos ⟨rfl, rfl⟩]
    · rw [hpc, if_pos rfl, hpx, pack_mod_four, pack]
    · exact hra.congr (fun q hq => hcf q (hda q hq).1 (hda q hq).2.1 (hda q hq).2.2.1)
        (fun q hq => hpf q (hda q hq).1 (hda q hq).2.1 (hda q hq).2.2.2)
    · refine hrb.setParent hnb (fun q hq => hcf q (hdb q hq).1 (hdb q hq).2.1 (hdb q hq).2.2) ?_ ?_
      · intro q hq hne
        rw [hpc, if_neg (hdb q hq).1, if_neg (hdb q hq).2.1, if_neg fun hh => hne hh.2]
      · intro h0
        rw [hpc, if_neg (hdb _ (rootPtr_mem h0)).1, if_neg (hdb _ (rootPtr_mem h0)).2.1, if_pos ⟨h0, rfl⟩]
    · exact hre.congr (fun q hq => hcf q (hde q hq).1 (hde q hq).2.1 (hde q hq).2.2.1)
        (fun q hq => hpf q (hde q hq).1 (hde q hq).2.1 (hde q hq).2.2.2)
  · have hz := h.zrep
    rw [rootPtr_mk] at hz ⊢
    have hzq : ∀ q ∈ z.labels, q ≠ x ∧ q ≠ y ∧ q ∉ b.toList := fun q hq =>
      ⟨ne_of_mem_of_not_mem hq hxz, ne_of_mem_of_not_mem hq hyz, fun hb => hd q (.inr (.inr (.inl hb))) q hq rfl⟩
    refine hz.replace hnz (fun q hq g => ?_) (fun q hq => hpf q (hzq q hq).1 (hzq q hq).2.1 (hzq q hq).2.2) hroot
    rw [hchild, if_neg fun hh => (hzq q hq).1 hh.1, if_neg fun hh => (hzq q hq).2.1 hh.1]
    by_cases hq0 : upPtr z = 0
    · have : z = [] := hz.upPtr_eq_zero.1 hq0
      subst this
      exact absurd hq (by simp [Zip.labels])
    · simp [hq0]

theorem rotate_off (h : At s z (.mk d a x c (.mk d b y c' e))) :
    ∃ s', (rbRotate d x).run s = some ((), s') ∧
      SameOff ((CTree.mk d a x c (.mk d b y c' e)).toList ++ z.labels) s s' ∧
      At s' z (.mk d (.mk d a x c b) y c' e) := by
  obtain ⟨s', hrun, hcnt, h'⟩ := h.rotate
  obtain ⟨s'', hrun', -, -, hchild, hpc⟩ := h.rotate_fields
  obtain rfl : s' = s'' := (Prod.mk.inj (Option.some.inj (hrun.symm.trans hrun'))).2
  refine ⟨s', hrun, ⟨hcnt, fun q hq g => ?_, fun q hq => ?_⟩, h'⟩ <;>
    simp only [List.mem_append, mem_toList_mk, not_or] at hq
  · rw [hchild, if_neg fun hh => hq.1.1 hh.1, if_neg fun hh => hq.1.2.2.1 hh.1,
      if_neg (by rintro ⟨h0, rfl, -⟩; exact hq.2 (upPtr_mem h0))]
  · rw [hpc, if_neg hq.1.1, if_neg hq.1.2.2.1,
      if_neg (by rintro ⟨h0, rfl⟩; exact hq.1.2.2.2.1 (rootPtr_mem h0))]

theorem rotate_flip (h : At s z (.mk d (.mk d a y c' b) x c e)) :
    ∃ s', (rbRotate d.flip x).run s = some ((), s') ∧ s'.count = s.count ∧
      At s' z (.mk d a y c' (.mk d b x c e)) := by
  rw [← mk_flip d, ← mk_flip d] at h
  obtain ⟨s', hrun, hcnt, h'⟩ := h.rotate
  exact ⟨s', hrun, hcnt, by rwa [mk_flip, mk_flip] at h'⟩

theorem setCount {t : CTree Ptr} (h : At s z t) (n : Nat) : At { s with count := n } z t :=
  ⟨h.rep.congr (s := s) (fun _ _ _ => rfl) fun _ _ => rfl,
    h.zrep.congr (s := s) (fun _ _ _ => rfl) (fun _ _ => rfl) rfl, h.nodup⟩

theorem setColor (h : At s z (.mk d a x c b)) (c' : Color) :
    ∃ s', (rbSetColor x (colorBit c')).run s = some ((), s') ∧ s'.count = s.count ∧
      At s' z (.mk d a x c' b) := by
  refine ⟨_, run_rbSetColor h.ne_zero, rfl, ?_⟩
  rw [h.parentColor, pack_mod_two, pack_setColor]
  exact h.recolor c'

theorem setColor_near {d' : Side} (h : At s z (.mk d (.mk d' a x c b) y c' e)) (c'' : Color) :
    ∃ s', (rbSetColor x (colorBit c'')).run s = some ((), s') ∧ s'.count = s.count ∧
      At s' z (.mk d (.mk d' a x c'' b) y c' e) := by
  obtain ⟨s', hrun, hcnt, h'⟩ := h.near.setColor c''
  exact ⟨s', hrun, hcnt, up_iff.1 h'⟩

theorem setColor_far {d' : Side} (h : At s z (.mk d e y c' (.mk d' a x c b))) (c'' : Color) :
    ∃ s', (rbSetColor x (colorBit c'')).run s = some ((), s') ∧ s'.count = s.count ∧
      At s' z (.mk d e y c' (.mk d' a x c'' b)) := by
  rw [← mk_flip d] at h
  obtain ⟨s', hrun, hcnt, h'⟩ := h.setColor_near c''
  exact ⟨s', hrun, hcnt, by rwa [mk_flip] at h'⟩

theorem run_isRed (h : At s z (.mk d a x c b)) : (rbIsRed x).run s = some (decide (c = .red), s) := by
  rw [run_rbIsRed h.ne_zero, h.parentColor, pack_mod_two]
  cases c <;> rfl

theorem run_parent (h : At s z (.mk d a x c b)) : (rbParent x).run s = some (upPtr z, s) := by
  rw [run_rbParent h.ne_zero, h.parentColor, pack_div]

theorem run_nonNullRed {t : CTree Ptr} (h : At s z t) :
    (nonNullRed (rootPtr t)).run s = some (decide (t.color = .red), s) := by
  obtain rfl | ⟨a, x, c, b, rfl⟩ := eq_mk_or_leaf .left t
  · rfl
  · rw [rootPtr_mk, nonNullRed, if_neg h.ne_zero, h.run_isRed, color_mk]

theorem run_nullOrBlack {t : CTree Ptr} (h : At s z t) :
    (nullOrBlack (rootPtr t)).run s = some (decide (t.color = .black), s) := by
  obtain rfl | ⟨a, x, c, b, rfl⟩ := eq_mk_or_leaf .left t
  · rfl
  · rw [rootPtr_mk, nullOrBlack, if_neg h.ne_zero, run_rbIsBlack h.ne_zero, h.parentColor,
      pack_mod_two, color_mk]
    cases c <;> rfl

theorem rootPtr_ne_rbNode {t : CTree Ptr} (h : At s z t) (hz : z ≠ []) : rootPtr t ≠ s.rbNode := by
  obtain ⟨hm, h0⟩ := h.zrep.rbNode_mem hz
  intro he
  exact (List.nodup_append.1 h.nodup).2.2 _ (rootPtr_mem (he ▸ h0)) _ hm he

theorem side_eq {t : CTree Ptr} (h : At s (⟨d, y, c', e⟩ :: z) t) (ht : t ≠ .leaf ∨ e ≠ .leaf) :
    sideOf (rootPtr t) (s.child .left y) = d := by
  obtain ⟨-, h1, h2, -, h4, -⟩ := h.zrep
  have hne : rootPtr e ≠ rootPtr t := by
    intro he
    by_cases h0 : rootPtr t = 0
    · rcases ht with ht | ht
      · exact ht (h.rep.rootPtr_eq_zero.1 h0)
      · exact ht (h4.rootPtr_eq_zero.1 (he.trans h0))
    · have hm : rootPtr t ∈ e.toList := he ▸ rootPtr_mem (he ▸ h0)
      have hn := h.nodup
      simp only [Zip.labels, List.nodup_append, List.mem_cons, List.mem_append] at hn
      exact hn.2.2 _ (rootPtr_mem h0) _ (.inr (.inl hm)) rfl
  cases d with
  | left => rw [sideOf, if_pos h1.symm]
  | right => rw [sideOf, if_neg fun hh => hne ((show s.child .left y = rootPtr e from h2).symm.trans hh.symm)]

end At

end Aosl
