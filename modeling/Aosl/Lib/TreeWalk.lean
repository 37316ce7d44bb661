import Aosl.Lib.TreeErase

/-!
# Removal during a walk

`eraseWalk` visits the nodes of a tree in postorder and takes a node out of the tree when it visits it, if the node is
idle. The tree changes on the way: the walk looks up the children of a node when it gets to them. `Walked` says what a
walk of the subtree of a node changes above it.
-/

namespace Lib

namespace CTree

variable {α : Type}

/-! ### Below -/

section
variable {t l r : CTree α} {z : Zip α} {a b p x y : α} {d e : Side} {c : Color}

theorem exists_of_below (hn : t.toList.Nodup) (h : t.Below a d b) :
    ∃ z l c r, t = Zip.plug z (mk d l a c r) ∧ b ∈ l.toList := by
  obtain ⟨z, l, c, r, rfl⟩ := Zip.exists_plug_of_mem h.mem.1
  obtain ⟨l', r', hmk⟩ := exists_mk d l a c r
  rw [hmk] at h hn ⊢
  rw [Zip.below_plug_of_mem hn ((mem_toList_mk ..).2 (.inl rfl)), below_mk_near (Zip.nodup_of_plug hn)] at h
  exact ⟨z, l', c, r', rfl, h⟩

theorem Below.trans (hn : t.toList.Nodup) (hab : t.Below a d b) (hby : t.Below b e y) : t.Below a d y := by
  obtain ⟨z, l, c, r, rfl, hb⟩ := exists_of_below hn hab
  rw [Zip.below_plug_of_mem hn ((mem_toList_mk ..).2 (.inr (.inl hb))), below_mk_of_mem (Zip.nodup_of_plug hn) hb] at hby
  rw [Zip.below_plug_of_mem hn ((mem_toList_mk ..).2 (.inl rfl)), below_mk_near (Zip.nodup_of_plug hn)]
  exact hby.mem.2

theorem not_below_self (hn : t.toList.Nodup) : ¬t.Below a d a := fun h => by
  obtain ⟨z, l, c, r, rfl, ha⟩ := exists_of_below hn h
  exact (nodup_mk.1 (Zip.nodup_of_plug hn)).1 ha

theorem not_below_flip (hn : t.toList.Nodup) (h : t.Below a d y) : ¬t.Below a d.flip y := fun h' => by
  obtain ⟨z, l, c, r, rfl, hy⟩ := exists_of_below hn h
  rw [Zip.below_plug_of_mem hn ((mem_toList_mk ..).2 (.inl rfl)), below_mk_far (Zip.nodup_of_plug hn)] at h'
  exact (nodup_mk.1 (Zip.nodup_of_plug hn)).2.2.2.2 y hy h'

def root : CTree α → Option α
  | leaf => none
  | node _ x _ _ => some x

theorem below_left_iff (hn : (Zip.plug z (node l p c r)).toList.Nodup) :
    (Zip.plug z (node l p c r)).Below p .left y ↔ y ∈ l.toList :=
  (Zip.below_plug_of_mem hn ((mem_toList_mk .left l p c r).2 (.inl rfl))).trans
    (below_mk_near (d := .left) (Zip.nodup_of_plug hn))

theorem below_right_iff (hn : (Zip.plug z (node l p c r)).toList.Nodup) :
    (Zip.plug z (node l p c r)).Below p .right y ↔ y ∈ r.toList :=
  (Zip.below_plug_of_mem hn ((mem_toList_mk .left l p c r).2 (.inl rfl))).trans
    (below_mk_far (d := .left) (Zip.nodup_of_plug hn))

/-- The nodes of the subtree of `p`. -/
def InSub (t : CTree α) (p : α) (y : α) : Prop := y = p ∨ ∃ d, t.Below p d y

theorem inSub_root (hn : t.toList.Nodup) (hr : t.root = some x) : t.InSub x y ↔ y ∈ t.toList := by
  cases t with
  | leaf => cases hr
  | node l x' c r =>
    cases hr
    have hleft := below_left_iff (z := []) (y := y) hn
    have hright := below_right_iff (z := []) (y := y) hn
    rw [InSub, toList_node, List.mem_append, List.mem_cons, ← hleft, ← hright]
    constructor
    · rintro (h | ⟨_ | _, h⟩)
      · exact .inr (.inl h)
      · exact .inl h
      · exact .inr (.inr h)
    · rintro (h | h | h)
      · exact .inr ⟨_, h⟩
      · exact .inl h
      · exact .inr ⟨_, h⟩

theorem exists_frame_of_below (hn : (Zip.plug z t).toList.Nodup) (hp : p ∈ t.toList)
    (h : (Zip.plug z t).Below a d p) : t.Below a d p ∨ ∃ f ∈ z, f.x = a ∧ f.side = d := by
  induction z generalizing t with
  | nil => exact .inl h
  | cons f z ih =>
    rcases ih hn ((mem_toList_mk ..).2 (.inr (.inl hp))) h with h | ⟨g, hg, hx, hd⟩
    · obtain ⟨-, -, -, -, hdisj⟩ := nodup_mk.1 (Zip.nodup_of_plug (z := z) (t := mk f.side t f.x f.c f.sib) hn)
      rcases below_mk.1 h with ⟨rfl, ⟨rfl, -⟩ | ⟨-, hs⟩⟩ | h | h
      · exact .inr ⟨f, List.mem_cons_self, rfl, rfl⟩
      · exact absurd hs (hdisj p hp)
      · exact .inl h
      · exact absurd h.mem.2 (hdisj p hp)
    · exact .inr ⟨g, List.mem_cons_of_mem _ hg, hx, hd⟩

theorem below_end_iff (hn : (Zip.plug z (node l p c r)).toList.Nodup) :
    (Zip.plug z (node l p c r)).Below a d p ↔ ∃ f ∈ z, f.x = a ∧ f.side = d := by
  have hp : p ∈ (node l p c r).toList := by simp
  constructor
  · intro h
    refine (exists_frame_of_below hn hp h).resolve_left fun h => ?_
    obtain ⟨hpl, hpr, -⟩ := nodup_mk.1 (Zip.nodup_of_plug (t := mk .left l p c r) hn)
    rcases (below_mk (d := .left)).1 h with ⟨-, ⟨-, h⟩ | ⟨-, h⟩⟩ | h | h
    · exact hpl h
    · exact hpr h
    · exact hpl h.mem.2
    · exact hpr h.mem.2
  · rintro ⟨f, hf, rfl, rfl⟩
    obtain ⟨w, z', rfl⟩ := List.append_of_mem hf
    rw [Zip.below_frame_near hn, Zip.mem_plug]
    exact .inl hp

end

/-! ### Looking up a node -/

section
variable [DecidableEq α]

/-- The path to a node, its subtrees and its colour. -/
def locate (p : α) : Zip α → CTree α → Option (Zip α × CTree α × Color × CTree α)
  | _, leaf => none
  | z, node l x c r =>
    if x = p then some (z, l, c, r)
    else (locate p (⟨.left, x, c, r⟩ :: z) l).or (locate p (⟨.right, x, c, l⟩ :: z) r)

/-- The child of `p` on side `d`. -/
def childOf (d : Side) (p : α) (t : CTree α) : Option α :=
  match locate p [] t with
  | none => none
  | some (_, l, _, r) => match d with
    | .left => l.root
    | .right => r.root

def eraseNode (p : α) (t : CTree α) : CTree α :=
  match locate p [] t with
  | none => t
  | some (z, l, c, r) => z.erase l c r

/-- What `eraseNode p` lifts out of the right subtrees of the nodes above. -/
def liftsOf (p : α) (t : CTree α) : List α :=
  match locate p [] t with
  | none => []
  | some (z, l, c, r) => z.eraseLifts .left l c r

/-- The tree after the walk of the subtree of a node, and the nodes in the order of their visits, each with the tree
before the visit. -/
def eraseWalk (idle : α → Bool) : Nat → Option α → CTree α → CTree α × List (α × CTree α)
  | 0, _, t => (t, [])
  | _ + 1, none, t => (t, [])
  | fuel + 1, some p, t =>
    let (t₁, v₁) := eraseWalk idle fuel (t.childOf .left p) t
    let (t₂, v₂) := eraseWalk idle fuel (t₁.childOf .right p) t₁
    (if idle p then t₂.eraseNode p else t₂, v₁ ++ v₂ ++ [(p, t₂)])

variable {t : CTree α} {z w : Zip α} {p x y : α} {c : Color} {l r : CTree α} {idle : α → Bool}

theorem locate_of_not_mem (h : p ∉ t.toList) : locate p z t = none := by
  induction t generalizing z with
  | leaf => rfl
  | node l x c r ihl ihr =>
    simp only [toList_node, List.mem_append, List.mem_cons, not_or] at h
    rw [locate, if_neg (Ne.symm h.2.1), ihl h.1, ihr h.2.2]
    rfl

theorem locate_plug_append (hn : (Zip.plug w (node l p c r)).toList.Nodup) :
    locate p z (Zip.plug w (node l p c r)) = some (w ++ z, l, c, r) := by
  induction w using List.reverseRecOn generalizing z with
  | nil => exact if_pos rfl
  | append_singleton w f ih =>
    obtain ⟨d, x, c', s⟩ := f
    rw [Zip.plug_append] at hn ⊢
    change (mk d (Zip.plug w (node l p c r)) x c' s).toList.Nodup at hn
    change locate p z (mk d (Zip.plug w (node l p c r)) x c' s) = _
    obtain ⟨hx, -, hnw, -, hs⟩ := nodup_mk.1 hn
    have hp : p ∈ (Zip.plug w (node l p c r)).toList := Zip.mem_plug.2 (.inl (by simp))
    have hxp : x ≠ p := fun heq => hx (heq ▸ hp)
    cases d with
    | left =>
      rw [mk, locate, if_neg hxp, ih hnw, List.append_assoc]
      rfl
    | right =>
      rw [mk, locate, if_neg hxp, locate_of_not_mem (hs p hp), ih hnw, List.append_assoc]
      rfl

theorem locate_plug (hn : (Zip.plug z (node l p c r)).toList.Nodup) :
    locate p [] (Zip.plug z (node l p c r)) = some (z, l, c, r) := by
  rw [locate_plug_append hn, List.append_nil]

theorem inSub_childOf {d : Side} {q : α} (hn : t.toList.Nodup) (hp : p ∈ t.toList) (hq : t.childOf d p = some q) :
    t.InSub q y ↔ t.Below p d y := by
  obtain ⟨z, l, c, r, rfl⟩ := Zip.exists_plug_of_mem hp
  rw [childOf, locate_plug hn] at hq
  have hsub : ∀ s : CTree α, s.root = some q → (∀ e y', (Zip.plug z (node l p c r)).Below q e y' ↔ s.Below q e y') →
      s.toList.Nodup → ((Zip.plug z (node l p c r)).InSub q y ↔ y ∈ s.toList) := fun s hs hb hns => by
    rw [← inSub_root hns hs, InSub, InSub]
    simp only [hb]
  have hnt := nodup_mk.1 (Zip.nodup_of_plug (t := mk .left l p c r) hn)
  have hmem : ∀ s : CTree α, s.root = some q → q ∈ s.toList := fun s hs => by
    cases s with
    | leaf => cases hs
    | node => cases hs; simp
  cases d with
  | left =>
    rw [below_left_iff hn]
    refine hsub l hq (fun e y' => ?_) hnt.2.2.1
    rw [Zip.below_plug_of_mem hn ((mem_toList_mk .left l p c r).2 (.inr (.inl (hmem l hq))))]
    exact below_mk_of_mem (d := .left) (Zip.nodup_of_plug hn) (hmem l hq)
  | right =>
    rw [below_right_iff hn]
    refine hsub r hq (fun e y' => ?_) hnt.2.2.2.1
    rw [Zip.below_plug_of_mem hn ((mem_toList_mk .left l p c r).2 (.inr (.inr (hmem r hq))))]
    exact below_mk_of_mem (d := .right) (Zip.nodup_of_plug hn) (hmem r hq)

theorem not_below_of_childOf {d : Side} (hn : t.toList.Nodup) (hp : p ∈ t.toList) (hq : t.childOf d p = none) :
    ¬t.Below p d y := by
  obtain ⟨z, l, c, r, rfl⟩ := Zip.exists_plug_of_mem hp
  rw [childOf, locate_plug hn] at hq
  cases d with
  | left =>
    rw [below_left_iff hn]
    cases l with
    | leaf => simp
    | node => cases hq
  | right =>
    rw [below_right_iff hn]
    cases r with
    | leaf => simp
    | node => cases hq

end

/-! ### What a walk changes -/

/-- The nodes that were taken out. -/
def Gone (idle : α → Bool) (v : List (α × CTree α)) (y : α) : Prop := idle y = true ∧ y ∈ v.map Prod.fst

/-- A walk visits nodes of `R`, each once, and takes the idle ones out. For `A a d` the subtree of `a` on side `d` only
loses these, and the other one does not grow. -/
structure Walked (idle : α → Bool) (A : α → Side → Prop) (R : α → Prop) (t t' : CTree α) (v : List (α × CTree α)) :
    Prop where
  sublist : t'.toList.Sublist t.toList
  mem : ∀ y, y ∈ t'.toList ↔ y ∈ t.toList ∧ ¬Gone idle v y
  region : ∀ y ∈ v.map Prod.fst, R y
  nodup : (v.map Prod.fst).Nodup
  near : ∀ a d, A a d → ∀ y, t'.Below a d y ↔ t.Below a d y ∧ ¬Gone idle v y
  far : ∀ a d, A a d → ∀ y, t'.Below a d.flip y → t.Below a d.flip y

section
variable {idle : α → Bool} {A A' B : α → Side → Prop} {R R' S : α → Prop} {t t₁ t₂ : CTree α}
  {v v' : List (α × CTree α)} {p y : α} {d : Side}

theorem not_gone_nil : ¬Gone idle [] y := fun h => by cases h.2

theorem gone_append : Gone idle (v ++ v') y ↔ Gone idle v y ∨ Gone idle v' y := by
  rw [Gone, List.map_append, List.mem_append, and_or_left]
  rfl

theorem walked_nil : Walked idle A R t t [] where
  sublist := .refl _
  mem _ := (and_iff_left not_gone_nil).symm
  region _ h := nomatch h
  nodup := .nil
  near _ _ _ _ := (and_iff_left not_gone_nil).symm
  far _ _ _ _ := id

theorem Walked.toList_eq (h : Walked idle A R t t₁ v) (hn : t.toList.Nodup) {keep : α → Bool}
    (hk : ∀ y, y ∈ t₁.toList ↔ y ∈ t.toList ∧ keep y = true) : t₁.toList = t.toList.filter keep := by
  have hself : t₁.toList.filter keep = t₁.toList := List.filter_eq_self.2 fun y hy => ((hk y).1 hy).2
  have hsub : t₁.toList.Sublist (t.toList.filter keep) := hself ▸ h.sublist.filter keep
  refine hsub.eq_of_length_le (List.Nodup.length_le_of_subset (hn.filter keep) fun y hy => ?_)
  exact (hk y).2 (List.mem_filter.1 hy)

theorem Walked.mono (h : Walked idle A R t t₁ v) (hA : ∀ a d, B a d → A a d) (hR : ∀ y, R y → S y) :
    Walked idle B S t t₁ v :=
  ⟨h.sublist, h.mem, fun y hy => hR y (h.region y hy), h.nodup, fun a d ha => h.near a d (hA a d ha),
    fun a d ha => h.far a d (hA a d ha)⟩

theorem Walked.trans (h : Walked idle A R t t₁ v) (h' : Walked idle A' R t₁ t₂ v') (hA : ∀ a d, A a d → A' a d)
    (hdisj : ∀ y ∈ v.map Prod.fst, y ∉ v'.map Prod.fst) : Walked idle A R t t₂ (v ++ v') where
  sublist := h'.sublist.trans h.sublist
  mem y := by rw [h'.mem, h.mem, gone_append, not_or, and_assoc]
  region y hy := by
    rw [List.map_append, List.mem_append] at hy
    exact hy.elim (h.region y) (h'.region y)
  nodup := by
    rw [List.map_append]
    exact h.nodup.append h'.nodup hdisj
  near a d ha y := by rw [h'.near a d (hA a d ha), h.near a d ha, gone_append, not_or, and_assoc]
  far a d ha y hy := h.far a d ha y (h'.far a d (hA a d ha) y hy)

/-- The walks of both subtrees of `p`. -/
structure Sides (idle : α → Bool) (p : α) (t t₁ t₂ : CTree α) (v₁ v₂ : List (α × CTree α)) : Prop where
  left : Walked idle (fun a d => a = p ∧ d = .left ∨ t.Below a d p) (t.Below p .left) t t₁ v₁
  right : Walked idle (fun a d => a = p ∧ d = .right ∨ t₁.Below a d p) (t₁.Below p .right) t₁ t₂ v₂

namespace Sides

variable {v₁ v₂ : List (α × CTree α)} {a : α} (h : Sides idle p t t₁ t₂ v₁ v₂) (hn : t.toList.Nodup)
include h hn

theorem nodup₁ : t₁.toList.Nodup := hn.sublist h.left.sublist

theorem nodup₂ : t₂.toList.Nodup := (h.nodup₁ hn).sublist h.right.sublist

theorem not_mem₁ : p ∉ v₁.map Prod.fst := fun hp => not_below_self hn (h.left.region p hp)

theorem not_mem₂ : p ∉ v₂.map Prod.fst := fun hp => not_below_self (h.nodup₁ hn) (h.right.region p hp)

theorem mem₁ (hp : p ∈ t.toList) : p ∈ t₁.toList := (h.left.mem p).2 ⟨hp, fun hg => h.not_mem₁ hn hg.2⟩

theorem mem₂ (hp : p ∈ t.toList) : p ∈ t₂.toList := (h.right.mem p).2 ⟨h.mem₁ hn hp, fun hg => h.not_mem₂ hn hg.2⟩

theorem above₁ (ha : t.Below a d p) : t₁.Below a d p :=
  (h.left.near a d (.inr ha) p).2 ⟨ha, fun hg => h.not_mem₁ hn hg.2⟩

theorem above₂ (ha : t.Below a d p) : t₂.Below a d p :=
  (h.right.near a d (.inr (h.above₁ hn ha)) p).2 ⟨h.above₁ hn ha, fun hg => h.not_mem₂ hn hg.2⟩

omit hn in
theorem right_region (hy : y ∈ v₂.map Prod.fst) : t.Below p .right y :=
  h.left.far p .left (.inl ⟨rfl, rfl⟩) y (h.right.region y hy)

theorem walked {t₃ : CTree α} (hvisit : Walked idle (fun a d => t₂.Below a d p) (· = p) t₂ t₃ [(p, t₂)]) :
    Walked idle (fun a d => t.Below a d p) (t.InSub p) t t₃ (v₁ ++ v₂ ++ [(p, t₂)]) := by
  have h₁ := h.left.mono (B := fun a d => t.Below a d p) (S := t.InSub p) (fun _ _ => .inr) fun y hy => .inr ⟨_, hy⟩
  have h₂ := h.right.mono (B := fun a d => t₁.Below a d p) (S := t₁.Below p .right) (fun _ _ => .inr) fun _ => id
  have h₂' : Walked idle (fun a d => t₁.Below a d p) (t.InSub p) t₁ t₂ v₂ :=
    { h₂ with region := fun y hy => .inr ⟨_, h.right_region hy⟩ }
  have h₃ := hvisit.mono (B := fun a d => t.Below a d p) (S := t.InSub p) (fun _ _ => h.above₂ hn) fun y hy => .inl hy
  refine (h₁.trans h₂' (fun _ _ => h.above₁ hn) fun y hy hy' => ?_).trans h₃ (fun _ _ => id) fun y hy hy' => ?_
  · exact not_below_flip hn (h.left.region y hy) (h.right_region hy')
  · obtain rfl : y = p := by simpa using hy'
    rw [List.map_append, List.mem_append] at hy
    exact hy.elim (h.not_mem₁ hn) (h.not_mem₂ hn)

end Sides

/-- Enough fuel for the nodes of `R`. -/
def Enough (fuel : Nat) (R : α → Prop) : Prop := ∀ S : List α, S.Nodup → (∀ y ∈ S, R y) → S.length ≤ fuel

theorem Enough.child {fuel : Nat} (hn : t.toList.Nodup) (h : Enough (fuel + 1) (t.InSub p))
    (hR : ∀ y, R y → t.Below p d y) : Enough fuel R := fun S hS hmem => by
  have hp : p ∉ S := fun hp => not_below_self hn (hR p (hmem p hp))
  have hlen := h (p :: S) (List.nodup_cons.2 ⟨hp, hS⟩) fun y hy => by
    rcases List.mem_cons.1 hy with rfl | hy
    · exact .inl rfl
    · exact .inr ⟨_, hR y (hmem y hy)⟩
  rw [List.length_cons] at hlen
  omega

/-- An idle node that the walk does not come to: it is not above the walk, and not on the right of a node for which the
walk is on the left. -/
structure Missed (idle : α → Bool) (K : α → Side → Prop) (t : CTree α) (y : α) : Prop where
  idle : idle y = true
  mem : y ∈ t.toList
  right : ∀ a, K a .left → ¬t.Below a .right y
  above : ∀ d, ¬K y d

theorem Missed.walked {K : α → Side → Prop} (h : Missed idle K t y) (hw : Walked idle A R t t₁ v)
    (hK : ∀ a d, K a d → A a d) (hv : y ∉ v.map Prod.fst) : Missed idle K t₁ y where
  idle := h.idle
  mem := (hw.mem y).2 ⟨h.mem, fun hg => hv hg.2⟩
  right a ha hb := h.right a ha (hw.far a .left (hK a _ ha) y hb)
  above := h.above

variable [DecidableEq α]

theorem walked_visit (idle : α → Bool) (hn : t.toList.Nodup) (hp : p ∈ t.toList) :
    Walked idle (fun a d => t.Below a d p) (· = p) t (if idle p then t.eraseNode p else t) [(p, t)] := by
  have hgone : ∀ y, Gone idle [(p, t)] y ↔ idle p = true ∧ y = p := fun y => by
    simp only [Gone, List.map_cons, List.map_nil, List.mem_singleton]
    constructor <;> (rintro ⟨hi, rfl⟩; exact ⟨hi, rfl⟩)
  by_cases hi : idle p
  · obtain ⟨z, l, c, r, rfl⟩ := Zip.exists_plug_of_mem hp
    rw [if_pos hi, eraseNode, locate_plug hn]
    refine ⟨Zip.sublist_erase hn, fun y => ?_, by simp, by simp, fun a d ha y => ?_, fun a d ha y hy => ?_⟩
    · rw [Zip.mem_erase hn, hgone, not_and]
      exact and_congr_right' ⟨fun h _ => h, fun h => h hi⟩
    · obtain ⟨f, hf, rfl, rfl⟩ := (below_end_iff hn).1 ha
      rw [Zip.below_erase_near hn hf, hgone, not_and]
      exact and_congr_right' ⟨fun h _ => h, fun h => h hi⟩
    · obtain ⟨f, hf, rfl, rfl⟩ := (below_end_iff hn).1 ha
      exact ((Zip.below_erase_far hn hf).1 hy).1
  · have hgone' : ∀ y, ¬Gone idle [(p, t)] y := fun y h => hi ((hgone y).1 h).1
    rw [if_neg hi]
    exact ⟨.refl _, fun y => (and_iff_left (hgone' y)).symm, by simp, by simp,
      fun a d _ y => (and_iff_left (hgone' y)).symm, fun _ _ _ _ => id⟩

theorem mem_childOf {q : α} (hn : t.toList.Nodup) (hp : p ∈ t.toList) (hq : q ∈ t.childOf d p) : t.Below p d q :=
  (inSub_childOf hn hp hq).1 (.inl rfl)

theorem Walked.child (hn : t.toList.Nodup) (hp : p ∈ t.toList)
    (h : Walked idle (fun a e => ∀ q ∈ t.childOf d p, t.Below a e q) (fun y => ∃ q ∈ t.childOf d p, t.InSub q y) t t₁ v) :
    Walked idle (fun a e => a = p ∧ e = d ∨ t.Below a e p) (t.Below p d) t t₁ v := by
  refine h.mono (fun a e ha q hq => ?_) fun y ⟨q, hq, hy⟩ => (inSub_childOf hn hp hq).1 hy
  rcases ha with ⟨rfl, rfl⟩ | ha
  · exact mem_childOf hn hp hq
  · exact ha.trans hn (mem_childOf hn hp hq)

/-- What the walk with this fuel does. -/
def WalksAt (idle : α → Bool) (fuel : Nat) : Prop :=
  ∀ (t : CTree α) (q : Option α), t.toList.Nodup → (∀ p ∈ q, p ∈ t.toList) → (∀ p ∈ q, Enough fuel (t.InSub p)) →
    Walked idle (fun a d => ∀ p ∈ q, t.Below a d p) (fun y => ∃ p ∈ q, t.InSub p y) t (eraseWalk idle fuel q t).1
      (eraseWalk idle fuel q t).2

theorem WalksAt.child {fuel : Nat} (H : WalksAt idle fuel) (hn : t.toList.Nodup) (hp : p ∈ t.toList)
    (hfuel : ∀ q ∈ t.childOf d p, Enough fuel (t.InSub q)) :
    Walked idle (fun a e => a = p ∧ e = d ∨ t.Below a e p) (t.Below p d) t (eraseWalk idle fuel (t.childOf d p) t).1
      (eraseWalk idle fuel (t.childOf d p) t).2 :=
  (H t _ hn (fun _ hq => (mem_childOf hn hp hq).mem.2) hfuel).child hn hp

theorem WalksAt.sides {fuel : Nat} (H : WalksAt idle fuel) (hn : t.toList.Nodup) (hp : p ∈ t.toList)
    (hfuel : Enough (fuel + 1) (t.InSub p)) (ht₁ : (eraseWalk idle fuel (t.childOf .left p) t).1 = t₁) :
    Sides idle p t t₁ (eraseWalk idle fuel (t₁.childOf .right p) t₁).1 (eraseWalk idle fuel (t.childOf .left p) t).2
      (eraseWalk idle fuel (t₁.childOf .right p) t₁).2 := by
  have hleft := H.child (d := .left) hn hp fun q hq => hfuel.child hn fun y => (inSub_childOf hn hp hq).1
  rw [ht₁] at hleft
  have hn₁ := hn.sublist hleft.sublist
  have hp₁ : p ∈ t₁.toList := (hleft.mem p).2 ⟨hp, fun hg => not_below_self hn (hleft.region p hg.2)⟩
  refine ⟨hleft, H.child hn₁ hp₁ fun q hq => hfuel.child (d := .right) hn fun y hy => ?_⟩
  exact hleft.far p .left (.inl ⟨rfl, rfl⟩) y ((inSub_childOf hn₁ hp₁ hq).1 hy)

theorem walksAt (idle : α → Bool) (fuel : Nat) : WalksAt idle fuel := by
  induction fuel with
  | zero => exact fun _ _ _ _ _ => walked_nil
  | succ fuel ih =>
    intro t q hn hq hfuel
    cases q with
    | none => exact walked_nil
    | some p =>
      have hsides := ih.sides hn (hq p rfl) (hfuel p rfl) rfl
      refine (hsides.walked hn (walked_visit idle (hsides.nodup₂ hn) (hsides.mem₂ hn (hq p rfl)))).mono
        (fun a d ha => ha p rfl) fun y hy => ⟨p, rfl, hy⟩

/-! ### Idle nodes that are missed -/

/-- No visit lifts an idle node out of the right subtree of a node above. -/
def Spared (idle : α → Bool) (v : List (α × CTree α)) : Prop :=
  ∀ m ∈ v, idle m.1 = true → ∀ u ∈ m.2.liftsOf m.1, idle u = false

theorem spared_append : Spared idle (v ++ v') ↔ Spared idle v ∧ Spared idle v' := by
  simp only [Spared, List.mem_append]
  exact ⟨fun h => ⟨fun m hm => h m (.inl hm), fun m hm => h m (.inr hm)⟩,
    fun h m hm => hm.elim (h.1 m) (h.2 m)⟩

/-- The idle nodes of `R` are gone, and those on the right of a node with `A a left` are still there. -/
structure Cleared (idle : α → Bool) (A : α → Side → Prop) (R : α → Prop) (t t' : CTree α) : Prop where
  gone : ∀ y, R y → idle y = true → y ∉ t'.toList
  kept : ∀ a, A a .left → ∀ y, idle y = true → t.Below a .right y → t'.Below a .right y

theorem cleared_visit (hn : t.toList.Nodup) (hp : p ∈ t.toList) (hs : Spared idle [(p, t)]) :
    Cleared idle (fun a d => t.Below a d p) (· = p) t (if idle p then t.eraseNode p else t) := by
  refine ⟨?_, fun a ha y hy hb => ?_⟩
  · rintro y rfl hi hmem
    exact (((walked_visit idle hn hp).mem y).1 hmem).2 ⟨hi, by simp⟩
  · split
    · next hi =>
      have hs := hs _ (List.mem_singleton_self _) hi
      obtain ⟨z, l, c, r, rfl⟩ := Zip.exists_plug_of_mem hp
      rw [eraseNode, locate_plug hn]
      rw [liftsOf, locate_plug hn] at hs
      obtain ⟨f, hf, rfl, hd⟩ := (below_end_iff hn).1 ha
      have hfar := Zip.below_erase_far (y := y) hn hf
      rw [hd] at hfar
      exact hfar.2 ⟨hb, fun hl => by simp [hs y hl] at hy⟩
    · exact hb

theorem exists_childOf (hn : t.toList.Nodup) (hp : p ∈ t.toList) (h : t.Below p d y) :
    ∃ q ∈ t.childOf d p, t.InSub q y := by
  cases hq : t.childOf d p with
  | none => exact absurd h (not_below_of_childOf hn hp hq)
  | some q => exact ⟨q, rfl, (inSub_childOf hn hp hq).2 h⟩

theorem cleared_eraseWalk {fuel : Nat} {q : Option α} (hn : t.toList.Nodup) (hq : ∀ p ∈ q, p ∈ t.toList)
    (hfuel : ∀ p ∈ q, Enough fuel (t.InSub p)) (hs : Spared idle (eraseWalk idle fuel q t).2) :
    Cleared idle (fun a d => ∀ p ∈ q, t.Below a d p) (fun y => ∃ p ∈ q, t.InSub p y) t (eraseWalk idle fuel q t).1 := by
  induction fuel generalizing t q with
  | zero =>
    refine ⟨fun y ⟨p, hp, _⟩ _ => ?_, fun _ _ _ _ => id⟩
    have := hfuel p hp [p] (List.nodup_singleton p) fun y hy => .inl (List.mem_singleton.1 hy)
    simp at this
  | succ fuel ih =>
    cases q with
    | none => exact ⟨fun _ ⟨_, hp, _⟩ => (nomatch hp), fun _ _ _ _ => id⟩
    | some p =>
      have hp := hq p rfl
      have hsides := (walksAt idle fuel).sides hn hp (hfuel p rfl) rfl
      have hp₁ := hsides.mem₁ hn hp
      have hp₂ := hsides.mem₂ hn hp
      obtain ⟨⟨hs₁, hs₂⟩, hs₃⟩ := spared_append.1 hs |>.imp_left spared_append.1
      have hc₁ := ih hn (fun _ hq => (mem_childOf hn hp hq).mem.2) (fun _ hq => (hfuel p rfl).child hn fun y =>
        (inSub_childOf hn hp hq).1) hs₁
      have hn₁ := hsides.nodup₁ hn
      have hn₂ := hsides.nodup₂ hn
      have hc₂ := ih hn₁ (fun _ hq => (mem_childOf hn₁ hp₁ hq).mem.2) (fun _ hq => (hfuel p rfl).child (d := .right) hn
        fun y hy => hsides.left.far p .left (.inl ⟨rfl, rfl⟩) y ((inSub_childOf hn₁ hp₁ hq).1 hy)) hs₂
      have hc₃ := cleared_visit hn₂ hp₂ hs₃
      have hsub₃ := (walked_visit idle hn₂ hp₂).sublist
      refine ⟨?_, fun a ha y hi hb => ?_⟩
      · rintro y ⟨p', hp', hy⟩ hi hmem
        obtain rfl := Option.some.inj hp'
        rcases hy with rfl | ⟨_ | _, hy⟩
        · exact hc₃.gone _ rfl hi hmem
        · obtain ⟨q, hq, hy⟩ := exists_childOf hn hp hy
          exact hc₁.gone y ⟨q, hq, hy⟩ hi (hsides.right.sublist.subset (hsub₃.subset hmem))
        · have hy₁ := hc₁.kept _ (fun q hq => mem_childOf hn hp hq) y hi hy
          obtain ⟨q, hq, hy⟩ := exists_childOf hn₁ hp₁ hy₁
          exact hc₂.gone y ⟨q, hq, hy⟩ hi (hsub₃.subset hmem)
      · have ha := ha p rfl
        have hb₁ := hc₁.kept a (fun q hq => ha.trans hn (mem_childOf hn hp hq)) y hi hb
        have hb₂ := hc₂.kept a (fun q hq => (hsides.above₁ hn ha).trans hn₁ (mem_childOf hn₁ hp₁ hq)) y hi hb₁
        exact hc₃.kept a (hsides.above₂ hn ha) y hi hb₂

theorem missed_visit {K : α → Side → Prop} (hn : t.toList.Nodup) (hp : p ∈ t.toList) (hK : ∀ a d, K a d → t.Below a d p)
    (hs : ¬Spared idle [(p, t)]) : ∃ y, Missed idle K (if idle p then t.eraseNode p else t) y := by
  simp only [Spared, List.forall_mem_singleton, not_forall, Bool.not_eq_false] at hs
  obtain ⟨hi, u, hu, hiu⟩ := hs
  rw [if_pos hi]
  obtain ⟨z, l, c, r, rfl⟩ := Zip.exists_plug_of_mem hp
  rw [liftsOf, locate_plug hn] at hu
  rw [eraseNode, locate_plug hn]
  have hn' := (Zip.perm_labels z (node l p c r)).nodup_iff.1 hn
  have hlr : u ∈ l.toList ++ r.toList ∨ ∃ f ∈ z, u ∈ f.sib.toList :=
    (Zip.mem_eraseLifts hu).imp_right fun ⟨f, hf, _, hy⟩ => ⟨f, hf, hy⟩
  have hdisj := List.disjoint_of_nodup_append hn'
  have hpl : p ∉ l.toList ++ r.toList :=
    (List.nodup_cons.1 ((toList_mk_perm .left l p c r).nodup_iff.1 hn'.of_append_left)).1
  have hnode : ∀ y ∈ l.toList ++ r.toList, y ∈ (node l p c r).toList := fun y hy => by
    rw [toList_node, List.perm_middle.mem_iff]
    exact List.mem_cons_of_mem _ hy
  refine ⟨u, hiu, (Zip.mem_erase hn).2 ⟨Zip.mem_plug.2 ?_, ?_⟩, fun a ha hb => ?_, fun d ha => ?_⟩
  · exact hlr.imp (hnode u) fun ⟨f, hf, hy⟩ => Zip.mem_labels_of_frame hf hy
  · rintro rfl
    rcases hlr with h | ⟨f, hf, hy⟩
    · exact hpl h
    · exact hdisj (by simp) (Zip.mem_labels_of_frame hf hy)
  · obtain ⟨f, hf, rfl, hd⟩ := (below_end_iff hn).1 (hK a _ ha)
    have hfar := Zip.below_erase_far (y := u) hn hf
    rw [hd] at hfar
    exact (hfar.1 hb).2 hu
  · obtain ⟨f, hf, rfl, -⟩ := (below_end_iff hn).1 (hK u d ha)
    rcases hlr with h | ⟨g, hg, hy⟩
    · obtain ⟨w, z', rfl⟩ := List.append_of_mem hf
      exact hdisj (hnode _ h) ((Zip.mem_labels_append ..).2 (.inr List.mem_cons_self))
    · exact Zip.frame_not_mem_sib hn'.of_append_right hf hg hy

theorem missed_eraseWalk {fuel : Nat} {q : Option α} {K : α → Side → Prop} (hn : t.toList.Nodup)
    (hq : ∀ p ∈ q, p ∈ t.toList) (hfuel : ∀ p ∈ q, Enough fuel (t.InSub p)) (hK : ∀ a d, K a d → ∀ p ∈ q, t.Below a d p)
    (hs : ¬Spared idle (eraseWalk idle fuel q t).2) : ∃ y, Missed idle K (eraseWalk idle fuel q t).1 y := by
  induction fuel generalizing t q K with
  | zero => exact absurd nofun hs
  | succ fuel ih =>
    cases q with
    | none => exact absurd nofun hs
    | some p =>
      have hp := hq p rfl
      have hsides := (walksAt idle fuel).sides hn hp (hfuel p rfl) rfl
      have hp₁ := hsides.mem₁ hn hp
      have hn₁ := hsides.nodup₁ hn
      have hn₂ := hsides.nodup₂ hn
      have hvisit := walked_visit idle hn₂ (hsides.mem₂ hn hp)
      have hK' := fun a d (ha : K a d) => hK a d ha p rfl
      have hvisited : ∀ {y}, Missed idle K (eraseWalk idle fuel ((eraseWalk idle fuel (t.childOf .left p) t).1.childOf
          .right p) (eraseWalk idle fuel (t.childOf .left p) t).1).1 y → y ≠ p →
          Missed idle K (eraseWalk idle (fuel + 1) (some p) t).1 y := fun hy hne =>
        hy.walked hvisit (fun a d ha => hsides.above₂ hn (hK' a d ha)) (by simpa using hne)
      by_cases hs₁ : Spared idle (eraseWalk idle fuel (t.childOf .left p) t).2
      · by_cases hs₂ : Spared idle (eraseWalk idle fuel ((eraseWalk idle fuel (t.childOf .left p) t).1.childOf .right p)
            (eraseWalk idle fuel (t.childOf .left p) t).1).2
        · refine missed_visit hn₂ (hsides.mem₂ hn hp) (fun a d ha => hsides.above₂ hn (hK' a d ha)) fun hs₃ => hs ?_
          exact spared_append.2 ⟨spared_append.2 ⟨hs₁, hs₂⟩, hs₃⟩
        · obtain ⟨y, hy⟩ := ih (K := fun a d => K a d ∨ a = p ∧ d = .right) hn₁
            (fun _ hq => (mem_childOf hn₁ hp₁ hq).mem.2)
            (fun _ hq => (hfuel p rfl).child (d := .right) hn fun y hy =>
              hsides.left.far p .left (.inl ⟨rfl, rfl⟩) y ((inSub_childOf hn₁ hp₁ hq).1 hy)) (by
              rintro a d (ha | ⟨rfl, rfl⟩) q hq
              · exact (hsides.above₁ hn (hK' a d ha)).trans hn₁ (mem_childOf hn₁ hp₁ hq)
              · exact mem_childOf hn₁ hp₁ hq) hs₂
          refine ⟨y, hvisited ⟨hy.idle, hy.mem, fun a ha => hy.right a (.inl ha), fun d ha => hy.above d (.inl ha)⟩ ?_⟩
          rintro rfl
          exact hy.above .right (.inr ⟨rfl, rfl⟩)
      · obtain ⟨y, hy⟩ := ih (K := fun a d => K a d ∨ a = p ∧ d = .left) hn
          (fun _ hq => (mem_childOf hn hp hq).mem.2)
          (fun _ hq => (hfuel p rfl).child hn fun y => (inSub_childOf hn hp hq).1) (by
            rintro a d (ha | ⟨rfl, rfl⟩) q hq
            · exact (hK' a d ha).trans hn (mem_childOf hn hp hq)
            · exact mem_childOf hn hp hq) hs₁
        have hy' : Missed idle K (eraseWalk idle fuel (t.childOf .left p) t).1 y :=
          ⟨hy.idle, hy.mem, fun a ha => hy.right a (.inl ha), fun d ha => hy.above d (.inl ha)⟩
        refine ⟨y, hvisited (hy'.walked hsides.right (fun a d ha => .inr (hsides.above₁ hn (hK' a d ha))) fun hv => ?_) ?_⟩
        · exact hy.right p (.inr ⟨rfl, rfl⟩) (hsides.right.region y hv)
        · rintro rfl
          exact hy.above .left (.inr ⟨rfl, rfl⟩)

/-- The walk of the whole tree takes out all idle nodes if and only if no visit lifts an idle node out of the right
subtree of a node above. -/
theorem mem_eraseWalk_iff {fuel : Nat} (hn : t.toList.Nodup) (hfuel : t.toList.length ≤ fuel) :
    (∀ y, y ∈ (eraseWalk idle fuel t.root t).1.toList ↔ y ∈ t.toList ∧ idle y = false) ↔
      Spared idle (eraseWalk idle fuel t.root t).2 := by
  have hq : ∀ p ∈ t.root, p ∈ t.toList := fun p hp => (inSub_root hn hp).1 (.inl rfl)
  have henough : ∀ p ∈ t.root, Enough fuel (t.InSub p) := fun p hp S hS hmem =>
    Nat.le_trans (List.Nodup.length_le_of_subset hS fun y hy => (inSub_root hn hp).1 (hmem y hy)) hfuel
  have hw := walksAt idle fuel t t.root hn hq henough
  constructor
  · intro h
    by_contra hs
    obtain ⟨y, hy⟩ := missed_eraseWalk (K := fun _ _ => False) hn hq henough nofun hs
    have := ((h y).1 hy.mem).2
    simp [hy.idle] at this
  · intro hs y
    have hc := cleared_eraseWalk hn hq henough hs
    constructor
    · intro hy
      have hyt := hw.sublist.subset hy
      refine ⟨hyt, Bool.eq_false_iff.2 fun hi => ?_⟩
      obtain ⟨p, hp⟩ : ∃ p, p ∈ t.root := by
        cases t with
        | leaf => cases hyt
        | node l x c r => exact ⟨x, rfl⟩
      exact hc.gone y ⟨p, hp, (inSub_root hn hp).2 hyt⟩ hi hy
    · rintro ⟨hyt, hi⟩
      exact (hw.mem y).2 ⟨hyt, fun hg => by simp [hg.1] at hi⟩

end

end CTree

end Lib
