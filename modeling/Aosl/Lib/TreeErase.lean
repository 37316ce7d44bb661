import Aosl.Lib.Tree
import Mathlib.Data.List.Induction

/-!
# Removal from a red-black tree

`Zip.erase` takes the node at the end of a path out of the tree and repairs the black heights on the way up, one
`eraseRound` a frame. `Below t p d y` says that `y` is in the subtree of `p` on side `d`. A node above the removed one
keeps its subtree on the side of the removal; from the other side a rotation lifts the nodes `lifted` above it.
-/

namespace Lib

namespace CTree

variable {α : Type}

/-- The parts of a node, the child on side `d` first. -/
def split (d : Side) : CTree α → Option (CTree α × α × Color × CTree α)
  | leaf => none
  | node l x c r => match d with
    | .left => some (l, x, c, r)
    | .right => some (r, x, c, l)

@[simp] theorem split_leaf (d : Side) : (leaf : CTree α).split d = none := rfl

@[simp] theorem split_mk (d : Side) (a : CTree α) (x : α) (c : Color) (b : CTree α) :
    (mk d a x c b).split d = some (a, x, c, b) := by cases d <;> rfl

theorem eq_mk_of_split {d : Side} {t a b : CTree α} {x : α} {c : Color} (h : t.split d = some (a, x, c, b)) :
    t = mk d a x c b := by
  obtain rfl | ⟨a', x', c', b', rfl⟩ := eq_mk_or_leaf d t
  · cases h
  · rw [split_mk] at h
    cases h
    rfl

/-! ### Repair -/

/-- A rotation at `p`, whose subtree `t` is one black node short; `b` is red. -/
def eraseFar (d : Side) (t : CTree α) (p : α) (c : Color) (a : CTree α) (o : α) (b : CTree α) : CTree α :=
  mk d (mk d t p .black a) o c (b.setColor .black)

/-- The repair at `p` with a black sibling, and whether the result is one black node short. -/
def eraseNephews (d : Side) (t : CTree α) (p : α) (c : Color) (sib : CTree α) : CTree α × Bool :=
  match sib.split d with
  | none => (mk d t p c sib, false)
  | some (a, o, _, b) =>
    if b.color = .red then (eraseFar d t p c a o b, false)
    else match a.split d with
      | some (a₁, x, .red, a₂) => (eraseFar d t p c a₁ x (mk d a₂ o .red b), false)
      | _ => if c = .red then (mk d t p .black (mk d a o .red b), false) else (mk d t p c (mk d a o .red b), true)

/-- The repair at `p`, whose subtree `t` on side `d` is one black node short. -/
def eraseRound (d : Side) (t : CTree α) (p : α) (c : Color) (sib : CTree α) : CTree α × Bool :=
  match sib.split d with
  | some (a, o, .red, b) => (mk d (eraseNephews d t p .red a).1 o .black b, false)
  | _ => eraseNephews d t p c sib

/-- What `eraseNephews` lifts above `p`. -/
def liftedNephews (d : Side) (sib : CTree α) : List α :=
  match sib.split d with
  | none => []
  | some (a, o, _, b) =>
    if b.color = .red then o :: b.toList
    else match a.split d with
      | some (_, x, .red, a₂) => x :: (a₂.toList ++ o :: b.toList)
      | _ => []

/-- What `eraseRound` lifts above `p`. -/
def lifted (d : Side) (sib : CTree α) : List α :=
  match sib.split d with
  | some (a, o, .red, b) => liftedNephews d a ++ o :: b.toList
  | _ => liftedNephews d sib

/-- The first node in order, with the path to it and its right subtree. -/
def popMin : CTree α → Option (Zip α × α × Color × CTree α)
  | leaf => none
  | node l x c r => match popMin l with
    | none => some ([], x, c, r)
    | some (z, y, cy, t) => some (z ++ [⟨.left, x, c, r⟩], y, cy, t)

/-! ### What is below a node -/

/-- The node `y` is in the subtree of `p` on side `d`. -/
def Below : CTree α → α → Side → α → Prop
  | leaf, _, _, _ => False
  | node l x _ r, p, d, y => (p = x ∧ (d = .left ∧ y ∈ l.toList ∨ d = .right ∧ y ∈ r.toList)) ∨ l.Below p d y ∨ r.Below p d y

section
variable {d e : Side} {a b t sib : CTree α} {x p o y : α} {c c' : Color}

theorem below_mk : (mk d a x c b).Below p e y ↔
    (p = x ∧ (e = d ∧ y ∈ a.toList ∨ e = d.flip ∧ y ∈ b.toList)) ∨ a.Below p e y ∨ b.Below p e y := by
  cases d
  · exact Iff.rfl
  · simp only [mk, Below, Side.flip]
    tauto

theorem Below.mem (h : t.Below p d y) : p ∈ t.toList ∧ y ∈ t.toList := by
  induction t with
  | leaf => exact h.elim
  | node l x c r ihl ihr =>
    simp only [toList_node, List.mem_append, List.mem_cons]
    rcases h with ⟨rfl, ⟨-, h⟩ | ⟨-, h⟩⟩ | h | h
    · exact ⟨.inr (.inl rfl), .inl h⟩
    · exact ⟨.inr (.inl rfl), .inr (.inr h)⟩
    · exact ⟨.inl (ihl h).1, .inl (ihl h).2⟩
    · exact ⟨.inr (.inr (ihr h).1), .inr (.inr (ihr h).2)⟩

theorem nodup_mk : (mk d a x c b).toList.Nodup ↔ x ∉ a.toList ∧ x ∉ b.toList ∧ a.toList.Nodup ∧ b.toList.Nodup ∧
    ∀ y ∈ a.toList, y ∉ b.toList := by
  rw [(toList_mk_perm d a x c b).nodup_iff, List.nodup_cons, List.nodup_append, List.mem_append, not_or]
  constructor
  · exact fun ⟨⟨ha, hb⟩, hna, hnb, hab⟩ => ⟨ha, hb, hna, hnb, fun y hy hy' => hab y hy y hy' rfl⟩
  · exact fun ⟨ha, hb, hna, hnb, hab⟩ => ⟨⟨ha, hb⟩, hna, hnb, fun y hy y' hy' heq => hab y hy (heq ▸ hy')⟩

theorem below_mk_near (hn : (mk d a x c b).toList.Nodup) : (mk d a x c b).Below x d y ↔ y ∈ a.toList := by
  obtain ⟨ha, hb, -⟩ := nodup_mk.1 hn
  rw [below_mk]
  constructor
  · rintro (⟨-, ⟨-, h⟩ | ⟨h, -⟩⟩ | h | h)
    · exact h
    · exact absurd h (Side.ne_flip d)
    · exact absurd h.mem.1 ha
    · exact absurd h.mem.1 hb
  · exact fun h => .inl ⟨rfl, .inl ⟨rfl, h⟩⟩

theorem below_mk_far (hn : (mk d a x c b).toList.Nodup) : (mk d a x c b).Below x d.flip y ↔ y ∈ b.toList := by
  rw [← mk_flip] at hn ⊢
  exact below_mk_near hn

theorem below_mk_of_mem (hn : (mk d a x c b).toList.Nodup) (hp : p ∈ a.toList) :
    (mk d a x c b).Below p e y ↔ a.Below p e y := by
  obtain ⟨ha, -, -, -, hab⟩ := nodup_mk.1 hn
  rw [below_mk]
  constructor
  · rintro (⟨rfl, -⟩ | h | h)
    · exact absurd hp ha
    · exact h
    · exact absurd h.mem.1 (hab p hp)
  · exact fun h => .inr (.inl h)

end

/-! ### One round -/

section
variable {d : Side} {t sib a b : CTree α} {p o x y : α} {c : Color}

theorem eraseNephews_far {co : Color} (hb : b.color = .red) :
    eraseNephews d t p c (mk d a o co b) = (eraseFar d t p c a o b, false) := by
  simp [eraseNephews, hb]

theorem eraseNephews_near {co : Color} {a₁ a₂ : CTree α} (hb : b.color = .black) :
    eraseNephews d t p c (mk d (mk d a₁ x .red a₂) o co b) = (eraseFar d t p c a₁ x (mk d a₂ o .red b), false) := by
  simp [eraseNephews, hb]

theorem eraseNephews_black {co : Color} (ha : a.color = .black) (hb : b.color = .black) :
    eraseNephews d t p c (mk d a o co b) =
      if c = .red then (mk d t p .black (mk d a o .red b), false) else (mk d t p c (mk d a o .red b), true) := by
  obtain rfl | ⟨a₁, x, cx, a₂, rfl⟩ := eq_mk_or_leaf d a
  · simp [eraseNephews, hb]
  · rw [color_mk] at ha
    simp [eraseNephews, hb, ha]

theorem eraseNephews_red : (eraseNephews d t p .red sib).2 = false := by
  rw [eraseNephews]
  split
  · rfl
  · split
    · rfl
    · split
      · rfl
      · rfl

theorem eraseRound_red : eraseRound d t p c (mk d a o .red b) = (mk d (eraseNephews d t p .red a).1 o .black b, false) := by
  simp [eraseRound]

theorem eraseRound_black (hs : sib.color = .black) : eraseRound d t p c sib = eraseNephews d t p c sib := by
  obtain rfl | ⟨a₁, x, cx, a₂, rfl⟩ := eq_mk_or_leaf d sib
  · rfl
  · rw [color_mk] at hs
    simp [eraseRound, hs]

theorem toList_eraseFar : (eraseFar d t p c a o b).toList = (mk d t p c (mk d a o .black b)).toList := by
  cases d <;> simp [eraseFar, mk]

theorem toList_eraseNephews : (eraseNephews d t p c sib).1.toList = (mk d t p c sib).toList := by
  obtain rfl | ⟨a, o, co, b, rfl⟩ := eq_mk_or_leaf d sib
  · rfl
  · rw [eraseNephews, split_mk]
    dsimp only
    split
    · rw [toList_eraseFar]
      cases d <;> simp [mk]
    · split
      · next a₁ x a₂ ha =>
        rw [eq_mk_of_split ha, toList_eraseFar]
        cases d <;> simp [mk]
      · split <;> cases d <;> simp [mk]

theorem toList_eraseRound : (eraseRound d t p c sib).1.toList = (mk d t p c sib).toList := by
  rw [eraseRound]
  split
  · next a o b hsib =>
    have h : (eraseNephews d t p .red a).1.toList = (mk d t p .red a).toList := toList_eraseNephews
    rw [eq_mk_of_split hsib]
    cases d
    · simp only [mk, toList_node] at h ⊢
      rw [h]
      simp
    · simp only [mk, toList_node] at h ⊢
      rw [h]
      simp
  · exact toList_eraseNephews

/-- In `u` the node `p` has `t` on side `d` and the nodes `far` on the other one. -/
def Carries (d : Side) (t : CTree α) (p : α) (far : α → Prop) (u : CTree α) : Prop :=
  ∃ (z : Zip α) (c : Color) (sib : CTree α), u = Zip.plug z (mk d t p c sib) ∧ ∀ y, y ∈ sib.toList ↔ far y

theorem carries_eraseFar {far : α → Prop} (h : ∀ y, y ∈ a.toList ↔ far y) : Carries d t p far (eraseFar d t p c a o b) :=
  ⟨[⟨d, o, c, b.setColor .black⟩], .black, a, rfl, h⟩

theorem carries_eraseNephews (hn : sib.toList.Nodup) :
    Carries d t p (fun y => y ∈ sib.toList ∧ y ∉ liftedNephews d sib) (eraseNephews d t p c sib).1 := by
  obtain rfl | ⟨a, o, co, b, rfl⟩ := eq_mk_or_leaf d sib
  · exact ⟨[], c, .leaf, rfl, by simp⟩
  obtain ⟨hoa, hob, hna, -, hab⟩ := nodup_mk.1 hn
  rw [eraseNephews, liftedNephews, split_mk]
  dsimp only
  split
  · refine carries_eraseFar fun y => ?_
    rw [mem_toList_mk, List.mem_cons, not_or]
    constructor
    · exact fun hy => ⟨.inr (.inl hy), ne_of_mem_of_not_mem hy hoa, hab y hy⟩
    · exact fun ⟨h, ho, hb⟩ => (h.resolve_left ho).resolve_right hb
  · split
    · next a₁ x a₂ ha =>
      obtain rfl := eq_mk_of_split ha
      obtain ⟨hxa₁, -, -, -, ha₁₂⟩ := nodup_mk.1 hna
      refine carries_eraseFar fun y => ?_
      simp only [mem_toList_mk, List.mem_cons, List.mem_append, not_or]
      constructor
      · intro hy
        have hya : y ∈ (mk d a₁ x .red a₂).toList := (mem_toList_mk ..).2 (.inr (.inl hy))
        exact ⟨.inr (.inl (.inr (.inl hy))), ne_of_mem_of_not_mem hy hxa₁, ha₁₂ y hy, ne_of_mem_of_not_mem hya hoa, hab y hya⟩
      · rintro ⟨rfl | (rfl | h | h) | h, hx, ha₂, ho, hb⟩
        · exact absurd rfl ho
        · exact absurd rfl hx
        · exact h
        · exact absurd h ha₂
        · exact absurd h hb
    · split
      · exact ⟨[], .black, mk d a o .red b, rfl, by simp⟩
      · exact ⟨[], c, mk d a o .red b, rfl, by simp⟩

/-- After the round `p` still has `t` on side `d`, and on the other side what is not lifted. -/
theorem carries_eraseRound (hn : sib.toList.Nodup) :
    Carries d t p (fun y => y ∈ sib.toList ∧ y ∉ lifted d sib) (eraseRound d t p c sib).1 := by
  rw [eraseRound, lifted]
  split
  · next a o b hsib =>
    obtain rfl := eq_mk_of_split hsib
    obtain ⟨hoa, -, hna, -, hab⟩ := nodup_mk.1 hn
    obtain ⟨z, c', far, hu, hfar⟩ := carries_eraseNephews (t := t) (p := p) (c := .red) hna
    refine ⟨z ++ [⟨d, o, .black, b⟩], c', far, by rw [hu, Zip.plug_append]; rfl, fun y => ?_⟩
    rw [hfar]
    simp only [mem_toList_mk, List.mem_append, List.mem_cons, not_or]
    constructor
    · rintro ⟨hy, hl⟩
      exact ⟨.inr (.inl hy), hl, ne_of_mem_of_not_mem hy hoa, hab y hy⟩
    · rintro ⟨h, hl, ho, hb⟩
      exact ⟨(h.resolve_left ho).resolve_right hb, hl⟩
  · exact carries_eraseNephews hn

theorem mem_of_mem_liftedNephews (h : y ∈ liftedNephews d sib) : y ∈ sib.toList := by
  obtain rfl | ⟨a, o, co, b, rfl⟩ := eq_mk_or_leaf d sib
  · cases h
  · rw [liftedNephews, split_mk] at h
    rw [mem_toList_mk]
    dsimp only at h
    split at h
    · rcases List.mem_cons.1 h with h | h
      · exact .inl h
      · exact .inr (.inr h)
    · split at h
      · next a₁ x a₂ ha =>
        rw [eq_mk_of_split ha, mem_toList_mk]
        simp only [List.mem_cons, List.mem_append] at h
        tauto
      · cases h

theorem mem_of_mem_lifted (h : y ∈ lifted d sib) : y ∈ sib.toList := by
  rw [lifted] at h
  split at h
  · next a o b hsib =>
    rw [eq_mk_of_split hsib, mem_toList_mk]
    rcases List.mem_append.1 h with h | h
    · exact .inr (.inl (mem_of_mem_liftedNephews h))
    · rcases List.mem_cons.1 h with h | h
      · exact .inl h
      · exact .inr (.inr h)
  · exact mem_of_mem_liftedNephews h

end

end CTree

namespace Zip

variable {α : Type}

open CTree

/-- The repair on the way up from a subtree that is one black node short. -/
def eraseUp : Zip α → CTree α → CTree α
  | [], t => t
  | f :: z, t =>
    let r := eraseRound f.side t f.x f.c f.sib
    if r.2 then eraseUp z r.1 else plug z r.1

/-- What the repair lifts out of the subtrees on the other side than `e`. -/
def lifts (e : Side) : Zip α → CTree α → List α
  | [], _ => []
  | f :: z, t =>
    let r := eraseRound f.side t f.x f.c f.sib
    (if f.side = e then lifted e f.sib else []) ++ if r.2 then lifts e z r.1 else []

/-- A node with at most one child leaves its place: the path to it, the child and the colour of the node. For a node
with two children that is its successor, which takes the place of the node. -/
def takeOut (z : Zip α) (l : CTree α) (c : Color) (r : CTree α) : Zip α × CTree α × Color :=
  match l with
  | .leaf => (z, r, c)
  | .node .. => match popMin r with
    | none => (z, l, c)
    | some (zr, y, cy, t) => (zr ++ ⟨.right, y, c, l⟩ :: z, t, cy)

/-- The tree without the node whose subtrees are `l` and `r`. -/
def erase (z : Zip α) (l : CTree α) (c : Color) (r : CTree α) : CTree α :=
  let (z', t, cy) := takeOut z l c r
  if cy = .red then z'.plug t else if t.color = .red then z'.plug (t.setColor .black) else eraseUp z' t

def eraseLifts (e : Side) (z : Zip α) (l : CTree α) (c : Color) (r : CTree α) : List α :=
  let (z', t, cy) := takeOut z l c r
  if cy = .red ∨ t.color = .red then [] else lifts e z' t

/-! ### Paths -/

section
variable {z w : Zip α} {t t' : CTree α} {f : Frame α} {e : Side} {p x y : α} {c : Color} {l r : CTree α}

theorem mem_plug : y ∈ (plug z t).toList ↔ y ∈ t.toList ∨ y ∈ labels z := by
  rw [(perm_labels z t).mem_iff, List.mem_append]

theorem nodup_of_plug (hn : (plug z t).toList.Nodup) : t.toList.Nodup :=
  ((perm_labels z t).nodup_iff.1 hn).of_append_left

theorem below_plug_of_mem (hn : (plug z t).toList.Nodup) (hp : p ∈ t.toList) : (plug z t).Below p e y ↔ t.Below p e y := by
  induction z generalizing t with
  | nil => exact Iff.rfl
  | cons f z ih => exact (ih hn ((mem_toList_mk ..).2 (.inr (.inl hp)))).trans (below_mk_of_mem (nodup_of_plug hn) hp)

theorem below_frame_near (hn : (plug (w ++ f :: z) t).toList.Nodup) :
    (plug (w ++ f :: z) t).Below f.x f.side y ↔ y ∈ (plug w t).toList := by
  rw [plug_append] at hn ⊢
  change (plug z (mk f.side (plug w t) f.x f.c f.sib)).toList.Nodup at hn
  change (plug z (mk f.side (plug w t) f.x f.c f.sib)).Below f.x f.side y ↔ _
  rw [below_plug_of_mem hn ((mem_toList_mk ..).2 (.inl rfl)), below_mk_near (nodup_of_plug hn)]

theorem below_frame_far (hn : (plug (w ++ f :: z) t).toList.Nodup) :
    (plug (w ++ f :: z) t).Below f.x f.side.flip y ↔ y ∈ f.sib.toList := by
  rw [plug_append] at hn ⊢
  change (plug z (mk f.side (plug w t) f.x f.c f.sib)).toList.Nodup at hn
  change (plug z (mk f.side (plug w t) f.x f.c f.sib)).Below f.x f.side.flip y ↔ _
  rw [below_plug_of_mem hn ((mem_toList_mk ..).2 (.inl rfl)), below_mk_far (nodup_of_plug hn)]

theorem plug_congr_toList (h : t'.toList = t.toList) : (plug z t').toList = (plug z t).toList := by
  rw [toList_plug, toList_plug, h]

theorem below_frame_congr (h : t'.toList = t.toList) (hn : (plug z t).toList.Nodup) (hf : f ∈ z) :
    ((plug z t').Below f.x f.side y ↔ (plug z t).Below f.x f.side y) ∧
      ((plug z t').Below f.x f.side.flip y ↔ (plug z t).Below f.x f.side.flip y) := by
  obtain ⟨w, z', rfl⟩ := List.append_of_mem hf
  have hn' : (plug (w ++ f :: z') t').toList.Nodup := plug_congr_toList h ▸ hn
  rw [below_frame_near hn, below_frame_near hn', below_frame_far hn, below_frame_far hn', plug_congr_toList h]
  exact ⟨Iff.rfl, Iff.rfl⟩

/-- The whole subtree at the end of the path, and the subtrees of the path on its side, stay; the others lose what is
lifted. -/
structure Raised (z : Zip α) (t : CTree α) (lost : Side → List α) (u : CTree α) : Prop where
  toList : u.toList = (plug z t).toList
  inside : ∀ p ∈ t.toList, ∀ e y, u.Below p e y ↔ t.Below p e y
  near : ∀ f ∈ z, ∀ y, u.Below f.x f.side y ↔ (plug z t).Below f.x f.side y
  far : ∀ f ∈ z, ∀ y, u.Below f.x f.side.flip y ↔ (plug z t).Below f.x f.side.flip y ∧ y ∉ lost f.side

theorem raised_plug (hn : (plug z t).toList.Nodup) : Raised z t (fun _ => []) (plug z t) :=
  ⟨rfl, fun _ hp _ _ => below_plug_of_mem hn hp, fun _ _ _ => Iff.rfl, fun _ _ _ => by simp⟩

theorem mem_labels_of_frame (hf : f ∈ z) (hy : y ∈ f.sib.toList) : y ∈ labels z := by
  induction z with
  | nil => cases hf
  | cons g z ih =>
    rw [labels, List.mem_cons, List.mem_append]
    rcases List.mem_cons.1 hf with rfl | hf
    · exact .inr (.inl hy)
    · exact .inr (.inr (ih hf))

theorem frame_not_mem_sib {g : Frame α} (hn : (labels z).Nodup) (hf : f ∈ z) (hg : g ∈ z) :
    f.x ∉ g.sib.toList := by
  induction z with
  | nil => cases hf
  | cons h z ih =>
    rw [labels, List.nodup_cons, List.mem_append, not_or] at hn
    obtain ⟨⟨hsib, hz⟩, hn⟩ := hn
    have hx : ∀ f ∈ z, f.x ∈ labels z := fun f hf => by
      obtain ⟨w, z', rfl⟩ := List.append_of_mem hf
      rw [mem_labels_append]
      exact .inr List.mem_cons_self
    rcases List.mem_cons.1 hf with rfl | hf' <;> rcases List.mem_cons.1 hg with rfl | hg'
    · exact hsib
    · exact fun hm => hz (mem_labels_of_frame hg' hm)
    · exact fun hm => List.disjoint_of_nodup_append hn hm (hx f hf')
    · exact ih hn.of_append_right hf' hg'

theorem mem_lifts {d : Side} (h : y ∈ lifts d z t) : ∃ f ∈ z, f.side = d ∧ y ∈ f.sib.toList := by
  induction z generalizing t with
  | nil => cases h
  | cons f z ih =>
    rw [lifts, List.mem_append] at h
    rcases h with h | h
    · split at h
      · next hd => exact ⟨f, List.mem_cons_self, hd, mem_of_mem_lifted (hd ▸ h)⟩
      · cases h
    · split at h
      · obtain ⟨g, hg, hd, hy⟩ := ih h
        exact ⟨g, List.mem_cons_of_mem _ hg, hd, hy⟩
      · cases h

theorem below_of_carries {d : Side} {far : α → Prop} {u : CTree α} (h : Carries d t p far u) (hn : u.toList.Nodup) :
    (∀ y, u.Below p d y ↔ y ∈ t.toList) ∧ (∀ y, u.Below p d.flip y ↔ far y) ∧
      ∀ q ∈ t.toList, ∀ e y, u.Below q e y ↔ t.Below q e y := by
  obtain ⟨w, c, sib, rfl, hfar⟩ := h
  have hn' := nodup_of_plug hn
  have hp : p ∈ (mk d t p c sib).toList := (mem_toList_mk ..).2 (.inl rfl)
  refine ⟨fun y => ?_, fun y => ?_, fun q hq e y => ?_⟩
  · rw [below_plug_of_mem hn hp, below_mk_near hn']
  · rw [below_plug_of_mem hn hp, below_mk_far hn', hfar]
  · rw [below_plug_of_mem hn ((mem_toList_mk ..).2 (.inr (.inl hq))), below_mk_of_mem hn' hq]

/-- One round, and the repair above it. -/
theorem Raised.cons {u : CTree α} {lost : Side → List α} (hn : (plug (f :: z) t).toList.Nodup)
    (h : Raised z (eraseRound f.side t f.x f.c f.sib).1 lost u) (hlost : ∀ d, ∀ y ∈ lost d, y ∈ labels z) :
    Raised (f :: z) t (fun e => (if f.side = e then lifted e f.sib else []) ++ lost e) u := by
  have hnt : (CTree.mk f.side t f.x f.c f.sib).toList.Nodup := nodup_of_plug hn
  have hlist : (eraseRound f.side t f.x f.c f.sib).1.toList = (CTree.mk f.side t f.x f.c f.sib).toList :=
    toList_eraseRound
  obtain ⟨hnear, hfar, hinside⟩ := below_of_carries (carries_eraseRound (d := f.side) (t := t) (p := f.x) (c := f.c)
    (nodup_mk.1 hnt).2.2.2.1) (hlist ▸ hnt)
  have hmem : ∀ y, y ∈ (CTree.mk f.side t f.x f.c f.sib).toList → y ∈ (eraseRound f.side t f.x f.c f.sib).1.toList :=
    fun y hy => hlist ▸ hy
  have hfx := hmem f.x ((mem_toList_mk ..).2 (.inl rfl))
  have hdisj : ∀ y ∈ f.sib.toList, y ∉ labels z := by
    have hd := List.disjoint_of_nodup_append ((perm_labels z _).nodup_iff.1 hn)
    exact fun y hy => hd ((mem_toList_mk ..).2 (.inr (.inr hy)))
  refine ⟨h.toList.trans (plug_congr_toList hlist), fun q hq e y => ?_, fun g hg y => ?_, fun g hg y => ?_⟩
  · rw [h.inside q (hmem q ((mem_toList_mk ..).2 (.inr (.inl hq)))), hinside q hq]
  · rcases List.mem_cons.1 hg with rfl | hg
    · rw [h.inside _ hfx, hnear]
      exact (below_frame_near (w := []) hn).symm
    · rw [h.near g hg, (below_frame_congr hlist hn hg).1]
      rfl
  · rcases List.mem_cons.1 hg with rfl | hg
    · have hsib := below_frame_far (w := []) (y := y) hn
      rw [h.inside _ hfx, hfar, ← hsib, if_pos rfl, List.mem_append, not_or]
      exact ⟨fun ⟨hy, hl⟩ => ⟨hy, hl, fun hl' => hdisj y (hsib.1 hy) (hlost _ y hl')⟩, fun ⟨hy, hl, _⟩ => ⟨hy, hl⟩⟩
    · have hcongr := (below_frame_congr (y := y) hlist hn hg).2
      rw [h.far g hg, hcongr, List.mem_append, not_or]
      refine ⟨fun ⟨hy, hl⟩ => ⟨hy, fun hl' => ?_, hl⟩, fun ⟨hy, _, hl⟩ => ⟨hy, hl⟩⟩
      obtain ⟨w, z', rfl⟩ := List.append_of_mem hg
      have hy' := mem_labels_of_frame hg ((below_frame_far (w := f :: w) hn).1 hy)
      split at hl'
      · next hd => exact hdisj y (mem_of_mem_lifted (hd ▸ hl')) hy'
      · cases hl'

theorem raised_eraseUp (hn : (plug z t).toList.Nodup) : Raised z t (fun e => lifts e z t) (eraseUp z t) := by
  induction z generalizing t with
  | nil => exact ⟨rfl, fun _ _ _ _ => Iff.rfl, nofun, nofun⟩
  | cons f z ih =>
    have hn' : (plug z (eraseRound f.side t f.x f.c f.sib).1).toList.Nodup := plug_congr_toList toList_eraseRound ▸ hn
    rw [eraseUp]
    split
    · next hshort =>
      have h := (ih hn').cons hn fun d y hy => by
        obtain ⟨g, hg, -, hy⟩ := mem_lifts hy
        exact mem_labels_of_frame hg hy
      simp only [lifts, hshort, if_true]
      exact h
    · next hshort =>
      have h := (raised_plug hn').cons hn nofun
      simp only [lifts, hshort]
      exact h

theorem below_setColor : (t.setColor c).Below p e y ↔ t.Below p e y := by
  cases t with
  | leaf => exact Iff.rfl
  | node l x c' r => exact Iff.rfl

theorem raised_setColor (hn : (plug z t).toList.Nodup) (c : Color) : Raised z t (fun _ => []) (plug z (t.setColor c)) := by
  have hlist := toList_setColor c t
  have hn' : (plug z (t.setColor c)).toList.Nodup := plug_congr_toList hlist ▸ hn
  refine ⟨plug_congr_toList hlist, fun q hq e y => ?_, fun f hf y => (below_frame_congr hlist hn hf).1, fun f hf y => ?_⟩
  · rw [below_plug_of_mem hn' (hlist ▸ hq), below_setColor]
  · rw [(below_frame_congr hlist hn hf).2]
    simp

/-! ### The whole removal -/

theorem popMin_eq_none : popMin t = none ↔ t = .leaf := by
  cases t with
  | leaf => simp [popMin]
  | node l x c r =>
    rw [popMin]
    split <;> simp

theorem popMin_plug (hw : ∀ f ∈ w, f.side = .left) : popMin (plug w (.node .leaf y c t)) = some (w, y, c, t) := by
  induction w using List.reverseRecOn with
  | nil => rfl
  | append_singleton w f ih =>
    obtain ⟨d, x, c', r⟩ := f
    have hd : d = .left := hw ⟨d, x, c', r⟩ (by simp)
    subst hd
    rw [plug_append]
    change popMin (.node (plug w (.node .leaf y c t)) x c' r) = _
    rw [popMin, ih fun g hg => hw g (List.mem_append_left _ hg)]

theorem plug_popMin {cy : Color} (h : popMin t = some (w, y, cy, r)) :
    t = plug w (.node .leaf y cy r) ∧ ∀ f ∈ w, f.side = .left := by
  induction t generalizing w with
  | leaf => cases h
  | node a x c b iha ihb =>
    rw [popMin] at h
    split at h
    · next ha =>
      cases h
      exact ⟨by rw [popMin_eq_none.1 ha]; rfl, nofun⟩
    · next w' y' cy' r' ha =>
      cases h
      obtain ⟨rfl, hw⟩ := iha ha
      refine ⟨by rw [plug_append]; rfl, fun f hf => ?_⟩
      rcases List.mem_append.1 hf with hf | hf
      · exact hw f hf
      · rw [List.mem_singleton.1 hf]

theorem takeOut_right_leaf (hl : l ≠ .leaf) : takeOut z l c .leaf = (z, l, c) := by
  cases l with
  | leaf => exact absurd rfl hl
  | node => rfl

theorem takeOut_plug {cy : Color} (hl : l ≠ .leaf) (hw : ∀ f ∈ w, f.side = .left) :
    takeOut z l c (plug w (.node .leaf y cy t)) = (w ++ ⟨.right, y, c, l⟩ :: z, t, cy) := by
  cases l with
  | leaf => exact absurd rfl hl
  | node => rw [takeOut, popMin_plug hw]

theorem exists_takeOut (z : Zip α) (l : CTree α) (c : Color) (r : CTree α) :
    ∃ w, (takeOut z l c r).1 = w ++ z ∧ (plug w (takeOut z l c r).2.1).toList = l.toList ++ r.toList := by
  cases l with
  | leaf => exact ⟨[], rfl, rfl⟩
  | node a x' c' b =>
    rw [takeOut]
    split
    · next hr => exact ⟨[], rfl, by rw [popMin_eq_none.1 hr, toList_leaf, List.append_nil]; rfl⟩
    · next w y cy t hr =>
      obtain ⟨rfl, hw⟩ := plug_popMin hr
      refine ⟨w ++ [⟨.right, y, c, .node a x' c' b⟩], by simp, ?_⟩
      rw [plug_append]
      simp [plug, toList_plug, mk, before_eq_nil hw]

/-- The node that leaves had the black height that its place asks for. -/
theorem fits_takeOut {m : Nat} (hb : Balanced (plug z (.node l x c r)) .black m) :
    ∃ d y n, Balanced (mk d .leaf y (takeOut z l c r).2.2 (takeOut z l c r).2.1) (takeOut z l c r).2.2 n ∧
      Fits (takeOut z l c r).1 (takeOut z l c r).2.2 n := by
  obtain ⟨n, hbn, hzn⟩ := Fits.of_plug hb
  by_cases hl : l = .leaf
  · subst hl
    exact ⟨.left, x, n, hbn, hzn⟩
  · by_cases hr : r = .leaf
    · subst hr
      rw [takeOut_right_leaf hl]
      exact ⟨.right, x, n, hbn, hzn⟩
    · cases hmin : popMin r with
      | none => exact absurd (popMin_eq_none.1 hmin) hr
      | some m =>
        obtain ⟨w, y, cy, t⟩ := m
        obtain ⟨rfl, hw⟩ := plug_popMin hmin
        have hb' : Balanced (plug (w ++ ⟨.right, x, c, l⟩ :: z) (.node .leaf y cy t)) .black m := by
          rw [plug_append]
          exact hb
        obtain ⟨k, hbk, hzk⟩ := Fits.of_plug hb'
        rw [takeOut_plug hl hw]
        exact ⟨.left, y, k, hbk, hzk.relabel y⟩

theorem raised_erase (hn : (plug (takeOut z l c r).1 (takeOut z l c r).2.1).toList.Nodup) :
    Raised (takeOut z l c r).1 (takeOut z l c r).2.1 (fun e => eraseLifts e z l c r) (erase z l c r) := by
  simp only [erase, eraseLifts]
  generalize takeOut z l c r = m at hn
  obtain ⟨z', t, cy⟩ := m
  dsimp only at hn ⊢
  by_cases hc : cy = .red
  · simp only [hc, true_or, if_true]
    exact raised_plug hn
  · by_cases ht : t.color = .red
    · simp only [hc, ht, or_true, if_true, if_false]
      exact raised_setColor hn .black
    · simp only [hc, ht, or_self, if_false]
      exact raised_eraseUp hn

theorem toList_takeOut (z : Zip α) (l : CTree α) (c : Color) (r : CTree α) :
    (plug (takeOut z l c r).1 (takeOut z l c r).2.1).toList = before z ++ (l.toList ++ r.toList) ++ after z := by
  obtain ⟨w, hw, hlist⟩ := exists_takeOut z l c r
  rw [hw, plug_append, toList_plug, hlist]

theorem nodup_takeOut (hn : (plug z (.node l x c r)).toList.Nodup) :
    (plug (takeOut z l c r).1 (takeOut z l c r).2.1).toList.Nodup := by
  rw [toList_plug] at hn
  rw [toList_takeOut]
  refine hn.sublist (((List.Sublist.append_left ?_ _)).append_right _)
  exact (List.sublist_cons_self x r.toList).append_left _

theorem toList_erase (hn : (plug z (.node l x c r)).toList.Nodup) :
    (erase z l c r).toList = before z ++ (l.toList ++ r.toList) ++ after z :=
  (raised_erase (nodup_takeOut hn)).toList.trans (toList_takeOut z l c r)

theorem sublist_erase (hn : (plug z (.node l x c r)).toList.Nodup) :
    (erase z l c r).toList.Sublist (plug z (.node l x c r)).toList := by
  rw [toList_erase hn, toList_plug]
  exact ((List.sublist_cons_self x r.toList).append_left _ |>.append_left _).append_right _

theorem mem_erase (hn : (plug z (.node l x c r)).toList.Nodup) :
    y ∈ (erase z l c r).toList ↔ y ∈ (plug z (.node l x c r)).toList ∧ y ≠ x := by
  have hsplit : (plug z (.node l x c r)).toList = before z ++ l.toList ++ x :: (r.toList ++ after z) := by
    simp [toList_plug]
  rw [hsplit, List.nodup_middle, List.nodup_cons] at hn
  rw [toList_erase (by rw [hsplit, List.nodup_middle, List.nodup_cons]; exact hn), hsplit, List.perm_middle.mem_iff,
    List.mem_cons]
  have hmem : y ∈ before z ++ (l.toList ++ r.toList) ++ after z ↔ y ∈ before z ++ l.toList ++ (r.toList ++ after z) := by
    simp only [List.append_assoc]
  rw [hmem]
  exact ⟨fun h => ⟨.inr h, ne_of_mem_of_not_mem h hn.1⟩, fun ⟨h, hne⟩ => h.resolve_left hne⟩

/-- A node above the removed one only loses it on its side. -/
theorem below_erase_near (hn : (plug z (.node l x c r)).toList.Nodup) (hf : f ∈ z) :
    (erase z l c r).Below f.x f.side y ↔ (plug z (.node l x c r)).Below f.x f.side y ∧ y ≠ x := by
  have hn₁ := nodup_takeOut hn
  have hraised := raised_erase hn₁
  obtain ⟨w, hw, hlist⟩ := exists_takeOut z l c r
  rw [hraised.near f (hw ▸ List.mem_append_right w hf)]
  obtain ⟨u, z', rfl⟩ := List.append_of_mem hf
  rw [hw, ← List.append_assoc] at hn₁ ⊢
  rw [below_frame_near hn₁, below_frame_near hn, plug_append, mem_plug (z := u), hlist,
    mem_plug]
  have hx : x ∉ l.toList ++ r.toList ∧ x ∉ labels u := by
    rw [plug_append] at hn
    have hn' := (perm_labels u _).nodup_iff.1 (nodup_of_plug (z := f :: z') hn)
    have hp := ((toList_mk_perm .left l x c r).append_right (labels u)).nodup_iff.1 hn'
    rw [List.cons_append, List.nodup_cons, List.mem_append, not_or] at hp
    exact hp.1
  rw [toList_node, List.mem_append, List.mem_append, List.mem_cons]
  constructor
  · rintro (h | h)
    · exact ⟨.inl (h.imp_right .inr), fun heq => hx.1 (heq ▸ List.mem_append.2 h)⟩
    · exact ⟨.inr h, fun heq => hx.2 (heq ▸ h)⟩
  · rintro ⟨(h | rfl | h) | h, hne⟩
    · exact .inl (.inl h)
    · exact absurd rfl hne
    · exact .inl (.inr h)
    · exact .inr h

theorem below_erase_far (hn : (plug z (.node l x c r)).toList.Nodup) (hf : f ∈ z) :
    (erase z l c r).Below f.x f.side.flip y ↔
      (plug z (.node l x c r)).Below f.x f.side.flip y ∧ y ∉ eraseLifts f.side z l c r := by
  have hn₁ := nodup_takeOut hn
  have hraised := raised_erase hn₁
  obtain ⟨w, hw, -⟩ := exists_takeOut z l c r
  rw [hraised.far f (hw ▸ List.mem_append_right w hf)]
  obtain ⟨u, z', rfl⟩ := List.append_of_mem hf
  rw [hw, ← List.append_assoc] at hn₁ ⊢
  rw [below_frame_far hn₁, below_frame_far hn]

/-- What is lifted was below the removed node, or on the other side of a node above it. -/
theorem mem_eraseLifts (h : y ∈ eraseLifts e z l c r) :
    y ∈ l.toList ++ r.toList ∨ ∃ f ∈ z, f.side = e ∧ y ∈ f.sib.toList := by
  obtain ⟨w, hw, hlist⟩ := exists_takeOut z l c r
  rw [eraseLifts] at h
  dsimp only at h
  split at h
  · cases h
  · obtain ⟨f, hf, hd, hy⟩ := mem_lifts h
    rw [hw, List.mem_append] at hf
    rcases hf with hf | hf
    · exact .inl (hlist ▸ mem_plug.2 (.inr (mem_labels_of_frame hf hy)))
    · exact .inr ⟨f, hf, hd, hy⟩

end

end Zip

end Lib
