import Mathlib.Data.List.Perm.Basic
import Mathlib.Data.List.Nodup
import Mathlib.Tactic.Common

/-!
# Coloured binary trees and their zippers

Labelled binary trees with a colour at every node, the in-order sequence, the red-black balance
predicate `Balanced`, and zippers: a `Zip` is the path from a subtree up to the root. `Fits z c n`
says that a balanced tree with root colour `c` and black height `n` may be put into the hole of `z`.
Everything that comes in two mirrored versions takes a `Side`; `CTree.mk d` is the node whose child
on side `d` is named first.
-/

namespace Lib

inductive Color where
  | red
  | black
deriving DecidableEq, Repr

inductive Side where
  | left
  | right
deriving DecidableEq, Repr

namespace Side

def flip : Side → Side
  | left => right
  | right => left

@[simp] theorem flip_flip (d : Side) : d.flip.flip = d := by cases d <;> rfl

@[simp] theorem flip_ne (d : Side) : d.flip ≠ d := by cases d <;> decide

@[simp] theorem ne_flip (d : Side) : d ≠ d.flip := by cases d <;> decide

theorem eq_flip_of_ne {d e : Side} (h : d ≠ e) : d = e.flip := by
  cases d <;> cases e <;> first | rfl | exact absurd rfl h

end Side

inductive CTree (α : Type) where
  | leaf
  | node (l : CTree α) (x : α) (c : Color) (r : CTree α)

namespace CTree

variable {α : Type}

/-- The in-order sequence. -/
def toList : CTree α → List α
  | leaf => []
  | node l x _ r => l.toList ++ x :: r.toList

/-- The colour of the root; a leaf counts as black. -/
def color : CTree α → Color
  | leaf => .black
  | node _ _ c _ => c

/-- The node with child `a` on side `d` and child `b` on the other side. -/
def mk (d : Side) (a : CTree α) (x : α) (c : Color) (b : CTree α) : CTree α :=
  match d with
  | .left => node a x c b
  | .right => node b x c a

def setColor (c : Color) : CTree α → CTree α
  | leaf => leaf
  | node l x _ r => node l x c r

@[simp] theorem toList_leaf : (leaf : CTree α).toList = [] := rfl

@[simp] theorem toList_node (l : CTree α) (x : α) (c : Color) (r : CTree α) :
    (node l x c r).toList = l.toList ++ x :: r.toList := rfl

@[simp] theorem color_mk (d : Side) (a : CTree α) (x : α) (c : Color) (b : CTree α) :
    (mk d a x c b).color = c := by cases d <;> rfl

@[simp] theorem setColor_mk (d : Side) (a : CTree α) (x : α) (c c' : Color) (b : CTree α) :
    (mk d a x c b).setColor c' = mk d a x c' b := by cases d <;> rfl

theorem mk_flip (d : Side) (a : CTree α) (x : α) (c : Color) (b : CTree α) :
    mk d.flip a x c b = mk d b x c a := by cases d <;> rfl

theorem toList_mk_perm (d : Side) (a : CTree α) (x : α) (c : Color) (b : CTree α) :
    (mk d a x c b).toList.Perm (x :: (a.toList ++ b.toList)) := by
  cases d
  · exact List.perm_middle
  · exact List.perm_middle.trans (List.Perm.cons _ List.perm_append_comm)

@[simp] theorem mem_toList_mk {y : α} (d : Side) (a : CTree α) (x : α) (c : Color) (b : CTree α) :
    y ∈ (mk d a x c b).toList ↔ y = x ∨ y ∈ a.toList ∨ y ∈ b.toList := by
  rw [(toList_mk_perm d a x c b).mem_iff, List.mem_cons, List.mem_append]

theorem exists_mk (d : Side) (l : CTree α) (x : α) (c : Color) (r : CTree α) :
    ∃ a b, node l x c r = mk d a x c b := by
  cases d
  · exact ⟨l, r, rfl⟩
  · exact ⟨r, l, rfl⟩

theorem eq_mk_or_leaf (d : Side) (t : CTree α) : t = leaf ∨ ∃ a x c b, t = mk d a x c b := by
  cases t with
  | leaf => exact .inl rfl
  | node l x c r =>
    obtain ⟨a, b, h⟩ := exists_mk d l x c r
    exact .inr ⟨a, x, c, b, h⟩

theorem mk_ne_leaf (d : Side) (a : CTree α) (x : α) (c : Color) (b : CTree α) : mk d a x c b ≠ leaf := by
  cases d <;> simp [mk]

theorem toList_rotate (d : Side) (a b e : CTree α) (x y : α) (c c' : Color) :
    (mk d a x c (mk d b y c' e)).toList = (mk d (mk d a x c b) y c' e).toList := by
  cases d <;> simp [mk]

theorem toList_recolor (d : Side) (a b : CTree α) (x : α) (c c' : Color) :
    (mk d a x c b).toList = (mk d a x c' b).toList := by
  cases d <;> simp [mk]

@[simp] theorem toList_setColor (c : Color) (t : CTree α) : (t.setColor c).toList = t.toList := by
  cases t <;> rfl

theorem setColor_eq_self {c : Color} {t : CTree α} (h : t.color = c) : t.setColor c = t := by
  cases t with
  | leaf => rfl
  | node l x c' r => rw [← h]; rfl

/-- Red-black balance: `Balanced t c n` holds for a tree with root colour `c`, no red node with a
red child and `n` black nodes on every path to a leaf. -/
inductive Balanced : CTree α → Color → Nat → Prop where
  | leaf : Balanced leaf .black 0
  | red {l r : CTree α} {x : α} {n : Nat} : Balanced l .black n → Balanced r .black n →
      Balanced (node l x .red r) .red n
  | black {l r : CTree α} {x : α} {cl cr : Color} {n : Nat} : Balanced l cl n → Balanced r cr n →
      Balanced (node l x .black r) .black (n + 1)

namespace Balanced

theorem color_eq {t : CTree α} {c : Color} {n : Nat} (h : Balanced t c n) : t.color = c := by
  cases h <;> rfl

theorem mk_red {d : Side} {a b : CTree α} {x : α} {n : Nat} (ha : Balanced a .black n)
    (hb : Balanced b .black n) : Balanced (mk d a x .red b) .red n := by
  cases d
  · exact .red ha hb
  · exact .red hb ha

theorem mk_black {d : Side} {a b : CTree α} {x : α} {ca cb : Color} {n : Nat} (ha : Balanced a ca n)
    (hb : Balanced b cb n) : Balanced (mk d a x .black b) .black (n + 1) := by
  cases d
  · exact .black ha hb
  · exact .black hb ha

theorem mk_red_inv {d : Side} {a b : CTree α} {x : α} {c : Color} {n : Nat}
    (h : Balanced (mk d a x .red b) c n) : c = .red ∧ Balanced a .black n ∧ Balanced b .black n := by
  cases d <;> cases h <;> exact ⟨rfl, ‹_›, ‹_›⟩

theorem mk_black_inv {d : Side} {a b : CTree α} {x : α} {c : Color} {n : Nat}
    (h : Balanced (mk d a x .black b) c n) :
    c = .black ∧ ∃ m ca cb, n = m + 1 ∧ Balanced a ca m ∧ Balanced b cb m := by
  cases d <;> cases h <;> exact ⟨rfl, _, _, _, rfl, ‹_›, ‹_›⟩

theorem exists_mk_of_pos {t : CTree α} {c : Color} {n : Nat} (d : Side) (h : Balanced t c (n + 1)) :
    ∃ a x b, t = mk d a x c b := by
  obtain rfl | ⟨a, x, c', b, rfl⟩ := eq_mk_or_leaf d t
  · cases h
  · have := h.color_eq
    rw [color_mk] at this
    exact ⟨a, x, b, by rw [this]⟩

theorem exists_mk_red {t : CTree α} {n : Nat} (d : Side) (h : Balanced t .red n) :
    ∃ a x b, t = mk d a x .red b := by
  obtain rfl | ⟨a, x, c, b, rfl⟩ := eq_mk_or_leaf d t
  · cases h
  · exact ⟨a, x, b, by rw [← h.color_eq, color_mk]⟩

theorem setColor_black {t : CTree α} {n : Nat} (h : Balanced t .red n) :
    Balanced (t.setColor .black) .black (n + 1) := by
  cases h with
  | red hl hr => exact .black hl hr

theorem eq_node_of_mem {t : CTree α} {x : α} {c : Color} {n : Nat} (h : Balanced t c n) (hx : x ∈ t.toList) :
    ∃ l y r, t = node l y c r := by
  cases h with
  | leaf => cases hx
  | red => exact ⟨_, _, _, rfl⟩
  | black => exact ⟨_, _, _, rfl⟩

end Balanced

end CTree

/-! ### Zippers -/

/-- One step of a path: the hole is the child on side `side` of the node `x`, `sib` is its other
child. -/
structure Frame (α : Type) where
  side : Side
  x : α
  c : Color
  sib : CTree α

/-- The path from a hole up to the root, nearest frame first. -/
abbrev Zip (α : Type) := List (Frame α)

namespace Zip

variable {α : Type}

open CTree

def plug : Zip α → CTree α → CTree α
  | [], t => t
  | f :: z, t => plug z (mk f.side t f.x f.c f.sib)

/-- The labels of a path. -/
def labels : Zip α → List α
  | [] => []
  | f :: z => f.x :: (f.sib.toList ++ labels z)

/-- The in-order sequence left of the hole. -/
def before : Zip α → List α
  | [] => []
  | f :: z => match f.side with
    | .left => before z
    | .right => before z ++ (f.sib.toList ++ [f.x])

/-- The in-order sequence right of the hole. -/
def after : Zip α → List α
  | [] => []
  | f :: z => match f.side with
    | .left => f.x :: f.sib.toList ++ after z
    | .right => after z

theorem toList_plug (z : Zip α) (t : CTree α) : (plug z t).toList = before z ++ t.toList ++ after z := by
  induction z generalizing t with
  | nil => simp [plug, before, after]
  | cons f z ih =>
    obtain ⟨d, x, c, sib⟩ := f
    cases d <;> simp [plug, ih, before, after, mk]

theorem before_eq_nil {z : Zip α} (h : ∀ f ∈ z, f.side = .left) : before z = [] := by
  induction z with
  | nil => rfl
  | cons f z ih =>
    rw [List.forall_mem_cons] at h
    rw [before, h.1]
    exact ih h.2

theorem perm_labels (z : Zip α) (t : CTree α) : (plug z t).toList.Perm (t.toList ++ labels z) := by
  induction z generalizing t with
  | nil => simp [plug, labels]
  | cons f z ih =>
    obtain ⟨d, x, c, sib⟩ := f
    refine (ih _).trans (((toList_mk_perm d t x c sib).append_right _).trans ?_)
    simpa [labels] using List.perm_middle.symm

theorem mem_labels_iff (z : Zip α) (y : α) : y ∈ labels z ↔ y ∈ before z ∨ y ∈ after z := by
  have h := (perm_labels z leaf).mem_iff (a := y)
  rw [toList_plug] at h
  simpa using h.symm

theorem mem_labels_append (z z' : Zip α) (y : α) : y ∈ labels (z ++ z') ↔ y ∈ labels z ∨ y ∈ labels z' := by
  induction z with
  | nil => simp [labels]
  | cons f z ih => simp [labels, ih, or_assoc]

theorem length_le_labels (z : Zip α) : z.length ≤ (labels z).length := by
  induction z with
  | nil => exact Nat.le_refl 0
  | cons f z ih => simp only [labels, List.length_cons, List.length_append]; omega

/-- `Fits z c n`: the hole of `z` takes a balanced tree with root colour `c` and black height `n`. -/
inductive Fits : Zip α → Color → Nat → Prop where
  | root {n : Nat} : Fits [] .black n
  | red {d : Side} {x : α} {s : CTree α} {z : Zip α} {n : Nat} : Balanced s .black n → Fits z .red n →
      Fits (⟨d, x, .red, s⟩ :: z) .black n
  | black {d : Side} {x : α} {s : CTree α} {z : Zip α} {c c' : Color} {n : Nat} : Balanced s c' n →
      Fits z .black (n + 1) → Fits (⟨d, x, .black, s⟩ :: z) c n

theorem Fits.to_black {z : Zip α} {c : Color} {n : Nat} (h : Fits z c n) : Fits z .black n := by
  cases h with
  | root => exact .root
  | red hs hz => exact .red hs hz
  | black hs hz => exact .black hs hz

theorem Fits.plug {z : Zip α} {c : Color} {n : Nat} {t : CTree α} (hz : Fits z c n)
    (ht : Balanced t c n) : ∃ m, Balanced (plug z t) .black m := by
  induction hz generalizing t with
  | root => exact ⟨_, ht⟩
  | red hs _ ih => exact ih (.mk_red ht hs)
  | black hs _ ih => exact ih (.mk_black ht hs)

/-- A subtree of a balanced tree: the subtree is balanced and its path fits. -/
theorem Fits.of_plug {z : Zip α} {t : CTree α} {m : Nat} (h : Balanced (Zip.plug z t) .black m) :
    ∃ n, Balanced t t.color n ∧ Fits z t.color n := by
  induction z generalizing t with
  | nil =>
    have hc : t.color = .black := Balanced.color_eq h
    rw [hc]
    exact ⟨m, h, .root⟩
  | cons f z ih =>
    obtain ⟨d, x, c, sib⟩ := f
    obtain ⟨n, hb, hf⟩ := ih (t := mk d t x c sib) h
    rw [color_mk] at hb hf
    cases c with
    | red =>
      obtain ⟨-, ht, hs⟩ := hb.mk_red_inv
      rw [ht.color_eq]
      exact ⟨n, ht, .red hs hf⟩
    | black =>
      obtain ⟨-, k, ct, cs, rfl, ht, hs⟩ := hb.mk_black_inv
      rw [ht.color_eq]
      exact ⟨k, ht, .black hs hf⟩

theorem plug_append (z z' : Zip α) (t : CTree α) : plug (z ++ z') t = plug z' (plug z t) := by
  induction z generalizing t with
  | nil => rfl
  | cons f z ih => exact ih _

theorem exists_plug_of_mem {t : CTree α} {x : α} (h : x ∈ t.toList) :
    ∃ (z : Zip α) (l : CTree α) (c : Color) (r : CTree α), t = plug z (.node l x c r) := by
  induction t with
  | leaf => cases h
  | node l y c r ihl ihr =>
    rcases List.mem_append.1 h with h | h
    · obtain ⟨z, l', c', r', rfl⟩ := ihl h
      exact ⟨z ++ [⟨.left, y, c, r⟩], l', c', r', by rw [plug_append]; rfl⟩
    · rcases List.mem_cons.1 h with rfl | h
      · exact ⟨[], l, c, r, rfl⟩
      · obtain ⟨z, l', c', r', rfl⟩ := ihr h
        exact ⟨z ++ [⟨.right, y, c, l⟩], l', c', r', by rw [plug_append]; rfl⟩

theorem Fits.relabel {z z' : Zip α} {d : Side} {x : α} (y : α) {c k : Color} {s : CTree α} {n : Nat}
    (h : Fits (z ++ ⟨d, x, c, s⟩ :: z') k n) : Fits (z ++ ⟨d, y, c, s⟩ :: z') k n := by
  induction z generalizing k n with
  | nil =>
    cases h with
    | red hs hz => exact .red hs hz
    | black hs hz => exact .black hs hz
  | cons f z ih =>
    cases h with
    | red hs hz => exact .red hs (ih hz)
    | black hs hz => exact .black hs (ih hz)

end Zip

end Lib
