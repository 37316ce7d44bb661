import Mathlib.Data.List.Chain
import Mathlib.Data.List.Nodup
import Mathlib.Logic.Function.Basic

/-!
# Rings of cells

A cell has the fields `next` and `prev`, each a cell or a value that is none. A list is kept as a ring: it starts and
ends in a cell of its own, its head, and `m.Path h l h` says that the cells `l` follow the head. All that is done to a
ring is to join two cells: a cell is put in between by joining it to both sides, and taken out by joining its two
neighbours.
-/

namespace Lib

structure Links (α : Type) where
  next : α → Option α
  prev : α → Option α

namespace Links

variable {α : Type} {m : Links α} {a b c x y n : α} {l l₁ l₂ w : List α}

/-- `b` comes behind `a`. -/
def Joined (m : Links α) (a b : α) : Prop := m.next a = some b ∧ m.prev b = some a

/-- From `a` one comes through `l` to `b`, and back. -/
def Path (m : Links α) (a : α) (l : List α) (b : α) : Prop := (a :: (l ++ [b])).IsChain m.Joined

theorem path_cut : m.Path a (l₁ ++ l₂) b ↔ (a :: l₁).IsChain m.Joined ∧ m.Joined (l₁.getLastD a) (l₂.headD b) ∧
    (l₂ ++ [b]).IsChain m.Joined := by
  have hlast : (a :: l₁).getLast? = some (l₁.getLastD a) := by rw [List.getLast?_cons, List.getLastD_eq_getLast?]
  have hhead : (l₂ ++ [b]).head? = some (l₂.headD b) := by cases l₂ <;> rfl
  rw [Path, List.append_assoc, ← List.cons_append, List.isChain_append, hlast, hhead]
  exact and_congr_right fun _ => by simp [and_comm]

theorem path_split : m.Path a (l₁ ++ x :: l₂) b ↔ m.Path a l₁ x ∧ m.Path x l₂ b := by
  rw [Path, List.append_assoc]
  exact List.isChain_cons_split

theorem path_nil : m.Path a [] b ↔ m.Joined a b := List.isChain_pair

theorem path_cons : m.Path a (x :: l) b ↔ m.Joined a x ∧ m.Path x l b := List.isChain_cons_cons

theorem Path.next (h : m.Path a l b) : m.next a = some (l.headD b) := (path_cut.1 (show m.Path a ([] ++ l) b from h)).2.1.1

theorem Path.prev (h : m.Path a l b) : m.prev b = some (l.getLastD a) := by
  rw [← List.append_nil l] at h
  exact (path_cut.1 h).2.1.2

theorem Path.around (h : m.Path a (l₁ ++ n :: l₂) b) :
    m.prev n = some (l₁.getLastD a) ∧ m.next n = some (l₂.headD b) := by
  have hcut := path_cut.1 h
  exact ⟨hcut.2.1.2, Path.next hcut.2.2⟩

theorem Path.congr {m' : Links α} (h : m.Path a l b)
    (hm : ∀ c ∈ a :: (l ++ [b]), m'.next c = m.next c ∧ m'.prev c = m.prev c) : m'.Path a l b :=
  h.imp_of_mem_imp fun x y hx hy hj => ⟨(hm x hx).1.trans hj.1, (hm y hy).2.trans hj.2⟩

/-! ### Joining two cells -/

section join

variable [DecidableEq α]

def join (m : Links α) (a b : α) : Links α :=
  ⟨Function.update m.next a (some b), Function.update m.prev b (some a)⟩

theorem joined_join : (m.join a b).Joined a b := ⟨Function.update_self .., Function.update_self ..⟩

theorem Joined.join (h : m.Joined a b) (ha : a ≠ x) (hb : b ≠ y) : (m.join x y).Joined a b :=
  ⟨(Function.update_of_ne ha ..).trans h.1, (Function.update_of_ne hb ..).trans h.2⟩

/-- A chain keeps its joints, if what is joined are its last cell and its first, or cells elsewhere. -/
theorem chain_join (h : w.IsChain m.Joined) (hx : x ∉ w.dropLast) (hy : y ∉ w.tail) :
    w.IsChain (m.join x y).Joined := by
  induction w with
  | nil => exact .nil
  | cons a w ih =>
    cases w with
    | nil => exact .singleton a
    | cons b w =>
      rw [List.isChain_cons_cons] at h ⊢
      rw [List.dropLast_cons_cons, List.mem_cons, not_or] at hx
      rw [List.tail_cons, List.mem_cons, not_or] at hy
      refine ⟨h.1.join (Ne.symm hx.1) (Ne.symm hy.1), ih h.2 hx.2 hy.2⟩

theorem Path.join (h : m.Path a l b) (hx : x ∉ a :: l) (hy : y ∉ l ++ [b]) : (m.join x y).Path a l b := by
  refine chain_join h ?_ hy
  rwa [← List.cons_append, List.dropLast_concat]

theorem chain_snoc (h : (a :: l).IsChain m.Joined) (hd : (a :: l).Nodup) (hb : b ∉ l) :
    (m.join (l.getLastD a) b).Path a l b := by
  rw [← List.append_nil l, path_cut, List.append_nil]
  refine ⟨chain_join h ?_ hb, joined_join, .singleton b⟩
  rw [← List.dropLast_append_getLast (List.cons_ne_nil a l)] at hd
  have hlast := (List.nodup_append.1 hd).2.2
  intro hmem
  refine hlast _ hmem _ (List.mem_singleton_self _) ?_
  cases l <;> rfl

theorem chain_open (h : (l ++ [b]).IsChain m.Joined) (hd : (l ++ [b]).Nodup) (ha : a ∉ l) :
    (m.join a (l.headD b)).Path a l b := by
  refine List.isChain_cons.2 ⟨fun y hy => ?_, chain_join h (by rwa [List.dropLast_concat]) ?_⟩
  · obtain rfl : l.headD b = y := by cases l <;> exact Option.some.inj hy
    exact joined_join
  · cases l with
    | nil => exact List.not_mem_nil
    | cons x l => exact (List.nodup_cons.1 hd).1

theorem Path.insert (h : m.Path a (l₁ ++ l₂) b) (hd : (a :: (l₁ ++ l₂)).Nodup) (he : (l₁ ++ l₂ ++ [b]).Nodup)
    (hn : n ∉ a :: (l₁ ++ l₂)) (hb : n ≠ b) :
    ((m.join n (l₂.headD b)).join (l₁.getLastD a) n).Path a (l₁ ++ n :: l₂) b := by
  obtain ⟨h₁, -, h₂⟩ := path_cut.1 h
  rw [← List.cons_append] at hd hn
  rw [List.append_assoc] at he
  have hd' := List.nodup_append.1 hd
  have he' := List.nodup_append.1 he
  rw [List.mem_append, not_or] at hn
  have hhead : l₂.headD b ∈ l₂ ++ [b] := by cases l₂ <;> simp
  have hlast : l₁.getLastD a ∈ a :: l₁ := List.getLastD_mem_cons ..
  have hhead₁ : l₂.headD b ∉ l₁ := fun hmem => he'.2.2 _ hmem _ hhead rfl
  have hlast₂ : l₁.getLastD a ∉ l₂ := fun hmem => hd'.2.2 _ hlast _ hmem rfl
  have hopen : (m.join n (l₂.headD b)).Path n l₂ b := chain_open h₂ he'.2.1 hn.2
  have hfirst : (a :: l₁).IsChain (m.join n (l₂.headD b)).Joined :=
    chain_join h₁ (fun hmem => hn.1 (List.dropLast_subset _ hmem)) hhead₁
  have hclose := chain_snoc hfirst hd'.1 fun hmem => hn.1 (List.mem_cons_of_mem a hmem)
  have hrest := hopen.join (x := l₁.getLastD a) (y := n)
    (by
      rw [List.mem_cons, not_or]
      exact ⟨fun heq => hn.1 (heq ▸ hlast), hlast₂⟩)
    (by
      rw [List.mem_append, List.mem_singleton, not_or]
      exact ⟨hn.2, hb⟩)
  exact path_split.2 ⟨hclose, hrest⟩

theorem Path.remove (h : m.Path a (l₁ ++ n :: l₂) b) (hd : (a :: (l₁ ++ l₂)).Nodup) (he : (l₁ ++ l₂ ++ [b]).Nodup) :
    (m.join (l₁.getLastD a) (l₂.headD b)).Path a (l₁ ++ l₂) b := by
  obtain ⟨h₁, -, h₂⟩ := path_cut.1 h
  rw [List.append_assoc] at he
  have he' := List.nodup_append.1 he
  have hd' := List.nodup_append.1 (show (a :: l₁ ++ l₂).Nodup from hd)
  have hhead : l₂.headD b ∈ l₂ ++ [b] := by cases l₂ <;> simp
  have hlast : l₁.getLastD a ∈ a :: l₁ := List.getLastD_mem_cons ..
  have hclose := chain_snoc h₁ hd'.1 fun hmem => he'.2.2 _ hmem _ hhead rfl
  have hopen := chain_open (List.IsChain.tail h₂) he'.2.1 fun hmem => hd'.2.2 _ hlast _ hmem rfl
  exact path_cut.2 ⟨(path_cut.1 (show (m.join _ _).Path a (l₁ ++ []) _ by rwa [List.append_nil])).1, joined_join,
    (List.isChain_cons.1 hopen).2⟩

theorem Path.splice (h : m.Path a l₁ b) (h' : m.Path c (x :: l₂) y) (hd : (a :: (l₁ ++ x :: l₂)).Nodup)
    (he : (l₁ ++ x :: l₂ ++ [b]).Nodup) :
    ((m.join (l₁.getLastD a) x).join (l₂.getLastD x) b).Path a (l₁ ++ x :: l₂) b := by
  have hd' := List.nodup_append.1 (show (a :: l₁ ++ x :: l₂).Nodup from hd)
  rw [List.append_assoc] at he
  have he' := List.nodup_append.1 he
  have hlast : l₁.getLastD a ∈ a :: l₁ := List.getLastD_mem_cons ..
  have hlast' : l₂.getLastD x ∈ x :: l₂ := List.getLastD_mem_cons ..
  have hapart : ∀ y ∈ a :: l₁, y ∉ x :: l₂ := fun y hy hmem => hd'.2.2 y hy y hmem rfl
  have hb : b ∉ x :: l₂ := fun hmem => (List.nodup_append.1 he'.2.1).2.2 b hmem b (List.mem_singleton_self b) rfl
  have hb₁ : b ∉ l₁ := fun hmem => he'.2.2 b hmem b (List.mem_append_right _ (List.mem_singleton_self b)) rfl
  have hx : x ∉ l₁ := fun hmem => hapart x (List.mem_cons_of_mem a hmem) (List.mem_cons_self ..)
  have hfirst := chain_snoc (path_cut.1 (show m.Path a (l₁ ++ []) b by rwa [List.append_nil])).1 hd'.1 hx
  have hfirst' := hfirst.join (x := l₂.getLastD x) (y := b) (fun hmem => hapart _ hmem hlast') (by
    rw [List.mem_append, List.mem_singleton, not_or]
    exact ⟨hb₁, fun heq => hb (heq ▸ List.mem_cons_self ..)⟩)
  have hsecond : (x :: l₂).IsChain (m.join (l₁.getLastD a) x).Joined :=
    chain_join (List.IsChain.left_of_append (List.IsChain.tail h'))
      (fun hmem => hapart _ hlast (List.dropLast_subset _ hmem)) (List.nodup_cons.1 hd'.2.1).1
  exact path_split.2 ⟨hfirst', chain_snoc hsecond hd'.2.1 fun hmem => hb (List.mem_cons_of_mem x hmem)⟩

end join

end Links

end Lib
