import Aosl.RbRun

/-!
# Iterating over the red-black tree

`aosl_rb_first`, `aosl_rb_last`, `aosl_rb_next` and `aosl_rb_prev`: one definition over a `Side` for each pair. From a node
the steps towards one side give the nodes beyond it in order (`rbStep_run`), so that the loops over all nodes go through
the in-order sequence and its reverse. With the two descents this is all the tree says about its nodes
(`run_search`).
-/

namespace Aosl
open Lib

/-! ### The code -/

/-- `while (n->rb_left) n = n->rb_left` for `d = left`. -/
def rbDescend (d : Side) : Nat → Ptr → RbM Ptr
  | 0, _ => failure
  | fuel + 1, n => do
    let c ← rbChild d n
    if c = 0 then
      return n
    rbDescend d fuel c

/-- `aosl_rb_first` for `d = left`, `aosl_rb_last` for `d = right`. -/
def rbEnd (d : Side) : RbM Ptr := do
  let n := (← get).rbNode
  if n = 0 then
    return 0
  rbDescend d ((← get).count + 1) n

def aoslRbFirst : RbM Ptr := rbEnd .left

def aoslRbLast : RbM Ptr := rbEnd .right

/-- `while ((parent = rb_parent (node)) && node == parent->rb_right) node = parent` for `d = right`; returns `parent`. -/
def rbClimb (d : Side) : Nat → Ptr → RbM Ptr
  | 0, _ => failure
  | fuel + 1, node => do
    let parent ← rbParent node
    if parent = 0 then
      return 0
    if node = (← rbChild d parent) then
      rbClimb d fuel parent
    else
      return parent

/-- `aosl_rb_next` for `d = right`, `aosl_rb_prev` for `d = left`. -/
def rbStep (d : Side) (node : Ptr) : RbM Ptr := do
  if (← rbParent node) = node then
    return 0
  let c ← rbChild d node
  if c ≠ 0 then
    rbDescend d.flip ((← get).count + 1) c
  else
    rbClimb d ((← get).count + 1) node

def aoslRbNext : Ptr → RbM Ptr := rbStep .right

def aoslRbPrev : Ptr → RbM Ptr := rbStep .left

/-- The nodes of the loop `for (node = p; node != NULL; node = next (node))`. -/
def rbWalk (next : Ptr → RbM Ptr) : Nat → Ptr → RbM (List Ptr)
  | 0, _ => failure
  | fuel + 1, p => do
    if p = 0 then
      return []
    let q ← next p
    return p :: (← rbWalk next fuel q)

/-- All nodes from `aosl_rb_first` on, or from `aosl_rb_last` on backwards. -/
def rbEnumerate (d : Side) : RbM (List Ptr) := do
  let p ← rbEnd d.flip
  rbWalk (rbStep d) ((← get).count + 1) p

/-! ### Directions -/

open Lib.CTree

/-- A sequence in the direction of `d`. -/
def toward {α : Type} (d : Side) (l : List α) : List α :=
  match d with
  | .left => l.reverse
  | .right => l

/-- What lies beyond the hole in the direction of `d`. -/
def beyond (d : Side) (z : Zip Ptr) : List Ptr :=
  match d with
  | .left => z.before.reverse
  | .right => z.after

section
variable {s : RbSt} {d : Side} {z : Zip Ptr} {t a b : CTree Ptr} {x : Ptr} {c : Color} {k : Nat}

theorem mem_toward {α : Type} {l : List α} {x : α} : x ∈ toward d l ↔ x ∈ l := by
  cases d with
  | left => exact List.mem_reverse
  | right => exact Iff.rfl

theorem toward_mk (d : Side) (a : CTree Ptr) (x : Ptr) (c : Color) (b : CTree Ptr) :
    toward d (mk d.flip a x c b).toList = toward d a.toList ++ x :: toward d b.toList := by
  cases d with
  | left => simp [toward, mk, Side.flip]
  | right => rfl

theorem toward_plug (d : Side) (z : Zip Ptr) (t : CTree Ptr) :
    toward d (z.plug t).toList = (beyond d.flip z).reverse ++ (toward d t.toList ++ beyond d z) := by
  rw [Zip.toList_plug]
  cases d with
  | left => simp [toward, beyond, Side.flip]
  | right => simp [toward, beyond, Side.flip]

theorem beyond_cons_flip (d : Side) (x : Ptr) (c : Color) (b : CTree Ptr) (z : Zip Ptr) :
    beyond d (⟨d.flip, x, c, b⟩ :: z) = x :: (toward d b.toList ++ beyond d z) := by
  cases d with
  | left => simp [beyond, toward, Zip.before, Side.flip]
  | right => rfl

theorem beyond_cons_self (d : Side) (x : Ptr) (c : Color) (b : CTree Ptr) (z : Zip Ptr) :
    beyond d (⟨d, x, c, b⟩ :: z) = beyond d z := by
  cases d with
  | left => rfl
  | right => rfl

/-! ### The loops -/

/-- The descent ends at the first node in the other direction. -/
theorem rbDescend_run (h : At s z t) (ht : t ≠ .leaf) (hk : t.toList.length ≤ k) :
    (rbDescend d k (rootPtr t)).run s = some ((toward d.flip t.toList).headD 0, s) := by
  induction k generalizing z t with
  | zero =>
    cases t with
    | leaf => exact absurd rfl ht
    | node l x c r => simp at hk
  | succ k ih =>
    obtain rfl | ⟨a, x, c, b, rfl⟩ := eq_mk_or_leaf d t
    · exact absurd rfl ht
    have hlen : (mk d a x c b).toList.length = a.toList.length + b.toList.length + 1 := by
      simp [(toList_mk_perm d a x c b).length_eq]
    have hwalk : toward d.flip (mk d a x c b).toList = toward d.flip a.toList ++ x :: toward d.flip b.toList := by
      have := toward_mk d.flip a x c b
      rwa [Side.flip_flip] at this
    rw [rootPtr_mk, hwalk]
    simp only [rbDescend, StateT.run_bind, run_rbChild h.ne_zero, h.child_near, Option.bind_eq_bind, Option.bind_some]
    by_cases ha : a = .leaf
    · subst ha
      rw [rootPtr_leaf, if_pos rfl]
      cases d <;> rfl
    · rw [if_neg (h.near.rep.rootPtr_ne_zero ha), ih h.near ha (by omega)]
      have hne : toward d.flip a.toList ≠ [] := by
        intro hnil
        have hmem := rootPtr_mem (h.near.rep.rootPtr_ne_zero ha)
        rw [← mem_toward (d := d.flip), hnil] at hmem
        cases hmem
      obtain ⟨y, ys, hy⟩ := List.exists_cons_of_ne_nil hne
      rw [hy]
      rfl

theorem At.rootPtr_ne_sib (h : At s (⟨d, x, c, b⟩ :: z) t) (ht : t ≠ .leaf) : rootPtr t ≠ rootPtr b := by
  intro heq
  have h0 := h.rep.rootPtr_ne_zero ht
  have hmem : rootPtr t ∈ b.toList := heq ▸ rootPtr_mem (heq ▸ h0)
  have hn := (List.nodup_append.1 h.nodup).2.2 _ (rootPtr_mem h0) (rootPtr t)
  exact hn (by simp [Zip.labels, hmem]) rfl

/-- The climb ends at the first node beyond the subtree. -/
theorem rbClimb_run (h : At s z t) (ht : t ≠ .leaf) (hk : z.length < k) :
    (rbClimb d k (rootPtr t)).run s = some ((beyond d z).headD 0, s) := by
  induction k generalizing z t with
  | zero => omega
  | succ k ih =>
    obtain rfl | ⟨a', y, c', b', rfl⟩ := eq_mk_or_leaf d t
    · exact absurd rfl ht
    simp only [rbClimb, StateT.run_bind, rootPtr_mk, h.run_parent, Option.bind_eq_bind, Option.bind_some]
    rcases z with _ | ⟨⟨e, x, c, b⟩, z⟩
    · cases d <;> rfl
    have hup := At.up_iff.1 h
    have hx0 : x ≠ 0 := hup.ne_zero
    rw [upPtr, if_neg hx0, StateT.run_bind, run_rbChild hx0]
    dsimp only [Option.bind_eq_bind, Option.bind_some]
    by_cases he : e = d
    · subst he
      rw [hup.child_near, rootPtr_mk, if_pos rfl, beyond_cons_self]
      have hclimb := ih hup (mk_ne_leaf _ _ _ _ _) (by simpa using hk)
      rwa [rootPtr_mk] at hclimb
    · obtain rfl : e = d.flip := Side.eq_flip_of_ne he
      have hne := h.rootPtr_ne_sib (mk_ne_leaf _ _ _ _ _)
      have hfar : s.child d x = rootPtr b := by
        have := hup.child_far
        rwa [Side.flip_flip] at this
      rw [rootPtr_mk] at hne
      rw [hfar, if_neg hne, beyond_cons_flip]
      rfl

/-- The step from a node, of which `b` is the child in the direction of `d`. -/
theorem rbStep_run (h : At s z (mk d.flip a x c b)) (hz : z.length ≤ s.count) (hb : b.toList.length ≤ s.count) :
    (rbStep d x).run s = some ((toward d b.toList ++ beyond d z).headD 0, s) := by
  have hx0 := h.ne_zero
  have hpar : upPtr z ≠ x := by
    intro heq
    have hmem : x ∈ z.labels := heq ▸ upPtr_mem (heq ▸ hx0)
    exact (List.nodup_cons.1 h.nodup_mk).1 (by simp [hmem])
  have hchild : s.child d x = rootPtr b := by
    have := h.child_far
    rwa [Side.flip_flip] at this
  simp only [rbStep, StateT.run_bind, h.run_parent, Option.bind_eq_bind, Option.bind_some, if_neg hpar, run_rbChild hx0,
    hchild]
  by_cases hleaf : b = .leaf
  · subst hleaf
    rw [rootPtr_leaf, if_neg (not_not.2 rfl)]
    have hclimb := rbClimb_run (d := d) (k := s.count + 1) h (mk_ne_leaf _ _ _ _ _) (by omega)
    rw [rootPtr_mk] at hclimb
    have hnil : toward d (CTree.leaf : CTree Ptr).toList = [] := by cases d <;> rfl
    rw [hnil, List.nil_append]
    exact hclimb
  · have hfar := h.down_far
    rw [if_pos (hfar.rep.rootPtr_ne_zero hleaf)]
    have hdesc := rbDescend_run (d := d.flip) (k := s.count + 1) hfar hleaf (by omega)
    have hne : toward d b.toList ≠ [] := fun hnil => by
      have hmem := rootPtr_mem (hfar.rep.rootPtr_ne_zero hleaf)
      rw [← mem_toward (d := d), hnil] at hmem
      cases hmem
    obtain ⟨y, ys, hy⟩ := List.exists_cons_of_ne_nil hne
    rw [Side.flip_flip, hy] at hdesc
    rw [hy]
    exact hdesc

end

/-! ### The whole tree -/

namespace IsRb

variable {s : RbSt} {l l₁ l₂ : List Ptr} {d : Side} {x : Ptr} {k : Nat}

theorem nodup_toward (h : IsRb s l) (d : Side) : (toward d l).Nodup := by
  cases d with
  | left => exact List.nodup_reverse.2 h.nodup
  | right => exact h.nodup

theorem rbStep_run (h : IsRb s l) (hl : toward d l = l₁ ++ x :: l₂) : (rbStep d x).run s = some (l₂.headD 0, s) := by
  have hx : x ∈ l := by
    rw [← mem_toward (d := d), hl]
    simp
  have hnodup := h.nodup_toward d
  obtain ⟨t, m, hat, -, rfl, hcount⟩ := h
  obtain ⟨z, a', c, b', rfl⟩ := Zip.exists_plug_of_mem hx
  obtain ⟨a, b, hmk⟩ := exists_mk d.flip a' x c b'
  rw [hmk] at hat hl hcount hnodup
  have hlen := (Zip.perm_labels z (mk d.flip a x c b)).length_eq
  have hlen' := (toList_mk_perm d.flip a x c b).length_eq
  have hz := Zip.length_le_labels z
  simp only [List.length_append, List.length_cons] at hlen hlen'
  have hstep := Aosl.rbStep_run (At.plug_iff.2 hat) (by omega) (by omega)
  rw [hl] at hnodup
  rw [toward_plug, toward_mk, List.append_assoc, ← List.append_assoc, List.cons_append] at hl
  rw [← hl] at hnodup
  have hmid := List.nodup_middle.1 hnodup
  rw [List.nodup_cons, List.mem_append, not_or] at hmid
  obtain ⟨-, -, htail⟩ := (List.append_cons_inj_of_notMem hmid.1.1 hmid.1.2).1 hl
  rw [← htail]
  exact hstep

theorem rbWalk_run (h : IsRb s l) (hl : toward d l = l₁ ++ l₂) (hk : l₂.length < k) :
    (rbWalk (rbStep d) k (l₂.headD 0)).run s = some (l₂, s) := by
  induction k generalizing l₁ l₂ with
  | zero => omega
  | succ k ih =>
    cases l₂ with
    | nil => rfl
    | cons x l₂ =>
      have hx0 : x ≠ 0 := by
        rintro rfl
        refine h.zero_not_mem ?_
        rw [← mem_toward (d := d), hl]
        simp
      have hnext : toward d l = l₁ ++ [x] ++ l₂ := by rw [hl, List.append_assoc]; rfl
      have hrest := ih hnext (by simpa using hk)
      rw [List.headD_cons, rbWalk, if_neg hx0]
      simp only [StateT.run_bind, h.rbStep_run hl, Option.bind_eq_bind, Option.bind_some, hrest]
      rfl

theorem rbEnd_run (h : IsRb s l) (d : Side) : (rbEnd d.flip).run s = some ((toward d l).headD 0, s) := by
  obtain ⟨t, m, hat, -, rfl, hcount⟩ := h
  simp only [rbEnd, StateT.run_bind, StateT.run_get, Option.pure_def, Option.bind_eq_bind, Option.bind_some,
    show s.rbNode = rootPtr t from hat.zrep]
  by_cases ht : t = .leaf
  · subst ht
    rw [rootPtr_leaf, if_pos rfl]
    cases d <;> rfl
  · rw [if_neg (hat.rep.rootPtr_ne_zero ht)]
    have hrun := rbDescend_run (d := d.flip) (k := s.count + 1) hat ht (by omega)
    rwa [Side.flip_flip] at hrun

/-- From the first node on, the steps give all nodes in order; from the last one on, in the reverse order. -/
theorem rbEnumerate_run (h : IsRb s l) (d : Side) : (rbEnumerate d).run s = some (toward d l, s) := by
  have hlen : (toward d l).length = s.count := by
    obtain ⟨t, m, -, -, -, hcount⟩ := h
    rw [hcount]
    cases d with
    | left => exact List.length_reverse
    | right => rfl
  have hall : toward d l = [] ++ toward d l := rfl
  have hwalk := h.rbWalk_run (k := s.count + 1) hall (by omega)
  simp only [rbEnumerate, StateT.run_bind, h.rbEnd_run, StateT.run_get, Option.pure_def, Option.bind_eq_bind,
    Option.bind_some, hwalk]

end IsRb

/-! ### Runs -/

/-- What the search and the iteration functions say of a tree with the in-order sequence `l`. -/
structure Searchable {K : Type} (cmp : K → K → Int) (c : RbCfg K) (l : List Ptr) : Prop where
  sorted : StableSort cmp c.key l c.members
  find : ∀ k, ∃ p, (aoslFindRbNode fun q => cmp (c.key q) k).run c.mem = some (p, c.mem) ∧
    (p ∈ c.members ∧ cmp (c.key p) k = 0 ∨ p = 0 ∧ ∀ q ∈ c.members, cmp (c.key q) k ≠ 0)
  next : (rbEnumerate .right).run c.mem = some (l, c.mem)
  prev : (rbEnumerate .left).run c.mem = some (l.reverse, c.mem)
  links : ∀ k, ∃ r l₁ l₂, (aoslFindRbLinks fun q => cmp (c.key q) k).run c.mem = some (r, c.mem) ∧
    (readLink r.link).run c.mem = some (0, c.mem) ∧ l = l₁ ++ l₂ ∧ r.prev = l₁.getLastD 0 ∧ r.next = l₂.headD 0 ∧
    (∀ q ∈ l₁, ¬0 < cmp (c.key q) k) ∧ (∀ q ∈ l₂, 0 < cmp (c.key q) k) ∧
    ∀ p, p ≠ 0 → p ∉ c.members → ∃ mem, (rbInsert p r.link r.parent).run c.mem = some ((), mem) ∧
      IsRb mem (l₁ ++ p :: l₂) ∧
      StableSort cmp (Function.update c.key p k) (l₁ ++ p :: l₂) (c.members ++ [p])

namespace RbCfg

variable {K : Type} {cmp : K → K → Int} {c : RbCfg K}

theorem Ok.searchable (hc : TotalPreorder cmp) (h : c.Ok cmp) : ∃ l, IsRb c.mem l ∧ Searchable cmp c l := by
  obtain ⟨l, hrb, hs⟩ := ok_iff.1 h
  have hmem : ∀ q, q ∈ l ↔ q ∈ c.members := fun q => hs.perm.mem_iff
  refine ⟨l, hrb, hs, fun k => ?_, hrb.rbEnumerate_run .right, hrb.rbEnumerate_run .left, fun k => ?_⟩
  · obtain ⟨p, hrun, ⟨h0, hnone⟩ | ⟨hp, hcmp⟩⟩ := aoslFindRbNode_run hrb (hs.sign_sorted hc k)
    · exact ⟨p, hrun, .inr ⟨h0, fun q hq => hnone q ((hmem q).2 hq)⟩⟩
    · exact ⟨p, hrun, .inl ⟨(hmem p).1 hp, hcmp⟩⟩
  · obtain ⟨t, m, hat, hb, rfl, hcount⟩ := hrb
    obtain ⟨z, hrun, hz, hplug, hbefore, hafter⟩ := aoslFindRbLinks_run hat hcount (hs.sign_sorted hc k)
    have hl : t.toList = z.before ++ z.after := by
      rw [← hplug, Zip.toList_plug, toList_leaf, List.append_nil]
    have hle : ∀ q ∈ z.before, ¬0 < cmp (c.key q) k := fun q hq => by
      rw [hbefore] at hq
      simpa using (List.mem_filter.1 hq).2
    have hpos : ∀ q ∈ z.after, 0 < cmp (c.key q) k := fun q hq => by
      rw [hafter] at hq
      simpa using (List.mem_filter.1 hq).2
    refine ⟨linksAt z, z.before, z.after, hrun, hz.run_readLink, hl, rfl, rfl, hle, hpos, fun p hp0 hp => ?_⟩
    have hpl : p ∉ t.toList := fun hm => hp ((hmem p).1 hm)
    obtain ⟨mem, hinsert, hrb'⟩ := rbInsert_run hz hplug hb hcount hp0 hpl
    refine ⟨mem, hinsert, hrb', ?_⟩
    have hs' : StableSort cmp (Function.update c.key p k) t.toList c.members :=
      hs.congr fun a ha => Function.update_of_ne (ne_of_mem_of_not_mem ha hpl) _ _
    have hnew : Function.update c.key p k p = k := Function.update_self p k c.key
    have hkey : ∀ q ∈ t.toList, Function.update c.key p k q = c.key q := fun q hq =>
      Function.update_of_ne (ne_of_mem_of_not_mem hq hpl) _ _
    have hle' : t.toList.filter (fun q => ¬0 < cmp (Function.update c.key p k q) k) = z.before :=
      (List.filter_congr fun q hq => by rw [hkey q hq]).trans hbefore.symm
    have hpos' : t.toList.filter (fun q => 0 < cmp (Function.update c.key p k q) k) = z.after :=
      (List.filter_congr fun q hq => by rw [hkey q hq]).trans hafter.symm
    have hins := hs'.insert (x := p) hc
    rwa [hnew, hle', hpos'] at hins

/-- After every sequence of operations the search finds what is there, the iteration goes through the nodes in order,
and the link for a new node is the right one. -/
theorem run_search (hc : TotalPreorder cmp) (s : RbSt) (key : Ptr → K) (ops : List (RbOp K))
    (hv : Along (RbCfg.step cmp) (fun c op => op.Valid c) ⟨aoslRbRootInit s, key, []⟩ ops) :
    ∃ c l, exec (RbCfg.step cmp) ⟨aoslRbRootInit s, key, []⟩ ops = some c ∧ IsRb c.mem l ∧ Searchable cmp c l := by
  obtain ⟨c, hrun, hok⟩ := exec_total (fun _ _ h hv => h.step hc hv) (ok_init s key) hv
  obtain ⟨l, hrb, hsearch⟩ := hok.searchable hc
  exact ⟨c, l, hrun, hrb, hsearch⟩

/-- Integer keys, two of them equal, and a node taken out again. -/
theorem run_search_int : ∃ c l, exec (RbCfg.step fun a b : Int => a - b)
    ⟨aoslRbRootInit ⟨fun _ => 7, fun _ _ => 9, 3, 5⟩, fun _ => 0, []⟩
    [.insert 1 5, .insert 2 9, .insert 3 7, .insert 4 7, .insert 5 6, .erase 3, .remove 9] = some c ∧
      IsRb c.mem l ∧ Searchable (fun a b : Int => a - b) c l :=
  run_search ⟨fun a b => by omega, fun a b c => by omega⟩ _ _ _ (by decide +kernel)

end RbCfg

end Aosl
