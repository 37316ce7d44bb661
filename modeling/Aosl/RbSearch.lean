import Aosl.RbRep

/-!
# The descents of `lib/rbtree.c`

`aosl_vfind_rb_links` goes left at the nodes with `rb_cmp > 0`. On a tree whose in-order sequence has
these nodes at its end it stops at the hole between the two parts, and the neighbours it reports are
those of the hole. `aosl_vfind_rb_node` finds a node with `rb_cmp = 0` if the signs of `rb_cmp` are
sorted.
-/

namespace Aosl
open Lib Lib.CTree

/-- The memory holds a red-black tree with the nodes `l` in order. -/
def IsRb (s : RbSt) (l : List Ptr) : Prop :=
  ∃ t m, At s [] t ∧ Balanced t .black m ∧ t.toList = l ∧ s.count = l.length

/-- The signs of `cmp` along `l` are negative, zero, positive in this order. -/
def SignSorted (cmp : Ptr → Int) (l : List Ptr) : Prop :=
  l.Pairwise fun a b => (0 < cmp a → 0 < cmp b) ∧ (cmp b < 0 → cmp a < 0)

/-- The address of the field that holds the root of the focus. -/
def linkOf : Zip Ptr → RbLink
  | [] => .root
  | f :: _ => .child f.x f.side

theorem At.run_readLink {s : RbSt} {z : Zip Ptr} {t : CTree Ptr} (h : At s z t) :
    (readLink (linkOf z)).run s = some (rootPtr t, s) := by
  rcases z with _ | ⟨f, z⟩
  · rw [← (show s.rbNode = rootPtr t from h.zrep)]
    rfl
  · obtain ⟨h0, h1, -⟩ := h.zrep
    rw [linkOf, readLink, run_rbChild h0, h1]

/-- The record the descent has built up when it is at the hole of `z`. -/
def linksAt (z : Zip Ptr) : RbLinks := ⟨linkOf z, upPtr z, z.before.getLastD 0, z.after.headD 0⟩

theorem linksAt_cons_left (x : Ptr) (c : Color) (b : CTree Ptr) (z : Zip Ptr) :
    linksAt (⟨.left, x, c, b⟩ :: z) = { linksAt z with link := .child x .left, parent := x, next := x } := rfl

theorem linksAt_cons_right (x : Ptr) (c : Color) (b : CTree Ptr) (z : Zip Ptr) :
    linksAt (⟨.right, x, c, b⟩ :: z) = { linksAt z with link := .child x .right, parent := x, prev := x } := by
  simp [linksAt, Zip.before, Zip.after, linkOf, upPtr]

theorem findRbLinksLoop_run {s : RbSt} {cmp : Ptr → Int} {k : Nat} {z : Zip Ptr} {t : CTree Ptr}
    (h : At s z t) (hf : t.toList.length < k)
    (hs : t.toList.Pairwise fun a b => 0 < cmp a → 0 < cmp b)
    (hb : ∀ p ∈ z.before, ¬0 < cmp p) (ha : ∀ p ∈ z.after, 0 < cmp p) :
    ∃ z', (findRbLinksLoop cmp k (linksAt z)).run s = some (linksAt z', s) ∧ At s z' .leaf ∧
      z'.plug .leaf = z.plug t ∧ (∀ p ∈ z'.before, ¬0 < cmp p) ∧ ∀ p ∈ z'.after, 0 < cmp p := by
  induction k generalizing z t with
  | zero => omega
  | succ k ih =>
    simp only [findRbLinksLoop, StateT.run_bind, show (linksAt z).link = linkOf z from rfl, h.run_readLink,
      Option.bind_eq_bind, Option.bind_some]
    cases t with
    | leaf => exact ⟨z, rfl, h, rfl, hb, ha⟩
    | node l x c r =>
      rw [rootPtr, if_neg (h.ne_zero (d := .left))]
      simp only [toList_node, List.length_append, List.length_cons] at hf
      rw [toList_node, List.pairwise_append, List.pairwise_cons] at hs
      obtain ⟨hl, ⟨hxr, hr⟩, hlr⟩ := hs
      by_cases hx : 0 < cmp x
      · rw [if_pos hx, ← linksAt_cons_left x c r]
        refine ih h.near (by omega) hl hb fun p hp => ?_
        simp only [Zip.after, List.cons_append, List.mem_cons, List.mem_append] at hp
        rcases hp with rfl | hp | hp
        exacts [hx, hxr p hp hx, ha p hp]
      · rw [if_neg hx, ← linksAt_cons_right x c l]
        refine ih (h.down_far (d := .left)) (by omega) hr (fun p hp => ?_) ha
        simp only [Zip.before, List.mem_append, List.mem_singleton] at hp
        rcases hp with hp | hp | rfl
        exacts [hb p hp, fun hc => hx (hlr p hp x (by simp) hc), hx]

/-- The descent ends at the hole between the nodes where it goes right and those where it goes left. -/
theorem aoslFindRbLinks_run {s : RbSt} {cmp : Ptr → Int} {t : CTree Ptr} (h : At s [] t)
    (hc : s.count = t.toList.length) (hs : SignSorted cmp t.toList) :
    ∃ z, (aoslFindRbLinks cmp).run s = some (linksAt z, s) ∧ At s z .leaf ∧ z.plug .leaf = t ∧
      z.before = t.toList.filter (fun p => ¬0 < cmp p) ∧ z.after = t.toList.filter (fun p => 0 < cmp p) := by
  obtain ⟨z, hrun, hz, hp, hb, ha⟩ := findRbLinksLoop_run (k := s.count + 1) h (by omega)
    (hs.imp fun h => h.1) (by simp [Zip.before]) (by simp [Zip.after])
  refine ⟨z, ?_, hz, hp, ?_⟩
  · simp only [aoslFindRbLinks, StateT.run_bind, StateT.run_get, Option.pure_def, Option.bind_eq_bind,
      Option.bind_some]
    exact hrun
  · have ht : t.toList = z.before ++ z.after := by
      rw [← show z.plug .leaf = t from hp, Zip.toList_plug]
      simp
    rw [ht, List.filter_append, List.filter_append]
    have h1 : z.before.filter (fun p => 0 < cmp p) = [] := List.filter_eq_nil_iff.2 (by simpa using hb)
    have h2 : z.after.filter (fun p => ¬0 < cmp p) = [] := List.filter_eq_nil_iff.2 (by simpa using ha)
    have h3 : z.before.filter (fun p => ¬0 < cmp p) = z.before := List.filter_eq_self.2 (by simpa using hb)
    have h4 : z.after.filter (fun p => 0 < cmp p) = z.after := List.filter_eq_self.2 (by simpa using ha)
    rw [h1, h2, h3, h4]
    simp

theorem findRbNodeLoop_run {s : RbSt} {cmp : Ptr → Int} {k : Nat} {z : Zip Ptr} {t : CTree Ptr}
    (h : At s z t) (hf : t.toList.length < k) (hs : SignSorted cmp t.toList) :
    ∃ p, (findRbNodeLoop cmp k (rootPtr t)).run s = some (p, s) ∧
      (p = 0 ∧ (∀ q ∈ t.toList, cmp q ≠ 0) ∨ p ∈ t.toList ∧ cmp p = 0) := by
  induction k generalizing z t with
  | zero => omega
  | succ k ih =>
    cases t with
    | leaf => exact ⟨0, rfl, .inl ⟨rfl, by simp⟩⟩
    | node l x c r =>
      have hx0 := h.ne_zero (d := .left)
      rw [show rootPtr (.node l x c r) = x from rfl]
      simp only [findRbNodeLoop, if_neg hx0]
      simp only [toList_node, List.length_append, List.length_cons] at hf
      rw [SignSorted, toList_node, List.pairwise_append, List.pairwise_cons] at hs
      obtain ⟨hl, ⟨hxr, hr⟩, hlr⟩ := hs
      by_cases hx : cmp x = 0
      · exact ⟨x, by rw [if_pos hx]; rfl, .inr ⟨by simp, hx⟩⟩
      rw [if_neg hx]
      by_cases hp : 0 < cmp x
      · obtain ⟨p, hrun, hp'⟩ := ih (h.near (d := .left)) (by omega) hl
        refine ⟨p, ?_, ?_⟩
        · rw [if_pos hp, StateT.run_bind, run_rbChild hx0, h.child_near (d := .left)]
          exact hrun
        · rcases hp' with ⟨rfl, hne⟩ | ⟨hm, h0⟩
          · refine .inl ⟨rfl, fun q hq => ?_⟩
            simp only [toList_node, List.mem_append, List.mem_cons] at hq
            rcases hq with hq | rfl | hq
            exacts [hne q hq, hx, fun h0 => by have := (hxr q hq).1 hp; omega]
          · exact .inr ⟨by simp [hm], h0⟩
      · obtain ⟨p, hrun, hp'⟩ := ih (h.down_far (d := .left)) (by omega) hr
        refine ⟨p, ?_, ?_⟩
        · rw [if_neg hp, StateT.run_bind, run_rbChild hx0, show Side.right = Side.flip .left from rfl,
            h.child_far (d := .left)]
          exact hrun
        · rcases hp' with ⟨rfl, hne⟩ | ⟨hm, h0⟩
          · refine .inl ⟨rfl, fun q hq => ?_⟩
            simp only [toList_node, List.mem_append, List.mem_cons] at hq
            rcases hq with hq | rfl | hq
            exacts [fun h0 => by have := (hlr q hq x (by simp)).2 (by omega); omega, hx, hne q hq]
          · exact .inr ⟨by simp [hm], h0⟩

theorem aoslFindRbNode_run {s : RbSt} {cmp : Ptr → Int} {l : List Ptr} (h : IsRb s l) (hs : SignSorted cmp l) :
    ∃ p, (aoslFindRbNode cmp).run s = some (p, s) ∧
      (p = 0 ∧ (∀ q ∈ l, cmp q ≠ 0) ∨ p ∈ l ∧ cmp p = 0) := by
  obtain ⟨t, m, hat, -, rfl, hc⟩ := h
  obtain ⟨p, hrun, hp⟩ := findRbNodeLoop_run (k := s.count + 1) hat (by omega) hs
  refine ⟨p, ?_, hp⟩
  simp only [aoslFindRbNode, StateT.run_bind, StateT.run_get, Option.pure_def, Option.bind_eq_bind,
    Option.bind_some, show s.rbNode = rootPtr t from hat.zrep]
  exact hrun

theorem rbTraverseLdr_eq {s : RbSt} {par : Ptr} {t : CTree Ptr} {fuel : Nat} (h : Rep s par t)
    (hf : t.toList.length < fuel) : rbTraverseLdr s fuel (rootPtr t) = t.toList := by
  induction t generalizing par fuel with
  | leaf =>
    cases fuel with
    | zero => omega
    | succ fuel => rfl
  | node l x c r ihl ihr =>
    obtain ⟨h0, hl, hr, -, hL, hR⟩ := h
    cases fuel with
    | zero => omega
    | succ fuel =>
      simp only [toList_node, List.length_append, List.length_cons] at hf
      rw [rootPtr, rbTraverseLdr, if_neg h0, hl, hr, ihl hL (by omega), ihr hR (by omega), toList_node]

theorem IsRb.traverse {s : RbSt} {l : List Ptr} (h : IsRb s l) : aoslRbTraverseLdr s = l := by
  obtain ⟨t, m, hat, -, rfl, hc⟩ := h
  rw [aoslRbTraverseLdr, show s.rbNode = rootPtr t from hat.zrep]
  exact rbTraverseLdr_eq hat.rep (by omega)

end Aosl
