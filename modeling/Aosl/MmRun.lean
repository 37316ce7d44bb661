import Aosl.Mm
import Mathlib.Tactic.Ring

/-!
# Memory statistics over whole runs

`__mm_ptr_tree` holds the live blocks (`PtrOk`), `__mm_pos_tree` counts them by function and line (`PosOk`), and
`__mem_used` is the sum of both. `mm_insert_ptr_dbg` adds a block to all three and `mm_remove_ptr` takes one away
(`mmInsertPtrDbg_inv`, `mmRemovePtr_inv`). The calls do this exactly when the HAL hands out and takes back a block, but
for one: a `realloc` for which the HAL frees the block and returns `NULL` is taken for a failure (`not_run_exact`).
-/

namespace Aosl
open Lib

/-! ### Trees sorted by key -/

/-- A red-black tree whose nodes are `l`, sorted by key. -/
structure Keyed {K : Type} (cmp : K → K → Int) (key : Ptr → K) (t : RbSt) (l : List Ptr) : Prop where
  isRb : IsRb t l
  sorted : l.Pairwise fun a b => cmp (key a) (key b) ≤ 0

namespace Keyed

variable {K : Type} {cmp : K → K → Int} {key key' : Ptr → K} {t : RbSt} {l : List Ptr} {x : Ptr}

theorem stableSort (h : Keyed cmp key t l) : StableSort cmp key l l := ⟨.refl l, h.sorted, fun _ => rfl⟩

theorem congr (h : Keyed cmp key t l) (hkey : ∀ q ∈ l, key' q = key q) : Keyed cmp key' t l :=
  ⟨h.isRb, h.sorted.imp_of_mem fun {a b} ha hb hab => by rwa [hkey a ha, hkey b hb]⟩

theorem find (hc : TotalPreorder cmp) (h : Keyed cmp key t l) (k : K) :
    ∃ p, (aoslFindRbNode fun q => cmp (key q) k).run t = some (p, t) ∧
      (p = 0 ∧ (∀ q ∈ l, cmp (key q) k ≠ 0) ∨ p ∈ l ∧ cmp (key p) k = 0) :=
  aoslFindRbNode_run h.isRb (h.stableSort.sign_sorted hc k)

theorem insert (hc : TotalPreorder cmp) (h : Keyed cmp key t l) (hx0 : x ≠ 0) (hx : x ∉ l) :
    ∃ t' l', (aoslRbInsertNode (fun q => cmp (key q) (key x)) x).run t = some ((), t') ∧ Keyed cmp key t' l' ∧
      l'.Perm (x :: l) := by
  obtain ⟨t', hrun, hrb⟩ := aoslRbInsertNode_run h.isRb (h.stableSort.sign_sorted hc (key x)) hx0 hx
  refine ⟨t', _, hrun, ⟨hrb, (h.stableSort.insert hc).sorted⟩, List.perm_middle.trans ?_⟩
  rw [h.stableSort.filter_append hc]

theorem remove (hc : TotalPreorder cmp) (h : Keyed cmp key t l) (k : K) :
    ∃ p t', (aoslRbRemove fun q => cmp (key q) k).run t = some (p, t') ∧ Keyed cmp key t' (l.erase p) ∧
      (p = 0 ∧ (∀ q ∈ l, cmp (key q) k ≠ 0) ∨ p ∈ l ∧ cmp (key p) k = 0) := by
  obtain ⟨p, t', hrun, hrb, hp⟩ := aoslRbRemove_run h.isRb (h.stableSort.sign_sorted hc k)
  exact ⟨p, t', hrun, ⟨hrb, h.sorted.sublist List.erase_sublist⟩, hp⟩

end Keyed

namespace Mm

/-! ### The comparisons -/

theorem mmPtrCmp_eq_zero {p q : Nat} : mmPtrCmp p q = 0 ↔ p = q := by
  rw [mmPtrCmp]
  split
  · omega
  · split <;> omega

theorem mmPtrCmp_total : TotalPreorder mmPtrCmp where
  swap a b := by
    rw [mmPtrCmp, mmPtrCmp]
    split <;> split <;> omega
  trans a b c := by
    rw [mmPtrCmp, mmPtrCmp, mmPtrCmp]
    split <;> split <;> split <;> omega

theorem strcmp_swap (a b : CStr) : 0 < strcmp a b ↔ strcmp b a < 0 := by
  induction a generalizing b with
  | nil => cases b <;> simp [strcmp]
  | cons x a ih =>
    cases b with
    | nil => simp [strcmp]
    | cons y b =>
      rw [strcmp, strcmp]
      by_cases h : x.toNat = y.toNat
      · rw [if_pos h, if_pos h.symm]
        exact ih b
      · rw [if_neg h, if_neg fun h' => h h'.symm]
        omega

theorem strcmp_eq_zero {a b : CStr} : strcmp a b = 0 ↔ a = b := by
  induction a generalizing b with
  | nil => cases b <;> simp [strcmp]
  | cons x a ih =>
    cases b with
    | nil => simp [strcmp]
    | cons y b =>
      rw [strcmp, List.cons.injEq, ← UInt8.toNat_inj]
      by_cases h : x.toNat = y.toNat
      · rw [if_pos h, ih]
        simp [h]
      · rw [if_neg h]
        omega

theorem strcmp_trans {a b c : CStr} (hab : strcmp a b ≤ 0) (hbc : strcmp b c ≤ 0) : strcmp a c ≤ 0 := by
  induction a generalizing b c with
  | nil => cases c <;> simp [strcmp]
  | cons x a ih =>
    cases b with
    | nil => simp [strcmp] at hab
    | cons y b =>
      cases c with
      | nil => simp [strcmp] at hbc
      | cons z c =>
        rw [strcmp] at hab hbc ⊢
        by_cases hxy : x.toNat = y.toNat
        · rw [if_pos hxy] at hab
          by_cases hyz : y.toNat = z.toNat
          · rw [if_pos hyz] at hbc
            rw [if_pos (hxy.trans hyz)]
            exact ih hab hbc
          · rw [if_neg hyz] at hbc
            rw [if_neg (by omega)]
            omega
        · rw [if_neg hxy] at hab
          by_cases hyz : y.toNat = z.toNat
          · rw [if_neg (by omega)]
            omega
          · rw [if_neg hyz] at hbc
            rw [if_neg (by omega)]
            omega

theorem strcmp_total : TotalPreorder strcmp := ⟨strcmp_swap, fun _ _ _ => strcmp_trans⟩

theorem mmPosCmp_eq_zero {p q : CStr × Int} : mmPosCmp p q = 0 ↔ p = q := by
  obtain ⟨f, i⟩ := p
  obtain ⟨g, j⟩ := q
  rw [mmPosCmp, Prod.mk.injEq, ← strcmp_eq_zero]
  dsimp only
  split
  · split <;> omega
  · split
    · omega
    · split <;> omega

theorem mmPosCmp_total : TotalPreorder mmPosCmp where
  swap := by
    rintro ⟨f, i⟩ ⟨g, j⟩
    have hswap := strcmp_total.swap f g
    have hswap' := strcmp_total.swap g f
    simp only [mmPosCmp]
    split_ifs <;> omega
  trans := by
    rintro ⟨f, i⟩ ⟨g, j⟩ ⟨h, k⟩ hab hbc
    have hswap := strcmp_total.swap f g
    have hswap' := strcmp_total.swap g f
    have htrans := strcmp_total.trans f g h
    simp only [mmPosCmp] at hab hbc ⊢
    by_cases hfg : strcmp f g = 0
    · obtain rfl := strcmp_eq_zero.1 hfg
      by_cases hgh : strcmp f h = 0
      · rw [if_neg (not_not.2 hfg)] at hab
        rw [if_neg (not_not.2 hgh)] at hbc ⊢
        split_ifs at hab hbc ⊢ <;> omega
      · rw [if_pos hgh] at hbc ⊢
        exact hbc
    · by_cases hgh : strcmp g h = 0
      · obtain rfl := strcmp_eq_zero.1 hgh
        rw [if_pos hfg] at hab ⊢
        exact hab
      · rw [if_pos hfg] at hab
        rw [if_pos hgh] at hbc
        have hfgh := htrans (by split_ifs at hab <;> omega) (by split_ifs at hbc <;> omega)
        have hne : strcmp f h ≠ 0 := fun hzero => by
          obtain rfl := strcmp_eq_zero.1 hzero
          split_ifs at hab hbc <;> omega
        rw [if_pos hne]
        split_ifs <;> omega

/-! ### The position tree -/

/-- How many of these blocks were allocated at `k`, and their size together. -/
def countAt (L : List PtrNode) (k : CStr × Int) : Nat := (L.filter fun b => b.pos = some k).length

def sizeAt (L : List PtrNode) (k : CStr × Int) : Nat := ((L.filter fun b => b.pos = some k).map PtrNode.size).sum

section
variable {L L' : List PtrNode} {b : PtrNode} {k : CStr × Int}

theorem countAt_cons : countAt (b :: L) k = (if b.pos = some k then 1 else 0) + countAt L k := by
  rw [countAt, countAt, List.filter_cons]
  split <;> split <;> simp_all [Nat.add_comm]

theorem sizeAt_cons : sizeAt (b :: L) k = (if b.pos = some k then b.size else 0) + sizeAt L k := by
  rw [sizeAt, sizeAt, List.filter_cons]
  split <;> split <;> simp_all

theorem countAt_perm (h : L.Perm L') (k : CStr × Int) : countAt L k = countAt L' k := (h.filter _).length_eq

theorem sizeAt_perm (h : L.Perm L') (k : CStr × Int) : sizeAt L k = sizeAt L' k := ((h.filter _).map _).sum_nat

theorem countAt_pos : 0 < countAt L k ↔ ∃ b ∈ L, b.pos = some k := by
  rw [countAt, List.length_pos_iff_exists_mem]
  simp

theorem sizeAt_eq_zero (h : countAt L k = 0) : sizeAt L k = 0 := by
  rw [countAt, List.length_eq_zero_iff] at h
  rw [sizeAt, h]
  rfl

end

/-- The nodes `ql` count the blocks `L`, and there is one for the place of every block. -/
structure PosExact (s : MmSt) (ql : List Ptr) (L : List PtrNode) : Prop where
  keyed : Keyed mmPosCmp (fun q => (s.posNode q).key) s.posTree ql
  uniq : (ql.map fun q => (s.posNode q).key).Nodup
  exact : ∀ q ∈ ql, (s.posNode q).cnts = countAt L (s.posNode q).key ∧
    (s.posNode q).size = BitVec.ofNat 64 (sizeAt L (s.posNode q).key)
  covers : ∀ b ∈ L, ∀ k, b.pos = some k → ∃ q ∈ ql, (s.posNode q).key = k
  small : ∀ k, countAt L k ≤ 2147483647

/-- And no node counts nothing. -/
structure PosOk (s : MmSt) (ql : List Ptr) (L : List PtrNode) : Prop extends PosExact s ql L where
  pos : ∀ q ∈ ql, 0 < countAt L (s.posNode q).key

/-- What the position tree does not concern, and what is used for the rest of it. -/
structure SamePtrs (s : MmSt) (ql : List Ptr) (s' : MmSt) (ql' : List Ptr) : Prop where
  inited : s'.inited = s.inited
  ptrTree : s'.ptrTree = s.ptrTree
  ptrNode : s'.ptrNode = s.ptrNode
  live : s'.live = s.live
  used : s'.memUsed + BitVec.ofNat 64 (sizeofPosNode * ql.length) =
    s.memUsed + BitVec.ofNat 64 (sizeofPosNode * ql'.length)

section
variable {s s' : MmSt} {ql : List Ptr} {L L' : List PtrNode} {b : PtrNode} {hal : Hal} {func : CStr} {line : Int} {p : Ptr}

theorem PosOk.perm (h : PosOk s ql L) (hp : L.Perm L') : PosOk s ql L' where
  keyed := h.keyed
  uniq := h.uniq
  exact q hq := by
    rw [← countAt_perm hp, ← sizeAt_perm hp]
    exact h.exact q hq
  covers b hb := h.covers b (hp.mem_iff.2 hb)
  small k := by
    rw [← countAt_perm hp]
    exact h.small k
  pos q hq := by
    rw [← countAt_perm hp]
    exact h.pos q hq

theorem mallocNode_some {t : RbSt} {l : List Ptr} {n m : Ptr} (ht : IsRb t l) (h : mallocNode t n = some m) :
    m = n ∧ n ≠ 0 ∧ n ∉ l := by
  rw [mallocNode, ht.traverse] at h
  split at h
  · cases h
  · next hn =>
    rw [not_or] at hn
    exact ⟨(Option.some.inj h).symm, hn⟩

theorem PosExact.key_ne (h : PosExact s ql L) {q : Ptr} (hp : p ∈ ql) (hq : q ∈ ql) (hne : q ≠ p) :
    (s.posNode q).key ≠ (s.posNode p).key := fun heq => hne (List.inj_on_of_nodup_map h.uniq hq hp heq)

theorem update_of_mem {β : Type} (f : Ptr → β) (b : β) {n q : Ptr} (hn : n ∉ ql) (hq : q ∈ ql) :
    Function.update f n b q = f q := Function.update_of_ne (fun heq : q = n => hn (heq ▸ hq)) _ _

/-- A new node counts nothing, as no node has its function and line. -/
theorem PosOk.make {t : RbSt} {ql' : List Ptr} {n : Ptr} {used : BitVec 64} (h : PosOk s ql L)
    (hnone : ∀ q ∈ ql, mmPosCmp (s.posNode q).key (func, line) ≠ 0) (hn : n ∉ ql)
    (hkeyed : Keyed mmPosCmp (fun q => (Function.update s.posNode n ⟨func, line, 0, 0⟩ q).key) t ql')
    (hperm : ql'.Perm (n :: ql)) :
    PosExact { s with posTree := t, posNode := Function.update s.posNode n ⟨func, line, 0, 0⟩, memUsed := used } ql' L := by
  have hold := fun q (hq : q ∈ ql) => update_of_mem s.posNode ⟨func, line, 0, 0⟩ hn hq
  have hzero : countAt L (func, line) = 0 := by
    refine Nat.eq_zero_of_not_pos fun hpos => ?_
    obtain ⟨b, hb, hk⟩ := countAt_pos.1 hpos
    obtain ⟨q, hq, hkey⟩ := h.covers b hb _ hk
    exact hnone q hq (mmPosCmp_eq_zero.2 hkey)
  refine ⟨hkeyed, ?_, fun q hq => ?_, fun b hb k hk => ?_, h.small⟩
  · refine (hperm.map _).nodup_iff.2 (List.nodup_cons.2 ⟨fun hmem => ?_, ?_⟩)
    · obtain ⟨q, hq, hkey⟩ := List.mem_map.1 hmem
      dsimp only at hkey
      rw [hold q hq, Function.update_self] at hkey
      exact hnone q hq (mmPosCmp_eq_zero.2 hkey)
    · rw [List.map_congr_left fun q hq => congrArg PosNode.key (hold q hq)]
      exact h.uniq
  · dsimp only
    rcases List.mem_cons.1 (hperm.mem_iff.1 hq) with rfl | hq
    · rw [Function.update_self]
      exact ⟨congrArg Nat.cast hzero.symm, congrArg (BitVec.ofNat 64) (sizeAt_eq_zero hzero).symm⟩
    · rw [hold q hq]
      exact h.exact q hq
  · obtain ⟨q, hq, hkey⟩ := h.covers b hb k hk
    exact ⟨q, hperm.mem_iff.2 (List.mem_cons_of_mem _ hq), (congrArg PosNode.key (hold q hq)).trans hkey⟩

/-- The node for a function and a line is found or made. -/
theorem findPos_inv (h : PosOk s ql L) (hrun : findPos hal func line s = some (p, s')) : ∃ ql',
    PosExact s' ql' L ∧ p ∈ ql' ∧ (s'.posNode p).key = (func, line) ∧
    (∀ q ∈ ql', q ≠ p → 0 < countAt L (s'.posNode q).key) ∧ SamePtrs s ql s' ql' := by
  obtain ⟨p₀, hfind, hp₀⟩ := h.keyed.find mmPosCmp_total (func, line)
  rw [findPos, hfind] at hrun
  simp only [Option.bind_eq_bind, Option.bind_some] at hrun
  rcases hp₀ with ⟨rfl, hnone⟩ | ⟨hmem, heq⟩
  · rw [if_neg (not_not.2 rfl)] at hrun
    obtain ⟨n, hn, hrun⟩ := Option.bind_eq_some_iff.1 hrun
    obtain ⟨rfl, hn0, hnmem⟩ := mallocNode_some h.keyed.isRb hn
    obtain ⟨t', ql', hins, hkeyed, hperm⟩ := (h.keyed.congr fun q hq => congrArg PosNode.key
      (update_of_mem s.posNode ⟨func, line, 0, 0⟩ hnmem hq)).insert mmPosCmp_total hn0 hnmem
    rw [hins] at hrun
    obtain ⟨rfl, rfl⟩ := Prod.mk.inj (Option.some.inj hrun)
    refine ⟨ql', h.make hnone hnmem hkeyed hperm, hperm.mem_iff.2 List.mem_cons_self, ?_, fun q hq hne => ?_,
      rfl, rfl, rfl, rfl, ?_⟩
    · dsimp only
      rw [Function.update_self]
      rfl
    · have hq : q ∈ ql := List.mem_of_ne_of_mem hne (hperm.mem_iff.1 hq)
      dsimp only
      rw [update_of_mem s.posNode _ hnmem hq]
      exact h.pos q hq
    · rw [hperm.length_eq, List.length_cons, Nat.mul_succ, BitVec.ofNat_add]
      ring
  · have hp0 : p₀ ≠ 0 := fun h0 => h.keyed.isRb.zero_not_mem (h0 ▸ hmem)
    rw [if_pos hp0] at hrun
    obtain ⟨rfl, rfl⟩ := Prod.mk.inj (Option.some.inj hrun)
    exact ⟨ql, ⟨h.keyed, h.uniq, h.exact, h.covers, h.small⟩, hmem, mmPosCmp_eq_zero.1 heq, fun q hq _ => h.pos q hq,
      rfl, rfl, rfl, rfl, rfl⟩

/-- The node for `k` is given the counts for other blocks, which differ at `k` only. -/
theorem PosExact.recount {q' : PosNode} {k : CStr × Int} (h : PosExact s ql L) (hp : p ∈ ql)
    (hpk : (s.posNode p).key = k) (hkey : q'.key = k) (hcnts : q'.cnts = countAt L' k)
    (hsize : q'.size = BitVec.ofNat 64 (sizeAt L' k))
    (hsame : ∀ k' ≠ k, countAt L' k' = countAt L k' ∧ sizeAt L' k' = sizeAt L k')
    (hcovers : ∀ b ∈ L', ∀ k' ≠ k, b.pos = some k' → b ∈ L) (hsmall : countAt L' k ≤ 2147483647) :
    PosExact { s with posNode := Function.update s.posNode p q' } ql L' := by
  have hkeys : (fun q => (Function.update s.posNode p q' q).key) = fun q => (s.posNode q).key := by
    funext q
    by_cases hq : q = p
    · rw [hq, Function.update_self, hkey, hpk]
    · rw [Function.update_of_ne hq]
  have hkeys' := fun q => congrFun hkeys q
  refine ⟨hkeys ▸ h.keyed, hkeys ▸ h.uniq, fun q hq => ?_, fun b hb k' hk' => ?_, fun k' => ?_⟩
  · dsimp only
    by_cases hqp : q = p
    · rw [hqp, Function.update_self, hkey]
      exact ⟨hcnts, hsize⟩
    · have hsame := hsame _ (hpk ▸ h.key_ne hp hq hqp)
      rw [Function.update_of_ne hqp, hsame.1, hsame.2]
      exact h.exact q hq
  · by_cases hkk : k' = k
    · exact ⟨p, hp, (hkeys' p).trans (hpk.trans hkk.symm)⟩
    · obtain ⟨q, hq, hqk⟩ := h.covers b (hcovers b hb k' hkk hk') k' hk'
      exact ⟨q, hq, (hkeys' q).trans hqk⟩
  · by_cases hkk : k' = k
    · exact hkk ▸ hsmall
    · rw [(hsame k' hkk).1]
      exact h.small k'

theorem wrapInt_of_small {x : Int} (h0 : -2147483648 ≤ x) (h1 : x ≤ 2147483647) : wrapInt x = x := by
  rw [wrapInt, Int.bmod]
  split <;> omega

theorem countAt_cons_self {k : CStr × Int} (hb : b.pos = some k) :
    countAt (b :: L) k = countAt L k + 1 ∧ sizeAt (b :: L) k = sizeAt L k + b.size := by
  rw [countAt_cons, sizeAt_cons, if_pos hb, if_pos hb]
  omega

theorem countAt_cons_of_ne {k : CStr × Int} (hb : b.pos ≠ some k) :
    countAt (b :: L) k = countAt L k ∧ sizeAt (b :: L) k = sizeAt L k := by
  rw [countAt_cons, sizeAt_cons, if_neg hb, if_neg hb]
  omega

theorem countPos_inv (h : PosOk s ql L) (hroom : ∀ k, b.pos = some k → countAt L k < 2147483647)
    (hrun : countPos hal b s = some s') : ∃ ql', PosOk s' ql' (b :: L) ∧ SamePtrs s ql s' ql' := by
  rw [countPos] at hrun
  split at hrun
  · next hb =>
    obtain rfl := Option.some.inj hrun
    have hcons := fun k => countAt_cons_of_ne (L := L) (b := b) (k := k) (by simp [hb])
    refine ⟨ql, ⟨⟨h.keyed, h.uniq, fun q hq => ?_, fun b' hb' k hk => ?_, fun k => ?_⟩, fun q hq => ?_⟩,
      rfl, rfl, rfl, rfl, rfl⟩
    · rw [(hcons _).1, (hcons _).2]
      exact h.exact q hq
    · rcases List.mem_cons.1 hb' with rfl | hb'
      · rw [hb] at hk
        cases hk
      · exact h.covers b' hb' k hk
    · rw [(hcons k).1]
      exact h.small k
    · rw [(hcons _).1]
      exact h.pos q hq
  · next func line hb =>
    obtain ⟨⟨p, s₁⟩, hfind, hrun⟩ := Option.bind_eq_some_iff.1 hrun
    obtain rfl := Option.some.inj hrun
    obtain ⟨ql', hex, hp, hkey, hpos, hsame⟩ := findPos_inv h hfind
    obtain ⟨hcnts, hsize⟩ := hex.exact p hp
    rw [hkey] at hcnts hsize
    have hroom := hroom _ hb
    have hcons := countAt_cons_self (L := L) hb
    have hother : ∀ k ≠ (func, line), countAt (b :: L) k = countAt L k ∧ sizeAt (b :: L) k = sizeAt L k :=
      fun k hk => countAt_cons_of_ne (by simp [hb, hk.symm])
    refine ⟨ql', ⟨hex.recount hp hkey hkey ?_ ?_ hother ?_ ?_, fun q hq => ?_⟩, hsame.inited, hsame.ptrTree,
      hsame.ptrNode, hsame.live, hsame.used⟩
    · dsimp only
      rw [hcnts, hcons.1, wrapInt_of_small] <;> omega
    · dsimp only
      rw [hsize, hcons.2, BitVec.ofNat_add]
    · intro b' hb' k' hk' hpos
      refine List.mem_of_ne_of_mem (fun heq => hk' ?_) hb'
      rw [heq, hb] at hpos
      exact (Option.some.inj hpos).symm
    · omega
    · dsimp only
      by_cases hqp : q = p
      · rw [hqp, Function.update_self]
        change 0 < countAt (b :: L) (s₁.posNode p).key
        rw [hkey]
        omega
      · rw [Function.update_of_ne hqp, (hother _ (hkey ▸ hex.key_ne hp hq hqp)).1]
        exact hpos q hq hqp

theorem uncountPos_inv (h : PosOk s ql (b :: L)) (hrun : uncountPos b s = some s') :
    ∃ ql', PosOk s' ql' L ∧ SamePtrs s ql s' ql' := by
  rw [uncountPos] at hrun
  split at hrun
  · next hb =>
    obtain rfl := Option.some.inj hrun
    have hcons := fun k => countAt_cons_of_ne (L := L) (b := b) (k := k) (by simp [hb])
    refine ⟨ql, ⟨⟨h.keyed, h.uniq, fun q hq => ?_, fun b' hb' => h.covers b' (List.mem_cons_of_mem _ hb'), fun k => ?_⟩,
      fun q hq => ?_⟩, rfl, rfl, rfl, rfl, rfl⟩
    · rw [← (hcons _).1, ← (hcons _).2]
      exact h.exact q hq
    · rw [← (hcons k).1]
      exact h.small k
    · rw [← (hcons _).1]
      exact h.pos q hq
  · next k hb =>
    obtain ⟨p, hfind, hp⟩ := h.keyed.find mmPosCmp_total k
    rw [hfind] at hrun
    simp only [Option.bind_eq_bind, Option.bind_some] at hrun
    rcases hp with ⟨-, hnone⟩ | ⟨hp, heq⟩
    · obtain ⟨q, hq, hqk⟩ := h.covers b List.mem_cons_self k hb
      exact absurd (mmPosCmp_eq_zero.2 hqk) (hnone q hq)
    have hp0 : p ≠ 0 := fun h0 => h.keyed.isRb.zero_not_mem (h0 ▸ hp)
    rw [if_neg hp0] at hrun
    have hkey := mmPosCmp_eq_zero.1 heq
    obtain ⟨hcnts, hsize⟩ := h.exact p hp
    rw [hkey] at hcnts hsize
    have hcons := countAt_cons_self (L := L) hb
    have hother : ∀ k' ≠ k, countAt L k' = countAt (b :: L) k' ∧ sizeAt L k' = sizeAt (b :: L) k' := fun k' hk' => by
      have hne := countAt_cons_of_ne (L := L) (b := b) (k := k') (by simp [hb, hk'.symm])
      exact ⟨hne.1.symm, hne.2.symm⟩
    have hsmall := h.small k
    generalize hq' : ({ s.posNode p with
      cnts := wrapInt ((s.posNode p).cnts - 1), size := (s.posNode p).size - BitVec.ofNat 64 b.size } : PosNode) = q' at hrun
    have hkey' : q'.key = k := hq' ▸ hkey
    have hex : PosExact { s with posNode := Function.update s.posNode p q' } ql L := by
      refine h.recount hp hkey hkey' ?_ ?_ hother (fun b' hb' _ _ _ => List.mem_cons_of_mem _ hb') (by omega)
      · rw [← hq']
        dsimp only
        rw [hcnts, hcons.1, wrapInt_of_small] <;> omega
      · rw [← hq']
        dsimp only
        rw [hsize, hcons.2, BitVec.ofNat_add]
        exact BitVec.add_sub_cancel _ _
    have hpos : ∀ q ∈ ql, q ≠ p → 0 < countAt L (Function.update s.posNode p q' q).key := fun q hq hqp => by
      rw [Function.update_of_ne hqp, (hother _ (hkey ▸ h.key_ne hp hq hqp)).1]
      exact h.pos q hq
    have hcntp := (hex.exact p hp).1
    have hkeyp : (Function.update s.posNode p q' p).key = k := by rw [Function.update_self, hkey']
    generalize Function.update s.posNode p q' = posNode at hrun hex hpos hcntp hkeyp
    dsimp only at hcntp
    split at hrun
    · next hzero =>
      obtain ⟨p', t', hrem, hkeyed, hp'⟩ := hex.keyed.remove mmPosCmp_total (posNode p).key
      rw [hrem] at hrun
      obtain rfl := Option.some.inj hrun
      rcases hp' with ⟨-, hnone⟩ | ⟨hp', heq'⟩
      · exact absurd (mmPosCmp_eq_zero.2 rfl) (hnone p hp)
      obtain rfl : p' = p := by_contra fun hne => hex.key_ne hp hp' hne (mmPosCmp_eq_zero.1 heq')
      have hmem := fun q => List.Nodup.mem_erase_iff (a := q) (b := p') hex.uniq.of_map
      refine ⟨ql.erase p', ⟨⟨hkeyed, hex.uniq.sublist (List.erase_sublist.map _),
        fun q hq => hex.exact q ((hmem q).1 hq).2, fun b' hb' k' hk' => ?_, hex.small⟩,
        fun q hq => hpos q ((hmem q).1 hq).2 ((hmem q).1 hq).1⟩, rfl, rfl, rfl, rfl, ?_⟩
      · obtain ⟨q, hq, hqk⟩ := hex.covers b' hb' k' hk'
        refine ⟨q, (hmem q).2 ⟨fun heq => ?_, hq⟩, hqk⟩
        have := countAt_pos.2 ⟨b', hb', hk'⟩
        subst heq
        dsimp only at hqk
        rw [hqk] at hcntp
        omega
      · obtain ⟨n, hn⟩ := Nat.exists_eq_succ_of_ne_zero (List.length_pos_of_mem hp').ne'
        dsimp only
        rw [List.length_erase_of_mem hp', hn, Nat.succ_sub_one, Nat.mul_succ, BitVec.ofNat_add]
        ring
    · next hzero =>
      obtain rfl := Option.some.inj hrun
      refine ⟨ql, ⟨hex, fun q hq => ?_⟩, rfl, rfl, rfl, rfl, rfl⟩
      by_cases hqp : q = p
      · subst hqp
        dsimp only
        omega
      · exact hpos q hq hqp

end

/-! ### Both trees -/

/-- What the live blocks and their nodes use. -/
def blocksUsed (L : List PtrNode) : Nat := (L.map fun b => b.size + sizeofPtrNode).sum

/-- The blocks `L` are the ones that are accounted for. -/
structure Tracked (s : MmSt) (L : List PtrNode) : Prop where
  inited : s.inited = true
  nodup : (L.map PtrNode.ptr).Nodup
  zero_not_mem : 0 ∉ L.map PtrNode.ptr
  trees : ∃ pl ql, Keyed mmPtrCmp (fun p => (s.ptrNode p).ptr) s.ptrTree pl ∧ (pl.map s.ptrNode).Perm L ∧
    PosOk s ql L ∧ s.memUsed = BitVec.ofNat 64 (blocksUsed L + sizeofPosNode * ql.length)

section
variable {s s' s₁ : MmSt} {L : List PtrNode} {pl ql ql' : List Ptr} {b : PtrNode} {hal : Hal} {ptr size : Nat}
  {func : Option CStr} {line : Int} {bs : List PtrNode}

theorem PosOk.congr (h : PosOk s ql L) (htree : s'.posTree = s.posTree) (hnode : s'.posNode = s.posNode) :
    PosOk s' ql L := by
  obtain ⟨⟨hkeyed, huniq, hexact, hcovers, hsmall⟩, hpos⟩ := h
  rw [← hnode] at hkeyed huniq hexact hcovers hpos
  rw [← htree] at hkeyed
  exact ⟨⟨hkeyed, huniq, hexact, hcovers, hsmall⟩, hpos⟩

theorem Tracked.setLive (h : Tracked s L) : Tracked { s with live := bs } L := by
  obtain ⟨pl, ql, hkeyed, hperm, hpos, hused⟩ := h.trees
  exact ⟨h.inited, h.nodup, h.zero_not_mem, pl, ql, hkeyed, hperm, hpos.congr rfl rfl, hused⟩

theorem SamePtrs.tracked (h : SamePtrs s₁ ql s' ql') (hpos : PosOk s' ql' L) (hinited : s₁.inited = true)
    (hnodup : (L.map PtrNode.ptr).Nodup) (hzero : 0 ∉ L.map PtrNode.ptr)
    (hkeyed : Keyed mmPtrCmp (fun p => (s₁.ptrNode p).ptr) s₁.ptrTree pl) (hperm : (pl.map s₁.ptrNode).Perm L)
    (hused : s₁.memUsed = BitVec.ofNat 64 (blocksUsed L + sizeofPosNode * ql.length)) : Tracked s' L := by
  refine ⟨h.inited ▸ hinited, hnodup, hzero, pl, ql', ?_, ?_, hpos, ?_⟩
  · rw [h.ptrTree, h.ptrNode]
    exact hkeyed
  · rw [h.ptrNode]
    exact hperm
  · have hused' := h.used
    rw [hused, BitVec.ofNat_add, BitVec.add_assoc, BitVec.add_comm (BitVec.ofNat 64 (sizeofPosNode * ql.length)),
      ← BitVec.add_assoc, BitVec.add_left_inj] at hused'
    rw [hused', BitVec.ofNat_add]

theorem mmInsertPtrDbg_inv (h : Tracked s L) (hptr0 : ptr ≠ 0) (hptr : ptr ∉ L.map PtrNode.ptr)
    (hroom : ∀ k, (PtrNode.mk ptr size func line).pos = some k → countAt L k < 2147483647)
    (hrun : mmInsertPtrDbg hal ptr size func line s = some s') :
    Tracked s' (⟨ptr, size, func, line⟩ :: L) ∧ s'.live = s.live := by
  obtain ⟨pl, ql, hkeyed, hperm, hpos, hused⟩ := h.trees
  rw [mmInsertPtrDbg, h.inited, if_neg (by simp), if_neg hptr0] at hrun
  obtain ⟨n, hn, hrun⟩ := Option.bind_eq_some_iff.1 hrun
  obtain ⟨rfl, hn0, hnmem⟩ := mallocNode_some hkeyed.isRb hn
  have hold := fun q (hq : q ∈ pl) => update_of_mem s.ptrNode ⟨ptr, size, func, line⟩ hnmem hq
  obtain ⟨t', pl', hins, hkeyed', hperm'⟩ := (hkeyed.congr fun q hq => congrArg PtrNode.ptr (hold q hq)).insert
    mmPtrCmp_total hn0 hnmem
  dsimp only at hrun
  rw [hins] at hrun
  simp only [Option.bind_eq_bind, Option.bind_some, Function.update_self] at hrun
  obtain ⟨ql', hpos', hsame⟩ := countPos_inv (by exact hpos.congr rfl rfl) hroom hrun
  refine ⟨hsame.tracked hpos' rfl (List.nodup_cons.2 ⟨hptr, h.nodup⟩) ?_ hkeyed' ?_ ?_, hsame.live⟩
  · exact fun hmem => h.zero_not_mem (List.mem_of_ne_of_mem hptr0.symm hmem)
  · refine (hperm'.map _).trans ?_
    dsimp only
    rw [List.map_cons, Function.update_self, List.map_congr_left hold]
    exact hperm.cons _
  · dsimp only
    rw [hused, blocksUsed, blocksUsed, List.map_cons, List.sum_cons]
    simp only [BitVec.ofNat_add]
    ring

theorem filter_ptr_ne (hnodup : (L.map PtrNode.ptr).Nodup) (hb : b ∈ L) :
    L.filter (fun b' => b'.ptr ≠ b.ptr) = L.erase b := by
  rw [hnodup.of_map.erase_eq_filter]
  refine List.filter_congr fun b' hb' => ?_
  rw [Bool.eq_iff_iff, decide_eq_true_iff, bne_iff_ne]
  exact not_congr ⟨List.inj_on_of_nodup_map hnodup hb' hb, fun heq => heq ▸ rfl⟩

theorem Tracked.filter_zero (h : Tracked s L) : L.filter (fun b => b.ptr ≠ 0) = L :=
  List.filter_eq_self.2 fun _ hb => decide_eq_true fun heq => h.zero_not_mem (heq ▸ List.mem_map_of_mem hb)

theorem mmRemovePtr_inv (h : Tracked s L) (hptr : ptr = 0 ∨ ptr ∈ L.map PtrNode.ptr) (hrun : mmRemovePtr ptr s = some s') :
    Tracked s' (L.filter fun b => b.ptr ≠ ptr) ∧ s'.live = s.live := by
  rw [mmRemovePtr, h.inited, if_neg (by simp)] at hrun
  split at hrun
  · next hptr0 =>
    obtain rfl := Option.some.inj hrun
    rw [hptr0, h.filter_zero]
    exact ⟨h, rfl⟩
  · next hptr0 =>
    obtain ⟨pl, ql, hkeyed, hperm, hpos, hused⟩ := h.trees
    obtain ⟨b, hb, rfl⟩ := List.mem_map.1 (hptr.resolve_left hptr0)
    obtain ⟨p, t', hrem, hkeyed', hp⟩ := hkeyed.remove mmPtrCmp_total b.ptr
    rw [hrem] at hrun
    simp only [Option.bind_eq_bind, Option.bind_some] at hrun
    obtain ⟨p', hp', hbp'⟩ := List.mem_map.1 (hperm.mem_iff.2 hb)
    rcases hp with ⟨-, hnone⟩ | ⟨hp, heq⟩
    · exact absurd (mmPtrCmp_eq_zero.2 (congrArg PtrNode.ptr hbp')) (hnone p' hp')
    have hbp : s.ptrNode p = b := List.inj_on_of_nodup_map h.nodup (hperm.mem_iff.1 (List.mem_map_of_mem hp)) hb
      (mmPtrCmp_eq_zero.1 heq)
    have hp0 : p ≠ 0 := fun h0 => hkeyed.isRb.zero_not_mem (h0 ▸ hp)
    rw [if_neg hp0, hbp] at hrun
    have hL := List.perm_cons_erase hb
    obtain ⟨ql', hpos', hsame⟩ := uncountPos_inv (by exact (hpos.perm hL).congr rfl rfl) hrun
    have hsub : ((L.erase b).map PtrNode.ptr).Sublist (L.map PtrNode.ptr) := List.erase_sublist.map _
    rw [filter_ptr_ne h.nodup hb]
    refine ⟨hsame.tracked hpos' rfl (h.nodup.sublist hsub) (fun hmem => h.zero_not_mem (hsub.subset hmem)) hkeyed'
      ?_ ?_, hsame.live⟩
    · have hpl := (List.perm_cons_erase hp).map s.ptrNode
      rw [List.map_cons, hbp] at hpl
      exact (hpl.symm.trans (hperm.trans hL)).cons_inv
    · have hsum : blocksUsed L = b.size + sizeofPtrNode + blocksUsed (L.erase b) := (hL.map _).sum_nat
      dsimp only
      rw [hused, hsum]
      simp only [BitVec.ofNat_add]
      ring

end

/-! ### Runs -/

/-- There is room for one more block of this function and line in an `int`. -/
def Room (L : List PtrNode) (func : Option CStr) (line : Int) : Prop :=
  ∀ k ∈ (PtrNode.mk 0 0 func line).pos, countAt L k < 2147483647

instance (L : List PtrNode) (func : Option CStr) (line : Int) : Decidable (Room L func line) :=
  inferInstanceAs (Decidable (∀ k ∈ (PtrNode.mk 0 0 func line).pos, _))

/-- No block is freed by a `realloc` that returns `NULL`, and no node counts to `INT_MAX`. -/
def MmAct.Counted (s : MmSt) : MmAct → Prop
  | .mallocDbg _ _ func line | .callocDbg _ _ _ func line | .strdupDbg _ (some _) func line => Room s.live func line
  | .realloc hal freed ptr _ => hal.block = 0 → freed = true → ptr = 0
  | .reallocDbg hal freed ptr _ func line =>
    (hal.block = 0 → freed = true → ptr = 0) ∧ (hal.block ≠ 0 → Room (s.live.filter fun b => b.ptr ≠ ptr) func line)
  | _ => True

instance (s : MmSt) : (a : MmAct) → Decidable (a.Counted s)
  | .mallocDbg _ _ func line | .callocDbg _ _ _ func line | .strdupDbg _ (some _) func line =>
    inferInstanceAs (Decidable (Room s.live func line))
  | .realloc _ _ _ _ => inferInstanceAs (Decidable (_ → _ → _))
  | .reallocDbg _ _ _ _ _ _ => inferInstanceAs (Decidable (_ ∧ _))
  | .malloc _ _ | .calloc _ _ _ | .strdup _ _ | .strdupDbg _ none _ _ | .free _ => .isTrue trivial

/-- What the statistics say of the live blocks. -/
structure Exact (s : MmSt) : Prop where
  blocks : ∃ pl, IsRb s.ptrTree pl ∧ (pl.map s.ptrNode).Perm s.live
  places : ∃ ql, IsRb s.posTree ql ∧ (ql.map fun q => (s.posNode q).key).Nodup ∧
    (∀ q ∈ ql, 0 < (s.posNode q).cnts ∧ (s.posNode q).cnts = countAt s.live (s.posNode q).key ∧
      (s.posNode q).size = BitVec.ofNat 64 (sizeAt s.live (s.posNode q).key)) ∧
    (∀ b ∈ s.live, ∀ k, b.pos = some k → ∃ q ∈ ql, (s.posNode q).key = k) ∧
    s.memUsed = BitVec.ofNat 64 (blocksUsed s.live + sizeofPosNode * ql.length)
  empty : s.live = [] → s.memUsed = 0

section
variable {s s' s₁ : MmSt} {hal : Hal} {ptr size r : Nat} {func : Option CStr} {line : Int} {freed : Bool} {as : List MmAct}

theorem Tracked.exact (h : Tracked s s.live) : Exact s := by
  obtain ⟨pl, ql, hkeyed, hperm, hpos, hused⟩ := h.trees
  refine ⟨⟨pl, hkeyed.isRb, hperm⟩, ⟨ql, hpos.keyed.isRb, hpos.uniq, fun q hq => ?_, hpos.covers, hused⟩, fun hnil => ?_⟩
  · obtain ⟨hcnts, hsize⟩ := hpos.exact q hq
    have := hpos.pos q hq
    exact ⟨by omega, hcnts, hsize⟩
  · rw [hnil] at hused hpos
    have hql : ql = [] := List.eq_nil_iff_forall_not_mem.2 fun q hq => absurd (hpos.pos q hq) (by simp [countAt])
    rw [hused, hql]
    rfl

theorem tracked_initial (t t' : RbSt) (ptrNode : Ptr → PtrNode) (posNode : Ptr → PosNode) :
    Tracked (initial t t' ptrNode posNode) [] :=
  ⟨rfl, List.nodup_nil, List.not_mem_nil, [], [], ⟨isRb_init t, .nil⟩, .nil,
    ⟨⟨⟨isRb_init t', .nil⟩, List.nodup_nil, nofun, nofun, fun _ => Nat.zero_le _⟩, nofun⟩, rfl⟩

theorem handOut_some {b : PtrNode} (h : handOut b s = some s') :
    b.ptr ∉ s.live.map PtrNode.ptr ∧ s' = { s with live := b :: s.live } := by
  rw [handOut] at h
  split at h
  · cases h
  · next hmem => exact ⟨hmem, (Option.some.inj h).symm⟩

theorem malloc_inv (h : Tracked s s.live) (hroom : Room s.live func line)
    (hrun : aoslMallocImplDbg hal size func line s = some (r, s')) : Tracked s' s'.live := by
  rw [aoslMallocImplDbg] at hrun
  split at hrun
  · cases hrun
  next hblock =>
  obtain ⟨s₁, hout, hrun⟩ := Option.bind_eq_some_iff.1 hrun
  obtain ⟨hmem, rfl⟩ := handOut_some hout
  obtain ⟨s₂, hins, hrun⟩ := Option.bind_eq_some_iff.1 hrun
  obtain ⟨rfl, rfl⟩ := Prod.mk.inj (Option.some.inj hrun)
  obtain ⟨h₂, hlive⟩ := mmInsertPtrDbg_inv h.setLive (not_or.1 hblock).2 hmem hroom hins
  rw [hlive]
  exact h₂

theorem realloc_inv (h : Tracked s s.live) (hptr : ptr = 0 ∨ ptr ∈ s.live.map PtrNode.ptr)
    (hfreed : hal.block = 0 → freed = true → ptr = 0)
    (hroom : hal.block ≠ 0 → Room (s.live.filter fun b => b.ptr ≠ ptr) func line)
    (hrun : aoslReallocImplDbg hal freed ptr size func line s = some (r, s')) : Tracked s' s'.live := by
  obtain ⟨s₁, hhal, hrun⟩ := Option.bind_eq_some_iff.1 hrun
  rw [halRealloc] at hhal
  split at hrun
  · next hblock =>
    rw [if_pos hblock] at hhal
    obtain ⟨hmem, rfl⟩ := handOut_some hhal
    obtain ⟨s₂, hrem, hrun⟩ := Option.bind_eq_some_iff.1 hrun
    obtain ⟨s₃, hins, hrun⟩ := Option.bind_eq_some_iff.1 hrun
    obtain ⟨rfl, rfl⟩ := Prod.mk.inj (Option.some.inj hrun)
    obtain ⟨h₂, hlive⟩ := mmRemovePtr_inv h.setLive hptr hrem
    obtain ⟨h₃, hlive'⟩ := mmInsertPtrDbg_inv h₂ hblock hmem (hroom hblock) hins
    rw [hlive', hlive]
    exact h₃
  · next hblock =>
    rw [if_neg hblock] at hhal
    obtain ⟨rfl, rfl⟩ := Prod.mk.inj (Option.some.inj hrun)
    obtain rfl := Option.some.inj hhal
    split
    · next hf =>
      rw [takeBack, hfreed (not_not.1 hblock) hf, h.filter_zero]
      exact h
    · exact h

theorem free_inv (h : Tracked s s.live) (hptr : ptr = 0 ∨ ptr ∈ s.live.map PtrNode.ptr)
    (hrun : aoslFreeImpl ptr s = some s') : Tracked s' s'.live := by
  obtain ⟨s₁, hrem, hrun⟩ := Option.bind_eq_some_iff.1 hrun
  obtain rfl := Option.some.inj hrun
  obtain ⟨h₁, hlive⟩ := mmRemovePtr_inv h hptr hrem
  rw [takeBack, hlive]
  exact h₁.setLive

theorem room_none (L : List PtrNode) (line : Int) : Room L none line := nofun

theorem step_inv {a : MmAct} (h : Tracked s s.live) (hvalid : a.Valid s) (hcounted : a.Counted s)
    (hrun : step s a = some s') : Tracked s' s'.live := by
  cases a with
  | free ptr => exact free_inv h hvalid hrun
  | malloc hal size =>
    obtain ⟨⟨r, s₁⟩, hcall, rfl⟩ := Option.map_eq_some_iff.1 hrun
    exact malloc_inv h (room_none _ _) hcall
  | mallocDbg hal size func line =>
    obtain ⟨⟨r, s₁⟩, hcall, rfl⟩ := Option.map_eq_some_iff.1 hrun
    exact malloc_inv h hcounted hcall
  | calloc hal nmemb size =>
    obtain ⟨⟨r, s₁⟩, hcall, rfl⟩ := Option.map_eq_some_iff.1 hrun
    exact malloc_inv h (room_none _ _) hcall
  | callocDbg hal nmemb size func line =>
    obtain ⟨⟨r, s₁⟩, hcall, rfl⟩ := Option.map_eq_some_iff.1 hrun
    exact malloc_inv h hcounted hcall
  | strdup hal str =>
    obtain ⟨⟨r, s₁⟩, hcall, rfl⟩ := Option.map_eq_some_iff.1 hrun
    cases str with
    | none => exact (Prod.mk.inj (Option.some.inj hcall)).2 ▸ h
    | some str => exact malloc_inv h (room_none _ _) hcall
  | strdupDbg hal str func line =>
    obtain ⟨⟨r, s₁⟩, hcall, rfl⟩ := Option.map_eq_some_iff.1 hrun
    cases str with
    | none => exact (Prod.mk.inj (Option.some.inj hcall)).2 ▸ h
    | some str => exact malloc_inv h hcounted hcall
  | realloc hal freed ptr size =>
    obtain ⟨⟨r, s₁⟩, hcall, rfl⟩ := Option.map_eq_some_iff.1 hrun
    exact realloc_inv h hvalid.1 hcounted (fun _ => room_none _ _) hcall
  | reallocDbg hal freed ptr size func line =>
    obtain ⟨⟨r, s₁⟩, hcall, rfl⟩ := Option.map_eq_some_iff.1 hrun
    exact realloc_inv h hvalid.1 hcounted.1 hcounted.2 hcall

/-- After every run in which no `realloc` loses a block, and no count overflows, the statistics are exact. -/
theorem run_exact {t t' : RbSt} {ptrNode : Ptr → PtrNode} {posNode : Ptr → PosNode}
    (hok : Along step (fun s a => a.Valid s ∧ a.Counted s) (initial t t' ptrNode posNode) as)
    (hrun : exec step (initial t t' ptrNode posNode) as = some s) : Exact s :=
  (exec_invariant (I := fun s => Tracked s s.live) (fun _ _ _ h hok hstep => step_inv h hok.1 hok.2 hstep)
    (tracked_initial t t' ptrNode posNode) hok hrun).exact

end

/-- The state that the runs below start in. -/
def start : MmSt :=
  initial ⟨fun _ => 7, fun _ _ => 9, 3, 5⟩ ⟨fun _ => 7, fun _ _ => 9, 3, 5⟩ (fun _ => ⟨0, 0, none, 0⟩) fun _ => ⟨[], 0, 0, 0⟩

def mixedRun : List MmAct := [.mallocDbg ⟨8, 1, 1⟩ 16 (some [102]) 7, .malloc ⟨16, 2, 0⟩ 32,
  .callocDbg ⟨24, 3, 2⟩ 2 8 (some [102]) 7, .reallocDbg ⟨40, 1, 2⟩ false 8 64 (some [103]) 9, .free 16,
  .strdup ⟨48, 2, 0⟩ (some [104, 105]), .realloc ⟨0, 0, 0⟩ false 24 1000, .free 24]

theorem run_exact_mixed : ∃ s, exec step start mixedRun = some s ∧
    (s.live, s.memUsed) = ([⟨48, 3, none, 0⟩, ⟨40, 64, some [103], 9⟩], 227#64) ∧ Exact s := by
  have hrun : (exec step start mixedRun).map (fun s => (s.live, s.memUsed)) =
      some ([⟨48, 3, none, 0⟩, ⟨40, 64, some [103], 9⟩], 227#64) := by decide +kernel
  obtain ⟨s, hs, hlive⟩ := Option.map_eq_some_iff.1 hrun
  exact ⟨s, hs, hlive, run_exact (by decide +kernel) hs⟩

/-- The HAL frees the block and returns `NULL`; the block keeps its node. -/
theorem not_run_exact : ∃ s, exec step start [.malloc ⟨8, 1, 0⟩ 16, .realloc ⟨0, 0, 0⟩ true 8 0] = some s ∧
    Along step (fun s a => a.Valid s) start [.malloc ⟨8, 1, 0⟩ 16, .realloc ⟨0, 0, 0⟩ true 8 0] ∧ ¬Exact s := by
  refine ⟨_, rfl, by decide +kernel, fun h => ?_⟩
  exact absurd (h.empty (by decide +kernel)) (by decide +kernel)

end Mm

end Aosl
