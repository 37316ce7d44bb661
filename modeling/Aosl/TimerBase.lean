import Aosl.Timer
import Aosl.RbRun
import Aosl.Lib.DList

/-!
# The timer base keeps its two structures equal

`BaseInv s l` is the agreement of the tree and the list of a timer base: both hold the timers `l`,
sorted by `expire_time` and stably so in the order of arming, and exactly the other timers on the
heap carry the poison value. `insertTimer` and `unlinkTimer` keep it.
-/

namespace Aosl
open Lib Lib.CTree

/-- An optional timer as a link. -/
def tlink (o : Option Ptr) : TPtr := .ptr (o.getD 0)

/-- The order of `expire_time`, as unsigned numbers. -/
def cmpExpire (a b : UInt64) : Int := (a.toNat : Int) - b.toNat

theorem totalPreorder_cmpExpire : TotalPreorder cmpExpire :=
  ⟨fun a b => by simp only [cmpExpire]; omega, fun a b c => by simp only [cmpExpire]; omega⟩

theorem cmpExpire_pos {a b : UInt64} : 0 < cmpExpire a b ↔ a > b := by
  simp only [cmpExpire, gt_iff_lt, UInt64.lt_iff_toNat_lt]
  omega

structure BaseInv (s : TimerSt) (l : List Ptr) : Prop where
  rb : IsRb s.rb l
  list : DList tlink (.ptr s.first) s.timerNext s.timerPrev l
  sorted : StableSort cmpExpire s.expireTime l s.armed
  poison : ∀ p ∈ s.alloc, p ∉ l → s.timerNext p = .poison1
  sub : ∀ p ∈ l, p ∈ s.alloc
  alloc_ne : 0 ∉ s.alloc

namespace BaseInv

variable {s : TimerSt} {l : List Ptr} {p : Ptr}

theorem next_ne_poison (h : BaseInv s l) (hp : p ∈ l) : s.timerNext p ≠ .poison1 := by
  obtain ⟨A, B, rfl⟩ := List.append_of_mem hp
  rw [h.list.fields.1]
  exact TPtr.noConfusion

theorem next_eq_poison (h : BaseInv s l) (hp : p ∈ s.alloc) : s.timerNext p = .poison1 ↔ p ∉ l :=
  ⟨fun hn hl => h.next_ne_poison hl hn, h.poison p hp⟩

end BaseInv

/-! ### Searching the place in the tree -/

/-- The loop is the one of `aosl_vfind_rb_links` with the expiry times compared. -/
theorem findTimerPrepareLoop_run {s s' : RbSt} {e : Ptr → UInt64} {x : Ptr} {fuel : Nat} {r r' : RbLinks}
    (h : (findRbLinksLoop (fun p => cmpExpire (e p) (e x)) fuel r).run s = some (r', s')) :
    (findTimerPrepareLoop e x fuel r.link r.parent r.prev).run s = some ((r'.link, r'.parent, r'.prev), s') := by
  induction fuel generalizing r s with
  | zero => cases h
  | succ fuel ih =>
    rw [findRbLinksLoop, StateT.run_bind] at h
    rw [findTimerPrepareLoop, StateT.run_bind]
    cases hl : (readLink r.link).run s with
    | none => rw [hl] at h; cases h
    | some v =>
      obtain ⟨p, s₁⟩ := v
      rw [hl] at h
      simp only [Option.bind_eq_bind, Option.bind_some] at h ⊢
      by_cases hp : p = 0
      · rw [if_pos hp] at h ⊢
        cases h
        rfl
      · rw [if_neg hp] at h ⊢
        by_cases hc : 0 < cmpExpire (e p) (e x)
        · rw [if_pos hc] at h
          rw [if_pos (cmpExpire_pos.1 hc)]
          exact ih h
        · rw [if_neg hc] at h
          rw [if_neg fun hg => hc (cmpExpire_pos.2 hg)]
          exact ih h

theorem findTimerPrepare_run {s : RbSt} {e : Ptr → UInt64} {x : Ptr} {t : CTree Ptr} (h : At s [] t)
    (hc : s.count = t.toList.length) (hs : SignSorted (fun p => cmpExpire (e p) (e x)) t.toList) :
    ∃ z, (findTimerPrepare e x).run s = some ((linkOf z, upPtr z, z.before.getLastD 0), s) ∧ At s z .leaf ∧
      z.plug .leaf = t ∧ z.before = t.toList.filter (fun p => ¬0 < cmpExpire (e p) (e x)) ∧
      z.after = t.toList.filter (fun p => 0 < cmpExpire (e p) (e x)) := by
  obtain ⟨z, hrun, h'⟩ := aoslFindRbLinks_run h hc hs
  refine ⟨z, ?_, h'⟩
  simp only [aoslFindRbLinks, StateT.run_bind, StateT.run_get, Option.pure_def, Option.bind_eq_bind,
    Option.bind_some] at hrun
  simp only [findTimerPrepare, StateT.run_bind, StateT.run_get, Option.pure_def, Option.bind_eq_bind,
    Option.bind_some]
  exact findTimerPrepareLoop_run hrun

theorem upPtr_eq_head_after {z : Zip Ptr} (h : z.before = []) : upPtr z = z.after.headD 0 := by
  rcases z with _ | ⟨⟨d, x, c, sib⟩, z⟩
  · rfl
  · cases d with
    | left => rfl
    | right => simp [Zip.before] at h

/-! ### The linked list -/

@[simp] theorem run_modifyT (f : TimerSt → TimerSt) (s : TimerSt) :
    (modify f : TimerM Unit).run s = some ((), f s) := rfl

@[simp] theorem run_getT (s : TimerSt) : (get : TimerM TimerSt).run s = some (s, s) := rfl

theorem run_onTree {α : Type} (m : RbM α) (s : TimerSt) :
    (onTree m).run s = (m.run s.rb).map fun r => (r.1, { s with rb := r.2 }) := by
  simp only [onTree, StateT.run, Option.bind_eq_bind, Option.pure_def]
  cases m s.rb <;> rfl

theorem run_follow {s : TimerSt} {p : Ptr} (h : p ≠ 0) : (follow (.ptr p)).run s = some (p, s) := by
  rw [follow, if_neg h]
  rfl

/-- `__timer_link_list` puts `x` between the parts `A` and `B` of the list. -/
theorem timerLinkList_run {s : TimerSt} {A B : List Ptr} {x w : Ptr}
    (h : DList tlink (.ptr s.first) s.timerNext s.timerPrev (A ++ B)) (hd : (A ++ B).Nodup) (h0 : 0 ∉ A ++ B)
    (hx : x ∉ A ++ B) (hpar : A = [] → w = B.headD 0) :
    ∃ f n v, (timerLinkList x (A.getLastD 0) w).run s =
        some ((), { s with first := f, timerNext := n, timerPrev := v }) ∧
      DList tlink (.ptr f) n v (A ++ x :: B) ∧ ∀ q, q ∉ A ++ x :: B → n q = s.timerNext q := by
  have hB : ∀ b B', B = b :: B' → b ≠ 0 ∧ b ≠ x := by
    rintro b B' rfl
    exact ⟨fun hb => h0 (by simp [hb]), fun hb => hx (by simp [hb])⟩
  rcases List.eq_nil_or_concat A with rfl | ⟨A', a, rfl⟩
  · rw [hpar rfl]
    cases B with
    | nil =>
      refine ⟨_, _, _, rfl, h.insert hd (by simp [tlink]) ?_ ?_ ?_ ?_, ?_⟩ <;>
        simp +contextual [TimerSt.setPrev, TimerSt.setNext, tlink, Redirect]
    | cons b B =>
      obtain ⟨hb0, hbx⟩ := hB b B rfl
      refine ⟨x, fun q => if q = x then .ptr b else s.timerNext q,
        fun q => if q = b then .ptr x else if q = x then .ptr 0 else s.timerPrev q, ?_,
        h.insert hd (by simp [tlink]) ?_ ?_ ?_ ?_, ?_⟩
      · simp [timerLinkList, hb0, TimerSt.setPrev, TimerSt.setNext]
      · simp [tlink]
      · simp [tlink, hbx.symm]
      · intro q hq
        simp [ne_of_mem_of_not_mem hq hx]
      · intro q hq
        simp +contextual [ne_of_mem_of_not_mem hq hx, tlink, eq_comm]
      · simp +contextual
  · rw [List.concat_eq_append] at *
    have ha0 : a ≠ 0 := fun ha => h0 (by simp [ha])
    have hax : a ≠ x := fun ha => hx (by simp [ha])
    have hna : s.timerNext a = tlink B.head? := by
      rw [List.append_assoc] at h
      exact h.fields.1
    cases B with
    | nil =>
      refine ⟨s.first, fun q => if q = a then .ptr x else if q = x then .ptr 0 else s.timerNext q,
        fun q => if q = x then .ptr a else s.timerPrev q, ?_,
        h.insert hd (by simp) ?_ ?_ ?_ ?_, ?_⟩
      · simp [timerLinkList, ha0, hna, TimerSt.setPrev, tlink]
        rfl
      · simp [tlink, hax.symm]
      · simp [tlink]
      · intro q hq
        simp +contextual [ne_of_mem_of_not_mem hq hx, tlink, eq_comm]
      · intro q hq
        simp [ne_of_mem_of_not_mem hq hx]
      · simp +contextual
    | cons b B =>
      obtain ⟨hb0, hbx⟩ := hB b B rfl
      refine ⟨s.first, fun q => if q = a then .ptr x else if q = x then .ptr b else s.timerNext q,
        fun q => if q = b then .ptr x else if q = x then .ptr a else s.timerPrev q, ?_,
        h.insert hd (by simp) ?_ ?_ ?_ ?_, ?_⟩
      · simp [timerLinkList, ha0, hb0, hna, TimerSt.setPrev, tlink, run_follow hb0]
        rfl
      · simp [tlink, hax.symm]
      · simp [tlink, hbx.symm]
      · intro q hq
        simp +contextual [ne_of_mem_of_not_mem hq hx, tlink, eq_comm]
      · intro q hq
        simp +contextual [ne_of_mem_of_not_mem hq hx, tlink, eq_comm]
      · simp +contextual

/-- `__timer_unlink_list` takes `x` out of the list and poisons it. -/
theorem timerUnlinkList_run {s : TimerSt} {A B : List Ptr} {x : Ptr}
    (h : DList tlink (.ptr s.first) s.timerNext s.timerPrev (A ++ x :: B)) (hd : (A ++ x :: B).Nodup)
    (h0 : 0 ∉ A ++ x :: B) :
    ∃ f n v, (timerUnlinkList x).run s = some ((), { s with first := f, timerNext := n, timerPrev := v }) ∧
      DList tlink (.ptr f) n v (A ++ B) ∧ n x = .poison1 ∧ ∀ q, q ∉ A ++ x :: B → n q = s.timerNext q := by
  obtain ⟨hnx, hpx⟩ := h.fields
  have hx : x ∉ A ++ B := by
    rw [List.nodup_middle, List.nodup_cons] at hd
    exact hd.1
  have hd' : (A ++ B).Nodup := by
    rw [List.nodup_middle, List.nodup_cons] at hd
    exact hd.2
  have hB : ∀ b B', B = b :: B' → b ≠ 0 ∧ b ≠ x := by
    rintro b B' rfl
    exact ⟨fun hb => h0 (by simp [hb]), fun hb => hx (by simp [hb])⟩
  have hfirst : s.first = (A ++ x :: B).head?.getD 0 := by
    have := h.first_eq
    rwa [tlink, TPtr.ptr.injEq] at this
  rcases List.eq_nil_or_concat A with rfl | ⟨A', a, rfl⟩
  · have hf : s.first = x := hfirst
    cases B with
    | nil =>
      refine ⟨0, fun q => if q = x then .poison1 else s.timerNext q,
        fun q => if q = x then .poison2 else s.timerPrev q, ?_, h.remove hd' ?_ ?_ ?_, ?_, ?_⟩
      · simp [timerUnlinkList, hf, hnx, tlink, TimerSt.setPrev, TimerSt.setNext]
      · simp [tlink]
      · simp [Redirect]
      · simp [Redirect]
      · simp
      · simp +contextual
    | cons b B =>
      obtain ⟨hb0, hbx⟩ := hB b B rfl
      refine ⟨b, fun q => if q = x then .poison1 else s.timerNext q,
        fun q => if q = x then .poison2 else if q = b then .ptr 0 else s.timerPrev q, ?_, h.remove hd' ?_ ?_ ?_, ?_, ?_⟩
      · simp [timerUnlinkList, hf, hnx, tlink, hb0, run_follow hb0, TimerSt.setPrev, TimerSt.setNext]
      · simp [tlink]
      · intro q hq
        simp [ne_of_mem_of_not_mem hq hx]
      · intro q hq
        simp +contextual [ne_of_mem_of_not_mem hq hx, tlink, eq_comm]
      · simp
      · simp +contextual
  · rw [List.concat_eq_append] at *
    have ha0 : a ≠ 0 := fun ha => h0 (by simp [ha])
    have hax : a ≠ x := fun ha => hx (by simp [ha])
    have hf : s.first ≠ x := by
      rw [hfirst]
      intro he
      cases A' with
      | nil => exact hax (by simpa using he)
      | cons a' A' =>
        refine hx ?_
        rw [← he]
        simp
    cases B with
    | nil =>
      refine ⟨s.first, fun q => if q = x then .poison1 else if q = a then .ptr 0 else s.timerNext q,
        fun q => if q = x then .poison2 else s.timerPrev q, ?_, h.remove hd' (by simp) ?_ ?_, ?_, ?_⟩
      · simp [timerUnlinkList, hf, hnx, hpx, tlink, run_follow ha0, TimerSt.setPrev, TimerSt.setNext]
      · intro q hq
        simp +contextual [ne_of_mem_of_not_mem hq hx, tlink, eq_comm]
      · intro q hq
        simp [ne_of_mem_of_not_mem hq hx]
      · simp
      · simp +contextual
    | cons b B =>
      obtain ⟨hb0, hbx⟩ := hB b B rfl
      refine ⟨s.first, fun q => if q = x then .poison1 else if q = a then .ptr b else s.timerNext q,
        fun q => if q = x then .poison2 else if q = b then .ptr a else s.timerPrev q, ?_, h.remove hd' (by simp) ?_ ?_,
        ?_, ?_⟩
      · simp [timerUnlinkList, hf, hnx, hpx, tlink, run_follow ha0, run_follow hb0, hb0, TimerSt.setPrev,
          TimerSt.setNext]
      · intro q hq
        simp +contextual [ne_of_mem_of_not_mem hq hx, tlink, eq_comm]
      · intro q hq
        simp +contextual [ne_of_mem_of_not_mem hq hx, tlink, eq_comm]
      · simp
      · simp +contextual

@[simp] theorem run_timerPut (p : Ptr) (s : TimerSt) : (timerPut p).run s = some ((),
    if s.usage p - 1 = 0 then { s.setUsage p (s.usage p - 1) with alloc := s.alloc.erase p }
    else s.setUsage p (s.usage p - 1)) := by
  by_cases hu : s.usage p - 1 = 0 <;> simp [timerPut, freeTimer, TimerSt.setUsage, hu]

theorem run_killTimerOnQ_of_not_installed {s : TimerSt} {x : Ptr} (hi : s.installed x = false) :
    (killTimerOnQ x).run s = some (false, s) := by
  simp only [killTimerOnQ, timerIdUninstall, StateT.run_bind, run_getT, Option.bind_eq_bind, Option.bind_some, hi]
  rfl

theorem fireTimer_result {s s' : TimerSt} {now tick : UInt64} {r : Option Ptr}
    (h : (fireTimer now tick).run s = some (r, s')) :
    r = if s.first ≠ 0 ∧ timeAfterEq now (s.expireTime s.first) = true then some s.first else none := by
  by_cases hc : s.first ≠ 0 ∧ timeAfterEq now (s.expireTime s.first) = true
  · rw [if_pos hc]
    simp only [fireTimer, StateT.run_bind, run_getT, Option.bind_eq_bind, Option.bind_some, if_pos hc] at h
    obtain ⟨⟨⟨⟩, s₁⟩, -, h⟩ := Option.bind_eq_some_iff.1 h
    split at h
    · obtain ⟨⟨⟨⟩, s₂⟩, -, h⟩ := Option.bind_eq_some_iff.1 h
      cases h
      rfl
    · cases h
      rfl
  · rw [if_neg hc]
    simp only [fireTimer, StateT.run_bind, run_getT, Option.bind_eq_bind, Option.bind_some, if_neg hc] at h
    cases h
    rfl

/-! ### The operations on the base -/

/-- The parts of the state that arming does not touch. -/
structure SameHeap (s s' : TimerSt) : Prop where
  alloc : s'.alloc = s.alloc
  timers : s'.timers = s.timers
  installed : s'.installed = s.installed
  usage : s'.usage = s.usage

namespace SameHeap

theorem refl (s : TimerSt) : SameHeap s s := ⟨rfl, rfl, rfl, rfl⟩

theorem trans {s₁ s₂ s₃ : TimerSt} (h : SameHeap s₁ s₂) (h' : SameHeap s₂ s₃) : SameHeap s₁ s₃ :=
  ⟨h'.alloc.trans h.alloc, h'.timers.trans h.timers, h'.installed.trans h.installed, h'.usage.trans h.usage⟩

end SameHeap

/-- Linking and unlinking leave the heap and the times of the timers alone. -/
structure Relinked (armed : List Ptr) (s s' : TimerSt) : Prop extends SameHeap s s' where
  interval : s'.interval = s.interval
  expireTime : s'.expireTime = s.expireTime
  armed : s'.armed = armed

namespace BaseInv

variable {s : TimerSt} {l : List Ptr} {x : Ptr}

theorem zero_not_mem (h : BaseInv s l) : 0 ∉ l := fun h0 => h.alloc_ne (h.sub 0 h0)

theorem first_mem (h : BaseInv s l) (h0 : s.first ≠ 0) : s.first ∈ l := by
  have := h.list.first_eq
  rw [tlink, TPtr.ptr.injEq] at this
  cases l with
  | nil => exact absurd this h0
  | cons a l =>
    rw [this]
    exact List.mem_cons_self

theorem run_insertTimer_relinked (h : BaseInv s l) (hx : x ∈ s.alloc) (hl : x ∉ l) :
    ∃ s' l', (insertTimer x).run s = some ((), s') ∧ BaseInv s' l' ∧ Relinked (s.armed ++ [x]) s s' ∧
      ∀ q, q ∈ l' ↔ q = x ∨ q ∈ l := by
  have hx0 : x ≠ 0 := fun h0 => h.alloc_ne (h0 ▸ hx)
  have happ := h.sorted.filter_append totalPreorder_cmpExpire (s.expireTime x)
  have hsort := h.sorted.insert (x := x) totalPreorder_cmpExpire
  have hsign := h.sorted.sign_sorted totalPreorder_cmpExpire (s.expireTime x)
  have h0 := h.zero_not_mem
  have hnd := h.rb.nodup
  have hlist := h.list
  obtain ⟨t, m, hat, hb, rfl, hc⟩ := h.rb
  obtain ⟨z, hfind, hz, hp, hbef, haft⟩ := findTimerPrepare_run hat hc hsign
  rw [← hbef, ← haft] at happ hsort
  rw [← happ] at h0 hnd hl hlist
  obtain ⟨f, n, v, hlink, hdl, hframe⟩ := timerLinkList_run (w := upPtr z) hlist hnd h0 hl upPtr_eq_head_after
  obtain ⟨rb', hins, hrb'⟩ := rbInsert_run hz hp hb hc hx0 (happ ▸ hl)
  have hmem : ∀ q, q ∈ z.before ++ x :: z.after ↔ q = x ∨ q ∈ t.toList := fun q => by
    rw [← happ]
    simp only [List.mem_append, List.mem_cons]
    tauto
  refine ⟨{ s with rb := rb', first := f, timerNext := n, timerPrev := v, armed := s.armed ++ [x] },
    z.before ++ x :: z.after, ?_, ⟨hrb', hdl, hsort, fun q hq hn => ?_, fun q hq => ?_, h.alloc_ne⟩,
    ⟨⟨rfl, rfl, rfl, rfl⟩, rfl, rfl, rfl⟩, hmem⟩
  · simp only [insertTimer, StateT.run_bind, run_getT, Option.bind_eq_bind, Option.bind_some, run_onTree, hfind,
      Option.map_some, hlink, hins, run_modifyT]
  · exact (hframe q hn).trans (h.poison q hq fun hm => hn ((hmem q).2 (.inr hm)))
  · rcases (hmem q).1 hq with rfl | hq
    exacts [hx, h.sub q hq]

theorem run_insertTimer (h : BaseInv s l) (hx : x ∈ s.alloc) (hl : x ∉ l) :
    ∃ s' l', (insertTimer x).run s = some ((), s') ∧ BaseInv s' l' ∧ SameHeap s s' ∧ ∀ q, q ∈ l' ↔ q = x ∨ q ∈ l := by
  obtain ⟨s', l', hrun, h', hs', hl'⟩ := h.run_insertTimer_relinked hx hl
  exact ⟨s', l', hrun, h', hs'.toSameHeap, hl'⟩

theorem run_unlinkTimer_relinked (h : BaseInv s l) (hx : x ∈ l) :
    ∃ s', (unlinkTimer x).run s = some ((), s') ∧ BaseInv s' (l.erase x) ∧ Relinked (s.armed.erase x) s s' := by
  have hnd := h.rb.nodup
  have h0 := h.zero_not_mem
  have hlist := h.list
  obtain ⟨A, B, rfl⟩ := List.append_of_mem hx
  have hxA : x ∉ A := fun hA => (List.nodup_append.1 hnd).2.2 x hA x (by simp) rfl
  have her : (A ++ x :: B).erase x = A ++ B := by
    rw [List.erase_append_right _ hxA, List.erase_cons_head]
  obtain ⟨f, n, v, hlink, hdl, hnx, hframe⟩ := timerUnlinkList_run hlist hnd h0
  obtain ⟨rb', herase, hrb'⟩ := aoslRbErase_run h.rb hx
  refine ⟨{ s with rb := rb', first := f, timerNext := n, timerPrev := v, armed := s.armed.erase x }, ?_,
    ⟨hrb', by rw [her]; exact hdl, h.sorted.erase hnd x, fun q hq hn => ?_,
      fun q hq => h.sub q (List.mem_of_mem_erase hq), h.alloc_ne⟩, ⟨⟨rfl, rfl, rfl, rfl⟩, rfl, rfl, rfl⟩⟩
  · simp only [unlinkTimer, StateT.run_bind, hlink, Option.bind_eq_bind, Option.bind_some, run_onTree, herase,
      Option.map_some, run_modifyT]
  · by_cases hqx : q = x
    · rw [hqx]
      exact hnx
    · have hq' : q ∉ A ++ x :: B := fun hm => hn ((List.mem_erase_of_ne hqx).2 hm)
      exact (hframe q hq').trans (h.poison q hq hq')

theorem run_unlinkTimer (h : BaseInv s l) (hx : x ∈ l) :
    ∃ s', (unlinkTimer x).run s = some ((), s') ∧ BaseInv s' (l.erase x) ∧ SameHeap s s' := by
  obtain ⟨s', hrun, h', hs'⟩ := h.run_unlinkTimer_relinked hx
  exact ⟨s', hrun, h', hs'.toSameHeap⟩

theorem setExpire (h : BaseInv s l) (hl : x ∉ l) (e : UInt64) : BaseInv (s.setExpire x e) l :=
  ⟨h.rb, h.list, h.sorted.congr fun _ ha => if_neg (ne_of_mem_of_not_mem ha hl), h.poison, h.sub, h.alloc_ne⟩

theorem setInterval (h : BaseInv s l) (x : Ptr) (v : UInt64) : BaseInv (s.setInterval x v) l :=
  ⟨h.rb, h.list, h.sorted, h.poison, h.sub, h.alloc_ne⟩

theorem setUsage (h : BaseInv s l) (x : Ptr) (v : Nat) : BaseInv (s.setUsage x v) l :=
  ⟨h.rb, h.list, h.sorted, h.poison, h.sub, h.alloc_ne⟩

theorem setTables (h : BaseInv s l) (installed : Ptr → Bool) (timers : List Ptr) :
    BaseInv { s with installed, timers } l :=
  ⟨h.rb, h.list, h.sorted, h.poison, h.sub, h.alloc_ne⟩

theorem free (h : BaseInv s l) (hx : x ∉ l) : BaseInv { s with alloc := s.alloc.erase x } l :=
  ⟨h.rb, h.list, h.sorted, fun q hq => h.poison q (List.mem_of_mem_erase hq),
    fun q hq => (List.mem_erase_of_ne (ne_of_mem_of_not_mem hq hx)).2 (h.sub q hq),
    fun h0 => h.alloc_ne (List.mem_of_mem_erase h0)⟩

theorem run_cancelTimerOnQ (h : BaseInv s l) (hx : x ∈ s.alloc) :
    ∃ s', (cancelTimerOnQ x).run s = some ((), s') ∧ BaseInv s' (l.erase x) ∧ SameHeap s s' := by
  simp only [cancelTimerOnQ, StateT.run_bind, run_getT, Option.bind_eq_bind, Option.bind_some, ne_eq,
    h.next_eq_poison hx]
  by_cases hl : x ∈ l
  · rw [if_pos (not_not_intro hl)]
    exact h.run_unlinkTimer hl
  · rw [if_neg (not_not_intro hl), List.erase_of_not_mem hl]
    exact ⟨s, rfl, h, .refl s⟩

/-- Killing an installed timer: it leaves the base and the tables, and the heap with its last reference. -/
theorem run_killTimerOnQ (h : BaseInv s l) (hx : x ∈ s.alloc) (hi : s.installed x) :
    ∃ s', (killTimerOnQ x).run s = some (true, s') ∧ BaseInv s' (l.erase x) ∧ s'.timers = s.timers.erase x ∧
      s'.installed = (s.setInstalled x false).installed ∧ s'.usage = (s.setUsage x (s.usage x - 1)).usage ∧
      s'.alloc = if s.usage x - 1 = 0 then s.alloc.erase x else s.alloc := by
  have h₀ := h.setTables (s.setInstalled x false).installed s.timers
  obtain ⟨s₁, r₁, h₁, hs₁⟩ := h₀.run_cancelTimerOnQ hx
  have hxl : x ∉ l.erase x := h.rb.nodup.not_mem_erase
  have hrun : (killTimerOnQ x).run s = ((timerPut x).run { s₁ with timers := s₁.timers.erase x }).map
      fun r => (true, r.2) := by
    simp only [killTimerOnQ, timerIdUninstall, StateT.run_bind, run_getT, Option.bind_eq_bind, Option.bind_some, hi,
      if_true, run_modifyT, StateT.run_pure, Option.pure_def]
    rw [show s.setInstalled x false = { s with installed := (s.setInstalled x false).installed, timers := s.timers }
      from rfl, r₁]
    simp only [Option.bind_some, Option.map_eq_bind]
    rfl
  have h₂ := (h₁.setTables s₁.installed (s₁.timers.erase x)).setUsage x (s₁.usage x - 1)
  have hu : s₁.usage = s.usage := hs₁.usage
  have ha : s₁.alloc = s.alloc := hs₁.alloc
  have ht : s₁.timers = s.timers := hs₁.timers
  rw [hrun, run_timerPut, Option.map_some]
  refine ⟨_, rfl, ?_⟩
  rw [← hu, ← ha, ← ht]
  by_cases h0 : s₁.usage x - 1 = 0
  · simp only [if_pos h0]
    exact ⟨h₂.free hxl, rfl, hs₁.installed, by rw [TimerSt.setUsage, TimerSt.setUsage, hu], trivial⟩
  · simp only [if_neg h0]
    exact ⟨h₂, rfl, hs₁.installed, by rw [TimerSt.setUsage, TimerSt.setUsage, hu], rfl⟩

theorem run_schedTimer (h : BaseInv s l) (hx : x ∈ s.alloc) (hl : x ∉ l) (e tick : UInt64) :
    ∃ s' l', (schedTimer x e tick).run s = some ((), s') ∧ BaseInv s' l' ∧ SameHeap s s' ∧
      ∀ q, q ∈ l' ↔ q = x ∨ q ∈ l := by
  have key : ∀ s₁, BaseInv s₁ l → SameHeap s s₁ → ∃ s' l', (insertTimer x).run s₁ = some ((), s') ∧ BaseInv s' l' ∧
      SameHeap s s' ∧ ∀ q, q ∈ l' ↔ q = x ∨ q ∈ l := by
    intro s₁ h₁ hs₁
    obtain ⟨s', l', hrun, h', hs', hl'⟩ := h₁.run_insertTimer (hs₁.alloc ▸ hx) hl
    exact ⟨s', l', hrun, h', hs₁.trans hs', hl'⟩
  by_cases he : e = 0
  · by_cases hi : s.interval x = invalidTimerInterval
    · simp only [schedTimer, he, hi, ne_eq, not_true_eq_false, if_false, StateT.run_bind, run_getT, run_modifyT,
        Option.bind_eq_bind, Option.bind_some]
      exact key _ (h.setExpire hl _) ⟨rfl, rfl, rfl, rfl⟩
    · simp only [schedTimer, he, hi, ne_eq, not_true_eq_false, not_false_eq_true, if_false, if_true, StateT.run_bind,
        run_getT, run_modifyT, Option.bind_eq_bind, Option.bind_some]
      exact key _ (h.setExpire hl _) ⟨rfl, rfl, rfl, rfl⟩
  · simp only [schedTimer, he, ne_eq, not_false_eq_true, if_true, StateT.run_bind, run_modifyT, Option.bind_eq_bind,
      Option.bind_some]
    exact key _ ((h.setInterval x _).setExpire hl _) ⟨rfl, rfl, rfl, rfl⟩

theorem run_reschedTimer (h : BaseInv s l) (hx : x ∈ s.alloc) (i e tick : UInt64) :
    ∃ s' l', (reschedTimer x i e tick).run s = some ((), s') ∧ BaseInv s' l' ∧ SameHeap s s' ∧
      ∀ q, q ∈ l' ↔ q = x ∨ q ∈ l := by
  obtain ⟨s₁, r₁, h₁, hs₁⟩ := h.run_cancelTimerOnQ hx
  have hmem : ∀ q, q = x ∨ q ∈ l.erase x ↔ q = x ∨ q ∈ l := fun q => by
    by_cases hq : q = x
    · simp [hq]
    · simp [hq, List.mem_erase_of_ne hq]
  have key : ∀ s₂, BaseInv s₂ (l.erase x) → SameHeap s₁ s₂ → ∃ s' l', (schedTimer x e tick).run s₂ = some ((), s') ∧
      BaseInv s' l' ∧ SameHeap s s' ∧ ∀ q, q ∈ l' ↔ q = x ∨ q ∈ l := by
    intro s₂ h₂ hs₂
    have hs := hs₁.trans hs₂
    obtain ⟨s', l', hrun, h', hs', hl'⟩ := h₂.run_schedTimer (hs.alloc ▸ hx) h.rb.nodup.not_mem_erase e tick
    exact ⟨s', l', hrun, h', hs.trans hs', fun q => (hl' q).trans (hmem q)⟩
  simp only [reschedTimer, StateT.run_bind, r₁, Option.bind_eq_bind, Option.bind_some]
  by_cases hc : e = 0 ∧ i ≠ invalidTimerInterval
  · simp only [if_pos hc, StateT.run_bind, run_modifyT, Option.bind_eq_bind, Option.bind_some]
    exact key _ (h₁.setInterval x i) ⟨rfl, rfl, rfl, rfl⟩
  · simp only [if_neg hc]
    exact key s₁ h₁ (.refl s₁)

theorem run_fireTimer (h : BaseInv s l) (now tick : UInt64) :
    ∃ r s' l', (fireTimer now tick).run s = some (r, s') ∧ BaseInv s' l' ∧ SameHeap s s' ∧ ∀ q ∈ l', q ∈ l := by
  by_cases hc : s.first ≠ 0 ∧ timeAfterEq now (s.expireTime s.first)
  · have hfirst := h.first_mem hc.1
    obtain ⟨s₁, r₁, h₁, hs₁⟩ := h.run_unlinkTimer hfirst
    simp only [fireTimer, StateT.run_bind, run_getT, Option.bind_eq_bind, Option.bind_some, if_pos hc, r₁]
    by_cases hi : s₁.interval s.first ≠ invalidTimerInterval
    · simp only [if_pos hi, StateT.run_bind, run_modifyT, Option.bind_eq_bind, Option.bind_some]
      have hn : s.first ∉ l.erase s.first := h.rb.nodup.not_mem_erase
      obtain ⟨s₂, l₂, r₂, h₂, hs₂, hl₂⟩ := (h₁.setExpire hn (tick + s₁.interval s.first -
        (now - s₁.expireTime s.first))).run_insertTimer (hs₁.alloc ▸ h.sub _ hfirst) hn
      rw [r₂]
      refine ⟨some s.first, s₂, l₂, rfl, h₂, hs₁.trans ⟨hs₂.1, hs₂.2, hs₂.3, hs₂.4⟩, fun q hq => ?_⟩
      rcases (hl₂ q).1 hq with rfl | hq
      exacts [hfirst, List.mem_of_mem_erase hq]
    · simp only [if_neg hi]
      exact ⟨some s.first, s₁, _, rfl, h₁, hs₁, fun q hq => List.mem_of_mem_erase hq⟩
  · simp only [fireTimer, StateT.run_bind, run_getT, Option.bind_eq_bind, Option.bind_some, if_neg hc]
    exact ⟨none, s, l, rfl, h, .refl s, fun q hq => hq⟩

end BaseInv

end Aosl
