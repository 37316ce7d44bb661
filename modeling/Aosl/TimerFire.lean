import Aosl.TimerRun
import Aosl.Lib.Agenda

/-!
# Running the due timers, `__check_and_run_timers`

The loop with a clock that stands at `now` and callbacks that do not touch timers. To the order of
arming and the times of the timers it is the running of an agenda, `TimerSt.agenda`; `Ran` then says
which callbacks are called, in which order and how often. `count` is a C `int`, so the number of
callbacks is returned as long as it fits.
-/

namespace Aosl
open Lib

/-- A call of a callback: the timer, and the expiry time it was armed for. -/
structure Firing where
  timer : Ptr
  expireTime : UInt64
deriving DecidableEq

/-- A count kept in an `int`. -/
def asInt (n : Int) : Int := Int.bmod n 0x100000000

/-- The `while` loop, with the calls so far; each round is `fireTimer`. -/
def checkAndRunTimersLoop (now : UInt64) : Nat → Int → List Firing → TimerM (Int × List Firing)
  | 0, _, _ => failure
  | fuel + 1, count, calls => do
    let expireTime := (← get).expireTime (← get).first
    match ← fireTimer now now with
    | none => return (count, calls)
    | some timer => checkAndRunTimersLoop now fuel (asInt (count + 1)) (calls ++ [⟨timer, expireTime⟩])

def checkAndRunTimers (now : UInt64) (fuel : Nat) : TimerM (Int × List Firing) :=
  checkAndRunTimersLoop now fuel 0 []

namespace TimerSt

/-- The armed timers as jobs. -/
def agenda (s : TimerSt) : Agenda Ptr where
  jobs := s.armed
  time x := (s.expireTime x).toNat
  period x := if s.interval x = invalidTimerInterval then none else some (s.interval x).toNat

theorem agenda_period_oneshot {s : TimerSt} {x : Ptr} (h : s.interval x = invalidTimerInterval) :
    s.agenda.period x = none := if_pos h

theorem agenda_period_periodic {s : TimerSt} {x : Ptr} (h : s.interval x ≠ invalidTimerInterval) :
    s.agenda.period x = some (s.interval x).toNat := if_neg h

theorem expireTime_setExpire_self {s : TimerSt} {p : Ptr} {v : UInt64} : (s.setExpire p v).expireTime p = v := if_pos rfl

theorem expireTime_setExpire_ne {s : TimerSt} {p q : Ptr} {v : UInt64} (h : q ≠ p) :
    (s.setExpire p v).expireTime q = s.expireTime q := if_neg h

end TimerSt

theorem timeAfterEq_iff {a b : UInt64} (ha : a.toNat < 0x8000000000000000) (hb : b.toNat < 0x8000000000000000) :
    timeAfterEq a b = true ↔ b.toNat ≤ a.toNat := by
  rw [timeAfterEq, decide_eq_true_eq, UInt64.lt_iff_toNat_lt, UInt64.toNat_sub]
  have : (0x8000000000000000 : UInt64).toNat = 0x8000000000000000 := rfl
  omega

/-- With the clock at `now` a timer is armed again one interval after it was due. -/
theorem toNat_rearm {now i e : UInt64} (h : e.toNat + i.toNat < 0x10000000000000000) :
    (now + i - (now - e)).toNat = e.toNat + i.toNat := by
  have hnow := now.toNat_lt
  have hi := i.toNat_lt
  have he := e.toNat_lt
  rw [UInt64.toNat_sub, UInt64.toNat_sub, UInt64.toNat_add]
  omega

namespace BaseInv

variable {s : TimerSt} {l : List Ptr} {x : Ptr} {now : UInt64}

theorem nodup_armed (h : BaseInv s l) : s.armed.Nodup := h.sorted.perm.nodup_iff.1 h.rb.nodup

theorem first_cons (h : BaseInv s (x :: l)) : s.first = x := by
  have := h.list.first_eq
  rwa [tlink, TPtr.ptr.injEq] at this

theorem next_first (h : BaseInv s (x :: l)) : s.agenda.Next x := by
  refine ⟨h.sorted.perm.mem_iff.1 List.mem_cons_self, fun y hy hne => ?_⟩
  rcases h.sorted.head_before totalPreorder_cmpExpire hy hne with hlt | ⟨heq, hsub⟩
  · refine .inl ?_
    simp only [cmpExpire] at hlt
    show (s.expireTime x).toNat < (s.expireTime y).toNat
    omega
  · refine .inr ⟨?_, hsub⟩
    simp only [cmpExpire] at heq
    show (s.expireTime x).toNat = (s.expireTime y).toNat
    omega

/-- A round fires the first timer when it is due, and is then a run of its job. -/
theorem run_fireTimer_due (h : BaseInv s (x :: l)) (hdue : timeAfterEq now (s.expireTime x) = true)
    (hfit : s.agenda.timeAfter x 1 < 0x10000000000000000) :
    ∃ s' l', (fireTimer now now).run s = some (some x, s') ∧ BaseInv s' l' ∧ s'.agenda = s.agenda.run x := by
  have hmem : x ∈ x :: l := List.mem_cons_self
  have hx0 : x ≠ 0 := fun h0 => h.zero_not_mem (h0 ▸ hmem)
  obtain ⟨s₁, r₁, h₁, hs₁⟩ := h.run_unlinkTimer_relinked hmem
  have hc : x ≠ 0 ∧ timeAfterEq now (s.expireTime x) = true := ⟨hx0, hdue⟩
  simp only [fireTimer, StateT.run_bind, run_getT, Option.bind_eq_bind, Option.bind_some, h.first_cons, if_pos hc, r₁,
    hs₁.interval]
  by_cases hi : s.interval x ≠ invalidTimerInterval
  · simp only [if_pos hi, StateT.run_bind, run_modifyT, Option.bind_eq_bind, Option.bind_some]
    have hn : x ∉ (x :: l).erase x := h.rb.nodup.not_mem_erase
    have hset := h₁.setExpire hn (now + s₁.interval x - (now - s₁.expireTime x))
    obtain ⟨s₂, l₂, r₂, h₂, hs₂, -⟩ := hset.run_insertTimer_relinked (hs₁.alloc ▸ h.sub _ hmem) hn
    rw [r₂]
    refine ⟨s₂, l₂, rfl, h₂, ?_⟩
    have harmed : s₂.armed = s.armed.erase x ++ [x] := hs₂.armed.trans (congrArg (· ++ [x]) hs₁.armed)
    have hint : s₂.interval = s.interval := hs₂.interval.trans hs₁.interval
    have hp := TimerSt.agenda_period_periodic hi
    rw [Agenda.timeAfter, hp, Nat.one_mul] at hfit
    rw [Agenda.run, hp, TimerSt.agenda, Agenda.mk.injEq]
    refine ⟨harmed, funext fun y => ?_, by rw [hint]; rfl⟩
    by_cases hy : y = x
    · subst hy
      rw [hs₂.expireTime, Function.update_self, TimerSt.expireTime_setExpire_self, hs₁.interval, hs₁.expireTime]
      exact toNat_rearm hfit
    · rw [hs₂.expireTime, Function.update_of_ne hy, TimerSt.expireTime_setExpire_ne hy, hs₁.expireTime]
      rfl
  · simp only [if_neg hi]
    refine ⟨s₁, _, rfl, h₁, ?_⟩
    have hp := TimerSt.agenda_period_oneshot (not_not.1 hi)
    rw [Agenda.run, hp, TimerSt.agenda, hs₁.armed, hs₁.expireTime, hs₁.interval]
    rfl

theorem run_fireTimer_late (hlate : ∀ x ∈ l.head?, timeAfterEq now (s.expireTime x) = false) (h : BaseInv s l) :
    (fireTimer now now).run s = some (none, s) := by
  have hfirst := h.list.first_eq
  rw [tlink, TPtr.ptr.injEq] at hfirst
  have hc : ¬(s.first ≠ 0 ∧ timeAfterEq now (s.expireTime s.first) = true) := by
    rintro ⟨hne, hdue⟩
    rcases hl : l.head? with _ | x
    · rw [hl] at hfirst
      exact hne hfirst
    · rw [hl, Option.getD_some] at hfirst
      rw [hfirst, hlate x hl] at hdue
      cases hdue
  simp only [fireTimer, StateT.run_bind, run_getT, Option.bind_eq_bind, Option.bind_some, if_neg hc]
  rfl

end BaseInv

/-! ### The loop -/

namespace TimerSt

/-- All times stay below `2 ^ 63`, those for which the due timers are armed again included. -/
structure TimesFit (s : TimerSt) (now : UInt64) : Prop where
  clock : now.toNat < 0x8000000000000000
  expire : ∀ x ∈ s.armed, (s.expireTime x).toNat < 0x8000000000000000
  again : ∀ x ∈ s.armed, s.interval x ≠ invalidTimerInterval → s.expireTime x ≤ now →
    (s.expireTime x).toNat + ((now.toNat - (s.expireTime x).toNat) / (s.interval x).toNat + 1) *
      (s.interval x).toNat < 0x8000000000000000

/-- The calls so far have led from `s₀` to `s`. -/
structure FireInv (s₀ : TimerSt) (now : UInt64) (calls : List Firing) (s : TimerSt) : Prop where
  base : ∃ l, BaseInv s l
  ran : Agenda.Ran now.toNat s₀.agenda (calls.map Firing.timer) s.agenda
  expire : ∀ (k : Nat) (f : Firing), calls[k]? = some f →
    f.expireTime.toNat = (s₀.agenda.runKey (calls.map Firing.timer) k f.timer).1

variable {s₀ s : TimerSt} {now : UInt64} {calls : List Firing} {x : Ptr}

theorem agenda_period_pos (hint : ∀ x ∈ s.armed, s.interval x ≠ 0) (hx : x ∈ s.agenda.jobs) (p : Nat)
    (hp : s.agenda.period x = some p) : 0 < p := by
  have hne : (s.interval x).toNat ≠ 0 := fun h0 => hint x hx (UInt64.toNat_inj.1 h0)
  by_cases hi : s.interval x = invalidTimerInterval
  · rw [agenda_period_oneshot hi] at hp
    cases hp
  · rw [agenda_period_periodic hi] at hp
    rw [← Option.some.inj hp]
    exact Nat.pos_of_ne_zero hne

theorem TimesFit.timeAfter_lt (h : s.TimesFit now) (hx : x ∈ s.armed) {n : Nat}
    (hn : n ≤ s.agenda.dueCount now.toNat x) : s.agenda.timeAfter x n < 0x8000000000000000 := by
  refine Nat.lt_of_le_of_lt (s.agenda.timeAfter_mono x hn) ?_
  have hexp : s.agenda.time x < 0x8000000000000000 := h.expire x hx
  by_cases hi : s.interval x = invalidTimerInterval
  · rw [Agenda.timeAfter, agenda_period_oneshot hi]
    exact hexp
  · rw [Agenda.timeAfter, Agenda.dueCount, agenda_period_periodic hi]
    split_ifs with hle
    · exact h.again x hx hi (UInt64.le_iff_toNat_le.2 hle)
    · simpa using hexp

section loop

variable {fuel : Nat} {count : Int} {s' : TimerSt}

theorem run_loop_none (h : (fireTimer now now).run s = some (none, s)) :
    (checkAndRunTimersLoop now (fuel + 1) count calls).run s = some ((count, calls), s) := by
  simp only [checkAndRunTimersLoop, StateT.run_bind, run_getT, Option.bind_eq_bind, Option.bind_some, h]
  rfl

theorem run_loop_some (h : (fireTimer now now).run s = some (some x, s')) :
    (checkAndRunTimersLoop now (fuel + 1) count calls).run s =
      (checkAndRunTimersLoop now fuel (asInt (count + 1)) (calls ++ [⟨x, s.expireTime s.first⟩])).run s' := by
  simp only [checkAndRunTimersLoop, StateT.run_bind, run_getT, Option.bind_eq_bind, Option.bind_some, h]

end loop

theorem asInt_succ (n : Nat) : asInt (asInt n + 1) = asInt ((n + 1 : Nat) : Int) := by
  rw [asInt, asInt, asInt, Int.bmod_add_bmod, Int.natCast_succ]

namespace FireInv

/-- A round of the loop: no timer is due, or the next one is called. -/
theorem round (h : FireInv s₀ now calls s) (hfit : s₀.TimesFit now) (hint : ∀ x ∈ s₀.armed, s₀.interval x ≠ 0) :
    ((fireTimer now now).run s = some (none, s) ∧ ∀ x ∈ s.agenda.jobs, now.toNat < s.agenda.time x) ∨
    ∃ s', (fireTimer now now).run s = some (some s.first, s') ∧
      FireInv s₀ now (calls ++ [⟨s.first, s.expireTime s.first⟩]) s' := by
  obtain ⟨l, hbase⟩ := h.base
  rcases l with _ | ⟨x, l⟩
  · refine .inl ⟨hbase.run_fireTimer_late fun x hx => (by cases hx), fun x hx => ?_⟩
    have := hbase.sorted.perm.mem_iff.2 hx
    cases this
  · have hnext := hbase.next_first
    have hx₀ : x ∈ s₀.agenda.jobs := ((h.ran.mem x).1 hnext.1).1
    have hpos := agenda_period_pos hint hx₀
    have hlt : s.agenda.time x < 0x8000000000000000 := by
      rw [h.ran.time x hnext.1]
      exact hfit.timeAfter_lt hx₀ (h.ran.count_le hpos)
    have hiff : timeAfterEq now (s.expireTime x) = true ↔ s.agenda.time x ≤ now.toNat := timeAfterEq_iff hfit.clock hlt
    by_cases hdue : timeAfterEq now (s.expireTime x) = true
    · right
      have hran := h.ran.step hnext (hiff.1 hdue) hpos
      have hagain : s.agenda.timeAfter x 1 < 0x10000000000000000 := by
        have hcount := hran.count_le hpos
        rw [count_concat_self] at hcount
        have := hfit.timeAfter_lt hx₀ hcount
        rw [Agenda.timeAfter_succ, ← h.ran.time x hnext.1] at this
        rw [Agenda.timeAfter_succ, Agenda.timeAfter_zero, h.ran.period]
        omega
      obtain ⟨s', l', hrun, hbase', hagenda⟩ := hbase.run_fireTimer_due hdue hagain
      rw [hbase.first_cons]
      refine ⟨s', hrun, ⟨l', hbase'⟩, ?_, fun k f hk => ?_⟩
      · rw [hagenda, List.map_append]
        exact hran
      · rw [List.map_append]
        rcases getElem?_concat_cases hk with ⟨hlt, hk⟩ | ⟨rfl, rfl⟩
        · rw [Agenda.runKey_append (by rw [List.length_map]; exact Nat.le_of_lt hlt)]
          exact h.expire k f hk
        · rw [← List.length_map Firing.timer, Agenda.runKey_append (Nat.le_refl _), h.ran.runKey_next hnext.1]
          rfl
    · left
      refine ⟨hbase.run_fireTimer_late fun y hy => ?_, fun y hy => ?_⟩
      · rw [← Option.some.inj hy]
        exact Bool.eq_false_iff.2 hdue
      · have hx : now.toNat < s.agenda.time x := Nat.not_le.1 fun hle => hdue (hiff.2 hle)
        by_cases hne : y = x
        · rw [hne]
          exact hx
        · rcases hnext.2 y hy hne with hlt | ⟨heq, -⟩ <;> omega

theorem init (h : ∃ l, BaseInv s l) : FireInv s now [] s := by
  obtain ⟨l, hbase⟩ := h
  exact ⟨⟨l, hbase⟩, .init _ hbase.nodup_armed, fun k f hk => by simp at hk⟩

theorem length_le (h : FireInv s₀ now calls s) (hnodup : s₀.armed.Nodup) (hint : ∀ x ∈ s₀.armed, s₀.interval x ≠ 0) :
    calls.length ≤ s₀.agenda.dueTotal now.toNat := by
  rw [← List.length_map Firing.timer]
  exact h.ran.length_le hnodup fun x hx => agenda_period_pos hint hx

/-- The loop ends when all due calls have been made. The induction is on the calls that are left. -/
theorem loop (hfit : s₀.TimesFit now) (hint : ∀ x ∈ s₀.armed, s₀.interval x ≠ 0) (hnodup : s₀.armed.Nodup) (n : Nat)
    (h : FireInv s₀ now calls s) (hn : s₀.agenda.dueTotal now.toNat < calls.length + n) :
    ∃ calls' s', FireInv s₀ now calls' s' ∧ (∀ x ∈ s'.agenda.jobs, now.toNat < s'.agenda.time x) ∧
      calls.length ≤ calls'.length ∧ ∀ fuel, calls'.length < calls.length + fuel →
        (checkAndRunTimersLoop now fuel (asInt calls.length) calls).run s = some ((asInt calls'.length, calls'), s') := by
  induction n generalizing calls s with
  | zero => exact absurd (h.length_le hnodup hint) (Nat.not_le.2 hn)
  | succ n ih =>
    rcases h.round hfit hint with ⟨hrun, hlate⟩ | ⟨s₁, hrun, h₁⟩
    · refine ⟨calls, s, h, hlate, Nat.le_refl _, fun fuel hfuel => ?_⟩
      obtain ⟨fuel, rfl⟩ := Nat.exists_eq_succ_of_ne_zero (n := fuel) (by omega)
      exact run_loop_none hrun
    · obtain ⟨calls', s', h', hlate, hlen, hloop⟩ := ih h₁ (by rw [List.length_append, List.length_singleton]; omega)
      rw [List.length_append, List.length_singleton] at hlen hloop
      refine ⟨calls', s', h', hlate, by omega, fun fuel hfuel => ?_⟩
      obtain ⟨fuel, rfl⟩ := Nat.exists_eq_succ_of_ne_zero (n := fuel) (by omega)
      rw [run_loop_some hrun, asInt_succ]
      exact hloop fuel (by omega)

end FireInv

/-- What a call at `now` in the state `s` does: `calls` are the callbacks in their order, `s'` is the state it leaves. -/
structure RunsDue (s : TimerSt) (now : UInt64) (calls : List Firing) (s' : TimerSt) : Prop where
  /-- In the order of expiry, and in order of arming where this is equal: the armings before the call in their order,
  then those of the callbacks. -/
  order : ∀ (j k : Nat) (f g : Firing), j < k → calls[j]? = some f → calls[k]? = some g →
    f.expireTime < g.expireTime ∨ f.expireTime = g.expireTime ∧
      lastIdx f.timer (s.armed ++ (calls.take j).map Firing.timer) <
        lastIdx g.timer (s.armed ++ (calls.take k).map Firing.timer)
  armed : ∀ f ∈ calls, f.timer ∈ s.armed
  oneshot : ∀ x ∈ s.armed, s.interval x = invalidTimerInterval →
    (calls.map Firing.timer).count x = if s.expireTime x ≤ now then 1 else 0
  periodic : ∀ x ∈ s.armed, s.interval x ≠ invalidTimerInterval → (calls.map Firing.timer).count x =
    if s.expireTime x ≤ now then (now.toNat - (s.expireTime x).toNat) / (s.interval x).toNat + 1 else 0
  /-- A periodic timer is called for the expiry times `e`, `e + i`, `e + 2 * i`, .. -/
  scheduled : ∀ (k : Nat) (f : Firing), calls[k]? = some f → f.expireTime.toNat = (s.expireTime f.timer).toNat +
    if s.interval f.timer = invalidTimerInterval then 0 else
      ((calls.take k).map Firing.timer).count f.timer * (s.interval f.timer).toNat
  left : ∀ x, x ∈ s'.armed ↔ x ∈ s.armed ∧ (s.interval x = invalidTimerInterval → now < s.expireTime x)
  later : ∀ x ∈ s'.armed, now < s'.expireTime x
  expire : ∀ x ∈ s'.armed, (s'.expireTime x).toNat = (s.expireTime x).toNat +
    if s.interval x = invalidTimerInterval then 0 else
      (calls.map Firing.timer).count x * (s.interval x).toNat
  agree : s'.Agree

theorem timeAfter_agenda (s : TimerSt) (x : Ptr) (n : Nat) : s.agenda.timeAfter x n = (s.expireTime x).toNat +
    if s.interval x = invalidTimerInterval then 0 else n * (s.interval x).toNat := by
  rw [Agenda.timeAfter]
  split_ifs with hi
  · rw [agenda_period_oneshot hi]
    rfl
  · rw [agenda_period_periodic hi]
    rfl

theorem FireInv.runsDue {s' : TimerSt} (h : FireInv s now calls s') (hint : ∀ x ∈ s.armed, s.interval x ≠ 0)
    (hlate : ∀ x ∈ s'.agenda.jobs, now.toNat < s'.agenda.time x) : s.RunsDue now calls s' := by
  have hcount : ∀ x ∈ s.armed, (calls.map Firing.timer).count x = s.agenda.dueCount now.toNat x :=
    fun x hx => h.ran.count_eq (agenda_period_pos hint hx) hlate hx
  have hmap : ∀ {k : Nat} {f : Firing}, calls[k]? = some f → (calls.map Firing.timer)[k]? = some f.timer :=
    fun hk => by rw [List.getElem?_map, hk, Option.map_some]
  have honce : ∀ x ∈ s.armed, s.interval x = invalidTimerInterval →
      (calls.map Firing.timer).count x = if s.expireTime x ≤ now then 1 else 0 := by
    intro x hx hi
    rw [hcount x hx, Agenda.dueCount, agenda_period_oneshot hi]
    exact if_congr UInt64.le_iff_toNat_le.symm rfl rfl
  refine ⟨fun j k f g hjk hj hk => ?_, fun f hf => (h.ran.due _ (List.mem_map_of_mem hf)).1, honce,
    fun x hx hi => ?_, fun k f hk => ?_, fun x => ?_, fun x hx => UInt64.lt_iff_toNat_lt.2 (hlate x hx),
    fun x hx => ?_, ?_⟩
  · have hbefore := h.ran.order j k _ _ hjk (hmap hj) (hmap hk)
    rw [Agenda.Before, ← h.expire j f hj, ← h.expire k g hk, ← UInt64.lt_iff_toNat_lt, UInt64.toNat_inj] at hbefore
    rw [List.map_take, List.map_take]
    exact hbefore
  · rw [hcount x hx, Agenda.dueCount, agenda_period_periodic hi]
    exact if_congr UInt64.le_iff_toNat_le.symm rfl rfl
  · rw [h.expire k f hk, Agenda.runKey, timeAfter_agenda, List.map_take]
  · refine (h.ran.mem x).trans (and_congr_right fun hx => ?_)
    by_cases hi : s.interval x = invalidTimerInterval
    · have hzero := List.count_eq_zero (l := calls.map Firing.timer) (a := x)
      rw [honce x hx hi] at hzero
      simp only [agenda_period_oneshot hi, hi, forall_const, ← hzero]
      simp [UInt64.not_le]
    · simp [agenda_period_periodic hi, hi]
  · rw [← timeAfter_agenda]
    exact h.ran.time x hx
  · obtain ⟨l, hbase⟩ := h.base
    exact hbase.agree

end TimerSt

theorem BaseInv.run_checkAndRunTimers {s : TimerSt} {l : List Ptr} {now : UInt64} (h : BaseInv s l)
    (hint : ∀ x ∈ s.armed, s.interval x ≠ 0) (hfit : s.TimesFit now) :
    ∃ calls s', s.RunsDue now calls s' ∧ calls.length = s.agenda.dueTotal now.toNat ∧
      ∀ fuel, calls.length < fuel → (checkAndRunTimers now fuel).run s = some ((asInt calls.length, calls), s') := by
  obtain ⟨calls, s', h', hlate, -, hrun⟩ := (TimerSt.FireInv.init ⟨l, h⟩).loop hfit hint h.nodup_armed
    (s.agenda.dueTotal now.toNat + 1) (Nat.lt_of_lt_of_le (Nat.lt_succ_self _) (Nat.le_add_left _ _))
  refine ⟨calls, s', h'.runsDue hint hlate, ?_, fun fuel hfuel => hrun fuel (by simpa using hfuel)⟩
  rw [← List.length_map Firing.timer]
  exact h'.ran.length_eq h.nodup_armed (fun x hx => TimerSt.agenda_period_pos hint hx) hlate

theorem TimerOp.exists_base {s₀ s : TimerSt} {ops : List TimerOp}
    (hv : Along TimerOp.step (fun s op => op.Valid s) (mpqInitTimers s₀) ops)
    (hs : exec TimerOp.step (mpqInitTimers s₀) ops = some s) : ∃ l, BaseInv s l := by
  have h0 : ∃ l, (mpqInitTimers s₀).Inv l := ⟨[], .init s₀⟩
  obtain ⟨s', hrun, l, h⟩ := exec_total (I := fun s => ∃ l, s.Inv l) (fun _ _ ⟨_, h⟩ hv => h.step hv) h0 hv
  obtain rfl := Option.some.inj (hs.symm.trans hrun)
  exact ⟨l, h.base⟩

theorem asInt_of_lt {n : Nat} (h : n < 0x80000000) : asInt n = n := Int.bmod_eq_of_le (by omega) (by omega)

/-- With the clock at `now` and callbacks that do not touch timers the loop ends, and it calls the due timers as
`RunsDue` says. It returns how many calls it made, when an `int` can hold this. -/
theorem TimerOp.checkAndRunTimers_runsDue {s₀ s : TimerSt} {ops : List TimerOp}
    (hv : Along TimerOp.step (fun s op => op.Valid s) (mpqInitTimers s₀) ops)
    (hs : exec TimerOp.step (mpqInitTimers s₀) ops = some s) {now : UInt64}
    (hint : ∀ x ∈ s.armed, s.interval x ≠ 0) (hfit : s.TimesFit now) :
    ∃ calls s', s.RunsDue now calls s' ∧ (∀ fuel, calls.length < fuel →
        (checkAndRunTimers now fuel).run s = some ((asInt calls.length, calls), s')) ∧
      (calls.length < 0x80000000 → asInt calls.length = calls.length) := by
  obtain ⟨l, hbase⟩ := TimerOp.exists_base hv hs
  obtain ⟨calls, s', hdue, -, hrun⟩ := hbase.run_checkAndRunTimers hint hfit
  exact ⟨calls, s', hdue, hrun, asInt_of_lt⟩

/-- Memory before `mpq_init_timers`. -/
def TimerSt.zeroed : TimerSt :=
  ⟨⟨fun _ => 0, fun _ _ => 0, 0, 0⟩, 0, fun _ => .ptr 0, fun _ => .ptr 0, fun _ => 0, fun _ => 0, fun _ => 0, [],
    fun _ => false, [], []⟩

-- two periodic timers and two one-shots, with ties at 110 and between two timers armed again at 120
example : ((exec TimerOp.step (mpqInitTimers .zeroed) [.set 1 10 0 100, .set 2 0 110 0, .set 3 4 0 100, .set 4 0 200 0]).bind
    fun s => ((checkAndRunTimers 120 9).run s).map Prod.fst) =
      some (8, [⟨3, 104⟩, ⟨3, 108⟩, ⟨1, 110⟩, ⟨2, 110⟩, ⟨3, 112⟩, ⟨3, 116⟩, ⟨1, 120⟩, ⟨3, 120⟩]) := by
  decide +kernel

/-- The same timers, for any number of rounds that is enough. -/
theorem TimerOp.checkAndRunTimers_runsDue_four : ∃ s, exec TimerOp.step (mpqInitTimers .zeroed)
      [.set 1 10 0 100, .set 2 0 110 0, .set 3 4 0 100, .set 4 0 200 0] = some s ∧
    ∃ calls s', s.RunsDue 120 calls s' ∧ (∀ fuel, calls.length < fuel →
        (checkAndRunTimers 120 fuel).run s = some ((asInt calls.length, calls), s')) ∧
      (calls.length < 0x80000000 → asInt calls.length = calls.length) := by
  have hany : (exec TimerOp.step (mpqInitTimers .zeroed)
      [.set 1 10 0 100, .set 2 0 110 0, .set 3 4 0 100, .set 4 0 200 0]).any (fun s => decide (s.armed = [1, 2, 3, 4] ∧
        (s.armed.map fun x => (s.expireTime x, s.interval x)) =
          [(110, 10), (110, invalidTimerInterval), (104, 4), (200, invalidTimerInterval)])) = true := by decide +kernel
  obtain ⟨s, hs, hdec⟩ := (Option.any_eq_true _ _).1 hany
  obtain ⟨harmed, htimes⟩ := of_decide_eq_true hdec
  rw [harmed] at htimes
  simp only [List.map_cons, List.map_nil, List.cons.injEq, Prod.mk.injEq] at htimes
  refine ⟨s, hs, TimerOp.checkAndRunTimers_runsDue (by decide +kernel) hs ?_ ⟨by decide, ?_, ?_⟩⟩
  · simp [harmed, htimes, invalidTimerInterval]
  · simp [harmed, htimes]
  · simp [harmed, htimes]

/-- A timer of one millisecond that has not run for `2 ^ 31` of them: its callback is called `2 ^ 31` times, and the
`int` that counts the calls has wrapped. -/
theorem TimerOp.not_checkAndRunTimers_total : ∃ s, exec TimerOp.step (mpqInitTimers .zeroed) [.set 1 1 0 0] = some s ∧
    Along TimerOp.step (fun s op => op.Valid s) (mpqInitTimers .zeroed) [.set 1 1 0 0] ∧
    (∀ x ∈ s.armed, s.interval x ≠ 0) ∧ s.TimesFit 0x80000000 ∧
    ∃ calls s', calls.length = 0x80000000 ∧ ∀ fuel, 0x80000000 < fuel →
      (checkAndRunTimers 0x80000000 fuel).run s = some ((-0x80000000, calls), s') := by
  have hany : (exec TimerOp.step (mpqInitTimers .zeroed) [.set 1 1 0 0]).any (fun s => decide (s.armed = [1] ∧
      s.expireTime 1 = 1 ∧ s.interval 1 = 1)) = true := by decide +kernel
  obtain ⟨s, hs, hdec⟩ := (Option.any_eq_true _ _).1 hany
  obtain ⟨harmed, hexpire, hinterval⟩ := of_decide_eq_true hdec
  have hv : Along TimerOp.step (fun s op => op.Valid s) (mpqInitTimers .zeroed) [.set 1 1 0 0] := by decide +kernel
  have hint : ∀ x ∈ s.armed, s.interval x ≠ 0 := by simp [harmed, hinterval]
  have hfit : s.TimesFit 0x80000000 :=
    ⟨by decide, by simp [harmed, hexpire], by simp [harmed, hexpire, hinterval]⟩
  obtain ⟨l, hbase⟩ := TimerOp.exists_base hv hs
  obtain ⟨calls, s', -, hlen, hrun⟩ := hbase.run_checkAndRunTimers hint hfit
  have htotal : s.agenda.dueTotal (0x80000000 : UInt64).toNat = 0x80000000 := by
    have hperiod : s.agenda.period 1 = some 1 := by
      rw [TimerSt.agenda_period_periodic (by rw [hinterval]; decide), hinterval]
      rfl
    have htime : s.agenda.time 1 = 1 := congrArg UInt64.toNat hexpire
    rw [Agenda.dueTotal, show s.agenda.jobs = [1] from harmed, total, total, Agenda.dueCount, hperiod, htime]
    rfl
  rw [htotal] at hlen
  rw [hlen] at hrun
  exact ⟨s, hs, hv, hint, hfit, calls, s', hlen, hrun⟩

end Aosl
