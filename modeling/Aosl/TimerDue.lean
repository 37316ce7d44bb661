import Aosl.TimerFire

/-!
# When a timer is due, `time_after_eq` and `mpq_max_wait_time`

The base is ordered by `expire_time` as an unsigned number. The loop of `__check_and_run_timers` looks at the sign of
a difference of 64 bits, and `mpq_max_wait_time` at the sign of a difference cut to an `intptr_t`. Where the three
agree is `TimerSt.InReach`.

With an `intptr_t` of 32 bits the intervals are below `2 ^ 32`; `invalidTimerInterval` stands for the
`(uintptr_t)(-1)` of either width.
-/

namespace Aosl
open Lib

inductive IntptrWidth where
  | bits32
  | bits64
deriving DecidableEq

namespace IntptrWidth

/-- One more than the largest `uintptr_t`. -/
def size : IntptrWidth → Nat
  | bits32 => 0x100000000
  | bits64 => 0x10000000000000000

/-- The cast to `intptr_t`. -/
def cast (w : IntptrWidth) (n : UInt64) : Int := Int.bmod n.toNat w.size

theorem cast_pos_iff {w : IntptrWidth} {n : UInt64} :
    0 < w.cast n ↔ 0 < n.toNat % w.size ∧ n.toNat % w.size < w.size / 2 := by
  have hcast : 0 < w.cast n ↔
      0 < ((n.toNat % w.size : Nat) : Int) ∧ ((n.toNat % w.size : Nat) : Int) < (w.size + 1) / 2 := by
    rw [cast, Int.bmod_def, ← Int.natCast_emod]
    split
    · next hlt => simp only [hlt, and_true]
    · next hge => cases w <;> simp only [size] at hge ⊢ <;> omega
  rw [hcast]
  cases w <;> simp only [size] <;> omega

end IntptrWidth

/-- `tick` is what `aosl_tick_now` returns. -/
def mpqMaxWaitTime (w : IntptrWidth) (tick : UInt64) : TimerM Int := do
  let timer := (← get).first
  if timer ≠ 0 then
    let msecs := w.cast ((← get).expireTime timer - tick)
    if msecs < 0 then return 0 else return msecs
  else
    return -1

/-- A timer that is late has a difference in the lower half, one that is early in the upper half. -/
theorem timeAfterEq_iff_sub {a b : UInt64} : timeAfterEq a b = true ↔
    (b ≤ a ∧ (a - b).toNat < 0x8000000000000000) ∨ (a < b ∧ 0x8000000000000000 < (b - a).toNat) := by
  have ha := a.toNat_lt
  have hb := b.toNat_lt
  have : (0x8000000000000000 : UInt64).toNat = 0x8000000000000000 := rfl
  rw [timeAfterEq, decide_eq_true_eq, UInt64.lt_iff_toNat_lt, UInt64.le_iff_toNat_le, UInt64.lt_iff_toNat_lt,
    UInt64.toNat_sub, UInt64.toNat_sub]
  omega

namespace TimerSt

/-- A timer is due when `now` has reached its expiry time. -/
def Due (s : TimerSt) (now : UInt64) (x : Ptr) : Prop := s.expireTime x ≤ now

/-- What holds of a round of `__check_and_run_timers` and of a call of `mpq_max_wait_time` at `now`. -/
structure OnTime (s : TimerSt) (w : IntptrWidth) (now : UInt64) : Prop where
  /-- No timer fires early. -/
  fires : ∀ (tick : UInt64) (x : Ptr) (s' : TimerSt), (fireTimer now tick).run s = some (some x, s') → s.Due now x
  /-- The thread of the queue does not poll without waiting unless a timer is due. -/
  waits : (mpqMaxWaitTime w now).run s = some (0, s) → ∃ x ∈ s.armed, s.Due now x
  /-- While a timer is due, the loop goes on. -/
  serves : ∀ x ∈ s.armed, s.Due now x → ∀ tick : UInt64, ∃ y s', (fireTimer now tick).run s = some (some y, s')

/-- The first timer is late by less than `2 ^ 63`, or early by no more than that; in the latter case the low bits of the
time left are a positive `intptr_t`. -/
def InReach (s : TimerSt) (w : IntptrWidth) (now : UInt64) : Prop :=
  s.first ≠ 0 →
    (s.expireTime s.first ≤ now → (now - s.expireTime s.first).toNat < 0x8000000000000000) ∧
    (now < s.expireTime s.first → (s.expireTime s.first - now).toNat ≤ 0x8000000000000000 ∧
      0 < (s.expireTime s.first - now).toNat % w.size ∧ (s.expireTime s.first - now).toNat % w.size < w.size / 2)

end TimerSt

theorem run_mpqMaxWaitTime {s : TimerSt} {w : IntptrWidth} {now : UInt64} (h : s.first ≠ 0) :
    (mpqMaxWaitTime w now).run s = some (max 0 (w.cast (s.expireTime s.first - now)), s) := by
  simp only [mpqMaxWaitTime, StateT.run_bind, run_getT, Option.bind_eq_bind, Option.bind_some, if_pos h]
  split
  · next hneg =>
    rw [Int.max_eq_left (Int.le_of_lt hneg)]
    rfl
  · next hpos =>
    rw [Int.max_eq_right (Int.not_lt.1 hpos)]
    rfl

namespace BaseInv

variable {s : TimerSt} {l : List Ptr} {x : Ptr} {now tick : UInt64} {w : IntptrWidth}

theorem fires_iff (h : BaseInv s l) : (∃ y s', (fireTimer now tick).run s = some (some y, s')) ↔
    s.first ≠ 0 ∧ timeAfterEq now (s.expireTime s.first) = true := by
  obtain ⟨r, s', -, hrun, -⟩ := h.run_fireTimer now tick
  have hr := fireTimer_result hrun
  constructor
  · rintro ⟨y, s₁, hrun'⟩
    rw [hrun, hr] at hrun'
    by_contra hc
    rw [if_neg hc] at hrun'
    cases hrun'
  · intro hc
    rw [if_pos hc] at hr
    exact ⟨s.first, s', hr ▸ hrun⟩

theorem first_armed (h : BaseInv s l) (h0 : s.first ≠ 0) : s.first ∈ s.armed :=
  h.sorted.perm.mem_iff.1 (h.first_mem h0)

theorem first_le (h : BaseInv s l) (hx : x ∈ s.armed) :
    s.first ≠ 0 ∧ s.expireTime s.first ≤ s.expireTime x := by
  have hxl := h.sorted.perm.mem_iff.2 hx
  cases l with
  | nil => cases hxl
  | cons y l =>
    rw [h.first_cons]
    refine ⟨fun h0 => h.zero_not_mem (by simp [h0]), UInt64.le_iff_toNat_le.2 ?_⟩
    by_cases hxy : x = y
    · exact Nat.le_of_eq (by rw [hxy])
    · rcases h.next_first.2 x hx hxy with hlt | ⟨heq, -⟩
      · exact Nat.le_of_lt hlt
      · exact Nat.le_of_eq heq

theorem first_due (h : BaseInv s l) (hx : x ∈ s.armed) (hdue : s.Due now x) : s.expireTime s.first ≤ now :=
  UInt64.le_trans (h.first_le hx).2 hdue

/-- The round, the wait and the order of the base agree exactly on the timers in reach. -/
theorem onTime_iff (h : BaseInv s l) : s.OnTime w now ↔ s.InReach w now := by
  constructor
  · intro hon h0
    refine ⟨fun hle => ?_, fun hlt => ⟨?_, ?_⟩⟩
    · obtain ⟨-, hafter⟩ := h.fires_iff.1 (hon.serves s.first (h.first_armed h0) hle now)
      rcases timeAfterEq_iff_sub.1 hafter with ⟨-, hsub⟩ | ⟨hlt, -⟩
      · exact hsub
      · exact absurd hle (UInt64.not_le.2 hlt)
    · refine Nat.not_lt.1 fun hfar => ?_
      obtain ⟨y, s', hrun⟩ : ∃ y s', (fireTimer now now).run s = some (some y, s') :=
        h.fires_iff.2 ⟨h0, timeAfterEq_iff_sub.2 (.inr ⟨hlt, hfar⟩)⟩
      have hy : y = s.first := by
        have := fireTimer_result hrun
        split at this
        · exact Option.some.inj this
        · cases this
      have hdue : s.expireTime y ≤ now := hon.fires now y s' hrun
      rw [hy] at hdue
      exact absurd hdue (UInt64.not_le.2 hlt)
    · refine IntptrWidth.cast_pos_iff.1 (Int.not_le.1 fun hle => ?_)
      obtain ⟨x, hx, hdue⟩ := hon.waits (by rw [run_mpqMaxWaitTime h0, Int.max_eq_left hle])
      exact absurd (h.first_due hx hdue) (UInt64.not_le.2 hlt)
  · intro hin
    refine ⟨fun tick x s' hrun => ?_, fun hrun => ?_, fun x hx hdue tick => ?_⟩
    · obtain ⟨h0, hafter⟩ := h.fires_iff.1 ⟨x, s', hrun⟩
      have hx := fireTimer_result hrun
      rw [if_pos ⟨h0, hafter⟩] at hx
      rw [TimerSt.Due, Option.some.inj hx]
      rcases timeAfterEq_iff_sub.1 hafter with ⟨hle, -⟩ | ⟨hlt, hfar⟩
      · exact hle
      · exact absurd ((hin h0).2 hlt).1 (Nat.not_le.2 hfar)
    · by_cases h0 : s.first = 0
      · simp only [mpqMaxWaitTime, StateT.run_bind, run_getT, Option.bind_eq_bind, Option.bind_some, h0,
          not_true_eq_false, ne_eq, if_false] at hrun
        cases hrun
      · refine ⟨s.first, h.first_armed h0, UInt64.not_lt.1 fun hlt => ?_⟩
        have hpos := IntptrWidth.cast_pos_iff.2 ((hin h0).2 hlt).2
        rw [run_mpqMaxWaitTime h0, Int.max_eq_right (Int.le_of_lt hpos)] at hrun
        have := congrArg Prod.fst (Option.some.inj hrun)
        simp only at this
        omega
    · have h0 := (h.first_le hx).1
      have hle := h.first_due hx hdue
      exact h.fires_iff.2 ⟨h0, timeAfterEq_iff_sub.2 (.inl ⟨hle, (hin h0).1 hle⟩)⟩

end BaseInv

/-- In every state that operations lead to, and at every time: the timers are served on time if and only if the first
one is in reach. -/
theorem TimerOp.onTime_iff_inReach {s₀ s : TimerSt} {ops : List TimerOp}
    (hv : Along TimerOp.step (fun s op => op.Valid s) (mpqInitTimers s₀) ops)
    (hs : exec TimerOp.step (mpqInitTimers s₀) ops = some s) (w : IntptrWidth) (now : UInt64) :
    s.OnTime w now ↔ s.InReach w now := by
  obtain ⟨l, h⟩ := TimerOp.exists_base hv hs
  exact h.onTime_iff

/-- A periodic timer and two one-shots, the later one `2 ^ 31 - 1` milliseconds ahead. -/
theorem TimerOp.onTime_iff_inReach_three : ∃ s, exec TimerOp.step (mpqInitTimers .zeroed)
    [.set 1 10 0 100, .set 2 invalidTimerInterval 105 0, .set 3 invalidTimerInterval 0x80000063 0, .cancel 2,
      .cancel 1] = some s ∧ (s.OnTime .bits32 100 ↔ s.InReach .bits32 100) ∧ s.InReach .bits32 100 := by
  have hany : (exec TimerOp.step (mpqInitTimers .zeroed)
      [.set 1 10 0 100, .set 2 invalidTimerInterval 105 0, .set 3 invalidTimerInterval 0x80000063 0, .cancel 2,
        .cancel 1]).any (fun s => decide (s.first = 3 ∧ s.expireTime 3 = 0x80000063)) = true := by decide +kernel
  obtain ⟨s, hs, hdec⟩ := (Option.any_eq_true _ _).1 hany
  obtain ⟨hfirst, hexpire⟩ := of_decide_eq_true hdec
  refine ⟨s, hs, TimerOp.onTime_iff_inReach (by decide +kernel) hs .bits32 100, fun _ => ?_⟩
  rw [hfirst, hexpire]
  decide

/-- `aosl_mpq_set_oneshot_timer_on_q` with the time 0 arms a timer for `(aosl_ts_t)-1`, which is never; it fires at
once. -/
theorem TimerOp.not_onTime_never : ¬∀ (s₀ : TimerSt) (ops : List TimerOp) (s : TimerSt),
    Along TimerOp.step (fun s op => op.Valid s) (mpqInitTimers s₀) ops →
    exec TimerOp.step (mpqInitTimers s₀) ops = some s → ∀ (w : IntptrWidth) (now : UInt64), s.OnTime w now := by
  intro h
  have hany : (exec TimerOp.step (mpqInitTimers .zeroed) [.set 1 invalidTimerInterval 0 0]).any (fun s =>
      (((fireTimer 5 5).run s).any fun r => r.1 = some 1) && s.expireTime 1 = 0xffffffffffffffff) = true := by
    decide +kernel
  obtain ⟨s, hs, hdec⟩ := (Option.any_eq_true _ _).1 hany
  obtain ⟨hfire, hexpire⟩ := Bool.and_eq_true_iff.1 hdec
  obtain ⟨⟨r, s'⟩, hrun, hr⟩ := (Option.any_eq_true _ _).1 hfire
  have hr : r = some 1 := of_decide_eq_true hr
  have hdue : s.expireTime 1 ≤ 5 := (h .zeroed _ s (by decide +kernel) hs .bits64 5).fires 5 1 s' (hr ▸ hrun)
  rw [of_decide_eq_true hexpire] at hdue
  exact absurd hdue (by decide)

end Aosl
