import Aosl.Lib.Lists
import Aosl.Lib.Steps

/-!
# The bound of a queue and its waiting producers, `____add_f` in `kernel/mpq.c` and `kernel/mpqp.c`

One queue, its thread and any number of producers: those that queue or call a function directly, and those of a pool,
which reserve the queue with `__mpqp_best_q_get` before and release it with `__mpqp_best_q_put` after. `q->count` counts
the accepted functions that are not finished and the reservations. A producer that finds `count >= q_max` waits on `q->wait_q` or is
refused; the thread of the queue signals once after each function it has finished, and releasing a reservation signals
nobody.

What a producer does under `q->lock` between two waits is one step. `unfinished` is not in the code, nor is the number in
`refused`: how many accepted functions were not finished when the producer was refused.
-/

namespace Aosl
open Lib

/-- Where a producer is; `pool` says that it holds a reservation. -/
inductive BoundThr where
  /-- Before the critical section of `____add_f`. -/
  | ready (noFail pool : Bool)
  /-- In `k_cond_wait (&q->wait_q, ..)`. -/
  | blocked (pool : Bool)
  /-- Signalled, before it has the lock again. -/
  | woken (pool : Bool)
  | accepted (pool : Bool)
  /-- `AOSL_EAGAIN`. -/
  | refused (pool : Bool) (unfinished : Nat)
  /-- `AOSL_EINTR`. -/
  | interrupted (pool : Bool)
  | gone
deriving DecidableEq

structure BoundSt where
  qMax : Nat
  /-- `AOSL_MPQ_FLAG_NONBLOCK`. -/
  nonblock : Bool
  count : Nat
  waitQCount : Nat
  reserved : Nat
  unfinished : Nat
  /-- The thread of the queue has finished a function and has not looked at `wait_q_count` yet. -/
  signalling : Bool
  thr : List BoundThr
deriving DecidableEq

inductive BoundAct where
  /-- A producer comes, directly. -/
  | enter (noFail : Bool)
  /-- A producer comes through a pool: `__mpqp_best_q_get`. -/
  | reserve (noFail : Bool)
  /-- The critical section of the `i`-th producer; `terminated` is that of its own queue. -/
  | test (i : Nat) (terminated : Bool)
  /-- `__mpqp_best_q_put` of the `i`-th producer. -/
  | release (i : Nat)
  /-- The `i`-th producer wakes up without a signal. -/
  | wake (i : Nat)
  /-- `__mpq_destroy`, called on the thread of this queue, wakes all producers. -/
  | broadcast
  | setNonblock (nonblock : Bool)
  /-- The thread of the queue finishes a function. -/
  | finish
  /-- It signals, and the `i`-th producer is the one that gets the signal. -/
  | signal (i : Nat)
  /-- It finds nobody to signal. -/
  | noSignal
deriving DecidableEq

namespace BoundThr

def isBlocked : BoundThr → Bool
  | blocked _ => true
  | _ => false

def isWoken : BoundThr → Bool
  | woken _ => true
  | _ => false

/-- `k_cond_signal` and `k_cond_broadcast`. -/
def wake : BoundThr → BoundThr
  | blocked pool => woken pool
  | x => x

/-- The producer has returned from `____add_f` and holds a reservation. -/
def releasing : BoundThr → Bool
  | accepted pool => pool
  | refused pool _ => pool
  | interrupted pool => pool
  | _ => false

end BoundThr

namespace BoundSt

def goThr (s : BoundSt) (i : Nat) (x : BoundThr) : BoundSt := { s with thr := s.thr.set i x }

/-- The loop of `____add_f` up to a wait or the return. -/
def addF (s : BoundSt) (i : Nat) (noFail pool terminated : Bool) : BoundSt :=
  if noFail ∨ s.count < s.qMax then
    { s with count := s.count + 1, unfinished := s.unfinished + 1 }.goThr i (.accepted pool)
  else if s.nonblock then s.goThr i (.refused pool s.unfinished)
  else if terminated then s.goThr i (.interrupted pool)
  else { s with waitQCount := s.waitQCount + 1 }.goThr i (.blocked pool)

def step (s : BoundSt) : BoundAct → Option BoundSt
  | .enter noFail => some { s with thr := s.thr ++ [.ready noFail false] }
  | .reserve noFail =>
    some { s with count := s.count + 1, reserved := s.reserved + 1, thr := s.thr ++ [.ready noFail true] }
  | .test i terminated => match s.thr[i]? with
    | some (.ready noFail pool) => some (s.addF i noFail pool terminated)
    | some (.woken pool) => some ({ s with waitQCount := s.waitQCount - 1 }.addF i false pool terminated)
    | _ => none
  | .release i => match s.thr[i]? with
    | some x =>
      if x.releasing then some ({ s with count := s.count - 1, reserved := s.reserved - 1 }.goThr i .gone) else none
    | none => none
  | .wake i => match s.thr[i]? with
    | some (.blocked pool) => some (s.goThr i (.woken pool))
    | _ => none
  | .broadcast => some { s with thr := s.thr.map BoundThr.wake }
  | .setNonblock nonblock => some { s with nonblock := nonblock }
  | .finish =>
    if s.signalling ∨ s.unfinished = 0 then none
    else some { s with count := s.count - 1, unfinished := s.unfinished - 1, signalling := true }
  | .signal i =>
    if s.signalling ∧ s.waitQCount > 0 then match s.thr[i]? with
      | some (.blocked pool) => some ({ s with signalling := false }.goThr i (.woken pool))
      | _ => none
    else none
  | .noSignal =>
    if s.signalling ∧ (s.waitQCount = 0 ∨ s.thr.countP BoundThr.isBlocked = 0) then
      some { s with signalling := false }
    else none

def init (qMax : Nat) (nonblock : Bool) : BoundSt := ⟨qMax, nonblock, 0, 0, 0, 0, false, []⟩

/-- The signals that are on their way: to a producer that has not looked yet, or before the thread of the queue sends it. -/
def inFlight (s : BoundSt) : Nat := s.thr.countP BoundThr.isWoken + s.signalling.toNat

/-- A producer is held back only by functions that were accepted and are not finished. -/
def HeldByLoad (s : BoundSt) : Prop :=
  (0 < s.thr.countP BoundThr.isBlocked → s.inFlight = 0 → s.qMax ≤ s.unfinished) ∧
  ∀ pool unfinished, .refused pool unfinished ∈ s.thr → s.qMax ≤ unfinished

/-- The producer tests the bound. -/
def tests (s : BoundSt) : BoundAct → Bool
  | .test i _ => match s.thr[i]? with
    | some (.ready noFail _) => !noFail
    | some (.woken _) => true
    | _ => false
  | _ => false

/-- When a test of the bound fails, it would fail without the reservations too. -/
def FullWithoutReserved (s : BoundSt) (a : BoundAct) : Prop :=
  s.tests a = true → s.qMax ≤ s.count → s.qMax + s.reserved ≤ s.count

end BoundSt

/-- The producer holds a reservation. -/
def BoundThr.holds : BoundThr → Bool
  | ready _ pool => pool
  | blocked pool => pool
  | woken pool => pool
  | accepted pool => pool
  | refused pool _ => pool
  | interrupted pool => pool
  | gone => false

namespace BoundSt

variable {s s' : BoundSt} {i : Nat} {x y : BoundThr}

structure BoundInv (s : BoundSt) : Prop where
  count : s.count = s.unfinished + s.reserved
  reserved : s.thr.countP BoundThr.holds = s.reserved
  waitQ : s.waitQCount = s.thr.countP BoundThr.isBlocked + s.thr.countP BoundThr.isWoken
  load : 0 < s.thr.countP BoundThr.isBlocked → s.qMax ≤ s.unfinished + s.inFlight
  refused : ∀ pool unfinished, .refused pool unfinished ∈ s.thr → s.qMax ≤ unfinished

/-- The producer `i` goes from `x` to `y`. -/
theorem BoundInv.set (h : s.BoundInv) (hx : s.thr[i]? = some x) (hthr : s'.thr = s.thr.set i y)
    (hmax : s'.qMax = s.qMax) (hcount : s'.count = s'.unfinished + s'.reserved)
    (hres : y.holds.toNat + s.reserved = x.holds.toNat + s'.reserved)
    (hwait : s'.waitQCount + x.isBlocked.toNat + x.isWoken.toNat = s.waitQCount + y.isBlocked.toNat + y.isWoken.toNat)
    (hload : s.qMax ≤ s'.unfinished ∨ (y.isBlocked = false ∧ s.unfinished + s.signalling.toNat + x.isWoken.toNat ≤
      s'.unfinished + s'.signalling.toNat + y.isWoken.toNat))
    (href : ∀ pool unfinished, y = .refused pool unfinished → s.qMax ≤ unfinished) : s'.BoundInv := by
  have hbool : ∀ b : Bool, (if b = true then 1 else 0) = b.toNat := by decide
  have hcnt := fun p => countP_set_add hx p y
  simp only [hbool, ← hthr] at hcnt
  have h1 := hcnt BoundThr.holds
  have h2 := hcnt BoundThr.isBlocked
  have h3 := hcnt BoundThr.isWoken
  have hr := h.reserved
  have hw := h.waitQ
  refine ⟨hcount, by omega, by omega, ?_, ?_⟩
  · intro hpos
    rw [hmax]
    unfold inFlight
    rcases hload with hload | ⟨hy, hload⟩
    · omega
    · rw [hy] at h2
      have hold := h.load (by rw [Bool.toNat_false] at h2; omega)
      unfold inFlight at hold
      omega
  · intro pool unfinished hm
    rw [hmax]
    rw [hthr] at hm
    rcases List.mem_or_eq_of_mem_set hm with hm | hm
    · exact h.refused pool unfinished hm
    · exact href pool unfinished hm.symm

/-- The critical section. A producer that is held back by a full queue leaves at least `q_max` unfinished functions. -/
theorem BoundInv.addF {noFail pool terminated : Bool} {w : Nat} (h : s.BoundInv) (hx : s.thr[i]? = some x)
    (hpool : x.holds = pool) (hblocked : x.isBlocked = false) (hw : w + x.isWoken.toNat = s.waitQCount)
    (hfull : noFail = false → s.qMax ≤ s.count → s.qMax + s.reserved ≤ s.count) :
    ({ s with waitQCount := w }.addF i noFail pool terminated).BoundInv := by
  have hcount := h.count
  have hwoken : x.isWoken.toNat ≤ 1 := Bool.toNat_le _
  unfold BoundSt.addF
  by_cases hfree : noFail = true ∨ s.count < s.qMax
  · rw [if_pos hfree]
    refine h.set hx rfl rfl ?_ ?_ ?_ (.inr ⟨rfl, ?_⟩) (by simp)
    · simp only [goThr]
      omega
    · rw [hpool]
      rfl
    · rw [hblocked]
      exact hw
    · change s.unfinished + s.signalling.toNat + x.isWoken.toNat ≤ s.unfinished + 1 + s.signalling.toNat + 0
      omega
  · rw [if_neg hfree]
    rw [not_or, Bool.not_eq_true, Nat.not_lt] at hfree
    have hload : s.qMax ≤ s.unfinished := by
      have := hfull hfree.1 hfree.2
      omega
    split_ifs
    · refine h.set hx rfl rfl hcount ?_ ?_ (.inl hload) ?_
      · rw [hpool]
        rfl
      · rw [hblocked]
        exact hw
      · intro pool' u hu
        cases hu
        exact hload
    · refine h.set hx rfl rfl hcount ?_ ?_ (.inl hload) (by simp)
      · rw [hpool]
        rfl
      · rw [hblocked]
        exact hw
    · refine h.set hx rfl rfl hcount ?_ ?_ (.inl hload) (by simp)
      · rw [hpool]
        rfl
      · rw [hblocked]
        change w + 1 + 0 + x.isWoken.toNat = s.waitQCount + 1 + 0
        omega

theorem countP_wake (l : List BoundThr) :
    (l.map BoundThr.wake).countP BoundThr.isWoken = l.countP BoundThr.isBlocked + l.countP BoundThr.isWoken := by
  induction l with
  | nil => rfl
  | cons x l ih =>
    rw [List.map_cons, List.countP_cons, List.countP_cons, List.countP_cons, ih]
    rcases x
    all_goals
      simp only [BoundThr.wake, BoundThr.isWoken, BoundThr.isBlocked, if_true, Bool.false_eq_true, if_false]
      omega

theorem BoundInv.broadcast (h : s.BoundInv) : { s with thr := s.thr.map BoundThr.wake }.BoundInv := by
  have hblocked : (s.thr.map BoundThr.wake).countP BoundThr.isBlocked = 0 := by
    rw [List.countP_map, List.countP_eq_zero]
    rintro (_ | _ | _ | _ | _ | _ | _) _
    all_goals exact Bool.false_ne_true
  have hholds : (s.thr.map BoundThr.wake).countP BoundThr.holds = s.thr.countP BoundThr.holds := by
    rw [List.countP_map]
    apply List.countP_congr
    rintro (_ | _ | _ | _ | _ | _ | _) _
    all_goals rfl
  refine ⟨h.count, ?_, ?_, ?_, ?_⟩
  · exact hholds.trans h.reserved
  · have hwait := h.waitQ
    change s.waitQCount = _
    rw [hblocked, countP_wake]
    omega
  · intro hpos
    rw [hblocked] at hpos
    cases hpos
  · intro pool unfinished hm
    obtain ⟨x, hx, hxe⟩ := List.mem_map.1 hm
    rcases x
    all_goals cases hxe
    exact h.refused _ _ hx

/-- A new producer. -/
theorem BoundInv.append (h : s.BoundInv) (noFail pool : Bool) :
    { s with count := s.count + pool.toNat, reserved := s.reserved + pool.toNat,
             thr := s.thr ++ [BoundThr.ready noFail pool] }.BoundInv := by
  have hcount := h.count
  have hreserved := h.reserved
  have hblocked : (s.thr ++ [BoundThr.ready noFail pool]).countP BoundThr.isBlocked = s.thr.countP BoundThr.isBlocked := by
    rw [List.countP_append]
    rfl
  have hwoken : (s.thr ++ [BoundThr.ready noFail pool]).countP BoundThr.isWoken = s.thr.countP BoundThr.isWoken := by
    rw [List.countP_append]
    rfl
  refine ⟨?_, ?_, ?_, ?_, ?_⟩
  · simp only
    omega
  · rw [List.countP_append, hreserved]
    rcases pool <;> rfl
  · rw [hblocked, hwoken]
    exact h.waitQ
  · rw [hblocked]
    unfold inFlight
    rw [hwoken]
    exact h.load
  · intro pool' unfinished hm
    rcases List.mem_append.1 hm with hm | hm
    · exact h.refused pool' unfinished hm
    · simp at hm

theorem BoundInv.step {a : BoundAct} (h : s.BoundInv) (ha : s.FullWithoutReserved a) (hs : s.step a = some s') :
    s'.BoundInv := by
  have hcount := h.count
  have hreserved := h.reserved
  have hwait := h.waitQ
  rcases a with noFail | noFail | ⟨i, term⟩ | i | i | _ | nb | _ | i | _
  · cases hs
    exact h.append noFail false
  · cases hs
    exact h.append noFail true
  · simp only [BoundSt.step] at hs
    split at hs
    · rename_i noFail pool hx
      cases hs
      refine h.addF (x := .ready noFail pool) (w := s.waitQCount) hx rfl rfl rfl ?_
      intro hn
      apply ha
      simp [tests, hx, hn]
    · rename_i pool hx
      cases hs
      have hpos : 0 < s.thr.countP BoundThr.isWoken := List.countP_pos_iff.2 ⟨_, List.mem_of_getElem? hx, rfl⟩
      refine h.addF (x := .woken pool) (w := s.waitQCount - 1) hx rfl rfl ?_ ?_
      · change s.waitQCount - 1 + 1 = _
        omega
      · intro hn
        apply ha
        simp [tests, hx]
    · cases hs
  · simp only [BoundSt.step] at hs
    split at hs
    · rename_i x hx
      split_ifs at hs with hrel
      cases hs
      have hholds : x.holds = true := by
        rcases x
        all_goals first | exact hrel | cases hrel
      have hpos : 0 < s.thr.countP BoundThr.holds := List.countP_pos_iff.2 ⟨_, List.mem_of_getElem? hx, hholds⟩
      have hnot : x.isBlocked = false ∧ x.isWoken = false := by
        rcases x
        all_goals first | exact ⟨rfl, rfl⟩ | cases hrel
      refine h.set hx rfl rfl ?_ ?_ ?_ (.inr ⟨rfl, ?_⟩) (by simp)
      · simp only [goThr]
        omega
      · rw [hholds]
        simp only [goThr, BoundThr.holds, Bool.toNat_true, Bool.toNat_false]
        omega
      · rw [hnot.1, hnot.2]
        rfl
      · rw [hnot.2]
        exact Nat.le_refl _
    · cases hs
  · simp only [BoundSt.step] at hs
    split at hs
    · rename_i pool hx
      cases hs
      refine h.set hx rfl rfl hcount rfl rfl (.inr ⟨rfl, ?_⟩) (by simp)
      simp [goThr, BoundThr.isWoken]
    · cases hs
  · cases hs
    exact h.broadcast
  · cases hs
    exact ⟨hcount, hreserved, hwait, h.load, h.refused⟩
  · simp only [BoundSt.step] at hs
    split_ifs at hs with hsig
    cases hs
    rw [not_or, Bool.not_eq_true] at hsig
    refine ⟨?_, hreserved, hwait, ?_, h.refused⟩
    · simp only
      omega
    · intro hpos
      have hload := h.load hpos
      simp only [inFlight, hsig.1, Bool.toNat_false, Bool.toNat_true] at hload ⊢
      omega
  · simp only [BoundSt.step] at hs
    split_ifs at hs with hsig
    split at hs
    · rename_i pool hx
      cases hs
      refine h.set hx rfl rfl hcount rfl rfl (.inr ⟨rfl, ?_⟩) (by simp)
      simp [goThr, BoundThr.isWoken, hsig.1]
    · cases hs
  · simp only [BoundSt.step] at hs
    split_ifs at hs with hsig
    cases hs
    refine ⟨hcount, hreserved, hwait, ?_, h.refused⟩
    intro hpos
    have hz : s.thr.countP BoundThr.isBlocked = 0 := by
      rcases hsig.2 with hz | hz
      · omega
      · exact hz
    change 0 < s.thr.countP BoundThr.isBlocked at hpos
    omega

theorem boundInv_init (qMax : Nat) (nonblock : Bool) : (init qMax nonblock).BoundInv := by
  refine ⟨rfl, rfl, rfl, ?_, ?_⟩
  · intro hpos
    cases hpos
  · intro pool unfinished hm
    cases hm

/-- In every run in which no test of the bound fails because of reservations, producers are held back by load only. -/
theorem held_by_load {qMax : Nat} {nonblock : Bool} {as : List BoundAct}
    (hok : Along step FullWithoutReserved (init qMax nonblock) as) (hs : exec step (init qMax nonblock) as = some s) :
    s.HeldByLoad := by
  have h : s.BoundInv := exec_invariant (fun _ _ _ h ha hs => h.step ha hs) (boundInv_init qMax nonblock) hok hs
  refine ⟨fun hpos hflight => ?_, h.refused⟩
  have := h.load hpos
  omega

/-- The condition leaves out nothing else: a test that fails because of reservations holds back a producer without load. -/
theorem BoundInv.not_held {pool : Bool} (h : s.BoundInv) (hx : s.thr[i]? = some (.ready false pool))
    (hfull : s.qMax ≤ s.count) (hreserved : s.count < s.qMax + s.reserved) (hflight : s.inFlight = 0) :
    ¬ (s.addF i false pool false).HeldByLoad := by
  have hcount := h.count
  have hnot : ¬ (false = true ∨ s.count < s.qMax) := by simpa using hfull
  have hmem : ∀ y, y ∈ s.thr.set i y := fun y => List.mem_iff_getElem?.2 ⟨i, getElem?_set_self hx⟩
  intro hheld
  rw [BoundSt.addF, if_neg hnot, if_neg Bool.false_ne_true] at hheld
  split_ifs at hheld
  · have : s.qMax ≤ s.unfinished := hheld.2 pool s.unfinished (hmem _)
    omega
  · have hblocked : 0 < (s.thr.set i (.blocked pool)).countP BoundThr.isBlocked :=
      List.countP_pos_iff.2 ⟨_, hmem _, rfl⟩
    have hwoken : (s.thr.set i (.blocked pool)).countP BoundThr.isWoken = s.thr.countP BoundThr.isWoken := by
      have := countP_set_add hx BoundThr.isWoken (.blocked pool)
      simpa [BoundThr.isWoken] using this
    have : s.qMax ≤ s.unfinished := by
      refine hheld.1 hblocked ?_
      unfold inFlight at hflight ⊢
      change (s.thr.set i (.blocked pool)).countP BoundThr.isWoken + s.signalling.toNat = 0
      rw [hwoken]
      exact hflight
    omega

instance (s : BoundSt) (a : BoundAct) : Decidable (s.FullWithoutReserved a) :=
  inferInstanceAs (Decidable (_ → _ → _))

/-- Two functions fill the queue, one of a pool producer that has released it, and a third producer waits. -/
def fullRun : List BoundAct := [.reserve false, .test 0 false, .release 0, .enter false, .test 1 false, .enter false, .test 2 false]

theorem held_by_load_fullRun : ∃ s, exec step (init 2 false) fullRun = some s ∧
    s.thr[2]? = some (.blocked false) ∧ s.HeldByLoad := by
  have hany : (exec step (init 2 false) fullRun).any (fun s => s.thr[2]? = some (.blocked false)) = true := by
    decide +kernel
  obtain ⟨s, hs, h⟩ := (Option.any_eq_true ..).1 hany
  exact ⟨s, hs, of_decide_eq_true h, held_by_load (by decide +kernel) hs⟩

/-- A pool producer on an empty queue with `q_max` 1: its own reservation fills the queue, and it waits for ever. -/
theorem not_held_by_load : ¬ ∀ (qMax : Nat) (nonblock : Bool), 0 < qMax → ∀ (as : List BoundAct) (s : BoundSt),
    exec step (init qMax nonblock) as = some s → s.HeldByLoad := by
  intro h
  have hany : (exec step (init 1 false) [.reserve false, .test 0 false]).any (fun s =>
      0 < s.thr.countP BoundThr.isBlocked && s.inFlight = 0 && s.qMax = 1 && s.unfinished = 0) = true := by
    decide +kernel
  obtain ⟨s, hs, hb⟩ := (Option.any_eq_true ..).1 hany
  simp only [Bool.and_eq_true, decide_eq_true_eq] at hb
  obtain ⟨⟨⟨hblocked, hflight⟩, hmax⟩, hun⟩ := hb
  have hload := (h 1 false Nat.one_pos _ s hs).1 hblocked hflight
  omega

end BoundSt

end Aosl
