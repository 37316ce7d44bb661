import Aosl.Lib.Lists
import Aosl.Lib.Steps
import Mathlib.Data.Bool.Basic

/-!
# Events, `kernel/thread.c`

`k_event_t` is a word `result` under a mutex, with a condition variable. Any number of threads call `k_event_set`,
`.._pulse`, `.._wait`, `.._timedwait` and `.._reset` in any order; a step is what a thread does from one operation on
the mutex or the condition variable to the next. `k_event_destroy` is not called.

The condition variable is the one of the platform, so the least is asked of it: a signal wakes a thread that sleeps, or
no one if none does or one it woke before is still on its way to the mutex; a thread can wake without a signal.

The waits test `result` once, with `if`. So a wait can return though nobody has set the event (`stray`), and one pulse
can let two of them go: the one it wakes, and another that comes to the mutex first. It never lets more go, and none is
left asleep (`event_sound`).
-/

namespace Aosl
open Lib

namespace KEvent

/-- `event->result`: `NULL`, `K_EVENT_SET` or `K_EVENT_PULSE`. -/
inductive Result where
  | null
  | set
  | pulse
deriving DecidableEq

/-- The functions of the interface, `k_event_init` and `k_event_destroy` apart. -/
inductive Fn where
  | set
  | pulse
  | wait
  | timedwait (timeo : Int)
  | reset
deriving DecidableEq

inductive Pc where
  | out
  /-- Before `k_lock_lock`. -/
  | enter (f : Fn)
  | inside (f : Fn)
  /-- In `k_cond_wait` or `k_cond_timedwait`. -/
  | asleep (f : Fn)
  /-- Woken, the mutex is still to be taken. -/
  | woken (f : Fn) (ret : Int)
  /-- Back from the wait, with the mutex. -/
  | back (f : Fn) (ret : Int)
  /-- Before `k_lock_unlock`. -/
  | leave (f : Fn) (ret : Int)
deriving DecidableEq

inductive Event where
  /-- `k_event_set` has written `result`. -/
  | set
  /-- `k_event_pulse` has. -/
  | pulse
  /-- A thread has woken without a signal. -/
  | stray
  /-- A call has returned. -/
  | ret (f : Fn) (ret : Int)
deriving DecidableEq

structure St where
  result : Result
  /-- The thread that has the mutex. -/
  holder : Option Nat
  threads : List Pc
  /-- What has happened, the last first. -/
  log : List Event
deriving DecidableEq

inductive Op where
  | call (f : Fn)
  /-- The next step of the function the thread is in; `u` is the thread that `k_cond_signal` wakes. -/
  | go (u : Option Nat)
  /-- The wait of the thread ends without a signal and returns `ret`. -/
  | stray (ret : Int)
deriving DecidableEq

structure Act where
  thread : Nat
  op : Op
deriving DecidableEq

/-- `if (event->result == K_EVENT_PULSE) event->result = NULL;` -/
def Result.consume : Result → Result
  | pulse => null
  | r => r

/-- The function is one of the two waits. -/
def Fn.waits : Fn → Bool
  | wait | timedwait _ => true
  | _ => false

/-- The wait is by `k_cond_timedwait`. -/
def Fn.timed : Fn → Bool
  | timedwait timeo => 0 ≤ timeo
  | _ => false

namespace Pc

def sleeps : Pc → Bool
  | asleep _ => true
  | _ => false

/-- Woken and not back yet. -/
def stirs : Pc → Bool
  | woken _ _ => true
  | _ => false

/-- The thread has the mutex. -/
def holds : Pc → Bool
  | inside _ | back _ _ | leave _ _ => true
  | _ => false

def wake : Pc → Pc
  | asleep f => woken f 0
  | pc => pc

end Pc

namespace St

/-- After `k_event_init`, with `n` threads. -/
def init (n : Nat) : St := ⟨.null, none, List.replicate n .out, []⟩

def goto (s : St) (t : Nat) (pc : Pc) : St := { s with threads := s.threads.set t pc }

def note (s : St) (e : Event) : St := { s with log := e :: s.log }

/-- `k_lock_lock`. -/
def lock (s : St) (t : Nat) (pc : Pc) : Option St :=
  if s.holder = none then some ({ s with holder := some t }.goto t pc) else none

/-- `k_cond_signal`, which wakes `u`. -/
def condSignal (s : St) : Option Nat → Option St
  | some u => if s.threads[u]?.any Pc.sleeps then some { s with threads := s.threads.modify u Pc.wake } else none
  | none => if s.threads.any Pc.sleeps = false ∨ s.threads.any Pc.stirs then some s else none

def condBroadcast (s : St) : St := { s with threads := s.threads.map Pc.wake }

/-- What thread `t` does next. -/
def go (s : St) (t : Nat) (u : Option Nat) : Pc → Option St
  | .enter f => s.lock t (.inside f)
  | .inside .set =>
    if s.result ≠ .set then some (({ s with result := .set }.condBroadcast.note .set).goto t (.leave .set 0))
    else some (s.goto t (.leave .set 0))
  | .inside .pulse =>
    if s.result ≠ .pulse then
      (condSignal { s with result := .pulse } u).map fun (s' : St) => (s'.note .pulse).goto t (.leave .pulse 0)
    else some (s.goto t (.leave .pulse 0))
  | .inside .reset => some ({ s with result := .null }.goto t (.leave .reset 0))
  | .inside f =>
    -- `k_cond_wait` and `k_cond_timedwait` give the mutex back.
    if s.result ≠ .set ∧ s.result ≠ .pulse then some ({ s with holder := none }.goto t (.asleep f))
    else some ({ s with result := s.result.consume }.goto t (.leave f 0))
  | .woken f ret => s.lock t (.back f ret)
  | .back f ret => some ({ s with result := s.result.consume }.goto t (.leave f ret))
  | .leave f ret => some (({ s with holder := none }.note (.ret f ret)).goto t .out)
  | _ => none

def step (s : St) (a : Act) : Option St :=
  match s.threads[a.thread]? with
  | none => none
  | some pc => match a.op, pc with
    | .call f, .out => some (s.goto a.thread (.enter f))
    | .stray ret, .asleep f =>
      if ret = 0 ∨ f.timed then some ((s.note .stray).goto a.thread (.woken f ret)) else none
    | .go u, pc => s.go a.thread u pc
    | _, _ => none

/-- No thread can go on by itself. -/
def Quiet (s : St) : Prop := ∀ t u, s.step ⟨t, .go u⟩ = none

/-- The waits that have returned. -/
def waitsDone (s : St) : Nat := s.log.countP fun
  | .ret f _ => f.waits
  | _ => false

end St

/-! ### The invariant -/

namespace Pc

/-- Woken, and still to come to the last test of `result`. -/
def rises : Pc → Bool
  | woken _ _ | back _ _ => true
  | _ => false

/-- A wait that will return without sleeping again. -/
def due : Pc → Bool
  | woken _ _ | back _ _ => true
  | leave f _ => f.waits
  | _ => false

end Pc

/-- The mutex is with the thread that is where it has it. -/
def Exclusive (holder : Option Nat) (threads : List Pc) : Prop :=
  ∀ t pc, threads[t]? = some pc → (pc.holds ↔ holder = some t)

/-- No thread sleeps on an event that is set. On one that is pulsed, another thread is up that will take the pulse. -/
def Wakeful (result : Result) (threads : List Pc) : Prop :=
  result ≠ .null → 0 < threads.countP Pc.sleeps → result = .pulse ∧ 0 < threads.countP Pc.rises

/-- The pulse that is still to be taken. -/
def Result.pending : Result → Nat
  | pulse => 1
  | _ => 0

structure Inv (s : St) : Prop where
  exclusive : Exclusive s.holder s.threads
  /-- A thread that is gone does not have the mutex. -/
  bounded : ∀ t, s.holder = some t → t < s.threads.length
  wakeful : Wakeful s.result s.threads
  set : s.result = .set → .set ∈ s.log
  /-- A pulse pays for two waits, one of which it may still be to let go. -/
  paid : .set ∉ s.log →
    s.waitsDone + s.threads.countP Pc.due + s.result.pending ≤ 2 * s.log.count .pulse + s.log.count .stray

section
variable {result result' : Result} {holder holder' : Option Nat} {threads : List Pc} {t u : Nat} {x y pc : Pc}
  {s s' : St} {a : Act} {f : Fn} {ret : Int} {log : List Event}

theorem Exclusive.put (h : Exclusive holder threads) (hy : y.holds ↔ holder' = some t)
    (hother : ∀ i, i ≠ t → (holder' = some i ↔ holder = some i)) : Exclusive holder' (threads.set t y) := by
  intro i pc hi
  obtain ⟨rfl, rfl⟩ | ⟨hne, hi⟩ := getElem?_set_cases hi
  · exact hy
  · rw [hother i hne]
    exact h i pc hi

theorem Pc.wake_holds (pc : Pc) : pc.wake.holds = pc.holds := by cases pc <;> rfl

theorem Exclusive.wakeAll (h : Exclusive holder threads) : Exclusive holder (threads.map Pc.wake) := by
  intro i pc hi
  rw [List.getElem?_map, Option.map_eq_some_iff] at hi
  obtain ⟨pc, hi, rfl⟩ := hi
  rw [pc.wake_holds]
  exact h i pc hi

theorem wakeful_null (threads : List Pc) : Wakeful .null threads := fun h => absurd rfl h

theorem countP_put (hx : threads[t]? = some x) (p : Pc → Bool) (y : Pc) :
    (threads.set t y).countP p + (p x).toNat = threads.countP p + (p y).toNat := by
  have hsum := countP_set_add hx p y
  have hone : ∀ pc, (if p pc = true then 1 else 0) = (p pc).toNat := fun pc => by cases p pc <;> rfl
  rw [hone, hone] at hsum
  exact hsum

/-- Who sleeps after a step of a thread that does not go to sleep has slept before. -/
theorem sleepers_put (hx : threads[t]? = some x) (hsleeps : y.sleeps = false)
    (hpos : 0 < (threads.set t y).countP Pc.sleeps) : 0 < threads.countP Pc.sleeps := by
  have hsum := countP_put hx Pc.sleeps y
  rw [hsleeps, Bool.toNat_false] at hsum
  omega

theorem Wakeful.put (h : Wakeful result threads) (hx : threads[t]? = some x) (hsleeps : y.sleeps = false)
    (hrises : x.rises → y.rises) : Wakeful result (threads.set t y) := by
  intro hnull hpos
  obtain ⟨hresult, hrise⟩ := h hnull (sleepers_put hx hsleeps hpos)
  have hsum := countP_put hx Pc.rises y
  have hle : x.rises.toNat ≤ y.rises.toNat := Bool.toNat_le_toNat hrises
  exact ⟨hresult, by omega⟩

theorem Wakeful.consume (h : Wakeful result threads) (hx : threads[t]? = some x) (hsleeps : y.sleeps = false) :
    Wakeful result.consume (threads.set t y) := by
  cases result with
  | null | pulse => exact wakeful_null _
  | set =>
    intro hnull hpos
    cases (h hnull (sleepers_put hx hsleeps hpos)).1

/-- A step of thread `t`, from `x` to `y`. -/
theorem Inv.put (h : Inv s) (hx : s.threads[t]? = some x) (hy : y.holds ↔ holder = some t)
    (hother : ∀ i, i ≠ t → (holder = some i ↔ s.holder = some i)) (hwake : Wakeful result (s.threads.set t y))
    (hset : result = .set → .set ∈ log)
    (hpaid : .set ∉ log → .set ∉ s.log ∧
      St.waitsDone ⟨result, holder, s.threads.set t y, log⟩ + y.due.toNat + result.pending +
          (2 * s.log.count .pulse + s.log.count .stray)
        ≤ s.waitsDone + x.due.toNat + s.result.pending + (2 * log.count .pulse + log.count .stray)) :
    Inv ⟨result, holder, s.threads.set t y, log⟩ where
  exclusive := h.exclusive.put hy hother
  bounded i hi := by
    show i < (s.threads.set t y).length
    rw [List.length_set]
    by_cases heq : i = t
    · rw [heq]
      exact (List.getElem?_eq_some_iff.1 hx).1
    · exact h.bounded i ((hother i heq).1 hi)
  wakeful := hwake
  set := hset
  paid hlog := by
    obtain ⟨hold, hle⟩ := hpaid hlog
    have hpaid := h.paid hold
    have hsum := countP_put hx Pc.due y
    show _ + (s.threads.set t y).countP Pc.due + _ ≤ _
    dsimp only
    omega

theorem waitsDone_cons (result : Result) (holder : Option Nat) (threads : List Pc) (e : Event) (log : List Event)
    (he : ∀ f ret, e ≠ .ret f ret) :
    St.waitsDone ⟨result, holder, threads, e :: log⟩ = St.waitsDone ⟨result, holder, threads, log⟩ := by
  unfold St.waitsDone
  rw [countP_cons_toNat]
  cases e with
  | ret f ret => exact absurd rfl (he f ret)
  | set | pulse | stray => rfl

/-- A step that leaves the mutex and the log as they are, and the event as it is or taken. -/
theorem Inv.goto (h : Inv s) (hx : s.threads[t]? = some x) (hholds : y.holds = x.holds) (hsleeps : y.sleeps = false)
    (hresult : result = s.result ∧ (x.rises → y.rises) ∨ result = s.result.consume ∨ result = .null)
    (hdue : s.result ≠ .set → y.due.toNat + result.pending ≤ x.due.toNat + s.result.pending) :
    Inv ⟨result, s.holder, s.threads.set t y, s.log⟩ := by
  refine h.put hx (by rw [hholds]; exact h.exclusive t x hx) (fun _ _ => Iff.rfl) ?_ (fun hset => ?_) (fun hlog => ?_)
  · obtain ⟨rfl, hrises⟩ | rfl | rfl := hresult
    · exact h.wakeful.put hx hsleeps hrises
    · exact h.wakeful.consume hx hsleeps
    · exact wakeful_null _
  · refine h.set ?_
    obtain ⟨rfl, -⟩ | rfl | rfl := hresult
    · exact hset
    · cases hr : s.result with
      | set => rfl
      | null | pulse => rw [hr] at hset; cases hset
    · cases hset
  · have hle := hdue fun hset => hlog (h.set hset)
    refine ⟨hlog, ?_⟩
    show s.waitsDone + _ + _ + _ ≤ _
    omega

theorem Inv.lock (h : Inv s) (hx : s.threads[t]? = some x) (hy : y.holds = true) (hsleeps : y.sleeps = false)
    (hrises : x.rises → y.rises) (hdue : y.due = x.due) (hs' : s.lock t y = some s') : Inv s' := by
  obtain ⟨hfree, hs'⟩ := Option.ite_none_right_eq_some.1 hs'
  cases hs'
  refine h.put hx (by simp [hy]) (fun i hi => ?_) (h.wakeful.put hx hsleeps hrises) h.set fun hlog => ⟨hlog, ?_⟩
  · rw [hfree, Option.some.injEq]
    exact ⟨fun heq => absurd heq.symm hi, fun hn => by cases hn⟩
  · rw [hdue]
    exact Nat.le_refl _

theorem Inv.unlock (h : Inv s) (hx : s.threads[t]? = some x) (hhold : x.holds = true) (hy : y.holds = false)
    (hwake : Wakeful s.result (s.threads.set t y)) (hset : .set ∈ s.log → .set ∈ log)
    (hpaid : .set ∉ log → St.waitsDone ⟨s.result, none, s.threads.set t y, log⟩ + y.due.toNat +
        (2 * s.log.count .pulse + s.log.count .stray)
      ≤ s.waitsDone + x.due.toNat + (2 * log.count .pulse + log.count .stray)) :
    Inv ⟨s.result, none, s.threads.set t y, log⟩ := by
  have hholder : s.holder = some t := (h.exclusive t x hx).1 hhold
  refine h.put hx (by simp [hy]) (fun i hi => ?_) hwake (fun hr => hset (h.set hr)) fun hlog =>
    ⟨fun hold => hlog (hset hold), ?_⟩
  · rw [hholder, Option.some.injEq]
    exact ⟨fun hn => (by cases hn), fun heq => absurd heq.symm hi⟩
  · have := hpaid hlog
    omega

/-- The body of `k_event_pulse`, up to the end of `k_cond_signal`. -/
theorem Inv.pulse (h : Inv s) (hx : s.threads[t]? = some (.inside f)) {u : Option Nat}
    (hs' : St.condSignal { s with result := .pulse } u = some s') :
    Inv (s'.note .pulse) ∧ s'.threads[t]? = some (.inside f) ∧ s'.holder = s.holder := by
  have hcount : (Event.pulse :: s.log).count .pulse = s.log.count .pulse + 1 := List.count_cons_self
  have hstray : (Event.pulse :: s.log).count .stray = s.log.count .stray := List.count_cons_of_ne (by decide)
  cases u with
  | none =>
    obtain ⟨hsig, hs'⟩ := Option.ite_none_right_eq_some.1 hs'
    cases hs'
    refine ⟨?_, hx, rfl⟩
    have hself : s.threads.set t (.inside f) = s.threads := by
      obtain ⟨ht, heq⟩ := List.getElem?_eq_some_iff.1 hx
      rw [← heq, List.set_getElem_self]
    have hput : Inv ⟨.pulse, s.holder, s.threads.set t (.inside f), .pulse :: s.log⟩ := by
      refine h.put hx (h.exclusive t _ hx) (fun _ _ => Iff.rfl) ?_ nofun fun hlog =>
        ⟨fun hold => hlog (List.mem_cons_of_mem _ hold), ?_⟩
      · rw [hself]
        intro _ hpos
        refine ⟨rfl, ?_⟩
        obtain hnone | hstirs := hsig
        · obtain ⟨pc, hpc, hsleeps⟩ := List.countP_pos_iff.1 hpos
          exact absurd hsleeps (by simpa using List.any_eq_false.1 hnone pc hpc)
        · obtain ⟨pc, hpc, hstirs⟩ := List.any_eq_true.1 hstirs
          refine List.countP_pos_iff.2 ⟨pc, hpc, ?_⟩
          cases pc with
          | woken => rfl
          | _ => cases hstirs
      · rw [waitsDone_cons _ _ _ .pulse _ nofun, hself, hcount, hstray]
        show s.waitsDone + _ + 1 + _ ≤ _
        omega
    rw [hself] at hput
    exact hput
  | some u =>
    obtain ⟨hsig, hs'⟩ := Option.ite_none_right_eq_some.1 hs'
    cases hs'
    obtain ⟨y, hy, hsleeps⟩ := (Option.any_eq_true _ _).1 hsig
    have hne : u ≠ t := by
      rintro rfl
      obtain rfl := Option.some.inj (hx.symm.trans hy)
      cases hsleeps
    have hmod : s.threads.modify u Pc.wake = s.threads.set u y.wake := modify_of_getElem? hy _
    refine ⟨?_, ?_, rfl⟩
    · show Inv ⟨.pulse, s.holder, s.threads.modify u Pc.wake, .pulse :: s.log⟩
      rw [hmod]
      have hwoken : y.wake.holds = y.holds ∧ y.wake.rises = true ∧ y.wake.due = true ∧ y.due = false := by
        cases y with
        | asleep => exact ⟨rfl, rfl, rfl, rfl⟩
        | _ => cases hsleeps
      obtain ⟨hholds, hrises, hdue, hold⟩ := hwoken
      refine h.put hy (by rw [hholds]; exact h.exclusive u y hy) (fun _ _ => Iff.rfl) (fun _ _ => ⟨rfl, ?_⟩) nofun
        fun hlog => ⟨fun hmem => hlog (List.mem_cons_of_mem _ hmem), ?_⟩
      · exact List.countP_pos_iff.2 ⟨_, List.mem_of_getElem? (getElem?_set_self hy), hrises⟩
      · rw [waitsDone_cons _ _ _ .pulse _ nofun, hcount, hstray, hdue, hold]
        show s.waitsDone + 1 + 1 + _ ≤ s.waitsDone + 0 + _ + _
        omega
    · show (s.threads.modify u Pc.wake)[t]? = _
      rw [hmod, getElem?_set_ne hne]
      exact hx

theorem Inv.cast (h : Inv s) : Inv ({ s with result := .set }.condBroadcast.note .set) where
  exclusive := h.exclusive.wakeAll
  bounded i hi := by
    show i < (s.threads.map Pc.wake).length
    rw [List.length_map]
    exact h.bounded i hi
  wakeful _ hpos := by
    obtain ⟨pc, hpc, hsleeps⟩ := List.countP_pos_iff.1 hpos
    obtain ⟨pc, -, rfl⟩ := List.mem_map.1 hpc
    cases pc <;> cases hsleeps
  set _ := List.mem_cons_self
  paid hlog := absurd List.mem_cons_self hlog

theorem go_wait (hf : f.waits = true) {u : Option Nat} : s.go t u (.inside f) =
    if s.result ≠ .set ∧ s.result ≠ .pulse then some ({ s with holder := none }.goto t (.asleep f))
    else some ({ s with result := s.result.consume }.goto t (.leave f 0)) := by
  cases f with
  | wait | timedwait => rfl
  | set | pulse | reset => cases hf

theorem Inv.go (h : Inv s) (hx : s.threads[t]? = some x) {u : Option Nat} (hs' : s.go t u x = some s') : Inv s' := by
  cases x with
  | out | asleep => cases hs'
  | enter f => exact h.lock (y := .inside f) hx rfl rfl nofun rfl hs'
  | woken f ret => exact h.lock (y := .back f ret) hx rfl rfl (fun _ => rfl) rfl hs'
  | back f ret =>
    cases hs'
    refine h.goto hx rfl rfl (.inr (.inl rfl)) fun hset => ?_
    cases hr : s.result with
    | set => exact absurd hr hset
    | null | pulse => show f.waits.toNat + 0 ≤ 1 + _; cases f.waits <;> simp
  | leave f ret =>
    cases hs'
    refine h.unlock hx rfl rfl (h.wakeful.put hx rfl nofun) (List.mem_cons_of_mem _) fun _ => ?_
    have hdone : St.waitsDone ⟨s.result, none, s.threads.set t .out, .ret f ret :: s.log⟩ =
        s.waitsDone + f.waits.toNat := countP_cons_toNat _ _ _
    have hcount : ∀ e, (∀ f ret, Event.ret f ret ≠ e) → (Event.ret f ret :: s.log).count e = s.log.count e :=
      fun e he => List.count_cons_of_ne (he f ret)
    show St.waitsDone ⟨s.result, none, s.threads.set t .out, .ret f ret :: s.log⟩ + 0 + _ ≤
      _ + f.waits.toNat + (2 * (Event.ret f ret :: s.log).count .pulse + (Event.ret f ret :: s.log).count .stray)
    rw [hdone, hcount .pulse nofun, hcount .stray nofun]
    exact Nat.le_refl _
  | inside f =>
    cases f with
    | set =>
      rw [St.go] at hs'
      split_ifs at hs'
      · cases hs'
        have hy : (s.threads.map Pc.wake)[t]? = some (.inside .set) := by
          rw [List.getElem?_map, hx]
          rfl
        exact h.cast.goto hy rfl rfl (.inl ⟨rfl, nofun⟩) fun _ => Nat.le_refl _
      · cases hs'
        exact h.goto hx rfl rfl (.inl ⟨rfl, nofun⟩) fun _ => Nat.le_refl _
    | pulse =>
      rw [St.go] at hs'
      split_ifs at hs'
      · obtain ⟨s₁, hs₁, rfl⟩ := Option.map_eq_some_iff.1 hs'
        obtain ⟨hinv, hx₁, -⟩ := h.pulse hx hs₁
        exact hinv.goto hx₁ rfl rfl (.inl ⟨rfl, nofun⟩) fun _ => Nat.le_refl _
      · cases hs'
        exact h.goto hx rfl rfl (.inl ⟨rfl, nofun⟩) fun _ => Nat.le_refl _
    | reset =>
      cases hs'
      exact h.goto hx rfl rfl (.inr (.inr rfl)) fun _ => Nat.zero_le _
    | wait | timedwait =>
      rw [go_wait rfl] at hs'
      split_ifs at hs' with hnull
      · cases hs'
        have hresult : s.result = .null := by
          cases hr : s.result with
          | null => rfl
          | set => exact absurd hr hnull.1
          | pulse => exact absurd hr hnull.2
        exact h.unlock hx rfl rfl (by rw [hresult]; exact wakeful_null _) id fun _ => Nat.le_refl _
      · cases hs'
        refine h.goto hx rfl rfl (.inr (.inl rfl)) fun hset => ?_
        cases hr : s.result with
        | set => exact absurd hr hset
        | null => exact absurd ⟨by rw [hr]; nofun, by rw [hr]; nofun⟩ hnull
        | pulse => exact Nat.le_refl _

theorem Inv.step (h : Inv s) (hs' : s.step a = some s') : Inv s' := by
  unfold St.step at hs'
  rcases hx : s.threads[a.thread]? with _ | x
  · rw [hx] at hs'
    cases hs'
  rw [hx] at hs'
  dsimp only at hs'
  split at hs'
  · -- `call`
    cases hs'
    exact h.goto hx rfl rfl (.inl ⟨rfl, nofun⟩) fun _ => Nat.le_refl _
  · -- `stray`
    next ret f _ =>
    obtain ⟨-, hs'⟩ := Option.ite_none_right_eq_some.1 hs'
    cases hs'
    have hholds := h.exclusive _ _ hx
    refine h.put hx hholds (fun _ _ => Iff.rfl) (fun hnull hpos => ?_) (fun hr => List.mem_cons_of_mem _ (h.set hr))
      fun hlog => ⟨fun hmem => hlog (List.mem_cons_of_mem _ hmem), ?_⟩
    · exact ⟨(h.wakeful hnull (sleepers_put hx rfl hpos)).1,
        List.countP_pos_iff.2 ⟨_, List.mem_of_getElem? (getElem?_set_self hx), rfl⟩⟩
    · have hcount : (Event.stray :: s.log).count .pulse = s.log.count .pulse := List.count_cons_of_ne (by decide)
      have hstray : (Event.stray :: s.log).count .stray = s.log.count .stray + 1 := List.count_cons_self
      show St.waitsDone ⟨_, _, _, .stray :: s.log⟩ + 1 + _ + _ ≤
        _ + 0 + _ + (2 * (Event.stray :: s.log).count .pulse + (Event.stray :: s.log).count .stray)
      rw [waitsDone_cons _ _ _ .stray _ nofun, hcount, hstray]
      show s.waitsDone + _ + s.result.pending + _ ≤ _
      omega
  · -- `go`
    exact h.go hx hs'
  · cases hs'

theorem inv_init (n : Nat) : Inv (.init n) where
  exclusive t pc ht := by
    obtain rfl := List.eq_of_mem_replicate (List.mem_of_getElem? ht)
    exact ⟨nofun, nofun⟩
  bounded _ := nofun
  wakeful := wakeful_null _
  set := nofun
  paid _ := by
    have hdue : (St.init n).threads.countP Pc.due = 0 := List.countP_eq_zero.2 fun x hx => by
      obtain rfl := List.eq_of_mem_replicate hx
      exact Bool.false_ne_true
    rw [hdue]
    exact Nat.le_refl _

theorem step_go (hx : s.threads[t]? = some x) (u : Option Nat) : s.step ⟨t, .go u⟩ = s.go t u x := by
  unfold St.step
  rw [hx]

/-- A thread that has the mutex can go on. -/
theorem exists_go (hx : s.threads[t]? = some x) (hh : x.holds) : ∃ u, s.step ⟨t, .go u⟩ ≠ none := by
  have hgo : ∀ u, s.go t u x ≠ none → ∃ u, s.step ⟨t, .go u⟩ ≠ none := fun u hu => ⟨u, by rwa [step_go hx]⟩
  cases x with
  | out | enter | asleep | woken => cases hh
  | back | leave => exact hgo none nofun
  | inside f =>
    cases f with
    | reset => exact hgo none nofun
    | set =>
      refine hgo none ?_
      rw [St.go]
      split_ifs <;> nofun
    | wait | timedwait =>
      refine hgo none ?_
      rw [go_wait rfl]
      split_ifs <;> nofun
    | pulse =>
      by_cases hpulse : s.result = .pulse
      · refine hgo none ?_
        rw [St.go, if_neg (not_not.2 hpulse)]
        nofun
      by_cases hsleeps : s.threads.any Pc.sleeps
      · obtain ⟨y, hy, hsleeps⟩ := List.any_eq_true.1 hsleeps
        obtain ⟨u, hu⟩ := List.mem_iff_getElem?.1 hy
        refine hgo (some u) ?_
        rw [St.go, if_pos hpulse, St.condSignal, if_pos (by rw [hu]; exact hsleeps)]
        nofun
      · refine hgo none ?_
        rw [St.go, if_pos hpulse, St.condSignal, if_pos (.inl (by simpa using hsleeps))]
        nofun

theorem Inv.quiet (h : Inv s) (hquiet : s.Quiet) : ∀ x ∈ s.threads, x = .out ∨ x.sleeps ∧ s.result = .null := by
  have hfree : s.holder = none := by
    rcases hh : s.holder with _ | t
    · rfl
    have hx := List.getElem?_eq_getElem (h.bounded t hh)
    obtain ⟨u, hu⟩ := exists_go hx ((h.exclusive t _ hx).2 hh)
    exact absurd (hquiet t u) hu
  have hrest : ∀ x ∈ s.threads, x = .out ∨ x.sleeps := by
    intro x hx
    obtain ⟨t, ht⟩ := List.mem_iff_getElem?.1 hx
    have hnot : ¬x.holds := fun hh => by
      rw [h.exclusive t x ht, hfree] at hh
      cases hh
    have hstuck := hquiet t none
    rw [step_go ht] at hstuck
    cases x with
    | out => exact .inl rfl
    | asleep => exact .inr rfl
    | inside | back | leave => exact absurd rfl hnot
    | enter | woken =>
      rw [St.go, St.lock, if_pos hfree] at hstuck
      cases hstuck
  intro x hx
  refine (hrest x hx).imp_right fun hsleeps => ⟨hsleeps, ?_⟩
  by_contra hnull
  obtain ⟨y, hy, hrises⟩ := List.countP_pos_iff.1 (h.wakeful hnull (List.countP_pos_iff.2 ⟨x, hx, hsleeps⟩)).2
  cases y with
  | woken | back =>
    obtain hout | hsleeps := hrest _ hy
    · cases hout
    · cases hsleeps
  | _ => cases hrises

end

/-- One thread at a time is between `k_lock_lock` and `k_lock_unlock`. While a thread sleeps, the event is not set, and
a pulse is about to be taken by another that is up. When no thread can go on by itself, each is out or asleep on an
event that is neither set nor pulsed: no wake-up is lost. As long as the event is not set, at most two waits return for
every pulse, those not counted that have woken without a signal. -/
theorem event_sound (n : Nat) (as : List Act) (s : St) (hrun : exec St.step (.init n) as = some s) :
    (∀ (t t' : Nat) (x x' : Pc), s.threads[t]? = some x → s.threads[t']? = some x' → x.holds → x'.holds → t = t') ∧
    (s.result ≠ .null → (∃ x ∈ s.threads, x.sleeps) → s.result = .pulse ∧ ∃ x ∈ s.threads, x.rises) ∧
    (s.Quiet → ∀ x ∈ s.threads, x = .out ∨ x.sleeps ∧ s.result = .null) ∧
    (.set ∉ s.log → s.waitsDone ≤ 2 * s.log.count .pulse + s.log.count .stray) := by
  have h : Inv s := exec_invariant_all (fun _ _ _ h => h.step) (inv_init n) hrun
  refine ⟨fun t t' x x' hx hx' hh hh' => ?_, fun hnull hsleeps => ?_, h.quiet, fun hlog => ?_⟩
  · have heq := ((h.exclusive t x hx).1 hh).symm.trans ((h.exclusive t' x' hx').1 hh')
    exact Option.some.inj heq
  · obtain ⟨hpulse, hrises⟩ := h.wakeful hnull (List.countP_pos_iff.2 hsleeps)
    exact ⟨hpulse, List.countP_pos_iff.1 hrises⟩
  · have hpaid := h.paid hlog
    omega

/-- A thread waits, the next pulses, and a third that waits takes the pulse before the first is back. -/
def onePulse : List Act :=
  [⟨0, .call .wait⟩, ⟨0, .go none⟩, ⟨0, .go none⟩, ⟨1, .call .pulse⟩, ⟨1, .go none⟩, ⟨1, .go (some 0)⟩, ⟨1, .go none⟩,
    ⟨2, .call (.timedwait 5)⟩, ⟨2, .go none⟩, ⟨2, .go none⟩, ⟨2, .go none⟩, ⟨0, .go none⟩, ⟨0, .go none⟩, ⟨0, .go none⟩]

/-- Two waits return for the one pulse. -/
theorem event_sound_onePulse : ∃ s, exec St.step (.init 3) onePulse = some s ∧ s.log.count .pulse = 1 ∧
    s.log.count .stray = 0 ∧ s.waitsDone = 2 ∧ s.waitsDone ≤ 2 * s.log.count .pulse + s.log.count .stray := by
  have hrun : exec St.step (.init 3) onePulse = some
      ⟨.null, none, [.out, .out, .out], [.ret .wait 0, .ret (.timedwait 5) 0, .ret .pulse 0, .pulse]⟩ := by decide
  exact ⟨_, hrun, by decide, by decide, by decide, (event_sound 3 onePulse _ hrun).2.2.2 (by decide)⟩

end KEvent

end Aosl
