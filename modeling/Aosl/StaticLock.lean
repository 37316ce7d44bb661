import Aosl.Lib.Steps

/-!
# Static locks, `kernel/thread.c`

`k_static_lock_lock`, `.._trylock` and `.._unlock` initialise the mutex of the lock on first use: the thread that takes
`state` from `UNINIT` to `INITIALIZING` does it, the others wait. Any number of threads take steps in any order; a step
is one access to `state` or one call of the HAL, the result of which is part of the action. `log` is what the threads
did, the last first. `k_static_lock_fini` is not called.

A thread that waits goes on as soon as `state` is not `INITIALIZING` any more, also when it is `UNINIT` again because the
initialisation failed (`not_run_proper`). As long as no thread waiting finds `UNINIT`, the lock is used properly
(`run_proper`).
-/

namespace Aosl
open Lib

namespace StaticLock

/-- The three functions, which differ in the call of the HAL at the end. -/
inductive Fn where
  | lock
  | trylock
  | unlock
deriving DecidableEq

/-- `k_static_lock_state_t`. -/
inductive LockState where
  | uninit
  | initializing
  | initialized
deriving DecidableEq

inductive Pc where
  | idle
  /-- Before the test of `state` at the start. -/
  | test (f : Fn)
  /-- Before `aosl_hal_atomic_cmpxchg`. -/
  | cmpxchg (f : Fn)
  /-- Before `aosl_hal_static_mutex_init`. -/
  | init (f : Fn)
  /-- The initialisation failed with `ret`. -/
  | undo (f : Fn) (ret : Int)
  /-- It succeeded. -/
  | publish (f : Fn)
  /-- In the loop, before `state` is read. -/
  | wait (f : Fn) (retries : Nat)
  /-- Before `aosl_hal_mutex_lock`, `.._trylock` or `.._unlock`. -/
  | use (f : Fn)
deriving DecidableEq

inductive Event where
  /-- `aosl_hal_static_mutex_init` has returned 0. -/
  | initialised (t : Nat)
  /-- The mutex is locked, tried or unlocked. -/
  | used (t : Nat) (f : Fn)
  /-- A call returns `ret` without having come to the mutex. -/
  | gaveUp (t : Nat) (f : Fn) (ret : Int)
deriving DecidableEq

structure St where
  state : LockState
  pc : Nat → Pc
  log : List Event

inductive Act where
  /-- The thread `t` calls `f`. -/
  | call (t : Nat) (f : Fn)
  /-- It takes its next step; `ret` is what the HAL returns. -/
  | go (t : Nat) (ret : Int)
deriving DecidableEq

namespace St

def setPc (s : St) (t : Nat) (pc : Pc) : St := { s with pc := fun i => if i = t then pc else s.pc i }

def note (s : St) (e : Event) : St := { s with log := e :: s.log }

/-- `K_STATIC_LOCK_INIT`. -/
def initial : St := ⟨.uninit, fun _ => .idle, []⟩

def step (s : St) : Act → Option St
  | .call t f => match s.pc t with
    | .idle => some (s.setPc t (.test f))
    | _ => none
  | .go t ret => match s.pc t with
    | .idle => none
    | .test f => some (s.setPc t (if s.state = .initialized then .use f else .cmpxchg f))
    | .cmpxchg f => match s.state with
      | .uninit => some ({ s with state := .initializing }.setPc t (.init f))
      | .initializing => some (s.setPc t (.wait f 0))
      | .initialized => some (s.setPc t (.use f))
    | .init f =>
      if ret ≠ 0 then some (s.setPc t (.undo f ret))
      else some ((s.note (.initialised t)).setPc t (.publish f))
    | .undo f err => some (({ s with state := .uninit }.note (.gaveUp t f err)).setPc t .idle)
    | .publish f => some ({ s with state := .initialized }.setPc t (.use f))
    | .wait f retries =>
      if s.state = .initializing then
        if 100 < retries + 1 then some ((s.note (.gaveUp t f (-1))).setPc t .idle)
        else some (s.setPc t (.wait f (retries + 1)))
      else some (s.setPc t (.use f))
    | .use f => some ((s.note (.used t f)).setPc t .idle)

end St

/-- `e` is in order after what is in the log: the mutex is initialised once, nothing else is done to it before that, and
a call that does not come to it returns an error. -/
def Event.Fits (log : List Event) : Event → Prop
  | initialised _ => ∀ t, initialised t ∉ log
  | used _ _ => ∃ t, initialised t ∈ log
  | gaveUp _ _ ret => ret ≠ 0

/-- Everything in the log is. -/
def Proper : List Event → Prop
  | [] => True
  | e :: log => e.Fits log ∧ Proper log

def Pc.waits : Pc → Bool
  | wait _ _ => true
  | _ => false

/-- The action does not take a thread out of the loop with the mutex uninitialised. -/
def Awaited (s : St) : Act → Prop
  | .call _ _ => True
  | .go t _ => (s.pc t).waits → s.state ≠ .uninit

instance (s : St) : (a : Act) → Decidable (Awaited s a)
  | .call _ _ => inferInstanceAs (Decidable True)
  | .go t _ => inferInstanceAs (Decidable ((s.pc t).waits → s.state ≠ .uninit))

/-! ### The invariant -/

def Initialised (log : List Event) : Prop := ∃ t, .initialised t ∈ log

/-- It is up to this thread to initialise the mutex. -/
def Pc.busy : Pc → Bool
  | init _ | undo _ _ | publish _ => true
  | _ => false

/-- What a thread knows of the lock. -/
def Pc.Ok (state : LockState) (log : List Event) : Pc → Prop
  | init _ => state = .initializing ∧ ¬Initialised log
  | undo _ ret => state = .initializing ∧ ¬Initialised log ∧ ret ≠ 0
  | publish _ => state = .initializing ∧ Initialised log
  | use _ => state = .initialized
  | _ => True

structure Inv (s : St) : Prop where
  pcs : ∀ t, (s.pc t).Ok s.state s.log
  unique : ∀ t t', (s.pc t).busy → (s.pc t').busy → t = t'
  uninit : s.state = .uninit → ¬Initialised s.log
  initialized : s.state = .initialized → Initialised s.log
  proper : Proper s.log

theorem inv_initial : Inv .initial where
  pcs _ := trivial
  unique t t' h := by cases h
  uninit _ := by rintro ⟨t, ht⟩; cases ht
  initialized h := by cases h
  proper := trivial

section
variable {s s' : St} {t : Nat} {pc : Pc} {e : Event} {f : Fn} {ret : Int}

theorem Pc.Ok.busy_state {state : LockState} {log : List Event} (h : pc.Ok state log) (hb : pc.busy) :
    state = .initializing := by
  cases pc with
  | init | undo | publish => exact h.1
  | _ => cases hb

theorem setPc_pc (s : St) (t : Nat) (pc : Pc) (i : Nat) : (s.setPc t pc).pc i = if i = t then pc else s.pc i := rfl

/-- A step of one thread that leaves `state` and the log as they are, and does not make it busy. -/
theorem Inv.setPc (h : Inv s) (hpc : pc.Ok s.state s.log) (hbusy : pc.busy → (s.pc t).busy) : Inv (s.setPc t pc) where
  pcs i := by
    rw [setPc_pc]
    split
    · exact hpc
    · exact h.pcs i
  unique i j hi hj := by
    have hback : ∀ i, ((s.setPc t pc).pc i).busy → (s.pc i).busy := fun i hi => by
      rw [setPc_pc] at hi
      split at hi
      · next heq =>
        rw [heq]
        exact hbusy hi
      · exact hi
    exact h.unique i j (hback i hi) (hback j hj)
  uninit := h.uninit
  initialized := h.initialized
  proper := h.proper

theorem initialised_cons (he : ∀ t, e ≠ .initialised t) (log : List Event) :
    Initialised (e :: log) ↔ Initialised log := by
  constructor
  · rintro ⟨t, ht⟩
    exact ⟨t, (List.mem_cons.1 ht).resolve_left fun h => he t h.symm⟩
  · rintro ⟨t, ht⟩
    exact ⟨t, List.mem_cons_of_mem _ ht⟩

theorem Inv.note (h : Inv s) (he : ∀ t, e ≠ .initialised t) (hfits : e.Fits s.log) : Inv (s.note e) where
  pcs i := by
    have hpc := h.pcs i
    have hiff := initialised_cons he s.log
    show (s.pc i).Ok s.state (e :: s.log)
    generalize s.pc i = pc at hpc
    cases pc with
    | init => exact ⟨hpc.1, fun h => hpc.2 (hiff.1 h)⟩
    | undo => exact ⟨hpc.1, fun h => hpc.2.1 (hiff.1 h), hpc.2.2⟩
    | publish => exact ⟨hpc.1, hiff.2 hpc.2⟩
    | use => exact hpc
    | _ => trivial
  unique := h.unique
  uninit hs hi := h.uninit hs ((initialised_cons he s.log).1 hi)
  initialized hs := (initialised_cons he s.log).2 (h.initialized hs)
  proper := ⟨hfits, h.proper⟩

/-- A step of the busy thread, or one that makes a thread busy: no other thread is, and none uses the mutex. -/
theorem Inv.take (h : Inv s) (pc : Pc) (t : Nat) (hpc : pc.Ok s'.state s'.log) (hs' : s'.pc = (s.setPc t pc).pc)
    (halone : ∀ i, i ≠ t → (s.pc i).busy = false) (huse : s.state ≠ .initialized)
    (huninit : s'.state = .uninit → ¬Initialised s'.log) (hinit : s'.state = .initialized → Initialised s'.log)
    (hproper : Proper s'.log) : Inv s' where
  pcs i := by
    rw [hs', setPc_pc]
    split
    · exact hpc
    · next hne =>
      have hquiet := halone i hne
      have hok := h.pcs i
      generalize s.pc i = pc at hquiet hok
      cases pc with
      | init | undo | publish => cases hquiet
      | use => exact absurd hok huse
      | _ => trivial
  unique i j hi hj := by
    have hback : ∀ i, (s'.pc i).busy → i = t := fun i hi => by
      by_contra hne
      rw [hs', setPc_pc, if_neg hne, halone i hne] at hi
      cases hi
    rw [hback i hi, hback j hj]
  uninit := huninit
  initialized := hinit
  proper := hproper

theorem Inv.alone (h : Inv s) (hb : (s.pc t).busy) : ∀ i, i ≠ t → (s.pc i).busy = false := fun i hne => by
  by_contra hi
  exact hne (h.unique i t (by simpa using hi) hb)

theorem step_inv (h : Inv s) {a : Act} (hok : Awaited s a) (hstep : s.step a = some s') : Inv s' := by
  cases a with
  | call t f =>
    rw [St.step] at hstep
    split at hstep
    · obtain rfl := Option.some.inj hstep
      exact h.setPc trivial (fun hb => by cases hb)
    · cases hstep
  | go t ret =>
    have hpc := h.pcs t
    rw [St.step] at hstep
    split at hstep
    · cases hstep
    · -- `test`
      obtain rfl := Option.some.inj hstep
      split
      · next hs => exact h.setPc hs (fun hb => by cases hb)
      · exact h.setPc trivial (fun hb => by cases hb)
    · -- `cmpxchg`
      split at hstep
      · next hs =>
        obtain rfl := Option.some.inj hstep
        have hquiet : ∀ i, i ≠ t → (s.pc i).busy = false := fun i _ => by
          by_contra hb
          have hstate := (h.pcs i).busy_state (by simpa using hb)
          rw [hs] at hstate
          cases hstate
        exact h.take (.init _) t ⟨rfl, h.uninit hs⟩ rfl hquiet (by rw [hs]; nofun) nofun nofun h.proper
      · obtain rfl := Option.some.inj hstep
        exact h.setPc trivial (fun hb => by cases hb)
      · next hs =>
        obtain rfl := Option.some.inj hstep
        exact h.setPc hs (fun hb => by cases hb)
    · -- `init`
      next f hat =>
      rw [hat] at hpc
      split at hstep
      · next hret =>
        obtain rfl := Option.some.inj hstep
        exact h.setPc ⟨hpc.1, hpc.2, hret⟩ (fun _ => by rw [hat]; rfl)
      · obtain rfl := Option.some.inj hstep
        have hnew : Initialised (.initialised t :: s.log) := ⟨t, List.mem_cons_self⟩
        exact h.take (.publish f) t ⟨hpc.1, hnew⟩ rfl (h.alone (by rw [hat]; rfl)) (by rw [hpc.1]; nofun)
          (fun hs => by rw [St.setPc, St.note, hpc.1] at hs; cases hs) (fun _ => hnew)
          ⟨fun t' ht' => hpc.2 ⟨t', ht'⟩, h.proper⟩
    · -- `undo`
      next f err hat =>
      rw [hat] at hpc
      obtain rfl := Option.some.inj hstep
      have hne : ∀ t', Event.gaveUp t f err ≠ .initialised t' := fun t' => by nofun
      exact h.take .idle t trivial rfl (h.alone (by rw [hat]; rfl)) (by rw [hpc.1]; nofun)
        (fun _ hi => hpc.2.1 ((initialised_cons hne s.log).1 hi)) nofun ⟨hpc.2.2, h.proper⟩
    · -- `publish`
      next f hat =>
      rw [hat] at hpc
      obtain rfl := Option.some.inj hstep
      exact h.take (.use f) t rfl rfl (h.alone (by rw [hat]; rfl)) (by rw [hpc.1]; nofun) nofun
        (fun _ => hpc.2) h.proper
    · -- `wait`
      next f retries hat =>
      split at hstep
      · split at hstep
        · obtain rfl := Option.some.inj hstep
          have hfits : (Event.gaveUp t f (-1)).Fits s.log := by rw [Event.Fits]; decide
          exact (h.note (fun t' => by nofun) hfits).setPc trivial (fun hb => by cases hb)
        · obtain rfl := Option.some.inj hstep
          exact h.setPc trivial (fun hb => by cases hb)
      · next hs =>
        obtain rfl := Option.some.inj hstep
        have hinit : s.state = .initialized := by
          have hawaited := hok (by rw [hat]; rfl)
          cases hstate : s.state with
          | uninit => exact absurd hstate hawaited
          | initializing => exact absurd hstate hs
          | initialized => rfl
        exact h.setPc hinit (fun hb => by cases hb)
    · -- `use`
      next f hat =>
      rw [hat] at hpc
      obtain rfl := Option.some.inj hstep
      have hfits : (Event.used t f).Fits s.log := h.initialized hpc
      exact (h.note (fun t' => by nofun) hfits).setPc trivial (fun hb => by cases hb)

end

/-- As long as no thread waiting finds the mutex uninitialised, it is initialised at most once, and used after that. -/
theorem run_proper {as : List Act} {s : St} (hok : Along St.step Awaited .initial as)
    (hrun : exec St.step .initial as = some s) : Proper s.log :=
  (exec_invariant (fun _ _ _ h hok hstep => step_inv h hok hstep) inv_initial hok hrun).proper

/-- Thread 2 waits for thread 1, and both use the mutex. -/
theorem run_proper_two : Proper [.used 2 .trylock, .used 1 .lock, .initialised 1] :=
  have hok : Along St.step Awaited .initial [.call 1 .lock, .go 1 0, .go 1 0, .call 2 .trylock, .go 2 0, .go 2 0, .go 2 0,
    .go 1 0, .go 1 0, .go 2 0, .go 1 0, .go 2 5] := by decide
  run_proper hok rfl

/-- The initialisation by thread 1 fails while thread 2 waits, which then locks the mutex. -/
theorem not_run_proper : (exec St.step .initial [.call 1 .lock, .go 1 0, .go 1 0, .call 2 .lock, .go 2 0, .go 2 0,
    .go 1 5, .go 1 0, .go 2 0, .go 2 0]).map St.log = some [.used 2 .lock, .gaveUp 1 .lock 5] ∧
    ¬Proper [.used 2 .lock, .gaveUp 1 .lock 5] := by
  refine ⟨rfl, fun h => ?_⟩
  obtain ⟨t, ht⟩ := h.1
  simp at ht

end StaticLock

end Aosl
