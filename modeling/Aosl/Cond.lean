import Aosl.Lib.Steps

/-!
# The condition variable over semaphores

`k_cond_t` as it is built where the platform has semaphores and no condition variables: a list of waiters under
`cond->lock`, each with a semaphore of its own. `k_cond_signal` posts the semaphore of the first waiter and leaves it
on the list; the waiter takes itself off after it has run again and has both locks. One step is one operation on a
lock or on a semaphore, or what a function does to the list under `cond->lock`.
-/

namespace Aosl

/-- Where a thread stands. `timed`: in `k_cond_timedwait`; `user`: the caller has the user's lock. -/
inductive CondPc where
  | out
  | held
  | waitEnter (timed : Bool)
  | waitDrop (timed : Bool)
  | waitAdd (timed : Bool)
  | waitLeave (timed : Bool)
  | waitSem (timed : Bool)
  | waitRelock
  | waitBack
  | waitDel
  | signalEnter (user : Bool)
  | signalPost (user : Bool)
  | signalLeave (user : Bool)
  | castEnter (user : Bool)
  | castPost (user : Bool)
  | castLeave (user : Bool)
deriving DecidableEq

/-- A thread with the value of its `waiter.event`. -/
structure CondThread where
  pc : CondPc
  sem : Nat
deriving DecidableEq

structure CondSt where
  /-- The user's lock is taken. -/
  lock : Bool
  /-- `cond->lock` is taken. -/
  condLock : Bool
  waitList : List Nat
  threads : List CondThread
deriving DecidableEq

inductive CondOp where
  | lock
  | unlock
  | condWait (timed : Bool)
  | condSignal
  | condBroadcast
  /-- The next step of the function the thread is in. -/
  | go
  /-- `aosl_hal_sem_timedwait` times out. -/
  | timeout
deriving DecidableEq

structure CondAct where
  thread : Nat
  op : CondOp
deriving DecidableEq

namespace CondPc

/-- The caller is back from `k_cond_signal` or `k_cond_broadcast`. -/
def back (user : Bool) : CondPc := if user then held else out

end CondPc

namespace CondSt

def init (n : Nat) : CondSt :=
  { lock := false, condLock := false, waitList := [], threads := List.replicate n ⟨.out, 0⟩ }

def put (s : CondSt) (t : Nat) (x : CondThread) : CondSt := { s with threads := s.threads.set t x }

/-- Thread `t` goes on at `pc`. -/
def goto (s : CondSt) (t : Nat) (x : CondThread) (pc : CondPc) : CondSt := s.put t { x with pc := pc }

/-- `aosl_hal_sem_post` on the semaphore of thread `u`. -/
def semPost (s : CondSt) (u : Nat) : CondSt :=
  { s with threads := s.threads.modify u fun y => { y with sem := y.sem + 1 } }

/-- The body of `k_cond_signal`. -/
def signal (s : CondSt) : CondSt :=
  match s.waitList with
  | [] => s
  | u :: _ => s.semPost u

/-- The body of `k_cond_broadcast`. -/
def broadcast (s : CondSt) : CondSt := s.waitList.foldl semPost s

/-- The next step of thread `t`. -/
def go (s : CondSt) (t : Nat) (x : CondThread) : Option CondSt :=
  match x.pc with
  | .waitEnter timed => if s.condLock = false then some { s.goto t x (.waitDrop timed) with condLock := true } else none
  | .waitDrop timed => some { s.goto t x (.waitAdd timed) with lock := false }
  | .waitAdd timed => some { s.put t ⟨.waitLeave timed, 0⟩ with waitList := s.waitList ++ [t] }
  | .waitLeave timed => some { s.goto t x (.waitSem timed) with condLock := false }
  | .waitSem _ => if 0 < x.sem then some (s.put t ⟨.waitRelock, x.sem - 1⟩) else none
  | .waitRelock => if s.lock = false then some { s.goto t x .waitBack with lock := true } else none
  | .waitBack => if s.condLock = false then some { s.goto t x .waitDel with condLock := true } else none
  | .waitDel => some { s.goto t x .held with condLock := false, waitList := s.waitList.erase t }
  | .signalEnter user =>
    if s.condLock = false then some { s.goto t x (.signalPost user) with condLock := true } else none
  | .signalPost user => some (s.signal.goto t x (.signalLeave user))
  | .signalLeave user => some { s.goto t x (.back user) with condLock := false }
  | .castEnter user => if s.condLock = false then some { s.goto t x (.castPost user) with condLock := true } else none
  | .castPost user => some (s.broadcast.goto t x (.castLeave user))
  | .castLeave user => some { s.goto t x (.back user) with condLock := false }
  | _ => none

def step (s : CondSt) (a : CondAct) : Option CondSt :=
  match s.threads[a.thread]? with
  | none => none
  | some x => match a.op, x.pc with
    | .lock, .out => if s.lock = false then some { s.goto a.thread x .held with lock := true } else none
    | .unlock, .held => some { s.goto a.thread x .out with lock := false }
    | .condWait timed, .held => some (s.goto a.thread x (.waitEnter timed))
    | .condSignal, .out => some (s.goto a.thread x (.signalEnter false))
    | .condSignal, .held => some (s.goto a.thread x (.signalEnter true))
    | .condBroadcast, .out => some (s.goto a.thread x (.castEnter false))
    | .condBroadcast, .held => some (s.goto a.thread x (.castEnter true))
    | .timeout, .waitSem true => some (s.goto a.thread x .waitRelock)
    | .go, _ => s.go a.thread x
    | _, _ => none

end CondSt

end Aosl
