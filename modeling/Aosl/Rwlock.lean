import Aosl.Lib.Steps

/-!
# The raw reader/writer lock

`k_raw_rwlock_t` with its fast paths on `count` and its slow paths under `wait_lock`. A thread is known by the
place it stands at; inside `wait_lock` the place is in `crit`, together with the locals of the function that is
running there. One step is one access to `count`, one list operation under `wait_lock`, one access to
`waiter->event`, or one operation on an event.
-/

namespace Aosl

/-- The two widths of `intptr_t`. -/
inductive Word where
  | bits32
  | bits64
deriving DecidableEq

namespace Word

/-- `RWLOCK_ACTIVE_MASK + 1`. -/
def activeSpan : Word → Nat
  | bits32 => 0x10000
  | bits64 => 0x100000000

def span : Word → Nat
  | bits32 => 0x100000000
  | bits64 => 0x10000000000000000

/-- The value an `intptr_t` holds after an atomic operation. -/
def wrap (w : Word) (c : Int) : Int := Int.bmod c w.span

/-- `c & RWLOCK_ACTIVE_MASK`, of a number in two's complement. -/
def activePart (w : Word) (c : Int) : Int := c % w.activeSpan

def waitingBias (w : Word) : Int := -w.activeSpan

def activeWriteBias (w : Word) : Int := w.waitingBias + 1

end Word

def activeReadBias : Int := 1

inductive WaiterType where
  | write
  | read
deriving DecidableEq

inductive WakeType where
  | any
  | readers
  | readOwned
deriving DecidableEq

/-- An entry of `wait_list`; `waiter->event` is with its thread. -/
structure Waiter where
  thread : Nat
  type : WaiterType
deriving DecidableEq

/-- Where a thread stands. The names with `In` are inside `wait_lock`. -/
inductive RwPhase where
  | idle
  | tryRead
  /-- `__rwlock_tryrdlock` has read `tmp`, which is not negative. -/
  | tryCas (tmp : Nat)
  | readFailed
  | readAddIn
  | readIn
  | readLoop
  | readWait
  | readHeld
  | writeFailed
  | writeAddIn
  | writeIn
  | writeWait
  | writeWoken
  | writeGotIn
  | writeHeld
  | wakePending
  | wakeIn
  | downPending
  | downIn
deriving DecidableEq

/-- A thread; `event`: `waiter.event` is not `NULL`; `pulsed`: `event.result` is `K_EVENT_PULSE`. -/
structure RwThread where
  ph : RwPhase
  event : Bool
  pulsed : Bool
deriving DecidableEq

/-- The caller of `__rwlock_do_wake`; `write` with its local `count`. -/
inductive RwCaller where
  | read
  | write (count : Int)
  | wake
  | down
deriving DecidableEq

/-- Where the holder of `wait_lock` stands. -/
inductive RwCrit where
  /-- The waiter is on the list; next is `rwlock_atomic_update (adjustment, rw)`. -/
  | readAdded (adjustment : Int)
  | writeAdded (adjustment : Int)
  | doWake (type : WakeType) (k : RwCaller)
  /-- `try_reader_grant`. -/
  | grant (k : RwCaller)
  | retract (k : RwCaller)
  | count (adjustment : Nat) (k : RwCaller)
  /-- In the wake loop, next is `waiter->event = NULL` of the `done`th waiter; `loop` waiters are left. -/
  | clear (done loop : Nat) (k : RwCaller)
  /-- Next is `k_event_pulse (event)` of the `done`th waiter; `loop` waiters are left after it. -/
  | pulse (done loop : Nat) (k : RwCaller)
  | ret (k : RwCaller)
  | writeTry (count : Int)
  | writeRead
  | writeCas
  | writeDel
  | writeUnlock
  | writeLoad
deriving DecidableEq

structure RwSt where
  word : Word
  count : Int
  waitList : List Waiter
  threads : List RwThread
  /-- The holder of `wait_lock`. -/
  crit : Option (Nat × RwCrit)
deriving DecidableEq

inductive RwOp where
  | rdlock
  | tryrdlock
  | wrlock
  | trywrlock
  | rdunlock
  | wrunlock
  | wr2rdLock
  /-- The next step of the function the thread is in. -/
  | go
  /-- `k_cond_wait` returns without a signal. -/
  | spurious
deriving DecidableEq

structure RwAct where
  thread : Nat
  op : RwOp
deriving DecidableEq

namespace RwCaller

/-- Where the thread stands that has called `__rwlock_do_wake`. -/
def phase : RwCaller → RwPhase
  | read => .readIn
  | write _ => .writeIn
  | wake => .wakeIn
  | down => .downIn

end RwCaller

namespace RwSt

def init (w : Word) (n : Nat) : RwSt :=
  { word := w, count := 0, waitList := [], threads := List.replicate n ⟨.idle, false, false⟩, crit := none }

/-- `rwlock_atomic_update (delta, rw)`. -/
def atomicUpdate (s : RwSt) (delta : Int) : Int := s.word.wrap (s.count + delta)

def put (s : RwSt) (t : Nat) (x : RwThread) : RwSt := { s with threads := s.threads.set t x }

/-- Thread `t` goes on at `ph`, with `count` as given. -/
def goto (s : RwSt) (t : Nat) (x : RwThread) (ph : RwPhase) (count : Int) : RwSt :=
  { s.put t { x with ph := ph } with count := count }

/-- The holder of `wait_lock` goes on at `c`, with `count` as given. -/
def inside (s : RwSt) (t : Nat) (c : RwCrit) (count : Int) : RwSt :=
  { s with crit := some (t, c), count := count }

/-- `k_event_pulse` on the event of thread `u`. -/
def eventPulse (s : RwSt) (u : Nat) : RwSt :=
  { s with threads := s.threads.modify u fun y => { y with pulsed := true } }

/-- `waiter->event = NULL` for the waiter of thread `u`. -/
def eventClear (s : RwSt) (u : Nat) : RwSt :=
  { s with threads := s.threads.modify u fun y => { y with event := false } }

def rdlock (s : RwSt) (t : Nat) (x : RwThread) : RwSt :=
  if s.atomicUpdate activeReadBias ≤ 0 then s.goto t x .readFailed (s.atomicUpdate activeReadBias)
  else s.goto t x .readHeld (s.atomicUpdate activeReadBias)

def wrlock (s : RwSt) (t : Nat) (x : RwThread) : RwSt :=
  if s.atomicUpdate s.word.activeWriteBias ≠ s.word.activeWriteBias then
    s.goto t x .writeFailed (s.atomicUpdate s.word.activeWriteBias)
  else s.goto t x .writeHeld (s.atomicUpdate s.word.activeWriteBias)

def trywrlock (s : RwSt) (t : Nat) (x : RwThread) : RwSt :=
  if s.count = 0 then s.goto t x .writeHeld s.word.activeWriteBias else s

def rdunlock (s : RwSt) (t : Nat) (x : RwThread) : RwSt :=
  if s.atomicUpdate (-1) < -1 ∧ s.word.activePart (s.atomicUpdate (-1)) = 0 then
    s.goto t x .wakePending (s.atomicUpdate (-1))
  else s.goto t x .idle (s.atomicUpdate (-1))

def wrunlock (s : RwSt) (t : Nat) (x : RwThread) : RwSt :=
  if s.atomicUpdate (-s.word.activeWriteBias) < 0 then s.goto t x .wakePending (s.atomicUpdate (-s.word.activeWriteBias))
  else s.goto t x .idle (s.atomicUpdate (-s.word.activeWriteBias))

def wr2rdLock (s : RwSt) (t : Nat) (x : RwThread) : RwSt :=
  if s.atomicUpdate (-s.word.waitingBias) < 0 then s.goto t x .downPending (s.atomicUpdate (-s.word.waitingBias))
  else s.goto t x .readHeld (s.atomicUpdate (-s.word.waitingBias))

/-- The loop of `__rwlock_tryrdlock`: reading `count`, then the exchange. -/
def tryRead (s : RwSt) (t : Nat) (x : RwThread) : RwSt :=
  if 0 ≤ s.count then s.goto t x (.tryCas s.count.toNat) s.count else s.goto t x .idle s.count

def tryCas (s : RwSt) (t : Nat) (x : RwThread) (tmp : Nat) : RwSt :=
  if s.count = tmp then s.goto t x .readHeld (s.word.wrap (tmp + activeReadBias)) else s.goto t x .tryRead s.count

/-- The beginning of `rwlock_read_lock_failed` and `rwlock_write_lock_failed`: the event and the waiter are set up,
`wait_lock` is taken and the waiter is added at the tail; `bias` is what the caller has added to `count`. -/
def enqueue (s : RwSt) (t : Nat) (ph : RwPhase) (type : WaiterType) (bias : Int) (added : Int → RwCrit) : RwSt :=
  { s.put t ⟨ph, true, false⟩ with
    waitList := s.waitList ++ [⟨t, type⟩]
    crit := some (t, added (if s.waitList = [] then -bias + s.word.waitingBias else -bias)) }

def readLockFailed (s : RwSt) (t : Nat) : RwSt := s.enqueue t .readAddIn .read activeReadBias .readAdded

def writeLockFailed (s : RwSt) (t : Nat) : RwSt :=
  s.enqueue t .writeAddIn .write s.word.activeWriteBias .writeAdded

/-- `rwlock_wake` and `rwlock_downgrade_wake` up to the call of `__rwlock_do_wake`. -/
def wakeEnter (s : RwSt) (t : Nat) (x : RwThread) (type : WakeType) (k : RwCaller) : RwSt :=
  { s.put t { x with ph := k.phase } with
    crit := some (t, if s.waitList = [] then .ret k else .doWake type k) }

/-- One step of the polling loop of `rwlock_read_lock_failed`; on `NULL` the event is destroyed and the frame left. -/
def readLoop (s : RwSt) (t : Nat) (x : RwThread) : RwSt :=
  if x.event = false then s.goto t x .readHeld s.count else s.goto t x .readWait s.count

/-- A step of a thread that is not inside `wait_lock`. -/
def outside (s : RwSt) (t : Nat) (x : RwThread) : RwPhase → Option RwSt
  | .tryRead => some (s.tryRead t x)
  | .tryCas tmp => some (s.tryCas t x tmp)
  | .readFailed => if s.crit = none then some (s.readLockFailed t) else none
  | .readLoop => some (s.readLoop t x)
  | .readWait => if x.pulsed = true then some (s.put t ⟨.readLoop, x.event, false⟩) else none
  | .writeFailed => if s.crit = none then some (s.writeLockFailed t) else none
  | .writeWait => if x.pulsed = true then some (s.put t ⟨.writeWoken, x.event, false⟩) else none
  | .writeWoken =>
    if s.crit = none then some { s.put t { x with ph := .writeIn } with crit := some (t, .writeLoad) } else none
  | .wakePending => if s.crit = none then some (s.wakeEnter t x .any .wake) else none
  | .downPending => if s.crit = none then some (s.wakeEnter t x .readOwned .down) else none
  | _ => none

/-- The update of `rwlock_read_lock_failed` and its test for waking. -/
def readAdded (s : RwSt) (t : Nat) (x : RwThread) (adjustment : Int) : RwSt :=
  let count := s.atomicUpdate adjustment
  if count = s.word.waitingBias ∨ (count > s.word.waitingBias ∧ adjustment ≠ -activeReadBias) then
    (s.goto t x .readIn count).inside t (.doWake .any .read) count
  else (s.goto t x .readIn count).inside t (.ret .read) count

def writeAdded (s : RwSt) (t : Nat) (x : RwThread) (adjustment : Int) : RwSt :=
  let count := s.atomicUpdate adjustment
  if count > s.word.waitingBias ∧ adjustment = -s.word.activeWriteBias then
    (s.goto t x .writeIn count).inside t (.doWake .readers (.write count)) count
  else (s.goto t x .writeIn count).inside t (.writeTry count) count

/-- The beginning of `__rwlock_do_wake`, on a list that is not empty. -/
def doWake (s : RwSt) (t : Nat) (type : WakeType) (k : RwCaller) : Option RwSt :=
  match s.waitList with
  | [] => none
  | w :: _ =>
    if w.type = .write then
      if type = .any then some ((s.eventPulse w.thread).inside t (.ret k) s.count)
      else some (s.inside t (.ret k) s.count)
    else if type = .readOwned then some (s.inside t (.count 0 k) s.count)
    else some (s.inside t (.grant k) s.count)

def grant (s : RwSt) (t : Nat) (k : RwCaller) : RwSt :=
  if s.atomicUpdate activeReadBias - activeReadBias < s.word.waitingBias then
    s.inside t (.retract k) (s.atomicUpdate activeReadBias)
  else s.inside t (.count 1 k) (s.atomicUpdate activeReadBias)

def retract (s : RwSt) (t : Nat) (k : RwCaller) : RwSt :=
  if s.word.activePart (s.atomicUpdate (-activeReadBias)) ≠ 0 then
    s.inside t (.ret k) (s.atomicUpdate (-activeReadBias))
  else s.inside t (.grant k) (s.atomicUpdate (-activeReadBias))

/-- The readers at the head of the list. -/
def woken (l : List Waiter) : Nat := (l.takeWhile fun w => w.type = .read).length

/-- The bulk grant: all readers at the head, and the waiting bias when no writer is behind them. -/
def countReaders (s : RwSt) (t : Nat) (adjustment : Nat) (k : RwCaller) : RwSt :=
  let adj : Int := woken s.waitList - adjustment
  s.inside t (.clear 0 (woken s.waitList) k)
    (s.atomicUpdate (if woken s.waitList = s.waitList.length then adj - s.word.waitingBias else adj))

def clear (s : RwSt) (t done loop : Nat) (k : RwCaller) : Option RwSt :=
  match s.waitList[done]? with
  | none => none
  | some w => some ((s.eventClear w.thread).inside t (.pulse done (loop - 1) k) s.count)

/-- `k_event_pulse (event)`; after the last one the woken waiters are cut off the list. -/
def pulse (s : RwSt) (t done loop : Nat) (k : RwCaller) : Option RwSt :=
  match s.waitList[done]? with
  | none => none
  | some w =>
    if loop = 0 then
      some { (s.eventPulse w.thread).inside t (.ret k) s.count with waitList := s.waitList.drop (done + 1) }
    else some ((s.eventPulse w.thread).inside t (.clear (done + 1) loop k) s.count)

/-- `__rwlock_do_wake` has returned. -/
def ret (s : RwSt) (t : Nat) (x : RwThread) : RwCaller → RwSt
  | .read => { s.goto t x .readLoop s.count with crit := none }
  | .write count => s.inside t (.writeTry count) s.count
  | .wake => { s.goto t x .idle s.count with crit := none }
  | .down => { s.goto t x .readHeld s.count with crit := none }

/-- The compare-and-exchange of `rwlock_write_lock_failed`. -/
def writeCas (s : RwSt) (t : Nat) (x : RwThread) : RwSt :=
  if s.count = s.word.waitingBias then
    (s.goto t x .writeGotIn s.count).inside t .writeDel
      (if s.waitList.length = 1 then s.word.activeWriteBias else s.word.activeWriteBias + s.word.waitingBias)
  else s.inside t .writeUnlock s.count

def writeDel (s : RwSt) (t : Nat) (x : RwThread) : RwSt :=
  { s.goto t x .writeHeld s.count with waitList := s.waitList.filter (·.thread ≠ t), crit := none }

/-- A step of the holder of `wait_lock`. -/
def critStep (s : RwSt) (t : Nat) (x : RwThread) : RwCrit → Option RwSt
  | .readAdded adj => some (s.readAdded t x adj)
  | .writeAdded adj => some (s.writeAdded t x adj)
  | .doWake type k => s.doWake t type k
  | .grant k => some (s.grant t k)
  | .retract k => some (s.retract t k)
  | .count adj k => some (s.countReaders t adj k)
  | .clear done loop k => s.clear t done loop k
  | .pulse done loop k => s.pulse t done loop k
  | .ret k => some (s.ret t x k)
  | .writeTry count =>
    if s.word.activePart count = 0 then some (s.inside t .writeRead s.count) else some (s.inside t .writeUnlock s.count)
  | .writeRead =>
    if s.count = s.word.waitingBias then some (s.inside t .writeCas s.count)
    else some (s.inside t .writeUnlock s.count)
  | .writeCas => some (s.writeCas t x)
  | .writeDel => some (s.writeDel t x)
  | .writeUnlock => some { s.goto t x .writeWait s.count with crit := none }
  | .writeLoad => some (s.inside t (.writeTry s.count) s.count)

def go (s : RwSt) (t : Nat) (x : RwThread) : Option RwSt :=
  match s.crit with
  | none => s.outside t x x.ph
  | some (u, c) => if u = t then s.critStep t x c else s.outside t x x.ph

def spurious (s : RwSt) (t : Nat) (x : RwThread) : Option RwSt :=
  match x.ph with
  | .readWait => some (s.put t ⟨.readLoop, x.event, false⟩)
  | .writeWait => some (s.put t ⟨.writeWoken, x.event, false⟩)
  | _ => none

def step (s : RwSt) (a : RwAct) : Option RwSt :=
  match s.threads[a.thread]? with
  | none => none
  | some x => match a.op with
    | .rdlock => if x.ph = .idle then some (s.rdlock a.thread x) else none
    | .tryrdlock => if x.ph = .idle then some (s.goto a.thread x .tryRead s.count) else none
    | .wrlock => if x.ph = .idle then some (s.wrlock a.thread x) else none
    | .trywrlock => if x.ph = .idle then some (s.trywrlock a.thread x) else none
    | .rdunlock => if x.ph = .readHeld then some (s.rdunlock a.thread x) else none
    | .wrunlock => if x.ph = .writeHeld then some (s.wrunlock a.thread x) else none
    | .wr2rdLock => if x.ph = .writeHeld then some (s.wr2rdLock a.thread x) else none
    | .go => s.go a.thread x
    | .spurious => s.spurious a.thread x

end RwSt

end Aosl
