import Aosl.Rbtree
import Aosl.Lib.Steps

/-!
# A multiplex queue and its threads, `kernel/mpq.c`

One queue, its own thread and any number of other threads. A thread enters with `__mpq_get`, which
takes a reference while the queue is in `mpq_table`; it links a function object with `____add_f` or
sets `terminated` with `__mpq_destroy`, and leaves with `__mpq_put`. The thread of the queue runs
`__mp_queue_poll_loop` and then `__q_wait_destroy`.

The steps are the critical sections of the code: what happens under `q->lock` is one step, and so is
each access to an atomic or to `q->head` without the lock. A `struct q_func_obj` is its address, its
memory may be reused after `__free_fo`. `ticket`, `linked` and `executed` are not in the code: each
object gets the number of objects linked before it, and `executed` lists the tickets of the objects
whose function has returned.
-/

namespace Aosl
open Lib

/-- A thread that has done `__mpq_get`. -/
inductive Caller where
  /-- It holds its reference; `noFail` and `sync` are the arguments of `____add_f`. -/
  | got (noFail sync : Bool)
  /-- In the `k_cond_wait` of a synchronous `____add_f`; `result` says whether `sync_obj.result` is
  `FO_EXECUTED`. -/
  | waiting (ticket : Nat) (result : Bool)
  /-- `____add_f` returned 0. -/
  | returned (ticket : Nat) (sync : Bool)
  /-- `____add_f` failed, or the thread has done `__mpq_destroy`. -/
  | left
  /-- After `__mpq_put`. -/
  | finished
deriving DecidableEq

/-- Whether the thread holds a reference. -/
def Caller.holds : Caller → Bool
  | finished => false
  | _ => true

/-- The three calls of `__check_and_call_funcs`: in the poll loop and in the two loops of
`__q_wait_destroy`. -/
inductive Site where
  | poll
  | usage
  | final
deriving DecidableEq

/-- Where the thread of the queue is. -/
inductive QPc where
  /-- Timers and fds of the poll loop, before the test of `terminated`. -/
  | events
  /-- `if (q->head != NULL)`. -/
  | check (site : Site)
  | detach (site : Site)
  /-- `while (head != NULL)`, with the local `head` and `count`. -/
  | loop (site : Site) (head : Ptr) (count : Nat)
  /-- The function of `fo` is running. -/
  | call (site : Site) (fo head : Ptr) (count : Nat)
  /-- In `__process_fo` before the wake-up of a synchronous caller. -/
  | wake (site : Site) (syncObj : Option Nat) (head : Ptr) (count : Nat)
  | uninstall
  /-- `while (atomic_read (&q->usage) > 1)`. -/
  | waitUsage
  /-- The `fini` callback. -/
  | fini
  | freed
deriving DecidableEq

structure MpqSt where
  head : Ptr
  tail : Ptr
  next : Ptr → Ptr
  syncObj : Ptr → Option Nat
  live : List Ptr
  count : Nat
  qMax : Nat
  usage : Nat
  installed : Bool
  terminated : Bool
  pc : QPc
  callers : List Caller
  ticket : Ptr → Nat
  linked : Nat
  executed : List Nat

inductive MpqAct where
  /-- `__mpq_get` by a new thread. -/
  | get (noFail sync : Bool)
  /-- The `i`-th thread links the object at `fo`. -/
  | add (i : Nat) (fo : Ptr)
  /-- The queue is full for the `i`-th thread, and it gives up. -/
  | full (i : Nat)
  /-- The `i`-th thread is exiting and adds with its own queue as the done queue: `-AOSL_EPERM`. -/
  | refuse (i : Nat)
  | destroy (i : Nat)
  | resume (i : Nat)
  | put (i : Nat)
  /-- A callback on the thread of the queue links an object to its own queue. -/
  | addSelf (fo : Ptr)
  /-- The thread of the queue goes on. -/
  | queue
deriving DecidableEq

namespace MpqSt

/-- Where the caller of `__check_and_call_funcs` goes with the result. -/
def ret : Site → Nat → QPc
  | .poll, _ => .events
  | .usage, _ => .waitUsage
  | .final, 0 => .fini
  | .final, _ + 1 => .check .final

/-- The critical section of `____add_f`. -/
def link (s : MpqSt) (fo : Ptr) (syncObj : Option Nat) : MpqSt :=
  { s with
    head := if s.tail ≠ 0 then s.head else fo
    tail := fo
    next := fun p => if s.tail ≠ 0 ∧ p = s.tail then fo else if p = fo then 0 else s.next p
    syncObj := fun p => if p = fo then syncObj else s.syncObj p
    live := s.live ++ [fo]
    count := s.count + 1
    ticket := fun p => if p = fo then s.linked else s.ticket p
    linked := s.linked + 1 }

/-- The thread of the queue is in a callback of its owner. -/
def inCallback : QPc → Bool
  | .events => true
  | .call _ _ _ _ => true
  | _ => false

def wakeUp (callers : List Caller) : Option Nat → List Caller
  | none => callers
  | some i => match callers[i]? with
    | some (.waiting k _) => callers.set i (.waiting k true)
    | _ => callers

/-- The next step of the thread of the queue. -/
def queueStep (s : MpqSt) : Option MpqSt :=
  match s.pc with
  | .events => some { s with pc := if s.terminated then .uninstall else .check .poll }
  | .check site => some { s with pc := if s.head ≠ 0 then .detach site else ret site 0 }
  | .detach site => some { s with pc := .loop site s.head 0, head := 0, tail := 0 }
  | .loop site head count =>
    if head = 0 then some { s with pc := ret site count }
    else some { s with pc := .call site head (s.next head) count }
  | .call site fo head count => some { s with
      pc := .wake site (s.syncObj fo) head count
      live := s.live.erase fo
      count := s.count - 1
      executed := s.executed ++ [s.ticket fo] }
  | .wake site syncObj head count => some { s with
      pc := .loop site head (count + 1)
      callers := wakeUp s.callers syncObj }
  | .uninstall => some { s with pc := .waitUsage, installed := false }
  | .waitUsage => some { s with pc := .check (if s.usage > 1 then .usage else .final) }
  | .fini => some { s with pc := .freed }
  | .freed => none

def step (s : MpqSt) : MpqAct → Option MpqSt
  | .get noFail sync =>
    if s.installed then some { s with usage := s.usage + 1, callers := s.callers ++ [.got noFail sync] } else none
  | .add i fo =>
    match s.callers[i]? with
    | some (.got noFail sync) =>
      if fo ≠ 0 ∧ fo ∉ s.live ∧ (noFail ∨ s.count < s.qMax) then
        let s' := s.link fo (if sync then some i else none)
        some { s' with callers := s.callers.set i (if sync then .waiting s.linked false else .returned s.linked false) }
      else none
    | _ => none
  | .full i =>
    match s.callers[i]? with
    | some (.got noFail _) =>
      if ¬noFail ∧ s.qMax ≤ s.count then some { s with callers := s.callers.set i .left } else none
    | _ => none
  | .refuse i =>
    match s.callers[i]? with
    | some (.got _ _) => some { s with callers := s.callers.set i .left }
    | _ => none
  | .destroy i =>
    match s.callers[i]? with
    | some (.got _ _) => some { s with terminated := true, callers := s.callers.set i .left }
    | _ => none
  | .resume i =>
    match s.callers[i]? with
    | some (.waiting k true) => some { s with callers := s.callers.set i (.returned k true) }
    | _ => none
  | .put i =>
    match s.callers[i]? with
    | some (.returned _ _) => some { s with usage := s.usage - 1, callers := s.callers.set i .finished }
    | some .left => some { s with usage := s.usage - 1, callers := s.callers.set i .finished }
    | _ => none
  | .addSelf fo =>
    if inCallback s.pc ∧ fo ≠ 0 ∧ fo ∉ s.live then some (s.link fo none) else none
  | .queue => s.queueStep

/-- `__q_create`, in any memory. The thread starts with the `init` callback of its owner; if that
fails, `terminated` is set. -/
def init (qMax : Nat) (next : Ptr → Ptr) (syncObj : Ptr → Option Nat) (initFailed : Bool) : MpqSt :=
  ⟨0, 0, next, syncObj, [], 0, qMax, 1, true, initFailed, .events, [], fun _ => 0, 0, []⟩

end MpqSt

end Aosl
