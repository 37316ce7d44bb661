import Aosl.MpqBound
import Aosl.WQueueRun

/-!
# Operations on an fd of another queue

`aosl_write`, `aosl_send`, `aosl_sendto`, `aosl_close`, `aosl_mpq_del_fd` and `aosl_mpq_add_fd_on_q` are made on any
thread: they look the iofd and its queue up, and have the thread of that queue do the work with `__mpq_call_argv`, which
waits for the result. The call is made at once on the thread of the queue itself. Otherwise it is queued by `____add_f`:
when the queue is full, the caller waits, or is refused if the queue does not block or the caller's own queue is
terminated.

A call is described by what it finds; `q` is the state of the target queue when `____add_f` last looked at it. The write
queue of the iofd is that of `WSt`, and `malloc` as there: the `aosl_malloc` of the source aborts and returns no `NULL`, so
what is said of `malloc = false` is of branches that are dead.
-/

namespace Aosl
open Lib

/-- `IS_ERR_VALUE`. -/
def isErrValue (err : Int) : Bool := -4095 ≤ err && err < 0

/-- `return_err`. -/
def returnErr (err : Int) : Int := if isErrValue err then -1 else err

/-- What `____target_q_del_fd` finds: `f->q` is the queue, and `remove_fd` finds `f`. -/
structure DelView where
  ownQ : Bool
  registered : Bool
deriving DecidableEq

/-- The tests of `__mpq_add_fd_argv`, in order; `add` is the result of `os_add_event_fd`. -/
structure AddView where
  sigpEvent : Bool
  sizeOk : Bool
  dataF : Bool
  unknown : Bool
  malloc : Bool
  free : Bool
  add : HalRes
deriving DecidableEq

inductive FdOp (β : Type) where
  | write (buf : List β) (res : HalRes) (malloc : Bool)
  | send (buf : List β) (res : HalRes) (malloc : Bool)
  | sendto (buf : List β) (res : HalRes) (malloc : Bool)
  | close (v : DelView) (res : HalRes)
  | delFd (v : DelView)
  | addFdOnQ (v : AddView)

/-- `__q_del_f`. -/
def DelView.qDelF (v : DelView) : Int := if !v.ownQ then -1001 else if !v.registered then -1064 else 0

/-- `__this_q_close_f`. -/
def DelView.thisQCloseF (v : DelView) (res : HalRes) : Int := if v.qDelF < 0 then v.qDelF else halSetError res

/-- `__mpq_add_fd_argv`. -/
def AddView.addFd (v : AddView) : Int :=
  if v.sigpEvent then -1001
  else if !v.sizeOk then -1022
  else if !v.dataF then -1022
  else if !v.unknown then -1017
  else if !v.malloc then -1012
  else if !v.free then -1016
  else halSetError v.add

namespace FdOp

variable {β : Type}

/-- The function on the target queue: what it returns, what it does to the write queue, and whether it has done what it
is for. -/
def target : FdOp β → WSt β → Int × WSt β × Bool
  | write buf res malloc, s => ((s.write buf res malloc).1, (s.write buf res malloc).2, true)
  | send buf res malloc, s => ((s.send buf res malloc).1, (s.send buf res malloc).2, true)
  | sendto buf res malloc, s => ((s.put 32 false buf res malloc).1, (s.put 32 false buf res malloc).2, true)
  | close v res, s => (v.thisQCloseF res, s, v.thisQCloseF res = 0)
  | delFd v, s => (v.qDelF, s, v.qDelF = 0)
  | addFdOnQ v, s => (v.addFd, s, v.addFd = 0)

/-- The result for an fd that is not registered: it has no queue, and `aosl_close` closes it at once. -/
def unknown : FdOp β → Int
  | delFd _ => -1009
  | close _ res => halSetError res
  | _ => -1022

/-- The functions that look the fd up. -/
def looksUp : FdOp β → Bool
  | addFdOnQ _ => false
  | _ => true

end FdOp

structure FdCall (β : Type) where
  op : FdOp β
  /-- `iofd_get` finds the iofd; the queue is found. -/
  found : Bool
  qFound : Bool
  /-- The call is made on the thread of the queue. -/
  same : Bool
  q : BoundSt
  /-- The queue of the calling thread is terminated. -/
  terminated : Bool

namespace FdCall

variable {β : Type} (c : FdCall β)

/-- `__mpq_call_argv`: the function is called, or the value of `aosl_errno`; `none` while the caller waits. -/
def callArgv : Option (Option Int) :=
  if c.same then some none
  else if c.q.count < c.q.qMax then some none
  else if c.q.nonblock then some (some 1011)
  else if c.terminated then some (some 1004)
  else none

/-- What the caller gets, the write queue after it, and whether the work was done, on the queue if there is one. When the
call cannot be queued, `err = aosl_errno`. -/
def result (s : WSt β) : Option (Int × WSt β × Bool) :=
  if c.op.looksUp && !c.found then some (returnErr c.op.unknown, s, c.op.unknown = 0)
  else if !c.qFound then some (returnErr (-1022), s, false)
  else match c.callArgv with
    | none => none
    | some (some errno) => some (returnErr errno, s, false)
    | some none => some (returnErr (c.op.target s).1, (c.op.target s).2.1, (c.op.target s).2.2)

end FdCall

namespace WSt

variable {β : Type}

/-- The bytes that were taken from the callers so far, by the OS or into the queue. -/
def Holds (s : WSt β) (bs : List β) : Prop := ∃ l, s.Queue l ∧ s.accepted ++ s.pending l = bs

end WSt

namespace FdOp

variable {β : Type}

/-- The call has told the truth: with a negative result no byte was taken, else all of them; the other operations
return 0 only if they are done, and nothing positive. -/
def Truthful (s s' : WSt β) (done : Bool) (ret : Int) : FdOp β → Prop
  | write buf _ _ | send buf _ _ | sendto buf _ _ =>
    ∃ bs, s.Holds bs ∧ (ret < 0 ∧ s'.Holds bs ∨ ret = buf.length ∧ s'.Holds (bs ++ buf))
  | close .. | delFd _ | addFdOnQ _ => ret ≤ 0 ∧ (ret = 0 → done)

/-- The buffer is not empty, and the HAL does not return 0 for it. -/
def Sends : FdOp β → Prop
  | write buf res _ | send buf res _ | sendto buf res _ => 1 ≤ buf.length ∧ res ≠ .sent 0
  | close .. | delFd _ | addFdOnQ _ => True

/-- If the OS has taken a part of the buffer, there is memory for the rest. -/
def RestFits (s : WSt β) : FdOp β → Prop
  | write buf res malloc | send buf res malloc | sendto buf res malloc => s.PartWritten buf res → malloc = true
  | close .. | delFd _ | addFdOnQ _ => True

end FdOp

/-- The request can be served: no queue is to be asked, or it has room or is that of the caller; and the rest of a
buffer can be kept. -/
def FdCall.Served {β : Type} (c : FdCall β) (s : WSt β) : Prop :=
  (c.op.looksUp → c.found) → c.qFound → (c.same ∨ c.q.count < c.q.qMax) ∧ c.op.RestFits s

/-- What happens to an iofd: calls from any thread, and events on its own. -/
inductive FdAct (β : Type) where
  | call (c : FdCall β)
  | writable (results : List HalRes)

namespace FdAct

variable {β : Type}

def step (s : WSt β) : FdAct β → Option (WSt β)
  | call c => (c.result s).map fun r => r.2.1
  | writable results => some (s.writeData results)

def run (notReady : Bool) (as : List (FdAct β)) : Option (WSt β) := exec step (WSt.init notReady) as

end FdAct

end Aosl
