import Aosl.IofdFrame
import Aosl.IofdEvents

/-!
# Connecting sockets, `net/sk_utils.c`

`__this_q_connect_argv` registers a socket with `IOFD_NOT_READY` and starts to connect it; the first writable event
tells `event_f` that it is ready, and the timer of `__iofd_not_ready_timeout` gives up. `ConnSt` adds to the queue what
becomes of each connection in the OS and what `event_f` has got of it. `ready`, `errs` and `closes` count the events
`AOSL_IOFD_READY_FOR_WRITING`, the events of `f_event_and_close` and the closes; `told` says that an event of the
failed connection was dispatched or that the timer fired before the socket was ready, and `wrong` that such an event
came to the writable branch with an empty write queue. These five are not in the code.

Of the runs those are kept that are about connecting: the OS reports nothing of a connection in progress, and a
failed one as readable, writable and with an error, of which `os_mp_wait_poll` and `os_mp_wait_select` keep the first
two; reading and writing it fails; the user closes a connection that is not successful from its `event_f` only, and
does not delete it. As in `IofdEvents`, no fd of the rest of the batch or of the iofd in work is registered anew.
-/

namespace Aosl
open Lib

inductive Outcome where
  | pending
  | succeeded
  | failed
deriving DecidableEq

@[ext] structure Conn where
  outcome : Outcome
  ready : Nat
  errs : Nat
  closes : Nat
  told : Bool
  wrong : Bool
deriving DecidableEq

structure ConnSt where
  io : IoSt
  conn : Nat → Option Conn

/-- The result of `aosl_hal_sk_connect`: `AOSL_HAL_RET_EINPROGRESS`, 0 or another error. -/
inductive ConnectRet where
  | inProgress
  | done
  | error
deriving DecidableEq

inductive ConnAct where
  /-- `__this_q_connect_argv`, on the thread of the queue, with an `event_f`. -/
  | connect (fd : Nat) (timer hasChkPkt : Bool) (ret : ConnectRet)
  /-- The OS has connected the socket, or has failed to. -/
  | settle (f : Nat) (ok : Bool)
  /-- Any other step. -/
  | io (a : IoAct)
deriving DecidableEq

namespace IoAct

/-- The steps that call user functions. -/
def calls : IoAct → Bool
  | .go => true
  | .ret _ => true
  | .timeout _ => true
  | _ => false

end IoAct

namespace IoSt

/-- The event the dispatcher is about to apply to `f`. -/
def eventFor (s : IoSt) (f : Nat) : IoAct → Option EventMask
  | .go => match s.pc, s.batch with
    | .next, e :: _ => if s.attached e.fd = some f then some e.mask else none
    | _, _ => none
  | _ => none

end IoSt

namespace Conn

/-- Neither successful nor, for the application, still open. -/
def doomed (c : Conn) : Bool := c.outcome ≠ .succeeded || c.told

/-- What the OS can report. -/
def reports (c : Conn) (backend : Backend) (m : EventMask) : Bool :=
  match c.outcome with
  | .pending => false
  | .succeeded => true
  | .failed => if backend = .epoll then m.pollErr else m.pollIn || m.pollOut

/-- The connection is settled, once. -/
def settle (c : Conn) (ok : Bool) : Conn :=
  if c.outcome = .pending then { c with outcome := if ok then .succeeded else .failed } else c

/-- The step of the queue from `s` to `s'`, as far as it concerns the connection `f`. -/
def after (c : Conn) (s s' : IoSt) (f : Nat) (a : IoAct) : Conn :=
  { c with
    ready := c.ready + match s'.pc with
      | .call .ready g _ => if a.calls && g = f then 1 else 0
      | _ => 0
    errs := c.errs + match s'.pc with
      | .call (.error _) g _ => if a.calls && g = f then 1 else 0
      | _ => 0
    closes := c.closes + if (s.obj f).fd.isSome && (s'.obj f).fd.isNone then 1 else 0
    told := c.told || c.outcome = .failed && (s.eventFor f a).isSome || a = .timeout f && (s.obj f).notReady
    wrong := c.wrong || c.outcome = .failed && (s.obj f).wQ = [] &&
      (s.eventFor f a).any fun m => s.backend ≠ .epoll && m.pollOut }

end Conn

namespace ConnSt

/-- The registration of `__this_q_connect_argv`. -/
def connectOp (s : ConnSt) (fd : Nat) (timer hasChkPkt : Bool) : IoAct :=
  .op (.add fd s.io.qid timer true true hasChkPkt false true true)

/-- The user may close the fd: a connection that is not successful only in its `event_f`. -/
def mayClose (s : ConnSt) (fd : Nat) : Bool :=
  (s.io.attached fd).all fun f => !(s.conn f).any Conn.doomed || match s.io.pc with
    | .call .ready g _ => g = f
    | .call (.error _) g _ => g = f
    | _ => false

/-- The steps of the queue that are kept. -/
def allowed (s : ConnSt) (a : IoAct) : Bool :=
  decide (s.io.AddOk a) && match a with
    | .wait reports => reports.all fun r => (s.conn r.1).all fun c => c.reports s.io.backend r.2
    | .ret v => match s.io.pc with
      | .call .read f _ => (s.conn f).all fun c => c.outcome ≠ .failed || (v < 0 ∧ v ≠ -aoslEAgain)
      | .call .write f _ => (s.conn f).all fun c => c.outcome ≠ .failed || (v < 0 ∧ v ≠ -aoslEAgain)
      | _ => true
    | .op (.close fd _) => s.mayClose fd
    | .op (.del fd) => (s.io.attached fd).all fun f => !(s.conn f).any Conn.doomed
    | _ => true

/-- `__do_connect` for the iofd just registered: with an error the registration is undone, and when the socket is
connected at once `__iofd_write_data` finds an empty write queue and calls `event_f`. -/
def doConnect (s : ConnSt) (fd f : Nat) (io : IoSt) : ConnectRet → ConnSt
  | .inProgress => ⟨io, fun i => if i = f then some ⟨.pending, 0, 0, 0, false, false⟩ else s.conn i⟩
  | .done =>
    let io := io.modify f fun o => { o with notReady := false, timer := false }
    ⟨{ io with trace := io.trace ++ [.invoke .ready f] },
      fun i => if i = f then some ⟨.succeeded, 1, 0, 0, false, false⟩ else s.conn i⟩
  | .error => { s with io := io.doOp (.del fd) }

def step (s : ConnSt) : ConnAct → Option ConnSt
  | .connect fd timer hasChkPkt ret =>
    if s.io.AddOk (s.connectOp fd timer hasChkPkt) then
      (s.io.step (s.connectOp fd timer hasChkPkt)).map fun io =>
        if (s.io.attached fd).isSome then { s with io } else s.doConnect fd s.io.size io ret
    else none
  | .settle f ok => some { s with conn := fun i => if i = f then (s.conn f).map (·.settle ok) else s.conn i }
  | .io a =>
    if s.allowed a then
      (s.io.step a).map fun io => ⟨io, fun f => (s.conn f).map fun c => c.after s.io io f a⟩
    else none

def init (backend : Backend) (qid : Nat) : ConnSt := ⟨.init backend qid, fun _ => none⟩

def run (backend : Backend) (qid : Nat) (acts : List ConnAct) : Option ConnSt := exec step (init backend qid) acts

/-- `event_f` has got `AOSL_IOFD_READY_FOR_WRITING` only for a successful connection; a connection that failed or timed
out gets one negative event and is closed once, and until its failure is dispatched it stays registered. -/
structure Truthful (s : ConnSt) (f : Nat) (c : Conn) : Prop where
  ready : 0 < c.ready → c.outcome = .succeeded
  most : c.outcome = .failed ∨ c.told = true → c.errs ≤ 1 ∧ c.closes ≤ 1
  told : c.told = true → s.io.pc.cur ≠ some f → c.errs = 1 ∧ c.closes = 1 ∧ (s.io.obj f).fd = none
  untold : c.outcome = .failed → c.told = false → s.io.Registered f ∧ c.errs = 0 ∧ c.closes = 0

end ConnSt

end Aosl
