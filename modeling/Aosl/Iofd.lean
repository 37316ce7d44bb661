import Aosl.Lib.Steps

/-!
# Multiplexed fds, `kernel/iofd.c` and the dispatchers

The thread of one queue, the iofds of the whole process, and the other threads as far as they register
and close iofds of other queues. The thread waits for events, dispatches the batch it got, and runs
functions and timers in between; the wait is that of `et_mp.c`, `poll_mp.c` or `select_mp.c`.

`__iofd_read_data`, `__iofd_write_data` and `f_event_and_close` are cut at the calls of the user's
functions: what a callback does is any sequence of operations, what it returns is any value. Of the
buffers only the lengths are kept. An iofd is its index in `obj`, objects are never reused, and
`attached` is the tree `attached_fds`, which finds an iofd by its fd. `trace` and `applied` are not in the
code: `trace` lists the calls of user functions and the successful removals, `applied` says for each
dispatched event which iofd was registered when the wait returned and which one the event was applied
to.
-/

namespace Aosl
open Lib

/-- A `w_buffer_t`: its length and the length of what is left to write. -/
structure WBuffer where
  len : Nat
  left : Nat
deriving DecidableEq

structure Iofd where
  /-- `fobj.fd`, `none` for `AOSL_INVALID_FD`. -/
  fd : Option Nat
  q : Nat
  /-- In the list `q->iofds`. -/
  listed : Bool
  timer : Bool
  hasRead : Bool
  hasWrite : Bool
  hasChkPkt : Bool
  hasPost : Bool
  hasEvent : Bool
  pollIn : Bool
  pollOut : Bool
  notReady : Bool
  readReturn0 : Bool
  /-- `r_tail - r_data`. -/
  rLen : Nat
  wQ : List WBuffer
deriving DecidableEq

structure EventMask where
  pollIn : Bool
  pollOut : Bool
  pollErr : Bool
  pollHup : Bool
deriving DecidableEq

/-- An event of a batch; `origin` is the iofd registered under `fd` on this queue when the wait returned. -/
structure IoEvent where
  fd : Nat
  mask : EventMask
  origin : Option Nat
deriving DecidableEq

inductive Backend where
  | epoll
  | poll
  | select
deriving DecidableEq

/-- The calls of user functions; the calls of `event_f` in `f_event_and_close` come from the dispatcher
or from `__iofd_not_ready_timeout`. -/
inductive CallSite where
  | read
  | write
  | chkPkt
  | post (err : Nat)
  | data (err : Nat)
  | ready
  | error (timeout : Bool)
deriving DecidableEq

/-- Positions between the calls. -/
inductive IoPos where
  /-- The test of `AOSL_POLLOUT`. -/
  | out
  /-- `while (f->w_q.head != NULL)`. -/
  | write
  /-- The test of `AOSL_POLLIN`. -/
  | inn
  /-- The head of the inner loop of `__iofd_read_data`. -/
  | read
  /-- Before `post_f`, before `data_f` and after it. -/
  | post (err : Nat)
  | data (err : Nat) (dataLen : Int)
  | rest (err : Nat)
  /-- Before `read_f`. -/
  | fill
  /-- The test of `AOSL_POLLHUP`. -/
  | hup
  /-- In `f_event_and_close`, after `event_f`. -/
  | close (timeout : Bool)
deriving DecidableEq

inductive IoPc where
  /-- Outside the dispatcher. -/
  | idle
  /-- At the head of the loop over the events. -/
  | next
  | run (pos : IoPos) (f : Nat) (m : EventMask)
  /-- In a function of the user. -/
  | call (site : CallSite) (f : Nat) (m : EventMask)
deriving DecidableEq

inductive IoTrace where
  | invoke (site : CallSite) (f : Nat)
  /-- `aosl_close` or `aosl_mpq_del_fd` on an iofd of this queue returned 0. -/
  | removed (f : Nat)
deriving DecidableEq

structure IoSt where
  backend : Backend
  qid : Nat
  obj : Nat → Iofd
  size : Nat
  attached : Nat → Option Nat
  batch : List IoEvent
  pc : IoPc
  trace : List IoTrace
  applied : List (Option Nat × Nat)

/-- The functions that send output. -/
inductive SendFn where
  | write
  | send
  | sendto
deriving DecidableEq

/-- Operations of the user; `ok` says whether the OS closes the fd, `sent` is the result of the OS. -/
inductive IoOp where
  | close (fd : Nat) (ok : Bool)
  | del (fd : Nat)
  | add (fd q : Nat) (timer hasRead hasWrite hasChkPkt hasPost hasEvent notReady : Bool)
  | send (fn : SendFn) (fd len : Nat) (sent : Int)
deriving DecidableEq

inductive IoAct where
  /-- The wait returns with events for these iofds. -/
  | wait (reports : List (Nat × EventMask))
  /-- The timer of `__iofd_not_ready_timeout` fires. -/
  | timeout (f : Nat)
  /-- The thread of the queue goes on. -/
  | go
  /-- The user function returns. -/
  | ret (v : Int)
  | op (o : IoOp)
deriving DecidableEq

def aoslEAgain : Int := 1011

def fdMaxWbufSize : Nat := 128 * 1024

/-- `w_queue_space`. -/
def wQueueSpace (wQ : List WBuffer) : Nat :=
  let totalLen := wQ.foldl (fun n b => n + b.len) 0
  if totalLen < fdMaxWbufSize then fdMaxWbufSize - totalLen else 0

namespace IoSt

def modify (s : IoSt) (f : Nat) (g : Iofd → Iofd) : IoSt :=
  { s with obj := fun i => if i = f then g (s.obj f) else s.obj i }

def goto (s : IoSt) (pos : IoPos) (f : Nat) (m : EventMask) : IoSt := { s with pc := .run pos f m }

def invoke (s : IoSt) (site : CallSite) (f : Nat) (m : EventMask) : IoSt :=
  { s with pc := .call site f m, trace := s.trace ++ [.invoke site f] }

/-- Where `f_event_and_close` returns to. -/
def leave (s : IoSt) (timeout : Bool) : IoSt := { s with pc := if timeout then .idle else .next }

def detach (s : IoSt) (fd : Nat) : IoSt := { s with attached := fun n => if n = fd then none else s.attached n }

/-- `remove_fd`: what is found under the fd is removed, and it has to be the iofd. -/
def removeFd (s : IoSt) (f : Nat) : IoSt × Bool :=
  match (s.obj f).fd with
  | none => (s, false)
  | some fd => (s.detach fd, s.attached fd = some f)

/-- `__q_del_f` on the thread of the queue `q`; the result says whether it returns 0. -/
def qDelF (s : IoSt) (q f : Nat) : IoSt × Bool :=
  if (s.obj f).q ≠ q then (s, false)
  else
    let (s, ok) := (s.modify f fun o => { o with timer := false }).removeFd f
    if ok then (s.modify f fun o => { o with listed := false }, true) else (s, false)

/-- `__this_q_close_f`. -/
def thisQCloseF (s : IoSt) (q f : Nat) (ok : Bool) : IoSt × Bool :=
  let (s, deleted) := s.qDelF q f
  if deleted then (s.modify f fun o => { o with fd := none }, ok) else (s, false)

/-- `f_event_and_close`, up to the call of `event_f`. -/
def eventAndClose (s : IoSt) (f : Nat) (m : EventMask) (timeout : Bool) : IoSt :=
  if (s.obj f).fd.isSome then
    if (s.obj f).hasEvent then s.invoke (.error timeout) f m else s.goto (.close timeout) f m
  else s.leave timeout

/-- The next step between two calls. -/
def runPos (s : IoSt) (f : Nat) (m : EventMask) : IoPos → IoSt
  | .out =>
    if m.pollOut then
      (s.modify f fun o => if o.notReady then { o with notReady := false, timer := false } else o).goto .write f m
    else s.goto .inn f m
  | .write => match (s.obj f).wQ with
    | _ :: _ => s.invoke .write f m
    | [] => if (s.obj f).hasEvent then s.invoke .ready f m else s.goto .inn f m
  | .inn => if m.pollIn then s.goto .read f m else s.goto .hup f m
  | .read =>
    if (s.obj f).hasChkPkt ∧ (s.obj f).rLen > 0 then s.invoke .chkPkt f m
    else s.goto (.post (s.obj f).rLen) f m
  | .post err =>
    if err > 0 ∨ (s.obj f).readReturn0 then
      if (s.obj f).hasPost then s.invoke (.post err) f m else s.goto (.data err err) f m
    else s.goto (.rest err) f m
  | .data err dataLen =>
    if dataLen ≥ 0 then s.invoke (.data err) f m
    else (s.modify f fun o => { o with rLen := o.rLen - err }).goto (.rest err) f m
  | .rest err =>
    if (s.obj f).readReturn0 then
      if (s.obj f).hasChkPkt then s.goto .hup f m
      else (s.modify f fun o => { o with readReturn0 := false }).goto .fill f m
    else if err = 0 then s.goto .fill f m
    else s.goto .read f m
  | .fill => s.invoke .read f m
  | .hup => if m.pollHup then s.eventAndClose f m false else { s with pc := .next }
  | .close timeout =>
    if (s.obj f).fd.isSome then (s.thisQCloseF s.qid f true).1.leave timeout else s.leave timeout

/-- A user function returns. -/
def retCall (s : IoSt) (f : Nat) (m : EventMask) (v : Int) : CallSite → IoSt
  | .read =>
    let s := s.modify f fun o => { o with pollIn := true }
    if v < 0 then
      if v ≠ -aoslEAgain then s.eventAndClose f m false else s.goto .hup f m
    else if v = 0 then (s.modify f fun o => { o with readReturn0 := true }).goto .read f m
    else (s.modify f fun o => { o with rLen := o.rLen + v.toNat }).goto .read f m
  | .write =>
    let s := s.modify f fun o => { o with pollOut := true }
    if v < 0 then
      if v ≠ -aoslEAgain then s.eventAndClose f m false else s.goto .inn f m
    else match (s.obj f).wQ with
      | [] => s.goto .inn f m
      | b :: rest =>
        if v < b.left then (s.modify f fun o => { o with wQ := ⟨b.len, b.left - v.toNat⟩ :: rest }).goto .inn f m
        else (s.modify f fun o => { o with wQ := rest }).goto .write f m
  | .chkPkt =>
    if (s.obj f).fd.isNone then s.goto .hup f m
    else if v < 0 ∨ v > (s.obj f).rLen then s.eventAndClose f m false
    else s.goto (.post v.toNat) f m
  | .post err => if (s.obj f).fd.isNone then s.goto .hup f m else s.goto (.data err v) f m
  | .data err =>
    if (s.obj f).fd.isNone then s.goto .hup f m
    else (s.modify f fun o => { o with rLen := o.rLen - err }).goto (.rest err) f m
  | .ready => s.goto .inn f m
  | .error timeout => s.goto (.close timeout) f m

/-- The dispatcher takes the next event. -/
def dispatch (s : IoSt) : IoSt :=
  match s.batch with
  | [] => { s with pc := .idle }
  | e :: rest => match s.attached e.fd with
    | none => { s with batch := rest }
    | some f =>
      let s := { s with batch := rest, applied := s.applied ++ [(e.origin, f)] }
      if e.mask.pollErr then s.eventAndClose f e.mask false else s.goto .out f e.mask

/-- The iofd registered under an fd on this queue. -/
def registered (s : IoSt) (fd : Nat) : Option Nat :=
  (s.attached fd).filter fun f => (s.obj f).q = s.qid

/-- What a wait can report about an iofd. The emulations of edge triggering look at the flags. -/
def canReport (s : IoSt) (r : Nat × EventMask) : Bool :=
  let o := s.obj r.1
  o.listed && o.q = s.qid && o.fd.isSome &&
    if s.backend = .epoll then (!r.2.pollOut || o.hasWrite) && (!r.2.pollIn || o.hasRead)
    else (!r.2.pollOut || o.pollOut) && (!r.2.pollIn || o.pollIn) && !r.2.pollErr && !r.2.pollHup

/-- `os_mp_wait_epoll` leaves the flags alone, `os_mp_wait_poll` and `os_mp_wait_select` clear those that are
reported. -/
def report (s : IoSt) (r : Nat × EventMask) : IoSt :=
  if s.backend = .epoll then s
  else s.modify r.1 fun o => { o with pollIn := o.pollIn && !r.2.pollIn, pollOut := o.pollOut && !r.2.pollOut }

def wait (s : IoSt) (reports : List (Nat × EventMask)) : IoSt :=
  { reports.foldl report s with
    batch := reports.map fun r =>
      let fd := (s.obj r.1).fd.getD 0
      ⟨fd, r.2, s.registered fd⟩
    pc := .next }

/-- The functions that send output, on an iofd: `____write` sets `AOSL_POLLOUT` after a direct write,
`____send` and `____sendto` do not. -/
def sendF (s : IoSt) (fn : SendFn) (f len : Nat) (sent : Int) : IoSt :=
  let o := s.obj f
  if len > fdMaxWbufSize then s
  else if wQueueSpace o.wQ < len then s
  else if o.wQ ≠ [] ∨ o.notReady then s.modify f fun o => { o with wQ := o.wQ ++ [⟨len, len⟩] }
  else
    let s := if fn = .write then s.modify f fun o => { o with pollOut := true } else s
    if 0 < sent ∧ sent < len then
      s.modify f fun o => { o with wQ := o.wQ ++ [⟨len - sent.toNat, len - sent.toNat⟩] }
    else s

/-- `__mpq_add_fd_argv`, with `os_add_event_fd`. -/
def addFd (s : IoSt) (fd : Nat) (o : Iofd) : IoSt :=
  if (s.attached fd).isSome then s
  else { s with
    obj := fun i => if i = s.size then o else s.obj i
    size := s.size + 1
    attached := fun n => if n = fd then some s.size else s.attached n }

/-- The queue an operation runs on. -/
def opQueue (s : IoSt) : IoOp → Nat
  | .close fd _ => ((s.attached fd).map fun f => (s.obj f).q).getD s.qid
  | .del fd => ((s.attached fd).map fun f => (s.obj f).q).getD s.qid
  | .add _ q _ _ _ _ _ _ _ => q
  | .send _ fd _ _ => ((s.attached fd).map fun f => (s.obj f).q).getD s.qid

/-- The thread of the queue is in code of the user. -/
def atUser : IoPc → Bool
  | .idle => true
  | .call _ _ _ => true
  | _ => false

def removal (f : Nat) (r : IoSt × Bool) : IoSt :=
  if r.2 ∧ (r.1.obj f).q = r.1.qid then { r.1 with trace := r.1.trace ++ [.removed f] } else r.1

def doOp (s : IoSt) : IoOp → IoSt
  | .close fd ok => match s.attached fd with
    | none => s
    | some f => removal f (s.thisQCloseF (s.obj f).q f ok)
  | .del fd => match s.attached fd with
    | none => s
    | some f => removal f (s.qDelF (s.obj f).q f)
  | .add fd q timer hasRead hasWrite hasChkPkt hasPost hasEvent notReady =>
    let edge := s.backend = .epoll
    s.addFd fd ⟨some fd, q, true, timer && notReady, hasRead, hasWrite, hasChkPkt, hasPost, hasEvent,
      hasRead && !edge, hasWrite && !edge, notReady, false, 0, []⟩
  | .send fn fd len sent => match s.attached fd with
    | none => s
    | some f => s.sendF fn f len sent

def step (s : IoSt) : IoAct → Option IoSt
  | .wait reports =>
    if s.pc = .idle ∧ ∀ r ∈ reports, s.canReport r then some (s.wait reports) else none
  | .timeout f =>
    if s.pc = .idle ∧ f < s.size ∧ (s.obj f).q = s.qid ∧ (s.obj f).timer then
      let s := s.modify f fun o => { o with timer := false }
      some (if (s.obj f).notReady then s.eventAndClose f ⟨false, false, false, false⟩ true else s)
    else none
  | .go => match s.pc with
    | .next => some s.dispatch
    | .run pos f m => some (s.runPos f m pos)
    | _ => none
  | .ret v => match s.pc with
    | .call site f m => some (s.retCall f m v site)
    | _ => none
  | .op o => if s.opQueue o = s.qid → atUser s.pc then some (s.doOp o) else none

/-- A queue without iofds. -/
def init (backend : Backend) (qid : Nat) : IoSt :=
  ⟨backend, qid, fun _ => ⟨none, 0, false, false, false, false, false, false, false, false, false, false, false, 0, []⟩, 0,
    fun _ => none, [], .idle, [], []⟩

end IoSt

end Aosl
