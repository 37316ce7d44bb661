import Aosl.Lib.Fifo
import Aosl.Lib.Steps
import Mathlib.Logic.Function.Basic

/-!
# The write queue of an iofd

`____write` and `____send` write to the OS as long as nothing waits in the queue, and queue what the OS has not taken;
`__iofd_write_data` writes from the queue when the fd is writable. They all run on the thread of the queue of the iofd.
The nodes are linked through `next`; of a node, `mem` are the bytes from `b + 1` to `w_tail`, and `wData` is the offset
of `w_data` in them.

The results of the HAL are inputs. When the queue has been written, `event_f` is told so, and may make calls. `accepted`
are the bytes the OS has taken, `calls` the buffers of the calls with what the calls have returned.

The code tests what `aosl_malloc` returns, and so do the functions here (`malloc`). But `aosl_malloc` calls `abort` when
there is no memory and never returns `NULL`, so in a run (`step`) the test always succeeds.
-/

namespace Aosl
open Lib

/-- What the HAL returns for a write: a number of bytes, or an error. -/
inductive HalRes where
  | sent (n : Nat)
  | eagain
  | eintr
  | einprogress
  | ehal
deriving DecidableEq

/-- `aosl_hal_set_error`. -/
def halSetError : HalRes → Int
  | .sent _ => 0
  | .eagain => -1011
  | .eintr => -1004
  | .einprogress => -1115
  | .ehal => -2000

structure WNode (β : Type) where
  next : Option Nat
  mem : List β
  wData : Nat
  /-- `w_extra_size`. -/
  extra : Nat

structure WSt (β : Type) where
  node : Nat → WNode β
  /-- The nodes from here on are not allocated yet. -/
  fresh : Nat
  head : Option Nat
  tail : Option Nat
  count : Nat
  totalLen : Nat
  notReady : Bool
  pollOut : Bool
  /-- `f_event_and_close` was called. -/
  closed : Bool
  accepted : List β
  calls : List (List β × Int)

inductive WAct (β : Type) where
  | write (buf : List β) (res : HalRes)
  | send (buf : List β) (res : HalRes)
  /-- The fd is writable, with the results of `write_f` up to the first `-AOSL_EAGAIN`. -/
  | writable (results : List HalRes)

namespace WNode

variable {β : Type} (b : WNode β)

/-- The bytes from `w_data` to `w_tail`. -/
def pending : List β := b.mem.drop b.wData

end WNode

namespace WSt

variable {β : Type} (s : WSt β)

def init (notReady : Bool) : WSt β :=
  ⟨fun _ => ⟨none, [], 0, 0⟩, 0, none, none, 0, 0, notReady, false, false, [], []⟩

def setNode (i : Nat) (f : WNode β → WNode β) : WSt β := { s with node := Function.update s.node i (f (s.node i)) }

/-- `w_queue_add`. -/
def wQueueAdd (b : Nat) : WSt β :=
  let s' := s.setNode b fun n => { n with next := none }
  let s' := match s'.tail with
    | some t => s'.setNode t fun n => { n with next := some b }
    | none => { s' with head := some b }
  { s' with tail := some b, count := s'.count + 1, totalLen := s'.totalLen + (s.node b).mem.length }

/-- `w_queue_remove_head`, of the node `b` at the head. -/
def wQueueRemoveHead (b : Nat) : WSt β :=
  { s with
    head := (s.node b).next
    tail := if (s.node b).next = none then none else s.tail
    count := s.count - 1
    totalLen := s.totalLen - (s.node b).mem.length }.setNode b fun n => { n with next := none }

/-- `w_queue_space`, with `FD_MAX_WBUF_SIZE`. -/
def wQueueSpace : Nat := if s.totalLen < 131072 then 131072 - s.totalLen else 0

/-- The OS takes these bytes. -/
def accept (bytes : List β) : WSt β := { s with accepted := s.accepted ++ bytes }

/-- A new node for the bytes `rest`. -/
def alloc (rest : List β) (extra : Nat) : WSt β :=
  { s with node := Function.update s.node s.fresh ⟨none, rest, 0, extra⟩, fresh := s.fresh + 1 }

/-- From the label `__queue_it` on: `rest` is what the OS has not taken. -/
def queueIt (len : Nat) (rest : List β) (extra : Nat) (malloc : Bool) : Int × WSt β :=
  if malloc then (len, (s.alloc rest extra).wQueueAdd s.fresh) else (-1012, s)

/-- The part of `____write` and `____send` that writes to the OS. -/
def writeNow (buf : List β) (extra : Nat) (malloc : Bool) : HalRes → Int × WSt β
  | .sent n =>
    if min n buf.length = 0 then (halSetError (.sent 0), s)
    else if n < buf.length then (s.accept (buf.take n)).queueIt buf.length (buf.drop n) extra malloc
    else (buf.length, s.accept buf)
  | err => (halSetError err, s)

/-- `____write` and `____send`; `setPoll` says that the flag `AOSL_POLLOUT` is set after the write. -/
def put (extra : Nat) (setPoll : Bool) (buf : List β) (res : HalRes) (malloc : Bool) : Int × WSt β :=
  if buf.length > 131072 then (-1090, s)
  else if s.wQueueSpace < buf.length then (-1011, s)
  else if s.head.isSome || s.notReady then s.queueIt buf.length buf extra malloc
  else { s with pollOut := s.pollOut || setPoll }.writeNow buf extra malloc res

/-- `____write`. -/
def write (buf : List β) (res : HalRes) (malloc : Bool) : Int × WSt β := s.put 0 true buf res malloc

/-- `____send`; the node keeps the flags behind its bytes. -/
def send (buf : List β) (res : HalRes) (malloc : Bool) : Int × WSt β := s.put 4 false buf res malloc

/-- `write_f` has taken `n` bytes of the node. -/
def writeNode (b n : Nat) : WSt β :=
  { s with pollOut := true, accepted := s.accepted ++ (s.node b).pending.take n }.setNode b fun node =>
    { node with wData := node.wData + min n node.pending.length }

/-- The loop of `__iofd_write_data`. -/
def writeLoop : WSt β → List HalRes → WSt β
  | s, [] => s
  | s, res :: results => match s.head, res with
    | none, _ => s
    | some b, .sent n =>
      if ((s.writeNode b n).node b).wData < ((s.writeNode b n).node b).mem.length then s.writeNode b n
      else ((s.writeNode b n).wQueueRemoveHead b).writeLoop results
    | some _, .eagain => { s with pollOut := true }
    | some _, _ => { s with pollOut := true, closed := true }

/-- `__iofd_write_data`. -/
def writeData (results : List HalRes) : WSt β := { s with notReady := false }.writeLoop results

/-- The call has returned. -/
def log (buf : List β) (r : Int × WSt β) : WSt β := { r.2 with calls := r.2.calls ++ [(buf, r.1)] }

def step : WAct β → Option (WSt β)
  | .write buf res => some (log buf (s.write buf res true))
  | .send buf res => some (log buf (s.send buf res true))
  | .writable results => some (s.writeData results)

def run (notReady : Bool) (as : List (WAct β)) : Option (WSt β) := exec step (init notReady) as

/-- The buffers of the calls that have returned their full length. -/
def full : List β := ((s.calls.filter fun c => c.2 = c.1.length).map Prod.fst).flatten

/-- The queue is the list `l` of nodes, and no byte is lost, duplicated or out of its order. -/
structure Intact (l : List Nat) : Prop where
  links : Seg id (fun b => (s.node b).next) l none
  head : s.head = l.head?
  tail : s.tail = l.getLast?
  count : s.count = l.length
  totalLen : s.totalLen = (l.map fun b => (s.node b).mem).flatten.length
  bound : s.totalLen ≤ 131072
  bytes : s.accepted ++ (l.map fun b => (s.node b).pending).flatten = s.full

/-- The OS is written to, and takes a part of the buffer only. -/
def PartWritten (buf : List β) : HalRes → Prop
  | .sent n => buf.length ≤ s.wQueueSpace ∧ s.head = none ∧ s.notReady = false ∧ 0 < n ∧ n < buf.length
  | _ => False

end WSt

end Aosl
