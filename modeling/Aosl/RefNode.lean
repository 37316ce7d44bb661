import Aosl.Lib.Lists
import Aosl.Lib.Steps

/-!
# The lock counts of a ref object, `kernel/refobj.c`

One ref object, with the `struct robj_thread_node` of each thread that has one: what is in `thread_nodes` for a thread is
its `node`. A call is cut at each lock, at each access to `destroyed` and to the table, and where it has found its node:
from then to `__thread_node_put` only `usage` keeps the node in the tree, and what the call does to its counts in between
is one step with the put. The clean-up takes `thread_nodes_lock` and visits nodes; which ones and in which order is open.

`stop_lock` is its mutex `lk` with `rd2wrlock_count` and the raw lock, of which a thread has `reads` by
`refobj_thread_rdlock`, `queueReads` by a queue that runs a function with the object, and `write`. That the object lives as
long as there is a reference to it, and the wait for it in `aosl_ref_destroy`, are left out.
-/

namespace Aosl
open Lib

namespace RefNode

/-- The arguments of `aosl_ref_create`. -/
structure Cfg where
  modifyAsync : Bool
  recursive : Bool
  callerFree : Bool
deriving DecidableEq

/-- `struct robj_thread_node`. -/
structure Node where
  usage : UInt32
  getCount : UInt32
  lockCount : BitVec 32
  activeTs : UInt64
deriving DecidableEq

namespace Node

/-- `thread_rdlock_count`. -/
def rdlockCount (n : Node) : BitVec 32 := n.lockCount &&& 0x7fffffff

/-- `thread_wrlocked`. -/
def wrlocked (n : Node) : Bool := n.lockCount &&& 0x80000000 ≠ 0

/-- `thread_lock_free`. -/
def lockFree (n : Node) : Bool := n.lockCount = 0

/-- The condition of `__check_erase_node`. -/
def idleSince (n : Node) (now : UInt64) : Bool :=
  n.usage = 1 ∧ n.getCount = 0 ∧ n.lockFree ∧ 60000 ≤ ((now - n.activeTs).toBitVec.setWidth 32).toInt

/-- `__thread_node_get`, and the time that `robj_this_thread_node_get` writes. -/
def get (n : Node) (now : UInt64) : Node := { n with usage := n.usage + 1, activeTs := now }

/-- `__thread_node_put`. -/
def put (n : Node) : Option Node := if n.usage - 1 = 0 then none else some { n with usage := n.usage - 1 }

end Node

/-- What a thread calls: `aosl_ref_hold`, `aosl_ref_read`, `aosl_ref_write`, the execution of a queued function that
carries the ref, and `aosl_ref_destroy`. -/
inductive Call where
  | hold
  | read
  | write
  | invoke
  | destroy (del : Bool)
deriving DecidableEq

/-- A call with what it has found out about the thread: `locked` and `rdlocked` as in the code; a read is not `locked` on
the queue that has the lock already. -/
inductive Op where
  | hold
  | read (locked : Bool)
  | write (rdlocked : Bool)
  | invoke (locked : Bool)
  | destroy (del : Bool)
deriving DecidableEq

/-- What a call wants its node for. -/
inductive Use where
  /-- `get_count++` of `refobj_get`. -/
  | inc
  | lock
  | unlock
  /-- `get_count--` of `refobj_put`. -/
  | dec
  /-- `aosl_ref_destroy` looks at the counts. -/
  | look
deriving DecidableEq

/-- The argument `create` of `robj_this_thread_node_get`. -/
def Use.create : Use → Bool
  | inc | lock => true
  | unlock | dec | look => false

inductive Stage where
  /-- Before the look at the table. -/
  | get
  -- `robj_this_thread_node_get` and what follows it
  | find (u : Use)
  | insert (u : Use)
  | use (u : Use)
  -- before `stop_lock` is taken, in `k_rwlock_rdlock`, `k_rwlock_wrlock` and `k_rwlock_rd2wrlock`
  | rdRaw
  | invokeRaw
  | wrWant
  | wrTry
  | upTry
  | upDrop
  | upWait
  /-- Before the look at `destroyed`. -/
  | check
  -- before it is given back, in `k_rwlock_rdunlock`, `k_rwlock_wrunlock` and `k_rwlock_wr2rdlock`
  | rdUnraw
  | invokeUnraw
  | wrUnraw
  | wrUnlk
  | dnWait
  | dnUnlk
  -- `refobj_lock_threads_cleanup`
  | cleanup
  | cleanWant
  | cleaning
  -- `aosl_ref_destroy`: before `__refobj_id_uninstall`, before `destroyed` is set
  | uninstall
  | set
deriving DecidableEq

/-- `refused`: the call has found the object destroyed. -/
inductive Pc where
  | idle
  | busy (op : Op) (st : Stage) (refused : Bool)
deriving DecidableEq

/-- `stack` holds the calls of the thread whose functions run, innermost first. -/
structure Thread where
  stack : List Op
  pc : Pc
  node : Option Node
  reads : Nat
  queueReads : Nat
  write : Bool
deriving DecidableEq

/-- The calls of `abort`. -/
inductive Abort where
  /-- `robj_this_thread_node_get`, without memory. -/
  | noMem
  -- `refobj_thread_rdlock`
  | readInWrite
  | readInRead
  /-- `refobj_thread_wrlock`. -/
  | writeInLock
  -- `refobj_thread_rdunlock`, `refobj_thread_wrunlock`, `refobj_put`
  | rdunlockNoNode
  | wrunlockNoNode
  | putNoNode
  /-- `refobj_wrlock`. -/
  | upgradeRefused
  -- `aosl_ref_destroy`
  | destroyOnQ
  | destroyInRead
  /-- `k_rwlock_rd2wrlock`. -/
  | twoUpgrades
deriving DecidableEq

structure St where
  installed : Bool
  destroyed : Bool
  lk : Option Nat
  rd2wrlockCount : Nat
  /-- Who has `thread_nodes_lock` for the clean-up. -/
  cleaner : Option Nat
  threads : List Thread
  aborted : Option Abort
deriving DecidableEq

/-- What a step finds: the time, whether `aosl_malloc` succeeds, and the thread whose node the traversal visits next. -/
structure Env where
  now : UInt64
  mem : Bool
  visit : Option Nat
deriving DecidableEq

inductive Act where
  /-- The thread calls a function, from none or from one that runs with the object. -/
  | start (t : Nat) (c : Call)
  /-- The innermost of these functions returns. -/
  | ret (t : Nat)
  | go (t : Nat) (env : Env)
deriving DecidableEq

/-- `refobj_on_this_q`. -/
def onThisQ (stack : List Op) : Bool := stack.any fun op => op = .invoke true ∨ op = .invoke false

/-- The queue of the thread has the read lock. -/
def Cfg.onLockedQ (cfg : Cfg) (stack : List Op) : Bool := onThisQ stack && !cfg.modifyAsync

def Call.op (cfg : Cfg) (stack : List Op) : Call → Op
  | hold => .hold
  | read => .read !cfg.onLockedQ stack
  | write => .write (cfg.onLockedQ stack)
  | invoke => .invoke !cfg.modifyAsync
  | destroy del => .destroy del

namespace Thread

def goto (x : Thread) (op : Op) (st : Stage) (refused : Bool) : Thread := { x with pc := .busy op st refused }

/-- The function of the call runs. -/
def run (x : Thread) (op : Op) : Thread := { x with stack := op :: x.stack, pc := .idle }

/-- The call with the object, after `refobj_get`. -/
def enter (x : Thread) (op : Op) : Thread :=
  match op with
  | .hold | .read false => x.run op
  | .read true | .write _ => x.goto op (.find .lock) false
  | .invoke true => x.goto op .invokeRaw false
  | .invoke false => x.goto op .check false
  | .destroy _ => x.goto op (.find .look) false

/-- `refobj_put`. -/
def put (x : Thread) (cfg : Cfg) (op : Op) (refused : Bool) : Thread :=
  if cfg.callerFree then x.goto op (.find .dec) refused else { x with pc := .idle }

/-- The function of the call has returned. -/
def ret (x : Thread) (cfg : Cfg) (op : Op) : Thread :=
  match op with
  | .hold | .destroy _ => x.put cfg op false
  | .read _ => if cfg.onLockedQ x.stack then x.put cfg op false else x.goto op (.find .unlock) false
  | .write _ => x.goto op (.find .unlock) false
  | .invoke locked => if locked then x.goto op .invokeUnraw false else x.put cfg op false

end Thread

namespace St

def init (n : Nat) : St := ⟨true, false, none, 0, none, List.replicate n ⟨[], .idle, none, 0, 0, false⟩, none⟩

/-- Nobody has the raw lock for writing. -/
def noWriter (s : St) : Bool := s.threads.all fun x => !x.write

/-- Nobody has the raw lock. -/
def free (s : St) : Bool := s.threads.all fun x => x.reads = 0 ∧ x.queueReads = 0 ∧ x.write = false

def setThread (s : St) (t : Nat) (x : Thread) : St := { s with threads := s.threads.set t x }

def abort (s : St) (a : Abort) : St := { s with aborted := some a }

variable (s : St) (cfg : Cfg) (t : Nat) (x : Thread) (op : Op) (refused : Bool) (env : Env)

/-- The look at the table in `__refobj_get`, and the first check of `aosl_ref_destroy`. -/
def get : St :=
  if s.installed then
    match op with
    | .destroy _ => if cfg.onLockedQ x.stack then s.abort .destroyOnQ else s.setThread t (x.enter op)
    | _ => s.setThread t (if cfg.callerFree then x.goto op (.find .inc) false else x.enter op)
  else s.setThread t { x with pc := .idle }

/-- `robj_this_thread_node_get`: the search, and what is done where there is no node. -/
def find (u : Use) : St :=
  match x.node with
  | some n => s.setThread t { x with node := some (n.get env.now), pc := .busy op (.use u) refused }
  | none =>
    if u.create then s.setThread t (x.goto op (.insert u) refused)
    else match u, op with
      | .unlock, .write _ => s.abort .wrunlockNoNode
      | .unlock, _ => s.abort .rdunlockNoNode
      | .dec, _ => s.abort .putNoNode
      | _, _ => s.setThread t (x.goto op .uninstall refused)

/-- `robj_this_thread_node_get`: the new node. -/
def insert (u : Use) : St :=
  if env.mem then s.setThread t { x with node := some ⟨2, 0, 0, env.now⟩, pc := .busy op (.use u) refused }
  else s.abort .noMem

/-- `refobj_thread_rdlock` with the node. -/
def rdlock (n : Node) : St :=
  if n.wrlocked then s.abort .readInWrite
  else if !cfg.recursive && n.rdlockCount ≠ 0 then s.abort .readInRead
  else
    let n := { n with lockCount := n.lockCount + 1 }
    let st := if n.rdlockCount = 1 then .rdRaw else .check
    s.setThread t { x with node := n.put, pc := .busy op st refused }

/-- `refobj_thread_rdunlock` with the node. -/
def rdunlock (n : Node) : St :=
  let n := { n with lockCount := n.lockCount - 1 }
  let st := if n.rdlockCount = 0 then .rdUnraw else .cleanup
  s.setThread t { x with node := n.put, pc := .busy op st refused }

/-- `refobj_thread_wrlock` with the node. -/
def wrlock (n : Node) (rdlocked : Bool) : St :=
  if n.lockFree then
    let st := if rdlocked then .upTry else .wrWant
    s.setThread t { x with node := { n with lockCount := 0x80000000 }.put, pc := .busy op st refused }
  else s.abort .writeInLock

/-- What a call does to its node, and `__thread_node_put`. -/
def use (n : Node) : Use → St
  | .inc => s.setThread t ({ x with node := { n with getCount := n.getCount + 1 }.put }.enter op)
  | .dec => s.setThread t { x with node := { n with getCount := n.getCount - 1 }.put, pc := .idle }
  | .lock => match op with
    | .write rdlocked => s.wrlock t x op refused n rdlocked
    | _ => s.rdlock cfg t x op refused n
  | .unlock => match op with
    | .write _ =>
      s.setThread t { x with node := { n with lockCount := 0 }.put, pc := .busy op .wrUnraw refused }
    | _ => s.rdunlock t x op refused n
  | .look =>
    if n.rdlockCount = 0 then s.setThread t { x with node := n.put, pc := .busy op .uninstall refused }
    else s.abort .destroyInRead

/-- The look at `destroyed`. -/
def check : St :=
  match op with
  | .destroy _ => s.setThread t (if s.destroyed then { x with pc := .idle } else x.goto op .wrWant refused)
  | .invoke locked =>
    s.setThread t <|
      if !s.destroyed then x.run op else if locked then x.goto op .invokeUnraw true else x.put cfg op true
  | _ => s.setThread t (if s.destroyed then x.goto op (.find .unlock) true else x.run op)

/-- After `refobj_thread_rdunlock` and `refobj_thread_wrunlock`. -/
def unlocked (s : St) (cfg : Cfg) (t : Nat) (x : Thread) (op : Op) (refused : Bool) : St :=
  if op = .write true ∧ refused then s.abort .upgradeRefused else s.setThread t (x.put cfg op refused)

/-- `__check_erase_node` for the node of `v`. -/
def checkErase (s : St) (now : UInt64) (v : Nat) : St :=
  match s.threads[v]? with
  | none => s
  | some y => match y.node with
    | none => s
    | some n => if n.idleSince now then s.setThread v { y with node := n.put } else s

/-- The steps that take, try and give back `stop_lock`. -/
def lockStep : Stage → Option St
  | .rdRaw => if s.noWriter then some (s.setThread t { x with reads := x.reads + 1, pc := .busy op .check refused }) else none
  | .invokeRaw =>
    if s.noWriter then some (s.setThread t { x with queueReads := x.queueReads + 1, pc := .busy op .check refused }) else none
  | .wrWant => if s.lk = none then some { s.setThread t (x.goto op .wrTry refused) with lk := some t } else none
  | .wrTry =>
    if s.free then
      let st := match op with | .destroy _ => .set | _ => .check
      some (s.setThread t { x with write := true, pc := .busy op st refused })
    else some { s.setThread t (x.goto op .wrWant refused) with lk := none }
  | .upTry =>
    if s.lk = none then some { s.setThread t (x.goto op .upDrop refused) with lk := some t }
    else if s.rd2wrlockCount ≠ 0 then some (s.abort .twoUpgrades)
    else some s
  | .upDrop =>
    some { s.setThread t { x with queueReads := x.queueReads - 1, pc := .busy op .upWait refused } with rd2wrlockCount := 1 }
  | .upWait => if s.free then some (s.setThread t { x with write := true, pc := .busy op .check refused }) else none
  | .rdUnraw => some (s.setThread t { x with reads := x.reads - 1, pc := .busy op .cleanup refused })
  | .invokeUnraw => some (s.setThread t ({ x with queueReads := x.queueReads - 1 }.put cfg op refused))
  | .wrUnraw =>
    let st := if op = .write true then .dnWait else .wrUnlk
    some (s.setThread t { x with write := false, pc := .busy op st refused })
  | .wrUnlk =>
    let x := match op with | .destroy _ => { x with pc := .idle } | _ => x.goto op .cleanup refused
    some { s.setThread t x with lk := none }
  | .dnWait =>
    if s.noWriter then some (s.setThread t { x with queueReads := x.queueReads + 1, pc := .busy op .dnUnlk refused }) else none
  | .dnUnlk => some { s.setThread t (x.goto op .cleanup refused) with lk := none, rd2wrlockCount := 0 }
  | _ => none

/-- A step of the call `op` of the thread `t`, which is `x`. -/
def advance (st : Stage) : Option St :=
  match st with
  | .get => some (s.get cfg t x op)
  | .find u => if s.cleaner = none then some (s.find t x op refused env u) else none
  | .insert u => if s.cleaner = none then some (s.insert t x op refused env u) else none
  | .use u => x.node.map fun n => s.use cfg t x op refused n u
  | .check => some (s.check cfg t x op refused)
  | .cleanup =>
    if 64 < s.threads.countP (·.node.isSome) then some (s.setThread t (x.goto op .cleanWant refused))
    else some (s.unlocked cfg t x op refused)
  | .cleanWant =>
    if s.cleaner = none then some { s.setThread t (x.goto op .cleaning refused) with cleaner := some t } else none
  | .cleaning => match env.visit with
    | some v => some (s.checkErase env.now v)
    | none => some ({ s with cleaner := none }.unlocked cfg t x op refused)
  | .uninstall => match op with
    | .destroy true =>
      if s.installed then some { s.setThread t (x.goto op .check refused) with installed := false }
      else some (s.setThread t { x with pc := .idle })
    | _ => some (s.setThread t (x.goto op .check refused))
  | .set => some { s.setThread t (x.goto op .wrUnraw refused) with destroyed := true }
  | _ => s.lockStep cfg t x op refused st

end St

/-- Nothing goes on after `abort`. -/
def step (cfg : Cfg) (s : St) (a : Act) : Option St :=
  if s.aborted.isSome then none
  else match a with
    | .start t c => s.threads[t]?.bind fun x => match x.pc with
      | .idle => some (s.setThread t (x.goto (c.op cfg x.stack) .get false))
      | _ => none
    | .ret t => s.threads[t]?.bind fun x => match x.pc, x.stack with
      | .idle, op :: rest => some (s.setThread t ({ x with stack := rest }.ret cfg op))
      | _, _ => none
    | .go t env => s.threads[t]?.bind fun x => match x.pc with
      | .busy op st refused => s.advance cfg t x op refused env st
      | _ => none

end RefNode

end Aosl
