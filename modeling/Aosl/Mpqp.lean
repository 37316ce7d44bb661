import Aosl.Lib.Steps

/-!
# A pool of multiplex queues, `kernel/mpqp.c`

A pool and the threads of its queues. Queues are created on demand by `__mpqp_best_q_get` and
`__mpqp_best_entry_get_or_alloc`; the timer `__mpqp_q_check_shrink` of each queue counts its idle rounds
and calls `__mpqp_shrink` or `__mpqp_shrink_all`, which take queues out of `pool_entries`, terminate them
and wait for their destruction.

A queue is its index in `queues`, which keeps the destroyed ones. What happens under `qp->lock` is one
step, and so is a round of `__check_and_call_funcs`. The threads that queue functions to the pool are
counted by what they hold: `bests` between `__mpqp_best_q_get` and `__mpqp_best_q_put`, `gets` between
`__mpq_get` and `__mpq_put`.
-/

namespace Aosl
open Lib

/-- Where the thread of a pool queue is. -/
inductive PoolPc where
  /-- At the top of the poll loop. -/
  | funcs
  | timers
  /-- In `__mpqp_shrink_all` or `__mpqp_shrink`, before the lock of the pool. -/
  | shrink (all : Bool)
  /-- In `__mpqp_shrink`, with `q` taken out of the pool. -/
  | destroy (q : Nat) (shouldWait : Bool)
  | put (q : Nat) (shouldWait : Bool)
  /-- In `__mpq_destroy_wait` for the first of these. -/
  | destroyWait (qs : List Nat)
  /-- The test of `terminated` and `os_poll_dispatch`. -/
  | test
  /-- The two loops of `__q_wait_destroy`. -/
  | waitUsage
  | final
  | freed
deriving DecidableEq

/-- A pool queue and the `struct mpqp_q_idle_stat` of its timer; `funcs` is the number of linked
functions. -/
structure PoolQ where
  count : Nat
  funcs : Nat
  execFuncsCount : Nat
  usage : Nat
  bests : Nat
  gets : Nat
  terminated : Bool
  idleCounter : Nat
  lastExecFuncsCount : Nat
  pc : PoolPc
deriving DecidableEq

structure PoolEntry where
  q : Nat
  usage : Nat
deriving DecidableEq

structure PoolSt where
  poolSize : Nat
  qMaxIdles : Nat
  entries : List PoolEntry
  queues : List PoolQ
deriving DecidableEq

inductive PoolAct where
  /-- `__mpqp_best_q_get`; `created` says whether `__mpq_create` succeeds. -/
  | bestQGet (created : Bool)
  | bestQPut (q : Nat)
  | mpqGet (q : Nat)
  | mpqPut (q : Nat)
  /-- `____add_f` by a thread that holds a reference. -/
  | add (q : Nat)
  /-- `aosl_mpq_alloc` and `aosl_mpq_free`. -/
  | alloc (created : Bool)
  | free (q : Nat)
  /-- The timer of the queue fires. -/
  | checkShrink (x : Nat)
  /-- The thread of the queue goes on. -/
  | thread (x : Nat)
deriving DecidableEq

namespace PoolQ

/-- `__q_create` and `__mpqp_q_init`. -/
def create : PoolQ := ⟨0, 0, 0, 1, 0, 0, false, 0, 0, .funcs⟩

/-- `__check_and_call_funcs`. -/
def callFuncs (q : PoolQ) : PoolQ :=
  { q with count := q.count - q.funcs, funcs := 0, execFuncsCount := q.execFuncsCount + q.funcs }

/-- The counters of `__mpqp_q_check_shrink`. -/
def checkIdle (q : PoolQ) : PoolQ :=
  { q with
    idleCounter := if q.execFuncsCount = q.lastExecFuncsCount ∧ q.count = 0 then q.idleCounter + 1 else 0
    lastExecFuncsCount := q.execFuncsCount }

/-- `__mpqp_q_check_shrink`, up to the lock of the pool. -/
def checkShrink (q : PoolQ) (qMaxIdles : Nat) : PoolQ :=
  let q := q.checkIdle
  if q.idleCounter ≥ 2 * qMaxIdles then { q with pc := .shrink true }
  else if q.idleCounter ≥ qMaxIdles then { q with pc := .shrink false }
  else { q with pc := .timers }

end PoolQ

namespace PoolSt

def modifyQ (s : PoolSt) (q : Nat) (f : PoolQ → PoolQ) : PoolSt := { s with queues := s.queues.modify q f }

def count (s : PoolSt) (q : Nat) : Nat := (s.queues[q]?.map PoolQ.count).getD 0

def isFreed (s : PoolSt) (q : Nat) : Bool := s.queues[q]?.any (·.pc = .freed)

/-- `__mpqp_find_best_q_locked`. -/
def findBestQ (s : PoolSt) : Option Nat :=
  s.entries.foldl (fun best e => match best with
    | none => some e.q
    | some b => if s.count e.q < s.count b then some e.q else some b) none

/-- `__mpqp_find_best_alloc_entry_locked`. -/
def findBestAllocEntry (s : PoolSt) : Option PoolEntry :=
  s.entries.foldl (fun best e => match best with
    | none => some e
    | some b => if e.usage < b.usage then some e else some b) none

/-- `__pool_create_add_mpq_locked`, if the queue can be created. -/
def createAdd (s : PoolSt) : PoolSt :=
  { s with entries := s.entries ++ [⟨s.queues.length, 1⟩], queues := s.queues ++ [PoolQ.create] }

def bestQGet (s : PoolSt) (created : Bool) : Option PoolSt :=
  let hold (s : PoolSt) (q : Nat) :=
    s.modifyQ q fun r => { r with usage := r.usage + 1, count := r.count + 1, bests := r.bests + 1 }
  match s.findBestQ with
  | none => if created then some (hold s.createAdd s.queues.length) else none
  | some q =>
    if s.count q > 0 ∧ s.entries.length < s.poolSize ∧ created then some (hold s.createAdd s.queues.length)
    else some (hold s q)

/-- `__mpqp_best_entry_get_or_alloc`. -/
def alloc (s : PoolSt) (created : Bool) : Option PoolSt :=
  let use (s : PoolSt) (q : Nat) :=
    { s with entries := s.entries.map fun e => if e.q = q then { e with usage := e.usage + 1 } else e }
  match s.findBestAllocEntry with
  | none => if created then some (use s.createAdd s.queues.length) else none
  | some e =>
    if e.usage > 1 ∧ s.entries.length < s.poolSize ∧ created then some (use s.createAdd s.queues.length)
    else some (use s e.q)

/-- `aosl_mpq_free`. -/
def free (s : PoolSt) (q : Nat) : PoolSt :=
  { s with entries := s.entries.map fun e => if e.q = q ∧ e.usage > 1 then { e with usage := e.usage - 1 } else e }

/-- The queues that the critical section of `__mpqp_shrink_all` or `__mpqp_shrink` takes out. -/
def taken (s : PoolSt) : Bool → List Nat
  | true => s.entries.map PoolEntry.q
  | false => match s.entries.getLast? with
    | some e => if s.entries.length > 1 ∧ e.usage = 1 then [e.q] else []
    | none => []

/-- The critical section of `__mpqp_shrink`, on the thread of `x`. -/
def shrink (s : PoolSt) (x : Nat) : PoolSt :=
  match s.taken false with
  | [] => s.modifyQ x fun r => { r with pc := .timers }
  | q :: _ =>
    let s := { s with entries := s.entries.dropLast }
    s.modifyQ x fun r => { r with pc := .destroy q (x ≠ q) }

/-- The critical section of `__mpqp_shrink_all`, on the thread of `x`. -/
def shrinkAll (s : PoolSt) (x : Nat) : PoolSt :=
  let qs := s.taken true
  let s := { s with
    entries := []
    queues := s.queues.mapIdx fun i (r : PoolQ) => if i ∈ qs then { r with terminated := true } else r }
  s.modifyQ x fun r => { r with pc := .destroyWait (qs.filter (· ≠ x)) }

/-- The next step of the thread of `x`, whose record is `r`. -/
def threadStep (s : PoolSt) (x : Nat) (r : PoolQ) : Option PoolSt :=
  match r.pc with
  | .funcs => some (s.modifyQ x fun r => { r.callFuncs with pc := .timers })
  | .timers => some (s.modifyQ x fun r => { r with pc := .test })
  | .shrink false => some (s.shrink x)
  | .shrink true => some (s.shrinkAll x)
  | .destroy q w => some ((s.modifyQ q fun r => { r with usage := r.usage + 1, terminated := true }).modifyQ x
      fun r => { r with pc := .put q w })
  | .put q w => some ((s.modifyQ q fun r => { r with usage := r.usage - 1 }).modifyQ x
      fun r => { r with pc := .destroyWait (if w then [q] else []) })
  | .destroyWait [] => some (s.modifyQ x fun r => { r with pc := .timers })
  | .destroyWait (q :: qs) =>
    if s.isFreed q then some (s.modifyQ x fun r => { r with pc := .destroyWait qs }) else none
  | .test => some (s.modifyQ x fun r => { r with pc := if r.terminated then .waitUsage else .funcs })
  | .waitUsage => some (s.modifyQ x fun r =>
      if r.usage > 1 then { r.callFuncs with pc := .waitUsage } else { r with pc := .final })
  | .final => some (s.modifyQ x fun r =>
      if r.funcs > 0 then { r.callFuncs with pc := .final } else { r with pc := .freed })
  | .freed => none

/-- The queue is in `mpq_table`. -/
def installed : PoolPc → Bool
  | .waitUsage => false
  | .final => false
  | .freed => false
  | _ => true

def step (s : PoolSt) : PoolAct → Option PoolSt
  | .bestQGet created => s.bestQGet created
  | .bestQPut q => match s.queues[q]? with
    | some r => if r.bests > 0 then some (s.modifyQ q fun r =>
        { r with usage := r.usage - 1, count := r.count - 1, bests := r.bests - 1 }) else none
    | none => none
  | .mpqGet q => match s.queues[q]? with
    | some r => if installed r.pc then some (s.modifyQ q fun r =>
        { r with usage := r.usage + 1, gets := r.gets + 1 }) else none
    | none => none
  | .mpqPut q => match s.queues[q]? with
    | some r => if r.gets > 0 then some (s.modifyQ q fun r =>
        { r with usage := r.usage - 1, gets := r.gets - 1 }) else none
    | none => none
  | .add q => match s.queues[q]? with
    | some r => if r.bests + r.gets > 0 then some (s.modifyQ q fun r =>
        { r with count := r.count + 1, funcs := r.funcs + 1 }) else none
    | none => none
  | .alloc created => s.alloc created
  | .free q => some (s.free q)
  | .checkShrink x => match s.queues[x]? with
    | some r => if r.pc = .timers then some (s.modifyQ x (·.checkShrink s.qMaxIdles)) else none
    | none => none
  | .thread x => match s.queues[x]? with
    | some r => s.threadStep x r
    | none => none

/-- A new pool. -/
def init (poolSize qMaxIdles : Nat) : PoolSt := ⟨poolSize, qMaxIdles, [], []⟩

/-- The thread of `x` is blocked in `__mpq_destroy_wait` for the destruction of `y`. -/
def Waits (s : PoolSt) (x y : Nat) : Prop :=
  (s.queues[x]?.any fun r => match r.pc with
    | .destroyWait (q :: _) => q = y
    | _ => false) = true ∧ s.isFreed y = false

instance (s : PoolSt) (x y : Nat) : Decidable (s.Waits x y) := inferInstanceAs (Decidable (_ ∧ _))

end PoolSt

end Aosl
