import Aosl.Mpqp

/-!
# The tail of a pool, `__mpqp_pool_tail_queue_argv`

`aosl_mpqp_pool_tail_queue` queues `____each_pool_promise_f` to each queue of the pool; the one that takes the shared
counter to 0 invokes the function. The queues are those of `Mpqp` with the functions that are linked in them: `linked`
is the list of the queue, `batch` what `__check_and_call_funcs` has taken off it, and `running` the function in
`__process_fo`. Calls are made by any thread; a call that waits for its function, or for the destruction of a queue,
is one that returns later.

A call is its index in `calls`, a tail call its index in `tails`. `before` is not in the code: the calls that had
returned 0 when the tail call started; neither is `early`: those of them whose functions had not finished when the tail
function was invoked. What becomes of the second invocation, on the done queue, is left out.
-/

namespace Aosl
open Lib

/-- What is linked in a queue: the function of a call, or the promise of a tail call. -/
inductive Fo where
  | user (c : Nat)
  | promise (t : Nat)
deriving DecidableEq

/-- The function in work; `last` says that the promise has taken the counter to 0. -/
inductive Work where
  | user (c : Nat)
  | promise (t : Nat) (last : Bool)
deriving DecidableEq

/-- Where the thread of a queue is, while it has nothing in work. -/
inductive TailPc where
  /-- At the top of the poll loop. -/
  | funcs
  /-- The test of `terminated`. -/
  | test
  /-- The two loops of `__q_wait_destroy`. -/
  | usage
  | final
  | freed
deriving DecidableEq

structure TailQ where
  count : Nat
  linked : List Fo
  batch : List Fo
  running : Option Work
  usage : Nat
  terminated : Bool
  pc : TailPc
deriving DecidableEq

/-- Where a call is: it holds the queue, its function is linked, it has returned, or it has failed. -/
inductive CallPhase where
  | held
  | added
  | returned
  | failed
deriving DecidableEq

structure TailCall where
  q : Nat
  /-- Between `__mpqp_best_q_get` and `__mpqp_best_q_put`, or between `__mpq_get` and `__mpq_put`. -/
  best : Bool
  phase : CallPhase
  finished : Bool
deriving DecidableEq

/-- Where a tail call is: before the lock of the pool, after it, or failed. -/
inductive TailPhase where
  | started
  | queued
  | failed
deriving DecidableEq

structure Tail where
  phase : TailPhase
  hasName : Bool
  /-- `*count_p`. -/
  count : Nat
  countFreed : Nat
  nameFreed : Nat
  invoked : Nat
  before : List Nat
  early : List Nat
deriving DecidableEq

structure TailSt where
  poolSize : Nat
  entries : List PoolEntry
  queues : List TailQ
  /-- The queues that `__mpqp_shrink` has taken out and is about to destroy. -/
  doomed : List Nat
  calls : List TailCall
  tails : List Tail
deriving DecidableEq

inductive TailAct where
  /-- `__mpqp_best_q_get`; `created` says whether `__mpq_create` succeeds. -/
  | bestQGet (created : Bool)
  | mpqGet (q : Nat)
  /-- `____add_f`, which may fail. -/
  | add (c : Nat)
  | fail (c : Nat)
  /-- A call on the thread of the queue itself is made at once. -/
  | invoke (c : Nat)
  | put (c : Nat)
  /-- `aosl_mpq_alloc` and `aosl_mpq_free`. -/
  | alloc (created : Bool)
  | free (q : Nat)
  /-- The critical section of `__mpqp_shrink`, and `__mpq_destroy` after it. -/
  | shrink
  | destroy (q : Nat)
  | shrinkAll
  /-- `__mpqp_pool_tail_queue_argv`, before the lock and with it. -/
  | tailStart (hasName : Bool)
  | tailQueue (t : Nat) (created : Bool)
  /-- The thread of the queue goes on. -/
  | thread (q : Nat)
deriving DecidableEq

namespace TailQ

/-- `__q_create`. -/
def create : TailQ := ⟨0, [], [], none, 1, false, .funcs⟩

def waiting (r : TailQ) : List Fo := r.batch ++ r.linked

/-- `__mpqp_best_q_get` or `__mpq_get`, on the queue. -/
def get (r : TailQ) (best : Bool) : TailQ :=
  { r with usage := r.usage + 1, count := if best then r.count + 1 else r.count }

/-- `__mpqp_best_q_put` or `__mpq_put`. -/
def put (r : TailQ) (best : Bool) : TailQ :=
  { r with usage := r.usage - 1, count := if best then r.count - 1 else r.count }

/-- `____add_f`. -/
def add (r : TailQ) (fo : Fo) : TailQ := { r with count := r.count + 1, linked := r.linked ++ [fo] }

/-- The function in work ends. -/
def leave (r : TailQ) : TailQ := { r with running := none, count := r.count - 1 }

/-- `__check_and_call_funcs` takes the list. -/
def take (r : TailQ) : TailQ := { r with batch := r.linked, linked := [] }

/-- The queue is in `mpq_table`. -/
def installed (r : TailQ) : Bool := r.pc = .funcs || r.pc = .test

end TailQ

namespace TailSt

def modifyQ (s : TailSt) (q : Nat) (f : TailQ → TailQ) : TailSt := { s with queues := s.queues.modify q f }

def modifyCall (s : TailSt) (c : Nat) (f : TailCall → TailCall) : TailSt := { s with calls := s.calls.modify c f }

def modifyTail (s : TailSt) (t : Nat) (f : Tail → Tail) : TailSt := { s with tails := s.tails.modify t f }

def count (s : TailSt) (q : Nat) : Nat := (s.queues[q]?.map TailQ.count).getD 0

/-- The function of the call has run to its end. -/
def finished (s : TailSt) (c : Nat) : Bool := s.calls[c]?.any (·.finished)

/-- `__mpqp_find_best_q_locked`. -/
def findBestQ (s : TailSt) : Option Nat :=
  s.entries.foldl (fun best e => match best with
    | none => some e.q
    | some b => if s.count e.q < s.count b then some e.q else some b) none

/-- `__mpqp_find_best_alloc_entry_locked`. -/
def findBestAllocEntry (s : TailSt) : Option PoolEntry :=
  s.entries.foldl (fun best e => match best with
    | none => some e
    | some b => if e.usage < b.usage then some e else some b) none

/-- `__pool_create_add_mpq_locked`, if the queue can be created. -/
def createAdd (s : TailSt) : TailSt :=
  { s with entries := s.entries ++ [⟨s.queues.length, 1⟩], queues := s.queues ++ [TailQ.create] }

/-- A new call holds the queue `q`. -/
def hold (s : TailSt) (q : Nat) (best : Bool) : TailSt :=
  { s.modifyQ q (·.get best) with calls := s.calls ++ [⟨q, best, .held, false⟩] }

def bestQGet (s : TailSt) (created : Bool) : Option TailSt :=
  match s.findBestQ with
  | none => if created then some (s.createAdd.hold s.queues.length true) else none
  | some q =>
    if s.count q > 0 ∧ s.entries.length < s.poolSize ∧ created then some (s.createAdd.hold s.queues.length true)
    else some (s.hold q true)

/-- `__mpqp_best_entry_get_or_alloc`. -/
def alloc (s : TailSt) (created : Bool) : Option TailSt :=
  let use (s : TailSt) (q : Nat) :=
    { s with entries := s.entries.map fun e => if e.q = q then { e with usage := e.usage + 1 } else e }
  match s.findBestAllocEntry with
  | none => if created then some (use s.createAdd s.queues.length) else none
  | some e =>
    if e.usage > 1 ∧ s.entries.length < s.poolSize ∧ created then some (use s.createAdd s.queues.length)
    else some (use s e.q)

/-- `aosl_mpq_free`. -/
def free (s : TailSt) (q : Nat) : TailSt :=
  { s with entries := s.entries.map fun e => if e.q = q ∧ e.usage > 1 then { e with usage := e.usage - 1 } else e }

/-- The critical section of `__mpqp_shrink`. -/
def shrink (s : TailSt) : TailSt :=
  match s.entries.getLast? with
  | some e =>
    if s.entries.length > 1 ∧ e.usage = 1 then { s with entries := s.entries.dropLast, doomed := e.q :: s.doomed } else s
  | none => s

/-- The critical section of `__mpqp_shrink_all`, which destroys the queues. -/
def shrinkAll (s : TailSt) : TailSt :=
  { s.entries.foldl (fun s e => s.modifyQ e.q fun r => { r with terminated := true }) s with entries := [] }

/-- `__mpqp_pool_tail_queue_argv` with the lock; without a queue and without memory for one the call fails. -/
def tailQueue (s : TailSt) (t : Nat) (created : Bool) : TailSt :=
  if s.entries = [] ∧ !created then s.modifyTail t fun l => { l with phase := .failed, countFreed := l.countFreed + 1 }
  else
    let s := if s.entries = [] then s.createAdd else s
    let s := s.modifyTail t fun l => { l with phase := .queued, count := s.entries.length }
    s.entries.foldl (fun s e => s.modifyQ e.q (·.add (.promise t))) s

/-- `__process_fo` begins; for a promise that is `atomic_dec_and_test` and the invocation of the function. -/
def begin (s : TailSt) : Fo → TailSt × Work
  | .user c => (s, .user c)
  | .promise t =>
    let last := s.tails[t]?.any (·.count = 1)
    let s := s.modifyTail t fun l => { l with count := l.count - 1 }
    if last then
      (s.modifyTail t fun l => { l with
        countFreed := l.countFreed + 1
        invoked := l.invoked + 1
        early := l.before.filter fun c => !s.finished c }, .promise t true)
    else (s, .promise t false)

/-- `__process_fo` ends. -/
def finish (s : TailSt) : Work → TailSt
  | .user c => s.modifyCall c fun k => { k with finished := true }
  | .promise t last =>
    if last then s.modifyTail t fun l => { l with nameFreed := if l.hasName then l.nameFreed + 1 else l.nameFreed } else s

/-- The next step of the thread of `q`, whose record is `r`. -/
def threadStep (s : TailSt) (q : Nat) (r : TailQ) : Option TailSt :=
  match r.running, r.batch with
  | some w, _ => some ((s.finish w).modifyQ q TailQ.leave)
  | none, fo :: rest =>
    some ((s.begin fo).1.modifyQ q fun r => { r with running := some (s.begin fo).2, batch := rest })
  | none, [] => match r.pc with
    | .funcs => some (s.modifyQ q fun r => { r.take with pc := .test })
    | .test => some (s.modifyQ q fun r => { r with pc := if r.terminated then .usage else .funcs })
    | .usage => some (s.modifyQ q fun r => if r.usage > 1 then r.take else { r with pc := .final })
    | .final => some (s.modifyQ q fun r => if r.linked = [] then { r with pc := .freed } else r.take)
    | .freed => none

def step (s : TailSt) : TailAct → Option TailSt
  | .bestQGet created => s.bestQGet created
  | .mpqGet q => match s.queues[q]? with
    | some r => if r.installed then some (s.hold q false) else none
    | none => none
  | .add c => match s.calls[c]? with
    | some k => if k.phase = .held then
        some ((s.modifyQ k.q (·.add (.user c))).modifyCall c fun k => { k with phase := .added }) else none
    | none => none
  | .invoke c => match s.calls[c]? with
    | some k => if k.phase = .held then
        some (s.modifyCall c fun k => { k with phase := .added, finished := true }) else none
    | none => none
  | .fail c => match s.calls[c]? with
    | some k => if k.phase = .held then
        some ((s.modifyQ k.q (·.put k.best)).modifyCall c fun k => { k with phase := .failed }) else none
    | none => none
  | .put c => match s.calls[c]? with
    | some k => if k.phase = .added then
        some ((s.modifyQ k.q (·.put k.best)).modifyCall c fun k => { k with phase := .returned }) else none
    | none => none
  | .alloc created => s.alloc created
  | .free q => some (s.free q)
  | .shrink => some s.shrink
  | .destroy q => if q ∈ s.doomed then
      some { s.modifyQ q fun r => { r with terminated := true } with doomed := s.doomed.erase q } else none
  | .shrinkAll => some s.shrinkAll
  | .tailStart hasName => some { s with tails := s.tails ++ [⟨.started, hasName, 0, 0, 0, 0,
      (List.range s.calls.length).filter fun c => s.calls[c]?.any (·.phase = .returned), []⟩] }
  | .tailQueue t created => match s.tails[t]? with
    | some l => if l.phase = .started then some (s.tailQueue t created) else none
    | none => none
  | .thread q => match s.queues[q]? with
    | some r => s.threadStep q r
    | none => none

/-- A new pool. -/
def init (poolSize : Nat) : TailSt := ⟨poolSize, [], [], [], [], []⟩

def run (poolSize : Nat) (acts : List TailAct) : Option TailSt := exec step (init poolSize) acts

/-- The functions that a tail call has to wait for and that have not finished are in queues of the pool. -/
def TailOk (s : TailSt) : TailAct → Prop
  | .tailQueue t _ => ∀ l ∈ s.tails[t]?, ∀ c ∈ l.before, s.finished c = true ∨
      ∃ k ∈ s.calls[c]?, k.q ∈ s.entries.map PoolEntry.q
  | _ => True

instance (s : TailSt) (a : TailAct) : Decidable (s.TailOk a) :=
  match a with
  | .tailQueue t _ => inferInstanceAs (Decidable (∀ l ∈ s.tails[t]?, ∀ c ∈ l.before, s.finished c = true ∨
      ∃ k ∈ s.calls[c]?, k.q ∈ s.entries.map PoolEntry.q))
  | .bestQGet _ | .mpqGet _ | .add _ | .fail _ | .invoke _ | .put _ | .alloc _ | .free _ | .shrink | .destroy _ | .shrinkAll
  | .tailStart _ | .thread _ => .isTrue trivial

end TailSt

end Aosl
