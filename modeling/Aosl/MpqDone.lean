import Aosl.Mpq
import Aosl.Lib.Lists

/-!
# The completion protocol of queued functions, `__invoke_f` in `kernel/mpq.c`

Any number of queues with their threads, and other threads that queue functions to them. A function may name a
done queue, to which it is queued again after it has run, and a ref object. Each queue is a list of
`struct q_func_obj` (that the pointers of `q->head` represent such a list is the subject of `Aosl.Mpq`) and a
thread: the poll loop, then `__q_wait_destroy`, and the calls of `__invoke_f` it is in, innermost first. There
is more than one when a function calls `aosl_mpq_call` on its own queue, which invokes without queueing.

Whether `____add_f` accepts a function, for the bound of the queue or for `exiting`, is left open; with
`no_fail` and no done queue, as in `__invoke_f`, it always does. Queues and ref objects are numbered and a number
stands for a qid or a ref. A ref object counts here as what `mpq_invoke_refobj_get` reads of it: whether
it is in the table and whether it is destroyed. `reqs` and `log` are not in the code: the functions that were accepted, and what
happened to each.
-/

namespace Aosl
open Lib

/-- The `robj` argument of a queued function. -/
inductive Robj where
  | null
  | obj
  /-- `AOSL_FREE_ONLY_OBJ`. -/
  | freeOnly
deriving DecidableEq

/-- `struct q_func_obj`; `id` is the accepted function it stands for. -/
structure DoneFo where
  id : Nat
  done : Option Nat
  ref : Option Nat
deriving DecidableEq

/-- Where a call of `__invoke_f` is. -/
inductive Invoke where
  /-- Before `refobj_get`. -/
  | get (fo : DoneFo)
  /-- Before the test of `destroyed`. -/
  | check (fo : DoneFo) (r : Nat)
  /-- The function runs. -/
  | run (fo : DoneFo) (robj : Robj)
  /-- Before `__mpq_get (done_qid)`. -/
  | done (fo : DoneFo) (d : Nat)
  /-- Before `____add_f (done_q, ..)`. -/
  | add (fo : DoneFo) (d : Nat)
  /-- Before `__mpq_put (done_q)`. -/
  | leave (d : Nat)
  /-- The function runs with `AOSL_FREE_ONLY_OBJ` because there is no done queue. -/
  | free (fo : DoneFo)
deriving DecidableEq

/-- Where the thread of a queue is between the calls of `__invoke_f`. -/
inductive DonePhase where
  | events
  | check (site : Site)
  | loop (site : Site) (count : Nat)
  | uninstall
  | waitUsage
  | fini
  | freed
deriving DecidableEq

structure DoneQ where
  installed : Bool
  usage : Nat
  terminated : Bool
  /-- `q->head`. -/
  fos : List DoneFo
  /-- The local `head` of `__check_and_call_funcs`. -/
  taken : List DoneFo
  phase : DonePhase
  stack : List Invoke
deriving DecidableEq

/-- An accepted function: its target queue, its done queue and its ref. -/
structure DoneReq where
  q : Nat
  done : Option Nat
  ref : Option Nat
deriving DecidableEq

inductive DoneEv where
  /-- The function is called on queue `q`; `done` is what `aosl_mpq_run_func_done_qid` returns in it. -/
  | call (q : Nat) (done : Option Nat) (robj : Robj)
  /-- `__mpq_get (done_qid)` returned NULL. -/
  | lost (d : Nat)
deriving DecidableEq

structure DoneSt where
  qs : List DoneQ
  /-- The queues that other calls have got by `__mpq_get`. -/
  holders : List Nat
  /-- The refs that are not in the table any more. -/
  uninstalled : List Nat
  destroyed : List Nat
  reqs : List DoneReq
  log : List (Nat × DoneEv)
deriving DecidableEq

inductive DoneAct where
  | create
  | get (d : Nat)
  /-- The `j`-th holder queues a function. -/
  | add (j : Nat) (done ref : Option Nat)
  | put (j : Nat)
  | terminate (i : Nat)
  | uninstallRef (r : Nat)
  | destroyRef (r : Nat)
  /-- Code of the user on the thread of queue `i` calls a function on this queue. -/
  | call (i : Nat) (ref : Option Nat)
  /-- The thread of queue `i` goes on. -/
  | go (i : Nat)
deriving DecidableEq

namespace DonePhase

/-- Where the caller of `__check_and_call_funcs` goes with the result. -/
def ret : Site → Nat → DonePhase
  | .poll, _ => events
  | .usage, _ => waitUsage
  | .final, 0 => fini
  | .final, _ + 1 => check .final

end DonePhase

namespace DoneQ

/-- `__q_create`. -/
def create : DoneQ := ⟨true, 1, false, [], [], .events, []⟩

/-- The thread of the queue runs code of the user. -/
def atUser (q : DoneQ) : Bool :=
  match q.stack with
  | [] => q.phase = .events ∨ q.phase = .fini
  | .run _ _ :: _ => true
  | .free _ :: _ => true
  | _ => false

/-- The thread of the queue goes on outside of `__invoke_f`. -/
def goPhase (q : DoneQ) : Option DoneQ :=
  match q.phase with
  | .events => some { q with phase := if q.terminated then .uninstall else .check .poll }
  | .check site =>
    if q.fos ≠ [] then some { q with phase := .loop site 0, taken := q.fos, fos := [] }
    else some { q with phase := .ret site 0 }
  | .loop site count => match q.taken with
    | [] => some { q with phase := .ret site count }
    | fo :: taken => some { q with phase := .loop site (count + 1), taken := taken, stack := [.get fo] }
  | .uninstall => some { q with phase := .waitUsage, installed := false }
  | .waitUsage => some { q with phase := .check (if q.usage > 1 then .usage else .final) }
  | .fini => some { q with phase := .freed }
  | .freed => none

end DoneQ

namespace DoneSt

def init : DoneSt := ⟨[], [], [], [], [], []⟩

def modQ (s : DoneSt) (i : Nat) (f : DoneQ → DoneQ) : DoneSt := { s with qs := s.qs.modify i f }

def goto (s : DoneSt) (i : Nat) (stack : List Invoke) : DoneSt := s.modQ i ({ · with stack := stack })

def note (s : DoneSt) (k : Nat) (ev : DoneEv) : DoneSt := { s with log := s.log ++ [(k, ev)] }

/-- Whether `__mpq_get (d)` finds a queue. -/
def obtainable (s : DoneSt) (d : Nat) : Bool := (s.qs[d]?).any (·.installed)

/-- `____q_get`. -/
def hold (s : DoneSt) (d : Nat) : DoneSt := s.modQ d fun q => { q with usage := q.usage + 1 }

/-- `____q_put`. -/
def drop (s : DoneSt) (d : Nat) : DoneSt := s.modQ d fun q => { q with usage := q.usage - 1 }

/-- The critical section of `____add_f`. -/
def link (s : DoneSt) (d : Nat) (fo : DoneFo) : DoneSt := s.modQ d fun q => { q with fos := q.fos ++ [fo] }

/-- `q_invoke_f` of `__invoke_f`. -/
def invoke (s : DoneSt) (i : Nat) (fo : DoneFo) (robj : Robj) (rest : List Invoke) : DoneSt :=
  (s.note fo.id (.call i fo.done robj)).goto i (.run fo robj :: rest)

/-- The innermost `__invoke_f` of the thread of queue `i` goes on. -/
def goInvoke (s : DoneSt) (i : Nat) (rest : List Invoke) : Invoke → DoneSt
  | .get fo => match fo.ref with
    | none => s.invoke i fo .null rest
    | some r => if r ∈ s.uninstalled then s.invoke i fo .freeOnly rest else s.goto i (.check fo r :: rest)
  | .check fo r => s.invoke i fo (if r ∈ s.destroyed then .freeOnly else .obj) rest
  | .run fo robj => match fo.done with
    | none => s.goto i rest
    | some d => if robj = .freeOnly then s.goto i rest else s.goto i (.done fo d :: rest)
  | .done fo d =>
    if s.obtainable d then (s.hold d).goto i (.add fo d :: rest)
    else ((s.note fo.id (.lost d)).note fo.id (.call i none .freeOnly)).goto i (.free fo :: rest)
  | .add fo d => (s.goto i (.leave d :: rest)).link d { fo with done := none }
  | .leave d => (s.goto i rest).drop d
  | .free _ => s.goto i rest

def step (s : DoneSt) : DoneAct → Option DoneSt
  | .create => some { s with qs := s.qs ++ [.create] }
  | .get d => if s.obtainable d then some { s.hold d with holders := s.holders ++ [d] } else none
  | .add j done ref => match s.holders[j]? with
    | some d => some { s.link d ⟨s.reqs.length, done, ref⟩ with reqs := s.reqs ++ [⟨d, done, ref⟩] }
    | none => none
  | .put j => match s.holders[j]? with
    | some d => some { s.drop d with holders := s.holders.eraseIdx j }
    | none => none
  | .terminate i => some (s.modQ i ({ · with terminated := true }))
  | .uninstallRef r => some { s with uninstalled := r :: s.uninstalled }
  | .destroyRef r => some { s with destroyed := r :: s.destroyed }
  | .call i ref => match s.qs[i]? with
    | some q =>
      if q.atUser then
        some { s.goto i (.get ⟨s.reqs.length, none, ref⟩ :: q.stack) with reqs := s.reqs ++ [⟨i, none, ref⟩] }
      else none
    | none => none
  | .go i => match s.qs[i]? with
    | some q => match q.stack with
      | [] => q.goPhase.map fun q' => s.modQ i fun _ => q'
      | fr :: rest => some (s.goInvoke i rest fr)
    | none => none

end DoneSt

end Aosl
