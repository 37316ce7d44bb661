import Aosl.Lib.Lists
import Aosl.Lib.Steps
import Mathlib.Logic.Function.Basic

/-!
# The registry of file objects

`attached_fds` maps the numbers of the fds to their objects. An object is in it from `install_fd` to `remove_fd`, and
in the list `iofds` of its queue from `__q_add_fd` to `aosl_list_del` of `__q_del_f`. The registry is under a lock and
shared by all threads; a list belongs to the thread of its queue. So the steps are the critical sections of the registry
and what the thread of a queue does between them; the steps of different queues interleave.

`refs` are the references that callers hold: a call of `aosl_mpq_del_fd` or `aosl_close` looks the number up on its own
thread and is executed with the object it found, later, on the thread of the queue. An object is its index in `objs`;
its number is `none` when it is `AOSL_INVALID_FD`. Any number may be added at any time: the OS may have given it out
again, or it was never closed.
-/

namespace Aosl
open Lib

structure FileObj where
  fd : Option Nat
  q : Nat
deriving DecidableEq

/-- Where the thread of a queue is. -/
inductive FilePc where
  | idle
  /-- `__mpq_add_fd_argv` after `install_fd`. -/
  | installed (f : Nat)
  /-- `__q_del_f` after `remove_fd`; `close` says that `__this_q_close_f` has called it. -/
  | removed (f : Nat) (close : Bool)
  /-- `__this_q_close_f` after `__q_del_f`, and after `____close`. -/
  | deleted (f : Nat)
  | closed (f : Nat)
deriving DecidableEq

structure FileQ where
  qid : Nat
  alive : Bool
  /-- The thread is in `mpq_fini_iofds`. -/
  fini : Bool
  iofds : List Nat
  iofdCount : Nat
  pc : FilePc
deriving DecidableEq

structure FileSt where
  objs : List FileObj
  attached : Nat → Option Nat
  queues : List FileQ
  refs : List Nat

inductive FileAct where
  | create (qid : Nat)
  /-- `fget`, `__iofd_get` for an object of the queue, and `fput`. -/
  | lookup (fd : Option Nat)
  | hold (k f : Nat)
  | put (f : Nat)
  /-- `__mpq_add_fd_argv` to the end of `install_fd`, and the rest; `ok` is the result of `os_add_event_fd`. -/
  | install (k : Nat) (fd : Option Nat)
  | addFd (k : Nat) (ok : Bool)
  /-- `__q_del_f` for a caller's reference, alone or in `__this_q_close_f`, to the end of `remove_fd`. -/
  | delF (k f : Nat) (close : Bool)
  /-- `__q_destroy`. -/
  | destroy (k : Nat)
  /-- The thread of the queue goes on. -/
  | thread (k : Nat)
deriving DecidableEq

namespace FileQ

/-- `__q_create`. -/
def create (qid : Nat) : FileQ := ⟨qid, true, false, [], 0, .idle⟩

/-- The thread takes functions: it is in none of the operations, and not in `__q_destroy`. -/
def free (r : FileQ) : Bool := r.alive && !r.fini && r.pc = .idle

/-- `aosl_list_del`. -/
def unlink (r : FileQ) (f : Nat) (pc : FilePc) : FileQ :=
  { r with iofds := r.iofds.erase f, iofdCount := r.iofdCount - 1, pc := pc }

/-- The list is empty: `mpq_fini_iofds` returns, and the queue is freed. -/
def finish (r : FileQ) : FileQ := { r with alive := false, iofdCount := 0 }

end FileQ

namespace FileSt

def fdOf (s : FileSt) (f : Nat) : Option Nat := s.objs[f]?.bind FileObj.fd

def setQ (s : FileSt) (k : Nat) (r : FileQ) : FileSt := { s with queues := s.queues.set k r }

def lookup (s : FileSt) (fd : Option Nat) : Option Nat := fd.bind s.attached

/-- `install_fd`, on a new object of the queue `r`. -/
def install (s : FileSt) (k : Nat) (r : FileQ) (n : Nat) : FileSt :=
  { s with
    objs := s.objs ++ [⟨some n, r.qid⟩]
    attached := Function.update s.attached n (some s.objs.length)
    queues := s.queues.set k { r with pc := .installed s.objs.length } }

/-- `remove_fd`: what is registered under the number is removed, and then compared; `false` is `-AOSL_ENONET`. -/
def removeFd (s : FileSt) (f : Nat) : Bool × FileSt :=
  match s.fdOf f with
  | none => (false, s)
  | some n => (s.attached n = some f, { s with attached := Function.update s.attached n none })

/-- `__q_del_f`, to the end of `remove_fd`. -/
def delF (s : FileSt) (k : Nat) (r : FileQ) (f : Nat) (close : Bool) : FileSt :=
  if (s.objs[f]?.map FileObj.q) ≠ some r.qid then s
  else if (s.removeFd f).1 then (s.removeFd f).2.setQ k { r with pc := .removed f close }
  else (s.removeFd f).2

/-- `iofd_fobj (f)->fd = AOSL_INVALID_FD`. -/
def invalidate (s : FileSt) (f : Nat) : FileSt := { s with objs := s.objs.modify f fun o => { o with fd := none } }

def thread (s : FileSt) (k : Nat) (r : FileQ) : Option FileSt :=
  match r.pc with
  | .idle =>
    if !r.alive || !r.fini then none
    else match r.iofds with
      | [] => some (s.setQ k r.finish)
      | f :: _ => some (s.delF k r f true)
  | .installed _ => none
  | .removed f true => some (s.setQ k (r.unlink f (.deleted f)))
  | .removed f false => some (s.setQ k (r.unlink f .idle))
  | .deleted f => some (s.setQ k { r with pc := .closed f })
  | .closed f => some ((s.invalidate f).setQ k { r with pc := .idle })

def step (s : FileSt) : FileAct → Option FileSt
  | .create qid =>
    if s.queues.any fun r => r.alive && r.qid = qid then none
    else some { s with queues := s.queues ++ [FileQ.create qid] }
  | .lookup fd => (s.lookup fd).map fun f => { s with refs := f :: s.refs }
  | .hold k f => match s.queues[k]? with
    | none => none
    | some r => if f ∈ r.iofds then some { s with refs := f :: s.refs } else none
  | .put f => if f ∈ s.refs then some { s with refs := s.refs.erase f } else none
  | .install k fd => match s.queues[k]?, fd with
    | none, _ => none
    | some r, none => if r.free then some s else none
    | some r, some n =>
      if !r.free then none
      else if (s.attached n).isSome then some s
      else some (s.install k r n)
  | .addFd k ok => match s.queues[k]? with
    | none => none
    | some r => match r.pc with
      | .installed f =>
        if ok then some (s.setQ k { r with iofds := r.iofds ++ [f], iofdCount := r.iofdCount + 1, pc := .idle })
        else some ((s.removeFd f).2.setQ k { r with pc := .idle })
      | _ => none
  | .delF k f close => match s.queues[k]? with
    | none => none
    | some r => if r.free && f ∈ s.refs then some (s.delF k r f close) else none
  | .destroy k => match s.queues[k]? with
    | none => none
    | some r => if r.free then some (s.setQ k { r with fini := true }) else none
  | .thread k => match s.queues[k]? with
    | none => none
    | some r => s.thread k r

def init : FileSt := ⟨[], fun _ => none, [], []⟩

def run (as : List FileAct) : Option FileSt := exec step init as

/-- The object is the one registered under its number. -/
def registered (s : FileSt) (f : Nat) : Bool := s.lookup (s.fdOf f) = some f

/-- How often the object is linked, in all lists. -/
def linkedCount (s : FileSt) (f : Nat) : Nat := (s.queues.map FileQ.iofds).flatten.count f

/-- The registry agrees with the lists; an object may be in one only of them while the thread of its queue is between
`install_fd` and `aosl_list_add_tail`, or between `remove_fd` and `aosl_list_del`. -/
structure Agrees (s : FileSt) : Prop where
  linked : ∀ (k : Nat) (r : FileQ), s.queues[k]? = some r → ∀ f ∈ r.iofds,
    s.registered f ∨ ∃ close, r.pc = .removed f close
  attached : ∀ n f, s.attached n = some f → s.fdOf f = some n ∧
    (s.linkedCount f = 1 ∨ ∃ (k : Nat) (r : FileQ), s.queues[k]? = some r ∧ r.pc = .installed f)

/-- The object that the step calls `remove_fd` with. -/
def removes (s : FileSt) : FileAct → Option Nat
  | .addFd k false => (s.queues[k]?).bind fun r => match r.pc with
    | .installed f => some f
    | _ => none
  | .delF k f _ => (s.queues[k]?).bind fun r =>
    if r.free ∧ s.objs[f]?.map FileObj.q = some r.qid then some f else none
  | .thread k => (s.queues[k]?).bind fun r => if r.fini ∧ r.pc = .idle then r.iofds.head? else none
  | _ => none

/-- A caller's reference is used to delete an object that is still linked, or one whose number is not registered. -/
def Fresh (s : FileSt) : FileAct → Prop
  | .delF k f _ => (∃ r ∈ s.queues[k]?, f ∈ r.iofds) ∨ s.lookup (s.fdOf f) = none
  | _ => True

instance (s : FileSt) : ∀ a, Decidable (s.Fresh a)
  | .delF .. => inferInstanceAs (Decidable (_ ∨ _))
  | .create _ | .lookup _ | .hold .. | .put _ | .install .. | .addFd .. | .destroy _ | .thread _ => .isTrue trivial

/-- `mpq_fini_iofds` of the queue `k` ends: its thread takes a bounded number of steps, whatever the others do, and it
stops at an empty list only. -/
def FiniEnds (s : FileSt) (k : Nat) : Prop :=
  ∃ m, ∀ as s', Along step Fresh s as → exec step s as = some s' → as.count (.thread k) ≤ m ∧
    ∃ r, s'.queues[k]? = some r ∧ (r.alive → (s'.step (.thread k)).isSome) ∧ (r.alive = false → r.iofds = [])

end FileSt

end Aosl
