import Aosl.Lib.Lists
import Aosl.Lib.Steps

/-!
# Ref objects, `kernel/refobj.c`

One ref object and any number of threads. A thread is the stack of its calls that concern the object,
innermost first: queued functions that carry the ref (`mpq_invoke_refobj_get` and `mpq_invoke_refobj_put`), `aosl_ref_hold`,
`aosl_ref_read`, `aosl_ref_write`, plain gets, and `aosl_ref_destroy`. A call is cut where another thread can see
the difference: at each access to the table, to `usage`, to `destroyed` and to a lock. Where a call runs
code of the user, that code may start further calls.

`stop_lock` is the `k_rwlock` of `kernel/thread.c`: the mutex `lk`, which every writer holds, and the raw lock with its
readers and its writer. What `thread_nodes` counts for a thread is read off its stack. `deleted`, `dtors`
and `results` are not in the code: the base reference is gone, the calls of the user dtor, and the results
of `aosl_ref_destroy`.
-/

namespace Aosl
open Lib

inductive RefErr where
  | enoent
  | einval
  | eperm
deriving DecidableEq

/-- How a reader holds the lock: not at all, since the queue function below it does; as a further level
of `thread_rdlock_count`; or with the raw lock. -/
inductive RdLock where
  | nolock
  | counted
  | raw
deriving DecidableEq

/-- What a write lock is taken for; `gets` is `robj_this_thread_get_count`. -/
inductive WrUse where
  | write
  | destroy (del : Bool) (gets : Nat)
deriving DecidableEq

/-- Where a call is. -/
inductive RefPc where
  /-- The caller uses the object that `refobj_get` returned, as in `aosl_ref_hold`. -/
  | held
  /-- Before the `refobj_put` at the end. -/
  | putting
  -- `aosl_ref_read`
  | rdGot
  | rdWant
  | rdIn (l : RdLock)
  | rdRun (l : RdLock)
  | rdLeave (l : RdLock)
  -- `k_rwlock_wrlock`: before `lk` is taken, before the raw lock is tried
  | want (u : WrUse)
  | attempt (u : WrUse)
  -- `k_rwlock_wrunlock`: before the raw lock is left, before `lk` is left
  | leave (u : WrUse) (err : Option RefErr)
  | unlk (u : WrUse) (err : Option RefErr)
  -- `aosl_ref_write`, where `up` says that a read lock was turned into a write lock
  | wrGot
  | wrIn (up : Bool)
  | wrRun (up : Bool)
  -- `k_rwlock_rd2wrlock` and `k_rwlock_wr2rdlock`
  | upWant
  | upDrop
  | upWait
  | upLeave
  | dnWait
  | dnUnlk
  -- a queued function that carries the ref
  | invGot
  | invIn
  | invFail
  | invFailPut
  /-- The function runs with the object. -/
  | invRun
  | invLeave
  /-- The function runs with `AOSL_FREE_ONLY_OBJ`. -/
  | invFree
  -- `aosl_ref_destroy`
  | dGot (del : Bool)
  | dUninst (gets : Nat)
  | dCheck (del : Bool) (gets : Nat)
  | dIn (del : Bool) (gets : Nat)
  | dAfter (del : Bool) (gets : Nat) (err : Option RefErr)
  | dSpin (gets : Nat)
  | dLast (del : Bool) (err : Option RefErr)
  | dRet (del : Bool) (err : Option RefErr)
  /-- `refobj_free`, before and in the user dtor. -/
  | dying
  | dtor
deriving DecidableEq

structure RefSt where
  modifyAsync : Bool
  rdlockRecursive : Bool
  callerFree : Bool
  /-- The slot of the table holds the object. -/
  installed : Bool
  usage : Nat
  destroyed : Bool
  lk : Bool
  /-- `rd2wrlock_count`. -/
  rd2wr : Bool
  readers : Nat
  writer : Bool
  thr : List (List RefPc)
  deleted : Bool
  dtors : Nat
  results : List (Bool × Option RefErr)
  /-- `abort` has been called. -/
  crashed : Bool
deriving DecidableEq

inductive RefOp where
  | get
  | read
  | write
  /-- A queue executes a function that carries the ref. -/
  | invoke
  | destroy (del : Bool)
deriving DecidableEq

inductive RefAct where
  /-- The thread starts a call, in code of the user. -/
  | start (i : Nat) (op : RefOp)
  /-- The thread goes on in its innermost call; user code returns. -/
  | go (i : Nat)
deriving DecidableEq

namespace RefPc

/-- Code of the user runs. -/
def atUser : RefPc → Bool
  | held => true
  | rdRun _ => true
  | wrRun _ => true
  | invRun => true
  | invFree => true
  | dtor => true
  | _ => false

/-- Counted by `thread_rdlock_count`. -/
def isRdlock : RefPc → Bool
  | rdWant => true
  | rdIn l => l ≠ .nolock
  | rdRun l => l ≠ .nolock
  | rdLeave l => l ≠ .nolock
  | _ => false

/-- `thread_wrlocked`. -/
def isWrlock : RefPc → Bool
  | want u => u = .write
  | attempt u => u = .write
  | leave u _ => u = .write
  | wrIn _ => true
  | wrRun _ => true
  | upWant => true
  | upDrop => true
  | upWait => true
  | upLeave => true
  | _ => false

/-- The call got the object by `refobj_get`, which counts in `get_count`. -/
def isGet : RefPc → Bool
  | invFree => false
  | want u => u = .write
  | attempt u => u = .write
  | leave u _ => u = .write
  | unlk u _ => u = .write
  | dGot _ => false
  | dUninst _ => false
  | dCheck _ _ => false
  | dIn _ _ => false
  | dAfter _ _ _ => false
  | dSpin _ => false
  | dLast _ _ => false
  | dRet _ _ => false
  | dying => false
  | dtor => false
  | _ => true

end RefPc

namespace RefSt

/-- `refobj_on_this_q`, for the calls below the innermost one. -/
def onThisQ (rest : List RefPc) : Bool := rest.any (· = .invRun)

def rdlockCount (rest : List RefPc) : Nat := rest.countP RefPc.isRdlock

def wrlocked (rest : List RefPc) : Bool := rest.any RefPc.isWrlock

def getCount (s : RefSt) (rest : List RefPc) : Nat := if s.callerFree then rest.countP RefPc.isGet else 0

def goto (s : RefSt) (i : Nat) (l : List RefPc) : RefSt := { s with thr := s.thr.set i l }

/-- `__refobj_put`; the thread goes on with `l` after it. -/
def put (s : RefSt) (i : Nat) (l : List RefPc) : RefSt :=
  { s with usage := s.usage - 1 }.goto i (if s.usage - 1 = 0 then .dying :: l else l)

def crash (s : RefSt) : RefSt := { s with crashed := true }

/-- `__refobj_rdunlock_raw` of an invocation, which locks only if the object is not `modify_async`. -/
def invUnlock (s : RefSt) : RefSt := if s.modifyAsync then s else { s with readers := s.readers - 1 }

/-- A call begins with the lookup. -/
def start (s : RefSt) (i : Nat) (l : List RefPc) (op : RefOp) : RefSt :=
  if s.installed then
    let s := { s with usage := s.usage + 1 }
    match op with
    | .get => s.goto i (.held :: l)
    | .read => s.goto i (.rdGot :: l)
    | .write => s.goto i (.wrGot :: l)
    | .invoke => s.goto i (.invGot :: l)
    | .destroy del => s.goto i (.dGot del :: l)
  else match op with
    | .invoke => s.goto i (.invFree :: l)
    | .destroy del => { s with results := s.results ++ [(del, some .enoent)] }
    | _ => s

/-- The innermost call `pc` of thread `i` goes on. -/
def go (s : RefSt) (i : Nat) (pc : RefPc) (rest : List RefPc) : Option RefSt :=
  match pc with
  | .held => some (s.goto i (.putting :: rest))
  | .putting => some (s.put i rest)
  | .rdGot =>
    if onThisQ rest ∧ !s.modifyAsync then some (s.goto i (.rdRun .nolock :: rest))
    else if wrlocked rest ∨ (!s.rdlockRecursive ∧ rdlockCount rest > 0) then some s.crash
    else if rdlockCount rest = 0 then some (s.goto i (.rdWant :: rest))
    else some (s.goto i (.rdIn .counted :: rest))
  | .rdWant =>
    if s.writer then none else some ({ s with readers := s.readers + 1 }.goto i (.rdIn .raw :: rest))
  | .rdIn l => some (s.goto i ((if s.destroyed then .rdLeave l else .rdRun l) :: rest))
  | .rdRun l => some (s.goto i (.rdLeave l :: rest))
  | .rdLeave l => some ((if l = .raw then { s with readers := s.readers - 1 } else s).goto i (.putting :: rest))
  | .wrGot =>
    if rdlockCount rest > 0 ∨ wrlocked rest then some s.crash
    else if onThisQ rest ∧ !s.modifyAsync then some (s.goto i (.upWant :: rest))
    else some (s.goto i (.want .write :: rest))
  | .want u => if s.lk then none else some ({ s with lk := true }.goto i (.attempt u :: rest))
  | .attempt u =>
    if s.readers = 0 ∧ !s.writer then
      some ({ s with writer := true }.goto i ((match u with
        | .write => .wrIn false
        | .destroy del gets => .dIn del gets) :: rest))
    else some ({ s with lk := false }.goto i (.want u :: rest))
  | .leave u err => some ({ s with writer := false }.goto i (.unlk u err :: rest))
  | .unlk u err => some ({ s with lk := false }.goto i ((match u with
    | .write => .putting
    | .destroy del gets => .dAfter del gets err) :: rest))
  | .wrIn up =>
    -- a destroyed object is not expected under a read lock that was turned into a write lock
    if s.destroyed then if up then some s.crash else some (s.goto i (.leave .write none :: rest))
    else some (s.goto i (.wrRun up :: rest))
  | .wrRun up => some (s.goto i ((if up then .upLeave else .leave .write none) :: rest))
  | .upWant =>
    if s.lk then if s.rd2wr then some s.crash else none
    else some ({ s with lk := true, rd2wr := true }.goto i (.upDrop :: rest))
  | .upDrop => some ({ s with readers := s.readers - 1 }.goto i (.upWait :: rest))
  | .upWait =>
    if s.readers = 0 ∧ !s.writer then some ({ s with writer := true }.goto i (.wrIn true :: rest)) else none
  | .upLeave => some ({ s with writer := false }.goto i (.dnWait :: rest))
  | .dnWait => if s.writer then none else some ({ s with readers := s.readers + 1 }.goto i (.dnUnlk :: rest))
  | .dnUnlk => some ({ s with lk := false, rd2wr := false }.goto i (.putting :: rest))
  | .invGot =>
    if s.modifyAsync then some (s.goto i (.invIn :: rest))
    else if s.writer then none
    else some ({ s with readers := s.readers + 1 }.goto i (.invIn :: rest))
  | .invIn => some (s.goto i ((if s.destroyed then .invFail else .invRun) :: rest))
  | .invFail => some (s.invUnlock.goto i (.invFailPut :: rest))
  | .invFailPut => some (s.put i (.invFree :: rest))
  | .invRun => some (s.goto i (.invLeave :: rest))
  | .invLeave => some (s.invUnlock.goto i (.putting :: rest))
  | .invFree => some (s.goto i rest)
  | .dGot del =>
    if onThisQ rest ∧ !s.modifyAsync then some s.crash
    else if rdlockCount rest > 0 then some s.crash
    else if del then some (s.goto i (.dUninst (s.getCount rest) :: rest))
    else some (s.goto i (.dCheck false (s.getCount rest) :: rest))
  | .dUninst gets =>
    if s.installed then some ({ s with installed := false }.goto i (.dCheck true gets :: rest))
    else some (s.goto i (.dLast true (some .einval) :: rest))
  | .dCheck del gets =>
    some (s.goto i ((if s.destroyed then .dAfter del gets (some .eperm) else .want (.destroy del gets)) :: rest))
  | .dIn del gets =>
    some ({ s with destroyed := true }.goto i
      (.leave (.destroy del gets) (if s.destroyed then some .eperm else none) :: rest))
  | .dAfter del gets err =>
    if del then some ({ s with deleted := true }.put i (.dSpin gets :: rest))
    else some (s.goto i (.dLast false err :: rest))
  | .dSpin gets =>
    if s.callerFree ∧ !s.modifyAsync ∧ s.usage > 1 + gets then none
    else some (s.goto i (.dLast true none :: rest))
  | .dLast del err => some (s.put i (.dRet del err :: rest))
  | .dRet del err => some ({ s with results := s.results ++ [(del, err)] }.goto i rest)
  | .dying => some ({ s with dtors := s.dtors + 1 }.goto i (.dtor :: rest))
  | .dtor => some (s.goto i rest)

/-- The thread can start a call. -/
def atUser : List RefPc → Bool
  | [] => true
  | pc :: _ => pc.atUser

def step (s : RefSt) (a : RefAct) : Option RefSt :=
  if s.crashed then none
  else match a with
  | .start i op => match s.thr[i]? with
    | some l => if atUser l then some (s.start i l op) else none
    | none => none
  | .go i => match s.thr[i]? with
    | some (pc :: rest) => s.go i pc rest
    | _ => none

/-- The object after `refobj_create`, with `n` threads. -/
def init (modifyAsync rdlockRecursive callerFree : Bool) (n : Nat) : RefSt :=
  ⟨modifyAsync, rdlockRecursive, callerFree, true, 1, false, false, false, 0, false, List.replicate n [], false, 0, [], false⟩

theorem step_start {s s' : RefSt} {i : Nat} {op : RefOp} (h : s.step (.start i op) = some s') :
    ∃ l, s.thr[i]? = some l ∧ atUser l = true ∧ s' = s.start i l op := by
  simp only [step] at h
  split_ifs at h
  split at h
  · rename_i l hl
    split_ifs at h with hu
    exact ⟨l, hl, hu, (Option.some.inj h).symm⟩
  · cases h

theorem step_go {s s' : RefSt} {i : Nat} (h : s.step (.go i) = some s') :
    ∃ x rest, s.thr[i]? = some (x :: rest) ∧ s.go i x rest = some s' := by
  simp only [step] at h
  split_ifs at h
  split at h
  · rename_i x rest hl
    exact ⟨x, rest, hl, h⟩
  · cases h

theorem step_cases {s s' : RefSt} {a : RefAct} (h : s.step a = some s') :
    (∃ i op l, s.thr[i]? = some l ∧ atUser l = true ∧ s' = s.start i l op) ∨
    ∃ i x rest, s.thr[i]? = some (x :: rest) ∧ s.go i x rest = some s' := by
  rcases a with ⟨i, op⟩ | i
  · exact .inl ⟨i, op, step_start h⟩
  · exact .inr ⟨i, step_go h⟩

end RefSt

end Aosl
