import Aosl.IofdFrame

/-!
# Listening sockets, `net/sk_utils.c`

`__this_q_listen_argv` registers a listening socket as an iofd whose `read_f` is `__default_accept` and whose
`data_f` is the `accepted_f` of the user; everything else is the loop of `__iofd_read_data`. `ListenSt` adds to
the queue what the OS and the buffer hold of each listening socket. `arrived`, `handed` and `missed` are not in
the code: the connections that arrived, those given to `accepted_f`, and the number of calls of accept with no
connection pending.

Of the runs only those are kept that are about listening: a listening socket gets readable events, the user does
not close or delete it before `event_f` has got an error, and no other iofd is closed under its fd (an iofd
deleted by the user while it is in work, see `IofdEvents`).
-/

namespace Aosl
open Lib

def aoslEIntr : Int := 1004
def aoslEInProgress : Int := 1115
def aoslEHal : Int := 2000

def aoslHalRetEHal : Int := -2000
def aoslHalRetEAgain : Int := -2001
def aoslHalRetEIntr : Int := -2002
def aoslHalRetEInProgress : Int := -2003

/-- `aosl_hal_set_error`. -/
def aoslHalSetError (err : Int) : Int :=
  if err < 0 then
    if err = aoslHalRetEIntr then -aoslEIntr
    else if err = aoslHalRetEAgain then -aoslEAgain
    else if err = aoslHalRetEInProgress then -aoslEInProgress
    else -aoslEHal
  else 0

/-- `sizeof (aosl_accept_data_t)`: the socket and its address. -/
def acceptDataSize : Nat := 4 + 28

structure Listener where
  /-- The connections pending in the OS. -/
  backlog : List Nat
  /-- The accepted connections between `r_data` and `r_tail`. -/
  rData : List Nat
  arrived : List Nat
  handed : List Nat
  missed : Nat
deriving DecidableEq

namespace Listener

/-- `__default_accept`: the socket and its address go to the end of the buffer. -/
def defaultAccept (l : Listener) : Listener × Int :=
  match l.backlog with
  | [] => ({ l with missed := l.missed + 1 }, aoslHalSetError aoslHalRetEHal)
  | c :: rest => ({ l with backlog := rest, rData := l.rData ++ [c] }, acceptDataSize)

def arrive (l : Listener) (c : Nat) : Listener :=
  { l with backlog := l.backlog ++ [c], arrived := l.arrived ++ [c] }

/-- `accepted_f` is called with what is at `r_data`. -/
def hand (l : Listener) : Listener := { l with handed := l.handed ++ l.rData.take 1 }

/-- `f->r_data = (char *)f->r_data + err`. -/
def advance (l : Listener) : Listener := { l with rData := l.rData.drop 1 }

/-- The code between two calls: `accepted_f` is about to be called. -/
def goPos (l : Listener) : IoPos → Listener
  | .data _ dataLen => if dataLen ≥ 0 then l.hand else l.advance
  | _ => l

/-- A call returns: after `accepted_f` the buffer goes on, unless the iofd is closed. -/
def retSite (l : Listener) (closed : Bool) : CallSite → Listener
  | .data _ => if closed then l else l.advance
  | _ => l

end Listener

structure ListenSt where
  io : IoSt
  lst : Nat → Option Listener

inductive ListenAct where
  /-- `__this_q_listen_argv`, on the thread of the queue. -/
  | listen (fd : Nat) (hasEvent : Bool)
  /-- A connection arrives. -/
  | arrive (f c : Nat)
  /-- `__default_accept` returns. -/
  | accept
  /-- Any other step. -/
  | io (a : IoAct)
deriving DecidableEq

/-- The steps of the thread on an iofd. -/
def ListenAct.isThread : ListenAct → Bool
  | .accept => true
  | .io .go => true
  | .io (.ret _) => true
  | _ => false

def EventMask.readable : EventMask := ⟨true, false, false, false⟩

namespace ListenSt

def listening (s : ListenSt) (f : Nat) : Bool := (s.lst f).isSome

def modify (s : ListenSt) (f : Nat) (g : Listener → Listener) : ListenSt :=
  { s with lst := fun i => if i = f then (s.lst f).map g else s.lst i }

/-- The registration of `__this_q_listen_argv`. -/
def listenOp (s : ListenSt) (fd : Nat) (hasEvent : Bool) : IoAct :=
  .op (.add fd s.io.qid false true false false false hasEvent false)

/-- The user may remove what is registered under the fd: a listening socket only in `event_f`, for its error. -/
def mayRemove (s : ListenSt) (fd : Nat) : Bool :=
  (s.io.attached fd).all fun f => !s.listening f || match s.io.pc with
    | .call (.error _) g _ => g = f
    | _ => false

/-- The steps of the queue that are kept. -/
def allowed (s : ListenSt) : IoAct → Bool
  | .go => match s.io.pc with
    | .next => match s.io.batch with
      | [] => true
      | e :: _ => ((s.io.attached e.fd).all fun f => !s.listening f || e.mask = .readable)
    | .run (.close _) g _ => match (s.io.obj g).fd with
      | none => true
      | some fd => ((s.io.attached fd).all fun f => !s.listening f || g = f)
    | _ => true
  | .ret _ => match s.io.pc with
    | .call .read f _ => !s.listening f
    | _ => true
  | .op (.close fd _) => s.mayRemove fd
  | .op (.del fd) => s.mayRemove fd
  | _ => true

/-- What a step of the queue does to the buffer and to `handed`. -/
def track (s : ListenSt) : IoAct → ListenSt
  | .go => match s.io.pc with
    | .run pos f _ => s.modify f (·.goPos pos)
    | _ => s
  | .ret _ => match s.io.pc with
    | .call site f _ => s.modify f (·.retSite (s.io.obj f).fd.isNone site)
    | _ => s
  | _ => s

def step (s : ListenSt) : ListenAct → Option ListenSt
  | .listen fd hasEvent => (s.io.step (s.listenOp fd hasEvent)).map fun io =>
    if (s.io.attached fd).isSome then { s with io }
    else ⟨io, fun i => if i = s.io.size then some ⟨[], [], [], [], 0⟩ else s.lst i⟩
  | .arrive f c => some (s.modify f (·.arrive c))
  | .accept => match s.io.pc with
    | .call .read f _ => match s.lst f with
      | none => none
      | some l => (s.io.step (.ret l.defaultAccept.2)).map fun io => { s.modify f (·.defaultAccept.1) with io }
    | _ => none
  | .io a => if s.allowed a then (s.io.step a).map fun io => { s.track a with io } else none

def init (backend : Backend) (qid : Nat) : ListenSt := ⟨.init backend qid, fun _ => none⟩

def run (backend : Backend) (qid : Nat) (acts : List ListenAct) : Option ListenSt := exec step (init backend qid) acts

/-- The accepted connections that `accepted_f` has not been called with. -/
def waiting (s : ListenSt) (f : Nat) (l : Listener) : List Nat :=
  match s.io.pc with
  | .call (.data _) g _ => if g = f then l.rData.drop 1 else l.rData
  | _ => l.rData

/-- The listening socket still listens, and the connections that arrived were given to `accepted_f` once each, in
order, or are still to be accepted or given to it. -/
structure Keeps (s : ListenSt) (f : Nat) (l : Listener) : Prop where
  registered : s.io.Registered f
  order : l.handed ++ s.waiting f l ++ l.backlog = l.arrived

end ListenSt

end Aosl
