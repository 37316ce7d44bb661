import Mathlib.Tactic.Common

/-!
# Calls on the own queue and on another one

Each of the functions here has two forms: the plain one creates a timer or an iofd on the current queue, `.._on_q` has
it created on a given queue. The second form packs its parameters and the user's arguments into a vector, and
`__mpq_call_argv` has the thread of the queue call a function that unpacks them. The call is synchronous: the function
gets the vector itself and the number of its slots.

The words of the vector are those of `uintptr_t`. `OnQReq` are the parameters of a call, `OnQMade` is what is called on
the target queue in the end; the queue is alive, has room and is not terminated.
-/

namespace Aosl

/-- A slot of the vector: a word, the address of the caller's result, or that of an `expire_time` (or `NULL`). -/
inductive Slot where
  | word (n : Nat)
  | result
  | expireTime (p : Option Nat)
deriving DecidableEq

inductive OnQReq where
  | createTimer (interval func dtor : Nat)
  | setTimer (interval func dtor : Nat)
  | setOneshotTimer (expireTime func dtor : Nat)
  | addFd (fd maxPktSize readF writeF chkPktF dataF eventF : Nat)
  | connect (fd destAddr timeo maxPktSize chkPktF dataF eventF : Nat)
  | listen (fd backlog acceptedF eventF : Nat)
  | addDgramSocket (fd maxPktSize dataF eventF : Nat)
  | addStreamSocket (fd maxPktSize chkPktF dataF eventF : Nat)
deriving DecidableEq

/-- `__create_timer_on_q`, `__set_timer_on_q`, `__mpq_add_fd_argv` and `__this_q_.._argv` with their parameters. -/
inductive OnQMade where
  | createTimer (interval func dtor : Nat)
  | setTimer (interval expireTime func dtor : Nat)
  | addFd (fd maxPktSize readF writeF chkPktF dataF eventF : Nat)
  | connect (fd destAddr timeo maxPktSize chkPktF dataF eventF : Nat)
  | listen (fd backlog acceptedF eventF : Nat)
  | addDgramSk (fd maxPktSize dataF eventF : Nat)
  | addStreamSk (fd maxPktSize chkPktF dataF eventF : Nat)
deriving DecidableEq

/-- A call is refused, or the function on the target queue is called, or slots outside the vector are read. -/
inductive OnQOut where
  | rejected (err : Int)
  | made (what : OnQMade) (args : List Slot)
  | fault
deriving DecidableEq

namespace OnQOut

def isMade : OnQOut → Bool
  | made .. => true
  | rejected _ | fault => false

def isRejected : OnQOut → Bool
  | rejected _ => true
  | made .. | fault => false

/-- The arguments that reach the timer or the iofd. -/
def userArgs : OnQOut → Option (List Slot)
  | made _ args => some args
  | rejected _ | fault => none

end OnQOut

/-- `MPQ_ARGC_MAX`. -/
def argcMax : Nat := 64

/-- The checks on an interval and a callback of a timer; `(intptr_t)interval < 0` in words. -/
def intervalOk (interval : Nat) : Bool := interval < 9223372036854775808

namespace OnQReq

/-- The parameters that are refused before anything else; `none` is no error. -/
def checkParams : OnQReq → Option Int
  | createTimer interval func _ | setTimer interval func _ =>
    if !intervalOk interval then some (-1022) else if func = 0 then some (-1022) else none
  | setOneshotTimer _ func _ => if func = 0 then some (-1022) else none
  | addFd .. | connect .. | listen .. | addDgramSocket .. | addStreamSocket .. => none

/-- The form for the current queue: the function is called with the parameters as they are. -/
def makes : OnQReq → OnQMade
  | createTimer interval func dtor => .createTimer interval func dtor
  | setTimer interval func dtor => .setTimer interval 0 func dtor
  | setOneshotTimer expireTime func dtor => .setTimer 18446744073709551615 expireTime func dtor
  | addFd fd size readF writeF chkPktF dataF eventF => .addFd fd size readF writeF chkPktF dataF eventF
  | connect fd addr timeo size chkPktF dataF eventF => .connect fd addr timeo size chkPktF dataF eventF
  | listen fd backlog acceptedF eventF => .listen fd backlog acceptedF eventF
  | addDgramSocket fd size dataF eventF => .addDgramSk fd size dataF eventF
  | addStreamSocket fd size chkPktF dataF eventF => .addStreamSk fd size chkPktF dataF eventF

/-- `aosl_mpq_set_oneshot_timer` refuses an `expire_time` of 0. -/
def expireOk : OnQReq → Bool
  | setOneshotTimer expireTime _ _ => expireTime ≠ 0
  | _ => true

/-- The plain form, on the target queue itself. -/
def here (r : OnQReq) (args : List Nat) : OnQOut :=
  match r.checkParams with
  | some err => .rejected err
  | none =>
    if args.length > argcMax then .rejected (-1007)
    else if !r.expireOk then .rejected (-1022)
    else .made r.makes (args.map .word)

/-- The slots in front of the user's arguments, as they are stored. -/
def fixed : OnQReq → List Slot
  | createTimer interval func dtor => [.result, .word interval, .word func, .word dtor]
  | setTimer interval func dtor => [.result, .word interval, .expireTime none, .word func, .word dtor]
  | setOneshotTimer expireTime func dtor =>
    [.result, .word 18446744073709551615, .expireTime (some expireTime), .word func, .word dtor]
  | addFd fd size readF writeF chkPktF dataF eventF =>
    [.result, .word fd, .word size, .word readF, .word writeF, .word chkPktF, .word dataF, .word eventF]
  | connect fd addr timeo size chkPktF dataF eventF =>
    [.result, .word fd, .word addr, .word timeo, .word size, .word chkPktF, .word dataF, .word eventF]
  | listen fd backlog acceptedF eventF => [.result, .word fd, .word backlog, .word acceptedF, .word eventF]
  | addDgramSocket fd size dataF eventF => [.result, .word fd, .word size, .word dataF, .word eventF]
  | addStreamSocket fd size chkPktF dataF eventF =>
    [.result, .word fd, .word size, .word chkPktF, .word dataF, .word eventF]

/-- The index of the first argument when it is packed: `argv [n + l] = va_arg (args, uintptr_t)`. -/
def packAt : OnQReq → Nat
  | createTimer .. => 4
  | setTimer .. | setOneshotTimer .. => 5
  | addFd .. => 8
  | connect .. => 9
  | listen .. | addDgramSocket .. => 5
  | addStreamSocket .. => 6

/-- The number of slots that is passed, without the arguments. -/
def slots : OnQReq → Nat
  | createTimer .. => 4
  | setTimer .. | setOneshotTimer .. => 5
  | addFd .. | connect .. => 8
  | listen .. | addDgramSocket .. => 5
  | addStreamSocket .. => 6

/-- The vector; the slots between the fixed ones and the arguments hold what was on the stack. -/
def argv (r : OnQReq) (junk : Nat) (args : List Nat) : List Slot :=
  r.fixed ++ List.replicate (r.packAt - r.fixed.length) (.word junk) ++ args.map .word

end OnQReq

/-- The end of a function on the target queue: `argc - skip, &argv [skip]`. -/
def passOn (what : OnQMade) (skip argc : Nat) (argv : List Slot) : OnQOut :=
  let n := (argc + 18446744073709551616 - skip) % 18446744073709551616
  if skip + n ≤ argv.length then .made what ((argv.drop skip).take n) else .fault

/-- `____target_q_create_timer`. -/
def targetCreateTimer (argc : Nat) (argv : List Slot) : OnQOut := match argv with
  | _ :: .word interval :: .word func :: .word dtor :: _ => passOn (.createTimer interval func dtor) 4 argc argv
  | _ => .fault

/-- `____target_q_set_timer`. -/
def targetSetTimer (argc : Nat) (argv : List Slot) : OnQOut := match argv with
  | _ :: .word interval :: .expireTime p :: .word func :: .word dtor :: _ =>
    passOn (.setTimer interval (p.getD 0) func dtor) 5 argc argv
  | _ => .fault

/-- `____target_q_add_fd`. -/
def targetAddFd (argc : Nat) (argv : List Slot) : OnQOut := match argv with
  | _ :: .word fd :: .word size :: .word readF :: .word writeF :: .word chkPktF :: .word dataF :: .word eventF :: _ =>
    passOn (.addFd fd size readF writeF chkPktF dataF eventF) 8 argc argv
  | _ => .fault

/-- `____target_q_connect`. -/
def targetConnect (argc : Nat) (argv : List Slot) : OnQOut := match argv with
  | _ :: .word fd :: .word addr :: .word timeo :: .word size :: .word chkPktF :: .word dataF :: .word eventF :: _ =>
    passOn (.connect fd addr timeo size chkPktF dataF eventF) 9 argc argv
  | _ => .fault

/-- `____target_q_listen`. -/
def targetListen (argc : Nat) (argv : List Slot) : OnQOut := match argv with
  | _ :: .word fd :: .word backlog :: .word acceptedF :: .word eventF :: _ =>
    passOn (.listen fd backlog acceptedF eventF) 5 argc argv
  | _ => .fault

/-- `____target_q_add_dgram_sk`. -/
def targetAddDgramSk (argc : Nat) (argv : List Slot) : OnQOut := match argv with
  | _ :: .word fd :: .word size :: .word dataF :: .word eventF :: _ =>
    passOn (.addDgramSk fd size dataF eventF) 5 argc argv
  | _ => .fault

/-- `____target_q_add_stream_sk`. -/
def targetAddStreamSk (argc : Nat) (argv : List Slot) : OnQOut := match argv with
  | _ :: .word fd :: .word size :: .word chkPktF :: .word dataF :: .word eventF :: _ =>
    passOn (.addStreamSk fd size chkPktF dataF eventF) 6 argc argv
  | _ => .fault

/-- `__mpq_call_argv`, with the check of `__add_func_argv`. -/
def callArgv (f : Nat → List Slot → OnQOut) (argc : Nat) (argv : List Slot) : OnQOut :=
  if argc > argcMax then .rejected (-1007) else f argc argv

namespace OnQReq

def target : OnQReq → Nat → List Slot → OnQOut
  | createTimer .. => targetCreateTimer
  | setTimer .. | setOneshotTimer .. => targetSetTimer
  | addFd .. => targetAddFd
  | connect .. => targetConnect
  | listen .. => targetListen
  | addDgramSocket .. => targetAddDgramSk
  | addStreamSocket .. => targetAddStreamSk

/-- The form `.._on_q`; `junk` is what was on the stack. -/
def onQ (r : OnQReq) (junk : Nat) (args : List Nat) : OnQOut :=
  match r.checkParams with
  | some err => .rejected err
  | none =>
    if args.length > argcMax then .rejected (-1007)
    else callArgv r.target (r.slots + args.length) (r.argv junk args)

def isConnect : OnQReq → Bool
  | connect .. => true
  | _ => false

end OnQReq

end Aosl
