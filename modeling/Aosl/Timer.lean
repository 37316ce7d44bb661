import Aosl.Rbtree

/-!
# The timers of a queue, `kernel/timer.c`

A queue keeps its armed timers twice: in the red-black tree `timer_base.active`, ordered by
`expire_time`, and in a doubly linked list from `timer_base.first` through `timer_next`. The value
`AOSL_LIST_POISON1` in `timer_next` marks a timer that is not armed.

A `struct timer_node` and the `aosl_rb_node` embedded in it are the same `Ptr`. `alloc` lists the
timers on the heap, and `armed` is not in the code: the armed timers in the order of their last
`__insert_timer`. An access through `NULL` or a poison value fails.
-/

namespace Aosl
open Lib

/-- The values of `timer_prev` and `timer_next`; `ptr 0` is `NULL`. -/
inductive TPtr where
  | ptr (p : Ptr)
  | poison1
  | poison2
deriving DecidableEq

structure TimerSt where
  rb : RbSt
  first : Ptr
  timerPrev : Ptr → TPtr
  timerNext : Ptr → TPtr
  interval : Ptr → UInt64
  expireTime : Ptr → UInt64
  usage : Ptr → Nat
  timers : List Ptr
  installed : Ptr → Bool
  alloc : List Ptr
  armed : List Ptr

abbrev TimerM := StateT TimerSt Option

def invalidTimerInterval : UInt64 := -1

/-- `(int64_t)(a - b) >= 0`. -/
def timeAfterEq (a b : UInt64) : Bool := (a - b) < 0x8000000000000000

namespace TimerSt

def setPrev (s : TimerSt) (p : Ptr) (v : TPtr) : TimerSt :=
  { s with timerPrev := fun q => if q = p then v else s.timerPrev q }

def setNext (s : TimerSt) (p : Ptr) (v : TPtr) : TimerSt :=
  { s with timerNext := fun q => if q = p then v else s.timerNext q }

def setInterval (s : TimerSt) (p : Ptr) (v : UInt64) : TimerSt :=
  { s with interval := fun q => if q = p then v else s.interval q }

def setExpire (s : TimerSt) (p : Ptr) (v : UInt64) : TimerSt :=
  { s with expireTime := fun q => if q = p then v else s.expireTime q }

def setUsage (s : TimerSt) (p : Ptr) (v : Nat) : TimerSt :=
  { s with usage := fun q => if q = p then v else s.usage q }

def setInstalled (s : TimerSt) (p : Ptr) (v : Bool) : TimerSt :=
  { s with installed := fun q => if q = p then v else s.installed q }

end TimerSt

/-- An operation on the tree of the timer base. -/
def onTree {α : Type} (m : RbM α) : TimerM α := fun s => do
  let (a, rb) ← m.run s.rb
  return (a, { s with rb })

/-- The address a link holds, if it can be followed. -/
def follow : TPtr → TimerM Ptr
  | .ptr p => if p = 0 then failure else pure p
  | _ => failure

/-! ### Timers on the heap -/

def freeTimer (timer : Ptr) : TimerM Unit := modify fun s => { s with alloc := s.alloc.erase timer }

def timerGet (timer : Ptr) : TimerM Unit := modify fun s => s.setUsage timer (s.usage timer + 1)

def timerPut (timer : Ptr) : TimerM Unit := do
  modify fun s => s.setUsage timer (s.usage timer - 1)
  if (← get).usage timer = 0 then
    freeTimer timer

/-- `__timer_id_uninstall`: whether the timer was still in `timer_table`. -/
def timerIdUninstall (timer : Ptr) : TimerM Bool := do
  if (← get).installed timer then
    modify (·.setInstalled timer false)
    return true
  else
    return false

/-! ### Arming -/

/-- The `while` loop of `__find_timer_prepare`: the link, its parent and `rb_prev`. -/
def findTimerPrepareLoop (expireTime : Ptr → UInt64) (timer : Ptr) :
    Nat → RbLink → Ptr → Ptr → RbM (RbLink × Ptr × Ptr)
  | 0, _, _, _ => failure
  | fuel + 1, link, parent, prev => do
    let p ← readLink link
    if p = 0 then
      return (link, parent, prev)
    if expireTime p > expireTime timer then
      findTimerPrepareLoop expireTime timer fuel (.child p .left) p prev
    else
      findTimerPrepareLoop expireTime timer fuel (.child p .right) p p

def findTimerPrepare (expireTime : Ptr → UInt64) (timer : Ptr) : RbM (RbLink × Ptr × Ptr) := do
  findTimerPrepareLoop expireTime timer ((← get).count + 1) .root 0 0

def timerLinkList (timer prev parent : Ptr) : TimerM Unit := do
  modify (·.setPrev timer (.ptr prev))
  if prev = 0 then
    if parent ≠ 0 then
      modify (·.setNext timer (.ptr parent))
      modify (·.setPrev parent (.ptr timer))
    else
      modify (·.setNext timer (.ptr 0))
    modify ({ · with first := timer })
  else
    let next := (← get).timerNext prev
    modify (·.setNext timer next)
    if next ≠ .ptr 0 then
      let next ← follow next
      modify (·.setPrev next (.ptr timer))
    modify (·.setNext prev (.ptr timer))

def insertTimer (timer : Ptr) : TimerM Unit := do
  let (link, parent, prev) ← onTree (findTimerPrepare (← get).expireTime timer)
  timerLinkList timer prev parent
  onTree (rbInsert timer link parent)
  modify fun s => { s with armed := s.armed ++ [timer] }

def timerUnlinkList (timer : Ptr) : TimerM Unit := do
  let next := (← get).timerNext timer
  if (← get).first = timer then
    if next ≠ .ptr 0 then
      let next ← follow next
      modify (·.setPrev next (.ptr 0))
      modify ({ · with first := next })
    else
      modify ({ · with first := 0 })
  else
    let prev ← follow ((← get).timerPrev timer)
    modify (·.setNext prev next)
    if next ≠ .ptr 0 then
      let next ← follow next
      modify fun s => s.setPrev next (s.timerPrev timer)
  modify (·.setNext timer .poison1)
  modify (·.setPrev timer .poison2)

def unlinkTimer (timer : Ptr) : TimerM Unit := do
  timerUnlinkList timer
  onTree (aoslRbErase timer)
  modify fun s => { s with armed := s.armed.erase timer }

/-- `tick` is what `aosl_tick_now` returns if it is called. -/
def schedTimer (timer : Ptr) (expireTime tick : UInt64) : TimerM Unit := do
  if expireTime ≠ 0 then
    modify (·.setInterval timer invalidTimerInterval)
    modify (·.setExpire timer expireTime)
  else if (← get).interval timer ≠ invalidTimerInterval then
    modify fun s => s.setExpire timer (tick + s.interval timer)
  else
    modify (·.setExpire timer (-1))
  insertTimer timer

/-- `if (timer->timer_next != AOSL_LIST_POISON1) __unlink_timer (..)`. -/
def cancelTimerOnQ (timer : Ptr) : TimerM Unit := do
  if (← get).timerNext timer ≠ .poison1 then
    unlinkTimer timer

def reschedTimer (timer : Ptr) (interval expireTime tick : UInt64) : TimerM Unit := do
  cancelTimerOnQ timer
  if expireTime = 0 ∧ interval ≠ invalidTimerInterval then
    modify (·.setInterval timer interval)
  schedTimer timer expireTime tick

/-- `timer` is what `aosl_malloc` returned. -/
def createTimerOnQ (timer : Ptr) (interval : UInt64) : TimerM Unit := do
  modify fun s => { s with alloc := s.alloc ++ [timer] }
  modify (·.setNext timer .poison1)
  modify (·.setPrev timer .poison2)
  modify (·.setUsage timer 1)
  modify (·.setInterval timer interval)
  modify (·.setExpire timer (-1))
  modify fun s => { s with timers := s.timers ++ [timer] }
  modify (·.setInstalled timer true)

def setTimerOnQ (timer : Ptr) (interval expireTime tick : UInt64) : TimerM Unit := do
  createTimerOnQ timer interval
  schedTimer timer expireTime tick

/-- Whether the timer was killed; `false` is `-AOSL_EINVAL`. -/
def killTimerOnQ (timer : Ptr) : TimerM Bool := do
  if ← timerIdUninstall timer then
    cancelTimerOnQ timer
    modify fun s => { s with timers := s.timers.erase timer }
    timerPut timer
    return true
  else
    return false

/-- One round of the loop of `__check_and_run_timers` before the callback: the timer whose `func` is
called. The loop reads `base->first` again after each callback, so it is a sequence of such rounds
with the operations of the callbacks between them. -/
def fireTimer (now tick : UInt64) : TimerM (Option Ptr) := do
  let timer := (← get).first
  if timer ≠ 0 ∧ timeAfterEq now ((← get).expireTime timer) then
    unlinkTimer timer
    if (← get).interval timer ≠ invalidTimerInterval then
      modify fun s => s.setExpire timer (tick + s.interval timer - (now - s.expireTime timer))
      insertTimer timer
    return some timer
  else
    return none

def mpqInitTimers (s : TimerSt) : TimerSt :=
  { s with rb := aoslRbRootInit s.rb, first := 0, timers := [], installed := fun _ => false, alloc := [], armed := [] }

end Aosl
