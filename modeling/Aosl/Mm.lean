import Aosl.RbRun
import Mathlib.Data.BitVec

/-!
# Memory statistics, `mm/mm.c`

The allocation functions with `CONFIG_AOSL_MEM_STAT` and `CONFIG_AOSL_MEM_DUMP`, called one at a time. Every block that
is handed out has a node in `__mm_ptr_tree`, and every function and line that allocates has one in `__mm_pos_tree`.
`Hal` is what the HAL returns in a call; it never returns memory that is in use, so such a call is none (`none`), and
neither is one that ends in `abort` or writes through `NULL`. `live` is not in the code: the blocks that the HAL has
handed out to the callers, with their sizes and where they were allocated.
-/

namespace Aosl
open Lib

namespace Mm

/-- The characters of a string, without the `NUL`. -/
abbrev CStr := List UInt8

/-- `struct mm_ptr_node`; also a block. -/
structure PtrNode where
  ptr : Nat
  size : Nat
  func : Option CStr
  line : Int
deriving DecidableEq

/-- `struct mm_pos_node`. -/
structure PosNode where
  func : CStr
  line : Int
  cnts : Int
  size : BitVec 64
deriving DecidableEq

/-- `sizeof (struct mm_ptr_node)` and `sizeof (struct mm_pos_node)`, for 64 bits. -/
def sizeofPtrNode : Nat := 56

def sizeofPosNode : Nat := 48

structure MmSt where
  inited : Bool
  ptrTree : RbSt
  ptrNode : Ptr → PtrNode
  posTree : RbSt
  posNode : Ptr → PosNode
  memUsed : BitVec 64
  live : List PtrNode

/-- What the HAL returns: the block, and the memory for a node of either tree. -/
structure Hal where
  block : Nat
  ptrNode : Ptr
  posNode : Ptr
deriving DecidableEq

/-! ### Keys -/

def mmPtrCmp (p q : Nat) : Int := if q < p then 1 else if p < q then -1 else 0

/-- `strcmp`; a string ends before any character. -/
def strcmp : CStr → CStr → Int
  | [], [] => 0
  | [], _ :: _ => -1
  | _ :: _, [] => 1
  | a :: as, b :: bs => if a.toNat = b.toNat then strcmp as bs else (a.toNat : Int) - b.toNat

def mmPosCmp (p q : CStr × Int) : Int :=
  let cmpFunc := strcmp p.1 q.1
  if cmpFunc ≠ 0 then
    if 0 < cmpFunc then 1 else -1
  else if p.2 = q.2 then 0
  else if q.2 < p.2 then 1
  else -1

namespace PtrNode

/-- `func != NULL && line != 0`: the function and the line, or that there are none. -/
def pos (b : PtrNode) : Option (CStr × Int) :=
  match b.func with
  | some func => if b.line ≠ 0 then some (func, b.line) else none
  | none => none

end PtrNode

namespace PosNode

def key (q : PosNode) : CStr × Int := (q.func, q.line)

end PosNode

/-- A result of `++` or `--` on an `int`. -/
def wrapInt (x : Int) : Int := x.bmod 4294967296

/-! ### The trees -/

/-- `MALLOC` for a node of the tree `t`: not memory of another node, and not `NULL`, as it is written at once. -/
def mallocNode (t : RbSt) (n : Ptr) : Option Ptr := if n = 0 ∨ n ∈ aoslRbTraverseLdr t then none else some n

/-- The node of `__mm_pos_tree` for this function and line, which may have to be made. -/
def findPos (hal : Hal) (func : CStr) (line : Int) (s : MmSt) : Option (Ptr × MmSt) := do
  let (p, posTree) ← (aoslFindRbNode fun q => mmPosCmp (s.posNode q).key (func, line)).run s.posTree
  if p ≠ 0 then
    return (p, { s with posTree := posTree })
  let n ← mallocNode posTree hal.posNode
  let posNode := Function.update s.posNode n ⟨func, line, 0, 0⟩
  let (_, posTree) ← (aoslRbInsertNode (fun q => mmPosCmp (posNode q).key (posNode n).key) n).run posTree
  return (n, { s with posTree := posTree, posNode := posNode, memUsed := s.memUsed + BitVec.ofNat 64 sizeofPosNode })

/-- The second half of `mm_insert_ptr_dbg`. -/
def countPos (hal : Hal) (b : PtrNode) (s : MmSt) : Option MmSt :=
  match b.pos with
  | none => some s
  | some (func, line) => do
    let (p, s) ← findPos hal func line s
    let q := s.posNode p
    let q := { q with cnts := wrapInt (q.cnts + 1), size := q.size + BitVec.ofNat 64 b.size }
    return { s with posNode := Function.update s.posNode p q }

def mmInsertPtrDbg (hal : Hal) (ptr size : Nat) (func : Option CStr) (line : Int) (s : MmSt) : Option MmSt := do
  if !s.inited then
    return s
  if ptr = 0 then
    return s
  let n ← mallocNode s.ptrTree hal.ptrNode
  let ptrNode := Function.update s.ptrNode n ⟨ptr, size, func, line⟩
  let (_, ptrTree) ← (aoslRbInsertNode (fun q => mmPtrCmp (ptrNode q).ptr (ptrNode n).ptr) n).run s.ptrTree
  countPos hal (ptrNode n) { s with
    ptrTree := ptrTree, ptrNode := ptrNode, memUsed := s.memUsed + BitVec.ofNat 64 (size + sizeofPtrNode) }

def mmInsertPtr (hal : Hal) (ptr size : Nat) (s : MmSt) : Option MmSt := mmInsertPtrDbg hal ptr size none 0 s

/-- The second half of `mm_remove_ptr`. -/
def uncountPos (b : PtrNode) (s : MmSt) : Option MmSt :=
  match b.pos with
  | none => some s
  | some pos => do
    let (p, posTree) ← (aoslFindRbNode fun q => mmPosCmp (s.posNode q).key pos).run s.posTree
    if p = 0 then
      return { s with posTree := posTree }
    let q := s.posNode p
    let q := { q with cnts := wrapInt (q.cnts - 1), size := q.size - BitVec.ofNat 64 b.size }
    let posNode := Function.update s.posNode p q
    if (posNode p).cnts = 0 then
      let (_, posTree) ← (aoslRbRemove fun q => mmPosCmp (posNode q).key (posNode p).key).run posTree
      return { s with posTree := posTree, posNode := posNode, memUsed := s.memUsed - BitVec.ofNat 64 sizeofPosNode }
    else
      return { s with posTree := posTree, posNode := posNode }

def mmRemovePtr (ptr : Nat) (s : MmSt) : Option MmSt := do
  if !s.inited then
    return s
  if ptr = 0 then
    return s
  let (n, ptrTree) ← (aoslRbRemove fun q => mmPtrCmp (s.ptrNode q).ptr ptr).run s.ptrTree
  if n = 0 then
    return { s with ptrTree := ptrTree }
  let b := s.ptrNode n
  uncountPos b { s with ptrTree := ptrTree, memUsed := s.memUsed - BitVec.ofNat 64 (b.size + sizeofPtrNode) }

/-! ### The functions -/

/-- The HAL hands out `b`. -/
def handOut (b : PtrNode) (s : MmSt) : Option MmSt :=
  if b.ptr ∈ s.live.map PtrNode.ptr then none else some { s with live := b :: s.live }

/-- The HAL takes the block at `ptr` back. -/
def takeBack (ptr : Nat) (s : MmSt) : MmSt := { s with live := s.live.filter (·.ptr ≠ ptr) }

def aoslMallocImplDbg (hal : Hal) (size : Nat) (func : Option CStr) (line : Int) (s : MmSt) : Option (Nat × MmSt) := do
  let p := hal.block
  if p % 8 ≠ 0 ∨ p = 0 then
    none
  let s ← handOut ⟨p, size, func, line⟩ s
  return (p, ← mmInsertPtrDbg hal p size func line s)

def aoslMallocImpl (hal : Hal) (size : Nat) (s : MmSt) : Option (Nat × MmSt) := do
  let p := hal.block
  if p % 8 ≠ 0 ∨ p = 0 then
    none
  let s ← handOut ⟨p, size, none, 0⟩ s
  return (p, ← mmInsertPtr hal p size s)

def aoslFreeImpl (ptr : Nat) (s : MmSt) : Option MmSt := do
  let s ← mmRemovePtr ptr s
  return takeBack ptr s

/-- `nmemb * size`. -/
def callocSize (nmemb size : Nat) : Nat := nmemb * size % 18446744073709551616

def aoslCallocImpl (hal : Hal) (nmemb size : Nat) (s : MmSt) : Option (Nat × MmSt) :=
  aoslMallocImpl hal (callocSize nmemb size) s

def aoslCallocImplDbg (hal : Hal) (nmemb size : Nat) (func : Option CStr) (line : Int) (s : MmSt) : Option (Nat × MmSt) :=
  aoslMallocImplDbg hal (callocSize nmemb size) func line s

/-- `REALLOC`: the result is `hal.block`. If that is `NULL`, the block is left as it is, or was freed. -/
def halRealloc (hal : Hal) (freed : Bool) (ptr size : Nat) (func : Option CStr) (line : Int) (s : MmSt) : Option MmSt :=
  if hal.block ≠ 0 then handOut ⟨hal.block, size, func, line⟩ (takeBack ptr s)
  else some (if freed then takeBack ptr s else s)

def aoslReallocImplDbg (hal : Hal) (freed : Bool) (ptr size : Nat) (func : Option CStr) (line : Int) (s : MmSt) :
    Option (Nat × MmSt) := do
  let newPtr := hal.block
  let s ← halRealloc hal freed ptr size func line s
  if newPtr ≠ 0 then
    let s ← mmRemovePtr ptr s
    return (newPtr, ← mmInsertPtrDbg hal newPtr size func line s)
  else
    return (newPtr, s)

def aoslReallocImpl (hal : Hal) (freed : Bool) (ptr size : Nat) (s : MmSt) : Option (Nat × MmSt) := do
  let newPtr := hal.block
  let s ← halRealloc hal freed ptr size none 0 s
  if newPtr ≠ 0 then
    let s ← mmRemovePtr ptr s
    return (newPtr, ← mmInsertPtr hal newPtr size s)
  else
    return (newPtr, s)

def aoslStrdupImpl (hal : Hal) (str : Option CStr) (s : MmSt) : Option (Nat × MmSt) :=
  match str with
  | some str => aoslMallocImpl hal (str.length + 1) s
  | none => some (0, s)

def aoslStrdupImplDbg (hal : Hal) (str : Option CStr) (func : Option CStr) (line : Int) (s : MmSt) : Option (Nat × MmSt) :=
  match str with
  | some str => aoslMallocImplDbg hal (str.length + 1) func line s
  | none => some (0, s)

/-! ### Calls -/

/-- A call. `freed` says of a `realloc` that fails whether the HAL has freed the block. -/
inductive MmAct where
  | malloc (hal : Hal) (size : Nat)
  | mallocDbg (hal : Hal) (size : Nat) (func : Option CStr) (line : Int)
  | calloc (hal : Hal) (nmemb size : Nat)
  | callocDbg (hal : Hal) (nmemb size : Nat) (func : Option CStr) (line : Int)
  | realloc (hal : Hal) (freed : Bool) (ptr size : Nat)
  | reallocDbg (hal : Hal) (freed : Bool) (ptr size : Nat) (func : Option CStr) (line : Int)
  | strdup (hal : Hal) (str : Option CStr)
  | strdupDbg (hal : Hal) (str : Option CStr) (func : Option CStr) (line : Int)
  | free (ptr : Nat)
deriving DecidableEq

def step (s : MmSt) : MmAct → Option MmSt
  | .malloc hal size => (aoslMallocImpl hal size s).map Prod.snd
  | .mallocDbg hal size func line => (aoslMallocImplDbg hal size func line s).map Prod.snd
  | .calloc hal nmemb size => (aoslCallocImpl hal nmemb size s).map Prod.snd
  | .callocDbg hal nmemb size func line => (aoslCallocImplDbg hal nmemb size func line s).map Prod.snd
  | .realloc hal freed ptr size => (aoslReallocImpl hal freed ptr size s).map Prod.snd
  | .reallocDbg hal freed ptr size func line => (aoslReallocImplDbg hal freed ptr size func line s).map Prod.snd
  | .strdup hal str => (aoslStrdupImpl hal str s).map Prod.snd
  | .strdupDbg hal str func line => (aoslStrdupImplDbg hal str func line s).map Prod.snd
  | .free ptr => aoslFreeImpl ptr s

/-- What a call is made with: `free` and `realloc` get a live block or `NULL`, and a `realloc` that returns `NULL` frees
the block only if the size is 0. -/
def MmAct.Valid (s : MmSt) : MmAct → Prop
  | .realloc _ freed ptr size => (ptr = 0 ∨ ptr ∈ s.live.map PtrNode.ptr) ∧ (freed = true → size = 0)
  | .reallocDbg _ freed ptr size _ _ => (ptr = 0 ∨ ptr ∈ s.live.map PtrNode.ptr) ∧ (freed = true → size = 0)
  | .free ptr => ptr = 0 ∨ ptr ∈ s.live.map PtrNode.ptr
  | _ => True

instance (s : MmSt) : (a : MmAct) → Decidable (a.Valid s)
  | .realloc _ _ _ _ => inferInstanceAs (Decidable (_ ∧ _))
  | .reallocDbg _ _ _ _ _ _ => inferInstanceAs (Decidable (_ ∧ _))
  | .free _ => inferInstanceAs (Decidable (_ ∨ _))
  | .malloc _ _ | .mallocDbg _ _ _ _ | .calloc _ _ _ | .callocDbg _ _ _ _ _ | .strdup _ _ | .strdupDbg _ _ _ _ =>
    .isTrue trivial

/-- After `k_mm_init`; the memory of the nodes contains anything. -/
def initial (t t' : RbSt) (ptrNode : Ptr → PtrNode) (posNode : Ptr → PosNode) : MmSt :=
  ⟨true, aoslRbRootInit t, ptrNode, aoslRbRootInit t', posNode, 0, []⟩

end Mm

end Aosl
