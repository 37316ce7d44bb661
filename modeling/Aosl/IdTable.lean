import Aosl.IdPool

/-!
# The tables of queues, timers and ref objects

An object is created in two steps, each under the table lock: it gets an id of the pool, and it is
installed in the slot of that id under a handle made of the id and a running life id. It goes in
three: it is uninstalled, its own reference is dropped, and when nobody holds it any more its bit is
cleared and it is freed. Lookups happen all the time.

An object is its number, which is not reused. Everything between two critical sections is a state of
the object: `drops` counts the threads that uninstalled it and have still to drop it, `dying` says that
a thread is in the function that frees it. `serial`, `held` and `dropped` are not in the code: the number of
the install, the references handed out by lookups, and whether the object's own reference is gone.
-/

namespace Aosl
open Lib

/-! ### Handles -/

/-- `make_mpq_obj_id` and its siblings, for handles of `w` bits: the id is sign extended by the `|`, the
result is cut or zero extended to the handle. -/
def makeObjId (w : Nat) (id : BitVec 16) (lifeId : BitVec 16) : BitVec w :=
  ((lifeId.setWidth 32 <<< 16) ||| id.signExtend 32).setWidth w

/-- `get_mpq_id` and its siblings, a cast to `int16_t`. -/
def getObjId {w : Nat} (h : BitVec w) : BitVec 16 := h.setWidth 16

/-- `get_mpq_life_id` and its siblings. -/
def getLifeId {w : Nat} (h : BitVec w) : BitVec 16 := (h.setWidth 32 >>> 16).setWidth 16

section Handle

variable {w : Nat} {id id' life life' : BitVec 16}

theorem toNat_makeObjId (hw : 32 ≤ w) (hid : id.toNat < 0x8000) :
    (makeObjId w id life).toNat = life.toNat * 0x10000 + id.toNat := by
  have hmsb : id.msb = false := by
    rw [BitVec.msb_eq_false_iff_two_mul_lt]
    omega
  have hlife := life.isLt
  have hid' := id.isLt
  have hpow : 2 ^ 32 ≤ 2 ^ w := Nat.pow_le_pow_right (by decide) hw
  have hor : life.toNat <<< 16 ||| id.toNat = life.toNat * 0x10000 + id.toNat := by
    rw [← Nat.shiftLeft_add_eq_or_of_lt (by omega), Nat.shiftLeft_eq]
  have hval : ((life.setWidth 32 <<< 16) ||| id.signExtend 32).toNat = life.toNat * 0x10000 + id.toNat := by
    rw [BitVec.signExtend_eq_setWidth_of_msb_false hmsb, BitVec.toNat_or, BitVec.toNat_shiftLeft, BitVec.toNat_setWidth,
      BitVec.toNat_setWidth, Nat.mod_eq_of_lt (by omega), Nat.mod_eq_of_lt (by omega), ← hor]
    exact congrArg _ (Nat.mod_eq_of_lt (by omega))
  rw [makeObjId, BitVec.toNat_setWidth, hval]
  exact Nat.mod_eq_of_lt (by omega)

theorem getObjId_makeObjId (hw : 32 ≤ w) (hid : id.toNat < 0x8000) : getObjId (makeObjId w id life) = id := by
  have hid' := id.isLt
  apply BitVec.eq_of_toNat_eq
  rw [getObjId, BitVec.toNat_setWidth, toNat_makeObjId hw hid]
  omega

theorem makeObjId_inj (hw : 32 ≤ w) (hid : id.toNat < 0x8000) (hid' : id'.toNat < 0x8000)
    (h : makeObjId w id life = makeObjId w id' life') : id = id' ∧ life = life' := by
  have hval := congrArg BitVec.toNat h
  rw [toNat_makeObjId hw hid, toNat_makeObjId hw hid'] at hval
  exact ⟨BitVec.eq_of_toNat_eq (by omega), BitVec.eq_of_toNat_eq (by omega)⟩

end Handle

/-! ### The tables -/

inductive ObjKind where
  | mpq
  | timer
  | refobj
deriving DecidableEq

namespace ObjKind

/-- The bits of a handle: `aosl_mpq_t` is an `intptr_t`, `aosl_timer_t` and `aosl_ref_t` are `int`. -/
def width : ObjKind → Nat
  | mpq => 64
  | timer => 32
  | refobj => 32

def cfg : ObjKind → PoolCfg (Option Nat)
  | mpq => mpqPool
  | timer => timerPool
  | refobj => refobjPool

/-- `timer_put` and `refobj_put` free the object with the last reference. `__mpq_put` does not: the thread of a
queue frees it when it sees that it holds the only reference. -/
def counted : ObjKind → Bool
  | mpq => false
  | timer => true
  | refobj => true

end ObjKind

structure TblObj (w : Nat) where
  /-- What `get_unused_*_id` returned to the thread that creates the object. -/
  id : Nat
  objId : BitVec w
  usage : Nat
  serial : Option Nat
  held : Nat
  drops : Nat
  dropped : Bool
  dying : Bool
  /-- The bit of the object has been cleared. -/
  released : Bool

structure TblSt (k : ObjKind) where
  pool : IdPool (Option Nat)
  lifeId : BitVec 16
  obj : Nat → TblObj k.width
  size : Nat
  /-- The number of installs so far. -/
  installs : Nat
  /-- `abort` has been called, or an assertion has failed. -/
  crashed : Bool

inductive TblAct (k : ObjKind) where
  /-- `get_unused_*_id` for a new object. -/
  | alloc (memBits memTable : Bool)
  | install (o : Nat)
  /-- `*_id_uninstall` by a thread that holds the object or owns it. -/
  | uninstall (o : Nat)
  /-- `__mpq_get`, `timer_get` or `__refobj_get`. -/
  | lookup (h : BitVec k.width)
  | put (o : Nat)
  /-- The object's own reference is dropped, after an uninstall that succeeded. -/
  | drop (o : Nat)
  /-- The function that frees the object clears its bit. -/
  | release (o : Nat)

namespace TblSt

variable {k : ObjKind}

def table (s : TblSt k) : List (Option Nat) := s.pool.table

def modify (s : TblSt k) (o : Nat) (g : TblObj k.width → TblObj k.width) : TblSt k :=
  { s with obj := fun i => if i = o then g (s.obj o) else s.obj i }

def setSlot (s : TblSt k) (i : Nat) (v : Option Nat) : TblSt k :=
  { s with pool := { s.pool with table := s.table.set i v } }

def crash (s : TblSt k) : TblSt k := { s with crashed := true }

/-- What a lookup returns. -/
def find (s : TblSt k) (h : BitVec k.width) : Option Nat :=
  let id := getObjId h
  if id.toInt < 0 then none
  else match s.table[id.toNat]? with
    | some (some o) => if (s.obj o).objId = h then some o else none
    | _ => none

/-- 0 is not a life id. -/
def nextLifeId (lifeId : BitVec 16) : BitVec 16 := if lifeId + 1#16 = 0#16 then 1#16 else lifeId + 1#16

/-- A new object, whose handle is not set before the install. -/
def add (s : TblSt k) (id : Nat) (p : IdPool (Option Nat)) : TblSt k :=
  { s with
    pool := p
    obj := fun i => if i = s.size then ⟨id, -1, 1, none, 0, 0, false, false, false⟩ else s.obj i
    size := s.size + 1 }

def alloc (s : TblSt k) (memBits memTable : Bool) : TblSt k :=
  match s.pool.getUnused k.cfg memBits memTable with
  | .error .bug => s.crash
  | .error _ => s
  | .ok (id, p) => s.add id p

/-- The object is put in its slot and gets its handle. -/
def place (s : TblSt k) (o : Nat) : TblSt k :=
  { s.setSlot (s.obj o).id (some o) with
    obj := fun i => if i = o then { s.obj o with
      objId := makeObjId k.width (BitVec.ofNat 16 (s.obj o).id) s.lifeId, serial := some s.installs } else s.obj i
    lifeId := nextLifeId s.lifeId
    installs := s.installs + 1 }

def install (s : TblSt k) (o : Nat) : TblSt k :=
  if (s.obj o).id ≥ s.table.length then s.crash
  else match s.table[(s.obj o).id]? with
    | some (some _) => s.crash
    | _ => s.place o

def uninstall (s : TblSt k) (o : Nat) : TblSt k :=
  let id := getObjId (s.obj o).objId
  if id.toInt < 0 ∨ id.toNat ≥ s.table.length then s.crash
  else if s.table[id.toNat]? = some (some o) then
    (s.setSlot id.toNat none).modify o fun r => { r with drops := r.drops + 1 }
  else s

def lookup (s : TblSt k) (h : BitVec k.width) : TblSt k :=
  match s.find h with
  | none => s
  | some o => s.modify o fun r => { r with usage := r.usage + 1, held := r.held + 1 }

def put (s : TblSt k) (o : Nat) : TblSt k :=
  s.modify o fun r => { r with
    usage := r.usage - 1, held := r.held - 1, dying := r.dying || (k.counted && r.usage - 1 == 0) }

/-- The put after the uninstall; the thread of a queue has to see a count of 1 first. -/
def drop (s : TblSt k) (o : Nat) : Option (TblSt k) :=
  if k.counted then
    some (s.modify o fun r => { r with
      usage := r.usage - 1, drops := r.drops - 1, dropped := true, dying := r.usage - 1 == 0 })
  else if (s.obj o).usage > 1 then none
  else some (s.modify o fun r => { r with drops := r.drops - 1, dropped := true, dying := true })

def release (s : TblSt k) (o : Nat) : TblSt k :=
  let id := getObjId (s.obj o).objId
  if id.toInt < 0 then s.crash
  else match s.pool.putUnused id.toNat with
    | none => s.crash
    | some p => { s with pool := p }.modify o fun r => { r with released := true }

def step (s : TblSt k) (a : TblAct k) : Option (TblSt k) :=
  if s.crashed then none
  else match a with
  | .alloc memBits memTable => some (s.alloc memBits memTable)
  | .install o => if o < s.size ∧ (s.obj o).serial = none then some (s.install o) else none
  | .uninstall o =>
    if o < s.size ∧ (s.obj o).serial ≠ none ∧ ((s.obj o).held > 0 ∨ !(s.obj o).dropped) then some (s.uninstall o)
    else none
  | .lookup h => some (s.lookup h)
  | .put o => if o < s.size ∧ (s.obj o).held > 0 then some (s.put o) else none
  | .drop o => if o < s.size ∧ (s.obj o).drops > 0 then s.drop o else none
  | .release o => if o < s.size ∧ (s.obj o).dying ∧ !(s.obj o).released then some (s.release o) else none

def run (k : ObjKind) (acts : List (TblAct k)) : Option (TblSt k) :=
  (IdPool.init k.cfg).bind fun p =>
    exec step ⟨p, 1#16, fun _ => ⟨0, -1, 0, none, 0, 0, false, false, false⟩, 0, 0, false⟩ acts

end TblSt

end Aosl
