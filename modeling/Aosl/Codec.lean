import Aosl.Lib.Traverse
import Aosl.MarshalMem

/-!
# The codec on tables of descriptors, `lib/marshalling.c`

Type descriptors point to each other, and a list or a tree is described by one that leads back to itself. Here the
descriptors are the entries of a table, with all their fields, and `child` is a place in it. The numbers that are no
`aosl_type_id` are `unknown`. `_____marshal` and `_____unmarshal` are traversals: what a call does on its own, up to the
first call that it makes of itself, is `marshalEnter` and `unmarshalEnter`.

Two things are as the code has them and not as one would expect. Where `get_type_size` fails for the child of a fixed or
a variable array, or for that of a pointer being decoded, the code goes to `__err` with the `ret` of an earlier step,
which is not negative. And the call that codes the presence byte of a pointer or a string has a descriptor
`helper_type` whose `is_have` is never set; the callee looks at it first. A `Garbage` says of it whether it is `NULL` by
chance, for each call again.

Reading and writing the packet are a `Tape` and a `Sink`, the object that is marshalled is an `Image`. `get_type_size` is
handed to the two as a function, `typeSize` in the code.
-/

namespace Aosl
open Lib Attempt Machine

/-- How a call ends that returns no length. -/
inductive Halt where
  /-- A negative number. -/
  | err (x : Err)
  /-- Memory is used that nothing was written to, or that is not there. -/
  | wild
  /-- A function is called at an address that nothing was written to. -/
  | strays
  /-- `get_type_size` does not return. -/
  | hangs
deriving DecidableEq

inductive TypeId where
  | void
  | scalar (k : Scalar)
  | pointer
  | reference
  | string
  | struct
  | fixedBytes
  | varBytes
  | bytesWithNil
  | dynamicBytes
  | dynamicString
  | fixedArray
  | varArray
  | dynamicArray
  | unknown
deriving DecidableEq

/-- `aosl_type_info_t`. An `is_have` function looks at the memory, which is what it was before and the writes so far. -/
structure Desc where
  typeId : TypeId
  objSize : UInt32
  arraySize : UInt32
  countVarAddr : Nat
  objAddr : Nat
  isHave : Option (List Write → Region → Nat → Bool)
  child : Nat

/-- `type->is_have && !type->is_have (this_obj_addr)`. -/
def Desc.absent (d : Desc) (writes : List Write) (r : Region) (thisObjAddr : Nat) : Bool :=
  d.isHave.any fun isHave => !isHave writes r thisObjAddr

/-- A descriptor whose other fields are 0. -/
def Desc.plain (typeId : TypeId) (arraySize : UInt32) (child : Nat) : Desc := ⟨typeId, 0, arraySize, 0, 0, none, child⟩

abbrev Table := List Desc

/-- What is in `helper_type.is_have`: `NULL`, or some address to call. -/
inductive Garbage where
  | null
  | wild
deriving DecidableEq

/-! ## `get_type_size` -/

/-- More turns than there are descriptors mean that it comes back to one. -/
def getTypeSize (A : Arch) (g : Table) : (turns : Nat) → Nat → Except Halt Nat
  | 0, _ => .error .hangs
  | turns + 1, t => match g[t]? with
    | none => .error .wild
    | some d => match d.typeId with
      | .void => .ok 0
      | .scalar k => .ok k.size
      | .pointer | .string => .ok A.ptrSize
      | .reference => getTypeSize A g turns d.child
      | .struct => .ok d.objSize.toNat
      | .fixedBytes | .varBytes | .bytesWithNil => .ok d.arraySize.toNat
      | .dynamicBytes | .dynamicString | .dynamicArray => .ok (2 * A.ptrSize)
      | .fixedArray | .varArray =>
        (getTypeSize A g turns d.child).map fun size => size * d.arraySize.toNat % A.sizeMod
      | .unknown => .error (.err .einval)

def typeSize (A : Arch) (g : Table) (t : Nat) : Except Halt Nat := getTypeSize A g (g.length + 1) t

/-! ## The calls of a call -/

/-- A length, and the calls that are made next. -/
abbrev Calls (π : Type) := Nat × (Nat → Option π)

section
variable {π : Type}

def noCall : Nat → Option π := fun _ => none

def oneCall (p : π) : Nat → Option π
  | 0 => some p
  | _ + 1 => none

/-- `for (i = 0; i < n; i++)` with an `uint16_t i`, which is 0 again after 65535. -/
def uint16Calls (n : Nat) (p : Nat → π) : Nat → Option π :=
  fun k => if k % 65536 < n then some (p (k % 65536)) else none

end

/-- `for (type = type->child; type->type_id != AOSL_TYPE_VOID; type++)`. A table without such an end is left. -/
def members (g : Table) (child : Nat) : List Nat :=
  (List.range' child (g.length + 1)).takeWhile fun t => g[t]?.all fun d => d.typeId ≠ .void

/-! ## `_____unmarshal` -/

/-- A reader in which a call that does not set `*psb_p` leaves its caller at the buffer `p₀` was at. -/
structure Tape (σ : Type) extends Reader σ where
  handBack : (p₀ p : σ) → σ

namespace Feed

def handBack (p₀ p : Feed) : Feed :=
  match p.segs.drop p₀.gone.length with
  | [] => p
  | q :: qs => ⟨p.segs.take p₀.gone.length, q, qs⟩

def tape : Tape Feed := { reader with handBack := handBack }

end Feed

/-- A call: the descriptor and `typed_obj_p`. -/
structure Place where
  desc : Nat
  region : Region
  addr : Nat
deriving DecidableEq

namespace Codec

section
variable {σ : Type}

def decoder {α : Type} (m : Decoder σ α) : Attempt Halt (Mem σ) α := ⟨fun s =>
  match m.run s with
  | (.ok a, s) => (.ok a, s)
  | (.error .fault, s) => (.error .wild, s)
  | (.error x, s) => (.error (.err x), s)⟩

theorem decoder_ok {α : Type} {m : Decoder σ α} {s s' : Mem σ} {a : α} (h : m.run s = (.ok a, s')) :
    (decoder m).run s = (.ok a, s') := by
  simp only [decoder, h]

theorem decoder_error {α : Type} {m : Decoder σ α} {s s' : Mem σ} {x : Err} (h : m.run s = (.error x, s')) :
    ∃ y, (decoder m).run s = (.error y, s') ∧ (y = .wild ∨ ∃ z, y = .err z) := by
  cases x
  case fault => exact ⟨.wild, by simp only [decoder, h], .inl rfl⟩
  all_goals exact ⟨_, by simp only [decoder, h]; rfl, .inr ⟨_, rfl⟩⟩

/-- `_____unmarshal (&helper_type, NULL, &psb)`. -/
def decodeHelper (S : Tape σ) : Garbage → Attempt Halt (Mem σ) (List UInt8)
  | .null => decoder (Decoder.base S.toReader 1)
  | .wild => Attempt.fail .strays

def handBack (S : Tape σ) (p₀ : σ) : Attempt Halt (Mem σ) Unit :=
  ⟨fun s => (.ok (), { s with psb := S.handBack p₀ s.psb })⟩

def current : Attempt Halt (Mem σ) σ := ⟨fun s => (.ok s.psb, s)⟩

theorem run_current {s : Mem σ} : current.run s = (.ok s.psb, s) := rfl

/-- The `switch`. -/
def unmarshalCase (S : Tape σ) (A : Arch) (e : Endian) (mem : Nat → Bool) (size : Nat → Except Halt Nat) (g : Table)
    (b : Garbage) (d : Desc) (p : Place) (thisObjAddr : Nat) : Attempt Halt (Mem σ) (Calls Place) :=
  match d.typeId with
  | .void => return (0, noCall)
  | .scalar k => do
    let bs ← decoder (Decoder.base S.toReader k.size)
    decoder (Decoder.poke p.region thisObjAddr (.bytes bs))
    return (k.size, noCall)
  | .pointer => do
    let psb ← current
    let val ← decodeHelper S b
    if val = [0] then
      decoder (Decoder.poke p.region thisObjAddr (.ptr none))
      return (1, noCall)
    else
      match size d.child with
      -- `goto __err` with the 1 that the helper returned
      | .error (.err _) => do
        handBack S psb
        return (1, noCall)
      | .error x => Attempt.fail x
      | .ok objSize => do
        let k ← decoder (Decoder.malloc mem objSize objSize (return))
        decoder (Decoder.poke p.region thisObjAddr (.ptr (some k)))
        return (1, oneCall ⟨d.child, .block k, 0⟩)
  | .reference => return (0, oneCall ⟨d.child, p.region, thisObjAddr⟩)
  | .string => do
    let val ← decodeHelper S b
    if val = [0] then
      decoder (Decoder.poke p.region thisObjAddr (.ptr none))
      return (1, noCall)
    else do
      let n ← decoder (Decoder.strsize S.toReader)
      let k ← decoder (Decoder.malloc mem (n % 65536) (n % 65536) (return))
      decoder (Decoder.poke p.region thisObjAddr (.ptr (some k)))
      decoder (Decoder.copy S.toReader (.block k) 0 (n % 65536))
      return (1 + n % 65536, noCall)
  | .struct => return (0, fun k => (members g d.child)[k]?.map fun t => ⟨t, p.region, thisObjAddr⟩)
  | .fixedBytes => do
    decoder (Decoder.copy S.toReader p.region thisObjAddr d.arraySize.toNat)
    return (d.arraySize.toNat, noCall)
  | .varBytes => do
    let bs ← decoder (Decoder.base S.toReader 2)
    if (e.val bs).toNat > d.arraySize.toNat then Attempt.fail (.err .enospc)
    else do
      decoder (Decoder.poke p.region (p.addr + d.countVarAddr) (.bytes (e.bytes (e.val bs))))
      decoder (Decoder.copy S.toReader p.region thisObjAddr (e.val bs).toNat)
      return (2 + (e.val bs).toNat, noCall)
  | .bytesWithNil => do
    let n ← decoder (Decoder.strsize S.toReader)
    if n % 65536 > d.arraySize.toNat then Attempt.fail (.err .enospc)
    else do
      decoder (Decoder.copy S.toReader p.region thisObjAddr (n % 65536))
      return (n % 65536, noCall)
  | .dynamicBytes => do
    let l ← decoder (TypeDesc.unmarshalDyn S.toReader A e mem 0 p.region thisObjAddr)
    return (l, noCall)
  | .dynamicString => do
    let l ← decoder (TypeDesc.unmarshalDyn S.toReader A e mem 1 p.region thisObjAddr)
    return (l, noCall)
  | .fixedArray =>
    match size d.child with
    -- `goto __err` with `ret = 0`
    | .error (.err _) => return (0, noCall)
    | .error x => Attempt.fail x
    | .ok objSize =>
      return (0, uint16Calls d.arraySize.toNat fun i => ⟨d.child, p.region, thisObjAddr + objSize * i % A.sizeMod⟩)
  | .varArray =>
    match size d.child with
    | .error (.err _) => return (0, noCall)
    | .error x => Attempt.fail x
    | .ok objSize => do
      let bs ← decoder (Decoder.base S.toReader 2)
      if (e.val bs).toNat > d.arraySize.toNat then Attempt.fail (.err .enospc)
      else do
        decoder (Decoder.poke p.region (p.addr + d.countVarAddr) (.bytes (e.bytes (e.val bs))))
        return (2, uint16Calls (e.val bs).toNat fun i => ⟨d.child, p.region, thisObjAddr + objSize * i % A.sizeMod⟩)
  | .dynamicArray => do
    let bs ← decoder (Decoder.base S.toReader 2)
    decoder (TypeDesc.setCount e p.region thisObjAddr (e.val bs) (e.val bs))
    if e.val bs = 0 then return (2, noCall)
    else
      match size d.child with
      | .error (.err x) => do
        decoder (TypeDesc.setCount e p.region thisObjAddr 0 0)
        Attempt.fail (.err x)
      | .error x => Attempt.fail x
      | .ok objSize => do
        let k ← decoder (Decoder.malloc mem (objSize * (e.val bs).toNat % A.sizeMod) (objSize * (e.val bs).toNat)
          (TypeDesc.setCount e p.region thisObjAddr 0 0))
        decoder (Decoder.poke p.region (thisObjAddr + A.ptrSize) (.ptr (some k)))
        return (2, uint16Calls (e.val bs).toNat fun i => ⟨d.child, .block k, objSize * i % A.sizeMod⟩)
  | .unknown => Attempt.fail (.err .einval)

def unmarshalEnter (S : Tape σ) (A : Arch) (e : Endian) (mem : Nat → Bool) (G : Place → Mem σ → Garbage)
    (size : Nat → Except Halt Nat) (g : Table) (p : Place) : Attempt Halt (Mem σ) (Calls Place) := ⟨fun s =>
  match g[p.desc]? with
  | none => (.error .wild, s)
  | some d =>
    if d.absent s.writes p.region (p.addr + d.objAddr) then (.ok (0, noCall), s)
    else (unmarshalCase S A e mem size g (G p s) d p (p.addr + d.objAddr)).run s⟩

section
variable {S : Tape σ} {A : Arch} {e : Endian} {mem : Nat → Bool} {G : Place → Mem σ → Garbage}
  {size : Nat → Except Halt Nat} {g : Table} {p : Place} {s : Mem σ} {d : Desc}

theorem unmarshalEnter_none (hd : g[p.desc]? = none) :
    (unmarshalEnter S A e mem G size g p).run s = (.error .wild, s) := by
  simp only [unmarshalEnter, hd]

theorem unmarshalEnter_absent (hd : g[p.desc]? = some d)
    (h : d.absent s.writes p.region (p.addr + d.objAddr) = true) :
    (unmarshalEnter S A e mem G size g p).run s = (.ok (0, noCall), s) := by
  simp only [unmarshalEnter, hd, h, if_pos]

theorem unmarshalEnter_present (hd : g[p.desc]? = some d)
    (h : d.absent s.writes p.region (p.addr + d.objAddr) = false) :
    (unmarshalEnter S A e mem G size g p).run s =
      (unmarshalCase S A e mem size g (G p s) d p (p.addr + d.objAddr)).run s := by
  simp only [unmarshalEnter, hd, h, Bool.false_eq_true, if_false]

end

section
variable {S : Tape σ} {A : Arch} {e : Endian} {mem : Nat → Bool} {size : Nat → Except Halt Nat} {g : Table} {d : Desc}
  {p : Place} {thisObjAddr : Nat} {b : Garbage} {E : Halt → Prop}

theorem decoder_errors (herr : ∀ x, E (.err x)) (hwild : E .wild) {α : Type} (m : Decoder σ α) :
    (decoder m).Yields (fun _ => True) E := by
  refine ⟨fun _ _ _ _ => True.intro, fun s x s' h => ?_⟩
  rcases hrun : m.run s with ⟨y | a, s₁⟩
  · obtain ⟨z, hz, hkind⟩ := decoder_error hrun
    rw [hz] at h
    obtain rfl := Except.error.inj (Prod.mk.inj h).1
    obtain rfl | ⟨w, rfl⟩ := hkind
    · exact hwild
    · exact herr w
  · rw [decoder_ok hrun] at h
    exact absurd (congrArg Prod.fst h) nofun

/-- How a call fails on its own. -/
theorem unmarshalCase_errors (herr : ∀ x, E (.err x)) (hwild : E .wild) (hsize : ∀ x, size d.child = .error x → E x)
    (hb : b = .wild → E .strays) :
    (unmarshalCase S A e mem size g b d p thisObjAddr).Yields (fun _ => True) E := by
  have hdec : ∀ {α : Type} (m : Decoder σ α), (decoder m).Yields (fun _ => True) E := decoder_errors herr hwild
  have hpure : ∀ c : Calls Place, (pure c : Attempt Halt (Mem σ) (Calls Place)).Yields (fun _ => True) E := fun _ =>
    Yields.pure True.intro
  have hhelper : (decodeHelper S b).Yields (fun _ => True) E := by
    cases b with
    | null => exact hdec _
    | wild => exact Yields.fail (hb rfl)
  unfold unmarshalCase
  cases d.typeId with
  | void => exact hpure _
  | scalar k => exact (hdec _).bind fun _ _ => (hdec _).bind fun _ _ => hpure _
  | pointer =>
    refine Yields.bind ⟨fun _ _ _ _ => True.intro, fun _ _ _ h => absurd (congrArg Prod.fst h) nofun⟩ fun psb _ => ?_
    refine hhelper.bind fun val _ => ?_
    split
    · exact (hdec _).bind fun _ _ => hpure _
    · split
      · exact Yields.bind ⟨fun _ _ _ _ => True.intro, fun _ _ _ h => absurd (congrArg Prod.fst h) nofun⟩ fun _ _ => hpure _
      · exact Yields.fail (hsize _ ‹_›)
      · exact (hdec _).bind fun _ _ => (hdec _).bind fun _ _ => hpure _
  | reference => exact hpure _
  | string =>
    refine hhelper.bind fun val _ => ?_
    split
    · exact (hdec _).bind fun _ _ => hpure _
    · refine (hdec _).bind fun n _ => (hdec _).bind fun k _ => (hdec _).bind fun _ _ => ?_
      exact (hdec _).bind fun _ _ => hpure _
  | struct => exact hpure _
  | fixedBytes => exact (hdec _).bind fun _ _ => hpure _
  | varBytes =>
    refine (hdec _).bind fun bs _ => ?_
    split
    · exact Yields.fail (herr _)
    · exact (hdec _).bind fun _ _ => (hdec _).bind fun _ _ => hpure _
  | bytesWithNil =>
    refine (hdec _).bind fun n _ => ?_
    split
    · exact Yields.fail (herr _)
    · exact (hdec _).bind fun _ _ => hpure _
  | dynamicBytes => exact (hdec _).bind fun _ _ => hpure _
  | dynamicString => exact (hdec _).bind fun _ _ => hpure _
  | fixedArray =>
    dsimp only
    split
    · exact hpure _
    · exact Yields.fail (hsize _ ‹_›)
    · exact hpure _
  | varArray =>
    dsimp only
    split
    · exact hpure _
    · exact Yields.fail (hsize _ ‹_›)
    · refine (hdec _).bind fun bs _ => ?_
      split
      · exact Yields.fail (herr _)
      · exact (hdec _).bind fun _ _ => hpure _
  | dynamicArray =>
    refine (hdec _).bind fun bs _ => (hdec _).bind fun _ _ => ?_
    split
    · exact hpure _
    · split
      · exact (hdec _).bind fun _ _ => Yields.fail (herr _)
      · exact Yields.fail (hsize _ ‹_›)
      · exact (hdec _).bind fun k _ => (hdec _).bind fun _ _ => hpure _
  | unknown => exact Yields.fail (herr _)

theorem unmarshalEnter_errors {G : Place → Mem σ → Garbage} (herr : ∀ x, E (.err x)) (hwild : E .wild)
    (hsize : ∀ t x, size t = .error x → E x) (hG : ∀ s, G p s = .wild → E .strays) :
    (unmarshalEnter S A e mem G size g p).Yields (fun _ => True) E := by
  refine Yields.of_runs fun s => ?_
  cases hd : g[p.desc]? with
  | none => exact ⟨Attempt.fail .wild, unmarshalEnter_none hd, Yields.fail hwild⟩
  | some d =>
    cases hhave : d.absent s.writes p.region (p.addr + d.objAddr) with
    | true => exact ⟨pure (0, noCall), unmarshalEnter_absent hd hhave, Yields.pure True.intro⟩
    | false => exact ⟨_, unmarshalEnter_present hd hhave, unmarshalCase_errors herr hwild (hsize d.child) (hG s)⟩

end

/-- `_____unmarshal`. -/
def unmarshal (S : Tape σ) (A : Arch) (e : Endian) (mem : Nat → Bool) (G : Place → Mem σ → Garbage) (g : Table) :
    Machine Halt (Mem σ) Place := ⟨unmarshalEnter S A e mem G (typeSize A g) g⟩

end

end Codec

/-! ## `_____marshal` -/

/-- The object, and all memory that its pointers lead to: what is loaded at an address. -/
structure Image where
  bytes : Nat → Nat → List UInt8
  count : Nat → UInt16
  /-- 0 is `NULL`. -/
  ptr : Nat → Nat
  /-- What stands before the first `'\0'`. -/
  str : Nat → List UInt8

/-- `__CHECK_AND_ENCODE_BASETYPE` and `__CHECK_AND_ENCODE_BYTES`, which fail where `alloc_psb` does. -/
structure Sink (τ : Type) where
  encodeBase : List UInt8 → τ → Option Err × τ
  encodeBytes : List UInt8 → τ → Option Err × τ

def Writer.sink : Sink Writer where
  encodeBase bs w := (none, w.encodeBase bs)
  encodeBytes bs w := (none, w.encodeBytes bs)

/-- A call: the descriptor and `typed_obj_p`. -/
structure Spot where
  desc : Nat
  addr : Nat
deriving DecidableEq

namespace Codec

section
variable {τ : Type}

def encoder (put : τ → Option Err × τ) : Attempt Halt τ Unit := ⟨fun s =>
  match put s with
  | (none, s) => (.ok (), s)
  | (some x, s) => (.error (.err x), s)⟩

/-- `_____marshal (&helper_type, NULL, &psb)`. -/
def encodeHelper (S : Sink τ) (boolVal : Bool) : Garbage → Attempt Halt τ Unit
  | .null => encoder (S.encodeBase [boolVal.toUInt8])
  | .wild => Attempt.fail .strays

/-- The `switch`. -/
def marshalCase (S : Sink τ) (A : Arch) (e : Endian) (img : Image) (size : Nat → Except Halt Nat) (g : Table)
    (b : Garbage) (d : Desc) (p : Spot) (thisObjAddr : Nat) : Attempt Halt τ (Calls Spot) :=
  match d.typeId with
  | .void => return (0, noCall)
  | .scalar k => do
    encoder (S.encodeBase (img.bytes thisObjAddr k.size))
    return (k.size, noCall)
  | .pointer => do
    encodeHelper S (img.ptr thisObjAddr ≠ 0) b
    if img.ptr thisObjAddr = 0 then return (1, noCall)
    else return (1, oneCall ⟨d.child, img.ptr thisObjAddr⟩)
  | .reference => return (0, oneCall ⟨d.child, thisObjAddr⟩)
  | .string => do
    encodeHelper S (img.ptr thisObjAddr ≠ 0) b
    if img.ptr thisObjAddr = 0 then return (1, noCall)
    else do
      let str := img.str (img.ptr thisObjAddr)
      encoder (S.encodeBytes ((str ++ [0]).take ((str.length + 1) % 65536)))
      return (1 + (str.length + 1) % 65536, noCall)
  | .struct => return (0, fun k => (members g d.child)[k]?.map fun t => ⟨t, thisObjAddr⟩)
  | .fixedBytes => do
    encoder (S.encodeBytes (img.bytes thisObjAddr d.arraySize.toNat))
    return (d.arraySize.toNat, noCall)
  | .varBytes => do
    let val := img.count (p.addr + d.countVarAddr)
    encoder (S.encodeBase (e.bytes val))
    encoder (S.encodeBytes (img.bytes thisObjAddr val.toNat))
    return (2 + val.toNat, noCall)
  | .bytesWithNil =>
    let str := img.str thisObjAddr
    if (str.length + 1) % 65536 > d.arraySize.toNat then Attempt.fail (.err .einval)
    else do
      encoder (S.encodeBytes ((str ++ [0]).take ((str.length + 1) % 65536)))
      return ((str.length + 1) % 65536, noCall)
  | .dynamicBytes | .dynamicString => do
    let val := img.count thisObjAddr
    encoder (S.encodeBase (e.bytes val))
    if val = 0 then return (2, noCall)
    else do
      encoder (S.encodeBytes (img.bytes (img.ptr (thisObjAddr + A.ptrSize)) val.toNat))
      return (2 + val.toNat, noCall)
  | .fixedArray =>
    match size d.child with
    -- `goto __err` with `ret = 0`
    | .error (.err _) => return (0, noCall)
    | .error x => Attempt.fail x
    | .ok objSize =>
      return (0, uint16Calls d.arraySize.toNat fun i => ⟨d.child, thisObjAddr + objSize * i % A.sizeMod⟩)
  | .varArray =>
    match size d.child with
    | .error (.err _) => return (0, noCall)
    | .error x => Attempt.fail x
    | .ok objSize => do
      let val := img.count (p.addr + d.countVarAddr)
      encoder (S.encodeBase (e.bytes val))
      return (2, uint16Calls val.toNat fun i => ⟨d.child, thisObjAddr + objSize * i % A.sizeMod⟩)
  | .dynamicArray => do
    let val := img.count thisObjAddr
    encoder (S.encodeBase (e.bytes val))
    if val = 0 then return (2, noCall)
    else
      match size d.child with
      | .error x => Attempt.fail x
      | .ok objSize =>
        let values := img.ptr (thisObjAddr + A.ptrSize)
        return (2, uint16Calls val.toNat fun i => ⟨d.child, values + objSize * i % A.sizeMod⟩)
  | .unknown => Attempt.fail (.err .einval)

def marshalEnter (S : Sink τ) (A : Arch) (e : Endian) (img : Image) (G : Spot → τ → Garbage)
    (size : Nat → Except Halt Nat) (g : Table) (p : Spot) : Attempt Halt τ (Calls Spot) := ⟨fun s =>
  match g[p.desc]? with
  | none => (.error .wild, s)
  | some d =>
    if d.absent [] .object (p.addr + d.objAddr) then (.ok (0, noCall), s)
    else (marshalCase S A e img size g (G p s) d p (p.addr + d.objAddr)).run s⟩

section
variable {S : Sink τ} {A : Arch} {e : Endian} {img : Image} {G : Spot → τ → Garbage}
  {size : Nat → Except Halt Nat} {g : Table} {p : Spot} {s : τ} {d : Desc}

theorem marshalEnter_none (hd : g[p.desc]? = none) :
    (marshalEnter S A e img G size g p).run s = (.error .wild, s) := by
  simp only [marshalEnter, hd]

theorem marshalEnter_absent (hd : g[p.desc]? = some d) (h : d.absent [] .object (p.addr + d.objAddr) = true) :
    (marshalEnter S A e img G size g p).run s = (.ok (0, noCall), s) := by
  simp only [marshalEnter, hd, h, if_pos]

theorem marshalEnter_present (hd : g[p.desc]? = some d) (h : d.absent [] .object (p.addr + d.objAddr) = false) :
    (marshalEnter S A e img G size g p).run s =
      (marshalCase S A e img size g (G p s) d p (p.addr + d.objAddr)).run s := by
  simp only [marshalEnter, hd, h, Bool.false_eq_true, if_false]

end

section
variable {S : Sink τ} {A : Arch} {e : Endian} {img : Image} {size : Nat → Except Halt Nat} {g : Table} {d : Desc}
  {p : Spot} {thisObjAddr : Nat} {b : Garbage} {E : Halt → Prop}

theorem encoder_errors (herr : ∀ x, E (.err x)) (put : τ → Option Err × τ) :
    (encoder put).Yields (fun _ => True) E := by
  refine ⟨fun _ _ _ _ => True.intro, fun s x s' h => ?_⟩
  rcases hput : put s with ⟨- | y, t⟩
  · simp [encoder, hput] at h
  · simp only [encoder, hput] at h
    obtain rfl := Except.error.inj (Prod.mk.inj h).1
    exact herr y

/-- How a call fails on its own. -/
theorem marshalCase_errors (herr : ∀ x, E (.err x)) (hsize : ∀ x, size d.child = .error x → E x)
    (hb : b = .wild → E .strays) : (marshalCase S A e img size g b d p thisObjAddr).Yields (fun _ => True) E := by
  have henc : ∀ put : τ → Option Err × τ, (encoder put).Yields (fun _ => True) E := encoder_errors herr
  have hpure : ∀ c : Calls Spot, (pure c : Attempt Halt τ (Calls Spot)).Yields (fun _ => True) E := fun _ =>
    Yields.pure True.intro
  have hhelper : ∀ v, (encodeHelper S v b).Yields (fun _ => True) E := by
    intro v
    cases b with
    | null => exact henc _
    | wild => exact Yields.fail (hb rfl)
  unfold marshalCase
  cases d.typeId with
  | void => exact hpure _
  | scalar k => exact (henc _).bind fun _ _ => hpure _
  | pointer =>
    refine (hhelper _).bind fun _ _ => ?_
    split
    · exact hpure _
    · exact hpure _
  | reference => exact hpure _
  | string =>
    refine (hhelper _).bind fun _ _ => ?_
    split
    · exact hpure _
    · exact (henc _).bind fun _ _ => hpure _
  | struct => exact hpure _
  | fixedBytes => exact (henc _).bind fun _ _ => hpure _
  | varBytes => exact (henc _).bind fun _ _ => (henc _).bind fun _ _ => hpure _
  | bytesWithNil =>
    dsimp only
    split
    · exact Yields.fail (herr _)
    · exact (henc _).bind fun _ _ => hpure _
  | dynamicBytes | dynamicString =>
    refine (henc _).bind fun _ _ => ?_
    split
    · exact hpure _
    · exact (henc _).bind fun _ _ => hpure _
  | fixedArray =>
    dsimp only
    split
    · exact hpure _
    · exact Yields.fail (hsize _ ‹_›)
    · exact hpure _
  | varArray =>
    dsimp only
    split
    · exact hpure _
    · exact Yields.fail (hsize _ ‹_›)
    · exact (henc _).bind fun _ _ => hpure _
  | dynamicArray =>
    refine (henc _).bind fun _ _ => ?_
    split
    · exact hpure _
    · split
      · exact Yields.fail (hsize _ ‹_›)
      · exact hpure _
  | unknown => exact Yields.fail (herr _)

theorem marshalEnter_errors {G : Spot → τ → Garbage} (herr : ∀ x, E (.err x)) (hwild : E .wild)
    (hsize : ∀ t x, size t = .error x → E x) (hG : ∀ s, G p s = .wild → E .strays) :
    (marshalEnter S A e img G size g p).Yields (fun _ => True) E := by
  refine Yields.of_runs fun s => ?_
  cases hd : g[p.desc]? with
  | none => exact ⟨Attempt.fail .wild, marshalEnter_none hd, Yields.fail hwild⟩
  | some d =>
    cases hhave : d.absent [] .object (p.addr + d.objAddr) with
    | true => exact ⟨pure (0, noCall), marshalEnter_absent hd hhave, Yields.pure True.intro⟩
    | false => exact ⟨_, marshalEnter_present hd hhave, marshalCase_errors herr (hsize d.child) (hG s)⟩

end

/-- `_____marshal`. -/
def marshal (S : Sink τ) (A : Arch) (e : Endian) (img : Image) (G : Spot → τ → Garbage) (g : Table) :
    Machine Halt τ Spot := ⟨marshalEnter S A e img G (typeSize A g) g⟩

end

/-- The call returns a negative number; `aosl_marshal` and `aosl_unmarshal` return -1 then. -/
def Negative {σ π : Type} (M : Machine Halt σ π) (p : π) (s : σ) : Prop := ∃ x, M.Fails p s (.err x)

end Codec
end Aosl
