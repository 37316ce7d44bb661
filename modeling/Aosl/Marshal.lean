import Aosl.Psb

/-!
# Marshalling typed objects, `lib/marshalling.c`

A type descriptor `aosl_type_info_t` is a `TypeInfo`; `obj_addr`, `obj_size` and `count_var_addr` say
where the members of an object lie in memory, and an object is here a tree of them instead: the members
of a descriptor do not overlap, and the children of pointers and arrays start where their element does.
There is no `is_have` predicate. The bytes of numbers and addresses are kept as they stand in memory:
`__encode_int16` and its kin swap nothing, as the byte order on the wire is that of the machine.

Memory that was never written is `none` in a count or a byte and `undef` in a pointer; the functions
fail with `fault` where they would use it. The blocks of `aosl_malloc` are numbered in the order of
their allocation, and `mem k` says whether the `k`-th is granted. The code tests for `NULL` after each call, but
`aosl_malloc` aborts where there is no memory, so that `mem k = false` are branches never taken.
-/

namespace Aosl

inductive Scalar where
  | int8
  | int16
  | int32
  | int64
  | float
  | double
  | v4Ipaddr
  | v6Ipaddr
deriving DecidableEq

/-- `get_type_size` of these. -/
def Scalar.size : Scalar → Nat
  | int8 => 1
  | int16 => 2
  | int32 | float | v4Ipaddr => 4
  | int64 | double => 8
  | v6Ipaddr => 16

/-- The members of a `struct` are those before `AOSL_TYPE_STRUCT_END`. The loops over a `fixedArray`
count with an `uint16_t`. -/
inductive TypeInfo where
  | void
  | scalar (k : Scalar)
  | pointer (child : TypeInfo)
  | reference (child : TypeInfo)
  | string
  | struct (child : List TypeInfo)
  | fixedBytes (arraySize : Nat)
  | varBytes (arraySize : Nat)
  | bytesWithNil (arraySize : Nat)
  | dynamicBytes
  | dynamicString
  | fixedArray (arraySize : UInt16) (child : TypeInfo)
  | varArray (arraySize : Nat) (child : TypeInfo)
  | dynamicArray (child : TypeInfo)

/-- The bytes of a place in memory. -/
abbrev Cells := List (Option UInt8)

inductive Obj where
  | raw (cells : Cells)
  | undef
  | null
  /-- A pointer to a block of the heap. -/
  | ptr (block : Nat) (obj : Obj)
  /-- A variable array and the count at `count_var_addr`. -/
  | var (count : Option UInt16) (values : Obj)
  /-- An `aosl_dynamic_array_t`. -/
  | dyn (count allocated : Option UInt16) (values : Obj)
  | list (objs : List Obj)

inductive Endian where
  | little
  | big
deriving DecidableEq

/-- The bytes of an `uint16_t`. -/
def Endian.bytes (e : Endian) (v : UInt16) : List UInt8 :=
  match e with
  | little => [UInt8.ofNat v.toNat, UInt8.ofNat (v.toNat / 256)]
  | big => [UInt8.ofNat (v.toNat / 256), UInt8.ofNat v.toNat]

@[simp] theorem Endian.length_bytes (e : Endian) (v : UInt16) : (e.bytes v).length = 2 := by
  cases e <;> rfl

def Endian.val (e : Endian) (bs : List UInt8) : UInt16 :=
  match e, bs with
  | little, [a, b] => UInt16.ofNat (a.toNat + 256 * b.toNat)
  | big, [a, b] => UInt16.ofNat (256 * a.toNat + b.toNat)
  | _, _ => 0

namespace Cells

/-- `bs` written over the first cells. -/
def write (cells : Cells) (bs : List UInt8) : Cells := bs.map some ++ cells.drop bs.length

/-- The first `n` bytes. -/
def read : Nat → Cells → Option (List UInt8)
  | 0, _ => some []
  | _ + 1, [] => none
  | _ + 1, none :: _ => none
  | n + 1, some b :: cells => (read n cells).map (b :: ·)

/-- The bytes before the first `'\0'`, as many as `strlen` says. -/
def str : Cells → Option (List UInt8)
  | [] => none
  | none :: _ => none
  | some b :: cells => if b = 0 then some [] else (str cells).map (b :: ·)

end Cells

namespace TypeInfo

mutual

/-- An object in memory that nothing was written to. -/
def uninit : TypeInfo → Obj
  | void => .raw []
  | scalar k => .raw (List.replicate k.size none)
  | pointer _ => .undef
  | reference c => uninit c
  | string => .undef
  | struct fs => .list (uninits fs)
  | fixedBytes n => .raw (List.replicate n none)
  | varBytes n => .var none (.raw (List.replicate n none))
  | bytesWithNil n => .raw (List.replicate n none)
  | dynamicBytes => .dyn none none .undef
  | dynamicString => .dyn none none .undef
  | fixedArray n c => .list (List.replicate n.toNat (uninit c))
  | varArray n c => .var none (.list (List.replicate n (uninit c)))
  | dynamicArray _ => .dyn none none .undef

def uninits : List TypeInfo → List Obj
  | [] => []
  | f :: fs => uninit f :: uninits fs

end

/-! ## `smart_init_typed_obj` and `smart_fini_typed_obj` -/

mutual

def initTypedObj : TypeInfo → Obj → Obj
  | scalar k, _ => .raw (List.replicate k.size (some 0))
  | pointer _, _ => .null
  | reference c, o => initTypedObj c o
  | string, _ => .null
  | struct fs, .list os => .list (initFields fs os)
  | fixedBytes n, _ => .raw (List.replicate n (some 0))
  | varBytes _, .var _ vs => .var (some 0) vs
  | bytesWithNil _, .raw cells => .raw (Cells.write cells [0])
  | dynamicBytes, _ => .dyn (some 0) (some 0) .null
  | dynamicString, _ => .dyn (some 0) (some 0) .null
  | fixedArray _ c, .list os => .list (os.map (initTypedObj c))
  -- the elements are left as they are
  | varArray _ _, .var _ vs => .var (some 0) vs
  | dynamicArray _, _ => .dyn (some 0) (some 0) .null
  | _, o => o

def initFields : List TypeInfo → List Obj → List Obj
  | f :: fs, o :: os => initTypedObj f o :: initFields fs os
  | _, os => os

end

/-- What `aosl_free` does with a pointer: nothing with `NULL`. -/
def freePtr : Obj → Option (List Nat)
  | .null => some []
  | .ptr b _ => some [b]
  | _ => none

/-- `fini` of the first `n` elements, and the blocks freed by it. -/
def finiElems (fini : Obj → Option (Obj × List Nat)) : Nat → List Obj → Option (List Obj × List Nat)
  | 0, os => some (os, [])
  | _ + 1, [] => none
  | n + 1, o :: os =>
    (fini o).bind fun (o', fs) => (finiElems fini n os).map fun (os', gs) => (o' :: os', fs ++ gs)

mutual

/-- The object afterwards and the blocks freed, or `none` where a field is read that was never written. -/
def finiTypedObj : TypeInfo → Obj → Option (Obj × List Nat)
  | pointer _, .null => some (.null, [])
  | pointer c, .ptr b o => (finiTypedObj c o).map fun (_, fs) => (.null, fs ++ [b])
  | pointer _, _ => none
  | reference c, o => finiTypedObj c o
  | string, o => (freePtr o).map fun fs => (.null, fs)
  | struct fs, .list os => (finiFields fs os).map fun (os', gs) => (.list os', gs)
  | struct _, _ => none
  | dynamicBytes, o => finiBytes o
  | dynamicString, o => finiBytes o
  | fixedArray n c, .list os =>
    (finiElems (finiTypedObj c) n.toNat os).map fun (os', fs) => (.list os', fs)
  | fixedArray _ _, _ => none
  | varArray _ c, .var (some n) (.list os) =>
    (finiElems (finiTypedObj c) n.toNat os).map fun (os', fs) => (.var (some 0) (.list os'), fs)
  | varArray _ _, _ => none
  | dynamicArray _, .dyn _ (some 0) _ => some (.dyn (some 0) (some 0) .null, [])
  | dynamicArray c, .dyn (some n) (some _) (.ptr b (.list os)) =>
    (finiElems (finiTypedObj c) n.toNat os).map fun (_, fs) => (.dyn (some 0) (some 0) .null, fs ++ [b])
  | dynamicArray _, .dyn (some 0) (some _) .null => some (.dyn (some 0) (some 0) .null, [])
  | dynamicArray _, _ => none
  | _, o => some (o, [])
where
  finiBytes : Obj → Option (Obj × List Nat)
    | .dyn _ (some n) vs =>
      (if n > 0 then freePtr vs else some []).map fun fs => (.dyn (some 0) (some 0) .null, fs)
    | _ => none

def finiFields : List TypeInfo → List Obj → Option (List Obj × List Nat)
  | f :: fs, o :: os =>
    (finiTypedObj f o).bind fun (o', gs) => (finiFields fs os).map fun (os', hs) => (o' :: os', gs ++ hs)
  | _, os => some (os, [])

end

/-! ## `_____marshal` -/

/-- `marshal` of the first `n` elements. -/
def marshalElems (marshal : Obj → Writer → Except Err (Nat × Writer)) :
    Nat → List Obj → Writer → Except Err (Nat × Writer)
  | 0, _, w => .ok (0, w)
  | _ + 1, [], _ => .error .fault
  | n + 1, o :: os, w => do
    let (l, w) ← marshal o w
    let (l', w) ← marshalElems marshal n os w
    return (l + l', w)

def orFault {α : Type} : Option α → Except Err α
  | some a => .ok a
  | none => .error .fault

/-- A count and as many bytes. -/
def marshalBytes (e : Endian) (n : UInt16) (cells : Cells) (w : Writer) : Except Err (Nat × Writer) := do
  let bs ← orFault (Cells.read n.toNat cells)
  return (2 + n.toNat, (w.encodeBase (e.bytes n)).encodeBytes bs)

/-- `val = strlen (p) + 1` and the bytes of the string, but for the `uint16_t` of `val` all of them. -/
def marshalStr (cells : Cells) (max : Nat) (w : Writer) : Except Err (Nat × Writer) := do
  let bs ← orFault (Cells.str cells)
  let val := (bs.length + 1) % 65536
  if val > max then throw .einval
  return (val, w.encodeBytes ((bs ++ [0]).take val))

mutual

/-- The number of bytes, and the chain with them. -/
def marshal (e : Endian) : TypeInfo → Obj → Writer → Except Err (Nat × Writer)
  | void, _, w => .ok (0, w)
  | scalar k, .raw cells, w => do
    let bs ← orFault (Cells.read k.size cells)
    return (k.size, w.encodeBase bs)
  | pointer _, .null, w => .ok (1, w.encodeBase [0])
  | pointer c, .ptr _ o, w => do
    let (l, w) ← marshal e c o (w.encodeBase [1])
    return (1 + l, w)
  | reference c, o, w => marshal e c o w
  | string, .null, w => .ok (1, w.encodeBase [0])
  | string, .ptr _ (.raw cells), w => do
    let (l, w) ← marshalStr cells 65535 (w.encodeBase [1])
    return (1 + l, w)
  | struct fs, .list os, w => marshalFields e fs os w
  | fixedBytes n, .raw cells, w => do
    let bs ← orFault (Cells.read n cells)
    return (n, w.encodeBytes bs)
  | varBytes _, .var (some n) (.raw cells), w => marshalBytes e n cells w
  | bytesWithNil max, .raw cells, w => marshalStr cells max w
  | dynamicBytes, .dyn (some n) _ vs, w => marshalDyn n vs w
  | dynamicString, .dyn (some n) _ vs, w => marshalDyn n vs w
  | fixedArray n c, .list os, w => marshalElems (marshal e c) n.toNat os w
  | varArray _ c, .var (some n) (.list os), w => do
    let (l, w) ← marshalElems (marshal e c) n.toNat os (w.encodeBase (e.bytes n))
    return (2 + l, w)
  | dynamicArray c, .dyn (some n) _ vs, w => do
    let w := w.encodeBase (e.bytes n)
    if n > 0 then
      match vs with
      | .ptr _ (.list os) =>
        let (l, w) ← marshalElems (marshal e c) n.toNat os w
        return (2 + l, w)
      | _ => throw .fault
    else return (2, w)
  | _, _, _ => .error .fault
where
  marshalDyn (n : UInt16) (vs : Obj) (w : Writer) : Except Err (Nat × Writer) :=
    if n > 0 then
      match vs with
      | .ptr _ (.raw cells) => marshalBytes e n cells w
      | _ => .error .fault
    else .ok (2, w.encodeBase (e.bytes n))

def marshalFields (e : Endian) : List TypeInfo → List Obj → Writer → Except Err (Nat × Writer)
  | f :: fs, o :: os, w => do
    let (l, w) ← marshal e f o w
    let (l', w) ← marshalFields e fs os w
    return (l + l', w)
  | [], _, w => .ok (0, w)
  | _ :: _, [], _ => .error .fault

end

/-- `aosl_marshal`. -/
def aoslMarshal (e : Endian) (t : TypeInfo) (o : Obj) (c : Chain) : Except Err (Nat × Writer) :=
  marshal e t o ⟨[], c.psb, c.next⟩

/-! ## `_____unmarshal` -/

/-- What `_____unmarshal` returns, the object as it leaves it, and the number of the next block. -/
structure Out (α : Type) where
  res : Except Err (Nat × Chain)
  obj : α
  next : Nat

namespace Out
variable {α β : Type}

def map (f : α → β) (r : Out α) : Out β := ⟨r.res, f r.obj, r.next⟩

/-- `l` bytes were read before. -/
def addLen (l : Nat) (r : Out α) : Out α :=
  { r with res := r.res.map fun (n, c) => (l + n, c) }

/-- One object after the other; `os` are those not yet reached. -/
def cons (r : Out α) (os : List α) (k : Chain → Nat → Out (List α)) : Out (List α) :=
  match r.res with
  | .error x => ⟨.error x, r.obj :: os, r.next⟩
  | .ok (l, c) => ((k c r.next).addLen l).map (r.obj :: ·)

end Out

/-- `unmarshal` of the first `n` elements. -/
def unmarshalElems (unmarshal : Obj → Chain → Nat → Out Obj) :
    Nat → List Obj → Chain → Nat → Out (List Obj)
  | 0, os, c, b => ⟨.ok (0, c), os, b⟩
  | _ + 1, [], _, b => ⟨.error .fault, [], b⟩
  | n + 1, o :: os, c, b => (unmarshal o c b).cons os fun c b => unmarshalElems unmarshal n os c b

/-- `__CHECK_AND_DECODE_BYTES` to `cells`. -/
def unmarshalBytes (n : Nat) (cells : Cells) (c : Chain) (b : Nat) : Out Cells :=
  match Chain.decodeBytes n c.psb c.next with
  | (bs, some c') => ⟨.ok (n, c'), Cells.write cells bs, b⟩
  | (bs, none) => ⟨.error .emsgsize, Cells.write cells bs, b⟩

/-- `DYNAMIC_BYTES` and, with `nul` one, `DYNAMIC_STRING`. -/
def unmarshalDyn (e : Endian) (mem : Nat → Bool) (nul : Nat) (n a : Option UInt16) (vs : Obj) (c : Chain)
    (b : Nat) : Out Obj :=
  match c.decodeBase 2 with
  | none => ⟨.error .emsgsize, .dyn n a vs, b⟩
  | some (bs, c) =>
    let val := e.val bs
    let dyn := Obj.dyn (some val) (some (val + UInt16.ofNat nul))
    if val.toNat + nul = 0 then ⟨.ok (2, c), dyn vs, b⟩
    else if mem b then
      let r := unmarshalBytes val.toNat (List.replicate (val.toNat + nul) none) c (b + 1)
      -- the terminating `'\0'` is written when all bytes have been read
      let cells := match r.res with
        | .ok _ => r.obj.take val.toNat ++ List.replicate nul (some 0)
        | .error _ => r.obj
      (r.addLen 2).map fun _ => dyn (.ptr b (.raw cells))
    else ⟨.error .enomem, .dyn (some 0) (some 0) vs, b⟩

mutual

def unmarshal (e : Endian) (mem : Nat → Bool) : TypeInfo → Obj → Chain → Nat → Out Obj
  | void, o, c, b => ⟨.ok (0, c), o, b⟩
  | scalar k, o, c, b =>
    match c.decodeBase k.size with
    | none => ⟨.error .emsgsize, o, b⟩
    | some (bs, c) => ⟨.ok (k.size, c), .raw (bs.map some), b⟩
  | pointer t, o, c, b =>
    match c.decodeBase 1 with
    | none => ⟨.error .emsgsize, o, b⟩
    | some (bs, c) =>
      if bs = [0] then ⟨.ok (1, c), .null, b⟩
      else if mem b then ((unmarshal e mem t (uninit t) c (b + 1)).addLen 1).map (.ptr b)
      else ⟨.error .enomem, o, b⟩
  | reference t, o, c, b => unmarshal e mem t o c b
  | string, o, c, b =>
    match c.decodeBase 1 with
    | none => ⟨.error .emsgsize, o, b⟩
    | some (bs, c) =>
      if bs = [0] then ⟨.ok (1, c), .null, b⟩
      else
        match c.safeStrsize with
        | .error x => ⟨.error x, o, b⟩
        | .ok n =>
          -- `val = (uint16_t)ret`
          if mem b then
            ((unmarshalBytes (n % 65536) (List.replicate (n % 65536) none) c (b + 1)).addLen 1).map
              fun cells => .ptr b (.raw cells)
          else ⟨.error .enomem, o, b⟩
  | struct fs, .list os, c, b => (unmarshalFields e mem fs os c b).map .list
  | fixedBytes n, .raw cells, c, b => (unmarshalBytes n cells c b).map .raw
  | varBytes max, .var n (.raw cells), c, b =>
    match c.decodeBase 2 with
    | none => ⟨.error .emsgsize, .var n (.raw cells), b⟩
    | some (bs, c) =>
      let val := e.val bs
      if val.toNat > max then ⟨.error .enospc, .var n (.raw cells), b⟩
      else ((unmarshalBytes val.toNat cells c b).addLen 2).map fun cells => .var (some val) (.raw cells)
  | bytesWithNil max, .raw cells, c, b =>
    match c.safeStrsize with
    | .error x => ⟨.error x, .raw cells, b⟩
    | .ok n =>
      if n % 65536 > max then ⟨.error .enospc, .raw cells, b⟩
      else (unmarshalBytes (n % 65536) cells c b).map .raw
  | dynamicBytes, .dyn n a vs, c, b => unmarshalDyn e mem 0 n a vs c b
  | dynamicString, .dyn n a vs, c, b => unmarshalDyn e mem 1 n a vs c b
  | fixedArray n t, .list os, c, b => (unmarshalElems (unmarshal e mem t) n.toNat os c b).map .list
  | varArray max t, .var n (.list os), c, b =>
    match c.decodeBase 2 with
    | none => ⟨.error .emsgsize, .var n (.list os), b⟩
    | some (bs, c) =>
      let val := e.val bs
      if val.toNat > max then ⟨.error .enospc, .var n (.list os), b⟩
      else ((unmarshalElems (unmarshal e mem t) val.toNat os c b).addLen 2).map
        fun os => .var (some val) (.list os)
  | dynamicArray t, .dyn n a vs, c, b =>
    match c.decodeBase 2 with
    | none => ⟨.error .emsgsize, .dyn n a vs, b⟩
    | some (bs, c) =>
      let val := e.val bs
      if val = 0 then ⟨.ok (2, c), .dyn (some val) (some val) vs, b⟩
      else if mem b then
        ((unmarshalElems (unmarshal e mem t) val.toNat (List.replicate val.toNat (uninit t)) c (b + 1)).addLen
          2).map fun os => .dyn (some val) (some val) (.ptr b (.list os))
      else ⟨.error .enomem, .dyn (some 0) (some 0) vs, b⟩
  | _, o, _, b => ⟨.error .fault, o, b⟩

def unmarshalFields (e : Endian) (mem : Nat → Bool) :
    List TypeInfo → List Obj → Chain → Nat → Out (List Obj)
  | [], os, c, b => ⟨.ok (0, c), os, b⟩
  | _ :: _, [], _, b => ⟨.error .fault, [], b⟩
  | f :: fs, o :: os, c, b => (unmarshal e mem f o c b).cons os fun c b => unmarshalFields e mem fs os c b

end

end TypeInfo

end Aosl
