import Aosl.Lib.Attempt
import Aosl.Marshal

/-!
# The memory that `_____unmarshal` writes

The decoder of `lib/marshalling.c` once more, this time with addresses: a `TypeDesc` has the `obj_addr`, the sizes and
the `count_var_addr` of an `aosl_type_info_t`, an address is an offset into the object or into one of the blocks of the
call, and sizes are a `size_t`. What is written is kept as a list, in order, together with the chain and the blocks,
also where the decoding stops with an error.

How bytes come out of the chain is a `Reader`; `Feed.reader` is the one of the code. There is no `is_have` predicate.
-/

namespace Aosl
open Lib

inductive Arch where
  | ilp32
  | lp64
deriving DecidableEq

namespace Arch

def ptrSize : Arch → Nat
  | ilp32 => 4
  | lp64 => 8

/-- `SIZE_MAX + 1`. -/
def sizeMod : Arch → Nat
  | ilp32 => 0x100000000
  | lp64 => 0x10000000000000000

end Arch

/-- `aosl_type_info_t`. The members of a `struct` are those before `AOSL_TYPE_STRUCT_END`. -/
inductive TypeDesc where
  | void
  | scalar (objAddr : Nat) (k : Scalar)
  | pointer (objAddr : Nat) (child : TypeDesc)
  | reference (objAddr : Nat) (child : TypeDesc)
  | string (objAddr : Nat)
  | struct (objAddr objSize : Nat) (child : List TypeDesc)
  | fixedBytes (objAddr arraySize : Nat)
  | varBytes (objAddr arraySize countVarAddr : Nat)
  | bytesWithNil (objAddr arraySize : Nat)
  | dynamicBytes (objAddr : Nat)
  | dynamicString (objAddr : Nat)
  | fixedArray (objAddr : Nat) (arraySize : UInt16) (child : TypeDesc)
  | varArray (objAddr arraySize countVarAddr : Nat) (child : TypeDesc)
  | dynamicArray (objAddr : Nat) (child : TypeDesc)

/-- Where an address points to. The blocks are those that the call allocates, numbered in the order of their
allocation. -/
inductive Region where
  | object
  | block (k : Nat)
deriving DecidableEq

inductive Datum where
  | bytes (bs : List UInt8)
  | ptr (block : Option Nat)
deriving DecidableEq

def Datum.size (A : Arch) : Datum → Nat
  | bytes bs => bs.length
  | ptr _ => A.ptrSize

structure Write where
  region : Region
  offset : Nat
  datum : Datum
deriving DecidableEq

/-- `size` is what `aosl_malloc` was asked for, `extent` the number of bytes that are copied to the block, or that the
elements take that are decoded into it. -/
structure Block where
  size : Nat
  extent : Nat
deriving DecidableEq

structure Mem (σ : Type) where
  psb : σ
  writes : List Write
  blocks : List Block
deriving DecidableEq

abbrev Decoder (σ : Type) := Attempt Err (Mem σ)

/-- The bytes of a number, if there are enough, those of a copy and whether it is complete, and the size of a string. -/
structure Reader (σ : Type) where
  decodeBase : Nat → σ → Option (List UInt8) × σ
  decodeBytes : Nat → σ → List UInt8 × Bool × σ
  safeStrsize : σ → Except Err Nat × σ

namespace Decoder
variable {σ : Type}

/-- `__CHECK_AND_DECODE_BASETYPE` to a variable. -/
def base (S : Reader σ) (n : Nat) : Decoder σ (List UInt8) := ⟨fun s =>
  match S.decodeBase n s.psb with
  | (some bs, p) => (.ok bs, { s with psb := p })
  | (none, p) => (.error .emsgsize, { s with psb := p })⟩

/-- `__CHECK_AND_DECODE_BYTES`. -/
def copy (S : Reader σ) (r : Region) (offset n : Nat) : Decoder σ Unit := ⟨fun s =>
  match S.decodeBytes n s.psb with
  | (bs, all, p) =>
    (if all then .ok () else .error .emsgsize, { s with psb := p, writes := s.writes ++ [⟨r, offset, .bytes bs⟩] })⟩

def strsize (S : Reader σ) : Decoder σ Nat := ⟨fun s =>
  match S.safeStrsize s.psb with
  | (x, p) => (x, { s with psb := p })⟩

def poke (r : Region) (offset : Nat) (d : Datum) : Decoder σ Unit := ⟨fun s =>
  (.ok (), { s with writes := s.writes ++ [⟨r, offset, d⟩] })⟩

/-- `aosl_malloc`, and what to do where it fails. -/
def malloc (mem : Nat → Bool) (size extent : Nat) (undo : Decoder σ Unit) : Decoder σ Nat := ⟨fun s =>
  if mem s.blocks.length then (.ok s.blocks.length, { s with blocks := s.blocks ++ [⟨size, extent⟩] })
  else (undo >>= fun _ => Attempt.fail .enomem).run s⟩

/-- `n` objects, the first of them the `i`-th. -/
def elems (decode : Nat → Decoder σ Nat) : Nat → Nat → Decoder σ Nat
  | 0, _ => pure 0
  | n + 1, i => do
    let l ← decode i
    let l' ← elems decode n (i + 1)
    return l + l'

end Decoder

namespace TypeDesc
open Decoder

def getTypeSize (A : Arch) : TypeDesc → Nat
  | void => 0
  | scalar _ k => k.size
  | pointer _ _ | string _ => A.ptrSize
  | reference _ c => getTypeSize A c
  | struct _ n _ => n
  | fixedBytes _ n | varBytes _ n _ | bytesWithNil _ n => n
  | dynamicBytes _ | dynamicString _ | dynamicArray _ _ => 2 * A.ptrSize
  | fixedArray _ n c => getTypeSize A c * n.toNat % A.sizeMod
  | varArray _ n _ c => getTypeSize A c * n % A.sizeMod

variable {σ : Type}

/-- `count` and `allocated` of an `aosl_dynamic_array_t`. -/
def setCount (e : Endian) (r : Region) (offset : Nat) (count allocated : UInt16) : Decoder σ Unit := do
  poke r offset (.bytes (e.bytes count))
  poke r (offset + 2) (.bytes (e.bytes allocated))

/-- `DYNAMIC_BYTES` and, with `nul` one, `DYNAMIC_STRING`. -/
def unmarshalDyn (S : Reader σ) (A : Arch) (e : Endian) (mem : Nat → Bool) (nul : Nat) (r : Region) (offset : Nat) :
    Decoder σ Nat := do
  let bs ← base S 2
  let val := e.val bs
  setCount e r offset val (val + UInt16.ofNat nul)
  if val.toNat + nul = 0 then return 2
  else
    let k ← malloc mem (val.toNat + nul) (val.toNat + nul) (setCount e r offset 0 0)
    poke r (offset + A.ptrSize) (.ptr (some k))
    copy S (.block k) 0 val.toNat
    poke (.block k) val.toNat (.bytes (List.replicate nul 0))
    return 2 + val.toNat

mutual

/-- `typed_obj_p` is the address `p` in `r`. -/
def unmarshal (S : Reader σ) (A : Arch) (e : Endian) (mem : Nat → Bool) : TypeDesc → Region → Nat → Decoder σ Nat
  | void, _, _ => return 0
  | scalar a k, r, p => do
    let bs ← base S k.size
    poke r (p + a) (.bytes bs)
    return k.size
  | pointer a c, r, p => do
    let val ← base S 1
    if val = [0] then
      poke r (p + a) (.ptr none)
      return 1
    else
      let k ← malloc mem (getTypeSize A c) (getTypeSize A c) (return)
      poke r (p + a) (.ptr (some k))
      let l ← unmarshal S A e mem c (.block k) 0
      return 1 + l
  | reference a c, r, p => unmarshal S A e mem c r (p + a)
  | string a, r, p => do
    let val ← base S 1
    if val = [0] then
      poke r (p + a) (.ptr none)
      return 1
    else
      let n ← strsize S
      -- `val = (uint16_t)ret`
      let k ← malloc mem (n % 65536) (n % 65536) (return)
      poke r (p + a) (.ptr (some k))
      copy S (.block k) 0 (n % 65536)
      return 1 + n % 65536
  | struct a _ fs, r, p => unmarshalFields S A e mem fs r (p + a)
  | fixedBytes a n, r, p => do
    copy S r (p + a) n
    return n
  | varBytes a max count, r, p => do
    let bs ← base S 2
    let val := e.val bs
    if val.toNat > max then Attempt.fail .enospc
    else
      poke r (p + count) (.bytes (e.bytes val))
      copy S r (p + a) val.toNat
      return 2 + val.toNat
  | bytesWithNil a max, r, p => do
    let n ← strsize S
    if n % 65536 > max then Attempt.fail .enospc
    else
      copy S r (p + a) (n % 65536)
      return n % 65536
  | dynamicBytes a, r, p => unmarshalDyn S A e mem 0 r (p + a)
  | dynamicString a, r, p => unmarshalDyn S A e mem 1 r (p + a)
  | fixedArray a n c, r, p =>
    elems (fun i => unmarshal S A e mem c r (p + a + getTypeSize A c * i % A.sizeMod)) n.toNat 0
  | varArray a max count c, r, p => do
    let bs ← base S 2
    let val := e.val bs
    if val.toNat > max then Attempt.fail .enospc
    else
      poke r (p + count) (.bytes (e.bytes val))
      let l ← elems (fun i => unmarshal S A e mem c r (p + a + getTypeSize A c * i % A.sizeMod)) val.toNat 0
      return 2 + l
  | dynamicArray a c, r, p => do
    let bs ← base S 2
    let val := e.val bs
    setCount e r (p + a) val val
    if val = 0 then return 2
    else
      let k ← malloc mem (getTypeSize A c * val.toNat % A.sizeMod) (getTypeSize A c * val.toNat)
        (setCount e r (p + a) 0 0)
      poke r (p + a + A.ptrSize) (.ptr (some k))
      let l ← elems (fun i => unmarshal S A e mem c (.block k) (getTypeSize A c * i % A.sizeMod)) val.toNat 0
      return 2 + l

def unmarshalFields (S : Reader σ) (A : Arch) (e : Endian) (mem : Nat → Bool) :
    List TypeDesc → Region → Nat → Decoder σ Nat
  | [], _, _ => return 0
  | f :: fs, r, p => do
    let l ← unmarshal S A e mem f r p
    let l' ← unmarshalFields S A e mem fs r p
    return l + l'

end

end TypeDesc

/-- A chain, with the buffers that the decoder has passed. -/
structure Feed where
  gone : List Psb
  psb : Psb
  next : List Psb
deriving DecidableEq

namespace Feed

/-- The whole chain, from its head. -/
def segs (f : Feed) : List Psb := f.gone ++ f.psb :: f.next

/-- The loops of `__CHECK_AND_DECODE_BYTES` and `__CHECK_AND_DECODE_BASETYPE`: the bytes copied, and whether there were
enough. -/
def take (n : Nat) (gone : List Psb) (p : Psb) : List Psb → List UInt8 × Bool × Feed
  | [] =>
    let k := min p.psbLen n
    (p.data.take k, n - k == 0, ⟨gone, p.get k, []⟩)
  | q :: qs =>
    let k := min p.psbLen n
    if n - k = 0 then (p.data.take k, true, ⟨gone, p.get k, q :: qs⟩)
    else
      let (bs, all, f) := take (n - k) (gone ++ [p.get k]) q qs
      (p.data.take k ++ bs, all, f)

def decodeBytes (n : Nat) (f : Feed) : List UInt8 × Bool × Feed := take n f.gone f.psb f.next

/-- At once where the buffer has the bytes. -/
def decodeBase (n : Nat) (f : Feed) : Option (List UInt8) × Feed :=
  if n ≤ f.psb.data.length then (some (f.psb.data.take n), { f with psb := f.psb.get n })
  else
    match f.decodeBytes n with
    | (bs, true, f) => (some bs, f)
    | (_, false, f) => (none, f)

def reader : Reader Feed where
  decodeBase := decodeBase
  decodeBytes := decodeBytes
  safeStrsize f := (Chain.strsizeFrom 0 0 f.psb f.next, f)

end Feed

/-- `aosl_unmarshal`: what it returns, and what it leaves. -/
def aoslUnmarshal (A : Arch) (e : Endian) (mem : Nat → Bool) (t : TypeDesc) (c : Chain) : Except Err Nat × Mem Feed :=
  (t.unmarshal Feed.reader A e mem .object 0).run ⟨⟨[], c.psb, c.next⟩, [], []⟩

/-! ## The chain behind the buffers that were passed -/

namespace Feed

def chain (f : Feed) : Chain := ⟨f.psb, f.next⟩

theorem take_eq (n : Nat) (gone : List Psb) (p : Psb) (qs : List Psb) :
    Chain.decodeBytes n p qs = ((take n gone p qs).1, if (take n gone p qs).2.1 then some (take n gone p qs).2.2.chain
      else none) := by
  induction qs generalizing n gone p with
  | nil =>
    simp only [Chain.decodeBytes, take, beq_iff_eq, chain]
  | cons q qs ih =>
    unfold take Chain.decodeBytes
    dsimp only
    split
    · rfl
    · rw [ih _ (gone ++ [p.get (min p.psbLen n)])]

theorem decodeBase_eq (n : Nat) (f : Feed) :
    f.chain.decodeBase n = (f.decodeBase n).1.map fun bs => (bs, (f.decodeBase n).2.chain) := by
  unfold decodeBase Chain.decodeBase
  show (if n ≤ f.psb.data.length then _ else _) = _
  split
  · rfl
  · have h : Chain.decodeBytes n f.chain.psb f.chain.next = _ := take_eq n f.gone f.psb f.next
    rw [h]
    unfold decodeBytes
    rcases take n f.gone f.psb f.next with ⟨bs, - | -, f'⟩ <;> rfl

end Feed

end Aosl
