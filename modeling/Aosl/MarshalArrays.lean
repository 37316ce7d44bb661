import Aosl.MarshalBound
import Aosl.MarshalClean

/-!
# The arrays that `_____unmarshal` meets

`TypeDesc.info` forgets the addresses of a descriptor. The decoder with addresses goes through a chain as
`TypeInfo.scan` does, and with that as `TypeInfo.unmarshal`; its blocks have the size that they are used with if and
only if every dynamic array that it comes to is no larger than `SIZE_MAX`.
-/

namespace Aosl
open Lib Attempt

variable {A : Arch} {e : Endian} {mem : Nat → Bool}

namespace TypeDesc

mutual

def info : TypeDesc → TypeInfo
  | void => .void
  | scalar _ k => .scalar k
  | pointer _ c => .pointer (info c)
  | reference _ c => .reference (info c)
  | string _ => .string
  | struct _ _ fs => .struct (infos fs)
  | fixedBytes _ n => .fixedBytes n
  | varBytes _ n _ => .varBytes n
  | bytesWithNil _ n => .bytesWithNil n
  | dynamicBytes _ => .dynamicBytes
  | dynamicString _ => .dynamicString
  | fixedArray _ n c => .fixedArray n (info c)
  | varArray _ n _ c => .varArray n (info c)
  | dynamicArray _ c => .dynamicArray (info c)

def infos : List TypeDesc → List TypeInfo
  | [] => []
  | f :: fs => info f :: infos fs

end

open TypeInfo in
mutual

/-- The dynamic arrays that a decoder comes to, and gets a block for, take at most `SIZE_MAX` bytes. -/
def arraysFit (A : Arch) (e : Endian) (mem : Nat → Bool) : TypeDesc → Chain → Nat → Bool
  | pointer _ t, c, b => match c.decodeBase 1 with
    | none => true
    | some (bs, c) => bs = [0] || !mem b || arraysFit A e mem t c (b + 1)
  | reference _ t, c, b => arraysFit A e mem t c b
  | struct _ _ fs, c, b => allArraysFit A e mem fs c b
  | fixedArray _ n t, c, b => eachElem (arraysFit A e mem t) (scan e mem (info t) true) n.toNat c b
  | varArray _ max _ t, c, b => match c.decodeBase 2 with
    | none => true
    | some (bs, c) =>
      max < (e.val bs).toNat || eachElem (arraysFit A e mem t) (scan e mem (info t) true) (e.val bs).toNat c b
  | dynamicArray _ t, c, b => match c.decodeBase 2 with
    | none => true
    | some (bs, c) => e.val bs = 0 || !mem b || getTypeSize A t * (e.val bs).toNat < A.sizeMod &&
        eachElem (arraysFit A e mem t) (scan e mem (info t) true) (e.val bs).toNat c (b + 1)
  | _, _, _ => true

def allArraysFit (A : Arch) (e : Endian) (mem : Nat → Bool) : List TypeDesc → Chain → Nat → Bool
  | [], _, _ => true
  | f :: fs, c, b => arraysFit A e mem f c b && match (scan e mem (info f) true c b).rest with
    | none => true
    | some (c', b') => allArraysFit A e mem fs c' b'

end

end TypeDesc

/-- Where a decoder ends, if it does, with the number of the next block. -/
def restOf (r : Except Err Nat × Mem Feed) : Option (Chain × Nat) :=
  match r.1 with
  | .ok _ => some (r.2.psb.chain, r.2.blocks.length)
  | .error _ => none

/-- From `c` and the block `b` on, `m` ends at `rest`, and its blocks are exact if and only if `fit` says so. -/
def Walks (m : Decoder Feed Nat) (c : Chain) (b : Nat) (rest : Option (Chain × Nat)) (fit : Bool) : Prop :=
  ∀ s, s.psb.chain = c → s.blocks.length = b →
    restOf (m.run s) = rest ∧ ∃ bs, (m.run s).2.blocks = s.blocks ++ bs ∧ (Exact bs ↔ fit = true)

namespace Walks
open Decoder
variable {c c' : Chain} {b b' n : Nat} {rest : Option (Chain × Nat)} {fit : Bool}

theorem exact_nil : Exact [] ↔ true = true := ⟨fun _ => rfl, fun _ _ hb => absurd hb List.not_mem_nil⟩

theorem pure {l : Nat} : Walks (pure l) c b (some (c, b)) true := by
  rintro s rfl rfl
  exact ⟨rfl, [], (List.append_nil _).symm, exact_nil⟩

theorem fail {x : Err} : Walks (fail x) c b none true := fun _ _ _ => ⟨rfl, [], (List.append_nil _).symm, exact_nil⟩

theorem step {α : Type} {m : Decoder Feed α} {f : α → Decoder Feed Nat} {a : α}
    (hm : ∀ s, s.psb.chain = c → (m.run s).2.blocks = s.blocks ∧ (m.run s).1 = .ok a ∧ (m.run s).2.psb.chain = c')
    (hf : Walks (f a) c' b rest fit) : Walks (m >>= f) c b rest fit := by
  intro s hc hb
  obtain ⟨hbl, hok, hc'⟩ := hm s hc
  have hrun : m.run s = (.ok a, (m.run s).2) := Prod.ext hok rfl
  rw [bind_ok hrun, ← hbl]
  exact hf _ hc' (hbl ▸ hb)

theorem stop {α : Type} {m : Decoder Feed α} {f : α → Decoder Feed Nat}
    (hm : ∀ s, s.psb.chain = c → (m.run s).2.blocks = s.blocks ∧ ∃ x, (m.run s).1 = .error x) :
    Walks (m >>= f) c b none true := by
  intro s hc hb
  obtain ⟨hbl, x, herr⟩ := hm s hc
  have hrun : m.run s = (.error x, (m.run s).2) := Prod.ext herr rfl
  rw [bind_error hrun]
  exact ⟨rfl, [], by rw [hbl, List.append_nil], exact_nil⟩

theorem base_none {f : List UInt8 → Decoder Feed Nat} (h : c.decodeBase n = none) :
    Walks (base Feed.reader n >>= f) c b none true := by
  refine stop fun s hc => ?_
  rw [← hc, Feed.decodeBase_eq] at h
  rcases hdec : Feed.decodeBase n s.psb with ⟨- | bs, p⟩
  · rw [run_base_none hdec]
    exact ⟨rfl, _, rfl⟩
  · rw [hdec] at h
    exact absurd h nofun

theorem base_some {f : List UInt8 → Decoder Feed Nat} {bs : List UInt8} (h : c.decodeBase n = some (bs, c'))
    (hf : Walks (f bs) c' b rest fit) : Walks (base Feed.reader n >>= f) c b rest fit := by
  refine step (fun s hc => ?_) hf
  rw [← hc, Feed.decodeBase_eq] at h
  rcases hdec : Feed.decodeBase n s.psb with ⟨- | bs, p⟩
  · rw [hdec] at h
    exact absurd h nofun
  · rw [hdec] at h
    cases h
    rw [run_base_some hdec]
    exact ⟨rfl, rfl, rfl⟩

theorem copy {r : Region} {offset : Nat} {f : Unit → Decoder Feed Nat}
    (hf : ∀ c', (Chain.decodeBytes n c.psb c.next).2 = some c' → Walks (f ()) c' b (some (c', b)) true) :
    Walks (copy Feed.reader r offset n >>= f) c b (TypeInfo.scanBytes n c b) true := by
  unfold TypeInfo.scanBytes
  have htake : ∀ s : Mem Feed, s.psb.chain = c → Chain.decodeBytes n c.psb c.next =
      ((Feed.decodeBytes n s.psb).1, if (Feed.decodeBytes n s.psb).2.1 then some (Feed.decodeBytes n s.psb).2.2.chain
        else none) := by
    rintro s rfl
    exact Feed.take_eq ..
  cases hdec : (Chain.decodeBytes n c.psb c.next).2 with
  | none =>
    refine stop fun s hc => ⟨rfl, ?_⟩
    have hall : (Feed.decodeBytes n s.psb).2.1 = false := by
      rw [htake s hc] at hdec
      simpa using hdec
    simp only [Decoder.copy, Feed.reader, hall, Bool.false_eq_true, if_false]
    exact ⟨_, rfl⟩
  | some c' =>
    refine step (a := ()) (fun s hc => ?_) (hf c' hdec)
    rw [htake s hc] at hdec
    split at hdec
    case isFalse => exact absurd hdec.symm (Option.some_ne_none c')
    case isTrue hall =>
      simp only [Decoder.copy, Feed.reader, hall, if_true]
      exact ⟨trivial, trivial, Option.some.inj hdec⟩

theorem strsize_error {f : Nat → Decoder Feed Nat} {x : Err} (h : c.safeStrsize = .error x) :
    Walks (strsize Feed.reader >>= f) c b none true := by
  refine stop fun s hc => ⟨rfl, x, ?_⟩
  rw [← hc] at h
  exact h

theorem strsize_ok {f : Nat → Decoder Feed Nat} (h : c.safeStrsize = .ok n) (hf : Walks (f n) c b rest fit) :
    Walks (strsize Feed.reader >>= f) c b rest fit := by
  refine step (fun s hc => ⟨rfl, ?_, hc⟩) hf
  rw [← hc] at h
  exact h

theorem poke {r : Region} {offset : Nat} {d : Datum} {f : Unit → Decoder Feed Nat} (hf : Walks (f ()) c b rest fit) :
    Walks (poke r offset d >>= f) c b rest fit := step (fun _ hc => ⟨rfl, rfl, hc⟩) hf

theorem setCount {r : Region} {offset : Nat} {count allocated : UInt16} {f : Unit → Decoder Feed Nat}
    (hf : Walks (f ()) c b rest fit) : Walks (TypeDesc.setCount e r offset count allocated >>= f) c b rest fit :=
  step (fun _ hc => ⟨rfl, rfl, hc⟩) hf

theorem malloc_refused {size extent : Nat} {undo : Decoder Feed Unit} {f : Nat → Decoder Feed Nat}
    (hundo : ∀ s, (undo.run s).2.blocks = s.blocks) (hm : mem b = false) :
    Walks (malloc mem size extent undo >>= f) c b none true := by
  rintro s - rfl
  obtain ⟨x, hrun⟩ := Decoder.malloc_refused size extent undo hm
  rw [bind_error hrun]
  exact ⟨rfl, [], by rw [hundo, List.append_nil], exact_nil⟩

theorem malloc_granted {size extent : Nat} {undo : Decoder Feed Unit} {f : Nat → Decoder Feed Nat} (hm : mem b = true)
    (hf : Walks (f b) c (b + 1) rest fit) :
    Walks (malloc mem size extent undo >>= f) c b rest (decide (size = extent) && fit) := by
  rintro s hc rfl
  rw [bind_ok (Decoder.malloc_granted hm)]
  obtain ⟨hrest, bs, hbl, hex⟩ := hf { s with blocks := s.blocks ++ [⟨size, extent⟩] } hc List.length_append
  refine ⟨hrest, ⟨size, extent⟩ :: bs, by rw [hbl, List.append_assoc, List.singleton_append], ?_⟩
  rw [Bool.and_eq_true, decide_eq_true_eq, ← hex]
  exact List.forall_mem_cons

theorem malloc_exact {size : Nat} {undo : Decoder Feed Unit} {f : Nat → Decoder Feed Nat} (hm : mem b = true)
    (hf : Walks (f b) c (b + 1) rest fit) : Walks (malloc mem size size undo >>= f) c b rest fit := by
  have h : Walks (malloc mem size size undo >>= f) c b rest (decide (size = size) && fit) := malloc_granted hm hf
  rwa [decide_eq_true rfl, Bool.true_and] at h

theorem child {m : Decoder Feed Nat} {f : Nat → Decoder Feed Nat} {restm : Option (Chain × Nat)} {fitm : Bool}
    {k : Chain → Nat → Option (Chain × Nat)} {fitk : Chain → Nat → Bool} (hm : Walks m c b restm fitm)
    (hf : ∀ l c b, Walks (f l) c b (k c b) (fitk c b)) :
    Walks (m >>= f) c b (restm.bind fun (c, b) => k c b) (fitm && restm.all fun (c, b) => fitk c b) := by
  intro s hc hb
  obtain ⟨hrest, bs, hbl, hex⟩ := hm s hc hb
  rcases hrun : m.run s with ⟨x | l, s'⟩
  · rw [hrun] at hrest hbl
    rw [bind_error hrun]
    cases hrest
    refine ⟨rfl, bs, hbl, ?_⟩
    show _ ↔ (fitm && true) = true
    rw [Bool.and_true]
    exact hex
  · rw [hrun] at hrest hbl
    rw [bind_ok hrun]
    cases hrest
    obtain ⟨hrest', bs', hbl', hex'⟩ := hf l s'.psb.chain s'.blocks.length s' rfl rfl
    refine ⟨hrest', bs ++ bs', by rw [hbl', show s'.blocks = _ from hbl, List.append_assoc], ?_⟩
    show _ ↔ (fitm && fitk s'.psb.chain s'.blocks.length) = true
    rw [Bool.and_eq_true, ← hex, ← hex']
    exact List.forall_mem_append

theorem last {m : Decoder Feed Nat} {g : Nat → Nat} (hm : Walks m c b rest fit) :
    Walks (m >>= fun l => Pure.pure (g l)) c b rest fit := by
  have h := hm.child (f := fun l => Pure.pure (g l)) (k := fun c b => some (c, b)) (fun _ _ _ => pure)
  rw [← Bool.and_true fit]
  rcases rest with - | ⟨c', b'⟩ <;> exact h

theorem elems {t : TypeInfo} {decode : Nat → Decoder Feed Nat} {ready : Bool} {u : Nat → Bool}
    {good : Chain → Nat → Bool}
    (h : ∀ i c b, Walks (decode i) c b (TypeInfo.scan e mem t true c b).rest (good c b)) (n i : Nat) (c : Chain)
    (b : Nat) :
    Walks (elems decode n i) c b (TypeInfo.scanElems (TypeInfo.scan e mem t ready) u n c b).rest
      (TypeInfo.eachElem good (TypeInfo.scan e mem t true) n c b) := by
  induction n generalizing i c b with
  | zero => exact pure
  | succ n ih =>
    have hall := (h i c b).child (f := fun l => Decoder.elems decode n (i + 1) >>= fun l' => Pure.pure (l + l'))
      fun l c b => (ih (i + 1) c b).last
    rw [TypeInfo.scanElems, TypeInfo.eachElem, (TypeInfo.scan_ends e mem t ready c b).rest]
    rcases hrest : (TypeInfo.scan e mem t true c b).rest with - | ⟨c', b'⟩ <;>
      (rw [hrest] at hall; exact hall)

end Walks

namespace TypeDesc
open Decoder

theorem dyn_walks {nul offset : Nat} {r : Region} {c : Chain} {b : Nat} :
    Walks (unmarshalDyn Feed.reader A e mem nul r offset) c b (TypeInfo.scanDyn e mem nul true c b).rest true := by
  unfold unmarshalDyn TypeInfo.scanDyn
  rcases hdec : c.decodeBase 2 with - | ⟨bs, c'⟩
  · exact .base_none hdec
  · refine .base_some hdec (.setCount ?_)
    dsimp only
    split
    · exact .pure
    · cases hm : mem b with
      | false => exact .malloc_refused (fun _ => rfl) hm
      | true => exact .malloc_exact hm (.poke (.copy fun _ _ => .poke .pure))

theorem sizeMod_ne_zero (A : Arch) : A.sizeMod ≠ 0 := by cases A <;> decide

mutual

theorem unmarshal_walks : ∀ {t : TypeDesc} {r : Region} {p : Nat} {c : Chain} {b : Nat},
    Walks (t.unmarshal Feed.reader A e mem r p) c b (TypeInfo.scan e mem t.info true c b).rest (arraysFit A e mem t c b)
  | void, _, _, _, _ => by
    rw [unmarshal]
    exact .pure
  | scalar a k, r, p, c, b => by
    rw [unmarshal, info, TypeInfo.scan]
    rcases hdec : c.decodeBase k.size with - | ⟨bs, c'⟩
    · exact .base_none hdec
    · exact .base_some hdec (.poke .pure)
  | pointer a t, r, p, c, b => by
    rw [unmarshal, info, TypeInfo.scan, arraysFit]
    rcases hdec : c.decodeBase 1 with - | ⟨bs, c'⟩
    · exact .base_none hdec
    · refine .base_some hdec ?_
      dsimp only
      by_cases h0 : bs = [0]
      · rw [if_pos h0, if_pos h0, decide_eq_true h0]
        exact .poke .pure
      · rw [if_neg h0, if_neg h0, decide_eq_false h0]
        cases hm : mem b with
        | false => exact .malloc_refused (fun _ => rfl) hm
        | true =>
          have ht : Walks (t.unmarshal Feed.reader A e mem (.block b) 0) c' (b + 1) _ _ := unmarshal_walks
          rw [if_pos rfl, (TypeInfo.scan_ends e mem t.info false c' (b + 1)).rest]
          exact .malloc_exact hm (.poke ht.last)
  | reference a t, r, p, c, b => by
    rw [unmarshal, info, TypeInfo.scan, arraysFit]
    exact unmarshal_walks
  | string a, r, p, c, b => by
    rw [unmarshal, info, TypeInfo.scan]
    rcases hdec : c.decodeBase 1 with - | ⟨bs, c'⟩
    · exact .base_none hdec
    · refine .base_some hdec ?_
      dsimp only
      split
      · exact .poke .pure
      · rcases hstr : c'.safeStrsize with x | n
        · exact .strsize_error hstr
        · refine .strsize_ok hstr ?_
          cases hm : mem b with
          | false => exact .malloc_refused (fun _ => rfl) hm
          | true => exact .malloc_exact hm (.poke (.copy fun _ _ => .pure))
  | struct a n fs, r, p, c, b => by
    rw [unmarshal, info, TypeInfo.scan, arraysFit]
    exact unmarshalFields_walks
  | fixedBytes a n, r, p, c, b => by
    rw [unmarshal, info, TypeInfo.scan]
    exact .copy fun _ _ => .pure
  | varBytes a n count, r, p, c, b => by
    rw [unmarshal, info, TypeInfo.scan]
    rcases hdec : c.decodeBase 2 with - | ⟨bs, c'⟩
    · exact .base_none hdec
    · refine .base_some hdec ?_
      dsimp only
      split
      · exact .fail
      · exact .poke (.copy fun _ _ => .pure)
  | bytesWithNil a n, r, p, c, b => by
    rw [unmarshal, info, TypeInfo.scan]
    rcases hstr : c.safeStrsize with x | l
    · exact .strsize_error hstr
    · refine .strsize_ok hstr ?_
      dsimp only
      split
      · exact .fail
      · exact .copy fun _ _ => .pure
  | dynamicBytes a, r, p, c, b | dynamicString a, r, p, c, b => by
    rw [unmarshal, info, TypeInfo.scan]
    exact dyn_walks
  | fixedArray a n t, r, p, c, b => by
    rw [unmarshal, info, TypeInfo.scan, arraysFit]
    exact .elems (fun _ _ _ => unmarshal_walks) n.toNat 0 c b
  | varArray a n count t, r, p, c, b => by
    rw [unmarshal, info, TypeInfo.scan, arraysFit]
    rcases hdec : c.decodeBase 2 with - | ⟨bs, c'⟩
    · exact .base_none hdec
    · refine .base_some hdec ?_
      dsimp only
      by_cases hmax : (e.val bs).toNat > n
      · rw [if_pos hmax, if_pos hmax, decide_eq_true hmax]
        exact .fail
      · rw [if_neg hmax, if_neg hmax, decide_eq_false hmax]
        exact .poke (.last (.elems (fun _ _ _ => unmarshal_walks) _ 0 c' b))
  | dynamicArray a t, r, p, c, b => by
    rw [unmarshal, info, TypeInfo.scan, arraysFit]
    rcases hdec : c.decodeBase 2 with - | ⟨bs, c'⟩
    · exact .base_none hdec
    · refine .base_some hdec (.setCount ?_)
      dsimp only
      by_cases h0 : e.val bs = 0
      · rw [if_pos h0, if_pos h0, decide_eq_true h0]
        exact .pure
      · rw [if_neg h0, if_neg h0, decide_eq_false h0]
        cases hm : mem b with
        | false => exact .malloc_refused (fun _ => rfl) hm
        | true =>
          have hsize : decide (getTypeSize A t * (e.val bs).toNat % A.sizeMod = getTypeSize A t * (e.val bs).toNat) =
              decide (getTypeSize A t * (e.val bs).toNat < A.sizeMod) := by
            rw [decide_eq_decide]
            exact Nat.mod_eq_iff_lt (sizeMod_ne_zero A)
          rw [if_pos rfl, ← hsize]
          exact .malloc_granted hm (.poke (.last (.elems (fun _ _ _ => unmarshal_walks) _ 0 c' (b + 1))))

theorem unmarshalFields_walks : ∀ {fs : List TypeDesc} {r : Region} {p : Nat} {c : Chain} {b : Nat},
    Walks (unmarshalFields Feed.reader A e mem fs r p) c b (TypeInfo.scanFields e mem (infos fs) true c b).rest
      (allArraysFit A e mem fs c b)
  | [], _, _, _, _ => by
    rw [unmarshalFields]
    exact .pure
  | f :: fs, r, p, c, b => by
    have hf : Walks (f.unmarshal Feed.reader A e mem r p) c b _ _ := unmarshal_walks
    have hall := hf.child (f := fun l => unmarshalFields Feed.reader A e mem fs r p >>= fun l' => Pure.pure (l + l'))
      fun _ _ _ => unmarshalFields_walks.last
    rw [unmarshalFields, infos, TypeInfo.scanFields, allArraysFit]
    rcases hrest : (TypeInfo.scan e mem f.info true c b).rest with - | ⟨c', b'⟩ <;>
      (rw [hrest] at hall; exact hall)

end

end TypeDesc

/-! ## `aosl_unmarshal` -/

/-- The decoder with addresses stops where the other one does, or ends at the same place of the chain with the same
number of blocks. -/
theorem restOf_aoslUnmarshal (t : TypeDesc) (c : Chain) :
    restOf (aoslUnmarshal A e mem t c) =
      (TypeInfo.unmarshal e mem t.info (TypeInfo.initTypedObj t.info t.info.uninit) c 0).rest := by
  have hwalk : Walks (t.unmarshal Feed.reader A e mem .object 0) c 0 _ _ := TypeDesc.unmarshal_walks
  have hrest := (hwalk ⟨⟨[], c.psb, c.next⟩, [], []⟩ rfl rfl).1
  exact hrest.trans (TypeInfo.unmarshal_agrees e mem t.info true c 0).1.symm

/-- All that is written lies in the `size` bytes of the object or in a block of the call, each of which has the size
that it is used with; the buffers of the chain lose what was copied out of them, and what is returned on success is the
sum of that. -/
structure InBounds (A : Arch) (size : Nat) (c : Chain) (r : Except Err Nat × Mem Feed) : Prop where
  writes : ∀ w ∈ r.2.writes, w.At A (span .object 0 size) ∨ w.InBlock A 0 r.2.blocks
  blocks : Exact r.2.blocks
  drained : ∃ bs, Drained (c.psb :: c.next) bs r.2.psb.segs
  count : ∀ l, r.1 = .ok l → l + unread r.2.psb.segs = unread (c.psb :: c.next)

/-- Decoding stays in bounds if and only if no dynamic array that the decoder comes to is larger than `SIZE_MAX`. -/
theorem inBounds_iff_arraysFit {t : TypeDesc} {size : Nat} (c : Chain) (ht : t.Fits A size) :
    InBounds A size c (aoslUnmarshal A e mem t c) ↔ t.arraysFit A e mem c 0 = true := by
  let s : Mem Feed := ⟨⟨[], c.psb, c.next⟩, [], []⟩
  have hwalk : Walks (t.unmarshal Feed.reader A e mem .object 0) c 0 _ _ := TypeDesc.unmarshal_walks
  have hwithin : Keeps (Within A (span .object 0 (0 + size))) (t.unmarshal Feed.reader A e mem .object 0) :=
    TypeDesc.unmarshal_within ht
  have hspend : Spends 0 (t.unmarshal Feed.reader A e mem .object 0) := TypeDesc.unmarshal_spends
  obtain ⟨-, bs, hbl, hex⟩ := hwalk s rfl rfl
  have hbl : (aoslUnmarshal A e mem t c).2.blocks = bs := hbl
  constructor
  · intro h
    exact hex.1 (hbl ▸ h.blocks)
  · intro hfit
    obtain ⟨ws, bs', hws, hbs, hin⟩ := hwithin s
    obtain ⟨bytes, hdr, hcount⟩ := hspend s
    have hws : (aoslUnmarshal A e mem t c).2.writes = ws := hws
    obtain rfl : bs = bs' := hbl.symm.trans hbs
    refine ⟨?_, hbl ▸ hex.2 hfit, ⟨bytes, hdr⟩, fun l hl => ?_⟩
    · rw [hws, hbl]
      rw [Nat.zero_add] at hin
      exact hin (hex.2 hfit)
    · rw [hcount l hl, Nat.zero_add]
      exact hdr.unread_eq.symm

/-- Two numbers of two bytes in a block. -/
theorem inBounds_iff_arraysFit_two :
    InBounds .lp64 24 ⟨⟨[9, 2], 0, none⟩, [⟨[0, 1, 0, 2, 0], 0, none⟩]⟩ (aoslUnmarshal .lp64 .little (fun _ => true)
      (.struct 0 24 [.scalar 0 .int8, .dynamicArray 8 (.scalar 0 .int16)])
      ⟨⟨[9, 2], 0, none⟩, [⟨[0, 1, 0, 2, 0], 0, none⟩]⟩) := by
  have ht : (TypeDesc.struct 0 24 [.scalar 0 .int8, .dynamicArray 8 (.scalar 0 .int16)]).Fits .lp64 24 :=
    ⟨by decide, (by decide : 0 + 1 ≤ 24), ⟨by decide, (by decide : 0 + 2 ≤ 2)⟩, trivial⟩
  exact (inBounds_iff_arraysFit _ ht).2 rfl

/-- 32768 elements of 131072 bytes each: a `size_t` of 32 bits is zero, and the first element is decoded into a block
of no bytes. -/
theorem not_inBounds_wrapped :
    let t := TypeDesc.dynamicArray 0 (.struct 0 131072 [.scalar 0 .int8])
    let r := aoslUnmarshal .ilp32 .little (fun _ => true) t ⟨⟨[0, 128, 7], 0, none⟩, []⟩
    t.Fits .ilp32 8 ∧ ⟨.block 0, 0, .bytes [7]⟩ ∈ r.2.writes ∧ r.2.blocks = [⟨0, 4294967296⟩] ∧
      ¬ ∀ w ∈ r.2.writes, w.At .ilp32 (span .object 0 8) ∨ w.InBlock .ilp32 0 r.2.blocks := by
  intro t r
  have hmem : ⟨.block 0, 0, .bytes [7]⟩ ∈ r.2.writes := by decide
  have hblocks : r.2.blocks = [⟨0, 4294967296⟩] := by decide
  refine ⟨⟨by decide, by decide, (by decide : 0 + 1 ≤ 131072), trivial⟩, hmem, hblocks, fun h => ?_⟩
  rcases h _ hmem with ⟨hr, -⟩ | ⟨j, b, -, hj, hle⟩
  · exact absurd hr nofun
  · rw [hblocks] at hj
    cases j with
    | zero =>
      cases hj
      exact absurd hle (by decide)
    | succ j => exact absurd hj nofun

end Aosl
