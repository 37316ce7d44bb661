import Aosl.Lib.Ledger
import Aosl.Marshal

/-!
# Cleaning up after `_____unmarshal`

`_____unmarshal` links a block to the object before it fills it, so that `aosl_fini_typed_obj` finds every
block when the decoding stops half-way. But the memory of the block is as `aosl_malloc` returned it, and
so are the elements of a variable array, which `aosl_init_typed_obj` does not visit: what is decoded into
these must be reached before the decoding stops, or `smart_fini_typed_obj` reads what nobody wrote. The
`allocated` of a dynamic string of 65535 bytes is zero, so its block is never freed.

`TypeInfo.scan` walks over a chain as a decoder of the type does, without an object, and says whether it
comes across one of these. `unmarshal_accounts` relates it to `unmarshal` and `finiTypedObj` by recursion
on the type.
-/

namespace Aosl
open Lib

namespace TypeInfo

/-! ## Where the decoding stops -/

mutual

/-- `smart_fini_typed_obj` reads a field of the object. -/
def owns : TypeInfo → Bool
  | void | scalar _ | fixedBytes _ | varBytes _ | bytesWithNil _ => false
  | pointer _ | string | dynamicBytes | dynamicString | varArray _ _ | dynamicArray _ => true
  | reference t => owns t
  | struct fs => ownsAny fs
  | fixedArray n t => n.toNat != 0 && owns t

def ownsAny : List TypeInfo → Bool
  | [] => false
  | f :: fs => owns f || ownsAny fs

end

/-- What a decoder of a type finds in a chain: `rest` is where it ends, if it does, with the number of the
next block. -/
structure Scan where
  tidy : Bool
  rest : Option (Chain × Nat)

/-- `n` elements; where one of them fails, the others are as they were. -/
def scanElems (scan : Chain → Nat → Scan) (untouched : Nat → Bool) : Nat → Chain → Nat → Scan
  | 0, c, b => ⟨true, some (c, b)⟩
  | n + 1, c, b =>
    match (scan c b).rest with
    | none => ⟨(scan c b).tidy && untouched n, none⟩
    | some (c', b') =>
      let s := scanElems scan untouched n c' b'
      ⟨(scan c b).tidy && s.tidy, s.rest⟩

def scanBytes (n : Nat) (c : Chain) (b : Nat) : Option (Chain × Nat) :=
  (Chain.decodeBytes n c.psb c.next).2.map (·, b)

/-- `DYNAMIC_BYTES` and, with `nul` one, `DYNAMIC_STRING`. -/
def scanDyn (e : Endian) (mem : Nat → Bool) (nul : Nat) (ready : Bool) (c : Chain) (b : Nat) : Scan :=
  match c.decodeBase 2 with
  | none => ⟨ready, none⟩
  | some (bs, c) =>
    let val := e.val bs
    if val.toNat + nul = 0 then ⟨true, some (c, b)⟩
    else if mem b then ⟨val + UInt16.ofNat nul != 0, scanBytes val.toNat c (b + 1)⟩
    else ⟨true, none⟩

mutual

/-- `ready` objects have been initialised. Where the decoding stops at a field that is not, and so is
not written either, the result is not tidy. -/
def scan (e : Endian) (mem : Nat → Bool) : TypeInfo → Bool → Chain → Nat → Scan
  | void, _, c, b => ⟨true, some (c, b)⟩
  | scalar k, _, c, b => ⟨true, (c.decodeBase k.size).map fun (_, c) => (c, b)⟩
  | pointer t, ready, c, b =>
    match c.decodeBase 1 with
    | none => ⟨ready, none⟩
    | some (bs, c) =>
      if bs = [0] then ⟨true, some (c, b)⟩
      else if mem b then scan e mem t false c (b + 1)
      else ⟨ready, none⟩
  | reference t, ready, c, b => scan e mem t ready c b
  | string, ready, c, b =>
    match c.decodeBase 1 with
    | none => ⟨ready, none⟩
    | some (bs, c) =>
      if bs = [0] then ⟨true, some (c, b)⟩
      else
        match c.safeStrsize with
        | .error _ => ⟨ready, none⟩
        | .ok n => if mem b then ⟨true, scanBytes (n % 65536) c (b + 1)⟩ else ⟨ready, none⟩
  | struct fs, ready, c, b => scanFields e mem fs ready c b
  | fixedBytes n, _, c, b => ⟨true, scanBytes n c b⟩
  | varBytes max, _, c, b =>
    match c.decodeBase 2 with
    | none => ⟨true, none⟩
    | some (bs, c) => ⟨true, if (e.val bs).toNat > max then none else scanBytes (e.val bs).toNat c b⟩
  | bytesWithNil max, _, c, b =>
    match c.safeStrsize with
    | .error _ => ⟨true, none⟩
    | .ok n => ⟨true, if n % 65536 > max then none else scanBytes (n % 65536) c b⟩
  | dynamicBytes, ready, c, b => scanDyn e mem 0 ready c b
  | dynamicString, ready, c, b => scanDyn e mem 1 ready c b
  | fixedArray n t, ready, c, b =>
    scanElems (scan e mem t ready) (fun k => ready || k == 0 || !owns t) n.toNat c b
  | varArray max t, ready, c, b =>
    match c.decodeBase 2 with
    | none => ⟨ready, none⟩
    | some (bs, c) =>
      if (e.val bs).toNat > max then ⟨ready, none⟩
      else scanElems (scan e mem t false) (fun k => k == 0 || !owns t) (e.val bs).toNat c b
  | dynamicArray t, ready, c, b =>
    match c.decodeBase 2 with
    | none => ⟨ready, none⟩
    | some (bs, c) =>
      if e.val bs = 0 then ⟨true, some (c, b)⟩
      else if mem b then
        scanElems (scan e mem t false) (fun k => k == 0 || !owns t) (e.val bs).toNat c (b + 1)
      else ⟨true, none⟩

def scanFields (e : Endian) (mem : Nat → Bool) : List TypeInfo → Bool → Chain → Nat → Scan
  | [], _, c, b => ⟨true, some (c, b)⟩
  | f :: fs, ready, c, b =>
    match (scan e mem f ready c b).rest with
    | none => ⟨(scan e mem f ready c b).tidy && (ready || !ownsAny fs), none⟩
    | some (c', b') =>
      let s := scanFields e mem fs ready c' b'
      ⟨(scan e mem f ready c b).tidy && s.tidy, s.rest⟩

end

/-! ## What is freed -/

def freed (t : TypeInfo) (o : Obj) : Option (List Nat) := (finiTypedObj t o).map Prod.snd

def freedElems (t : TypeInfo) (n : Nat) (os : List Obj) : Option (List Nat) :=
  (finiElems (finiTypedObj t) n os).map Prod.snd

def freedFields (fs : List TypeInfo) (os : List Obj) : Option (List Nat) := (finiFields fs os).map Prod.snd

section
variable {t : TypeInfo} {n : Nat} {o : Obj} {os : List Obj} {b : Nat}

theorem freedElems_zero : freedElems t 0 os = some [] := rfl

theorem freedElems_succ :
    freedElems t (n + 1) (o :: os) = (freed t o).bind fun fs => (freedElems t n os).map (fs ++ ·) := by
  simp only [freedElems, freed, finiElems]
  cases finiTypedObj t o <;> cases finiElems (finiTypedObj t) n os <;> rfl

theorem freedFields_nil : freedFields [] os = some [] := by simp [freedFields, finiFields]

theorem freedFields_cons {f : TypeInfo} {fs : List TypeInfo} :
    freedFields (f :: fs) (o :: os) = (freed f o).bind fun gs => (freedFields fs os).map (gs ++ ·) := by
  simp only [freedFields, freed, finiFields]
  cases finiTypedObj f o <;> cases finiFields fs os <;> rfl

theorem freed_ptr : freed (pointer t) (.ptr b o) = (freed t o).map (· ++ [b]) := by
  simp only [freed, finiTypedObj]
  cases finiTypedObj t o <;> rfl

theorem freed_struct {fs : List TypeInfo} : freed (struct fs) (.list os) = freedFields fs os := by
  simp only [freed, finiTypedObj, freedFields]
  cases finiFields fs os <;> rfl

theorem freed_fixedArray {k : UInt16} : freed (fixedArray k t) (.list os) = freedElems t k.toNat os := by
  simp only [freed, finiTypedObj, freedElems]
  cases finiElems (finiTypedObj t) k.toNat os <;> rfl

theorem freed_varArray {max : Nat} {k : UInt16} :
    freed (varArray max t) (.var (some k) (.list os)) = freedElems t k.toNat os := by
  simp only [freed, finiTypedObj, freedElems]
  cases finiElems (finiTypedObj t) k.toNat os <;> rfl

theorem freed_dynamicArray {k : UInt16} (hk : k ≠ 0) :
    freed (dynamicArray t) (.dyn (some k) (some k) (.ptr b (.list os))) =
      (freedElems t k.toNat os).map (· ++ [b]) := by
  simp only [freed, freedElems]
  rw [finiTypedObj]
  · cases finiElems (finiTypedObj t) k.toNat os <;> rfl
  · exact hk

end

/-! ## Objects that nothing has been decoded into -/

def start (ready : Bool) (t : TypeInfo) : Obj := if ready then initTypedObj t (uninit t) else uninit t

def starts (ready : Bool) (fs : List TypeInfo) : List Obj :=
  if ready then initFields fs (uninits fs) else uninits fs

section
variable {t : TypeInfo} {ready : Bool} {b : Nat}

theorem starts_cons {f : TypeInfo} {fs : List TypeInfo} :
    starts ready (f :: fs) = start ready f :: starts ready fs := by
  cases ready <;> rfl

theorem start_struct {fs : List TypeInfo} : start ready (struct fs) = .list (starts ready fs) := by
  cases ready <;> rfl

theorem start_reference : start ready (reference t) = start ready t := by
  cases ready <;> rfl

theorem start_fixedArray {n : UInt16} :
    start ready (fixedArray n t) = .list (List.replicate n.toNat (start ready t)) := by
  cases ready with
  | false => rfl
  | true => simp [start, initTypedObj, uninit]

theorem start_varArray {n : Nat} : start ready (varArray n t) =
    .var (if ready then some 0 else none) (.list (List.replicate n (uninit t))) := by
  cases ready <;> rfl

theorem replicate_accounts (h : ∀ b, Accounts (freed t (start ready t)) b b (ready || !owns t))
    (n m : Nat) (hnm : n ≤ m) (b : Nat) :
    Accounts (freedElems t n (List.replicate m (start ready t))) b b (ready || n == 0 || !owns t) := by
  induction n generalizing m with
  | zero => simpa [freedElems_zero] using Accounts.nil
  | succ n ih =>
    obtain ⟨m, rfl⟩ := Nat.exists_eq_add_of_le' (Nat.le_trans (Nat.succ_le_succ (Nat.zero_le n)) hnm)
    have hflag : ((ready || !owns t) && (ready || n == 0 || !owns t)) = (ready || n + 1 == 0 || !owns t) := by
      cases ready <;> cases owns t <;> simp
    rw [List.replicate_succ, freedElems_succ, ← hflag]
    exact (h b).append (ih m (by omega))

mutual

/-- The clean-up of such an object frees nothing, and needs it initialised if it owns anything. -/
theorem start_accounts (ready : Bool) : ∀ (t : TypeInfo) (b : Nat),
    Accounts (freed t (start ready t)) b b (ready || !owns t)
  | void, b | scalar _, b | fixedBytes _, b | varBytes _, b | bytesWithNil _, b => by
    cases ready <;> exact Accounts.nil
  | pointer _, b | string, b | dynamicBytes, b | dynamicString, b | varArray _ _, b | dynamicArray _, b => by
    cases ready with
    | true => exact Accounts.nil
    | false => exact Accounts.none (Nat.le_refl b)
  | reference t, b => by
    rw [start_reference]
    exact start_accounts ready t b
  | struct fs, b => by
    rw [start_struct, freed_struct]
    exact starts_accounts ready fs b
  | fixedArray n t, b => by
    have hflag : (ready || n.toNat == 0 || !owns t) = (ready || !(n.toNat != 0 && owns t)) := by
      cases ready <;> cases owns t <;> simp [bne]
    rw [start_fixedArray, freed_fixedArray, owns, ← hflag]
    exact replicate_accounts (start_accounts ready t) n.toNat n.toNat (Nat.le_refl _) b

theorem starts_accounts (ready : Bool) : ∀ (fs : List TypeInfo) (b : Nat),
    Accounts (freedFields fs (starts ready fs)) b b (ready || !ownsAny fs)
  | [], b => by
    simpa [freedFields_nil, ownsAny] using Accounts.nil
  | f :: fs, b => by
    have hflag : ((ready || !owns f) && (ready || !ownsAny fs)) = (ready || !(owns f || ownsAny fs)) := by
      cases ready <;> cases owns f <;> simp
    rw [starts_cons, freedFields_cons, ownsAny, ← hflag]
    exact (start_accounts ready f b).append (starts_accounts ready fs b)

end

end

/-! ## Decoding, scanning and cleaning up -/

namespace Out
variable {α β : Type}

/-- Where the decoding ended. -/
def rest (r : Out α) : Option (Chain × Nat) :=
  match r.res with
  | .ok (_, c) => some (c, r.next)
  | .error _ => none

@[simp] theorem rest_map {r : Out α} {f : α → β} : (r.map f).rest = r.rest := rfl

@[simp] theorem obj_map {r : Out α} {f : α → β} : (r.map f).obj = f r.obj := rfl

@[simp] theorem next_map {r : Out α} {f : α → β} : (r.map f).next = r.next := rfl

@[simp] theorem rest_addLen {r : Out α} {l : Nat} : (r.addLen l).rest = r.rest := by
  rcases r with ⟨- | ⟨n, c⟩, o, b⟩ <;> rfl

@[simp] theorem next_addLen {r : Out α} {l : Nat} : (r.addLen l).next = r.next := rfl

end Out

/-- The decoding `r` that began at block `b` ends where the scan `s` does, and what `freed` frees of the
object accounts for its blocks if the scan is tidy. -/
def Agrees {α : Type} (freed : α → Option (List Nat)) (r : Out α) (b : Nat) (s : Scan) : Prop :=
  r.rest = s.rest ∧ Accounts (freed r.obj) b r.next s.tidy

section
variable {α : Type} {e : Endian} {mem : Nat → Bool} {t : TypeInfo} {ready : Bool}

/-- One object after the other: those behind the first that fails are untouched. -/
theorem Agrees.cons {f : α → Option (List Nat)} {g h : List α → Option (List Nat)} {r : Out α} {s : Scan}
    {b : Nat} {os : List α} {k : Chain → Nat → Out (List α)} {sk : Chain → Nat → Scan} {u : Bool}
    (hr : Agrees f r b s) (hh : ∀ a as, h (a :: as) = (f a).bind fun fs => (g as).map (fs ++ ·))
    (hk : ∀ c b, Agrees g (k c b) b (sk c b)) (hos : ∀ b, Accounts (g os) b b u) :
    Agrees h (r.cons os k) b (match s.rest with
      | none => ⟨s.tidy && u, none⟩
      | some (c, b) => ⟨s.tidy && (sk c b).tidy, (sk c b).rest⟩) := by
  obtain ⟨hrest, hacc⟩ := hr
  rcases r with ⟨x | ⟨l, c⟩, o, b'⟩
  · rw [← hrest]
    refine ⟨rfl, ?_⟩
    simp only [Out.cons, Out.rest, hh]
    exact hacc.append (hos b')
  · obtain ⟨hrest', hacc'⟩ := hk c b'
    rw [← hrest]
    constructor
    · change (((k c b').addLen l).map (o :: ·)).rest = (sk c b').rest
      rw [Out.rest_map, Out.rest_addLen, hrest']
    · change Accounts (h (o :: (k c b').obj)) b (k c b').next (s.tidy && (sk c b').tidy)
      rw [hh]
      exact hacc.append hacc'

theorem unmarshalElems_agrees
    (ht : ∀ c b, Agrees (freed t) (unmarshal e mem t (start ready t) c b) b (scan e mem t ready c b))
    (n m : Nat) (hnm : n ≤ m) (c : Chain) (b : Nat) :
    Agrees (freedElems t n) (unmarshalElems (unmarshal e mem t) n (List.replicate m (start ready t)) c b) b
      (scanElems (scan e mem t ready) (fun k => ready || k == 0 || !owns t) n c b) := by
  induction n generalizing m c b with
  | zero => exact ⟨rfl, Accounts.nil⟩
  | succ n ih =>
    obtain ⟨m, rfl⟩ := Nat.exists_eq_add_of_le' (Nat.le_trans (Nat.succ_le_succ (Nat.zero_le n)) hnm)
    rw [List.replicate_succ, unmarshalElems, scanElems]
    exact (ht c b).cons (fun _ _ => freedElems_succ) (ih m (by omega))
      (replicate_accounts (start_accounts ready t) n m (by omega))

theorem unmarshalBytes_rest {n : Nat} {cells : Cells} {c : Chain} {b : Nat} :
    (unmarshalBytes n cells c b).rest = scanBytes n c b := by
  unfold unmarshalBytes scanBytes
  rcases Chain.decodeBytes n c.psb c.next with ⟨bs, - | c'⟩ <;> rfl

theorem unmarshalBytes_next {n : Nat} {cells : Cells} {c : Chain} {b : Nat} :
    (unmarshalBytes n cells c b).next = b := by
  unfold unmarshalBytes
  rcases Chain.decodeBytes n c.psb c.next with ⟨bs, - | c'⟩ <;> rfl

theorem agrees_start {x : Err} {b : Nat} (hown : owns t = true) :
    Agrees (freed t) ⟨.error x, start ready t, b⟩ b ⟨ready, none⟩ := by
  have hacc := start_accounts ready t b
  rw [hown, Bool.not_true, Bool.or_false] at hacc
  exact ⟨rfl, hacc⟩

theorem agrees_plain {r : Out Obj} {b : Nat} {x : Option (Chain × Nat)} (hrest : r.rest = x) (hnext : r.next = b)
    (hobj : freed t r.obj = some []) : Agrees (freed t) r b ⟨true, x⟩ := by
  refine ⟨hrest, ?_⟩
  rw [hobj, hnext]
  exact Accounts.nil

theorem finiBytes_nil {n : Option UInt16} {vs : Obj} :
    (finiTypedObj.finiBytes (.dyn n (some 0) vs)).map Prod.snd = some [] := rfl

theorem finiBytes_ptr {n : Option UInt16} {k : UInt16} {b : Nat} {o : Obj} (hk : k ≠ 0) :
    (finiTypedObj.finiBytes (.dyn n (some k) (.ptr b o))).map Prod.snd = some [b] := by
  rw [finiTypedObj.finiBytes, if_pos (UInt16.pos_iff_ne_zero.2 hk)]
  rfl

theorem unmarshalDyn_agrees {nul : Nat} {c : Chain} {b : Nat} {n a : Option UInt16} {vs : Obj}
    (hfini : ∀ o, freed t o = (finiTypedObj.finiBytes o).map Prod.snd) (hstart : start ready t = .dyn n a vs)
    (hown : owns t = true) :
    Agrees (freed t) (unmarshalDyn e mem nul n a vs c b) b (scanDyn e mem nul ready c b) := by
  rcases hdec : c.decodeBase 2 with - | ⟨bs, c'⟩
  · simp only [unmarshalDyn, scanDyn, hdec]
    rw [← hstart]
    exact agrees_start hown
  · by_cases h0 : (e.val bs).toNat + nul = 0
    · simp only [unmarshalDyn, scanDyn, hdec, if_pos h0]
      obtain ⟨hval, rfl⟩ := Nat.add_eq_zero_iff.1 h0
      have hval : e.val bs = 0 := UInt16.toNat_inj.1 hval
      refine agrees_plain rfl rfl ?_
      rw [hfini, hval]
      exact finiBytes_nil
    · cases hm : mem b with
      | false =>
        simp only [unmarshalDyn, scanDyn, hdec, if_neg h0, hm, Bool.false_eq_true, if_false]
        exact agrees_plain rfl rfl (hfini _)
      | true =>
        simp only [unmarshalDyn, scanDyn, hdec, if_neg h0, hm, if_true]
        refine ⟨Out.rest_addLen.trans unmarshalBytes_rest, ?_⟩
        rw [Out.next_map, Out.next_addLen, unmarshalBytes_next, Out.obj_map, hfini]
        -- `allocated` is an `uint16_t`, and zero means that there is no block
        by_cases hsum : e.val bs + UInt16.ofNat nul = 0
        · rw [hsum, finiBytes_nil]
          exact Accounts.leak
        · rw [finiBytes_ptr hsum, bne_iff_ne.2 hsum]
          exact Accounts.single

mutual

theorem unmarshal_agrees (e : Endian) (mem : Nat → Bool) : ∀ (t : TypeInfo) (ready : Bool) (c : Chain) (b : Nat),
    Agrees (freed t) (unmarshal e mem t (start ready t) c b) b (scan e mem t ready c b)
  | void, ready, c, b => ⟨rfl, Accounts.nil⟩
  | scalar k, ready, c, b => by
    cases hdec : c.decodeBase k.size with
    | none =>
      simp only [unmarshal, scan, hdec]
      exact agrees_plain rfl rfl rfl
    | some bc =>
      simp only [unmarshal, scan, hdec]
      exact agrees_plain rfl rfl rfl
  | pointer t, ready, c, b => by
    rcases hdec : c.decodeBase 1 with - | ⟨bs, c'⟩
    · simp only [unmarshal, scan, hdec]
      exact agrees_start rfl
    · by_cases h0 : bs = [0]
      · simp only [unmarshal, scan, hdec, if_pos h0]
        exact ⟨rfl, Accounts.nil⟩
      · cases hm : mem b with
        | false =>
          simp only [unmarshal, scan, hdec, if_neg h0, hm, Bool.false_eq_true, if_false]
          exact agrees_start rfl
        | true =>
          simp only [unmarshal, scan, hdec, if_neg h0, hm, if_true]
          obtain ⟨hrest, hacc⟩ := unmarshal_agrees e mem t false c' (b + 1)
          refine ⟨Out.rest_addLen.trans hrest, ?_⟩
          rw [Out.obj_map, freed_ptr]
          exact hacc.block
  | reference t, ready, c, b => by
    rw [start_reference]
    exact unmarshal_agrees e mem t ready c b
  | string, ready, c, b => by
    rcases hdec : c.decodeBase 1 with - | ⟨bs, c'⟩
    · simp only [unmarshal, scan, hdec]
      exact agrees_start rfl
    · by_cases h0 : bs = [0]
      · simp only [unmarshal, scan, hdec, if_pos h0]
        exact ⟨rfl, Accounts.nil⟩
      · rcases hstr : c'.safeStrsize with x | n
        · simp only [unmarshal, scan, hdec, if_neg h0, hstr]
          exact agrees_start rfl
        · cases hm : mem b with
          | false =>
            simp only [unmarshal, scan, hdec, if_neg h0, hstr, hm, Bool.false_eq_true, if_false]
            exact agrees_start rfl
          | true =>
            simp only [unmarshal, scan, hdec, if_neg h0, hstr, hm, if_true]
            refine ⟨?_, ?_⟩
            · rw [Out.rest_map, Out.rest_addLen, unmarshalBytes_rest]
            · rw [Out.next_map, Out.next_addLen, unmarshalBytes_next]
              exact Accounts.single
  | struct fs, ready, c, b => by
    obtain ⟨hrest, hacc⟩ := unmarshalFields_agrees e mem fs ready c b
    rw [start_struct, unmarshal, scan]
    refine ⟨hrest, ?_⟩
    rw [Out.obj_map, freed_struct]
    exact hacc
  | fixedBytes n, ready, c, b => by
    obtain ⟨cells, hobj⟩ : ∃ cells, start ready (fixedBytes n) = .raw cells := by cases ready <;> exact ⟨_, rfl⟩
    rw [hobj, unmarshal, scan]
    exact agrees_plain unmarshalBytes_rest unmarshalBytes_next rfl
  | varBytes max, ready, c, b => by
    obtain ⟨n, cells, hobj⟩ : ∃ n cells, start ready (varBytes max) = .var n (.raw cells) := by
      cases ready <;> exact ⟨_, _, rfl⟩
    rcases hdec : c.decodeBase 2 with - | ⟨bs, c'⟩
    · simp only [hobj, unmarshal, scan, hdec]
      exact agrees_plain rfl rfl rfl
    · by_cases hmax : (e.val bs).toNat > max
      · simp only [hobj, unmarshal, scan, hdec, if_pos hmax]
        exact agrees_plain rfl rfl rfl
      · simp only [hobj, unmarshal, scan, hdec, if_neg hmax]
        exact agrees_plain (Out.rest_addLen.trans unmarshalBytes_rest) unmarshalBytes_next rfl
  | bytesWithNil max, ready, c, b => by
    obtain ⟨cells, hobj⟩ : ∃ cells, start ready (bytesWithNil max) = .raw cells := by
      cases ready <;> exact ⟨_, rfl⟩
    rcases hstr : c.safeStrsize with x | n
    · simp only [hobj, unmarshal, scan, hstr]
      exact agrees_plain rfl rfl rfl
    · by_cases hmax : n % 65536 > max
      · simp only [hobj, unmarshal, scan, hstr, if_pos hmax]
        exact agrees_plain rfl rfl rfl
      · simp only [hobj, unmarshal, scan, hstr, if_neg hmax]
        exact agrees_plain unmarshalBytes_rest unmarshalBytes_next rfl
  | dynamicBytes, ready, c, b => by
    obtain ⟨n, a, vs, hobj⟩ : ∃ n a vs, start ready dynamicBytes = .dyn n a vs := by
      cases ready <;> exact ⟨_, _, _, rfl⟩
    rw [hobj, unmarshal, scan]
    exact unmarshalDyn_agrees (fun _ => rfl) hobj rfl
  | dynamicString, ready, c, b => by
    obtain ⟨n, a, vs, hobj⟩ : ∃ n a vs, start ready dynamicString = .dyn n a vs := by
      cases ready <;> exact ⟨_, _, _, rfl⟩
    rw [hobj, unmarshal, scan]
    exact unmarshalDyn_agrees (fun _ => rfl) hobj rfl
  | fixedArray n t, ready, c, b => by
    obtain ⟨hrest, hacc⟩ := unmarshalElems_agrees (unmarshal_agrees e mem t ready) n.toNat n.toNat (Nat.le_refl _) c b
    rw [start_fixedArray, unmarshal, scan]
    refine ⟨hrest, ?_⟩
    rw [Out.obj_map, freed_fixedArray]
    exact hacc
  | varArray max t, ready, c, b => by
    rcases hdec : c.decodeBase 2 with - | ⟨bs, c'⟩
    · simp only [start_varArray, unmarshal, scan, hdec]
      rw [← start_varArray]
      exact agrees_start rfl
    · by_cases hmax : (e.val bs).toNat > max
      · simp only [start_varArray, unmarshal, scan, hdec, if_pos hmax]
        rw [← start_varArray]
        exact agrees_start rfl
      · simp only [start_varArray, unmarshal, scan, hdec, if_neg hmax]
        obtain ⟨hrest, hacc⟩ :=
          unmarshalElems_agrees (unmarshal_agrees e mem t false) _ max (Nat.le_of_not_lt hmax) c' b
        refine ⟨Out.rest_addLen.trans hrest, ?_⟩
        rw [Out.obj_map, freed_varArray]
        exact hacc
  | dynamicArray t, ready, c, b => by
    obtain ⟨n, a, vs, hobj⟩ : ∃ n a vs, start ready (dynamicArray t) = .dyn n a vs := by
      cases ready <;> exact ⟨_, _, _, rfl⟩
    rcases hdec : c.decodeBase 2 with - | ⟨bs, c'⟩
    · simp only [hobj, unmarshal, scan, hdec]
      rw [← hobj]
      exact agrees_start rfl
    · by_cases h0 : e.val bs = 0
      · simp only [hobj, unmarshal, scan, hdec, h0, if_true]
        exact agrees_plain rfl rfl rfl
      · cases hm : mem b with
        | false =>
          simp only [hobj, unmarshal, scan, hdec, if_neg h0, hm, Bool.false_eq_true, if_false]
          exact agrees_plain rfl rfl rfl
        | true =>
          simp only [hobj, unmarshal, scan, hdec, if_neg h0, hm, if_true]
          obtain ⟨hrest, hacc⟩ :=
            unmarshalElems_agrees (unmarshal_agrees e mem t false) (e.val bs).toNat _ (Nat.le_refl _) c' (b + 1)
          refine ⟨Out.rest_addLen.trans hrest, ?_⟩
          rw [Out.obj_map, freed_dynamicArray h0]
          exact hacc.block

theorem unmarshalFields_agrees (e : Endian) (mem : Nat → Bool) :
    ∀ (fs : List TypeInfo) (ready : Bool) (c : Chain) (b : Nat),
      Agrees (freedFields fs) (unmarshalFields e mem fs (starts ready fs) c b) b (scanFields e mem fs ready c b)
  | [], ready, c, b => by
    rw [unmarshalFields, scanFields]
    exact ⟨rfl, freedFields_nil ▸ Accounts.nil⟩
  | f :: fs, ready, c, b => by
    rw [starts_cons, unmarshalFields, scanFields]
    exact (unmarshal_agrees e mem f ready c b).cons (fun _ _ => freedFields_cons)
      (unmarshalFields_agrees e mem fs ready) (starts_accounts ready fs)

end

end

/-- `aosl_fini_typed_obj` after the decoding `r`, whose first block was `b`: it reads no field that was
never written, and frees the blocks of the decoding, each of them once, and nothing else. -/
def CleansUp (t : TypeInfo) (r : Out Obj) (b : Nat) : Prop :=
  ∃ o fs, finiTypedObj t r.obj = some (o, fs) ∧ fs.Perm (List.range' b (r.next - b))

/-- After decoding any chain into an initialised object, with success or without, the clean-up is right if
and only if a scan of the chain is tidy. -/
theorem cleansUp_unmarshal_iff (e : Endian) (mem : Nat → Bool) (t : TypeInfo) (c : Chain) (b : Nat) :
    CleansUp t (unmarshal e mem t (initTypedObj t (uninit t)) c b) b ↔ (scan e mem t true c b).tidy = true := by
  obtain ⟨-, hacc⟩ := unmarshal_agrees e mem t true c b
  rw [hacc.clean]
  constructor
  · rintro ⟨o, fs, hfini, hperm⟩
    exact ⟨fs, by simp only [freed, start, if_true, hfini, Option.map_some], hperm⟩
  · rintro ⟨fs, hfreed, hperm⟩
    obtain ⟨⟨o, fs⟩, hfini, rfl⟩ := Option.map_eq_some_iff.1 hfreed
    exact ⟨o, fs, hfini, hperm⟩

/-- The first of two fields was read, the count of the second is cut short. -/
example : (scan .little (fun _ => true) (struct [string, dynamicBytes]) true ⟨⟨[0, 5], 0, none⟩, []⟩ 0).tidy =
    true := by decide

/-- A pointer to a string, of which only the presence byte arrives: the string in the new block is read
by the clean-up, but nobody has written it. -/
theorem not_cleansUp_pointer :
    let r := unmarshal .little (fun _ => true) (pointer string) (initTypedObj (pointer string)
      (uninit (pointer string))) ⟨⟨[1], 0, none⟩, []⟩ 0
    r.res = .error .emsgsize ∧ r.next = 1 ∧ finiTypedObj (pointer string) r.obj = none ∧
      ¬ CleansUp (pointer string) r 0 := by
  intro r
  have hfini : finiTypedObj (pointer string) r.obj = none := rfl
  refine ⟨rfl, rfl, hfini, ?_⟩
  rintro ⟨o, fs, hsome, -⟩
  rw [hfini] at hsome
  exact absurd hsome nofun

end TypeInfo

end Aosl
