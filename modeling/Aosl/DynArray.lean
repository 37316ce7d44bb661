import Mathlib.Tactic.Common

/-!
# Dynamic arrays, bytes and strings, `lib/marshalling.c`

An `aosl_dynamic_array_t` has `count` elements in a block of `allocated`. A dynamic string is one of bytes with a
`'\0'` behind the last, which `count` leaves out. `fresh` is an element that nothing was written to and `nul` is the
`'\0'`; the blocks of `aosl_malloc` are numbered, `b` is the number of the next and `mem` says whether it is granted. The
real one always grants it, as it aborts where there is no memory: with `mem = false` what follows is also proved of the dead
branches behind its `NULL`.

The functions have no result where they would read or write past a block, or follow a pointer that was never written.
-/

namespace Aosl

/-- The errors the functions return; `failed` is `-1`. -/
inductive DynErr where
  | e2big
  | enomem
  | failed
deriving DecidableEq

/-- The field `values`: never written, `NULL`, or a block with its elements. -/
inductive DynPtr (α : Type) where
  | undef
  | null
  | block (b : Nat) (cells : List α)
deriving DecidableEq

namespace DynPtr
variable {α : Type}

/-- The first `n` elements, for a `memcpy` out of the block. -/
def read : Nat → DynPtr α → Option (List α)
  | 0, _ => some []
  | n + 1, .block _ cells => if n + 1 ≤ cells.length then some (cells.take (n + 1)) else none
  | _ + 1, _ => none

/-- `memcpy` of `xs` to the elements from `i` on. -/
def write (i : Nat) (xs : List α) : DynPtr α → Option (DynPtr α)
  | .block b cells =>
    if i + xs.length ≤ cells.length then some (.block b (cells.take i ++ xs ++ cells.drop (i + xs.length))) else none
  | _ => none

/-- What `aosl_free` frees. -/
def free : DynPtr α → Option (List Nat)
  | .undef => none
  | .null => some []
  | .block b _ => some [b]

end DynPtr

structure DynArray (α : Type) where
  count : UInt16
  allocated : UInt16
  values : DynPtr α
deriving DecidableEq

/-- What a function returns, the array afterwards, the blocks freed and the number of the next block. -/
structure DynOut (α : Type) where
  res : Except DynErr Unit
  arr : DynArray α
  freed : List Nat
  next : Nat

def dynamicArrayMaxCount : Nat := 10240
def dynamicArrayGrowStride : UInt16 := 4
def dynamicBytesGrowStride : UInt16 := 16

namespace DynArray
variable {α : Type}

def init : DynArray α := ⟨0, 0, .null⟩

/-- `if (arr->allocated > 0) aosl_free (arr->values)`. -/
def release (arr : DynArray α) : Option (List Nat) := if arr.allocated > 0 then arr.values.free else some []

/-- `while (allocated < target) allocated += stride`. -/
def grow (stride target : UInt16) : (turns : Nat) → (allocated : UInt16) → Option UInt16
  | 0, _ => none
  | turns + 1, allocated =>
    if allocated < target then grow stride target turns (allocated + stride) else some allocated

/-- The first part of `aosl_dynamic_array_add_elems` and of `aosl_dynamic_string_strcat`: room for `target` elements. -/
def enlarge (fresh : α) (stride target : UInt16) (mem : Bool) (b : Nat) (arr : DynArray α) : Option (DynOut α) := do
  let allocated ← grow stride target 65536 arr.allocated
  if allocated > arr.allocated then
    if mem then
      let moved ← arr.values.read arr.count.toNat
      let freed ← arr.release
      let values ← (DynPtr.block b (List.replicate allocated.toNat fresh)).write 0 moved
      return ⟨.ok (), ⟨arr.count, allocated, values⟩, freed, b + 1⟩
    else return ⟨.error .enomem, arr, [], b⟩
  else return ⟨.ok (), arr, [], b⟩

/-- The three tests before it. -/
def tooBig (count len : Nat) : Bool :=
  count ≥ dynamicArrayMaxCount || len ≥ dynamicArrayMaxCount || len + count ≥ dynamicArrayMaxCount

/-- The two functions: `len` elements and room for `extra` are asked for, `fill` writes to the array. -/
def append (fresh : α) (stride extra : UInt16) (len : Nat) (fill : DynArray α → Option (DynArray α)) (mem : Bool)
    (b : Nat) (arr : DynArray α) : Option (DynOut α) :=
  if tooBig arr.count.toNat len then some ⟨.error .e2big, arr, [], b⟩
  else do
    let out ← enlarge fresh stride (arr.count + UInt16.ofNat len + extra) mem b arr
    match out.res with
    | .error _ => return out
    | .ok _ => (fill out.arr).map fun arr => { out with arr := arr }

def addElems (fresh : α) (elems : List α) : Bool → Nat → DynArray α → Option (DynOut α) :=
  append fresh dynamicArrayGrowStride 0 elems.length fun arr =>
    if elems.length > 0 then
      (arr.values.write arr.count.toNat elems).map fun values =>
        { arr with count := arr.count + UInt16.ofNat elems.length, values := values }
    else some arr

/-- `aosl_dynamic_bytes_add_data`. -/
def addData (fresh : α) (data : List α) (mem : Bool) (b : Nat) (arr : DynArray α) : Option (DynOut α) :=
  addElems fresh data mem b arr

/-- `aosl_dynamic_bytes_copy_data`. -/
def copyData (fresh : α) (data : List α) (mem : Bool) (b : Nat) (arr : DynArray α) : Option (DynOut α) :=
  addElems fresh data mem b { arr with count := 0 }

/-- `aosl_dynamic_string_strcat`; `str` is without its `'\0'`. -/
def strcat (fresh nul : α) (str : List α) : Bool → Nat → DynArray α → Option (DynOut α) :=
  append fresh dynamicBytesGrowStride 1 str.length fun arr => do
    let arr ← if str.length > 0 then
        (arr.values.write arr.count.toNat str).map fun values =>
          { arr with count := arr.count + UInt16.ofNat str.length, values := values }
      else some arr
    let values ← arr.values.write arr.count.toNat [nul]
    return { arr with values := values }

/-- `aosl_dynamic_string_strcpy`. -/
def strcpy (fresh nul : α) (str : List α) (mem : Bool) (b : Nat) (arr : DynArray α) : Option (DynOut α) :=
  strcat fresh nul str mem b { arr with count := 0 }

/-- `aosl_dynamic_bytes_copy`. -/
def copy (fresh nul : α) (src : DynArray α) (mem : Bool) (b : Nat) (dst : DynArray α) : Option (DynOut α) :=
  if src.allocated > 0 then
    if mem then do
      let data ← src.values.read src.count.toNat
      let values ← (DynPtr.block b (List.replicate src.allocated.toNat fresh)).write 0 data
      (if src.allocated > src.count then values.write src.count.toNat [nul] else some values).bind fun values =>
        dst.release.map fun freed => ⟨.ok (), ⟨src.count, src.allocated, values⟩, freed, b + 1⟩
    else some ⟨.error .failed, dst, [], b⟩
  else dst.release.map fun freed => ⟨.ok (), ⟨src.count, src.allocated, .null⟩, freed, b⟩

/-- The calls that return an error, with their arguments. -/
inductive Call (α : Type) where
  | addElems (elems : List α)
  | addData (data : List α)
  | copyData (data : List α)
  | strcat (str : List α)
  | strcpy (str : List α)
  | copy (src : DynArray α)

def call (fresh nul : α) (c : Call α) (mem : Bool) (b : Nat) (arr : DynArray α) : Option (DynOut α) :=
  match c with
  | .addElems elems => addElems fresh elems mem b arr
  | .addData data => addData fresh data mem b arr
  | .copyData data => copyData fresh data mem b arr
  | .strcat str => strcat fresh nul str mem b arr
  | .strcpy str => strcpy fresh nul str mem b arr
  | .copy src => copy fresh nul src mem b arr

/-- The call has changed nothing. -/
structure Unchanged (out : DynOut α) (arr : DynArray α) (b : Nat) : Prop where
  arr : out.arr = arr
  freed : out.freed = []
  next : out.next = b

/-! ### When the calls fail -/

variable {fresh nul : α} {mem : Bool} {b : Nat} {arr : DynArray α} {out : DynOut α} {stride target : UInt16}

/-- The loop ends where the counter does not wrap around on its way. -/
theorem grow_spec {turns : Nat} {allocated : UInt16} (hpos : 0 < stride.toNat)
    (hend : target.toNat + stride.toNat ≤ 65536) (hturns : target.toNat ≤ turns + allocated.toNat) :
    ∃ a, grow stride target (turns + 1) allocated = some a ∧ allocated.toNat ≤ a.toNat ∧ target.toNat ≤ a.toNat ∧
      (allocated.toNat < a.toNat ↔ allocated.toNat < target.toNat) := by
  induction turns generalizing allocated with
  | zero =>
    have hle : ¬allocated < target := by rw [UInt16.lt_iff_toNat_lt]; omega
    refine ⟨allocated, by rw [grow, if_neg hle], ?_⟩
    omega
  | succ turns ih =>
    rw [grow]
    by_cases hlt : allocated < target
    · have hnat := UInt16.lt_iff_toNat_lt.1 hlt
      have hadd : (allocated + stride).toNat = allocated.toNat + stride.toNat := by
        rw [UInt16.toNat_add]
        omega
      obtain ⟨a, ha, hle, htarget, -⟩ := @ih (allocated + stride) (by omega)
      refine ⟨a, by rw [if_pos hlt, ha], ?_⟩
      omega
    · have hnat := UInt16.lt_iff_toNat_lt.not.1 hlt
      refine ⟨allocated, by rw [if_neg hlt], ?_⟩
      omega

/-- When there is not enough room and no memory for more, nothing has changed; else the count is as it was. -/
theorem enlarge_spec (hpos : 0 < stride.toNat) (hend : target.toNat + stride.toNat ≤ 65536)
    (h : enlarge fresh stride target mem b arr = some out) :
    (arr.allocated.toNat < target.toNat ∧ mem = false ∧ out = ⟨.error .enomem, arr, [], b⟩) ∨
      ((target.toNat ≤ arr.allocated.toNat ∨ mem = true) ∧ out.res = .ok () ∧ out.arr.count = arr.count) := by
  obtain ⟨a, ha, -, -, hiff⟩ := @grow_spec stride target 65535 arr.allocated hpos hend
    (Nat.le_trans (Nat.le_of_lt_succ target.toNat_lt) (Nat.le_add_right _ _))
  simp only [enlarge, ha, Option.bind_eq_bind, Option.bind_some, gt_iff_lt, UInt16.lt_iff_toNat_lt, hiff] at h
  split at h
  · next hlt =>
    cases mem with
    | false => exact .inl ⟨hlt, rfl, (Option.some.inj h).symm⟩
    | true =>
      simp only [if_true, Option.bind_eq_some_iff] at h
      obtain ⟨moved, -, freed, -, values, -, h⟩ := h
      obtain rfl := Option.some.inj h
      exact .inr ⟨.inr rfl, rfl, rfl⟩
  · next hge =>
    obtain rfl := Option.some.inj h
    exact .inr ⟨.inl (Nat.le_of_not_lt hge), rfl, rfl⟩

/-- There is no way to get room for `len` elements and `extra`. -/
def Short (mem : Bool) (arr : DynArray α) (len extra : Nat) : Prop :=
  len + arr.count.toNat ≥ dynamicArrayMaxCount ∨ arr.allocated.toNat < arr.count.toNat + len + extra ∧ mem = false

theorem tooBig_iff {count len : Nat} : tooBig count len = true ↔ len + count ≥ dynamicArrayMaxCount := by
  simp only [tooBig, Bool.or_eq_true, decide_eq_true_eq]
  omega

/-- `append` fails where there is no room, and then nothing has changed. -/
theorem append_spec {extra : UInt16} {len : Nat} {fill : DynArray α → Option (DynArray α)} (hpos : 0 < stride.toNat)
    (hend : dynamicArrayMaxCount + extra.toNat + stride.toNat ≤ 65536)
    (h : append fresh stride extra len fill mem b arr = some out) :
    Short mem arr len extra.toNat ∧ (∃ e, out.res = .error e) ∧ Unchanged out arr b ∨
      ¬Short mem arr len extra.toNat ∧ out.res = .ok () := by
  rw [append] at h
  by_cases hbig : tooBig arr.count.toNat len = true
  · rw [if_pos hbig] at h
    obtain rfl := Option.some.inj h
    exact .inl ⟨.inl (tooBig_iff.1 hbig), ⟨_, rfl⟩, rfl, rfl, rfl⟩
  · rw [if_neg hbig, Option.bind_eq_bind, Option.bind_eq_some_iff] at h
    rw [tooBig_iff, dynamicArrayMaxCount] at hbig
    rw [dynamicArrayMaxCount] at hend
    obtain ⟨mid, hmid, h⟩ := h
    have htarget : (arr.count + UInt16.ofNat len + extra).toNat = arr.count.toNat + len + extra.toNat := by
      rw [UInt16.toNat_add, UInt16.toNat_add, UInt16.toNat_ofNat']
      omega
    rw [Short, dynamicArrayMaxCount, ← htarget]
    rcases enlarge_spec hpos (by omega) hmid with ⟨hroom, hmem, rfl⟩ | ⟨hroom, hok, -⟩
    · obtain rfl := Option.some.inj h
      exact .inl ⟨.inr ⟨hroom, hmem⟩, ⟨_, rfl⟩, rfl, rfl, rfl⟩
    · refine .inr ⟨?_, ?_⟩
      · rintro (hx | ⟨hlt, hmem⟩)
        · exact hbig hx
        · rcases hroom with hroom | hroom
          · omega
          · rw [hmem] at hroom
            cases hroom
      · rw [hok] at h
        obtain ⟨arr', -, rfl⟩ := Option.map_eq_some_iff.1 h
        rfl

theorem addElems_spec {elems : List α} (h : addElems fresh elems mem b arr = some out) :
    Short mem arr elems.length 0 ∧ (∃ e, out.res = .error e) ∧ Unchanged out arr b ∨
      ¬Short mem arr elems.length 0 ∧ out.res = .ok () :=
  append_spec (by decide) (by decide) h

theorem strcat_spec {str : List α} (h : strcat fresh nul str mem b arr = some out) :
    Short mem arr str.length 1 ∧ (∃ e, out.res = .error e) ∧ Unchanged out arr b ∨
      ¬Short mem arr str.length 1 ∧ out.res = .ok () :=
  append_spec (by decide) (by decide) h

theorem copy_fails {src : DynArray α} {e : DynErr} (h : copy fresh nul src mem b arr = some out)
    (he : out.res = .error e) : Unchanged out arr b := by
  rw [copy] at h
  split at h
  · cases mem with
    | false =>
      obtain rfl := Option.some.inj h
      exact ⟨rfl, rfl, rfl⟩
    | true =>
      simp only [if_true, Option.bind_eq_bind, Option.bind_eq_some_iff, Option.map_eq_some_iff] at h
      obtain ⟨_, -, _, -, _, -, _, -, rfl⟩ := h
      cases he
  · obtain ⟨_, -, rfl⟩ := Option.map_eq_some_iff.1 h
    cases he

theorem strcpy_tooLong {str : List α} (h : dynamicArrayMaxCount ≤ str.length) :
    strcpy fresh nul str mem b arr = some ⟨.error .e2big, { arr with count := 0 }, [], b⟩ :=
  if_pos (tooBig_iff.2 (Nat.le_add_right_of_le h))

theorem unchanged_of_spec {short : Prop}
    (h : short ∧ (∃ e, out.res = .error e) ∧ Unchanged out arr b ∨ ¬short ∧ out.res = .ok ())
    (he : ∃ e, out.res = .error e) : Unchanged out arr b := by
  rcases h with ⟨-, -, h⟩ | ⟨-, hok⟩
  · exact h
  · obtain ⟨e, he⟩ := he
    rw [hok] at he
    cases he

theorem unchanged_reset_iff {short : Prop}
    (h : short ∧ (∃ e, out.res = .error e) ∧ Unchanged out { arr with count := 0 } b ∨ ¬short ∧ out.res = .ok ()) :
    ((∃ e, out.res = .error e) → Unchanged out arr b) ↔ ¬(arr.count ≠ 0 ∧ short) := by
  rcases h with ⟨hshort, herr, hout⟩ | ⟨hshort, hok⟩
  · constructor
    · rintro hunch ⟨hne, -⟩
      have hcount := congrArg DynArray.count ((hunch herr).arr.symm.trans hout.arr)
      exact hne hcount
    · intro hnot _
      have hzero : arr.count = 0 := Decidable.not_not.1 fun hne => hnot ⟨hne, hshort⟩
      exact ⟨by rw [hout.arr, ← hzero], hout.freed, hout.next⟩
  · refine iff_of_true (fun ⟨e, he⟩ => ?_) fun hx => hshort hx.2
    rw [hok] at he
    cases he

/-- The call sets the count to zero before it appends, and appending fails then. -/
def Call.Loses (c : Call α) (mem : Bool) (arr : DynArray α) : Prop :=
  match c with
  | .copyData data => arr.count ≠ 0 ∧ Short mem { arr with count := 0 } data.length 0
  | .strcpy str => arr.count ≠ 0 ∧ Short mem { arr with count := 0 } str.length 1
  | .addElems _ | .addData _ | .strcat _ | .copy _ => False

/-- A call that fails has changed nothing, but for `aosl_dynamic_bytes_copy_data` and `aosl_dynamic_string_strcpy` of an
array that is not empty. -/
theorem failed_unchanged_iff (c : Call α) (h : call fresh nul c mem b arr = some out) :
    ((∃ e, out.res = .error e) → Unchanged out arr b) ↔ ¬c.Loses mem arr := by
  cases c with
  | addElems elems => exact iff_of_true (unchanged_of_spec (addElems_spec h)) id
  | addData data => exact iff_of_true (unchanged_of_spec (addElems_spec h)) id
  | strcat str => exact iff_of_true (unchanged_of_spec (strcat_spec h)) id
  | copyData data => exact unchanged_reset_iff (addElems_spec h)
  | strcpy str => exact unchanged_reset_iff (strcat_spec h)
  | copy src => exact iff_of_true (fun ⟨_, he⟩ => copy_fails h he) id

/-- `"abc"` and room for twelve more. -/
def abc : DynArray (Option UInt8) :=
  ⟨3, 16, .block 0 ([some 97, some 98, some 99, some 0] ++ List.replicate 12 none)⟩

/-- A string that is too long to replace `abc` by. -/
def long : List (Option UInt8) := List.replicate dynamicArrayMaxCount (some 65)

def abcFails : DynOut (Option UInt8) := ⟨.error .e2big, { abc with count := 0 }, [], 1⟩

theorem strcpy_abc : call none (some 0) (.strcpy long) true 1 abc = some abcFails :=
  strcpy_tooLong (Nat.le_of_eq List.length_replicate.symm)

theorem failed_unchanged_iff_abc :
    ((∃ e, abcFails.res = .error e) → Unchanged abcFails abc 1) ↔ ¬(Call.strcpy long).Loses true abc :=
  failed_unchanged_iff (.strcpy long) strcpy_abc

theorem strcpy_loses : ¬∀ (c : Call (Option UInt8)) (b : Nat) (arr : DynArray (Option UInt8))
    (out : DynOut (Option UInt8)), call none (some 0) c true b arr = some out → (∃ e, out.res = .error e) →
      Unchanged out arr b := by
  intro hall
  have h := hall _ _ _ _ strcpy_abc ⟨_, rfl⟩
  exact absurd (congrArg DynArray.count h.arr) (by decide)

end DynArray
end Aosl
