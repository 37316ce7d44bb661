import Aosl.DynDecode
import Aosl.Lib.Steps

/-!
# Runs of the calls on dynamic arrays, `lib/marshalling.c`

The variables of a program are one object of a type, a `struct` of them say, and a call is given the places of its
arrays in it, also inside of other arrays. `freed` is what the calls have freed, and `mixed` are the blocks that other
calls than those of strings have written to.

Whatever the order of the calls, every array keeps its shape, no block has two holders or is held after it was freed,
and a string has its `'\0'` (`run_sound`); but for a `strcpy` that fails, for elements that hold blocks themselves, and
for what `survey` says of a decoding.
-/

namespace Aosl
open Lib TypeInfo

namespace TypeInfo

def isBytes : TypeInfo → Bool
  | dynamicBytes | dynamicString => true
  | _ => false

def isDyn : TypeInfo → Bool
  | dynamicBytes | dynamicString | dynamicArray _ => true
  | _ => false

/-- Arrays of one kind of elements. -/
def Alike (t t' : TypeInfo) : Prop := t = t' ∨ t.isBytes = true ∧ t'.isBytes = true

def memberType (i : Nat) : TypeInfo → Option TypeInfo
  | pointer t | reference t | fixedArray _ t | varArray _ t | dynamicArray t => some t
  | struct fs => fs[i]?
  | _ => none

/-- The type of the objects at a place. -/
def typeAt : List Nat → TypeInfo → Option TypeInfo
  | [], t => some t
  | i :: p, t => (memberType i t).bind (typeAt p)

theorem typeAt_of_find {p : List Nat} {t u : TypeInfo} {o x : Obj} (h : find p t o = some (u, x)) :
    typeAt p t = some u := by
  induction p generalizing t o with
  | nil =>
    obtain ⟨rfl, -⟩ := Prod.mk.inj (Option.some.inj h)
    rfl
  | cons i p ih =>
    obtain ⟨⟨v, y⟩, hm, h⟩ := Option.bind_eq_some_iff.1 h
    have hmember : memberType i t = some v := by
      unfold member at hm
      split at hm
      · exact congrArg (·.map Prod.fst) hm
      · exact congrArg (·.map Prod.fst) hm
      · obtain ⟨f, hf, hm⟩ := Option.bind_eq_some_iff.1 hm
        obtain ⟨y, -, heq⟩ := Option.map_eq_some_iff.1 hm
        obtain ⟨rfl, -⟩ := Prod.mk.inj heq
        exact hf
      · obtain ⟨y, -, heq⟩ := Option.map_eq_some_iff.1 hm
        exact congrArg some (Prod.mk.inj heq).1
      · obtain ⟨y, -, heq⟩ := Option.map_eq_some_iff.1 hm
        exact congrArg some (Prod.mk.inj heq).1
      · obtain ⟨y, -, heq⟩ := Option.map_eq_some_iff.1 hm
        exact congrArg some (Prod.mk.inj heq).1
      · cases hm
    rw [typeAt, hmember]
    exact ih h

end TypeInfo

/-- An `aosl_dynamic_array_t` after `aosl_dynamic_array_init`. -/
def Obj.initDyn : Obj := .dyn (some 0) (some 0) .null

/-- `if (dst->allocated > 0) aosl_free (dst->values)`. -/
def Obj.release : Obj → Option (List Nat)
  | .dyn _ (some a) vs => if a > 0 then freePtr vs else some []
  | _ => none

/-- The blocks of dynamic bytes. -/
def Holder.plainBlocks : Holder → List Nat
  | bytes false arr => (arr.map (·.values.blocks)).getD []
  | _ => []

structure DynSt where
  obj : Obj
  next : Nat
  freed : List Nat
  mixed : List Nat

inductive DynAct where
  | init (arr : List Nat)
  | addElems (arr : List Nat) (elems : List Obj)
  | addData (arr : List Nat) (data : List UInt8)
  | copyData (arr : List Nat) (data : List UInt8)
  | strcat (arr : List Nat) (str : List UInt8)
  | strcpy (arr : List Nat) (str : List UInt8)
  | copy (dst src : List Nat)
  | take (dst src : List Nat)
  | fini (obj : List Nat)
  | unmarshal (obj : List Nat) (c : Chain)

/-- What a call makes of the object at a place. -/
structure Effect where
  obj : Obj
  freed : List Nat
  next : Nat
  mixed : List Nat

namespace DynSt

def start (t : TypeInfo) (o : Obj) : DynSt := ⟨initTypedObj t o, 0, [], []⟩

/-- A call on the object at `p`. -/
def update (t : TypeInfo) (s : DynSt) (p : List Nat) (f : TypeInfo → Obj → Option Effect) : Option DynSt := do
  let (u, o) ← find p t s.obj
  let x ← f u o
  return ⟨replace x.obj p t s.obj, x.next, s.freed ++ x.freed, x.mixed⟩

/-- One of the calls on bytes, and the blocks that are mixed afterwards. -/
def onBytes (call : DynArray (Option UInt8) → Option (DynOut (Option UInt8)))
    (mixed : DynOut (Option UInt8) → List Nat) (u : TypeInfo) (o : Obj) : Option Effect :=
  if u.isBytes then do
    let arr ← o.toBytes
    let out ← call arr
    return ⟨out.arr.toObj .raw, out.freed, out.next, mixed out⟩
  else none

def bytesAt (t : TypeInfo) (s : DynSt) (p : List Nat) : Option (DynArray (Option UInt8)) :=
  (find p t s.obj).bind fun m => if m.1.isBytes then m.2.toBytes else none

def onArray (mem : Bool) (b : Nat) (mixed : List Nat) (elems : List Obj) : TypeInfo → Obj → Option Effect
  | dynamicArray c, o => do
    let arr ← o.toArray
    let out ← arr.addElems (uninit c) elems mem b
    return ⟨out.arr.toObj .list, out.freed, out.next, mixed⟩
  | _, _ => none

def succeeded (out : DynOut (Option UInt8)) : Bool :=
  match out.res with
  | .ok _ => true
  | .error _ => false

/-- `mem` says which blocks `aosl_malloc` grants. -/
def step (e : Endian) (t : TypeInfo) (s : DynSt) (a : (Nat → Bool) × DynAct) : Option DynSt :=
  let mem := a.1
  match a.2 with
  | .init p => s.update t p fun u _ => if u.isDyn then some ⟨.initDyn, [], s.next, s.mixed⟩ else none
  | .addElems p elems => s.update t p (onArray (mem s.next) s.next s.mixed elems)
  | .addData p data =>
    s.update t p (onBytes (DynArray.addData none (data.map some) (mem s.next) s.next) fun out =>
      s.mixed ++ out.arr.values.blocks)
  | .copyData p data =>
    s.update t p (onBytes (DynArray.copyData none (data.map some) (mem s.next) s.next) fun out =>
      s.mixed ++ out.arr.values.blocks)
  | .strcat p str =>
    s.update t p (onBytes (DynArray.strcat none (some 0) (str.map some) (mem s.next) s.next) fun _ => s.mixed)
  | .strcpy p str =>
    s.update t p (onBytes (DynArray.strcpy none (some 0) (str.map some) (mem s.next) s.next) fun out =>
      if succeeded out then s.mixed.filter (· ∉ out.arr.values.blocks) else s.mixed)
  | .copy dst src => (s.bytesAt t src).bind fun arr =>
    s.update t dst (onBytes (DynArray.copy none (some 0) arr (mem s.next) s.next) fun out =>
      if succeeded out && arr.values.blocks.any (· ∈ s.mixed) then s.mixed ++ out.arr.values.blocks else s.mixed)
  | .take dst src =>
    if dst = src then
      s.update t dst fun u d => if u.isDyn then d.release.map (⟨.initDyn, ·, s.next, s.mixed⟩) else none
    else do
      -- the arrays are apart, so that it does not matter which of them is written to first
      let (_, o) ← find src t s.obj
      { s with obj := replace .initDyn src t s.obj }.update t dst fun u d =>
        if u.isDyn then d.release.map (⟨o, ·, s.next, s.mixed⟩) else none
  | .fini p => s.update t p fun u o => (finiTypedObj u o).map fun (o, fs) => ⟨o, fs, s.next, s.mixed⟩
  | .unmarshal p c => s.update t p fun u o =>
    let r := unmarshal e mem u o c s.next
    some ⟨r.obj, [], r.next, s.mixed ++ (holders u r.obj).flatMap Holder.plainBlocks⟩

/-- What a call must not do to an array. -/
def Fits (e : Endian) (t : TypeInfo) (s : DynSt) (a : (Nat → Bool) × DynAct) : Prop :=
  match a.2 with
  | .addElems p elems => ∀ c o, find p t s.obj = some (dynamicArray c, o) → ∀ x ∈ elems, idle c x = true
  | .strcpy p str => ∀ u o arr, find p t s.obj = some (u, o) → o.toBytes = some arr →
      DynArray.Short (a.1 s.next) { arr with count := 0 } str.length 1 → (∀ b ∈ arr.values.blocks, b ∉ s.mixed) →
        ({ arr with count := 0 } : DynArray (Option UInt8)).Terminated (some 0)
  | .take dst src => ∀ u v, typeAt dst t = some u → typeAt src t = some v → u.Alike v
  | .unmarshal p c => ∀ u o, find p t s.obj = some (u, o) → (survey e a.1 u o c s.next).tidy = true
  | .init _ | .addData _ _ | .copyData _ _ | .strcat _ _ | .copy _ _ | .fini _ => True

/-- Every array is sound, and every block has one holder and has not been freed. -/
structure Inv (t : TypeInfo) (s : DynSt) : Prop where
  sound : ∀ h ∈ holders t s.obj, h.Sound s.mixed
  owned : Owned s.freed (blocks t s.obj) s.next

/-- The call has left its object as it should be, and has not looked at the blocks of the others. -/
structure Keeps (s : DynSt) (u : TypeInfo) (o : Obj) (x : Effect) : Prop where
  passes : Passes x.freed s.next x.next (blocks u o) (blocks u x.obj)
  sound : ∀ h ∈ holders u x.obj, h.Sound x.mixed
  others : ∀ b < s.next, b ∉ blocks u o → b ∉ x.mixed → b ∉ s.mixed

variable {e : Endian} {mem : Nat → Bool} {t u : TypeInfo} {s s' : DynSt} {o : Obj} {p : List Nat} {x : Effect}

theorem Inv.update {f : TypeInfo → Obj → Option Effect} (hi : Inv t s) (h : s.update t p f = some s')
    (hf : ∀ u o x, find p t s.obj = some (u, o) → f u o = some x → (∀ h ∈ holders u o, h.Sound s.mixed) →
      Keeps s u o x) : Inv t s' := by
  obtain ⟨⟨u, o⟩, hfind, h⟩ := Option.bind_eq_some_iff.1 h
  obtain ⟨x, hx, heq⟩ := Option.bind_eq_some_iff.1 h
  obtain rfl := Option.some.inj heq
  obtain ⟨rest, hold, hnew⟩ := holders_replace hfind
  have hnew := hnew x.obj
  have hsound : ∀ h ∈ holders u o ++ rest, h.Sound s.mixed := fun h hh => hi.sound h (hold.mem_iff.2 hh)
  rw [List.forall_mem_append] at hsound
  have hkeeps := hf u o x hfind hx hsound.1
  have hblocks : (blocks t s.obj).Perm (blocks u o ++ rest.flatMap Holder.blocks) := by
    rw [blocks, blocks, ← List.flatMap_append]
    exact hold.flatMap_right _
  have hblocks' : (blocks t (replace x.obj p t s.obj)).Perm (blocks u x.obj ++ rest.flatMap Holder.blocks) := by
    rw [blocks, blocks, ← List.flatMap_append]
    exact hnew.flatMap_right _
  constructor
  · intro h hh
    rcases List.mem_append.1 (hnew.mem_iff.1 hh) with hh | hh
    · exact hkeeps.sound h hh
    · refine (hsound.2 h hh).mono fun b hb => ?_
      have hrest : b ∈ rest.flatMap Holder.blocks := List.mem_flatMap.2 ⟨h, hh, hb⟩
      have hheld : b ∈ blocks t s.obj := hblocks.mem_iff.2 (List.mem_append_right _ hrest)
      -- the block has one holder, and that is not in the object of the call
      have hapart := (List.nodup_append.1 (hblocks.nodup_iff.1 (List.nodup_append.1 hi.owned.nodup).2.1)).2.2
      exact hkeeps.others b (hi.owned.lt b (List.mem_append_right _ hheld)) fun hin => hapart b hin b hrest rfl
  · exact hi.owned.step (hkeeps.passes.frame.perm hblocks.symm hblocks'.symm)

/-! ### The calls on bytes -/

theorem exists_holder (hu : u.isBytes = true) : ∃ text, ∀ o, holders u o = [.bytes text o.toBytes] := by
  cases u with
  | dynamicBytes => exact ⟨false, fun _ => rfl⟩
  | dynamicString => exact ⟨true, fun _ => rfl⟩
  | _ => cases hu

theorem terminated_of_blocks {arr : DynArray (Option UInt8)} (h : arr.Shape) (hb : arr.values.blocks = []) :
    arr.Terminated (some 0) := by
  obtain rfl | ⟨n, a, b, cells, rfl, -, -, -⟩ := h.cases
  · exact fun hpos => absurd hpos (UInt16.lt_irrefl 0)
  · cases hb

/-- What a call makes of an array of bytes. -/
structure Leaves (s : DynSt) (arr : DynArray (Option UInt8)) (out : DynOut (Option UInt8)) (mixed : List Nat) :
    Prop where
  shape : out.arr.Shape
  passes : Passes out.freed s.next out.next arr.values.blocks out.arr.values.blocks
  nul : (∀ b ∈ out.arr.values.blocks, b ∉ mixed) → out.arr.Terminated (some 0)
  others : ∀ b < s.next, b ∉ arr.values.blocks → b ∉ mixed → b ∉ s.mixed

theorem keeps_bytes {call : DynArray (Option UInt8) → Option (DynOut (Option UInt8))}
    {mixed : DynOut (Option UInt8) → List Nat} (hs : ∀ h ∈ holders u o, h.Sound s.mixed)
    (hx : onBytes call mixed u o = some x)
    (hcall : ∀ arr out, o.toBytes = some arr → arr.Shape →
      ((∀ b ∈ arr.values.blocks, b ∉ s.mixed) → arr.Terminated (some 0)) → call arr = some out →
        Leaves s arr out (mixed out)) : Keeps s u o x := by
  unfold onBytes at hx
  split at hx
  · next hu =>
    obtain ⟨text, hh⟩ := exists_holder hu
    obtain ⟨arr, harr, hx⟩ := Option.bind_eq_some_iff.1 hx
    obtain ⟨out, hout, heq⟩ := Option.bind_eq_some_iff.1 hx
    obtain rfl := Option.some.inj heq
    rw [hh, harr, List.forall_mem_singleton] at hs
    obtain ⟨arr', harr', hshape, hnul⟩ := hs
    obtain rfl := Option.some.inj harr'
    have hleaves := hcall arr out harr hshape hnul hout
    have hblocks : ∀ arr : DynArray (Option UInt8), o.toBytes = some arr → blocks u o = arr.values.blocks := by
      intro arr harr
      simp [blocks, hh, harr, Holder.blocks]
    have hblocks' : blocks u (out.arr.toObj .raw) = out.arr.values.blocks := by
      simp [blocks, hh, Holder.blocks]
    refine ⟨?_, ?_, ?_⟩
    · rw [hblocks arr harr, hblocks']
      exact hleaves.passes
    · rw [hh, List.forall_mem_singleton]
      exact ⟨out.arr, DynArray.toBytes_toObj _, hleaves.shape, hleaves.nul⟩
    · rw [hblocks arr harr]
      exact hleaves.others
  · cases hx

section
variable {arr arr' : DynArray (Option UInt8)} {out : DynOut (Option UInt8)} {mixed : List Nat}

theorem Leaves.of_unchanged (hout : DynArray.Unchanged out arr' s.next) (hvalues : arr'.values = arr.values)
    (h : arr'.Shape) (hnul : (∀ b ∈ arr.values.blocks, b ∉ mixed) → arr'.Terminated (some 0))
    (hsub : ∀ b, b ∉ mixed → b ∉ s.mixed) : Leaves s arr out mixed := by
  obtain ⟨res, out, freed, next⟩ := out
  obtain ⟨rfl, rfl, rfl⟩ := hout
  refine ⟨h, ?_, ?_, fun b _ _ => hsub b⟩
  · rw [hvalues]
    exact .refl
  · rw [hvalues]
    exact hnul

theorem Leaves.of_mixed (h : out.arr.Shape)
    (hp : Passes out.freed s.next out.next arr.values.blocks out.arr.values.blocks) :
    Leaves s arr out (s.mixed ++ out.arr.values.blocks) := by
  refine ⟨h, hp, fun hb => terminated_of_blocks h ?_, fun b _ _ hb hm => hb (List.mem_append_left _ hm)⟩
  exact List.eq_nil_iff_forall_not_mem.2 fun b hmem => hb b hmem (List.mem_append_right _ hmem)

theorem addData_leaves {data : List (Option UInt8)} (h : arr.Shape)
    (hout : DynArray.addData none data (mem s.next) s.next arr = some out) :
    Leaves s arr out (s.mixed ++ out.arr.values.blocks) := by
  obtain ⟨out', hrun, hcase⟩ := DynArray.addElems_makes none (mem s.next) s.next h data
  obtain rfl := Option.some.inj (hout.symm.trans hrun)
  rcases hcase with ⟨-, hunch⟩ | hmakes
  · exact .of_mixed (hunch.arr ▸ h) (by rw [hunch.arr, hunch.freed, hunch.next]; exact .refl)
  · exact .of_mixed hmakes.shape hmakes.passes

theorem copyData_leaves {data : List (Option UInt8)} (h : arr.Shape)
    (hout : DynArray.copyData none data (mem s.next) s.next arr = some out) :
    Leaves s arr out (s.mixed ++ out.arr.values.blocks) := by
  obtain ⟨out', hrun, hcase⟩ := DynArray.copyData_makes none (mem s.next) s.next h data
  obtain rfl := Option.some.inj (hout.symm.trans hrun)
  rcases hcase with ⟨-, hunch⟩ | hmakes
  · exact .of_mixed (hunch.arr ▸ h.reset) (by rw [hunch.arr, hunch.freed, hunch.next]; exact .refl)
  · exact .of_mixed hmakes.shape hmakes.passes

theorem strcat_leaves {str : List (Option UInt8)} (h : arr.Shape)
    (hnul : (∀ b ∈ arr.values.blocks, b ∉ s.mixed) → arr.Terminated (some 0))
    (hout : DynArray.strcat none (some 0) str (mem s.next) s.next arr = some out) : Leaves s arr out s.mixed := by
  obtain ⟨out', hrun, hcase⟩ := DynArray.strcat_makes none (some 0) (mem s.next) s.next h str
  obtain rfl := Option.some.inj (hout.symm.trans hrun)
  rcases hcase with ⟨-, hunch⟩ | ⟨hmakes, hterm⟩
  · exact .of_unchanged hunch rfl h hnul fun _ => id
  · exact ⟨hmakes.shape, hmakes.passes, fun _ => hterm, fun _ _ _ => id⟩

theorem strcpy_leaves {str : List (Option UInt8)} (h : arr.Shape)
    (hfits : DynArray.Short (mem s.next) { arr with count := 0 } str.length 1 →
      (∀ b ∈ arr.values.blocks, b ∉ s.mixed) → DynArray.Terminated (some 0) { arr with count := 0 })
    (hout : DynArray.strcpy none (some 0) str (mem s.next) s.next arr = some out) :
    Leaves s arr out (if succeeded out then s.mixed.filter (· ∉ out.arr.values.blocks) else s.mixed) := by
  obtain ⟨out', hrun, hcase⟩ := DynArray.strcpy_makes none (some 0) (mem s.next) s.next h str
  obtain rfl := Option.some.inj (hout.symm.trans hrun)
  rcases hcase with ⟨⟨x, hx⟩, hunch⟩ | ⟨hmakes, hterm⟩
  · have hshort : DynArray.Short (mem s.next) { arr with count := 0 } str.length 1 := by
      rcases DynArray.strcat_spec hrun with ⟨hshort, -, -⟩ | ⟨-, hok⟩
      · exact hshort
      · cases hx.symm.trans hok
    rw [if_neg (by simp [succeeded, hx])]
    exact .of_unchanged hunch rfl h.reset (hfits hshort) fun _ => id
  · rw [if_pos (by simp [succeeded, hmakes.ok])]
    refine ⟨hmakes.shape, hmakes.passes, fun _ => hterm, fun b hlt hb hout hm => ?_⟩
    -- the block of the string is that of before, or it is new
    have hin : b ∈ out.arr.values.blocks := by
      by_contra hnot
      exact hout (List.mem_filter.2 ⟨hm, by simpa using hnot⟩)
    rcases List.mem_append.1 (hmakes.passes.fits.subset (List.mem_append_right _ hin)) with hnew | hold
    · have hge := (List.mem_range'_1.1 hnew).1
      omega
    · exact hb hold

theorem copy_leaves {src : DynArray (Option UInt8)} (hsrc : src.Shape) (h : arr.Shape)
    (hsrcnul : (∀ b ∈ src.values.blocks, b ∉ s.mixed) → src.Terminated (some 0))
    (hnul : (∀ b ∈ arr.values.blocks, b ∉ s.mixed) → arr.Terminated (some 0))
    (hout : DynArray.copy none (some 0) src (mem s.next) s.next arr = some out) :
    Leaves s arr out (if succeeded out && src.values.blocks.any (· ∈ s.mixed) then s.mixed ++ out.arr.values.blocks
      else s.mixed) := by
  obtain ⟨out', hrun, hcase⟩ := DynArray.copy_makes none (some 0) (mem s.next) s.next hsrc h
  obtain rfl := Option.some.inj (hout.symm.trans hrun)
  rcases hcase with ⟨⟨x, hx⟩, hunch⟩ | ⟨hmakes, hterm⟩
  · rw [if_neg (by simp [succeeded, hx])]
    exact .of_unchanged hunch rfl h hnul fun _ => id
  · by_cases hmixed : src.values.blocks.any (· ∈ s.mixed) = true
    · rw [if_pos (by simp [succeeded, hmakes.ok, hmixed])]
      exact .of_mixed hmakes.shape hmakes.passes
    · rw [if_neg (by simp [hmixed])]
      have hpure : ∀ b ∈ src.values.blocks, b ∉ s.mixed := by simpa using hmixed
      exact ⟨hmakes.shape, hmakes.passes, fun _ => hterm (hsrcnul hpure), fun _ _ _ => id⟩

end

/-! ### The other calls -/

theorem idle_initDyn (hu : u.isDyn = true) : ∀ h ∈ holders u .initDyn, h.idle = true := by
  cases u with
  | dynamicBytes => exact idle_bytes false
  | dynamicString => exact idle_bytes true
  | dynamicArray c => exact idle_array c
  | _ => cases hu

theorem blocks_of_idle {hs : List Holder} (h : ∀ x ∈ hs, x.idle = true) : hs.flatMap Holder.blocks = [] :=
  List.flatMap_eq_nil_iff.2 fun x hx => Holder.blocks_of_idle (h x hx)

theorem keeps_idle {fs : List Nat} {o' : Obj} (hidle : ∀ h ∈ holders u o', h.idle = true)
    (hfs : fs.Subperm (blocks u o)) : Keeps s u o ⟨o', fs, s.next, s.mixed⟩ := by
  refine ⟨.of_subperm ?_, fun h hh => Holder.sound_of_idle (hidle h hh), fun _ _ _ => id⟩
  rw [blocks, blocks_of_idle hidle, List.append_nil]
  exact hfs

theorem keeps_fini (hs : ∀ h ∈ holders u o, h.Sound s.mixed)
    (hx : ((finiTypedObj u o).map fun r => (⟨r.1, r.2, s.next, s.mixed⟩ : Effect)) = some x) : Keeps s u o x := by
  obtain ⟨⟨o', fs⟩, hfini, rfl⟩ := Option.map_eq_some_iff.1 hx
  have hall := fini_finished u o o' fs hfini hs
  exact keeps_idle hall.idle hall.freed.subperm

theorem keeps_unmarshal {c : Chain} (htidy : (survey e mem u o c s.next).tidy = true) :
    Keeps s u o ⟨(unmarshal e mem u o c s.next).obj, [], (unmarshal e mem u o c s.next).next,
      s.mixed ++ (holders u (unmarshal e mem u o c s.next).obj).flatMap Holder.plainBlocks⟩ := by
  have hfill := (unmarshal_surveyed e mem u o c s.next).2 htidy
  refine ⟨⟨hfill.le, ?_⟩, fun h hh => ?_, fun b _ _ hb hm => hb (List.mem_append_left _ hm)⟩
  · exact hfill.blocks.subperm.trans (List.sublist_append_left _ _).subperm
  · have hmade := hfill.made h hh
    cases h with
    | ptr b => trivial
    | array arr => exact hmade
    | bytes text arr =>
      obtain ⟨a, rfl, hshape, hterm⟩ := hmade
      refine ⟨a, rfl, hshape, fun hout => ?_⟩
      cases text with
      | true => exact hterm rfl
      | false =>
        -- dynamic bytes are mixed, if they have a block
        refine terminated_of_blocks hshape (List.eq_nil_iff_forall_not_mem.2 fun b hb => ?_)
        exact hout b hb (List.mem_append_right _ (List.mem_flatMap.2 ⟨_, hh, hb⟩))

theorem holders_array {c : TypeInfo} (arr : DynArray Obj) : holders (dynamicArray c) (arr.toObj .list) =
    .array (some arr.head) :: arr.elems.flatMap (holders c) := by
  rw [holders, DynArray.toArray_toObj, DynArray.elems_toObj]
  rfl

theorem keeps_addElems {elems : List Obj} (hs : ∀ h ∈ holders u o, h.Sound s.mixed)
    (helems : ∀ c, u = dynamicArray c → ∀ y ∈ elems, idle c y = true)
    (hx : onArray (mem s.next) s.next s.mixed elems u o = some x) : Keeps s u o x := by
  cases u with
  | dynamicArray c =>
    obtain ⟨arr, harr, hx⟩ := Option.bind_eq_some_iff.1 hx
    obtain ⟨out, hout, heq⟩ := Option.bind_eq_some_iff.1 hx
    obtain rfl := Option.some.inj heq
    obtain rfl := DynArray.eq_of_toArray harr
    rw [holders_array, List.forall_mem_cons] at hs
    obtain ⟨⟨a, ha, hshape⟩, hs⟩ := hs
    obtain rfl := Option.some.inj ha
    obtain ⟨out', hrun, hcase⟩ := DynArray.addElems_makes (uninit c) (mem s.next) s.next hshape.of_head elems
    obtain rfl := Option.some.inj (hout.symm.trans hrun)
    -- the new elements have no blocks and only empty arrays
    have hidle : ∀ h ∈ elems.flatMap (holders c), h.idle = true := by
      intro h hh
      obtain ⟨y, hy, hh⟩ := List.mem_flatMap.1 hh
      exact List.all_eq_true.1 (helems c rfl y hy) h hh
    rcases hcase with ⟨-, hunch⟩ | hmakes
    · obtain ⟨res, arr', freed, next⟩ := out
      obtain ⟨rfl, rfl, rfl⟩ := hunch
      refine ⟨.refl, ?_, fun _ _ _ => id⟩
      rw [holders_array, List.forall_mem_cons]
      exact ⟨⟨_, rfl, hshape⟩, hs⟩
    · refine ⟨?_, ?_, fun _ _ _ => id⟩
      · rw [blocks, blocks, holders_array, holders_array, List.flatMap_cons, List.flatMap_cons, hmakes.elems,
          List.flatMap_append, List.flatMap_append, blocks_of_idle hidle, List.append_nil]
        simpa [Holder.blocks] using hmakes.passes.frame
      · rw [holders_array, List.forall_mem_cons, hmakes.elems, List.flatMap_append, List.forall_mem_append]
        exact ⟨⟨_, rfl, hmakes.shape.head⟩, hs, fun h hh => Holder.sound_of_idle (hidle h hh)⟩
  | _ => cases hx

/-- Of a sound array its block is freed, and not what its elements hold. -/
theorem release_subperm {fs : List Nat} (hu : u.isDyn = true) (hs : ∀ h ∈ holders u o, h.Sound s.mixed)
    (hfs : o.release = some fs) : fs.Subperm (blocks u o) := by
  have hobj : ∀ {α : Type} (f : List α → Obj) (arr : DynArray α), arr.Shape →
      (arr.toObj f).release = some arr.values.blocks := by
    intro α f arr hshape
    refine Eq.trans ?_ hshape.release
    rcases arr with ⟨n, a, _ | _ | ⟨b, cells⟩⟩ <;> rfl
  by_cases hbytes : u.isBytes = true
  · obtain ⟨text, hh⟩ := exists_holder hbytes
    rw [hh, List.forall_mem_singleton] at hs
    obtain ⟨arr, harr, hshape, -⟩ := hs
    obtain rfl := DynArray.eq_of_toBytes harr
    obtain rfl := Option.some.inj ((hobj _ _ hshape).symm.trans hfs)
    simp [blocks, hh, Holder.blocks, List.Subperm.refl]
  · cases u with
    | dynamicArray c =>
      obtain ⟨a, ha, hshape⟩ := hs _ List.mem_cons_self
      obtain ⟨arr, harr, rfl⟩ := Option.map_eq_some_iff.1 ha
      obtain rfl := DynArray.eq_of_toArray harr
      obtain rfl := Option.some.inj ((hobj _ _ hshape.of_head).symm.trans hfs)
      rw [blocks, holders_array, List.flatMap_cons]
      refine List.Sublist.subperm ?_
      simp [Holder.blocks]
    | dynamicBytes => exact absurd rfl hbytes
    | dynamicString => exact absurd rfl hbytes
    | _ => cases hu

theorem sound_alike {v : TypeInfo} (h : u.Alike v) {mixed : List Nat} (hs : ∀ h ∈ holders v o, h.Sound mixed) :
    (∀ h ∈ holders u o, h.Sound mixed) ∧ blocks u o = blocks v o := by
  rcases h with rfl | ⟨hu, hv⟩
  · exact ⟨hs, rfl⟩
  · obtain ⟨text, hh⟩ := exists_holder hu
    obtain ⟨text', hh'⟩ := exists_holder hv
    rw [blocks, blocks, hh, hh']
    rw [hh', List.forall_mem_singleton] at hs
    exact ⟨fun h hh => List.mem_singleton.1 hh ▸ hs, rfl⟩

/-- The array at `src` is emptied, then what it held goes to `dst`. -/
theorem take_inv {dst src : List Nat} {v : TypeInfo} {o' : Obj} (hi : Inv t s) (hfind : find src t s.obj = some (v, o'))
    (hv : ∀ u, typeAt dst t = some u → u.Alike v)
    (h : ({ s with obj := replace .initDyn src t s.obj } : DynSt).update t dst (fun u d =>
      if u.isDyn then d.release.map (⟨o', ·, s.next, s.mixed⟩) else none) = some s') : Inv t s' := by
  obtain ⟨⟨u, d⟩, hfind', h⟩ := Option.bind_eq_some_iff.1 h
  obtain ⟨x, hx, heq⟩ := Option.bind_eq_some_iff.1 h
  obtain rfl := Option.some.inj heq
  have hu : u.isDyn = true := by
    by_contra hu
    simp [hu] at hx
  simp only [if_pos hu] at hx
  obtain ⟨fs, hfs, rfl⟩ := Option.map_eq_some_iff.1 hx
  have halike := hv u (typeAt_of_find hfind')
  have hvdyn : v.isDyn = true := by
    rcases halike with rfl | ⟨-, hbytes⟩
    · exact hu
    · cases v <;> first | rfl | cases hbytes
  obtain ⟨rest, hold, hnew⟩ := holders_replace hfind
  obtain ⟨rest', hold', hnew'⟩ := holders_replace hfind'
  have hinit := idle_initDyn hvdyn
  have hsound : ∀ h ∈ holders v o' ++ rest, h.Sound s.mixed := fun h hh => hi.sound h (hold.mem_iff.2 hh)
  rw [List.forall_mem_append] at hsound
  -- the holders in between, when nothing holds what `src` had held
  have hmid : (holders v .initDyn ++ rest).Perm (holders u d ++ rest') := (hnew .initDyn).symm.trans hold'
  have hsound' : ∀ h ∈ holders u d ++ rest', h.Sound s.mixed := by
    intro h hh
    rcases List.mem_append.1 (hmid.mem_iff.2 hh) with hh | hh
    · exact Holder.sound_of_idle (hinit h hh)
    · exact hsound.2 h hh
  rw [List.forall_mem_append] at hsound'
  obtain ⟨hsrc, hblocks⟩ := sound_alike halike hsound.1
  have hfreed := release_subperm hu hsound'.1 hfs
  have hb : (blocks t s.obj).Perm (blocks v o' ++ rest.flatMap Holder.blocks) := by
    rw [blocks, blocks, ← List.flatMap_append]
    exact hold.flatMap_right _
  have hbmid : (rest.flatMap Holder.blocks).Perm (blocks u d ++ rest'.flatMap Holder.blocks) := by
    have hperm := hmid.flatMap_right Holder.blocks
    rwa [List.flatMap_append, List.flatMap_append, blocks_of_idle hinit, List.nil_append] at hperm
  have hb' : (blocks t (replace o' dst t (replace .initDyn src t s.obj))).Perm
      (blocks v o' ++ rest'.flatMap Holder.blocks) := by
    rw [← hblocks, blocks, blocks, ← List.flatMap_append]
    exact (hnew' o').flatMap_right _
  constructor
  · intro h hh
    rcases List.mem_append.1 ((hnew' o').mem_iff.1 hh) with hh | hh
    · exact hsrc h hh
    · exact hsound'.2 h hh
  · refine hi.owned.step (.perm (.of_subperm ?_) hb.symm hb'.symm)
    rw [← List.append_assoc]
    refine (List.perm_append_comm.append_right _).subperm.trans ?_
    rw [List.append_assoc]
    refine (List.Subperm.refl _).append (.trans ?_ hbmid.symm.subperm)
    exact hfreed.append (.refl _)

/-- Every call keeps the invariant. -/
theorem step_inv {a : (Nat → Bool) × DynAct} (hi : Inv t s) (hfits : Fits e t s a) (h : step e t s a = some s') :
    Inv t s' := by
  obtain ⟨mem, a⟩ := a
  cases a with
  | init p =>
    simp only [step] at h
    refine hi.update h fun u o x hfind hx hs => ?_
    split at hx
    · next hu =>
      obtain rfl := Option.some.inj hx
      exact keeps_idle (idle_initDyn hu) List.nil_subperm
    · cases hx
  | addElems p elems =>
    exact hi.update h fun u o x hfind hx hs => keeps_addElems hs (fun c hc => hfits c o (hc ▸ hfind)) hx
  | addData p data =>
    exact hi.update h fun u o x hfind hx hs => keeps_bytes hs hx fun arr out _ hshape _ => addData_leaves hshape
  | copyData p data =>
    exact hi.update h fun u o x hfind hx hs => keeps_bytes hs hx fun arr out _ hshape _ => copyData_leaves hshape
  | strcat p str =>
    exact hi.update h fun u o x hfind hx hs => keeps_bytes hs hx fun arr out _ hshape hnul => strcat_leaves hshape hnul
  | strcpy p str =>
    refine hi.update h fun u o x hfind hx hs => keeps_bytes hs hx fun arr out harr hshape _ => strcpy_leaves hshape ?_
    rw [List.length_map]
    exact hfits u o arr hfind harr
  | copy dst src =>
    obtain ⟨src', hsrc, h⟩ := Option.bind_eq_some_iff.1 h
    obtain ⟨⟨v, o'⟩, hfind', hsrc⟩ := Option.bind_eq_some_iff.1 hsrc
    have hv : v.isBytes = true := by
      by_contra hv
      simp [hv] at hsrc
    rw [if_pos hv] at hsrc
    obtain ⟨text, hh⟩ := exists_holder hv
    obtain ⟨rest, hold, -⟩ := holders_replace hfind'
    have hin : Holder.bytes text o'.toBytes ∈ holders t s.obj :=
      hold.mem_iff.2 (List.mem_append_left _ (hh o' ▸ List.mem_cons_self))
    obtain ⟨a, ha, hshape', hnul'⟩ := hi.sound _ hin
    obtain rfl := Option.some.inj (hsrc.symm.trans ha)
    exact hi.update h fun u o x hfind hx hs =>
      keeps_bytes hs hx fun arr out _ hshape hnul => copy_leaves hshape' hshape hnul' hnul
  | take dst src =>
    simp only [step] at h
    split at h
    · refine hi.update h fun u o x hfind hx hs => ?_
      split at hx
      · next hu =>
        obtain ⟨fs, hfs, rfl⟩ := Option.map_eq_some_iff.1 hx
        exact keeps_idle (idle_initDyn hu) (release_subperm hu hs hfs)
      · cases hx
    · obtain ⟨⟨v, o'⟩, hfind, h⟩ := Option.bind_eq_some_iff.1 h
      exact take_inv hi hfind (fun u hu => hfits u v hu (typeAt_of_find hfind)) h
  | fini p =>
    simp only [step] at h
    exact hi.update h fun u o x hfind hx hs => keeps_fini hs hx
  | unmarshal p c =>
    simp only [step] at h
    refine hi.update h fun u o x hfind hx hs => ?_
    obtain rfl := Option.some.inj hx
    exact keeps_unmarshal (hfits u o hfind)

theorem start_inv (t : TypeInfo) (o : Obj) : Inv t (start t o) := by
  have hidle := idle_init t o
  refine ⟨fun h hh => Holder.sound_of_idle (hidle h hh), ?_⟩
  rw [start, blocks, blocks_of_idle hidle]
  exact .nil

/-- In every run of the calls on initialised arrays every array has its shape and every string its `'\0'`, every block has
one holder and is freed at most once and not while it is held, and only blocks of `aosl_malloc` are held or freed. -/
theorem run_sound {acts : List ((Nat → Bool) × DynAct)} (hok : Along (step e t) (Fits e t) (start t o) acts)
    (hrun : exec (step e t) (start t o) acts = some s) :
    (∀ h ∈ holders t s.obj, h.Sound s.mixed) ∧ (blocks t s.obj).Nodup ∧ s.freed.Nodup ∧
      (∀ b ∈ blocks t s.obj, b ∉ s.freed) ∧ ∀ b ∈ s.freed ++ blocks t s.obj, b < s.next := by
  have hi : Inv t s := exec_invariant (fun s a s' hi hfits h => step_inv hi hfits h) (start_inv t o) hok hrun
  obtain ⟨hfreed, hheld, -⟩ := List.nodup_append.1 hi.owned.nodup
  exact ⟨hi.sound, hheld, hfreed, fun b hb => hi.owned.not_freed hb, hi.owned.lt⟩

/-- `"ab"` and a copy of it, of which the first was cleaned up. -/
def copied : DynSt :=
  ⟨.list [.initDyn, .dyn (some 2) (some 16) (.ptr 1 (.raw ([some 97, some 98, some 0] ++ List.replicate 13 none)))], 2,
    [0], []⟩

theorem run_sound_copied : (∀ h ∈ holders (struct [dynamicString, dynamicString]) copied.obj, h.Sound copied.mixed) ∧
    (blocks (struct [dynamicString, dynamicString]) copied.obj).Nodup ∧ copied.freed.Nodup ∧
      (∀ b ∈ blocks (struct [dynamicString, dynamicString]) copied.obj, b ∉ copied.freed) ∧
        ∀ b ∈ copied.freed ++ blocks (struct [dynamicString, dynamicString]) copied.obj, b < copied.next :=
  @run_sound .little _ _ (uninit (struct [dynamicString, dynamicString]))
    [(fun _ => true, .strcat [0] [97, 98]), (fun _ => true, .copy [1] [0]), (fun _ => true, .fini [0])]
    (along_of_mem (by simp [Fits])) rfl

end DynSt
end Aosl
