import Aosl.DynShape
import Aosl.MarshalFini

/-!
# Who holds the blocks of an object

`TypeInfo.holders` lists what holds or may hold a block in an object: its pointers, its strings and its dynamic arrays,
with those in the elements and pointees that are in use. An array is listed without its elements, so that a change
inside one element changes only the holders of that element (`holders_replace`).

`aosl_fini_typed_obj` frees the block of every holder of an object whose arrays are sound, and leaves idle ones
(`fini_holders`).
-/

namespace Aosl
open Lib

/-! ## Dynamic arrays as objects -/

namespace DynPtr
variable {α β : Type}

def map (f : α → β) : DynPtr α → DynPtr β
  | .undef => .undef
  | .null => .null
  | .block b cells => .block b (cells.map f)

def toObj (f : List α → Obj) : DynPtr α → Obj
  | .undef => .undef
  | .null => .null
  | .block b cells => .ptr b (f cells)

end DynPtr

namespace Obj
variable {α : Type}

/-- The field `values`, where `read` finds the elements of a block. -/
def toPtr (read : Obj → Option (List α)) : Obj → Option (DynPtr α)
  | .undef => some .undef
  | .null => some .null
  | .ptr b o => (read o).map (.block b)
  | _ => none

def toDyn (read : Obj → Option (List α)) : Obj → Option (DynArray α)
  | .dyn (some n) (some a) vs => (vs.toPtr read).map (⟨n, a, ·⟩)
  | _ => none

def cells? : Obj → Option Cells
  | .raw cells => some cells
  | _ => none

def objs? : Obj → Option (List Obj)
  | .list os => some os
  | _ => none

/-- `aosl_dynamic_bytes_t` and `aosl_dynamic_string_t`. -/
def toBytes (o : Obj) : Option (DynArray (Option UInt8)) := o.toDyn cells?

def toArray (o : Obj) : Option (DynArray Obj) := o.toDyn objs?

/-- The elements of an array of objects. -/
def elems (o : Obj) : List Obj := (o.toArray.map DynArray.elems).getD []

end Obj

namespace DynArray
variable {α : Type}

def toObj (f : List α → Obj) (arr : DynArray α) : Obj := .dyn (some arr.count) (some arr.allocated) (arr.values.toObj f)

/-- The array without its elements. -/
def head (arr : DynArray α) : DynArray Unit := ⟨arr.count, arr.allocated, arr.values.map fun _ => ()⟩

theorem toDyn_toObj {f : List α → Obj} {read : Obj → Option (List α)} (h : ∀ xs, read (f xs) = some xs)
    (arr : DynArray α) : (arr.toObj f).toDyn read = some arr := by
  rcases arr with ⟨n, a, _ | _ | ⟨b, cells⟩⟩
  · rfl
  · rfl
  · simp [toObj, DynPtr.toObj, Obj.toDyn, Obj.toPtr, h]

@[simp] theorem toBytes_toObj (arr : DynArray (Option UInt8)) : (arr.toObj .raw).toBytes = some arr :=
  toDyn_toObj (fun _ => rfl) arr

@[simp] theorem toArray_toObj (arr : DynArray Obj) : (arr.toObj .list).toArray = some arr :=
  toDyn_toObj (fun _ => rfl) arr

theorem eq_toObj_of_toDyn {f : List α → Obj} {read : Obj → Option (List α)} {o : Obj} {arr : DynArray α}
    (hread : ∀ o xs, read o = some xs → o = f xs) (h : o.toDyn read = some arr) : o = arr.toObj f := by
  unfold Obj.toDyn at h
  split at h
  · next n a vs =>
    obtain ⟨ptr, hptr, rfl⟩ := Option.map_eq_some_iff.1 h
    unfold Obj.toPtr at hptr
    split at hptr
    · obtain rfl := Option.some.inj hptr
      rfl
    · obtain rfl := Option.some.inj hptr
      rfl
    · obtain ⟨xs, hxs, rfl⟩ := Option.map_eq_some_iff.1 hptr
      rw [hread _ _ hxs]
      rfl
    · cases hptr
  · cases h

theorem eq_of_toBytes {o : Obj} {arr : DynArray (Option UInt8)} (h : o.toBytes = some arr) : o = arr.toObj .raw := by
  refine eq_toObj_of_toDyn (fun o xs hxs => ?_) h
  cases o <;> cases hxs
  rfl

theorem eq_of_toArray {o : Obj} {arr : DynArray Obj} (h : o.toArray = some arr) : o = arr.toObj .list := by
  refine eq_toObj_of_toDyn (fun o xs hxs => ?_) h
  cases o <;> cases hxs
  rfl

@[simp] theorem elems_toObj (arr : DynArray Obj) : (arr.toObj .list).elems = arr.elems := by
  simp [Obj.elems]

@[simp] theorem blocks_head (arr : DynArray α) : arr.head.values.blocks = arr.values.blocks := by
  rcases arr with ⟨n, a, _ | _ | ⟨b, cells⟩⟩ <;> rfl

theorem Shape.head {arr : DynArray α} (h : arr.Shape) : arr.head.Shape := by
  obtain rfl | ⟨n, a, b, cells, rfl, hle, ha, hlen⟩ := h.cases
  · exact Shape.init
  · exact Shape.mk_block hle ha (by rw [List.length_map, hlen])

theorem Shape.of_head {arr : DynArray α} (h : arr.head.Shape) : arr.Shape := by
  obtain ⟨n, a, values⟩ := arr
  obtain heq | ⟨n', a', b, cells, heq, hle, ha, hlen⟩ := h.cases
  · cases values <;> cases heq
    exact Shape.init
  · cases values <;> cases heq
    exact Shape.mk_block hle ha (List.length_map _ ▸ hlen)

end DynArray

/-! ## The holders of an object -/

inductive Holder where
  /-- A pointer or a string. -/
  | ptr (b : Nat)
  /-- Dynamic bytes, or a dynamic string. There is no array where a field was never written. -/
  | bytes (text : Bool) (arr : Option (DynArray (Option UInt8)))
  | array (arr : Option (DynArray Unit))

namespace Holder

def blocks : Holder → List Nat
  | ptr b => [b]
  | bytes _ arr => (arr.map (·.values.blocks)).getD []
  | array arr => (arr.map (·.values.blocks)).getD []

/-- An array as `aosl_dynamic_array_init` leaves it. -/
def idle : Holder → Bool
  | ptr _ => false
  | bytes _ arr => arr = some .init
  | array arr => arr = some .init

/-- The array is as it should be. Behind the bytes of an array in a `mixed` block there need not be a `'\0'`. -/
def Sound (mixed : List Nat) : Holder → Prop
  | ptr _ => True
  | bytes _ arr =>
    ∃ a, arr = some a ∧ a.Shape ∧ ((∀ b ∈ a.values.blocks, b ∉ mixed) → a.Terminated (some 0))
  | array arr => ∃ a, arr = some a ∧ a.Shape

variable {h : Holder} {mixed mixed' : List Nat}

theorem Sound.mono (hs : h.Sound mixed) (hsub : ∀ b ∈ h.blocks, b ∉ mixed' → b ∉ mixed) : h.Sound mixed' := by
  cases h with
  | ptr b => trivial
  | array arr => exact hs
  | bytes text arr =>
    obtain ⟨a, rfl, hshape, hnul⟩ := hs
    exact ⟨a, rfl, hshape, fun hout => hnul fun b hb => hsub b hb (hout b hb)⟩

theorem blocks_of_idle (hi : h.idle = true) : h.blocks = [] := by
  cases h with
  | ptr b => cases hi
  | bytes text arr =>
    obtain rfl := of_decide_eq_true hi
    rfl
  | array arr =>
    obtain rfl := of_decide_eq_true hi
    rfl

theorem sound_of_idle (hi : h.idle = true) : h.Sound mixed := by
  cases h with
  | ptr b => trivial
  | bytes text arr =>
    obtain rfl := of_decide_eq_true hi
    exact ⟨_, rfl, .init, fun _ hpos => absurd hpos (UInt16.lt_irrefl 0)⟩
  | array arr =>
    obtain rfl := of_decide_eq_true hi
    exact ⟨_, rfl, .init⟩

end Holder

namespace TypeInfo

mutual

def holders : TypeInfo → Obj → List Holder
  | pointer t, .ptr b o => .ptr b :: holders t o
  | reference t, o => holders t o
  | string, .ptr b _ => [.ptr b]
  | struct fs, .list os => holdersFields fs os
  | dynamicBytes, o => [.bytes false o.toBytes]
  | dynamicString, o => [.bytes true o.toBytes]
  | fixedArray n t, .list os => (os.take n.toNat).flatMap (holders t)
  | varArray _ t, .var (some n) (.list os) => (os.take n.toNat).flatMap (holders t)
  | dynamicArray t, o => .array (o.toArray.map DynArray.head) :: o.elems.flatMap (holders t)
  | _, _ => []

def holdersFields : List TypeInfo → List Obj → List Holder
  | f :: fs, o :: os => holders f o ++ holdersFields fs os
  | _, _ => []

end

/-- The object holds no block, and its arrays are empty. -/
def idle (t : TypeInfo) (o : Obj) : Bool := (holders t o).all Holder.idle

def blocks (t : TypeInfo) (o : Obj) : List Nat := (holders t o).flatMap Holder.blocks

/-- The `i`-th member of an object, if it is in use. -/
def member (i : Nat) : TypeInfo → Obj → Option (TypeInfo × Obj)
  | pointer t, .ptr _ o => some (t, o)
  | reference t, o => some (t, o)
  | struct fs, .list os => fs[i]?.bind fun f => os[i]?.map (f, ·)
  | fixedArray n t, .list os => (os.take n.toNat)[i]?.map (t, ·)
  | varArray _ t, .var (some n) (.list os) => (os.take n.toNat)[i]?.map (t, ·)
  | dynamicArray t, .dyn (some n) (some _) (.ptr _ (.list os)) => (os.take n.toNat)[i]?.map (t, ·)
  | _, _ => none

def setMember (i : Nat) (x : Obj) : TypeInfo → Obj → Obj
  | reference _, _ => x
  | _, .ptr b _ => .ptr b x
  | _, .list os => .list (os.set i x)
  | _, .var n (.list os) => .var n (.list (os.set i x))
  | _, .dyn n a (.ptr b (.list os)) => .dyn n a (.ptr b (.list (os.set i x)))
  | _, o => o

/-- The object at a place: the path goes through members. -/
def find : List Nat → TypeInfo → Obj → Option (TypeInfo × Obj)
  | [], t, o => some (t, o)
  | i :: p, t, o => (member i t o).bind fun m => find p m.1 m.2

def replace (x : Obj) : List Nat → TypeInfo → Obj → Obj
  | [], _, _ => x
  | i :: p, t, o =>
    match member i t o with
    | some m => setMember i (replace x p m.1 m.2) t o
    | none => o

section
variable {t t' : TypeInfo} {o o' : Obj} {i n : Nat} {os : List Obj}

theorem take_set (h : (os.take n)[i]? = some o) :
    ∃ us vs, os.take n = us ++ o :: vs ∧ ∀ x, (os.set i x).take n = us ++ x :: vs := by
  obtain ⟨hlt, hget⟩ := List.getElem?_eq_some_iff.1 h
  refine ⟨(os.take n).take i, (os.take n).drop (i + 1), ?_, fun x => ?_⟩
  · rw [← hget, List.getElem_cons_drop, List.take_append_drop]
  · rw [List.take_set, List.set_eq_take_append_cons_drop, if_pos hlt]

theorem elems_set (h : (os.take n)[i]? = some o) : ∃ rest,
    ((os.take n).flatMap (holders t)).Perm (holders t o ++ rest) ∧
      ∀ x, (((os.set i x).take n).flatMap (holders t)).Perm (holders t x ++ rest) := by
  obtain ⟨us, vs, htake, hset⟩ := take_set h
  have hperm : ∀ x, ((us ++ x :: vs).flatMap (holders t)).Perm (holders t x ++ (us ++ vs).flatMap (holders t)) := by
    intro x
    rw [List.flatMap_append, List.flatMap_cons, List.flatMap_append, ← List.append_assoc, ← List.append_assoc]
    exact List.perm_append_comm.append_right _
  refine ⟨(us ++ vs).flatMap (holders t), htake ▸ hperm o, fun x => ?_⟩
  rw [hset]
  exact hperm x

theorem fields_set {fs : List TypeInfo} (hf : fs[i]? = some t) (ho : os[i]? = some o) : ∃ rest,
    (holdersFields fs os).Perm (holders t o ++ rest) ∧
      ∀ x, (holdersFields fs (os.set i x)).Perm (holders t x ++ rest) := by
  induction fs generalizing os i with
  | nil => cases hf
  | cons f fs ih =>
    cases os with
    | nil => cases ho
    | cons u os =>
      cases i with
      | zero =>
        obtain rfl := Option.some.inj hf
        obtain rfl := Option.some.inj ho
        exact ⟨holdersFields fs os, .refl _, fun x => .refl _⟩
      | succ i =>
        obtain ⟨rest, hperm, hset⟩ := ih hf ho
        -- the first field comes before the holders of the changed one
        have hswap : ∀ {hs gs : List Holder}, hs.Perm (gs ++ rest) →
            (holders f u ++ hs).Perm (gs ++ (holders f u ++ rest)) := by
          intro hs gs h
          refine (h.append_left _).trans ?_
          rw [← List.append_assoc, ← List.append_assoc]
          exact List.perm_append_comm.append_right _
        exact ⟨holders f u ++ rest, hswap hperm, fun x => hswap (hset x)⟩

theorem holders_setMember (h : member i t o = some (t', o')) : ∃ rest,
    (holders t o).Perm (holders t' o' ++ rest) ∧
      ∀ x, (holders t (setMember i x t o)).Perm (holders t' x ++ rest) := by
  unfold member at h
  split at h
  · next t b o =>
    obtain ⟨rfl, rfl⟩ := Prod.mk.inj (Option.some.inj h)
    exact ⟨[.ptr b], (List.perm_append_singleton _ _).symm, fun x => (List.perm_append_singleton _ _).symm⟩
  · obtain ⟨rfl, rfl⟩ := Prod.mk.inj (Option.some.inj h)
    exact ⟨[], by rw [List.append_nil, holders], fun x => by rw [List.append_nil, setMember, holders]⟩
  · obtain ⟨f, hf, h⟩ := Option.bind_eq_some_iff.1 h
    obtain ⟨o, ho, heq⟩ := Option.map_eq_some_iff.1 h
    obtain ⟨rfl, rfl⟩ := Prod.mk.inj heq
    exact fields_set hf ho
  · obtain ⟨o, ho, heq⟩ := Option.map_eq_some_iff.1 h
    obtain ⟨rfl, rfl⟩ := Prod.mk.inj heq
    exact elems_set ho
  · obtain ⟨o, ho, heq⟩ := Option.map_eq_some_iff.1 h
    obtain ⟨rfl, rfl⟩ := Prod.mk.inj heq
    exact elems_set ho
  · next c n a b os =>
    obtain ⟨o, ho, heq⟩ := Option.map_eq_some_iff.1 h
    obtain ⟨rfl, rfl⟩ := Prod.mk.inj heq
    obtain ⟨rest, hperm, hset⟩ := elems_set (t := c) ho
    have hhead : ∀ os : List Obj, holders (dynamicArray c) (.dyn (some n) (some a) (.ptr b (.list os))) =
        .array (some (DynArray.head ⟨n, a, .block b os⟩)) :: (os.take n.toNat).flatMap (holders c) := fun _ => rfl
    have hsame : ∀ x, DynArray.head ⟨n, a, .block b (os.set i x)⟩ = DynArray.head ⟨n, a, .block b os⟩ := by
      intro x
      simp [DynArray.head, DynPtr.map]
    refine ⟨.array (some (DynArray.head ⟨n, a, .block b os⟩)) :: rest, ?_, fun x => ?_⟩
    · rw [hhead]
      exact (hperm.cons _).trans List.perm_middle.symm
    · rw [setMember, hhead, hsame]
      · exact ((hset x).cons _).trans List.perm_middle.symm
      all_goals simp
  · cases h

theorem holders_replace {p : List Nat} (h : find p t o = some (t', o')) : ∃ rest,
    (holders t o).Perm (holders t' o' ++ rest) ∧
      ∀ x, (holders t (replace x p t o)).Perm (holders t' x ++ rest) := by
  induction p generalizing t o with
  | nil =>
    obtain ⟨rfl, rfl⟩ := Prod.mk.inj (Option.some.inj h)
    exact ⟨[], by rw [List.append_nil], fun x => by rw [List.append_nil, replace]⟩
  | cons i p ih =>
    obtain ⟨⟨u, m⟩, hm, h⟩ := Option.bind_eq_some_iff.1 h
    obtain ⟨rest, hperm, hset⟩ := holders_setMember hm
    obtain ⟨rest', hperm', hset'⟩ := ih h
    refine ⟨rest' ++ rest, ?_, fun x => ?_⟩
    · rw [← List.append_assoc]
      exact hperm.trans (hperm'.append_right rest)
    · simp only [replace, hm]
      rw [← List.append_assoc]
      exact (hset _).trans ((hset' x).append_right rest)

end

/-! ## `aosl_init_typed_obj` and `aosl_fini_typed_obj` -/

theorem idle_bytes (text : Bool) :
    ∀ h ∈ [Holder.bytes text (Obj.toBytes (.dyn (some 0) (some 0) .null))], h.idle = true :=
  List.forall_mem_singleton.2 rfl

theorem idle_array (t : TypeInfo) : ∀ h ∈ holders (dynamicArray t) (.dyn (some 0) (some 0) .null), h.idle = true :=
  List.forall_mem_singleton.2 rfl

mutual

theorem idle_init : ∀ (t : TypeInfo) (o : Obj), ∀ h ∈ holders t (initTypedObj t o), h.idle = true
  | void, o | scalar _, o | fixedBytes _, o | varBytes _, o | bytesWithNil _, o => by simp [holders]
  | pointer _, o | string, o => by simp [initTypedObj, holders]
  | dynamicBytes, _ => idle_bytes false
  | dynamicString, _ => idle_bytes true
  | dynamicArray t, _ => idle_array t
  | reference t, o => idle_init t o
  | struct fs, o => by
    cases o with
    | list os => exact idle_initFields fs os
    | _ => simp [initTypedObj, holders]
  | fixedArray n t, o => by
    cases o with
    | list os =>
      intro h hh
      obtain ⟨x, hx, hh⟩ := List.mem_flatMap.1 hh
      obtain ⟨y, -, rfl⟩ := List.mem_map.1 (List.mem_of_mem_take hx)
      exact idle_init t y h hh
    | _ => simp [initTypedObj, holders]
  | varArray _ t, o => by
    cases o with
    | var n vs => cases vs <;> simp [initTypedObj, holders]
    | _ => simp [initTypedObj, holders]

theorem idle_initFields : ∀ (fs : List TypeInfo) (os : List Obj), ∀ h ∈ holdersFields fs (initFields fs os), h.idle = true
  | [], os => by simp [holdersFields]
  | f :: fs, [] => by simp [initFields, holdersFields]
  | f :: fs, o :: os => by
    rw [initFields, holdersFields, List.forall_mem_append]
    exact ⟨idle_init f o, idle_initFields fs os⟩

end

/-- What is left of an object when the blocks `freed` of its holders `before` are freed. -/
structure Finished (before after : List Holder) (freed : List Nat) : Prop where
  freed : freed.Perm (before.flatMap Holder.blocks)
  idle : ∀ h ∈ after, h.idle = true

namespace Finished
variable {hs gs hs' gs' : List Holder} {fs fs' : List Nat}

theorem nil : Finished [] [] [] := ⟨.refl _, by simp⟩

theorem append (h : Finished hs gs fs) (h' : Finished hs' gs' fs') : Finished (hs ++ hs') (gs ++ gs') (fs ++ fs') := by
  refine ⟨?_, List.forall_mem_append.2 ⟨h.idle, h'.idle⟩⟩
  rw [List.flatMap_append]
  exact h.freed.append h'.freed

theorem block {b : Nat} {h : Holder} (hb : h.blocks = [b]) (hf : Finished hs gs fs) :
    Finished (h :: hs) [] (fs ++ [b]) := by
  refine ⟨?_, by simp⟩
  rw [List.flatMap_cons, hb]
  exact (List.perm_append_singleton b fs).trans (hf.freed.cons b)

end Finished

section
variable {mixed : List Nat} {t : TypeInfo}

theorem finiElems_finished
    (ht : ∀ o o' fs, finiTypedObj t o = some (o', fs) → (∀ h ∈ holders t o, h.Sound mixed) →
      Finished (holders t o) (holders t o') fs) (n : Nat) {os os' : List Obj} {fs : List Nat}
    (h : finiElems (finiTypedObj t) n os = some (os', fs)) (hs : ∀ h ∈ (os.take n).flatMap (holders t), h.Sound mixed) :
    Finished ((os.take n).flatMap (holders t)) ((os'.take n).flatMap (holders t)) fs := by
  induction n generalizing os os' fs with
  | zero =>
    cases h
    exact .nil
  | succ n ih =>
    cases os with
    | nil => cases h
    | cons o os =>
      rw [finiElems] at h
      obtain ⟨⟨o₁, gs⟩, ho, h⟩ := Option.bind_eq_some_iff.1 h
      obtain ⟨⟨os₁, hs₁⟩, hos, heq⟩ := Option.map_eq_some_iff.1 h
      obtain ⟨rfl, rfl⟩ := Prod.mk.inj heq
      rw [List.take_succ_cons, List.flatMap_cons, List.forall_mem_append] at hs
      rw [List.take_succ_cons, List.take_succ_cons, List.flatMap_cons, List.flatMap_cons]
      exact (ht o o₁ gs ho hs.1).append (ih hos hs.2)

theorem finiTypedObj_array {n a : UInt16} {b : Nat} {os : List Obj} (ha : a ≠ 0) :
    finiTypedObj (dynamicArray t) (.dyn (some n) (some a) (.ptr b (.list os))) =
      (finiElems (finiTypedObj t) n.toNat os).map fun r => (.dyn (some 0) (some 0) .null, r.2 ++ [b]) := by
  rw [finiTypedObj]
  exact ha

theorem finiBytes_finished {text : Bool} {o o' : Obj} {fs : List Nat} (h : finiTypedObj.finiBytes o = some (o', fs))
    (hs : (Holder.bytes text o.toBytes).Sound mixed) :
    Finished [.bytes text o.toBytes] [.bytes text o'.toBytes] fs := by
  obtain ⟨arr, harr, hshape, -⟩ := hs
  obtain rfl := DynArray.eq_of_toBytes harr
  rw [harr]
  obtain rfl | ⟨n, a, b, cells, rfl, -, ha, -⟩ := hshape.cases
  · obtain ⟨rfl, rfl⟩ := Prod.mk.inj (Option.some.inj h)
    exact ⟨.refl _, idle_bytes text⟩
  · rw [DynArray.toObj, finiTypedObj.finiBytes, if_pos (UInt16.pos_iff_ne_zero.2 ha)] at h
    obtain ⟨rfl, rfl⟩ := Prod.mk.inj (Option.some.inj h)
    exact ⟨.refl _, idle_bytes text⟩

end

mutual

theorem fini_finished {mixed : List Nat} : ∀ (t : TypeInfo) (o o' : Obj) (fs : List Nat),
    finiTypedObj t o = some (o', fs) → (∀ h ∈ holders t o, h.Sound mixed) → Finished (holders t o) (holders t o') fs
  | void, o, o', fs, h, _ | scalar _, o, o', fs, h, _ | fixedBytes _, o, o', fs, h, _ | varBytes _, o, o', fs, h, _
  | bytesWithNil _, o, o', fs, h, _ => by
    obtain ⟨rfl, rfl⟩ := Prod.mk.inj (Option.some.inj h)
    simpa [holders] using Finished.nil
  | pointer t, o, o', fs, h, hs => by
    cases o with
    | null =>
      obtain ⟨rfl, rfl⟩ := Prod.mk.inj (Option.some.inj h)
      simpa [holders] using Finished.nil
    | ptr b o =>
      obtain ⟨⟨o₁, gs⟩, ho, heq⟩ := Option.map_eq_some_iff.1 h
      obtain ⟨rfl, rfl⟩ := Prod.mk.inj heq
      rw [holders, List.forall_mem_cons] at hs
      rw [holders]
      simpa [holders] using Finished.block (h := .ptr b) rfl (fini_finished t o o₁ gs ho hs.2)
    | _ => cases h
  | reference t, o, o', fs, h, hs => fini_finished t o o' fs h hs
  | string, o, o', fs, h, _ => by
    obtain ⟨gs, hgs, heq⟩ := Option.map_eq_some_iff.1 h
    obtain ⟨rfl, rfl⟩ := Prod.mk.inj heq
    cases o with
    | null =>
      cases hgs
      simpa [holders] using Finished.nil
    | ptr b o =>
      cases hgs
      simpa [holders] using Finished.block (h := .ptr b) rfl Finished.nil
    | _ => cases hgs
  | struct ts, o, o', fs, h, hs => by
    cases o with
    | list os =>
      obtain ⟨⟨os₁, gs⟩, hos, heq⟩ := Option.map_eq_some_iff.1 h
      obtain ⟨rfl, rfl⟩ := Prod.mk.inj heq
      exact finiFields_finished ts os os₁ gs hos hs
    | _ => cases h
  | dynamicBytes, o, o', fs, h, hs => finiBytes_finished h (hs _ List.mem_cons_self)
  | dynamicString, o, o', fs, h, hs => finiBytes_finished h (hs _ List.mem_cons_self)
  | fixedArray n t, o, o', fs, h, hs => by
    cases o with
    | list os =>
      obtain ⟨⟨os₁, gs⟩, hos, heq⟩ := Option.map_eq_some_iff.1 h
      obtain ⟨rfl, rfl⟩ := Prod.mk.inj heq
      exact finiElems_finished (fini_finished t) n.toNat hos hs
    | _ => cases h
  | varArray max t, o, o', fs, h, hs => by
    cases o with
    | var n vs =>
      cases n with
      | none => cases h
      | some n =>
        cases vs with
        | list os =>
          obtain ⟨⟨os₁, gs⟩, hos, heq⟩ := Option.map_eq_some_iff.1 h
          obtain ⟨rfl, rfl⟩ := Prod.mk.inj heq
          have hall := finiElems_finished (fini_finished t) n.toNat hos hs
          exact ⟨hall.freed, by simp [holders]⟩
        | _ => cases h
    | _ => cases h
  | dynamicArray t, o, o', fs, h, hs => by
    rw [holders, List.forall_mem_cons] at hs
    obtain ⟨⟨_, hhead, hshape⟩, hs⟩ := hs
    obtain ⟨arr, harr, rfl⟩ := Option.map_eq_some_iff.1 hhead
    obtain rfl := DynArray.eq_of_toArray harr
    rw [holders, hhead]
    obtain rfl | ⟨n, a, b, os, rfl, -, ha, -⟩ := hshape.of_head.cases
    · cases h
      exact ⟨.refl _, idle_array t⟩
    · rw [Obj.elems, harr] at hs ⊢
      obtain ⟨⟨os₁, gs⟩, hos, heq⟩ := Option.map_eq_some_iff.1 ((finiTypedObj_array ha).symm.trans h)
      obtain ⟨rfl, rfl⟩ := Prod.mk.inj heq
      have hall := (finiElems_finished (fini_finished t) n.toNat hos hs).block
        (h := .array (some (DynArray.head ⟨n, a, .block b os⟩))) rfl
      exact ⟨hall.freed, idle_array t⟩

theorem finiFields_finished {mixed : List Nat} : ∀ (ts : List TypeInfo) (os os' : List Obj) (fs : List Nat),
    finiFields ts os = some (os', fs) → (∀ h ∈ holdersFields ts os, h.Sound mixed) →
      Finished (holdersFields ts os) (holdersFields ts os') fs
  | [], os, os', fs, h, _ => by
    cases os <;> cases h <;> exact .nil
  | t :: ts, [], os', fs, h, _ => by
    cases h
    exact .nil
  | t :: ts, o :: os, os', fs, h, hs => by
    rw [finiFields] at h
    obtain ⟨⟨o₁, gs⟩, ho, h⟩ := Option.bind_eq_some_iff.1 h
    obtain ⟨⟨os₁, hs₁⟩, hos, heq⟩ := Option.map_eq_some_iff.1 h
    obtain ⟨rfl, rfl⟩ := Prod.mk.inj heq
    rw [holdersFields, List.forall_mem_append] at hs
    rw [holdersFields, holdersFields]
    exact (fini_finished t o o₁ gs ho hs.1).append (finiFields_finished ts os os₁ hs₁ hos hs.2)

end

end TypeInfo
end Aosl
