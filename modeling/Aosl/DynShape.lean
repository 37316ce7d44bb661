import Aosl.DynArray
import Aosl.Lib.Ledger

/-!
# What the calls on dynamic arrays make

`Shape` is what every call keeps: no more elements than room, and `values` is `NULL` where there is no room and else a
block of `allocated` elements. Of an array of this shape no call reads or writes past the block. A call fails and has
changed nothing, or it `Makes` an array with the elements it should; what is freed by it and what the array holds
afterwards are the block of before and a new one.
-/

namespace Aosl
open Lib

namespace DynPtr
variable {α : Type}

def cells : DynPtr α → List α
  | .undef | .null => []
  | .block _ cells => cells

def blocks : DynPtr α → List Nat
  | .undef | .null => []
  | .block b _ => [b]

theorem write_block {b i : Nat} {xs cells : List α} (h : i + xs.length ≤ cells.length) :
    (block b cells).write i xs = some (.block b (cells.take i ++ xs ++ cells.drop (i + xs.length))) :=
  if_pos h

end DynPtr

namespace DynArray
variable {α : Type}

/-- The elements of the array. -/
def elems (arr : DynArray α) : List α := arr.values.cells.take arr.count.toNat

structure Shape (arr : DynArray α) : Prop where
  count_le : arr.count.toNat ≤ arr.allocated.toNat
  null_iff : arr.allocated = 0 ↔ arr.values = .null
  block : arr.allocated ≠ 0 → ∃ b cells, arr.values = .block b cells ∧ cells.length = arr.allocated.toNat

/-- The `'\0'` behind the last byte of a string. -/
def Terminated (nul : α) (arr : DynArray α) : Prop :=
  0 < arr.allocated → arr.values.cells[arr.count.toNat]? = some nul

/-- A call of `arr` that has succeeded, when `b` was the next block. -/
structure Makes (out : DynOut α) (arr : DynArray α) (b : Nat) (elems : List α) : Prop where
  ok : out.res = .ok ()
  shape : out.arr.Shape
  elems : out.arr.elems = elems
  passes : Passes out.freed b out.next arr.values.blocks out.arr.values.blocks

variable {fresh nul : α} {mem : Bool} {b : Nat} {arr : DynArray α} {stride target : UInt16}

namespace Shape

theorem init : (init : DynArray α).Shape :=
  ⟨Nat.le_refl 0, iff_of_true rfl rfl, fun h => absurd rfl h⟩

theorem mk_block {n a : UInt16} {cells : List α} (hle : n.toNat ≤ a.toNat) (ha : a ≠ 0)
    (hlen : cells.length = a.toNat) : (⟨n, a, .block b cells⟩ : DynArray α).Shape :=
  ⟨hle, iff_of_false ha (by simp), fun _ => ⟨b, cells, rfl, hlen⟩⟩

theorem cases (h : arr.Shape) : arr = DynArray.init ∨
    ∃ n a b cells, arr = ⟨n, a, .block b cells⟩ ∧ n.toNat ≤ a.toNat ∧ a ≠ 0 ∧ cells.length = a.toNat := by
  obtain ⟨n, a, values⟩ := arr
  by_cases ha : a = 0
  · have hvalues : values = .null := h.null_iff.1 ha
    have hle : n.toNat ≤ a.toNat := h.count_le
    have hn : n = 0 := UInt16.toNat_inj.1 (by simpa [ha] using hle)
    exact .inl (by rw [ha, hvalues, hn]; rfl)
  · obtain ⟨b, cells, hvalues, hlen⟩ := h.block ha
    obtain rfl : values = .block b cells := hvalues
    exact .inr ⟨n, a, b, cells, rfl, h.count_le, ha, hlen⟩

theorem length_cells (h : arr.Shape) : arr.values.cells.length = arr.allocated.toNat := by
  obtain rfl | ⟨n, a, b, cells, rfl, -, -, hlen⟩ := h.cases
  · rfl
  · exact hlen

theorem length_elems (h : arr.Shape) : arr.elems.length = arr.count.toNat := by
  rw [elems, List.length_take, h.length_cells, Nat.min_eq_left h.count_le]

theorem read (h : arr.Shape) : arr.values.read arr.count.toNat = some arr.elems := by
  obtain rfl | ⟨n, a, b, cells, rfl, hle, -, hlen⟩ := h.cases
  · rfl
  · rw [elems]
    dsimp only
    rcases hn : n.toNat with _ | k
    · rfl
    · rw [DynPtr.read, if_pos (by omega)]
      rfl

theorem release (h : arr.Shape) : arr.release = some arr.values.blocks := by
  obtain rfl | ⟨n, a, b, cells, rfl, -, ha, -⟩ := h.cases
  · rfl
  · exact if_pos (UInt16.pos_iff_ne_zero.2 ha)

theorem reset (h : arr.Shape) : ({ arr with count := 0 } : DynArray α).Shape :=
  ⟨Nat.zero_le _, h.null_iff, h.block⟩

end Shape

theorem elems_reset : ({ arr with count := 0 } : DynArray α).elems = [] := List.take_zero

theorem Shape.write (h : arr.Shape) (xs : List α) (hroom : arr.count.toNat + xs.length ≤ arr.allocated.toNat)
    (hpos : arr.allocated ≠ 0) : ∃ b cells rest, arr.values = .block b cells ∧
      arr.values.write arr.count.toNat xs = some (.block b (arr.elems ++ xs ++ rest)) ∧
      (arr.elems ++ xs ++ rest).length = arr.allocated.toNat := by
  obtain ⟨b, cells, hvalues, hlen⟩ := h.block hpos
  have helems := h.length_elems
  refine ⟨b, cells, cells.drop (arr.count.toNat + xs.length), hvalues, ?_, ?_⟩
  · rw [elems, hvalues]
    exact DynPtr.write_block (by omega)
  · rw [List.length_append, List.length_append, helems, List.length_drop]
    omega

variable (fresh mem b) in
/-- Room for `target` elements: the array as it was, or a new block with its elements. -/
theorem enlarge_makes (h : arr.Shape) (hpos : 0 < stride.toNat) (hend : target.toNat + stride.toNat ≤ 65536) :
    ∃ out, enlarge fresh stride target mem b arr = some out ∧
      ((∃ e, out.res = .error e) ∧ Unchanged out arr b ∨
        Makes out arr b arr.elems ∧ out.arr.count = arr.count ∧ target.toNat ≤ out.arr.allocated.toNat) := by
  obtain ⟨a, ha, hle, htarget, -⟩ := @grow_spec stride target 65535 arr.allocated hpos hend
    (Nat.le_trans (Nat.le_of_lt_succ target.toNat_lt) (Nat.le_add_right _ _))
  simp only [enlarge, ha, h.read, h.release, Option.bind_eq_bind, Option.bind_some, gt_iff_lt]
  by_cases hlt : arr.allocated < a
  · rw [if_pos hlt]
    cases mem with
    | false => exact ⟨_, rfl, .inl ⟨⟨_, rfl⟩, rfl, rfl, rfl⟩⟩
    | true =>
      have hnat := UInt16.lt_iff_toNat_lt.1 hlt
      have hlen := h.length_elems
      have hcount := h.count_le
      have hroom : 0 + arr.elems.length ≤ (List.replicate a.toNat fresh).length := by
        rw [List.length_replicate]
        omega
      have ha0 : a ≠ 0 := UInt16.pos_iff_ne_zero.1 (UInt16.lt_iff_toNat_lt.2 (Nat.zero_lt_of_lt hnat))
      rw [if_pos rfl, DynPtr.write_block hroom, Option.bind_some]
      refine ⟨_, rfl, .inr ⟨⟨rfl, Shape.mk_block (Nat.le_trans hcount hle) ha0 ?_, ?_, Nat.le_succ b, ?_⟩, rfl, htarget⟩⟩
      · simp only [List.take_zero, List.nil_append, Nat.zero_add, List.length_append, List.length_drop,
          List.length_replicate]
        omega
      · rw [elems]
        simp only [DynPtr.cells, List.take_zero, List.nil_append]
        rw [List.take_append_of_le_length (Nat.le_of_eq hlen.symm), ← hlen, List.take_length]
      · rw [Nat.add_sub_cancel_left]
        exact List.perm_append_comm.subperm
  · rw [if_neg hlt]
    have hnat := UInt16.lt_iff_toNat_lt.not.1 hlt
    exact ⟨_, rfl, .inr ⟨⟨rfl, h, rfl, .refl⟩, rfl, Nat.le_trans htarget (Nat.le_of_not_lt hnat)⟩⟩

variable (fresh mem b) in
/-- The tests before it, and what is written to the array with room for `len` elements and `extra`. -/
theorem append_makes {extra : UInt16} {len : Nat} {fill : DynArray α → Option (DynArray α)} {xs : List α}
    {P : DynArray α → Prop} (h : arr.Shape) (hpos : 0 < stride.toNat)
    (hend : dynamicArrayMaxCount + extra.toNat + stride.toNat ≤ 65536)
    (hfill : ∀ arr : DynArray α, arr.Shape → arr.count.toNat + len + extra.toNat ≤ arr.allocated.toNat →
      ∃ arr', fill arr = some arr' ∧ arr'.Shape ∧ arr'.elems = arr.elems ++ xs ∧
        arr'.values.blocks = arr.values.blocks ∧ P arr') :
    ∃ out, append fresh stride extra len fill mem b arr = some out ∧
      ((∃ e, out.res = .error e) ∧ Unchanged out arr b ∨ Makes out arr b (arr.elems ++ xs) ∧ P out.arr) := by
  rw [append]
  by_cases hbig : tooBig arr.count.toNat len = true
  · rw [if_pos hbig]
    exact ⟨_, rfl, .inl ⟨⟨_, rfl⟩, rfl, rfl, rfl⟩⟩
  · rw [if_neg hbig]
    rw [tooBig_iff, dynamicArrayMaxCount] at hbig
    rw [dynamicArrayMaxCount] at hend
    have htarget : (arr.count + UInt16.ofNat len + extra).toNat = arr.count.toNat + len + extra.toNat := by
      rw [UInt16.toNat_add, UInt16.toNat_add, UInt16.toNat_ofNat']
      omega
    obtain ⟨⟨res, arr₁, freed, next⟩, hrun, hout⟩ := enlarge_makes fresh mem b h hpos
      (show (arr.count + UInt16.ofNat len + extra).toNat + stride.toNat ≤ 65536 by omega)
    rw [hrun, Option.bind_eq_bind, Option.bind_some]
    rcases hout with ⟨⟨e, rfl : res = _⟩, hunch⟩ | ⟨hmid, hcount, hroom⟩
    · exact ⟨_, rfl, .inl ⟨⟨e, rfl⟩, hunch⟩⟩
    · obtain rfl : res = .ok () := hmid.ok
      rw [htarget, ← hcount] at hroom
      obtain ⟨arr', hrun', hshape, helems, hblocks, hp⟩ := hfill arr₁ hmid.shape hroom
      refine ⟨⟨.ok (), arr', freed, next⟩, by simp [hrun'], .inr ⟨⟨rfl, hshape, ?_, ?_⟩, hp⟩⟩
      · rw [helems]
        exact congrArg (· ++ xs) hmid.elems
      · have hpasses := hmid.passes
        rwa [← hblocks] at hpasses

/-- `memcpy` of `xs` behind the last element, and `count` with it. -/
theorem Shape.put (h : arr.Shape) (xs : List α) (hroom : arr.count.toNat + xs.length ≤ arr.allocated.toNat) :
    ∃ arr', (if xs.length > 0 then
          (arr.values.write arr.count.toNat xs).map fun values =>
            { arr with count := arr.count + UInt16.ofNat xs.length, values := values }
        else some arr) = some arr' ∧
      arr'.Shape ∧ arr'.elems = arr.elems ++ xs ∧ arr'.values.blocks = arr.values.blocks ∧
        arr'.allocated = arr.allocated ∧ arr'.count.toNat = arr.count.toNat + xs.length := by
  by_cases hlen : xs.length > 0
  · have hpos : arr.allocated ≠ 0 := by
      rintro h0
      rw [h0, UInt16.toNat_zero] at hroom
      omega
    have hcount : (arr.count + UInt16.ofNat xs.length).toNat = arr.count.toNat + xs.length := by
      have hlt := arr.allocated.toNat_lt
      rw [UInt16.toNat_add, UInt16.toNat_ofNat']
      omega
    obtain ⟨b, cells, rest, hvalues, hwrite, hrest⟩ := h.write xs hroom hpos
    have helems := h.length_elems
    rw [if_pos hlen, hwrite, Option.map_some]
    refine ⟨_, rfl, Shape.mk_block (by rw [hcount]; exact hroom) hpos hrest, ?_, by rw [hvalues]; rfl, rfl, hcount⟩
    rw [elems]
    dsimp only [DynPtr.cells]
    rw [hcount, ← helems, ← List.length_append]
    exact List.take_left
  · obtain rfl : xs = [] := List.eq_nil_of_length_eq_zero (Nat.eq_zero_of_not_pos hlen)
    exact ⟨arr, rfl, h, (List.append_nil _).symm, rfl, rfl, rfl⟩

variable (fresh mem b) in
theorem addElems_makes (h : arr.Shape) (elems : List α) : ∃ out, addElems fresh elems mem b arr = some out ∧
    ((∃ e, out.res = .error e) ∧ Unchanged out arr b ∨ Makes out arr b (arr.elems ++ elems)) := by
  obtain ⟨out, hrun, hout⟩ := append_makes fresh mem b (P := fun _ => True) h
    (show 0 < dynamicArrayGrowStride.toNat by decide) (show dynamicArrayMaxCount + (0 : UInt16).toNat + _ ≤ _ by decide)
    fun arr₁ h₁ hroom => by
      obtain ⟨arr', hrun, hshape, helems, hblocks, -⟩ := h₁.put elems hroom
      exact ⟨arr', hrun, hshape, helems, hblocks, trivial⟩
  exact ⟨out, hrun, hout.imp_right And.left⟩

variable (fresh mem b) in
theorem copyData_makes (h : arr.Shape) (data : List α) : ∃ out, copyData fresh data mem b arr = some out ∧
    ((∃ e, out.res = .error e) ∧ Unchanged out { arr with count := 0 } b ∨ Makes out arr b data) := by
  obtain ⟨out, hrun, hout⟩ := addElems_makes fresh mem b h.reset data
  refine ⟨out, hrun, hout.imp_right fun hmakes => ⟨hmakes.ok, hmakes.shape, ?_, hmakes.passes⟩⟩
  rw [hmakes.elems, elems_reset, List.nil_append]

theorem strcat_eq {str : List α} : strcat fresh nul str mem b arr =
    append fresh dynamicBytesGrowStride 1 str.length (fun arr =>
      (if str.length > 0 then
          (arr.values.write arr.count.toNat str).map fun values =>
            { arr with count := arr.count + UInt16.ofNat str.length, values := values }
        else some arr).bind fun arr =>
          (arr.values.write arr.count.toNat [nul]).map fun values => { arr with values := values }) mem b arr := by
  rw [strcat]
  congr 1
  funext arr
  split <;> simp only [Option.map_eq_bind] <;> rfl

variable (fresh nul mem b) in
theorem strcat_makes (h : arr.Shape) (str : List α) : ∃ out, strcat fresh nul str mem b arr = some out ∧
    ((∃ e, out.res = .error e) ∧ Unchanged out arr b ∨
      Makes out arr b (arr.elems ++ str) ∧ out.arr.Terminated nul) := by
  rw [strcat_eq]
  refine append_makes fresh mem b (P := Terminated nul) h (by decide) (by decide) fun arr₁ h₁ hroom => ?_
  have hroom : arr₁.count.toNat + str.length + 1 ≤ arr₁.allocated.toNat := hroom
  obtain ⟨arr₂, hrun, h₂, helems, hblocks, hallocated, hcount⟩ := h₁.put str (Nat.le_of_succ_le hroom)
  have hpos : arr₂.allocated ≠ 0 := by
    rw [hallocated]
    rintro h0
    rw [h0, UInt16.toNat_zero] at hroom
    omega
  -- there is one more cell for the `'\0'`
  obtain ⟨b, cells, rest, hvalues, hwrite, hrest⟩ := h₂.write [nul]
    (by rw [hcount, hallocated]; exact hroom) hpos
  have hlen := h₂.length_elems
  rw [hrun, Option.bind_some, hwrite, Option.map_some]
  refine ⟨_, rfl, Shape.mk_block h₂.count_le hpos hrest, ?_, ?_, fun _ => ?_⟩
  · rw [← helems, elems, List.append_assoc]
    dsimp only [DynPtr.cells]
    rw [← hlen]
    exact List.take_left
  · rw [← hblocks, hvalues]
    rfl
  · dsimp only [DynPtr.cells]
    rw [← hlen, List.append_assoc]
    simp

variable (fresh nul mem b) in
theorem strcpy_makes (h : arr.Shape) (str : List α) : ∃ out, strcpy fresh nul str mem b arr = some out ∧
    ((∃ e, out.res = .error e) ∧ Unchanged out { arr with count := 0 } b ∨
      Makes out arr b str ∧ out.arr.Terminated nul) := by
  obtain ⟨out, hrun, hout⟩ := strcat_makes fresh nul mem b h.reset str
  refine ⟨out, hrun, hout.imp_right fun ⟨hmakes, hnul⟩ => ⟨⟨hmakes.ok, hmakes.shape, ?_, hmakes.passes⟩, hnul⟩⟩
  rw [hmakes.elems, elems_reset, List.nil_append]

variable (fresh nul mem b) in
theorem copy_makes {src : DynArray α} (hsrc : src.Shape) (h : arr.Shape) :
    ∃ out, copy fresh nul src mem b arr = some out ∧
      ((∃ e, out.res = .error e) ∧ Unchanged out arr b ∨
        Makes out arr b src.elems ∧ (src.Terminated nul → out.arr.Terminated nul)) := by
  simp only [copy, h.release, hsrc.read, Option.bind_eq_bind, Option.bind_some, Option.map_some]
  have hlen := hsrc.length_elems
  have hle := hsrc.count_le
  obtain rfl | ⟨n, a, k, cells, rfl, -, ha, hcells⟩ := hsrc.cases
  · rw [if_neg (show ¬(init : DynArray α).allocated > 0 from UInt16.lt_irrefl 0)]
    refine ⟨_, rfl, .inr ⟨⟨rfl, Shape.init, rfl, .of_subperm ?_⟩, id⟩⟩
    exact (List.append_nil _).symm ▸ List.Subperm.refl _
  · dsimp only at hle hlen ⊢
    rw [if_pos (UInt16.pos_iff_ne_zero.2 ha)]
    cases mem with
    | false => exact ⟨_, rfl, .inl ⟨⟨_, rfl⟩, rfl, rfl, rfl⟩⟩
    | true =>
      set data := elems ⟨n, a, .block k cells⟩
      have hroom : 0 + data.length ≤ (List.replicate a.toNat fresh).length := by
        rw [List.length_replicate]
        omega
      rw [if_pos rfl, DynPtr.write_block hroom, Option.bind_some]
      set copied := (List.replicate a.toNat fresh).take 0 ++ data ++ (List.replicate a.toNat fresh).drop (0 + data.length)
      have hlen' : copied.length = a.toNat := by
        simp only [copied, List.take_zero, List.nil_append, List.length_append, List.length_drop, List.length_replicate]
        omega
      have helems : elems ⟨n, a, .block b copied⟩ = data := by
        rw [elems]
        dsimp only [DynPtr.cells]
        rw [← hlen]
        exact List.take_left
      have hcopied : (⟨n, a, .block b copied⟩ : DynArray α).Shape := Shape.mk_block hle ha hlen'
      have hpasses : Passes arr.values.blocks b (b + 1) arr.values.blocks [b] := by
        refine ⟨Nat.le_succ b, ?_⟩
        rw [Nat.add_sub_cancel_left]
        exact List.perm_append_comm.subperm
      by_cases hlt : a > n
      · have hnat := UInt16.lt_iff_toNat_lt.1 hlt
        obtain ⟨b', cells', rest, hvalues, hwrite, hrest⟩ := hcopied.write [nul] hnat ha
        obtain ⟨rfl, rfl⟩ := DynPtr.block.inj hvalues
        rw [if_pos hlt, hwrite, Option.bind_some]
        refine ⟨_, rfl, .inr ⟨⟨rfl, Shape.mk_block hle ha hrest, ?_, hpasses⟩, fun _ _ => ?_⟩⟩
        · rw [elems, helems, List.append_assoc]
          dsimp only [DynPtr.cells]
          rw [← hlen]
          exact List.take_left
        · dsimp only [DynPtr.cells]
          rw [← hlen, helems, List.append_assoc]
          simp
      · rw [if_neg hlt, Option.bind_some]
        refine ⟨_, rfl, .inr ⟨⟨rfl, hcopied, helems, hpasses⟩, fun hnul => ?_⟩⟩
        -- a terminated string has room for the `'\0'`
        have hlast : cells[n.toNat]? = some nul := hnul (UInt16.pos_iff_ne_zero.2 ha)
        have hfits := (List.getElem?_eq_some_iff.1 hlast).1
        exact absurd (UInt16.lt_iff_toNat_lt.2 (hcells ▸ hfits)) hlt

end DynArray
end Aosl
