import Aosl.DynOwner

/-!
# The dynamic arrays of a decoded object

`_____unmarshal` writes `count` and `allocated` before it has a block, and a block before its contents. What it leaves
is sound where it had nothing to leave as it was: `survey` walks over a chain and an object as the decoder does, and is
tidy if every array that the decoding does not come to is empty, every empty array on the wire is decoded over a `NULL`,
and every dynamic string is there in full and has less than 65535 bytes. Then each block that the decoding has allocated
has one holder, and there are no others (`unmarshal_surveyed`).
-/

namespace Aosl
open Lib

def Obj.isNull : Obj → Bool
  | .null => true
  | _ => false

/-- An array that was decoded, with its `'\0'` if it is a string. -/
def Holder.Made : Holder → Prop
  | ptr _ => True
  | bytes text arr => ∃ a, arr = some a ∧ a.Shape ∧ (text = true → a.Terminated (some 0))
  | array arr => ∃ a, arr = some a ∧ a.Shape

namespace TypeInfo

/-! ## What a decoder finds -/

/-- `n` elements; where one of them fails, the others are as they were. -/
def surveyElems (survey : Obj → Chain → Nat → Scan) (idle : Obj → Bool) : Nat → List Obj → Chain → Nat → Scan
  | 0, _, c, b => ⟨true, some (c, b)⟩
  | _ + 1, [], _, _ => ⟨true, none⟩
  | n + 1, o :: os, c, b =>
    match (survey o c b).rest with
    | none => ⟨(survey o c b).tidy && (os.take n).all idle, none⟩
    | some (c', b') =>
      let s := surveyElems survey idle n os c' b'
      ⟨(survey o c b).tidy && s.tidy, s.rest⟩

/-- `DYNAMIC_BYTES` and, with `text`, `DYNAMIC_STRING`. -/
def surveyDyn (e : Endian) (mem : Nat → Bool) (text idle : Bool) (vs : Obj) (c : Chain) (b : Nat) : Scan :=
  match c.decodeBase 2 with
  | none => ⟨idle, none⟩
  | some (bs, c) =>
    let val := e.val bs
    if val.toNat + text.toNat = 0 then ⟨vs.isNull, some (c, b)⟩
    else if mem b then
      let rest := scanBytes val.toNat c (b + 1)
      ⟨!text || (val != 65535 && rest.isSome), rest⟩
    else ⟨vs.isNull, none⟩

mutual

def survey (e : Endian) (mem : Nat → Bool) : TypeInfo → Obj → Chain → Nat → Scan
  | void, _, c, b => ⟨true, some (c, b)⟩
  | scalar k, _, c, b => ⟨true, (c.decodeBase k.size).map fun (_, c) => (c, b)⟩
  | pointer t, o, c, b =>
    match c.decodeBase 1 with
    | none => ⟨idle (pointer t) o, none⟩
    | some (bs, c) =>
      if bs = [0] then ⟨true, some (c, b)⟩
      else if mem b then survey e mem t (uninit t) c (b + 1)
      else ⟨idle (pointer t) o, none⟩
  | reference t, o, c, b => survey e mem t o c b
  | string, o, c, b =>
    match c.decodeBase 1 with
    | none => ⟨idle string o, none⟩
    | some (bs, c) =>
      if bs = [0] then ⟨true, some (c, b)⟩
      else
        match c.safeStrsize with
        | .error _ => ⟨idle string o, none⟩
        | .ok n => if mem b then ⟨true, scanBytes (n % 65536) c (b + 1)⟩ else ⟨idle string o, none⟩
  | struct fs, .list os, c, b => surveyFields e mem fs os c b
  | fixedBytes n, .raw _, c, b => ⟨true, scanBytes n c b⟩
  | varBytes max, .var _ (.raw _), c, b =>
    match c.decodeBase 2 with
    | none => ⟨true, none⟩
    | some (bs, c) => ⟨true, if (e.val bs).toNat > max then none else scanBytes (e.val bs).toNat c b⟩
  | bytesWithNil max, .raw _, c, b =>
    match c.safeStrsize with
    | .error _ => ⟨true, none⟩
    | .ok n => ⟨true, if n % 65536 > max then none else scanBytes (n % 65536) c b⟩
  | dynamicBytes, .dyn n a vs, c, b => surveyDyn e mem false (idle dynamicBytes (.dyn n a vs)) vs c b
  | dynamicString, .dyn n a vs, c, b => surveyDyn e mem true (idle dynamicString (.dyn n a vs)) vs c b
  | fixedArray n t, .list os, c, b => surveyElems (survey e mem t) (idle t) n.toNat os c b
  | varArray max t, .var n (.list os), c, b =>
    match c.decodeBase 2 with
    | none => ⟨idle (varArray max t) (.var n (.list os)), none⟩
    | some (bs, c) =>
      if (e.val bs).toNat > max then ⟨idle (varArray max t) (.var n (.list os)), none⟩
      else surveyElems (survey e mem t) (idle t) (e.val bs).toNat os c b
  | dynamicArray t, .dyn n a vs, c, b =>
    match c.decodeBase 2 with
    | none => ⟨idle (dynamicArray t) (.dyn n a vs), none⟩
    | some (bs, c) =>
      let val := e.val bs
      if val = 0 then ⟨vs.isNull, some (c, b)⟩
      else if mem b then
        surveyElems (survey e mem t) (idle t) val.toNat (List.replicate val.toNat (uninit t)) c (b + 1)
      else ⟨vs.isNull, none⟩
  | t, o, _, _ => ⟨idle t o, none⟩

def surveyFields (e : Endian) (mem : Nat → Bool) : List TypeInfo → List Obj → Chain → Nat → Scan
  | [], _, c, b => ⟨true, some (c, b)⟩
  | _ :: _, [], _, _ => ⟨true, none⟩
  | f :: fs, o :: os, c, b =>
    match (survey e mem f o c b).rest with
    | none => ⟨(survey e mem f o c b).tidy && (holdersFields fs os).all Holder.idle, none⟩
    | some (c', b') =>
      let s := surveyFields e mem fs os c' b'
      ⟨(survey e mem f o c b).tidy && s.tidy, s.rest⟩

end

/-! ## What the decoding leaves -/

/-- The holders that a decoding has made when the blocks from `b` up to `b'` were allocated. -/
structure Filled (hs : List Holder) (b b' : Nat) : Prop where
  le : b ≤ b'
  made : ∀ h ∈ hs, h.Made
  blocks : (hs.flatMap Holder.blocks).Perm (List.range' b (b' - b))

namespace Filled
variable {hs gs : List Holder} {b b' b'' : Nat}

theorem nil : Filled [] b b := ⟨Nat.le_refl b, by simp, by simp⟩

theorem of_idle (h : hs.all Holder.idle = true) : Filled hs b b := by
  rw [List.all_eq_true] at h
  refine ⟨Nat.le_refl b, fun x hx => ?_, ?_⟩
  · have hi := h x hx
    cases x with
    | ptr k => trivial
    | bytes text arr =>
      obtain rfl := of_decide_eq_true hi
      exact ⟨_, rfl, .init, fun _ hpos => absurd hpos (UInt16.lt_irrefl 0)⟩
    | array arr =>
      obtain rfl := of_decide_eq_true hi
      exact ⟨_, rfl, .init⟩
  · rw [List.flatMap_eq_nil_iff.2 fun x hx => Holder.blocks_of_idle (h x hx)]
    simp

theorem append (h : Filled hs b b') (h' : Filled gs b' b'') : Filled (hs ++ gs) b b'' := by
  refine ⟨Nat.le_trans h.le h'.le, List.forall_mem_append.2 ⟨h.made, h'.made⟩, ?_⟩
  rw [List.flatMap_append, ← Accounts.range'_split h.le h'.le]
  exact h.blocks.append h'.blocks

theorem cons {h : Holder} (hmade : h.Made) (hb : h.blocks = [b]) (hf : Filled hs (b + 1) b') :
    Filled (h :: hs) b b' := by
  have hone : Filled [h] b (b + 1) := ⟨Nat.le_succ b, List.forall_mem_singleton.2 hmade, by simp [hb]⟩
  exact hone.append hf

theorem single {h : Holder} (hmade : h.Made) (hb : h.blocks = [b]) : Filled [h] b (b + 1) :=
  nil.cons hmade hb

end Filled

/-- The decoding `r` that began at block `b` ends where the survey `s` does, and if that is tidy its holders are as they
should be. -/
def Surveyed {α : Type} (holders : α → List Holder) (r : Out α) (b : Nat) (s : Scan) : Prop :=
  r.rest = s.rest ∧ (s.tidy = true → Filled (holders r.obj) b r.next)

section
variable {α : Type} {e : Endian} {mem : Nat → Bool} {t : TypeInfo} {b : Nat}

/-- One object after the other: those behind the first that fails are as they were. -/
theorem Surveyed.cons {f : α → List Holder} {g h : List α → List Holder} {r : Out α} {s : Scan} {os : List α}
    {k : Chain → Nat → Out (List α)} {sk : Chain → Nat → Scan} {u : Bool}
    (hr : Surveyed f r b s) (hh : ∀ a as, h (a :: as) = f a ++ g as) (hk : ∀ c b, Surveyed g (k c b) b (sk c b))
    (hos : u = (g os).all Holder.idle) :
    Surveyed h (r.cons os k) b (match s.rest with
      | none => ⟨s.tidy && u, none⟩
      | some (c, b) => ⟨s.tidy && (sk c b).tidy, (sk c b).rest⟩) := by
  obtain ⟨hrest, hfill⟩ := hr
  rcases r with ⟨x | ⟨l, c⟩, o, b'⟩
  · rw [← hrest]
    refine ⟨rfl, fun htidy => ?_⟩
    obtain ⟨hs, hu⟩ := (Bool.and_eq_true_iff ..).1 htidy
    rw [hos] at hu
    simp only [Out.cons, hh]
    exact (hfill hs).append (.of_idle hu)
  · obtain ⟨hrest', hfill'⟩ := hk c b'
    rw [← hrest]
    refine ⟨?_, fun htidy => ?_⟩
    · change (((k c b').addLen l).map (o :: ·)).rest = (sk c b').rest
      rw [Out.rest_map, Out.rest_addLen, hrest']
    · obtain ⟨hs, hsk⟩ := (Bool.and_eq_true_iff ..).1 htidy
      change Filled (h (o :: (k c b').obj)) b (k c b').next
      rw [hh]
      exact (hfill hs).append (hfill' hsk)

theorem unmarshalElems_surveyed (ht : ∀ o c b, Surveyed (holders t) (unmarshal e mem t o c b) b (survey e mem t o c b))
    (n : Nat) (os : List Obj) (c : Chain) (b : Nat) :
    Surveyed (fun os => (os.take n).flatMap (holders t)) (unmarshalElems (unmarshal e mem t) n os c b) b
      (surveyElems (survey e mem t) (idle t) n os c b) := by
  induction n generalizing os c b with
  | zero => exact ⟨rfl, fun _ => .nil⟩
  | succ n ih =>
    cases os with
    | nil => exact ⟨rfl, fun _ => .nil⟩
    | cons o os =>
      rw [unmarshalElems, surveyElems]
      refine (ht o c b).cons (fun a as => ?_) (fun c b => ih os c b) ?_
      · rw [List.take_succ_cons, List.flatMap_cons]
      · rw [List.all_flatMap]
        rfl

theorem surveyed_same {x : Err} {o : Obj} : Surveyed (holders t) ⟨.error x, o, b⟩ b ⟨idle t o, none⟩ :=
  ⟨rfl, fun h => .of_idle h⟩

theorem surveyed_plain {f : α → List Holder} {r : Out α} {x : Option (Chain × Nat)} {p : Bool} (hrest : r.rest = x)
    (hnext : r.next = b) (hobj : f r.obj = []) : Surveyed f r b ⟨p, x⟩ := by
  refine ⟨hrest, fun _ => ?_⟩
  rw [hobj, hnext]
  exact .nil

theorem length_decodeBytes_le {n : Nat} {p : Psb} {qs : List Psb} : (Chain.decodeBytes n p qs).1.length ≤ n := by
  induction qs generalizing n p with
  | nil =>
    rw [Chain.decodeBytes, List.length_take]
    exact Nat.le_trans (Nat.min_le_left ..) (Nat.min_le_right ..)
  | cons q qs ih =>
    have hhead : (p.data.take (min p.psbLen n)).length ≤ min p.psbLen n := List.length_take_le ..
    rw [Chain.decodeBytes]
    split
    · exact Nat.le_trans hhead (Nat.min_le_right ..)
    · have hrest := @ih (n - min p.psbLen n) q
      rw [List.length_append]
      omega

theorem length_unmarshalBytes {n : Nat} {cells : Cells} {c : Chain} (h : n ≤ cells.length) :
    (unmarshalBytes n cells c b).obj.length = cells.length := by
  have hlen := @length_decodeBytes_le n c.psb c.next
  have hwrite : ∀ bs : List UInt8, bs.length ≤ n → (Cells.write cells bs).length = cells.length := by
    intro bs hbs
    rw [Cells.write, List.length_append, List.length_map, List.length_drop]
    omega
  unfold unmarshalBytes
  rcases hdec : Chain.decodeBytes n c.psb c.next with ⟨bs, - | c'⟩ <;> rw [hdec] at hlen <;> exact hwrite bs hlen

theorem length_unmarshalElems {unmarshal : Obj → Chain → Nat → Out Obj} {n : Nat} {os : List Obj} {c : Chain}
    (h : n ≤ os.length) : (unmarshalElems unmarshal n os c b).obj.length = os.length := by
  induction n generalizing os c b with
  | zero => rfl
  | succ n ih =>
    cases os with
    | nil => cases h
    | cons o os =>
      rw [unmarshalElems, Out.cons]
      split
      · rfl
      · exact congrArg Nat.succ (ih (Nat.le_of_succ_le_succ h))

theorem filled_empty {h : Obj → List Holder} {vs : Obj} {b : Nat} (hvs : vs.isNull = true)
    (hinit : ∀ x ∈ h (.dyn (some 0) (some 0) .null), x.idle = true) : Filled (h (.dyn (some 0) (some 0) vs)) b b := by
  cases vs with
  | null => exact .of_idle (List.all_eq_true.2 hinit)
  | _ => cases hvs

/-- The block of `DYNAMIC_BYTES`, or of a `DYNAMIC_STRING` that does not make `allocated` wrap around. -/
theorem made_bytes {text : Bool} {val : UInt16} {cells : Cells} (h0 : val.toNat + text.toNat ≠ 0)
    (hlen : cells.length = val.toNat + text.toNat)
    (htext : text = true → val ≠ 65535 ∧ cells[val.toNat]? = some (some 0)) :
    (Holder.bytes text (Obj.toBytes
      (.dyn (some val) (some (val + UInt16.ofNat text.toNat)) (.ptr b (.raw cells))))).Made := by
  have hroom : (val + UInt16.ofNat text.toNat).toNat = val.toNat + text.toNat := by
    have hlt := val.toNat_lt
    rw [UInt16.toNat_add, UInt16.toNat_ofNat']
    cases text with
    | false =>
      rw [Bool.toNat_false]
      omega
    | true =>
      have hne : val.toNat ≠ 65535 := fun h => (htext rfl).1 (UInt16.toNat_inj.1 h)
      rw [Bool.toNat_true]
      omega
  have hpos : val + UInt16.ofNat text.toNat ≠ 0 := by
    rintro h
    rw [h, UInt16.toNat_zero] at hroom
    exact h0 hroom.symm
  refine ⟨_, rfl, .mk_block ?_ hpos (hlen.trans hroom.symm), fun ht _ => (htext ht).2⟩
  rw [hroom]
  exact Nat.le_add_right ..

theorem unmarshalDyn_surveyed (text : Bool) {c : Chain} {n a : Option UInt16} {vs : Obj}
    (hh : ∀ o, holders t o = [.bytes text o.toBytes]) :
    Surveyed (holders t) (unmarshalDyn e mem text.toNat n a vs c b) b
      (surveyDyn e mem text (idle t (.dyn n a vs)) vs c b) := by
  have hinit : ∀ x ∈ holders t (.dyn (some 0) (some 0) .null), x.idle = true := by
    rw [hh]
    exact idle_bytes text
  rcases hdec : c.decodeBase 2 with - | ⟨bs, c'⟩
  · simp only [unmarshalDyn, surveyDyn, hdec]
    exact surveyed_same
  · by_cases h0 : (e.val bs).toNat + text.toNat = 0
    · simp only [unmarshalDyn, surveyDyn, hdec, if_pos h0]
      obtain ⟨hval, htext⟩ := Nat.add_eq_zero_iff.1 h0
      have hval : e.val bs = 0 := UInt16.toNat_inj.1 hval
      rw [hval, htext]
      exact ⟨rfl, fun h => filled_empty h hinit⟩
    · cases hm : mem b with
      | false =>
        simp only [unmarshalDyn, surveyDyn, hdec, if_neg h0, hm, Bool.false_eq_true, if_false]
        exact ⟨rfl, fun h => filled_empty h hinit⟩
      | true =>
        simp only [unmarshalDyn, surveyDyn, hdec, if_neg h0, hm, if_true]
        refine ⟨Out.rest_addLen.trans unmarshalBytes_rest, fun htidy => ?_⟩
        rw [Out.next_map, Out.next_addLen, unmarshalBytes_next, Out.obj_map, hh]
        have hlen : (unmarshalBytes (e.val bs).toNat (List.replicate ((e.val bs).toNat + text.toNat) none) c'
            (b + 1)).obj.length = (e.val bs).toNat + text.toNat := by
          rw [length_unmarshalBytes (by simp), List.length_replicate]
        rw [← @unmarshalBytes_rest _ (List.replicate ((e.val bs).toNat + text.toNat) none)] at htidy
        refine .single ?_ rfl
        generalize unmarshalBytes (e.val bs).toNat (List.replicate ((e.val bs).toNat + text.toNat) none) c' (b + 1) = r
          at hlen htidy ⊢
        rw [Bool.or_eq_true, Bool.not_eq_true', Bool.and_eq_true, bne_iff_ne] at htidy
        obtain ⟨x | lc, cells, next⟩ := r
        · refine made_bytes h0 hlen fun htext => ?_
          rcases htidy with hf | ⟨-, hsome⟩
          · exact absurd (hf.symm.trans htext) Bool.false_ne_true
          · cases hsome
        · have hlen : cells.length = (e.val bs).toNat + text.toNat := hlen
          have htake : (cells.take (e.val bs).toNat).length = (e.val bs).toNat := List.length_take_of_le (by omega)
          refine made_bytes h0 ?_ fun htext => ⟨?_, ?_⟩
          · rw [List.length_append, htake, List.length_replicate]
          · exact (htidy.resolve_left (by simp [htext])).1
          · rw [List.getElem?_append_right (Nat.le_of_eq htake), htake, Nat.sub_self, htext]
            rfl

end

mutual

theorem unmarshal_surveyed (e : Endian) (mem : Nat → Bool) : ∀ (t : TypeInfo) (o : Obj) (c : Chain) (b : Nat),
    Surveyed (holders t) (unmarshal e mem t o c b) b (survey e mem t o c b)
  | void, o, c, b => surveyed_plain rfl rfl rfl
  | scalar k, o, c, b => by
    cases hdec : c.decodeBase k.size with
    | none =>
      simp only [unmarshal, survey, hdec]
      exact surveyed_plain rfl rfl rfl
    | some bc =>
      simp only [unmarshal, survey, hdec]
      exact surveyed_plain rfl rfl rfl
  | pointer t, o, c, b => by
    rcases hdec : c.decodeBase 1 with - | ⟨bs, c'⟩
    · simp only [unmarshal, survey, hdec]
      exact surveyed_same
    · by_cases h0 : bs = [0]
      · simp only [unmarshal, survey, hdec, if_pos h0]
        exact surveyed_plain rfl rfl rfl
      · cases hm : mem b with
        | false =>
          simp only [unmarshal, survey, hdec, if_neg h0, hm, Bool.false_eq_true, if_false]
          exact surveyed_same
        | true =>
          simp only [unmarshal, survey, hdec, if_neg h0, hm, if_true]
          obtain ⟨hrest, hfill⟩ := unmarshal_surveyed e mem t (uninit t) c' (b + 1)
          exact ⟨Out.rest_addLen.trans hrest, fun h => (hfill h).cons (h := .ptr b) trivial rfl⟩
  | reference t, o, c, b => unmarshal_surveyed e mem t o c b
  | string, o, c, b => by
    rcases hdec : c.decodeBase 1 with - | ⟨bs, c'⟩
    · simp only [unmarshal, survey, hdec]
      exact surveyed_same
    · by_cases h0 : bs = [0]
      · simp only [unmarshal, survey, hdec, if_pos h0]
        exact surveyed_plain rfl rfl rfl
      · rcases hstr : c'.safeStrsize with x | n
        · simp only [unmarshal, survey, hdec, if_neg h0, hstr]
          exact surveyed_same
        · cases hm : mem b with
          | false =>
            simp only [unmarshal, survey, hdec, if_neg h0, hstr, hm, Bool.false_eq_true, if_false]
            exact surveyed_same
          | true =>
            simp only [unmarshal, survey, hdec, if_neg h0, hstr, hm, if_true]
            refine ⟨?_, fun _ => ?_⟩
            · rw [Out.rest_map, Out.rest_addLen, unmarshalBytes_rest]
            · rw [Out.next_map, Out.next_addLen, unmarshalBytes_next]
              exact .single (h := .ptr b) trivial rfl
  | struct fs, o, c, b => by
    cases o with
    | list os => exact unmarshalFields_surveyed e mem fs os c b
    | _ => exact surveyed_same
  | fixedBytes n, o, c, b => by
    cases o with
    | raw cells => exact surveyed_plain unmarshalBytes_rest unmarshalBytes_next rfl
    | _ => exact surveyed_same
  | varBytes max, o, c, b => by
    cases o with
    | var n vs =>
      cases vs with
      | raw cells =>
        rcases hdec : c.decodeBase 2 with - | ⟨bs, c'⟩
        · simp only [unmarshal, survey, hdec]
          exact surveyed_plain rfl rfl rfl
        · by_cases hmax : (e.val bs).toNat > max
          · simp only [unmarshal, survey, hdec, if_pos hmax]
            exact surveyed_plain rfl rfl rfl
          · simp only [unmarshal, survey, hdec, if_neg hmax]
            exact surveyed_plain (Out.rest_addLen.trans unmarshalBytes_rest) unmarshalBytes_next rfl
      | _ => exact surveyed_same
    | _ => exact surveyed_same
  | bytesWithNil max, o, c, b => by
    cases o with
    | raw cells =>
      rcases hstr : c.safeStrsize with x | n
      · simp only [unmarshal, survey, hstr]
        exact surveyed_plain rfl rfl rfl
      · by_cases hmax : n % 65536 > max
        · simp only [unmarshal, survey, hstr, if_pos hmax]
          exact surveyed_plain rfl rfl rfl
        · simp only [unmarshal, survey, hstr, if_neg hmax]
          exact surveyed_plain unmarshalBytes_rest unmarshalBytes_next rfl
    | _ => exact surveyed_same
  | dynamicBytes, o, c, b => by
    cases o with
    | dyn n a vs => exact unmarshalDyn_surveyed false fun _ => rfl
    | _ => exact surveyed_same
  | dynamicString, o, c, b => by
    cases o with
    | dyn n a vs => exact unmarshalDyn_surveyed true fun _ => rfl
    | _ => exact surveyed_same
  | fixedArray n t, o, c, b => by
    cases o with
    | list os => exact unmarshalElems_surveyed (unmarshal_surveyed e mem t) n.toNat os c b
    | _ => exact surveyed_same
  | varArray max t, o, c, b => by
    cases o with
    | var n vs =>
      cases vs with
      | list os =>
        rcases hdec : c.decodeBase 2 with - | ⟨bs, c'⟩
        · simp only [unmarshal, survey, hdec]
          exact surveyed_same
        · by_cases hmax : (e.val bs).toNat > max
          · simp only [unmarshal, survey, hdec, if_pos hmax]
            exact surveyed_same
          · simp only [unmarshal, survey, hdec, if_neg hmax]
            obtain ⟨hrest, hfill⟩ := unmarshalElems_surveyed (unmarshal_surveyed e mem t) (e.val bs).toNat os c' b
            exact ⟨Out.rest_addLen.trans hrest, hfill⟩
      | _ => exact surveyed_same
    | _ => exact surveyed_same
  | dynamicArray t, o, c, b => by
    cases o with
    | dyn n a vs =>
      rcases hdec : c.decodeBase 2 with - | ⟨bs, c'⟩
      · simp only [unmarshal, survey, hdec]
        exact surveyed_same
      · by_cases h0 : e.val bs = 0
        · simp only [unmarshal, survey, hdec, h0, if_true]
          exact ⟨rfl, fun h => filled_empty h (idle_array t)⟩
        · cases hm : mem b with
          | false =>
            simp only [unmarshal, survey, hdec, if_neg h0, hm, Bool.false_eq_true, if_false]
            exact ⟨rfl, fun h => filled_empty h (idle_array t)⟩
          | true =>
            simp only [unmarshal, survey, hdec, if_neg h0, hm, if_true]
            obtain ⟨hrest, hfill⟩ := unmarshalElems_surveyed (unmarshal_surveyed e mem t) (e.val bs).toNat
              (List.replicate (e.val bs).toNat (uninit t)) c' (b + 1)
            refine ⟨Out.rest_addLen.trans hrest, fun h => (hfill h).cons (h := .array (some (DynArray.head _))) ?_ rfl⟩
            refine ⟨_, rfl, (DynArray.Shape.mk_block (Nat.le_refl _) h0 ?_).head⟩
            exact (length_unmarshalElems (by simp)).trans List.length_replicate
    | _ => exact surveyed_same

theorem unmarshalFields_surveyed (e : Endian) (mem : Nat → Bool) :
    ∀ (fs : List TypeInfo) (os : List Obj) (c : Chain) (b : Nat),
      Surveyed (holdersFields fs) (unmarshalFields e mem fs os c b) b (surveyFields e mem fs os c b)
  | [], os, c, b => by
    rw [unmarshalFields, surveyFields]
    exact surveyed_plain rfl rfl rfl
  | f :: fs, [], c, b => surveyed_plain rfl rfl rfl
  | f :: fs, o :: os, c, b => by
    rw [unmarshalFields, surveyFields]
    exact (unmarshal_surveyed e mem f o c b).cons (fun _ _ => rfl) (fun c b => unmarshalFields_surveyed e mem fs os c b) rfl

end

end TypeInfo
end Aosl
