import Aosl.MarshalFini

/-!
# Cleaning up after a successful decoding

When the whole object has been decoded, nothing is left as `aosl_malloc` returned it. What remains is the length of the
dynamic strings: the one with 65535 bytes has the `allocated` of an empty one.
-/

namespace Aosl
open Lib

namespace TypeInfo

/-- `n` elements in a chain, with what a decoder of one leaves. -/
def eachElem (good : Chain → Nat → Bool) (scan : Chain → Nat → Scan) : Nat → Chain → Nat → Bool
  | 0, _, _ => true
  | n + 1, c, b => good c b && match (scan c b).rest with
    | none => true
    | some (c', b') => eachElem good scan n c' b'

mutual

/-- The dynamic strings that a decoder comes to have at most 65534 bytes. -/
def shortStrings (e : Endian) (mem : Nat → Bool) : TypeInfo → Chain → Nat → Bool
  | pointer t, c, b => match c.decodeBase 1 with
    | none => true
    | some (bs, c) => bs = [0] || shortStrings e mem t c (b + 1)
  | reference t, c, b => shortStrings e mem t c b
  | struct fs, c, b => shortFields e mem fs c b
  | dynamicString, c, _ => match c.decodeBase 2 with
    | none => true
    | some (bs, _) => (e.val bs).toNat ≤ 65534
  | fixedArray n t, c, b => eachElem (shortStrings e mem t) (scan e mem t true) n.toNat c b
  | varArray _ t, c, b => match c.decodeBase 2 with
    | none => true
    | some (bs, c) => eachElem (shortStrings e mem t) (scan e mem t true) (e.val bs).toNat c b
  | dynamicArray t, c, b => match c.decodeBase 2 with
    | none => true
    | some (bs, c) => eachElem (shortStrings e mem t) (scan e mem t true) (e.val bs).toNat c (b + 1)
  | _, _, _ => true

def shortFields (e : Endian) (mem : Nat → Bool) : List TypeInfo → Chain → Nat → Bool
  | [], _, _ => true
  | f :: fs, c, b => shortStrings e mem f c b && match (scan e mem f true c b).rest with
    | none => true
    | some (c', b') => shortFields e mem fs c' b'

end

/-- Where the decoding ends does not depend on the object, and if it ends the strings decide about the clean-up. -/
structure Ends (s s' : Scan) (short : Bool) : Prop where
  rest : s.rest = s'.rest
  tidy : s.rest ≠ none → s.tidy = short

section
variable {e : Endian} {mem : Nat → Bool} {t : TypeInfo} {ready : Bool}

theorem Ends.none {x y short : Bool} : Ends ⟨x, none⟩ ⟨y, .none⟩ short := ⟨rfl, fun h => absurd rfl h⟩

theorem Ends.plain {x : Option (Chain × Nat)} : Ends ⟨true, x⟩ ⟨true, x⟩ true := ⟨rfl, fun _ => rfl⟩

theorem Ends.cons {s s' : Scan} {short u v : Bool} {k k' : Chain → Nat → Scan} {shortk : Chain → Nat → Bool}
    (hs : Ends s s' short) (hk : ∀ c b, Ends (k c b) (k' c b) (shortk c b)) :
    Ends (match s.rest with
      | .none => ⟨s.tidy && u, .none⟩
      | some (c, b) => ⟨s.tidy && (k c b).tidy, (k c b).rest⟩)
    (match s'.rest with
      | .none => ⟨s'.tidy && v, .none⟩
      | some (c, b) => ⟨s'.tidy && (k' c b).tidy, (k' c b).rest⟩)
    (short && match s'.rest with
      | .none => true
      | some (c, b) => shortk c b) := by
  rw [hs.rest]
  cases hr : s'.rest with
  | none => exact Ends.none
  | some cb =>
    obtain ⟨c, b⟩ := cb
    refine ⟨(hk c b).rest, fun hne => ?_⟩
    show (s.tidy && (k c b).tidy) = (short && shortk c b)
    rw [hs.tidy (by rw [hs.rest, hr]; nofun), (hk c b).tidy hne]

theorem scanElems_ends (ht : ∀ c b, Ends (scan e mem t ready c b) (scan e mem t true c b) (shortStrings e mem t c b))
    {u v : Nat → Bool} (n : Nat) (c : Chain) (b : Nat) :
    Ends (scanElems (scan e mem t ready) u n c b) (scanElems (scan e mem t true) v n c b)
      (eachElem (shortStrings e mem t) (scan e mem t true) n c b) := by
  induction n generalizing c b with
  | zero => exact Ends.plain
  | succ n ih =>
    rw [scanElems, scanElems, eachElem]
    exact (ht c b).cons ih

theorem scanDyn_ends {nul : Nat} {short : Bool} {c : Chain} {b : Nat}
    (hshort : ∀ bs c', c.decodeBase 2 = some (bs, c') → (e.val bs).toNat + nul ≠ 0 →
      (e.val bs + UInt16.ofNat nul != 0) = short)
    (hzero : ∀ bs c', c.decodeBase 2 = some (bs, c') → (e.val bs).toNat + nul = 0 → short = true) :
    Ends (scanDyn e mem nul ready c b) (scanDyn e mem nul true c b) short := by
  unfold scanDyn
  rcases hdec : c.decodeBase 2 with - | ⟨bs, c'⟩
  · exact Ends.none
  · dsimp only
    split
    case isTrue h0 =>
      rw [hzero bs c' hdec h0]
      exact Ends.plain
    case isFalse h0 =>
      split
      · exact ⟨rfl, fun _ => hshort bs c' hdec h0⟩
      · exact Ends.none

mutual

theorem scan_ends (e : Endian) (mem : Nat → Bool) : ∀ (t : TypeInfo) (ready : Bool) (c : Chain) (b : Nat),
    Ends (scan e mem t ready c b) (scan e mem t true c b) (shortStrings e mem t c b)
  | void, _, _, _ => Ends.plain
  | scalar _, _, _, _ => Ends.plain
  | pointer t, ready, c, b => by
    rcases hdec : c.decodeBase 1 with - | ⟨bs, c'⟩
    · simp only [scan, shortStrings, hdec]
      exact Ends.none
    · by_cases h0 : bs = [0]
      · simp only [scan, shortStrings, hdec, if_pos h0, decide_eq_true h0, Bool.true_or]
        exact Ends.plain
      · simp only [scan, shortStrings, hdec, if_neg h0, decide_eq_false h0, Bool.false_or]
        split
        · have h := scan_ends e mem t false c' (b + 1)
          exact ⟨rfl, h.tidy⟩
        · exact Ends.none
  | reference t, ready, c, b => by
    simp only [scan, shortStrings]
    exact scan_ends e mem t ready c b
  | string, ready, c, b => by
    rcases hdec : c.decodeBase 1 with - | ⟨bs, c'⟩
    · simp only [scan, hdec]
      exact Ends.none
    · simp only [scan, shortStrings, hdec]
      split
      · exact Ends.plain
      · split
        · exact Ends.none
        · split
          · exact Ends.plain
          · exact Ends.none
  | struct fs, ready, c, b => by
    simp only [scan, shortStrings]
    exact scanFields_ends e mem fs ready c b
  | fixedBytes _, _, _, _ => Ends.plain
  | varBytes max, ready, c, b => by
    rcases hdec : c.decodeBase 2 with - | ⟨bs, c'⟩
    · simp only [scan, hdec]
      exact Ends.none
    · simp only [scan, shortStrings, hdec]
      exact Ends.plain
  | bytesWithNil max, ready, c, b => by
    cases hstr : c.safeStrsize with
    | error x =>
      simp only [scan, hstr]
      exact Ends.none
    | ok n =>
      simp only [scan, shortStrings, hstr]
      exact Ends.plain
  | dynamicBytes, ready, c, b => by
    refine scanDyn_ends (fun bs c' _ hne => ?_) fun _ _ _ _ => rfl
    have hne0 : e.val bs + UInt16.ofNat 0 ≠ 0 := fun h0 => hne (by
      have hz : e.val bs = 0 := by simpa using h0
      rw [hz]
      rfl)
    exact bne_iff_ne.2 hne0
  | dynamicString, ready, c, b => by
    refine scanDyn_ends (fun bs c' hdec _ => ?_) fun bs c' _ h0 => absurd h0 (Nat.succ_ne_zero _)
    simp only [shortStrings, hdec]
    rw [Bool.eq_iff_iff, bne_iff_ne, decide_eq_true_eq, ne_eq, ← UInt16.toNat_inj]
    have hlt := (e.val bs).toNat_lt
    rw [UInt16.toNat_add]
    show ¬((e.val bs).toNat + 1) % 65536 = 0 ↔ _
    omega
  | fixedArray n t, ready, c, b => by
    simp only [scan, shortStrings]
    exact scanElems_ends (scan_ends e mem t ready) n.toNat c b
  | varArray max t, ready, c, b => by
    rcases hdec : c.decodeBase 2 with - | ⟨bs, c'⟩
    · simp only [scan, hdec]
      exact Ends.none
    · simp only [scan, shortStrings, hdec]
      split
      · exact Ends.none
      · have h := scanElems_ends (u := fun k => k == 0 || !owns t) (v := fun k => k == 0 || !owns t)
          (scan_ends e mem t false) (e.val bs).toNat c' b
        exact ⟨rfl, h.tidy⟩
  | dynamicArray t, ready, c, b => by
    rcases hdec : c.decodeBase 2 with - | ⟨bs, c'⟩
    · simp only [scan, hdec]
      exact Ends.none
    · simp only [scan, shortStrings, hdec]
      split
      case isTrue h0 =>
        rw [h0]
        exact Ends.plain
      case isFalse =>
        split
        · have h := scanElems_ends (u := fun k => k == 0 || !owns t) (v := fun k => k == 0 || !owns t)
            (scan_ends e mem t false) (e.val bs).toNat c' (b + 1)
          exact ⟨rfl, h.tidy⟩
        · exact Ends.none

theorem scanFields_ends (e : Endian) (mem : Nat → Bool) : ∀ (fs : List TypeInfo) (ready : Bool) (c : Chain) (b : Nat),
    Ends (scanFields e mem fs ready c b) (scanFields e mem fs true c b) (shortFields e mem fs c b)
  | [], _, _, _ => Ends.plain
  | f :: fs, ready, c, b => by
    simp only [scanFields, shortFields]
    exact (scan_ends e mem f ready c b).cons (scanFields_ends e mem fs ready)

end

end

/-! ## A second clean-up -/

theorem finiElems_again {fini : Obj → Option (Obj × List Nat)}
    (hfini : ∀ {o o' : Obj} {fs : List Nat}, fini o = some (o', fs) → fini o' = some (o', [])) {n : Nat}
    {os os' : List Obj} {fs : List Nat} (h : finiElems fini n os = some (os', fs)) :
    finiElems fini n os' = some (os', []) := by
  induction n generalizing os os' fs with
  | zero =>
    rw [finiElems]
  | succ n ih =>
    cases os with
    | nil => exact absurd h.symm (Option.some_ne_none _)
    | cons o os =>
      obtain ⟨⟨o', gs⟩, ho, h⟩ := Option.bind_eq_some_iff.1 h
      obtain ⟨⟨os'', hs⟩, hos, heq⟩ := Option.map_eq_some_iff.1 h
      cases heq
      rw [finiElems, hfini ho, Option.bind_some, ih hos]
      rfl

theorem finiBytes_again {o o' : Obj} {fs : List Nat} (h : finiTypedObj.finiBytes o = some (o', fs)) :
    finiTypedObj.finiBytes o' = some (o', []) := by
  unfold finiTypedObj.finiBytes at h
  split at h
  · obtain ⟨gs, -, heq⟩ := Option.map_eq_some_iff.1 h
    cases heq
    rfl
  · exact absurd h nofun

mutual

/-- `smart_fini_typed_obj` leaves nothing for the next one. -/
theorem fini_again : ∀ {t : TypeInfo} {o o' : Obj} {fs : List Nat},
    finiTypedObj t o = some (o', fs) → finiTypedObj t o' = some (o', [])
  | void, _, _, _, h | scalar _, _, _, _, h | fixedBytes _, _, _, _, h | varBytes _, _, _, _, h
  | bytesWithNil _, _, _, _, h => by
    cases h
    rfl
  | pointer t, o, o', fs, h => by
    cases o with
    | null =>
      cases h
      rfl
    | ptr b o =>
      obtain ⟨⟨o₁, gs⟩, ho, heq⟩ := Option.map_eq_some_iff.1 h
      cases heq
      rfl
    | _ => exact absurd h nofun
  | reference t, _, _, _, h => by
    rw [finiTypedObj] at h ⊢
    exact fini_again h
  | string, o, _, _, h => by
    obtain ⟨gs, hgs, heq⟩ := Option.map_eq_some_iff.1 h
    cases heq
    rfl
  | struct ts, o, _, _, h => by
    cases o with
    | list os =>
      obtain ⟨⟨os', gs⟩, hos, heq⟩ := Option.map_eq_some_iff.1 h
      cases heq
      rw [finiTypedObj, finiFields_again hos]
      rfl
    | _ => exact absurd h nofun
  | dynamicBytes, _, _, _, h | dynamicString, _, _, _, h => finiBytes_again h
  | fixedArray n t, o, _, _, h => by
    cases o with
    | list os =>
      obtain ⟨⟨os', gs⟩, hos, heq⟩ := Option.map_eq_some_iff.1 h
      cases heq
      rw [finiTypedObj, finiElems_again fini_again hos]
      rfl
    | _ => exact absurd h nofun
  | varArray max t, o, _, _, h => by
    cases o with
    | var n vs =>
      cases n with
      | none => exact absurd h nofun
      | some n =>
        cases vs with
        | list os =>
          obtain ⟨⟨os', gs⟩, hos, heq⟩ := Option.map_eq_some_iff.1 h
          cases heq
          rfl
        | _ => exact absurd h nofun
    | _ => exact absurd h nofun
  | dynamicArray t, o, o', fs, h => by
    have hempty : o' = .dyn (some 0) (some 0) .null := by
      unfold finiTypedObj at h
      split at h
      all_goals grind [Option.map_eq_some_iff]
    rw [hempty]
    rfl

theorem finiFields_again : ∀ {ts : List TypeInfo} {os os' : List Obj} {fs : List Nat},
    finiFields ts os = some (os', fs) → finiFields ts os' = some (os', [])
  | [], os, os', fs, h => by
    rw [finiFields] at h
    · cases h
      rw [finiFields]
      nofun
    · nofun
  | t :: ts, [], _, _, h => by
    cases h
    rfl
  | t :: ts, o :: os, _, _, h => by
    obtain ⟨⟨o', gs⟩, ho, h⟩ := Option.bind_eq_some_iff.1 h
    obtain ⟨⟨os', hs⟩, hos, heq⟩ := Option.map_eq_some_iff.1 h
    cases heq
    rw [finiFields, fini_again ho, Option.bind_some, finiFields_again hos]
    rfl

end

/-- After a decoding that succeeded, `aosl_fini_typed_obj` frees the blocks of it, each of them once, and nothing else;
called once more it frees nothing. -/
theorem fini_unmarshal {e : Endian} {mem : Nat → Bool} {t : TypeInfo} {c c' : Chain} {b l : Nat} {r : Out Obj}
    (hr : r = unmarshal e mem t (initTypedObj t (uninit t)) c b) (hok : r.res = .ok (l, c'))
    (hshort : shortStrings e mem t c b = true) :
    ∃ o fs, finiTypedObj t r.obj = some (o, fs) ∧ fs.Perm (List.range' b (r.next - b)) ∧
      finiTypedObj t o = some (o, []) := by
  have hrest : (scan e mem t true c b).rest ≠ none := by
    rw [← (unmarshal_agrees e mem t true c b).1]
    show (unmarshal e mem t (initTypedObj t (uninit t)) c b).rest ≠ none
    rw [← hr, Out.rest, hok]
    exact Option.some_ne_none _
  have htidy : (scan e mem t true c b).tidy = true := by
    rw [(scan_ends e mem t true c b).tidy hrest, hshort]
  obtain ⟨o, fs, hfini, hperm⟩ := (cleansUp_unmarshal_iff e mem t c b).2 htidy
  rw [← hr] at hfini hperm
  exact ⟨o, fs, hfini, hperm, fini_again hfini⟩

/-- Bytes behind a pointer, and two dynamic strings in an array. -/
theorem fini_unmarshal_strings :
    let t := struct [pointer dynamicBytes, dynamicArray dynamicString]
    let r := unmarshal .little (fun _ => true) t (initTypedObj t (uninit t))
      ⟨⟨[1, 1, 0, 65, 2, 0, 1, 0, 66], 0, none⟩, [⟨[0, 0], 0, none⟩]⟩ 7
    ∃ o fs, finiTypedObj t r.obj = some (o, fs) ∧ fs.Perm [7, 8, 9, 10, 11] ∧ finiTypedObj t o = some (o, []) := by
  intro t r
  exact fini_unmarshal (r := r) (l := 11) rfl rfl rfl

end TypeInfo

end Aosl
