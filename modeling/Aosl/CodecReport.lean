import Aosl.Codec

/-!
# What becomes of an unknown type

A descriptor with an unknown `type_id` is an error where the codec comes to it. But `get_type_size` comes to it first
where it is the child of an array or of a pointer, directly or behind a `REFERENCE` or further arrays, and some branches
go to `__err` then with the `ret` that they find, which is not negative. `full` is the codec that goes on to the child
instead; the code reports what `full` comes to if it takes none of these branches. Where the last call takes one,
nothing is reported.
-/

namespace Aosl
open Lib Attempt Machine

namespace Codec

/-- `get_type_size` without the errors. -/
def sizeOrZero (A : Arch) (g : Table) (t : Nat) : Except Halt Nat :=
  match typeSize A g t with
  | .error (.err _) => .ok 0
  | r => r

section
variable {σ π : Type} {M N : Machine Halt σ π} {bad skips : π → σ → Prop} {p : π} {s : σ}

theorem negative_of_reached
    (hagree : ∀ q t, ¬ skips q t → (∀ x, ((M.enter q).run t).1 ≠ .error (.err x)) → (M.enter q).run t = (N.enter q).run t)
    (hbad : ∀ q t, bad q t → ∃ x, ((M.enter q).run t).1 = .error (.err x))
    (hskips : ∀ q t, M.Makes p s q t → ¬ skips q t) (hreached : ∃ q t, N.Makes p s q t ∧ bad q t) : Negative M p s := by
  by_contra hnot
  have hfine : ∀ q t, M.Makes p s q t → ∀ x, ((M.enter q).run t).1 ≠ .error (.err x) := fun q t hmakes x hq =>
    hnot ⟨x, fails_iff.2 ⟨q, t, hmakes, hq⟩⟩
  obtain ⟨q, t, hmakes, hq⟩ := hreached
  have hmakes' : M.Makes p s q t := makes_congr
    (fun r u hr => hagree r u (hskips r u hr) (hfine r u hr)) hmakes
  obtain ⟨x, hx⟩ := hbad q t hq
  exact hfine q t hmakes' x hx

/-- A call that skips something just returns, so that nothing is found if it is the last one. -/
theorem returns_of_last_skips (hret : ∀ q t, skips q t → ∃ len s', (M.enter q).run t = (.ok (len, noCall), s'))
    (hlast : ∃ q t, M.MakesLast p s q t ∧ skips q t) : (∃ s', M.Returns p s s') ∧ ¬ Negative M p s := by
  obtain ⟨q, t, hmakes, hq⟩ := hlast
  obtain ⟨len, s', hrun⟩ := hret q t hq
  have hreturns := returns_of_last hmakes hrun rfl
  exact ⟨⟨s', hreturns⟩, fun ⟨x, hx⟩ => hreturns.not_fails hx⟩

end

section
variable {σ : Type} {S : Tape σ} {A : Arch} {e : Endian} {mem : Nat → Bool} {G : Place → Mem σ → Garbage} {g : Table}
  {size size' : Nat → Except Halt Nat} {d : Desc} {p : Place} {s : Mem σ} {thisObjAddr : Nat} {b : Garbage}

/-- `_____unmarshal` with `sizeOrZero`. -/
def unmarshalFull (S : Tape σ) (A : Arch) (e : Endian) (mem : Nat → Bool) (G : Place → Mem σ → Garbage) (g : Table) :
    Machine Halt (Mem σ) Place := ⟨unmarshalEnter S A e mem G (sizeOrZero A g) g⟩

theorem unmarshalCase_size (h : size d.child = size' d.child) :
    unmarshalCase S A e mem size g b d p thisObjAddr = unmarshalCase S A e mem size' g b d p thisObjAddr := by
  unfold unmarshalCase
  rw [h]

/-- The size of the child is refused, and the code goes to `__err` with a `ret` that is not negative. -/
def DecodeSkips (S : Tape σ) (A : Arch) (G : Place → Mem σ → Garbage) (g : Table) (p : Place) (s : Mem σ) : Prop :=
  ∃ d x, g[p.desc]? = some d ∧ d.absent s.writes p.region (p.addr + d.objAddr) = false ∧
    typeSize A g d.child = .error (.err x) ∧
    (d.typeId = .fixedArray ∨ d.typeId = .varArray ∨
      d.typeId = .pointer ∧ ∃ bs s', (decodeHelper S (G p s)).run s = (.ok bs, s') ∧ bs ≠ [0])

theorem unmarshalEnter_skips (h : DecodeSkips S A G g p s) :
    ∃ len s', (unmarshalEnter S A e mem G (typeSize A g) g p).run s = (.ok (len, noCall), s') := by
  obtain ⟨d, x, hd, hhave, hsize, hk | hk | ⟨hk, bs, s', hrun, hne⟩⟩ := h <;>
    rw [unmarshalEnter_present hd hhave, unmarshalCase, hk] <;> dsimp only <;> rw [hsize]
  · exact ⟨0, s, rfl⟩
  · exact ⟨0, s, rfl⟩
  · refine ⟨1, { s' with psb := S.handBack s.psb s'.psb }, ?_⟩
    rw [bind_ok run_current, bind_ok hrun, if_neg hne]
    rfl

theorem unmarshalCase_agree {x : Err} (hsize : size d.child = .error (.err x)) (harray : d.typeId ≠ .fixedArray)
    (hvar : d.typeId ≠ .varArray)
    (hpointer : d.typeId = .pointer → ∀ bs s', (decodeHelper S b).run s = (.ok bs, s') → bs = [0])
    (hfine : ∀ x, ((unmarshalCase S A e mem size g b d p thisObjAddr).run s).1 ≠ .error (.err x)) :
    (unmarshalCase S A e mem size g b d p thisObjAddr).run s =
      (unmarshalCase S A e mem size' g b d p thisObjAddr).run s := by
  unfold unmarshalCase at hfine ⊢
  cases hk : d.typeId with
  | fixedArray => exact absurd hk harray
  | varArray => exact absurd hk hvar
  | pointer =>
    dsimp only
    rw [bind_ok run_current, bind_ok run_current]
    rcases hrun : (decodeHelper S b).run s with ⟨y | bs, s'⟩
    · rw [bind_error hrun, bind_error hrun]
    · rw [bind_ok hrun, bind_ok hrun, if_pos (hpointer hk bs s' hrun), if_pos (hpointer hk bs s' hrun)]
  | dynamicArray =>
    rw [hk] at hfine
    dsimp only at hfine ⊢
    rcases hbase : (decoder (Decoder.base S.toReader 2)).run s with ⟨y | bs, s₁⟩
    · rw [bind_error hbase, bind_error hbase]
    · rw [bind_ok hbase] at hfine ⊢
      rw [bind_ok hbase]
      by_cases hval : e.val bs = 0
      · rw [if_pos hval, if_pos hval]
      · rw [if_neg hval, hsize] at hfine
        exact absurd rfl (hfine x)
  | _ => rfl

theorem unmarshalEnter_agree (hskip : ¬ DecodeSkips S A G g p s)
    (hfine : ∀ x, ((unmarshalEnter S A e mem G (typeSize A g) g p).run s).1 ≠ .error (.err x)) :
    (unmarshalEnter S A e mem G (typeSize A g) g p).run s =
      (unmarshalEnter S A e mem G (sizeOrZero A g) g p).run s := by
  cases hd : g[p.desc]? with
  | none => rw [unmarshalEnter_none hd, unmarshalEnter_none hd]
  | some d =>
    cases hhave : d.absent s.writes p.region (p.addr + d.objAddr) with
    | true => rw [unmarshalEnter_absent hd hhave, unmarshalEnter_absent hd hhave]
    | false =>
      rw [unmarshalEnter_present hd hhave] at hfine ⊢
      rw [unmarshalEnter_present hd hhave]
      rcases hsize : typeSize A g d.child with (x | - | - | -) | n
      · refine unmarshalCase_agree hsize (fun hk => ?_) (fun hk => ?_) (fun hk bs s' hrun => ?_) hfine
        · exact hskip ⟨d, x, hd, hhave, hsize, .inl hk⟩
        · exact hskip ⟨d, x, hd, hhave, hsize, .inr (.inl hk)⟩
        · by_contra hne
          exact hskip ⟨d, x, hd, hhave, hsize, .inr (.inr ⟨hk, bs, s', hrun, hne⟩)⟩
      all_goals
        have hsame : typeSize A g d.child = sizeOrZero A g d.child := by rw [sizeOrZero, hsize]
        rw [unmarshalCase_size hsame]

end

section
variable {τ : Type} {S : Sink τ} {A : Arch} {e : Endian} {img : Image} {G : Spot → τ → Garbage} {g : Table}
  {size size' : Nat → Except Halt Nat} {d : Desc} {p : Spot} {s : τ} {thisObjAddr : Nat} {b : Garbage}

/-- `_____marshal` with `sizeOrZero`. -/
def marshalFull (S : Sink τ) (A : Arch) (e : Endian) (img : Image) (G : Spot → τ → Garbage) (g : Table) :
    Machine Halt τ Spot := ⟨marshalEnter S A e img G (sizeOrZero A g) g⟩

theorem marshalCase_size (h : size d.child = size' d.child) :
    marshalCase S A e img size g b d p thisObjAddr = marshalCase S A e img size' g b d p thisObjAddr := by
  unfold marshalCase
  rw [h]

/-- The size of the child is refused, and the code goes to `__err` with `ret = 0`. -/
def EncodeSkips (A : Arch) (g : Table) (p : Spot) : Prop :=
  ∃ d x, g[p.desc]? = some d ∧ d.absent [] .object (p.addr + d.objAddr) = false ∧
    typeSize A g d.child = .error (.err x) ∧ (d.typeId = .fixedArray ∨ d.typeId = .varArray)

theorem marshalEnter_skips (h : EncodeSkips A g p) :
    ∃ len s', (marshalEnter S A e img G (typeSize A g) g p).run s = (.ok (len, noCall), s') := by
  obtain ⟨d, x, hd, hhave, hsize, hk | hk⟩ := h <;>
    rw [marshalEnter_present hd hhave, marshalCase, hk] <;> dsimp only <;> rw [hsize]
  · exact ⟨0, s, rfl⟩
  · exact ⟨0, s, rfl⟩

theorem marshalCase_agree {x : Err} (hsize : size d.child = .error (.err x)) (harray : d.typeId ≠ .fixedArray)
    (hvar : d.typeId ≠ .varArray)
    (hfine : ∀ x, ((marshalCase S A e img size g b d p thisObjAddr).run s).1 ≠ .error (.err x)) :
    (marshalCase S A e img size g b d p thisObjAddr).run s =
      (marshalCase S A e img size' g b d p thisObjAddr).run s := by
  unfold marshalCase at hfine ⊢
  cases hk : d.typeId with
  | fixedArray => exact absurd hk harray
  | varArray => exact absurd hk hvar
  | dynamicArray =>
    rw [hk] at hfine
    dsimp only at hfine ⊢
    rcases henc : (encoder (S.encodeBase (e.bytes (img.count thisObjAddr)))).run s with ⟨y | u, s₁⟩
    · rw [bind_error henc, bind_error henc]
    · rw [bind_ok henc] at hfine ⊢
      rw [bind_ok henc]
      by_cases hval : img.count thisObjAddr = 0
      · rw [if_pos hval, if_pos hval]
      · rw [if_neg hval, hsize] at hfine
        exact absurd rfl (hfine x)
  | _ => rfl

theorem marshalEnter_agree (hskip : ¬ EncodeSkips A g p)
    (hfine : ∀ x, ((marshalEnter S A e img G (typeSize A g) g p).run s).1 ≠ .error (.err x)) :
    (marshalEnter S A e img G (typeSize A g) g p).run s =
      (marshalEnter S A e img G (sizeOrZero A g) g p).run s := by
  cases hd : g[p.desc]? with
  | none => rw [marshalEnter_none hd, marshalEnter_none hd]
  | some d =>
    cases hhave : d.absent [] .object (p.addr + d.objAddr) with
    | true => rw [marshalEnter_absent hd hhave, marshalEnter_absent hd hhave]
    | false =>
      rw [marshalEnter_present hd hhave] at hfine ⊢
      rw [marshalEnter_present hd hhave]
      rcases hsize : typeSize A g d.child with (x | - | - | -) | n
      · refine marshalCase_agree hsize (fun hk => ?_) (fun hk => ?_) hfine
        · exact hskip ⟨d, x, hd, hhave, hsize, .inl hk⟩
        · exact hskip ⟨d, x, hd, hhave, hsize, .inr hk⟩
      all_goals
        have hsame : typeSize A g d.child = sizeOrZero A g d.child := by rw [sizeOrZero, hsize]
        rw [marshalCase_size hsame]

end

section
variable {σ τ : Type} {A : Arch} {e : Endian} {g : Table}

/-- The place of an unknown type, which `is_have` does not exclude. -/
def UnknownPlace (g : Table) (p : Place) (s : Mem σ) : Prop :=
  ∃ d, g[p.desc]? = some d ∧ d.absent s.writes p.region (p.addr + d.objAddr) = false ∧ d.typeId = .unknown

def UnknownSpot (g : Table) (p : Spot) : Prop :=
  ∃ d, g[p.desc]? = some d ∧ d.absent [] .object (p.addr + d.objAddr) = false ∧ d.typeId = .unknown

/-- An unknown type that is come to is reported where no branch is taken that goes to `__err` with a `ret` that is not
negative. Where the last call takes one, nothing is. -/
theorem unknown_reported :
    (∀ (S : Tape σ) (mem : Nat → Bool) (G : Place → Mem σ → Garbage) (p : Place) (s : Mem σ),
      ((∀ q t, (unmarshal S A e mem G g).Makes p s q t → ¬ DecodeSkips S A G g q t) →
        (∃ q t, (unmarshalFull S A e mem G g).Makes p s q t ∧ UnknownPlace g q t) →
        Negative (unmarshal S A e mem G g) p s) ∧
      ((∃ q t, (unmarshal S A e mem G g).MakesLast p s q t ∧ DecodeSkips S A G g q t) →
        (∃ s', (unmarshal S A e mem G g).Returns p s s') ∧ ¬ Negative (unmarshal S A e mem G g) p s)) ∧
    (∀ (S : Sink τ) (img : Image) (G : Spot → τ → Garbage) (p : Spot) (s : τ),
      ((∀ q t, (marshal S A e img G g).Makes p s q t → ¬ EncodeSkips A g q) →
        (∃ q t, (marshalFull S A e img G g).Makes p s q t ∧ UnknownSpot g q) →
        Negative (marshal S A e img G g) p s) ∧
      ((∃ q t, (marshal S A e img G g).MakesLast p s q t ∧ EncodeSkips A g q) →
        (∃ s', (marshal S A e img G g).Returns p s s') ∧ ¬ Negative (marshal S A e img G g) p s)) := by
  constructor
  · intro S mem G p s
    refine ⟨negative_of_reached (fun q t => unmarshalEnter_agree) fun q t hq => ?_,
      returns_of_last_skips fun q t => unmarshalEnter_skips⟩
    obtain ⟨d, hd, hhave, hk⟩ := hq
    refine ⟨.einval, ?_⟩
    rw [unmarshal, unmarshalEnter_present hd hhave, unmarshalCase, hk]
    rfl
  · intro S img G p s
    refine ⟨negative_of_reached (fun q t => marshalEnter_agree) fun q t hq => ?_,
      returns_of_last_skips fun q t => marshalEnter_skips⟩
    obtain ⟨d, hd, hhave, hk⟩ := hq
    refine ⟨.einval, ?_⟩
    rw [marshal, marshalEnter_present hd hhave, marshalCase, hk]
    rfl

/-- No branch of this kind is in a table of a `REFERENCE` to an unknown type. -/
theorem unknown_reported_reference :
    let g : Table := [.plain .reference 0 1, .plain .unknown 0 0]
    let s : Mem Feed := ⟨⟨[], ⟨[], 0, none⟩, []⟩, [], []⟩
    Negative (unmarshal Feed.tape .lp64 .little (fun _ => true) (fun _ _ => .null) g) ⟨0, .object, 0⟩ s := by
  intro g s
  have hkind : ∀ d ∈ g, d.typeId = .reference ∨ d.typeId = .unknown := by decide
  refine ((unknown_reported (τ := Writer)).1 Feed.tape (fun _ => true) (fun _ _ => .null) ⟨0, .object, 0⟩ s).1 ?_ ?_
  · rintro q t - ⟨d, x, hd, -, -, hk⟩
    rcases hkind d (List.mem_of_getElem? hd) with h | h <;> simp [h] at hk
  · have henter : ((unmarshalFull Feed.tape .lp64 .little (fun _ => true) (fun _ _ => .null) g).enter
        ⟨0, .object, 0⟩).run s = (.ok (0, oneCall ⟨1, .object, 0 + 0⟩), s) := rfl
    exact ⟨⟨1, .object, 0⟩, s, .elem henter .nil rfl .self, .plain .unknown 0 0, rfl, rfl, rfl⟩

/-- An array of one element of an unknown type. -/
def unknowns : Table := [.plain .fixedArray 1 1, .plain .unknown 0 0]

/-- The code does not report it. -/
theorem unknowns_silent :
    (∃ q t, (unmarshalFull Feed.tape .lp64 .little (fun _ => true) (fun _ _ => .null) unknowns).Makes ⟨0, .object, 0⟩
      ⟨⟨[], ⟨[], 0, none⟩, []⟩, [], []⟩ q t ∧ UnknownPlace unknowns q t) ∧
    (∃ s', (unmarshal Feed.tape .lp64 .little (fun _ => true) (fun _ _ => .null) unknowns).Returns ⟨0, .object, 0⟩
      ⟨⟨[], ⟨[], 0, none⟩, []⟩, [], []⟩ s') ∧
    ¬ Negative (unmarshal Feed.tape .lp64 .little (fun _ => true) (fun _ _ => .null) unknowns) ⟨0, .object, 0⟩
      ⟨⟨[], ⟨[], 0, none⟩, []⟩, [], []⟩ := by
  obtain ⟨s, hs⟩ : ∃ s : Mem Feed, s = ⟨⟨[], ⟨[], 0, none⟩, []⟩, [], []⟩ := ⟨_, rfl⟩
  rw [← hs]
  constructor
  · have henter : ((unmarshalFull Feed.tape .lp64 .little (fun _ => true) (fun _ _ => .null) unknowns).enter
        ⟨0, .object, 0⟩).run s = (.ok (0, uint16Calls 1 fun i => ⟨1, .object, 0 + 0 + 0 * i % Arch.lp64.sizeMod⟩), s) := rfl
    exact ⟨⟨1, .object, 0⟩, s, .elem henter .nil rfl .self, .plain .unknown 0 0, rfl, rfl, rfl⟩
  · have hskips : DecodeSkips Feed.tape .lp64 (fun _ _ => .null) unknowns ⟨0, .object, 0⟩ s :=
      ⟨.plain .fixedArray 1 1, .einval, rfl, rfl, rfl, .inl rfl⟩
    exact returns_of_last_skips (fun q t => unmarshalEnter_skips) ⟨⟨0, .object, 0⟩, s, .self, hskips⟩

end

end Codec
end Aosl
