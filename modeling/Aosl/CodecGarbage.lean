import Aosl.Codec

/-!
# What the presence byte depends on

`_____marshal` and `_____unmarshal` code the presence byte of a `POINTER` or a `STRING` by a call with a local descriptor
of which only `type_id` and `obj_addr` are set. Two runs that differ in nothing but what is in such descriptors by
chance are the same if and only if no such call is made.
-/

namespace Aosl
open Lib Attempt Machine

namespace Codec

section
variable {σ π : Type} {M : (π → σ → Garbage) → Machine Halt σ π} {codes : π → σ → Prop} {p : π} {s : σ}

/-- `M` looks at the garbage for the calls in `codes` and for no others, and goes astray unless it is `NULL`. -/
theorem same_iff (hsame : ∀ G G' q t, ¬ codes q t → ((M G).enter q).run t = ((M G').enter q).run t)
    (hnull : ∀ q t, (((M fun _ _ => .null).enter q).run t).1 ≠ .error .strays)
    (hwild : ∀ q t, codes q t → (((M fun _ _ => .wild).enter q).run t).1 = .error .strays) :
    (∀ G G' turns depth, ((M G).call turns depth p).run s = ((M G').call turns depth p).run s) ↔
      ∀ q t, (M fun _ _ => .null).Makes p s q t → ¬ codes q t := by
  constructor
  · intro h q t hmakes hcodes
    by_cases hfirst : ∃ r u, (M fun _ _ => .wild).Makes p s r u ∧ codes r u
    · obtain ⟨r, u, hr, hcode⟩ := hfirst
      obtain ⟨turns, depth, s', hfail⟩ := fails_iff.2 ⟨r, u, hr, hwild r u hcode⟩
      rw [h _ fun _ _ => .null] at hfail
      obtain ⟨r', u', -, hstray⟩ := fails_iff.1 ⟨turns, depth, s', hfail⟩
      exact hnull r' u' hstray
    · have hnone : ∀ r u, (M fun _ _ => .wild).Makes p s r u → ¬ codes r u := fun r u hr hcode => hfirst ⟨r, u, hr, hcode⟩
      exact hnone q t (makes_congr (fun r u hr => hsame _ _ r u (hnone r u hr)) hmakes) hcodes
  · intro h G G' turns depth
    have hrun : ∀ G, ((M fun _ _ => .null).call turns depth p).run s = ((M G).call turns depth p).run s := fun G =>
      call_congr fun q t hmakes => hsame _ _ q t (h q t hmakes)
    exact (hrun G).symm.trans (hrun G')

end

theorem typeSize_not_strays {A : Arch} {g : Table} {t : Nat} {x : Halt} (h : typeSize A g t = .error x) : x ≠ .strays := by
  unfold typeSize at h
  generalize g.length + 1 = turns at h
  induction turns generalizing t x with
  | zero =>
    obtain rfl := Except.error.inj h
    exact nofun
  | succ turns ih =>
    rw [getTypeSize] at h
    cases hd : g[t]? with
    | none =>
      rw [hd] at h
      obtain rfl := Except.error.inj h
      exact nofun
    | some d =>
      rw [hd] at h
      dsimp only at h
      cases hk : d.typeId with
      | reference =>
        rw [hk] at h
        exact ih h
      | fixedArray | varArray =>
        rw [hk] at h
        dsimp only at h
        cases hsize : getTypeSize A g turns d.child with
        | error y =>
          rw [hsize] at h
          obtain rfl := Except.error.inj h
          exact ih hsize
        | ok size =>
          rw [hsize] at h
          exact absurd h nofun
      | unknown =>
        rw [hk] at h
        obtain rfl := Except.error.inj h
        exact nofun
      | _ =>
        rw [hk] at h
        exact absurd h nofun

/-- A call for a `POINTER` or a `STRING`, and `is_have` does not exclude it. -/
def DecodesPresence {σ : Type} (g : Table) (p : Place) (s : Mem σ) : Prop :=
  ∃ d, g[p.desc]? = some d ∧ d.absent s.writes p.region (p.addr + d.objAddr) = false ∧
    (d.typeId = .pointer ∨ d.typeId = .string)

def EncodesPresence (g : Table) (p : Spot) : Prop :=
  ∃ d, g[p.desc]? = some d ∧ d.absent [] .object (p.addr + d.objAddr) = false ∧
    (d.typeId = .pointer ∨ d.typeId = .string)

section
variable {σ : Type} {S : Tape σ} {A : Arch} {e : Endian} {mem : Nat → Bool} {size : Nat → Except Halt Nat} {g : Table}
  {d : Desc} {p : Place} {thisObjAddr : Nat}

theorem unmarshalCase_garbage (hpointer : d.typeId ≠ .pointer) (hstring : d.typeId ≠ .string) (b b' : Garbage) :
    unmarshalCase S A e mem size g b d p thisObjAddr = unmarshalCase S A e mem size g b' d p thisObjAddr := by
  unfold unmarshalCase
  cases hk : d.typeId with
  | pointer => exact absurd hk hpointer
  | string => exact absurd hk hstring
  | _ => rfl

theorem unmarshalCase_strays (h : d.typeId = .pointer ∨ d.typeId = .string) (s : Mem σ) :
    (unmarshalCase S A e mem size g .wild d p thisObjAddr).run s = (.error .strays, s) := by
  unfold unmarshalCase
  obtain hk | hk := h
  · rw [hk]
    exact bind_ok run_current
  · rw [hk]
    exact bind_error rfl

theorem unmarshalEnter_garbage {s : Mem σ} (h : ¬ DecodesPresence g p s) (G G' : Place → Mem σ → Garbage) :
    (unmarshalEnter S A e mem G size g p).run s = (unmarshalEnter S A e mem G' size g p).run s := by
  cases hd : g[p.desc]? with
  | none => rw [unmarshalEnter_none hd, unmarshalEnter_none hd]
  | some d =>
    cases hhave : d.absent s.writes p.region (p.addr + d.objAddr) with
    | true => rw [unmarshalEnter_absent hd hhave, unmarshalEnter_absent hd hhave]
    | false =>
      rw [unmarshalEnter_present hd hhave, unmarshalEnter_present hd hhave]
      rw [unmarshalCase_garbage (fun hk => h ⟨d, hd, hhave, .inl hk⟩) fun hk => h ⟨d, hd, hhave, .inr hk⟩]

theorem unmarshalEnter_null (p : Place) :
    (unmarshalEnter S A e mem (fun _ _ => .null) (typeSize A g) g p).Yields (fun _ => True) (· ≠ .strays) := by
  refine unmarshalEnter_errors ?_ ?_ (fun t x hx => typeSize_not_strays hx) fun s hb => ?_
  · exact fun _ => nofun
  · exact nofun
  · exact absurd hb nofun

theorem unmarshalEnter_strays {s : Mem σ} (h : DecodesPresence g p s) :
    ((unmarshalEnter S A e mem (fun _ _ => .wild) size g p).run s).1 = .error .strays := by
  obtain ⟨d, hd, hhave, hk⟩ := h
  rw [unmarshalEnter_present hd hhave, unmarshalCase_strays hk]

end

section
variable {τ : Type} {S : Sink τ} {A : Arch} {e : Endian} {img : Image} {size : Nat → Except Halt Nat} {g : Table}
  {d : Desc} {p : Spot} {thisObjAddr : Nat}

theorem marshalCase_garbage (hpointer : d.typeId ≠ .pointer) (hstring : d.typeId ≠ .string) (b b' : Garbage) :
    marshalCase S A e img size g b d p thisObjAddr = marshalCase S A e img size g b' d p thisObjAddr := by
  unfold marshalCase
  cases hk : d.typeId with
  | pointer => exact absurd hk hpointer
  | string => exact absurd hk hstring
  | _ => rfl

theorem marshalCase_strays (h : d.typeId = .pointer ∨ d.typeId = .string) (s : τ) :
    (marshalCase S A e img size g .wild d p thisObjAddr).run s = (.error .strays, s) := by
  unfold marshalCase
  obtain hk | hk := h
  · rw [hk]
    exact bind_error rfl
  · rw [hk]
    exact bind_error rfl

theorem marshalEnter_garbage {s : τ} (h : ¬ EncodesPresence g p) (G G' : Spot → τ → Garbage) :
    (marshalEnter S A e img G size g p).run s = (marshalEnter S A e img G' size g p).run s := by
  cases hd : g[p.desc]? with
  | none => rw [marshalEnter_none hd, marshalEnter_none hd]
  | some d =>
    cases hhave : d.absent [] .object (p.addr + d.objAddr) with
    | true => rw [marshalEnter_absent hd hhave, marshalEnter_absent hd hhave]
    | false =>
      rw [marshalEnter_present hd hhave, marshalEnter_present hd hhave]
      rw [marshalCase_garbage (fun hk => h ⟨d, hd, hhave, .inl hk⟩) fun hk => h ⟨d, hd, hhave, .inr hk⟩]

theorem marshalEnter_null (p : Spot) :
    (marshalEnter S A e img (fun _ _ => .null) (typeSize A g) g p).Yields (fun _ => True) (· ≠ .strays) := by
  refine marshalEnter_errors ?_ ?_ (fun t x hx => typeSize_not_strays hx) fun s hb => ?_
  · exact fun _ => nofun
  · exact nofun
  · exact absurd hb nofun

theorem marshalEnter_strays {s : τ} (h : EncodesPresence g p) :
    ((marshalEnter S A e img (fun _ _ => .wild) size g p).run s).1 = .error .strays := by
  obtain ⟨d, hd, hhave, hk⟩ := h
  rw [marshalEnter_present hd hhave, marshalCase_strays hk]

end

section
variable {σ τ : Type} {A : Arch} {e : Endian} {g : Table}

/-- Neither run depends on the garbage if and only if no `POINTER` or `STRING` is come to, where the garbage is `NULL`. -/
theorem same_runs_iff :
    (∀ (S : Tape σ) (mem : Nat → Bool) (p : Place) (s : Mem σ),
      (∀ G G' turns depth, ((unmarshal S A e mem G g).call turns depth p).run s =
        ((unmarshal S A e mem G' g).call turns depth p).run s) ↔
      ∀ q t, (unmarshal S A e mem (fun _ _ => .null) g).Makes p s q t → ¬ DecodesPresence g q t) ∧
    (∀ (S : Sink τ) (img : Image) (p : Spot) (s : τ),
      (∀ G G' turns depth, ((marshal S A e img G g).call turns depth p).run s =
        ((marshal S A e img G' g).call turns depth p).run s) ↔
      ∀ q t, (marshal S A e img (fun _ _ => .null) g).Makes p s q t → ¬ EncodesPresence g q) := by
  constructor
  · intro S mem p s
    refine same_iff (fun G G' q t h => unmarshalEnter_garbage h G G') (fun q t h => ?_) fun q t => unmarshalEnter_strays
    exact (unmarshalEnter_null q).2 t _ _ (Prod.ext h rfl) rfl
  · intro S img p s
    refine same_iff (fun G G' q t h => marshalEnter_garbage h G G') (fun q t h => ?_) fun q t => marshalEnter_strays
    exact (marshalEnter_null q).2 t _ _ (Prod.ext h rfl) rfl

/-- A `STRING` that is `NULL`: its one byte is decoded in one run, and the other calls a function at some address. -/
theorem string_strays :
    ((unmarshal Feed.tape .lp64 .little (fun _ => true) (fun _ _ => .null) [.plain .string 0 0]).call 0 1
      ⟨0, .object, 0⟩).run ⟨⟨[], ⟨[0], 0, none⟩, []⟩, [], []⟩ =
      (.ok 1, ⟨⟨[], ⟨[], 0, none⟩, []⟩, [⟨.object, 0, .ptr none⟩], []⟩) ∧
    ((unmarshal Feed.tape .lp64 .little (fun _ => true) (fun _ _ => .wild) [.plain .string 0 0]).call 0 1
      ⟨0, .object, 0⟩).run ⟨⟨[], ⟨[0], 0, none⟩, []⟩, [], []⟩ =
      (.error (.fail .strays), ⟨⟨[], ⟨[0], 0, none⟩, []⟩, [], []⟩) := by
  constructor <;> rfl

end

end Codec
end Aosl
