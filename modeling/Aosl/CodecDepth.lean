import Aosl.Codec
import Aosl.Lib.Rank

/-!
# Decoding comes to an end

The descriptors may lead back to themselves as long as each cycle goes through a `POINTER` or a `DYNAMIC_ARRAY`: the call
for one of these takes bytes from the chain before it makes others, so that the number of bytes left and the rank of the
descriptor among the other steps are a measure of the call. Elements of no bytes are no exception, as their number is
bounded by an `uint16_t`.
-/

namespace Aosl
open Lib Attempt Machine

/-- The calls for `t` may make a call for `t'`. -/
def Edge (g : Table) (t t' : Nat) : Prop := ∃ d, g[t]? = some d ∧
  match d.typeId with
  | .pointer | .reference | .fixedArray | .varArray | .dynamicArray => t' = d.child
  | .struct => t' ∈ members g d.child
  | _ => False

/-- No bytes are taken before that. -/
def Direct (g : Table) (t t' : Nat) : Prop :=
  Edge g t t' ∧ ∀ d, g[t]? = some d → d.typeId ≠ .pointer ∧ d.typeId ≠ .dynamicArray

/-- At least as many bytes a call takes before it makes others. -/
def TypeId.takes : TypeId → Nat
  | .pointer => 1
  | .dynamicArray => 2
  | _ => 0

/-- What a decoder does with the bytes: `size` of them are left. -/
structure Tape.Sized {σ : Type} (S : Tape σ) (size : σ → Nat) : Prop where
  base : ∀ n p, size (S.decodeBase n p).2 ≤ size p ∧ ∀ bs p', S.decodeBase n p = (some bs, p') → size p' + n ≤ size p
  bytes : ∀ n p, size (S.decodeBytes n p).2.2 ≤ size p
  strsize : ∀ p, size (S.safeStrsize p).2 ≤ size p
  handBack : ∀ p₀ p, size (S.handBack p₀ p) ≤ size p

/-! ## The bytes of a chain -/

namespace Feed

def bytesOf : List Psb → Nat
  | [] => 0
  | p :: ps => p.data.length + bytesOf ps

@[simp] theorem bytesOf_append (ps qs : List Psb) : bytesOf (ps ++ qs) = bytesOf ps + bytesOf qs := by
  induction ps with
  | nil => simp [bytesOf]
  | cons p ps ih => simp [bytesOf, ih, Nat.add_assoc]

def left (f : Feed) : Nat := bytesOf f.segs

theorem left_take (n : Nat) (gone : List Psb) (p : Psb) (qs : List Psb) :
    (take n gone p qs).2.2.left ≤ left ⟨gone, p, qs⟩ ∧
      ((take n gone p qs).2.1 = true → (take n gone p qs).2.2.left + n ≤ left ⟨gone, p, qs⟩) := by
  have hlen : p.psbLen ≤ p.data.length := Nat.mod_le ..
  induction qs generalizing n gone p with
  | nil =>
    simp only [take, left, segs, bytesOf_append, bytesOf, Psb.get, List.length_drop, beq_iff_eq]
    omega
  | cons q qs ih =>
    unfold take
    dsimp only
    split
    · simp only [left, segs, bytesOf_append, bytesOf, Psb.get, List.length_drop]
      omega
    · have hrest := ih (n - min p.psbLen n) (gone ++ [p.get (min p.psbLen n)]) q (Nat.mod_le ..)
      have hhere : left ⟨gone ++ [p.get (min p.psbLen n)], q, qs⟩ + min p.psbLen n = left ⟨gone, p, q :: qs⟩ := by
        simp only [left, segs, bytesOf_append, bytesOf, Psb.get, List.length_drop]
        omega
      rcases hq : take (n - min p.psbLen n) (gone ++ [p.get (min p.psbLen n)]) q qs with ⟨bs, all, f⟩
      rw [hq] at hrest
      refine ⟨by dsimp only at hrest ⊢; omega, fun h => ?_⟩
      have hall := hrest.2 h
      dsimp only at hall ⊢
      omega

theorem tape_sized : tape.Sized left where
  base n p := by
    show left (p.decodeBase n).2 ≤ left p ∧ ∀ bs p', p.decodeBase n = (some bs, p') → left p' + n ≤ left p
    unfold decodeBase
    split
    · have hget : left { p with psb := p.psb.get n } + n = left p := by
        simp only [left, segs, bytesOf_append, bytesOf, Psb.get, List.length_drop]
        omega
      refine ⟨by dsimp only; omega, fun bs p' h => ?_⟩
      obtain ⟨-, rfl⟩ := Prod.mk.inj h
      omega
    · have htake := left_take n p.gone p.psb p.next
      unfold decodeBytes
      rcases htaken : take n p.gone p.psb p.next with ⟨bs, - | -, f⟩ <;> rw [htaken] at htake
      · exact ⟨htake.1, fun _ _ h => by simp at h⟩
      · refine ⟨htake.1, fun _ _ h => ?_⟩
        obtain ⟨-, rfl⟩ := Prod.mk.inj h
        exact htake.2 rfl
  bytes n p := (left_take n p.gone p.psb p.next).1
  strsize p := Nat.le_refl _
  handBack p₀ p := by
    show left (handBack p₀ p) ≤ left p
    unfold handBack
    split
    · exact Nat.le_refl _
    · rename_i q qs hdrop
      rw [left, segs, ← hdrop, List.take_append_drop, left]

end Feed

namespace Codec

section
variable {σ α : Type} {S : Tape σ} {A : Arch} {e : Endian} {mem : Nat → Bool} {size : σ → Nat}

/-- The bytes left, whatever was written. -/
abbrev left (size : σ → Nat) : Mem σ → Nat := fun s => size s.psb

theorem uses_decoder {m : Decoder σ α} {n : Nat} (h : m.Uses (left size) n) : (decoder m).Uses (left size) n := by
  refine Uses.intro fun s => ?_
  obtain ⟨hle, hok⟩ := h s
  rcases hrun : m.run s with ⟨x | a, s₁⟩
  · obtain ⟨y, hy, -⟩ := decoder_error hrun
    exact .inr ⟨y, s₁, hy, by rwa [hrun] at hle⟩
  · exact .inl ⟨a, s₁, decoder_ok hrun, hok a s₁ hrun⟩

theorem uses_base (hS : S.Sized size) (n : Nat) : (Decoder.base S.toReader n).Uses (left size) n := by
  refine Uses.intro fun s => ?_
  obtain ⟨hle, hok⟩ := hS.base n s.psb
  rcases hrun : S.decodeBase n s.psb with ⟨- | bs, p⟩
  · exact .inr ⟨.emsgsize, { s with psb := p }, by simp only [Decoder.base, hrun], by rwa [hrun] at hle⟩
  · exact .inl ⟨bs, { s with psb := p }, by simp only [Decoder.base, hrun], hok bs p hrun⟩

theorem uses_copy (hS : S.Sized size) (r : Region) (offset n : Nat) :
    (Decoder.copy S.toReader r offset n).Uses (left size) 0 := by
  refine Uses.intro fun s => ?_
  have hle := hS.bytes n s.psb
  rcases hrun : S.decodeBytes n s.psb with ⟨bs, - | -, p⟩ <;> rw [hrun] at hle
  · exact .inr ⟨.emsgsize, _, by simp only [Decoder.copy, hrun]; rfl, hle⟩
  · exact .inl ⟨(), _, by simp only [Decoder.copy, hrun]; rfl, hle⟩

theorem uses_strsize (hS : S.Sized size) : (Decoder.strsize S.toReader).Uses (left size) 0 := by
  refine Uses.intro fun s => ?_
  have hle := hS.strsize s.psb
  rcases hrun : S.safeStrsize s.psb with ⟨x | n, p⟩ <;> rw [hrun] at hle
  · exact .inr ⟨x, { s with psb := p }, by simp only [Decoder.strsize, hrun], hle⟩
  · exact .inl ⟨n, { s with psb := p }, by simp only [Decoder.strsize, hrun], hle⟩

theorem uses_poke (r : Region) (offset : Nat) (d : Datum) : (Decoder.poke r offset d).Uses (left size) 0 :=
  Uses.intro fun _ => .inl ⟨(), _, rfl, Nat.le_refl _⟩

theorem uses_malloc {n extent : Nat} {undo : Decoder σ Unit} (hundo : undo.Uses (left size) 0) :
    (Decoder.malloc mem n extent undo).Uses (left size) 0 := by
  intro s
  have hgrant : Uses (left size) 0 (⟨fun s => (.ok s.blocks.length, { s with blocks := s.blocks ++ [⟨n, extent⟩] })⟩ :
      Decoder σ Nat) := Uses.intro fun s => .inl ⟨s.blocks.length, _, rfl, Nat.le_refl _⟩
  have hfail : Uses (left size) 0 (undo >>= fun _ => Attempt.fail .enomem : Decoder σ Nat) := hundo.bind_left fun _ => Uses.fail
  unfold Decoder.malloc
  dsimp only
  split
  · exact hgrant s
  · exact hfail s

theorem uses_setCount (r : Region) (offset : Nat) (count allocated : UInt16) :
    (TypeDesc.setCount e r offset count allocated : Decoder σ Unit).Uses (left size) 0 :=
  Uses.bind (uses_poke _ _ _) fun _ => uses_poke _ _ _

theorem uses_unmarshalDyn (hS : S.Sized size) (nul : Nat) (r : Region) (offset : Nat) :
    (TypeDesc.unmarshalDyn S.toReader A e mem nul r offset).Uses (left size) 2 := by
  unfold TypeDesc.unmarshalDyn
  refine Uses.bind_left (uses_base hS 2) fun bs => Uses.bind_left (uses_setCount _ _ _ _) fun _ => ?_
  split
  · exact Uses.pure
  · refine Uses.bind_left (uses_malloc (uses_setCount _ _ _ _)) fun k => Uses.bind_left (uses_poke _ _ _) fun _ => ?_
    exact Uses.bind_left (uses_copy hS _ _ _) fun _ => Uses.bind_left (uses_poke _ _ _) fun _ => Uses.pure

theorem uses_decodeHelper (hS : S.Sized size) (b : Garbage) : (decodeHelper S b).Uses (left size) 1 := by
  cases b with
  | null => exact uses_decoder (uses_base hS 1)
  | wild => exact Uses.fail

theorem uses_handBack (hS : S.Sized size) (p₀ : σ) : (handBack S p₀).Uses (left size) 0 :=
  Uses.intro fun s => .inl ⟨(), _, rfl, hS.handBack p₀ s.psb⟩

theorem uses_current : (current : Attempt Halt (Mem σ) σ).Uses (left size) 0 :=
  Uses.intro fun s => .inl ⟨s.psb, s, rfl, Nat.le_refl _⟩

theorem uses_unmarshalCase (hS : S.Sized size) (sizes : Nat → Except Halt Nat) (g : Table) (b : Garbage) (d : Desc)
    (p : Place) (thisObjAddr : Nat) :
    (unmarshalCase S A e mem sizes g b d p thisObjAddr).Uses (left size) d.typeId.takes := by
  unfold unmarshalCase
  have hbase : ∀ n, Uses (left size) 0 (decoder (Decoder.base S.toReader n)) := fun n =>
    (uses_decoder (uses_base hS n)).mono (Nat.zero_le n)
  have hpoke : ∀ r offset x, Uses (left size) 0 (decoder (Decoder.poke r offset x) : Attempt Halt (Mem σ) Unit) :=
    fun r offset x => uses_decoder (uses_poke r offset x)
  have hcopy : ∀ r offset n, Uses (left size) 0 (decoder (Decoder.copy S.toReader r offset n)) :=
    fun r offset n => uses_decoder (uses_copy hS r offset n)
  have hmalloc : ∀ n extent, Uses (left size) 0 (decoder (Decoder.malloc mem n extent (return) : Decoder σ Nat)) :=
    fun n extent => uses_decoder (uses_malloc Uses.pure)
  cases d.typeId with
  | void => exact Uses.pure
  | scalar k => exact (hbase _).bind_left fun bs => Uses.bind_left (hpoke _ _ _) fun _ => Uses.pure
  | pointer =>
    refine (Uses.bind uses_current fun psb => Uses.bind_left (uses_decodeHelper hS b) fun val => ?_).mono (Nat.le_refl 1)
    split
    · exact Uses.bind_left (hpoke _ _ _) fun _ => Uses.pure
    · split
      · exact (uses_handBack hS psb).bind_left fun _ => Uses.pure
      · exact Uses.fail
      · exact (hmalloc _ _).bind_left fun k => Uses.bind_left (hpoke _ _ _) fun _ => Uses.pure
  | reference => exact Uses.pure
  | string =>
    refine ((uses_decodeHelper hS b).mono (Nat.zero_le 1)).bind_left fun val => ?_
    split
    · exact Uses.bind_left (hpoke _ _ _) fun _ => Uses.pure
    · refine (uses_decoder (uses_strsize hS)).bind_left fun n => (hmalloc _ _).bind_left fun k => ?_
      exact Uses.bind_left (hpoke _ _ _) fun _ => Uses.bind_left (hcopy _ _ _) fun _ => Uses.pure
  | struct => exact Uses.pure
  | fixedBytes => exact Uses.bind_left (hcopy _ _ _) fun _ => Uses.pure
  | varBytes =>
    refine (hbase 2).bind_left fun bs => ?_
    split
    · exact Uses.fail
    · exact Uses.bind_left (hpoke _ _ _) fun _ => Uses.bind_left (hcopy _ _ _) fun _ => Uses.pure
  | bytesWithNil =>
    refine (uses_decoder (uses_strsize hS)).bind_left fun n => ?_
    split
    · exact Uses.fail
    · exact Uses.bind_left (hcopy _ _ _) fun _ => Uses.pure
  | dynamicBytes => exact ((uses_decoder (uses_unmarshalDyn hS 0 _ _)).mono (Nat.zero_le 2)).bind_left fun l => Uses.pure
  | dynamicString => exact ((uses_decoder (uses_unmarshalDyn hS 1 _ _)).mono (Nat.zero_le 2)).bind_left fun l => Uses.pure
  | fixedArray =>
    dsimp only
    split
    · exact Uses.pure
    · exact Uses.fail
    · exact Uses.pure
  | varArray =>
    dsimp only
    split
    · exact Uses.pure
    · exact Uses.fail
    · refine (hbase 2).bind_left fun bs => ?_
      split
      · exact Uses.fail
      · exact Uses.bind_left (hpoke _ _ _) fun _ => Uses.pure
  | dynamicArray =>
    refine (uses_decoder (uses_base hS 2)).bind_left fun bs => ?_
    refine Uses.bind_left (uses_decoder (uses_setCount _ _ _ _)) fun _ => ?_
    split
    · exact Uses.pure
    · split
      · exact Uses.bind_left (uses_decoder (uses_setCount _ _ _ _)) fun _ => Uses.fail
      · exact Uses.fail
      · refine Uses.bind_left (uses_decoder (uses_malloc (uses_setCount _ _ _ _))) fun k => ?_
        exact Uses.bind_left (hpoke _ _ _) fun _ => Uses.pure
  | unknown => exact Uses.fail

/-- Calls for the descriptors that `t` refers to, at most `turns` of them. -/
def Follow (g : Table) (turns t : Nat) (c : Calls Place) : Prop :=
  (∃ j ≤ turns, c.2 j = none) ∧ ∀ k q, c.2 k = some q → Edge g t q.desc

variable {g : Table} {turns t : Nat}

theorem follow_noCall {l : Nat} : Follow g turns t (l, noCall) := ⟨⟨0, Nat.zero_le _, rfl⟩, fun _ _ h => absurd h nofun⟩

theorem follow_oneCall {l : Nat} {q : Place} (hturns : 1 ≤ turns) (hq : Edge g t q.desc) :
    Follow g turns t (l, oneCall q) := by
  refine ⟨⟨1, hturns, rfl⟩, fun k r h => ?_⟩
  obtain - | k := k
  · obtain rfl := Option.some.inj h
    exact hq
  · exact absurd h nofun

theorem follow_uint16Calls {l n : Nat} {q : Nat → Place} (hn : n ≤ 65535) (hturns : 65535 ≤ turns)
    (hq : ∀ i, Edge g t (q i).desc) : Follow g turns t (l, uint16Calls n q) := by
  refine ⟨⟨n, Nat.le_trans hn hturns, ?_⟩, fun k r h => ?_⟩
  · dsimp only [uint16Calls]
    rw [Nat.mod_eq_of_lt (by omega), if_neg (Nat.lt_irrefl n)]
  · dsimp only [uint16Calls] at h
    split at h
    · obtain rfl := Option.some.inj h
      exact hq _
    · exact absurd h nofun

theorem length_members_le (g : Table) (child : Nat) : (members g child).length ≤ g.length + 1 := by
  refine Nat.le_trans (List.takeWhile_sublist _).length_le ?_
  rw [List.length_range']

theorem unmarshalCase_follow (sizes : Nat → Except Halt Nat) (b : Garbage) {d : Desc} (p : Place) (thisObjAddr : Nat)
    (hd : g[p.desc]? = some d) (hfixed : d.typeId = .fixedArray → d.arraySize.toNat ≤ 65535)
    (hturns : 65535 ≤ turns) (hlen : g.length + 1 ≤ turns) :
    (unmarshalCase S A e mem sizes g b d p thisObjAddr).Yields (Follow g turns p.desc) (fun _ => True) := by
  have hchild : ∀ k, d.typeId = k → k ∈ [TypeId.pointer, .reference, .fixedArray, .varArray, .dynamicArray] →
      Edge g p.desc d.child := by
    intro k hk hmem
    refine ⟨d, hd, ?_⟩
    simp only [List.mem_cons, List.not_mem_nil, or_false] at hmem
    obtain rfl | rfl | rfl | rfl | rfl := hmem <;> rw [hk]
  have hcount : ∀ bs, (e.val bs).toNat ≤ 65535 := fun bs => Nat.le_of_lt_succ (e.val bs).toNat_lt
  have hone : 1 ≤ turns := by omega
  unfold unmarshalCase
  cases hk : d.typeId with
  | void => exact Yields.pure follow_noCall
  | scalar k => exact (Yields.trivial _).bind fun _ _ => (Yields.trivial _).bind fun _ _ => Yields.pure follow_noCall
  | pointer =>
    refine (Yields.trivial _).bind fun psb _ => (Yields.trivial _).bind fun val _ => ?_
    split
    · exact (Yields.trivial _).bind fun _ _ => Yields.pure follow_noCall
    · split
      · exact (Yields.trivial _).bind fun _ _ => Yields.pure follow_noCall
      · exact Yields.fail True.intro
      · refine (Yields.trivial _).bind fun k _ => (Yields.trivial _).bind fun _ _ => ?_
        exact Yields.pure (follow_oneCall hone (hchild _ hk (by simp)))
  | reference => exact Yields.pure (follow_oneCall hone (hchild _ hk (by simp)))
  | string =>
    refine (Yields.trivial _).bind fun val _ => ?_
    split
    · exact (Yields.trivial _).bind fun _ _ => Yields.pure follow_noCall
    · refine (Yields.trivial _).bind fun n _ => (Yields.trivial _).bind fun k _ => (Yields.trivial _).bind fun _ _ => ?_
      exact (Yields.trivial _).bind fun _ _ => Yields.pure follow_noCall
  | struct =>
    refine Yields.pure ⟨⟨(members g d.child).length, Nat.le_trans (length_members_le g d.child) hlen, ?_⟩, fun k q h => ?_⟩
    · simp
    · obtain ⟨t, ht, rfl⟩ := Option.map_eq_some_iff.1 h
      refine ⟨d, hd, ?_⟩
      rw [hk]
      exact List.mem_of_getElem? ht
  | fixedBytes => exact (Yields.trivial _).bind fun _ _ => Yields.pure follow_noCall
  | varBytes =>
    refine (Yields.trivial _).bind fun bs _ => ?_
    split
    · exact Yields.fail True.intro
    · exact (Yields.trivial _).bind fun _ _ => (Yields.trivial _).bind fun _ _ => Yields.pure follow_noCall
  | bytesWithNil =>
    refine (Yields.trivial _).bind fun n _ => ?_
    split
    · exact Yields.fail True.intro
    · exact (Yields.trivial _).bind fun _ _ => Yields.pure follow_noCall
  | dynamicBytes => exact (Yields.trivial _).bind fun _ _ => Yields.pure follow_noCall
  | dynamicString => exact (Yields.trivial _).bind fun _ _ => Yields.pure follow_noCall
  | fixedArray =>
    dsimp only
    split
    · exact Yields.pure follow_noCall
    · exact Yields.fail True.intro
    · exact Yields.pure (follow_uint16Calls (hfixed hk) hturns fun _ => hchild _ hk (by simp))
  | varArray =>
    dsimp only
    split
    · exact Yields.pure follow_noCall
    · exact Yields.fail True.intro
    · refine (Yields.trivial _).bind fun bs _ => ?_
      split
      · exact Yields.fail True.intro
      · refine (Yields.trivial _).bind fun _ _ => ?_
        exact Yields.pure (follow_uint16Calls (hcount bs) hturns fun _ => hchild _ hk (by simp))
  | dynamicArray =>
    refine (Yields.trivial _).bind fun bs _ => (Yields.trivial _).bind fun _ _ => ?_
    split
    · exact Yields.pure follow_noCall
    · split
      · exact (Yields.trivial _).bind fun _ _ => Yields.fail True.intro
      · exact Yields.fail True.intro
      · refine (Yields.trivial _).bind fun k _ => (Yields.trivial _).bind fun _ _ => ?_
        exact Yields.pure (follow_uint16Calls (hcount bs) hturns fun _ => hchild _ hk (by simp))
  | unknown => exact Yields.fail True.intro

theorem unmarshalEnter_follow {G : Place → Mem σ → Garbage} {sizes : Nat → Except Halt Nat} (p : Place)
    (hfixed : ∀ d ∈ g, d.typeId = .fixedArray → d.arraySize.toNat ≤ 65535)
    (hturns : 65535 ≤ turns) (hlen : g.length + 1 ≤ turns) :
    (unmarshalEnter S A e mem G sizes g p).Yields (Follow g turns p.desc) (fun _ => True) := by
  refine Yields.of_runs fun s => ?_
  cases hd : g[p.desc]? with
  | none => exact ⟨Attempt.fail .wild, unmarshalEnter_none hd, Yields.fail True.intro⟩
  | some d =>
    cases hhave : d.absent s.writes p.region (p.addr + d.objAddr) with
    | true => exact ⟨pure (0, noCall), unmarshalEnter_absent hd hhave, Yields.pure follow_noCall⟩
    | false =>
      refine ⟨_, unmarshalEnter_present hd hhave, ?_⟩
      exact unmarshalCase_follow sizes _ p _ hd (hfixed d (List.mem_of_getElem? hd)) hturns hlen

theorem unmarshalEnter_uses (hS : S.Sized size) {G : Place → Mem σ → Garbage} {sizes : Nat → Except Halt Nat}
    (p : Place) (s : Mem σ) :
    size ((unmarshalEnter S A e mem G sizes g p).run s).2.psb ≤ size s.psb ∧
      ∀ c s' q k, (unmarshalEnter S A e mem G sizes g p).run s = (.ok c, s') → c.2 k = some q →
        ∀ d, g[p.desc]? = some d → size s'.psb + d.typeId.takes ≤ size s.psb := by
  cases hd : g[p.desc]? with
  | none =>
    rw [unmarshalEnter_none hd]
    exact ⟨Nat.le_refl _, fun _ _ _ _ h => absurd (congrArg Prod.fst h) nofun⟩
  | some d =>
    cases hhave : d.absent s.writes p.region (p.addr + d.objAddr) with
    | true =>
      rw [unmarshalEnter_absent hd hhave]
      refine ⟨Nat.le_refl _, fun c s' q k h hq => ?_⟩
      obtain rfl := Except.ok.inj (Prod.mk.inj h).1
      exact absurd hq nofun
    | false =>
      rw [unmarshalEnter_present hd hhave]
      have huses := @uses_unmarshalCase _ S A e mem _ hS sizes g (G p s) d p (p.addr + d.objAddr) s
      refine ⟨huses.1, fun c s' q k h hq d' hd' => ?_⟩
      obtain rfl := Option.some.inj hd'
      exact huses.2 c s' h

end

/-! ## `get_type_size` -/

section
variable {g : Table} {A : Arch} {n turns t : Nat}

theorem getTypeSize_ends (h : Ranked (Direct g) n) (hturns : rank (Direct g) n t < turns) :
    getTypeSize A g turns t ≠ .error .hangs := by
  induction turns generalizing t with
  | zero => exact absurd hturns (Nat.not_lt_zero _)
  | succ turns ih =>
    rw [getTypeSize]
    cases hd : g[t]? with
    | none => exact nofun
    | some d =>
      have hchild : ∀ k, d.typeId = k → k ∈ [TypeId.reference, .fixedArray, .varArray] →
          getTypeSize A g turns d.child ≠ .error .hangs := by
        intro k hk hmem
        have hedge : Direct g t d.child := by
          simp only [List.mem_cons, List.not_mem_nil, or_false] at hmem
          refine ⟨⟨d, hd, ?_⟩, fun d' hd' => ?_⟩
          · obtain rfl | rfl | rfl := hmem <;> rw [hk]
          · obtain rfl := Option.some.inj (hd.symm.trans hd')
            obtain rfl | rfl | rfl := hmem <;> rw [hk] <;> decide
        have hlt := h.rank_decreases hedge
        exact ih (by omega)
      dsimp only
      cases hk : d.typeId with
      | reference => exact hchild _ hk (by simp)
      | fixedArray | varArray =>
        have hne := hchild _ hk (by simp)
        intro heq
        cases hsize : getTypeSize A g turns d.child with
        | error x =>
          rw [hsize] at hne heq
          exact hne heq
        | ok size =>
          rw [hsize] at heq
          exact absurd heq nofun
      | _ => exact nofun

theorem edge_lt {t' : Nat} (h : Edge g t t') : t < g.length := by
  obtain ⟨d, hd, -⟩ := h
  exact (List.getElem?_eq_some_iff.1 hd).1

theorem typeSize_ends (hcycles : ∀ t, ¬ Relation.TransGen (Direct g) t t) (t : Nat) : typeSize A g t ≠ .error .hangs := by
  have h : Ranked (Direct g) (g.length + 1) := ⟨hcycles, chain_length_le fun _ _ h => edge_lt h.1⟩
  exact getTypeSize_ends h (h.rank_lt t)

end

/-! ## The measure -/

section
variable {A : Arch} {e : Endian} {mem : Nat → Bool} {G : Place → Mem Feed → Garbage} {g : Table} {L : Nat}

/-- Taking bytes weighs more than all steps that take none. -/
noncomputable def weight (g : Table) (L : Nat) (p : Place) (s : Mem Feed) : Nat :=
  s.psb.left * L + rank (Direct g) L p.desc

theorem unmarshal_follow (hfixed : ∀ d ∈ g, d.typeId = .fixedArray → d.arraySize.toNat ≤ 65535) (p : Place) :
    ((unmarshal Feed.tape A e mem G g).enter p).Yields (Follow g (max 65535 (g.length + 1)) p.desc)
      (fun _ => True) :=
  unmarshalEnter_follow p hfixed (Nat.le_max_left _ _) (Nat.le_max_right _ _)

theorem unmarshal_descends (hcycles : ∀ t, ¬ Relation.TransGen (Direct g) t t)
    (hfixed : ∀ d ∈ g, d.typeId = .fixedArray → d.arraySize.toNat ≤ 65535)
    (hL : ∀ l : List Nat, l.IsChain (Edge g) → l.Nodup → l.length ≤ L) :
    (unmarshal Feed.tape A e mem G g).Descends (left Feed.left) (weight g L) (max 65535 (g.length + 1)) := by
  have hranked : Ranked (Direct g) L := ⟨hcycles, fun l hl => hL l (hl.imp fun _ _ h => h.1)⟩
  have hfollow := @unmarshal_follow A e mem G g hfixed
  refine ⟨fun p s => (unmarshalEnter_uses Feed.tape_sized p s).1, fun p s len next s' h => ((hfollow p).1 s _ s' h).1, ?_⟩
  intro p s len next s' h k q hq t ht
  have hedge := ((hfollow p).1 s _ s' h).2 k q hq
  obtain ⟨d, hd, -⟩ := id hedge
  have htakes := (unmarshalEnter_uses Feed.tape_sized p s).2 _ s' q k h hq d hd
  have hrank := hranked.rank_lt q.desc
  unfold weight
  dsimp only [left] at ht
  by_cases hdirect : Direct g p.desc q.desc
  · have hlt := hranked.rank_decreases hdirect
    have hmul := Nat.mul_le_mul_right L (show t.psb.left ≤ s.psb.left by omega)
    omega
  · have hone : 1 ≤ d.typeId.takes := by
      by_contra hzero
      refine hdirect ⟨hedge, fun d' hd' => ?_⟩
      obtain rfl := Option.some.inj (hd.symm.trans hd')
      constructor
      · intro hk
        exact hzero (by rw [hk]; decide)
      · intro hk
        exact hzero (by rw [hk]; decide)
    have hmul := Nat.mul_le_mul_right L (show t.psb.left + 1 ≤ s.psb.left by omega)
    rw [Nat.add_mul, Nat.one_mul] at hmul
    omega

/-- Loops of at most `turns` turns and calls at most `depth` deep are enough. -/
def EndsWithin {σ π : Type} (M : Machine Halt σ π) (turns depth : Nat) (p : π) (s : σ) : Prop :=
  ((M.call turns depth p).run s).1 ≠ .error .spins ∧ ((M.call turns depth p).run s).1 ≠ .error (.fail .hangs)

/-- A descriptor table in which each cycle goes through a `POINTER` or a `DYNAMIC_ARRAY`, and any chain: with `left`
bytes in it and at most `L` descriptors on a path without a repetition, `(left + 1) * L` calls are inside each other at
most. -/
theorem unmarshal_terminates (hcycles : ∀ t, ¬ Relation.TransGen (Direct g) t t)
    (hfixed : ∀ d ∈ g, d.typeId = .fixedArray → d.arraySize.toNat ≤ 65535)
    (hL : ∀ l : List Nat, l.IsChain (Edge g) → l.Nodup → l.length ≤ L) (p : Place) (s : Mem Feed) :
    EndsWithin (unmarshal Feed.tape A e mem G g) (max 65535 (g.length + 1)) ((s.psb.left + 1) * L) p s := by
  have hranked : Ranked (Direct g) L := ⟨hcycles, fun l hl => hL l (hl.imp fun _ _ h => h.1)⟩
  have hdepth : weight g L p s < (s.psb.left + 1) * L := by
    have hlt := hranked.rank_lt p.desc
    rw [weight, Nat.add_mul, Nat.one_mul]
    omega
  constructor
  · exact (call_ends (unmarshal_descends hcycles hfixed hL) hdepth).1
  · intro hout
    obtain ⟨q, t, -, hq⟩ := fails_iff.1 ⟨_, _, _, Prod.ext hout rfl⟩
    have herrors : ((unmarshal Feed.tape A e mem G g).enter q).Yields (fun _ => True) (· ≠ .hangs) := by
      refine unmarshalEnter_errors (fun _ => nofun) nofun (fun t x hx heq => ?_) fun _ _ => nofun
      exact typeSize_ends hcycles t (heq ▸ hx)
    exact herrors.2 t _ _ (Prod.ext hq rfl) rfl

/-- A list of numbers, whose last descriptor leads back to the second. -/
def numbers : Table :=
  [.plain .pointer 0 1, .plain .struct 0 2, .plain (.scalar .int32) 0 0, .plain .pointer 0 1, .plain .void 0 0]

theorem numbers_direct {t t' : Nat} (h : Direct numbers t t') : t < t' := by
  obtain ⟨⟨d, hd, hedge⟩, hdirect⟩ := h
  have hlt : t < 5 := (List.getElem?_eq_some_iff.1 hd).1
  have hkind := hdirect d hd
  obtain rfl | rfl | rfl | rfl | rfl : t = 0 ∨ t = 1 ∨ t = 2 ∨ t = 3 ∨ t = 4 := by omega
  · obtain rfl := Option.some.inj hd
    exact absurd rfl hkind.1
  · obtain rfl := Option.some.inj hd
    have hmem : t' ∈ [2, 3] := hedge
    simp only [List.mem_cons, List.not_mem_nil, or_false] at hmem
    omega
  · obtain rfl := Option.some.inj hd
    exact hedge.elim
  · obtain rfl := Option.some.inj hd
    exact absurd rfl hkind.1
  · obtain rfl := Option.some.inj hd
    exact hedge.elim

/-- 7 and 8. -/
def twoNumbers : Mem Feed := ⟨⟨[], ⟨[1, 7, 0, 0, 0, 1, 8, 0, 0, 0, 0], 0, none⟩, []⟩, [], []⟩

theorem unmarshal_terminates_numbers :
    EndsWithin (unmarshal Feed.tape .lp64 .little (fun _ => true) (fun _ _ => .null) numbers)
      (max 65535 (numbers.length + 1)) ((twoNumbers.psb.left + 1) * 6) ⟨0, .object, 0⟩ twoNumbers := by
  refine unmarshal_terminates (L := 6) (fun t ht => ?_) (fun d hd => ?_) ?_ _ _
  · have hlt : ∀ a b, Relation.TransGen (Direct numbers) a b → a < b := fun a b hab => by
      induction hab with
      | single h => exact numbers_direct h
      | tail _ h ih => exact Nat.lt_trans ih (numbers_direct h)
    exact Nat.lt_irrefl t (hlt t t ht)
  · simp only [numbers, List.mem_cons, List.not_mem_nil, or_false] at hd
    obtain rfl | rfl | rfl | rfl | rfl := hd <;> exact nofun
  · exact chain_length_le fun a b (h : Edge numbers a b) => edge_lt h

end

end Codec
end Aosl
