import Aosl.MarshalFini
import Aosl.MarshalMem

/-!
# Where `_____unmarshal` writes

A descriptor fits into a number of bytes if all that it places lies there, and the elements of arrays and the targets
of pointers in what `get_type_size` says. `unmarshal_within` finds every write of a decoder inside the storage of the
object or inside a block of the call, provided that each block was allocated with the size that is used for the copy.
The product in `aosl_malloc (obj_size * val)` is a `size_t`, so this holds as long as no dynamic array is larger than
`SIZE_MAX`.
-/

namespace Aosl
open Lib Attempt

variable {A : Arch} {e : Endian} {mem : Nat → Bool}

/-- `n` bytes at an offset of a region. -/
abbrev Places := Region → Nat → Nat → Prop

def span (r : Region) (lo hi : Nat) : Places := fun r' x n => r' = r ∧ lo ≤ x ∧ x + n ≤ hi

def Write.At (w : Write) (A : Arch) (P : Places) : Prop := P w.region w.offset (w.datum.size A)

/-- The write lies in one of the blocks `bs`, the first of which is the `k`-th of the call. -/
def Write.InBlock (w : Write) (A : Arch) (k : Nat) (bs : List Block) : Prop :=
  ∃ j b, w.region = .block (k + j) ∧ bs[j]? = some b ∧ w.offset + w.datum.size A ≤ b.size

def Exact (bs : List Block) : Prop := ∀ b ∈ bs, b.size = b.extent

/-- What is written goes to `P` or to the new blocks, if these have the size that they are used with. -/
def Within (A : Arch) (P : Places) (s s' : Mem Feed) : Prop :=
  ∃ ws bs, s'.writes = s.writes ++ ws ∧ s'.blocks = s.blocks ++ bs ∧
    (Exact bs → ∀ w ∈ ws, w.At A P ∨ w.InBlock A s.blocks.length bs)

namespace Within
variable {P Q : Places} {s s' s'' : Mem Feed}

theorem refl (s : Mem Feed) : Within A P s s :=
  ⟨[], [], (List.append_nil _).symm, (List.append_nil _).symm, fun _ _ hw => absurd hw (List.not_mem_nil)⟩

theorem trans (h : Within A P s s') (h' : Within A P s' s'') : Within A P s s'' := by
  obtain ⟨ws, bs, hw, hb, hin⟩ := h
  obtain ⟨ws', bs', hw', hb', hin'⟩ := h'
  refine ⟨ws ++ ws', bs ++ bs', by rw [hw', hw, List.append_assoc], by rw [hb', hb, List.append_assoc], ?_⟩
  intro hex w hmem
  rcases List.mem_append.1 hmem with hmem | hmem
  · rcases hin (fun b hb => hex b (List.mem_append_left _ hb)) w hmem with hP | ⟨j, b, hr, hj, hle⟩
    · exact .inl hP
    · have hlt : j < bs.length := (List.getElem?_eq_some_iff.1 hj).1
      exact .inr ⟨j, b, hr, by rw [List.getElem?_append_left hlt, hj], hle⟩
  · rcases hin' (fun b hb => hex b (List.mem_append_right _ hb)) w hmem with hP | ⟨j, b, hr, hj, hle⟩
    · exact .inl hP
    · refine .inr ⟨bs.length + j, b, ?_, ?_, hle⟩
      · rw [hr, hb, List.length_append, Nat.add_assoc]
      · rw [List.getElem?_append_right (Nat.le_add_right ..), Nat.add_sub_cancel_left, hj]

theorem mono (hPQ : ∀ r x n, P r x n → Q r x n) (h : Within A P s s') : Within A Q s s' := by
  obtain ⟨ws, bs, hw, hb, hin⟩ := h
  exact ⟨ws, bs, hw, hb, fun hex w hmem => (hin hex w hmem).imp_left (hPQ _ _ _)⟩

theorem write {p : Feed} {ws : List Write} (h : ∀ w ∈ ws, w.At A P) :
    Within A P s { s with psb := p, writes := s.writes ++ ws } :=
  ⟨ws, [], rfl, (List.append_nil _).symm, fun _ w hw => .inl (h w hw)⟩

theorem feed {p : Feed} : Within A P s { s with psb := p } :=
  ⟨[], [], (List.append_nil _).symm, (List.append_nil _).symm, fun _ _ hw => absurd hw (List.not_mem_nil)⟩

end Within

/-! ## The steps of a decoder -/

namespace Feed

theorem length_take_le (n : Nat) (gone : List Psb) (p : Psb) (qs : List Psb) : (take n gone p qs).1.length ≤ n := by
  induction qs generalizing n gone p with
  | nil =>
    show (p.data.take (min p.psbLen n)).length ≤ n
    rw [List.length_take]
    omega
  | cons q qs ih =>
    unfold take
    dsimp only
    split
    · rw [List.length_take]
      omega
    · have h := ih (n - min p.psbLen n) (gone ++ [p.get (min p.psbLen n)]) q
      rw [List.length_append, List.length_take]
      omega

theorem length_take {n : Nat} {gone : List Psb} {p : Psb} {qs : List Psb} {bs : List UInt8} {f : Feed}
    (h : take n gone p qs = (bs, true, f)) : bs.length = n := by
  induction qs generalizing n gone p bs with
  | nil =>
    simp only [take, Prod.mk.injEq, beq_iff_eq] at h
    have hle : p.psbLen ≤ p.data.length := Nat.mod_le ..
    rw [← h.1, List.length_take]
    omega
  | cons q qs ih =>
    have hle : p.psbLen ≤ p.data.length := Nat.mod_le ..
    unfold take at h
    dsimp only at h
    split at h
    · cases h
      rw [List.length_take]
      omega
    · rcases hq : take (n - min p.psbLen n) (gone ++ [p.get (min p.psbLen n)]) q qs with ⟨bs', all, f'⟩
      rw [hq] at h
      cases h
      have hlen : bs'.length = n - min p.psbLen n := ih hq
      show (p.data.take (min p.psbLen n) ++ bs').length = n
      rw [List.length_append, List.length_take]
      omega

theorem length_decodeBase {n : Nat} {f f' : Feed} {bs : List UInt8} (h : f.decodeBase n = (some bs, f')) :
    bs.length = n := by
  unfold decodeBase at h
  split at h
  · next hle =>
    cases h
    rw [List.length_take]
    omega
  · rcases hq : f.decodeBytes n with ⟨bs', all, f''⟩
    rw [hq] at h
    cases all with
    | false => cases h
    | true =>
      cases h
      exact length_take hq

end Feed

namespace Decoder
variable {σ β : Type} {P : Places} {r : Region} {offset n : Nat}

theorem run_base_none {s : Mem Feed} {p : Feed} (h : Feed.decodeBase n s.psb = (none, p)) :
    (base Feed.reader n).run s = (.error .emsgsize, { s with psb := p }) := by
  simp only [base, Feed.reader, h]

theorem run_base_some {s : Mem Feed} {bs : List UInt8} {p : Feed} (h : Feed.decodeBase n s.psb = (some bs, p)) :
    (base Feed.reader n).run s = (.ok bs, { s with psb := p }) := by
  simp only [base, Feed.reader, h]

theorem keeps_base {f : List UInt8 → Decoder Feed β} (hf : ∀ bs, bs.length = n → Keeps (Within A P) (f bs)) :
    Keeps (Within A P) (base Feed.reader n >>= f) := by
  intro s
  rcases hdec : Feed.decodeBase n s.psb with ⟨- | bs, p⟩
  · rw [bind_error (run_base_none hdec)]
    exact Within.feed
  · rw [bind_ok (run_base_some hdec)]
    exact Within.feed.trans (hf bs (Feed.length_decodeBase hdec) _)

theorem keeps_strsize : Keeps (Within A P) (strsize Feed.reader) := fun _ => Within.feed

theorem keeps_poke {d : Datum} (h : P r offset (d.size A)) : Keeps (Within A P) (poke r offset d) :=
  fun _ => Within.write fun _ hw => List.mem_singleton.1 hw ▸ h

theorem keeps_copy (h : ∀ m ≤ n, P r offset m) : Keeps (Within A P) (copy Feed.reader r offset n) :=
  fun s => Within.write fun _ hw => List.mem_singleton.1 hw ▸
    h _ (Feed.length_take_le n s.psb.gone s.psb.psb s.psb.next)

theorem keeps_fail {x : Err} : Keeps (Within A P) (fail x : Decoder Feed β) := Keeps.fail Within.refl

theorem keeps_pure {a : β} : Keeps (Within A P) (pure a : Decoder Feed β) := Keeps.pure Within.refl

theorem keeps_bind {α : Type} {m : Decoder Feed α} {f : α → Decoder Feed β} (hm : Keeps (Within A P) m)
    (hf : ∀ a, Keeps (Within A P) (f a)) : Keeps (Within A P) (m >>= f) :=
  Keeps.bind Within.trans hm hf

theorem malloc_granted {size extent : Nat} {undo : Decoder σ Unit} {s : Mem σ} (h : mem s.blocks.length = true) :
    (malloc mem size extent undo).run s =
      (.ok s.blocks.length, { s with blocks := s.blocks ++ [⟨size, extent⟩] }) := by
  simp only [malloc, h, if_true]

theorem malloc_refused (size extent : Nat) (undo : Decoder σ Unit) {s : Mem σ} (h : mem s.blocks.length = false) :
    ∃ x, (malloc mem size extent undo).run s = (.error x, (undo.run s).2) := by
  simp only [malloc, h, Bool.false_eq_true, if_false]
  rw [run_bind]
  rcases undo.run s with ⟨x | a, s'⟩
  · exact ⟨x, rfl⟩
  · exact ⟨.enomem, rfl⟩

theorem keeps_malloc {size extent : Nat} {undo : Decoder Feed Unit} {f : Nat → Decoder Feed β}
    (hundo : Keeps (Within A P) undo)
    (hf : ∀ k, Keeps (Within A fun r x n => P r x n ∨ span (.block k) 0 extent r x n) (f k)) :
    Keeps (Within A P) (malloc mem size extent undo >>= f) := by
  intro s
  cases hm : mem s.blocks.length with
  | false =>
    obtain ⟨x, hrun⟩ := malloc_refused size extent undo hm
    rw [bind_error hrun]
    exact hundo s
  | true =>
    rw [bind_ok (malloc_granted hm)]
    obtain ⟨ws, bs, hw, hb, hin⟩ := hf s.blocks.length { s with blocks := s.blocks ++ [⟨size, extent⟩] }
    refine ⟨ws, ⟨size, extent⟩ :: bs, hw, by rw [hb, List.append_assoc, List.singleton_append], ?_⟩
    intro hex w hmem
    have hsize : size = extent := hex _ (List.mem_cons_self ..)
    rcases hin (fun b hb => hex b (List.mem_cons_of_mem _ hb)) w hmem with (hP | ⟨hr, -, hle⟩) | ⟨j, b, hr, hj, hle⟩
    · exact .inl hP
    · exact .inr ⟨0, ⟨size, extent⟩, hr, rfl, hsize ▸ hle⟩
    · refine .inr ⟨j + 1, b, ?_, hj, hle⟩
      rw [hr, List.length_append]
      show Region.block (s.blocks.length + 1 + j) = _
      rw [Nat.add_right_comm, Nat.add_assoc]

theorem keeps_elems {decode : Nat → Decoder Feed Nat} {N : Nat} (h : ∀ i < N, Keeps (Within A P) (decode i)) (n i : Nat)
    (hn : i + n ≤ N) : Keeps (Within A P) (elems decode n i) := by
  induction n generalizing i with
  | zero => exact keeps_pure
  | succ n ih =>
    rw [elems]
    exact keeps_bind (h i (by omega)) fun _ => keeps_bind (ih (i + 1) (by omega)) fun _ => keeps_pure

end Decoder

namespace TypeDesc
open Decoder

mutual

/-- All that the descriptor places lies in `size` bytes. -/
def Fits (A : Arch) : TypeDesc → Nat → Prop
  | void, _ => True
  | scalar a k, size => a + k.size ≤ size
  | pointer a c, size => a + A.ptrSize ≤ size ∧ Fits A c (getTypeSize A c)
  | reference a c, size => a ≤ size ∧ Fits A c (size - a)
  | string a, size => a + A.ptrSize ≤ size
  | struct a n fs, size => a + n ≤ size ∧ FitsAll A fs n
  | fixedBytes a n, size | bytesWithNil a n, size => a + n ≤ size
  | varBytes a n count, size => a + n ≤ size ∧ count + 2 ≤ size
  | dynamicBytes a, size | dynamicString a, size => a + 2 * A.ptrSize ≤ size
  | fixedArray a n c, size =>
    a + getTypeSize A c * n.toNat ≤ size ∧ getTypeSize A c * n.toNat < A.sizeMod ∧ Fits A c (getTypeSize A c)
  | varArray a n count c, size =>
    (a + getTypeSize A c * n ≤ size ∧ count + 2 ≤ size) ∧ getTypeSize A c * n < A.sizeMod ∧ Fits A c (getTypeSize A c)
  | dynamicArray a c, size => a + 2 * A.ptrSize ≤ size ∧ Fits A c (getTypeSize A c)

def FitsAll (A : Arch) : List TypeDesc → Nat → Prop
  | [], _ => True
  | f :: fs, size => Fits A f size ∧ FitsAll A fs size

end

section
variable {r : Region} {p size : Nat}

theorem four_le_ptrSize (A : Arch) : 4 ≤ A.ptrSize := by cases A <;> decide

theorem keeps_setCount {offset lo hi : Nat} {count allocated : UInt16} (hlo : lo ≤ offset) (hhi : offset + 4 ≤ hi) :
    Keeps (Within A (span r lo hi)) (setCount e r offset count allocated) := by
  unfold setCount
  refine keeps_bind (keeps_poke ⟨rfl, hlo, ?_⟩) fun _ => keeps_poke ⟨rfl, by omega, ?_⟩
  · show offset + (e.bytes count).length ≤ hi
    rw [Endian.length_bytes]
    omega
  · show offset + 2 + (e.bytes allocated).length ≤ hi
    rw [Endian.length_bytes]
    omega

theorem keeps_dyn {nul offset : Nat} (hlo : p ≤ offset) (hhi : offset + 2 * A.ptrSize ≤ p + size) :
    Keeps (Within A (span r p (p + size))) (unmarshalDyn Feed.reader A e mem nul r offset) := by
  have h4 := four_le_ptrSize A
  unfold unmarshalDyn
  refine keeps_base fun bs _ => keeps_bind (keeps_setCount hlo (by omega)) fun _ => ?_
  split
  · exact keeps_pure
  · refine keeps_malloc (keeps_setCount hlo (by omega)) fun k => ?_
    refine keeps_bind (keeps_poke (.inl ⟨rfl, by omega, ?_⟩)) fun _ => ?_
    · show offset + A.ptrSize + A.ptrSize ≤ p + size
      omega
    refine keeps_bind (keeps_copy fun m hm => .inr ⟨rfl, by omega, by omega⟩) fun _ => ?_
    refine keeps_bind (keeps_poke (.inr ⟨rfl, by omega, ?_⟩)) fun _ => keeps_pure
    have hlen : (List.replicate nul (0 : UInt8)).length = nul := List.length_replicate
    show (e.val bs).toNat + (List.replicate nul 0).length ≤ (e.val bs).toNat + nul
    omega

theorem keeps_count {count : Nat} {val : UInt16} (h : count + 2 ≤ size) :
    Keeps (Within A (span r p (p + size))) (poke r (p + count) (.bytes (e.bytes val))) := by
  refine keeps_poke ⟨rfl, by omega, ?_⟩
  show p + count + (e.bytes val).length ≤ p + size
  rw [Endian.length_bytes]
  omega

theorem span_elem {a l n i : Nat} (hi : i < n) (ha : a + l * n ≤ size) (hmod : l * n < A.sizeMod)
    {r' : Region} {x m : Nat}
    (h : span r (p + a + l * i % A.sizeMod) (p + a + l * i % A.sizeMod + l) r' x m) : span r p (p + size) r' x m := by
  obtain ⟨hr, hlo, hhi⟩ := h
  have hmul : l * (i + 1) ≤ l * n := Nat.mul_le_mul_left _ hi
  rw [Nat.mul_succ] at hmul
  rw [Nat.mod_eq_of_lt (by omega)] at hlo hhi
  exact ⟨hr, by omega, by omega⟩

mutual

/-- `typed_obj_p` points to `size` bytes of `r`. -/
theorem unmarshal_within : ∀ {t : TypeDesc} {r : Region} {p size : Nat}, t.Fits A size →
    Keeps (Within A (span r p (p + size))) (t.unmarshal Feed.reader A e mem r p)
  | void, _, _, _, _ => by
    rw [unmarshal]
    exact keeps_pure
  | scalar a k, r, p, size, h => by
    rw [unmarshal]
    refine keeps_base fun bs hbs => keeps_bind (keeps_poke ⟨rfl, by omega, ?_⟩) fun _ => keeps_pure
    have h : a + k.size ≤ size := h
    show p + a + bs.length ≤ p + size
    omega
  | pointer a c, r, p, size, h => by
    obtain ⟨hp, hc⟩ : a + A.ptrSize ≤ size ∧ Fits A c (getTypeSize A c) := h
    have hptr : ∀ b, span r p (p + size) r (p + a) ((Datum.ptr b).size A) := fun b => by
      refine ⟨rfl, by omega, ?_⟩
      show p + a + A.ptrSize ≤ p + size
      omega
    rw [unmarshal]
    refine keeps_base fun bs _ => ?_
    split
    · exact keeps_bind (keeps_poke (hptr _)) fun _ => keeps_pure
    · refine keeps_malloc keeps_pure fun k => keeps_bind (keeps_poke (.inl (hptr _))) fun _ => ?_
      refine keeps_bind (fun s => (unmarshal_within hc s).mono fun _ _ _ hin => .inr ?_) fun _ => keeps_pure
      rwa [Nat.zero_add] at hin
  | reference a c, r, p, size, h => by
    obtain ⟨ha, hc⟩ : a ≤ size ∧ Fits A c (size - a) := h
    rw [unmarshal]
    refine fun s => (unmarshal_within hc s).mono fun _ x n ⟨hr, hlo, hhi⟩ => ⟨hr, ?_, ?_⟩ <;> omega
  | string a, r, p, size, h => by
    have h : a + A.ptrSize ≤ size := h
    have hptr : ∀ b, span r p (p + size) r (p + a) ((Datum.ptr b).size A) := fun b => by
      refine ⟨rfl, by omega, ?_⟩
      show p + a + A.ptrSize ≤ p + size
      omega
    rw [unmarshal]
    refine keeps_base fun bs _ => ?_
    split
    · exact keeps_bind (keeps_poke (hptr _)) fun _ => keeps_pure
    · refine keeps_bind keeps_strsize fun n => keeps_malloc keeps_pure fun k => ?_
      refine keeps_bind (keeps_poke (.inl (hptr _))) fun _ => ?_
      exact keeps_bind (keeps_copy fun m hm => .inr ⟨rfl, by omega, by omega⟩) fun _ => keeps_pure
  | struct a n fs, r, p, size, h => by
    obtain ⟨ha, hfs⟩ : a + n ≤ size ∧ FitsAll A fs n := h
    rw [unmarshal]
    refine fun s => (unmarshalFields_within hfs s).mono fun _ x m ⟨hr, hlo, hhi⟩ => ⟨hr, ?_, ?_⟩ <;> omega
  | fixedBytes a n, r, p, size, h => by
    have h : a + n ≤ size := h
    rw [unmarshal]
    exact keeps_bind (keeps_copy fun m hm => ⟨rfl, by omega, by omega⟩) fun _ => keeps_pure
  | varBytes a n count, r, p, size, h => by
    obtain ⟨ha, hcount⟩ : a + n ≤ size ∧ count + 2 ≤ size := h
    rw [unmarshal]
    refine keeps_base fun bs _ => ?_
    dsimp only
    split
    · exact keeps_fail
    · refine keeps_bind (keeps_count hcount) fun _ => ?_
      exact keeps_bind (keeps_copy fun m hm => ⟨rfl, by omega, by omega⟩) fun _ => keeps_pure
  | bytesWithNil a n, r, p, size, h => by
    have h : a + n ≤ size := h
    rw [unmarshal]
    refine keeps_bind keeps_strsize fun l => ?_
    split
    · exact keeps_fail
    · exact keeps_bind (keeps_copy fun m hm => ⟨rfl, by omega, by omega⟩) fun _ => keeps_pure
  | dynamicBytes a, r, p, size, h | dynamicString a, r, p, size, h => by
    have h : a + 2 * A.ptrSize ≤ size := h
    rw [unmarshal]
    exact keeps_dyn (by omega) (by omega)
  | fixedArray a n c, r, p, size, h => by
    obtain ⟨ha, hmod, hc⟩ : a + getTypeSize A c * n.toNat ≤ size ∧ getTypeSize A c * n.toNat < A.sizeMod ∧
      Fits A c (getTypeSize A c) := h
    rw [unmarshal]
    exact keeps_elems (fun i hi s => (unmarshal_within hc s).mono fun _ _ _ => span_elem hi ha hmod) n.toNat 0
      (by omega)
  | varArray a n count c, r, p, size, h => by
    obtain ⟨⟨ha, hcount⟩, hmod, hc⟩ : (a + getTypeSize A c * n ≤ size ∧ count + 2 ≤ size) ∧
      getTypeSize A c * n < A.sizeMod ∧ Fits A c (getTypeSize A c) := h
    rw [unmarshal]
    refine keeps_base fun bs _ => ?_
    dsimp only
    split
    · exact keeps_fail
    · refine keeps_bind (keeps_count hcount) fun _ => ?_
      refine keeps_bind (keeps_elems (N := n) (fun i hi s => ?_) _ 0 (by omega)) fun _ => keeps_pure
      exact (unmarshal_within hc s).mono fun _ _ _ => span_elem hi ha hmod
  | dynamicArray a c, r, p, size, h => by
    obtain ⟨ha, hc⟩ : a + 2 * A.ptrSize ≤ size ∧ Fits A c (getTypeSize A c) := h
    have h4 := four_le_ptrSize A
    rw [unmarshal]
    refine keeps_base fun bs _ => keeps_bind (keeps_setCount (by omega) (by omega)) fun _ => ?_
    split
    · exact keeps_pure
    · refine keeps_malloc (keeps_setCount (by omega) (by omega)) fun k => ?_
      refine keeps_bind (keeps_poke (.inl ⟨rfl, by omega, ?_⟩)) fun _ => ?_
      · show p + a + A.ptrSize + A.ptrSize ≤ p + size
        omega
      refine keeps_bind (keeps_elems (N := (e.val bs).toNat) (fun i hi s => ?_) _ 0 (by omega)) fun _ => keeps_pure
      refine (unmarshal_within hc s).mono fun _ x m ⟨hr, hlo, hhi⟩ => .inr ⟨hr, Nat.zero_le _, ?_⟩
      have hmod : getTypeSize A c * i % A.sizeMod ≤ getTypeSize A c * i := Nat.mod_le ..
      have hmul : getTypeSize A c * (i + 1) ≤ getTypeSize A c * (e.val bs).toNat := Nat.mul_le_mul_left _ hi
      rw [Nat.mul_succ] at hmul
      omega

theorem unmarshalFields_within : ∀ {fs : List TypeDesc} {r : Region} {p size : Nat}, FitsAll A fs size →
    Keeps (Within A (span r p (p + size))) (unmarshalFields Feed.reader A e mem fs r p)
  | [], _, _, _, _ => by
    rw [unmarshalFields]
    exact keeps_pure
  | f :: fs, r, p, size, h => by
    rw [unmarshalFields]
    exact keeps_bind (unmarshal_within h.1) fun _ => keeps_bind (unmarshalFields_within h.2) fun _ => keeps_pure

end

end

end TypeDesc

/-! ## What is taken out of the chain -/

/-- The bytes that the buffers hold. -/
def unread : List Psb → Nat
  | [] => 0
  | p :: ps => p.data.length + unread ps

/-- Bytes are copied out of the buffers of a chain, each time from the front of one of them, whose length goes down by
as many. -/
inductive Drained : List Psb → List UInt8 → List Psb → Prop where
  | refl {ps : List Psb} : Drained ps [] ps
  | step {ps pre post : List Psb} {p : Psb} {bs : List UInt8} {k : Nat} (h : Drained ps bs (pre ++ p :: post))
      (hk : k ≤ p.data.length) : Drained ps (bs ++ p.data.take k) (pre ++ p.get k :: post)

namespace Drained
variable {ps qs rs : List Psb} {bs bs' : List UInt8}

theorem trans (h : Drained ps bs qs) (h' : Drained qs bs' rs) : Drained ps (bs ++ bs') rs := by
  induction h' with
  | refl => rwa [List.append_nil]
  | step h' hk ih =>
    rw [← List.append_assoc]
    exact ih.step hk

theorem unread_append (ps qs : List Psb) : unread (ps ++ qs) = unread ps + unread qs := by
  induction ps with
  | nil => exact (Nat.zero_add _).symm
  | cons p ps ih =>
    show p.data.length + unread (ps ++ qs) = p.data.length + unread ps + unread qs
    rw [ih, Nat.add_assoc]

theorem unread_eq (h : Drained ps bs qs) : unread ps = bs.length + unread qs := by
  induction h with
  | refl => exact (Nat.zero_add _).symm
  | @step pre post p bs k h hk ih =>
    rw [ih, unread_append, unread_append, List.length_append, List.length_take]
    show bs.length + (unread pre + (p.data.length + unread post)) =
      bs.length + min k p.data.length + (unread pre + ((p.data.drop k).length + unread post))
    rw [List.length_drop]
    omega

end Drained

theorem Feed.take_drained (n : Nat) (gone : List Psb) (p : Psb) (qs : List Psb) :
    Drained (gone ++ p :: qs) (take n gone p qs).1 (take n gone p qs).2.2.segs := by
  induction qs generalizing n gone p with
  | nil => exact Drained.refl.step (Nat.le_trans (Nat.min_le_left ..) (Nat.mod_le ..))
  | cons q qs ih =>
    have hone : Drained (gone ++ p :: q :: qs) (p.data.take (min p.psbLen n))
        (gone ++ p.get (min p.psbLen n) :: q :: qs) :=
      Drained.refl.step (Nat.le_trans (Nat.min_le_left ..) (Nat.mod_le ..))
    unfold take
    dsimp only
    split
    · exact hone
    · have h := ih (n - min p.psbLen n) (gone ++ [p.get (min p.psbLen n)]) q
      rw [List.append_assoc, List.singleton_append] at h
      exact hone.trans h

theorem Feed.decodeBase_drained {n : Nat} {f f' : Feed} {x : Option (List UInt8)} (h : f.decodeBase n = (x, f')) :
    ∃ bs, Drained f.segs bs f'.segs ∧ ∀ bs', x = some bs' → bs' = bs := by
  unfold decodeBase at h
  split at h
  · next hle =>
    cases h
    exact ⟨_, Drained.refl.step hle, fun _ hx => (Option.some.inj hx).symm⟩
  · have hdr := take_drained n f.gone f.psb f.next
    rcases hq : f.decodeBytes n with ⟨bs, all, f''⟩
    rw [hq] at h
    rw [show take n f.gone f.psb f.next = (bs, all, f'') from hq] at hdr
    cases all with
    | false =>
      cases h
      exact ⟨bs, hdr, fun _ hx => absurd hx nofun⟩
    | true =>
      cases h
      exact ⟨bs, hdr, fun _ hx => (Option.some.inj hx).symm⟩

/-- Afterwards `m` has taken some bytes out of the chain, and if it succeeds it returns how many these are and the `k`
that were taken before. -/
def Spends (k : Nat) (m : Decoder Feed Nat) : Prop :=
  ∀ s, ∃ bs, Drained s.psb.segs bs (m.run s).2.psb.segs ∧ ∀ l, (m.run s).1 = .ok l → l = k + bs.length

namespace Spends
open Decoder
variable {k n : Nat}

theorem pure {l : Nat} (h : l = k) : Spends k (pure l) := fun _ => ⟨[], .refl, fun _ hl => by
  cases hl
  exact h⟩

theorem fail {x : Err} : Spends k (fail x) := fun _ => ⟨[], .refl, fun _ hl => absurd hl nofun⟩

theorem step {α : Type} {m : Decoder Feed α} {f : α → Decoder Feed Nat}
    (hm : ∀ s, ∃ bs, Drained s.psb.segs bs (m.run s).2.psb.segs ∧
      ∀ a, (m.run s).1 = .ok a → Spends (k + bs.length) (f a)) : Spends k (m >>= f) := by
  intro s
  obtain ⟨bs, hdr, hf⟩ := hm s
  rcases hrun : m.run s with ⟨x | a, s'⟩
  · rw [hrun] at hdr
    rw [bind_error hrun]
    exact ⟨bs, hdr, fun _ hl => absurd hl nofun⟩
  · rw [hrun] at hdr hf
    rw [bind_ok hrun]
    obtain ⟨bs', hdr', hl'⟩ := hf a rfl s'
    refine ⟨bs ++ bs', hdr.trans hdr', fun l hl => ?_⟩
    rw [hl' l hl, List.length_append, Nat.add_assoc]

theorem base {f : List UInt8 → Decoder Feed Nat} (hf : ∀ bs, Spends (k + n) (f bs)) :
    Spends k (base Feed.reader n >>= f) := by
  refine step fun s => ?_
  rcases hdec : Feed.decodeBase n s.psb with ⟨- | bs, p⟩
  · obtain ⟨bs, hdr, -⟩ := Feed.decodeBase_drained hdec
    rw [run_base_none hdec]
    exact ⟨bs, hdr, fun _ hok => absurd hok nofun⟩
  · obtain ⟨bs', hdr, hbs⟩ := Feed.decodeBase_drained hdec
    obtain rfl := hbs bs rfl
    rw [run_base_some hdec]
    refine ⟨bs, hdr, fun _ _ => ?_⟩
    rw [Feed.length_decodeBase hdec]
    exact hf _

theorem copy {r : Region} {offset : Nat} {f : Unit → Decoder Feed Nat} (hf : Spends (k + n) (f ())) :
    Spends k (copy Feed.reader r offset n >>= f) := by
  refine step fun s => ?_
  have hdr := Feed.take_drained n s.psb.gone s.psb.psb s.psb.next
  rcases htake : Feed.take n s.psb.gone s.psb.psb s.psb.next with ⟨bs, all, p⟩
  rw [htake] at hdr
  have hrun : (Decoder.copy Feed.reader r offset n).run s =
      (if all then .ok () else .error .emsgsize,
        { s with psb := p, writes := s.writes ++ [⟨r, offset, .bytes bs⟩] }) := by
    simp only [Decoder.copy, Feed.reader, Feed.decodeBytes, htake]
  rw [hrun]
  refine ⟨bs, hdr, fun _ hok => ?_⟩
  cases all with
  | false => exact absurd hok nofun
  | true =>
    rw [Feed.length_take htake]
    exact hf

theorem poke {r : Region} {offset : Nat} {d : Datum} {f : Unit → Decoder Feed Nat} (hf : Spends k (f ())) :
    Spends k (poke r offset d >>= f) :=
  step fun _ => ⟨[], .refl, fun _ _ => hf⟩

theorem strsize {f : Nat → Decoder Feed Nat} (hf : ∀ n, Spends k (f n)) : Spends k (strsize Feed.reader >>= f) :=
  step fun _ => ⟨[], .refl, fun _ _ => hf _⟩

theorem child {m : Decoder Feed Nat} {f : Nat → Decoder Feed Nat} (hm : Spends 0 m) (hf : ∀ l, Spends (k + l) (f l)) :
    Spends k (m >>= f) := by
  refine step fun s => ?_
  obtain ⟨bs, hdr, hl⟩ := hm s
  refine ⟨bs, hdr, fun l hok => ?_⟩
  have h := hf l
  rwa [hl l hok, Nat.zero_add] at h ⊢

theorem malloc {size extent : Nat} {undo : Decoder Feed Unit} {f : Nat → Decoder Feed Nat}
    (hundo : ∀ s, (undo.run s).2.psb = s.psb) (hf : ∀ b, Spends k (f b)) :
    Spends k (malloc mem size extent undo >>= f) := by
  refine step fun s => ⟨[], ?_, fun _ _ => hf _⟩
  cases hm : mem s.blocks.length with
  | false =>
    obtain ⟨x, hrun⟩ := malloc_refused size extent undo hm
    rw [hrun, hundo]
    exact .refl
  | true =>
    rw [malloc_granted hm]
    exact .refl

theorem setCount {r : Region} {offset : Nat} {count allocated : UInt16} {f : Unit → Decoder Feed Nat}
    (hf : Spends k (f ())) : Spends k (TypeDesc.setCount e r offset count allocated >>= f) :=
  step fun _ => ⟨[], .refl, fun _ _ => hf⟩

theorem elems {decode : Nat → Decoder Feed Nat} (h : ∀ i, Spends 0 (decode i)) (n i : Nat) :
    Spends 0 (elems decode n i) := by
  induction n generalizing i with
  | zero => exact pure rfl
  | succ n ih =>
    rw [Decoder.elems]
    exact child (h i) fun _ => child (ih (i + 1)) fun _ => pure (by omega)

theorem dyn {nul offset : Nat} {r : Region} : Spends 0 (TypeDesc.unmarshalDyn Feed.reader A e mem nul r offset) := by
  unfold TypeDesc.unmarshalDyn
  refine base fun bs => setCount ?_
  split
  · exact pure rfl
  · exact malloc (fun _ => rfl) fun b => poke (copy (poke (pure (by omega))))

end Spends

namespace TypeDesc

mutual

theorem unmarshal_spends : ∀ {t : TypeDesc} {r : Region} {p : Nat}, Spends 0 (t.unmarshal Feed.reader A e mem r p)
  | void, _, _ => by
    rw [unmarshal]
    exact .pure rfl
  | scalar a k, r, p => by
    rw [unmarshal]
    exact .base fun _ => .poke (.pure (Nat.zero_add _).symm)
  | pointer a c, r, p => by
    rw [unmarshal]
    refine .base fun _ => ?_
    split
    · exact .poke (.pure rfl)
    · exact .malloc (fun _ => rfl) fun _ => .poke (.child unmarshal_spends fun _ => .pure (by omega))
  | reference a c, r, p => by
    rw [unmarshal]
    exact unmarshal_spends
  | string a, r, p => by
    rw [unmarshal]
    refine .base fun _ => ?_
    split
    · exact .poke (.pure rfl)
    · exact .strsize fun _ => .malloc (fun _ => rfl) fun _ => .poke (.copy (.pure (by omega)))
  | struct a n fs, r, p => by
    rw [unmarshal]
    exact unmarshalFields_spends
  | fixedBytes a n, r, p => by
    rw [unmarshal]
    exact .copy (.pure (Nat.zero_add _).symm)
  | varBytes a n count, r, p => by
    rw [unmarshal]
    refine .base fun _ => ?_
    dsimp only
    split
    · exact .fail
    · exact .poke (.copy (.pure (by omega)))
  | bytesWithNil a n, r, p => by
    rw [unmarshal]
    refine .strsize fun _ => ?_
    split
    · exact .fail
    · exact .copy (.pure (Nat.zero_add _).symm)
  | dynamicBytes a, r, p | dynamicString a, r, p => by
    rw [unmarshal]
    exact .dyn
  | fixedArray a n c, r, p => by
    rw [unmarshal]
    exact .elems (fun _ => unmarshal_spends) n.toNat 0
  | varArray a n count c, r, p => by
    rw [unmarshal]
    refine .base fun _ => ?_
    dsimp only
    split
    · exact .fail
    · exact .poke (.child (.elems (fun _ => unmarshal_spends) _ 0) fun _ => .pure (by omega))
  | dynamicArray a c, r, p => by
    rw [unmarshal]
    refine .base fun _ => .setCount ?_
    split
    · exact .pure rfl
    · exact .malloc (fun _ => rfl) fun _ =>
        .poke (.child (.elems (fun _ => unmarshal_spends) _ 0) fun _ => .pure (by omega))

theorem unmarshalFields_spends : ∀ {fs : List TypeDesc} {r : Region} {p : Nat},
    Spends 0 (unmarshalFields Feed.reader A e mem fs r p)
  | [], _, _ => by
    rw [unmarshalFields]
    exact .pure rfl
  | f :: fs, r, p => by
    rw [unmarshalFields]
    exact .child unmarshal_spends fun _ => .child unmarshalFields_spends fun _ => .pure (by omega)

end

end TypeDesc

end Aosl
