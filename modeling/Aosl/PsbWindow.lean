import Aosl.Lib.Steps
import Mathlib.Algebra.Group.Nat.Defs
import Mathlib.Tactic.Common

/-!
# The window of a packet buffer, `kernel/psbuff.h`

A packet buffer has `size` bytes from `head` on, of which the `len` bytes from `data` on are in use. The
exported calls take the number of bytes as a `size_t` and pass it on to functions that take an
`unsigned int`: what is compared and added are the low 32 bits. `psb_push` compares them as an `int`, so
that a length of 2^31 or more is below every headroom.
-/

namespace Aosl
open Lib

/-- The errors of the calls below. -/
inductive PsbErr where
  | eperm
  | enospc
deriving DecidableEq

/-- The fields of `struct ps_buff` that say where the bytes are. -/
structure PsBuff where
  data : BitVec 64
  len : BitVec 64
  head : BitVec 64
  size : BitVec 64
deriving DecidableEq

namespace PsBuff

/-! ### The functions -/

def reserve (psb : PsBuff) (len : BitVec 32) : Except PsbErr (BitVec 64) × PsBuff :=
  if psb.len > 0 then (.error .eperm, psb)
  else if psb.size - (psb.data - psb.head) ≥ len.setWidth 64 then
    (.ok 0, { psb with data := psb.data + len.setWidth 64 })
  else (.error .enospc, psb)

def put (psb : PsBuff) (len : BitVec 32) : Except PsbErr (BitVec 64) × PsBuff :=
  if psb.data + psb.len + len.setWidth 64 ≤ psb.head + psb.size then
    (.ok (psb.data + psb.len), { psb with len := psb.len + len.setWidth 64 })
  else (.error .enospc, psb)

def get (psb : PsBuff) (len : BitVec 32) : Except PsbErr (BitVec 64) × PsBuff :=
  if psb.len ≥ len.setWidth 64 then
    (.ok psb.data, { psb with data := psb.data + len.setWidth 64, len := psb.len - len.setWidth 64 })
  else (.error .enospc, psb)

/-- The difference of the two pointers is signed, and so is `(int)len`. -/
def push (psb : PsBuff) (len : BitVec 32) : Except PsbErr (BitVec 64) × PsBuff :=
  if (psb.data - psb.head).toInt < len.toInt then (.error .enospc, psb)
  else
    (.ok (psb.data - len.setWidth 64),
      { psb with len := psb.len + len.setWidth 64, data := psb.data - len.setWidth 64 })

def pull (psb : PsBuff) (len : BitVec 32) : Except PsbErr (BitVec 64) × PsBuff :=
  if psb.len < len.setWidth 64 then (.error .enospc, psb)
  else
    (.ok (psb.data + len.setWidth 64),
      { psb with len := psb.len - len.setWidth 64, data := psb.data + len.setWidth 64 })

/-- What `aosl_psb_reset` does to each buffer of the chain. -/
def reset (psb : PsBuff) : PsBuff := { psb with data := psb.head, len := 0 }

/-! ### The exported calls -/

/-- `aosl_psb_reserve` and its siblings, with the argument of the caller. -/
inductive Call where
  | reserve (len : BitVec 64)
  | put (len : BitVec 64)
  | get (len : BitVec 64)
  | push (len : BitVec 64)
  | pull (len : BitVec 64)
  | reset
deriving DecidableEq

/-- The call hands the low 32 bits of its argument on. -/
def call (psb : PsBuff) : Call → Except PsbErr (BitVec 64) × PsBuff
  | .reserve len => psb.reserve (len.setWidth 32)
  | .put len => psb.put (len.setWidth 32)
  | .get len => psb.get (len.setWidth 32)
  | .push len => psb.push (len.setWidth 32)
  | .pull len => psb.pull (len.setWidth 32)
  | .reset => (.ok 0, psb.reset)

def step (psb : PsBuff) (c : Call) : Option PsBuff := some (psb.call c).2

/-! ### What is expected of them -/

structure Window (psb : PsBuff) : Prop where
  head_le : psb.head.toNat ≤ psb.data.toNat
  fits : psb.data.toNat + psb.len.toNat ≤ psb.head.toNat + psb.size.toNat

/-- The bytes of the buffer are memory: the address behind the last one is an address. -/
def InMemory (psb : PsBuff) : Prop := psb.head.toNat + psb.size.toNat < 2 ^ 64

/-- `data` and `len` move by exactly what was asked for. -/
def Moves (psb psb' : PsBuff) : Call → Prop
  | .reserve len => psb.len = 0 ∧ psb'.data.toNat = psb.data.toNat + len.toNat ∧ psb'.len = psb.len
  | .put len => psb'.data = psb.data ∧ psb'.len.toNat = psb.len.toNat + len.toNat
  | .get len | .pull len =>
    psb'.data.toNat = psb.data.toNat + len.toNat ∧ psb'.len.toNat + len.toNat = psb.len.toNat
  | .push len => psb'.data.toNat + len.toNat = psb.data.toNat ∧ psb'.len.toNat = psb.len.toNat + len.toNat
  | .reset => psb'.data = psb.head ∧ psb'.len = 0

/-- The call fails and leaves the buffer as it is, or it does what was asked for. -/
def Exact (psb : PsBuff) (c : Call) : Prop :=
  (∃ e, psb.call c = (.error e, psb)) ∨ ∃ r psb', psb.call c = (.ok r, psb') ∧ psb.Moves psb' c

/-- The check of the call fails, for the length that is left of the argument. -/
def Refuses (psb : PsBuff) : Call → Prop
  | .reserve len => 0 < psb.len ∨ psb.size - (psb.data - psb.head) < (len.setWidth 32).setWidth 64
  | .put len => psb.head + psb.size < psb.data + psb.len + (len.setWidth 32).setWidth 64
  | .get len | .pull len => psb.len < (len.setWidth 32).setWidth 64
  | .push len => (psb.data - psb.head).toInt < (len.setWidth 32).toInt
  | .reset => False

/-- Nothing is cut off the argument, `psb_put` does not add past the last address, and `psb_push` has as much
headroom as it asks for. -/
def Covers (psb : PsBuff) : Call → Prop
  | .reserve len | .get len | .pull len => len.toNat < 2 ^ 32
  | .put len => len.toNat < 2 ^ 32 ∧ psb.data.toNat + psb.len.toNat + len.toNat < 2 ^ 64
  | .push len => len.toNat < 2 ^ 32 ∧ len.toNat ≤ psb.data.toNat - psb.head.toNat
  | .reset => True

def Sized (psb : PsBuff) (c : Call) : Prop := psb.Refuses c ∨ psb.Covers c

instance (psb : PsBuff) (c : Call) : Decidable (psb.Refuses c) := by
  unfold Refuses
  cases c <;> infer_instance

instance (psb : PsBuff) (c : Call) : Decidable (psb.Covers c) := by
  unfold Covers
  cases c <;> infer_instance

instance (psb : PsBuff) (c : Call) : Decidable (psb.Sized c) := inferInstanceAs (Decidable (_ ∨ _))

/-- The buffer after a call whose check passes. -/
def moved (psb : PsBuff) : Call → PsBuff
  | .reserve len => { psb with data := psb.data + (len.setWidth 32).setWidth 64 }
  | .put len => { psb with len := psb.len + (len.setWidth 32).setWidth 64 }
  | .get len | .pull len =>
    { psb with data := psb.data + (len.setWidth 32).setWidth 64, len := psb.len - (len.setWidth 32).setWidth 64 }
  | .push len =>
    { psb with data := psb.data - (len.setWidth 32).setWidth 64, len := psb.len + (len.setWidth 32).setWidth 64 }
  | .reset => psb.reset

variable {psb psb' : PsBuff} {c : Call} {len : BitVec 64}

/-! ### One call -/

theorem call_of_refuses (h : psb.Refuses c) : ∃ e, psb.call c = (.error e, psb) := by
  cases c with
  | reserve len =>
    rcases Decidable.em (0 < psb.len) with hl | hl
    · exact ⟨.eperm, if_pos hl⟩
    · exact ⟨.enospc, (if_neg hl).trans (if_neg (BitVec.not_le.2 (h.resolve_left hl)))⟩
  | put len => exact ⟨.enospc, if_neg (BitVec.not_le.2 h)⟩
  | get len => exact ⟨.enospc, if_neg (BitVec.not_le.2 h)⟩
  | push len => exact ⟨.enospc, if_pos h⟩
  | pull len => exact ⟨.enospc, if_pos h⟩
  | reset => exact h.elim

theorem call_of_not_refuses (h : ¬psb.Refuses c) : ∃ r, psb.call c = (.ok r, psb.moved c) := by
  cases c with
  | reserve len =>
    obtain ⟨hl, hroom⟩ := not_or.1 h
    exact ⟨_, (if_neg hl).trans (if_pos (BitVec.not_lt.1 hroom))⟩
  | put len => exact ⟨_, if_pos (BitVec.not_lt.1 h)⟩
  | get len => exact ⟨_, if_pos (BitVec.not_lt.1 h)⟩
  | push len => exact ⟨_, if_neg h⟩
  | pull len => exact ⟨_, if_neg h⟩
  | reset => exact ⟨_, rfl⟩

theorem exact_of_refuses (h : psb.Refuses c) : (psb.call c).2 = psb ∧ psb.Exact c := by
  obtain ⟨e, he⟩ := call_of_refuses h
  exact ⟨by rw [he], .inl ⟨e, he⟩⟩

theorem exact_iff_moves (h : ¬psb.Refuses c) :
    (psb.call c).2 = psb.moved c ∧ (psb.Exact c ↔ psb.Moves (psb.moved c) c) := by
  obtain ⟨r, hr⟩ := call_of_not_refuses h
  refine ⟨by rw [hr], ?_⟩
  constructor
  · rintro (⟨e, he⟩ | ⟨r', psb', hr', hmoves⟩)
    · simp [hr] at he
    · obtain ⟨-, rfl⟩ := Prod.mk.inj (hr.symm.trans hr')
      exact hmoves
  · exact fun hmoves => .inr ⟨r, _, hr, hmoves⟩

theorem toNat_cut : ((len.setWidth 32).setWidth 64).toNat = len.toNat % 2 ^ 32 := by
  simp [BitVec.toNat_setWidth]
  omega

/-! ### The arithmetic

`m` is what is left of the argument `len`. -/

section
variable {m : BitVec 64} (hw : psb.Window) (hm : psb.InMemory) (hcut : m.toNat = len.toNat % 2 ^ 32)
include hw hcut

include hm in
theorem reserve_iff (hl : ¬0 < psb.len) (hroom : ¬psb.size - (psb.data - psb.head) < m) :
    (({ psb with data := psb.data + m } : PsBuff).Window ∧ psb.len = 0 ∧
      (psb.data + m).toNat = psb.data.toNat + len.toNat) ↔ len.toNat < 2 ^ 32 := by
  obtain ⟨hhead, hfits⟩ := hw
  unfold InMemory at hm
  constructor
  · rintro ⟨-, -, hdata⟩
    bv_omega
  · intro hlen
    exact ⟨⟨by bv_omega, by bv_omega⟩, by bv_omega, by bv_omega⟩

include hm in
theorem put_iff (hend : ¬psb.head + psb.size < psb.data + psb.len + m) :
    (({ psb with len := psb.len + m } : PsBuff).Window ∧ (psb.len + m).toNat = psb.len.toNat + len.toNat) ↔
      len.toNat < 2 ^ 32 ∧ psb.data.toNat + psb.len.toNat + len.toNat < 2 ^ 64 := by
  obtain ⟨hhead, hfits⟩ := hw
  unfold InMemory at hm
  constructor
  · rintro ⟨⟨-, hfits'⟩, hlen⟩
    bv_omega
  · rintro ⟨hlen, hend⟩
    exact ⟨⟨hhead, by bv_omega⟩, by bv_omega⟩

include hm in
theorem take_iff (hle : ¬psb.len < m) :
    (({ psb with data := psb.data + m, len := psb.len - m } : PsBuff).Window ∧
      (psb.data + m).toNat = psb.data.toNat + len.toNat ∧ (psb.len - m).toNat + len.toNat = psb.len.toNat) ↔
      len.toNat < 2 ^ 32 := by
  obtain ⟨hhead, hfits⟩ := hw
  unfold InMemory at hm
  constructor
  · rintro ⟨-, hdata, -⟩
    bv_omega
  · intro hlen
    exact ⟨⟨by bv_omega, by bv_omega⟩, by bv_omega, by bv_omega⟩

theorem push_iff :
    (({ psb with data := psb.data - m, len := psb.len + m } : PsBuff).Window ∧
      (psb.data - m).toNat + len.toNat = psb.data.toNat ∧ (psb.len + m).toNat = psb.len.toNat + len.toNat) ↔
      len.toNat < 2 ^ 32 ∧ len.toNat ≤ psb.data.toNat - psb.head.toNat := by
  obtain ⟨hhead, hfits⟩ := hw
  constructor
  · rintro ⟨⟨hhead', -⟩, hdata, hlen⟩
    bv_omega
  · rintro ⟨hlen, hroom⟩
    exact ⟨⟨by bv_omega, by bv_omega⟩, by bv_omega, by bv_omega⟩

end

/-- A call whose check passes keeps the window and is exact if and only if it covers its argument. -/
theorem moved_iff (hw : psb.Window) (hm : psb.InMemory) (h : ¬psb.Refuses c) :
    (psb.moved c).Window ∧ psb.Moves (psb.moved c) c ↔ psb.Covers c := by
  cases c with
  | reserve len =>
    obtain ⟨hl, hroom⟩ := not_or.1 h
    have hiff := reserve_iff hw hm toNat_cut hl hroom
    simpa [moved, Moves, Covers] using hiff
  | put len =>
    have hiff := put_iff hw hm toNat_cut h
    simpa [moved, Moves, Covers] using hiff
  | get len => exact take_iff hw hm toNat_cut h
  | push len => exact push_iff hw toNat_cut
  | pull len => exact take_iff hw hm toNat_cut h
  | reset => exact ⟨fun _ => trivial, fun _ => ⟨⟨Nat.le_refl _, by simp [moved, reset]⟩, rfl, rfl⟩⟩

theorem exact_iff_sized (hw : psb.Window) (hm : psb.InMemory) :
    (psb.call c).2.Window ∧ psb.Exact c ↔ psb.Sized c := by
  rcases Decidable.em (psb.Refuses c) with h | h
  · obtain ⟨heq, hex⟩ := exact_of_refuses h
    rw [heq]
    exact ⟨fun _ => .inl h, fun _ => ⟨hw, hex⟩⟩
  · obtain ⟨heq, hex⟩ := exact_iff_moves h
    rw [heq, hex, moved_iff hw hm h]
    exact ⟨.inr, fun hs => hs.resolve_left h⟩

/-! ### Runs of calls -/

theorem step_head_size (h : psb.step c = some psb') : psb'.head = psb.head ∧ psb'.size = psb.size := by
  obtain rfl := Option.some.inj h
  rcases Decidable.em (psb.Refuses c) with hr | hr
  · rw [(exact_of_refuses hr).1]
    exact ⟨rfl, rfl⟩
  · rw [(exact_iff_moves hr).1]
    cases c <;> exact ⟨rfl, rfl⟩

theorem step_sound (h : psb.Window ∧ psb.InMemory) (hs : psb.Sized c) (hstep : psb.step c = some psb') :
    psb'.Window ∧ psb'.InMemory := by
  obtain ⟨hhead, hsize⟩ := step_head_size hstep
  refine ⟨?_, by rw [InMemory, hhead, hsize]; exact h.2⟩
  obtain rfl := Option.some.inj hstep
  exact ((exact_iff_sized h.1 h.2).2 hs).1

/-- A buffer stays in its window and every call on it is exact, if and only if every call is refused by its own check or
covers its argument. -/
theorem window_run_iff (cs : List Call) (hw : psb.Window) (hm : psb.InMemory) :
    (∀ bs c psb', bs ++ [c] <+: cs → exec step psb bs = some psb' →
      psb'.Window ∧ (psb'.call c).2.Window ∧ psb'.Exact c) ↔ Along step Sized psb cs := by
  rw [along_iff_of_prefixes]
  constructor
  · intro hall bs c psb' hbs hrun
    obtain ⟨hw', hnext⟩ := hall bs c psb' hbs hrun
    have hm' : psb'.InMemory := exec_invariant_all (I := InMemory)
      (fun s a s' hi hs => by obtain ⟨h1, h2⟩ := step_head_size hs; rw [InMemory, h1, h2]; exact hi) hm hrun
    exact (exact_iff_sized hw' hm').1 hnext
  · intro hall bs c psb' hbs hrun
    have hok : Along step Sized psb bs := by
      refine along_iff_of_prefixes.2 fun ds d psb'' hds => hall ds d psb'' (hds.trans ?_)
      exact (List.prefix_append bs [c]).trans hbs
    obtain ⟨hw', hm'⟩ := exec_invariant (fun _ _ _ => step_sound) ⟨hw, hm⟩ hok hrun
    exact ⟨hw', (exact_iff_sized hw' hm').2 (hall bs c psb' hbs hrun)⟩

/-- A new buffer of 64 bytes. -/
def fresh64 : PsBuff := ⟨0x7f0000001000, 0, 0x7f0000001000, 64⟩

theorem window_run_iff_fresh64 : ∃ psb, exec step fresh64 [.reserve 16, .put 20, .get 0x100000064] = some psb ∧
    psb.Window ∧ (psb.call (.push 8)).2.Window ∧ psb.Exact (.push 8) := by
  have hwindow : fresh64.Window := ⟨Nat.le_refl _, by decide⟩
  have hall := (window_run_iff [.reserve 16, .put 20, .get 0x100000064, .push 8] hwindow
    (by unfold InMemory; decide)).2 (by decide)
  exact ⟨_, rfl, hall [.reserve 16, .put 20, .get 0x100000064] _ _ List.prefix_rfl rfl⟩

/-- `aosl_psb_push` of 2^31 bytes on an empty buffer succeeds and moves `data` below `head`. -/
theorem push_leaves_window : ¬∀ (psb : PsBuff) (cs : List Call), psb.Window → psb.InMemory →
    ∀ bs c psb', bs ++ [c] <+: cs → exec step psb bs = some psb' →
      psb'.Window ∧ (psb'.call c).2.Window ∧ psb'.Exact c := by
  intro hall
  have h := hall fresh64 [.push 0x80000000] ⟨Nat.le_refl _, by decide⟩ (by unfold InMemory; decide) [] _ _
    (List.prefix_refl _) rfl
  exact absurd h.2.1.head_le (by decide)

end PsBuff
end Aosl
