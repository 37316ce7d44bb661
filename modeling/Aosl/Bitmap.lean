import Mathlib.Tactic.Common

/-!
# Bitmaps, `lib/bitmap.c`

The number of bits, the number of bytes and every index are `uint8_t`: a bitmap has at most 255 bits.
`bit` says what a bitmap holds, and each function gets one lemma in terms of it. An assertion that
fails (`BUG_ON`) is `none`.
-/

namespace Aosl

structure Bitmap where
  bitArr : List (BitVec 8)
  bitArrCnt : BitVec 8
  bitCnt : BitVec 8
  length_eq : bitArr.length = bitArrCnt.toNat
  /-- `BIT_ARRAY_CNT`. -/
  bitArrCnt_eq : bitArrCnt.toNat = (bitCnt.toNat + 8 - 1) / 8

namespace Bitmap

/-- Bit `i` counted from the start of a list of bytes. -/
def bitOf (bytes : List (BitVec 8)) (i : Nat) : Bool := (bytes.getD (i / 8) 0#8).getLsbD (i % 8)

def bit (m : Bitmap) (i : Nat) : Bool := bitOf m.bitArr i

/-- `bitmap_create`; `mem` says whether the allocations succeed. -/
def create (mem : Bool) (bitCnt : BitVec 8) : Option Bitmap :=
  if bitCnt = 0#8 then none
  else if mem then
    let arrCnt := (bitCnt.toNat + 8 - 1) / 8
    some ⟨List.replicate arrCnt 0#8, BitVec.ofNat 8 arrCnt, bitCnt, by
      have := bitCnt.isLt
      simp only [List.length_replicate, BitVec.toNat_ofNat]
      omega, by
      have := bitCnt.isLt
      simp only [BitVec.toNat_ofNat]
      omega⟩
  else none

/-- `1 << offset` as a `uint8_t`. -/
def mask (i : BitVec 8) : BitVec 8 := 1#8 <<< (i.toNat % 8)

/-- Change the byte of a bit, if the bit is there. -/
def update (m : Bitmap) (i : BitVec 8) (g : BitVec 8 → BitVec 8) : Bitmap :=
  if i.toNat ≥ m.bitCnt.toNat then m
  else { m with
    bitArr := m.bitArr.modify (i.toNat / 8) g
    length_eq := by rw [List.length_modify, m.length_eq] }

/-- `bitmap_set`. -/
def set (m : Bitmap) (i : BitVec 8) : Bitmap := m.update i (· ||| mask i)

/-- `bitmap_clear`. -/
def clear (m : Bitmap) (i : BitVec 8) : Bitmap := m.update i (· &&& ~~~mask i)

/-- `bitmap_copy`, with `bitmap_reset`. -/
def copy (m src : Bitmap) : Option Bitmap :=
  if h : m.bitCnt.toNat < src.bitCnt.toNat then none
  else
    let reset := List.replicate m.bitArrCnt.toNat 0#8
    some { m with
      bitArr := src.bitArr.take src.bitArrCnt.toNat ++ reset.drop src.bitArrCnt.toNat
      length_eq := by
        have := m.bitArrCnt_eq
        have := src.bitArrCnt_eq
        simp only [List.length_append, List.length_take, List.length_drop, reset, List.length_replicate,
          src.length_eq]
        omega }

/-- The loop over the bits of a byte, with `n` bits to go; `some` is a `return`. -/
def scanByte (bitCnt : Nat) (byteVal : BitVec 8) : (n bitpos : Nat) → Option (Option Nat)
  | 0, _ => none
  | n + 1, bitpos =>
    if bitpos ≥ bitCnt then some none
    else if byteVal &&& 1#8 <<< (8 - (n + 1)) = 0#8 then some (some bitpos)
    else scanByte bitCnt byteVal n (bitpos + 1)

/-- The loop over the bytes. -/
def scan (bitCnt : Nat) : (bytes : List (BitVec 8)) → (bitpos : Nat) → Option Nat
  | [], _ => none
  | byteVal :: bytes, bitpos =>
    if byteVal = 0xFF#8 then scan bitCnt bytes (bitpos + 8)
    else match scanByte bitCnt byteVal 8 bitpos with
      | some r => r
      | none => scan bitCnt bytes (bitpos + 8)

/-- `bitmap_find_first_zero_bit`; `none` is -1. -/
def findFirstZeroBit (m : Bitmap) : Option Nat :=
  scan m.bitCnt.toNat (m.bitArr.take m.bitArrCnt.toNat) 0

/-! ### What the functions do to the bits -/

variable {m m' src : Bitmap} {i : BitVec 8}

theorem create_bitCnt {mem : Bool} {n : BitVec 8} (h : create mem n = some m) : m.bitCnt = n := by
  unfold create at h
  split_ifs at h
  cases h
  rfl

theorem create_bit {mem : Bool} {n : BitVec 8} (h : create mem n = some m) (j : Nat) : m.bit j = false := by
  unfold create at h
  split_ifs at h
  cases h
  simp only [bit, bitOf, List.getD_eq_getElem?_getD, List.getElem?_replicate]
  split_ifs <;> simp

theorem create_isSome {n : BitVec 8} (h : n ≠ 0#8) : ∃ m, create true n = some m := by
  simp [create, h]

@[simp] theorem create_zero (mem : Bool) : create mem 0#8 = none := rfl

@[simp] theorem update_bitCnt (g : BitVec 8 → BitVec 8) : (m.update i g).bitCnt = m.bitCnt := by
  unfold update
  split_ifs <;> rfl

@[simp] theorem set_bitCnt : (m.set i).bitCnt = m.bitCnt := update_bitCnt _

@[simp] theorem clear_bitCnt : (m.clear i).bitCnt = m.bitCnt := update_bitCnt _

theorem update_bit_ne {g : BitVec 8 → BitVec 8} {j : Nat} (hne : i.toNat / 8 ≠ j / 8) :
    (m.update i g).bit j = m.bit j := by
  unfold update
  split_ifs
  · rfl
  · simp only [bit, bitOf, List.getD_eq_getElem?_getD, List.getElem?_modify_ne _ _ hne]

theorem getElem?_byte (hi : i.toNat < m.bitCnt.toNat) : ∃ b, m.bitArr[i.toNat / 8]? = some b := by
  have hlt : i.toNat / 8 < m.bitArr.length := by
    have := m.length_eq
    have := m.bitArrCnt_eq
    omega
  exact ⟨_, List.getElem?_eq_getElem hlt⟩

theorem update_bit_eq {g : BitVec 8 → BitVec 8} {j : Nat} (hi : i.toNat < m.bitCnt.toNat)
    (heq : i.toNat / 8 = j / 8) :
    ∃ b, m.bit j = b.getLsbD (j % 8) ∧ (m.update i g).bit j = (g b).getLsbD (j % 8) := by
  obtain ⟨b, hb⟩ := getElem?_byte hi
  refine ⟨b, ?_, ?_⟩
  · simp [bit, bitOf, ← heq, hb]
  · simp [bit, bitOf, update, ← heq, hb, Nat.not_le.2 hi]

theorem mask_getLsbD (j : Nat) : (mask i).getLsbD j = decide (i.toNat % 8 = j) := by
  rw [mask, ← BitVec.twoPow_eq, BitVec.getLsbD_twoPow]
  have hi : i.toNat % 8 < 8 := Nat.mod_lt _ (by decide)
  simp [hi]

theorem set_bit (hi : i.toNat < m.bitCnt.toNat) (j : Nat) :
    (m.set i).bit j = (m.bit j || decide (j = i.toNat)) := by
  by_cases heq : i.toNat / 8 = j / 8
  · obtain ⟨b, hb, hg⟩ := update_bit_eq (g := (· ||| mask i)) hi heq
    have hj : i.toNat % 8 = j % 8 ↔ j = i.toNat := by omega
    rw [set, hg, hb, BitVec.getLsbD_or, mask_getLsbD]
    simp only [hj]
  · have hne : j ≠ i.toNat := fun h => heq (by rw [h])
    rw [set, update_bit_ne heq]
    simp [hne]

theorem clear_bit (hi : i.toNat < m.bitCnt.toNat) (j : Nat) :
    (m.clear i).bit j = (m.bit j && !decide (j = i.toNat)) := by
  by_cases heq : i.toNat / 8 = j / 8
  · obtain ⟨b, hb, hg⟩ := update_bit_eq (g := (· &&& ~~~mask i)) hi heq
    have hlt : j % 8 < 8 := Nat.mod_lt _ (by decide)
    have hj : i.toNat % 8 = j % 8 ↔ j = i.toNat := by omega
    rw [clear, hg, hb, BitVec.getLsbD_and, BitVec.getLsbD_not, mask_getLsbD]
    simp only [hj, hlt, decide_true, Bool.true_and]
  · have hne : j ≠ i.toNat := fun h => heq (by rw [h])
    rw [clear, update_bit_ne heq]
    simp [hne]

theorem copy_isSome (h : src.bitCnt.toNat ≤ m.bitCnt.toNat) : ∃ m', m.copy src = some m' := by
  simp [copy, Nat.not_lt.2 h]

theorem copy_bitCnt (h : m.copy src = some m') : m'.bitCnt = m.bitCnt := by
  unfold copy at h
  split_ifs at h
  cases h
  rfl

theorem copy_bit (h : m.copy src = some m') (j : Nat) : m'.bit j = src.bit j := by
  unfold copy at h
  split_ifs at h
  cases h
  have hlen := src.length_eq
  simp only [bit, bitOf, List.getD_eq_getElem?_getD, ← hlen, List.take_length]
  by_cases hj : j / 8 < src.bitArr.length
  · rw [List.getElem?_append_left hj]
  · rw [List.getElem?_append_right (Nat.not_lt.1 hj), List.getElem?_eq_none (Nat.not_lt.1 hj)]
    rw [List.getElem?_drop, List.getElem?_replicate]
    split_ifs <;> simp

/-! ### The first zero bit -/

theorem and_shift_eq_zero (b : BitVec 8) {k : Nat} (hk : k < 8) : b &&& 1#8 <<< k = 0#8 ↔ b.getLsbD k = false := by
  rw [← BitVec.twoPow_eq, BitVec.and_twoPow]
  by_cases hb : b.getLsbD k = true
  · have hne : BitVec.twoPow 8 k ≠ 0#8 := by
      intro h
      have := congrArg (·.getLsbD k) h
      simp [hk] at this
    simp [hb, hne]
  · simp [hb]

theorem bitOf_cons_lt {b : BitVec 8} {bytes : List (BitVec 8)} {j : Nat} (h : j < 8) :
    bitOf (b :: bytes) j = b.getLsbD j := by
  rw [bitOf, Nat.div_eq_of_lt h, Nat.mod_eq_of_lt h]
  rfl

theorem bitOf_cons_add {b : BitVec 8} {bytes : List (BitVec 8)} {j : Nat} :
    bitOf (b :: bytes) (j + 8) = bitOf bytes j := by
  simp [bitOf]

/-- What a scan from `pos` has to return, `bit` counted from there. -/
def FirstZero (cnt : Nat) (bit : Nat → Bool) (pos : Nat) : Option Nat → Prop
  | some p => ∃ j, p = pos + j ∧ p < cnt ∧ bit j = false ∧ ∀ k < j, bit k = true
  | none => ∀ j, pos + j < cnt → bit j = true

theorem FirstZero.shift {cnt pos d : Nat} {bit : Nat → Bool} {r : Option Nat} (hd : ∀ k < d, bit k = true)
    (h : FirstZero cnt (fun j => bit (j + d)) (pos + d) r) : FirstZero cnt bit pos r := by
  cases r with
  | none =>
    intro j hj
    by_cases hjd : j < d
    · exact hd j hjd
    · have := h (j - d) (by omega)
      simpa [Nat.sub_add_cancel (Nat.not_lt.1 hjd)] using this
  | some p =>
    obtain ⟨j, rfl, hp, hbit, hall⟩ := h
    refine ⟨j + d, by omega, hp, hbit, fun k hk => ?_⟩
    by_cases hkd : k < d
    · exact hd k hkd
    · have := hall (k - d) (by omega)
      simpa [Nat.sub_add_cancel (Nat.not_lt.1 hkd)] using this

theorem scanByte_none {cnt : Nat} {b : BitVec 8} {n pos : Nat} (hn : n ≤ 8) (h : scanByte cnt b n pos = none) :
    ∀ j < n, b.getLsbD (8 - n + j) = true := by
  induction n generalizing pos with
  | zero => intro j hj; omega
  | succ n ih =>
    rw [scanByte] at h
    split_ifs at h with hpos hbit
    rw [and_shift_eq_zero _ (by omega), Bool.not_eq_false] at hbit
    intro j hj
    rcases j with _ | j
    · exact hbit
    · rw [show 8 - (n + 1) + (j + 1) = 8 - n + j by omega]
      exact ih (by omega) h j (by omega)

/-- A scan that returns inside a byte returns the first zero bit. -/
theorem scanByte_some {cnt : Nat} {b : BitVec 8} {n pos : Nat} {bit : Nat → Bool} {r : Option Nat} (hn : n ≤ 8)
    (hbit : ∀ j < n, bit j = b.getLsbD (8 - n + j)) (h : scanByte cnt b n pos = some r) : FirstZero cnt bit pos r := by
  induction n generalizing pos bit with
  | zero => cases h
  | succ n ih =>
    rw [scanByte] at h
    have h0 : bit 0 = b.getLsbD (8 - (n + 1)) := hbit 0 (by omega)
    split_ifs at h with hpos hz
    · cases h
      intro j hj
      omega
    · cases h
      rw [and_shift_eq_zero _ (by omega), ← h0] at hz
      exact ⟨0, rfl, Nat.not_le.1 hpos, hz, fun k hk => absurd hk (by omega)⟩
    · rw [and_shift_eq_zero _ (by omega), Bool.not_eq_false, ← h0] at hz
      have hshift : FirstZero cnt (fun j => bit (j + 1)) (pos + 1) r := by
        apply ih (by omega) _ h
        intro j hj
        rw [hbit (j + 1) (by omega)]
        congr 1
        omega
      exact hshift.shift fun k hk => by
        obtain rfl : k = 0 := by omega
        exact hz

theorem scan_firstZero {cnt : Nat} {bytes : List (BitVec 8)} {pos : Nat} (hlen : cnt ≤ pos + 8 * bytes.length) :
    FirstZero cnt (bitOf bytes) pos (scan cnt bytes pos) := by
  induction bytes generalizing pos with
  | nil =>
    intro j hj
    rw [List.length_nil] at hlen
    omega
  | cons b bytes ih =>
    rw [List.length_cons] at hlen
    have hrest : (∀ k < 8, b.getLsbD k = true) → FirstZero cnt (bitOf (b :: bytes)) pos (scan cnt bytes (pos + 8)) := by
      intro hall
      have hnext : FirstZero cnt (bitOf bytes) (pos + 8) (scan cnt bytes (pos + 8)) := ih (by omega)
      apply FirstZero.shift (d := 8) (fun k hk => by rw [bitOf_cons_lt hk]; exact hall k hk)
      simpa only [bitOf_cons_add] using hnext
    rw [scan]
    split_ifs with hff
    · subst hff
      exact hrest (by decide)
    · rcases hr : scanByte cnt b 8 pos with _ | r
      · exact hrest fun k hk => by simpa using scanByte_none (Nat.le_refl 8) hr k hk
      · apply scanByte_some (Nat.le_refl 8) _ hr
        intro j hj
        rw [bitOf_cons_lt hj]
        simp

/-- `bitmap_find_first_zero_bit` returns the first zero bit, and -1 if there is none. -/
theorem findFirstZeroBit_spec : FirstZero m.bitCnt.toNat m.bit 0 m.findFirstZeroBit := by
  have hlen := m.length_eq
  have hcnt := m.bitArrCnt_eq
  rw [findFirstZeroBit, ← hlen, List.take_length]
  exact scan_firstZero (by omega)

theorem findFirstZeroBit_some {p : Nat} (h : m.findFirstZeroBit = some p) :
    p < m.bitCnt.toNat ∧ m.bit p = false := by
  have hspec := findFirstZeroBit_spec (m := m)
  rw [h] at hspec
  obtain ⟨j, rfl, hlt, hbit, -⟩ := hspec
  exact ⟨hlt, by rwa [Nat.zero_add]⟩

theorem findFirstZeroBit_none (h : m.findFirstZeroBit = none) {p : Nat} (hp : p < m.bitCnt.toNat) :
    m.bit p = true := by
  have hspec := findFirstZeroBit_spec (m := m)
  rw [h] at hspec
  exact hspec p (by omega)

end Bitmap

end Aosl
