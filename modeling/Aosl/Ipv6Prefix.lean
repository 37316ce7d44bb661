import Aosl.Ipv6
import Aosl.Lib.BitString

/-!
# Prefixes of IPv6 addresses, `include/kernel/ipv6.h`

The functions on prefixes compare and copy whole words and bytes, and treat the rest with masks in network byte order.
On every host they compute on the bits of the address: the first `prefixlen` of them (`ipv6_prefix`).
-/

namespace Aosl

namespace Ipv6

open Lib
open Inet (store)

/-! ### The code -/

/-- `x & m` and its kin on an `int`, stored in a byte. -/
def lowByte (w : BitVec 32) : UInt8 := UInt8.ofBitVec (w.setWidth 8)

def wide (x : UInt8) : BitVec 32 := x.toBitVec.setWidth 32

/-- `s6_addr_v [o]`. -/
def s6Addr (a6 : List UInt8) (o : Nat) : Option UInt8 := a6[o]?

/-- `pfx` afterwards. -/
def ipv6AddrPrefix (addr : List UInt8) (plen : Nat) : Option (List UInt8) := do
  let o := plen >>> 3
  let b := plen &&& 0x7
  let pfx ← store (List.replicate 16 0) 0 (← load addr 0 o)
  if b = 0 then
    return pfx
  store pfx o [lowByte (wide (← s6Addr addr o) &&& (0xff00#32 >>> b))]

/-- `addr` afterwards. -/
def ipv6AddrPrefixCopy (addr pfx : List UInt8) (plen : Nat) : Option (List UInt8) := do
  let o := plen >>> 3
  let b := plen &&& 0x7
  let addr ← store addr 0 (← load pfx 0 o)
  if b = 0 then
    return addr
  let addr ← store addr o [lowByte (wide (← s6Addr addr o) &&& ~~~(0xff00#32 >>> b))]
  store addr o [lowByte (wide (← s6Addr addr o) ||| (wide (← s6Addr pfx o) &&& (0xff00#32 >>> b)))]

/-- One term of `ipv6_masked_addr_cmp`. -/
def maskedWord (host : Endian) (a1 m a2 : List UInt8) (i : Nat) : Option (BitVec 32) := do
  return ((← s6Addr32 host a1 i) ^^^ (← s6Addr32 host a2 i)) &&& (← s6Addr32 host m i)

def ipv6MaskedAddrCmp (host : Endian) (a1 m a2 : List UInt8) : Option Bool := do
  return (← maskedWord host a1 m a2 0) ||| (← maskedWord host a1 m a2 1) ||| (← maskedWord host a1 m a2 2) |||
    (← maskedWord host a1 m a2 3) ≠ 0

/-! ### Words -/

section
variable {l r bs bs' ms : List UInt8} {host : Endian} {k : Nat}

theorem testBit_lowFirst_cons (b : UInt8) (bs : List UInt8) (j : Nat) :
    (lowFirst (b :: bs)).testBit j = if j < 8 then b.toNat.testBit j else (lowFirst bs).testBit (j - 8) := by
  rw [lowFirst, Nat.add_comm]
  exact Nat.testBit_two_pow_mul_add (lowFirst bs) (i := 8) b.toNat_lt j

theorem lowFirst_zipWith {op : UInt8 → UInt8 → UInt8} {nop : Nat → Nat → Nat} {bop : Bool → Bool → Bool}
    (hop : ∀ x y j, (op x y).toNat.testBit j = bop (x.toNat.testBit j) (y.toNat.testBit j))
    (hnop : ∀ m n j, (nop m n).testBit j = bop (m.testBit j) (n.testBit j)) (hbop : bop false false = false)
    (h : l.length = r.length) : lowFirst (List.zipWith op l r) = nop (lowFirst l) (lowFirst r) := by
  induction l generalizing r with
  | nil =>
    cases r with
    | nil =>
      apply Nat.eq_of_testBit_eq
      intro j
      rw [hnop]
      simp [lowFirst, hbop]
    | cons c r => cases h
  | cons b l ih =>
    cases r with
    | nil => cases h
    | cons c r =>
      apply Nat.eq_of_testBit_eq
      intro j
      rw [hnop, List.zipWith_cons_cons, testBit_lowFirst_cons, testBit_lowFirst_cons, testBit_lowFirst_cons]
      by_cases hj : j < 8
      · rw [if_pos hj, if_pos hj, if_pos hj, hop]
      · rw [if_neg hj, if_neg hj, if_neg hj, ih (Nat.succ.inj h), hnop]

theorem load_and (host : Endian) (w : Nat) (h : l.length = r.length) :
    host.load w (List.zipWith (· &&& ·) l r) = host.load w l &&& host.load w r := by
  have hlow : ∀ l r : List UInt8, l.length = r.length →
      lowFirst (List.zipWith (· &&& ·) l r) = lowFirst l &&& lowFirst r :=
    fun l r => lowFirst_zipWith testBit_and Nat.testBit_and rfl
  cases host with
  | little => rw [Endian.load, Endian.load, Endian.load, hlow l r h, BitVec.ofNat_and]
  | big =>
    rw [Endian.load, Endian.load, Endian.load, List.reverse_zipWith h, hlow _ _ (by simpa using h), BitVec.ofNat_and]

theorem load_xor (host : Endian) (w : Nat) (h : l.length = r.length) :
    host.load w (List.zipWith (· ^^^ ·) l r) = host.load w l ^^^ host.load w r := by
  have hlow : ∀ l r : List UInt8, l.length = r.length →
      lowFirst (List.zipWith (· ^^^ ·) l r) = lowFirst l ^^^ lowFirst r :=
    fun l r => lowFirst_zipWith testBit_xor Nat.testBit_xor rfl
  cases host with
  | little => rw [Endian.load, Endian.load, Endian.load, hlow l r h, BitVec.ofNat_xor]
  | big =>
    rw [Endian.load, Endian.load, Endian.load, List.reverse_zipWith h, hlow _ _ (by simpa using h), BitVec.ofNat_xor]

theorem masked_eq_zero (host : Endian) (h : bs.length = 4) (h' : bs'.length = 4) (hm : ms.length = 4) :
    (host.load 32 bs ^^^ host.load 32 bs') &&& host.load 32 ms = 0 ↔
      ∀ i < 32, bitAt ms i = true → bitAt bs i = bitAt bs' i := by
  have hlen : (List.zipWith (· ^^^ ·) bs bs').length = 4 := by simp [h, h']
  have hlen' : (List.zipWith (· &&& ·) (List.zipWith (· ^^^ ·) bs bs') ms).length = 4 := by simp [h, h', hm]
  have hzero : ∀ i < 32, bitAt [0, 0, 0, 0] i = false := by decide
  rw [← load_xor host 32 (h.trans h'.symm), ← load_and host 32 (hlen.trans hm.symm),
    show (0 : BitVec 32) = 0#32 from rfl, load32_zero host, load32_inj host hlen' rfl, eq_iff_bitAt hlen', hlen']
  refine forall₂_congr fun i hi => ?_
  rw [bitAt_zipWith testBit_and (hlen.trans hm.symm) (hlen ▸ hi), bitAt_zipWith testBit_xor (h.trans h'.symm) (h ▸ hi),
    hzero i hi]
  cases bitAt bs i <;> cases bitAt bs' i <;> cases bitAt ms i <;> decide

theorem mask_be (host : Endian) : ∀ k < 32, 0 < k →
    host.cpuToBe swab32 (0xffffffff <<< (32 - k)) = host.load 32 (maskBytes 4 k) := by
  cases host <;> decide

/-! ### Addresses -/

variable {a b m : List UInt8} {n i : Nat}

/-- The bytes of `s6_addr32_v [i]`. -/
def word (a : List UInt8) (i : Nat) : List UInt8 := (a.drop (4 * i)).take 4

theorem length_word (ha : a.length = 16) (hi : i < 4) : (word a i).length = 4 := by
  rw [word, List.length_take, List.length_drop]
  omega

theorem bitAt_word (a : List UInt8) (i : Nat) {j : Nat} (hj : j < 32) : bitAt (word a i) j = bitAt a (32 * i + j) := by
  rw [word, bitAt_take (by omega), bitAt_drop]
  congr 1
  omega

theorem s6Addr32_word (host : Endian) (ha : a.length = 16) (hi : i < 4) :
    s6Addr32 host a i = some (host.load 32 (word a i)) := by
  rw [s6Addr32, load, if_pos (by omega), Option.map_some]
  rfl

theorem load_zero (ha : n ≤ a.length) : load a 0 n = some (a.take n) := by
  rw [load, if_pos (by omega), List.drop_zero]

theorem take_eq_iff (ha : a.length = 16) (hb : b.length = 16) (hn : n ≤ 16) :
    a.take n = b.take n ↔ ∀ i < 8 * n, bitAt a i = bitAt b i := by
  have hlen : (a.take n).length = n := by rw [List.length_take, ha, Nat.min_eq_left hn]
  have hlen' : (b.take n).length = n := by rw [List.length_take, hb, Nat.min_eq_left hn]
  rw [eq_iff_bitAt (hlen.trans hlen'.symm), hlen]
  exact forall₂_congr fun i hi => by rw [bitAt_take hi, bitAt_take hi]

theorem shifted (n : Nat) : 32 * (n >>> 5) + (n &&& 0x1f) = n ∧ (n &&& 0x1f) < 32 := by
  rw [Nat.shiftRight_eq_div_pow, Nat.and_two_pow_sub_one_eq_mod n 5]
  omega

/-- Whole words are compared by `memcmp`, and the rest with a mask. -/
theorem ipv6PrefixEqual_bits (host : Endian) (ha : a.length = 16) (hb : b.length = 16) (hn : n ≤ 128) :
    ipv6PrefixEqual host a b n = some (decide (∀ i < n, bitAt a i = bitAt b i)) := by
  obtain ⟨hsplit, hrest⟩ := shifted n
  have hbytes : (n >>> 5) <<< 2 = 4 * (n >>> 5) := by rw [Nat.shiftLeft_eq]; omega
  rw [ipv6PrefixEqual]
  generalize n >>> 5 = pdw at *
  generalize n &&& 0x1f = pbi at *
  have hhead := take_eq_iff (n := 4 * pdw) ha hb (by omega)
  simp only [hbytes, load_zero (a := a) (n := 4 * pdw) (by omega), load_zero (a := b) (n := 4 * pdw) (by omega),
    Option.bind_eq_bind, Option.bind_some]
  by_cases htake : a.take (4 * pdw) = b.take (4 * pdw)
  · rw [if_neg fun h => h.2 htake]
    have hwhole : ∀ i < 32 * pdw, bitAt a i = bitAt b i := fun i hi => hhead.1 htake i (by omega)
    by_cases h0 : pbi = 0
    · rw [if_pos h0]
      exact congrArg some (decide_eq_true fun i hi => hwhole i (by omega)).symm
    · have hpdw : pdw < 4 := by omega
      have hmask : ∀ i < 32, bitAt (maskBytes 4 pbi) i = decide (i < pbi) := fun i hi => bitAt_maskBytes hi
      simp only [if_neg h0, s6Addr32_word host ha hpdw, s6Addr32_word host hb hpdw, Option.bind_some,
        mask_be host pbi hrest (Nat.pos_of_ne_zero h0)]
      refine congrArg some (decide_eq_decide.2 ?_)
      rw [masked_eq_zero host (length_word ha hpdw) (length_word hb hpdw) (length_maskBytes 4 pbi)]
      constructor
      · intro hbits i hi
        by_cases hlt : i < 32 * pdw
        · exact hwhole i hlt
        · have hword := hbits (i - 32 * pdw) (by omega) (by rw [hmask _ (by omega)]; exact decide_eq_true (by omega))
          rwa [bitAt_word a pdw (by omega), bitAt_word b pdw (by omega),
            Nat.add_sub_cancel' (Nat.le_of_not_lt hlt)] at hword
      · intro hbits i hi hset
        rw [hmask i hi, decide_eq_true_eq] at hset
        rw [bitAt_word a pdw hi, bitAt_word b pdw hi]
        exact hbits _ (by omega)
  · have hpdw : pdw ≠ 0 := by
      rintro rfl
      exact htake rfl
    rw [if_pos ⟨hpdw, htake⟩]
    refine congrArg some (decide_eq_false fun hbits => htake ?_).symm
    exact hhead.2 fun i hi => hbits i (by omega)

/-! ### Copying prefixes -/

theorem store_bits (buf bs : List UInt8) (o : Nat) (h : o + bs.length ≤ buf.length) :
    ∃ buf', store buf o bs = some buf' ∧ buf'.length = buf.length ∧
      ∀ i, bitAt buf' i = if 8 * o ≤ i ∧ i < 8 * (o + bs.length) then bitAt bs (i - 8 * o) else bitAt buf i := by
  refine ⟨buf.take o ++ bs ++ buf.drop (o + bs.length), by rw [store, if_pos h], ?_, fun i => ?_⟩
  · simp only [List.length_append, List.length_take, List.length_drop]
    omega
  · have htake : (buf.take o).length = o := by rw [List.length_take, Nat.min_eq_left (by omega)]
    rw [bitAt_append, bitAt_append, List.length_append, htake]
    by_cases hlow : i < 8 * o
    · rw [if_pos (by omega), if_pos hlow, if_neg (by omega), bitAt_take hlow]
    · by_cases hmid : i < 8 * (o + bs.length)
      · rw [if_pos hmid, if_neg hlow, if_pos ⟨by omega, hmid⟩]
      · rw [if_neg hmid, if_neg (by omega), bitAt_drop]
        congr 1
        omega

theorem lowByte_and (x : UInt8) (w : BitVec 32) : lowByte (wide x &&& w) = x &&& lowByte w := by
  apply UInt8.toBitVec_inj.1
  simp [lowByte, wide]

theorem lowByte_or (x : UInt8) (w : BitVec 32) : lowByte (wide x ||| w) = x ||| lowByte w := by
  apply UInt8.toBitVec_inj.1
  simp [lowByte, wide]

theorem lowByte_mask : ∀ b < 8,
    lowByte (0xff00#32 >>> b) = maskByte b ∧ lowByte (~~~(0xff00#32 >>> b)) = ~~~maskByte b := by decide

theorem testBit_not_mask : ∀ b < 8, ∀ j < 8, (~~~maskByte b).toNat.testBit (7 - j) = !decide (j < b) := by decide

theorem testBit_prefix {b j : Nat} (x : UInt8) (hb : b < 8) (hj : j < 8) :
    (lowByte (wide x &&& (0xff00#32 >>> b))).toNat.testBit (7 - j) = (decide (j < b) && x.toNat.testBit (7 - j)) := by
  rw [lowByte_and, (lowByte_mask b hb).1, testBit_and, testBit_maskByte b (by omega) j hj, Bool.and_comm]

theorem testBit_clear {b j : Nat} (x : UInt8) (hb : b < 8) (hj : j < 8) :
    (lowByte (wide x &&& ~~~(0xff00#32 >>> b))).toNat.testBit (7 - j) =
      (x.toNat.testBit (7 - j) && !decide (j < b)) := by
  rw [lowByte_and, (lowByte_mask b hb).2, testBit_and, testBit_not_mask b hb j hj]

theorem testBit_join {b j : Nat} (x y : UInt8) (hb : b < 8) (hj : j < 8) :
    (lowByte (wide x ||| (wide y &&& (0xff00#32 >>> b)))).toNat.testBit (7 - j) =
      (x.toNat.testBit (7 - j) || decide (j < b) && y.toNat.testBit (7 - j)) := by
  rw [lowByte_or, UInt8.toNat_or, Nat.testBit_or, testBit_prefix y hb hj]

theorem shifted8 (n : Nat) : 8 * (n >>> 3) + (n &&& 0x7) = n ∧ (n &&& 0x7) < 8 := by
  rw [Nat.shiftRight_eq_div_pow, Nat.and_two_pow_sub_one_eq_mod n 3]
  omega

theorem bitAt_zeros (k i : Nat) : bitAt (List.replicate k 0) i = false := by
  rw [bitAt, List.getD_eq_getElem?_getD, List.getElem?_replicate]
  by_cases h : i / 8 < k <;> simp [h]

theorem bitAt_byte {o : Nat} (ho : o < a.length) (hi : 8 * o ≤ i ∧ i < 8 * (o + 1)) :
    bitAt a i = a[o].toNat.testBit (7 - (i - 8 * o)) := by
  rw [bitAt, show i / 8 = o by omega, show i % 8 = i - 8 * o by omega, List.getD_eq_getElem?_getD,
    List.getElem?_eq_getElem ho, Option.getD_some]

theorem ipv6AddrPrefix_bits (ha : a.length = 16) (hn : n ≤ 128) :
    ∃ p, ipv6AddrPrefix a n = some p ∧ p.length = 16 ∧ ∀ i < 128, bitAt p i = (decide (i < n) && bitAt a i) := by
  obtain ⟨hsplit, hrest⟩ := shifted8 n
  rw [ipv6AddrPrefix]
  generalize n >>> 3 = o at *
  generalize n &&& 0x7 = b at *
  have hlen : (a.take o).length = o := by rw [List.length_take, ha, Nat.min_eq_left (by omega)]
  obtain ⟨p, hp, hplen, hpbits⟩ := store_bits (List.replicate 16 0) (a.take o) 0
    (by rw [hlen, List.length_replicate]; omega)
  rw [hlen, Nat.zero_add] at hpbits
  simp only [load_zero (a := a) (n := o) (by omega), hp, Option.bind_eq_bind, Option.bind_some]
  have hwhole : ∀ i, bitAt p i = (decide (i < 8 * o) && bitAt a i) := fun i => by
    rw [hpbits i]
    by_cases hi : i < 8 * o
    · rw [if_pos ⟨Nat.zero_le _, hi⟩, bitAt_take (by omega)]
      simp [hi]
    · rw [if_neg fun h => hi h.2, bitAt_zeros]
      simp [hi]
  by_cases h0 : b = 0
  · subst h0
    refine ⟨p, if_pos rfl, hplen, fun i _ => ?_⟩
    rw [hwhole i, ← hsplit, Nat.add_zero]
  · have ho : o < 16 := by omega
    obtain ⟨q, hq, hqlen, hqbits⟩ := store_bits p [lowByte (wide a[o] &&& (0xff00#32 >>> b))] o
      (by rw [hplen, List.length_singleton, List.length_replicate]; omega)
    refine ⟨q, ?_, hqlen.trans hplen, fun i hi => ?_⟩
    · rw [if_neg h0, s6Addr, List.getElem?_eq_getElem (by omega)]
      exact hq
    · rw [hqbits i, List.length_singleton]
      by_cases hmid : 8 * o ≤ i ∧ i < 8 * (o + 1)
      · rw [if_pos hmid, bitAt_cons (by omega), testBit_prefix _ hrest (by omega), ← bitAt_byte (by omega) hmid]
        exact congrArg (· && _) (decide_eq_decide.2 (by omega))
      · rw [if_neg hmid, hwhole]
        exact congrArg (· && _) (decide_eq_decide.2 (by omega))

/-- The bits of the prefix come from `pfx`, and the others stay. -/
theorem ipv6AddrPrefixCopy_bits (ha : a.length = 16) (hb : b.length = 16) (hn : n ≤ 128) :
    ∃ c, ipv6AddrPrefixCopy a b n = some c ∧ c.length = 16 ∧
      ∀ i < 128, bitAt c i = if i < n then bitAt b i else bitAt a i := by
  obtain ⟨hsplit, hrest⟩ := shifted8 n
  rw [ipv6AddrPrefixCopy]
  generalize n >>> 3 = o at *
  generalize n &&& 0x7 = k at *
  have hlen : (b.take o).length = o := by rw [List.length_take, hb, Nat.min_eq_left (by omega)]
  obtain ⟨p, hp, hplen, hpbits⟩ := store_bits a (b.take o) 0 (by rw [hlen]; omega)
  rw [hlen, Nat.zero_add] at hpbits
  simp only [load_zero (a := b) (n := o) (by omega), hp, Option.bind_eq_bind, Option.bind_some]
  have hwhole : ∀ i, bitAt p i = if i < 8 * o then bitAt b i else bitAt a i := fun i => by
    rw [hpbits i]
    by_cases hi : i < 8 * o
    · rw [if_pos ⟨Nat.zero_le _, hi⟩, if_pos hi, bitAt_take (by omega)]
      rfl
    · rw [if_neg fun h => hi h.2, if_neg hi]
  by_cases h0 : k = 0
  · subst h0
    refine ⟨p, if_pos rfl, hplen.trans ha, fun i _ => ?_⟩
    rw [hwhole i, ← hsplit, Nat.add_zero]
  · have ho : o < 16 := by omega
    have hop : o < p.length := by omega
    obtain ⟨q, hq, hqlen, hqbits⟩ := store_bits p [lowByte (wide p[o] &&& ~~~(0xff00#32 >>> k))] o
      (by rw [List.length_singleton]; omega)
    have hoq : o < q.length := by omega
    obtain ⟨r, hr, hrlen, hrbits⟩ := store_bits q
      [lowByte (wide q[o] ||| (wide b[o] &&& (0xff00#32 >>> k)))] o (by rw [List.length_singleton]; omega)
    refine ⟨r, ?_, by omega, fun i hi => ?_⟩
    · rw [if_neg h0, s6Addr, List.getElem?_eq_getElem hop]
      simp only [Option.bind_some, hq, s6Addr, List.getElem?_eq_getElem hoq,
        List.getElem?_eq_getElem (show o < b.length by omega)]
      exact hr
    · rw [hrbits i, List.length_singleton]
      by_cases hmid : 8 * o ≤ i ∧ i < 8 * (o + 1)
      · rw [if_pos hmid, bitAt_cons (by omega), testBit_join _ _ hrest (by omega), ← bitAt_byte hoq hmid,
          ← bitAt_byte (by omega) hmid, hqbits i, List.length_singleton, if_pos hmid, bitAt_cons (by omega),
          testBit_clear _ hrest (by omega), ← bitAt_byte hop hmid, hwhole i, if_neg (by omega)]
        by_cases hlt : i - 8 * o < k
        · rw [if_pos (by omega)]
          simp [hlt]
        · rw [if_neg (by omega)]
          simp [hlt]
      · rw [if_neg hmid, hqbits i, List.length_singleton, if_neg hmid, hwhole i]
        by_cases hlt : i < 8 * o
        · rw [if_pos hlt, if_pos (by omega)]
        · rw [if_neg hlt, if_neg (by omega)]

/-- A term is 0 if the addresses agree in the bits of the mask that are in its word. -/
theorem maskedWord_bits (host : Endian) (ha : a.length = 16) (hm : m.length = 16) (hb : b.length = 16) {w : Nat}
    (hw : w < 4) : ∃ x, maskedWord host a m b w = some x ∧
      (x = 0#32 ↔ ∀ i < 32, bitAt m (32 * w + i) = true → bitAt a (32 * w + i) = bitAt b (32 * w + i)) := by
  refine ⟨(host.load 32 (word a w) ^^^ host.load 32 (word b w)) &&& host.load 32 (word m w), ?_, ?_⟩
  · simp only [maskedWord, s6Addr32_word host ha hw, s6Addr32_word host hb hw, s6Addr32_word host hm hw]
    rfl
  · refine (masked_eq_zero host (length_word ha hw) (length_word hb hw) (length_word hm hw)).trans ?_
    exact forall₂_congr fun i hi => by rw [bitAt_word m w hi, bitAt_word a w hi, bitAt_word b w hi]

theorem ipv6MaskedAddrCmp_bits (host : Endian) (ha : a.length = 16) (hm : m.length = 16) (hb : b.length = 16) :
    ∃ x, ipv6MaskedAddrCmp host a m b = some (decide (x ≠ 0#32)) ∧
      (x = 0#32 ↔ ∀ i < 128, bitAt m i = true → bitAt a i = bitAt b i) := by
  obtain ⟨x₀, hx₀, h₀⟩ := maskedWord_bits host ha hm hb (w := 0) (by decide)
  obtain ⟨x₁, hx₁, h₁⟩ := maskedWord_bits host ha hm hb (w := 1) (by decide)
  obtain ⟨x₂, hx₂, h₂⟩ := maskedWord_bits host ha hm hb (w := 2) (by decide)
  obtain ⟨x₃, hx₃, h₃⟩ := maskedWord_bits host ha hm hb (w := 3) (by decide)
  refine ⟨x₀ ||| x₁ ||| x₂ ||| x₃, by rw [ipv6MaskedAddrCmp, hx₀, hx₁, hx₂, hx₃]; rfl, ?_⟩
  rw [BitVec.or_eq_zero_iff, BitVec.or_eq_zero_iff, BitVec.or_eq_zero_iff, h₀, h₁, h₂, h₃]
  constructor
  · rintro ⟨⟨⟨h₀, h₁⟩, h₂⟩, h₃⟩ i hi
    obtain hlt | hlt | hlt | hlt : i < 32 ∨ (32 ≤ i ∧ i < 64) ∨ (64 ≤ i ∧ i < 96) ∨ 96 ≤ i := by omega
    · simpa using h₀ i hlt
    · simpa [show 32 + (i - 32) = i by omega] using h₁ (i - 32) (by omega)
    · simpa [show 64 + (i - 64) = i by omega] using h₂ (i - 64) (by omega)
    · simpa [show 96 + (i - 96) = i by omega] using h₃ (i - 96) (by omega)
  · intro h
    exact ⟨⟨⟨fun i hi => h _ (by omega), fun i hi => h _ (by omega)⟩, fun i hi => h _ (by omega)⟩,
      fun i hi => h _ (by omega)⟩

end

/-- What the functions on prefixes say of each other, for the first `n` bits of `a` and `b`. -/
structure PrefixAlgebra (host : Endian) (a b : List UInt8) (n : Nat) : Prop where
  equal : ipv6PrefixEqual host a b n = some (decide (∀ i < n, bitAt a i = bitAt b i))
  pfx : ∃ p, ipv6AddrPrefix a n = some p ∧ p.length = 16 ∧ ∀ i < 128, bitAt p i = (decide (i < n) && bitAt a i)
  pfx_eq : ipv6PrefixEqual host a b n = some true ↔ ipv6AddrPrefix a n = ipv6AddrPrefix b n
  copy : ∃ c, ipv6AddrPrefixCopy a b n = some c ∧ c.length = 16 ∧
    (∀ i < 128, bitAt c i = if i < n then bitAt b i else bitAt a i) ∧ ipv6PrefixEqual host c b n = some true
  mask : ∀ m : List UInt8, m.length = 16 → (∀ i < 128, bitAt m i = decide (i < n)) →
    ipv6MaskedAddrCmp host a m b = (ipv6PrefixEqual host a b n).map not

/-- For any two addresses and any length, on both kinds of hosts. -/
theorem ipv6_prefix (host : Endian) {a b : List UInt8} {n : Nat} (ha : a.length = 16) (hb : b.length = 16)
    (hn : n ≤ 128) : PrefixAlgebra host a b n where
  equal := ipv6PrefixEqual_bits host ha hb hn
  pfx := ipv6AddrPrefix_bits ha hn
  pfx_eq := by
    obtain ⟨p, hp, hplen, hpbits⟩ := ipv6AddrPrefix_bits ha hn
    obtain ⟨q, hq, hqlen, hqbits⟩ := ipv6AddrPrefix_bits hb hn
    rw [ipv6PrefixEqual_bits host ha hb hn, hp, hq, Option.some_inj, Option.some_inj, decide_eq_true_eq,
      eq_iff_bitAt (hplen.trans hqlen.symm), hplen]
    constructor
    · intro h i hi
      rw [hpbits i hi, hqbits i hi]
      by_cases hlt : i < n
      · rw [h i hlt]
      · simp only [decide_eq_false hlt, Bool.false_and]
    · intro h i hi
      have hbit := h i (by omega)
      rwa [hpbits i (by omega), hqbits i (by omega), decide_eq_true hi, Bool.true_and, Bool.true_and] at hbit
  copy := by
    obtain ⟨c, hc, hclen, hcbits⟩ := ipv6AddrPrefixCopy_bits ha hb hn
    refine ⟨c, hc, hclen, hcbits, ?_⟩
    rw [ipv6PrefixEqual_bits host hclen hb hn]
    exact congrArg some (decide_eq_true fun i hi => by rw [hcbits i (by omega), if_pos hi])
  mask m hm hbits := by
    obtain ⟨x, hx, hzero⟩ := ipv6MaskedAddrCmp_bits host ha hm hb
    have hiff : x = 0#32 ↔ ∀ i < n, bitAt a i = bitAt b i := by
      rw [hzero]
      constructor
      · intro h i hi
        exact h i (by omega) (by rw [hbits i (by omega), decide_eq_true hi])
      · intro h i hi hset
        rw [hbits i hi, decide_eq_true_eq] at hset
        exact h i hset
    rw [hx, ipv6PrefixEqual_bits host ha hb hn, Option.map_some, ← decide_not]
    exact congrArg some (decide_eq_decide.2 (not_congr hiff))

/-- A prefix that ends inside of a byte: `2001:db8::/29` and `2001:dbf::/29`. -/
theorem ipv6_prefix_29 : PrefixAlgebra .little [0x20, 1, 0xd, 0xb8, 0, 0, 0, 0, 0, 0, 0, 0, 0, 0, 0, 1]
    [0x20, 1, 0xd, 0xbf, 0xff, 0, 0, 0, 0, 0, 0, 0, 0, 0, 0, 2] 29 :=
  ipv6_prefix .little rfl rfl (by decide)

end Ipv6

end Aosl
