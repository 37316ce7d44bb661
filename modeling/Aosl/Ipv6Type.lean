import Aosl.Ipv6Prefix

/-!
# The types of IPv6 addresses, `__ipv6_addr_type`

The chain of tests on words in network byte order is a lookup in a table of prefixes, where the longest one counts, on
every host; the predicates of `kernel/ipv6.h` are tests for single prefixes of it (`ipv6_addr_type`).
-/

namespace Aosl

namespace Ipv6

open Lib

/-! ### The code -/

namespace AddrType

/-- `IPV6_ADDR_ANY` and its kin. -/
def any : Nat := 0x0000

def unicast : Nat := 0x0001

def multicast : Nat := 0x0002

def loopback : Nat := 0x0010

def linklocal : Nat := 0x0020

def sitelocal : Nat := 0x0040

def compatv4 : Nat := 0x0080

def mapped : Nat := 0x1000

end AddrType

namespace AddrScope

/-- `IPV6_ADDR_SCOPE_NODELOCAL` and its kin. -/
def nodelocal : Nat := 0x01

def linklocal : Nat := 0x02

def sitelocal : Nat := 0x05

def global : Nat := 0x0e

end AddrScope

/-- `IPV6_ADDR_SCOPE_TYPE`. -/
def scopeType (scope : Nat) : Nat := scope <<< 16

def ipv6AddrScope2type (scope : Nat) : Nat :=
  if scope = AddrScope.nodelocal then scopeType AddrScope.nodelocal ||| AddrType.loopback
  else if scope = AddrScope.linklocal then scopeType AddrScope.linklocal ||| AddrType.linklocal
  else if scope = AddrScope.sitelocal then scopeType AddrScope.sitelocal ||| AddrType.sitelocal
  else scopeType scope

/-- `aosl__htonl`. -/
def htonl (host : Endian) (x : BitVec 32) : BitVec 32 := host.cpuToBe swab32 x

/-- `__ipv6_addr_type`. -/
def ipv6AddrType (host : Endian) (addr : List UInt8) : Option Nat := do
  let st ← s6Addr32 host addr 0
  if st &&& htonl host 0xE0000000 ≠ htonl host 0x00000000 ∧ st &&& htonl host 0xE0000000 ≠ htonl host 0xE0000000 then
    return AddrType.unicast ||| scopeType AddrScope.global
  if st &&& htonl host 0xFF000000 = htonl host 0xFF000000 then
    return AddrType.multicast ||| ipv6AddrScope2type ((← s6Addr addr 1).toNat &&& 0x0f)
  if st &&& htonl host 0xFFC00000 = htonl host 0xFE800000 then
    return AddrType.linklocal ||| AddrType.unicast ||| scopeType AddrScope.linklocal
  if st &&& htonl host 0xFFC00000 = htonl host 0xFEC00000 then
    return AddrType.sitelocal ||| AddrType.unicast ||| scopeType AddrScope.sitelocal
  if st &&& htonl host 0xFE000000 = htonl host 0xFC000000 then
    return AddrType.unicast ||| scopeType AddrScope.global
  if (← s6Addr32 host addr 0) ||| (← s6Addr32 host addr 1) = 0 then
    if (← s6Addr32 host addr 2) = 0 then
      if (← s6Addr32 host addr 3) = 0 then
        return AddrType.any
      if (← s6Addr32 host addr 3) = htonl host 0x00000001 then
        return AddrType.loopback ||| AddrType.unicast ||| scopeType AddrScope.linklocal
      return AddrType.compatv4 ||| AddrType.unicast ||| scopeType AddrScope.global
    if (← s6Addr32 host addr 2) = htonl host 0x0000ffff then
      return AddrType.mapped ||| scopeType AddrScope.global
  return AddrType.unicast ||| scopeType AddrScope.global

/-- `ipv6_addr_any`. -/
def ipv6AddrAny (host : Endian) (a : List UInt8) : Option Bool := do
  return (← s6Addr32 host a 0) ||| (← s6Addr32 host a 1) ||| (← s6Addr32 host a 2) ||| (← s6Addr32 host a 3) = 0

/-- `ipv6_addr_loopback`. -/
def ipv6AddrLoopback (host : Endian) (a : List UInt8) : Option Bool := do
  return (← s6Addr32 host a 0) ||| (← s6Addr32 host a 1) ||| (← s6Addr32 host a 2) |||
    ((← s6Addr32 host a 3) ^^^ htonl host 1) = 0

def ipv6AddrOrchid (host : Endian) (a : List UInt8) : Option Bool := do
  return (← s6Addr32 host a 0) &&& htonl host 0xfffffff0 = htonl host 0x20010010

def ipv6AddrIsMulticast (host : Endian) (addr : List UInt8) : Option Bool := do
  return (← s6Addr32 host addr 0) &&& htonl host 0xFF000000 = htonl host 0xFF000000

/-! ### Prefixes and rules -/

/-- The address starts with the first `len` bits of `pfx`. -/
def Covers (pfx : List UInt8) (len : Nat) (a : List UInt8) : Prop := ∀ i < len, bitAt a i = bitAt pfx i

instance (pfx : List UInt8) (len : Nat) (a : List UInt8) : Decidable (Covers pfx len a) :=
  inferInstanceAs (Decidable (∀ i < len, bitAt a i = bitAt pfx i))

/-- All addresses with a prefix have a type, which may depend on the address. -/
structure TypeRule where
  pfx : List UInt8
  len : Nat
  type : List UInt8 → Nat

def zeros16 : List UInt8 := List.replicate 16 0

def one16 : List UInt8 := [0, 0, 0, 0, 0, 0, 0, 0, 0, 0, 0, 0, 0, 0, 0, 1]

namespace TypeRule

/-- `::/0`. -/
def other : TypeRule := ⟨zeros16, 0, fun _ => AddrType.unicast ||| scopeType AddrScope.global⟩

/-- `fc00::/7`. -/
def local4193 : TypeRule := ⟨[0xfc, 0, 0, 0], 7, fun _ => AddrType.unicast ||| scopeType AddrScope.global⟩

/-- `ff00::/8`; the scope is in the low half of the second byte. -/
def multicast : TypeRule :=
  ⟨[0xff, 0, 0, 0], 8, fun a => AddrType.multicast ||| ipv6AddrScope2type ((a.getD 1 0).toNat &&& 0x0f)⟩

/-- `fe80::/10`. -/
def linklocal : TypeRule :=
  ⟨[0xfe, 0x80, 0, 0], 10, fun _ => AddrType.linklocal ||| AddrType.unicast ||| scopeType AddrScope.linklocal⟩

/-- `fec0::/10`. -/
def sitelocal : TypeRule :=
  ⟨[0xfe, 0xc0, 0, 0], 10, fun _ => AddrType.sitelocal ||| AddrType.unicast ||| scopeType AddrScope.sitelocal⟩

/-- `::/96`. -/
def compatv4 : TypeRule :=
  ⟨zeros16, 96, fun _ => AddrType.compatv4 ||| AddrType.unicast ||| scopeType AddrScope.global⟩

/-- `::ffff:0:0/96`. -/
def mapped : TypeRule := ⟨mapped96 ++ [0, 0, 0, 0], 96, fun _ => AddrType.mapped ||| scopeType AddrScope.global⟩

/-- `::/128`. -/
def any : TypeRule := ⟨zeros16, 128, fun _ => AddrType.any⟩

/-- `::1/128`. -/
def loopback : TypeRule :=
  ⟨one16, 128, fun _ => AddrType.loopback ||| AddrType.unicast ||| scopeType AddrScope.linklocal⟩

end TypeRule

def typeRules : List TypeRule :=
  [.other, .local4193, .multicast, .linklocal, .sitelocal, .compatv4, .mapped, .any, .loopback]

/-- The longest prefix of the table that the address has decides. -/
structure Longest (a : List UInt8) (r : TypeRule) : Prop where
  mem : r ∈ typeRules
  covers : Covers r.pfx r.len a
  longest : ∀ r' ∈ typeRules, Covers r'.pfx r'.len a → r'.len ≤ r.len

section
variable {a p q bs vs : List UInt8} {k n i w : Nat}

theorem Covers.mono (h : Covers p k a) (hn : n ≤ k) (hpq : ∀ i < n, bitAt p i = bitAt q i) : Covers q n a :=
  fun i hi => (h i (by omega)).trans (hpq i hi)

theorem Covers.clash (h : Covers p k a) (h' : Covers q n a) (hk : i < k) (hn : i < n) (hne : bitAt p i ≠ bitAt q i) :
    False :=
  hne ((h i hk).symm.trans (h' i hn))

theorem masked_eq (host : Endian) (h : bs.length = 4) (h' : vs.length = 4) (hvs : ∀ i < 32, k ≤ i → bitAt vs i = false)
    (hk : k ≤ 32) : host.load 32 bs &&& host.load 32 (maskBytes 4 k) = host.load 32 vs ↔ Covers vs k bs := by
  have hlen : (List.zipWith (· &&& ·) bs (maskBytes 4 k)).length = 4 := by simp [h]
  have hmask : bs.length = (maskBytes 4 k).length := by rw [h, length_maskBytes]
  have hbit : ∀ i < 32, bitAt (List.zipWith (· &&& ·) bs (maskBytes 4 k)) i = (bitAt bs i && decide (i < k)) := by
    intro i hi
    rw [bitAt_zipWith testBit_and hmask (h ▸ hi), bitAt_maskBytes hi]
  rw [← load_and host 32 hmask, load32_inj host hlen h', eq_iff_bitAt (hlen.trans h'.symm), hlen]
  constructor
  · intro hall i hi
    rw [← hall i (by omega), hbit i (by omega), decide_eq_true hi, Bool.and_true]
  · intro hcov i hi
    rw [hbit i hi]
    by_cases hlt : i < k
    · rw [decide_eq_true hlt, Bool.and_true, hcov i hlt]
    · rw [decide_eq_false hlt, Bool.and_false, hvs i hi (by omega)]

theorem first_eq (host : Endian) (ha : a.length = 16) (h' : vs.length = 4) (hk : k ≤ 32)
    (hvs : ∀ i < 32, k ≤ i → bitAt vs i = false) :
    host.load 32 (word a 0) &&& host.load 32 (maskBytes 4 k) = host.load 32 vs ↔ Covers vs k a := by
  rw [masked_eq host (length_word ha (by decide)) h' hvs hk]
  refine forall₂_congr fun i hi => ?_
  rw [bitAt_word a 0 (by omega), Nat.mul_zero, Nat.zero_add]

theorem covers_words (ha : a.length = 16) (hp : p.length = 16) (hn : n ≤ 4) :
    Covers p (32 * n) a ↔ ∀ w < n, word a w = word p w := by
  constructor
  · intro h w hw
    have hlen := length_word ha (i := w) (by omega)
    refine (eq_iff_bitAt (hlen.trans (length_word hp (by omega)).symm)).2 fun i hi => ?_
    rw [hlen] at hi
    rw [bitAt_word a w hi, bitAt_word p w hi]
    exact h _ (by omega)
  · intro h i hi
    have hw := h (i / 32) (by omega)
    have hbit : bitAt (word a (i / 32)) (i % 32) = bitAt (word p (i / 32)) (i % 32) := by rw [hw]
    rwa [bitAt_word a _ (Nat.mod_lt i (by decide)), bitAt_word p _ (Nat.mod_lt i (by decide)), Nat.div_add_mod] at hbit

theorem test_eq (host : Endian) (ha : a.length = 16) {m v : BitVec 32}
    (hm : htonl host m = host.load 32 (maskBytes 4 k)) (hv : htonl host v = host.load 32 vs) (h' : vs.length = 4)
    (hk : k ≤ 32) (hvs : ∀ i < 32, k ≤ i → bitAt vs i = false) :
    host.load 32 (word a 0) &&& htonl host m = htonl host v ↔ Covers vs k a := by
  rw [hm, hv]
  exact first_eq host ha h' hk hvs

/-- The tests of `__ipv6_addr_type` that look at the first word only. -/
structure FirstTests (host : Endian) (a : List UInt8) : Prop where
  low : host.load 32 (word a 0) &&& htonl host 0xE0000000 = htonl host 0x00000000 ↔ Covers [0, 0, 0, 0] 3 a
  high : host.load 32 (word a 0) &&& htonl host 0xE0000000 = htonl host 0xE0000000 ↔ Covers [0xe0, 0, 0, 0] 3 a
  multicast : host.load 32 (word a 0) &&& htonl host 0xFF000000 = htonl host 0xFF000000 ↔ Covers [0xff, 0, 0, 0] 8 a
  linklocal : host.load 32 (word a 0) &&& htonl host 0xFFC00000 = htonl host 0xFE800000 ↔ Covers [0xfe, 0x80, 0, 0] 10 a
  sitelocal : host.load 32 (word a 0) &&& htonl host 0xFFC00000 = htonl host 0xFEC00000 ↔ Covers [0xfe, 0xc0, 0, 0] 10 a
  local4193 : host.load 32 (word a 0) &&& htonl host 0xFE000000 = htonl host 0xFC000000 ↔ Covers [0xfc, 0, 0, 0] 7 a

theorem firstTests (host : Endian) (ha : a.length = 16) : FirstTests host a where
  low := test_eq host ha (by cases host <;> decide) (by cases host <;> decide) rfl (by decide) (by decide)
  high := test_eq host ha (by cases host <;> decide) (by cases host <;> decide) rfl (by decide) (by decide)
  multicast := test_eq host ha (by cases host <;> decide) (by cases host <;> decide) rfl (by decide) (by decide)
  linklocal := test_eq host ha (by cases host <;> decide) (by cases host <;> decide) rfl (by decide) (by decide)
  sitelocal := test_eq host ha (by cases host <;> decide) (by cases host <;> decide) rfl (by decide) (by decide)
  local4193 := test_eq host ha (by cases host <;> decide) (by cases host <;> decide) rfl (by decide) (by decide)

theorem word_test (host : Endian) (ha : a.length = 16) (hw : w < 4) {v : BitVec 32} (hv : v = host.load 32 vs)
    (h' : vs.length = 4) : host.load 32 (word a w) = v ↔ word a w = vs := by
  rw [hv, load32_inj host (length_word ha hw) h']

theorem Longest.of_clash {r : TypeRule} (hr : r ∈ typeRules) (hcov : Covers r.pfx r.len a)
    (h : ∀ r' ∈ typeRules, r.len < r'.len → ∃ i, i < r.len ∧ bitAt r.pfx i ≠ bitAt r'.pfx i) : Longest a r := by
  refine ⟨hr, hcov, fun r' hr' hcov' => Nat.le_of_not_lt fun hlt => ?_⟩
  obtain ⟨i, hi, hne⟩ := h r' hr' hlt
  exact hcov.clash hcov' hi (by omega) hne

theorem longest_compatv4 (hcov : Covers zeros16 96 a) (hany : ¬Covers zeros16 128 a) (hloop : ¬Covers one16 128 a) :
    Longest a .compatv4 := by
  refine ⟨by simp [typeRules], hcov, fun r hr hcov' => ?_⟩
  simp only [typeRules, List.mem_cons, List.not_mem_nil, or_false] at hr
  rcases hr with rfl | rfl | rfl | rfl | rfl | rfl | rfl | rfl | rfl
  · exact Nat.zero_le _
  · decide
  · decide
  · decide
  · decide
  · decide
  · decide
  · exact absurd hcov' hany
  · exact absurd hcov' hloop

theorem longest_other (hula : ¬Covers [0xfc, 0, 0, 0] 7 a) (hmc : ¬Covers [0xff, 0, 0, 0] 8 a)
    (hll : ¬Covers [0xfe, 0x80, 0, 0] 10 a) (hsl : ¬Covers [0xfe, 0xc0, 0, 0] 10 a) (hzero : ¬Covers zeros16 96 a)
    (hmapped : ¬Covers TypeRule.mapped.pfx 96 a) : Longest a .other := by
  refine ⟨by simp [typeRules], fun i hi => absurd hi (Nat.not_lt_zero i), fun r hr hcov => ?_⟩
  simp only [typeRules, List.mem_cons, List.not_mem_nil, or_false] at hr
  rcases hr with rfl | rfl | rfl | rfl | rfl | rfl | rfl | rfl | rfl
  · exact Nat.le_refl 0
  · exact absurd hcov hula
  · exact absurd hcov hmc
  · exact absurd hcov hll
  · exact absurd hcov hsl
  · exact absurd hcov hzero
  · exact absurd hcov hmapped
  · exact absurd (hcov.mono (by decide) fun _ _ => rfl) hzero
  · exact absurd (hcov.mono (by decide) (by decide)) hzero

theorem longest_quick (hlow : ¬Covers [0, 0, 0, 0] 3 a) (hhigh : ¬Covers [0xe0, 0, 0, 0] 3 a) : Longest a .other := by
  refine longest_other (fun h => ?_) (fun h => ?_) (fun h => ?_) (fun h => ?_) (fun h => ?_) fun h => ?_
  · exact hhigh (h.mono (by decide) (by decide))
  · exact hhigh (h.mono (by decide) (by decide))
  · exact hhigh (h.mono (by decide) (by decide))
  · exact hhigh (h.mono (by decide) (by decide))
  · exact hlow (h.mono (by decide) (by decide))
  · exact hlow (h.mono (by decide) (by decide))

/-- Prefixes of 96 and 128 bits, word by word. -/
structure WordTests (a : List UInt8) : Prop where
  zero96 : Covers zeros16 96 a ↔ word a 0 = [0, 0, 0, 0] ∧ word a 1 = [0, 0, 0, 0] ∧ word a 2 = [0, 0, 0, 0]
  mapped : Covers TypeRule.mapped.pfx 96 a ↔
    word a 0 = [0, 0, 0, 0] ∧ word a 1 = [0, 0, 0, 0] ∧ word a 2 = [0, 0, 0xff, 0xff]
  any : Covers zeros16 128 a ↔ Covers zeros16 96 a ∧ word a 3 = [0, 0, 0, 0]
  loopback : Covers one16 128 a ↔ Covers zeros16 96 a ∧ word a 3 = [0, 0, 0, 1]

theorem forall_lt_three {P : Nat → Prop} : (∀ w < 3, P w) ↔ P 0 ∧ P 1 ∧ P 2 := by
  simp only [Nat.forall_lt_succ_right, Nat.not_lt_zero, false_implies, implies_true, true_and, and_assoc]

theorem wordTests (ha : a.length = 16) : WordTests a where
  zero96 := by
    rw [show (96 : Nat) = 32 * 3 from rfl, covers_words ha rfl (by decide), forall_lt_three]
    rfl
  mapped := by
    rw [show (96 : Nat) = 32 * 3 from rfl, covers_words ha rfl (by decide), forall_lt_three]
    rfl
  any := by
    rw [show (96 : Nat) = 32 * 3 from rfl, show (128 : Nat) = 32 * 4 from rfl, covers_words ha rfl (by decide),
      covers_words ha rfl (by decide), Nat.forall_lt_succ_right]
    rfl
  loopback := by
    rw [show (96 : Nat) = 32 * 3 from rfl, show (128 : Nat) = 32 * 4 from rfl, covers_words ha rfl (by decide),
      covers_words ha rfl (by decide), Nat.forall_lt_succ_right, forall_lt_three, forall_lt_three]
    rfl

/-- The chain of tests finds the longest prefix. -/
theorem ipv6AddrType_longest (host : Endian) (ha : a.length = 16) :
    ∃ r, Longest a r ∧ ipv6AddrType host a = some (r.type a) := by
  have hf := firstTests host ha
  have hw := wordTests ha
  have hw₀ := word_test host ha (w := 0) (v := 0) (by decide) (load32_zero host) rfl
  have hw₁ := word_test host ha (w := 1) (v := 0) (by decide) (load32_zero host) rfl
  have hw₂ := word_test host ha (w := 2) (v := 0) (by decide) (load32_zero host) rfl
  have hw₃ := word_test host ha (w := 3) (v := 0) (by decide) (load32_zero host) rfl
  have hffff := word_test host ha (w := 2) (v := htonl host 0x0000ffff) (by decide) (load32_be host).1 rfl
  have hone : host.load 32 (word a 3) = htonl host 1 ↔ word a 3 = [0, 0, 0, 1] :=
    word_test host ha (by decide) (by cases host <;> decide) rfl
  have hor : host.load 32 (word a 0) ||| host.load 32 (word a 1) = 0 ↔
      word a 0 = [0, 0, 0, 0] ∧ word a 1 = [0, 0, 0, 0] :=
    BitVec.or_eq_zero_iff.trans (and_congr hw₀ hw₁)
  have hsecond : s6Addr a 1 = some (a.getD 1 0) := by
    rw [s6Addr, List.getD_eq_getElem?_getD, List.getElem?_eq_getElem (by omega), Option.getD_some]
  simp only [ipv6AddrType, s6Addr32_word host ha (show 0 < 4 by decide), s6Addr32_word host ha (show 1 < 4 by decide),
    s6Addr32_word host ha (show 2 < 4 by decide), s6Addr32_word host ha (show 3 < 4 by decide), hsecond,
    Option.bind_eq_bind, Option.bind_some]
  by_cases hquick : ¬Covers [0, 0, 0, 0] 3 a ∧ ¬Covers [0xe0, 0, 0, 0] 3 a
  · rw [if_pos ⟨fun h => hquick.1 (hf.low.1 h), fun h => hquick.2 (hf.high.1 h)⟩]
    exact ⟨.other, longest_quick hquick.1 hquick.2, rfl⟩
  rw [if_neg fun h => hquick ⟨fun hc => h.1 (hf.low.2 hc), fun hc => h.2 (hf.high.2 hc)⟩]
  by_cases hmc : Covers [0xff, 0, 0, 0] 8 a
  · rw [if_pos (hf.multicast.2 hmc)]
    exact ⟨.multicast, .of_clash (by simp [typeRules]) hmc (by decide), rfl⟩
  rw [if_neg (mt hf.multicast.1 hmc)]
  by_cases hll : Covers [0xfe, 0x80, 0, 0] 10 a
  · rw [if_pos (hf.linklocal.2 hll)]
    exact ⟨.linklocal, .of_clash (by simp [typeRules]) hll (by decide), rfl⟩
  rw [if_neg (mt hf.linklocal.1 hll)]
  by_cases hsl : Covers [0xfe, 0xc0, 0, 0] 10 a
  · rw [if_pos (hf.sitelocal.2 hsl)]
    exact ⟨.sitelocal, .of_clash (by simp [typeRules]) hsl (by decide), rfl⟩
  rw [if_neg (mt hf.sitelocal.1 hsl)]
  by_cases hula : Covers [0xfc, 0, 0, 0] 7 a
  · rw [if_pos (hf.local4193.2 hula)]
    exact ⟨.local4193, .of_clash (by simp [typeRules]) hula (by decide), rfl⟩
  rw [if_neg (mt hf.local4193.1 hula)]
  by_cases h01 : word a 0 = [0, 0, 0, 0] ∧ word a 1 = [0, 0, 0, 0]
  · rw [if_pos (hor.2 h01)]
    by_cases h2 : word a 2 = [0, 0, 0, 0]
    · have hzero : Covers zeros16 96 a := hw.zero96.2 ⟨h01.1, h01.2, h2⟩
      rw [if_pos (hw₂.2 h2)]
      by_cases h3 : word a 3 = [0, 0, 0, 0]
      · rw [if_pos (hw₃.2 h3)]
        exact ⟨.any, .of_clash (by simp [typeRules]) (hw.any.2 ⟨hzero, h3⟩) (by decide), rfl⟩
      rw [if_neg (mt hw₃.1 h3)]
      by_cases h1 : word a 3 = [0, 0, 0, 1]
      · rw [if_pos (hone.2 h1)]
        exact ⟨.loopback, .of_clash (by simp [typeRules]) (hw.loopback.2 ⟨hzero, h1⟩) (by decide), rfl⟩
      rw [if_neg (mt hone.1 h1)]
      exact ⟨.compatv4, longest_compatv4 hzero (fun h => h3 (hw.any.1 h).2) fun h => h1 (hw.loopback.1 h).2, rfl⟩
    rw [if_neg (mt hw₂.1 h2)]
    by_cases hm : word a 2 = [0, 0, 0xff, 0xff]
    · rw [if_pos (hffff.2 hm)]
      exact ⟨.mapped, .of_clash (by simp [typeRules]) (hw.mapped.2 ⟨h01.1, h01.2, hm⟩) (by decide +kernel), rfl⟩
    rw [if_neg (mt hffff.1 hm)]
    refine ⟨.other, longest_other hula hmc hll hsl (fun h => h2 ?_) fun h => hm ?_, rfl⟩
    · exact (hw.zero96.1 h).2.2
    · exact (hw.mapped.1 h).2.2
  rw [if_neg (mt hor.1 h01)]
  refine ⟨.other, longest_other hula hmc hll hsl (fun h => h01 ?_) fun h => h01 ?_, rfl⟩
  · exact ⟨(hw.zero96.1 h).1, (hw.zero96.1 h).2.1⟩
  · exact ⟨(hw.mapped.1 h).1, (hw.mapped.1 h).2.1⟩

/-! ### The predicates -/

theorem ipv6AddrAny_eq (host : Endian) (ha : a.length = 16) :
    ipv6AddrAny host a = some (decide (Covers zeros16 128 a)) := by
  have hw := wordTests ha
  rw [ipv6AddrAny, s6Addr32_word host ha (by decide), s6Addr32_word host ha (by decide),
    s6Addr32_word host ha (by decide), s6Addr32_word host ha (by decide)]
  refine congrArg some (decide_eq_decide.2 ?_)
  refine (BitVec.or_eq_zero_iff.trans (and_congr (BitVec.or_eq_zero_iff.trans (and_congr BitVec.or_eq_zero_iff Iff.rfl))
    Iff.rfl)).trans ?_
  rw [hw.any, hw.zero96, load32_zero host, load32_inj host (length_word ha (by decide)) rfl,
    load32_inj host (length_word ha (by decide)) rfl, load32_inj host (length_word ha (by decide)) rfl,
    load32_inj host (length_word ha (by decide)) rfl, and_assoc (a := word a 0 = _)]

theorem ipv6AddrLoopback_eq (host : Endian) (ha : a.length = 16) :
    ipv6AddrLoopback host a = some (decide (Covers one16 128 a)) := by
  have hw := wordTests ha
  have hone : htonl host 1 = host.load 32 [0, 0, 0, 1] := by cases host <;> decide
  rw [ipv6AddrLoopback, s6Addr32_word host ha (by decide), s6Addr32_word host ha (by decide),
    s6Addr32_word host ha (by decide), s6Addr32_word host ha (by decide)]
  refine congrArg some (decide_eq_decide.2 ?_)
  refine (BitVec.or_eq_zero_iff.trans (and_congr (BitVec.or_eq_zero_iff.trans (and_congr BitVec.or_eq_zero_iff Iff.rfl))
    BitVec.xor_eq_zero_iff)).trans ?_
  rw [hw.loopback, hw.zero96, load32_zero host, hone, load32_inj host (length_word ha (by decide)) rfl,
    load32_inj host (length_word ha (by decide)) rfl, load32_inj host (length_word ha (by decide)) rfl,
    load32_inj host (length_word ha (by decide)) rfl, and_assoc (a := word a 0 = _)]

theorem ipv6AddrIsMulticast_eq (host : Endian) (ha : a.length = 16) :
    ipv6AddrIsMulticast host a = some (decide (Covers [0xff, 0, 0, 0] 8 a)) := by
  rw [ipv6AddrIsMulticast, s6Addr32_word host ha (by decide)]
  exact congrArg some (decide_eq_decide.2 (firstTests host ha).multicast)

theorem ipv6AddrOrchid_eq (host : Endian) (ha : a.length = 16) :
    ipv6AddrOrchid host a = some (decide (Covers [0x20, 0x01, 0, 0x10] 28 a)) := by
  rw [ipv6AddrOrchid, s6Addr32_word host ha (by decide)]
  refine congrArg some (decide_eq_decide.2 ?_)
  exact test_eq host ha (by cases host <;> decide) (by cases host <;> decide) rfl (by decide) (by decide)

theorem covers96 (ha : a.length = 16) (hp : p.length = 12) : Covers (p ++ [0, 0, 0, 0]) 96 a ↔ a.take 12 = p := by
  have hlen : (a.take 12).length = 12 := by rw [List.length_take, ha]; rfl
  rw [eq_iff_bitAt (hlen.trans hp.symm), hlen]
  refine forall₂_congr fun i hi => ?_
  rw [bitAt_take (n := 12) hi, bitAt_append, if_pos (by omega)]

/-! ### What the type says -/

/-- A rule that does not decide: it is longer than the one that does, or differs from it. -/
theorem Longest.not_covers {r s : TypeRule} (h : Longest a r) (hs : s ∈ typeRules)
    (hne : r.len < s.len ∨ ∃ i, i < r.len ∧ i < s.len ∧ bitAt r.pfx i ≠ bitAt s.pfx i) : ¬Covers s.pfx s.len a := by
  intro hcov
  rcases hne with hlt | ⟨i, hi, his, hne⟩
  · have := h.longest s hs hcov
    omega
  · exact h.covers.clash hcov hi his hne

theorem multicast_flags (a : List UInt8) : TypeRule.multicast.type a ≠ AddrType.any ∧
    TypeRule.multicast.type a &&& AddrType.mapped = 0 ∧ TypeRule.multicast.type a &&& AddrType.multicast ≠ 0 := by
  have hall : ∀ k < 16, AddrType.multicast ||| ipv6AddrScope2type k ≠ AddrType.any ∧
      (AddrType.multicast ||| ipv6AddrScope2type k) &&& AddrType.mapped = 0 ∧
      (AddrType.multicast ||| ipv6AddrScope2type k) &&& AddrType.multicast ≠ 0 := by decide
  exact hall _ (Nat.lt_succ_of_le Nat.and_le_right)

/-- Which bits of the type stand for which prefix. -/
structure TypeBits (a : List UInt8) (type : Nat) : Prop where
  any : type = AddrType.any ↔ Covers zeros16 128 a
  loopback : type &&& AddrType.loopback ≠ 0 ∧ type &&& AddrType.multicast = 0 ↔ Covers one16 128 a
  v4mapped : type &&& AddrType.mapped ≠ 0 ↔ Covers TypeRule.mapped.pfx 96 a
  multicast : type &&& AddrType.multicast ≠ 0 ↔ Covers [0xff, 0, 0, 0] 8 a

theorem Longest.typeBits {r : TypeRule} (h : Longest a r) : TypeBits a (r.type a) := by
  have hany := h.not_covers (s := .any) (by simp [typeRules])
  have hloop := h.not_covers (s := .loopback) (by simp [typeRules])
  have hmapped := h.not_covers (s := .mapped) (by simp [typeRules])
  have hmulti := h.not_covers (s := .multicast) (by simp [typeRules])
  have hr := h.mem
  have hcov := h.covers
  simp only [typeRules, List.mem_cons, List.not_mem_nil, or_false] at hr
  rcases hr with rfl | rfl | rfl | rfl | rfl | rfl | rfl | rfl | rfl
  case inr.inr.inl =>
    obtain ⟨hna, hnm, hm⟩ := multicast_flags a
    exact ⟨iff_of_false hna (hany (by decide +kernel)), iff_of_false (fun hb => hm hb.2) (hloop (by decide +kernel)),
      iff_of_false (fun hb => hb hnm) (hmapped (by decide +kernel)), iff_of_true hm hcov⟩
  case inr.inr.inr.inr.inr.inr.inl =>
    dsimp only [TypeRule.mapped]
    exact ⟨iff_of_false (by decide) (hany (by decide +kernel)), iff_of_false (by decide) (hloop (by decide +kernel)),
      iff_of_true (by decide) hcov, iff_of_false (by decide) (hmulti (by decide +kernel))⟩
  case inr.inr.inr.inr.inr.inr.inr.inl =>
    dsimp only [TypeRule.any]
    exact ⟨iff_of_true rfl hcov, iff_of_false (by decide) (hloop (by decide +kernel)),
      iff_of_false (by decide) (hmapped (by decide +kernel)), iff_of_false (by decide) (hmulti (by decide +kernel))⟩
  case inr.inr.inr.inr.inr.inr.inr.inr =>
    dsimp only [TypeRule.loopback]
    exact ⟨iff_of_false (by decide) (hany (by decide +kernel)), iff_of_true (by decide) hcov,
      iff_of_false (by decide) (hmapped (by decide +kernel)), iff_of_false (by decide) (hmulti (by decide +kernel))⟩
  -- the other rules set none of these bits
  all_goals
    dsimp only [TypeRule.other, TypeRule.local4193, TypeRule.linklocal, TypeRule.sitelocal, TypeRule.compatv4]
    exact ⟨iff_of_false (by decide) (hany (by decide +kernel)), iff_of_false (by decide) (hloop (by decide +kernel)),
      iff_of_false (by decide) (hmapped (by decide +kernel)), iff_of_false (by decide) (hmulti (by decide +kernel))⟩

end

/-- What the predicates of `kernel/ipv6.h` say of an address with the type `type`. -/
structure Predicates (host : Endian) (a : List UInt8) (type : Nat) : Prop where
  any : ipv6AddrAny host a = some (decide (type = AddrType.any))
  loopback : ipv6AddrLoopback host a = some (decide (type &&& AddrType.loopback ≠ 0 ∧ type &&& AddrType.multicast = 0))
  v4mapped : ipv6AddrV4mapped host a = some (decide (type &&& AddrType.mapped ≠ 0))
  multicast : ipv6AddrIsMulticast host a = some (decide (type &&& AddrType.multicast ≠ 0))
  nat64 : ipv6AddrNat64 host a = some (decide (Covers (nat64 ++ [0, 0, 0, 0]) 96 a))
  orchid : ipv6AddrOrchid host a = some (decide (Covers [0x20, 0x01, 0, 0x10] 28 a))

/-- The type is that of the longest prefix of the table, on both kinds of hosts, and the predicates agree with it. -/
theorem ipv6_addr_type (host : Endian) {a : List UInt8} (ha : a.length = 16) :
    ∃ r, Longest a r ∧ ipv6AddrType host a = some (r.type a) ∧ Predicates host a (r.type a) := by
  obtain ⟨r, hlongest, htype⟩ := ipv6AddrType_longest host ha
  have hbits := hlongest.typeBits
  have hsplit : a = a.take 12 ++ a.drop 12 := (List.take_append_drop 12 a).symm
  have hlen : (a.take 12).length = 12 := by rw [List.length_take, ha]; rfl
  have hmapped : ipv6AddrV4mapped host (a.take 12 ++ a.drop 12) = _ := ipv6AddrV4mapped_eq hlen _
  have hnat64 : ipv6AddrNat64 host (a.take 12 ++ a.drop 12) = _ := ipv6AddrNat64_eq hlen _
  rw [← hsplit] at hmapped hnat64
  refine ⟨r, hlongest, htype, ?_, ?_, ?_, ?_, ?_, ipv6AddrOrchid_eq host ha⟩
  · rw [ipv6AddrAny_eq host ha]
    exact congrArg some (decide_eq_decide.2 hbits.any.symm)
  · rw [ipv6AddrLoopback_eq host ha]
    exact congrArg some (decide_eq_decide.2 hbits.loopback.symm)
  · rw [hmapped]
    exact congrArg some (decide_eq_decide.2 ((covers96 ha rfl).symm.trans hbits.v4mapped.symm))
  · rw [ipv6AddrIsMulticast_eq host ha]
    exact congrArg some (decide_eq_decide.2 hbits.multicast.symm)
  · rw [hnat64]
    exact congrArg some (decide_eq_decide.2 (covers96 ha rfl).symm)

/-- `fe80::1`. -/
theorem ipv6_addr_type_fe80 : ∃ r, Longest [0xfe, 0x80, 0, 0, 0, 0, 0, 0, 0, 0, 0, 0, 0, 0, 0, 1] r ∧
    ipv6AddrType .little [0xfe, 0x80, 0, 0, 0, 0, 0, 0, 0, 0, 0, 0, 0, 0, 0, 1] =
      some (r.type [0xfe, 0x80, 0, 0, 0, 0, 0, 0, 0, 0, 0, 0, 0, 0, 0, 1]) ∧
    Predicates .little [0xfe, 0x80, 0, 0, 0, 0, 0, 0, 0, 0, 0, 0, 0, 0, 0, 1]
      (r.type [0xfe, 0x80, 0, 0, 0, 0, 0, 0, 0, 0, 0, 0, 0, 0, 0, 1]) :=
  ipv6_addr_type .little rfl

end Ipv6

end Aosl
