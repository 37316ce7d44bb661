import Aosl.ByteOrder
import Aosl.InetQuad

/-!
# Translating between address families, `net/ipv6.c`

A socket address is the bytes of the object that a pointer leads to, which is at least as large as the type of its
family: the casts of `ipv6.c` read the fields of one type in the object of another. `ipv6_prefix_96` of a queue is `none`
or the 12 bytes of its buffer. An access outside of an object fails (`none`).

The last word of a `sockaddr_in6` lies behind a `sockaddr_in`. `ipv6_sk_addr_to_ipv4` accepts an IPv4 address and takes
this word for its address all the same (`to_ipv4_iff`).
-/

namespace Aosl

namespace Ipv6

open Inet (store)

/-- The `n` bytes at `i`. -/
def load (buf : List UInt8) (i n : Nat) : Option (List UInt8) :=
  if i + n ≤ buf.length then some ((buf.drop i).take n) else none

def afInet : BitVec 16 := 2

def afInet6 : BitVec 16 := 10

/-! ### `kernel/ipv6.h` -/

/-- `s6_addr32_v [i]`. -/
def s6Addr32 (host : Endian) (a6 : List UInt8) (i : Nat) : Option (BitVec 32) := (load a6 (4 * i) 4).map (host.load 32)

def ipv6PrefixEqual (host : Endian) (addr1 addr2 : List UInt8) (prefixlen : Nat) : Option Bool := do
  let pdw := prefixlen >>> 5
  if pdw ≠ 0 ∧ (← load addr1 0 (pdw <<< 2)) ≠ (← load addr2 0 (pdw <<< 2)) then
    return false
  let pbi := prefixlen &&& 0x1f
  if pbi = 0 then
    return true
  let w1 ← s6Addr32 host addr1 pdw
  let w2 ← s6Addr32 host addr2 pdw
  return (w1 ^^^ w2) &&& host.cpuToBe swab32 (0xffffffff <<< (32 - pbi)) = 0

def ipv6AddrV4mapped (host : Endian) (a : List UInt8) : Option Bool := do
  return (← s6Addr32 host a 0) ||| (← s6Addr32 host a 1) ||| ((← s6Addr32 host a 2) ^^^ host.cpuToBe swab32 0x0000ffff) = 0

def ipv6AddrNat64 (host : Endian) (a : List UInt8) : Option Bool := do
  return ((← s6Addr32 host a 0) ^^^ host.cpuToBe swab32 0x0064ff9b) ||| (← s6Addr32 host a 1) ||| (← s6Addr32 host a 2) = 0

/-! ### `ipv6.c` -/

/-- `__set_nat64_prefix` for the `in6_addr` at `off`. -/
def setNat64Prefix (buf : List UInt8) (off : Nat) : Option (List UInt8) := do
  let buf ← store buf off (List.replicate 16 0)
  let buf ← store buf (off + 1) [0x64]
  let buf ← store buf (off + 2) [0xff]
  store buf (off + 3) [0x9b]

/-- The prefix of the `in6_addr` at `off`: `v6_prefix`, or that of `__set_nat64_prefix`. -/
def putPrefix (buf : List UInt8) (off : Nat) : Option (List UInt8) → Option (List UInt8)
  | some pfx => do store buf off (← load pfx 0 12)
  | none => setNat64Prefix buf off

/-- `pfx` is what `aosl_mpq_get_ipv6_prefix` returns; the result is the object at `sk_addr_v6`. -/
def ipv6SkAddrFromIpv4 (host : Endian) (pfx : Option (List UInt8)) (v6 v4 : List UInt8) : Option (List UInt8) := do
  let v6 ← store v6 0 (List.replicate 28 0)
  let v6 ← store v6 0 (host.store 2 afInet6)
  let v6 ← store v6 2 (← load v4 2 2)
  let v6 ← putPrefix v6 8 pfx
  store v6 20 (← load v4 4 4)

/-- `v6_prefix != NULL && ipv6_prefix_equal (a6, v6_prefix, 96)`. -/
def savedPrefixEqual (host : Endian) (a6 : List UInt8) : Option (List UInt8) → Option Bool
  | some pfx => ipv6PrefixEqual host a6 pfx 96
  | none => some false

def ipv6AddrV4Compatible (host : Endian) (pfx : Option (List UInt8)) (a6 : List UInt8) : Option Bool := do
  if ← savedPrefixEqual host a6 pfx then
    return true
  if ← ipv6AddrV4mapped host a6 then
    return true
  ipv6AddrNat64 host a6

def skAddrIpv4Compatible (host : Endian) (pfx : Option (List UInt8)) (skaddr : List UInt8) : Option Bool := do
  let family := host.load 16 (← load skaddr 0 2)
  if family = afInet then
    return true
  if family = afInet6 then
    ipv6AddrV4Compatible host pfx (← load skaddr 8 16)
  else
    return false

/-- The object at `sk_addr_v4`, or `none` for -1. -/
def ipv6SkAddrToIpv4 (host : Endian) (pfx : Option (List UInt8)) (v4 v6 : List UInt8) : Option (Option (List UInt8)) := do
  if !(← skAddrIpv4Compatible host pfx v6) then
    return none
  let v4 ← store v4 0 (List.replicate 16 0)
  let v4 ← store v4 0 (host.store 2 afInet)
  let v4 ← store v4 2 (← load v6 2 2)
  let v4 ← store v4 4 (← load v6 20 4)
  return some v4

/-- A call of `____q_update_ipv6_prefix`: the address, whether `aosl_malloc` succeeds (it always does, or aborts), and what
its 12 bytes contain. -/
structure PrefixSet where
  a6 : Option (Vector UInt8 16)
  mem : Bool
  junk : Vector UInt8 12

/-- `____q_update_ipv6_prefix`. -/
def qUpdateIpv6Prefix (host : Endian) (pfx : Option (List UInt8)) (u : PrefixSet) : Option (Option (List UInt8)) := do
  match u.a6 with
  | some a6 =>
    if !((← ipv6AddrV4mapped host a6.toList) || (← ipv6AddrNat64 host a6.toList)) then
      let buf := match pfx with
        | some pfx => some pfx
        | none => if u.mem then some u.junk.toList else none
      match buf with
      | some buf => return some (← store buf 0 (← load a6.toList 0 12))
      | none => return none
    else
      return pfx
  | none => return none

/-- `ipv6_prefix_96` after these calls on a new queue. -/
def prefixAfter (host : Endian) (us : List PrefixSet) : Option (Option (List UInt8)) :=
  us.foldlM (qUpdateIpv6Prefix host) none

/-! ### Socket addresses -/

/-- An object of the type `aosl_sockaddr_in_t`: `rest` is `sin_zero`, and what follows if the object is larger. -/
structure SockaddrIn where
  port : Vector UInt8 2
  addr : Vector UInt8 4
  rest : List UInt8
  le : 8 ≤ rest.length

/-- An object of the type `aosl_sockaddr_in6_t`: `rest` begins with `sin6_scope_id`. -/
structure SockaddrIn6 where
  port : Vector UInt8 2
  flowinfo : Vector UInt8 4
  addr : Vector UInt8 16
  rest : List UInt8
  le : 4 ≤ rest.length

inductive Sockaddr where
  | v4 (a : SockaddrIn)
  | v6 (a : SockaddrIn6)

def SockaddrIn.bytes (host : Endian) (a : SockaddrIn) : List UInt8 :=
  host.store 2 afInet ++ (a.port.toList ++ (a.addr.toList ++ a.rest))

def SockaddrIn6.bytes (host : Endian) (a : SockaddrIn6) : List UInt8 :=
  host.store 2 afInet6 ++ (a.port.toList ++ (a.flowinfo.toList ++ (a.addr.toList ++ a.rest)))

namespace Sockaddr

def bytes (host : Endian) : Sockaddr → List UInt8
  | v4 a => a.bytes host
  | v6 a => a.bytes host

def port : Sockaddr → List UInt8
  | v4 a => a.port.toList
  | v6 a => a.port.toList

/-- The IPv4 address; of an IPv6 address these are the last 32 bits. -/
def addr : Sockaddr → List UInt8
  | v4 a => a.addr.toList
  | v6 a => a.addr.toList.drop 12

end Sockaddr

/-- `::ffff:0:0/96`. -/
def mapped96 : List UInt8 := [0, 0, 0, 0, 0, 0, 0, 0, 0, 0, 0xff, 0xff]

/-- `64:ff9b::/96`. -/
def nat64 : List UInt8 := [0, 0x64, 0xff, 0x9b, 0, 0, 0, 0, 0, 0, 0, 0]

/-- The prefixes from which an address is translated back. -/
def Compatible (pfx : Option (List UInt8)) (p : List UInt8) : Prop := p = mapped96 ∨ p = nat64 ∨ pfx = some p

instance (pfx : Option (List UInt8)) (p : List UInt8) : Decidable (Compatible pfx p) :=
  inferInstanceAs (Decidable (_ ∨ _ ∨ _))

/-! ### Accesses -/

section
variable {buf l m r m' : List UInt8} {i n : Nat}

theorem load_split (h : buf = l ++ (m ++ r)) (hl : l.length = i) (hm : m.length = n) : load buf i n = some m := by
  subst h hl hm
  rw [load, if_pos (by simp only [List.length_append]; omega), List.drop_left, List.take_left]

theorem length_load {bs : List UInt8} (h : load buf i n = some bs) : bs.length = n := by
  rw [load] at h
  split at h
  · obtain rfl := Option.some.inj h
    rw [List.length_take, List.length_drop]
    omega
  · cases h

theorem store_split (h : buf = l ++ (m ++ r)) (hl : l.length = i) (hm : m'.length = m.length) :
    store buf i m' = some (l ++ (m' ++ r)) := by
  subst h hl
  rw [← List.append_assoc, Inet.store_append hm, List.append_assoc]

theorem length_store16 (host : Endian) (x : BitVec 16) : (host.store 2 x).length = 2 := by
  cases host <;> rfl

theorem load_store16 (host : Endian) (x : BitVec 16) : host.load 16 (host.store 2 x) = x := by
  have hlt : x.toNat < 65536 := x.isLt
  have hback : BitVec.ofNat 16 (lowFirst (lowBytes 2 x.toNat)) = x := by
    apply BitVec.eq_of_toNat_eq
    simp only [lowBytes, lowFirst, UInt8.toNat_ofNat', BitVec.toNat_ofNat]
    omega
  cases host with
  | little => exact hback
  | big =>
    rw [Endian.load, Endian.store, List.reverse_reverse]
    exact hback

theorem load32_inj (host : Endian) {bs bs' : List UInt8} (h : bs.length = 4) (h' : bs'.length = 4) :
    host.load 32 bs = host.load 32 bs' ↔ bs = bs' := by
  constructor
  · intro heq
    rw [← host.store_load h (w := 32) (by decide), heq, host.store_load h' (by decide)]
  · rintro rfl
    rfl

theorem load32_zero (host : Endian) : 0#32 = host.load 32 [0, 0, 0, 0] := by cases host <;> decide

theorem load32_be (host : Endian) : host.cpuToBe swab32 0x0000ffff = host.load 32 [0, 0, 0xff, 0xff] ∧
    host.cpuToBe swab32 0x0064ff9b = host.load 32 [0, 0x64, 0xff, 0x9b] := by
  cases host <;> decide

end

/-! ### Prefixes -/

section
variable {host : Endian} {w₀ w₁ w₂ v₀ v₁ v₂ p r : List UInt8} {pfx : Option (List UInt8)}

theorem split_words (h : p.length = 12) : ∃ w₀ w₁ w₂, p = w₀ ++ (w₁ ++ w₂) ∧ w₀.length = 4 ∧ w₁.length = 4 ∧ w₂.length = 4 := by
  refine ⟨p.take 4, (p.drop 4).take 4, (p.drop 4).drop 4, by rw [List.take_append_drop, List.take_append_drop], ?_⟩
  simp only [List.length_take, List.length_drop]
  omega

theorem words_inj (h₀ : w₀.length = v₀.length) (h₁ : w₁.length = v₁.length) :
    w₀ ++ (w₁ ++ w₂) = v₀ ++ (v₁ ++ v₂) ↔ w₀ = v₀ ∧ w₁ = v₁ ∧ w₂ = v₂ := by
  constructor
  · intro h
    obtain ⟨hw₀, htail⟩ := List.append_inj h h₀
    obtain ⟨hw₁, hw₂⟩ := List.append_inj htail h₁
    exact ⟨hw₀, hw₁, hw₂⟩
  · rintro ⟨rfl, rfl, rfl⟩
    rfl

theorem s6Addr32_eq (host : Endian) (h₀ : w₀.length = 4) (h₁ : w₁.length = 4) (h₂ : w₂.length = 4) :
    s6Addr32 host (w₀ ++ (w₁ ++ w₂) ++ r) 0 = some (host.load 32 w₀) ∧
    s6Addr32 host (w₀ ++ (w₁ ++ w₂) ++ r) 1 = some (host.load 32 w₁) ∧
    s6Addr32 host (w₀ ++ (w₁ ++ w₂) ++ r) 2 = some (host.load 32 w₂) := by
  have hload₀ : load (w₀ ++ (w₁ ++ w₂) ++ r) (4 * 0) 4 = some w₀ :=
    load_split (l := []) (r := w₁ ++ (w₂ ++ r)) (by simp) rfl h₀
  have hload₁ : load (w₀ ++ (w₁ ++ w₂) ++ r) (4 * 1) 4 = some w₁ := load_split (r := w₂ ++ r) (by simp) h₀ h₁
  have hload₂ : load (w₀ ++ (w₁ ++ w₂) ++ r) (4 * 2) 4 = some w₂ :=
    load_split (l := w₀ ++ w₁) (r := r) (by simp) (by rw [List.length_append, h₀, h₁]) h₂
  simp only [s6Addr32, hload₀, hload₁, hload₂, Option.map_some, and_self]

theorem ipv6AddrV4mapped_eq (hp : p.length = 12) (r : List UInt8) :
    ipv6AddrV4mapped host (p ++ r) = some (decide (p = mapped96)) := by
  obtain ⟨w₀, w₁, w₂, rfl, h₀, h₁, h₂⟩ := split_words hp
  obtain ⟨hw₀, hw₁, hw₂⟩ := s6Addr32_eq host (r := r) h₀ h₁ h₂
  have hiff : host.load 32 w₀ ||| host.load 32 w₁ ||| (host.load 32 w₂ ^^^ host.cpuToBe swab32 0x0000ffff) = 0#32 ↔
      w₀ ++ (w₁ ++ w₂) = mapped96 := by
    have hwords : mapped96 = [0, 0, 0, 0] ++ ([0, 0, 0, 0] ++ [0, 0, 0xff, 0xff]) := rfl
    rw [BitVec.or_eq_zero_iff, BitVec.or_eq_zero_iff, BitVec.xor_eq_zero_iff, (load32_be host).1, load32_zero host,
      load32_inj host h₀ rfl, load32_inj host h₁ rfl, load32_inj host h₂ rfl, hwords, words_inj h₀ h₁, and_assoc]
  rw [ipv6AddrV4mapped, hw₀, hw₁, hw₂]
  exact congrArg some (decide_eq_decide.2 hiff)

theorem ipv6AddrNat64_eq (hp : p.length = 12) (r : List UInt8) :
    ipv6AddrNat64 host (p ++ r) = some (decide (p = nat64)) := by
  obtain ⟨w₀, w₁, w₂, rfl, h₀, h₁, h₂⟩ := split_words hp
  obtain ⟨hw₀, hw₁, hw₂⟩ := s6Addr32_eq host (r := r) h₀ h₁ h₂
  have hiff : (host.load 32 w₀ ^^^ host.cpuToBe swab32 0x0064ff9b) ||| host.load 32 w₁ ||| host.load 32 w₂ = 0#32 ↔
      w₀ ++ (w₁ ++ w₂) = nat64 := by
    have hwords : nat64 = [0, 0x64, 0xff, 0x9b] ++ ([0, 0, 0, 0] ++ [0, 0, 0, 0]) := rfl
    rw [BitVec.or_eq_zero_iff, BitVec.or_eq_zero_iff, BitVec.xor_eq_zero_iff, (load32_be host).2, load32_zero host,
      load32_inj host h₀ rfl, load32_inj host h₁ rfl, load32_inj host h₂ rfl, hwords, words_inj h₀ h₁, and_assoc]
  rw [ipv6AddrNat64, hw₀, hw₁, hw₂]
  exact congrArg some (decide_eq_decide.2 hiff)

theorem ipv6PrefixEqual_eq {b : List UInt8} (hp : p.length = 12) (hb : b.length = 12) (r : List UInt8) :
    ipv6PrefixEqual host (p ++ r) b 96 = some (decide (p = b)) := by
  have hloadP : load (p ++ r) 0 12 = some p := load_split (l := []) rfl rfl hp
  have hloadB : load b 0 12 = some b := load_split (l := []) (r := []) (by simp) rfl hb
  have hpdw : 96 >>> 5 = 3 := rfl
  have hbytes : 3 <<< 2 = 12 := rfl
  simp only [ipv6PrefixEqual, hpdw, hbytes, hloadP, hloadB, Option.bind_eq_bind, Option.bind_some]
  by_cases heq : p = b
  · simp [heq]
  · simp [heq]

theorem ipv6AddrV4Compatible_eq (host : Endian) (hp : p.length = 12) (hpfx : ∀ b ∈ pfx, b.length = 12) (r : List UInt8) :
    ipv6AddrV4Compatible host pfx (p ++ r) = some (decide (Compatible pfx p)) := by
  have hsaved : savedPrefixEqual host (p ++ r) pfx = some (decide (pfx = some p)) := by
    cases pfx with
    | none => rfl
    | some b =>
      rw [savedPrefixEqual, ipv6PrefixEqual_eq hp (hpfx b rfl)]
      exact congrArg some (decide_eq_decide.2 (by rw [Option.some.injEq, eq_comm]))
  rw [ipv6AddrV4Compatible, hsaved, ipv6AddrV4mapped_eq hp, ipv6AddrNat64_eq hp]
  by_cases h1 : pfx = some p
  · simp [h1, Compatible]
  · by_cases h2 : p = mapped96
    · simp [h2, Compatible]
    · simp [h1, h2, Compatible]

/-- The prefix that is kept after an update: the first 96 bits of the last address that is not ignored. -/
def PrefixSet.apply (u : PrefixSet) (pfx : Option (List UInt8)) : Option (List UInt8) :=
  match u.a6 with
  | none => none
  | some a6 =>
    if Compatible none (a6.toList.take 12) ∨ pfx = none ∧ u.mem = false then pfx else some (a6.toList.take 12)

theorem split_addr (a6 : Vector UInt8 16) : a6.toList = a6.toList.take 12 ++ a6.toList.drop 12 ∧
    (a6.toList.take 12).length = 12 ∧ (a6.toList.drop 12).length = 4 := by
  refine ⟨(List.take_append_drop 12 _).symm, ?_, ?_⟩
  · rw [List.length_take, Vector.length_toList]
    rfl
  · rw [List.length_drop, Vector.length_toList]

theorem length_apply (hpfx : ∀ b ∈ pfx, b.length = 12) (u : PrefixSet) : ∀ b ∈ u.apply pfx, b.length = 12 := by
  intro b hb
  rw [PrefixSet.apply] at hb
  split at hb
  · cases hb
  · next a6 _ =>
    split at hb
    · exact hpfx b hb
    · obtain rfl := Option.some.inj hb
      exact (split_addr a6).2.1

theorem qUpdateIpv6Prefix_eq (host : Endian) (hpfx : ∀ b ∈ pfx, b.length = 12) (u : PrefixSet) :
    qUpdateIpv6Prefix host pfx u = some (u.apply pfx) := by
  obtain ⟨a6, mem, junk⟩ := u
  cases a6 with
  | none => rfl
  | some a6 =>
    obtain ⟨hsplit, hp, -⟩ := split_addr a6
    have hload : load a6.toList 0 12 = some (a6.toList.take 12) :=
      load_split (l := []) (by rw [List.nil_append]; exact hsplit) rfl hp
    have hstore : ∀ b : List UInt8, b.length = 12 → store b 0 (a6.toList.take 12) = some (a6.toList.take 12) := by
      intro b hb
      have h := store_split (l := []) (r := []) (m := b) rfl rfl (hp.trans hb.symm)
      simpa using h
    have hmapped : ipv6AddrV4mapped host a6.toList = some (decide (a6.toList.take 12 = mapped96)) := by
      rw [hsplit]
      simpa using ipv6AddrV4mapped_eq hp (a6.toList.drop 12)
    have hnat64 : ipv6AddrNat64 host a6.toList = some (decide (a6.toList.take 12 = nat64)) := by
      rw [hsplit]
      simpa using ipv6AddrNat64_eq hp (a6.toList.drop 12)
    have hjunk : junk.toList.length = 12 := by simp
    have hor : (decide (a6.toList.take 12 = mapped96) || decide (a6.toList.take 12 = nat64)) =
        decide (Compatible none (a6.toList.take 12)) := by
      simp [Compatible]
    simp only [qUpdateIpv6Prefix, PrefixSet.apply, hmapped, hnat64, hload, hor, Option.bind_eq_bind, Option.bind_some]
    by_cases hcompat : Compatible none (a6.toList.take 12)
    · simp [hcompat]
    · cases pfx with
      | some b => simp [hcompat, hstore b (hpfx b rfl)]
      | none => cases mem <;> simp [hcompat, hstore _ hjunk]

/-- What is kept after these updates. -/
def keptAfter (us : List PrefixSet) : Option (List UInt8) := us.foldl (fun pfx u => u.apply pfx) none

theorem prefixAfter_eq (host : Endian) (us : List PrefixSet) : prefixAfter host us = some (keptAfter us) ∧
    ∀ b ∈ keptAfter us, b.length = 12 := by
  induction us using List.reverseRecOn with
  | nil => exact ⟨rfl, fun b hb => by cases hb⟩
  | append_singleton us u ih =>
    obtain ⟨hrun, hlen⟩ := ih
    have hkept : keptAfter (us ++ [u]) = u.apply (keptAfter us) := by
      rw [keptAfter, List.foldl_append]
      rfl
    rw [prefixAfter] at hrun ⊢
    rw [hkept, List.foldlM_append, hrun]
    exact ⟨by simpa using qUpdateIpv6Prefix_eq host hlen u, length_apply hlen u⟩

end

/-! ### Translating -/

/-- The prefix of translated addresses. -/
def prefixInForce (pfx : Option (List UInt8)) : List UInt8 := pfx.getD nat64

/-- Which addresses are translated to IPv4: IPv4 addresses, and the IPv6 addresses with such a prefix. -/
def Sockaddr.Translates (pfx : Option (List UInt8)) : Sockaddr → Prop
  | v4 _ => True
  | v6 a => Compatible pfx (a.addr.toList.take 12)

instance (pfx : Option (List UInt8)) : (s : Sockaddr) → Decidable (s.Translates pfx)
  | .v4 _ => inferInstanceAs (Decidable True)
  | .v6 a => inferInstanceAs (Decidable (Compatible pfx (a.addr.toList.take 12)))

/-- The object of an IPv4 address: `sin_zero` is zero, and `rest` is what follows. -/
def image4 (host : Endian) (port addr rest : List UInt8) : List UInt8 :=
  host.store 2 afInet ++ (port ++ (addr ++ (List.replicate 8 0 ++ rest)))

section
variable {host : Endian} {pfx : Option (List UInt8)}

theorem SockaddrIn.load_bytes (host : Endian) (a : SockaddrIn) : load (a.bytes host) 0 2 = some (host.store 2 afInet) ∧
    load (a.bytes host) 2 2 = some a.port.toList ∧ load (a.bytes host) 4 4 = some a.addr.toList := by
  have hfam := length_store16 host afInet
  refine ⟨load_split (l := []) rfl rfl hfam, load_split rfl hfam (by simp), ?_⟩
  exact load_split (l := host.store 2 afInet ++ a.port.toList) (by rw [bytes, List.append_assoc])
    (by rw [List.length_append, hfam, Vector.length_toList]) (by simp)

theorem SockaddrIn6.load_bytes (host : Endian) (a : SockaddrIn6) : load (a.bytes host) 0 2 = some (host.store 2 afInet6) ∧
    load (a.bytes host) 2 2 = some a.port.toList ∧ load (a.bytes host) 8 16 = some a.addr.toList ∧
    load (a.bytes host) 20 4 = some (a.addr.toList.drop 12) := by
  have hfam := length_store16 host afInet6
  obtain ⟨hsplit, hp, hl⟩ := split_addr a.addr
  refine ⟨load_split (l := []) rfl rfl hfam, load_split rfl hfam (by simp), ?_, ?_⟩
  · exact load_split (l := host.store 2 afInet6 ++ (a.port.toList ++ a.flowinfo.toList)) (r := a.rest) (by simp [bytes])
      (by simp [hfam]) (by simp)
  · refine load_split (l := host.store 2 afInet6 ++ (a.port.toList ++ (a.flowinfo.toList ++ a.addr.toList.take 12)))
      (r := a.rest) ?_ (by simp [hfam]) hl
    rw [bytes]
    nth_rewrite 1 [hsplit]
    simp only [List.append_assoc]

theorem SockaddrIn.load_last (a : SockaddrIn) : load (a.bytes host) 20 4 = load a.rest 12 4 := by
  have hlen : (host.store 2 afInet ++ (a.port.toList ++ a.addr.toList)).length = 8 := by simp [length_store16]
  have hbytes : a.bytes host = host.store 2 afInet ++ (a.port.toList ++ a.addr.toList) ++ a.rest := by simp [bytes]
  have hdrop : (a.bytes host).drop 20 = a.rest.drop 12 := by
    rw [hbytes, ← List.drop_drop (i := 12) (j := 8), ← hlen, List.drop_left]
  have hiff : 20 + 4 ≤ (a.bytes host).length ↔ 12 + 4 ≤ a.rest.length := by
    rw [hbytes, List.length_append, hlen]
    omega
  simp only [load, hdrop, hiff]

/-- The IPv6 address of an IPv4 address. -/
def SockaddrIn.translate (a : SockaddrIn) (p : Vector UInt8 12) (rest : List UInt8) : SockaddrIn6 where
  port := a.port
  flowinfo := Vector.replicate 4 0
  addr := p ++ a.addr
  rest := List.replicate 4 0 ++ rest
  le := by simp

theorem setNat64Prefix_eq {l : List UInt8} {off : Nat} (hl : l.length = off) (r : List UInt8) :
    setNat64Prefix (l ++ (List.replicate 16 0 ++ r)) off = some (l ++ (nat64 ++ (List.replicate 4 0 ++ r))) := by
  have hclear : store (l ++ (List.replicate 16 0 ++ r)) off (List.replicate 16 0) = some (l ++ (List.replicate 16 0 ++ r)) :=
    store_split rfl hl rfl
  have h1 : store (l ++ (List.replicate 16 0 ++ r)) (off + 1) [0x64] =
      some (l ++ [0] ++ ([0x64] ++ (List.replicate 14 0 ++ r))) := by
    refine store_split (m := [0]) ?_ (by simp [hl]) rfl
    rw [List.append_assoc]
    rfl
  have h2 : store (l ++ [0] ++ ([0x64] ++ (List.replicate 14 0 ++ r))) (off + 2) [0xff] =
      some (l ++ [0, 0x64] ++ ([0xff] ++ (List.replicate 13 0 ++ r))) := by
    refine store_split (m := [0]) ?_ (by simp [hl]) rfl
    simp only [List.append_assoc]
    rfl
  have h3 : store (l ++ [0, 0x64] ++ ([0xff] ++ (List.replicate 13 0 ++ r))) (off + 3) [0x9b] =
      some (l ++ [0, 0x64, 0xff] ++ ([0x9b] ++ (List.replicate 12 0 ++ r))) := by
    refine store_split (m := [0]) ?_ (by simp [hl]) rfl
    simp only [List.append_assoc]
    rfl
  simp only [setNat64Prefix, hclear, Option.bind_eq_bind, Option.bind_some, h1]
  rw [h2, Option.bind_some, h3, List.append_assoc]
  rfl

theorem putPrefix_eq (pfx : Option (List UInt8)) {l : List UInt8} {off : Nat} (hl : l.length = off) (hpfx : ∀ b ∈ pfx, b.length = 12) (r : List UInt8) :
    putPrefix (l ++ (List.replicate 16 0 ++ r)) off pfx =
      some (l ++ (prefixInForce pfx ++ (List.replicate 4 0 ++ r))) := by
  cases pfx with
  | none => exact setNat64Prefix_eq hl r
  | some b =>
    have hb : b.length = 12 := hpfx b rfl
    have hload : load b 0 12 = some b := load_split (l := []) (r := []) (by simp) rfl hb
    rw [putPrefix, hload, Option.bind_eq_bind, Option.bind_some]
    exact store_split (m := List.replicate 12 0) rfl hl hb

theorem ipv6SkAddrFromIpv4_eq (host : Endian) {p : Vector UInt8 12} (hpfx : ∀ b ∈ pfx, b.length = 12) (hp : prefixInForce pfx = p.toList)
    (a : SockaddrIn) (v6 : List UInt8) (hlen : 28 ≤ v6.length) :
    ipv6SkAddrFromIpv4 host pfx v6 (a.bytes host) = some ((a.translate p (v6.drop 28)).bytes host) := by
  obtain ⟨-, hport, haddr⟩ := a.load_bytes host
  have hfam := length_store16 host afInet6
  have hclear : store v6 0 (List.replicate 28 0) = some (List.replicate 28 0 ++ v6.drop 28) :=
    store_split (l := []) (m := v6.take 28) (by simp) rfl (by simp [hlen])
  have hfamily : store (List.replicate 28 0 ++ v6.drop 28) 0 (host.store 2 afInet6) =
      some (host.store 2 afInet6 ++ (List.replicate 26 0 ++ v6.drop 28)) :=
    store_split (l := []) (m := List.replicate 2 0) rfl rfl hfam
  have hstorePort : store (host.store 2 afInet6 ++ (List.replicate 26 0 ++ v6.drop 28)) 2 a.port.toList =
      some (host.store 2 afInet6 ++ (a.port.toList ++ (List.replicate 24 0 ++ v6.drop 28))) :=
    store_split (m := List.replicate 2 0) rfl hfam (by simp)
  have hsplit : host.store 2 afInet6 ++ (a.port.toList ++ (List.replicate 24 0 ++ v6.drop 28)) =
      host.store 2 afInet6 ++ (a.port.toList ++ List.replicate 4 0) ++
        (List.replicate 16 0 ++ (List.replicate 4 0 ++ v6.drop 28)) := by
    simp only [List.append_assoc]
    rfl
  have hoff : (host.store 2 afInet6 ++ (a.port.toList ++ List.replicate 4 0)).length = 8 := by simp [hfam]
  have hput := putPrefix_eq pfx hoff hpfx (List.replicate 4 0 ++ v6.drop 28)
  have hlast : store (host.store 2 afInet6 ++ (a.port.toList ++ List.replicate 4 0) ++
      (prefixInForce pfx ++ (List.replicate 4 0 ++ (List.replicate 4 0 ++ v6.drop 28)))) 20 a.addr.toList =
      some (host.store 2 afInet6 ++ (a.port.toList ++ List.replicate 4 0) ++ prefixInForce pfx ++
        (a.addr.toList ++ (List.replicate 4 0 ++ v6.drop 28))) :=
    store_split (m := List.replicate 4 0) (by simp only [List.append_assoc]) (by simp [hfam, hp]) (by simp)
  simp only [ipv6SkAddrFromIpv4, hclear, hfamily, hport, hstorePort, hsplit, hput, haddr, hlast, Option.bind_eq_bind,
    Option.bind_some]
  have haddr16 : (a.translate p (v6.drop 28)).addr.toList = p.toList ++ a.addr.toList := Vector.toList_append
  rw [SockaddrIn6.bytes, haddr16, hp]
  simp [SockaddrIn.translate]

theorem skAddrIpv4Compatible_eq (host : Endian) (hpfx : ∀ b ∈ pfx, b.length = 12) (s : Sockaddr) :
    skAddrIpv4Compatible host pfx (s.bytes host) = some (decide (s.Translates pfx)) := by
  have hfam4 := load_store16 host afInet
  have hfam6 := load_store16 host afInet6
  cases s with
  | v4 a =>
    obtain ⟨hload, -⟩ := a.load_bytes host
    simp only [skAddrIpv4Compatible, Sockaddr.bytes, hload, hfam4, Option.bind_eq_bind, Option.bind_some, if_true]
    rfl
  | v6 a =>
    obtain ⟨hload, -, haddr, -⟩ := a.load_bytes host
    obtain ⟨hsplit, hp, -⟩ := split_addr a.addr
    have hcompat := ipv6AddrV4Compatible_eq host hp hpfx (a.addr.toList.drop 12)
    rw [← hsplit] at hcompat
    have hne : afInet6 ≠ afInet := by decide
    simp only [skAddrIpv4Compatible, Sockaddr.bytes, hload, hfam6, hne, haddr, hcompat, Option.bind_eq_bind, Option.bind_some,
      if_true, if_false]
    rfl

/-- The result for an accepted address, of which `w` is the word that is taken for the IPv4 address. -/
theorem ipv6SkAddrToIpv4_eq (host : Endian) (hpfx : ∀ b ∈ pfx, b.length = 12) (s : Sockaddr) (v4 : List UInt8) (hlen : 16 ≤ v4.length) :
    ipv6SkAddrToIpv4 host pfx v4 (s.bytes host) = if s.Translates pfx then
      (load (s.bytes host) 20 4).map fun w => some (image4 host s.port w (v4.drop 16)) else some none := by
  have hcompat := skAddrIpv4Compatible_eq host hpfx s
  have hfam := length_store16 host afInet
  by_cases ht : s.Translates pfx
  · have hport : load (s.bytes host) 2 2 = some s.port := by
      cases s with
      | v4 a => exact (a.load_bytes host).2.1
      | v6 a => exact (a.load_bytes host).2.1
    have hport2 : s.port.length = 2 := by cases s <;> simp [Sockaddr.port]
    have hclear : store v4 0 (List.replicate 16 0) = some (List.replicate 16 0 ++ v4.drop 16) :=
      store_split (l := []) (m := v4.take 16) (by simp) rfl (by simp [hlen])
    have hfamily : store (List.replicate 16 0 ++ v4.drop 16) 0 (host.store 2 afInet) =
        some (host.store 2 afInet ++ (List.replicate 14 0 ++ v4.drop 16)) :=
      store_split (l := []) (m := List.replicate 2 0) rfl rfl hfam
    have hstorePort : store (host.store 2 afInet ++ (List.replicate 14 0 ++ v4.drop 16)) 2 s.port =
        some (host.store 2 afInet ++ (s.port ++ (List.replicate 12 0 ++ v4.drop 16))) :=
      store_split (m := List.replicate 2 0) rfl hfam hport2
    rw [decide_eq_true ht] at hcompat
    simp only [ipv6SkAddrToIpv4, hcompat, hclear, hfamily, hport, hstorePort, Option.bind_eq_bind, Option.bind_some,
      if_pos ht]
    cases hw : load (s.bytes host) 20 4 with
    | none => rfl
    | some w =>
      have hw4 : w.length = 4 := length_load hw
      have hlast : store (host.store 2 afInet ++ (s.port ++ (List.replicate 12 0 ++ v4.drop 16))) 4 w =
          some (host.store 2 afInet ++ s.port ++ (w ++ (List.replicate 8 0 ++ v4.drop 16))) :=
        store_split (m := List.replicate 4 0) (by simp only [List.append_assoc]; rfl) (by simp [hfam, hport2])
          (by simp [hw4])
      simp only [Option.bind_some, hlast, Option.map_some, image4, List.append_assoc]
      rfl
  · rw [decide_eq_false ht] at hcompat
    simp [ipv6SkAddrToIpv4, hcompat, ht]

theorem image4_inj {port w w' rest : List UInt8} (hlen : w.length = w'.length)
    (h : image4 host port w rest = image4 host port w' rest) : w = w' :=
  (List.append_inj (List.append_cancel_left (List.append_cancel_left h)) hlen).1

theorem exists_inForce (hpfx : ∀ b ∈ pfx, b.length = 12) : ∃ p : Vector UInt8 12, prefixInForce pfx = p.toList := by
  have hlen : (prefixInForce pfx).length = 12 := by
    cases pfx with
    | none => rfl
    | some b => exact hpfx b rfl
  exact ⟨⟨(prefixInForce pfx).toArray, by simpa using hlen⟩, rfl⟩

theorem compatible_inForce (pfx : Option (List UInt8)) : Compatible pfx (prefixInForce pfx) := by
  cases pfx with
  | none => exact .inr (.inl rfl)
  | some b => exact .inr (.inr rfl)

theorem ipv6SkAddrFromIpv4_back (hpfx : ∀ b ∈ pfx, b.length = 12) (a : SockaddrIn) {v6 v4 : List UInt8}
    (h6 : 28 ≤ v6.length) (h4 : 16 ≤ v4.length) : ∃ v6', ipv6SkAddrFromIpv4 host pfx v6 (a.bytes host) = some v6' ∧
    ipv6SkAddrToIpv4 host pfx v4 v6' = some (some (image4 host a.port.toList a.addr.toList (v4.drop 16))) := by
  obtain ⟨p, hp⟩ := exists_inForce hpfx
  have haddr : (a.translate p (v6.drop 28)).addr.toList = p.toList ++ a.addr.toList := Vector.toList_append
  have hp12 : p.toList.length = 12 := by simp
  have htake : (p.toList ++ a.addr.toList).take 12 = p.toList := List.take_left' hp12
  have hdrop : (p.toList ++ a.addr.toList).drop 12 = a.addr.toList := List.drop_left' hp12
  have ht : (Sockaddr.v6 (a.translate p (v6.drop 28))).Translates pfx := by
    rw [Sockaddr.Translates, haddr, htake, ← hp]
    exact compatible_inForce pfx
  have hto := ipv6SkAddrToIpv4_eq host hpfx (.v6 (a.translate p (v6.drop 28))) v4 h4
  rw [if_pos ht, Sockaddr.bytes, ((a.translate p (v6.drop 28)).load_bytes host).2.2.2, haddr, hdrop] at hto
  exact ⟨_, ipv6SkAddrFromIpv4_eq host hpfx hp a v6 h6, hto⟩

end

/-- An IPv4 address survives the translation, and the address `s` is translated if it should be, to what it denotes. -/
structure Lossless (host : Endian) (pfx : Option (List UInt8)) (a : SockaddrIn) (s : Sockaddr) : Prop where
  back : ∀ v6 v4 : List UInt8, 28 ≤ v6.length → 16 ≤ v4.length →
    ∃ v6', ipv6SkAddrFromIpv4 host pfx v6 (a.bytes host) = some v6' ∧
      ipv6SkAddrToIpv4 host pfx v4 v6' = some (some (image4 host a.port.toList a.addr.toList (v4.drop 16)))
  forth : ∀ v4 : List UInt8, 16 ≤ v4.length → ipv6SkAddrToIpv4 host pfx v4 (s.bytes host) =
    some (if s.Translates pfx then some (image4 host s.port s.addr (v4.drop 16)) else none)

/-- An IPv6 address, or an IPv4 address in an object that has it a second time, as the last word of a `sockaddr_in6`. -/
def Sockaddr.AtLast : Sockaddr → Prop
  | v4 a => load a.rest 12 4 = some a.addr.toList
  | v6 _ => True

theorem to_ipv4_iff (host : Endian) (us : List PrefixSet) : ∃ pfx, prefixAfter host us = some pfx ∧
    ∀ (a : SockaddrIn) (s : Sockaddr), Lossless host pfx a s ↔ s.AtLast := by
  obtain ⟨hrun, hpfx⟩ := prefixAfter_eq host us
  refine ⟨keptAfter us, hrun, fun a s => ⟨fun h => ?_, fun h => ⟨fun v6 v4 h6 h4 => ?_, fun v4 h4 => ?_⟩⟩⟩
  · cases s with
    | v6 s => exact trivial
    | v4 s =>
      have hto := h.forth (List.replicate 16 0) (by simp)
      have ht : (Sockaddr.v4 s).Translates (keptAfter us) := trivial
      rw [ipv6SkAddrToIpv4_eq host hpfx _ _ (by simp), if_pos ht, if_pos ht, Sockaddr.bytes, s.load_last] at hto
      obtain ⟨w, hw, himage⟩ := Option.map_eq_some_iff.1 hto
      have hlen : w.length = s.addr.toList.length := by rw [length_load hw, Vector.length_toList]
      rw [Sockaddr.AtLast, hw, image4_inj hlen (Option.some.inj himage)]
  · exact ipv6SkAddrFromIpv4_back hpfx a h6 h4
  · rw [ipv6SkAddrToIpv4_eq host hpfx s v4 h4]
    split
    · next ht =>
      cases s with
      | v6 s =>
        rw [Sockaddr.bytes, (s.load_bytes host).2.2.2]
        rfl
      | v4 s =>
        rw [Sockaddr.bytes, s.load_last, h]
        rfl
    · rfl

/-- 1.2.3.4, port 80, in a cleared `aosl_sk_addr_t`: it becomes 0.0.0.0. -/
theorem not_to_ipv4 : ∃ s : SockaddrIn,
    s.bytes .little = [2, 0, 0, 80, 1, 2, 3, 4] ++ List.replicate 20 0 ∧
    prefixAfter .little [] = some none ∧
    ipv6SkAddrToIpv4 .little none (List.replicate 16 0) (s.bytes .little) =
      some (some ([2, 0, 0, 80, 0, 0, 0, 0] ++ List.replicate 8 0)) ∧
    ¬Lossless .little none s (.v4 s) := by
  refine ⟨⟨#v[0, 80], #v[1, 2, 3, 4], List.replicate 20 0, by decide⟩, by decide, rfl, by decide, fun h => ?_⟩
  have hto := h.forth (List.replicate 16 0) (by decide)
  revert hto
  decide

end Ipv6

end Aosl
