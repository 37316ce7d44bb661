import Aosl.Ipv6
import Aosl.InetPrint

/-!
# Socket addresses as text, `net/sk_utils.c`

`aosl_ip_sk_addr_from_string` takes a text with a colon for an IPv6 address and any other one for an IPv4 address, and
fills in an `aosl_sk_addr_t`; `aosl_ip_sk_addr_str` and `aosl_ip_sk_addr_port` go the other way. The two kinds of texts
have nothing in common, and a text and a port are all of a socket address but its flow info and scope (`sk_addr_text`).

An `aosl_sk_addr_t` is its bytes, with what follows if the object is larger. The local arrays of `inet.c` are arguments.
-/

namespace Aosl

namespace SkAddr

open Inet Ipv6

def aoslHtons (host : Endian) (x : BitVec 16) : BitVec 16 := host.cpuToBe swab16 x

def aoslNtohs (host : Endian) (x : BitVec 16) : BitVec 16 := host.cpuToBe swab16 x

/-- `k_inet_ntop` for the address at the start of `src`; `AOSL_AF_INET` is 2 and `AOSL_AF_INET6` 10. -/
def kInetNtop (tmp4 tmp6 : Text) (af : Int) (src : List UInt8) (dst : Text) (size : Int) : Option (Bool × Text) :=
  if af = 2 then inetNtop4 tmp4 src dst 0 size
  else if af = 10 then do inetNtop6 tmp4 tmp6 (← load src 0 16) dst size
  else some (false, dst)

/-- `k_inet_pton` into the object `dst`, from `off` on. -/
def kInetPton (tmp4 : List UInt8) (af : Int) (src : Text) (dst : List UInt8) (off : Nat) :
    Option (Int × List UInt8) :=
  if af = 2 then (inetPton4 tmp4 src dst off).map fun r => (r.1, r.2)
  else if af = 10 then do
    let r ← inetPton6 tmp4 src (← load dst off 16)
    return (r.1, ← store dst off r.2)
  else some (-1, dst)

def snprintf (text buf : Text) (len : Nat) : Option Text :=
  if len = 0 then some buf else store buf 0 (text.take (len - 1) ++ [nul])

/-- `<Unknown af %d>`. -/
def unknownAf (af : Int) : Text :=
  "<Unknown af ".toList ++ ((if af < 0 then ['-'] else []) ++ (decText af.natAbs ++ ['>']))

/-- The three functions for a text, with the place of an IPv4 and of an IPv6 address; the result is the buffer. -/
def addrStr (tmp4 tmp6 : Text) (af : Int) (in4 in6 : List UInt8) (buf : Text) (len : Nat) : Option Text :=
  let size := (BitVec.ofNat 32 len).toInt
  if af = 2 then (kInetNtop tmp4 tmp6 2 in4 buf size).map Prod.snd
  else if af = 10 then (kInetNtop tmp4 tmp6 10 in6 buf size).map Prod.snd
  else snprintf (unknownAf af) buf len

def aoslInetAddrStr (tmp4 tmp6 : Text) (af : Int) (addr : List UInt8) (buf : Text) (len : Nat) : Option Text :=
  addrStr tmp4 tmp6 af addr addr buf len

def aoslSockaddrStr (host : Endian) (tmp4 tmp6 : Text) (addr : List UInt8) (buf : Text) (len : Nat) :
    Option Text := do
  let family := host.load 16 (← load addr 0 2)
  addrStr tmp4 tmp6 family.toNat (addr.drop 4) (addr.drop 8) buf len

def aoslIpSkAddrStr (host : Endian) (tmp4 tmp6 : Text) (addr : List UInt8) (buf : Text) (len : Nat) : Option Text :=
  aoslSockaddrStr host tmp4 tmp6 addr buf len

def aoslIpSkAddrPort (host : Endian) (addr : List UInt8) : Option (BitVec 16) := do
  let family := host.load 16 (← load addr 0 2)
  if family = afInet ∨ family = afInet6 then
    return aoslNtohs host (host.load 16 (← load addr 2 2))
  else
    return 0

def aoslInetAddrFromString (tmp4 addr : List UInt8) (strAddr : Text) : Option (Nat × List UInt8) := do
  if ':' ∈ strAddr then
    let (r, addr) ← kInetPton tmp4 10 strAddr addr 0
    return (if r ≠ 1 then 0 else 16, addr)
  else
    let (r, addr) ← kInetPton tmp4 2 strAddr addr 0
    return (if r ≠ 1 then 0 else 4, addr)

/-- The two halves of `aosl_ip_sk_addr_from_string`: the size and the family of the type, and the place of the address
in it. -/
def fromString (host : Endian) (tmp4 skAddr : List UInt8) (strAddr : Text) (port : BitVec 16) (size : Nat)
    (family : BitVec 16) (off : Nat) : Option (Nat × List UInt8) := do
  let skAddr ← store skAddr 0 (List.replicate size 0)
  let (r, skAddr) ← kInetPton tmp4 family.toNat strAddr skAddr off
  if r ≠ 1 then
    return (0, skAddr)
  else
    let skAddr ← store skAddr 0 (host.store 2 family)
    let skAddr ← store skAddr 2 (host.store 2 (aoslHtons host port))
    return (size, skAddr)

def aoslIpSkAddrFromString (host : Endian) (tmp4 skAddr : List UInt8) (strAddr : Text) (port : BitVec 16) :
    Option (Nat × List UInt8) :=
  if ':' ∈ strAddr then fromString host tmp4 skAddr strAddr port 28 afInet6 8
  else fromString host tmp4 skAddr strAddr port 16 afInet 4

/-! ### Addresses -/

/-- The address of a host. -/
inductive Addr where
  | v4 (a : Vector UInt8 4)
  | v6 (a : Vector UInt8 16)

namespace Addr

/-- The text is one of the address. -/
def Named (s : Text) : Addr → Prop
  | v4 a => s = dottedText a.toList
  | v6 a => Denotes s a.toList

def bytes : Addr → List UInt8
  | v4 a => a.toList
  | v6 a => a.toList

/-- The size of the socket address. -/
def size : Addr → Nat
  | v4 _ => 16
  | v6 _ => 28

/-- The socket address in the object `obj`: everything but the family, the port and the address is zero. -/
def image (host : Endian) (port obj : List UInt8) : Addr → List UInt8
  | v4 a => image4 host port a.toList (obj.drop 16)
  | v6 a => host.store 2 afInet6 ++ (port ++ (List.replicate 4 0 ++ (a.toList ++ (List.replicate 4 0 ++ obj.drop 28))))

end Addr

/-- The address in a socket address. -/
def addrOf : Sockaddr → Addr
  | .v4 a => .v4 a.addr
  | .v6 a => .v6 a.addr

/-! ### Ports -/

theorem toNat_swab16 (x : BitVec 16) : (swab16 x).toNat = 256 * (x.toNat % 256) + x.toNat / 256 := by
  have hx := x.isLt
  have hlow : x.toNat &&& 255 = x.toNat % 256 := Nat.and_two_pow_sub_one_eq_mod x.toNat 8
  have hhigh : (x.toNat &&& 65280) >>> 8 = x.toNat / 256 := by
    rw [Nat.shiftRight_and_distrib, Nat.shiftRight_eq_div_pow]
    show x.toNat / 2 ^ 8 &&& 2 ^ 8 - 1 = _
    rw [Nat.and_two_pow_sub_one_eq_mod, Nat.mod_eq_of_lt (by omega)]
    rfl
  simp only [swab16, BitVec.toNat_or, BitVec.toNat_shiftLeft, BitVec.toNat_ushiftRight, BitVec.toNat_and,
    BitVec.toNat_ofNat]
  show (x.toNat &&& 255) <<< 8 % 65536 ||| (x.toNat &&& 65280) >>> 8 = _
  rw [hlow, hhigh, Nat.shiftLeft_eq, Nat.mod_eq_of_lt (by omega), ← Nat.shiftLeft_eq,
    ← Nat.shiftLeft_add_eq_or_of_lt (by omega), Nat.shiftLeft_eq, Nat.mul_comm]

theorem store_htons (host : Endian) (port : BitVec 16) : host.store 2 (aoslHtons host port) = hiLo port.toNat := by
  have hlt := port.isLt
  have hbyte : ∀ m n : Nat, m % 256 = n % 256 → UInt8.ofNat m = UInt8.ofNat n := fun m n h =>
    UInt8.toNat_inj.1 (by rw [UInt8.toNat_ofNat', UInt8.toNat_ofNat']; exact h)
  cases host with
  | little =>
    show lowBytes 2 (swab16 port).toNat = _
    have hhigh : (256 * (port.toNat % 256) + port.toNat / 256) / 256 = port.toNat % 256 := by
      rw [Nat.mul_add_div (by decide), Nat.div_eq_of_lt (by omega), Nat.add_zero]
    rw [toNat_swab16]
    simp only [lowBytes, hiLo, hhigh, List.cons.injEq, and_true]
    exact hbyte _ _ (by omega)
  | big =>
    show (lowBytes 2 port.toNat).reverse = _
    simp only [lowBytes, hiLo, List.reverse_cons, List.reverse_nil, List.nil_append, List.singleton_append,
      List.cons.injEq, and_true, true_and]
    exact hbyte _ _ (by omega)

theorem swab16_swab16 (x : BitVec 16) : swab16 (swab16 x) = x := by
  have hlt := x.isLt
  apply BitVec.eq_of_toNat_eq
  rw [toNat_swab16, toNat_swab16]
  omega

theorem htons_ntohs (host : Endian) (x : BitVec 16) : aoslHtons host (aoslNtohs host x) = x := by
  cases host with
  | little => exact swab16_swab16 x
  | big => rfl

theorem hiLo_ntohs (host : Endian) {bs : List UInt8} (h : bs.length = 2) :
    hiLo (aoslNtohs host (host.load 16 bs)).toNat = bs := by
  rw [← store_htons host, htons_ntohs, host.store_load h (by decide)]

/-! ### Texts -/

section
variable {host : Endian} {tmp obj bs rest : List UInt8} {s : Text} {a b : Addr}

theorem colon_notMem_dotTail (as : List UInt8) : ':' ∉ dotTail as := by
  induction as with
  | nil => exact List.not_mem_nil
  | cons a as ih =>
    rw [dotTail, List.mem_cons, List.mem_append]
    rintro (h | h | h)
    · exact absurd h (by decide)
    · exact absurd (isDecDigit_of_mem h) (by decide)
    · exact ih h

theorem colon_notMem_dottedText (as : List UInt8) : ':' ∉ dottedText as := by
  cases as with
  | nil => exact List.not_mem_nil
  | cons a as =>
    rw [dottedText, List.mem_append]
    rintro (h | h)
    · exact absurd (isDecDigit_of_mem h) (by decide)
    · exact colon_notMem_dotTail as h

theorem colon_mem (h : Denotes s bs) : ':' ∈ s := by
  cases h with
  | full hgroups hlen =>
    cases hgroups with
    | one => cases hlen
    | dotted _ h4 => omega
    | cons => exact List.mem_append_right _ List.mem_cons_self
  | elided => exact List.mem_append_right _ List.mem_cons_self

theorem length_denotes (h : Denotes s bs) : bs.length = 16 := by
  cases h with
  | full _ hlen => exact hlen
  | elided _ _ hlen =>
    rw [widen, List.length_append, List.length_append, List.length_replicate]
    omega

theorem denotes_unique {bs' : List UInt8} (h : Denotes s bs) (h' : Denotes s bs') : bs = bs' := by
  have h4 : (List.replicate 4 (0 : UInt8)).length = 4 := rfl
  have h16 : (List.replicate 16 (0 : UInt8)).length = 16 := rfl
  have hrun := inetPton6_denotes h4 h16 h
  rw [inetPton6_denotes h4 h16 h'] at hrun
  exact (Prod.mk.inj (Option.some.inj hrun)).2.symm

namespace Addr

theorem Named.unique (ha : a.Named s) (hb : b.Named s) : a = b := by
  cases a with
  | v4 a =>
    obtain rfl : s = dottedText a.toList := ha
    cases b with
    | v4 b =>
      have heq : a.toList = b.toList := dottedText_inj (List.ne_nil_of_length_eq_add_one a.length_toList)
        (List.ne_nil_of_length_eq_add_one b.length_toList) hb
      rw [Vector.toList_inj.1 heq]
    | v6 b => exact absurd (colon_mem hb) (colon_notMem_dottedText _)
  | v6 a =>
    cases b with
    | v4 b =>
      obtain rfl : s = dottedText b.toList := hb
      exact absurd (colon_mem ha) (colon_notMem_dottedText _)
    | v6 b => rw [Vector.toList_inj.1 (denotes_unique ha hb)]

end Addr

/-! ### Reading -/

theorem kInetPton_v4 {l m r : List UInt8} (htmp : tmp.length = 4) (hm : m.length = 4) (s : Text) :
    (∀ a : Vector UInt8 4, s = dottedText a.toList →
      kInetPton tmp 2 s (l ++ (m ++ r)) l.length = some (1, l ++ (a.toList ++ r))) ∧
    ((∀ a : Vector UInt8 4, s ≠ dottedText a.toList) →
      kInetPton tmp 2 s (l ++ (m ++ r)) l.length = some (0, l ++ (m ++ r))) := by
  have hrun := inetPton4_run (l := l) (r := r) htmp hm s
  rw [kInetPton, if_pos rfl, ← List.append_assoc]
  rcases hrun with ⟨a, h4, hs, hrun⟩ | ⟨hno, hrun⟩
  · rw [hrun]
    refine ⟨fun b hb => ?_, fun hne => ?_⟩
    · have heq : a = b.toList := dottedText_inj (List.ne_nil_of_length_eq_add_one h4)
        (List.ne_nil_of_length_eq_add_one b.length_toList) (hs.trans hb)
      rw [heq, List.append_assoc]
      rfl
    · exact absurd hs.symm (hne ⟨a.toArray, by simpa using h4⟩)
  · rw [hrun]
    exact ⟨fun b hb => absurd hb.symm (hno b.toList b.length_toList), fun _ => rfl⟩

theorem kInetPton_v6 {l m r : List UInt8} (htmp : tmp.length = 4) (hm : m.length = 16) (s : Text) :
    (∀ bs, Denotes s bs → kInetPton tmp 10 s (l ++ (m ++ r)) l.length = some (1, l ++ (bs ++ r))) ∧
    ((∀ bs, ¬Denotes s bs) → kInetPton tmp 10 s (l ++ (m ++ r)) l.length = some (0, l ++ (m ++ r))) := by
  have hload : load (l ++ (m ++ r)) l.length 16 = some m := load_split rfl rfl hm
  have hstore : ∀ bs : List UInt8, bs.length = 16 → store (l ++ (m ++ r)) l.length bs = some (l ++ (bs ++ r)) :=
    fun bs hbs => store_split rfl rfl (hbs.trans hm.symm)
  rw [kInetPton, if_neg (by decide), if_pos rfl, hload, Option.bind_eq_bind, Option.bind_some]
  refine ⟨fun bs hbs => ?_, fun hne => ?_⟩
  · rw [inetPton6_denotes htmp hm hbs, Option.bind_eq_bind, Option.bind_some, hstore bs (length_denotes hbs)]
    rfl
  · rw [inetPton6_rejects htmp hm hne, Option.bind_eq_bind, Option.bind_some, hstore m hm]
    rfl

theorem clear_eq {size : Nat} (hsize : size ≤ obj.length) :
    store obj 0 (List.replicate size 0) = some (List.replicate size 0 ++ obj.drop size) :=
  store_split (l := []) (m := obj.take size) (by simp) rfl (by simp [hsize])

/-- The fields are stored one after the other; there are `k` bytes between the port and the address. -/
theorem fromString_accepts {size k : Nat} {family port : BitVec 16} (hsize : size ≤ obj.length)
    (hread : kInetPton tmp family.toNat s (List.replicate size 0 ++ obj.drop size) (4 + k) =
      some (1, List.replicate (4 + k) 0 ++ (bs ++ rest))) :
    fromString host tmp obj s port size family (4 + k) =
      some (size, host.store 2 family ++ (hiLo port.toNat ++ (List.replicate k 0 ++ (bs ++ rest)))) := by
  have hfam := length_store16 host family
  have hfamily : store (List.replicate (4 + k) 0 ++ (bs ++ rest)) 0 (host.store 2 family) =
      some (host.store 2 family ++ ([0, 0] ++ (List.replicate k 0 ++ (bs ++ rest)))) := by
    refine store_split (l := []) (m := [0, 0]) ?_ rfl hfam
    rw [← List.replicate_append_replicate, List.append_assoc]
    rfl
  have hport : store (host.store 2 family ++ ([0, 0] ++ (List.replicate k 0 ++ (bs ++ rest)))) 2 (hiLo port.toNat) =
      some (host.store 2 family ++ (hiLo port.toNat ++ (List.replicate k 0 ++ (bs ++ rest)))) :=
    store_split rfl hfam rfl
  rw [fromString, clear_eq hsize, Option.bind_eq_bind, Option.bind_some, hread, Option.bind_eq_bind, Option.bind_some]
  dsimp only
  rw [if_neg (by decide), hfamily, Option.bind_some, store_htons, hport]
  rfl

theorem fromString_rejects {size off : Nat} {family port : BitVec 16} (hsize : size ≤ obj.length)
    (hread : kInetPton tmp family.toNat s (List.replicate size 0 ++ obj.drop size) off =
      some (0, List.replicate size 0 ++ obj.drop size)) :
    fromString host tmp obj s port size family off = some (0, List.replicate size 0 ++ obj.drop size) := by
  rw [fromString, clear_eq hsize, Option.bind_eq_bind, Option.bind_some, hread, Option.bind_eq_bind, Option.bind_some]
  dsimp only
  rw [if_pos (by decide)]
  rfl

theorem ipSkAddrFromString_named (htmp : tmp.length = 4) (hobj : 28 ≤ obj.length) (port : BitVec 16)
    (hs : a.Named s) :
    aoslIpSkAddrFromString host tmp obj s port = some (a.size, a.image host (hiLo port.toNat) obj) := by
  cases a with
  | v4 a =>
    obtain rfl : s = dottedText a.toList := hs
    have hread := (kInetPton_v4 (l := List.replicate 4 0) (m := List.replicate 4 0)
      (r := List.replicate 8 0 ++ obj.drop 16) htmp rfl (dottedText a.toList)).1 a rfl
    rw [aoslIpSkAddrFromString, if_neg (colon_notMem_dottedText _)]
    exact fromString_accepts (k := 0) (by omega) hread
  | v6 a =>
    have hread := (kInetPton_v6 (l := List.replicate 8 0) (m := List.replicate 16 0)
      (r := List.replicate 4 0 ++ obj.drop 28) htmp rfl s).1 a.toList hs
    rw [aoslIpSkAddrFromString, if_pos (colon_mem hs)]
    exact fromString_accepts (k := 4) hobj hread

theorem not_denotes (hs : ∀ a : Addr, ¬a.Named s) (bs : List UInt8) : ¬Denotes s bs := fun hbs =>
  hs (.v6 ⟨bs.toArray, by simpa using length_denotes hbs⟩) (by simpa [Addr.Named] using hbs)

theorem ipSkAddrFromString_other (htmp : tmp.length = 4) (hobj : 28 ≤ obj.length) (port : BitVec 16)
    (hs : ∀ a : Addr, ¬a.Named s) : ∃ n, n ≤ 28 ∧
    aoslIpSkAddrFromString host tmp obj s port = some (0, List.replicate n 0 ++ obj.drop n) := by
  by_cases hcolon : ':' ∈ s
  · have hread := (kInetPton_v6 (l := List.replicate 8 0) (m := List.replicate 16 0)
      (r := List.replicate 4 0 ++ obj.drop 28) htmp rfl s).2 (not_denotes hs)
    rw [aoslIpSkAddrFromString, if_pos hcolon]
    exact ⟨28, Nat.le_refl 28, fromString_rejects hobj hread⟩
  · have hread := (kInetPton_v4 (l := List.replicate 4 0) (m := List.replicate 4 0)
      (r := List.replicate 8 0 ++ obj.drop 16) htmp rfl s).2 fun a ha => hs (.v4 a) ha
    rw [aoslIpSkAddrFromString, if_neg hcolon]
    exact ⟨16, by decide, fromString_rejects (by omega) hread⟩

theorem inetAddrFromString_named (htmp : tmp.length = 4) (hobj : 16 ≤ obj.length) (hs : a.Named s) :
    aoslInetAddrFromString tmp obj s = some (a.bytes.length, a.bytes ++ obj.drop a.bytes.length) := by
  cases a with
  | v4 a =>
    obtain rfl : s = dottedText a.toList := hs
    have hread := (kInetPton_v4 (l := []) (m := obj.take 4) (r := obj.drop 4) htmp (by simp; omega)
      (dottedText a.toList)).1 a rfl
    rw [List.nil_append, List.take_append_drop, List.length_nil, List.nil_append] at hread
    rw [aoslInetAddrFromString, if_neg (colon_notMem_dottedText _), hread, Addr.bytes, Vector.length_toList]
    rfl
  | v6 a =>
    have hread := (kInetPton_v6 (l := []) (m := obj.take 16) (r := obj.drop 16) htmp (by simp [hobj]) s).1 a.toList hs
    rw [List.nil_append, List.take_append_drop, List.length_nil, List.nil_append] at hread
    rw [aoslInetAddrFromString, if_pos (colon_mem hs), hread, Addr.bytes, Vector.length_toList]
    rfl

theorem inetAddrFromString_other (htmp : tmp.length = 4) (hobj : 16 ≤ obj.length) (hs : ∀ a : Addr, ¬a.Named s) :
    aoslInetAddrFromString tmp obj s = some (0, obj) := by
  by_cases hcolon : ':' ∈ s
  · have hread := (kInetPton_v6 (l := []) (m := obj.take 16) (r := obj.drop 16) htmp (by simp [hobj]) s).2
      (not_denotes hs)
    rw [List.nil_append, List.take_append_drop, List.length_nil] at hread
    rw [aoslInetAddrFromString, if_pos hcolon, hread]
    rfl
  · have hread := (kInetPton_v4 (l := []) (m := obj.take 4) (r := obj.drop 4) htmp (by simp; omega) s).2
      fun a ha => hs (.v4 a) ha
    rw [List.nil_append, List.take_append_drop, List.length_nil] at hread
    rw [aoslInetAddrFromString, if_neg hcolon, hread]
    rfl

end

/-! ### Printing -/

section
variable {host : Endian} {tmp4 tmp6 buf : Text} {len : Nat}

theorem toInt_len (hlt : len < 2147483648) : (BitVec.ofNat 32 len).toInt = len := by
  have hnat : (BitVec.ofNat 32 len).toNat = len := by
    rw [BitVec.toNat_ofNat]
    omega
  rw [BitVec.toInt_eq_toNat_of_lt (by rw [hnat]; omega), hnat]

theorem store_text {t : Text} (h : t.length < buf.length) :
    store buf 0 (t ++ [nul]) = some (t ++ nul :: buf.drop (t.length + 1)) := by
  have hstore := store_next (l := []) (r := buf) (m := t ++ [nul]) (by
    rw [List.length_append, List.length_singleton]
    omega)
  rw [List.nil_append, List.length_nil, List.nil_append, List.length_append, List.length_singleton,
    List.append_assoc] at hstore
  exact hstore

theorem addrStr_v4 (htmp4 : tmp4.length = 16) (a : Vector UInt8 4) (rest in6 : List UInt8) (hroom : 46 ≤ len)
    (hlt : len < 2147483648) (hbuf : len ≤ buf.length) :
    addrStr tmp4 tmp6 2 (a.toList ++ rest) in6 buf len =
      some (dottedText a.toList ++ nul :: buf.drop ((dottedText a.toList).length + 1)) := by
  have hlen := length_dottedText a.toList
  rw [Vector.length_toList] at hlen
  rw [addrStr, if_pos rfl, toInt_len hlt, kInetNtop, if_pos rfl, inetNtop4_eq rest htmp4 a.length_toList,
    if_neg (by omega), store_text (by omega)]
  rfl

theorem addrStr_v6 (htmp4 : tmp4.length = 16) (htmp6 : tmp6.length = 46) (a : Vector UInt8 16) (in4 rest : List UInt8)
    (hroom : 46 ≤ len) (hlt : len < 2147483648) (hbuf : len ≤ buf.length) :
    addrStr tmp4 tmp6 10 in4 (a.toList ++ rest) buf len =
      some (ntop6Text a.toList ++ nul :: buf.drop ((ntop6Text a.toList).length + 1)) := by
  obtain ⟨hfits, hrun⟩ := inetNtop6_eq htmp4 htmp6 a.length_toList
  have hload : load (a.toList ++ rest) 0 16 = some a.toList := load_split (l := []) rfl rfl a.length_toList
  rw [addrStr, if_neg (by decide), if_pos rfl, toInt_len hlt, kInetNtop, if_neg (by decide), if_pos rfl, hload,
    Option.bind_eq_bind, Option.bind_some, hrun, if_neg (by omega), store_text (by omega)]
  rfl

/-- What is printed of a socket address is a text of its address, which fits into `AOSL_MAX_ADDRSTRLEN`. -/
theorem ipSkAddrStr_named (host : Endian) (htmp4 : tmp4.length = 16) (htmp6 : tmp6.length = 46) (sa : Sockaddr)
    (hroom : 46 ≤ len) (hlt : len < 2147483648) (hbuf : len ≤ buf.length) :
    ∃ t, (addrOf sa).Named t ∧ (∀ c ∈ t, c ≠ nul) ∧
    aoslIpSkAddrStr host tmp4 tmp6 (sa.bytes host) buf len = some (t ++ nul :: buf.drop (t.length + 1)) := by
  cases sa with
  | v4 a =>
    have hload : load ((Sockaddr.v4 a).bytes host) 0 2 = some (host.store 2 afInet) := (a.load_bytes host).1
    have hdrop : ((Sockaddr.v4 a).bytes host).drop 4 = a.addr.toList ++ a.rest := by
      show (host.store 2 afInet ++ (a.port.toList ++ (a.addr.toList ++ a.rest))).drop 4 = _
      rw [← List.append_assoc, List.drop_left' (by simp [length_store16])]
    refine ⟨dottedText a.addr.toList, rfl, fun c => ne_nul_of_mem_dottedText, ?_⟩
    rw [aoslIpSkAddrStr, aoslSockaddrStr, hload, Option.bind_eq_bind, Option.bind_some, load_store16, hdrop]
    exact addrStr_v4 htmp4 a.addr a.rest _ hroom hlt hbuf
  | v6 a =>
    have hload : load ((Sockaddr.v6 a).bytes host) 0 2 = some (host.store 2 afInet6) := (a.load_bytes host).1
    have hdrop : ((Sockaddr.v6 a).bytes host).drop 8 = a.addr.toList ++ a.rest := by
      show (host.store 2 afInet6 ++ (a.port.toList ++ (a.flowinfo.toList ++ (a.addr.toList ++ a.rest)))).drop 8 = _
      rw [← List.append_assoc, ← List.append_assoc, List.drop_left' (by simp [length_store16])]
    refine ⟨ntop6Text a.addr.toList, ntop6Text_denotes a.addr.length_toList, fun c => ne_nul_of_mem_ntop6Text, ?_⟩
    rw [aoslIpSkAddrStr, aoslSockaddrStr, hload, Option.bind_eq_bind, Option.bind_some, load_store16, hdrop]
    exact addrStr_v6 htmp4 htmp6 a.addr _ a.rest hroom hlt hbuf

theorem ipSkAddrPort_eq (host : Endian) (sa : Sockaddr) :
    ∃ port, aoslIpSkAddrPort host (sa.bytes host) = some port ∧ hiLo port.toNat = sa.port := by
  have hlen : sa.port.length = 2 := by cases sa <;> exact Vector.length_toList
  have hport : aoslIpSkAddrPort host (sa.bytes host) = some (aoslNtohs host (host.load 16 sa.port)) := by
    cases sa with
    | v4 a =>
      obtain ⟨hfamily, hport, -⟩ := a.load_bytes host
      rw [aoslIpSkAddrPort, Sockaddr.bytes, hfamily, Option.bind_eq_bind, Option.bind_some, load_store16]
      dsimp only
      rw [if_pos (.inl rfl), hport]
      rfl
    | v6 a =>
      obtain ⟨hfamily, hport, -⟩ := a.load_bytes host
      rw [aoslIpSkAddrPort, Sockaddr.bytes, hfamily, Option.bind_eq_bind, Option.bind_some, load_store16]
      dsimp only
      rw [if_pos (.inr rfl), hport]
      rfl
  exact ⟨_, hport, hiLo_ntohs host hlen⟩

/-- `aosl_ip_sk_addr_from_string` and `aosl_inet_addr_from_string` take exactly the texts of addresses, each for its one
address, and for any other text return 0. What is printed of a socket address is such a text, and with the port it gives
the address back: all but the flow info and the scope, which are zero. -/
theorem sk_addr_text (host : Endian) (tmp : Vector UInt8 4) {obj : List UInt8} (hobj : 28 ≤ obj.length) :
    (∀ (s : Text) (a b : Addr), a.Named s → b.Named s → a = b) ∧
    (∀ (s : Text) (port : BitVec 16) (a : Addr), a.Named s →
      aoslIpSkAddrFromString host tmp.toList obj s port = some (a.size, a.image host (hiLo port.toNat) obj) ∧
      aoslInetAddrFromString tmp.toList obj s = some (a.bytes.length, a.bytes ++ obj.drop a.bytes.length)) ∧
    (∀ (s : Text) (port : BitVec 16), (∀ a : Addr, ¬a.Named s) →
      (∃ n ≤ 28, aoslIpSkAddrFromString host tmp.toList obj s port = some (0, List.replicate n 0 ++ obj.drop n)) ∧
      aoslInetAddrFromString tmp.toList obj s = some (0, obj)) ∧
    ∀ (sa : Sockaddr) (tmp4 : Vector Char 16) (tmp6 : Vector Char 46) (buf : Text) (len : Nat), 46 ≤ len →
      len < 2147483648 → len ≤ buf.length → ∃ port t, aoslIpSkAddrPort host (sa.bytes host) = some port ∧
        aoslIpSkAddrStr host tmp4.toList tmp6.toList (sa.bytes host) buf len =
          some (t ++ nul :: buf.drop (t.length + 1)) ∧ (∀ c ∈ t, c ≠ nul) ∧
        aoslIpSkAddrFromString host tmp.toList obj t port =
          some ((addrOf sa).size, (addrOf sa).image host sa.port obj) := by
  have htmp : tmp.toList.length = 4 := tmp.length_toList
  refine ⟨fun s a b => Addr.Named.unique, fun s port a ha => ?_, fun s port hs => ?_,
    fun sa tmp4 tmp6 buf len hroom hlt hbuf => ?_⟩
  · exact ⟨ipSkAddrFromString_named htmp hobj port ha, inetAddrFromString_named htmp (by omega) ha⟩
  · exact ⟨ipSkAddrFromString_other htmp hobj port hs, inetAddrFromString_other htmp (by omega) hs⟩
  · obtain ⟨port, hport, hbytes⟩ := ipSkAddrPort_eq host sa
    obtain ⟨t, hnamed, hnul, hprint⟩ :=
      ipSkAddrStr_named host tmp4.length_toList tmp6.length_toList sa hroom hlt hbuf
    refine ⟨port, t, hport, hprint, hnul, ?_⟩
    rw [ipSkAddrFromString_named htmp hobj port hnamed, hbytes]

/-- `1.2.3.4`, port 80. -/
theorem sk_addr_text_quad :
    aoslIpSkAddrFromString .little [0, 0, 0, 0] (List.replicate 28 7) ['1', '.', '2', '.', '3', '.', '4'] 80 =
      some (16, [2, 0, 0, 80, 1, 2, 3, 4] ++ List.replicate 8 0 ++ List.replicate 12 7) := by
  have hobj : 28 ≤ (List.replicate 28 (7 : UInt8)).length := by decide
  have hnamed : (Addr.v4 #v[1, 2, 3, 4]).Named ['1', '.', '2', '.', '3', '.', '4'] := by
    show _ = dottedText [1, 2, 3, 4]
    decide
  have haddr : (Addr.v4 #v[1, 2, 3, 4]).image .little (hiLo 80) (List.replicate 28 7) =
      [2, 0, 0, 80, 1, 2, 3, 4] ++ List.replicate 8 0 ++ List.replicate 12 7 := by decide
  rw [← haddr]
  exact ((sk_addr_text .little #v[0, 0, 0, 0] hobj).2.1 _ 80 _ hnamed).1

end

end SkAddr

end Aosl
