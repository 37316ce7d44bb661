import Aosl.Ipv6
import Aosl.OnQRun

/-!
# Connecting a pair of sockets, `net/sk_utils.c`

`aosl_mpq_ip_sk_connect` and `aosl_mpq_ip_sk_connect_on_q` choose one of two sockets for a destination and translate the
destination if it is of the other family; then they go on as `aosl_mpq_connect` and `aosl_mpq_connect_on_q` do. With
`CONFIG_AOSL_IPV6`.

The prefix for the translation is that of the calling thread's queue. So `.._on_q` can choose another destination than
the plain function on the target queue (`ip_sk_connect_on_q_iff`).
-/

namespace Aosl
open Ipv6

def aoslInvalidFd : Int := -1

/-- `aosl_ip_sk_t`. -/
structure IpSk where
  v4 : Int
  v6 : Int

/-- The parameters that are passed on: `dest_addr` is the pointer that `__connect` finds. -/
structure IpConnectArgs where
  destAddr : Nat
  timeo : Nat
  maxPktSize : Nat
  chkPktF : Nat
  dataF : Nat
  eventF : Nat
  args : List Nat

/-- `goto __err`, or the object at `dest_addr` and what comes of the call. -/
inductive IpConnectOut where
  | err
  | call (dest : List UInt8) (out : OnQOut)
deriving DecidableEq

namespace IpSk

/-- The `switch` of both functions: the socket and the object at `dest_addr`, or `none` for `goto __err`; `addr` is the
local variable. -/
def choose (host : Endian) (pfx : Option (List UInt8)) (sk : IpSk) (dest addr : List UInt8) :
    Option (Option (Int × List UInt8)) := do
  let family := host.load 16 (← load dest 0 2)
  if family = afInet then
    if sk.v4 ≠ aoslInvalidFd then
      return some (sk.v4, dest)
    if sk.v6 ≠ aoslInvalidFd then
      return some (sk.v6, ← ipv6SkAddrFromIpv4 host pfx addr dest)
    return none
  else if family = afInet6 then
    if sk.v6 ≠ aoslInvalidFd then
      return some (sk.v6, dest)
    if sk.v4 ≠ aoslInvalidFd then
      match ← ipv6SkAddrToIpv4 host pfx addr dest with
      | none => return none
      | some addr => return some (sk.v4, addr)
    return none
  else
    return none

end IpSk

/-- `(uintptr_t)fd`. -/
def fdWord (fd : Int) : Nat := (fd % 18446744073709551616).toNat

def IpConnectArgs.request (r : IpConnectArgs) (fd : Int) : OnQReq :=
  .connect (fdWord fd) r.destAddr r.timeo r.maxPktSize r.chkPktF r.dataF r.eventF

/-- `pfx` is the prefix of the current queue. -/
def mpqIpSkConnect (host : Endian) (pfx : Option (List UInt8)) (sk : IpSk) (dest addr : List UInt8) (r : IpConnectArgs) :
    Option IpConnectOut := do
  match ← sk.choose host pfx dest addr with
  | none => return .err
  | some (fd, dest) => return .call dest ((r.request fd).here r.args)

/-- `pfx` is the prefix of the current queue, which need not be the target. -/
def mpqIpSkConnectOnQ (host : Endian) (pfx : Option (List UInt8)) (sk : IpSk) (dest addr : List UInt8) (r : IpConnectArgs)
    (junk : Nat) : Option IpConnectOut := do
  match ← sk.choose host pfx dest addr with
  | none => return .err
  | some (fd, dest) => return .call dest ((r.request fd).onQ junk r.args)

/-- `ipv6_prefix_96` of every queue. -/
abbrev Prefixes := Nat → Option (List UInt8)

/-- `aosl_mpq_set_ipv6_prefix_on_q`, from whatever thread. -/
def setIpv6PrefixOnQ (host : Endian) (s : Prefixes) (u : Nat × PrefixSet) : Option Prefixes := do
  let pfx ← qUpdateIpv6Prefix host (s u.1) u.2
  return fun q => if q = u.1 then pfx else s q

def prefixesAfter (host : Endian) (us : List (Nat × PrefixSet)) : Option Prefixes :=
  us.foldlM (setIpv6PrefixOnQ host) fun _ => none

/-- `aosl_mpq_get_ipv6_prefix`; `cur` is `THIS_MPQ ()`. -/
def getIpv6Prefix (s : Prefixes) (cur : Option Nat) : Option (List UInt8) := cur.bind s

/-! ### Endpoints -/

/-- A destination of any family. -/
inductive Dest where
  | ip (s : Sockaddr)
  | other (family : BitVec 16) (rest : List UInt8) (ne : family ≠ afInet ∧ family ≠ afInet6)

namespace Dest

def bytes (host : Endian) : Dest → List UInt8
  | ip s => s.bytes host
  | other family rest _ => host.store 2 family ++ rest

/-- Neither socket can be used. -/
def Refused (pfx : Option (List UInt8)) (sk : IpSk) : Dest → Prop
  | ip (.v4 _) => sk.v4 = aoslInvalidFd ∧ sk.v6 = aoslInvalidFd
  | ip (.v6 a) => sk.v6 = aoslInvalidFd ∧ (sk.v4 = aoslInvalidFd ∨ ¬Compatible pfx (a.addr.toList.take 12))
  | other .. => True

/-- Where the destination is translated to IPv6, the prefixes are the same. -/
def SamePrefix (pfx pfx' : Option (List UInt8)) (sk : IpSk) : Dest → Prop
  | ip (.v4 _) => sk.v4 = aoslInvalidFd → prefixInForce pfx = prefixInForce pfx'
  | _ => True

end Dest

/-- The socket address in an object. -/
def sockaddrOf (host : Endian) (obj : List UInt8) : List UInt8 :=
  obj.take (if host.load 16 (obj.take 2) = afInet then 16 else 28)

/-- The socket that is connected, and to what. -/
def IpConnectOut.endpoint (host : Endian) : IpConnectOut → Option (Nat × List UInt8)
  | call dest (.made (.connect fd _ _ _ _ _ _) _) => some (fd, sockaddrOf host dest)
  | _ => none

/-! ### The choice -/

section
variable {host : Endian} {pfx pfx' : Option (List UInt8)} {sk : IpSk}

namespace Dest

def socket (sk : IpSk) : Dest → Int
  | ip (.v4 _) => if sk.v4 ≠ aoslInvalidFd then sk.v4 else sk.v6
  | ip (.v6 _) => if sk.v6 ≠ aoslInvalidFd then sk.v6 else sk.v4
  | other .. => aoslInvalidFd

/-- The address to which the socket is connected. -/
def target (host : Endian) (pfx : Option (List UInt8)) (sk : IpSk) : Dest → List UInt8
  | ip (.v4 a) =>
    if sk.v4 ≠ aoslInvalidFd then (a.bytes host).take 16
    else host.store 2 afInet6 ++ (a.port.toList ++ (List.replicate 4 0 ++
      (prefixInForce pfx ++ (a.addr.toList ++ List.replicate 4 0))))
  | ip (.v6 a) =>
    if sk.v6 ≠ aoslInvalidFd then (a.bytes host).take 28
    else image4 host a.port.toList (a.addr.toList.drop 12) []
  | other .. => []

end Dest

theorem sockaddrOf_v4 (host : Endian) (r : List UInt8) :
    sockaddrOf host (host.store 2 afInet ++ r) = (host.store 2 afInet ++ r).take 16 := by
  rw [sockaddrOf, List.take_left' (length_store16 host afInet), load_store16, if_pos rfl]

theorem sockaddrOf_v6 (host : Endian) (r : List UInt8) :
    sockaddrOf host (host.store 2 afInet6 ++ r) = (host.store 2 afInet6 ++ r).take 28 := by
  rw [sockaddrOf, List.take_left' (length_store16 host afInet6), load_store16, if_neg (by decide)]

theorem choose_v4 (hpfx : ∀ b ∈ pfx, b.length = 12) {p : Vector UInt8 12} (hp : prefixInForce pfx = p.toList)
    (a : SockaddrIn) (addr : Vector UInt8 28) : sk.choose host pfx (a.bytes host) addr.toList = some
      (if sk.v4 ≠ aoslInvalidFd then some (sk.v4, a.bytes host)
      else if sk.v6 ≠ aoslInvalidFd then some (sk.v6, (a.translate p []).bytes host) else none) := by
  obtain ⟨hload, -⟩ := a.load_bytes host
  have hfrom := ipv6SkAddrFromIpv4_eq host hpfx hp a addr.toList (by simp)
  rw [List.drop_of_length_le (by simp)] at hfrom
  simp only [IpSk.choose, hload, load_store16, hfrom, Option.bind_eq_bind, Option.bind_some, if_true]
  by_cases h4 : sk.v4 = aoslInvalidFd
  · by_cases h6 : sk.v6 = aoslInvalidFd
    · simp [h4, h6]
    · simp [h4, h6]
  · simp [h4]

theorem choose_v6 (hpfx : ∀ b ∈ pfx, b.length = 12) (a : SockaddrIn6) (addr : Vector UInt8 28) :
    sk.choose host pfx (a.bytes host) addr.toList = some
      (if sk.v6 ≠ aoslInvalidFd then some (sk.v6, a.bytes host)
      else if sk.v4 ≠ aoslInvalidFd ∧ Compatible pfx (a.addr.toList.take 12) then
        some (sk.v4, image4 host a.port.toList (a.addr.toList.drop 12) (addr.toList.drop 16)) else none) := by
  obtain ⟨hload, -, -, hlast⟩ := a.load_bytes host
  have hto := ipv6SkAddrToIpv4_eq host hpfx (.v6 a) addr.toList (by simp)
  rw [Sockaddr.bytes, hlast] at hto
  have hne : afInet6 ≠ afInet := by decide
  simp only [IpSk.choose, hload, load_store16, hne, hto, Option.bind_eq_bind, Option.bind_some, if_true, if_false]
  by_cases h6 : sk.v6 = aoslInvalidFd
  · by_cases h4 : sk.v4 = aoslInvalidFd
    · simp [h4, h6]
    · by_cases hc : Compatible pfx (a.addr.toList.take 12)
      · simp [h4, h6, hc, Sockaddr.Translates, Sockaddr.port]
      · simp [h4, h6, hc, Sockaddr.Translates]
  · simp [h6]

theorem choose_other {family : BitVec 16} (rest : List UInt8) (hne : family ≠ afInet ∧ family ≠ afInet6) (addr : List UInt8) :
    sk.choose host pfx (host.store 2 family ++ rest) addr = some none := by
  have hload : load (host.store 2 family ++ rest) 0 2 = some (host.store 2 family) :=
    load_split (l := []) rfl rfl (length_store16 host family)
  simp only [IpSk.choose, hload, load_store16, hne.1, hne.2, Option.bind_eq_bind, Option.bind_some, if_false]
  rfl

theorem choose_refused (host : Endian) (hpfx : ∀ b ∈ pfx, b.length = 12) {d : Dest} (h : d.Refused pfx sk) (addr : Vector UInt8 28) :
    sk.choose host pfx (d.bytes host) addr.toList = some none := by
  obtain ⟨p, hp⟩ := exists_inForce hpfx
  match d, h with
  | .ip (.v4 a), ⟨h4, h6⟩ =>
    rw [Dest.bytes, Sockaddr.bytes, choose_v4 hpfx hp, if_neg (not_not.2 h4), if_neg (not_not.2 h6)]
  | .ip (.v6 a), ⟨h6, h⟩ =>
    rw [Dest.bytes, Sockaddr.bytes, choose_v6 hpfx, if_neg (not_not.2 h6), if_neg]
    rintro ⟨h4, hc⟩
    exact h.elim h4 fun hnc => hnc hc
  | .other family rest hne, _ => exact choose_other rest hne addr.toList

theorem choose_taken (host : Endian) (hpfx : ∀ b ∈ pfx, b.length = 12) {d : Dest} (h : ¬d.Refused pfx sk) (addr : Vector UInt8 28) :
    ∃ obj, sk.choose host pfx (d.bytes host) addr.toList = some (some (d.socket sk, obj)) ∧
      sockaddrOf host obj = d.target host pfx sk := by
  obtain ⟨p, hp⟩ := exists_inForce hpfx
  match d, h with
  | .ip (.v4 a), h =>
    rw [Dest.bytes, Sockaddr.bytes, choose_v4 hpfx hp, Dest.socket, Dest.target]
    by_cases h4 : sk.v4 = aoslInvalidFd
    · have h6 : sk.v6 ≠ aoslInvalidFd := fun h6 => h ⟨h4, h6⟩
      rw [if_neg (not_not.2 h4), if_pos h6, if_neg (not_not.2 h4), if_neg (not_not.2 h4)]
      refine ⟨_, rfl, ?_⟩
      have haddr : (a.translate p []).addr.toList = p.toList ++ a.addr.toList := Vector.toList_append
      have hlen : p.toList.length = 12 := Vector.length_toList
      rw [SockaddrIn6.bytes, sockaddrOf_v6, haddr, hp, List.take_of_length_le]
      · simp [SockaddrIn.translate]
      · simp [SockaddrIn.translate, length_store16]
    · rw [if_pos h4, if_pos h4, if_pos h4]
      exact ⟨_, rfl, sockaddrOf_v4 host _⟩
  | .ip (.v6 a), h =>
    rw [Dest.bytes, Sockaddr.bytes, choose_v6 hpfx, Dest.socket, Dest.target]
    by_cases h6 : sk.v6 = aoslInvalidFd
    · have h4 : sk.v4 ≠ aoslInvalidFd := fun h4 => h ⟨h6, .inl h4⟩
      have hc : Compatible pfx (a.addr.toList.take 12) := by_contra fun hc => h ⟨h6, .inr hc⟩
      rw [if_neg (not_not.2 h6), if_pos ⟨h4, hc⟩, if_neg (not_not.2 h6), if_neg (not_not.2 h6)]
      refine ⟨_, rfl, ?_⟩
      have hlen : (image4 host a.port.toList (a.addr.toList.drop 12) []).length = 16 := by simp [image4, length_store16]
      have hsplit : image4 host a.port.toList (a.addr.toList.drop 12) (addr.toList.drop 16) =
          image4 host a.port.toList (a.addr.toList.drop 12) [] ++ addr.toList.drop 16 := by simp [image4]
      have htake : (image4 host a.port.toList (a.addr.toList.drop 12) (addr.toList.drop 16)).take 16 =
          image4 host a.port.toList (a.addr.toList.drop 12) [] := by rw [hsplit, List.take_left' hlen]
      rw [← htake]
      exact sockaddrOf_v4 host _
    · rw [if_pos h6, if_pos h6, if_pos h6]
      exact ⟨_, rfl, sockaddrOf_v6 host _⟩
  | .other .., h => exact absurd trivial h

theorem target_inj (host : Endian) {d : Dest} (h : ¬d.Refused pfx sk) (hpfx : ∀ b ∈ pfx, b.length = 12) (hpfx' : ∀ b ∈ pfx', b.length = 12) :
    d.target host pfx sk = d.target host pfx' sk ↔ d.SamePrefix pfx pfx' sk := by
  match d, h with
  | .ip (.v4 a), _ =>
    rw [Dest.target, Dest.target, Dest.SamePrefix]
    by_cases h4 : sk.v4 = aoslInvalidFd
    · obtain ⟨p, hp⟩ := exists_inForce hpfx
      obtain ⟨p', hp'⟩ := exists_inForce hpfx'
      rw [if_neg (not_not.2 h4), if_neg (not_not.2 h4), hp, hp']
      constructor
      · intro heq _
        have htail := List.append_cancel_left (List.append_cancel_left (List.append_cancel_left heq))
        exact (List.append_inj htail (by simp)).1
      · intro hsame
        rw [hsame h4]
    · rw [if_pos h4, if_pos h4]
      exact iff_of_true rfl fun h => absurd h h4
  | .ip (.v6 a), _ => exact iff_of_true rfl trivial
  | .other .., h => exact absurd trivial h

end

/-! ### The two functions -/

namespace IpConnectArgs

variable {host : Endian} {r : IpConnectArgs} {fd : Int}

theorem endpoint_here (obj : List UInt8) : (IpConnectOut.call obj ((r.request fd).here r.args)).endpoint host =
    if r.args.length ≤ argcMax then some (fdWord fd, sockaddrOf host obj) else none := by
  have hcheck : (r.request fd).checkParams = none := rfl
  have hexp : (r.request fd).expireOk = true := rfl
  rw [OnQReq.here, hcheck]
  dsimp only
  by_cases hle : r.args.length ≤ argcMax
  · rw [if_neg (Nat.not_lt.2 hle), hexp, if_neg (by decide), if_pos hle]
    rfl
  · rw [if_pos (Nat.not_le.1 hle), if_neg hle]
    rfl

/-- On another queue with eight less, and not without arguments. -/
theorem endpoint_onQ (obj : List UInt8) (junk : Nat) :
    (IpConnectOut.call obj ((r.request fd).onQ junk r.args)).endpoint host =
      if r.args ≠ [] ∧ 8 + r.args.length ≤ argcMax then some (fdWord fd, sockaddrOf host obj) else none := by
  have hslots : (r.request fd).slots = 8 := rfl
  have hpack : (r.request fd).packAt = 9 := rfl
  by_cases hle : 8 + r.args.length ≤ argcMax
  · by_cases hnil : r.args = []
    · rw [OnQReq.onQ_eq rfl (by rwa [hslots]), hnil, if_neg fun h => h.1 rfl]
      have hfault : (r.request fd).target ((r.request fd).slots + 0) ((r.request fd).argv junk []) = .fault :=
        OnQReq.target_connect_nil rfl
      rw [List.length_nil, hfault]
      rfl
    · have hpos := List.length_pos_iff.2 hnil
      rw [OnQReq.onQ_eq rfl (by rwa [hslots]), OnQReq.target_argv (by rwa [hslots]) (by rw [hslots, hpack]; omega),
        if_pos ⟨hnil, hle⟩]
      rfl
  · have hrej : ((r.request fd).onQ junk r.args).isRejected := OnQReq.onQ_rejected (by rw [hslots]; omega)
    rw [if_neg fun h => hle h.2]
    cases hout : (r.request fd).onQ junk r.args with
    | rejected => rfl
    | fault => rfl
    | made =>
      rw [hout] at hrej
      cases hrej

end IpConnectArgs

/-- Both reject the destination, or none of them; and what one connects, the other does. -/
def SameEndpoint (host : Endian) (out out' : IpConnectOut) : Prop :=
  (out = .err ↔ out' = .err) ∧ out.endpoint host = out'.endpoint host

/-- When `.._on_q` with the prefix `pfx` does what the plain function does with `pfx'`: both refuse the destination, or
there are too many arguments anyway, or the arguments fit and the prefixes are the same where they matter. -/
def Alike (pfx pfx' : Option (List UInt8)) (sk : IpSk) (d : Dest) (args : List Nat) : Prop :=
  (d.Refused pfx sk ↔ d.Refused pfx' sk) ∧
    (d.Refused pfx sk ∨ argcMax < args.length ∨ args ≠ [] ∧ 8 + args.length ≤ argcMax ∧ d.SamePrefix pfx pfx' sk)

theorem prefixesAfter_length (host : Endian) (us : List (Nat × PrefixSet)) : ∃ s, prefixesAfter host us = some s ∧
    ∀ q, ∀ b ∈ s q, b.length = 12 := by
  induction us using List.reverseRecOn with
  | nil => exact ⟨fun _ => none, rfl, fun q b hb => by cases hb⟩
  | append_singleton us u ih =>
    obtain ⟨s, hrun, hlen⟩ := ih
    rw [prefixesAfter] at hrun ⊢
    have hupdate := qUpdateIpv6Prefix_eq host (hlen u.1) u.2
    refine ⟨fun q => if q = u.1 then u.2.apply (s u.1) else s q, ?_, fun q b hb => ?_⟩
    · rw [List.foldlM_append, hrun]
      simp [setIpv6PrefixOnQ, hupdate]
    · dsimp only at hb
      split at hb
      · exact length_apply (hlen u.1) u.2 b hb
      · exact hlen q b hb

theorem sameEndpoint_iff {host : Endian} {pfx pfx' : Option (List UInt8)} (hpfx : ∀ b ∈ pfx, b.length = 12)
    (hpfx' : ∀ b ∈ pfx', b.length = 12) (sk : IpSk) (d : Dest) (addr addr' : Vector UInt8 28) (r : IpConnectArgs)
    (junk : Nat) : ∃ out out', mpqIpSkConnectOnQ host pfx sk (d.bytes host) addr.toList r junk = some out ∧
      mpqIpSkConnect host pfx' sk (d.bytes host) addr'.toList r = some out' ∧
      (SameEndpoint host out out' ↔ Alike pfx pfx' sk d r.args) := by
  by_cases href : d.Refused pfx sk
  · have hchoose := choose_refused host hpfx href addr
    have hon : mpqIpSkConnectOnQ host pfx sk (d.bytes host) addr.toList r junk = some .err := by
      rw [mpqIpSkConnectOnQ, hchoose]
      rfl
    by_cases href' : d.Refused pfx' sk
    · have hchoose' := choose_refused host hpfx' href' addr'
      refine ⟨.err, .err, hon, by rw [mpqIpSkConnect, hchoose']; rfl, ?_⟩
      exact iff_of_true ⟨Iff.rfl, rfl⟩ ⟨iff_of_true href href', .inl href⟩
    · obtain ⟨obj', hchoose', -⟩ := choose_taken host hpfx' href' addr'
      refine ⟨.err, _, hon, by rw [mpqIpSkConnect, hchoose']; rfl, ?_⟩
      exact iff_of_false (fun h => by cases h.1.1 rfl) fun h => href' (h.1.1 href)
  · obtain ⟨obj, hchoose, hobj⟩ := choose_taken host hpfx href addr
    have hon : mpqIpSkConnectOnQ host pfx sk (d.bytes host) addr.toList r junk =
        some (.call obj ((r.request (d.socket sk)).onQ junk r.args)) := by
      rw [mpqIpSkConnectOnQ, hchoose]
      rfl
    by_cases href' : d.Refused pfx' sk
    · have hchoose' := choose_refused host hpfx' href' addr'
      refine ⟨_, .err, hon, by rw [mpqIpSkConnect, hchoose']; rfl, ?_⟩
      exact iff_of_false (fun h => by cases h.1.2 rfl) fun h => href (h.1.2 href')
    · obtain ⟨obj', hchoose', hobj'⟩ := choose_taken host hpfx' href' addr'
      refine ⟨_, .call obj' ((r.request (d.socket sk)).here r.args), hon, by rw [mpqIpSkConnect, hchoose']; rfl, ?_⟩
      have hsame := target_inj host href hpfx hpfx'
      have hmax : argcMax = 64 := rfl
      have herr : ∀ {obj out}, IpConnectOut.call obj out ≠ .err := fun h => by cases h
      have hreject : (d.Refused pfx sk ↔ d.Refused pfx' sk) := iff_of_false href href'
      rw [SameEndpoint, IpConnectArgs.endpoint_onQ, IpConnectArgs.endpoint_here, hobj, hobj', Alike]
      by_cases hargs : r.args ≠ [] ∧ 8 + r.args.length ≤ argcMax
      · rw [if_pos hargs, if_pos (by omega)]
        constructor
        · rintro ⟨-, heq⟩
          exact ⟨hreject, .inr (.inr ⟨hargs.1, hargs.2, hsame.1 (Prod.mk.inj (Option.some.inj heq)).2⟩)⟩
        · rintro ⟨-, h | h | ⟨-, -, h⟩⟩
          · exact absurd h href
          · omega
          · exact ⟨iff_of_false herr herr, by rw [hsame.2 h]⟩
      · rw [if_neg hargs]
        by_cases hlen : r.args.length ≤ argcMax
        · rw [if_pos hlen]
          refine iff_of_false (fun h => by cases h.2) fun h => ?_
          rcases h.2 with h | h | ⟨hne, hle, -⟩
          · exact href h
          · omega
          · exact hargs ⟨hne, hle⟩
        · rw [if_neg hlen]
          exact iff_of_true ⟨iff_of_false herr herr, rfl⟩ ⟨hreject, .inr (.inl (Nat.not_le.1 hlen))⟩

/-- `.._on_q` from the thread of the queue `cur`, or of none, against the plain function on the target queue `q`. -/
theorem ip_sk_connect_on_q_iff (host : Endian) (us : List (Nat × PrefixSet)) : ∃ s, prefixesAfter host us = some s ∧
    ∀ (q : Nat) (cur : Option Nat) (sk : IpSk) (d : Dest) (addr addr' : Vector UInt8 28) (r : IpConnectArgs) (junk : Nat),
      ∃ out out', mpqIpSkConnectOnQ host (getIpv6Prefix s cur) sk (d.bytes host) addr.toList r junk = some out ∧
        mpqIpSkConnect host (getIpv6Prefix s (some q)) sk (d.bytes host) addr'.toList r = some out' ∧
        (SameEndpoint host out out' ↔ Alike (getIpv6Prefix s cur) (getIpv6Prefix s (some q)) sk d r.args) := by
  obtain ⟨s, hrun, hlen⟩ := prefixesAfter_length host us
  refine ⟨s, hrun, fun q cur sk d addr addr' r junk => sameEndpoint_iff (fun b hb => ?_) (hlen q) sk d addr addr' r junk⟩
  cases cur with
  | none => cases hb
  | some q' => exact hlen q' b hb

/-- Queue 1 has learnt 2001:db8::/96 and queue 2 nothing; 1.2.3.4 port 80 for an IPv6 socket alone. Called on queue 1,
`.._on_q` connects it to 2001:db8::102:304 on queue 2, where the plain function connects it to 64:ff9b::102:304. -/
theorem not_ip_sk_connect_on_q : ∃ (us : List (Nat × PrefixSet)) (s : Prefixes) (a : SockaddrIn) (r : IpConnectArgs)
    (out out' : IpConnectOut), prefixesAfter .little us = some s ∧
    mpqIpSkConnectOnQ .little (getIpv6Prefix s (some 1)) ⟨-1, 3⟩ (a.bytes .little) (List.replicate 28 0) r 0 = some out ∧
    mpqIpSkConnect .little (getIpv6Prefix s (some 2)) ⟨-1, 3⟩ (a.bytes .little) (List.replicate 28 0) r = some out' ∧
    out.endpoint .little = some (3, [10, 0, 0, 80, 0, 0, 0, 0, 0x20, 1, 0x0d, 0xb8, 0, 0, 0, 0, 0, 0, 0, 0, 1, 2, 3, 4,
      0, 0, 0, 0]) ∧
    out'.endpoint .little = some (3, [10, 0, 0, 80, 0, 0, 0, 0, 0, 0x64, 0xff, 0x9b, 0, 0, 0, 0, 0, 0, 0, 0, 1, 2, 3, 4,
      0, 0, 0, 0]) ∧
    ¬SameEndpoint .little out out' := by
  refine ⟨[(1, ⟨some #v[0x20, 1, 0x0d, 0xb8, 0, 0, 0, 0, 0, 0, 0, 0, 0, 0, 0, 1], true, Vector.replicate 12 0⟩)],
    fun q => if q = 1 then some [0x20, 1, 0x0d, 0xb8, 0, 0, 0, 0, 0, 0, 0, 0] else none,
    ⟨#v[0, 80], #v[1, 2, 3, 4], List.replicate 8 0, by decide⟩, ⟨0, 0, 2048, 0, 1, 1, [7]⟩,
    .call ([10, 0, 0, 80, 0, 0, 0, 0, 0x20, 1, 0x0d, 0xb8, 0, 0, 0, 0, 0, 0, 0, 0, 1, 2, 3, 4, 0, 0, 0, 0])
      (.made (.connect 3 0 0 2048 0 1 1) []),
    .call ([10, 0, 0, 80, 0, 0, 0, 0, 0, 0x64, 0xff, 0x9b, 0, 0, 0, 0, 0, 0, 0, 0, 1, 2, 3, 4, 0, 0, 0, 0])
      (.made (.connect 3 0 0 2048 0 1 1) [.word 7]), rfl, by decide, by decide, by decide, by decide, fun h => ?_⟩
  have heq := h.2
  revert heq
  decide

end Aosl
