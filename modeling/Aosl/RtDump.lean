import Aosl.Lib.Wire
import Mathlib.Data.List.MinMax

/-!
# The default route in a netlink dump, `__af_get_default_rt`

The answer to the dump request comes in any number of calls of `recv`, all into the same buffer `buf`. `rta_oif` and
`rta_gw` are pointers into it, here offsets, and are followed when the dump has ended. Each route is counted; one with a
priority is remembered if that is less than all before, one without a priority if nothing is remembered yet.

The machine is little-endian. `netif_by_index`, which looks the name and the type of the interface up, is left out, and
so are the cases that the socket cannot be opened or the request cannot be sent. Bytes behind the buffer read as 0.
-/

namespace Aosl
open Lib

/-- The pointers of `parse_rtattrs`, to the first attribute of each type. -/
abbrev Rtas := Nat → Option Nat

/-- The locals of `__af_get_default_rt`. -/
structure RtScan where
  buf : List UInt8
  rtaOif : Option Nat
  rtaGw : Option Nat
  minMetric : Nat
  defRtCnt : Nat

/-- What is written to `rt`, but for the interface's name and type. -/
inductive RtRes where
  /-- There is no default route. -/
  | noRoute
  /-- `memcpy` writes behind the address, or reads behind the buffer. -/
  | fault
  | route (ifIndex : Int) (gw : List UInt8) (defRtCnt : Nat)
deriving DecidableEq

/-- The length of an address, `AF_INET` or `AF_INET6`. -/
def addrLen (af : Nat) : Nat := if af = 2 then 4 else 16

/-- The bytes from the address to the end of `aosl_sk_addr_t`. -/
def addrRoom (af : Nat) : Nat := if af = 2 then 24 else 20

def toInt32 (n : Nat) : Int := if n < 2147483648 then n else n - 4294967296

/-- `parse_rtattrs`, with `__RTA_MAX` types; `fuel` bounds the number of attributes. -/
def parseRtattrs (buf : List UInt8) : Nat → Nat → Nat → Rtas → Rtas
  | 0, _, _, rtas => rtas
  | fuel + 1, rta, len, rtas =>
    let rtaLen := u16 (buf.drop rta)
    if 4 ≤ len ∧ 4 ≤ rtaLen ∧ rtaLen ≤ len then
      let type := u16 (buf.drop (rta + 2))
      parseRtattrs buf fuel (rta + align4 rtaLen) (len - align4 rtaLen)
        fun t => if t = type ∧ type < 31 ∧ rtas type = none then some rta else rtas t
    else rtas

namespace RtScan

/-- A default route with an output interface. -/
def defRt (s : RtScan) (rtaOif : Nat) (rtaGw rtaPriority : Option Nat) : RtScan :=
  let s := { s with defRtCnt := s.defRtCnt + 1 }
  match rtaPriority with
  | some p =>
    let pri := u32 (s.buf.drop (p + 4))
    if pri < s.minMetric then { s with minMetric := pri, rtaOif := some rtaOif, rtaGw } else s
  | none => if s.rtaOif = none ∧ s.rtaGw = none then { s with rtaOif := some rtaOif, rtaGw } else s

/-- The message `RTM_NEWROUTE` at `h`. -/
def newRoute (s : RtScan) (h nlmsgLen : Nat) : RtScan :=
  let rtm := s.buf.drop (h + 16)
  let family := rtm.getD 0 0
  if rtm.getD 7 0 ≠ 1 then s
  else if family ≠ 2 ∧ family ≠ 10 then s
  else if rtm.getD 1 0 ≠ 0 then s
  else
    let rtas := parseRtattrs s.buf (nlmsgLen - 28) (h + 28) (nlmsgLen - 28) fun _ => none
    match rtas 4 with
    | none => s
    | some rtaOif => s.defRt rtaOif (rtas 5) (rtas 6)

/-- The messages of one `recv`, from `h` on; the result says whether the dump has ended. -/
def messages : Nat → Nat → Nat → RtScan → Bool × RtScan
  | 0, _, _, s => (false, s)
  | fuel + 1, h, len, s =>
    let nlmsgLen := u32 (s.buf.drop h)
    if 16 ≤ len ∧ 16 ≤ nlmsgLen ∧ nlmsgLen ≤ len then
      let type := u16 (s.buf.drop (h + 4))
      -- `NLMSG_DONE` and `NLMSG_ERROR`, then `RTM_NEWROUTE`
      if type = 3 ∨ type = 2 then (true, s)
      else messages fuel (h + align4 nlmsgLen) (len - align4 nlmsgLen) (if type = 24 then s.newRoute h nlmsgLen else s)
    else (false, s)

/-- `recv` into `buf`. -/
def recv (s : RtScan) (data : List UInt8) : RtScan :=
  { s with buf := data.take 16384 ++ s.buf.drop (data.take 16384).length }

/-- The loop on `recv`; no bytes are an error or the end of the input. -/
def dump : List (List UInt8) → RtScan → RtScan
  | [], s => s
  | data :: rest, s =>
    if data = [] then s
    else
      let r := messages (data.take 16384).length 0 (data.take 16384).length (s.recv data)
      if r.1 then r.2 else dump rest r.2

def init (mem : List UInt8) : RtScan := ⟨mem, none, none, 0xffffffff, 0⟩

end RtScan

/-- The address of the gateway afterwards, which was `old`; `none` is a fault. -/
def readGw (af : Nat) (old buf : List UInt8) : Option Nat → Option (List UInt8)
  | none => some (List.replicate (addrLen af) 0)
  | some rtaGw =>
    let rtaLen := u16 (buf.drop rtaGw)
    if rtaLen < 4 ∨ addrRoom af < rtaLen - 4 ∨ buf.length < rtaGw + rtaLen then none
    else
      let payload := (buf.drop (rtaGw + 4)).take (rtaLen - 4)
      some ((payload ++ old.drop payload.length).take (addrLen af))

/-- The part behind `__done`. -/
def RtScan.result (af : Nat) (old : List UInt8) (s : RtScan) : RtRes := match s.rtaOif with
  | none => .noRoute
  | some rtaOif => match readGw af old s.buf s.rtaGw with
    | none => .fault
    | some gw => .route (toInt32 (u32 (s.buf.drop (rtaOif + 4)))) gw (if s.defRtCnt > 2 then 2 else s.defRtCnt)

/-- `__af_get_default_rt` down to the bytes of the socket, with a buffer that holds `mem` and the address `old` in
`rt->gw`. -/
def RtScan.afGetDefaultRt (af : Nat) (old mem : List UInt8) (recvs : List (List UInt8)) : RtRes :=
  ((init mem).dump recvs).result af old

/-- An attribute of a message. -/
structure RtAttr where
  type : Nat
  data : List UInt8
deriving DecidableEq

/-- A message `RTM_NEWROUTE`, from `rtm_family` to the attributes. -/
structure RtMsg where
  family : UInt8
  dstLen : UInt8
  /-- `rtm_src_len`, `rtm_tos`, `rtm_table`, `rtm_protocol` and `rtm_scope`. -/
  srcLen : UInt8
  tos : UInt8
  table : UInt8
  protocol : UInt8
  scope : UInt8
  type : UInt8
  flags : Nat
  attrs : List RtAttr
deriving DecidableEq

/-- The fields of a message header behind its type: flags, sequence number and port. -/
structure NlHdr where
  flags : Nat
  seq : Nat
  pid : Nat

inductive NlMsg where
  | newRoute (hdr : NlHdr) (m : RtMsg)
  /-- Any other message but `NLMSG_DONE` and `NLMSG_ERROR`. -/
  | other (hdr : NlHdr) (type : Nat) (payload : List UInt8)

/-- What the system sends: the messages of each `recv`, and those before `NLMSG_DONE` in the last one. -/
structure NlDump where
  parts : List (List NlMsg)
  last : List NlMsg
  doneHdr : NlHdr

namespace RtAttr

def bytes (a : RtAttr) : List UInt8 := padded (le16 (a.data.length + 4) ++ le16 a.type ++ a.data)

/-- The lengths of the attributes that are read. -/
structure Valid (af : Nat) (a : RtAttr) : Prop where
  type : a.type < 65536
  length : a.data.length + 4 < 65536
  oif : a.type = 4 → a.data.length = 4
  gateway : a.type = 5 → a.data.length = addrLen af
  priority : a.type = 6 → a.data.length = 4

end RtAttr

def attrBytes (as : List RtAttr) : List UInt8 := as.flatMap RtAttr.bytes

/-- The distance from the first attribute to the first one of a type. -/
def placeIn (type : Nat) : List RtAttr → Option Nat
  | [] => none
  | a :: as => if a.type = type then some 0 else (placeIn type as).map (a.bytes.length + ·)

namespace RtMsg

variable (m : RtMsg)

def bytes : List UInt8 :=
  [m.family, m.dstLen, m.srcLen, m.tos, m.table, m.protocol, m.scope, m.type] ++ le32 m.flags ++ attrBytes m.attrs

/-- The first attribute of a type. -/
def attr (type : Nat) : Option RtAttr := m.attrs.find? (·.type = type)

/-- A default unicast route with an output interface. -/
def IsDefault : Prop := m.type = 1 ∧ (m.family = 2 ∨ m.family = 10) ∧ m.dstLen = 0 ∧ (m.attr 4).isSome

instance : Decidable m.IsDefault := inferInstanceAs (Decidable (_ ∧ _))

def priority : Option Nat := (m.attr 6).map fun a => u32 a.data

def metric : Nat := m.priority.getD 0

def ifIndex : Int := toInt32 (u32 ((m.attr 4).elim [] RtAttr.data))

def gateway (af : Nat) : List UInt8 := (m.attr 5).elim (List.replicate (addrLen af) 0) RtAttr.data

def attrPlace (type : Nat) : Option Nat := placeIn type m.attrs

end RtMsg

namespace NlHdr

def bytes (h : NlHdr) : List UInt8 := le16 h.flags ++ le32 h.seq ++ le32 h.pid

/-- A message with this header. -/
def msg (h : NlHdr) (type : Nat) (payload : List UInt8) : List UInt8 :=
  padded (le32 (payload.length + 16) ++ le16 type ++ h.bytes ++ payload)

end NlHdr

namespace NlMsg

def bytes : NlMsg → List UInt8
  | newRoute hdr m => hdr.msg 24 m.bytes
  | other hdr type payload => hdr.msg type payload

def Valid (af : Nat) : NlMsg → Prop
  | newRoute _ m => ∀ a ∈ m.attrs, a.Valid af
  | other _ type _ => type < 65536 ∧ type ≠ 2 ∧ type ≠ 3 ∧ type ≠ 24

/-- The default route in a message. -/
def defRt : NlMsg → Option RtMsg
  | newRoute _ m => if m.IsDefault then some m else none
  | other _ _ _ => none

end NlMsg

def msgsBytes (ms : List NlMsg) : List UInt8 := ms.flatMap NlMsg.bytes

/-- The default routes among the messages, each with the place of its message. -/
def placed : Nat → List NlMsg → List (RtMsg × Nat)
  | _, [] => []
  | h, x :: xs => (x.defRt.map (·, h)).toList ++ placed (h + x.bytes.length) xs

namespace NlDump

variable (d : NlDump)

def lastBytes : List UInt8 := msgsBytes d.last ++ d.doneHdr.msg 3 [0, 0, 0, 0]

/-- The results of `recv`. -/
def recvs : List (List UInt8) := d.parts.map msgsBytes ++ [d.lastBytes]

/-- All messages fit into the buffer, and no `recv` is empty. -/
structure Valid (af : Nat) : Prop where
  msgs : ∀ ms ∈ d.last :: d.parts, ∀ x ∈ ms, x.Valid af
  nonempty : ∀ ms ∈ d.parts, ms ≠ []
  fits : ∀ data ∈ d.recvs, data.length ≤ 16384

/-- The default routes of the dump. -/
def routes : List RtMsg := (d.parts.flatten ++ d.last).filterMap NlMsg.defRt

/-- The default routes with their places, each in the buffer it was received in. -/
def places : List (RtMsg × Nat) := d.parts.flatMap (placed 0) ++ placed 0 d.last

/-- What `buf` holds in the end: of each byte, the one that was received last. -/
def finalBuf (mem : List UInt8) : List UInt8 := d.recvs.foldl (fun buf data => data ++ buf.drop data.length) mem

end NlDump

/-- A route of the list that has the least metric. -/
def IsBest (routes : List RtMsg) (r : RtMsg) : Prop := r ∈ routes ∧ ∀ r' ∈ routes, r.metric ≤ r'.metric

/-- The interface and the gateway of one route with the least metric, and the number of routes. -/
def RtRes.Best (af : Nat) (routes : List RtMsg) : RtRes → Prop
  | noRoute => routes = []
  | fault => False
  | route ifIndex gw cnt =>
    (∃ r, IsBest routes r ∧ ifIndex = r.ifIndex ∧ gw = r.gateway af) ∧ cnt = min 2 routes.length

/-- The first of the routes with the least priority below `0xffffffff`. -/
def leastPriority (places : List (RtMsg × Nat)) : Option (RtMsg × Nat) :=
  (places.filter fun p => p.1.priority.any (· < 0xffffffff)).argmin fun p => p.1.metric

/-- The route that is remembered: if no priority is below `0xffffffff`, the first one without a priority. -/
def remembered (places : List (RtMsg × Nat)) : Option (RtMsg × Nat) :=
  (leastPriority places).or (places.find? fun p => p.1.priority = none)

/-- Where the interface and the gateway of a route were received, `buf` holds those of `r`. -/
def HoldsRoute (af : Nat) (old buf : List UInt8) (p : RtMsg × Nat) (r : RtMsg) : Prop :=
  (∀ o ∈ p.1.attrPlace 4, toInt32 (u32 (buf.drop (p.2 + 28 + o + 4))) = r.ifIndex) ∧
    readGw af old buf ((p.1.attrPlace 5).map (p.2 + 28 + ·)) = some (r.gateway af)

end Aosl
