import Aosl.Netifs
import Aosl.RtDumpRun

/-!
# The messages about the interfaces, `kernel/rt_monitor.c`

The kernel is asked for all interfaces once (`afnetlink_init_netifs`), and tells of changes later, in datagrams of one
or more messages that `__process_rtmsg` goes through. For each message about an interface there is one call of
`update_netifs`, for each about a route one of `check_report_def_rt_change_event`, in the order of the messages. The
table of `Netifs.lean` is then what the last message about each interface said (`link_table`).

`__process_rtmsg` looks at the type of a message before it knows that there is one, and its `len` is unsigned, so what
is behind the datagram is given too; bytes behind that read as 0. `parse_rtattrs` fills `count` pointers, `__IFLA_MAX`
of them, of which `IFLA_IFNAME` is used. The machine is little-endian. The cases that the socket cannot be opened or
the request cannot be sent are left out.
-/

namespace Aosl
open Lib

namespace LinkMsg

/-- What is called for a message: `update_netifs`, for an interface that has gone or one that is there, or
`check_report_def_rt_change_event`. -/
inductive Call where
  | delete (ifindex : Int)
  | update (ifindex : Int) (ifname : Option (List UInt8)) (iftype : Int)
  | check
deriving DecidableEq

/-- The string that begins here. -/
def cString (bs : List UInt8) : List UInt8 := bs.takeWhile (· ≠ 0)

/-- `parse_rtattrs`, with `count` types; `fuel` bounds the number of attributes. -/
def parseAttrs (count : Nat) (buf : List UInt8) : Nat → Nat → Nat → Rtas → Rtas
  | 0, _, _, rtas => rtas
  | fuel + 1, rta, len, rtas =>
    let rtaLen := u16 (buf.drop rta)
    if 4 ≤ len ∧ 4 ≤ rtaLen ∧ rtaLen ≤ len then
      let type := u16 (buf.drop (rta + 2))
      parseAttrs count buf fuel (rta + align4 rtaLen) (len - align4 rtaLen)
        fun t => if t = type ∧ type < count ∧ rtas type = none then some rta else rtas t
    else rtas

/-- The message at `h`; `RTM_NEWLINK` is 16 and `RTM_DELLINK` 17. -/
def updateIfinfos (count : Nat) (buf : List UInt8) (h : Nat) : List Call :=
  let nlmsgLen := u32 (buf.drop h)
  let type := u16 (buf.drop (h + 4))
  let ifiType := u16 (buf.drop (h + 18))
  let ifiIndex := toInt32 (u32 (buf.drop (h + 20)))
  if type ≠ 16 ∧ type ≠ 17 then []
  else if nlmsgLen < 32 then []
  else if type = 17 then [.delete ifiIndex]
  else
    let rtas := parseAttrs count buf (nlmsgLen - 32) (h + 32) (nlmsgLen - 32) fun _ => none
    [.update ifiIndex ((rtas 3).map fun rta => cString (buf.drop (rta + 4))) ifiType]

/-- `NLMSG_OK`. -/
def NlmsgOk (nlmsgLen len : Nat) : Prop := 16 ≤ len ∧ 16 ≤ nlmsgLen ∧ nlmsgLen ≤ len

instance (nlmsgLen len : Nat) : Decidable (NlmsgOk nlmsgLen len) := inferInstanceAs (Decidable (_ ∧ _))

/-- `NLMSG_ALIGN`, in 32 bits. -/
def nlmsgAlign (n : Nat) : Nat := align4 n % 4294967296

/-- `len - n` for two `size_t`. -/
def subSize (len n : Nat) : Nat := (len + 18446744073709551616 - n) % 18446744073709551616

/-- `__process_rtmsg` from the message at `h` on, as many messages as there may be. -/
def processRtmsg (count : Nat) (buf : List UInt8) : Nat → Nat → Nat → Option (List Call)
  | 0, _, _ => none
  | fuel + 1, h, len =>
    let nlmsgLen := u32 (buf.drop h)
    let type := u16 (buf.drop (h + 4))
    -- `NLMSG_DONE`
    if type ≠ 3 ∧ NlmsgOk nlmsgLen len then do
      let calls :=
        if type = 16 ∨ type = 17 then updateIfinfos count buf h
        -- `RTM_NEWROUTE` and `RTM_DELROUTE`
        else if type = 24 ∨ type = 25 then [.check]
        else []
      let rest ← processRtmsg count buf fuel (h + nlmsgAlign nlmsgLen) (subSize len (nlmsgAlign nlmsgLen))
      return calls ++ rest
    else some []

def onAfNetlinkData (count : Nat) (data behind : List UInt8) : Option (List Call) :=
  if 0 < data.length then processRtmsg count (data ++ behind) (data.length + 1) 0 data.length else some []

def aoslEmsgsize : Int := 1090

/-- The messages of one `recv` in `afnetlink_init_netifs`; the second part is the result when the loop on `recv` is
left. -/
def dumpMessages (count : Nat) (buf : List UInt8) : Nat → Nat → Nat → List Call × Option Int
  | 0, _, _ => ([], none)
  | fuel + 1, h, len =>
    let nlmsgLen := u32 (buf.drop h)
    let type := u16 (buf.drop (h + 4))
    if NlmsgOk nlmsgLen len then
      -- `NLMSG_DONE`, then `NLMSG_ERROR`
      if type = 3 then ([], some 0)
      else if type = 2 then
        ([], some (if nlmsgLen < 36 then -aoslEmsgsize else -toInt32 (u32 (buf.drop (h + 16)))))
      else
        let calls := if type = 16 ∨ type = 17 then updateIfinfos count buf h else []
        let rest := dumpMessages count buf fuel (h + nlmsgAlign nlmsgLen) (len - nlmsgAlign nlmsgLen)
        (calls ++ rest.1, rest.2)
    else ([], none)

/-- The loop on `recv`, with what is in the buffer behind each datagram; no bytes are an error or the end of the
input. -/
def afnetlinkInitNetifs (count : Nat) : List (List UInt8 × List UInt8) → List Call × Int
  | [] => ([], -1)
  | (data, behind) :: recvs =>
    if data = [] then ([], -1)
    else
      let r := dumpMessages count (data ++ behind) data.length 0 data.length
      match r.2 with
      | some err => (r.1, err)
      | none =>
        let rest := afnetlinkInitNetifs count recvs
        (r.1 ++ rest.1, rest.2)

/-- A call, while `aosl_malloc` has memory. -/
def Call.run (st : NetifSt) : Call → Option NetifSt
  | delete ifindex => (st.deleteNetif ifindex).map Prod.fst
  | update ifindex ifname iftype => (st.updateNetif true ifindex ifname iftype).map Prod.fst
  | check => some st

/-! ### The messages -/

/-- `struct ifinfomsg`. -/
structure IfInfo where
  family : UInt8
  type : Nat
  index : Nat
  flags : Nat
  change : Nat

inductive Msg where
  | link (hdr : NlHdr) (del : Bool) (ifi : IfInfo) (attrs : List RtAttr)
  /-- A message about anything else. -/
  | other (hdr : NlHdr) (type : Nat) (payload : List UInt8)

def IfInfo.bytes (ifi : IfInfo) : List UInt8 :=
  [ifi.family, 0] ++ le16 ifi.type ++ le32 ifi.index ++ le32 ifi.flags ++ le32 ifi.change

def IfInfo.ifIndex (ifi : IfInfo) : Int := toInt32 ifi.index

/-- The name among the attributes. -/
def ifName (attrs : List RtAttr) : Option (List UInt8) := (attrs.find? (·.type = 3)).map fun a => cString a.data

namespace Msg

def type : Msg → Nat
  | link _ del _ _ => if del then 17 else 16
  | other _ type _ => type

def payload : Msg → List UInt8
  | link _ _ ifi attrs => ifi.bytes ++ attrBytes attrs
  | other _ _ payload => payload

def hdr : Msg → NlHdr
  | link hdr _ _ _ => hdr
  | other hdr _ _ => hdr

def bytes (m : Msg) : List UInt8 := m.hdr.msg m.type m.payload

/-- The numbers fit into their fields, and a name ends with `'\0'`. -/
def Valid : Msg → Prop
  | link _ _ ifi attrs => ifi.type < 65536 ∧ ifi.index < 4294967296 ∧
      ∀ a ∈ attrs, a.type < 65536 ∧ a.data.length + 4 < 65536 ∧ (a.type = 3 → 0 ∈ a.data)
  | other _ type _ => type < 65536 ∧ type ≠ 3 ∧ type ≠ 16 ∧ type ≠ 17

/-- What is to be called for it. -/
def calls : Msg → List Call
  | link _ false ifi attrs => [.update ifi.ifIndex (ifName attrs) ifi.type]
  | link _ true ifi _ => [.delete ifi.ifIndex]
  | other _ type _ => if type = 24 ∨ type = 25 then [.check] else []

/-- The message is about an interface. -/
def isLink : Msg → Bool
  | link _ _ _ _ => true
  | other _ _ _ => false

/-- What is known of the interface `i` after the message, if `cur` was before. -/
def known (i : Int) (cur : Option Netif) : Msg → Option Netif
  | link _ false ifi attrs =>
    if ifi.ifIndex = i then some ⟨i, ifi.type, ((ifName attrs).map copyIfName).getD []⟩ else cur
  | link _ true ifi _ => if ifi.ifIndex = i then none else cur
  | other _ _ _ => cur

end Msg

def bytesOf (ms : List Msg) : List UInt8 := ms.flatMap Msg.bytes

/-- The answer to the first request: the messages of each `recv`, and those before `NLMSG_DONE` in the last one. -/
structure Dump where
  parts : List (List Msg)
  last : List Msg
  doneHdr : NlHdr

namespace Dump

def msgs (d : Dump) : List Msg := d.parts.flatten ++ d.last

/-- The results of `recv`. -/
def recvs (d : Dump) : List (List UInt8) := d.parts.map bytesOf ++ [bytesOf d.last ++ d.doneHdr.msg 3 [0, 0, 0, 0]]

/-- No `recv` is empty, none is too long for the buffer, and there is no error message. -/
structure Valid (d : Dump) : Prop where
  msgs : ∀ m ∈ d.msgs, m.Valid ∧ m.type ≠ 2
  nonempty : ∀ ms ∈ d.parts, ms ≠ []
  fits : ∀ data ∈ d.recvs, data.length ≤ 16384

end Dump

/-! ### Reading one message -/

section
variable {count h fuel len : Nat} {buf t : List UInt8} {attrs : List RtAttr} {m : Msg} {ms : List Msg} {rtas : Rtas}

/-- The place of the name is that of the first attribute of its type. -/
theorem parseAttrs_eq {rta type : Nat} (hvalid : ∀ a ∈ attrs, a.type < 65536 ∧ a.data.length + 4 < 65536)
    (hb : buf.drop rta = attrBytes attrs ++ t) (hlen : len = (attrBytes attrs).length) (hfuel : attrs.length ≤ fuel)
    (htype : type < count) :
    parseAttrs count buf fuel rta len rtas type = (rtas type <|> (placeIn type attrs).map (rta + ·)) := by
  induction attrs generalizing rta fuel len rtas with
  | nil =>
    have hnone : (rtas type <|> (placeIn type []).map (rta + ·)) = rtas type := by simp [placeIn]
    obtain rfl : len = 0 := hlen
    rw [hnone]
    cases fuel with
    | zero => rfl
    | succ fuel => rw [parseAttrs, if_neg (by omega)]
  | cons a attrs ih =>
    obtain ⟨fuel, rfl⟩ : ∃ f, fuel = f + 1 := ⟨fuel - 1, by rw [List.length_cons] at hfuel; omega⟩
    have hva := hvalid a List.mem_cons_self
    rw [attrBytes, List.flatMap_cons, List.append_assoc] at hb
    rw [attrBytes, List.flatMap_cons, List.length_append, RtAttr.length_bytes] at hlen
    obtain ⟨z, hz⟩ := a.bytes_eq
    have hb' : buf.drop rta =
        le16 (a.data.length + 4) ++ (le16 a.type ++ (a.data ++ z ++ (attrBytes attrs ++ t))) := by
      rw [hb, hz, List.append_assoc, List.append_assoc]
      rfl
    have hrtaLen : u16 (buf.drop rta) = a.data.length + 4 := by rw [hb', u16_le16_append hva.2]
    have hattr : u16 (buf.drop (rta + 2)) = a.type := by
      rw [drop_of_append (n := rta + 2) hb' rfl, u16_le16_append hva.1]
    have hle := le_align4 (a.data.length + 4)
    rw [parseAttrs]
    dsimp only
    rw [hrtaLen, hattr, if_pos (by omega)]
    rw [ih (fun b hb => hvalid b (List.mem_cons_of_mem a hb)) (drop_of_append hb (by rw [RtAttr.length_bytes]))
      (by rw [hlen]; exact Nat.add_sub_cancel_left ..) (by rw [List.length_cons] at hfuel; omega)]
    rw [placeIn, RtAttr.length_bytes]
    cases hr : rtas type with
    | some v =>
      rw [if_neg (by rintro ⟨rfl, -, hn⟩; rw [hn] at hr; cases hr)]
      rfl
    | none =>
      by_cases ht : a.type = type
      · rw [if_pos ht, if_pos ⟨ht.symm, ht ▸ htype, ht ▸ hr⟩]
        rfl
      · have hmap : (rta + ·) ∘ (align4 (a.data.length + 4) + ·) = (rta + align4 (a.data.length + 4) + ·) :=
          funext fun o => (Nat.add_assoc ..).symm
        rw [if_neg (fun hc => ht hc.1.symm), if_neg ht, Option.map_map, hmap]

theorem cString_append {bs : List UInt8} (h0 : 0 ∈ bs) (t : List UInt8) : cString (bs ++ t) = cString bs := by
  unfold cString
  induction bs with
  | nil => cases h0
  | cons b bs ih =>
    rw [List.cons_append, List.takeWhile_cons, List.takeWhile_cons]
    by_cases hb : b = 0
    · simp [hb]
    · rw [ih ((List.mem_cons.1 h0).resolve_left (Ne.symm hb))]

theorem ifName_eq {rta : Nat} (hcount : 3 < count)
    (hvalid : ∀ a ∈ attrs, a.type < 65536 ∧ a.data.length + 4 < 65536 ∧ (a.type = 3 → 0 ∈ a.data))
    (hb : buf.drop rta = attrBytes attrs ++ t) :
    ((parseAttrs count buf (attrBytes attrs).length rta (attrBytes attrs).length (fun _ => none) 3).map
      fun rta => cString (buf.drop (rta + 4))) = ifName attrs := by
  rw [parseAttrs_eq (fun a ha => ⟨(hvalid a ha).1, (hvalid a ha).2.1⟩) hb rfl length_le_attrBytes hcount]
  show (((placeIn 3 attrs).map (rta + ·)).map fun rta => cString (buf.drop (rta + 4))) = ifName attrs
  unfold ifName
  cases ho : placeIn 3 attrs with
  | none =>
    have hnone : attrs.find? (·.type = 3) = none := Option.not_isSome_iff_eq_none.1 (by
      rw [← placeIn_isSome, ho]
      exact Bool.false_ne_true)
    rw [hnone]
    rfl
  | some o =>
    obtain ⟨a, y, ha, hdrop⟩ := bytes_at_placeIn ho hb
    obtain ⟨y', hy'⟩ := read_data hdrop rfl
    have htype := of_decide_eq_true (List.find?_some (p := fun a : RtAttr => decide (a.type = 3)) ha)
    have hname := (hvalid a (List.mem_of_find?_eq_some ha)).2.2 htype
    rw [ha, Option.map_some, Option.map_some, Option.map_some, hy', cString_append hname]

theorem IfInfo.bytes_length (ifi : IfInfo) : ifi.bytes.length = 16 := rfl

theorem Msg.type_link (hdr : NlHdr) (del : Bool) (ifi : IfInfo) (attrs : List RtAttr) :
    (link hdr del ifi attrs).type = 16 ∨ (link hdr del ifi attrs).type = 17 := by
  cases del
  · exact .inl rfl
  · exact .inr rfl

theorem Msg.Valid.type (hvalid : m.Valid) :
    m.type < 65536 ∧ m.type ≠ 3 ∧ (m.type = 16 ∨ m.type = 17 ↔ m.isLink = true) := by
  cases m with
  | link hdr del ifi attrs =>
    have htype := Msg.type_link hdr del ifi attrs
    exact ⟨by omega, by omega, iff_of_true htype rfl⟩
  | other hdr type payload =>
    refine ⟨hvalid.1, hvalid.2.1, iff_of_false ?_ Bool.false_ne_true⟩
    rintro (h | h)
    · exact hvalid.2.2.1 h
    · exact hvalid.2.2.2 h

theorem header_eq (hvalid : m.Valid) (hsize : m.bytes.length ≤ 16384) (hb : buf.drop h = m.bytes ++ t) :
    u32 (buf.drop h) = m.payload.length + 16 ∧ u16 (buf.drop (h + 4)) = m.type ∧
      nlmsgAlign (m.payload.length + 16) = m.bytes.length := by
  have hlen : m.bytes.length = align4 (m.payload.length + 16) := m.hdr.length_msg m.type m.payload
  have hle := le_align4 (m.payload.length + 16)
  obtain ⟨h1, h2⟩ := RtScan.header_eq (s := .init buf) hb hvalid.type.1 (by omega)
  exact ⟨h1, h2, by rw [nlmsgAlign, Nat.mod_eq_of_lt (by omega), hlen]⟩

theorem updateIfinfos_eq (hcount : 3 < count) (hvalid : m.Valid) (hlink : m.isLink) (hsize : m.bytes.length ≤ 16384)
    (hb : buf.drop h = m.bytes ++ t) : updateIfinfos count buf h = m.calls := by
  obtain ⟨hlen, htype, -⟩ := header_eq hvalid hsize hb
  cases m with
  | other => cases hlink
  | link hdr del ifi attrs =>
    obtain ⟨z, hz⟩ := NlHdr.msg_eq hdr (Msg.link hdr del ifi attrs).type (ifi.bytes ++ attrBytes attrs)
    have hpayload : buf.drop (h + 16) = ifi.bytes ++ (attrBytes attrs ++ (z ++ t)) := by
      have hb' : buf.drop h = (le32 ((ifi.bytes ++ attrBytes attrs).length + 16) ++
          le16 (Msg.link hdr del ifi attrs).type ++ hdr.bytes) ++ (ifi.bytes ++ (attrBytes attrs ++ (z ++ t))) := by
        rw [hb]
        show NlHdr.msg hdr _ (ifi.bytes ++ attrBytes attrs) ++ t = _
        rw [hz]
        simp only [List.append_assoc]
      exact drop_of_append hb' rfl
    have hpayload' : buf.drop (h + 16) = [ifi.family, 0] ++ (le16 ifi.type ++ (le32 ifi.index ++
        (le32 ifi.flags ++ le32 ifi.change ++ (attrBytes attrs ++ (z ++ t))))) := by
      rw [hpayload, IfInfo.bytes]
      simp only [List.append_assoc]
    have htypeAt := drop_of_append (n := h + 18) hpayload' rfl
    have hindexAt := drop_of_append (n := h + 20) htypeAt rfl
    have hattrsAt : buf.drop (h + 32) = attrBytes attrs ++ (z ++ t) := drop_of_append hpayload rfl
    have hlong : (Msg.link hdr del ifi attrs).payload.length + 16 = (attrBytes attrs).length + 32 := by
      show (ifi.bytes ++ attrBytes attrs).length + 16 = _
      rw [List.length_append, ifi.bytes_length]
      omega
    unfold updateIfinfos
    dsimp only
    rw [hlen, htype, hlong, Nat.add_sub_cancel, htypeAt, hindexAt, u16_le16_append hvalid.1,
      u32_le32_append hvalid.2.1, ifName_eq hcount hvalid.2.2 hattrsAt, if_neg (Nat.not_lt.2 (Nat.le_add_left ..))]
    cases del
    · rfl
    · rfl

/-! ### Reading all messages -/

/-- The calls for the messages about interfaces. -/
def linkCalls (ms : List Msg) : List Call := (ms.filter Msg.isLink).flatMap Msg.calls

theorem length_bytes (m : Msg) : 16 ≤ m.payload.length + 16 ∧ m.payload.length + 16 ≤ m.bytes.length := by
  have hlen : m.bytes.length = align4 (m.payload.length + 16) := m.hdr.length_msg m.type m.payload
  exact ⟨Nat.le_add_left .., hlen ▸ le_align4 _⟩

theorem length_le_bytesOf (ms : List Msg) : ms.length ≤ (bytesOf ms).length := by
  induction ms with
  | nil => exact Nat.le_refl 0
  | cons m ms ih =>
    have hm := length_bytes m
    rw [bytesOf, List.flatMap_cons, List.length_append, List.length_cons]
    change ms.length + 1 ≤ m.bytes.length + (bytesOf ms).length
    omega

theorem subSize_eq {a b : Nat} (h : a + b < 18446744073709551616) : subSize (a + b) a = b := by
  unfold subSize
  rw [show a + b + 18446744073709551616 - a = b + 18446744073709551616 by omega, Nat.add_mod_right,
    Nat.mod_eq_of_lt (by omega)]

/-- What is called for a message, if `other` is for those that are not about an interface. -/
theorem switch_eq (hcount : 3 < count) (hvalid : m.Valid) (hsize : m.bytes.length ≤ 16384)
    (hb : buf.drop h = m.bytes ++ t) (other : List Call) :
    (if m.type = 16 ∨ m.type = 17 then updateIfinfos count buf h else other) =
      if m.isLink then m.calls else other := by
  split_ifs with h1 h2 h2
  · exact updateIfinfos_eq hcount hvalid h2 hsize hb
  · exact absurd (hvalid.type.2.2.1 h1) h2
  · exact absurd (hvalid.type.2.2.2 h2) h1
  · rfl

theorem calls_eq (m : Msg) :
    (if m.isLink then m.calls else if m.type = 24 ∨ m.type = 25 then [.check] else []) = m.calls := by
  cases m <;> rfl

theorem processRtmsg_eq (hcount : 3 < count) (hvalid : ∀ m ∈ ms, m.Valid) (hsize : (bytesOf ms).length ≤ 16384)
    (hb : buf.drop h = bytesOf ms ++ t) :
    processRtmsg count buf (ms.length + 1 + fuel) h (bytesOf ms).length = some (ms.flatMap Msg.calls) := by
  induction ms generalizing h with
  | nil =>
    rw [show ([] : List Msg).length + 1 + fuel = fuel + 1 from Nat.add_comm .., processRtmsg]
    exact if_neg fun hok => absurd hok.2.1 (by decide)
  | cons m ms ih =>
    have hm := hvalid m List.mem_cons_self
    rw [bytesOf, List.flatMap_cons, List.append_assoc] at hb
    rw [bytesOf, List.flatMap_cons, List.length_append] at hsize ⊢
    change m.bytes.length + (bytesOf ms).length ≤ 16384 at hsize
    change processRtmsg count buf _ h (m.bytes.length + (bytesOf ms).length) = _
    obtain ⟨hlen, htype, hnext⟩ := header_eq hm (by omega) hb
    have hlong := length_bytes m
    rw [List.length_cons, show ms.length + 1 + 1 + fuel = ms.length + 1 + fuel + 1 by omega, processRtmsg]
    dsimp only
    rw [hlen, htype, if_pos ⟨hm.type.2.1, by omega, hlong.1, by omega⟩, hnext, subSize_eq (by omega),
      switch_eq hcount hm (by omega) hb, calls_eq,
      ih (fun x hx => hvalid x (List.mem_cons_of_mem m hx)) (by omega) (drop_of_append hb rfl)]
    rfl

theorem onAfNetlinkData_eq (hcount : 3 < count) (hvalid : ∀ m ∈ ms, m.Valid) (hsize : (bytesOf ms).length ≤ 16384)
    (behind : List UInt8) : onAfNetlinkData count (bytesOf ms) behind = some (ms.flatMap Msg.calls) := by
  unfold onAfNetlinkData
  split_ifs with hpos
  · have hle := length_le_bytesOf ms
    rw [show (bytesOf ms).length + 1 = ms.length + 1 + ((bytesOf ms).length - ms.length) by omega]
    exact processRtmsg_eq hcount hvalid hsize rfl
  · have hnil : ms = [] := List.eq_nil_of_length_eq_zero (by have := length_le_bytesOf ms; omega)
    rw [hnil]
    rfl

theorem dumpMessages_eq (hcount : 3 < count) (hvalid : ∀ m ∈ ms, m.Valid ∧ m.type ≠ 2)
    (hsize : (bytesOf ms).length ≤ 16384) (hb : buf.drop h = bytesOf ms ++ t) (fuel k : Nat) :
    dumpMessages count buf (ms.length + fuel) h ((bytesOf ms).length + k) =
      (linkCalls ms ++ (dumpMessages count buf fuel (h + (bytesOf ms).length) k).1,
        (dumpMessages count buf fuel (h + (bytesOf ms).length) k).2) := by
  induction ms generalizing h with
  | nil => simp [bytesOf, linkCalls]
  | cons m ms ih =>
    obtain ⟨hm, herror⟩ := hvalid m List.mem_cons_self
    rw [bytesOf, List.flatMap_cons, List.append_assoc] at hb
    rw [bytesOf, List.flatMap_cons, List.length_append] at hsize ⊢
    change m.bytes.length + (bytesOf ms).length ≤ 16384 at hsize
    change dumpMessages count buf _ h (m.bytes.length + (bytesOf ms).length + k) = _
    obtain ⟨hlen, htype, hnext⟩ := header_eq hm (by omega) hb
    have hlong := length_bytes m
    have hcalls : (if m.isLink then m.calls else []) ++ linkCalls ms = linkCalls (m :: ms) := by
      rw [linkCalls, linkCalls, List.filter_cons]
      split <;> rfl
    have hrest := ih (fun x hx => hvalid x (List.mem_cons_of_mem m hx)) (by omega) (drop_of_append hb rfl)
    rw [List.length_cons, show ms.length + 1 + fuel = ms.length + fuel + 1 by omega, dumpMessages]
    dsimp only
    rw [hlen, htype, if_pos ⟨by omega, hlong.1, by omega⟩, if_neg hm.type.2.1, if_neg herror, hnext, Nat.add_assoc,
      Nat.add_sub_cancel_left, hrest, switch_eq hcount hm (by omega) hb, ← List.append_assoc, hcalls]
    rw [Nat.add_assoc]
    rfl

theorem dumpMessages_part (hcount : 3 < count) (hvalid : ∀ m ∈ ms, m.Valid ∧ m.type ≠ 2)
    (hsize : (bytesOf ms).length ≤ 16384) (behind : List UInt8) :
    dumpMessages count (bytesOf ms ++ behind) (bytesOf ms).length 0 (bytesOf ms).length = (linkCalls ms, none) := by
  have hle := length_le_bytesOf ms
  have hend : ∀ (fuel h : Nat) (buf : List UInt8), dumpMessages count buf fuel h 0 = ([], none) := by
    intro fuel h buf
    cases fuel with
    | zero => rfl
    | succ fuel =>
      rw [dumpMessages]
      exact if_neg fun hok => absurd hok.1 (by decide)
  have hmsgs := dumpMessages_eq hcount hvalid hsize
    (show (bytesOf ms ++ behind).drop 0 = bytesOf ms ++ behind from rfl) ((bytesOf ms).length - ms.length) 0
  rw [Nat.add_sub_cancel' hle, Nat.add_zero, hend, List.append_nil] at hmsgs
  exact hmsgs

theorem dumpMessages_last (hcount : 3 < count) (hvalid : ∀ m ∈ ms, m.Valid ∧ m.type ≠ 2) {hdr : NlHdr}
    {data : List UInt8} (hdata : data = bytesOf ms ++ hdr.msg 3 [0, 0, 0, 0]) (hsize : data.length ≤ 16384)
    (behind : List UInt8) :
    dumpMessages count (data ++ behind) data.length 0 data.length = (linkCalls ms, some 0) := by
  have hle := length_le_bytesOf ms
  have hdone : (hdr.msg 3 [0, 0, 0, 0]).length = 20 := hdr.length_msg 3 _
  have hdlen : data.length = (bytesOf ms).length + 20 := by rw [hdata, List.length_append, hdone]
  have hb : (data ++ behind).drop 0 = bytesOf ms ++ (hdr.msg 3 [0, 0, 0, 0] ++ behind) := by
    rw [hdata, List.append_assoc]
    rfl
  obtain ⟨fuel, hfuel⟩ : ∃ fuel, data.length = ms.length + (fuel + 1) := ⟨data.length - ms.length - 1, by omega⟩
  have hmsgs := dumpMessages_eq hcount hvalid (by omega) hb (fuel + 1) 20
  obtain ⟨hlen, htype⟩ := RtScan.header_eq (s := .init (data ++ behind))
    (drop_of_append (n := 0 + (bytesOf ms).length) hb rfl) (by decide) (by decide)
  change u32 ((data ++ behind).drop (0 + (bytesOf ms).length)) = 20 at hlen
  change u16 ((data ++ behind).drop (0 + (bytesOf ms).length + 4)) = 3 at htype
  have hlast : dumpMessages count (data ++ behind) (fuel + 1) (0 + (bytesOf ms).length) 20 = ([], some 0) := by
    rw [dumpMessages]
    dsimp only
    rw [hlen, htype]
    rfl
  rw [hlast, ← hdlen, ← hfuel, List.append_nil] at hmsgs
  exact hmsgs

theorem linkCalls_append (ms ms' : List Msg) : linkCalls (ms ++ ms') = linkCalls ms ++ linkCalls ms' := by
  rw [linkCalls, List.filter_append, List.flatMap_append]
  rfl

/-- The whole dump, whatever is in the buffer behind each `recv`. -/
theorem afnetlinkInitNetifs_eq {d : Dump} {recvs : List (List UInt8 × List UInt8)} (hcount : 3 < count) (hv : d.Valid)
    (hrecvs : recvs.map Prod.fst = d.recvs) : afnetlinkInitNetifs count recvs = (linkCalls d.msgs, 0) := by
  obtain ⟨parts, last, hdr⟩ := d
  obtain ⟨hmsgs, hne, hfits⟩ := hv
  induction parts generalizing recvs with
  | nil =>
    obtain ⟨⟨data, behind⟩, rfl⟩ : ∃ r, recvs = [r] := List.length_eq_one_iff.1 (by
      rw [← List.length_map, hrecvs]
      rfl)
    obtain rfl : data = bytesOf last ++ hdr.msg 3 [0, 0, 0, 0] := List.singleton_inj.1 hrecvs
    have hmsgs' : ∀ m ∈ last, m.Valid ∧ m.type ≠ 2 := hmsgs
    have hlast := dumpMessages_last hcount hmsgs' rfl (hfits _ List.mem_cons_self) behind
    have hdone : (hdr.msg 3 [0, 0, 0, 0]).length = 20 := hdr.length_msg 3 _
    have hdata : bytesOf last ++ hdr.msg 3 [0, 0, 0, 0] ≠ [] := by
      intro hnil
      rw [(List.append_eq_nil_iff.1 hnil).2] at hdone
      cases hdone
    rw [afnetlinkInitNetifs, if_neg hdata, hlast]
    rfl
  | cons ms parts ih =>
    obtain ⟨⟨data, behind⟩, recvs, rfl, hdata, hrest⟩ := List.map_eq_cons_iff.1 hrecvs
    obtain rfl : data = bytesOf ms := hdata
    rw [Dump.msgs, List.flatten_cons, List.append_assoc, List.forall_mem_append] at hmsgs
    rw [List.forall_mem_cons] at hne
    have hle := length_le_bytesOf ms
    have hpos := List.length_pos_iff.2 hne.1
    have hdata : bytesOf ms ≠ [] := List.ne_nil_of_length_pos (Nat.lt_of_lt_of_le hpos hle)
    have hpart := dumpMessages_part hcount hmsgs.1 (hfits _ List.mem_cons_self) behind
    rw [afnetlinkInitNetifs, if_neg hdata, hpart]
    dsimp only
    rw [ih hrest hmsgs.2 hne.2 fun data hd => hfits data (List.mem_cons_of_mem _ hd)]
    dsimp only [Dump.msgs]
    rw [List.flatten_cons, List.append_assoc, linkCalls_append ms]

end

/-! ### The table -/

section
variable {st : NetifSt} {ls : NetifCell → List NetifCell} {t : NetifTable} {i : Int}

/-- A call on the table. -/
def Call.apply (t : NetifTable) : Call → NetifTable
  | delete ifindex => (t.delete ifindex).1
  | update ifindex ifname iftype => (t.update true ifindex ifname iftype).1
  | check => t

theorem run_shows (hs : st.Shows ls t) (c : Call) : ∃ st' ls', c.run st = some st' ∧ st'.Shows ls' (c.apply t) := by
  cases c with
  | delete ifindex =>
    obtain ⟨st', ls', hdel, hs'⟩ := hs.deleteNetif_eq ifindex
    exact ⟨st', ls', by rw [Call.run, hdel, Option.map_some], hs'⟩
  | update ifindex ifname iftype =>
    obtain ⟨st', ls', hupd, hs'⟩ := hs.update true ifindex ifname iftype
    exact ⟨st', ls', by rw [Call.run, hupd, Option.map_some], hs'⟩
  | check => exact ⟨st, ls, rfl, hs⟩

theorem foldlM_run (hs : st.Shows ls t) (calls : List Call) :
    ∃ st' ls', calls.foldlM Call.run st = some st' ∧ st'.Shows ls' (calls.foldl Call.apply t) := by
  induction calls generalizing st ls t with
  | nil => exact ⟨st, ls, rfl, hs⟩
  | cons c calls ih =>
    obtain ⟨st', ls', hrun, hs'⟩ := run_shows hs c
    obtain ⟨st'', ls'', hcalls, hs''⟩ := ih hs'
    exact ⟨st'', ls'', by rw [List.foldlM_cons, hrun, Option.bind_eq_bind, Option.bind_some, hcalls], hs''⟩

theorem netif_delete (hi : 0 ≤ i) (j : Int) : (t.delete j).1.netif i = if j = i then none else t.netif i := by
  rw [NetifTable.delete]
  split_ifs with hj hji hji
  · omega
  · rfl
  · subst hji
    cases hn : t.netif j with
    | none => exact hn
    | some n => exact Function.update_self ..
  · cases hn : t.netif j with
    | none => rfl
    | some n => exact Function.update_of_ne (Ne.symm hji) ..

theorem netif_update (hi : 0 ≤ i) (j : Int) (name : Option (List UInt8)) (type : Int) :
    (t.update true j name type).1.netif i =
      if j = i then some ⟨i, type, (name.map copyIfName).getD []⟩ else t.netif i := by
  by_cases hj : j < 0
  · rw [NetifTable.update, if_pos hj, if_neg (by omega)]
  · have hset : (t.update true j name type).1.netif = t.set j (some ⟨j, type, (name.map copyIfName).getD []⟩) := by
      rw [NetifTable.update, if_neg hj]
      cases t.netif j with
      | some n => rfl
      | none =>
        dsimp only
        split <;> rfl
    rw [hset]
    split_ifs with hji
    · subst hji
      exact Function.update_self ..
    · exact Function.update_of_ne (Ne.symm hji) ..

theorem netif_calls (hi : 0 ≤ i) (m : Msg) : (m.calls.foldl Call.apply t).netif i = m.known i (t.netif i) := by
  cases m with
  | link hdr del ifi attrs =>
    cases del
    · exact netif_update hi ..
    · exact netif_delete hi ..
  | other hdr type payload =>
    rw [Msg.calls]
    split <;> rfl

theorem netif_flatMap_calls (hi : 0 ≤ i) (ms : List Msg) :
    ((ms.flatMap Msg.calls).foldl Call.apply t).netif i = ms.foldl (Msg.known i) (t.netif i) := by
  induction ms generalizing t with
  | nil => rfl
  | cons m ms ih => rw [List.flatMap_cons, List.foldl_append, ih, netif_calls hi, List.foldl_cons]

theorem netif_linkCalls (hi : 0 ≤ i) (ms : List Msg) :
    ((linkCalls ms).foldl Call.apply t).netif i = ms.foldl (Msg.known i) (t.netif i) := by
  rw [linkCalls, netif_flatMap_calls hi, List.foldl_filter]
  congr 1
  funext cur m
  cases m <;> rfl

theorem count_check (ms : List Msg) :
    (ms.flatMap Msg.calls).count .check = ms.countP fun m => m.type = 24 ∨ m.type = 25 := by
  induction ms with
  | nil => rfl
  | cons m ms ih =>
    rw [List.flatMap_cons, List.count_append, List.countP_cons, ih, Nat.add_comm]
    congr 1
    cases m with
    | link hdr del ifi attrs => cases del <;> rfl
    | other hdr type payload =>
      have htype : ((Msg.other hdr type payload).type = 24 ∨ (Msg.other hdr type payload).type = 25) =
          (type = 24 ∨ type = 25) := rfl
      rw [Msg.calls]
      split_ifs with h1 h2 h2
      · rfl
      · simp [htype, h1] at h2
      · simp [htype, h1] at h2
      · rfl

theorem datagrams_eq {count : Nat} (hcount : 3 < count) {events : List (List Msg × List UInt8)}
    (hevents : ∀ e ∈ events, (∀ m ∈ e.1, m.Valid) ∧ (bytesOf e.1).length ≤ 16384) :
    events.mapM (fun e => onAfNetlinkData count (bytesOf e.1) e.2) =
      some (events.map fun e => e.1.flatMap Msg.calls) := by
  induction events with
  | nil => rfl
  | cons e events ih =>
    rw [List.forall_mem_cons] at hevents
    rw [List.mapM_cons, onAfNetlinkData_eq hcount hevents.1.1 hevents.1.2, ih hevents.2]
    rfl

/-- The interfaces are asked for once, and then datagrams come in. The dump is taken to the end, whatever is behind it
in the buffer, every datagram is, whatever is behind it, and the table holds for each index what the last message about
it has said. For each message about a route there is one `check_report_def_rt_change_event`. -/
theorem link_table {count : Nat} (hcount : 3 < count) (links : Links NetifCell) (netif : NetifCell → Netif) {d : Dump}
    (hv : d.Valid) {recvs : List (List UInt8 × List UInt8)} (hrecvs : recvs.map Prod.fst = d.recvs)
    {events : List (List Msg × List UInt8)}
    (hevents : ∀ e ∈ events, (∀ m ∈ e.1, m.Valid) ∧ (bytesOf e.1).length ≤ 16384) :
    ∃ calls st, afnetlinkInitNetifs count recvs = (linkCalls d.msgs, 0) ∧
      events.mapM (fun e => onAfNetlinkData count (bytesOf e.1) e.2) = some calls ∧
      (linkCalls d.msgs ++ calls.flatten).foldlM Call.run (NetifSt.netifsHashInit links netif) = some st ∧
      (∀ i : Int, 0 ≤ i →
        st.netifByIndex i = some ((d.msgs ++ events.flatMap Prod.fst).foldl (Msg.known i) none)) ∧
      calls.flatten.count .check = (events.flatMap Prod.fst).countP fun m => m.type = 24 ∨ m.type = 25 := by
  obtain ⟨st, ls, hrun, hs⟩ := foldlM_run (shows_init links netif)
    (linkCalls d.msgs ++ (events.map fun e => e.1.flatMap Msg.calls).flatten)
  have hflat : (events.map fun e => e.1.flatMap Msg.calls).flatten = (events.flatMap Prod.fst).flatMap Msg.calls := by
    rw [List.flatMap_assoc]
    rfl
  refine ⟨_, st, afnetlinkInitNetifs_eq hcount hv hrecvs, datagrams_eq hcount hevents, hrun, fun i hi => ?_, ?_⟩
  · rw [hs.netifByIndex_eq, hflat, List.foldl_append, netif_flatMap_calls hi, netif_linkCalls hi, List.foldl_append]
    rfl
  · rw [hflat, count_check]

/-- An ethernet interface with a name that is there or has gone. -/
def exampleLink (del : Bool) (index : Nat) (name : List UInt8) : Msg :=
  .link ⟨2, 0, 0⟩ del ⟨0, 1, index, 0, 0⟩ [⟨3, name ++ [0]⟩]

theorem valid_exampleLink (del : Bool) {index : Nat} {name : List UInt8} (hindex : index < 4294967296)
    (hname : name.length < 65531) : (exampleLink del index name).Valid := by
  refine ⟨show 1 < 65536 by decide, hindex, fun a ha => ?_⟩
  obtain rfl := List.mem_singleton.1 ha
  have hlen : (name ++ [0]).length + 4 < 65536 := by
    rw [List.length_append, List.length_singleton]
    omega
  exact ⟨show 3 < 65536 by decide, hlen, fun _ => List.mem_append_right _ List.mem_cons_self⟩

/-- `eth0`, in a `recv` of its own. -/
def eth0Dump : Dump := ⟨[[exampleLink false 2 [101, 116, 104, 48]]], [], ⟨2, 0, 0⟩⟩

/-- `lo1` comes and a route changes, then `eth0` goes. -/
def eth0Events : List (List Msg × List UInt8) :=
  [([exampleLink false 3 [108, 111, 49], .other ⟨2, 0, 0⟩ 24 [0, 0]], [7]), ([exampleLink true 2 []], [])]

theorem recvs_behind (d : Dump) :
    (d.recvs.map fun data => (data, ([] : List UInt8))).map Prod.fst = d.recvs := by
  rw [List.map_map]
  exact List.map_id _

theorem link_table_eth0 :
    ∃ calls st, eth0Events.mapM (fun e => onAfNetlinkData 64 (bytesOf e.1) e.2) = some calls ∧
      (linkCalls eth0Dump.msgs ++ calls.flatten).foldlM Call.run
        (NetifSt.netifsHashInit ⟨fun _ => none, fun _ => none⟩ fun _ => ⟨0, 0, []⟩) = some st ∧
      st.netifByIndex 2 = some none ∧ st.netifByIndex 3 = some (some ⟨3, 1, [108, 111, 49]⟩) ∧
      calls.flatten.count .check = 1 := by
  have hv : eth0Dump.Valid := by
    refine ⟨fun m hm => ?_, by decide, by decide +kernel⟩
    obtain rfl := List.mem_singleton.1 hm
    exact ⟨valid_exampleLink false (by decide) (by decide), by decide⟩
  have hevents : ∀ e ∈ eth0Events, (∀ m ∈ e.1, m.Valid) ∧ (bytesOf e.1).length ≤ 16384 := by
    have hroute : (Msg.other ⟨2, 0, 0⟩ 24 [0, 0]).Valid := by
      refine ⟨?_, ?_, ?_, ?_⟩ <;> decide
    rw [eth0Events, List.forall_mem_cons, List.forall_mem_singleton, List.forall_mem_cons, List.forall_mem_singleton,
      List.forall_mem_singleton]
    exact ⟨⟨⟨valid_exampleLink false (by decide) (by decide), hroute⟩, by decide +kernel⟩,
      valid_exampleLink true (by decide) (by decide), by decide +kernel⟩
  obtain ⟨calls, st, -, hdata, hrun, htable, hcheck⟩ := link_table (show 3 < 64 by decide)
    ⟨fun _ => none, fun _ => none⟩ (fun _ => ⟨0, 0, []⟩) hv (recvs_behind eth0Dump) hevents
  exact ⟨calls, st, hdata, hrun, htable 2 (by decide), htable 3 (by decide), hcheck⟩

end

end LinkMsg

end Aosl
