import Aosl.RtDump

/-!
# Which default route is found

The messages are read back from the bytes, and the route that is remembered in the end is `remembered` of all that were
sent. It is not one of the least metric if a route without a priority comes with others that have one above 0. What is
returned is read from the places of its attributes when the later answers lie over them.
-/

namespace Aosl
open Lib

variable {as : List RtAttr} {a : RtAttr} {m : RtMsg} {buf t data old mem : List UInt8} {af h : Nat} {s : RtScan}
  {ms : List NlMsg} {x : NlMsg} {ps : List (RtMsg × Nat)} {p : RtMsg × Nat}

section Bytes

theorem RtAttr.length_bytes : a.bytes.length = align4 (a.data.length + 4) := by
  rw [RtAttr.bytes, length_padded, List.length_append, List.length_append, length_le16, length_le16]
  congr 1
  omega

theorem RtAttr.bytes_eq (a : RtAttr) : ∃ z, a.bytes = le16 (a.data.length + 4) ++ (le16 a.type ++ (a.data ++ z)) := by
  refine ⟨List.replicate (align4 (le16 (a.data.length + 4) ++ le16 a.type ++ a.data).length -
    (le16 (a.data.length + 4) ++ le16 a.type ++ a.data).length) 0, ?_⟩
  rw [RtAttr.bytes, padded, List.append_assoc, List.append_assoc, List.append_assoc]

theorem length_le_attrBytes : as.length ≤ (attrBytes as).length := by
  induction as with
  | nil => exact Nat.le_refl 0
  | cons a as ih =>
    have hle := le_align4 (a.data.length + 4)
    rw [attrBytes, List.flatMap_cons, List.length_append, RtAttr.length_bytes, List.length_cons]
    change as.length + 1 ≤ align4 (a.data.length + 4) + (attrBytes as).length
    omega

theorem RtMsg.length_bytes : m.bytes.length = 12 + (attrBytes m.attrs).length := by
  rw [RtMsg.bytes, List.length_append, List.length_append, length_le32]
  rfl

theorem NlHdr.length_msg (hdr : NlHdr) (type : Nat) (payload : List UInt8) :
    (hdr.msg type payload).length = align4 (payload.length + 16) := by
  have hb : hdr.bytes.length = 10 := rfl
  rw [NlHdr.msg, length_padded, List.length_append, List.length_append, List.length_append, hb, length_le32,
    length_le16]
  congr 1
  omega

theorem NlHdr.msg_eq (hdr : NlHdr) (type : Nat) (payload : List UInt8) : ∃ z,
    hdr.msg type payload = le32 (payload.length + 16) ++ (le16 type ++ (hdr.bytes ++ (payload ++ z))) := by
  refine ⟨List.replicate (align4 (le32 (payload.length + 16) ++ le16 type ++ hdr.bytes ++ payload).length -
    (le32 (payload.length + 16) ++ le16 type ++ hdr.bytes ++ payload).length) 0, ?_⟩
  rw [NlHdr.msg, padded, List.append_assoc, List.append_assoc, List.append_assoc, List.append_assoc]

theorem drop_of_append {n : Nat} (hb : buf.drop h = data ++ t) (hn : n = h + data.length) : buf.drop n = t := by
  rw [hn, ← List.drop_drop, hb, List.drop_left]

end Bytes

section Attrs

/-- `parse_rtattrs` finds the first attribute of each type. -/
theorem parseRtattrs_eq (hvalid : ∀ a ∈ as, a.Valid af) {rta fuel len : Nat} {rtas : Rtas}
    (hb : buf.drop rta = attrBytes as ++ t) (hlen : len = (attrBytes as).length)
    (hfuel : as.length ≤ fuel) (type : Nat) :
    parseRtattrs buf fuel rta len rtas type =
      (rtas type <|> if type < 31 then (placeIn type as).map (rta + ·) else none) := by
  induction as generalizing rta fuel len rtas with
  | nil =>
    have hnone : (rtas type <|> if type < 31 then (placeIn type []).map (rta + ·) else none) = rtas type := by
      simp [placeIn]
    obtain rfl : len = 0 := hlen
    rw [hnone]
    cases fuel with
    | zero => rfl
    | succ fuel => rw [parseRtattrs, if_neg (by omega)]
  | cons a as ih =>
    obtain ⟨fuel, rfl⟩ : ∃ f, fuel = f + 1 := ⟨fuel - 1, by rw [List.length_cons] at hfuel; omega⟩
    have hva := hvalid a List.mem_cons_self
    rw [attrBytes, List.flatMap_cons, List.append_assoc] at hb
    rw [attrBytes, List.flatMap_cons, List.length_append, RtAttr.length_bytes] at hlen
    obtain ⟨z, hz⟩ := a.bytes_eq
    have hb' : buf.drop rta = le16 (a.data.length + 4) ++ (le16 a.type ++ (a.data ++ z ++ (attrBytes as ++ t))) := by
      rw [hb, hz, List.append_assoc, List.append_assoc]
      rfl
    have hrtaLen : u16 (buf.drop rta) = a.data.length + 4 := by
      rw [hb', u16_le16_append hva.length]
    have htype : u16 (buf.drop (rta + 2)) = a.type := by
      rw [drop_of_append (n := rta + 2) hb' rfl, u16_le16_append hva.type]
    have hle := le_align4 (a.data.length + 4)
    rw [parseRtattrs]
    dsimp only
    rw [hrtaLen, htype, if_pos (by omega)]
    rw [ih (fun b hb => hvalid b (List.mem_cons_of_mem a hb)) (drop_of_append hb (by rw [RtAttr.length_bytes]))
      (by rw [hlen]; exact Nat.add_sub_cancel_left ..) (by rw [List.length_cons] at hfuel; omega)]
    rw [placeIn, RtAttr.length_bytes]
    cases hr : rtas type with
    | some v =>
      rw [if_neg (by rintro ⟨rfl, -, hn⟩; rw [hn] at hr; cases hr)]
      rfl
    | none =>
      by_cases ht : a.type = type
      · rw [if_pos ht]
        by_cases hsmall : type < 31
        · rw [if_pos ⟨ht.symm, ht ▸ hsmall, ht ▸ hr⟩, if_pos hsmall, if_pos hsmall]
          rfl
        · rw [if_neg (by rintro ⟨-, hs, -⟩; exact hsmall (ht ▸ hs)), if_neg hsmall, if_neg hsmall]
      · have hmap : (rta + ·) ∘ (align4 (a.data.length + 4) + ·) = (rta + align4 (a.data.length + 4) + ·) :=
          funext fun o => (Nat.add_assoc ..).symm
        rw [if_neg (fun hc => ht hc.1.symm), if_neg ht, Option.map_map, hmap]

theorem placeIn_isSome {type : Nat} : (placeIn type as).isSome = (as.find? (·.type = type)).isSome := by
  induction as with
  | nil => rfl
  | cons a as ih =>
    rw [placeIn, List.find?_cons]
    by_cases ht : a.type = type
    · rw [if_pos ht, decide_eq_true ht]
      rfl
    · rw [if_neg ht, Option.isSome_map, ih, decide_eq_false ht]

theorem bytes_at_placeIn {type o : Nat} (ho : placeIn type as = some o) (hb : buf.drop h = attrBytes as ++ t) :
    ∃ a y, as.find? (·.type = type) = some a ∧ buf.drop (h + o) = a.bytes ++ y := by
  induction as generalizing h o with
  | nil => cases ho
  | cons a as ih =>
    rw [attrBytes, List.flatMap_cons, List.append_assoc] at hb
    rw [placeIn] at ho
    rw [List.find?_cons]
    by_cases ht : a.type = type
    · rw [if_pos ht] at ho
      obtain rfl := Option.some.inj ho
      rw [decide_eq_true ht]
      exact ⟨a, _, rfl, hb⟩
    · rw [if_neg ht, Option.map_eq_some_iff] at ho
      obtain ⟨o', ho', rfl⟩ := ho
      rw [decide_eq_false ht, ← Nat.add_assoc]
      exact ih ho' (drop_of_append hb rfl)

theorem read_data {n : Nat} (hb : buf.drop h = a.bytes ++ t) (hn : n = h + 4) : ∃ y, buf.drop n = a.data ++ y := by
  obtain ⟨z, hz⟩ := a.bytes_eq
  rw [hz, List.append_assoc, List.append_assoc, List.append_assoc, ← List.append_assoc (le16 _)] at hb
  exact ⟨_, drop_of_append hb hn⟩

end Attrs

namespace RtScan

/-- What one default route does to the locals. -/
def note (s : RtScan) (p : RtMsg × Nat) : RtScan :=
  let s := { s with defRtCnt := s.defRtCnt + 1 }
  let rtaOif := (p.1.attrPlace 4).map (p.2 + 28 + ·)
  let rtaGw := (p.1.attrPlace 5).map (p.2 + 28 + ·)
  match p.1.priority with
  | some pri => if pri < s.minMetric then { s with minMetric := pri, rtaOif, rtaGw } else s
  | none => if s.rtaOif = none ∧ s.rtaGw = none then { s with rtaOif, rtaGw } else s

theorem buf_note (s : RtScan) (p : RtMsg × Nat) : (s.note p).buf = s.buf := by
  unfold note
  dsimp only
  split
  · split <;> rfl
  · split <;> rfl

theorem buf_foldl_note (s : RtScan) (ps : List (RtMsg × Nat)) : (ps.foldl note s).buf = s.buf := by
  induction ps generalizing s with
  | nil => rfl
  | cons p ps ih => rw [List.foldl_cons, ih, buf_note]

theorem newRoute_eq (hdr : NlHdr) (hvalid : ∀ a ∈ m.attrs, a.Valid af) (hb : s.buf.drop h = hdr.msg 24 m.bytes ++ t) :
    s.newRoute h (m.bytes.length + 16) = if m.IsDefault then s.note (m, h) else s := by
  obtain ⟨z, hz⟩ := hdr.msg_eq 24 m.bytes
  have hhdr : hdr.bytes.length = 10 := rfl
  rw [hz] at hb
  have hbody : s.buf.drop (h + 16) = m.bytes ++ (z ++ t) := by
    have hdrop : s.buf.drop h = le32 (m.bytes.length + 16) ++ (le16 24 ++ hdr.bytes) ++ (m.bytes ++ (z ++ t)) := by
      rw [hb]
      simp only [List.append_assoc]
    refine drop_of_append hdrop ?_
    rw [List.length_append, List.length_append, hhdr]
    rfl
  have hattrs : s.buf.drop (h + 28) = attrBytes m.attrs ++ (z ++ t) := by
    have hdrop : s.buf.drop (h + 16) = [m.family, m.dstLen, m.srcLen, m.tos, m.table, m.protocol, m.scope, m.type] ++
        le32 m.flags ++ (attrBytes m.attrs ++ (z ++ t)) := by
      rw [hbody, RtMsg.bytes, List.append_assoc]
    exact drop_of_append hdrop rfl
  have hlen : m.bytes.length + 16 - 28 = (attrBytes m.attrs).length := by
    rw [RtMsg.length_bytes]
    omega
  have hfuel : m.attrs.length ≤ (attrBytes m.attrs).length := length_le_attrBytes
  have hrtas : ∀ type < 31, parseRtattrs s.buf (m.bytes.length + 16 - 28) (h + 28) (m.bytes.length + 16 - 28)
      (fun _ => none) type = (m.attrPlace type).map (h + 28 + ·) := by
    intro type htype
    rw [parseRtattrs_eq hvalid hattrs hlen (hlen ▸ hfuel), if_pos htype]
    rfl
  have htype : (s.buf.drop (h + 16)).getD 7 0 = m.type := by rw [hbody]; rfl
  have hfamily : (s.buf.drop (h + 16)).getD 0 0 = m.family := by rw [hbody]; rfl
  have hdst : (s.buf.drop (h + 16)).getD 1 0 = m.dstLen := by rw [hbody]; rfl
  have hoif : (m.attr 4).isSome = (m.attrPlace 4).isSome := placeIn_isSome.symm
  unfold newRoute
  dsimp only
  rw [htype, hfamily, hdst, hrtas 4 (by decide), hrtas 5 (by decide), hrtas 6 (by decide)]
  split
  case isTrue hc => exact (if_neg fun hd => hc hd.1).symm
  case isFalse ht =>
    split
    case isTrue hc => exact (if_neg fun hd => hd.2.1.elim hc.1 hc.2).symm
    case isFalse hf =>
      split
      case isTrue hc => exact (if_neg fun hd => hc hd.2.2.1).symm
      case isFalse hd =>
        cases ho : m.attrPlace 4 with
        | none =>
          rw [ho] at hoif
          exact (if_neg fun hdef => Bool.false_ne_true (hoif.symm.trans hdef.2.2.2)).symm
        | some o =>
          rw [ho] at hoif
          rw [if_pos ⟨not_not.1 ht, by_contra fun hc => hf ⟨fun h2 => hc (.inl h2), fun h10 => hc (.inr h10)⟩,
            not_not.1 hd, hoif⟩]
          show s.defRt (h + 28 + o) _ _ = s.note (m, h)
          unfold defRt note
          dsimp only
          rw [ho]
          cases hp : m.attrPlace 6 with
          | none =>
            have hprio : m.priority = none := by
              have hnone : (m.attr 6).isSome = false := by rw [RtMsg.attr, ← placeIn_isSome]; exact congrArg _ hp
              rw [RtMsg.priority, Option.not_isSome_iff_eq_none.1 (Bool.eq_false_iff.1 hnone)]
              rfl
            rw [hprio]
            rfl
          | some o' =>
            obtain ⟨a, y, ha, hay⟩ := bytes_at_placeIn hp hattrs
            obtain ⟨y', hy'⟩ := read_data hay rfl
            have ha6 : a.type = 6 := of_decide_eq_true (List.find?_some (p := fun x : RtAttr => decide (x.type = 6)) ha)
            have hlen4 := (hvalid a (List.mem_of_find?_eq_some ha)).priority ha6
            have hprio : m.priority = some (u32 a.data) := by
              rw [RtMsg.priority, RtMsg.attr, ha]
              rfl
            have hread : u32 (s.buf.drop (h + 28 + o' + 4)) = u32 a.data := by
              rw [hy', u32_append (Nat.le_of_eq hlen4.symm)]
            rw [hprio, Option.map_some]
            dsimp only
            rw [hread]
            rfl

theorem header_eq {hdr : NlHdr} {type : Nat} {payload : List UInt8} (hb : s.buf.drop h = hdr.msg type payload ++ t)
    (htype : type < 65536) (hlen : payload.length + 16 < 4294967296) :
    u32 (s.buf.drop h) = payload.length + 16 ∧ u16 (s.buf.drop (h + 4)) = type := by
  obtain ⟨z, hz⟩ := hdr.msg_eq type payload
  rw [hz, List.append_assoc] at hb
  refine ⟨by rw [hb, u32_le32_append hlen], ?_⟩
  rw [drop_of_append (n := h + 4) hb rfl, List.append_assoc, u16_le16_append htype]

theorem messages_succ (fuel k : Nat) (hvalid : x.Valid af) (hb : s.buf.drop h = x.bytes ++ t)
    (hsize : x.bytes.length ≤ 16384) :
    messages (fuel + 1) h (x.bytes.length + k) s =
      messages fuel (h + x.bytes.length) k ((x.defRt.map (·, h)).toList.foldl note s) := by
  have hgo : ∀ (hdr : NlHdr) {type : Nat} {payload : List UInt8}, x.bytes = hdr.msg type payload → type < 65536 →
      type ≠ 2 → type ≠ 3 → messages (fuel + 1) h (x.bytes.length + k) s = messages fuel (h + x.bytes.length) k
        (if type = 24 then s.newRoute h (payload.length + 16) else s) := by
    intro hdr type payload hx htype h2 h3
    have hlen : x.bytes.length = align4 (payload.length + 16) := by rw [hx, NlHdr.length_msg]
    have hle := le_align4 (payload.length + 16)
    rw [hx] at hb
    obtain ⟨hlen', htype'⟩ := header_eq hb htype (by omega)
    rw [messages]
    dsimp only
    rw [hlen', htype', if_pos (by omega), if_neg (by omega), ← hlen, Nat.add_sub_cancel_left]
  cases x with
  | newRoute hdr m =>
    rw [hgo hdr rfl (by decide) (by decide) (by decide), if_pos rfl, newRoute_eq hdr hvalid hb, NlMsg.defRt]
    split <;> rfl
  | other hdr type payload =>
    rw [hgo hdr rfl hvalid.1 hvalid.2.1 hvalid.2.2.1, if_neg hvalid.2.2.2]
    rfl

theorem messages_eq (fuel k : Nat) (hvalid : ∀ x ∈ ms, x.Valid af) (hb : s.buf.drop h = msgsBytes ms ++ t)
    (hsize : (msgsBytes ms).length ≤ 16384) : messages (fuel + ms.length) h ((msgsBytes ms).length + k) s =
      messages fuel (h + (msgsBytes ms).length) k ((placed h ms).foldl note s) := by
  induction ms generalizing h s with
  | nil => simp [msgsBytes, placed]
  | cons x ms ih =>
    rw [msgsBytes, List.flatMap_cons, List.append_assoc] at hb
    rw [msgsBytes, List.flatMap_cons, List.length_append] at hsize
    have hx := messages_succ (fuel + ms.length) ((msgsBytes ms).length + k) (hvalid x List.mem_cons_self) hb
      (by omega)
    have hbuf : ((x.defRt.map (·, h)).toList.foldl note s).buf.drop (h + x.bytes.length) = msgsBytes ms ++ t := by
      rw [buf_foldl_note]
      exact drop_of_append hb rfl
    have hrest := ih (fun y hy => hvalid y (List.mem_cons_of_mem x hy)) hbuf (by rw [msgsBytes]; omega)
    rw [hrest] at hx
    rw [placed, List.foldl_append, msgsBytes, List.flatMap_cons, List.length_append, List.length_cons,
      Nat.add_assoc, ← Nat.add_assoc h]
    exact hx

def setBuf (s : RtScan) (buf : List UInt8) : RtScan := { s with buf }

theorem note_setBuf (s : RtScan) (p : RtMsg × Nat) : (s.setBuf buf).note p = (s.note p).setBuf buf := by
  unfold note setBuf
  dsimp only
  cases p.1.priority with
  | none =>
    dsimp only
    split <;> rfl
  | some pri =>
    dsimp only
    split <;> rfl

theorem foldl_note_setBuf (s : RtScan) (ps : List (RtMsg × Nat)) :
    ps.foldl note (s.setBuf buf) = (ps.foldl note s).setBuf buf := by
  induction ps generalizing s with
  | nil => rfl
  | cons p ps ih => rw [List.foldl_cons, List.foldl_cons, note_setBuf, ih]

theorem recv_eq (hsize : data.length ≤ 16384) : s.recv data = s.setBuf (data ++ s.buf.drop data.length) := by
  rw [recv, List.take_of_length_le hsize]
  rfl

theorem length_le_msgsBytes : ms.length ≤ (msgsBytes ms).length := by
  induction ms with
  | nil => exact Nat.le_refl 0
  | cons x ms ih =>
    have hx : 1 ≤ x.bytes.length := by
      cases x with
      | newRoute hdr m =>
        have hle := le_align4 (m.bytes.length + 16)
        rw [NlMsg.bytes, NlHdr.length_msg]
        omega
      | other hdr type payload =>
        have hle := le_align4 (payload.length + 16)
        rw [NlMsg.bytes, NlHdr.length_msg]
        omega
    rw [msgsBytes, List.flatMap_cons, List.length_append, List.length_cons]
    change ms.length + 1 ≤ x.bytes.length + (msgsBytes ms).length
    omega

theorem dump_part {rest : List (List UInt8)} (hvalid : ∀ x ∈ ms, x.Valid af) (hne : ms ≠ [])
    (hsize : (msgsBytes ms).length ≤ 16384) : dump (msgsBytes ms :: rest) s =
      dump rest (((placed 0 ms).foldl note s).setBuf (msgsBytes ms ++ s.buf.drop (msgsBytes ms).length)) := by
  have hle : ms.length ≤ (msgsBytes ms).length := length_le_msgsBytes
  have hpos := List.length_pos_iff.2 hne
  have hb : (s.recv (msgsBytes ms)).buf.drop 0 = msgsBytes ms ++ s.buf.drop (msgsBytes ms).length := by
    rw [recv_eq hsize]
    rfl
  have hmsgs := messages_eq ((msgsBytes ms).length - ms.length) 0 hvalid hb hsize
  rw [Nat.sub_add_cancel hle, Nat.add_zero] at hmsgs
  have hend : ∀ fuel h (s : RtScan), messages fuel h 0 s = (false, s) := by
    intro fuel h s
    cases fuel with
    | zero => rfl
    | succ fuel => rw [messages, if_neg (by omega)]
  rw [dump, if_neg (fun hn => by rw [hn] at hle; exact absurd (Nat.lt_of_lt_of_le hpos hle) (Nat.lt_irrefl 0)),
    List.take_of_length_le hsize]
  dsimp only
  rw [hmsgs, hend, if_neg Bool.false_ne_true, recv_eq hsize, foldl_note_setBuf]

theorem dump_last {hdr : NlHdr} (hvalid : ∀ x ∈ ms, x.Valid af)
    (hsize : (msgsBytes ms ++ hdr.msg 3 [0, 0, 0, 0]).length ≤ 16384) :
    dump [msgsBytes ms ++ hdr.msg 3 [0, 0, 0, 0]] s =
      ((placed 0 ms).foldl note s).setBuf (msgsBytes ms ++ hdr.msg 3 [0, 0, 0, 0] ++
        s.buf.drop (msgsBytes ms ++ hdr.msg 3 [0, 0, 0, 0]).length) := by
  have hle : ms.length ≤ (msgsBytes ms).length := length_le_msgsBytes
  have hdone : (hdr.msg 3 [0, 0, 0, 0]).length = 20 := hdr.length_msg 3 _
  have hlen := hsize
  rw [List.length_append, hdone] at hlen
  generalize hd : msgsBytes ms ++ hdr.msg 3 [0, 0, 0, 0] = d at *
  have hdlen : d.length = (msgsBytes ms).length + 20 := by rw [← hd, List.length_append, hdone]
  have hb : (s.recv d).buf.drop 0 = msgsBytes ms ++ (hdr.msg 3 [0, 0, 0, 0] ++ s.buf.drop d.length) := by
    rw [recv_eq hsize, ← List.append_assoc, hd]
    rfl
  have hmsgs := messages_eq (d.length - ms.length) 20 hvalid hb (by omega)
  rw [Nat.sub_add_cancel (by omega), ← hdlen] at hmsgs
  have hend : ∀ fuel (s' : RtScan),
      s'.buf.drop (0 + (msgsBytes ms).length) = hdr.msg 3 [0, 0, 0, 0] ++ s.buf.drop d.length →
      messages (fuel + 1) (0 + (msgsBytes ms).length) 20 s' = (true, s') := by
    intro fuel s' hb'
    obtain ⟨hlen', htype⟩ := header_eq hb' (by decide) (by decide)
    rw [messages]
    dsimp only
    rw [hlen', htype]
    rfl
  obtain ⟨fuel, hfuel⟩ : ∃ fuel, d.length - ms.length = fuel + 1 := ⟨d.length - ms.length - 1, by omega⟩
  rw [hfuel, hend fuel _ (by rw [buf_foldl_note]; exact drop_of_append hb rfl)] at hmsgs
  rw [dump, if_neg (fun hn => by rw [hn] at hdlen; cases hdlen), List.take_of_length_le hsize]
  dsimp only
  rw [hmsgs, if_pos rfl, recv_eq hsize, foldl_note_setBuf]

/-- The whole dump: the routes are noted in their order, and the buffer holds what was received last. -/
theorem dump_eq {parts : List (List NlMsg)} {hdr : NlHdr} (hparts : ∀ ms ∈ parts, ∀ x ∈ ms, x.Valid af)
    (hlast : ∀ x ∈ ms, x.Valid af) (hne : ∀ ms ∈ parts, ms ≠ []) (hfits : ∀ ms ∈ parts, (msgsBytes ms).length ≤ 16384)
    (hsize : (msgsBytes ms ++ hdr.msg 3 [0, 0, 0, 0]).length ≤ 16384) :
    dump (parts.map msgsBytes ++ [msgsBytes ms ++ hdr.msg 3 [0, 0, 0, 0]]) s =
      ((parts.flatMap (placed 0) ++ placed 0 ms).foldl note s).setBuf
        ((parts.map msgsBytes ++ [msgsBytes ms ++ hdr.msg 3 [0, 0, 0, 0]]).foldl
          (fun buf data => data ++ buf.drop data.length) s.buf) := by
  induction parts generalizing s with
  | nil => exact dump_last hlast hsize
  | cons ms' parts ih =>
    rw [List.forall_mem_cons] at hparts hne hfits
    rw [List.map_cons, List.cons_append, dump_part hparts.1 hne.1 hfits.1, ih hparts.2 hne.2 hfits.2,
      foldl_note_setBuf, List.flatMap_cons, List.append_assoc]
    simp only [List.foldl_append, List.foldl_cons]
    rfl

/-- The locals after the routes `ps`. -/
structure Notes (s : RtScan) (ps : List (RtMsg × Nat)) : Prop where
  rtaOif : s.rtaOif = (remembered ps).bind fun p => (p.1.attrPlace 4).map (p.2 + 28 + ·)
  rtaGw : s.rtaGw = (remembered ps).bind fun p => (p.1.attrPlace 5).map (p.2 + 28 + ·)
  minMetric : s.minMetric = (leastPriority ps).elim 0xffffffff (·.1.metric)
  defRtCnt : s.defRtCnt = ps.length

theorem leastPriority_some (h : leastPriority ps = some p) :
    p ∈ ps ∧ (∃ pri, p.1.priority = some pri ∧ pri < 0xffffffff) ∧
      ∀ q ∈ ps, q.1.priority.any (· < 0xffffffff) → p.1.metric ≤ q.1.metric := by
  obtain ⟨hmem, hsmall⟩ := List.mem_filter.1 (List.argmin_mem h)
  obtain ⟨pri, hpri, hlt⟩ := (Option.any_eq_true _ _).1 hsmall
  exact ⟨hmem, ⟨pri, hpri, of_decide_eq_true hlt⟩,
    fun q hq hany => List.le_of_mem_argmin (f := fun p : RtMsg × Nat => p.1.metric) (List.mem_filter.2 ⟨hq, hany⟩) h⟩

theorem leastPriority_concat : leastPriority (ps ++ [p]) =
    if p.1.priority.any (· < 0xffffffff) then
      (leastPriority ps).elim (some p) fun c => if p.1.metric < c.1.metric then some p else some c
    else leastPriority ps := by
  rw [leastPriority, List.filter_append]
  split
  case isTrue hp =>
    have hone : [p].filter (fun p : RtMsg × Nat => p.1.priority.any (· < 0xffffffff)) = [p] :=
      List.filter_cons_of_pos hp
    rw [hone, List.argmin_concat, ← leastPriority]
    cases leastPriority ps with
    | none => rfl
    | some c => rfl
  case isFalse hp =>
    have hnone : [p].filter (fun p : RtMsg × Nat => p.1.priority.any (· < 0xffffffff)) = [] :=
      List.filter_cons_of_neg hp
    rw [hnone, List.append_nil, ← leastPriority]

theorem remembered_mem (h : remembered ps = some p) : p ∈ ps := by
  rw [remembered, Option.or_eq_some_iff] at h
  rcases h with h | ⟨-, h⟩
  · exact (leastPriority_some h).1
  · exact List.mem_of_find?_eq_some h

/-- A route with a priority is noted if it is less than all before. -/
theorem note_some {pri : Nat} (hpri : p.1.priority = some pri)
    (hmin : s.minMetric = (leastPriority ps).elim 0xffffffff (·.1.metric)) :
    (if pri < s.minMetric then some p else leastPriority ps) = leastPriority (ps ++ [p]) ∧
      (if pri < s.minMetric then pri else s.minMetric) = (leastPriority (ps ++ [p])).elim 0xffffffff (·.1.metric) := by
  have hmetric : p.1.metric = pri := by rw [RtMsg.metric, hpri]; rfl
  have hany : p.1.priority.any (· < 0xffffffff) = decide (pri < 0xffffffff) := by rw [hpri]; rfl
  rw [leastPriority_concat, hany, hmetric, hmin]
  cases hleast : leastPriority ps with
  | none =>
    by_cases hlt : pri < 0xffffffff
    · simp [hlt, hmetric]
    · simp [hlt]
  | some c =>
    obtain ⟨-, ⟨pri', hpri', hlt'⟩, -⟩ := leastPriority_some hleast
    have hmetric' : c.1.metric = pri' := by rw [RtMsg.metric, hpri']; rfl
    simp only [Option.elim_some, hmetric', decide_eq_true_eq]
    by_cases hlt : pri < pri'
    · have hsmall : pri < 0xffffffff := by omega
      simp only [if_pos hlt, if_pos hsmall, Option.elim_some, hmetric, and_self]
    · simp only [if_neg hlt, ite_self, Option.elim_some, hmetric', and_self]

theorem Notes.note (h : s.Notes ps) (hps : ∀ q ∈ ps, (q.1.attrPlace 4).isSome) : (s.note p).Notes (ps ++ [p]) := by
  have hcnt : s.defRtCnt + 1 = (ps ++ [p]).length := by rw [List.length_append, h.defRtCnt]; rfl
  cases hpri : p.1.priority with
  | some pri =>
    obtain ⟨hleast, hmin⟩ := note_some hpri h.minMetric
    have hfind : (ps ++ [p]).find? (fun p => p.1.priority = none) = ps.find? fun p => p.1.priority = none := by
      rw [List.find?_append, List.find?_singleton, hpri]
      exact Option.or_none
    have hrem : remembered (ps ++ [p]) = if pri < s.minMetric then some p else remembered ps := by
      rw [remembered, ← hleast, hfind]
      split <;> rfl
    unfold RtScan.note
    dsimp only
    rw [hpri]
    dsimp only
    split
    case isTrue hlt =>
      rw [if_pos hlt] at hrem hmin
      exact ⟨by rw [hrem]; rfl, by rw [hrem]; rfl, hmin, hcnt⟩
    case isFalse hge =>
      rw [if_neg hge] at hrem hmin
      exact ⟨by rw [hrem]; exact h.rtaOif, by rw [hrem]; exact h.rtaGw, hmin, hcnt⟩
  | none =>
    have hleast : leastPriority (ps ++ [p]) = leastPriority ps := by
      rw [leastPriority_concat, hpri]
      rfl
    have hrem : remembered (ps ++ [p]) = (remembered ps).or (some p) := by
      rw [remembered, hleast, List.find?_append, List.find?_singleton, hpri, remembered, Option.or_assoc]
      rfl
    have hmin : s.minMetric = (leastPriority (ps ++ [p])).elim 0xffffffff (·.1.metric) := hleast ▸ h.minMetric
    have hoif := h.rtaOif
    have hgw := h.rtaGw
    unfold RtScan.note
    dsimp only
    rw [hpri]
    dsimp only
    cases hr : remembered ps with
    | none =>
      rw [hr] at hoif hgw hrem
      rw [if_pos ⟨hoif, hgw⟩]
      exact ⟨by rw [hrem]; rfl, by rw [hrem]; rfl, hmin, hcnt⟩
    | some q =>
      rw [hr] at hoif hgw hrem
      obtain ⟨o, ho⟩ := Option.isSome_iff_exists.1 (hps q (remembered_mem hr))
      have hsome : s.rtaOif ≠ none := by
        rw [hoif, Option.bind_some, ho]
        nofun
      rw [if_neg fun hc => hsome hc.1]
      exact ⟨by rw [hrem]; exact hoif, by rw [hrem]; exact hgw, hmin, hcnt⟩

theorem notes_foldl (h : s.Notes ps) {qs : List (RtMsg × Nat)} (hqs : ∀ q ∈ ps ++ qs, (q.1.attrPlace 4).isSome) :
    (qs.foldl RtScan.note s).Notes (ps ++ qs) := by
  induction qs generalizing ps s with
  | nil => exact (List.append_nil ps).symm ▸ h
  | cons q qs ih =>
    have hq : ps ++ q :: qs = ps ++ [q] ++ qs := by rw [List.append_assoc]; rfl
    rw [hq] at hqs ⊢
    exact ih (h.note fun r hr => hqs r (List.mem_append_left _ (List.mem_append_left _ hr))) hqs

end RtScan

open RtScan

theorem map_placed : (placed h ms).map Prod.fst = ms.filterMap NlMsg.defRt := by
  induction ms generalizing h with
  | nil => rfl
  | cons x ms ih =>
    rw [placed, List.map_append, ih, List.filterMap_cons]
    cases x.defRt <;> rfl

theorem isDefault_of_placed (hp : p ∈ placed h ms) : p.1.IsDefault := by
  have hmem : p.1 ∈ ms.filterMap NlMsg.defRt := map_placed ▸ List.mem_map_of_mem hp
  obtain ⟨x, -, hx⟩ := List.mem_filterMap.1 hmem
  cases x with
  | newRoute hdr m =>
    rw [NlMsg.defRt, Option.ite_none_right_eq_some] at hx
    exact Option.some.inj hx.2 ▸ hx.1
  | other hdr type payload => cases hx

/-- A route without a priority is not found if there are some with priorities, and none of these is 0. -/
theorem remembered_isBest_iff (hr : remembered ps = some p) :
    IsBest (ps.map Prod.fst) p.1 ↔ p.1.metric = 0 ∨ ∀ q ∈ ps, q.1.priority ≠ none := by
  have hmem : p.1 ∈ ps.map Prod.fst := List.mem_map_of_mem (remembered_mem hr)
  rw [remembered, Option.or_eq_some_iff] at hr
  constructor
  · rintro ⟨-, hmin⟩
    by_contra hc
    push Not at hc
    obtain ⟨hpos, q, hq, hnone⟩ := hc
    have hle := hmin q.1 (List.mem_map_of_mem hq)
    have hzero : q.1.metric = 0 := by rw [RtMsg.metric, hnone]; rfl
    omega
  · intro hcase
    refine ⟨hmem, fun r hrmem => ?_⟩
    obtain ⟨q, hq, rfl⟩ := List.mem_map.1 hrmem
    rcases hcase with h0 | hall
    · rw [h0]
      exact Nat.zero_le _
    · rcases hr with hr | ⟨-, hr⟩
      · obtain ⟨-, ⟨pri, hpri, hlt⟩, hmin⟩ := leastPriority_some hr
        obtain ⟨pri', hpri'⟩ := Option.ne_none_iff_exists'.1 (hall q hq)
        by_cases hsmall : pri' < 0xffffffff
        · exact hmin q hq (by rw [hpri']; exact decide_eq_true hsmall)
        · rw [RtMsg.metric, RtMsg.metric, hpri, hpri']
          show pri ≤ pri'
          omega
      · have hnone := of_decide_eq_true (List.find?_some (p := fun p : RtMsg × Nat => decide (p.1.priority = none)) hr)
        rw [RtMsg.metric, hnone]
        exact Nat.zero_le _

/-- The attributes of a route where they were received. -/
theorem holdsRoute_self (hvalid : ∀ a ∈ p.1.attrs, a.Valid af) (hb : buf.drop (p.2 + 28) = attrBytes p.1.attrs ++ t) :
    HoldsRoute af old buf p p.1 := by
  constructor
  · intro o ho
    obtain ⟨a, y, ha, hay⟩ := bytes_at_placeIn ho hb
    obtain ⟨y', hy'⟩ := read_data hay rfl
    have ha4 : a.type = 4 := of_decide_eq_true (List.find?_some (p := fun x : RtAttr => decide (x.type = 4)) ha)
    have hlen := (hvalid a (List.mem_of_find?_eq_some ha)).oif ha4
    rw [hy', u32_append (Nat.le_of_eq hlen.symm), RtMsg.ifIndex, RtMsg.attr, ha]
    rfl
  · cases ho : p.1.attrPlace 5 with
    | none =>
      have hnone : (p.1.attr 5).isSome = false := by rw [RtMsg.attr, ← placeIn_isSome]; exact congrArg _ ho
      rw [RtMsg.gateway, Option.not_isSome_iff_eq_none.1 (Bool.eq_false_iff.1 hnone)]
      rfl
    | some o =>
      obtain ⟨a, y, ha, hay⟩ := bytes_at_placeIn ho hb
      obtain ⟨y', hy'⟩ := read_data hay rfl
      have ha5 : a.type = 5 := of_decide_eq_true (List.find?_some (p := fun x : RtAttr => decide (x.type = 5)) ha)
      have hva := hvalid a (List.mem_of_find?_eq_some ha)
      have hlen := hva.gateway ha5
      obtain ⟨z, hz⟩ := a.bytes_eq
      have hrtaLen : u16 (buf.drop (p.2 + 28 + o)) = a.data.length + 4 := by
        rw [hay, hz, List.append_assoc, u16_le16_append hva.length]
      have hroom : addrLen af ≤ addrRoom af := by
        unfold addrLen addrRoom
        split <;> decide
      have hin : p.2 + 28 + o + (a.data.length + 4) ≤ buf.length := by
        have hle := congrArg List.length hy'
        rw [List.length_drop, List.length_append] at hle
        have hpos : 0 < a.data.length := by
          rw [hlen]
          unfold addrLen
          split <;> decide
        omega
      rw [Option.map_some, readGw]
      dsimp only
      rw [hrtaLen, if_neg (by omega), hy', Nat.add_sub_cancel, List.take_left, ← hlen, List.take_left, RtMsg.gateway,
        RtMsg.attr, ha]
      rfl

/-- Where the attributes of a placed route are. -/
theorem attrs_at_placed (hp : p ∈ placed h ms) (hb : buf.drop h = msgsBytes ms ++ t) :
    ∃ y, buf.drop (p.2 + 28) = attrBytes p.1.attrs ++ y := by
  induction ms generalizing h with
  | nil => cases hp
  | cons x ms ih =>
    rw [msgsBytes, List.flatMap_cons, List.append_assoc] at hb
    rw [placed, List.mem_append] at hp
    rcases hp with hp | hp
    · cases x with
      | other hdr type payload => cases hp
      | newRoute hdr m =>
        rw [NlMsg.defRt] at hp
        split at hp
        case isFalse => cases hp
        case isTrue =>
          obtain rfl : p = (m, h) := List.mem_singleton.1 hp
          obtain ⟨z, hz⟩ := hdr.msg_eq 24 m.bytes
          have hhdr : hdr.bytes.length = 10 := rfl
          rw [NlMsg.bytes, hz] at hb
          refine ⟨z ++ (ms.flatMap NlMsg.bytes ++ t), ?_⟩
          have hdrop : buf.drop h = le32 (m.bytes.length + 16) ++ (le16 24 ++ (hdr.bytes ++
              ([m.family, m.dstLen, m.srcLen, m.tos, m.table, m.protocol, m.scope, m.type] ++ le32 m.flags))) ++
              (attrBytes m.attrs ++ (z ++ (ms.flatMap NlMsg.bytes ++ t))) := by
            rw [hb]
            simp only [RtMsg.bytes, List.append_assoc]
          refine drop_of_append hdrop ?_
          simp only [List.length_append, hhdr, length_le16, length_le32]
          rfl
    · exact ih hp (drop_of_append hb rfl)

theorem drop_overlay {n : Nat} {later : List (List UInt8)} (hl : ∀ data ∈ later, data.length ≤ n) :
    (later.foldl (fun buf data => data ++ buf.drop data.length) buf).drop n = buf.drop n := by
  induction later generalizing buf with
  | nil => rfl
  | cons data later ih =>
    rw [List.forall_mem_cons] at hl
    rw [List.foldl_cons, ih hl.2, List.drop_append, List.drop_eq_nil_of_le hl.1, List.nil_append, List.drop_drop,
      Nat.add_sub_cancel' hl.1]

namespace NlDump

variable {d : NlDump} {r : RtMsg}

theorem map_places : d.places.map Prod.fst = d.routes := by
  rw [places, List.map_append, map_placed, routes, List.filterMap_append, List.map_flatMap, ← List.flatMap_id',
    List.filterMap_flatMap]
  congr 2
  funext ms
  exact map_placed

theorem places_isSome (hp : p ∈ d.places) : (p.1.attrPlace 4).isSome := by
  have hdef : p.1.IsDefault := by
    rcases List.mem_append.1 hp with hp | hp
    · obtain ⟨ms, -, hp⟩ := List.mem_flatMap.1 hp
      exact isDefault_of_placed hp
    · exact isDefault_of_placed hp
  rw [RtMsg.attrPlace, placeIn_isSome]
  exact hdef.2.2.2

theorem dump_recvs (hv : d.Valid af) (mem : List UInt8) :
    ((RtScan.init mem).dump d.recvs).Notes d.places ∧ ((RtScan.init mem).dump d.recvs).buf = d.finalBuf mem := by
  have hfits : ∀ ms ∈ d.parts, (msgsBytes ms).length ≤ 16384 := fun ms hms =>
    hv.fits _ (List.mem_append_left _ (List.mem_map_of_mem hms))
  have hlast := hv.fits _ (List.mem_append_right _ (List.mem_singleton_self _))
  have heq := dump_eq (s := RtScan.init mem) (fun ms hms => hv.msgs ms (List.mem_cons_of_mem _ hms))
    (hv.msgs _ List.mem_cons_self) hv.nonempty hfits hlast
  have hinit : (RtScan.init mem).Notes [] := ⟨rfl, rfl, rfl, rfl⟩
  have hnotes : (d.places.foldl RtScan.note (RtScan.init mem)).Notes ([] ++ d.places) :=
    notes_foldl hinit fun q hq => places_isSome hq
  rw [recvs, lastBytes, heq]
  exact ⟨⟨hnotes.rtaOif, hnotes.rtaGw, hnotes.minMetric, hnotes.defRtCnt⟩, rfl⟩

/-- For every dump: the interface and the gateway of one route of the least metric are returned, with the number of
routes, if and only if there is no default route, or one is remembered, and its places hold those of such a route in
the end. -/
theorem best_iff_holdsRoute (hv : d.Valid af) (old mem : List UInt8) :
    (RtScan.afGetDefaultRt af old mem d.recvs).Best af d.routes ↔ d.routes = [] ∨
      ∃ p r, remembered d.places = some p ∧ IsBest d.routes r ∧ HoldsRoute af old (d.finalBuf mem) p r := by
  obtain ⟨hnotes, hbuf⟩ := dump_recvs hv mem
  rw [RtScan.afGetDefaultRt]
  generalize (RtScan.init mem).dump d.recvs = s at hnotes hbuf
  have hoif := hnotes.rtaOif
  have hgw := hnotes.rtaGw
  have hcnt : s.defRtCnt = d.routes.length := by rw [hnotes.defRtCnt, ← map_places, List.length_map]
  cases hr : remembered d.places with
  | none =>
    rw [hr] at hoif
    rw [RtScan.result, hoif]
    refine ⟨.inl, fun hc => hc.elim id ?_⟩
    rintro ⟨p, r, hp, -⟩
    cases hp
  | some p =>
    have hmem := remembered_mem hr
    obtain ⟨o, ho⟩ := Option.isSome_iff_exists.1 (places_isSome hmem)
    have hne : d.routes ≠ [] := by
      rw [← map_places]
      exact List.ne_nil_of_mem (List.mem_map_of_mem hmem)
    rw [hr, Option.bind_some] at hoif hgw
    rw [ho, Option.map_some] at hoif
    rw [RtScan.result, hoif, hgw, hbuf]
    dsimp only
    cases hread : readGw af old (d.finalBuf mem) ((p.1.attrPlace 5).map (p.2 + 28 + ·)) with
    | none =>
      refine iff_of_false id ?_
      rintro (hn | ⟨p', r, hp', -, -, hgw'⟩)
      · exact hne hn
      · obtain rfl := Option.some.inj hp'
        rw [hread] at hgw'
        cases hgw'
    | some gw =>
      constructor
      · rintro ⟨⟨r, hbest, hif, rfl⟩, -⟩
        refine .inr ⟨p, r, rfl, hbest, fun o' ho' => ?_, hread⟩
        obtain rfl := Option.some.inj (ho.symm.trans ho')
        exact hif
      · rintro (hn | ⟨p', r, hp', hbest, hif, hgw'⟩)
        · exact absurd hn hne
        · obtain rfl := Option.some.inj hp'
          refine ⟨⟨r, hbest, hif o ho, Option.some.inj (hread.symm.trans hgw')⟩, ?_⟩
          rw [hcnt]
          split <;> omega

/-- The route is found if no later answer reaches its attributes, and no route without a priority is passed over. -/
theorem best_of_untouched (hv : d.Valid af) (old mem : List UInt8) (hr : remembered d.places = some p)
    (hprio : p.1.metric = 0 ∨ ∀ q ∈ d.places, q.1.priority ≠ none) (hattrs : ∀ a ∈ p.1.attrs, a.Valid af)
    {w : List UInt8} {before later : List (List UInt8)} (hsplit : d.recvs = before ++ (msgsBytes ms ++ w) :: later)
    (hp : p ∈ placed 0 ms) (hlater : ∀ data ∈ later, data.length ≤ p.2 + 28) :
    (RtScan.afGetDefaultRt af old mem d.recvs).Best af d.routes := by
  refine (best_iff_holdsRoute hv old mem).2 (.inr ⟨p, p.1, hr, map_places ▸ (remembered_isBest_iff hr).2 hprio, ?_⟩)
  have hbuf : ∃ rest, d.finalBuf mem =
      later.foldl (fun buf data => data ++ buf.drop data.length) (msgsBytes ms ++ (w ++ rest)) := by
    rw [finalBuf, hsplit, List.foldl_append, List.foldl_cons, List.append_assoc]
    exact ⟨_, rfl⟩
  obtain ⟨rest, hrest⟩ := hbuf
  have hb : (msgsBytes ms ++ (w ++ rest)).drop 0 = msgsBytes ms ++ (w ++ rest) := rfl
  obtain ⟨y, hy⟩ := attrs_at_placed hp hb
  refine holdsRoute_self (t := y) hattrs ?_
  rw [hrest, drop_overlay hlater]
  exact hy

/-- An IPv4 route through the gateway 10.0.0.`gw` on the interface `oif`. -/
def exampleRoute (priority : Option Nat) (oif : Nat) (gw : UInt8) : RtMsg :=
  ⟨2, 0, 0, 0, 254, 3, 0, 1, 0, (priority.map fun pri => ⟨6, le32 pri⟩).toList ++ [⟨5, [10, 0, 0, gw]⟩, ⟨4, le32 oif⟩]⟩

/-- One message in each `recv`, and the end of the dump in the last one. -/
def exampleDump (parts : List (List RtMsg)) : NlDump :=
  ⟨parts.map fun ms => ms.map (.newRoute ⟨2, 0, 0⟩), [], ⟨2, 0, 0⟩⟩

theorem valid_exampleDump (parts : List (List (Option Nat × Nat × UInt8))) (hne : ∀ ms ∈ parts, ms ≠ [])
    (hfits : ∀ data ∈ (exampleDump (parts.map fun ms => ms.map fun r => exampleRoute r.1 r.2.1 r.2.2)).recvs,
      data.length ≤ 16384) :
    (exampleDump (parts.map fun ms => ms.map fun r => exampleRoute r.1 r.2.1 r.2.2)).Valid 2 := by
  refine ⟨fun ms hms x hx => ?_, fun ms hms => ?_, hfits⟩
  · rcases List.mem_cons.1 hms with rfl | hms
    · cases hx
    · simp only [exampleDump, List.map_map, List.mem_map] at hms
      obtain ⟨rs, -, rfl⟩ := hms
      simp only [Function.comp, List.map_map, List.mem_map] at hx
      obtain ⟨⟨pri, oif, gw⟩, -, rfl⟩ := hx
      intro a ha
      rcases List.mem_append.1 ha with ha | ha
      · obtain ⟨v, -, rfl⟩ := Option.map_eq_some_iff.1 (Option.mem_toList.1 ha)
        exact ⟨show 6 < 65536 by decide, show 8 < 65536 by decide, nofun, nofun, fun _ => rfl⟩
      · rcases List.mem_cons.1 ha with rfl | ha
        · exact ⟨show 5 < 65536 by decide, show 8 < 65536 by decide, nofun, fun _ => rfl, nofun⟩
        · obtain rfl := List.mem_singleton.1 ha
          exact ⟨show 4 < 65536 by decide, show 8 < 65536 by decide, fun _ => rfl, nofun, nofun⟩
  · simp only [exampleDump, List.map_map, List.mem_map] at hms
    obtain ⟨rs, hrs, rfl⟩ := hms
    simp only [Function.comp, ne_eq, List.map_eq_nil_iff]
    exact hne rs hrs

/-- Two routes in one `recv`; the end of the dump lies over the first 20 bytes only. -/
def togetherDump : NlDump := exampleDump [[exampleRoute (some 100) 2 1, exampleRoute (some 200) 3 2]]

theorem best_iff_holdsRoute_together :
    (RtScan.afGetDefaultRt 2 [0, 0, 0, 0] (List.replicate 16384 0) togetherDump.recvs).Best 2 togetherDump.routes := by
  have hv : togetherDump.Valid 2 :=
    valid_exampleDump [[(some 100, 2, 1), (some 200, 3, 2)]] (by decide) (by decide +kernel)
  have hr : remembered togetherDump.places = some (exampleRoute (some 100) 2 1, 0) := by decide +kernel
  have hbest : IsBest togetherDump.routes (exampleRoute (some 100) 2 1) := by
    constructor
    · decide +kernel
    · decide +kernel
  have hoif : ∀ o ∈ (exampleRoute (some 100) 2 1).attrPlace 4,
      toInt32 (u32 ((togetherDump.finalBuf (List.replicate 16384 0)).drop (0 + 28 + o + 4))) = 2 := by decide +kernel
  have hgw : readGw 2 [0, 0, 0, 0] (togetherDump.finalBuf (List.replicate 16384 0))
      (((exampleRoute (some 100) 2 1).attrPlace 5).map (0 + 28 + ·)) = some [10, 0, 0, 1] := by decide +kernel
  have hholds : HoldsRoute 2 [0, 0, 0, 0] (togetherDump.finalBuf (List.replicate 16384 0))
      (exampleRoute (some 100) 2 1, 0)
      (exampleRoute (some 100) 2 1) := ⟨hoif, hgw⟩
  rw [best_iff_holdsRoute hv]
  exact .inr ⟨_, _, hr, hbest, hholds⟩

/-- Two routes in two calls of `recv`. -/
def overwrittenDump : NlDump := exampleDump [[exampleRoute (some 100) 2 1], [exampleRoute (some 200) 3 2]]

/-- The second route lies over the first one: its interface and its gateway are returned, with metric 200. -/
theorem not_best_overwritten : overwrittenDump.Valid 2 ∧
    ¬(RtScan.afGetDefaultRt 2 [0, 0, 0, 0] (List.replicate 16384 0) overwrittenDump.recvs).Best 2
      overwrittenDump.routes := by
  refine ⟨valid_exampleDump [[(some 100, 2, 1)], [(some 200, 3, 2)]] (by decide) (by decide +kernel), ?_⟩
  have hres : RtScan.afGetDefaultRt 2 [0, 0, 0, 0] (List.replicate 16384 0) overwrittenDump.recvs =
      .route 3 [10, 0, 0, 2] 2 := by
    decide +kernel
  rw [hres]
  rintro ⟨⟨r, ⟨hmem, hmin⟩, hif, -⟩, -⟩
  have hroutes : overwrittenDump.routes = [exampleRoute (some 100) 2 1, exampleRoute (some 200) 3 2] := by
    decide +kernel
  rw [hroutes] at hmem hmin
  rcases List.mem_cons.1 hmem with rfl | hmem
  · revert hif
    decide
  · obtain rfl := List.mem_singleton.1 hmem
    have hle := hmin _ List.mem_cons_self
    revert hle
    decide

end NlDump

end Aosl
