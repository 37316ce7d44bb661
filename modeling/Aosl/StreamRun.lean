import Aosl.Stream

/-!
# The packets of a stream, in whatever pieces they arrive

At a call of `read_f` the buffer holds a proper part of a packet: fewer than `max_pkt_size` bytes. If
`__iofd_better_move_buffer` says no, there is room for 1024 bytes behind it; if it says yes, there is room for more than
`max_pkt_size` after the move. So `read_f` is never called for 0 bytes, and a packet can always be completed.
-/

namespace Aosl
open Lib

def packet {β : Type} (p : List β) : List β × Int := (p, p.length)

namespace StreamAct

/-- `read_f` returns what has arrived, or that nothing has. -/
def Streams : StreamAct → Prop
  | .read (.ready _) => True
  | .read (.fail err) => err = -eagain
  | .read .eof => False
  | .event | .loop _ => True

/-- No callback closes the fd. -/
def Keeps : StreamAct → Prop
  | .loop closer => closer = none
  | .event | .read _ => True

end StreamAct

namespace StreamSt

variable {β : Type} {cfg : StreamCfg β} {s s' : StreamSt β} {chk : List β → Int} {ps rest : List (List β)} {p : List β}

section Data

theorem length_data (hle : s.rTail ≤ s.buf.length) : s.data.length = s.rTail - s.rData := by
  rw [data, List.length_take, List.length_drop]
  omega

theorem data_moveBuffer (hle : s.rTail ≤ s.buf.length) : s.moveBuffer.data = s.data := by
  change ((s.data ++ s.buf.drop s.data.length).drop 0).take (s.rTail - s.rData - 0) = s.data
  rw [List.drop_zero, Nat.sub_zero, ← length_data hle, List.take_left]

theorem length_moveBuffer (hle : s.rTail ≤ s.buf.length) : s.moveBuffer.buf.length = s.buf.length := by
  have hlen := length_data hle
  simp only [moveBuffer, List.length_append, List.length_drop]
  omega

theorem data_fill (h : s.rData ≤ s.rTail) (hle : s.rTail ≤ s.buf.length) (bytes : List β) :
    (s.fill bytes).data = s.data ++ bytes := by
  have hlen := length_data hle
  have htake : (s.buf.take s.rTail).drop s.rData = s.data := List.drop_take
  have hn : s.rTail + bytes.length - s.rData = (s.data ++ bytes).length := by
    rw [List.length_append]
    omega
  change ((s.buf.take s.rTail ++ bytes ++ _).drop s.rData).take (s.rTail + bytes.length - s.rData) = _
  rw [hn, List.append_assoc, List.drop_append_of_le_length (by rw [List.length_take]; omega), htake,
    ← List.append_assoc, List.take_left]

theorem length_fill {bytes : List β} (hle : s.rTail + bytes.length ≤ s.buf.length) :
    (s.fill bytes).buf.length = s.buf.length := by
  simp only [fill, List.length_append, List.length_take, List.length_drop]
  omega

theorem take_data {n : Nat} (hn : n ≤ s.rTail - s.rData) : (s.buf.drop s.rData).take n = s.data.take n := by
  rw [data, List.take_take, Nat.min_eq_left hn]

theorem data_advance (n : Nat) : { s with rData := s.rData + n }.data = s.data.drop n := by
  rw [data, data, List.drop_take, List.drop_drop, Nat.sub_add_eq]

end Data

/-- Which packets have been handed out, and which are still to come. -/
structure Parts (ps : List (List β)) (s : StreamSt β) (done rest : List (List β)) : Prop where
  all : ps = done ++ rest
  handed : s.handed = done.map packet
  data : s.fd → s.data ++ s.input = rest.flatten
  part : s.fd → s.pc ≠ .loop → ∀ p ∈ rest.head?, s.data.length < p.length

theorem Parts.hand {done : List (List β)} (hp : Parts ps s done (p :: rest)) (hfd : s.fd)
    (hle : p.length ≤ s.data.length) : s.data.take p.length = p ∧
    s.handed ++ [packet p] = (done ++ [p]).map packet ∧ s.data.drop p.length ++ s.input = rest.flatten := by
  have hd := hp.data hfd
  rw [List.flatten_cons] at hd
  refine ⟨?_, ?_, ?_⟩
  · rw [← List.take_append_of_le_length hle, hd, List.take_left]
  · rw [List.map_append, hp.handed]
    rfl
  · rw [← List.drop_append_of_le_length hle, hd, List.drop_left]

structure Reads (cfg : StreamCfg β) (ps : List (List β)) (s : StreamSt β) : Prop where
  size : s.buf.length = cfg.maxPktSize * 2
  le : s.rData ≤ s.rTail
  tail : s.rTail ≤ cfg.maxPktSize * 2
  asked : ∀ n ∈ s.asked, 0 < n
  flag : s.readReturn0 = false
  closed : s.fd = false → ∃ err, s.pc = .ret err
  parts : ∃ done rest, Parts ps s done rest

/-- A stream: the packets are found by `chk_pkt_f`, and handed out as they are. -/
structure IsStream (cfg : StreamCfg β) (chk : List β → Int) (ps : List (List β)) : Prop where
  chkPkt : cfg.chkPkt = some chk
  post : cfg.post = none
  pos : 0 < cfg.maxPktSize
  framing : Framing chk cfg.maxPktSize ps

namespace Reads

theorem length_data (h : Reads cfg ps s) : s.data.length = s.rTail - s.rData :=
  StreamSt.length_data (by rw [h.size]; exact h.tail)

section Loop
variable {closer : Option StreamCb}

theorem handle_zero (hflag : s.readReturn0 = false) : s.handle cfg closer 0 = { s with pc := .read } := by
  simp [handle, endRound, hflag]

theorem loop_nil (hs : IsStream cfg chk ps) (h : Reads cfg ps s) (hdata : s.data = []) :
    s.loop cfg closer = { s with pc := .read } := by
  have hlen : (s.rTail : Int) - s.rData = 0 := by
    have h1 := h.length_data
    have h2 := h.le
    rw [hdata, List.length_nil] at h1
    omega
  rw [loop, hs.chkPkt]
  simp only [hlen, Int.le_refl, if_true]
  exact handle_zero h.flag

theorem loop_cons (hs : IsStream cfg chk ps) (h : Reads cfg ps s) (hdata : s.data ≠ []) (hle : 0 ≤ chk s.data) (hle' : chk s.data ≤ s.data.length) : s.loop cfg closer =
    if closer = some .chkPkt then s.close 0 else s.handle cfg closer (chk s.data) := by
  have hlen : (s.rTail : Int) - s.rData = s.data.length := by
    have h1 := h.length_data
    have h2 := h.le
    omega
  have hpos : ¬ (s.data.length : Int) ≤ 0 := by
    have := List.length_pos_iff.2 hdata
    omega
  rw [loop, hs.chkPkt]
  simp only [hlen, if_neg hpos, if_neg (Int.not_lt.2 hle), if_neg (Int.not_lt.2 hle')]

theorem handle_packet {n : Nat} (hs : IsStream cfg chk ps) (h : Reads cfg ps s) (hn : 0 < n) (hle : n ≤ s.data.length) : s.handle cfg closer n =
    if closer = some .data then { s with handed := s.handed ++ [(s.data.take n, (n : Int))] }.close 0
    else { s with handed := s.handed ++ [(s.data.take n, (n : Int))], rData := s.rData + n, pc := .loop } := by
  have htake : (s.buf.drop s.rData).take n = s.data.take n := take_data (by rw [← h.length_data]; exact hle)
  have hn' : ¬ (n : Int) = 0 := by omega
  have hdataF : s.dataF n = { s with handed := s.handed ++ [(s.data.take n, (n : Int))] } := by
    rw [dataF, if_pos (by omega), Int.toNat_natCast, htake]
  have hlen : s.dataLen cfg n = n := by rw [dataLen, hs.post]
  rw [handle, if_pos (.inl (by omega)), if_neg (by simp [hs.post]), hlen, hdataF]
  by_cases hc : closer = some .data
  · rw [if_pos hc, if_pos ⟨by omega, hc⟩]
  · rw [if_neg hc, if_neg fun h => hc h.2, endRound, if_neg (by simp [h.flag]), if_neg hn', Int.toNat_natCast]

theorem close (h : Reads cfg ps s) (err : Int) : Reads cfg ps (s.close err) := by
  obtain ⟨done, rest, hp⟩ := h.parts
  exact { h with closed := fun _ => ⟨err, rfl⟩, parts := ⟨done, rest, hp.all, hp.handed, nofun, nofun⟩ }

/-- A round of the inner loop: a packet is handed out, or the loop ends with a part of one. -/
theorem loop (h : Reads cfg ps s) (closer : Option StreamCb) (hs : IsStream cfg chk ps) (hfd : s.fd) : Reads cfg ps (s.loop cfg closer) ∧
    (closer = none → (s.loop cfg closer).fd ∧ ((s.loop cfg closer).pc = .read ∨
      (s.loop cfg closer).pc = .loop ∧ (s.loop cfg closer).data.length < s.data.length)) := by
  obtain ⟨done, rest, hp⟩ := h.parts
  by_cases hdata : s.data = []
  · rw [loop_nil hs h hdata]
    refine ⟨{ h with closed := fun hc => absurd hfd (by simp [show s.fd = false from hc]), parts := ?_ },
      fun _ => ⟨hfd, .inl rfl⟩⟩
    refine ⟨done, rest, hp.all, hp.handed, hp.data, fun _ _ p hrest => ?_⟩
    have hmem : p ∈ ps := hp.all ▸ List.mem_append_right _ (List.mem_of_mem_head? hrest)
    change s.data.length < p.length
    rw [hdata]
    exact List.length_pos_iff.2 (hs.framing.nonempty p hmem)
  · cases rest with
    | nil =>
      have := hp.data hfd
      simp [hdata] at this
    | cons p rest =>
      have hsuffix : (p :: rest) <:+ ps := ⟨done, hp.all.symm⟩
      have hprefix : s.data <+: (p :: rest).flatten := ⟨s.input, hp.data hfd⟩
      have hchk := hs.framing.check p rest s.data hsuffix hprefix hdata
      by_cases hlt : s.data.length < p.length
      · rw [if_pos hlt] at hchk
        rw [loop_cons hs h hdata (by omega) (by omega), hchk, handle_zero h.flag]
        split
        case isTrue hc => exact ⟨h.close 0, fun hn => absurd (hn.symm.trans hc) nofun⟩
        case isFalse =>
          refine ⟨{ h with closed := fun hc => absurd hfd (by simp [show s.fd = false from hc]), parts := ?_ },
            fun _ => ⟨hfd, .inl rfl⟩⟩
          refine ⟨done, p :: rest, hp.all, hp.handed, hp.data, fun _ _ q hq => ?_⟩
          obtain rfl := Option.some.inj hq
          exact hlt
      · rw [if_neg hlt] at hchk
        have hle := Nat.not_lt.1 hlt
        have hpos : 0 < p.length :=
          List.length_pos_iff.2 (hs.framing.nonempty p (hp.all ▸ List.mem_append_right _ (List.mem_cons_self ..)))
        obtain ⟨htake, hhanded, hrest⟩ := hp.hand hfd hle
        have hall : ps = (done ++ [p]) ++ rest := by rw [hp.all, List.append_assoc]; rfl
        rw [loop_cons hs h hdata (by omega) (by omega), hchk, handle_packet hs h hpos hle, htake]
        split
        case isTrue hc => exact ⟨h.close 0, fun hn => absurd (hn.symm.trans hc) nofun⟩
        case isFalse =>
          split
          case isTrue hc =>
            refine ⟨{ h with closed := fun _ => ⟨0, rfl⟩, parts := ⟨done ++ [p], rest, hall, hhanded, nofun, nofun⟩ }, ?_⟩
            exact fun hn => absurd (hn.symm.trans hc) nofun
          case isFalse =>
            have hadv : ∀ h' : List (List β × Int), { s with handed := h', rData := s.rData + p.length, pc := .loop }.data =
                s.data.drop p.length := fun _ => data_advance p.length
            have hlen := h.length_data
            refine ⟨{ h with le := ?_, closed := fun hc => absurd hfd (by simp [show s.fd = false from hc]), parts := ?_ },
              fun _ => ⟨hfd, .inr ⟨rfl, ?_⟩⟩⟩
            · change s.rData + p.length ≤ s.rTail
              omega
            · refine ⟨done ++ [p], rest, hall, hhanded, fun _ => ?_, fun _ hne => absurd rfl hne⟩
              rw [hadv]
              exact hrest
            · rw [hadv, List.length_drop]
              omega

end Loop

/-- There is part of a packet in the buffer: fewer bytes than the largest packet has. -/
theorem length_data_lt (hs : IsStream cfg chk ps) (h : Reads cfg ps s) (hfd : s.fd) (hpc : s.pc ≠ .loop) :
    s.data.length < cfg.maxPktSize := by
  obtain ⟨done, rest, hp⟩ := h.parts
  cases rest with
  | nil =>
    have hnil : s.data = [] := List.append_eq_nil_iff.1 (hp.data hfd) |>.1
    rw [hnil]
    exact hs.pos
  | cons p rest =>
    have hlt := hp.part hfd hpc p rfl
    have hle := hs.framing.size p (hp.all ▸ List.mem_append_right _ (List.mem_cons_self ..))
    omega

/-- `__iofd_better_move_buffer` and the move; after it there is room to read. -/
theorem move (hs : IsStream cfg chk ps) (h : Reads cfg ps s) (hfd : s.fd) (hpc : s.pc = .read) :
    ∃ t, (if s.betterMoveBuffer cfg then s.moveBuffer else s) = t ∧ Reads cfg ps t ∧ t.fd ∧ t.pc = .read ∧
      t.rTail < cfg.buffSize := by
  have hlen := h.length_data
  have hlt := h.length_data_lt hs hfd (by simp [hpc])
  have htail := h.tail
  have hbuf : cfg.buffSize = cfg.maxPktSize * 2 := by rw [StreamCfg.buffSize, hs.chkPkt]; rfl
  have htail' : s.rTail ≤ s.buf.length := by rw [h.size]; exact htail
  split
  case isTrue =>
    obtain ⟨done, rest, hp⟩ := h.parts
    have hdata := data_moveBuffer htail'
    refine ⟨s.moveBuffer, rfl, { h with size := ?_, le := Nat.zero_le _, tail := ?_, parts := ?_ }, hfd, hpc, ?_⟩
    · rw [length_moveBuffer htail', h.size]
    · exact Nat.le_trans (Nat.sub_le ..) htail
    · refine ⟨done, rest, hp.all, hp.handed, fun hfd => ?_, fun hfd hpc => ?_⟩
      · rw [hdata]
        exact hp.data hfd
      · rw [hdata]
        exact hp.part hfd hpc
    · change s.rTail - s.rData < cfg.buffSize
      have := hs.pos
      omega
  case isFalse hmove =>
    refine ⟨s, rfl, h, hfd, hpc, ?_⟩
    have hroom : ¬ cfg.maxPktSize * 2 - s.rTail < 1024 := fun hlt => hmove (by simp [betterMoveBuffer, hlt])
    omega

theorem fill (h : Reads cfg ps s) (hfd : s.fd) {bytes : List β} (hpre : bytes <+: s.input)
    (hle : s.rTail + bytes.length ≤ cfg.maxPktSize * 2) : Reads cfg ps (s.fill bytes) := by
  obtain ⟨done, rest, hp⟩ := h.parts
  have htail : s.rTail ≤ s.buf.length := by rw [h.size]; exact h.tail
  refine { h with size := ?_, le := ?_, tail := hle, closed := fun hc => ?_,
                  parts := ⟨done, rest, hp.all, hp.handed, fun hfd => ?_, fun _ hne => absurd rfl hne⟩ }
  · rw [length_fill (by rw [h.size]; exact hle), h.size]
  · exact Nat.le_trans h.le (Nat.le_add_right ..)
  · exact absurd hfd (by simp [show s.fd = false from hc])
  · rw [data_fill h.le htail, List.append_assoc]
    have hinput : bytes ++ s.input.drop bytes.length = s.input := by
      obtain ⟨more, hmore⟩ := hpre
      rw [← hmore, List.drop_left]
    change s.data ++ (bytes ++ s.input.drop bytes.length) = _
    rw [hinput]
    exact hp.data hfd

theorem read (hs : IsStream cfg chk ps) (h : Reads cfg ps s) (hfd : s.fd) (hpc : s.pc = .read) {res : ReadRes}
    (hres : (StreamAct.read res).Streams) : Reads cfg ps (s.read cfg res) ∧ (s.read cfg res).fd := by
  obtain ⟨t, ht, h, hfd, hpc, hroom⟩ := h.move hs hfd hpc
  have hask : Reads cfg ps { t with asked := t.asked ++ [cfg.buffSize - t.rTail] } := by
    obtain ⟨done, rest, hp⟩ := h.parts
    refine { h with asked := fun n hn => ?_, parts := ⟨done, rest, hp.all, hp.handed, hp.data, hp.part⟩ }
    rcases List.mem_append.1 hn with hn | hn
    · exact h.asked n hn
    · rw [List.mem_singleton.1 hn]
      omega
  have hret : Reads cfg ps { t with asked := t.asked ++ [cfg.buffSize - t.rTail], pc := .ret 0 } := by
    obtain ⟨done, rest, hp⟩ := hask.parts
    exact { hask with closed := fun _ => ⟨0, rfl⟩,
                      parts := ⟨done, rest, hp.all, hp.handed, hp.data, fun hfd _ => hp.part hfd (by simp [hpc])⟩ }
  rw [StreamSt.read, ht]
  cases res with
  | eof => exact absurd hres not_false
  | fail err =>
    obtain rfl : err = -eagain := hres
    exact ⟨hret, hfd⟩
  | ready n =>
    simp only [readF]
    rw [if_neg (by omega)]
    split
    case isTrue => exact ⟨hret, hfd⟩
    case isFalse =>
      have hbuf : cfg.buffSize = cfg.maxPktSize * 2 := by rw [StreamCfg.buffSize, hs.chkPkt]; rfl
      refine ⟨hask.fill hfd (List.take_prefix ..) ?_, hfd⟩
      have hmin := Nat.min_le_right n (cfg.buffSize - t.rTail)
      have hlen := List.length_take_le (min n (cfg.buffSize - t.rTail)) t.input
      change t.rTail + _ ≤ _
      omega

theorem step (hs : IsStream cfg chk ps) (h : Reads cfg ps s) {a : StreamAct} (ha : a.Streams)
    (hstep : s.step cfg a = some s') : Reads cfg ps s' ∧ (a.Keeps → s.fd → s'.fd) := by
  have hopen : (∀ err, s.pc ≠ .ret err) → s.fd := by
    intro hpc
    by_contra hfd
    obtain ⟨err, he⟩ := h.closed (by simpa using hfd)
    exact hpc err he
  cases a with
  | event =>
    simp only [StreamSt.step] at hstep
    split at hstep
    case h_1 =>
      split at hstep
      case isTrue hfd =>
        obtain rfl := Option.some.inj hstep
        obtain ⟨done, rest, hp⟩ := h.parts
        refine ⟨{ h with closed := fun hc => ?_, parts := ⟨done, rest, hp.all, hp.handed, hp.data, ?_⟩ }, fun _ _ => hfd⟩
        · exact absurd hfd (by simp [show s.fd = false from hc])
        · exact fun _ hne => absurd rfl hne
      case isFalse => cases hstep
    case h_2 => cases hstep
  | loop closer =>
    simp only [StreamSt.step] at hstep
    split at hstep
    case isTrue hpc =>
      obtain rfl := Option.some.inj hstep
      obtain ⟨h', hk⟩ := h.loop closer hs (hopen (by simp [hpc]))
      exact ⟨h', fun hkeep _ => (hk hkeep).1⟩
    case isFalse => cases hstep
  | read res =>
    simp only [StreamSt.step] at hstep
    split at hstep
    case isTrue hpc =>
      obtain rfl := Option.some.inj hstep
      obtain ⟨h', hfd⟩ := h.read hs (hopen (by simp [hpc])) hpc ha
      exact ⟨h', fun _ _ => hfd⟩
    case isFalse => cases hstep

theorem loop_ends (hs : IsStream cfg chk ps) (h : Reads cfg ps s) (hfd : s.fd) (hpc : s.pc = .loop) :
    ∃ n s', n ≤ s.data.length + 1 ∧ exec (StreamSt.step cfg) s (List.replicate n (.loop none)) = some s' ∧
      s'.pc = .read := by
  generalize hm : s.data.length = m
  induction m using Nat.strongRecOn generalizing s with
  | ind m ih =>
    have hstep : s.step cfg (.loop none) = some (s.loop cfg none) := by rw [StreamSt.step, if_pos hpc]
    obtain ⟨h', hk⟩ := h.loop none hs hfd
    obtain ⟨hfd', hread | ⟨hloop, hlt⟩⟩ := hk rfl
    · exact ⟨1, _, by omega, by rw [List.replicate_one, exec_cons, hstep]; rfl, hread⟩
    · obtain ⟨n, s', hn, hexec, hread⟩ := ih _ (hm ▸ hlt) h' hfd' hloop rfl
      refine ⟨n + 1, s', by omega, ?_, hread⟩
      rw [List.replicate_succ, exec_cons, hstep]
      exact hexec

end Reads

variable {mem : List β} {as : List StreamAct}

theorem reads_init (hmem : mem.length = cfg.maxPktSize * 2) (hne : ∀ p ∈ ps, p ≠ []) :
    Reads cfg ps (init mem ps.flatten) := by
  refine ⟨hmem, Nat.le_refl _, Nat.zero_le _, nofun, rfl, nofun, [], ps, rfl, rfl, fun _ => rfl, fun _ _ p hp => ?_⟩
  change 0 < p.length
  exact List.length_pos_iff.2 (hne p (List.mem_of_mem_head? hp))

theorem run_reads (hs : IsStream cfg chk ps) (h : Reads cfg ps s) (hstream : ∀ a ∈ as, a.Streams)
    (hrun : exec (step cfg) s as = some s') : Reads cfg ps s' ∧ ((∀ a ∈ as, a.Keeps) → s.fd → s'.fd) := by
  induction as generalizing s with
  | nil =>
    obtain rfl := Option.some.inj hrun
    exact ⟨h, fun _ hfd => hfd⟩
  | cons a as ih =>
    rw [exec_cons, Option.bind_eq_some_iff] at hrun
    obtain ⟨t, ht, hrun⟩ := hrun
    obtain ⟨h', hfd⟩ := h.step hs (hstream a (List.mem_cons_self ..)) ht
    obtain ⟨h'', hfd'⟩ := ih h' (fun b hb => hstream b (List.mem_cons_of_mem _ hb)) hrun
    refine ⟨h'', fun hk hopen => ?_⟩
    exact hfd' (fun b hb => hk b (List.mem_cons_of_mem _ hb)) (hfd (hk a (List.mem_cons_self ..)) hopen)

theorem isStream_of_addFd {maxPktSize : Nat} (hadd : StreamCfg.addFd maxPktSize (some chk) none = some cfg)
    (hf : Framing chk cfg.maxPktSize ps) : IsStream cfg chk ps ∧ cfg.buffSize = cfg.maxPktSize * 2 := by
  unfold StreamCfg.addFd at hadd
  split at hadd
  · cases hadd
  case isFalse hsize =>
    obtain rfl := Option.some.inj hadd
    have hmin : 1024 ≤ maxPktSize := Nat.not_lt.1 fun hlt => hsize (.inl ⟨rfl, hlt⟩)
    refine ⟨⟨rfl, rfl, ?_, hf⟩, rfl⟩
    change 0 < (maxPktSize + 7) / 8 * 8
    omega

/-- Whatever pieces the stream arrives in, over any number of events: the offsets stay in the buffer, `read_f` is called
for one byte at least, and what is handed out are the first packets of the stream. If no callback closes the fd, these
are all the packets that `read_f` has returned in full whenever `__iofd_read_data` is not running, so all of them once
the stream is read; and the inner loop always ends. -/
theorem stream_reassembled {maxPktSize : Nat} (hadd : StreamCfg.addFd maxPktSize (some chk) none = some cfg)
    (hmem : mem.length = cfg.buffSize) (hf : Framing chk cfg.maxPktSize ps) (hstream : ∀ a ∈ as, a.Streams)
    (hrun : run cfg mem ps.flatten as = some s) :
    (s.rData ≤ s.rTail ∧ s.rTail ≤ cfg.maxPktSize * 2) ∧ (∀ n ∈ s.asked, 0 < n) ∧ s.handed <+: ps.map packet ∧
    ((∀ a ∈ as, a.Keeps) → s.fd ∧
      (∃ done rest, ps = done ++ rest ∧ s.handed = done.map packet ∧ s.data ++ s.input = rest.flatten ∧
        (s.pc ≠ .loop → ∀ p ∈ rest.head?, s.data.length < p.length)) ∧
      (s.input = [] → s.pc ≠ .loop → s.handed = ps.map packet) ∧
      (s.pc = .loop → ∃ n s', n ≤ s.data.length + 1 ∧
        exec (step cfg) s (List.replicate n (.loop none)) = some s' ∧ s'.pc = .read)) := by
  obtain ⟨hs, hbuf⟩ := isStream_of_addFd hadd hf
  have h0 : Reads cfg ps (init mem ps.flatten) := reads_init (hmem.trans hbuf) hf.nonempty
  obtain ⟨h, hfd⟩ := run_reads hs h0 hstream hrun
  obtain ⟨done, rest, hp⟩ := h.parts
  refine ⟨⟨h.le, h.tail⟩, h.asked, ⟨rest.map packet, ?_⟩, fun hkeep => ?_⟩
  · rw [hp.handed, hp.all, List.map_append]
  · have hfd := hfd hkeep rfl
    refine ⟨hfd, ⟨done, rest, hp.all, hp.handed, hp.data hfd, hp.part hfd⟩, fun hin hpc => ?_, h.loop_ends hs hfd⟩
    cases rest with
    | nil => rw [hp.handed, hp.all, List.append_nil]
    | cons p rest =>
      have hlt := hp.part hfd hpc p rfl
      have hlen : s.data.length = p.length + rest.flatten.length := by
        rw [← List.append_nil s.data, ← hin, hp.data hfd, List.flatten_cons, List.length_append]
      omega

/-- A framing like that of `mpq_tcp_check_packet`: the first byte is the length of the packet. -/
def checkLength (data : List Nat) : Int := match data with
  | [] => 0
  | n :: _ => if data.length < n then 0 else n

theorem framing_checkLength {maxPktSize : Nat} {ps : List (List Nat)} (hhead : ∀ p ∈ ps, p.head? = some p.length)
    (hsize : ∀ p ∈ ps, p.length ≤ maxPktSize) : Framing checkLength maxPktSize ps := by
  refine ⟨fun p hp => ?_, hsize, fun p rest data hsuffix hprefix hdata => ?_⟩
  · rintro rfl
    exact absurd (hhead [] hp) nofun
  · have hp := hhead p (hsuffix.subset (List.mem_cons_self ..))
    obtain ⟨more, hmore⟩ := hprefix
    cases data with
    | nil => exact absurd rfl hdata
    | cons n data =>
      cases p with
      | nil => cases hp
      | cons m p =>
        have hm : m = (m :: p).length := Option.some.inj hp
        obtain ⟨hn, -⟩ := List.cons.inj (hmore : n :: (data ++ more) = m :: _)
        rw [checkLength, hn, ← hm]

/-- Two packets in three pieces, with nothing ready in between. -/
def piecesRun : List StreamAct :=
  [.event, .loop none, .read (.ready 1), .loop none, .read (.ready 0), .event, .loop none, .read (.ready 3), .loop none,
    .loop none, .read (.fail (-eagain)), .event, .loop none, .read (.ready 9), .loop none, .loop none, .read (.ready 1)]

theorem stream_reassembled_piecesRun :
    StreamCfg.addFd 1024 (some checkLength) none = some ⟨1024, some checkLength, none⟩ ∧
    ∃ s, run ⟨1024, some checkLength, none⟩ (List.replicate 2048 0) [[2, 7], [3, 1, 2]].flatten piecesRun = some s ∧
      s.handed = [[2, 7], [3, 1, 2]].map packet ∧ ∀ n ∈ s.asked, 0 < n := by
  have hany : (run ⟨1024, some checkLength, none⟩ (List.replicate 2048 0) [[2, 7], [3, 1, 2]].flatten piecesRun).any
      (fun s => decide (s.input = [] ∧ s.pc = .ret 0)) = true := by decide +kernel
  obtain ⟨s, hs, hd⟩ := (Option.any_eq_true ..).1 hany
  obtain ⟨hin, hpc⟩ := of_decide_eq_true hd
  have hkeep : ∀ a ∈ piecesRun, a.Streams ∧ a.Keeps := by
    simp [piecesRun, StreamAct.Streams, StreamAct.Keeps]
  have hf : Framing checkLength 1024 [[2, 7], [3, 1, 2]] := framing_checkLength (by decide) (by decide)
  have hadd : StreamCfg.addFd 1024 (some checkLength) none = some ⟨1024, some checkLength, none⟩ := rfl
  have hmem : (List.replicate 2048 0).length = (⟨1024, some checkLength, none⟩ : StreamCfg Nat).buffSize :=
    List.length_replicate
  obtain ⟨-, hasked, -, h⟩ := stream_reassembled hadd hmem hf (fun a ha => (hkeep a ha).1) hs
  exact ⟨hadd, s, hs, (h fun a ha => (hkeep a ha).2).2.2.1 hin (by simp [hpc]), hasked⟩

end StreamSt

end Aosl
