import Aosl.StreamRun

/-!
# What is reported as the end of a stream

A result 0 of `read_f` is the end of the stream. `__iofd_better_move_buffer` makes room for 1024 bytes whenever it can;
it cannot when the bytes from `r_data` on fill the buffer, as `chk_pkt_f` has not found the end of a packet in them.
Then `read_f` is called for 0 bytes.
-/

namespace Aosl
open Lib

/-- `zero` is the length of the call of `read_f` that has last returned 0. -/
structure EofSt (β : Type) where
  st : StreamSt β
  zero : Option Nat

namespace ReadRes

/-- `read_f`, called for `room` bytes, returns 0. -/
def isZero (room : Nat) : ReadRes → Bool
  | ready _ => room == 0
  | eof => true
  | fail _ => false

end ReadRes

namespace EofSt

variable {β : Type} (cfg : StreamCfg β)

def init (mem input : List β) : EofSt β := ⟨StreamSt.init mem input, none⟩

/-- The length of the last call of `read_f`, if that has returned 0. -/
def zeroOf (zero : Option Nat) (asked : List Nat) : StreamAct → Option Nat
  | .read res => if asked.getLast?.any res.isZero then asked.getLast? else zero
  | _ => zero

def step (s : EofSt β) (a : StreamAct) : Option (EofSt β) :=
  (s.st.step cfg a).map fun st => ⟨st, zeroOf s.zero st.asked a⟩

/-- `read_f` was called for one byte at least, and has returned 0. -/
def Ended (s : EofSt β) : Prop := ∃ n, s.zero = some n ∧ 0 < n

structure Truthful (s : EofSt β) : Prop where
  flag : s.st.readReturn0 = true → s.Ended
  handed : ∀ c ∈ s.st.handed, c.2 = 0 → s.Ended

/-- When `read_f` is called and does not fail, the bytes in the buffer do not fill it. -/
def HasRoom (s : EofSt β) : StreamAct → Prop
  | .read (.ready _) | .read .eof => s.st.pc = .read → s.st.data.length < cfg.buffSize
  | _ => True

end EofSt

/-- A stream iofd: `chk_pkt_f` is given, and nothing is done between it and `data_f`. -/
structure StreamIofd {β : Type} (cfg : StreamCfg β) (chk : List β → Int) : Prop where
  chkPkt : cfg.chkPkt = some chk
  post : cfg.post = none
  size : cfg.buffSize = cfg.maxPktSize * 2
  pos : 0 < cfg.maxPktSize

theorem streamIofd_of_addFd {β : Type} {cfg : StreamCfg β} {chk : List β → Int} {maxPktSize : Nat}
    (hadd : StreamCfg.addFd maxPktSize (some chk) none = some cfg) : StreamIofd cfg chk := by
  unfold StreamCfg.addFd at hadd
  split at hadd
  · cases hadd
  case isFalse hsize =>
    obtain rfl := Option.some.inj hadd
    have hmin : 1024 ≤ maxPktSize := Nat.not_lt.1 fun hlt => hsize (.inl ⟨rfl, hlt⟩)
    refine ⟨rfl, rfl, rfl, ?_⟩
    show 0 < (maxPktSize + 7) / 8 * 8
    omega

namespace StreamSt

variable {β : Type} {cfg : StreamCfg β} {s s' : StreamSt β} {chk : List β → Int}

/-- The offsets are in the buffer, and after a result 0 of `read_f` it is not called again. -/
structure InBuf (cfg : StreamCfg β) (s : StreamSt β) : Prop where
  size : s.buf.length = cfg.buffSize
  le : s.rData ≤ s.rTail
  tail : s.rTail ≤ cfg.buffSize
  flag : s.readReturn0 = true → s.pc ≠ .read

/-- A round of the inner loop hands out something of length 0 only after a result 0 of `read_f`. -/
structure Rounds (cfg : StreamCfg β) (s s' : StreamSt β) : Prop where
  inBuf : s'.InBuf cfg
  flag : s'.readReturn0 = s.readReturn0
  handed : ∀ c ∈ s'.handed, c ∈ s.handed ∨ (c.2 = 0 → s.readReturn0 = true)

theorem InBuf.close (h : s.InBuf cfg) (ret : Int) : Rounds cfg s (s.close ret) :=
  ⟨{ h with flag := fun _ => StreamPc.noConfusion }, rfl, fun _ hc => .inl hc⟩

theorem InBuf.handle (h : s.InBuf cfg) (hs : StreamIofd cfg chk) {n : Nat} (hn : n ≤ s.rTail - s.rData) :
    Rounds cfg s (s.handle cfg closer n) := by
  have hend : ∀ t : StreamSt β, t.buf = s.buf → t.rData ≤ t.rTail → t.rTail = s.rTail →
      t.readReturn0 = s.readReturn0 → (∀ c ∈ t.handed, c ∈ s.handed ∨ (c.2 = 0 → s.readReturn0 = true)) →
      Rounds cfg s (t.endRound cfg n) := by
    intro t hbuf hle htail hflag hhanded
    have hsome : cfg.chkPkt.isSome := by rw [hs.chkPkt]; rfl
    unfold endRound
    split
    case isTrue => exact ⟨⟨hbuf ▸ h.size, hle, htail ▸ h.tail, fun _ => StreamPc.noConfusion⟩, hflag, hhanded⟩
    case isFalse hf =>
      split
      · exact ⟨⟨hbuf ▸ h.size, hle, htail ▸ h.tail, fun hc => absurd hc hf⟩, hflag, hhanded⟩
      · exact ⟨⟨hbuf ▸ h.size, hle, htail ▸ h.tail, fun _ => StreamPc.noConfusion⟩, hflag, hhanded⟩
  unfold StreamSt.handle
  split
  case isFalse => exact hend s rfl h.le rfl rfl fun c hc => .inl hc
  case isTrue hcall =>
    have hlen : s.dataLen cfg n = n := by rw [dataLen, hs.post]
    have hdata : s.dataF n = { s with handed := s.handed ++ [((s.buf.drop s.rData).take n, (n : Int))] } := by
      rw [dataF, if_pos (by omega), Int.toNat_natCast]
    have hhanded : ∀ c ∈ s.handed ++ [((s.buf.drop s.rData).take n, (n : Int))],
        c ∈ s.handed ∨ (c.2 = 0 → s.readReturn0 = true) := by
      intro c hc
      rcases List.mem_append.1 hc with hc | hc
      · exact .inl hc
      · rw [List.mem_singleton.1 hc]
        refine .inr fun h0 => hcall.resolve_left ?_
        rw [show (n : Int) = 0 from h0]
        exact Int.lt_irrefl 0
    rw [if_neg (by simp [hs.post]), hlen, hdata]
    split
    case isTrue => exact ⟨{ h with flag := fun _ => StreamPc.noConfusion }, rfl, hhanded⟩
    case isFalse =>
      refine hend _ rfl ?_ rfl rfl hhanded
      show s.rData + n ≤ s.rTail
      have := h.le
      omega

theorem InBuf.loop (h : s.InBuf cfg) (hs : StreamIofd cfg chk) (closer : Option StreamCb) :
    Rounds cfg s (s.loop cfg closer) := by
  have hle := h.le
  unfold StreamSt.loop
  rw [hs.chkPkt]
  dsimp only
  split
  case isTrue hlen =>
    have hzero : (s.rTail : Int) - s.rData = (0 : Nat) := by omega
    rw [hzero]
    exact h.handle hs (Nat.zero_le _)
  case isFalse hlen =>
    split
    case isTrue => exact h.close 0
    case isFalse =>
      split
      case isTrue => exact ⟨{ h with flag := fun _ => StreamPc.noConfusion }, rfl, fun _ hc => .inl hc⟩
      case isFalse hneg =>
        split
        case isTrue => exact ⟨{ h with flag := fun _ => StreamPc.noConfusion }, rfl, fun _ hc => .inl hc⟩
        case isFalse hbig =>
          obtain ⟨n, hn⟩ := Int.eq_ofNat_of_zero_le (Int.not_lt.1 hneg)
          rw [hn] at hbig ⊢
          exact h.handle hs (by omega)

/-- The state in which `read_f` is called. -/
def compacted (cfg : StreamCfg β) (s : StreamSt β) : StreamSt β := if s.betterMoveBuffer cfg then s.moveBuffer else s

/-- After the move there is room unless the data fill the buffer. -/
theorem InBuf.compacted (h : s.InBuf cfg) (hs : StreamIofd cfg chk) : (s.compacted cfg).InBuf cfg ∧
    (s.compacted cfg).readReturn0 = s.readReturn0 ∧ (s.compacted cfg).handed = s.handed ∧
    (0 < cfg.buffSize - (s.compacted cfg).rTail ↔ s.data.length < cfg.buffSize) := by
  have hle := h.le
  have htail := h.tail
  have hsize := hs.size
  have htail' : s.rTail ≤ s.buf.length := by rw [h.size]; exact htail
  have hlen := StreamSt.length_data htail'
  unfold StreamSt.compacted
  split
  case isTrue =>
    refine ⟨⟨?_, Nat.zero_le _, ?_, h.flag⟩, rfl, rfl, ?_⟩
    · rw [length_moveBuffer htail', h.size]
    · exact Nat.le_trans (Nat.sub_le ..) htail
    · show 0 < cfg.buffSize - (s.rTail - s.rData) ↔ _
      omega
  case isFalse hmove =>
    refine ⟨h, rfl, rfl, iff_of_true ?_ ?_⟩
    all_goals
      have hroom : ¬cfg.maxPktSize * 2 - s.rTail < 1024 := fun hlt => hmove (by simp [betterMoveBuffer, hlt])
      omega

/-- What a call of `read_f` does to the flag. -/
theorem InBuf.read (h : s.InBuf cfg) (hs : StreamIofd cfg chk) (hflag : s.readReturn0 = false) (res : ReadRes) :
    (s.read cfg res).InBuf cfg ∧ (s.read cfg res).handed = s.handed ∧
    (s.read cfg res).asked.getLast? = some (cfg.buffSize - (s.compacted cfg).rTail) ∧
    (s.read cfg res).readReturn0 = res.isZero (cfg.buffSize - (s.compacted cfg).rTail) := by
  obtain ⟨hin, hflag', hhanded, -⟩ := h.compacted hs
  rw [hflag] at hflag'
  have hread : s.read cfg res = { s.compacted cfg with
      asked := (s.compacted cfg).asked ++ [cfg.buffSize - (s.compacted cfg).rTail] }.readF
        (cfg.buffSize - (s.compacted cfg).rTail) res := rfl
  generalize s.compacted cfg = t at *
  rw [hread]
  have hlast : (t.asked ++ [cfg.buffSize - t.rTail]).getLast? = some (cfg.buffSize - t.rTail) := List.getLast?_concat
  cases res with
  | eof => exact ⟨{ hin with flag := fun _ => StreamPc.noConfusion }, hhanded, hlast, rfl⟩
  | fail err =>
    rw [readF]
    split
    · exact ⟨{ hin with flag := fun _ => StreamPc.noConfusion }, hhanded, hlast, hflag'⟩
    · exact ⟨{ hin with flag := fun _ => StreamPc.noConfusion }, hhanded, hlast, hflag'⟩
  | ready n =>
    rw [readF]
    split
    case isTrue hroom =>
      refine ⟨{ hin with flag := fun _ => StreamPc.noConfusion }, hhanded, hlast, ?_⟩
      rw [ReadRes.isZero, hroom]
      rfl
    case isFalse hroom =>
      have hzero : (ReadRes.ready n).isZero (cfg.buffSize - t.rTail) = false := beq_eq_false_iff_ne.2 hroom
      rw [hzero]
      split
      case isTrue => exact ⟨{ hin with flag := fun _ => StreamPc.noConfusion }, hhanded, hlast, hflag'⟩
      case isFalse =>
        have hmin := Nat.min_le_right n (cfg.buffSize - t.rTail)
        have hlen := List.length_take_le (min n (cfg.buffSize - t.rTail)) t.input
        have htail := hin.tail
        have hle := hin.le
        have hsize := hin.size
        have hfill : t.rTail + (t.input.take (min n (cfg.buffSize - t.rTail))).length ≤ cfg.buffSize := by omega
        refine ⟨⟨?_, ?_, hfill, fun _ => StreamPc.noConfusion⟩, hhanded, hlast, hflag'⟩
        · rw [length_fill]
          · exact hsize
          · exact Nat.le_trans hfill (Nat.le_of_eq hsize.symm)
        · exact Nat.le_trans hle (Nat.le_add_right ..)

end StreamSt

namespace EofSt

variable {β : Type} {cfg : StreamCfg β} {s s' : EofSt β} {chk : List β → Int} {a : StreamAct}

/-- A step reports the truth exactly if `read_f` has room, or fails. -/
theorem step_iff (hs : StreamIofd cfg chk) (h : s.st.InBuf cfg) (hstep : s.step cfg a = some s') :
    s'.st.InBuf cfg ∧ (s.Truthful → (s'.Truthful ↔ s.HasRoom cfg a)) := by
  obtain ⟨st, hst, rfl⟩ := Option.map_eq_some_iff.1 hstep
  cases a with
  | event =>
    rw [StreamSt.step] at hst
    split at hst
    · split at hst
      · obtain rfl := Option.some.inj hst
        exact ⟨{ h with flag := fun _ => StreamPc.noConfusion }, fun ht => iff_of_true ⟨ht.flag, ht.handed⟩ trivial⟩
      · cases hst
    · cases hst
  | loop closer =>
    rw [StreamSt.step] at hst
    split at hst
    · obtain rfl := Option.some.inj hst
      obtain ⟨hin, hflag, hhanded⟩ := h.loop hs closer
      refine ⟨hin, fun ht => iff_of_true ⟨fun hf => ht.flag (hflag ▸ hf), fun c hc h0 => ?_⟩ trivial⟩
      rcases hhanded c hc with hc | hc
      · exact ht.handed c hc h0
      · exact ht.flag (hc h0)
    · cases hst
  | read res =>
    rw [StreamSt.step] at hst
    split at hst
    case isFalse => cases hst
    case isTrue hpc =>
      obtain rfl := Option.some.inj hst
      have hflag : s.st.readReturn0 = false := eq_false_of_ne_true fun hf => h.flag hf hpc
      obtain ⟨hin, hhanded, hlast, hflag'⟩ := h.read hs hflag res
      obtain ⟨-, -, -, hroom⟩ := h.compacted hs
      refine ⟨hin, fun ht => ?_⟩
      generalize cfg.buffSize - (s.st.compacted cfg).rTail = room at hlast hflag' hroom
      have hzero : zeroOf s.zero (s.st.read cfg res).asked (.read res) =
          if res.isZero room then some room else s.zero := by
        rw [zeroOf, hlast]
        rfl
      have hasroom : s.HasRoom cfg (.read res) ↔ (res.isZero room = true → 0 < room) := by
        cases res with
        | ready n =>
          rw [hroom, ReadRes.isZero, beq_iff_eq]
          refine ⟨fun hr _ => hr hpc, fun hr _ => ?_⟩
          rcases Nat.eq_zero_or_pos room with h0 | h0
          · exact hr h0
          · exact hroom.1 h0
        | eof =>
          rw [hroom]
          exact ⟨fun hr _ => hr hpc, fun hr _ => hr rfl⟩
        | fail err => exact iff_of_true trivial fun h0 => absurd h0 Bool.false_ne_true
      rw [hasroom]
      cases hz : res.isZero room with
      | false =>
        rw [hz] at hflag' hzero
        refine iff_of_true ⟨fun hf => absurd (hflag'.symm.trans hf) Bool.false_ne_true, fun c hc h0 => ?_⟩
          fun h0 => absurd h0 Bool.false_ne_true
        rw [Ended, hzero]
        exact ht.handed c (hhanded ▸ hc) h0
      | true =>
        rw [hz] at hflag' hzero
        constructor
        · intro ht' _
          obtain ⟨n, hn, hpos⟩ := ht'.flag hflag'
          have hn : zeroOf s.zero (s.st.read cfg res).asked (.read res) = some n := hn
          rw [hzero] at hn
          exact Option.some.inj hn ▸ hpos
        · intro hpos
          have hended : EofSt.Ended ⟨s.st.read cfg res, zeroOf s.zero (s.st.read cfg res).asked (.read res)⟩ :=
            ⟨room, hzero, hpos rfl⟩
          exact ⟨fun _ => hended, fun _ _ _ => hended⟩

theorem inBuf_init {mem input : List β} (hmem : mem.length = cfg.buffSize) : (init mem input).st.InBuf cfg :=
  ⟨hmem, Nat.le_refl 0, Nat.zero_le _, nofun⟩

theorem truthful_init (mem input : List β) : (init mem input).Truthful := ⟨nofun, nofun⟩

/-- For every stream iofd, every stream and every way it arrives: the end of the stream is reported only when `read_f`
has told so, along the whole run, if and only if the data never fill the buffer when `read_f` is called. -/
theorem eof_truthful_iff {maxPktSize : Nat} {mem input : List β} (as : List StreamAct)
    (hadd : StreamCfg.addFd maxPktSize (some chk) none = some cfg) (hmem : mem.length = cfg.buffSize) :
    (∀ bs s', bs <+: as → exec (step cfg) (init mem input) bs = some s' → s'.Truthful) ↔
      Along (step cfg) (HasRoom cfg) (init mem input) as := by
  have hs := streamIofd_of_addFd hadd
  refine along_iff_forall_reached (I := fun s => s.st.InBuf cfg) (fun s a s' h hstep => (step_iff hs h hstep).1)
    (fun s a s' h ht hstep => (step_iff hs h hstep).2 ht) (fun s a _ hstep => ?_) (inBuf_init hmem)
    (truthful_init mem input)
  have hread : ∀ res, s.step cfg (.read res) = none → s.st.pc ≠ .read := by
    intro res hnone hpc
    rw [step, StreamSt.step, if_pos hpc] at hnone
    cases hnone
  cases a with
  | event => trivial
  | loop closer => trivial
  | read res => cases res with
    | ready n => exact fun hpc => absurd hpc (hread _ hstep)
    | eof => exact fun hpc => absurd hpc (hread _ hstep)
    | fail err => trivial

instance (s : EofSt β) : ∀ a, Decidable (s.HasRoom cfg a)
  | .read (.ready _) | .read .eof => inferInstanceAs (Decidable (s.st.pc = .read → s.st.data.length < cfg.buffSize))
  | .event | .loop _ | .read (.fail _) => .isTrue trivial

/-- A packet of more than 2048 bytes, which fill the buffer. -/
def fullRun : List StreamAct :=
  [.event, .loop none, .read (.ready 2048), .loop none, .read (.ready 1), .loop none]

/-- Packets that arrive in pieces, and then the end of the stream. -/
theorem eof_truthful_iff_piecesRun :
    StreamCfg.addFd 1024 (some StreamSt.checkLength) none = some ⟨1024, some StreamSt.checkLength, none⟩ ∧
    ∀ bs s', bs <+: StreamSt.piecesRun ++ [.event, .loop none, .read .eof, .loop none] →
      exec (step ⟨1024, some StreamSt.checkLength, none⟩) (init (List.replicate 2048 0) [2, 7, 3, 1, 2]) bs = some s' →
        s'.Truthful := by
  have hok : Along (step ⟨1024, some StreamSt.checkLength, none⟩) (HasRoom ⟨1024, some StreamSt.checkLength, none⟩)
      (init (List.replicate 2048 0) [2, 7, 3, 1, 2])
      (StreamSt.piecesRun ++ [.event, .loop none, .read .eof, .loop none]) := by decide +kernel
  have hadd : StreamCfg.addFd 1024 (some StreamSt.checkLength) none =
      some ⟨1024, some StreamSt.checkLength, none⟩ := rfl
  have hmem : (List.replicate 2048 0).length = (⟨1024, some StreamSt.checkLength, none⟩ : StreamCfg Nat).buffSize :=
    List.length_replicate
  exact ⟨hadd, (eof_truthful_iff _ hadd hmem).2 hok⟩

/-- `chk_pkt_f` says that the packet is not complete, the peer sends more, and `data_f` is told that the stream has
ended. -/
theorem not_eof_truthful :
    StreamCfg.addFd 1024 (some fun _ => 0) none = some (⟨1024, some fun _ => 0, none⟩ : StreamCfg Nat) ∧
    ∃ s, exec (step ⟨1024, some fun _ => 0, none⟩) (init (List.replicate 2048 0) (List.replicate 3000 7)) fullRun =
        some s ∧
      s.st.input.length = 952 ∧ s.st.handed = [([], 0)] ∧ ¬s.Truthful := by
  have hany : (exec (step ⟨1024, some fun _ => 0, none⟩) (init (List.replicate 2048 0) (List.replicate 3000 7))
      fullRun).any (fun s => decide (s.st.input.length = 952 ∧ s.st.handed = [([], 0)] ∧ s.zero = some 0)) = true := by
    decide +kernel
  obtain ⟨s, hs, hd⟩ := (Option.any_eq_true ..).1 hany
  obtain ⟨hinput, hhanded, hzero⟩ := of_decide_eq_true hd
  refine ⟨rfl, s, hs, hinput, hhanded, fun ht => ?_⟩
  obtain ⟨n, hn, hpos⟩ := ht.handed ([], 0) (by rw [hhanded]; exact List.mem_singleton_self _) rfl
  rw [hzero] at hn
  exact Nat.lt_irrefl 0 (Option.some.inj hn ▸ hpos)

end EofSt

end Aosl
