import Aosl.Listen

/-!
# A listening socket over whole runs

The loop of `__iofd_read_data` calls accept until it fails, and `__default_accept` turns every failure into
`-AOSL_EHAL`, which is not `-AOSL_EAGAIN`: when accept finds no connection pending, `f_event_and_close` closes
the listening socket. `OneInv` says what holds of a listening socket up to that call and after it; the loop is
followed position by position (`Stage`).
-/

namespace Aosl
open Lib

namespace Listener

/-- The buffer holds `n` connections. -/
structure Buff (l : Listener) (rLen n : Nat) : Prop where
  data : l.rData.length = n
  len : rLen = n * acceptDataSize

/-- Where the thread can be with a listening socket while accept has found connections only, and what the buffer
holds there. -/
def Stage (l : Listener) (rLen : Nat) : IoPc → Prop
  | .run .out _ m => l.Buff rLen 0 ∧ m = .readable
  | .run .inn _ m => l.Buff rLen 0 ∧ m = .readable
  | .run .read _ _ => l.Buff rLen 0 ∨ l.Buff rLen 1
  | .run (.post err) _ _ => err = rLen ∧ (l.Buff rLen 0 ∨ l.Buff rLen 1)
  | .run (.data err dataLen) _ _ => err = rLen ∧ dataLen = err ∧ l.Buff rLen 1
  | .call (.data err) _ _ => err = rLen ∧ l.Buff rLen 1
  | .run (.rest _) _ _ => l.Buff rLen 0
  | .run .fill _ _ => l.Buff rLen 0
  | .call .read _ _ => l.Buff rLen 0
  | _ => False

/-- The steps of the thread until `accepted_f` is called, as long as accept finds connections. -/
def ahead (l : Listener) : IoPc → Nat
  | .run .out _ _ => 10
  | .run .inn _ _ => 9
  | .run .read _ _ => if l.rData = [] then 8 else 3
  | .run (.post _) _ _ => if l.rData = [] then 7 else 2
  | .run (.data _ _) _ _ => 1
  | .call (.data _) _ _ => 10
  | .run (.rest err) _ _ => if err = 0 then 6 else 9
  | .run .fill _ _ => 5
  | .call .read _ _ => 4
  | _ => 0

theorem ahead_le (l : Listener) (pc : IoPc) : l.ahead pc ≤ 10 := by
  unfold ahead
  split <;> first | omega | (split_ifs <;> omega)

theorem stage_congr {l l' : Listener} {rLen : Nat} {pc : IoPc} (h : l'.rData = l.rData) :
    l'.Stage rLen pc ↔ l.Stage rLen pc := by
  have hbuff : ∀ r n, l'.Buff r n ↔ l.Buff r n := by
    intro r n
    constructor
    · exact fun hb => ⟨h ▸ hb.data, hb.len⟩
    · exact fun hb => ⟨h ▸ hb.data, hb.len⟩
  unfold Stage
  simp only [hbuff]

theorem Buff.nil {l : Listener} {rLen : Nat} (h : l.Buff rLen 0) : l.rData = [] := List.eq_nil_of_length_eq_zero h.data

theorem Buff.rLen {l : Listener} {rLen : Nat} (h : l.Buff rLen 0) : rLen = 0 := by
  rw [h.len, Nat.zero_mul]

theorem Buff.one {l : Listener} {rLen : Nat} (h : l.Buff rLen 1) : ∃ c, l.rData = [c] ∧ rLen = acceptDataSize := by
  obtain ⟨c, hc⟩ := List.length_eq_one_iff.1 h.data
  exact ⟨c, hc, by rw [h.len, Nat.one_mul]⟩

end Listener

namespace ListenSt

open Listener IoSt

variable {s s' : ListenSt} {f : Nat} {l l' : Listener}

/-- What registers a listening socket and stays as it is. -/
structure Plain (o : Iofd) (qid : Nat) : Prop where
  q : o.q = qid
  timer : o.timer = false
  hasChkPkt : o.hasChkPkt = false
  hasPost : o.hasPost = false
  readReturn0 : o.readReturn0 = false

structure OneInv (s : ListenSt) (f : Nat) (l : Listener) : Prop where
  lt : f < s.io.size
  plain : Plain (s.io.obj f) s.io.qid
  order : l.handed ++ s.waiting f l ++ l.backlog = l.arrived
  registered : l.missed = 0 → s.io.Registered f
  stage : l.missed = 0 → s.io.pc.cur = some f → l.Stage (s.io.obj f).rLen s.io.pc
  empty : l.missed = 0 → s.io.pc.cur ≠ some f → l.Buff (s.io.obj f).rLen 0
  closing : l.missed ≠ 0 → s.io.pc.cur = some f → s.io.pc.closing = true
  gone : l.missed ≠ 0 → s.io.pc.cur ≠ some f → ∀ n, s.io.attached n ≠ some f

theorem waiting_of_ne (h : s.io.pc.cur ≠ some f) : s.waiting f l = l.rData := by
  unfold waiting
  split
  · next g _ hpc =>
    rw [hpc] at h
    exact if_neg fun hg => h (congrArg some hg)
  · rfl

theorem waiting_congr (h : s'.io.pc = s.io.pc) (hl : l'.rData = l.rData) : s'.waiting f l' = s.waiting f l := by
  unfold waiting
  rw [h, hl]

theorem Plain.frame {io io' : IoSt} (h : Plain (io.obj f) io.qid) (hf : Frame io io' f) : Plain (io'.obj f) io'.qid := by
  obtain ⟨a, b, w, ho⟩ := hf.obj
  rw [ho, hf.qid]
  exact ⟨h.q, h.timer, h.hasChkPkt, h.hasPost, h.readReturn0⟩

theorem rLen_frame {io io' : IoSt} (hf : Frame io io' f) : (io'.obj f).rLen = (io.obj f).rLen := by
  obtain ⟨a, b, w, ho⟩ := hf.obj
  rw [ho]

/-- A step that does not concern the listening socket. -/
theorem OneInv.frame (h : s.OneInv f l) {a : IoAct} (hf : Frame s.io s'.io f) (hc : s.io.Comes s'.io f a)
    (hmask : ∀ e rest, a = .go → s.io.pc = .next → s.io.batch = e :: rest → s.io.attached e.fd = some f → e.mask = .readable) :
    s'.OneInv f l := by
  have hlt : f < s'.io.size := Nat.lt_of_lt_of_le h.lt hf.size
  have hplain := h.plain.frame hf
  have hreg : l.missed = 0 → s'.io.Registered f := fun hm => (h.registered hm).frame hf
  have hrlen := rLen_frame hf
  rcases hc with hpc | ⟨hcur, hcur'⟩ | ⟨e, rest, ha, hpc, hbatch, hatt, hs'⟩
  · refine ⟨hlt, hplain, ?_, hreg, ?_, ?_, ?_, ?_⟩
    · rw [waiting_congr hpc rfl]
      exact h.order
    · rw [hpc, hrlen]
      exact h.stage
    · rw [hpc, hrlen]
      exact h.empty
    · rw [hpc]
      exact h.closing
    · rw [hpc]
      intro hm hcur n
      rw [Ne, hf.attached]
      exact h.gone hm hcur n
  · refine ⟨hlt, hplain, ?_, hreg, fun _ h' => absurd h' hcur', ?_, fun _ h' => absurd h' hcur', ?_⟩
    · rw [waiting_of_ne hcur', ← waiting_of_ne hcur]
      exact h.order
    · intro hm _
      rw [hrlen]
      exact h.empty hm hcur
    · intro hm _ n
      rw [Ne, hf.attached]
      exact h.gone hm hcur n
  · have hcur : s.io.pc.cur ≠ some f := by
      rw [hpc]
      exact nofun
    have hm : l.missed = 0 := by
      by_contra hm
      exact h.gone hm hcur e.fd hatt
    have hread := hmask e rest ha hpc hbatch hatt
    have hpc' : s'.io.pc = .run .out f .readable := by
      rw [hs']
      simp only [dispatch, hbatch, hatt, hread]
      rfl
    refine ⟨hlt, hplain, ?_, hreg, ?_, ?_, fun hm' => absurd hm hm', fun hm' => absurd hm hm'⟩
    · rw [waiting, hpc', ← waiting_of_ne hcur]
      exact h.order
    · intro _ _
      rw [hpc', hrlen]
      exact ⟨h.empty hm hcur, rfl⟩
    · intro _ hne
      rw [hpc'] at hne
      exact absurd rfl hne

theorem OneInv.move (h : s.OneInv f l) (hm : l.missed = 0) (hsize : s'.io.size = s.io.size) (hqid : s'.io.qid = s.io.qid)
    (hatt : s'.io.attached = s.io.attached)
    (hobj : ∃ r p, s'.io.obj f = { s.io.obj f with rLen := r, pollIn := p }) (hm' : l'.missed = 0)
    (hcur : s'.io.pc.cur = some f) (hstage : l'.Stage (s'.io.obj f).rLen s'.io.pc)
    (horder : l'.handed ++ s'.waiting f l' ++ l'.backlog = l'.arrived) : s'.OneInv f l' := by
  obtain ⟨r, p, hobj⟩ := hobj
  refine ⟨hsize ▸ h.lt, ?_, horder, fun _ => ?_, fun _ _ => hstage, fun _ h' => absurd hcur h', fun h' => absurd hm' h',
    fun h' => absurd hm' h'⟩
  · have hplain := h.plain
    rw [hobj, hqid]
    exact ⟨hplain.q, hplain.timer, hplain.hasChkPkt, hplain.hasPost, hplain.readReturn0⟩
  · obtain ⟨fd, hfd, ha, hlist⟩ := h.registered hm
    refine ⟨fd, ?_, hatt ▸ ha, ?_⟩
    · rw [hobj]
      exact hfd
    · rw [hobj]
      exact hlist

/-- The thread goes on, and the buffer stays as it is. -/
theorem OneInv.goto {pos : IoPos} {m : EventMask} (h : s.OneInv f l) (hm : l.missed = 0)
    (hpc : ∀ err g m, s.io.pc ≠ .call (.data err) g m) (hs' : s'.io = s.io.goto pos f m)
    (hstage : l.Stage (s.io.obj f).rLen (.run pos f m)) : s'.OneInv f l := by
  have hwait : s.waiting f l = l.rData := by
    unfold waiting
    split
    · next err g m hpc' => exact absurd hpc' (hpc err g m)
    · rfl
  apply h.move hm
  · rw [hs']
    rfl
  · rw [hs']
    rfl
  · rw [hs']
    rfl
  · exact ⟨(s.io.obj f).rLen, (s.io.obj f).pollIn, by rw [hs']; rfl⟩
  · exact hm
  · rw [hs']
    rfl
  · rw [hs']
    exact hstage
  · have horder := h.order
    rw [hwait] at horder
    rw [waiting, hs']
    exact horder

/-- The thread works on the listening socket: it comes nearer to the next call of `accepted_f`. -/
structure Progress (s s' : ListenSt) (f : Nat) (l l' : Listener) (n : Nat) : Prop where
  cur : s'.io.pc.cur = some f
  near : 10 * l.handed.length + l'.ahead s'.io.pc + n ≤ 10 * l'.handed.length + l.ahead s.io.pc

theorem Progress.of_pc (hcur : s'.io.pc.cur = some f) (hl : l'.handed = l.handed)
    (hahead : l'.ahead s'.io.pc + 1 ≤ l.ahead s.io.pc) : Progress s s' f l l' 1 := by
  refine ⟨hcur, ?_⟩
  rw [hl]
  omega

/-- The code between two calls, up to an accept that finds no connection. -/
theorem OneInv.goRun {pos : IoPos} {m : EventMask} (h : s.OneInv f l) (hm : l.missed = 0)
    (hpc : s.io.pc = .run pos f m) (hs' : s'.io = s.io.runPos f m pos) (hl' : l' = l.goPos pos) :
    s'.OneInv f l' ∧ Progress s s' f l l' 1 := by
  have hstage := h.stage hm (by rw [hpc]; rfl)
  have hplain := h.plain
  have hnc : ∀ err g m, s.io.pc ≠ .call (.data err) g m := by
    intro err g m hpc'
    rw [hpc] at hpc'
    cases hpc'
  rw [hpc] at hstage
  rcases pos with _ | _ | _ | _ | err | ⟨err, dataLen⟩ | err | _ | _ | t
  case out =>
    obtain ⟨hbuff, rfl⟩ := hstage
    subst hl'
    have hio : s'.io = s.io.goto .inn f .readable := hs'
    refine ⟨h.goto hm hnc hio ⟨hbuff, rfl⟩, .of_pc (by rw [hio]; rfl) rfl ?_⟩
    rw [hio, hpc]
    exact Nat.le_refl _
  case inn =>
    obtain ⟨hbuff, rfl⟩ := hstage
    subst hl'
    have hio : s'.io = s.io.goto .read f .readable := hs'
    refine ⟨h.goto hm hnc hio (.inl hbuff), .of_pc (by rw [hio]; rfl) rfl ?_⟩
    rw [hio, hpc]
    simp [ahead, IoSt.goto, hbuff.nil]
  case read =>
    subst hl'
    have hio : s'.io = s.io.goto (.post (s.io.obj f).rLen) f m := by
      rw [hs', runPos, hplain.hasChkPkt]
      rfl
    refine ⟨h.goto hm hnc hio ⟨rfl, hstage⟩, .of_pc (by rw [hio]; rfl) rfl ?_⟩
    rw [hio, hpc]
    simp only [ahead, IoSt.goto]
    split_ifs
    · omega
    · omega
  case post =>
    obtain ⟨rfl, hbuff | hbuff⟩ := hstage
    · subst hl'
      have hio : s'.io = s.io.goto (.rest 0) f m := by
        rw [hs', runPos, hbuff.rLen, hplain.readReturn0]
        rfl
      refine ⟨h.goto hm hnc hio hbuff, .of_pc (by rw [hio]; rfl) rfl ?_⟩
      rw [hio, hpc]
      simp [ahead, IoSt.goto, hbuff.nil]
    · subst hl'
      obtain ⟨c, hdata, hlen⟩ := hbuff.one
      have hio : s'.io = s.io.goto (.data (s.io.obj f).rLen (s.io.obj f).rLen) f m := by
        rw [hs', runPos, hlen, hplain.hasPost]
        rfl
      refine ⟨h.goto hm hnc hio ⟨rfl, rfl, hbuff⟩, .of_pc (by rw [hio]; rfl) rfl ?_⟩
      rw [hio, hpc]
      simp [ahead, IoSt.goto, hdata]
  case data =>
    -- `accepted_f` is called
    obtain ⟨rfl, rfl, hbuff⟩ := hstage
    rw [goPos, if_pos (Int.natCast_nonneg _)] at hl'
    subst hl'
    obtain ⟨c, hdata, hlen⟩ := hbuff.one
    have hio : s'.io = s.io.invoke (.data (s.io.obj f).rLen) f m := by
      rw [hs', runPos, if_pos (Int.natCast_nonneg _)]
    have horder := h.order
    rw [waiting, hpc, hdata] at horder
    refine ⟨h.move hm ?_ ?_ ?_ ?_ hm ?_ ?_ ?_, ⟨?_, ?_⟩⟩
    · rw [hio]
      rfl
    · rw [hio]
      rfl
    · rw [hio]
      rfl
    · exact ⟨(s.io.obj f).rLen, (s.io.obj f).pollIn, by rw [hio]; rfl⟩
    · rw [hio]
      rfl
    · rw [hio]
      exact ⟨rfl, hbuff.data, hbuff.len⟩
    · rw [waiting, hio]
      simpa [IoSt.invoke, hand, hdata] using horder
    · rw [hio]
      rfl
    · rw [hio, hpc]
      simp only [ahead, IoSt.invoke, hand, hdata, List.length_append, List.take_succ_cons, List.take_zero,
        List.length_singleton]
      omega
  case rest =>
    subst hl'
    by_cases herr : err = 0
    · have hio : s'.io = s.io.goto .fill f m := by
        rw [hs', runPos, hplain.readReturn0, if_neg Bool.false_ne_true, if_pos herr]
      refine ⟨h.goto hm hnc hio hstage, .of_pc (by rw [hio]; rfl) rfl ?_⟩
      rw [hio, hpc]
      simp [ahead, IoSt.goto, herr]
    · have hio : s'.io = s.io.goto .read f m := by
        rw [hs', runPos, hplain.readReturn0, if_neg Bool.false_ne_true, if_neg herr]
      have hnil : l'.rData = [] := Buff.nil hstage
      refine ⟨h.goto hm hnc hio (.inl hstage), .of_pc (by rw [hio]; rfl) rfl ?_⟩
      rw [hio, hpc]
      simp [ahead, IoSt.goto, herr, hnil]
  case fill =>
    subst hl'
    have hio : s'.io = s.io.invoke .read f m := hs'
    have horder := h.order
    rw [waiting, hpc] at horder
    refine ⟨h.move hm ?_ ?_ ?_ ?_ hm ?_ ?_ ?_, .of_pc ?_ rfl ?_⟩
    · rw [hio]
      rfl
    · rw [hio]
      rfl
    · rw [hio]
      rfl
    · exact ⟨(s.io.obj f).rLen, (s.io.obj f).pollIn, by rw [hio]; rfl⟩
    · rw [hio]
      rfl
    · rw [hio]
      exact hstage
    · rw [waiting, hio]
      exact horder
    · rw [hio]
      rfl
    · rw [hio, hpc]
      exact Nat.le_refl _
  all_goals exact hstage.elim

/-- `accepted_f` returns. -/
theorem OneInv.retData {err : Nat} {m : EventMask} {v : Int} (h : s.OneInv f l) (hm : l.missed = 0)
    (hpc : s.io.pc = .call (.data err) f m) (hs' : s'.io = s.io.retCall f m v (.data err)) :
    s'.OneInv f l.advance ∧ Progress s s' f l l.advance 1 := by
  obtain ⟨fd, hfd, -, -⟩ := h.registered hm
  have hstage := h.stage hm (by rw [hpc]; rfl)
  rw [hpc] at hstage
  obtain ⟨rfl, hbuff⟩ := hstage
  obtain ⟨c, hdata, hlen⟩ := hbuff.one
  have horder := h.order
  rw [waiting, hpc, hdata] at horder
  have hio : s'.io = (s.io.modify f fun o => { o with rLen := o.rLen - (s.io.obj f).rLen }).goto
      (.rest (s.io.obj f).rLen) f m := by
    rw [hs', retCall, hfd]
    rfl
  have hobj : s'.io.obj f = { s.io.obj f with rLen := 0 } := by
    rw [hio]
    simp only [IoSt.goto]
    rw [modify_self, Nat.sub_self]
  refine ⟨h.move hm ?_ ?_ ?_ ?_ hm ?_ ?_ ?_, .of_pc ?_ rfl ?_⟩
  · rw [hio]
    rfl
  · rw [hio]
    rfl
  · rw [hio]
    rfl
  · exact ⟨0, (s.io.obj f).pollIn, hobj⟩
  · rw [hio]
    rfl
  · rw [hobj, hio]
    refine ⟨?_, (Nat.zero_mul _).symm⟩
    simp [advance, hdata]
  · rw [waiting, hio]
    simpa [IoSt.goto, advance, hdata] using horder
  · rw [hio]
    rfl
  · rw [hio, hpc]
    simp [ahead, IoSt.goto, hlen, acceptDataSize]

/-- Accept returns a connection, or it fails and the listening socket is about to be closed. -/
theorem OneInv.accept {m : EventMask} (h : s.OneInv f l) (hpc : s.io.pc = .call .read f m)
    (hs' : s'.io = s.io.retCall f m l.defaultAccept.2 .read) : s'.OneInv f l.defaultAccept.1 ∧
      (l.defaultAccept.1.missed = 0 → l.missed = 0 ∧ Progress s s' f l l.defaultAccept.1 1) := by
  have hcur : s.io.pc.cur = some f := by
    rw [hpc]
    rfl
  have hm : l.missed = 0 := by
    by_contra hm
    have hclosing := h.closing hm hcur
    rw [hpc] at hclosing
    cases hclosing
  obtain ⟨fd, hfd, hatt, hlist⟩ := h.registered hm
  have hbuff := h.stage hm hcur
  rw [hpc] at hbuff
  have horder := h.order
  rw [waiting, hpc] at horder
  have hplain := h.plain
  rcases hb : l.backlog with _ | ⟨c, rest⟩
  · have hacc : l.defaultAccept = ({ l with missed := l.missed + 1 }, -2000) := by
      rw [defaultAccept, hb]
      rfl
    rw [hacc] at hs' ⊢
    have hio : s'.io = (s.io.modify f fun o => { o with pollIn := true }).eventAndClose f m false := hs'
    have hobj : s'.io.obj f = { s.io.obj f with pollIn := true } := by
      rw [hio, eventAndClose_obj, modify_self]
    have hpc' : s'.io.pc.cur = some f ∧ s'.io.pc.closing = true := by
      rw [hio, eventAndClose, modify_self, if_pos (by rw [hfd]; rfl)]
      split_ifs
      · exact ⟨rfl, rfl⟩
      · exact ⟨rfl, rfl⟩
    have hmiss : ({ l with missed := l.missed + 1 } : Listener).missed ≠ 0 := Nat.succ_ne_zero _
    refine ⟨⟨?_, ?_, ?_, fun h' => absurd h' hmiss, fun h' => absurd h' hmiss, fun h' => absurd h' hmiss,
      fun _ _ => hpc'.2, fun _ h' => absurd hpc'.1 h'⟩, fun h' => absurd h' hmiss⟩
    · rw [hio, (tunes_eventAndClose ⟨rfl, rfl, rfl, rfl, id, id, id⟩ false).size]
      exact h.lt
    · rw [hobj, hio, (tunes_eventAndClose ⟨rfl, rfl, rfl, rfl, id, id, id⟩ false).qid]
      exact ⟨hplain.q, hplain.timer, hplain.hasChkPkt, hplain.hasPost, hplain.readReturn0⟩
    · have hwait : s'.waiting f { l with missed := l.missed + 1 } = l.rData := by
        unfold waiting
        split
        · next hpc'' =>
          rw [hpc''] at hpc'
          cases hpc'.2
        · rfl
      rw [hwait]
      exact horder
  · have hacc : l.defaultAccept = ({ l with backlog := rest, rData := l.rData ++ [c] }, 32) := by
      rw [defaultAccept, hb]
      rfl
    rw [hacc] at hs' ⊢
    have hio : s'.io = ((s.io.modify f fun o => { o with pollIn := true }).modify f fun o =>
        { o with rLen := o.rLen + 32 }).goto .read f m := hs'
    have hobj : s'.io.obj f = { s.io.obj f with pollIn := true, rLen := 32 } := by
      rw [hio]
      simp only [IoSt.goto]
      rw [modify_self, modify_self, Buff.rLen hbuff]
    have hnil : l.rData = [] := Buff.nil hbuff
    refine ⟨h.move hm ?_ ?_ ?_ ⟨32, true, hobj⟩ hm ?_ ?_ ?_, fun _ => ⟨hm, .of_pc ?_ rfl ?_⟩⟩
    · rw [hio]
      rfl
    · rw [hio]
      rfl
    · rw [hio]
      rfl
    · rw [hio]
      rfl
    · rw [hobj, hio]
      right
      constructor
      · simp [hnil]
      · rfl
    · rw [waiting, hio]
      simpa [IoSt.goto, hb] using horder
    · rw [hio]
      rfl
    · rw [hio, hpc]
      simp [ahead, IoSt.goto]

/-- The listening socket is about to be closed, and it may have been closed or deleted by `event_f`. -/
theorem OneInv.late (h : s.OneInv f l) (hm : l.missed ≠ 0) (hcur : s.io.pc.cur = some f) (hsize : s'.io.size = s.io.size)
    (hqid : s'.io.qid = s.io.qid) (hobj : Plain (s'.io.obj f) s.io.qid) (hclosing : s'.io.pc.closing = true)
    (hcur' : s'.io.pc.cur = some f) : s'.OneInv f l := by
  have hwait : ∀ s : ListenSt, s.io.pc.closing = true → s.waiting f l = l.rData := by
    intro s hs
    unfold waiting
    split
    · next hpc =>
      rw [hpc] at hs
      cases hs
    · rfl
  refine ⟨hsize ▸ h.lt, hqid ▸ hobj, ?_, fun h' => absurd h' hm, fun h' => absurd h' hm, fun h' => absurd h' hm,
    fun _ _ => hclosing, fun _ h' => absurd hcur' h'⟩
  rw [hwait s' hclosing, ← hwait s (h.closing hm hcur)]
  exact h.order

theorem Plain.removes {io io' : IoSt} (h : Plain (io.obj f) io.qid) (hr : Removes io io' f) :
    Plain (io'.obj f) io.qid := by
  obtain ⟨li, d, ho | ho⟩ := hr.self
  · rw [ho]
    exact ⟨h.q, rfl, h.hasChkPkt, h.hasPost, h.readReturn0⟩
  · rw [ho]
    exact h

/-- `f_event_and_close` removes the listening socket, if `event_f` has not done it. -/
theorem OneInv.goClose {t : Bool} {m : EventMask} (h : s.OneInv f l) (hm : l.missed ≠ 0) (hreg : RegInv s.io)
    (hpc : s.io.pc = .run (.close t) f m) (hs' : s'.io = s.io.runPos f m (.close t)) : s'.OneInv f l := by
  have hwait : s.waiting f l = l.rData := by
    rw [waiting, hpc]
  have horder := h.order
  rw [hwait] at horder
  have hcur' : s'.io.pc.cur = none := by
    rw [hs', runPos]
    split_ifs
    · exact leave_cur _ t
    · exact leave_cur _ t
  have hne : s'.io.pc.cur ≠ some f := by
    rw [hcur']
    exact fun h => by cases h
  have hr := removes_thisQCloseF s.io s.io.qid f true
  refine ⟨?_, ?_, ?_, fun h' => absurd h' hm, fun h' => absurd h' hm, fun h' => absurd h' hm,
    fun _ h' => absurd h' hne, fun _ _ n => ?_⟩
  · rw [hs', runPos]
    split_ifs
    · rw [leave, hr.size]
      exact h.lt
    · exact h.lt
  · rw [hs', runPos]
    split_ifs
    · have hplain := h.plain.removes hr
      rw [leave, hr.qid]
      exact hplain
    · exact h.plain
  · rw [waiting_of_ne hne]
    exact horder
  · rw [hs', runPos]
    split_ifs with hfd
    · exact hreg.gone_thisQCloseF h.plain.q n
    · intro hatt
      rw [(hreg n f hatt).1] at hfd
      exact hfd rfl

theorem modify_lst_self (s : ListenSt) (g : Listener → Listener) : (s.modify f g).lst f = (s.lst f).map g := if_pos rfl

theorem modify_lst_ne (s : ListenSt) {i : Nat} (g : Listener → Listener) (h : f ≠ i) : (s.modify i g).lst f = s.lst f :=
  if_neg h

theorem track_lst {a : IoAct} (hw : ¬ s.io.worksOn f a) : (s.track a).lst f = s.lst f := by
  have hne : ∀ g, s.io.pc.cur = some g → (a = .go ∨ ∃ v, a = .ret v) → f ≠ g := by
    rintro g hg ha rfl
    exact hw ⟨hg, ha⟩
  rcases a with _ | _ | _ | v | _
  · rfl
  · rfl
  · simp only [track]
    split
    · next hpc => exact modify_lst_ne _ _ (hne _ (by rw [hpc]; rfl) (.inl rfl))
    · rfl
  · simp only [track]
    split
    · next hpc => exact modify_lst_ne _ _ (hne _ (by rw [hpc]; rfl) (.inr ⟨v, rfl⟩))
    · rfl
  · rfl

/-- A listening socket after a step; while the thread works on it and accept finds connections, it comes nearer to the
next call of `accepted_f`. -/
def After (s s' : ListenSt) (f : Nat) (l : Listener) (n : Nat) : Prop :=
  ∃ l', s'.lst f = some l' ∧ s'.OneInv f l' ∧
    (l'.missed = 0 → l.missed = 0) ∧ (s.io.pc.cur = some f → l'.missed = 0 → Progress s s' f l l' n)

theorem OneInv.run {pos : IoPos} {m : EventMask} (h : s.OneInv f l) (hreg : RegInv s.io) (hf : s.lst f = some l)
    (hpc : s.io.pc = .run pos f m) (hio : s'.io = s.io.runPos f m pos) (hlst : s'.lst = (s.track .go).lst) :
    s.After s' f l 1 := by
  have hl : s'.lst f = some (l.goPos pos) := by
    rw [hlst, track, hpc]
    dsimp only
    rw [modify_lst_self, hf]
    rfl
  refine ⟨_, hl, ?_⟩
  by_cases hm : l.missed = 0
  · obtain ⟨hone, hprog⟩ := h.goRun hm hpc hio rfl
    exact ⟨hone, fun _ => hm, fun _ _ => hprog⟩
  · have hclosing := h.closing hm (by rw [hpc]; rfl)
    rw [hpc] at hclosing
    rcases pos
    case close t => exact ⟨h.goClose hm hreg hpc hio, id, fun _ hm' => absurd hm' hm⟩
    all_goals cases hclosing

theorem OneInv.ret {site : CallSite} {m : EventMask} {v : Int} (h : s.OneInv f l) (hf : s.lst f = some l)
    (hpc : s.io.pc = .call site f m) (hsite : site ≠ .read) (hio : s'.io = s.io.retCall f m v site)
    (hlst : s'.lst = (s.track (.ret v)).lst) : s.After s' f l 1 := by
  have hl : s'.lst f = some (l.retSite (s.io.obj f).fd.isNone site) := by
    rw [hlst, track, hpc]
    dsimp only
    rw [modify_lst_self, hf]
    rfl
  have hcur : s.io.pc.cur = some f := by
    rw [hpc]
    rfl
  by_cases hm : l.missed = 0
  · have hstage := h.stage hm hcur
    rw [hpc] at hstage
    rcases site
    case data err =>
      obtain ⟨fd, hfd, -, -⟩ := h.registered hm
      rw [hfd] at hl
      obtain ⟨hone, hprog⟩ := h.retData hm hpc hio
      exact ⟨_, hl, hone, fun _ => hm, fun _ _ => hprog⟩
    case read => exact absurd rfl hsite
    all_goals exact hstage.elim
  · have hclosing := h.closing hm hcur
    rw [hpc] at hclosing
    rcases site
    case error t =>
      refine ⟨_, hl, ?_, id, fun _ hm' => absurd hm' hm⟩
      have hio' : s'.io = s.io.goto (.close t) f m := hio
      apply h.late hm hcur
      · rw [hio']
        rfl
      · rw [hio']
        rfl
      · rw [hio']
        exact h.plain
      · rw [hio']
        rfl
      · rw [hio']
        rfl
    all_goals cases hclosing

/-- `event_f` closes or deletes the listening socket. -/
theorem OneInv.removed {o : IoOp} {n : Nat} (h : s.OneInv f l) (hrem : removesFd n (.op o) = true)
    (hn : s.io.attached n = some f) (hok : s.allowed (.op o) = true) (hf : s.lst f = some l)
    (hio : s'.io = s.io.doOp o) : s'.OneInv f l ∧ l.missed ≠ 0 := by
  have hmay : s.mayRemove n = true := by
    rcases o with ⟨fd, ok⟩ | fd | _ | _
    · rw [← of_decide_eq_true hrem]
      exact hok
    · rw [← of_decide_eq_true hrem]
      exact hok
    · cases hrem
    · cases hrem
  have hpc : ∃ t m, s.io.pc = .call (.error t) f m := by
    simp only [mayRemove, hn, Option.all_some, listening, hf, Option.isSome_some, Bool.not_true, Bool.false_or] at hmay
    split at hmay
    · next t g m hpc =>
      rw [of_decide_eq_true hmay] at hpc
      exact ⟨t, m, hpc⟩
    · cases hmay
  obtain ⟨t, m, hpc⟩ := hpc
  have hcur : s.io.pc.cur = some f := by
    rw [hpc]
    rfl
  have hm : l.missed ≠ 0 := by
    intro hm
    have hstage := h.stage hm hcur
    rw [hpc] at hstage
    exact hstage
  refine ⟨?_, hm⟩
  have hremoves : ∀ r : IoSt × Bool, Removes s.io r.1 f → s'.io = removal f r → s'.OneInv f l := by
    intro r hr hs'
    have hr' : s'.io.size = s.io.size ∧ s'.io.qid = s.io.qid ∧ s'.io.obj = r.1.obj ∧ s'.io.pc = s.io.pc := by
      rw [hs', removal]
      split_ifs
      · exact ⟨hr.size, hr.qid, rfl, hr.pc⟩
      · exact ⟨hr.size, hr.qid, rfl, hr.pc⟩
    obtain ⟨hsize, hqid, hobj, hpc'⟩ := hr'
    apply h.late hm hcur hsize hqid
    · rw [hobj]
      exact h.plain.removes hr
    · rw [hpc', hpc]
      rfl
    · rw [hpc', hpc]
      rfl
  rcases o with ⟨fd, ok⟩ | fd | _ | _
  · obtain rfl := of_decide_eq_true hrem
    rw [doOp, hn] at hio
    exact hremoves _ (removes_thisQCloseF ..) hio
  · obtain rfl := of_decide_eq_true hrem
    rw [doOp, hn] at hio
    exact hremoves _ (removes_qDelF ..) hio
  · cases hrem
  · cases hrem

theorem Progress.zero (hio : s'.io.pc = s.io.pc) (hcur : s.io.pc.cur = some f) (hh : l'.handed = l.handed)
    (hd : l'.rData = l.rData) : Progress s s' f l l' 0 := by
  refine ⟨by rw [hio]; exact hcur, ?_⟩
  have hahead : l'.ahead s.io.pc = l.ahead s.io.pc := by
    unfold ahead
    rw [hd]
  rw [hio, hh, hahead]
  omega

theorem OneInv.other {a : IoAct} (h : s.OneInv f l) (hreg : RegInv s.io) (hio : s.io.step a = some s'.io)
    (hwork : ¬ s.io.worksOn f a) (hclose : s.io.CloseOk f a)
    (hmask : ∀ e rest, a = .go → s.io.pc = .next → s.io.batch = e :: rest → s.io.attached e.fd = some f →
      e.mask = .readable)
    (hrem : ∀ n, removesFd n a = true → s.io.attached n ≠ some f) (hf : s'.lst f = some l) : s.After s' f l 0 := by
  have htimer : a ≠ .timeout f := by
    rintro rfl
    have ht := timer_of_step hio
    rw [h.plain.timer] at ht
    cases ht
  obtain ⟨hframe, hcomes⟩ := frame_step hio hreg h.lt hwork htimer hclose hrem
  refine ⟨l, hf, h.frame hframe hcomes hmask, id, fun hcur _ => ?_⟩
  rcases hcomes with hpc | ⟨hne, -⟩ | ⟨e, rest, -, hpc, -⟩
  · exact .zero hpc hcur rfl rfl
  · exact absurd hcur hne
  · rw [hpc] at hcur
    cases hcur

theorem closeOk_of_allowed {a : IoAct} (hok : s.allowed a = true) (hf : s.lst f = some l) : s.io.CloseOk f a := by
  rintro t g m n rfl hpc hg hn
  simpa [allowed, hpc, hg, hn, listening, hf] using hok

theorem mask_of_allowed {a : IoAct} {e : IoEvent} {rest : List IoEvent} (hok : s.allowed a = true)
    (hf : s.lst f = some l) (ha : a = .go) (hpc : s.io.pc = .next) (hb : s.io.batch = e :: rest)
    (he : s.io.attached e.fd = some f) : e.mask = .readable := by
  subst ha
  simpa [allowed, hpc, hb, he, listening, hf] using hok

/-- A step of the queue. -/
theorem OneInv.io {a : IoAct} {io : IoSt} (h : s.OneInv f l) (hreg : RegInv s.io) (hok : s.allowed a = true)
    (hf : s.lst f = some l) (hio : s.io.step a = some io) :
    s.After { s.track a with io } f l (if (ListenAct.io a).isThread then 1 else 0) := by
  by_cases hwork : s.io.worksOn f a
  · obtain ⟨hcur, ha⟩ := hwork
    cases does_of_step hio with
    | wait => simp at ha
    | late => simp at ha
    | ready => simp at ha
    | dispatch hpc =>
      rw [hpc] at hcur
      cases hcur
    | run hpc =>
      rw [hpc] at hcur
      cases hcur
      exact h.run hreg hf hpc rfl rfl
    | ret hpc =>
      rw [hpc] at hcur
      cases hcur
      refine h.ret hf hpc ?_ rfl rfl
      rintro rfl
      simp [allowed, hpc, listening, hf] at hok
    | op => simp at ha
  · have hl : ({ s.track a with io } : ListenSt).lst f = some l := (track_lst hwork).trans hf
    by_cases hrem : ∃ n, removesFd n a = true ∧ s.io.attached n = some f
    · obtain ⟨n, hrem, hn⟩ := hrem
      cases does_of_step hio with
      | @op o =>
        have hone : ({ s.track (.op o) with io := s.io.doOp o } : ListenSt).OneInv f l ∧ l.missed ≠ 0 :=
          h.removed hrem hn hok hf rfl
        obtain ⟨hone, hm⟩ := hone
        exact ⟨l, hl, hone, id, fun _ hm' => absurd hm' hm⟩
      | _ => cases hrem
    · have hother : s.After { s.track a with io } f l 0 := h.other hreg hio hwork (closeOk_of_allowed hok hf)
        (fun _ _ => mask_of_allowed hok hf) (fun n hr hn => hrem ⟨n, hr, hn⟩) hl
      obtain ⟨l', hl', hone, hmiss, hprog⟩ := hother
      refine ⟨l', hl', hone, hmiss, fun hcur hm => ?_⟩
      have hthread : (ListenAct.io a).isThread = false := by
        rcases a with _ | _ | _ | v | _
        · rfl
        · rfl
        · exact absurd ⟨hcur, .inl rfl⟩ hwork
        · exact absurd ⟨hcur, .inr ⟨v, rfl⟩⟩ hwork
        · rfl
      rw [hthread]
      exact hprog hcur hm

/-- The invariant of a run. -/
structure ListenInv (s : ListenSt) : Prop where
  reg : RegInv s.io
  cur : ∀ f, s.io.pc.cur = some f → f < s.io.size
  each : ∀ f l, s.lst f = some l → s.OneInv f l

/-- A step of the run, for a listening socket that exists. -/
theorem ListenInv.after {a : ListenAct} (h : s.ListenInv) (hs : s.step a = some s') (hf : s.lst f = some l) :
    s.After s' f l (if a.isThread then 1 else 0) := by
  have hone := h.each f l hf
  rcases a with ⟨fd, hasEvent⟩ | ⟨g, c⟩ | _ | a
  · obtain ⟨io, hio, rfl⟩ := Option.map_eq_some_iff.1 hs
    have hadd : ∀ s' : ListenSt, s'.io = io → s'.lst f = some l → s.After s' f l 0 := by
      rintro s' rfl hl
      refine hone.other h.reg hio ?_ (fun _ _ _ _ h => by cases h) (fun _ _ h => by cases h) (fun _ h => by cases h) hl
      rintro ⟨-, ha | ⟨v, ha⟩⟩
      · cases ha
      · cases ha
    change s.After _ f l 0
    split_ifs
    · exact hadd _ rfl hf
    · exact hadd _ rfl ((if_neg (Nat.ne_of_lt hone.lt)).trans hf)
  · cases hs
    by_cases hfg : f = g
    · subst hfg
      refine ⟨l.arrive c, ?_, ?_, id, fun hcur _ => .zero rfl hcur rfl rfl⟩
      · rw [modify_lst_self, hf]
        rfl
      · refine ⟨hone.lt, hone.plain, ?_, hone.registered, ?_, ?_, hone.closing, hone.gone⟩
        · have hwait : (s.modify f (·.arrive c)).waiting f (l.arrive c) = s.waiting f l := waiting_congr rfl rfl
          rw [hwait]
          change _ ++ (l.backlog ++ [c]) = l.arrived ++ [c]
          rw [← hone.order, List.append_assoc, List.append_assoc, List.append_assoc]
          rfl
        · exact fun hm hcur => (stage_congr (show (l.arrive c).rData = l.rData from rfl)).2 (hone.stage hm hcur)
        · intro hm hcur
          have hbuff := hone.empty hm hcur
          exact ⟨hbuff.data, hbuff.len⟩
    · refine ⟨l, (modify_lst_ne _ _ hfg).trans hf, ?_, id, fun hcur _ => .zero rfl hcur rfl rfl⟩
      exact ⟨hone.lt, hone.plain, hone.order, hone.registered, hone.stage, hone.empty, hone.closing, hone.gone⟩
  · simp only [step] at hs
    split at hs
    · next g m hpc =>
      split at hs
      · cases hs
      · next k hk =>
        obtain ⟨io, hio, rfl⟩ := Option.map_eq_some_iff.1 hs
        by_cases hfg : f = g
        · subst hfg
          cases hf.symm.trans hk
          have hret : io = s.io.retCall f m l.defaultAccept.2 .read := by
            rw [IoSt.step, hpc] at hio
            exact (Option.some.inj hio).symm
          have hacc := @OneInv.accept s { s.modify f (·.defaultAccept.1) with io } f l m hone hpc hret
          refine ⟨l.defaultAccept.1, ?_, hacc.1, fun hm => (hacc.2 hm).1, fun _ hm => (hacc.2 hm).2⟩
          exact (modify_lst_self _ _).trans (by rw [hf]; rfl)
        · have hother : s.After { s.modify g (·.defaultAccept.1) with io } f l 0 := by
            refine hone.other h.reg hio ?_ (fun _ _ _ _ h => by cases h) (fun _ _ h => by cases h) (fun _ h => by cases h) ((modify_lst_ne _ _ hfg).trans hf)
            rintro ⟨hcur, -⟩
            rw [hpc] at hcur
            exact hfg (Option.some.inj hcur).symm
          obtain ⟨l', hl', hone', hmiss, -⟩ := hother
          refine ⟨l', hl', hone', hmiss, fun hcur => ?_⟩
          rw [hpc] at hcur
          exact absurd (Option.some.inj hcur).symm hfg
    · cases hs
  · simp only [step] at hs
    split_ifs at hs with hok
    obtain ⟨io, hio, rfl⟩ := Option.map_eq_some_iff.1 hs
    exact hone.io h.reg hok hf hio

/-- A listening socket is registered. -/
theorem oneInv_listen {fd : Nat} {hasEvent : Bool} {io : IoSt} (h : s.ListenInv) (hfd : (s.io.attached fd).isSome = false)
    (hio : s.io.step (s.listenOp fd hasEvent) = some io) (hs' : s'.io = io) :
    s'.OneInv s.io.size ⟨[], [], [], [], 0⟩ := by
  have hdo : io = s.io.addFd fd ⟨some fd, s.io.qid, true, false, true, false, false, false, hasEvent,
      true && !decide (s.io.backend = .epoll), false && !decide (s.io.backend = .epoll), false, false, 0, []⟩ := by
    rw [listenOp, IoSt.step] at hio
    split_ifs at hio
    exact (Option.some.inj hio).symm
  rw [addFd, if_neg (by rw [hfd]; exact Bool.false_ne_true)] at hdo
  have hne : s'.io.pc.cur ≠ some s.io.size := by
    intro hcur
    rw [hs', hdo] at hcur
    exact Nat.lt_irrefl _ (h.cur _ hcur)
  refine ⟨?_, ?_, ?_, fun _ => ?_, fun _ hcur => absurd hcur hne, fun _ _ => ?_, fun h' => absurd rfl h',
    fun h' => absurd rfl h'⟩
  · rw [hs', hdo]
    exact Nat.lt_succ_self _
  · rw [hs', hdo]
    simp only [if_true]
    exact ⟨rfl, rfl, rfl, rfl, rfl⟩
  · rw [waiting_of_ne hne]
    rfl
  · rw [hs', hdo]
    refine ⟨fd, ?_, if_pos rfl, ?_⟩
    · simp only [if_true]
    · simp only [if_true]
  · rw [hs', hdo]
    simp only [if_true]
    exact ⟨rfl, rfl⟩

theorem ListenInv.step {a : ListenAct} (h : s.ListenInv) (hs : s.step a = some s') : s'.ListenInv := by
  have hold : ∀ f l, s.lst f = some l → ∃ l', s'.lst f = some l' ∧ s'.OneInv f l' := by
    intro f l hf
    obtain ⟨l', hl', hone, -⟩ := h.after hs hf
    exact ⟨l', hl', hone⟩
  -- but for a new one, a listening socket was there before
  have heach : (∀ f, (s'.lst f).isSome → (s.lst f).isSome) → ∀ f l, s'.lst f = some l → s'.OneInv f l := by
    intro hsub f l hf
    obtain ⟨k, hk⟩ := Option.isSome_iff_exists.1 (hsub f (by rw [hf]; rfl))
    obtain ⟨l', hl', hone⟩ := hold f k hk
    cases hf.symm.trans hl'
    exact hone
  have hmod : ∀ (s : ListenSt) g (k : Listener → Listener) f, ((s.modify g k).lst f).isSome → (s.lst f).isSome := by
    intro s g k f hf
    by_cases hfg : f = g
    · subst hfg
      rwa [modify_lst_self, Option.isSome_map] at hf
    · rwa [modify_lst_ne _ _ hfg] at hf
  rcases a with ⟨fd, hasEvent⟩ | ⟨g, c⟩ | _ | a
  · obtain ⟨io, hio, rfl⟩ := Option.map_eq_some_iff.1 hs
    split_ifs at hold heach ⊢ with hfd
    · exact ⟨h.reg.step hio, cur_lt_step hio h.reg h.cur, heach fun _ => id⟩
    · refine ⟨h.reg.step hio, cur_lt_step hio h.reg h.cur, fun f l hf => ?_⟩
      by_cases hnew : f = s.io.size
      · subst hnew
        obtain rfl := Option.some.inj ((if_pos rfl).symm.trans hf)
        exact oneInv_listen h (Bool.not_eq_true _ ▸ hfd) hio rfl
      · obtain ⟨l', hl', hone⟩ := hold f l ((if_neg hnew).symm.trans hf)
        cases hf.symm.trans hl'
        exact hone
  · cases hs
    exact ⟨h.reg, h.cur, heach (hmod s g _)⟩
  · simp only [ListenSt.step] at hs
    split at hs
    · split at hs
      · cases hs
      · obtain ⟨io, hio, rfl⟩ := Option.map_eq_some_iff.1 hs
        exact ⟨h.reg.step hio, cur_lt_step hio h.reg h.cur, heach (hmod s _ _)⟩
    · cases hs
  · simp only [ListenSt.step] at hs
    split_ifs at hs
    obtain ⟨io, hio, rfl⟩ := Option.map_eq_some_iff.1 hs
    refine ⟨h.reg.step hio, cur_lt_step hio h.reg h.cur, heach fun f hf => ?_⟩
    change ((s.track a).lst f).isSome = true at hf
    unfold track at hf
    split at hf
    · split at hf
      · exact hmod _ _ _ _ hf
      · exact hf
    · split at hf
      · exact hmod _ _ _ _ hf
      · exact hf
    · exact hf

theorem ListenInv.init (backend : Backend) (qid : Nat) : (init backend qid).ListenInv := ⟨nofun, nofun, nofun⟩

theorem ListenInv.exec {acts : List ListenAct} (h : s.ListenInv) (hs : Lib.exec ListenSt.step s acts = some s') :
    s'.ListenInv := exec_invariant_all (fun _ _ _ h hs => ListenInv.step h hs) h hs

theorem missed_exec {more : List ListenAct} (h : s.ListenInv) (hf : s.lst f = some l)
    (hs : Lib.exec ListenSt.step s more = some s') (hf' : s'.lst f = some l') (hm : l'.missed = 0) : l.missed = 0 := by
  induction more generalizing s l with
  | nil =>
    cases hs
    cases hf.symm.trans hf'
    exact hm
  | cons a more ih =>
    rw [exec_cons] at hs
    obtain ⟨s₁, hs₁, hs⟩ := Option.bind_eq_some_iff.1 hs
    obtain ⟨l₁, hl₁, -, hmiss, -⟩ := h.after hs₁ hf
    exact hmiss (ih (h.step hs₁) hl₁ hs)

/-- While accept finds connections, the loop does not end and hands them over. -/
theorem progress_exec {more : List ListenAct} (h : s.ListenInv) (hf : s.lst f = some l) (hcur : s.io.pc.cur = some f)
    (hs : Lib.exec ListenSt.step s more = some s') (hf' : s'.lst f = some l') (hm : l'.missed = 0) :
    Progress s s' f l l' (more.countP (·.isThread)) := by
  induction more generalizing s l with
  | nil =>
    cases hs
    cases hf.symm.trans hf'
    exact .zero rfl hcur rfl rfl
  | cons a more ih =>
    rw [exec_cons] at hs
    obtain ⟨s₁, hs₁, hs⟩ := Option.bind_eq_some_iff.1 hs
    obtain ⟨l₁, hl₁, -, -, hprog⟩ := h.after hs₁ hf
    have hinv := h.step hs₁
    have hfirst := hprog hcur (missed_exec hinv hl₁ hs hf' hm)
    have hrest := ih hinv hl₁ hfirst.cur hs
    refine ⟨hrest.cur, ?_⟩
    have h1 := hfirst.near
    have h2 := hrest.near
    rw [List.countP_cons]
    omega

/-- Over any run: as long as accept has found a connection each time, the listening socket listens and the
connections are handed over in order, each of them after at most ten steps of the thread; after an event, it does so
only then. -/
theorem listening_kept_iff {backend : Backend} {qid : Nat} {acts : List ListenAct} (h : run backend qid acts = some s)
    (hf : s.lst f = some l) :
    (l.missed = 0 → s.Keeps f l) ∧ (s.io.pc.cur ≠ some f → (s.Keeps f l ↔ l.missed = 0)) ∧
      ∀ more s' l' n, Lib.exec ListenSt.step s more = some s' → s'.lst f = some l' → s.io.pc.cur = some f →
        l'.missed = 0 → 10 * (n + 1) ≤ more.countP (·.isThread) → l.handed.length + n ≤ l'.handed.length := by
  have hinv : s.ListenInv := (ListenInv.init backend qid).exec h
  have hone := hinv.each f l hf
  have hkeeps : l.missed = 0 → s.Keeps f l := fun hm => ⟨hone.registered hm, hone.order⟩
  refine ⟨hkeeps, fun hcur => ⟨fun hk => ?_, hkeeps⟩, ?_⟩
  · by_contra hm
    obtain ⟨fd, -, hatt, -⟩ := hk.registered
    exact hone.gone hm hcur fd hatt
  · intro more s' l' n hs hf' hcur hm hn
    have hnear := (progress_exec hinv hf hcur hs hf' hm).near
    have hle := l.ahead_le s.io.pc
    omega

/-- Two connections are pending when the event is dispatched, and both have been handed over. -/
def twoRun : List ListenAct :=
  [.listen 4 true, .arrive 0 7, .arrive 0 8, .io (.wait [(0, .readable)])] ++ List.replicate 7 (.io .go) ++
    [.accept] ++ List.replicate 3 (.io .go) ++ [.io (.ret 0)] ++ List.replicate 5 (.io .go) ++ [.accept] ++
    List.replicate 3 (.io .go)

theorem listening_kept_iff_twoRun : ∃ s l, run .epoll 0 twoRun = some s ∧ s.lst 0 = some l ∧ l.missed = 0 ∧
    l.handed = [7, 8] ∧ s.Keeps 0 l := by
  have hrun : (run .epoll 0 twoRun).any (fun s => (s.lst 0).any fun l => l.missed = 0 ∧ l.handed = [7, 8]) = true := by
    decide +kernel
  obtain ⟨s, hs, hl⟩ := (Option.any_eq_true ..).1 hrun
  obtain ⟨l, hl, hh⟩ := (Option.any_eq_true ..).1 hl
  obtain ⟨hm, hh⟩ := of_decide_eq_true hh
  exact ⟨s, l, hs, hl, hm, hh, (listening_kept_iff hs hl).1 hm⟩

/-- The event is handled to its end, and then another connection arrives. -/
def drainRun : List ListenAct :=
  twoRun ++ [.io (.ret 0)] ++ List.replicate 5 (.io .go) ++ [.accept, .io (.ret 0), .io .go, .io .go, .arrive 0 9]

theorem not_listening_kept : ¬ ∀ (backend : Backend) (qid : Nat) (acts : List ListenAct) (s : ListenSt) (f : Nat)
    (l : Listener), run backend qid acts = some s → s.lst f = some l → s.io.pc.cur ≠ some f → s.Keeps f l := by
  intro h
  have hrun : (run .epoll 0 drainRun).any (fun s => s.io.pc = .idle ∧ s.io.attached 4 = none ∧
      (s.io.obj 0).fd = none ∧ (s.lst 0).isSome) = true := by
    decide +kernel
  obtain ⟨s, hs, hp⟩ := (Option.any_eq_true ..).1 hrun
  obtain ⟨hpc, -, hfd, hl⟩ := of_decide_eq_true hp
  obtain ⟨l, hl⟩ := Option.isSome_iff_exists.1 hl
  obtain ⟨fd, hfd', -⟩ := (h .epoll 0 drainRun s 0 l hs hl (by rw [hpc]; exact nofun)).registered
  rw [hfd] at hfd'
  cases hfd'

end ListenSt

end Aosl
