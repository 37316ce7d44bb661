import Aosl.Connect

/-!
# Connecting sockets over whole runs

An event of a failed connection is told apart from a successful one in one place only: `os_mp_dispatch_epoll` looks at
the error bit first. The dispatchers of `poll_mp.c` and `select_mp.c` go to `__iofd_write_data`, which reports the
socket as ready when its write queue is empty, and finds the error when it is not. `OneConn` follows a connection
through all of this: until it is told nothing has been reported; a failed one is on its way to `f_event_and_close`
(`FailPos`) or in it (`Closing`), and afterwards it is closed (`Settled`).
-/

namespace Aosl
open Lib

namespace IoPc

/-- In `__iofd_write_data`, after the timer was killed. -/
def writing : IoPc → Bool
  | run .write _ _ => true
  | call .write _ _ => true
  | call .ready _ _ => true
  | _ => false

/-- In `event_f`. -/
def inEvent : IoPc → Bool
  | call .ready _ _ => true
  | call (.error _) _ _ => true
  | _ => false

end IoPc

namespace Conn

/-- Nothing has been reported. -/
structure Quiet (c : Conn) : Prop where
  ready : c.ready = 0
  errs : c.errs = 0
  closes : c.closes = 0

variable {c : Conn} {s s' : IoSt} {f : Nat} {a : IoAct}

theorem after_silent (s' : IoSt) (h : s'.pc.inEvent = false) :
    (c.after s s' f a).ready = c.ready ∧ (c.after s s' f a).errs = c.errs := by
  unfold after
  dsimp only
  constructor
  · split
    · next hpc =>
      rw [hpc] at h
      cases h
    · rfl
  · split
    · next hpc =>
      rw [hpc] at h
      cases h
    · rfl

theorem after_other (s' : IoSt) (h : a.calls = true → s'.pc.cur ≠ some f) :
    (c.after s s' f a).ready = c.ready ∧ (c.after s s' f a).errs = c.errs := by
  have hzero : ∀ g : Nat, s'.pc.cur = some g → (if a.calls && g = f then 1 else 0) = 0 := by
    intro g hg
    refine if_neg fun hb => ?_
    rw [Bool.and_eq_true, decide_eq_true_eq] at hb
    exact h hb.1 (hb.2 ▸ hg)
  unfold after
  dsimp only
  constructor
  · split
    · next hpc => rw [hzero _ (by rw [hpc]; rfl), Nat.add_zero]
    · rfl
  · split
    · next hpc => rw [hzero _ (by rw [hpc]; rfl), Nat.add_zero]
    · rfl

theorem after_error {t : Bool} {m : EventMask} (hpc : s'.pc = .call (.error t) f m) (ha : a.calls = true) :
    (c.after s s' f a).ready = c.ready ∧ (c.after s s' f a).errs = c.errs + 1 := by
  unfold after
  rw [hpc]
  simp [ha]

theorem after_ready {m : EventMask} (hpc : s'.pc = .call .ready f m) (ha : a.calls = true) :
    (c.after s s' f a).ready = c.ready + 1 := by
  unfold after
  rw [hpc]
  simp [ha]

theorem after_closes (h : (s'.obj f).fd = (s.obj f).fd) : (c.after s s' f a).closes = c.closes := by
  unfold after
  rw [h]
  rcases (s.obj f).fd with _ | n
  · rfl
  · rfl

theorem after_closed (h : (s.obj f).fd.isSome = true) (h' : (s'.obj f).fd = none) :
    (c.after s s' f a).closes = c.closes + 1 := by
  unfold after
  rw [h, h']
  rfl

theorem after_told (s' : IoSt) (h : s.eventFor f a = none) (ha : a ≠ .timeout f) :
    (c.after s s' f a).told = c.told ∧ (c.after s s' f a).wrong = c.wrong := by
  unfold after
  rw [h]
  simp [ha]

theorem after_eq (hcalls : a.calls = true → s'.pc.cur ≠ some f) (hfd : (s'.obj f).fd = (s.obj f).fd)
    (hev : s.eventFor f a = none) (ha : a ≠ .timeout f) : c.after s s' f a = c := by
  obtain ⟨hready, herrs⟩ := after_other (c := c) (s := s) s' hcalls
  obtain ⟨htold, hwrong⟩ := after_told (c := c) s' hev ha
  exact Conn.ext rfl hready herrs (after_closes hfd) htold hwrong

theorem ready_le_after : c.ready ≤ (c.after s s' f a).ready := Nat.le_add_right _ _

theorem Quiet.after (h : c.Quiet) (hpc : s'.pc.inEvent = false) (hfd : (s'.obj f).fd = (s.obj f).fd) :
    (c.after s s' f a).Quiet := by
  obtain ⟨hready, herrs⟩ := after_silent (c := c) (s := s) (f := f) (a := a) s' hpc
  exact ⟨hready.trans h.ready, herrs.trans h.errs, (after_closes hfd).trans h.closes⟩

end Conn

namespace IoSt

variable {s s' : IoSt} {f : Nat} {c : Conn} {m : EventMask} {a : IoAct}

theorem eventFor_none (h : s.pc ≠ .next ∨ a ≠ .go) : s.eventFor f a = none := by
  unfold eventFor
  split
  · split
    · next hpc _ =>
      rcases h with h | h
      · exact absurd hpc h
      · exact absurd rfl h
    · rfl
  · rfl

theorem Registered.tunes (h : s.Registered f) (ht : Tunes s s' f) : s'.Registered f := by
  obtain ⟨fd, hfd, hatt, hlist⟩ := h
  exact ⟨fd, ht.tune.fd.trans hfd, by rw [ht.attached]; exact hatt, ht.tune.listed.trans hlist⟩

theorem eventAndClose_call (hfd : (s.obj f).fd.isSome = true) (he : (s.obj f).hasEvent = true) (t : Bool) :
    (s.eventAndClose f m t).pc = .call (.error t) f m := by
  rw [eventAndClose, if_pos hfd, if_pos he]
  rfl

/-- Where the code between two calls leads to, but for `__iofd_write_data`. -/
theorem runPos_quiet {pos : IoPos} (hclose : pos.closing = false) (hwrite : pos ≠ .write)
    (hout : pos = .out → m.pollOut = false) (hfd : (s.obj f).fd.isSome = true) (he : (s.obj f).hasEvent = true) :
    ((s.runPos f m pos).pc.closing = true ∧ (s.runPos f m pos).pc.cur = some f) ∨
      ((s.runPos f m pos).pc.writing = false ∧ (s.runPos f m pos).pc.inEvent = false) := by
  rcases pos with _ | _ | _ | _ | err | ⟨err, dataLen⟩ | err | _ | _ | t
  · rw [runPos, hout rfl]
    exact .inr ⟨rfl, rfl⟩
  · exact absurd rfl hwrite
  · rw [runPos]
    split_ifs
    · exact .inr ⟨rfl, rfl⟩
    · exact .inr ⟨rfl, rfl⟩
  · rw [runPos]
    split_ifs
    · exact .inr ⟨rfl, rfl⟩
    · exact .inr ⟨rfl, rfl⟩
  · rw [runPos]
    split_ifs
    · exact .inr ⟨rfl, rfl⟩
    · exact .inr ⟨rfl, rfl⟩
    · exact .inr ⟨rfl, rfl⟩
  · rw [runPos]
    split_ifs
    · exact .inr ⟨rfl, rfl⟩
    · exact .inr ⟨rfl, rfl⟩
  · rw [runPos]
    split_ifs
    · exact .inr ⟨rfl, rfl⟩
    · exact .inr ⟨rfl, rfl⟩
    · exact .inr ⟨rfl, rfl⟩
    · exact .inr ⟨rfl, rfl⟩
  · exact .inr ⟨rfl, rfl⟩
  · rw [runPos]
    split_ifs
    · rw [eventAndClose_call hfd he]
      exact .inl ⟨rfl, rfl⟩
    · exact .inr ⟨rfl, rfl⟩
  · cases hclose

theorem retCall_quiet {v : Int} {site : CallSite} (hsite : site ≠ .write) (hfd : (s.obj f).fd.isSome = true)
    (he : (s.obj f).hasEvent = true) :
    ((s.retCall f m v site).pc.closing = true ∧ (s.retCall f m v site).pc.cur = some f) ∨
      ((s.retCall f m v site).pc.writing = false ∧ (s.retCall f m v site).pc.inEvent = false) := by
  rcases site with _ | _ | _ | err | err | _ | t
  · simp only [retCall]
    split_ifs
    · rw [eventAndClose_call (by rw [modify_self]; exact hfd) (by rw [modify_self]; exact he)]
      exact .inl ⟨rfl, rfl⟩
    · exact .inr ⟨rfl, rfl⟩
    · exact .inr ⟨rfl, rfl⟩
    · exact .inr ⟨rfl, rfl⟩
  · exact absurd rfl hsite
  · simp only [retCall]
    split_ifs
    · exact .inr ⟨rfl, rfl⟩
    · rw [eventAndClose_call hfd he]
      exact .inl ⟨rfl, rfl⟩
    · exact .inr ⟨rfl, rfl⟩
  · simp only [retCall]
    split_ifs
    · exact .inr ⟨rfl, rfl⟩
    · exact .inr ⟨rfl, rfl⟩
  · simp only [retCall]
    split_ifs
    · exact .inr ⟨rfl, rfl⟩
    · exact .inr ⟨rfl, rfl⟩
  · exact .inr ⟨rfl, rfl⟩
  · exact .inl ⟨rfl, rfl⟩

theorem fd_thisQCloseF {q n : Nat} {ok : Bool} (hfd : (s.obj f).fd = some n) (hatt : s.attached n = some f)
    (hq : (s.obj f).q = q) : ((s.thisQCloseF q f ok).1.obj f).fd = none := by
  obtain ⟨hne, -⟩ | ⟨hnone, -⟩ | ⟨k, hk, ⟨hatt', -⟩ | ⟨-, -, h1⟩⟩ := qDelF_cases s q f
  · exact absurd hq hne
  · rw [hfd] at hnone
    cases hnone
  · rw [hfd] at hk
    exact absurd (Option.some.inj hk ▸ hatt) hatt'
  · unfold IoSt.thisQCloseF
    rw [h1]
    dsimp only
    rw [if_pos rfl, modify_self]

end IoSt

/-- The timer runs only before anything has been reported, up to `__iofd_write_data` and `f_event_and_close`. -/
def TimerOk (s : IoSt) (f : Nat) (c : Conn) : Prop :=
  (s.obj f).fd.isSome = true ∧
    (c.Quiet ∧ s.Registered f ∧ (s.pc.cur = some f → s.pc.writing = false) ∨ s.pc.cur = some f ∧ s.pc.closing = true)

/-- A connection nothing has been reported of. -/
structure Fresh (s : IoSt) (f : Nat) (c : Conn) : Prop where
  quiet : c.Quiet
  registered : s.Registered f
  rLen : (s.obj f).rLen = 0
  readReturn0 : (s.obj f).readReturn0 = false

/-- A failed connection on its way to `f_event_and_close`. -/
def FailPos (wQ : List WBuffer) : IoPc → Prop
  | .run .out _ m => (m.pollOut = true → wQ ≠ []) ∧ (m.pollIn || m.pollOut) = true
  | .run .write _ _ => wQ ≠ []
  | .call .write _ _ => True
  | .run .inn _ m => m.pollIn = true
  | .run .read _ _ => True
  | .run (.post err) _ _ => err = 0
  | .run (.rest err) _ _ => err = 0
  | .run .fill _ _ => True
  | .call .read _ _ => True
  | _ => False

/-- In `f_event_and_close`; `event_f` may have closed the socket. -/
structure Closing (s : IoSt) (f : Nat) (c : Conn) : Prop where
  pc : s.pc.closing = true
  ready : c.ready = 0
  errs : c.errs = 1
  closes : c.closes = 0 ∧ s.Registered f ∨ c.closes = 1 ∧ (s.obj f).fd = none

structure Settled (s : IoSt) (f : Nat) (c : Conn) : Prop where
  ready : c.ready = 0
  errs : c.errs = 1
  closes : c.closes = 1
  fd : (s.obj f).fd = none

/-- A failed connection about to be reported as ready. -/
def Turns (s : IoSt) (f : Nat) : Prop :=
  (s.obj f).wQ = [] ∧ ((∃ m, s.pc = .run .out f m ∧ m.pollOut = true) ∨ ∃ m, s.pc = .run .write f m)

structure OneConn (s : IoSt) (f : Nat) (c : Conn) : Prop where
  lt : f < s.size
  q : (s.obj f).q = s.qid
  hasEvent : (s.obj f).hasEvent = true
  notReady : (s.obj f).timer = true → (s.obj f).notReady = true
  timer : (s.obj f).timer = true → TimerOk s f c
  untold : c.told = false → c.outcome ≠ .succeeded → s.pc.cur ≠ some f ∧ Fresh s f c
  working : c.told = true → c.wrong = false → s.pc.cur = some f →
    Closing s f c ∨ c.outcome = .failed ∧ Fresh s f c ∧ FailPos (s.obj f).wQ s.pc
  settled : c.told = true → c.wrong = false → s.pc.cur ≠ some f → Settled s f c
  wrong : c.wrong = true → c.outcome = .failed ∧ c.told = true ∧ (0 < c.ready ∨ Turns s f)

section Work

open IoSt Conn

variable {s : IoSt} {f : Nat} {c : Conn} {m : EventMask}

theorem TimerOk.run {pos : IoPos} (h : TimerOk s f c) (hpc : s.pc = .run pos f m) (hq : (s.obj f).q = s.qid)
    (he : (s.obj f).hasEvent = true) (hn : (s.obj f).notReady = true)
    (ht : ((s.runPos f m pos).obj f).timer = true) :
    TimerOk (s.runPos f m pos) f (c.after s (s.runPos f m pos) f .go) := by
  obtain ⟨hfd, hcase⟩ := h
  by_cases hclose : pos.closing = true
  · rcases pos
    case close t =>
      rw [runPos, if_pos hfd, leave] at ht
      exact absurd ht (by rw [timer_thisQCloseF hq]; exact Bool.false_ne_true)
    all_goals cases hclose
  · have hclose' : pos.closing = false := Bool.not_eq_true _ ▸ hclose
    have hquiet : c.Quiet ∧ s.Registered f ∧ pos ≠ .write := by
      rcases hcase with ⟨hquiet, hreg, hw⟩ | ⟨-, hc⟩
      · refine ⟨hquiet, hreg, ?_⟩
        rintro rfl
        have := hw (by rw [hpc]; rfl)
        rw [hpc] at this
        cases this
      · rw [hpc] at hc
        rcases pos
        case close => exact absurd rfl hclose
        all_goals cases hc
    obtain ⟨hquiet, hreg, hwrite⟩ := hquiet
    have hout : pos = .out → m.pollOut = false := by
      rintro rfl
      by_contra hp
      rw [runPos, if_pos (Bool.not_eq_false _ ▸ hp)] at ht
      simp only [IoSt.goto] at ht
      rw [modify_self, if_pos hn] at ht
      cases ht
    have htunes := tunes_runPos (s := s) (f := f) (m := m) hclose'
    refine ⟨by rw [htunes.tune.fd]; exact hfd, ?_⟩
    rcases runPos_quiet hclose' hwrite hout hfd he with ⟨hc, hcur⟩ | ⟨hw, hev⟩
    · exact .inr ⟨hcur, hc⟩
    · exact .inl ⟨hquiet.after hev htunes.tune.fd, hreg.tunes htunes, fun _ => hw⟩

theorem TimerOk.ret {v : Int} {site : CallSite} (h : TimerOk s f c) (hpc : s.pc = .call site f m)
    (he : (s.obj f).hasEvent = true) : TimerOk (s.retCall f m v site) f (c.after s (s.retCall f m v site) f (.ret v)) := by
  obtain ⟨hfd, hcase⟩ := h
  have htunes := tunes_retCall (s := s) (f := f) (m := m) (v := v) site
  refine ⟨by rw [htunes.tune.fd]; exact hfd, ?_⟩
  have hsite : site ≠ .write := by
    rintro rfl
    rcases hcase with ⟨-, -, hw⟩ | ⟨-, hc⟩
    · have := hw (by rw [hpc]; rfl)
      rw [hpc] at this
      cases this
    · rw [hpc] at hc
      cases hc
  rcases retCall_quiet hsite hfd he with ⟨hc, hcur⟩ | ⟨hw, hev⟩
  · exact .inr ⟨hcur, hc⟩
  · rcases hcase with ⟨hquiet, hreg, -⟩ | ⟨-, hc⟩
    · exact .inl ⟨hquiet.after hev htunes.tune.fd, hreg.tunes htunes, fun _ => hw⟩
    · -- after `event_f` comes the close
      rw [hpc] at hc
      rcases site
      case error t => exact .inr ⟨rfl, rfl⟩
      all_goals cases hc

theorem Fresh.go {s' : IoSt} {a : IoAct} (h : Fresh s f c) (hev : s'.pc.inEvent = false) (hatt : s'.attached = s.attached)
    (hobj : ∃ a b t n, s'.obj f = { s.obj f with pollIn := a, pollOut := b, timer := t, notReady := n }) :
    Fresh s' f (c.after s s' f a) := by
  obtain ⟨a, b, t, n, hobj⟩ := hobj
  obtain ⟨fd, hfd, ha, hlist⟩ := h.registered
  refine ⟨h.quiet.after hev (by rw [hobj]), ⟨fd, ?_, by rw [hatt]; exact ha, ?_⟩, ?_, ?_⟩
  · rw [hobj]
    exact hfd
  · rw [hobj]
    exact hlist
  · rw [hobj]
    exact h.rLen
  · rw [hobj]
    exact h.readReturn0

theorem Fresh.goto {pos : IoPos} (h : Fresh s f c) : Fresh (s.goto pos f m) f (c.after s (s.goto pos f m) f .go) := by
  refine h.go rfl rfl ⟨_, _, _, _, rfl⟩

theorem Fresh.run {pos : IoPos} (h : Fresh s f c) (hpc : s.pc = .run pos f m) (hpos : FailPos (s.obj f).wQ s.pc) :
    Fresh (s.runPos f m pos) f (c.after s (s.runPos f m pos) f .go) ∧
      FailPos ((s.runPos f m pos).obj f).wQ (s.runPos f m pos).pc := by
  rw [hpc] at hpos
  rcases pos with _ | _ | _ | _ | err | ⟨err, dataLen⟩ | err | _ | _ | t
  case out =>
    rw [runPos]
    split_ifs with hout
    · have hobj : ((s.modify f fun o => if o.notReady then { o with notReady := false, timer := false } else o).obj f).wQ =
          (s.obj f).wQ := by
        rw [modify_self]
        split_ifs
        · rfl
        · rfl
      refine ⟨h.go rfl rfl ?_, ?_⟩
      · simp only [IoSt.goto]
        rw [modify_self]
        split_ifs
        · exact ⟨_, _, _, _, rfl⟩
        · exact ⟨_, _, _, _, rfl⟩
      · exact fun hnil => hpos.1 hout (hobj.symm.trans hnil)
    · refine ⟨h.goto, ?_⟩
      have hin := hpos.2
      rwa [(Bool.not_eq_true _).mp hout, Bool.or_false] at hin
  case write =>
    rw [runPos]
    split
    · exact ⟨h.go rfl rfl ⟨_, _, _, _, rfl⟩, trivial⟩
    · next hnil => exact absurd hnil hpos
  case inn =>
    have hin : m.pollIn = true := hpos
    rw [runPos, if_pos hin]
    exact ⟨h.goto, trivial⟩
  case read =>
    rw [runPos, h.rLen, if_neg (fun hc => Nat.lt_irrefl 0 hc.2)]
    exact ⟨h.goto, rfl⟩
  case post =>
    obtain rfl : err = 0 := hpos
    rw [runPos, h.readReturn0, if_neg (by simp)]
    exact ⟨h.goto, rfl⟩
  case rest =>
    obtain rfl : err = 0 := hpos
    rw [runPos, h.readReturn0, if_neg Bool.false_ne_true, if_pos rfl]
    exact ⟨h.goto, trivial⟩
  case fill => exact ⟨h.go rfl rfl ⟨_, _, _, _, rfl⟩, trivial⟩
  all_goals exact hpos.elim

theorem Fresh.ret {v : Int} {site : CallSite} (h : Fresh s f c) (hpc : s.pc = .call site f m)
    (hpos : FailPos (s.obj f).wQ s.pc) (he : (s.obj f).hasEvent = true) (hv : v < 0 ∧ v ≠ -aoslEAgain) :
    Closing (s.retCall f m v site) f (c.after s (s.retCall f m v site) f (.ret v)) := by
  have htunes := tunes_retCall (s := s) (f := f) (m := m) (v := v) site
  have hfd : (s.obj f).fd.isSome = true := by
    obtain ⟨fd, hfd, -⟩ := h.registered
    rw [hfd]
    rfl
  have hcall : (s.retCall f m v site).pc = .call (.error false) f m := by
    rw [hpc] at hpos
    rcases site
    case read =>
      simp only [retCall]
      rw [if_pos hv.1, if_pos hv.2]
      exact eventAndClose_call (by rw [modify_self]; exact hfd) (by rw [modify_self]; exact he) false
    case write =>
      simp only [retCall]
      rw [if_pos hv.1, if_pos hv.2]
      exact eventAndClose_call (by rw [modify_self]; exact hfd) (by rw [modify_self]; exact he) false
    all_goals exact hpos.elim
  obtain ⟨hready, herrs⟩ := after_error (c := c) (s := s) (a := .ret v) hcall rfl
  refine ⟨by rw [hcall]; rfl, hready.trans h.quiet.ready, ?_, .inl ⟨?_, h.registered.tunes htunes⟩⟩
  · rw [herrs, h.quiet.errs]
  · exact (after_closes htunes.tune.fd).trans h.quiet.closes

/-- `f_event_and_close` closes the socket, unless `event_f` has done it. -/
theorem Closing.run {pos : IoPos} (h : Closing s f c) (hpc : s.pc = .run pos f m) (hq : (s.obj f).q = s.qid) :
    Settled (s.runPos f m pos) f (c.after s (s.runPos f m pos) f .go) ∧ (s.runPos f m pos).pc.cur = none := by
  have hclosing := h.pc
  rw [hpc] at hclosing
  rcases pos
  case close t =>
    have hcur : (s.runPos f m (.close t)).pc.cur = none := by
      rw [runPos]
      split_ifs
      · exact leave_cur _ t
      · exact leave_cur _ t
    obtain ⟨hready, herrs⟩ := after_other (c := c) (s := s) (f := f) (a := .go) (s.runPos f m (.close t))
      (fun _ => by rw [hcur]; exact fun h => by cases h)
    refine ⟨?_, hcur⟩
    rcases h.closes with ⟨hzero, hreg⟩ | ⟨hone, hfd⟩
    · obtain ⟨n, hn, hatt, -⟩ := hreg
      have hsome : (s.obj f).fd.isSome = true := by
        rw [hn]
        rfl
      have hfd' : ((s.runPos f m (.close t)).obj f).fd = none := by
        rw [runPos, if_pos hsome]
        exact fd_thisQCloseF hn hatt hq
      refine ⟨hready.trans h.ready, herrs.trans h.errs, ?_, hfd'⟩
      rw [after_closed hsome hfd', hzero]
    · have hfd' : ((s.runPos f m (.close t)).obj f).fd = none := by
        rw [runPos, hfd]
        exact hfd
      refine ⟨hready.trans h.ready, herrs.trans h.errs, ?_, hfd'⟩
      exact (after_closes (hfd'.trans hfd.symm)).trans hone
  all_goals cases hclosing

theorem Closing.ret {v : Int} {site : CallSite} (h : Closing s f c) (hpc : s.pc = .call site f m) :
    Closing (s.retCall f m v site) f (c.after s (s.retCall f m v site) f (.ret v)) := by
  have hclosing := h.pc
  rw [hpc] at hclosing
  rcases site
  case error t =>
    obtain ⟨hready, herrs⟩ := after_silent (c := c) (s := s) (f := f) (a := .ret v) (s.retCall f m v (.error t)) rfl
    have hcloses : (c.after s (s.retCall f m v (.error t)) f (.ret v)).closes = c.closes := after_closes rfl
    refine ⟨rfl, hready.trans h.ready, herrs.trans h.errs, ?_⟩
    rw [hcloses]
    exact h.closes
  all_goals cases hclosing

/-- An empty write queue: the socket is reported as ready. -/
theorem Turns.run {pos : IoPos} (h : Turns s f) (hpc : s.pc = .run pos f m) (he : (s.obj f).hasEvent = true) :
    0 < (c.after s (s.runPos f m pos) f .go).ready ∨ Turns (s.runPos f m pos) f := by
  obtain ⟨hnil, ⟨m', hpc', hout⟩ | ⟨m', hpc'⟩⟩ := h
  · cases hpc.symm.trans hpc'
    right
    rw [runPos, if_pos hout]
    refine ⟨?_, .inr ⟨m, rfl⟩⟩
    simp only [IoSt.goto]
    rw [modify_self]
    split_ifs
    · exact hnil
    · exact hnil
  · cases hpc.symm.trans hpc'
    left
    have hcall : (s.runPos f m .write).pc = .call .ready f m := by
      rw [runPos, hnil]
      dsimp only
      rw [if_pos he]
      rfl
    rw [after_ready hcall rfl]
    exact Nat.succ_pos _

theorem FailPos.cur {wQ : List WBuffer} {pc : IoPc} (h : FailPos wQ pc) : pc.cur ≠ none := by
  rcases pc
  · exact h.elim
  · exact h.elim
  · exact nofun
  · exact nofun

theorem cur_of_closing {pc : IoPc} (h : pc.closing = true) : pc.cur ≠ none := by
  rcases pc
  · cases h
  · cases h
  · exact nofun
  · exact nofun

/-- What the code between two calls leaves of the iofd. -/
theorem runPos_base (pos : IoPos) : (s.runPos f m pos).size = s.size ∧ (s.runPos f m pos).qid = s.qid ∧
    ((s.runPos f m pos).obj f).q = (s.obj f).q ∧ ((s.runPos f m pos).obj f).hasEvent = (s.obj f).hasEvent ∧
    (((s.runPos f m pos).obj f).timer = true → (s.obj f).timer = true ∧
      (((s.runPos f m pos).obj f).notReady = (s.obj f).notReady ∨ (s.obj f).notReady = false)) := by
  by_cases hclose : pos.closing = true
  · rcases pos
    case close t =>
      have hr := removes_thisQCloseF s s.qid f true
      rw [runPos]
      split_ifs
      · refine ⟨hr.size, hr.qid, ?_⟩
        simp only [leave]
        obtain ⟨l, d, ho | ho⟩ := hr.self
        · rw [ho]
          exact ⟨rfl, rfl, fun h => by cases h⟩
        · rw [ho]
          exact ⟨rfl, rfl, fun ht => ⟨ht, .inl rfl⟩⟩
      · exact ⟨rfl, rfl, rfl, rfl, fun ht => ⟨ht, .inl rfl⟩⟩
    all_goals cases hclose
  · have htunes := tunes_runPos (s := s) (f := f) (m := m) ((Bool.not_eq_true _).mp hclose)
    refine ⟨htunes.size, htunes.qid, ?_⟩
    by_cases hout : pos = .out → m.pollOut = false
    · obtain ⟨a, b, r, n, w, ho⟩ := touches_runPos (s := s) (f := f) ((Bool.not_eq_true _).mp hclose) hout
      rw [ho]
      exact ⟨rfl, rfl, fun ht => ⟨ht, .inl rfl⟩⟩
    · obtain ⟨hpos, hp⟩ := Classical.not_imp.1 hout
      rw [hpos, runPos, if_pos ((Bool.not_eq_false _).mp hp)]
      simp only [IoSt.goto]
      rw [modify_self]
      split_ifs with hn
      · exact ⟨rfl, rfl, fun h => by cases h⟩
      · exact ⟨rfl, rfl, fun ht => ⟨ht, .inl rfl⟩⟩

theorem OneConn.run {pos : IoPos} (h : OneConn s f c) (hpc : s.pc = .run pos f m) :
    OneConn (s.runPos f m pos) f (c.after s (s.runPos f m pos) f .go) := by
  obtain ⟨hsize, hqid, hq, he, ht⟩ := runPos_base (s := s) (f := f) (m := m) pos
  have hcur : s.pc.cur = some f := by
    rw [hpc]
    rfl
  obtain ⟨htold, hwrong⟩ := after_told (c := c) (f := f) (s.runPos f m pos)
    (eventFor_none (s := s) (f := f) (a := .go) (.inl (by rw [hpc]; exact nofun))) nofun
  refine ⟨by rw [hsize]; exact h.lt, ?_, he.trans h.hasEvent, ?_, ?_, ?_, ?_, ?_, ?_⟩
  · rw [hq, hqid]
    exact h.q
  · intro ht'
    obtain ⟨ht, hn | hn⟩ := ht ht'
    · exact hn.trans (h.notReady ht)
    · rw [h.notReady ht] at hn
      cases hn
  · intro ht'
    have ht := (ht ht').1
    exact (h.timer ht).run hpc h.q h.hasEvent (h.notReady ht) ht'
  · intro htold' hout
    exact absurd hcur (h.untold (htold.symm.trans htold') hout).1
  · intro htold' hwrong' hcur'
    rcases h.working (htold.symm.trans htold') (hwrong.symm.trans hwrong') hcur with hc | ⟨hf, hfresh, hpos⟩
    · rw [(hc.run hpc h.q).2] at hcur'
      cases hcur'
    · exact .inr ⟨hf, hfresh.run hpc hpos⟩
  · intro htold' hwrong' hcur'
    rcases h.working (htold.symm.trans htold') (hwrong.symm.trans hwrong') hcur with hc | ⟨hf, hfresh, hpos⟩
    · exact (hc.run hpc h.q).1
    · have hpos' := (hfresh.run hpc hpos).2
      have hnc : pos.closing = false := by
        rw [hpc] at hpos
        rcases pos
        case close => exact hpos.elim
        all_goals rfl
      rcases (tunes_runPos (s := s) (f := f) (m := m) hnc).cur with hc | hc
      · exact absurd hc hcur'
      · exact absurd hc hpos'.cur
  · intro hwrong'
    obtain ⟨hf, htold', hready | hturns⟩ := h.wrong (hwrong.symm.trans hwrong')
    · exact ⟨hf, htold.trans htold', .inl (Nat.lt_of_lt_of_le hready ready_le_after)⟩
    · exact ⟨hf, htold.trans htold', hturns.run hpc h.hasEvent⟩

theorem OneConn.ret {v : Int} {site : CallSite} (h : OneConn s f c) (hpc : s.pc = .call site f m)
    (hv : site = .read ∨ site = .write → c.outcome = .failed → v < 0 ∧ v ≠ -aoslEAgain) :
    OneConn (s.retCall f m v site) f (c.after s (s.retCall f m v site) f (.ret v)) := by
  have htunes := tunes_retCall (s := s) (f := f) (m := m) (v := v) site
  obtain ⟨a, b, r, n, w, hobj⟩ := touches_retCall (s := s) (f := f) (m := m) (v := v) site
  have hcur : s.pc.cur = some f := by
    rw [hpc]
    rfl
  obtain ⟨htold, hwrong⟩ := after_told (c := c) (f := f) (s.retCall f m v site)
    (eventFor_none (s := s) (f := f) (a := .ret v) (.inr nofun)) nofun
  -- a told connection is in `f_event_and_close` afterwards
  have hclosing : c.told = true → c.wrong = false →
      Closing (s.retCall f m v site) f (c.after s (s.retCall f m v site) f (.ret v)) := by
    intro htold' hwrong'
    rcases h.working htold' hwrong' hcur with hc | ⟨hf, hfresh, hpos⟩
    · exact hc.ret hpc
    · refine hfresh.ret hpc hpos h.hasEvent (hv ?_ hf)
      rw [hpc] at hpos
      rcases site
      case read => exact .inl rfl
      case write => exact .inr rfl
      all_goals exact hpos.elim
  refine ⟨by rw [htunes.size]; exact h.lt, ?_, ?_, ?_, ?_, ?_, ?_, ?_, ?_⟩
  · rw [hobj, htunes.qid]
    exact h.q
  · rw [hobj]
    exact h.hasEvent
  · rw [hobj]
    exact h.notReady
  · intro ht
    rw [hobj] at ht
    exact (h.timer ht).ret hpc h.hasEvent
  · intro htold' hout
    exact absurd hcur (h.untold (htold.symm.trans htold') hout).1
  · intro htold' hwrong' _
    exact .inl (hclosing (htold.symm.trans htold') (hwrong.symm.trans hwrong'))
  · intro htold' hwrong' hcur'
    have hc := hclosing (htold.symm.trans htold') (hwrong.symm.trans hwrong')
    rcases htunes.cur with hcur'' | hcur''
    · exact absurd hcur'' hcur'
    · exact absurd hcur'' (cur_of_closing hc.pc)
  · intro hwrong'
    obtain ⟨hf, htold', hready | ⟨-, ⟨m', hpc', -⟩ | ⟨m', hpc'⟩⟩⟩ := h.wrong (hwrong.symm.trans hwrong')
    · exact ⟨hf, htold.trans htold', .inl (Nat.lt_of_lt_of_le hready ready_le_after)⟩
    · cases hpc.symm.trans hpc'
    · cases hpc.symm.trans hpc'

theorem IoSt.Registered.isSome (h : s.Registered f) : (s.obj f).fd.isSome = true := by
  obtain ⟨fd, hfd, -⟩ := h
  rw [hfd]
  rfl

theorem FailPos.congr {wQ wQ' : List WBuffer} {pc : IoPc} (h : FailPos wQ pc)
    (hw : (∃ pos g m, pc = .run pos g m) → wQ' = wQ) : FailPos wQ' pc := by
  rcases pc with _ | _ | ⟨pos, g, m⟩ | ⟨site, g, m⟩
  · exact h
  · exact h
  · rw [hw ⟨pos, g, m, rfl⟩]
    exact h
  · rcases site
    all_goals exact h

/-- A step that does not concern the connection. -/
theorem OneConn.frame {s' : IoSt} (h : OneConn s f c) (hf : Frame s s' f)
    (hpc : s'.pc = s.pc ∨ s.pc.cur ≠ some f ∧ s'.pc.cur ≠ some f)
    (hw : (∃ pos g m, s.pc = .run pos g m) → (s'.obj f).wQ = (s.obj f).wQ) : OneConn s' f c := by
  obtain ⟨a, b, w, hobj⟩ := hf.obj
  have hfresh : Fresh s f c → Fresh s' f c := by
    intro hfr
    refine ⟨hfr.quiet, hfr.registered.frame hf, ?_, ?_⟩
    · rw [hobj]
      exact hfr.rLen
    · rw [hobj]
      exact hfr.readReturn0
  refine ⟨Nat.lt_of_lt_of_le h.lt hf.size, ?_, ?_, ?_, ?_, ?_, ?_, ?_, ?_⟩
  · rw [hobj, hf.qid]
    exact h.q
  · rw [hobj]
    exact h.hasEvent
  · rw [hobj]
    exact h.notReady
  · intro ht
    rw [hobj] at ht
    obtain ⟨hfd, hcase⟩ := h.timer ht
    refine ⟨by rw [hobj]; exact hfd, ?_⟩
    rcases hpc with hpc | ⟨hcur, hcur'⟩
    · rw [hpc]
      exact hcase.imp_left fun ⟨hq, hr, hw⟩ => ⟨hq, hr.frame hf, hw⟩
    · rcases hcase with ⟨hq, hr, -⟩ | ⟨hc, -⟩
      · exact .inl ⟨hq, hr.frame hf, fun hc => absurd hc hcur'⟩
      · exact absurd hc hcur
  · intro htold hout
    obtain ⟨hcur, hfr⟩ := h.untold htold hout
    refine ⟨?_, hfresh hfr⟩
    rcases hpc with hpc | ⟨-, hcur'⟩
    · rw [hpc]
      exact hcur
    · exact hcur'
  · intro htold hwrong hcur'
    rcases hpc with hpc | ⟨-, hne⟩
    · rw [hpc] at hcur' ⊢
      rcases h.working htold hwrong hcur' with hc | ⟨hfail, hfr, hpos⟩
      · refine .inl ⟨by rw [hpc]; exact hc.pc, hc.ready, hc.errs, ?_⟩
        rw [hobj]
        exact hc.closes.imp_left fun ⟨hz, hr⟩ => ⟨hz, hr.frame hf⟩
      · exact .inr ⟨hfail, hfresh hfr, hpos.congr hw⟩
    · exact absurd hcur' hne
  · intro htold hwrong hcur'
    have hcur : s.pc.cur ≠ some f := by
      rcases hpc with hpc | ⟨hcur, -⟩
      · rw [hpc] at hcur'
        exact hcur'
      · exact hcur
    have hs := h.settled htold hwrong hcur
    exact ⟨hs.ready, hs.errs, hs.closes, by rw [hobj]; exact hs.fd⟩
  · intro hwrong
    obtain ⟨hfail, htold, hready | ⟨hnil, hturn⟩⟩ := h.wrong hwrong
    · exact ⟨hfail, htold, .inl hready⟩
    · refine ⟨hfail, htold, .inr ?_⟩
      have hrun : ∃ pos m, s.pc = .run pos f m := by
        rcases hturn with ⟨m, hm, -⟩ | ⟨m, hm⟩
        · exact ⟨_, m, hm⟩
        · exact ⟨_, m, hm⟩
      obtain ⟨pos, m, hrun⟩ := hrun
      rcases hpc with hpc | ⟨hcur, -⟩
      · refine ⟨(hw ⟨pos, f, m, hrun⟩).trans hnil, ?_⟩
        rw [hpc]
        exact hturn
      · rw [hrun] at hcur
        exact absurd rfl hcur

/-- The dispatcher applies the next event to the connection. -/
theorem OneConn.dispatch {e : IoEvent} {rest : List IoEvent} (h : OneConn s f c) (hreg : RegInv s) (hpc : s.pc = .next)
    (hbatch : s.batch = e :: rest) (hatt : s.attached e.fd = some f) (hrep : c.reports s.backend e.mask = true)
    (hpoll : s.backend ≠ .epoll → e.mask.pollErr = false) : OneConn s.dispatch f (c.after s s.dispatch f .go) := by
  have hfd : (s.obj f).fd.isSome = true := by
    rw [(hreg e.fd f hatt).1]
    rfl
  have hcur : s.pc.cur ≠ some f := by
    rw [hpc]
    exact nofun
  have hdisp : s.dispatch = if e.mask.pollErr then
      { s with batch := rest, applied := s.applied ++ [(e.origin, f)] }.eventAndClose f e.mask false
      else { s with batch := rest, applied := s.applied ++ [(e.origin, f)] }.goto .out f e.mask := by
    rw [IoSt.dispatch, hbatch]
    dsimp only
    rw [hatt]
  have hpc' : s.dispatch.pc = if e.mask.pollErr then .call (.error false) f e.mask else .run .out f e.mask := by
    rw [hdisp]
    split_ifs
    · exact eventAndClose_call (s := { s with batch := rest, applied := s.applied ++ [(e.origin, f)] }) hfd h.hasEvent false
    · rfl
  have hcur' : s.dispatch.pc.cur = some f := by
    rw [hpc']
    split_ifs
    · rfl
    · rfl
  have hobj : s.dispatch.obj = s.obj := by
    rw [hdisp]
    split_ifs
    · rw [eventAndClose_obj]
    · rfl
  have hframe : Frame s s.dispatch f := frame_dispatch
  have hev : s.eventFor f .go = some e.mask := by
    rw [eventFor, hpc, hbatch]
    exact if_pos hatt
  have hcloses : (c.after s s.dispatch f .go).closes = c.closes := after_closes (by rw [hobj])
  have htold : (c.after s s.dispatch f .go).told = (c.told || decide (c.outcome = .failed)) := by
    simp [Conn.after, hev]
  have hwrong : (c.after s s.dispatch f .go).wrong = (c.wrong || (decide (c.outcome = .failed) &&
      decide ((s.obj f).wQ = []) && (decide (s.backend ≠ .epoll) && e.mask.pollOut))) := by
    simp [Conn.after, hev]
  -- what was told before is closed, or was told wrongly
  have hold : c.told = true → c.wrong = true ∧ 0 < c.ready := by
    intro ht
    have hw : c.wrong = true := by
      by_contra hw
      rw [(h.settled ht ((Bool.not_eq_true _).mp hw) hcur).fd] at hfd
      cases hfd
    obtain ⟨-, -, hready | ⟨-, ⟨m, hm, -⟩ | ⟨m, hm⟩⟩⟩ := h.wrong hw
    · exact ⟨hw, hready⟩
    · cases hpc.symm.trans hm
    · cases hpc.symm.trans hm
  refine ⟨Nat.lt_of_lt_of_le h.lt hframe.size, ?_, ?_, ?_, ?_, ?_, ?_, fun _ _ h' => absurd hcur' h', ?_⟩
  · rw [hobj, hframe.qid]
    exact h.q
  · rw [hobj]
    exact h.hasEvent
  · rw [hobj]
    exact h.notReady
  · intro ht
    rw [hobj] at ht
    refine ⟨by rw [hobj]; exact hfd, ?_⟩
    rcases (h.timer ht).2 with ⟨hq, hr, -⟩ | ⟨hc, -⟩
    · rcases he : e.mask.pollErr
      · rw [he] at hpc'
        refine .inl ⟨hq.after (by rw [hpc']; rfl) (by rw [hobj]), hr.frame hframe, fun _ => ?_⟩
        rw [hpc']
        rfl
      · rw [he] at hpc'
        refine .inr ⟨hcur', ?_⟩
        rw [hpc']
        rfl
    · exact absurd hc hcur
  · intro htold' hout
    rw [htold] at htold'
    have hfail : c.outcome ≠ .failed := by
      intro hf
      rw [hf] at htold'
      simp at htold'
    have hsucc : c.outcome = .succeeded := by
      rcases hc : c.outcome
      · rw [Conn.reports, hc] at hrep
        cases hrep
      · rfl
      · exact absurd hc hfail
    exact absurd hsucc hout
  · intro htold' hwrong' _
    rw [hwrong, Bool.or_eq_false_iff] at hwrong'
    have htold'' : c.told = false := by
      by_contra ht
      rw [(hold ((Bool.not_eq_false _).mp ht)).1] at hwrong'
      cases hwrong'.1
    have hfail : c.outcome = .failed := by
      rw [htold, htold'', Bool.false_or, decide_eq_true_eq] at htold'
      exact htold'
    obtain ⟨-, hfresh⟩ := h.untold htold'' (by rw [hfail]; exact nofun)
    rw [Conn.reports, hfail] at hrep
    dsimp only at hrep
    by_cases hback : s.backend = .epoll
    · left
      rw [if_pos hback] at hrep
      rw [if_pos hrep] at hpc'
      obtain ⟨hready, herrs⟩ := after_error (c := c) (s := s) (a := .go) hpc' rfl
      refine ⟨by rw [hpc']; rfl, hready.trans hfresh.quiet.ready, ?_, ?_⟩
      · rw [herrs, hfresh.quiet.errs]
      · exact .inl ⟨hcloses.trans hfresh.quiet.closes, hfresh.registered.frame hframe⟩
    · right
      rw [if_neg hback] at hrep
      rw [if_neg (by rw [hpoll hback]; exact Bool.false_ne_true)] at hpc'
      refine ⟨hfail, ⟨hfresh.quiet.after (by rw [hpc']; rfl) (by rw [hobj]), hfresh.registered.frame hframe, ?_, ?_⟩, ?_⟩
      · rw [hobj]
        exact hfresh.rLen
      · rw [hobj]
        exact hfresh.readReturn0
      · rw [hpc', hobj]
        refine ⟨fun hout hnil => ?_, hrep⟩
        have hbad := hwrong'.2
        rw [hfail, hnil, hout] at hbad
        simp [hback] at hbad
  · intro hwrong'
    rw [hwrong, Bool.or_eq_true] at hwrong'
    rcases hwrong' with hw | hw
    · obtain ⟨hfail, ht, -⟩ := h.wrong hw
      refine ⟨hfail, ?_, .inl (Nat.lt_of_lt_of_le (hold ht).2 ready_le_after)⟩
      rw [htold, ht]
      rfl
    · simp only [Bool.and_eq_true, decide_eq_true_eq] at hw
      obtain ⟨⟨hfail, hnil⟩, hback, hout⟩ := hw
      refine ⟨hfail, ?_, .inr ⟨by rw [hobj]; exact hnil, .inl ⟨e.mask, ?_, hout⟩⟩⟩
      · rw [htold, hfail]
        exact Bool.or_true _
      · rw [hpc', hpoll hback]
        rfl

/-- The timer fires. -/
theorem OneConn.late (h : OneConn s f c) (hpc : s.pc = .idle) (ht : (s.obj f).timer = true) {s' : IoSt}
    (hs' : s' = (s.modify f fun o => { o with timer := false }).eventAndClose f ⟨false, false, false, false⟩ true) :
    OneConn s' f (c.after s s' f (.timeout f)) := by
  have hn := h.notReady ht
  obtain ⟨hquiet, hreg⟩ : c.Quiet ∧ s.Registered f := by
    rcases (h.timer ht).2 with ⟨hq, hr, -⟩ | ⟨hc, -⟩
    · exact ⟨hq, hr⟩
    · rw [hpc] at hc
      cases hc
  have hself : (s.modify f fun o => { o with timer := false }).obj f = { s.obj f with timer := false } := modify_self
  have htunes : Tunes (s.modify f fun o => { o with timer := false }) s' f := by
    rw [hs']
    exact tunes_eventAndClose_self true
  have hobj : s'.obj f = { s.obj f with timer := false } := by
    rw [hs', eventAndClose_obj, hself]
  have hpc' : s'.pc = .call (.error true) f ⟨false, false, false, false⟩ := by
    rw [hs']
    exact eventAndClose_call (by rw [hself]; exact hreg.isSome) (by rw [hself]; exact h.hasEvent) true
  have hreg' : s'.Registered f := by
    obtain ⟨fd, hfd, hatt, hlist⟩ := hreg
    refine ⟨fd, by rw [hobj]; exact hfd, ?_, by rw [hobj]; exact hlist⟩
    rw [htunes.attached]
    exact hatt
  obtain ⟨hready, herrs⟩ := after_error (c := c) (s := s) (a := .timeout f) hpc' rfl
  have hcloses : (c.after s s' f (.timeout f)).closes = c.closes := after_closes (by rw [hobj])
  have htold : (c.after s s' f (.timeout f)).told = true := by
    simp [Conn.after, hn]
  have hwrong : (c.after s s' f (.timeout f)).wrong = c.wrong := by
    simp [Conn.after, eventFor]
  have hnotWrong : c.wrong = false := by
    by_contra hw
    obtain ⟨-, -, hpos | ⟨-, ⟨m, hm, -⟩ | ⟨m, hm⟩⟩⟩ := h.wrong ((Bool.not_eq_false _).mp hw)
    · rw [hquiet.ready] at hpos
      exact Nat.lt_irrefl _ hpos
    · cases hpc.symm.trans hm
    · cases hpc.symm.trans hm
  refine ⟨by rw [htunes.size]; exact h.lt, ?_, ?_, ?_, ?_, ?_, ?_, ?_, ?_⟩
  · rw [hobj, htunes.qid]
    exact h.q
  · rw [hobj]
    exact h.hasEvent
  · rw [hobj]
    exact fun h => by cases h
  · rw [hobj]
    exact fun h => by cases h
  · rw [htold]
    exact fun h => by cases h
  · intro _ _ _
    refine .inl ⟨by rw [hpc']; rfl, hready.trans hquiet.ready, ?_, .inl ⟨hcloses.trans hquiet.closes, hreg'⟩⟩
    rw [herrs, hquiet.errs]
  · intro _ _ hcur
    rw [hpc'] at hcur
    exact absurd rfl hcur
  · rw [hwrong, hnotWrong]
    exact fun h => by cases h

/-- The user closes the socket, or deletes it from its queue. -/
theorem OneConn.removed {s' : IoSt} {r : IoSt × Bool} {o : IoOp} (h : OneConn s f c) (hr : Removes s r.1 f)
    (hs' : s' = removal f r) (ht : (r.1.obj f).timer = false) (huser : atUser s.pc = true)
    (hdoomed : c.doomed = true → s.pc.inEvent = true ∧ s.pc.cur = some f ∧ (s.obj f).fd.isSome = true ∧ (r.1.obj f).fd = none) :
    OneConn s' f (c.after s s' f (.op o)) := by
  obtain ⟨hsize, hqid, hobj, hpc'⟩ : s'.size = s.size ∧ s'.qid = s.qid ∧ s'.obj = r.1.obj ∧ s'.pc = s.pc := by
    rw [hs', removal]
    split_ifs
    · exact ⟨hr.size, hr.qid, rfl, hr.pc⟩
    · exact ⟨hr.size, hr.qid, rfl, hr.pc⟩
  rw [← hobj] at ht hdoomed
  obtain ⟨hready, herrs⟩ := after_other (c := c) (s := s) (f := f) (a := .op o) s' nofun
  obtain ⟨htold, hwrong⟩ := after_told (c := c) s' (eventFor_none (s := s) (f := f) (a := .op o) (.inr nofun)) nofun
  have hself : (s'.obj f).q = (s.obj f).q ∧ (s'.obj f).hasEvent = (s.obj f).hasEvent := by
    rw [hobj]
    obtain ⟨l, d, ho | ho⟩ := hr.self
    · rw [ho]
      exact ⟨rfl, rfl⟩
    · rw [ho]
      exact ⟨rfl, rfl⟩
  have hofTold : c.told = true → c.doomed = true := by
    intro ht
    rw [doomed, ht]
    exact Bool.or_true _
  -- it is in `f_event_and_close`, which is about to find the socket closed
  have hclosing : c.told = true → c.wrong = false → Closing s' f (c.after s s' f (.op o)) := by
    intro ht hw
    obtain ⟨hev, hcur, hsome, hfd⟩ := hdoomed (hofTold ht)
    rcases h.working ht hw hcur with hc | ⟨-, -, hpos⟩
    · refine ⟨by rw [hpc']; exact hc.pc, hready.trans hc.ready, herrs.trans hc.errs, .inr ⟨?_, hfd⟩⟩
      rcases hc.closes with ⟨hzero, -⟩ | ⟨-, hnone⟩
      · rw [after_closed hsome hfd, hzero]
      · rw [hnone] at hsome
        cases hsome
    · rcases hpc : s.pc with _ | _ | ⟨pos, g, m⟩ | ⟨site, g, m⟩
      · rw [hpc] at hpos
        exact hpos.elim
      · rw [hpc] at hpos
        exact hpos.elim
      · rw [hpc] at hev
        cases hev
      · rw [hpc] at hpos hev
        rcases site
        case ready => exact hpos.elim
        case error => exact hpos.elim
        all_goals cases hev
  refine ⟨by rw [hsize]; exact h.lt, ?_, hself.2.trans h.hasEvent, ?_, ?_, ?_, ?_, ?_, ?_⟩
  · rw [hself.1, hqid]
    exact h.q
  · rw [ht]
    exact nofun
  · rw [ht]
    exact nofun
  · intro htold' hout
    have hd : c.doomed = true := by
      rw [doomed, decide_eq_true (show c.outcome ≠ .succeeded from hout)]
      rfl
    exact absurd (hdoomed hd).2.1 (h.untold (htold.symm.trans htold') hout).1
  · intro htold' hwrong' _
    exact .inl (hclosing (htold.symm.trans htold') (hwrong.symm.trans hwrong'))
  · intro htold' _ hcur'
    rw [hpc'] at hcur'
    exact absurd (hdoomed (hofTold (htold.symm.trans htold'))).2.1 hcur'
  · intro hwrong'
    obtain ⟨hfail, htold', hpos | ⟨-, ⟨m, hm, -⟩ | ⟨m, hm⟩⟩⟩ := h.wrong (hwrong.symm.trans hwrong')
    · exact ⟨hfail, htold.trans htold', .inl (Nat.lt_of_lt_of_le hpos ready_le_after)⟩
    · rw [hm] at huser
      cases huser
    · rw [hm] at huser
      cases huser

theorem OneConn.settle (h : OneConn s f c) (ok : Bool) : OneConn s f (c.settle ok) := by
  unfold Conn.settle
  by_cases hout : c.outcome = .pending
  · rw [if_pos hout]
    refine ⟨h.lt, h.q, h.hasEvent, h.notReady, fun ht => ?_, fun htold _ => ?_, fun htold hwrong hcur => ?_,
      fun htold hwrong hcur => ?_, fun hwrong => ?_⟩
    · obtain ⟨hfd, hcase⟩ := h.timer ht
      exact ⟨hfd, hcase.imp_left fun ⟨hq, hrest⟩ => ⟨⟨hq.ready, hq.errs, hq.closes⟩, hrest⟩⟩
    · obtain ⟨hcur, hf⟩ := h.untold htold (by rw [hout]; exact nofun)
      exact ⟨hcur, ⟨hf.quiet.ready, hf.quiet.errs, hf.quiet.closes⟩, hf.registered, hf.rLen, hf.readReturn0⟩
    · rcases h.working htold hwrong hcur with hc | ⟨hf, -⟩
      · exact .inl ⟨hc.pc, hc.ready, hc.errs, hc.closes⟩
      · cases hout.symm.trans hf
    · have hset := h.settled htold hwrong hcur
      exact ⟨hset.ready, hset.errs, hset.closes, hset.fd⟩
    · cases hout.symm.trans (h.wrong hwrong).1
  · rw [if_neg hout]
    exact h

end Work

namespace IoSt

variable {s s' : IoSt} {f : Nat} {m : EventMask} {a : IoAct}

/-- Between two calls the write queue of an iofd that is not in work stays. -/
theorem wQ_of_step {g : Nat} {pos : IoPos} (hs : s.step a = some s') (hpc : s.pc = .run pos g m)
    (hwork : ¬ s.worksOn f a) (hq : (s.obj f).q = s.qid) (hf : f < s.size) : (s'.obj f).wQ = (s.obj f).wQ := by
  cases does_of_step hs with
  | wait hpc' => cases hpc.symm.trans hpc'
  | late hpc' => cases hpc.symm.trans hpc'
  | ready hpc' => cases hpc.symm.trans hpc'
  | dispatch hpc' => cases hpc.symm.trans hpc'
  | @run pos g m hpc' =>
    have hfg : f ≠ g := by
      rintro rfl
      exact hwork ⟨by rw [hpc']; rfl, .inl rfl⟩
    by_cases hclose : pos.closing = true
    · rcases pos
      case close t =>
        rw [runPos]
        split_ifs
        · simp only [leave]
          rw [(removes_thisQCloseF s s.qid g true).other f hfg]
        · rfl
      all_goals cases hclose
    · rw [(tunes_runPos ((Bool.not_eq_true _).mp hclose)).other f hfg]
  | ret hpc' => cases hpc.symm.trans hpc'
  | op hu => exact wQ_of_run hpc hq hf hu

theorem eventFor_some (h : s.eventFor f a = some m) :
    ∃ e rest, a = .go ∧ s.pc = .next ∧ s.batch = e :: rest ∧ s.attached e.fd = some f := by
  unfold eventFor at h
  split at h
  · split at h
    · next e rest hpc hbatch =>
      split_ifs at h with hatt
      exact ⟨e, rest, rfl, hpc, hbatch, hatt⟩
    · cases h
  · cases h

theorem runPos_keeps (s : IoSt) (g : Nat) (m : EventMask) (pos : IoPos) : (s.runPos g m pos).batch = s.batch ∧
    s.size ≤ (s.runPos g m pos).size ∧ (s.runPos g m pos).backend = s.backend := by
  by_cases hclose : pos.closing = true
  · rcases pos
    case close t =>
      have hr := removes_thisQCloseF s s.qid g true
      rw [runPos]
      split_ifs
      · exact ⟨hr.batch, Nat.le_of_eq hr.size.symm, hr.backend⟩
      · exact ⟨rfl, Nat.le_refl _, rfl⟩
    all_goals cases hclose
  · have ht := tunes_runPos (s := s) (f := g) (m := m) ((Bool.not_eq_true _).mp hclose)
    exact ⟨ht.batch, Nat.le_of_eq ht.size.symm, ht.backend⟩

/-- But for a new wait, the batch gets shorter. -/
theorem step_keeps (hs : s.step a = some s') : s.size ≤ s'.size ∧ s'.backend = s.backend ∧
    ((∃ reports, a = .wait reports) ∨ ∀ e ∈ s'.batch, e ∈ s.batch) := by
  cases does_of_step hs with
  | @wait reports =>
    have hframe := frame_wait (s := s) (f := 0) reports
    exact ⟨hframe.size, hframe.backend, .inl ⟨reports, rfl⟩⟩
  | @late f =>
    have ht := tunes_eventAndClose_self (s := s.modify f fun o => { o with timer := false }) (f := f)
      (m := ⟨false, false, false, false⟩) true
    refine ⟨Nat.le_of_eq ht.size.symm, ht.backend, .inr fun e he => ?_⟩
    rw [ht.batch] at he
    exact he
  | ready => exact ⟨Nat.le_refl _, rfl, .inr fun _ => id⟩
  | dispatch =>
    have hframe := frame_dispatch (s := s) (f := 0)
    refine ⟨hframe.size, hframe.backend, .inr fun e he => ?_⟩
    unfold dispatch at he
    split at he
    · exact he
    · next e' rest hbatch =>
      rw [hbatch]
      apply List.mem_cons_of_mem
      split at he
      · exact he
      · dsimp only at he
        split_ifs at he
        · rw [(tunes_eventAndClose_self false).batch] at he
          exact he
        · exact he
  | @run pos g m =>
    obtain ⟨hbatch, hsize, hback⟩ := runPos_keeps s g m pos
    refine ⟨hsize, hback, .inr fun e he => ?_⟩
    rw [hbatch] at he
    exact he
  | @ret v site g m =>
    have ht := tunes_retCall (s := s) (f := g) (m := m) (v := v) site
    refine ⟨Nat.le_of_eq ht.size.symm, ht.backend, .inr fun e he => ?_⟩
    rw [ht.batch] at he
    exact he
  | @op o =>
    obtain ⟨-, hsize, hbatch, hback⟩ := doOp_keeps s o
    refine ⟨hsize, hback, .inr fun e he => ?_⟩
    rw [hbatch] at he
    exact he

end IoSt

namespace ConnSt

open IoSt

variable {s s' : ConnSt} {f : Nat} {c : Conn} {a : IoAct} {io : IoSt}

/-- The invariant of a run; an event of the batch is one the OS can report of its connection. -/
structure ConnInv (s : ConnSt) : Prop where
  ev : EvInv s.io
  noErr : s.io.backend ≠ .epoll → ∀ e ∈ s.io.batch, e.mask.pollErr = false
  reports : ∀ e ∈ s.io.batch, ∀ i, e.origin = some i → i < s.io.size ∧
    ∀ c, s.conn i = some c → c.reports s.io.backend e.mask = true
  each : ∀ f c, s.conn f = some c → OneConn s.io f c

theorem closeOk (h : EvInv s.io) : s.io.CloseOk f a := by
  intro t g m n _ hpc hg hn
  rcases (h.cur g (by rw [hpc]; rfl)).2 n hg with hatt | hatt
  · exact Option.some.inj (hatt.symm.trans hn)
  · cases hatt.symm.trans hn

/-- The user closes or deletes the connection. -/
theorem ConnInv.removed {o : IoOp} {n : Nat} (h : s.ConnInv) (hf : s.conn f = some c) (hrem : removesFd n (.op o) = true)
    (hn : s.io.attached n = some f) (hok : s.allowed (.op o) = true) (hu : s.io.opQueue o = s.io.qid → atUser s.io.pc = true) :
    OneConn (s.io.doOp o) f (c.after s.io (s.io.doOp o) f (.op o)) := by
  have hone := h.each f c hf
  have hfd := (h.ev.reg n f hn).1
  rcases o with ⟨fd, ok⟩ | fd | _ | _
  · obtain rfl := of_decide_eq_true hrem
    have hdo : s.io.doOp (.close fd ok) = removal f (s.io.thisQCloseF (s.io.obj f).q f ok) := by
      rw [doOp, hn]
    rw [hdo]
    refine hone.removed (removes_thisQCloseF ..) rfl (timer_thisQCloseF rfl) ?_ fun hd => ?_
    · apply hu
      rw [opQueue, hn]
      exact hone.q
    · have hmay : s.mayClose fd = true := (Bool.and_eq_true_iff.1 hok).2
      rw [mayClose, hn, Option.all_some, hf, Option.any_some, hd, Bool.not_true, Bool.false_or] at hmay
      refine ⟨?_, ?_, by rw [hfd]; rfl, fd_thisQCloseF hfd hn rfl⟩
      · split at hmay
        · next hpc =>
          rw [hpc]
          rfl
        · next hpc =>
          rw [hpc]
          rfl
        · cases hmay
      · split at hmay
        · next hpc =>
          rw [hpc, IoPc.cur, of_decide_eq_true hmay]
        · next hpc =>
          rw [hpc, IoPc.cur, of_decide_eq_true hmay]
        · cases hmay
  · obtain rfl := of_decide_eq_true hrem
    have hdo : s.io.doOp (.del fd) = removal f (s.io.qDelF (s.io.obj f).q f) := by
      rw [doOp, hn]
    rw [hdo]
    refine hone.removed (removes_qDelF ..) rfl (timer_qDelF rfl) ?_ fun hd => ?_
    · apply hu
      rw [opQueue, hn]
      exact hone.q
    · have hdel := (Bool.and_eq_true_iff.1 hok).2
      simp [hn, hf, hd] at hdel
  · cases hrem
  · cases hrem

/-- A step of the queue. -/
theorem ConnInv.after (h : s.ConnInv) (hf : s.conn f = some c) (hok : s.allowed a = true) (hio : s.io.step a = some io) :
    OneConn io f (c.after s.io io f a) := by
  have hone := h.each f c hf
  by_cases hwork : s.io.worksOn f a
  · obtain ⟨hcur, ha⟩ := hwork
    cases does_of_step hio with
    | wait => simp at ha
    | late => simp at ha
    | ready => simp at ha
    | dispatch hpc =>
      rw [hpc] at hcur
      cases hcur
    | run hpc =>
      rw [hpc] at hcur
      cases hcur
      exact hone.run hpc
    | ret hpc =>
      rw [hpc] at hcur
      cases hcur
      refine hone.ret hpc fun hsite hfail => ?_
      have hret := (Bool.and_eq_true_iff.1 hok).2
      rw [hpc] at hret
      rcases hsite with rfl | rfl
      · simpa [hf, hfail] using hret
      · simpa [hf, hfail] using hret
    | op => simp at ha
  · by_cases htimer : a = .timeout f
    · subst htimer
      cases does_of_step hio with
      | late hpc _ _ ht => exact hone.late hpc ht rfl
      | ready _ _ _ ht hn =>
        rw [hone.notReady ht] at hn
        cases hn
    · by_cases hrem : ∃ n, removesFd n a = true ∧ s.io.attached n = some f
      · obtain ⟨n, hrem, hn⟩ := hrem
        cases does_of_step hio with
        | op hu => exact h.removed hf hrem hn hok hu
        | _ => cases hrem
      · rcases hevent : s.io.eventFor f a with _ | m
        · obtain ⟨hframe, hcomes⟩ := frame_step hio h.ev.reg hone.lt hwork htimer (closeOk h.ev) fun n hr hn => hrem ⟨n, hr, hn⟩
          have hcur : s.io.pc.cur ≠ some f ∨ a.calls = false := by
            rcases a with _ | g | _ | v | _
            · exact .inr rfl
            · left
              cases does_of_step hio with
              | late hpc => rw [hpc]; exact nofun
              | ready hpc => rw [hpc]; exact nofun
            · exact .inl fun hc => hwork ⟨hc, .inl rfl⟩
            · exact .inl fun hc => hwork ⟨hc, .inr ⟨v, rfl⟩⟩
            · exact .inr rfl
          have hpc : io.pc = s.io.pc ∨ s.io.pc.cur ≠ some f ∧ io.pc.cur ≠ some f := by
            rcases hcomes with hpc | hne | ⟨e, rest, rfl, hpc, hbatch, hatt, -⟩
            · exact .inl hpc
            · exact .inr hne
            · rw [eventFor, hpc, hbatch] at hevent
              cases (if_pos hatt).symm.trans hevent
          have hcalls : a.calls = true → io.pc.cur ≠ some f := by
            intro hcalls
            rcases hpc with hpc | ⟨-, hne⟩
            · rw [hpc]
              exact hcur.resolve_right (by rw [hcalls]; exact nofun)
            · exact hne
          have hfd : (io.obj f).fd = (s.io.obj f).fd := by
            obtain ⟨a, b, w, hobj⟩ := hframe.obj
            rw [hobj]
          rw [Conn.after_eq hcalls hfd hevent htimer]
          exact hone.frame hframe hpc fun ⟨_, _, _, hrun⟩ => wQ_of_step hio hrun hwork hone.q hone.lt
        · obtain ⟨e, rest, rfl, hpc, hbatch, hatt⟩ := eventFor_some hevent
          have hmem : e ∈ s.io.batch := by
            rw [hbatch]
            exact List.mem_cons_self
          have horigin : e.origin = some f := by
            obtain ⟨i, hi, hor | hor⟩ := h.ev.pending e hmem
            · rw [hi, Option.some.inj (hor.symm.trans hatt)]
            · cases hor.symm.trans hatt
          cases does_of_step hio with
          | dispatch =>
            exact hone.dispatch h.ev.reg hpc hbatch hatt ((h.reports e hmem f horigin).2 c hf) fun hb => h.noErr hb e hmem
          | run hpc' => cases hpc.symm.trans hpc'

theorem ConnInv.other {o : IoOp} (h : s.ConnInv) (hf : s.conn f = some c) (hio : s.io.step (.op o) = some io)
    (hrem : ∀ n, removesFd n (.op o) = true → s.io.attached n ≠ some f) : OneConn io f c := by
  have hone := h.each f c hf
  have hwork : ¬ s.io.worksOn f (.op o) := fun ⟨_, ha⟩ => by simp at ha
  obtain ⟨hframe, hcomes⟩ := frame_step hio h.ev.reg hone.lt hwork nofun (closeOk h.ev) hrem
  refine hone.frame hframe (.inl ?_) fun ⟨_, _, _, hrun⟩ => wQ_of_step hio hrun hwork hone.q hone.lt
  cases does_of_step hio with
  | op => exact (doOp_keeps _ _).1

/-- The batch of a wait. -/
theorem ConnInv.wait {reports : List (Nat × EventMask)} (h : s.ConnInv) (hok : s.allowed (.wait reports) = true)
    (hr : ∀ r ∈ reports, s.io.canReport r = true) {e : IoEvent} (he : e ∈ (s.io.wait reports).batch) :
    (s.io.backend ≠ .epoll → e.mask.pollErr = false) ∧ ∀ i, e.origin = some i → i < s.io.size ∧
      ∀ c, s.conn i = some c → c.reports s.io.backend e.mask = true := by
  have hbatch : (s.io.wait reports).batch = reports.map fun r =>
      ⟨(s.io.obj r.1).fd.getD 0, r.2, s.io.registered ((s.io.obj r.1).fd.getD 0)⟩ := rfl
  rw [hbatch] at he
  obtain ⟨r, hm, rfl⟩ := List.mem_map.1 he
  have hcan := hr r hm
  simp only [canReport, Bool.and_eq_true, decide_eq_true_eq] at hcan
  obtain ⟨⟨⟨hlist, hq⟩, -⟩, hmask⟩ := hcan
  obtain ⟨n, hn⟩ := h.ev.listed r.1 hlist
  obtain ⟨hfd, hlt⟩ := h.ev.reg n r.1 hn
  have horigin : s.io.registered ((s.io.obj r.1).fd.getD 0) = some r.1 := by
    rw [hfd, Option.getD_some, registered, hn]
    exact if_pos (decide_eq_true hq)
  refine ⟨fun hback => ?_, fun i hi => ?_⟩
  · rw [if_neg hback] at hmask
    simp only [Bool.and_eq_true, Bool.not_eq_true'] at hmask
    exact hmask.1.2
  · obtain rfl := Option.some.inj (horigin.symm.trans hi)
    refine ⟨hlt, fun c hc => ?_⟩
    have hall := List.all_eq_true.1 (Bool.and_eq_true_iff.1 hok).2 r hm
    rw [hc, Option.all_some] at hall
    exact hall

theorem ConnInv.stepIo (h : s.ConnInv) (hok : s.allowed a = true) (hio : s.io.step a = some io) :
    (⟨io, fun f => (s.conn f).map fun c => c.after s.io io f a⟩ : ConnSt).ConnInv := by
  obtain ⟨hsize, hback, hbatch⟩ := step_keeps hio
  have hevent : ∀ e ∈ io.batch, (s.io.backend ≠ .epoll → e.mask.pollErr = false) ∧ ∀ i, e.origin = some i →
      i < s.io.size ∧ ∀ c, s.conn i = some c → c.reports s.io.backend e.mask = true := by
    intro e he
    rcases hbatch with ⟨reports, rfl⟩ | hsub
    · cases does_of_step hio with
      | wait _ hr => exact h.wait hok hr he
    · exact ⟨fun hb => h.noErr hb e (hsub e he), h.reports e (hsub e he)⟩
  refine ⟨h.ev.step (of_decide_eq_true (Bool.and_eq_true_iff.1 hok).1) hio, fun hb e he => ?_, fun e he i hi => ?_, ?_⟩
  · change io.backend ≠ .epoll at hb
    rw [hback] at hb
    exact (hevent e he).1 hb
  · obtain ⟨hlt, hrep⟩ := (hevent e he).2 i hi
    refine ⟨Nat.lt_of_lt_of_le hlt hsize, fun c hc => ?_⟩
    obtain ⟨c₀, hc₀, rfl⟩ := Option.map_eq_some_iff.1 hc
    change c₀.reports io.backend e.mask = true
    rw [hback]
    exact hrep c₀ hc₀
  · intro f c hc
    obtain ⟨c₀, hc₀, rfl⟩ := Option.map_eq_some_iff.1 hc
    exact h.after hc₀ hok hio

theorem ConnInv.settle (h : s.ConnInv) (f : Nat) (ok : Bool) :
    ({ s with conn := fun i => if i = f then (s.conn f).map (·.settle ok) else s.conn i } : ConnSt).ConnInv := by
  refine ⟨h.ev, h.noErr, fun e he i hi => ?_, fun i c hc => ?_⟩
  · obtain ⟨hlt, hrep⟩ := h.reports e he i hi
    refine ⟨hlt, fun c hc => ?_⟩
    dsimp only at hc
    split_ifs at hc with hif
    · obtain ⟨c₀, hc₀, rfl⟩ := Option.map_eq_some_iff.1 hc
      have hold := hrep c₀ (hif ▸ hc₀)
      -- the OS reports nothing of a connection in progress
      have hout : c₀.outcome ≠ .pending := by
        intro hout
        rw [Conn.reports, hout] at hold
        cases hold
      change (c₀.settle ok).reports s.io.backend e.mask = true
      rw [Conn.settle, if_neg hout]
      exact hold
    · exact hrep c hc
  · dsimp only at hc
    split_ifs at hc with hif
    · obtain ⟨c₀, hc₀, rfl⟩ := Option.map_eq_some_iff.1 hc
      exact hif ▸ (h.each f c₀ hc₀).settle ok
    · exact h.each i c hc

theorem connectOp_step {fd : Nat} {timer hasChkPkt : Bool} (hfd : (s.io.attached fd).isSome = false)
    (hio : s.io.step (s.connectOp fd timer hasChkPkt) = some io) :
    io = { s.io with
      obj := fun i => if i = s.io.size then ⟨some fd, s.io.qid, true, timer && true, true, true, hasChkPkt, false, true,
        true && !decide (s.io.backend = .epoll), true && !decide (s.io.backend = .epoll), true, false, 0, []⟩ else s.io.obj i
      size := s.io.size + 1
      attached := fun n => if n = fd then some s.io.size else s.io.attached n } := by
  cases does_of_step hio with
  | op => rw [doOp, addFd, if_neg (by rw [hfd]; exact Bool.false_ne_true)]

theorem oneConn_connect {fd : Nat} {timer hasChkPkt : Bool} (h : s.ConnInv) (hfd : (s.io.attached fd).isSome = false)
    (hio : s.io.step (s.connectOp fd timer hasChkPkt) = some io) :
    OneConn io s.io.size ⟨.pending, 0, 0, 0, false, false⟩ := by
  have hdo := connectOp_step hfd hio
  have hcur : io.pc.cur ≠ some s.io.size := by
    intro hc
    rw [hdo] at hc
    exact Nat.lt_irrefl _ (h.ev.cur _ hc).1
  have hobj : io.obj s.io.size = ⟨some fd, s.io.qid, true, timer && true, true, true, hasChkPkt, false, true,
      true && !decide (s.io.backend = .epoll), true && !decide (s.io.backend = .epoll), true, false, 0, []⟩ := by
    rw [hdo]
    exact if_pos rfl
  have hreg : io.Registered s.io.size := by
    refine ⟨fd, by rw [hobj], ?_, by rw [hobj]⟩
    rw [hdo]
    exact if_pos rfl
  refine ⟨?_, ?_, by rw [hobj], fun _ => by rw [hobj], fun _ => ?_, fun _ _ => ?_, nofun, nofun, nofun⟩
  · rw [hdo]
    exact Nat.lt_succ_self _
  · rw [hobj, hdo]
  · exact ⟨hreg.isSome, .inl ⟨⟨rfl, rfl, rfl⟩, hreg, fun hc => absurd hc hcur⟩⟩
  · exact ⟨hcur, ⟨rfl, rfl, rfl⟩, hreg, by rw [hobj], by rw [hobj]⟩

theorem ConnInv.connect {fd : Nat} {timer hasChkPkt : Bool} (ret : ConnectRet) (h : s.ConnInv)
    (hok : s.io.AddOk (s.connectOp fd timer hasChkPkt)) (hfd : (s.io.attached fd).isSome = false)
    (hio : s.io.step (s.connectOp fd timer hasChkPkt) = some io) : (s.doConnect fd s.io.size io ret).ConnInv := by
  have hev : EvInv io := h.ev.step hok hio
  have hold : ∀ f c, s.conn f = some c → OneConn io f c := fun f c hc => h.other hc hio nofun
  have hnew := oneConn_connect h hfd hio
  have hbatch : io.batch = s.io.batch ∧ io.backend = s.io.backend ∧ io.size = s.io.size + 1 := by
    rw [connectOp_step hfd hio]
    exact ⟨rfl, rfl, rfl⟩
  obtain ⟨hbatch, hback, hsize⟩ := hbatch
  have hatt : io.attached fd = some s.io.size := by
    rw [connectOp_step hfd hio]
    exact if_pos rfl
  -- the batch and the connections of before
  have hassemble : ∀ s' : ConnSt, EvInv s'.io → s'.io.batch = io.batch → s'.io.backend = io.backend →
      s.io.size ≤ s'.io.size → (∀ i, i ≠ s.io.size → s'.conn i = s.conn i) →
      (∀ f c, s'.conn f = some c → OneConn s'.io f c) → s'.ConnInv := by
    intro s' hev hb hback' hsize' hconn heach
    refine ⟨hev, fun hb' e he => ?_, fun e he i hi => ?_, heach⟩
    · rw [hb, hbatch] at he
      rw [hback', hback] at hb'
      exact h.noErr hb' e he
    · rw [hb, hbatch] at he
      obtain ⟨hlt, hrep⟩ := h.reports e he i hi
      refine ⟨Nat.lt_of_lt_of_le hlt hsize', fun c hc => ?_⟩
      rw [hback', hback]
      exact hrep c ((hconn i (Nat.ne_of_lt hlt)).symm.trans hc)
  have hsize' : s.io.size ≤ io.size := by
    rw [hsize]
    exact Nat.le_succ _
  rcases ret
  · rw [doConnect]
    refine hassemble _ hev rfl rfl hsize' (fun i hi => if_neg hi) fun f c hc => ?_
    dsimp only at hc
    split_ifs at hc with hf
    · cases hc
      exact hf ▸ hnew
    · exact hold f c hc
  · have hev' := hev.modify (f := s.io.size) (g := fun o => { o with notReady := false, timer := false }) (fun _ => rfl)
      (fun _ => rfl) fun _ ht => absurd ht Bool.false_ne_true
    rw [doConnect]
    generalize hio' : (io.modify s.io.size fun o => { o with notReady := false, timer := false }) = io' at hev' ⊢
    have hkeep : io'.batch = io.batch ∧ io'.backend = io.backend ∧ s.io.size ≤ io'.size := by
      rw [← hio']
      exact ⟨rfl, rfl, hsize'⟩
    refine hassemble _ ⟨hev'.reg, hev'.listed, hev'.timer, hev'.pending, hev'.cur, hev'.kept⟩ hkeep.1 hkeep.2.1 hkeep.2.2
      (fun i hi => if_neg hi) fun f c hc => ?_
    dsimp only at hc ⊢
    rw [← hio']
    split_ifs at hc with hf
    · cases hc
      subst hf
      have hself : (io.modify s.io.size fun o => { o with notReady := false, timer := false }).obj s.io.size =
          { io.obj s.io.size with notReady := false, timer := false } := modify_self
      refine ⟨hnew.lt, ?_, ?_, ?_, ?_, fun _ hout => absurd rfl hout, nofun, nofun, nofun⟩
      · rw [hself]
        exact hnew.q
      · rw [hself]
        exact hnew.hasEvent
      · rw [hself]
        exact nofun
      · rw [hself]
        exact nofun
    · have hother : (io.modify s.io.size fun o => { o with notReady := false, timer := false }).obj f = io.obj f :=
        modify_other hf
      exact (hold f c hc).frame (frame_obj rfl rfl (Nat.le_refl _) (fun _ => Iff.rfl) hother) (.inl rfl)
        fun _ => by rw [hother]
  · obtain ⟨hpc, hsize'', hbatch', hback'⟩ := doOp_keeps io (.del fd)
    have hev' : EvInv (io.doOp (.del fd)) := EvInv.doOp (o := .del fd) hev trivial
    have hone : ∀ f c, s.conn f = some c → OneConn (io.doOp (.del fd)) f c := by
      intro f c hc
      have hlt : f < s.io.size := (h.each f c hc).lt
      have hne : ∀ n, removesFd n (.op (.del fd)) = true → io.attached n ≠ some f := by
        intro n hn hf
        rw [← of_decide_eq_true hn, hatt] at hf
        exact Nat.ne_of_lt hlt (Option.some.inj hf).symm
      have hobj : (io.doOp (.del fd)).obj f = io.obj f := by
        simp only [doOp, hatt]
        have hr := (removes_qDelF io (io.obj s.io.size).q s.io.size).other f (Nat.ne_of_lt hlt)
        unfold removal
        split_ifs
        · exact hr
        · exact hr
      exact (hold f c hc).frame (frame_doOp hev.reg (hold f c hc).lt hne) (.inl hpc) fun _ => congrArg Iofd.wQ hobj
    rw [doConnect]
    generalize io.doOp (.del fd) = io' at *
    exact hassemble { s with io := io' } hev' hbatch' hback' (Nat.le_trans hsize' hsize'') (fun _ _ => rfl) hone

theorem ConnInv.step {a : ConnAct} (h : s.ConnInv) (hs : s.step a = some s') : s'.ConnInv := by
  rcases a with ⟨fd, timer, hasChkPkt, ret⟩ | ⟨f, ok⟩ | a
  · simp only [ConnSt.step] at hs
    split_ifs at hs with hok hfd
    · obtain ⟨io, hio, rfl⟩ := Option.map_eq_some_iff.1 hs
      have hsame : io = s.io := by
        cases does_of_step hio with
        | op => rw [doOp, addFd, if_pos hfd]
      rw [hsame]
      exact ⟨h.ev, h.noErr, h.reports, h.each⟩
    · obtain ⟨io, hio, rfl⟩ := Option.map_eq_some_iff.1 hs
      exact h.connect ret hok ((Bool.not_eq_true _).mp hfd) hio
  · cases hs
    exact h.settle f ok
  · simp only [ConnSt.step] at hs
    split_ifs at hs with hok
    obtain ⟨io, hio, rfl⟩ := Option.map_eq_some_iff.1 hs
    exact h.stepIo hok hio

theorem ConnInv.init (backend : Backend) (qid : Nat) : (init backend qid).ConnInv :=
  ⟨EvInv.init backend qid, fun _ => nofun, nofun, nofun⟩

/-- A connection that no event has misled. -/
theorem ConnInv.truthful (h : s.ConnInv) (hf : s.conn f = some c) (hw : c.wrong = false) : s.Truthful f c := by
  have hone := h.each f c hf
  have htold : c.told = true → c.ready = 0 ∧ c.errs ≤ 1 ∧ c.closes ≤ 1 := by
    intro ht
    by_cases hcur : s.io.pc.cur = some f
    · rcases hone.working ht hw hcur with hc | ⟨-, hfr, -⟩
      · refine ⟨hc.ready, Nat.le_of_eq hc.errs, ?_⟩
        rcases hc.closes with ⟨hz, -⟩ | ⟨ho, -⟩
        · rw [hz]
          exact Nat.zero_le _
        · exact Nat.le_of_eq ho
      · rw [hfr.quiet.ready, hfr.quiet.errs, hfr.quiet.closes]
        exact ⟨rfl, Nat.zero_le _, Nat.zero_le _⟩
    · have hset := hone.settled ht hw hcur
      exact ⟨hset.ready, Nat.le_of_eq hset.errs, Nat.le_of_eq hset.closes⟩
  refine ⟨fun hready => ?_, fun hbad => ?_, fun ht hcur => ?_, fun hfail ht => ?_⟩
  · by_contra hout
    rcases ht : c.told
    · rw [(hone.untold ht hout).2.quiet.ready] at hready
      exact Nat.lt_irrefl _ hready
    · rw [(htold ht).1] at hready
      exact Nat.lt_irrefl _ hready
  · rcases ht : c.told
    · rw [ht] at hbad
      have hquiet := (hone.untold ht (by rw [hbad.resolve_right nofun]; exact nofun)).2.quiet
      rw [hquiet.errs, hquiet.closes]
      exact ⟨Nat.zero_le _, Nat.zero_le _⟩
    · exact (htold ht).2
  · have hset := hone.settled ht hw hcur
    exact ⟨hset.errs, hset.closes, hset.fd⟩
  · obtain ⟨-, hfr⟩ := hone.untold ht (by rw [hfail]; exact nofun)
    exact ⟨hfr.registered, hfr.quiet.errs, hfr.quiet.closes⟩

/-- Over any run: as long as no event of the failed connection has come to the writable branch of the dispatchers of
`poll_mp.c` or `select_mp.c` with an empty write queue, `event_f` is told the truth; outside the work on it, only
then. -/
theorem connect_truthful_iff {backend : Backend} {qid : Nat} {acts : List ConnAct} (h : run backend qid acts = some s)
    (hf : s.conn f = some c) :
    (c.wrong = false → s.Truthful f c) ∧ (s.io.pc.cur ≠ some f → (s.Truthful f c ↔ c.wrong = false)) := by
  have hinv : s.ConnInv :=
    exec_invariant_all (fun _ _ _ h hs => ConnInv.step h hs) (ConnInv.init backend qid) h
  refine ⟨hinv.truthful hf, fun hcur => ⟨fun ht => ?_, hinv.truthful hf⟩⟩
  by_contra hw
  obtain ⟨hfail, -, hready | ⟨-, ⟨m, hm, -⟩ | ⟨m, hm⟩⟩⟩ := (hinv.each f c hf).wrong ((Bool.not_eq_false _).mp hw)
  · cases hfail.symm.trans (ht.ready hready)
  · rw [hm] at hcur
    exact hcur rfl
  · rw [hm] at hcur
    exact hcur rfl

/-- With bytes in the write queue, `__iofd_write_data` finds the error. -/
def queuedRun : List ConnAct :=
  [.connect 4 true false .inProgress, .io (.op (.send .write 4 8 0)), .settle 0 false,
    .io (.wait [(0, ⟨true, true, false, false⟩)])] ++ List.replicate 3 (.io .go) ++
    [.io (.ret (-2000)), .io (.ret 0), .io .go, .io .go]

theorem connect_truthful_iff_queuedRun : ∃ s c, run .poll 0 queuedRun = some s ∧ s.conn 0 = some c ∧
    c.outcome = .failed ∧ c.told = true ∧ c.wrong = false ∧ s.Truthful 0 c := by
  have hrun : (run .poll 0 queuedRun).any (fun s => (s.conn 0).any fun c => c.outcome = .failed ∧ c.told = true ∧
      c.wrong = false) = true := by
    decide +kernel
  obtain ⟨s, hs, hc⟩ := (Option.any_eq_true ..).1 hrun
  obtain ⟨c, hc, hp⟩ := (Option.any_eq_true ..).1 hc
  obtain ⟨hfail, htold, hw⟩ := of_decide_eq_true hp
  exact ⟨s, c, hs, hc, hfail, htold, hw, (connect_truthful_iff hs hc).1 hw⟩

/-- With an empty write queue, the failed connection is reported as ready. -/
def refusedRun : List ConnAct :=
  [.connect 4 true false .inProgress, .settle 0 false, .io (.wait [(0, ⟨true, true, false, false⟩)])] ++
    List.replicate 3 (.io .go) ++ [.io (.ret 0)] ++ List.replicate 5 (.io .go) ++
    [.io (.ret (-2000)), .io (.ret 0), .io .go, .io .go]

theorem not_connect_truthful : ¬ ∀ (backend : Backend) (qid : Nat) (acts : List ConnAct) (s : ConnSt) (f : Nat) (c : Conn),
    run backend qid acts = some s → s.conn f = some c → s.io.pc.cur ≠ some f → s.Truthful f c := by
  intro h
  have hrun : (run .poll 0 refusedRun).any (fun s => s.io.pc = .idle ∧ (s.conn 0).any fun c =>
      0 < c.ready ∧ c.outcome = .failed) = true := by
    decide +kernel
  obtain ⟨s, hs, hp⟩ := (Option.any_eq_true ..).1 hrun
  obtain ⟨hpc, hp⟩ := of_decide_eq_true hp
  obtain ⟨c, hc, hp⟩ := (Option.any_eq_true ..).1 hp
  obtain ⟨hready, hfail⟩ := of_decide_eq_true hp
  have htruth := h .poll 0 refusedRun s 0 c hs hc (by rw [hpc]; exact nofun)
  cases hfail.symm.trans (htruth.ready hready)

end ConnSt

end Aosl
