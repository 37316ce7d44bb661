import Aosl.RwlockStep

/-!
# Runs of the raw reader/writer lock

In every run of fewer than `2 ^ 15` threads a writer is alone, `count` never overflows between its two parts, and no
waiter is forgotten. The wake loop, however, pulses an event after it has let the owner of the event go: a reader that
polls its `waiter.event` in between returns and destroys the event before the pulse.
-/

namespace Aosl
open Lib

namespace RwThread

/-- The thread is in a function of the slow path. -/
def slow (x : RwThread) : Bool :=
  match x.ph with
  | .idle => false
  | .tryRead => false
  | .tryCas _ => false
  | .readHeld => false
  | .writeHeld => false
  | _ => true

/-- The thread is in `k_event_wait`. -/
def blocked (x : RwThread) : Bool := x.ph = .readWait || x.ph = .writeWait

/-- The event and the waiter of the thread are there: it is between `k_event_init` and `k_event_destroy`. -/
def framed (x : RwThread) : Bool :=
  match x.ph with
  | .readAddIn => true
  | .readIn => true
  | .readLoop => true
  | .readWait => true
  | .writeAddIn => true
  | .writeIn => true
  | .writeWait => true
  | .writeWoken => true
  | .writeGotIn => true
  | _ => false

theorem blocked_of_owes {x : RwThread} (howes : x.owes = true) (hr : x.holdsRead = false) (hw : x.holdsWrite = false) :
    x.slow = true ∧ x.blocked = false := by
  obtain ⟨ph, event, pulsed⟩ := x
  rcases ph <;> simp_all [owes, active, holdsRead, holdsWrite, slow, blocked]

theorem not_blocked_of_inside {x : RwThread} (h : x.ph.inside = true) : x.slow = true ∧ x.blocked = false := by
  obtain ⟨ph, event, pulsed⟩ := x
  rcases ph <;> simp_all [RwPhase.inside, slow, blocked]

theorem framed_of_waitsAs {x : RwThread} {type : WaiterType} (h : x.waitsAs = some type) : x.framed = true := by
  obtain ⟨ph, event, pulsed⟩ := x
  rcases ph <;> simp_all [waitsAs, framed]

end RwThread

namespace RwSt

variable {s s' : RwSt} {w : Word} {n : Nat} {acts : List RwAct} {a : RwAct}

/-- What the lock promises in a state. -/
structure Protocol (s : RwSt) : Prop where
  /-- A writer is alone. -/
  excl : ∀ (t u : Nat) (x y : RwThread), s.threads[t]? = some x → s.threads[u]? = some y → t ≠ u →
    x.holdsWrite = true → y.holdsRead = false ∧ y.holdsWrite = false
  /-- The active part of `count` is the number of active units, and these do not reach the waiting part. -/
  count : s.count = s.activeUnits - s.word.activeSpan * s.waitingUnits ∧ s.activeUnits < s.word.activeSpan
  /-- When nobody has the lock and all that are on a slow path wait, the head of the list is woken. -/
  waiter : s.waitList ≠ [] → (∀ x ∈ s.threads, x.holdsRead = false ∧ x.holdsWrite = false) →
    (∀ x ∈ s.threads, x.slow = true → x.blocked = true) →
    ∃ w x, s.waitList.head? = some w ∧ s.threads[w.thread]? = some x ∧ x.pulsed = true
  /-- A reader that has been let in while it waits is woken, at the latest by the waker's next step. -/
  letIn : ∀ (t : Nat) (x : RwThread), s.threads[t]? = some x → x.ph = .readWait → x.event = false →
    x.pulsed = true ∨ s.pulsing = some t

theorem init_inv (hn : n < 32768) : (init w n).RwInv := by
  have hidle : ∀ x ∈ (init w n).threads, x = ⟨.idle, false, false⟩ := fun x hx => List.eq_of_mem_replicate hx
  have hget : ∀ (t : Nat) (x : RwThread), (init w n).threads[t]? = some x → x = ⟨.idle, false, false⟩ :=
    fun t x hx => hidle x (List.mem_of_getElem? hx)
  have hcount : ∀ p : RwThread → Bool, p ⟨.idle, false, false⟩ = false → (init w n).threads.countP p = 0 := by
    intro p hp
    refine List.countP_eq_zero.2 fun x hx => ?_
    rw [hidle x hx, hp]
    exact nofun
  have hactive : (init w n).activeUnits = 0 := hcount _ rfl
  have hwaiting : (init w n).waitingUnits = 0 := hcount _ rfl
  refine ⟨⟨?_, List.nodup_nil, nofun, ?_, ?_, nofun⟩, ?_, .inl (hcount _ rfl), ?_, ?_⟩
  · simpa [init] using hn
  · intro t x type hx
    rw [hget t x hx]
    exact ⟨nofun, nofun⟩
  · intro t x hx
    rw [hget t x hx]
    exact ⟨nofun, nofun⟩
  · rw [hactive, hwaiting]
    exact ⟨by simp [init], Nat.lt_of_lt_of_le Nat.zero_lt_two (Word.two_le_activeSpan _)⟩
  · exact fun hne => absurd rfl hne
  · intro t x hx hph
    rw [hget t x hx] at hph
    cases hph

theorem run_inv (hn : n < 32768) (hrun : exec step (init w n) acts = some s) : s.RwInv :=
  exec_invariant_all (fun _ _ _ h => h.step) (init_inv hn) hrun

theorem RwInv.protocol (h : s.RwInv) : s.Protocol := by
  refine ⟨?_, ⟨h.packed.eq, h.packed.lt⟩, ?_, h.pulsed⟩
  · intro t u x y hx hy hne hw
    have hmem : x ∈ s.threads := List.mem_of_getElem? hx
    have hpos : 0 < s.threads.countP (·.holdsWrite) := List.countP_pos_iff.2 ⟨x, hmem, hw⟩
    rcases h.excl with hzero | ⟨hone, hread⟩
    · omega
    constructor
    · by_contra hr
      have : 0 < s.threads.countP (·.holdsRead) :=
        List.countP_pos_iff.2 ⟨y, List.mem_of_getElem? hy, Bool.not_eq_false _ ▸ hr⟩
      omega
    · by_contra hw'
      have : 2 ≤ s.threads.countP (·.holdsWrite) := two_le_countP hx hy hne hw (by simpa using hw')
      omega
  · intro hlist hfree hwait
    -- nobody is inside `wait_lock`
    have hcrit : s.crit = none := by
      rcases hc : s.crit with _ | ⟨t, c⟩
      · rfl
      · obtain ⟨x, hx, -⟩ := h.shape.fits t c hc
        obtain ⟨hslow, hblock⟩ := RwThread.not_blocked_of_inside ((h.shape.inside t x hx).2 ⟨c, hc⟩)
        rw [hwait x (List.mem_of_getElem? hx) hslow] at hblock
        cases hblock
    have hknown : s.known = s.waitList := by
      unfold RwSt.known RwSt.hidden
      rw [hcrit]
      rfl
    rcases h.served (by rwa [hknown]) with ⟨x, hx, howes⟩ | hcrit' | ⟨v, x, hhead, -, hx, hp⟩
    · obtain ⟨hslow, hblock⟩ := RwThread.blocked_of_owes howes (hfree x hx).1 (hfree x hx).2
      rw [hwait x hx hslow] at hblock
      cases hblock
    · unfold critOwes at hcrit'
      rw [hcrit] at hcrit'
      cases hcrit'
    · rw [hknown] at hhead
      exact ⟨v, x, hhead, hx, hp⟩

theorem rwlock_protocol (w : Word) (n : Nat) (hn : n < 32768) (acts : List RwAct) (s : RwSt)
    (hrun : exec step (init w n) acts = some s) : s.Protocol := (run_inv hn hrun).protocol

/-- A reader holds the lock, a writer waits behind it, and the reader leaves. -/
def writerRun : List RwAct :=
  [⟨0, .rdlock⟩, ⟨1, .wrlock⟩, ⟨1, .go⟩, ⟨1, .go⟩, ⟨1, .go⟩, ⟨1, .go⟩, ⟨0, .rdunlock⟩, ⟨0, .go⟩, ⟨0, .go⟩, ⟨0, .go⟩]

theorem rwlock_protocol_writerRun : ∃ s, exec step (init .bits64 2) writerRun = some s ∧
    s.waitList = [⟨1, .write⟩] ∧ s.threads = [⟨.idle, false, false⟩, ⟨.writeWait, true, true⟩] ∧ s.Protocol := by
  have hany : (exec step (init .bits64 2) writerRun).any (fun s => decide (s.waitList = [⟨1, .write⟩] ∧
      s.threads = [⟨.idle, false, false⟩, ⟨.writeWait, true, true⟩])) = true := by decide +kernel
  obtain ⟨s, hs, hd⟩ := (Option.any_eq_true ..).1 hany
  obtain ⟨hlist, hthr⟩ := of_decide_eq_true hd
  exact ⟨s, hs, hlist, hthr, rwlock_protocol .bits64 2 (by decide) writerRun s hs⟩

/-! ## Waiters and events that the waker reaches -/

/-- The waker reaches only waiters and events that are still there. -/
structure Lives (s : RwSt) : Prop where
  touch : ∀ w ∈ s.queue, ∃ x, s.threads[w.thread]? = some x ∧ x.framed = true
  pulse : ∀ t, s.pulsing = some t → ∃ x, s.threads[t]? = some x ∧ x.framed = true

/-- A reader finds its `waiter.event` cleared and destroys the event that the waker is about to pulse. -/
def Early (s : RwSt) (a : RwAct) : Prop :=
  a.op = .go ∧ s.pulsing = some a.thread ∧
    s.threads[a.thread]?.any (fun x => x.ph = .readLoop && !x.event) = true

instance (s : RwSt) (a : RwAct) : Decidable (s.Early a) := inferInstanceAs (Decidable (_ ∧ _ ∧ _))

theorem RwInv.touch (h : s.RwInv) : ∀ w ∈ s.queue, ∃ x, s.threads[w.thread]? = some x ∧ x.framed = true := by
  intro w hw
  have hlt : w.thread < s.threads.length := h.shape.bound w (List.mem_of_mem_drop hw)
  refine ⟨_, List.getElem?_eq_getElem hlt, ?_⟩
  exact RwThread.framed_of_waitsAs ((h.shape.queue w.thread _ w.type (List.getElem?_eq_getElem hlt)).1 hw)

/-- A step that leaves the waker alone keeps every frame, but that of a reader that finds its event cleared. -/
def Keeps (s s' : RwSt) (a : RwAct) : Prop :=
  s'.pulsing = s.pulsing ∧ ∀ (u : Nat) (z : RwThread), s.threads[u]? = some z → z.framed = true →
    (∃ z', s'.threads[u]? = some z' ∧ z'.framed = true) ∨
      (u = a.thread ∧ a.op = .go ∧ z.ph = .readLoop ∧ z.event = false)

theorem keeps_move {t : Nat} {op : RwOp} {x y : RwThread} {c : Int} (hx : s.threads[t]? = some x)
    (hframe : x.framed = true → y.framed = true ∨ op = .go ∧ x.ph = .readLoop ∧ x.event = false) :
    s.Keeps (s.move t y c s.crit) ⟨t, op⟩ := by
  refine ⟨rfl, fun u z hz hfr => ?_⟩
  by_cases hu : t = u
  · subst hu
    obtain rfl := Option.some.inj (hx.symm.trans hz)
    rcases hframe hfr with hy | hearly
    · exact .inl ⟨y, getElem?_set_self hx, hy⟩
    · exact .inr ⟨rfl, hearly⟩
  · exact .inl ⟨z, (getElem?_set_ne hu).trans hz, hfr⟩

theorem keeps_goto {t : Nat} {op : RwOp} {x : RwThread} {ph : RwPhase} {c : Int} (hx : s.threads[t]? = some x)
    (hframe : x.framed = false) : s.Keeps (s.goto t x ph c) ⟨t, op⟩ :=
  keeps_move hx fun hfr => absurd hfr (Bool.eq_false_iff.1 hframe)

theorem pulsing_inside {t : Nat} {cr : RwCrit} {c : Int} (hcr : ∀ done loop k, cr ≠ .pulse done loop k) :
    (s.inside t cr c).pulsing = none := by
  unfold RwSt.pulsing RwSt.inside
  simp only
  split
  · rename_i heq
    exact absurd (Prod.mk.inj (Option.some.inj heq)).2 (hcr _ _ _)
  · rfl

/-- A step of the holder of `wait_lock`, but for the clearing of an event, has no pulse ahead. -/
theorem critStep_pulsing {t : Nat} {x : RwThread} {cr : RwCrit} (hcr : ∀ done loop k, cr ≠ .clear done loop k)
    (hs' : s.critStep t x cr = some s') : s'.pulsing = none := by
  rcases cr with adj | adj | ⟨type, k⟩ | k | k | ⟨adj, k⟩ | ⟨done, loop, k⟩ | ⟨done, loop, k⟩ | k | count | _ | _ | _ | _ | _
  case clear => exact absurd rfl (hcr done loop k)
  case doWake =>
    simp only [RwSt.critStep, RwSt.doWake] at hs'
    split at hs'
    · cases hs'
    split at hs'
    · split at hs' <;> cases hs' <;> exact pulsing_inside fun _ _ _ h => by cases h
    · split at hs' <;> cases hs' <;> exact pulsing_inside fun _ _ _ h => by cases h
  case pulse =>
    simp only [RwSt.critStep, RwSt.pulse] at hs'
    split at hs'
    · cases hs'
    split at hs' <;> cases hs'
    · rfl
    · exact pulsing_inside fun _ _ _ h => by cases h
  case writeTry =>
    simp only [RwSt.critStep] at hs'
    split at hs' <;> cases hs' <;> exact pulsing_inside fun _ _ _ h => by cases h
  case writeRead =>
    simp only [RwSt.critStep] at hs'
    split at hs' <;> cases hs' <;> exact pulsing_inside fun _ _ _ h => by cases h
  all_goals cases hs'
  case readAdded =>
    simp only [RwSt.readAdded]
    split <;> exact pulsing_inside fun _ _ _ h => by cases h
  case writeAdded =>
    simp only [RwSt.writeAdded]
    split <;> exact pulsing_inside fun _ _ _ h => by cases h
  case grant =>
    unfold RwSt.grant
    split <;> exact pulsing_inside fun _ _ _ h => by cases h
  case retract =>
    unfold RwSt.retract
    split <;> exact pulsing_inside fun _ _ _ h => by cases h
  case count => exact pulsing_inside fun _ _ _ h => by cases h
  case ret =>
    rcases k
    · rfl
    · exact pulsing_inside fun _ _ _ h => by cases h
    · rfl
    · rfl
  case writeCas =>
    unfold RwSt.writeCas
    split <;> exact pulsing_inside fun _ _ _ h => by cases h
  case writeDel => rfl
  case writeUnlock => rfl
  case writeLoad => exact pulsing_inside fun _ _ _ h => by cases h

theorem outside_pulsing {t : Nat} {x : RwThread} (hx : s.threads[t]? = some x) (hs' : s.outside t x x.ph = some s') :
    s.Keeps s' ⟨t, .go⟩ ∨ s'.pulsing = none := by
  rcases hph : x.ph <;> rw [hph] at hs' <;> simp only [RwSt.outside, Option.ite_none_right_eq_some] at hs'
  case tryRead =>
    cases hs'
    unfold RwSt.tryRead
    split <;> exact .inl (keeps_goto hx (by simp [RwThread.framed, hph]))
  case tryCas tmp =>
    cases hs'
    unfold RwSt.tryCas
    split <;> exact .inl (keeps_goto hx (by simp [RwThread.framed, hph]))
  case readLoop =>
    cases hs'
    unfold RwSt.readLoop
    split
    · rename_i hev
      exact .inl (keeps_move hx fun _ => .inr ⟨rfl, hph, hev⟩)
    · exact .inl (keeps_move hx fun _ => .inl rfl)
  case readFailed =>
    obtain ⟨-, ⟨⟩⟩ := hs'
    exact .inr rfl
  case readWait =>
    obtain ⟨-, ⟨⟩⟩ := hs'
    exact .inl (keeps_move (y := ⟨.readLoop, x.event, false⟩) hx fun _ => .inl rfl)
  case writeFailed =>
    obtain ⟨-, ⟨⟩⟩ := hs'
    exact .inr rfl
  case writeWait =>
    obtain ⟨-, ⟨⟩⟩ := hs'
    exact .inl (keeps_move (y := ⟨.writeWoken, x.event, false⟩) hx fun _ => .inl rfl)
  case writeWoken =>
    obtain ⟨-, ⟨⟩⟩ := hs'
    exact .inr rfl
  case wakePending =>
    obtain ⟨-, ⟨⟩⟩ := hs'
    unfold RwSt.wakeEnter
    split <;> exact .inr rfl
  case downPending =>
    obtain ⟨-, ⟨⟩⟩ := hs'
    unfold RwSt.wakeEnter
    split <;> exact .inr rfl
  all_goals cases hs'

/-- What a step does to the pulse ahead: nothing, or there is none after it, or the event has just been cleared. -/
theorem RwInv.step_pulsing (h : s.RwInv) (hs' : s.step a = some s') : s.Keeps s' a ∨ s'.pulsing = none ∨
    ∃ t x, s'.pulsing = some t ∧ s'.threads[t]? = some x ∧ x.framed = true := by
  unfold RwSt.step at hs'
  split at hs'
  · cases hs'
  rename_i x hx
  obtain ⟨t, op⟩ := a
  rcases op <;> simp only [Option.ite_none_right_eq_some] at hs'
  case go =>
    unfold RwSt.go at hs'
    split at hs'
    · exact (outside_pulsing hx hs').imp_right .inl
    rename_i u cr hc
    split at hs'
    swap
    · exact (outside_pulsing hx hs').imp_right .inl
    rename_i hu
    subst hu
    by_cases hcr : ∀ done loop k, cr ≠ .clear done loop k
    · exact .inr (.inl (critStep_pulsing hcr hs'))
    · simp only [not_forall, not_not] at hcr
      obtain ⟨done, loop, k, rfl⟩ := hcr
      obtain ⟨w, z, n, rfl, hw, hz, rfl⟩ := h.shape.clear_eq hc hs'
      obtain ⟨-, -, -, -, -, hphase⟩ := h.shape.waiting hc hw hz
      refine .inr (.inr ⟨w.thread, { z with event := false }, ?_, getElem?_set_self hz, ?_⟩)
      · exact pulsing_iff.2 ⟨u, done, n, k, w, rfl, hw, rfl⟩
      · rcases hphase with hp | hp | hp <;> simp [RwThread.framed, hp]
  case spurious =>
    unfold RwSt.spurious at hs'
    split at hs'
    · cases hs'
      exact .inl (keeps_move (y := ⟨.readLoop, x.event, false⟩) hx fun _ => .inl rfl)
    · cases hs'
      exact .inl (keeps_move (y := ⟨.writeWoken, x.event, false⟩) hx fun _ => .inl rfl)
    · cases hs'
  all_goals
    obtain ⟨hph, ⟨⟩⟩ := hs'
    left
    have hframe : x.framed = false := by simp [RwThread.framed, hph]
  case rdlock =>
    unfold RwSt.rdlock
    split <;> exact keeps_goto hx hframe
  case tryrdlock => exact keeps_goto hx hframe
  case wrlock =>
    unfold RwSt.wrlock
    split <;> exact keeps_goto hx hframe
  case trywrlock =>
    unfold RwSt.trywrlock
    split
    · exact keeps_goto hx hframe
    · exact ⟨rfl, fun u z hz hfr => .inl ⟨z, hz, hfr⟩⟩
  case rdunlock =>
    unfold RwSt.rdunlock
    split <;> exact keeps_goto hx hframe
  case wrunlock =>
    unfold RwSt.wrunlock
    split <;> exact keeps_goto hx hframe
  case wr2rdLock =>
    unfold RwSt.wr2rdLock
    split <;> exact keeps_goto hx hframe

theorem RwInv.step_early (h : s.RwInv) (he : s.Early a) : ∃ s' x, s.step a = some s' ∧
    s'.pulsing = some a.thread ∧ s'.threads[a.thread]? = some x ∧ x.framed = false := by
  obtain ⟨t, op⟩ := a
  obtain ⟨rfl, hp, hany⟩ := he
  obtain ⟨x, hx, hph⟩ := (Option.any_eq_true ..).1 hany
  simp only [Bool.and_eq_true, decide_eq_true_eq, Bool.not_eq_true'] at hph
  obtain ⟨hph, hev⟩ := hph
  obtain ⟨u, done, loop, k, w, hc, hw, -⟩ := pulsing_iff.1 hp
  have hu : u ≠ t := by
    rintro rfl
    have := (h.shape.inside u x hx).2 ⟨_, hc⟩
    rw [hph] at this
    cases this
  refine ⟨s.readLoop t x, { x with ph := .readHeld }, ?_, ?_, ?_, rfl⟩
  · simp only [RwSt.step, hx, RwSt.go, hc, if_neg hu, hph, RwSt.outside]
  · unfold RwSt.readLoop
    rw [if_pos hev]
    exact hp
  · unfold RwSt.readLoop
    rw [if_pos hev]
    exact getElem?_set_self hx

theorem RwInv.lives_iff (h : s.RwInv) (hl : s.Lives) (hs' : s.step a = some s') : s'.Lives ↔ ¬ s.Early a := by
  constructor
  · intro hl' he
    obtain ⟨s1, x, hs1, hp, hx, hframe⟩ := h.step_early he
    obtain rfl := Option.some.inj (hs'.symm.trans hs1)
    obtain ⟨x', hx', hframe'⟩ := hl'.pulse a.thread hp
    obtain rfl := Option.some.inj (hx.symm.trans hx')
    rw [hframe] at hframe'
    cases hframe'
  · intro hno
    refine ⟨(h.step hs').touch, fun t hp => ?_⟩
    rcases h.step_pulsing hs' with ⟨hsame, hkeep⟩ | hnone | ⟨u, x, hu, hx, hframe⟩
    · rw [hsame] at hp
      obtain ⟨x, hx, hframe⟩ := hl.pulse t hp
      rcases hkeep t x hx hframe with hthr | ⟨rfl, hop, hph, hev⟩
      · exact hthr
      · refine absurd ⟨hop, hp, ?_⟩ hno
        rw [hx]
        simp [hph, hev]
    · rw [hnone] at hp
      cases hp
    · obtain rfl := Option.some.inj (hu.symm.trans hp)
      exact ⟨x, hx, hframe⟩

/-- In a run of the lock every pulse that a waker has ahead is of an event that is still there, exactly when no reader
finds its event cleared in the window before the pulse. -/
theorem waiter_lifetime_iff (w : Word) (n : Nat) (hn : n < 32768) (acts : List RwAct) :
    (∀ bs s, bs <+: acts → exec step (init w n) bs = some s → s.Lives) ↔
      Along step (fun s a => ¬ s.Early a) (init w n) acts := by
  refine along_iff_forall_reached (I := RwInv) (fun s a s' h => h.step) (fun s a s' h hl => h.lives_iff hl) ?_
    (init_inv hn) ⟨nofun, nofun⟩
  intro s a h hnone he
  obtain ⟨s', -, hs', -⟩ := h.step_early he
  rw [hs'] at hnone
  cases hnone

/-- A writer leaves and lets a reader in; the reader is between its test and `k_event_wait` when its event is cleared. -/
def letInRun : List RwAct :=
  [⟨0, .wrlock⟩, ⟨1, .rdlock⟩, ⟨1, .go⟩, ⟨1, .go⟩, ⟨1, .go⟩, ⟨0, .wrunlock⟩, ⟨0, .go⟩, ⟨0, .go⟩, ⟨0, .go⟩, ⟨0, .go⟩,
    ⟨0, .go⟩]

/-- The reader goes on after the pulse. -/
def pulsedRun : List RwAct := letInRun ++ [⟨0, .go⟩, ⟨1, .go⟩]

theorem waiter_lifetime_pulsedRun : ∃ s, exec step (init .bits64 2) pulsedRun = some s ∧ s.Lives ∧
    Along step (fun s a => ¬ s.Early a) (init .bits64 2) pulsedRun := by
  have hok : Along step (fun s a => ¬ s.Early a) (init .bits64 2) pulsedRun := by decide +kernel
  have hsome : (exec step (init .bits64 2) pulsedRun).isSome = true := by decide +kernel
  obtain ⟨s, hs⟩ := Option.isSome_iff_exists.1 hsome
  have hlives := (waiter_lifetime_iff .bits64 2 (by decide) pulsedRun).2 hok pulsedRun s List.prefix_rfl hs
  exact ⟨s, hs, hlives, hok⟩

/-- The reader goes on before the pulse: the waker pulses an event on a stack frame that is gone. -/
def earlyRun : List RwAct := letInRun ++ [⟨1, .go⟩]

theorem not_waiter_lifetime : ∃ s, exec step (init .bits64 2) earlyRun = some s ∧ ¬ s.Lives ∧
    s.pulsing = some 1 ∧ s.threads[1]? = some ⟨.readHeld, false, false⟩ ∧ (s.step ⟨0, .go⟩).isSome = true := by
  have hany : (exec step (init .bits64 2) earlyRun).any (fun s => decide (s.pulsing = some 1 ∧
      s.threads[1]? = some ⟨.readHeld, false, false⟩ ∧ (s.step ⟨0, .go⟩).isSome = true)) = true := by decide +kernel
  obtain ⟨s, hs, hd⟩ := (Option.any_eq_true ..).1 hany
  obtain ⟨hp, hx, hstep⟩ := of_decide_eq_true hd
  refine ⟨s, hs, fun hl => ?_, hp, hx, hstep⟩
  obtain ⟨x, hx', hframe⟩ := hl.pulse 1 hp
  obtain rfl := Option.some.inj (hx.symm.trans hx')
  cases hframe

end RwSt

end Aosl
