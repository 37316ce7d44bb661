import Aosl.TimerLife

/-!
# The timer whose callback runs

The loop of `__check_and_run_timers` with the callbacks: a round calls the callback of the first timer, and looks at
`base->first` again when it has returned. In between the callback makes calls of its own on any timers, and other
threads take and drop references; the body of such a call runs in the callback or between two callbacks.

The loop has no reference to the timer it calls. `__free_timer` runs the dtor of a timer and frees its memory, so both
have happened once a timer is gone from `alloc`.
-/

namespace Aosl
open Lib

structure CallbackSt where
  life : LifeSt
  /-- The timer with whose `argc` and `argv` a callback is running. -/
  running : Option Ptr
  /-- A timer was freed while its callback was running. -/
  freed : Bool

inductive CallbackAct where
  /-- Anything but a round of the loop. -/
  | life (a : LifeAct)
  | fire (now tick : UInt64)
  | ret
deriving DecidableEq

def LifeAct.isFire : LifeAct → Bool
  | fire _ _ => true
  | _ => false

namespace CallbackSt

/-- When an action can happen at all. -/
def Enabled (s : CallbackSt) : CallbackAct → Prop
  | .life a => a.isFire = false ∧ s.life.Enabled a
  | .fire _ _ => s.running = none
  | .ret => s.running.isSome

def goLife (s : CallbackSt) (life : LifeSt) : CallbackSt :=
  { s with
    life
    freed := s.freed || s.running.any fun p => s.life.base.alloc.contains p && !life.base.alloc.contains p }

def step (s : CallbackSt) : CallbackAct → Option CallbackSt
  | .life a => (s.life.step a).map s.goLife
  | .fire now tick => ((fireTimer now tick).run s.life.base).map fun r =>
    { s with life := ⟨r.2, s.life.calls⟩, running := r.1 }
  | .ret => some { s with running := none }

def init (s : TimerSt) : CallbackSt := ⟨LifeSt.init s, none, false⟩

/-- The timer lives until its callback has returned, and all the timers that the loop can come to are live. -/
structure Outlives (s : CallbackSt) : Prop where
  kept : s.freed = false
  running : ∀ p, s.running = some p → p ∈ s.life.base.alloc
  first : s.life.base.first ≠ 0 → s.life.base.first ∈ s.life.base.alloc
  safe : s.life.Safe

/-- A killed timer whose callback runs keeps the reference of another call when one is dropped. -/
def HeldElsewhere (s : CallbackSt) : CallbackAct → Prop
  | .life (.put i) => ∀ c ∈ s.life.calls[i]?, s.running = some c.timer →
      s.life.base.installed c.timer = false → 2 ≤ LifeSt.refs s.life.calls c.timer
  | _ => True

/-- The body of a reschedule runs only while its timer is still installed. -/
def InstalledAtResched (s : CallbackSt) : CallbackAct → Prop
  | .life a => s.life.InstalledAtResched a
  | _ => True

instance (s : CallbackSt) : (a : CallbackAct) → Decidable (s.Enabled a)
  | .life a => inferInstanceAs (Decidable (_ ∧ s.life.Enabled a))
  | .fire _ _ => inferInstanceAs (Decidable (s.running = none))
  | .ret => inferInstanceAs (Decidable (s.running.isSome = true))

instance (s : CallbackSt) : (a : CallbackAct) → Decidable (s.InstalledAtResched a)
  | .life a => inferInstanceAs (Decidable (s.life.InstalledAtResched a))
  | .fire _ _ | .ret => .isTrue trivial

instance (s : CallbackSt) : (a : CallbackAct) → Decidable (s.HeldElsewhere a)
  | .life (.put i) => inferInstanceAs (Decidable (∀ c ∈ s.life.calls[i]?, s.running = some c.timer →
      s.life.base.installed c.timer = false → 2 ≤ LifeSt.refs s.life.calls c.timer))
  | .life (.create _ _) | .life (.set _ _ _ _) | .life (.get _ _) | .life (.body _) | .life (.skip _)
  | .life (.fire _ _) | .fire _ _ | .ret => .isTrue trivial

end CallbackSt

namespace LifeSt.Inv

variable {s s' : LifeSt} {l : List Ptr} {p : Ptr} {i : Nat} {c : TimerCall}

theorem kill_alloc (h : Inv s l) (hc : s.calls[i]? = some c) {r : Bool} {b : TimerSt}
    (hrun : (killTimerOnQ c.timer).run s.base = some (r, b)) : b.alloc = s.base.alloc := by
  have hcm := List.mem_of_getElem? hc
  by_cases hi : s.base.installed c.timer
  · obtain ⟨b', hrun', -, -, -, -, ha⟩ := h.base.run_killTimerOnQ ((h.installed _).1 hi) hi
    have husage := h.usage _ (h.held c hcm)
    have hpos := refs_pos hcm
    rw [if_pos hi] at husage
    rw [hrun] at hrun'
    cases hrun'
    rw [ha, if_neg (by omega)]
  · rw [run_killTimerOnQ_of_not_installed (by simpa using hi)] at hrun
    cases hrun
    rfl

theorem body_alloc (h : Inv s l) (hc : s.calls[i]? = some c) {b : TimerSt}
    (hrun : (c.body.run c.timer).run s.base = some ((), b)) : b.alloc = s.base.alloc := by
  have hca := h.held c (List.mem_of_getElem? hc)
  cases hb : c.body with
  | resched int e tick =>
    obtain ⟨b', l', r, -, hs, -⟩ := h.base.base.run_reschedTimer hca int e tick
    rw [hb, TimerBody.run, r] at hrun
    cases hrun
    exact hs.alloc
  | cancel =>
    obtain ⟨b', r, -, hs⟩ := h.base.base.run_cancelTimerOnQ hca
    rw [hb, TimerBody.run, r] at hrun
    cases hrun
    exact hs.alloc
  | kill =>
    rw [hb, TimerBody.run, run_discard, Option.map_eq_some_iff] at hrun
    obtain ⟨⟨r, b'⟩, hrun, he⟩ := hrun
    cases he
    exact h.kill_alloc hc hrun

/-- A dropped reference frees its timer only if it was the last one to a killed timer. -/
theorem put_alloc (h : Inv s l) (hc : s.calls[i]? = some c) {b : TimerSt}
    (hrun : (timerPut c.timer).run s.base = some ((), b)) : b.alloc =
      if s.base.installed c.timer = false ∧ refs s.calls c.timer = 1 then s.base.alloc.erase c.timer
      else s.base.alloc := by
  have hcm := List.mem_of_getElem? hc
  have husage := h.usage _ (h.held c hcm)
  have hpos := refs_pos hcm
  rw [run_timerPut] at hrun
  have hb := congrArg Prod.snd (Option.some.inj hrun)
  have hiff : s.base.usage c.timer - 1 = 0 ↔ s.base.installed c.timer = false ∧ refs s.calls c.timer = 1 := by
    cases hi : s.base.installed c.timer
    · rw [hi, if_neg Bool.false_ne_true] at husage
      simp only [true_and]
      omega
    · rw [hi, if_pos rfl] at husage
      simp only [Bool.true_eq_false, false_and, iff_false]
      omega
  simp only [hiff] at hb
  rw [← hb]
  split <;> rfl

/-- No other action frees anything. -/
theorem alloc_subset (h : Inv s l) {a : LifeAct} (he : s.Enabled a) (hs : s.step a = some s') (hp : p ∈ s.base.alloc)
    (hput : ∀ i c, a = .put i → s.calls[i]? = some c → c.timer = p → s.base.installed p = false →
      2 ≤ refs s.calls p) : p ∈ s'.base.alloc := by
  cases a with
  | create q int =>
    obtain ⟨b, r, -, hc⟩ := h.base.run_createTimerOnQ he.1 he.2 int
    simp only [LifeSt.step, onBase, r, Option.map_some, Option.some.injEq] at hs
    rw [← hs, hc.alloc]
    exact List.mem_append_left _ hp
  | set q int e tick =>
    obtain ⟨b, l', r, -, hc⟩ := h.base.run_setTimerOnQ he.1 he.2 int e tick
    simp only [LifeSt.step, onBase, r, Option.map_some, Option.some.injEq] at hs
    rw [← hs, hc.alloc]
    exact List.mem_append_left _ hp
  | get q body =>
    cases hs
    exact hp
  | body i =>
    obtain ⟨c, hc, -⟩ := he
    simp only [LifeSt.step, show s.calls[i]? = some c from hc, Option.bind_eq_bind, Option.bind_some, onBase,
      Option.map_eq_some_iff] at hs
    obtain ⟨⟨⟨⟩, b⟩, hrun, rfl⟩ := hs
    exact h.body_alloc hc hrun ▸ hp
  | skip i =>
    obtain ⟨c, hc, -⟩ := he
    simp only [LifeSt.step, show s.calls[i]? = some c from hc, Option.bind_eq_bind, Option.bind_some] at hs
    cases hs
    exact hp
  | put i =>
    obtain ⟨c, hc, -⟩ := he
    simp only [LifeSt.step, show s.calls[i]? = some c from hc, Option.bind_eq_bind, Option.bind_some, onBase,
      Option.map_eq_some_iff] at hs
    obtain ⟨⟨⟨⟩, b⟩, hrun, rfl⟩ := hs
    show p ∈ b.alloc
    rw [h.put_alloc hc hrun]
    split
    · next hlast =>
      refine (List.mem_erase_of_ne fun hpc => ?_).2 hp
      have := hput i c rfl hc hpc.symm (hpc ▸ hlast.1)
      rw [hpc] at this
      omega
    · exact hp
  | fire now tick =>
    obtain ⟨r, b, l', hrun, -, hheap, -⟩ := h.base.base.run_fireTimer now tick
    simp only [LifeSt.step, onBase, run_discard, hrun, Option.map_some, Option.some.injEq] at hs
    rw [← hs]
    exact hheap.alloc ▸ hp

end LifeSt.Inv

namespace CallbackSt

/-- Outside the conditions of a run: the last reference to a killed timer is dropped in its callback. -/
theorem freed_of_last_put {s s' : CallbackSt} {l : List Ptr} {i : Nat} {c : TimerCall} (h : s.life.Inv l)
    (hc : s.life.calls[i]? = some c) (hrunning : s.running = some c.timer)
    (hkilled : s.life.base.installed c.timer = false) (hlast : LifeSt.refs s.life.calls c.timer = 1)
    (hs : s.step (.life (.put i)) = some s') : s'.freed = true := by
  simp only [step, LifeSt.step, hc, Option.bind_eq_bind, Option.bind_some, LifeSt.onBase, Option.map_eq_some_iff] at hs
  obtain ⟨life, ⟨⟨⟨⟩, b⟩, hrun, rfl⟩, rfl⟩ := hs
  have halloc := h.put_alloc hc hrun
  rw [if_pos ⟨hkilled, hlast⟩] at halloc
  have hheld := h.held c (List.mem_of_getElem? hc)
  have hgone : c.timer ∉ b.alloc := by
    rw [halloc]
    exact h.alloc_nodup.not_mem_erase
  simp [goLife, hrunning, hheld, hgone]

structure Inv (s : CallbackSt) (l : List Ptr) : Prop where
  life : s.life.Inv l
  kept : s.freed = false
  running : ∀ p, s.running = some p → p ∈ s.life.base.alloc

namespace Inv

variable {s s' : CallbackSt} {l : List Ptr}

theorem init (s : TimerSt) : Inv (CallbackSt.init s) [] := ⟨LifeSt.Inv.of_init s, rfl, nofun⟩

theorem step (h : Inv s l) {a : CallbackAct} (he : s.Enabled a) (hr : s.InstalledAtResched a) (hh : s.HeldElsewhere a) :
    ∃ s', s.step a = some s' ∧ ∃ l', Inv s' l' := by
  cases a with
  | life a =>
    obtain ⟨life, hlife, l', h'⟩ := h.life.step he.2 hr
    have hstay : ∀ p, s.running = some p → p ∈ life.base.alloc := by
      intro p hp
      refine h.life.alloc_subset he.2 hlife (h.running p hp) fun i c ha hc hcp hkilled => ?_
      subst ha hcp
      exact hh c hc hp hkilled
    refine ⟨s.goLife life, by rw [CallbackSt.step, hlife, Option.map_some], l', h', ?_, hstay⟩
    show (s.freed || s.running.any _) = false
    rw [h.kept, Bool.false_or, Option.any_eq_false]
    intro p hp
    simp [hstay p hp]
  | fire now tick =>
    obtain ⟨r, b, l', hrun, hb, hheap, hl⟩ := h.life.base.base.run_fireTimer now tick
    have hinv := h.life.base.of_sameHeap hheap hb fun q hq => h.life.base.armed_sub q (hl q hq)
    refine ⟨{ s with life := ⟨b, s.life.calls⟩, running := r }, by rw [CallbackSt.step, hrun, Option.map_some], l',
      h.life.sameHeap hheap hinv (fun _ => rfl) fun c hc => ⟨c, hc, rfl⟩, h.kept, fun p hp => ?_⟩
    have hp : r = some p := hp
    rw [fireTimer_result hrun] at hp
    split at hp
    · next hc =>
      rw [← Option.some.inj hp]
      show s.life.base.first ∈ b.alloc
      rw [hheap.alloc]
      exact h.life.base.base.sub _ (h.life.base.base.first_mem hc.1)
    · cases hp
  | ret => exact ⟨_, rfl, l, h.life, h.kept, nofun⟩

theorem outlives (h : Inv s l) : s.Outlives := by
  refine ⟨h.kept, h.running, fun h0 => ?_, h.life.safe⟩
  exact h.life.base.base.sub _ (h.life.base.base.first_mem h0)

end Inv

/-- In every run in which reschedule bodies run on installed timers, and in which a timer killed in its callback keeps a
reference of another call until the callback returns, every timer outlives its callbacks. -/
theorem outlives_of_run (s₀ : TimerSt) {acts : List CallbackAct}
    (hv : Along step (fun s a => s.Enabled a ∧ s.InstalledAtResched a ∧ s.HeldElsewhere a) (CallbackSt.init s₀) acts) :
    ∃ s', exec step (CallbackSt.init s₀) acts = some s' ∧ s'.Outlives := by
  have h0 : ∃ l, (CallbackSt.init s₀).Inv l := ⟨[], .init s₀⟩
  obtain ⟨s', hrun, l, h⟩ := exec_total (I := fun s => ∃ l, s.Inv l)
    (fun _ _ ⟨_, h⟩ hok => h.step hok.1 hok.2.1 hok.2.2) h0 hv
  exact ⟨s', hrun, h.outlives⟩

/-- A callback kills its own timer while another thread reads its interval, and that thread leaves after the
callback. -/
theorem outlives_of_run_kill : ∃ s', exec step (CallbackSt.init LifeSt.zero) [.life (.set 1 10 0 100),
    .life (.set 2 10 0 100), .life (.get 1 .cancel), .fire 300 300, .life (.get 1 .kill), .life (.body 1),
    .life (.put 1),
    .life (.get 2 .kill), .life (.body 1), .life (.put 1), .ret, .life (.skip 0), .life (.put 0), .fire 300 300] =
      some s' ∧ s'.Outlives :=
  outlives_of_run LifeSt.zero (by decide +kernel)

/-- A callback kills its own timer, as `__iofd_not_ready_timeout` does: `timer_put` of the kill frees it. -/
theorem not_outlives_kill : ¬∀ (s₀ : TimerSt) (acts : List CallbackAct),
    Along step Enabled (CallbackSt.init s₀) acts →
    ∀ s', exec step (CallbackSt.init s₀) acts = some s' → s'.Outlives := by
  intro h
  have hrun : (exec step (CallbackSt.init LifeSt.zero) [.life (.set 1 10 0 100), .fire 300 300, .life (.get 1 .kill),
      .life (.body 0), .life (.put 0)]).any (fun s' => s'.freed && s'.running = some 1) = true := by decide +kernel
  obtain ⟨s', hs', hf⟩ := (Option.any_eq_true _ _).1 hrun
  have hkept := (h LifeSt.zero _ (by decide +kernel) s' hs').kept
  rw [hkept] at hf
  cases hf

end CallbackSt

end Aosl
