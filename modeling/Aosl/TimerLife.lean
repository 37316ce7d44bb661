import Aosl.TimerRun
import Aosl.Lib.Lists

/-!
# The life of a timer across threads

`aosl_mpq_resched_timer`, `aosl_mpq_resched_oneshot_timer`, `aosl_mpq_cancel_timer` and
`aosl_mpq_kill_timer` all do `timer_get`, run a body on the thread of the queue that owns the timer,
and do `timer_put`. The three steps of any number of such calls interleave freely, with the creation
and the firing of timers in between; only the bodies are serialised, as they run on one thread.

The reference of a call keeps the memory of the timer alive across a kill, but not its place in
`timer_table`. `killTimerOnQ` looks at the table again, `reschedTimer` does not.
-/

namespace Aosl
open Lib

/-- The body of a call, `____target_q_resched_timer` and its siblings. -/
inductive TimerBody where
  | resched (interval expireTime tick : UInt64)
  | cancel
  | kill
deriving DecidableEq

/-- A call between its `timer_get` and its `timer_put`; `ran` says that its body is over. -/
structure TimerCall where
  timer : Ptr
  body : TimerBody
  ran : Bool
deriving DecidableEq

structure LifeSt where
  base : TimerSt
  calls : List TimerCall

inductive LifeAct where
  | create (timer : Ptr) (interval : UInt64)
  | set (timer : Ptr) (interval expireTime tick : UInt64)
  /-- `timer_get` with the id of an installed timer. -/
  | get (timer : Ptr) (body : TimerBody)
  /-- The body of the `i`-th call runs on the queue. -/
  | body (i : Nat)
  /-- The body does not run: an argument check or `__mpq_call` failed. -/
  | skip (i : Nat)
  | put (i : Nat)
  | fire (now tick : UInt64)
deriving DecidableEq

def TimerBody.isResched : TimerBody → Bool
  | resched _ _ _ => true
  | _ => false

def TimerBody.run (timer : Ptr) : TimerBody → TimerM Unit
  | resched interval expireTime tick => reschedTimer timer interval expireTime tick
  | cancel => cancelTimerOnQ timer
  | kill => discard (killTimerOnQ timer)

namespace LifeSt

/-- When an action can happen at all. -/
def Enabled (s : LifeSt) : LifeAct → Prop
  | .create p _ => p ≠ 0 ∧ p ∉ s.base.alloc
  | .set p _ _ _ => p ≠ 0 ∧ p ∉ s.base.alloc
  | .get p _ => s.base.installed p
  | .body i => ∃ c ∈ s.calls[i]?, c.ran = false
  | .skip i => ∃ c ∈ s.calls[i]?, c.ran = false
  | .put i => ∃ c ∈ s.calls[i]?, c.ran = true
  | .fire _ _ => True

/-- Runs an operation of the queue and changes the calls. -/
def onBase (s : LifeSt) (m : TimerM Unit) (calls : List TimerCall) : Option LifeSt :=
  (m.run s.base).map fun r => ⟨r.2, calls⟩

def step (s : LifeSt) : LifeAct → Option LifeSt
  | .create p interval => s.onBase (createTimerOnQ p interval) s.calls
  | .set p interval expireTime tick => s.onBase (setTimerOnQ p interval expireTime tick) s.calls
  | .get p body => s.onBase (timerGet p) (s.calls ++ [⟨p, body, false⟩])
  | .body i => do
    let c ← s.calls[i]?
    s.onBase (c.body.run c.timer) (s.calls.set i { c with ran := true })
  | .skip i => do
    let c ← s.calls[i]?
    return ⟨s.base, s.calls.set i { c with ran := true }⟩
  | .put i => do
    let c ← s.calls[i]?
    s.onBase (timerPut c.timer) (s.calls.eraseIdx i)
  | .fire now tick => s.onBase (discard (fireTimer now tick)) s.calls

/-- Every timer in the base is installed, in `q->timers` and not freed. -/
def Safe (s : LifeSt) : Prop :=
  ∀ p ∈ aoslRbTraverseLdr s.base.rb, s.base.installed p ∧ p ∈ s.base.timers ∧ p ∈ s.base.alloc

/-- The body of a reschedule runs only while its timer is still installed. -/
def InstalledAtResched (s : LifeSt) : LifeAct → Prop
  | .body i => ∀ c ∈ s.calls[i]?, c.body.isResched → s.base.installed c.timer
  | _ => True

instance (s : LifeSt) : (a : LifeAct) → Decidable (s.Enabled a)
  | .create p _ => inferInstanceAs (Decidable (p ≠ 0 ∧ p ∉ s.base.alloc))
  | .set p _ _ _ => inferInstanceAs (Decidable (p ≠ 0 ∧ p ∉ s.base.alloc))
  | .get p _ => inferInstanceAs (Decidable (s.base.installed p))
  | .body i => inferInstanceAs (Decidable (∃ c ∈ s.calls[i]?, c.ran = false))
  | .skip i => inferInstanceAs (Decidable (∃ c ∈ s.calls[i]?, c.ran = false))
  | .put i => inferInstanceAs (Decidable (∃ c ∈ s.calls[i]?, c.ran = true))
  | .fire _ _ => .isTrue trivial

instance (s : LifeSt) : (a : LifeAct) → Decidable (s.InstalledAtResched a)
  | .body i => inferInstanceAs (Decidable (∀ c ∈ s.calls[i]?, c.body.isResched → s.base.installed c.timer))
  | .create _ _ | .set _ _ _ _ | .get _ _ | .skip _ | .put _ | .fire _ _ => .isTrue trivial

instance (s : LifeSt) : Decidable s.Safe :=
  inferInstanceAs (Decidable (∀ p ∈ aoslRbTraverseLdr s.base.rb, _))

def init (s : TimerSt) : LifeSt := ⟨mpqInitTimers s, []⟩

/-- The references to `p` that calls hold. -/
def refs (calls : List TimerCall) (p : Ptr) : Nat := calls.countP fun c => c.timer = p

structure Inv (s : LifeSt) (l : List Ptr) : Prop where
  base : s.base.Inv l
  alloc_nodup : s.base.alloc.Nodup
  installed : ∀ p, s.base.installed p ↔ p ∈ s.base.timers
  usage : ∀ p ∈ s.base.alloc, s.base.usage p = (if s.base.installed p then 1 else 0) + refs s.calls p
  held : ∀ c ∈ s.calls, c.timer ∈ s.base.alloc

section refs

variable {calls : List TimerCall} {c : TimerCall} {i : Nat} {p : Ptr}

theorem refs_append (A B : List TimerCall) (p : Ptr) : refs (A ++ B) p = refs A p + refs B p :=
  List.countP_append

theorem refs_nil (p : Ptr) : refs [] p = 0 := rfl

theorem refs_cons (c : TimerCall) (A : List TimerCall) (p : Ptr) :
    refs (c :: A) p = refs A p + if c.timer = p then 1 else 0 := by
  simp [refs, List.countP_cons]

theorem refs_pos (h : c ∈ calls) : 0 < refs calls c.timer :=
  List.countP_pos_iff.2 ⟨c, h, by simp⟩

theorem refs_eq_zero (h : ∀ c ∈ calls, c.timer ≠ p) : refs calls p = 0 :=
  List.countP_eq_zero.2 fun c hc => by simpa using h c hc

theorem refs_setRan (h : calls[i]? = some c) (p : Ptr) :
    refs (calls.set i { c with ran := true }) p = refs calls p := by
  obtain ⟨A, B, rfl, hset, -⟩ := exists_split h
  simp only [hset, refs_append, refs_cons]

theorem mem_setRan (h : calls[i]? = some c) :
    ∀ d ∈ calls.set i { c with ran := true }, ∃ d' ∈ calls, d'.timer = d.timer := by
  obtain ⟨A, B, rfl, hset, -⟩ := exists_split h
  intro d hd
  rw [hset, List.mem_append, List.mem_cons] at hd
  rcases hd with hd | rfl | hd
  · exact ⟨d, by simp [hd], rfl⟩
  · exact ⟨c, by simp, rfl⟩
  · exact ⟨d, by simp [hd], rfl⟩

end refs

namespace Inv

variable {s : LifeSt} {b : TimerSt} {l l' : List Ptr} {calls : List TimerCall} {p : Ptr}

theorem sameHeap (h : Inv s l) (hs : SameHeap s.base b) (hb : b.Inv l') (hr : ∀ p, refs calls p = refs s.calls p)
    (hc : ∀ c ∈ calls, ∃ c' ∈ s.calls, c'.timer = c.timer) : Inv ⟨b, calls⟩ l' where
  base := hb
  alloc_nodup := hs.alloc ▸ h.alloc_nodup
  installed p := by
    show b.installed p ↔ p ∈ b.timers
    rw [hs.installed, hs.timers]
    exact h.installed p
  usage p hp := by
    show b.usage p = (if b.installed p then 1 else 0) + refs calls p
    rw [hs.usage, hs.installed, hr]
    exact h.usage p (hs.alloc ▸ hp)
  held c hcm := by
    obtain ⟨c', hc', he⟩ := hc c hcm
    show c.timer ∈ b.alloc
    rw [hs.alloc, ← he]
    exact h.held c' hc'

theorem created (h : Inv s l) (hb : b.Inv l') (hp : p ∉ s.base.alloc) (hc : Created p s.base b) :
    Inv ⟨b, s.calls⟩ l' where
  base := hb
  alloc_nodup := by
    show b.alloc.Nodup
    rw [hc.alloc]
    simpa [List.nodup_append, h.alloc_nodup] using fun q hq => ne_of_mem_of_not_mem hq hp
  installed q := by
    show b.installed q ↔ q ∈ b.timers
    rw [hc.installed, hc.timers, TimerSt.setInstalled]
    by_cases hq : q = p
    · simp [hq]
    · simpa [hq] using h.installed q
  usage q hq := by
    show b.usage q = (if b.installed q then 1 else 0) + refs s.calls q
    change q ∈ b.alloc at hq
    rw [hc.alloc] at hq
    rw [hc.usage, hc.installed, TimerSt.setUsage, TimerSt.setInstalled]
    by_cases hqp : q = p
    · have : refs s.calls p = 0 := refs_eq_zero fun c hcm he => hp (he ▸ h.held c hcm)
      simp [hqp, this]
    · simpa [hqp] using h.usage q (by simpa [hqp] using hq)
  held c hcm := by
    show c.timer ∈ b.alloc
    rw [hc.alloc]
    exact List.mem_append_left _ (h.held c hcm)

theorem run_get (h : Inv s l) (hi : s.base.installed p) (body : TimerBody) :
    Inv ⟨s.base.setUsage p (s.base.usage p + 1), s.calls ++ [⟨p, body, false⟩]⟩ l where
  base := ⟨h.base.base.setUsage p _, h.base.armed_sub, h.base.timers_sub, h.base.timers_nodup⟩
  alloc_nodup := h.alloc_nodup
  installed := h.installed
  usage q hq := by
    have hu := h.usage q hq
    show (if q = p then s.base.usage p + 1 else s.base.usage q) =
      (if s.base.installed q then 1 else 0) + refs (s.calls ++ [⟨p, body, false⟩]) q
    rw [refs_append, refs_cons, refs_nil]
    by_cases hqp : q = p
    · subst hqp
      simp only [if_true]
      omega
    · simp only [hqp, Ne.symm hqp, if_false]
      omega
  held c hc := by
    rcases List.mem_append.1 hc with hc | hc
    · exact h.held c hc
    · rw [List.mem_singleton.1 hc]
      exact h.base.timers_sub p ((h.installed p).1 hi)

theorem run_kill (h : Inv s l) {i : Nat} {c : TimerCall} (hc : s.calls[i]? = some c) :
    ∃ b r l', (killTimerOnQ c.timer).run s.base = some (r, b) ∧
      Inv ⟨b, s.calls.set i { c with ran := true }⟩ l' := by
  have hcm := List.mem_of_getElem? hc
  by_cases hi : s.base.installed c.timer
  · obtain ⟨b, r, hb, ht, hin, hu, ha⟩ := h.base.run_killTimerOnQ ((h.installed _).1 hi) hi
    have husage := h.usage _ (h.held c hcm)
    have hpos := refs_pos hcm
    rw [if_pos hi] at husage
    -- the call itself holds a reference, so the kill does not free the timer
    rw [if_neg (by omega)] at ha
    refine ⟨b, true, _, r, hb, ha ▸ h.alloc_nodup, fun q => ?_, fun q hq => ?_, fun d hd => ?_⟩
    · show b.installed q ↔ q ∈ b.timers
      rw [hin, ht, TimerSt.setInstalled]
      by_cases hq : q = c.timer
      · simpa [hq] using h.base.timers_nodup.not_mem_erase
      · simpa [hq, List.mem_erase_of_ne hq] using h.installed q
    · show b.usage q = (if b.installed q then 1 else 0) + _
      rw [refs_setRan hc, hu, hin, TimerSt.setUsage, TimerSt.setInstalled]
      by_cases hqc : q = c.timer
      · simp only [hqc, if_true]
        simp
        omega
      · simpa [hqc] using h.usage q (ha ▸ hq)
    · obtain ⟨d', hd', he⟩ := mem_setRan hc d hd
      show d.timer ∈ b.alloc
      rw [ha, ← he]
      exact h.held d' hd'
  · refine ⟨s.base, false, l, run_killTimerOnQ_of_not_installed (by simpa using hi), ?_⟩
    exact h.sameHeap (.refl _) h.base (refs_setRan hc) (mem_setRan hc)

theorem run_put (h : Inv s l) {i : Nat} {c : TimerCall} (hc : s.calls[i]? = some c) :
    ∃ b, (timerPut c.timer).run s.base = some ((), b) ∧ Inv ⟨b, s.calls.eraseIdx i⟩ l := by
  have hcm := List.mem_of_getElem? hc
  have hca := h.held c hcm
  obtain ⟨A, B, hcalls, -, herase⟩ := exists_split hc
  have hrefs : ∀ p, refs s.calls p = refs (A ++ B) p + if c.timer = p then 1 else 0 := fun p => by
    rw [hcalls]
    simp only [refs_append, refs_cons]
    omega
  have hheld : ∀ d ∈ A ++ B, d.timer ∈ s.base.alloc := fun d hd => h.held d (by
    rw [hcalls]
    simp only [List.mem_append, List.mem_cons] at hd ⊢
    tauto)
  have husage : ∀ q ∈ s.base.alloc, (s.base.setUsage c.timer (s.base.usage c.timer - 1)).usage q =
      (if s.base.installed q then 1 else 0) + refs (A ++ B) q := fun q hq => by
    have hu := h.usage q hq
    rw [hrefs q] at hu
    simp only [TimerSt.setUsage]
    by_cases hqc : q = c.timer
    · subst hqc
      simp only [if_true] at hu ⊢
      omega
    · simp only [hqc, if_false, Ne.symm hqc] at hu ⊢
      omega
  have hbase := h.base.base.setUsage c.timer (s.base.usage c.timer - 1)
  rw [run_timerPut, herase]
  by_cases h0 : s.base.usage c.timer - 1 = 0
  · have hu := husage c.timer hca
    simp only [TimerSt.setUsage, if_true, h0] at hu
    have hni : c.timer ∉ s.base.timers := fun hm => by
      rw [if_pos ((h.installed _).2 hm)] at hu
      omega
    have hnr : refs (A ++ B) c.timer = 0 := by omega
    have hnl : c.timer ∉ l := fun hm => hni (h.base.armed_sub _ hm)
    rw [if_pos h0]
    refine ⟨_, rfl, ⟨hbase.free hnl, h.base.armed_sub, fun q hq => ?_, h.base.timers_nodup⟩, h.alloc_nodup.erase _,
      h.installed, fun q hq => husage q (List.mem_of_mem_erase hq), fun d hd => ?_⟩
    · exact (List.mem_erase_of_ne (ne_of_mem_of_not_mem hq hni)).2 (h.base.timers_sub q hq)
    · refine (List.mem_erase_of_ne fun he => ?_).2 (hheld d hd)
      have : 0 < refs (A ++ B) d.timer := refs_pos hd
      rw [he] at this
      omega
  · rw [if_neg h0]
    exact ⟨_, rfl, ⟨hbase, h.base.armed_sub, h.base.timers_sub, h.base.timers_nodup⟩, h.alloc_nodup, h.installed,
      husage, hheld⟩

/-- Every action whose reschedule body runs on an installed timer keeps the invariant. -/
theorem step (h : Inv s l) {a : LifeAct} (he : s.Enabled a) (hr : s.InstalledAtResched a) :
    ∃ s', s.step a = some s' ∧ ∃ l', Inv s' l' := by
  cases a with
  | create p i =>
    obtain ⟨b, r, hb, hc⟩ := h.base.run_createTimerOnQ he.1 he.2 i
    exact ⟨_, by simp only [LifeSt.step, onBase, r, Option.map_some], l, h.created hb he.2 hc⟩
  | set p i e tick =>
    obtain ⟨b, l', r, hb, hc⟩ := h.base.run_setTimerOnQ he.1 he.2 i e tick
    exact ⟨_, by simp only [LifeSt.step, onBase, r, Option.map_some], l', h.created hb he.2 hc⟩
  | get p body => exact ⟨_, rfl, l, h.run_get he body⟩
  | body i =>
    obtain ⟨c, hc, -⟩ := he
    have hca := h.held c (List.mem_of_getElem? hc)
    cases hb : c.body with
    | resched int e tick =>
      have hi := hr c hc (by rw [hb]; rfl)
      obtain ⟨b, l', r, h', hs, hl⟩ := h.base.base.run_reschedTimer hca int e tick
      refine ⟨⟨b, s.calls.set i { c with ran := true }⟩, ?_, l',
        h.sameHeap hs (h.base.of_sameHeap hs h' fun q hq => ?_) (refs_setRan hc) (mem_setRan hc)⟩
      · simp only [LifeSt.step, show s.calls[i]? = some c from hc, Option.bind_eq_bind, Option.bind_some, onBase, hb,
          TimerBody.run, r, Option.map_some]
      · rcases (hl q).1 hq with rfl | hq
        exacts [(h.installed _).1 hi, h.base.armed_sub q hq]
    | cancel =>
      obtain ⟨b, r, h', hs⟩ := h.base.base.run_cancelTimerOnQ hca
      refine ⟨⟨b, s.calls.set i { c with ran := true }⟩, ?_, _,
        h.sameHeap hs (h.base.of_sameHeap hs h' fun q hq => ?_) (refs_setRan hc) (mem_setRan hc)⟩
      · simp only [LifeSt.step, show s.calls[i]? = some c from hc, Option.bind_eq_bind, Option.bind_some, onBase, hb,
          TimerBody.run, r, Option.map_some]
      · exact h.base.armed_sub q (List.mem_of_mem_erase hq)
    | kill =>
      obtain ⟨b, r, l', hrun, h'⟩ := h.run_kill hc
      refine ⟨_, ?_, l', h'⟩
      simp only [LifeSt.step, show s.calls[i]? = some c from hc, Option.bind_eq_bind, Option.bind_some, onBase, hb,
        TimerBody.run, run_discard, hrun, Option.map_some]
  | skip i =>
    obtain ⟨c, hc, -⟩ := he
    refine ⟨_, ?_, l, h.sameHeap (.refl _) h.base (refs_setRan hc) (mem_setRan hc)⟩
    simp only [LifeSt.step, show s.calls[i]? = some c from hc, Option.bind_eq_bind, Option.bind_some]
    rfl
  | put i =>
    obtain ⟨c, hc, -⟩ := he
    obtain ⟨b, r, h'⟩ := h.run_put hc
    refine ⟨_, ?_, l, h'⟩
    simp only [LifeSt.step, show s.calls[i]? = some c from hc, Option.bind_eq_bind, Option.bind_some, onBase, r,
      Option.map_some]
  | fire now tick =>
    obtain ⟨r, b, l', hrun, h', hs, hl⟩ := h.base.base.run_fireTimer now tick
    refine ⟨_, ?_, l', h.sameHeap hs (h.base.of_sameHeap hs h' fun q hq => h.base.armed_sub q (hl q hq))
      (fun _ => rfl) fun c hc => ⟨c, hc, rfl⟩⟩
    simp only [LifeSt.step, onBase, run_discard, hrun, Option.map_some]

theorem of_init (s : TimerSt) : Inv (LifeSt.init s) [] :=
  ⟨.init s, List.nodup_nil, fun p => (by simp [LifeSt.init, mpqInitTimers]), fun p hp => (by cases hp),
    fun c hc => (by cases hc)⟩

theorem safe (h : Inv s l) : s.Safe := by
  intro p hp
  rw [h.base.base.rb.traverse] at hp
  have ht := h.base.armed_sub p hp
  exact ⟨(h.installed p).2 ht, ht, h.base.timers_sub p ht⟩

end Inv

/-- In every run whose reschedule bodies all run on timers that are still installed, every timer in the
base is installed and not freed. -/
theorem safe_of_run (s : TimerSt) (acts : List LifeAct)
    (h : Along LifeSt.step (fun s a => s.Enabled a ∧ s.InstalledAtResched a) (LifeSt.init s) acts) :
    ∃ s', exec LifeSt.step (LifeSt.init s) acts = some s' ∧ s'.Safe := by
  have h0 : ∃ l, Inv (LifeSt.init s) l := ⟨[], .of_init s⟩
  obtain ⟨s', hrun, l, h⟩ := exec_total (I := fun s => ∃ l, Inv s l) (fun _ _ ⟨_, h⟩ ha => h.step ha.1 ha.2) h0 h
  exact ⟨s', hrun, h.safe⟩

/-- A queue whose memory is all zero. -/
def zero : TimerSt :=
  ⟨⟨fun _ => 0, fun _ _ => 0, 0, 0⟩, 0, fun _ => .ptr 0, fun _ => .ptr 0, fun _ => 0, fun _ => 0, fun _ => 0, [],
    fun _ => false, [], []⟩

/-- A reschedule and a kill of one timer, with the reschedule first. -/
theorem safe_of_run_resched_kill : ∃ s', exec LifeSt.step (LifeSt.init zero) [.set 1 10 0 100,
    .get 1 (.resched 5 0 200), .get 1 .kill, .body 0, .fire 300 300, .body 1, .put 1, .put 0] = some s' ∧ s'.Safe :=
  safe_of_run zero _ (by decide +kernel)

/-- The kill runs between the `timer_get` and the body of the reschedule: the dead timer is armed again
and freed while it is in the base. -/
theorem not_safe_kill_before_resched : ¬∀ (s : TimerSt) (acts : List LifeAct),
    Along LifeSt.step Enabled (LifeSt.init s) acts → ∀ s', exec LifeSt.step (LifeSt.init s) acts = some s' → s'.Safe := by
  intro h
  have hrun : (exec LifeSt.step (LifeSt.init zero) [.set 1 10 0 100, .get 1 (.resched 5 0 200), .get 1 .kill, .body 1,
      .put 1, .body 0, .put 0]).any (fun s' => !decide s'.Safe) = true := by decide +kernel
  obtain ⟨s', hs', hn⟩ := (Option.any_eq_true _ _).1 hrun
  exact absurd (h zero _ (by decide +kernel) s' hs') (by simpa using hn)

end LifeSt

end Aosl
