import Aosl.TimerBase

/-!
# Runs of the timers of one queue

Sequences of the timer operations on the thread of the queue, starting from `mpq_init_timers` in any
memory. A callback of a fired timer acts through the same operations, so its operations follow the
`fire` of its timer in the sequence; `mpq_fini_timers` is a sequence of kills.
-/

namespace Aosl
open Lib Lib.CTree

inductive TimerOp where
  | create (timer : Ptr) (interval : UInt64)
  | set (timer : Ptr) (interval expireTime tick : UInt64)
  | resched (timer : Ptr) (interval expireTime tick : UInt64)
  | cancel (timer : Ptr)
  | kill (timer : Ptr)
  | fire (now tick : UInt64)
deriving DecidableEq

namespace TimerOp

/-- A new timer is fresh memory, the other operations are on installed timers. -/
def Valid (s : TimerSt) : TimerOp → Prop
  | create p _ => p ≠ 0 ∧ p ∉ s.alloc
  | set p _ _ _ => p ≠ 0 ∧ p ∉ s.alloc
  | resched p _ _ _ => p ∈ s.timers
  | cancel p => p ∈ s.timers
  | kill p => p ∈ s.timers
  | fire _ _ => True

instance (s : TimerSt) : (op : TimerOp) → Decidable (op.Valid s)
  | create p _ => inferInstanceAs (Decidable (p ≠ 0 ∧ p ∉ s.alloc))
  | set p _ _ _ => inferInstanceAs (Decidable (p ≠ 0 ∧ p ∉ s.alloc))
  | resched p _ _ _ => inferInstanceAs (Decidable (p ∈ s.timers))
  | cancel p => inferInstanceAs (Decidable (p ∈ s.timers))
  | kill p => inferInstanceAs (Decidable (p ∈ s.timers))
  | fire _ _ => .isTrue trivial

def run : TimerOp → TimerM Unit
  | create p interval => createTimerOnQ p interval
  | set p interval expireTime tick => setTimerOnQ p interval expireTime tick
  | resched p interval expireTime tick => reschedTimer p interval expireTime tick
  | cancel p => cancelTimerOnQ p
  | kill p => discard (killTimerOnQ p)
  | fire now tick => discard (fireTimer now tick)

/-- The state after an operation; `none` if it follows a pointer that cannot be followed. -/
def step (s : TimerSt) (op : TimerOp) : Option TimerSt := (op.run.run s).map Prod.snd

end TimerOp

namespace TimerSt

/-- The tree and the linked list of the base hold the same timers, in the order of their expiry times
and in order of arming where these are equal; the poison value marks the other timers. -/
def Agree (s : TimerSt) : Prop :=
  ∃ t m, At s.rb [] t ∧ Balanced t .black m ∧ DList tlink (.ptr s.first) s.timerNext s.timerPrev t.toList ∧
    StableSort cmpExpire s.expireTime t.toList s.armed ∧ (s.first = 0 ↔ t = .leaf) ∧
    ∀ p ∈ s.alloc, s.timerNext p = .poison1 ↔ p ∉ t.toList

/-- The base holds the timers `l`, which are in `q->timers`; these are on the heap. -/
structure Inv (s : TimerSt) (l : List Ptr) : Prop where
  base : BaseInv s l
  armed_sub : ∀ p ∈ l, p ∈ s.timers
  timers_sub : ∀ p ∈ s.timers, p ∈ s.alloc
  timers_nodup : s.timers.Nodup

end TimerSt

theorem BaseInv.agree {s : TimerSt} {l : List Ptr} (h : BaseInv s l) : s.Agree := by
  have h0 := h.zero_not_mem
  have hl := h.list
  have hs := h.sorted
  have hp := fun p (hp : p ∈ s.alloc) => h.next_eq_poison hp
  obtain ⟨t, m, hat, hb, rfl, hc⟩ := h.rb
  refine ⟨t, m, hat, hb, hl, hs, ?_, hp⟩
  have hf := hl.first_eq
  rw [tlink, TPtr.ptr.injEq] at hf
  rw [hf]
  cases t with
  | leaf => simp
  | node a x c b =>
    simp only [reduceCtorEq, iff_false]
    intro he
    cases hlist : (CTree.node a x c b).toList with
    | nil => simp at hlist
    | cons y l =>
      rw [hlist] at he h0
      exact h0 (by simp [show y = 0 from he])

theorem run_discard {α : Type} (m : TimerM α) (s : TimerSt) :
    (discard m).run s = (m.run s).map fun r => ((), r.2) := by
  simp only [discard, Functor.mapConst, Function.comp, StateT.map, StateT.run]
  cases m s <;> rfl

/-- A new timer `p` in the tables, with the reference of the tables. -/
structure Created (p : Ptr) (s s' : TimerSt) : Prop where
  alloc : s'.alloc = s.alloc ++ [p]
  timers : s'.timers = s.timers ++ [p]
  installed : s'.installed = (s.setInstalled p true).installed
  usage : s'.usage = (s.setUsage p 1).usage

theorem Created.sameHeap {p : Ptr} {s s₁ s₂ : TimerSt} (h : Created p s s₁) (hs : SameHeap s₁ s₂) :
    Created p s s₂ :=
  ⟨hs.alloc.trans h.alloc, hs.timers.trans h.timers, hs.installed.trans h.installed, hs.usage.trans h.usage⟩

namespace TimerSt.Inv

variable {s s' : TimerSt} {l l' : List Ptr} {p : Ptr}

theorem of_sameHeap (h : Inv s l) (hs : SameHeap s s') (hb : BaseInv s' l') (hl : ∀ q ∈ l', q ∈ s.timers) :
    Inv s' l' :=
  ⟨hb, fun q hq => hs.timers ▸ hl q hq, fun q hq => hs.alloc ▸ h.timers_sub q (hs.timers ▸ hq),
    hs.timers ▸ h.timers_nodup⟩

theorem run_createTimerOnQ (h : Inv s l) (h0 : p ≠ 0) (hp : p ∉ s.alloc) (i : UInt64) :
    ∃ s', (createTimerOnQ p i).run s = some ((), s') ∧ Inv s' l ∧ Created p s s' := by
  have hl : p ∉ l := fun hm => hp (h.base.sub p hm)
  refine ⟨_, rfl, ⟨⟨h.base.rb, ?_, ?_, fun q hq hql => ?_, fun q hq => ?_, ?_⟩, fun q hq => ?_, fun q hq => ?_, ?_⟩, rfl, rfl, rfl, rfl⟩
  · have hne : ∀ q ∈ l, q ≠ p := fun q hq => ne_of_mem_of_not_mem hq hl
    have hd := h.base.list
    refine ⟨hd.first_eq, hd.nexts.congr fun q hq => ?_, hd.prevs.congr fun q hq => ?_⟩
    · simp [setInstalled, setExpire, setInterval, setUsage, setPrev, setNext, hne q hq]
    · simp [setInstalled, setExpire, setInterval, setUsage, setPrev, setNext, hne q (List.mem_reverse.1 hq)]
  · exact h.base.sorted.congr fun q hq => if_neg (ne_of_mem_of_not_mem hq hl)
  · rcases List.mem_append.1 hq with hq | hq
    · have hne : q ≠ p := ne_of_mem_of_not_mem hq hp
      simp [setInstalled, setExpire, setInterval, setUsage, setPrev, setNext, hne, h.base.poison q hq hql]
    · simp [setInstalled, setExpire, setInterval, setUsage, setPrev, setNext, List.mem_singleton.1 hq]
  · exact List.mem_append_left _ (h.base.sub q hq)
  · simpa [setInstalled, setExpire, setInterval, setUsage, setPrev, setNext, h0.symm] using h.base.alloc_ne
  · exact List.mem_append_left _ (h.armed_sub q hq)
  · rcases List.mem_append.1 hq with hq | hq
    exacts [List.mem_append_left _ (h.timers_sub q hq), List.mem_append_right _ hq]
  · have hpt : p ∉ s.timers := fun hm => hp (h.timers_sub p hm)
    show (s.timers ++ [p]).Nodup
    simpa [List.nodup_append, h.timers_nodup] using fun q hq => ne_of_mem_of_not_mem hq hpt

theorem run_setTimerOnQ (h : Inv s l) (h0 : p ≠ 0) (hp : p ∉ s.alloc) (i e tick : UInt64) :
    ∃ s' l', (setTimerOnQ p i e tick).run s = some ((), s') ∧ Inv s' l' ∧ Created p s s' := by
  obtain ⟨s₁, r₁, h₁, hc₁⟩ := h.run_createTimerOnQ h0 hp i
  have hl : p ∉ l := fun hm => hp (h.base.sub p hm)
  obtain ⟨s₂, l₂, r₂, h₂, hs₂, hl₂⟩ := h₁.base.run_schedTimer (by simp [hc₁.alloc]) hl e tick
  refine ⟨s₂, l₂, ?_, h₁.of_sameHeap hs₂ h₂ fun q hq => ?_, hc₁.sameHeap hs₂⟩
  · simp only [setTimerOnQ, StateT.run_bind, r₁, Option.bind_eq_bind, Option.bind_some, r₂]
  · rcases (hl₂ q).1 hq with rfl | hq
    exacts [by simp [hc₁.timers], h₁.armed_sub q hq]

theorem run_killTimerOnQ (h : Inv s l) (hp : p ∈ s.timers) (hi : s.installed p) :
    ∃ s', (killTimerOnQ p).run s = some (true, s') ∧ Inv s' (l.erase p) ∧ s'.timers = s.timers.erase p ∧
      s'.installed = (s.setInstalled p false).installed ∧ s'.usage = (s.setUsage p (s.usage p - 1)).usage ∧
      s'.alloc = if s.usage p - 1 = 0 then s.alloc.erase p else s.alloc := by
  obtain ⟨s', r, h', ht, hin, hu, ha⟩ := h.base.run_killTimerOnQ (h.timers_sub p hp) hi
  have hpl : p ∉ l.erase p := h.base.rb.nodup.not_mem_erase
  have hpt : p ∉ s.timers.erase p := h.timers_nodup.not_mem_erase
  refine ⟨s', r, ⟨h', fun q hq => ?_, fun q hq => ?_, ?_⟩, ht, hin, hu, ha⟩
  · rw [ht, List.mem_erase_of_ne (ne_of_mem_of_not_mem hq hpl)]
    exact h.armed_sub q (List.mem_of_mem_erase hq)
  · rw [ht] at hq
    rw [ha]
    split
    · rw [List.mem_erase_of_ne (ne_of_mem_of_not_mem hq hpt)]
      exact h.timers_sub q (List.mem_of_mem_erase hq)
    · exact h.timers_sub q (List.mem_of_mem_erase hq)
  · rw [ht]
    exact h.timers_nodup.erase p

/-- Every operation can be taken and keeps the invariant. -/
theorem step (h : Inv s l) {op : TimerOp} (hv : op.Valid s) : ∃ s', op.step s = some s' ∧ ∃ l', Inv s' l' := by
  cases op with
  | create p i =>
    obtain ⟨s', r, h', -⟩ := h.run_createTimerOnQ hv.1 hv.2 i
    exact ⟨s', by simp only [TimerOp.step, TimerOp.run, r, Option.map_some], l, h'⟩
  | set p i e tick =>
    obtain ⟨s', l', r, h', -⟩ := h.run_setTimerOnQ hv.1 hv.2 i e tick
    exact ⟨s', by simp only [TimerOp.step, TimerOp.run, r, Option.map_some], l', h'⟩
  | resched p i e tick =>
    obtain ⟨s', l', r, h', hs, hl⟩ := h.base.run_reschedTimer (h.timers_sub p hv) i e tick
    refine ⟨s', by simp only [TimerOp.step, TimerOp.run, r, Option.map_some], l', h.of_sameHeap hs h' fun q hq => ?_⟩
    rcases (hl q).1 hq with rfl | hq
    exacts [hv, h.armed_sub q hq]
  | cancel p =>
    obtain ⟨s', r, h', hs⟩ := h.base.run_cancelTimerOnQ (h.timers_sub p hv)
    exact ⟨s', by simp only [TimerOp.step, TimerOp.run, r, Option.map_some], _,
      h.of_sameHeap hs h' fun q hq => h.armed_sub q (List.mem_of_mem_erase hq)⟩
  | kill p =>
    by_cases hi : s.installed p
    · obtain ⟨s', r, h', -⟩ := h.run_killTimerOnQ hv hi
      exact ⟨s', by simp only [TimerOp.step, TimerOp.run, run_discard, r, Option.map_some], _, h'⟩
    · have r := run_killTimerOnQ_of_not_installed (by simpa using hi)
      exact ⟨s, by simp only [TimerOp.step, TimerOp.run, run_discard, r, Option.map_some], l, h⟩
  | fire now tick =>
    obtain ⟨b, s', l', r, h', hs, hl⟩ := h.base.run_fireTimer now tick
    exact ⟨s', by simp only [TimerOp.step, TimerOp.run, run_discard, r, Option.map_some], l',
      h.of_sameHeap hs h' fun q hq => h.armed_sub q (hl q hq)⟩

theorem init (s : TimerSt) : Inv (mpqInitTimers s) [] where
  base := ⟨isRb_init s.rb, .nil, .nil, fun p hp => (by cases hp), fun p hp => (by cases hp), List.not_mem_nil⟩
  armed_sub p hp := by cases hp
  timers_sub p hp := by cases hp
  timers_nodup := List.nodup_nil

end TimerSt.Inv

/-- After any sequence of operations on installed timers the tree and the list of the base agree. -/
theorem TimerOp.run_agree (s : TimerSt) (ops : List TimerOp)
    (hv : Along TimerOp.step (fun s op => op.Valid s) (mpqInitTimers s) ops) :
    ∃ s', exec TimerOp.step (mpqInitTimers s) ops = some s' ∧ s'.Agree := by
  have h0 : ∃ l, (mpqInitTimers s).Inv l := ⟨[], .init s⟩
  obtain ⟨s', hrun, l, h⟩ := exec_total (I := fun s => ∃ l, s.Inv l) (fun _ _ ⟨_, h⟩ hv => h.step hv) h0 hv
  exact ⟨s', hrun, h.base.agree⟩

/-- Three timers with equal and wrapped expiry times, armed again, fired and killed. -/
theorem TimerOp.run_agree_three : ∃ s', exec TimerOp.step (mpqInitTimers ⟨⟨fun _ => 7, fun _ _ => 9, 3, 5⟩, 4,
      fun _ => .ptr 1, fun _ => .ptr 2, fun _ => 0, fun _ => 0, fun _ => 0, [], fun _ => false, [], []⟩)
    [.set 1 10 0 100, .set 2 0 110 0, .create 3 20, .resched 3 20 0 90, .resched 1 5 0 105, .fire 110 111, .cancel 2,
      .kill 1, .resched 2 0 0xffffffffffffffff 0] = some s' ∧ s'.Agree :=
  TimerOp.run_agree _ _ (by decide +kernel)

end Aosl
