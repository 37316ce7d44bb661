import Aosl.Lib.Lists
import Aosl.Lib.Steps

/-!
# Waking up the thread of a queue, `kernel/osmp.c` and `mp_kick_q` in `kernel/mpq.c`

One queue with its thread and any number of threads that queue functions to it or destroy it. `need_kicking` tells them
whether the thread of the queue may be going to sleep. The steps are single accesses to what the threads share,
in one order for all of them; what `q->lock` protects is seen by the thread of the queue without the lock where the code
reads it so (`q->head`, `q->count`). A function object counts as one in `head`.

`pending` is what a kick leaves for the wait to find: bytes in the pipe, or the pulse of the event when the
queue has `AOSL_MPQ_FLAG_SIGP_EVENT`. The wait may return at any time, for an fd, a timeout or a signal.
-/

namespace Aosl
open Lib

/-- Where a thread is that queues a function (`____add_f`) or destroys the queue (`__mpq_destroy`). -/
inductive KickThr where
  | lock
  /-- Before the object is linked. -/
  | link
  /-- Before `atomic_inc (&q->count)`. -/
  | inc
  | unlock
  /-- Before `q->terminated = 1`. -/
  | terminate
  -- `mp_kick_q`
  | read
  | bump
  | kick
  | gone
deriving DecidableEq

/-- Where the thread of the queue is; `timeo` says whether the timeout is not 0. -/
inductive KickPc where
  -- `__check_and_call_funcs`
  | funcs
  | take
  | call
  /-- Timers, then the test of `terminated` and `mpq_max_wait_time`. -/
  | timers
  -- `os_poll_dispatch`
  | poll (timeo : Bool)
  | pollKick (timeo : Bool)
  | need (timeo : Bool)
  | term (timeo : Bool)
  | cnt (timeo : Bool)
  | clear
  | kicked
  -- `__os_event_wait` and `__os_iomp_wait`
  | wait (timeo : Bool)
  | blocked (timeo : Bool)
  | woke (kick : Bool)
  | dispatch (kick : Bool)
  | fds
  /-- The loop is left. -/
  | exiting
deriving DecidableEq

structure KickSt where
  sigpEvent : Bool
  lock : Bool
  head : Nat
  /-- The objects taken by `__check_and_call_funcs`. -/
  taken : Nat
  count : Nat
  /-- The reservations of pool producers in `count`. -/
  reserved : Nat
  terminated : Bool
  needKicking : Bool
  kickQCount : Int
  pending : Nat
  iofdCount : Nat
  pc : KickPc
  thr : List KickThr
deriving DecidableEq

inductive KickAct where
  /-- A thread begins to queue a function, or to destroy the queue. -/
  | enter (destroy : Bool)
  | go (i : Nat)
  /-- The queue is full for the thread, and it gives up or waits. -/
  | refuse (i : Nat)
  | retry (i : Nat)
  /-- The thread of the queue goes on; `b` is whether the timeout is not 0, and whether the wait reports a kick. -/
  | queue (b : Bool)
  -- what callbacks on the thread of the queue do
  | addSelf
  | terminateSelf
  | setIofds (n : Nat)
  | reserve
  | release
deriving DecidableEq

namespace KickSt

/-- The thread of the queue is in a callback. -/
def inCallback (s : KickSt) : Bool :=
  match s.pc with
  | .call => s.taken ≠ 0
  | .timers => true
  | .fds => true
  | _ => false

def goThr (s : KickSt) (i : Nat) (x : KickThr) : KickSt := { s with thr := s.thr.set i x }

def thrStep (s : KickSt) (i : Nat) : KickThr → Option KickSt
  | .lock => if s.lock then none else some ({ s with lock := true }.goThr i .link)
  | .link => some ({ s with head := s.head + 1 }.goThr i .inc)
  | .inc => some ({ s with count := s.count + 1 }.goThr i .unlock)
  | .unlock => some ({ s with lock := false }.goThr i .read)
  | .terminate => some ({ s with terminated := true }.goThr i .read)
  | .read => some (s.goThr i (if s.needKicking then .bump else .gone))
  | .bump => some ({ s with kickQCount := s.kickQCount + 1 }.goThr i .kick)
  | .kick => some ({ s with pending := if s.sigpEvent then 1 else s.pending + 1 }.goThr i .gone)
  | .gone => none

def queueStep (s : KickSt) (b : Bool) : Option KickSt :=
  match s.pc with
  | .funcs => some { s with pc := if s.head ≠ 0 then .take else .timers }
  | .take => if s.lock then none else some { s with pc := .call, taken := s.head, head := 0 }
  | .call =>
    if s.taken = 0 then some { s with pc := .timers }
    else some { s with taken := s.taken - 1, count := s.count - 1 }
  | .timers => some { s with pc := if s.terminated then .exiting else .poll b }
  | .poll timeo => some { s with pc := if s.terminated then .funcs else .pollKick timeo }
  | .pollKick timeo => some { s with pc := if s.kickQCount > 0 ∨ s.iofdCount > 0 ∨ timeo then .need timeo else .funcs }
  | .need timeo => some { s with pc := .term timeo, needKicking := true }
  | .term timeo => some { s with pc := if s.terminated then .funcs else .cnt timeo }
  | .cnt timeo => some { s with pc := if s.count > 0 then .clear else .wait timeo }
  | .clear => some { s with pc := .kicked, needKicking := false }
  | .kicked => some { s with pc := if s.kickQCount = 0 ∧ s.iofdCount = 0 then .funcs else .wait false }
  | .wait timeo => some { s with pc := .blocked timeo, needKicking := true }
  | .blocked _ =>
    if b ∧ s.pending = 0 then none
    else some { s with pc := .woke b, pending := if s.sigpEvent then 0 else s.pending }
  | .woke kick => some { s with pc := .dispatch kick, needKicking := false }
  | .dispatch kick =>
    -- `os_drain_sigp`
    if kick ∧ ¬ s.sigpEvent then some { s with pc := .fds, pending := 0, kickQCount := s.kickQCount - s.pending }
    else some { s with pc := .fds }
  | .fds => some { s with pc := .funcs }
  | .exiting => none

def step (s : KickSt) : KickAct → Option KickSt
  | .enter destroy => some { s with thr := s.thr ++ [if destroy then .terminate else .lock] }
  | .go i => match s.thr[i]? with
    | some x => s.thrStep i x
    | none => none
  | .refuse i => match s.thr[i]? with
    | some .link => some ({ s with lock := false }.goThr i .gone)
    | _ => none
  | .retry i => match s.thr[i]? with
    | some .link => some ({ s with lock := false }.goThr i .lock)
    | _ => none
  | .queue b => s.queueStep b
  | .addSelf => if s.inCallback ∧ ¬ s.lock then some { s with head := s.head + 1, count := s.count + 1 } else none
  | .terminateSelf => if s.inCallback then some { s with terminated := true } else none
  | .setIofds n => if s.inCallback then some { s with iofdCount := n } else none
  | .reserve => some { s with reserved := s.reserved + 1, count := s.count + 1 }
  | .release => if s.reserved = 0 then none else some { s with reserved := s.reserved - 1, count := s.count - 1 }

/-- `__q_create`. -/
def init (sigpEvent : Bool) : KickSt := ⟨sigpEvent, false, 0, 0, 0, 0, false, false, 0, 0, 0, .funcs, []⟩

end KickSt

namespace KickThr

def holdsLock : KickThr → Bool
  | link => true
  | inc => true
  | unlock => true
  | _ => false

/-- After its enqueue or terminate step and before the kick. -/
def kicking : KickThr → Bool
  | inc => true
  | unlock => true
  | read => true
  | bump => true
  | kick => true
  | _ => false

end KickThr

namespace KickPc

/-- `need_kicking` is set and stays so until the wait returns. -/
def needs : KickPc → Bool
  | term _ => true
  | cnt _ => true
  | wait timeo => timeo
  | blocked _ => true
  | _ => false

/-- After the test of `terminated` in `os_poll_dispatch`, on the way to sleep. -/
def tested : KickPc → Bool
  | cnt _ => true
  | wait timeo => timeo
  | blocked timeo => timeo
  | _ => false

/-- After the test of `count`, on the way to sleep. -/
def counted : KickPc → Bool
  | wait timeo => timeo
  | blocked timeo => timeo
  | _ => false

end KickPc

namespace KickSt

variable {s s' : KickSt} {i : Nat} {x y : KickThr}

/-- A kick is there or comes. -/
def Kicked (s : KickSt) : Prop := 0 < s.pending ∨ 0 < s.thr.countP KickThr.kicking

structure KickInv (s : KickSt) : Prop where
  lock : s.thr.countP KickThr.holdsLock = s.lock.toNat
  count : s.count + s.thr.countP (· = .inc) = s.head + s.taken + s.reserved
  inc : s.thr.countP (· = .inc) ≤ s.head
  taken : s.pc ≠ .call → s.taken = 0
  need : s.pc.needs = true → s.needKicking = true
  stop : s.pc.tested = true → s.terminated = true → s.Kicked
  work : s.pc.counted = true → 0 < s.head → s.Kicked

theorem Kicked.set (h : s.Kicked) (hx : s.thr[i]? = some x) (hthr : s'.thr = s.thr.set i y) (hp : 0 < s.pending → 0 < s'.pending)
    (hy : y.kicking = true ∨ x.kicking = false ∨ 0 < s'.pending) : s'.Kicked := by
  have hset := countP_set_add hx KickThr.kicking y
  rw [← hthr] at hset
  rcases h with h | h
  · exact .inl (hp h)
  · rcases hy with hy | hy | hy
    · right
      rw [hy, if_pos rfl] at hset
      split_ifs at hset <;> omega
    · right
      rw [hy, if_neg Bool.false_ne_true] at hset
      split_ifs at hset <;> omega
    · exact .inl hy

theorem kicked_of_set (hx : s.thr[i]? = some x) (hthr : s'.thr = s.thr.set i y) (hy : y.kicking = true) : s'.Kicked := by
  right
  rw [hthr]
  obtain ⟨A, B, -, hset, -⟩ := exists_split hx
  rw [hset]
  exact List.countP_pos_iff.2 ⟨y, List.mem_append_right _ List.mem_cons_self, hy⟩

theorem KickInv.no_inc (h : s.KickInv) (hl : s.lock = false) : s.thr.countP (· = .inc) = 0 := by
  have hle : s.thr.countP (· = .inc) ≤ s.thr.countP KickThr.holdsLock := by
    apply List.countP_mono_left
    intro x _ hx
    rw [of_decide_eq_true hx]
    rfl
  rw [h.lock, hl] at hle
  exact Nat.le_zero.1 hle

theorem needs_of_tested {pc : KickPc} (h : pc.tested = true) : pc.needs = true := by
  rcases pc with _ | _ | _ | _ | t | t | t | t | t | _ | _ | t | t | t | t | _ | _
  all_goals first | rfl | exact h

theorem needs_of_counted {pc : KickPc} (h : pc.counted = true) : pc.needs = true := by
  rcases pc with _ | _ | _ | _ | t | t | t | t | t | _ | _ | t | t | t | t | _ | _
  all_goals first | rfl | exact h

/-- A step of a thread from `x` to `y`. While `need_kicking` is set, no kick gets lost. -/
theorem KickInv.set (h : s.KickInv) (hx : s.thr[i]? = some x) (hthr : s'.thr = s.thr.set i y)
    (hs : s'.pc = s.pc ∧ s'.needKicking = s.needKicking ∧ s'.taken = s.taken ∧ s'.reserved = s.reserved)
    (hlock : y.holdsLock.toNat + s.lock.toNat = x.holdsLock.toNat + s'.lock.toNat)
    (hcount : s'.count + (if y = .inc then 1 else 0) + s.head = s.count + (if x = .inc then 1 else 0) + s'.head)
    (hinc : (if y = .inc then 1 else 0) + s.head ≤ (if x = .inc then 1 else 0) + s'.head)
    (hpending : 0 < s.pending → 0 < s'.pending)
    (hkick : s.needKicking = true → y.kicking = true ∨ x.kicking = false ∨ 0 < s'.pending)
    (hterm : s'.terminated = true → s.terminated = true ∨ y.kicking = true)
    (hhead : 0 < s'.head → 0 < s.head ∨ y.kicking = true) : s'.KickInv := by
  obtain ⟨hpc, hneed, htaken, hreserved⟩ := hs
  have hholds := countP_set_add hx KickThr.holdsLock y
  have hcnt := countP_set_add hx (· = .inc) y
  rw [← hthr] at hholds hcnt
  simp only [decide_eq_true_eq] at hcnt
  have h1 := h.lock
  have h2 := h.count
  have h3 := h.inc
  refine ⟨?_, ?_, ?_, ?_, ?_, ?_, ?_⟩
  · have hbool : ∀ b : Bool, (if b = true then 1 else 0) = b.toNat := by decide
    rw [hbool, hbool] at hholds
    omega
  · omega
  · omega
  · rw [hpc, htaken]
    exact h.taken
  · rw [hpc, hneed]
    exact h.need
  · intro hp ht
    rw [hpc] at hp
    rcases hterm ht with ht | hy
    · exact (h.stop hp ht).set hx hthr hpending (hkick (h.need (needs_of_tested hp)))
    · exact kicked_of_set hx hthr hy
  · intro hp hh
    rw [hpc] at hp
    rcases hhead hh with hh | hy
    · exact (h.work hp hh).set hx hthr hpending (hkick (h.need (needs_of_counted hp)))
    · exact kicked_of_set hx hthr hy

theorem KickInv.lock_of (h : s.KickInv) (hx : s.thr[i]? = some x) (hl : x.holdsLock = true) : s.lock = true := by
  have hpos : 0 < s.thr.countP KickThr.holdsLock := List.countP_pos_iff.2 ⟨x, List.mem_of_getElem? hx, hl⟩
  rw [h.lock] at hpos
  rcases hb : s.lock
  · rw [hb] at hpos
    cases hpos
  · rfl

theorem KickInv.thrStep (h : s.KickInv) (hx : s.thr[i]? = some x) (hs : s.thrStep i x = some s') : s'.KickInv := by
  rcases x
  case lock =>
    simp only [KickSt.thrStep] at hs
    split_ifs at hs with hl
    cases hs
    rw [Bool.not_eq_true] at hl
    refine h.set hx rfl ⟨rfl, rfl, rfl, rfl⟩ ?_ rfl (Nat.le_refl _) id (fun _ => .inr (.inl rfl)) .inl .inl
    rw [hl]
    rfl
  case link =>
    cases hs
    refine h.set hx rfl ⟨rfl, rfl, rfl, rfl⟩ rfl ?_ ?_ id (fun _ => .inl rfl) .inl fun _ => .inr rfl
    · simp only [goThr, if_true, reduceCtorEq, if_false]
      omega
    · simp only [goThr, if_true, reduceCtorEq, if_false]
      omega
  case inc =>
    cases hs
    refine h.set hx rfl ⟨rfl, rfl, rfl, rfl⟩ rfl rfl ?_ id (fun _ => .inl rfl) .inl .inl
    simp only [goThr, if_true, reduceCtorEq, if_false]
    omega
  case unlock =>
    have hl := h.lock_of hx rfl
    cases hs
    refine h.set hx rfl ⟨rfl, rfl, rfl, rfl⟩ ?_ rfl (Nat.le_refl _) id (fun _ => .inl rfl) .inl .inl
    rw [hl]
    rfl
  case terminate =>
    cases hs
    exact h.set hx rfl ⟨rfl, rfl, rfl, rfl⟩ rfl rfl (Nat.le_refl _) id (fun _ => .inl rfl)
      (fun _ => .inr rfl) .inl
  case read =>
    simp only [KickSt.thrStep] at hs
    split_ifs at hs with hn
    · cases hs
      exact h.set hx rfl ⟨rfl, rfl, rfl, rfl⟩ rfl rfl (Nat.le_refl _) id (fun _ => .inl rfl) .inl .inl
    · cases hs
      exact h.set hx rfl ⟨rfl, rfl, rfl, rfl⟩ rfl rfl (Nat.le_refl _) id (fun hn' => absurd hn' hn)
        .inl .inl
  case bump =>
    cases hs
    exact h.set hx rfl ⟨rfl, rfl, rfl, rfl⟩ rfl rfl (Nat.le_refl _) id (fun _ => .inl rfl) .inl .inl
  case kick =>
    cases hs
    have hpos : 0 < if s.sigpEvent then 1 else s.pending + 1 := by
      split_ifs
      · exact Nat.one_pos
      · exact Nat.succ_pos _
    exact h.set hx rfl ⟨rfl, rfl, rfl, rfl⟩ rfl rfl (Nat.le_refl _) (fun _ => hpos) (fun _ => .inr (.inr hpos)) .inl .inl
  case gone => cases hs

theorem KickInv.awake (hlock : s.thr.countP KickThr.holdsLock = s.lock.toNat)
    (hcount : s.count + s.thr.countP (· = .inc) = s.head + s.taken + s.reserved)
    (hinc : s.thr.countP (· = .inc) ≤ s.head) (htaken : s.pc ≠ .call → s.taken = 0) (hpc : s.pc.needs = false) :
    s.KickInv := by
  have hno : ¬ s.pc.needs = true := by simp [hpc]
  exact ⟨hlock, hcount, hinc, htaken, fun h => absurd h hno, fun h => absurd (needs_of_tested h) hno,
    fun h => absurd (needs_of_counted h) hno⟩

theorem KickInv.queueStep {b : Bool} (h : s.KickInv) (hs : s.queueStep b = some s') : s'.KickInv := by
  obtain ⟨hlock, hcount, hinc, htaken, hneed, hstop, hwork⟩ := id h
  unfold KickSt.queueStep at hs
  split at hs
  all_goals
    rename_i hpc
    rw [hpc] at htaken hneed hstop hwork
  case h_2 =>
    -- the list is taken under the lock, so what is linked has been counted
    split_ifs at hs with hl
    cases hs
    rw [Bool.not_eq_true] at hl
    have hno := h.no_inc hl
    have ht := htaken (by simp)
    refine .awake hlock ?_ ?_ (by simp) rfl
    · simp only
      omega
    · simp only
      omega
  case h_3 =>
    split_ifs at hs with ht
    · cases hs
      exact .awake hlock hcount hinc (fun _ => ht) rfl
    · cases hs
      refine .awake hlock ?_ hinc (by simp [hpc]) (by simp [hpc, KickPc.needs])
      simp only
      omega
  case h_7 =>
    cases hs
    exact ⟨hlock, hcount, hinc, fun _ => htaken (by simp), fun _ => rfl, by simp [KickPc.tested],
      by simp [KickPc.counted]⟩
  case h_8 =>
    -- `terminated` is read after `need_kicking` was set
    cases hs
    split_ifs with ht
    · exact .awake hlock hcount hinc (fun _ => htaken (by simp)) rfl
    · exact ⟨hlock, hcount, hinc, fun _ => htaken (by simp), fun _ => hneed rfl, fun _ ht' => absurd ht' ht,
        by simp [KickPc.counted]⟩
  case h_9 =>
    -- `count` is read after `need_kicking` was set: what is linked has not been counted yet
    cases hs
    have ht := htaken (by simp)
    split_ifs with hc
    · exact .awake hlock hcount hinc (fun _ => ht) rfl
    · refine ⟨hlock, hcount, hinc, fun _ => ht, fun _ => hneed rfl, fun _ => hstop rfl, ?_⟩
      intro _ hh
      right
      change 0 < s.head at hh
      have hpos : 0 < s.thr.countP (· = .inc) := by omega
      refine Nat.lt_of_lt_of_le hpos (List.countP_mono_left ?_)
      intro x _ hx
      rw [of_decide_eq_true hx]
      rfl
  case h_12 =>
    cases hs
    exact ⟨hlock, hcount, hinc, fun _ => htaken (by simp), fun _ => rfl, hstop, hwork⟩
  case h_13 =>
    rw [ite_eq_iff] at hs
    obtain ⟨-, hs⟩ | ⟨-, hs⟩ := hs
    · cases hs
    · cases hs
      exact .awake hlock hcount hinc (fun _ => htaken (by simp)) rfl
  all_goals
    try split_ifs at hs
    all_goals
      cases hs
      try exact .awake hlock hcount hinc (fun _ => htaken (by simp)) rfl

theorem needs_of_callback (h : s.inCallback = true) : s.pc.needs = false := by
  unfold inCallback at h
  split at h
  all_goals
    rename_i hpc
    try rw [hpc]
    try rfl
  cases h

theorem KickInv.step {a : KickAct} (h : s.KickInv) (hs : s.step a = some s') : s'.KickInv := by
  rcases a with destroy | i | i | i | b | _ | _ | n | _ | _
  · cases hs
    have hkicked : s.Kicked → { s with thr := s.thr ++ [if destroy then KickThr.terminate else .lock] }.Kicked := by
      intro hk
      refine hk.imp_right fun hk => ?_
      rw [List.countP_append]
      omega
    have hcnt : ∀ p : KickThr → Bool, p .terminate = false → p .lock = false →
        (s.thr ++ [if destroy then KickThr.terminate else .lock]).countP p = s.thr.countP p := by
      intro p h1 h2
      rcases destroy
      · simp [h2]
      · simp [h1]
    refine ⟨?_, ?_, ?_, h.taken, h.need, fun hp ht => hkicked (h.stop hp ht), fun hp hh => hkicked (h.work hp hh)⟩
    · rw [hcnt _ rfl rfl]
      exact h.lock
    · rw [hcnt _ rfl rfl]
      exact h.count
    · rw [hcnt _ rfl rfl]
      exact h.inc
  · simp only [KickSt.step] at hs
    split at hs
    · rename_i x hx
      exact h.thrStep hx hs
    · cases hs
  · simp only [KickSt.step] at hs
    split at hs
    · rename_i hx
      have hl := h.lock_of hx rfl
      cases hs
      refine h.set hx rfl ⟨rfl, rfl, rfl, rfl⟩ ?_ rfl (Nat.le_refl _) id (fun _ => .inr (.inl rfl)) .inl .inl
      rw [hl]
      rfl
    · cases hs
  · simp only [KickSt.step] at hs
    split at hs
    · rename_i hx
      have hl := h.lock_of hx rfl
      cases hs
      refine h.set hx rfl ⟨rfl, rfl, rfl, rfl⟩ ?_ rfl (Nat.le_refl _) id (fun _ => .inr (.inl rfl)) .inl .inl
      rw [hl]
      rfl
    · cases hs
  · exact h.queueStep hs
  · simp only [KickSt.step] at hs
    split_ifs at hs with hcb
    cases hs
    have hcount := h.count
    have hinc := h.inc
    refine .awake h.lock ?_ ?_ h.taken (needs_of_callback (s := s) hcb.1)
    · simp only
      omega
    · simp only
      omega
  · simp only [KickSt.step] at hs
    split_ifs at hs with hcb
    cases hs
    exact .awake h.lock h.count h.inc h.taken (needs_of_callback (s := s) hcb)
  · simp only [KickSt.step] at hs
    split_ifs at hs with hcb
    cases hs
    exact .awake h.lock h.count h.inc h.taken (needs_of_callback (s := s) hcb)
  · cases hs
    refine ⟨h.lock, ?_, h.inc, h.taken, h.need, h.stop, h.work⟩
    have hcount := h.count
    simp only
    omega
  · simp only [KickSt.step] at hs
    split_ifs at hs with hr
    cases hs
    refine ⟨h.lock, ?_, h.inc, h.taken, h.need, h.stop, h.work⟩
    have hcount := h.count
    have hinc := h.inc
    simp only
    omega

theorem kickInv_init (sigpEvent : Bool) : (init sigpEvent).KickInv := .awake rfl rfl (Nat.le_refl _) (fun _ => rfl) rfl

theorem KickInv.run {as : List KickAct} (h : s.KickInv) (hs : exec KickSt.step s as = some s') : s'.KickInv :=
  exec_invariant_all (fun _ _ _ h hs => h.step hs) h hs

/-- Only the thread of the queue writes `need_kicking`. -/
theorem needKicking_step {a : KickAct} (ha : ∀ b, a ≠ .queue b) (hs : s.step a = some s') :
    s'.needKicking = s.needKicking := by
  rcases a with destroy | i | i | i | b | _ | _ | n | _ | _
  case queue => exact absurd rfl (ha b)
  case go =>
    simp only [KickSt.step] at hs
    split at hs
    · rename_i x _
      rcases x
      case lock =>
        simp only [KickSt.thrStep] at hs
        split_ifs at hs
        cases hs
        rfl
      case gone => cases hs
      all_goals
        cases hs
        rfl
    · cases hs
  all_goals
    simp only [KickSt.step] at hs
    repeat' split at hs
    all_goals first
      | cases hs; done
      | cases hs; rfl

theorem needKicking_run {as : List KickAct} (ha : ∀ b, .queue b ∉ as) (hs : exec step s as = some s') :
    s'.needKicking = s.needKicking := by
  induction as generalizing s with
  | nil => rw [Option.some.inj hs]
  | cons a as ih =>
    rw [exec_cons] at hs
    obtain ⟨t, ht, hs⟩ := Option.bind_eq_some_iff.1 hs
    have hstep := needKicking_step (fun b hb => ha b (hb ▸ List.mem_cons_self)) ht
    rw [← hstep]
    exact ih (fun b hb => ha b (List.mem_cons_of_mem a hb)) hs

/-- The thread of the queue sleeps, with a function in its list or `terminated` set: a kick is there, or a thread that has
linked a function or set `terminated` has not kicked yet. It has seen `need_kicking` set or will see it, for the
flag stays set as long as the thread of the queue does not move. -/
theorem no_lost_wakeup {sigpEvent : Bool} {as : List KickAct} (hs : exec step (init sigpEvent) as = some s)
    (hpc : s.pc = .blocked true) (hwork : 0 < s.head ∨ s.terminated = true) :
    0 < s.pending ∨ ∃ x ∈ s.thr, x.kicking = true ∧
      ∀ bs s', (∀ b, .queue b ∉ bs) → exec step s bs = some s' → s'.needKicking = true := by
  have h : s.KickInv := (kickInv_init _).run hs
  have hneed : s.needKicking = true := h.need (by rw [hpc]; rfl)
  have hkicked : s.Kicked := by
    rcases hwork with hh | ht
    · exact h.work (by rw [hpc]; rfl) hh
    · exact h.stop (by rw [hpc]; rfl) ht
  rcases hkicked with hp | hk
  · exact .inl hp
  · obtain ⟨x, hx, hkick⟩ := List.countP_pos_iff.1 hk
    refine .inr ⟨x, hx, hkick, fun bs s' hbs hs' => ?_⟩
    rw [needKicking_run hbs hs', hneed]

/-- The thread of the queue goes to sleep while a thread has linked a function and not counted it. -/
def sleepRun : List KickAct :=
  [.queue true, .queue true, .queue true, .queue true, .queue true, .queue true, .enter false, .go 0, .go 0,
    .queue true, .queue true]

theorem no_lost_wakeup_sleepRun : ∃ s, exec step (init false) sleepRun = some s ∧ s.pc = .blocked true ∧ 0 < s.head ∧
    (0 < s.pending ∨ ∃ x ∈ s.thr, x.kicking = true ∧
      ∀ bs s', (∀ b, .queue b ∉ bs) → exec step s bs = some s' → s'.needKicking = true) := by
  have hany : (exec step (init false) sleepRun).any (fun s => s.pc = .blocked true && 0 < s.head) = true := by
    decide +kernel
  obtain ⟨s, hs, h⟩ := (Option.any_eq_true ..).1 hany
  rw [Bool.and_eq_true, decide_eq_true_eq, decide_eq_true_eq] at h
  exact ⟨s, hs, h.1, h.2, no_lost_wakeup hs h.1 (.inl h.2)⟩

end KickSt

end Aosl
