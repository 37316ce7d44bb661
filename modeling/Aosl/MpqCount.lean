import Aosl.MpqRun
import Aosl.Lib.Fifo

/-!
# The length of a queue and its bound, `____add_f` and `__process_fo`

A queue that is not used through a pool, its thread and any number of producers. A producer tests the bound, links its
object and counts it while it holds `q->lock`, but `atomic_dec (&q->count)` is done without the lock, so it may fall
between the test and the linking. Linking and counting are one step, as `q->head`, `q->tail` and the links are changed
under the lock only. A callback that adds to its own queue is a producer too.

`failable` is not in the code: which objects were added by an add that may fail.
-/

namespace Aosl
open Lib

/-- The errors of `____add_f` and of `k_cond_wait` in it. -/
inductive AddFErr where
  | eagain
  | eintr
deriving DecidableEq

/-- Where a producer is in `____add_f`, with its object. -/
inductive AddThr where
  /-- Before `k_lock_lock`. -/
  | enter (fo : Ptr) (noFail : Bool)
  /-- Before the test of the bound, with the lock, and after it. -/
  | test (fo : Ptr) (noFail : Bool)
  | link (fo : Ptr) (noFail : Bool)
  /-- In `k_cond_wait`; `woken` before it has the lock again. -/
  | wait (fo : Ptr) (woken : Bool)
  /-- Behind the loop, with the lock, and without it before `__free_fo`. -/
  | failed (fo : Ptr) (err : AddFErr)
  | free (fo : Ptr) (err : AddFErr)
  | ret (res : Except AddFErr Unit)

/-- Where the thread of the queue is. -/
inductive CountPc where
  | idle
  /-- In `__check_and_call_funcs`, after `if (q->head != NULL)`, and then with the lock. -/
  | lock
  | detach
  | loop (head : Ptr)
  /-- In `__process_fo`: the function of `fo` is running, `__free_fo` is done. -/
  | call (fo head : Ptr)
  | dec (failable : Bool) (head : Ptr)
  /-- Before `q->lock` is taken to look at `wait_q_count`, and then with the lock. -/
  | wake (head : Ptr)
  | signal (head : Ptr)
deriving DecidableEq

/-- Who holds `q->lock`. -/
inductive LockHolder where
  | producer (i : Nat)
  | queue
deriving DecidableEq

structure CountSt where
  qMax : Nat
  /-- `AOSL_MPQ_FLAG_NONBLOCK`. -/
  nonblock : Bool
  lock : Option LockHolder
  head : Ptr
  tail : Ptr
  next : Ptr → Ptr
  count : Nat
  waitQCount : Nat
  /-- The objects on the heap. -/
  live : List Ptr
  pc : CountPc
  thr : List AddThr
  failable : Ptr → Bool

inductive CountAct where
  /-- A new producer, with the object that `aosl_malloc` returned. -/
  | enter (fo : Ptr) (noFail : Bool)
  /-- The `i`-th producer goes on; `terminated` is that of its own queue. -/
  | producer (i : Nat) (terminated : Bool)
  /-- The `i`-th producer wakes up, because of a signal or for no reason. -/
  | wake (i : Nat)
  /-- The thread of the queue goes on. -/
  | queue
deriving DecidableEq

namespace AddThr

/-- The object that is not linked yet. -/
def own : AddThr → Option Ptr
  | enter fo _ | test fo _ | link fo _ | wait fo _ | failed fo _ | free fo _ => some fo
  | ret _ => none

def holdsLock : AddThr → Bool
  | test _ _ | link _ _ | failed _ _ => true
  | _ => false

end AddThr

namespace CountPc

/-- The local `head` of `__check_and_call_funcs`. -/
def head : CountPc → Ptr
  | loop head | call _ head | dec _ head | wake head | signal head => head
  | _ => 0

def running : CountPc → List Ptr
  | call fo _ => [fo]
  | _ => []

def holdsLock : CountPc → Bool
  | detach | signal _ => true
  | _ => false

end CountPc

namespace CountSt

def goThr (s : CountSt) (i : Nat) (x : AddThr) : CountSt := { s with thr := s.thr.set i x }

def setLock (s : CountSt) (lock : Option LockHolder) : CountSt := { s with lock }

/-- The test at the top of the loop, up to a wait or the end of the loop. -/
def testBound (s : CountSt) (i : Nat) (fo : Ptr) (noFail terminated : Bool) : CountSt :=
  if noFail ∨ s.count < s.qMax then s.goThr i (.link fo noFail)
  else if s.nonblock then s.goThr i (.failed fo .eagain)
  else if terminated then s.goThr i (.failed fo .eintr)
  else { s with waitQCount := s.waitQCount + 1, lock := none }.goThr i (.wait fo false)

/-- The object goes behind the last one, and is counted. -/
def linkFo (s : CountSt) (fo : Ptr) (noFail : Bool) : CountSt :=
  { s with
    head := if s.tail ≠ 0 then s.head else fo
    tail := fo
    next := fun p => if s.tail ≠ 0 ∧ p = s.tail then fo else if p = fo then 0 else s.next p
    count := s.count + 1
    failable := fun p => if p = fo then !noFail else s.failable p }

/-- The next step of the `i`-th producer, which is at `x`. -/
def producerStep (s : CountSt) (i : Nat) (terminated : Bool) : AddThr → Option CountSt
  | .enter fo noFail =>
    if s.lock = none then some ((s.setLock (some (.producer i))).goThr i (.test fo noFail)) else none
  | .test fo noFail => some (s.testBound i fo noFail terminated)
  | .link fo noFail => some (((s.linkFo fo noFail).setLock none).goThr i (.ret (.ok ())))
  | .wait fo true =>
    if s.lock = none then
      some ({ s with waitQCount := s.waitQCount - 1, lock := some (.producer i) }.goThr i (.test fo false))
    else none
  | .failed fo err => some ((s.setLock none).goThr i (.free fo err))
  | .free fo err => some ({ s with live := s.live.erase fo }.goThr i (.ret (.error err)))
  | _ => none

/-- The next step of the thread of the queue. -/
def queueStep (s : CountSt) : Option CountSt :=
  match s.pc with
  | .idle => some { s with pc := if s.head ≠ 0 then .lock else .idle }
  | .lock => if s.lock = none then some { s with pc := .detach, lock := some .queue } else none
  | .detach => some { s with pc := .loop s.head, head := 0, tail := 0, lock := none }
  | .loop head => some { s with pc := if head = 0 then .idle else .call head (s.next head) }
  | .call fo head => some { s with pc := .dec (s.failable fo) head, live := s.live.erase fo }
  | .dec _ head => some { s with pc := .wake head, count := s.count - 1 }
  | .wake head => if s.lock = none then some { s with pc := .signal head, lock := some .queue } else none
  | .signal head => some { s with pc := .loop head, lock := none }

def step (s : CountSt) : CountAct → Option CountSt
  | .enter fo noFail =>
    if fo ≠ 0 ∧ fo ∉ s.live then some { s with live := s.live ++ [fo], thr := s.thr ++ [.enter fo noFail] } else none
  | .producer i terminated => do s.producerStep i terminated (← s.thr[i]?)
  | .wake i => match s.thr[i]? with
    | some (.wait fo _) => some (s.goThr i (.wait fo true))
    | _ => none
  | .queue => s.queueStep

def init (qMax : Nat) (nonblock : Bool) (next : Ptr → Ptr) : CountSt :=
  ⟨qMax, nonblock, none, 0, 0, next, 0, 0, [], .idle, [], fun _ => false⟩

/-- Of the objects linked and detached and of the one that `__process_fo` is at, those added by adds that may fail. -/
def failables (s : CountSt) (L D : List Ptr) : Nat :=
  (L ++ D ++ s.pc.running).countP s.failable + match s.pc with
    | .dec failable _ => failable.toNat
    | _ => 0

/-- The objects that are detached and not finished: those that wait, and the one `__process_fo` is at. -/
def detached (s : CountSt) (D : List Ptr) : Nat :=
  D.length + match s.pc with
    | .call _ _ | .dec _ _ => 1
    | _ => 0

/-- `q->count` and the bound, for the objects `L` linked in the queue and `D` detached from it. -/
structure Counted (s : CountSt) (L D : List Ptr) : Prop where
  linked : Fifo plink s.head s.tail s.next L
  chain : s.pc.head = plink D.head? ∧ Seg plink s.next D none
  count : s.count = L.length + s.detached D
  bound : s.failables L D ≤ s.qMax
  /-- Every object is in the queue, detached or not linked by its producer yet. -/
  owned : s.live.Perm (L ++ D ++ s.pc.running ++ s.thr.filterMap AddThr.own)

/-- What a step of the `i`-th producer may do to the queue. -/
structure AddSound (s s' : CountSt) (i : Nat) : Prop where
  links : ∀ fo noFail, s.thr[i]? = some (.link fo noFail) →
    (noFail = true ∨ s.count < s.qMax) ∧ s'.thr[i]? = some (.ret (.ok ()))
  leaves : (∀ fo noFail, s.thr[i]? ≠ some (.link fo noFail)) →
    s'.head = s.head ∧ s'.tail = s.tail ∧ s'.next = s.next ∧ s'.count = s.count
  frees : ∀ err, s'.thr[i]? = some (.ret (.error err)) →
    ∃ fo, s.thr[i]? = some (.free fo err) ∧ fo ∈ s.live ∧ s'.live = s.live.erase fo ∧ fo ∉ s'.live
  /-- An add that has returned takes no step. -/
  returned : ∀ res, s.thr[i]? ≠ some (.ret res)

variable {s s' : CountSt} {L D : List Ptr} {i : Nat} {x y : AddThr} {fo : Ptr}

theorem owns_set (hx : s.thr[i]? = some x) (hown : y.own = x.own) :
    (s.thr.set i y).filterMap AddThr.own = s.thr.filterMap AddThr.own := by
  obtain ⟨A, B, hthr, hset, -⟩ := exists_split hx
  rw [hset, hthr, List.filterMap_append, List.filterMap_append, List.filterMap_cons, List.filterMap_cons, hown]

theorem owns_perm (hx : s.thr[i]? = some x) (hown : x.own = some fo) (hy : y.own = none) :
    (s.thr.filterMap AddThr.own).Perm (fo :: (s.thr.set i y).filterMap AddThr.own) := by
  obtain ⟨A, B, hthr, hset, -⟩ := exists_split hx
  rw [hset, hthr, List.filterMap_append, List.filterMap_append, List.filterMap_cons, List.filterMap_cons, hown, hy]
  exact List.perm_middle

/-- A producer that does not link changes the lock, the number of waiters and the heap only, and it fails after it has
freed its object. -/
theorem producerStep_cases {t : Bool} (hs : s.producerStep i t x = some s') (hx : ∀ fo noFail, x ≠ .link fo noFail) :
    ∃ y lock w live, s' = { s with lock, waitQCount := w, live }.goThr i y ∧
      ∀ err, y = .ret (.error err) → ∃ fo, x = .free fo err ∧ live = s.live.erase fo := by
  cases x with
  | enter fo noFail =>
    simp only [CountSt.producerStep] at hs
    split at hs
    · exact ⟨_, _, _, _, (Option.some.inj hs).symm, nofun⟩
    · cases hs
  | test fo noFail =>
    obtain rfl := Option.some.inj hs
    unfold CountSt.testBound
    split
    · exact ⟨.link fo noFail, s.lock, s.waitQCount, s.live, rfl, nofun⟩
    · split
      · exact ⟨.failed fo .eagain, s.lock, s.waitQCount, s.live, rfl, nofun⟩
      · split
        · exact ⟨.failed fo .eintr, s.lock, s.waitQCount, s.live, rfl, nofun⟩
        · exact ⟨.wait fo false, none, s.waitQCount + 1, s.live, rfl, nofun⟩
  | link fo noFail => exact absurd rfl (hx fo noFail)
  | wait fo woken =>
    cases woken with
    | false => cases hs
    | true =>
      simp only [CountSt.producerStep] at hs
      split at hs
      · exact ⟨_, _, _, _, (Option.some.inj hs).symm, nofun⟩
      · cases hs
  | failed fo err => exact ⟨_, _, _, _, (Option.some.inj hs).symm, nofun⟩
  | free fo err =>
    refine ⟨_, _, _, _, (Option.some.inj hs).symm, fun err' he => ⟨fo, ?_, rfl⟩⟩
    cases he
    rfl
  | ret res => cases hs

/-- `q->lock` is held by the one who is between taking it and giving it back. -/
structure Locked (s : CountSt) : Prop where
  thr : ∀ (i : Nat) (x : AddThr), s.thr[i]? = some x → x.holdsLock = true → s.lock = some (.producer i)
  pc : s.pc.holdsLock = true → s.lock = some .queue

/-- The `i`-th producer goes on: the lock stays as it is, or it was free or its own. -/
theorem Locked.set (h : s.Locked) (hthr : s'.thr = s.thr.set i y) (hpc : s'.pc = s.pc)
    (hold : s'.lock = s.lock ∨ s.lock = none ∨ s.lock = some (.producer i))
    (hlock : y.holdsLock = true → s'.lock = some (.producer i)) : s'.Locked := by
  refine ⟨fun j z hz hh => ?_, fun hh => ?_⟩
  · rcases getElem?_set_cases (hthr ▸ hz) with ⟨rfl, rfl⟩ | ⟨hj, hz⟩
    · exact hlock hh
    · have hj' := h.thr j z hz hh
      rcases hold with hold | hold | hold
      · rw [hold, hj']
      · rw [hold] at hj'
        cases hj'
      · rw [hold, Option.some.injEq, LockHolder.producer.injEq] at hj'
        exact absurd hj'.symm hj
  · have hq := h.pc (hpc ▸ hh)
    rcases hold with hold | hold | hold
    · rw [hold, hq]
    · rw [hold] at hq
      cases hq
    · rw [hold] at hq
      cases hq

theorem Locked.queue (h : s.Locked) (hthr : s'.thr = s.thr)
    (hold : s'.lock = s.lock ∨ s.lock = none ∨ s.lock = some .queue)
    (hlock : s'.pc.holdsLock = true → s'.lock = some .queue) : s'.Locked := by
  refine ⟨fun j z hz hh => ?_, hlock⟩
  have hj := h.thr j z (hthr ▸ hz) hh
  rcases hold with hold | hold | hold
  · rw [hold, hj]
  · rw [hold] at hj
    cases hj
  · rw [hold] at hj
    cases hj

structure CountInv (s : CountSt) (L D : List Ptr) : Prop extends Counted s L D where
  nodup : s.live.Nodup
  live_ne : 0 ∉ s.live
  locked : s.Locked
  fits : ∀ (i : Nat) (fo : Ptr), s.thr[i]? = some (.link fo false) → s.count < s.qMax

namespace CountInv

theorem ne_zero (h : CountInv s L D) {p : Ptr}
    (hp : p ∈ L ++ D ++ s.pc.running ++ s.thr.filterMap AddThr.own) : p ≠ 0 :=
  fun h0 => h.live_ne (h0 ▸ h.owned.mem_iff.2 hp)

theorem detached_nil (h : CountInv s L D) (h0 : s.pc.head = 0) : D = [] := by
  have hhead := h.chain.1
  rw [h0] at hhead
  cases D with
  | nil => rfl
  | cons p D => exact absurd hhead.symm (h.ne_zero (p := p) (by simp))

theorem failables_le (h : CountInv s L D) : s.failables L D ≤ s.count := by
  have hle := List.countP_le_length (p := s.failable) (l := L ++ D ++ s.pc.running)
  rw [h.count]
  simp only [failables, detached, List.length_append] at hle ⊢
  cases hpc : s.pc with
  | dec b head =>
    have hdec := Bool.toNat_le b
    simp only [hpc, CountPc.running, List.length_nil] at hle ⊢
    omega
  | _ =>
    simp only [hpc, CountPc.running, List.length_nil] at hle ⊢
    omega

/-- A producer that keeps its object, or waits for the lock, takes it or gives it back. -/
theorem move (h : CountInv s L D) (hx : s.thr[i]? = some x) (hown : y.own = x.own) {lock : Option LockHolder} {w : Nat}
    (hold : lock = s.lock ∨ s.lock = none ∨ s.lock = some (.producer i))
    (hlock : y.holdsLock = true → lock = some (.producer i)) (hfits : ∀ fo, y = .link fo false → s.count < s.qMax) :
    CountInv ({ s with lock, waitQCount := w }.goThr i y) L D := by
  refine ⟨⟨h.linked, h.chain, h.count, h.bound, ?_⟩, h.nodup, h.live_ne, h.locked.set rfl rfl hold hlock,
    fun j fo hz => ?_⟩
  · show s.live.Perm (L ++ D ++ s.pc.running ++ (s.thr.set i y).filterMap AddThr.own)
    rw [owns_set hx hown]
    exact h.owned
  · show s.count < s.qMax
    rcases getElem?_set_cases hz with ⟨-, hy⟩ | ⟨-, hz⟩
    · exact hfits fo hy.symm
    · exact h.fits j fo hz

theorem testBound (h : CountInv s L D) {noFail terminated : Bool} (hx : s.thr[i]? = some (.test fo noFail)) :
    CountInv (s.testBound i fo noFail terminated) L D := by
  have hlock := h.locked.thr i _ hx rfl
  unfold CountSt.testBound
  split
  · next hfit =>
    refine h.move (y := .link fo noFail) hx rfl (.inl rfl) (fun _ => hlock) fun fo' he => ?_
    cases he
    exact hfit.resolve_left Bool.false_ne_true
  · split
    · exact h.move (y := .failed fo .eagain) hx rfl (.inl rfl) (fun _ => hlock) nofun
    · split
      · exact h.move (y := .failed fo .eintr) hx rfl (.inl rfl) (fun _ => hlock) nofun
      · exact h.move (y := .wait fo false) hx rfl (.inr (.inr hlock)) nofun nofun

/-- The object `fo` of the producer goes behind the last one of `L`. -/
theorem linkFo (h : CountInv s L D) {noFail : Bool} (hx : s.thr[i]? = some (.link fo noFail)) :
    CountInv (((s.linkFo fo noFail).setLock none).goThr i (.ret (.ok ()))) (L ++ [fo]) D := by
  have hperm := owns_perm (y := .ret (.ok ())) hx rfl rfl
  have howned := h.owned.trans (hperm.append_left _)
  have hnd := howned.nodup_iff.1 h.nodup
  have hlock := h.locked.thr i _ hx rfl
  have hfo : fo ∉ L ++ D ++ s.pc.running := fun hm =>
    (List.nodup_append.1 hnd).2.2 fo hm fo List.mem_cons_self rfl
  simp only [List.mem_append, not_or] at hfo
  obtain ⟨⟨hfoL, hfoD⟩, hfoR⟩ := hfo
  have hLnd : L.Nodup := (List.nodup_append.1 (List.nodup_append.1 (List.nodup_append.1 hnd).1).1).1
  have hLne : ∀ p ∈ L, p ≠ 0 := fun p hp =>
    h.ne_zero (List.mem_append_left _ (List.mem_append_left _ (List.mem_append_left _ hp)))
  refine ⟨⟨fifo_add h.linked hLne hLnd hfoL, ⟨h.chain.1, h.chain.2.congr fun q hq => ?_⟩, ?_, ?_, ?_⟩, h.nodup,
    h.live_ne, h.locked.set rfl rfl (.inr (.inr hlock)) Bool.noConfusion, fun j fo' hz => ?_⟩
  · refine next_fifo_add h.linked (fun hqL => ?_) (ne_of_mem_of_not_mem hq hfoD)
    exact (List.nodup_append.1 (List.nodup_append.1 (List.nodup_append.1 hnd).1).1).2.2 q hqL q hq rfl
  · show s.count + 1 = (L ++ [fo]).length + s.detached D
    rw [h.count, List.length_append, List.length_singleton]
    omega
  · have hcongr : ∀ l : List Ptr, fo ∉ l →
        l.countP (fun p => if p = fo then !noFail else s.failable p) = l.countP s.failable := fun l hl =>
      List.countP_congr fun q hq => by rw [if_neg (ne_of_mem_of_not_mem hq hl)]
    have hsplit : ((s.linkFo fo noFail).setLock none).failables (L ++ [fo]) D = s.failables L D + (!noFail).toNat := by
      simp only [failables, CountSt.setLock, CountSt.linkFo, List.countP_append, hcongr L hfoL, hcongr D hfoD,
        hcongr s.pc.running hfoR, List.countP_singleton, if_true]
      cases noFail with
      | true => simp
      | false => simp; omega
    show ((s.linkFo fo noFail).setLock none).failables (L ++ [fo]) D ≤ s.qMax
    rw [hsplit]
    cases noFail with
    | true => exact h.bound
    | false =>
      have hfit := h.fits i fo hx
      have hle := h.failables_le
      change s.failables L D + 1 ≤ s.qMax
      omega
  · refine howned.trans ?_
    simp only [goThr, setLock, CountSt.linkFo, List.append_assoc]
    refine List.Perm.append_left L ?_
    have hmid : (D ++ (s.pc.running ++ fo :: (s.thr.set i (.ret (.ok ()))).filterMap AddThr.own)).Perm
        (fo :: (D ++ (s.pc.running ++ (s.thr.set i (.ret (.ok ()))).filterMap AddThr.own))) :=
      (List.perm_middle.append_left D).trans List.perm_middle
    exact hmid
  · -- the lock keeps the other producers from this place
    rcases getElem?_set_cases hz with ⟨-, hy⟩ | ⟨hj, hz⟩
    · cases hy
    · have hj' := h.locked.thr j _ hz rfl
      rw [hlock, Option.some.injEq, LockHolder.producer.injEq] at hj'
      exact absurd hj'.symm hj

/-- A producer comes with an object that is not on the heap yet. -/
theorem enter (h : CountInv s L D) (hne : fo ≠ 0) (hfo : fo ∉ s.live) {noFail : Bool} :
    CountInv { s with live := s.live ++ [fo], thr := s.thr ++ [.enter fo noFail] } L D := by
  have hthr : ∀ {j : Nat} {z : AddThr}, (s.thr ++ [AddThr.enter fo noFail])[j]? = some z →
      s.thr[j]? = some z ∨ z = AddThr.enter fo noFail := by
    intro j z hz
    rcases getElem?_concat_cases hz with ⟨-, hz⟩ | ⟨-, hz⟩
    · exact .inl hz
    · exact .inr hz
  refine ⟨⟨h.linked, h.chain, h.count, h.bound, ?_⟩, ?_, ?_, ⟨fun j z hz hh => ?_, h.locked.pc⟩, fun j fo' hz => ?_⟩
  · show (s.live ++ [fo]).Perm (L ++ D ++ s.pc.running ++ (s.thr ++ [AddThr.enter fo noFail]).filterMap AddThr.own)
    rw [List.filterMap_append, ← List.append_assoc]
    exact h.owned.append_right [fo]
  · exact List.nodup_append.2 ⟨h.nodup, List.nodup_singleton fo, fun p hp q hq => ne_of_mem_of_not_mem hp
      (List.mem_singleton.1 hq ▸ hfo)⟩
  · intro h0
    rcases List.mem_append.1 h0 with h0 | h0
    · exact h.live_ne h0
    · exact hne (List.mem_singleton.1 h0).symm
  · rcases hthr hz with hz | rfl
    · exact h.locked.thr j z hz hh
    · cases hh
  · rcases hthr hz with hz | hz
    · exact h.fits j fo' hz
    · cases hz

theorem freeFo (h : CountInv s L D) {err : AddFErr} (hx : s.thr[i]? = some (.free fo err)) :
    CountInv ({ s with live := s.live.erase fo }.goThr i (.ret (.error err))) L D := by
  have hperm := owns_perm (y := .ret (.error err)) hx rfl rfl
  have howned : s.live.Perm
      (fo :: (L ++ D ++ s.pc.running ++ (s.thr.set i (.ret (.error err))).filterMap AddThr.own)) :=
    (h.owned.trans (hperm.append_left _)).trans List.perm_middle
  refine ⟨⟨h.linked, h.chain, h.count, h.bound, ?_⟩, h.nodup.erase fo, fun h0 => h.live_ne (List.mem_of_mem_erase h0),
    h.locked.set rfl rfl (.inl rfl) nofun, fun j fo' hz => ?_⟩
  · have herase := howned.erase fo
    rwa [List.erase_cons_head] at herase
  · rcases getElem?_set_cases hz with ⟨-, hy⟩ | ⟨-, hz⟩
    · cases hy
    · exact h.fits j fo' hz

/-- One step of a producer. -/
theorem producerStep (h : CountInv s L D) {t : Bool} (hx : s.thr[i]? = some x)
    (hs : s.producerStep i t x = some s') : ∃ L', CountInv s' L' D := by
  cases x with
  | enter fo noFail =>
    simp only [CountSt.producerStep] at hs
    split at hs
    · next hfree =>
      refine ⟨L, Option.some.inj hs ▸ ?_⟩
      exact h.move (y := .test fo noFail) hx rfl (.inr (.inl hfree)) (fun _ => rfl) nofun
    · cases hs
  | test fo noFail => exact ⟨L, Option.some.inj hs ▸ h.testBound hx⟩
  | link fo noFail => exact ⟨L ++ [fo], Option.some.inj hs ▸ h.linkFo hx⟩
  | wait fo woken =>
    cases woken with
    | false => cases hs
    | true =>
      simp only [CountSt.producerStep] at hs
      split at hs
      · next hfree =>
        refine ⟨L, Option.some.inj hs ▸ ?_⟩
        exact h.move (y := .test fo false) hx rfl (.inr (.inl hfree)) (fun _ => rfl) nofun
      · cases hs
  | failed fo err =>
    have hlock := h.locked.thr i _ hx rfl
    refine ⟨L, Option.some.inj hs ▸ ?_⟩
    exact h.move (y := .free fo err) hx rfl (.inr (.inr hlock)) nofun nofun
  | free fo err => exact ⟨L, Option.some.inj hs ▸ h.freeFo hx⟩
  | ret res => cases hs

/-- The thread of the queue goes on, with the objects, the queue and the count as they are. -/
theorem queue (h : CountInv s L D) {pc : CountPc} (lock : Option LockHolder) (hrun : pc.running = s.pc.running)
    (hhead : pc.head = s.pc.head) (hdet : { s with pc, lock }.detached D = s.detached D)
    (hfail : { s with pc, lock }.failables L D = s.failables L D)
    (hold : lock = s.lock ∨ s.lock = none ∨ s.lock = some .queue) (hlock : pc.holdsLock = true → lock = some .queue) :
    CountInv { s with pc, lock } L D := by
  refine ⟨⟨h.linked, ⟨hhead.trans h.chain.1, h.chain.2⟩, ?_, ?_, ?_⟩, h.nodup, h.live_ne, h.locked.queue rfl hold hlock,
    h.fits⟩
  · exact h.count.trans (congrArg (L.length + ·) hdet.symm)
  · exact hfail ▸ h.bound
  · show s.live.Perm (L ++ D ++ pc.running ++ s.thr.filterMap AddThr.own)
    rw [hrun]
    exact h.owned

theorem detach (h : CountInv s L D) (hpc : s.pc = .detach) :
    CountInv { s with pc := .loop s.head, head := 0, tail := 0, lock := none } [] L := by
  obtain rfl : D = [] := h.detached_nil (by rw [hpc]; rfl)
  have hcount := h.count
  have hbound := h.bound
  have howned := h.owned
  simp only [detached, failables, hpc, CountPc.running, List.append_nil, List.length_nil] at hcount hbound howned
  refine ⟨⟨Fifo.nil, ⟨h.linked.head_eq, h.linked.nexts⟩, ?_, ?_, ?_⟩, h.nodup, h.live_ne,
    h.locked.queue rfl (.inr (.inr (h.locked.pc (by rw [hpc]; rfl)))) nofun, h.fits⟩
  · simpa [detached] using hcount
  · simpa [failables, CountPc.running] using hbound
  · simpa [CountPc.running] using howned

/-- The next object of the list, or its end. -/
theorem loop (h : CountInv s L D) {head : Ptr} (hpc : s.pc = .loop head) :
    ∃ D', CountInv { s with pc := if head = 0 then .idle else .call head (s.next head) } L D' := by
  have hhead : head = plink D.head? := by
    have := h.chain.1
    rwa [hpc] at this
  have hrun : s.pc.running = [] := by rw [hpc]; rfl
  by_cases h0 : head = 0
  · rw [if_pos h0]
    have hD := h.detached_nil (by rw [hpc]; exact h0)
    refine ⟨D, h.queue s.lock hrun.symm ?_ ?_ ?_ (.inl rfl) nofun⟩
    · rw [hpc]; exact h0.symm
    · simp only [detached, hpc]
    · simp only [failables, hpc, CountPc.running]
  · rw [if_neg h0]
    obtain _ | ⟨p, D'⟩ := D
    · exact absurd hhead h0
    obtain rfl : head = p := hhead
    have hcount := h.count
    have hbound := h.bound
    have howned := h.owned
    simp only [detached, failables, hpc, CountPc.running, List.append_nil, List.length_cons] at hcount hbound howned
    have hmid : (L ++ head :: D').Perm (L ++ D' ++ [head]) := by
      rw [List.append_assoc]
      exact (List.perm_append_singleton head D').symm.append_left L
    refine ⟨D', ⟨h.linked, ⟨?_, ?_⟩, hcount, ?_, howned.trans (hmid.append_right _)⟩, h.nodup, h.live_ne,
      h.locked.queue rfl (.inl rfl) nofun, h.fits⟩
    · show s.next head = plink D'.head?
      have hseg := h.chain.2
      rw [Seg] at hseg
      rw [hseg.1]
      cases D' <;> rfl
    · exact h.chain.2.2
    · show (L ++ D' ++ [head]).countP s.failable + 0 ≤ s.qMax
      rwa [← hmid.countP_eq]

theorem call (h : CountInv s L D) {head : Ptr} (hpc : s.pc = .call fo head) :
    CountInv { s with pc := .dec (s.failable fo) head, live := s.live.erase fo } L D := by
  have hcount := h.count
  have hbound := h.bound
  have howned := h.owned
  have hchain := h.chain
  simp only [detached, failables, hpc, CountPc.running, CountPc.head] at hcount hbound howned hchain
  have hfront : (L ++ D ++ [fo] ++ s.thr.filterMap AddThr.own).Perm
      (fo :: (L ++ D ++ s.thr.filterMap AddThr.own)) := by
    rw [List.append_assoc]
    exact List.perm_middle
  refine ⟨⟨h.linked, hchain, hcount, ?_, ?_⟩, h.nodup.erase fo, fun h0 => h.live_ne (List.mem_of_mem_erase h0),
    h.locked.queue rfl (.inl rfl) nofun, h.fits⟩
  · show (L ++ D ++ []).countP s.failable + (s.failable fo).toNat ≤ s.qMax
    rw [List.countP_append, List.countP_singleton] at hbound
    rw [List.append_nil]
    cases hfo : s.failable fo <;> simpa [hfo] using hbound
  · have herase := (howned.trans hfront).erase fo
    rw [List.erase_cons_head] at herase
    show (s.live.erase fo).Perm (L ++ D ++ [] ++ s.thr.filterMap AddThr.own)
    rwa [List.append_nil]

theorem dec (h : CountInv s L D) {b : Bool} {head : Ptr} (hpc : s.pc = .dec b head) :
    CountInv { s with pc := .wake head, count := s.count - 1 } L D := by
  have hcount := h.count
  have hbound := h.bound
  have howned := h.owned
  have hchain := h.chain
  simp only [detached, failables, hpc, CountPc.running, CountPc.head] at hcount hbound howned hchain
  refine ⟨⟨h.linked, hchain, ?_, Nat.le_trans (Nat.le_add_right _ _) hbound, howned⟩, h.nodup, h.live_ne,
    h.locked.queue rfl (.inl rfl) nofun, fun j fo hz => ?_⟩
  · show s.count - 1 = L.length + (D.length + 0)
    omega
  · have hfit := h.fits j fo hz
    show s.count - 1 < s.qMax
    omega

/-- One step of the thread of the queue. -/
theorem queueStep (h : CountInv s L D) (hs : s.queueStep = some s') : ∃ L' D', CountInv s' L' D' := by
  rw [CountSt.queueStep] at hs
  split at hs
  · next hpc =>
    refine ⟨L, D, Option.some.inj hs ▸ ?_⟩
    split
    · refine h.queue s.lock ?_ ?_ ?_ ?_ (.inl rfl) nofun <;> simp only [hpc, CountPc.running, CountPc.head,
        detached, failables]
    · refine h.queue s.lock ?_ ?_ ?_ ?_ (.inl rfl) nofun <;> simp only [hpc, CountPc.running, CountPc.head,
        detached, failables]
  · next hpc =>
    split at hs
    · next hfree =>
      refine ⟨L, D, Option.some.inj hs ▸ ?_⟩
      refine h.queue (some .queue) ?_ ?_ ?_ ?_ (.inr (.inl hfree)) (fun _ => rfl) <;> simp only [hpc,
        CountPc.running, CountPc.head, detached, failables]
    · cases hs
  · next hpc => exact ⟨[], L, Option.some.inj hs ▸ h.detach hpc⟩
  · next head hpc =>
    obtain ⟨D', h'⟩ := h.loop hpc
    exact ⟨L, D', Option.some.inj hs ▸ h'⟩
  · next fo head hpc => exact ⟨L, D, Option.some.inj hs ▸ h.call hpc⟩
  · next b head hpc => exact ⟨L, D, Option.some.inj hs ▸ h.dec hpc⟩
  · next head hpc =>
    split at hs
    · next hfree =>
      refine ⟨L, D, Option.some.inj hs ▸ ?_⟩
      refine h.queue (some .queue) ?_ ?_ ?_ ?_ (.inr (.inl hfree)) (fun _ => rfl) <;> simp only [hpc,
        CountPc.running, CountPc.head, detached, failables]
    · cases hs
  · next head hpc =>
    refine ⟨L, D, Option.some.inj hs ▸ ?_⟩
    refine h.queue none ?_ ?_ ?_ ?_ (.inr (.inr (h.locked.pc (by rw [hpc]; rfl)))) nofun <;> simp only [hpc,
      CountPc.running, CountPc.head, detached, failables]

theorem step (h : CountInv s L D) {a : CountAct} (hs : s.step a = some s') : ∃ L' D', CountInv s' L' D' := by
  cases a with
  | enter fo noFail =>
    simp only [CountSt.step] at hs
    split at hs
    · next hfo => exact ⟨L, D, Option.some.inj hs ▸ h.enter hfo.1 hfo.2⟩
    · cases hs
  | producer i t =>
    obtain ⟨x, hx, hs⟩ := Option.bind_eq_some_iff.1 hs
    obtain ⟨L', h'⟩ := h.producerStep hx hs
    exact ⟨L', D, h'⟩
  | wake i =>
    simp only [CountSt.step] at hs
    split at hs
    · next fo woken hx =>
      refine ⟨L, D, Option.some.inj hs ▸ ?_⟩
      exact h.move (y := .wait fo true) hx rfl (.inl rfl) nofun nofun
    · cases hs
  | queue => exact h.queueStep hs

/-- The producer that is at `x` adds its object, or leaves the queue as it is. -/
theorem addSound (h : CountInv s L D) {t : Bool} (hx : s.thr[i]? = some x) (hs : s.producerStep i t x = some s') :
    s.AddSound s' i := by
  have hlen : i < s.thr.length := (List.getElem?_eq_some_iff.1 hx).1
  have hset : ∀ y : AddThr, (s.thr.set i y)[i]? = some y := fun y => List.getElem?_set_self hlen
  refine ⟨fun fo noFail hl => ?_, fun hnl => ?_, fun err he => ?_, fun res hr => ?_⟩
  · obtain rfl := Option.some.inj (hx.symm.trans hl)
    obtain rfl := Option.some.inj hs
    refine ⟨?_, hset _⟩
    cases noFail with
    | true => exact .inl rfl
    | false => exact .inr (h.fits i fo hl)
  · obtain ⟨y, lock, w, live, rfl, -⟩ := producerStep_cases hs fun fo noFail hl => hnl fo noFail (hl ▸ hx)
    exact ⟨rfl, rfl, rfl, rfl⟩
  · have hnl : ∀ fo noFail, x ≠ .link fo noFail := by
      rintro fo noFail rfl
      obtain rfl := Option.some.inj hs
      cases (hset _).symm.trans he
    obtain ⟨y, lock, w, live, rfl, hfree⟩ := producerStep_cases hs hnl
    obtain ⟨fo, rfl, rfl⟩ := hfree err (Option.some.inj ((hset y).symm.trans he))
    have hmem : fo ∈ s.thr.filterMap AddThr.own := List.mem_filterMap.2 ⟨_, List.mem_of_getElem? hx, rfl⟩
    exact ⟨fo, hx, h.owned.mem_iff.2 (List.mem_append_right _ hmem), rfl, h.nodup.not_mem_erase⟩
  · obtain rfl := Option.some.inj (hx.symm.trans hr)
    cases hs

end CountInv

theorem init_inv {qMax : Nat} {nonblock : Bool} {next : Ptr → Ptr} : CountInv (init qMax nonblock next) [] [] :=
  ⟨⟨Fifo.nil, ⟨rfl, trivial⟩, rfl, Nat.zero_le _, .nil⟩, List.nodup_nil, List.not_mem_nil, ⟨nofun, nofun⟩, nofun⟩

/-- In every run the count is that of the objects linked and of those detached and not finished, an add that may fail
links its object with `count < q_max`, the objects of these adds are `q_max` at most, and an add that fails leaves
the queue as it is and frees its own object. -/
theorem queue_counted {qMax : Nat} {nonblock : Bool} {next : Ptr → Ptr} {as : List CountAct}
    (hrun : exec step (init qMax nonblock next) as = some s) :
    (∃ L D, s.Counted L D) ∧ ∀ i t s', s.step (.producer i t) = some s' → s.AddSound s' i := by
  obtain ⟨L, D, h⟩ : ∃ L D, CountInv s L D :=
    exec_invariant_all (I := fun s => ∃ L D, CountInv s L D) (fun s a s' ⟨_, _, h⟩ hs => h.step hs)
      ⟨[], [], init_inv⟩ hrun
  refine ⟨⟨L, D, h.toCounted⟩, fun i t s' hs => ?_⟩
  obtain ⟨x, hx, hs⟩ := Option.bind_eq_some_iff.1 hs
  exact h.addSound hx hs

/-- Two producers of a queue for one object, which may not block: the add of the second one fails. -/
def refusedRun : List CountAct :=
  [.enter 1 false, .enter 2 false, .producer 0 false, .producer 0 false, .producer 0 false, .producer 1 false,
    .producer 1 false, .producer 1 false, .producer 1 false, .queue, .queue, .queue, .queue, .queue]

theorem queue_counted_refused : ∃ s, exec step (init 1 true fun _ => 0) refusedRun = some s ∧
    s.thr[1]? = some (.ret (.error .eagain)) ∧ s.pc = .dec true 0 ∧ s.count = 1 ∧ ∃ L D, s.Counted L D :=
  ⟨_, rfl, rfl, rfl, rfl, (queue_counted (rfl : exec step (init 1 true fun _ => 0) refusedRun = some _)).1⟩

end CountSt

end Aosl
