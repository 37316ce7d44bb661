import Aosl.Lib.Lists
import Aosl.Lib.Steps

/-!
# The way out of a full queue, `__mpq_destroy`

One queue `p` with its thread, and any number of threads that add to it with `____add_f`, each of them the thread of a queue
of its own or of none. The thread of `p` takes the functions off its list, runs them, and signals `p->wait_q` after each; from
a function, or between two, it may destroy another queue and wait until that is done. `__mpq_destroy` sets `terminated` of the
other queue without any lock, and then wakes those who wait on `p->wait_q`: if there is one, with a signal, and if there are
more, with a broadcast. When the thread of the other queue sees `terminated`, it sets `exiting` and goes on to execute what
is in its list; from then on `____add_f` refuses what it adds with itself as the done queue.

One step is one access to what the threads share. `released` is not in the code: the queues for which a `__mpq_destroy` on the
thread of `p` has returned. The functions themselves do nothing here, and `p->count` also counts what the pools reserve.
-/

namespace Aosl
open Lib

/-- The errors of `____add_f`. -/
inductive AddErr where
  | eagain
  | eintr
  | eperm
deriving DecidableEq

/-- Where a thread is in `____add_f`. -/
inductive AddPhase where
  | out
  /-- Before the test of `this_q->exiting`. -/
  | enter
  /-- Before `k_lock_lock (&q->lock)`. -/
  | want
  -- with the lock, before each of the tests of the loop
  | count
  | flags
  | term
  /-- Before `q->wait_q_count++` and `k_cond_wait`. -/
  | sleep
  | blocked
  /-- Woken, before `k_cond_wait` has the lock again. -/
  | woken
  /-- Before `q->wait_q_count--`. -/
  | back
  /-- Before `k_lock_unlock`, with the function in the list. -/
  | added
  /-- Before `k_lock_unlock`, with an error to return. -/
  | fail (err : AddErr)
  /-- Waiting for `sync_obj.result`. -/
  | syncWait
  | executed
  /-- Returned: 0 or an error. -/
  | done (err : Option AddErr)
deriving DecidableEq

structure Adder where
  /-- `THIS_MPQ ()`. -/
  own : Option Nat
  noFail : Bool
  sync : Bool
  /-- `done_qid == this_q->qid`. -/
  doneSelf : Bool
  ph : AddPhase
deriving DecidableEq

/-- Where the thread of `p` is in `__mpq_destroy` and after it, in `__mpq_destroy_wait`. -/
inductive DestroyPhase where
  | mark
  | kick
  | lock
  | wake
  | unlock
  | wait
deriving DecidableEq

/-- Where the thread of `p` is in `__check_and_call_funcs`; a function comes with the thread that waits for it, if one does. -/
inductive OwnerPhase where
  | loop
  | running (fo : Option Nat)
  | ran (fo : Option Nat)
  | signal
deriving DecidableEq

structure ReleaseSt where
  qMax : Nat
  /-- `AOSL_MPQ_FLAG_NONBLOCK`. -/
  nonblock : Bool
  count : Nat
  waitQCount : Nat
  /-- The holder of `p->lock`: a thread that adds, or that of `p`. -/
  lock : Option (Option Nat)
  linked : List (Option Nat)
  batch : List (Option Nat)
  adders : List Adder
  owner : OwnerPhase
  destroying : Option (Nat × DestroyPhase)
  terminated : List Nat
  exiting : List Nat
  released : List Nat
deriving DecidableEq

inductive ReleaseAct where
  | call (i : Nat) (noFail sync doneSelf : Bool)
  /-- The `i`-th thread goes on. -/
  | go (i : Nat)
  /-- The `i`-th thread wakes up without a signal. -/
  | spurious (i : Nat)
  /-- The thread of `p` goes on in `__check_and_call_funcs`; a signal goes to the `j`-th thread. -/
  | work (j : Nat)
  /-- The thread of `p` calls `__mpq_destroy`. -/
  | destroy (q : Nat)
  /-- It goes on there; a signal goes to the `j`-th thread. -/
  | destroyGo (j : Nat)
  /-- A `__mpq_destroy` on another thread. -/
  | terminate (q : Nat)
  /-- The thread of `q` leaves its loop. -/
  | exit (q : Nat)
  | setNonblock (nonblock : Bool)
  /-- `__mpqp_best_q_get` and `__mpqp_best_q_put`. -/
  | reserve
  | unreserve
deriving DecidableEq

namespace AddPhase

/-- The thread has `p->lock`. -/
def locked : AddPhase → Bool
  | count | flags | term | sleep | back | added | fail _ => true
  | _ => false

/-- The thread is counted in `p->wait_q_count`. -/
def counted : AddPhase → Bool
  | blocked | woken | back => true
  | _ => false

/-- The thread is not in `____add_f`. -/
def outside : AddPhase → Bool
  | out | done _ => true
  | _ => false

/-- How many steps are left until the return or, with the function in the list, the wait for it. -/
def left : AddPhase → Nat
  | woken | enter => 6
  | want | back => 5
  | count => 4
  | flags => 3
  | term => 2
  | added | fail _ | executed => 1
  | _ => 0

/-- `k_cond_broadcast`, for this thread. -/
def wake : AddPhase → AddPhase
  | blocked => woken
  | ph => ph

end AddPhase

namespace ReleaseSt

def init (qMax : Nat) (nonblock : Bool) (owns : List (Option Nat)) : ReleaseSt :=
  ⟨qMax, nonblock, 0, 0, none, [], [], owns.map fun own => ⟨own, false, false, false, .out⟩, .loop, none, [], [], []⟩

def setPhase (s : ReleaseSt) (i : Nat) (x : Adder) (ph : AddPhase) : ReleaseSt :=
  { s with adders := s.adders.set i { x with ph := ph } }

/-- The thread is exiting, and adds with its own queue as the done queue. -/
def refuses (s : ReleaseSt) (x : Adder) : Bool := x.doneSelf && x.own.any fun q => q ∈ s.exiting

/-- The next step of `____add_f`. -/
def addF (s : ReleaseSt) (i : Nat) (x : Adder) : Option ReleaseSt :=
  match x.ph with
  | .enter => some (s.setPhase i x (if s.refuses x then .done (some .eperm) else .want))
  | .want => if s.lock = none then some { s.setPhase i x .count with lock := some (some i) } else none
  | .count =>
    if x.noFail ∨ s.count < s.qMax then
      some { s.setPhase i x .added with
        count := s.count + 1
        linked := s.linked ++ [if x.sync then some i else none] }
    else some (s.setPhase i x .flags)
  | .flags => some (s.setPhase i x (if s.nonblock then .fail .eagain else .term))
  | .term => some (s.setPhase i x (if x.own.any fun q => q ∈ s.terminated then .fail .eintr else .sleep))
  | .sleep => some { s.setPhase i x .blocked with waitQCount := s.waitQCount + 1, lock := none }
  | .woken => if s.lock = none then some { s.setPhase i x .back with lock := some (some i) } else none
  | .back => some { s.setPhase i x .count with waitQCount := s.waitQCount - 1 }
  | .added => some { s.setPhase i x (if x.sync then .syncWait else .done none) with lock := none }
  | .fail err => some { s.setPhase i x (.done (some err)) with lock := none }
  | .executed => some (s.setPhase i x (.done none))
  | .out | .blocked | .syncWait | .done _ => none

/-- `k_cond_signal`: the `j`-th thread is woken, if it waits; it must, if any does. -/
def signal (s : ReleaseSt) (j : Nat) : Option ReleaseSt :=
  match s.adders[j]? with
  | some x =>
    if x.ph = .blocked then some (s.setPhase j x .woken)
    else if s.adders.all fun x => x.ph ≠ .blocked then some s else none
  | none => if s.adders.all fun x => x.ph ≠ .blocked then some s else none

def broadcast (s : ReleaseSt) : ReleaseSt := { s with adders := s.adders.map fun x => { x with ph := x.ph.wake } }

/-- `sync_obj->result = FO_EXECUTED`, if a thread waits for the function. -/
def execute (s : ReleaseSt) : Option Nat → ReleaseSt
  | none => s
  | some i => match s.adders[i]? with
    | some x => if x.ph = .syncWait then s.setPhase i x .executed else s
    | none => s

/-- The next step of the thread of `p`. -/
def work (s : ReleaseSt) (j : Nat) : Option ReleaseSt :=
  match s.owner with
  | .loop => match s.batch with
    | [] => if s.linked = [] ∨ s.lock ≠ none then none else some { s with batch := s.linked, linked := [] }
    | fo :: batch => some { s with batch := batch, owner := .running fo }
  | .running fo => some { s with owner := .ran fo, count := s.count - 1 }
  | .ran fo => some { s.execute fo with owner := .signal }
  | .signal =>
    if s.lock = none then
      if s.waitQCount > 0 then (s.signal j).map fun s => { s with owner := .loop } else some { s with owner := .loop }
    else none

/-- The next step of `__mpq_destroy (q)` on the thread of `p`, and of the wait for the end of `q` after it. -/
def destroyGo (s : ReleaseSt) (j : Nat) (q : Nat) : DestroyPhase → Option ReleaseSt
  | .mark => some { s with terminated := q :: s.terminated, destroying := some (q, .kick) }
  | .kick => some { s with destroying := some (q, .lock) }
  | .lock => if s.lock = none then some { s with lock := some none, destroying := some (q, .wake) } else none
  | .wake =>
    if s.waitQCount > 0 then
      if s.waitQCount > 1 then some { s.broadcast with destroying := some (q, .unlock) }
      else (s.signal j).map fun s => { s with destroying := some (q, .unlock) }
    else some { s with destroying := some (q, .unlock) }
  | .unlock => some { s with lock := none, released := q :: s.released, destroying := some (q, .wait) }
  | .wait =>
    -- the thread of `q` comes to its end only outside `____add_f`
    if s.adders.all fun x => x.own ≠ some q || x.ph.outside then some { s with destroying := none } else none

def step (s : ReleaseSt) : ReleaseAct → Option ReleaseSt
  | .call i noFail sync doneSelf => match s.adders[i]? with
    | some x =>
      if x.ph.outside then some { s with adders := s.adders.set i ⟨x.own, noFail, sync, doneSelf, .enter⟩ } else none
    | none => none
  | .go i => match s.adders[i]? with
    | some x => s.addF i x
    | none => none
  | .spurious i => match s.adders[i]? with
    | some x => if x.ph = .blocked then some (s.setPhase i x .woken) else none
    | none => none
  | .work j => if s.destroying = none then s.work j else none
  | .destroy q => if s.destroying = none then some { s with destroying := some (q, .mark) } else none
  | .destroyGo j => match s.destroying with
    | some (q, ph) => s.destroyGo j q ph
    | none => none
  | .terminate q => some { s with terminated := q :: s.terminated }
  | .exit q =>
    if q ∈ s.terminated ∧ (s.adders.all fun x => x.own ≠ some q || x.ph.outside) then
      some { s with exiting := q :: s.exiting }
    else none
  | .setNonblock nonblock => some { s with nonblock := nonblock }
  | .reserve => some { s with count := s.count + 1 }
  | .unreserve => some { s with count := s.count - 1 }

/-- What holds of the `i`-th thread, which is `x`, once its queue has been destroyed on the thread of `p`: it does not wait in
`____add_f` and will not, whatever the others do it comes nearer to the end with each step, and the step can be made as soon
as it can have the lock. The end is `AOSL_EINTR`, unless `p` does not block, or the function is in the list; then a thread
returns 0 at once, or waits for the function if the call is synchronous. Or it is `AOSL_EPERM` before anything is done, if the
thread is exiting and its own queue is the done queue. -/
structure Freed (s : ReleaseSt) (i : Nat) (x : Adder) : Prop where
  awake : x.ph ≠ .sleep ∧ x.ph ≠ .blocked
  goes : 0 < x.ph.left → (x.ph = .want ∨ x.ph = .woken → s.lock = none) → (s.step (.go i)).isSome = true
  nearer : ∀ s' x', s.step (.go i) = some s' → s'.adders[i]? = some x' → x'.ph.left < x.ph.left
  others : ∀ a s', a ≠ .go i → 0 < x.ph.left → s.step a = some s' → s'.adders[i]? = some x
  fails : ∀ s' x' err, s.step (.go i) = some s' → s'.adders[i]? = some x' → x'.ph = .fail err →
    err = .eintr ∨ (err = .eagain ∧ s.nonblock = true)
  added : ∀ s' x', x.ph = .added → s.step (.go i) = some s' → s'.adders[i]? = some x' →
    x'.ph = if x.sync then .syncWait else .done none
  failed : ∀ s' x' err, x.ph = .fail err → s.step (.go i) = some s' → s'.adders[i]? = some x' → x'.ph = .done (some err)
  entered : ∀ s' x', x.ph = .enter → s.step (.go i) = some s' → s'.adders[i]? = some x' →
    x'.ph = if s.refuses x then .done (some .eperm) else .want

/-! ### What the lock and the counter say -/

structure RelInv (s : ReleaseSt) : Prop where
  held : ∀ (i : Nat) (x : Adder), s.adders[i]? = some x → x.ph.locked = true → s.lock = some (some i)
  owner : ∀ q ph, s.destroying = some (q, ph) → ph = .wake ∨ ph = .unlock → s.lock = some none
  marked : ∀ q ph, s.destroying = some (q, ph) → ph ≠ .mark → q ∈ s.terminated
  waitQ : s.waitQCount = s.adders.countP fun x => x.ph.counted
  quiet : ∀ q, q ∈ s.released ∨ s.destroying = some (q, .unlock) → q ∈ s.terminated ∧
    ∀ x ∈ s.adders, x.own = some q → x.ph ≠ .sleep ∧ x.ph ≠ .blocked

variable {s s' : ReleaseSt} {i j q : Nat} {x y : Adder}

/-- What the invariant reads is unchanged, but for more queues that are terminated. -/
theorem RelInv.of_eq (h : s.RelInv) (hadders : s'.adders = s.adders) (hlock : s'.lock = s.lock)
    (hdestroying : s'.destroying = s.destroying) (hterminated : ∀ q ∈ s.terminated, q ∈ s'.terminated)
    (hreleased : s'.released = s.released) (hwait : s'.waitQCount = s.waitQCount) : s'.RelInv := by
  refine ⟨?_, ?_, ?_, ?_, ?_⟩
  · rw [hadders, hlock]
    exact h.held
  · rw [hdestroying, hlock]
    exact h.owner
  · rw [hdestroying]
    exact fun q ph hq hne => hterminated q (h.marked q ph hq hne)
  · rw [hwait, hadders]
    exact h.waitQ
  · rw [hreleased, hdestroying, hadders]
    exact fun q hq => ⟨hterminated q (h.quiet q hq).1, (h.quiet q hq).2⟩

/-- The `i`-th thread goes from `x` to `y`. -/
theorem RelInv.move (h : s.RelInv) (hx : s.adders[i]? = some x) (hadders : s'.adders = s.adders.set i y)
    (hown : y.own = x.own) (hdestroying : s'.destroying = s.destroying) (hterminated : s'.terminated = s.terminated)
    (hreleased : s'.released = s.released) (hheld : y.ph.locked = true → s'.lock = some (some i))
    (hlock : s'.lock = s.lock ∨ s.lock = none ∨ s.lock = some (some i))
    (hwait : s'.waitQCount + x.ph.counted.toNat = s.waitQCount + y.ph.counted.toNat)
    (hsleep : y.ph = .sleep ∨ y.ph = .blocked → x.ph = .sleep ∨ x.ph = .blocked ∨ ∀ q, x.own = some q → q ∉ s.terminated) :
    s'.RelInv := by
  have hkeep : ∀ o, o ≠ some i → s.lock = some o → s'.lock = some o := by
    intro o ho hs
    rcases hlock with hlock | hlock | hlock
    · rw [hlock]
      exact hs
    · rw [hlock] at hs
      cases hs
    · rw [hlock] at hs
      exact absurd (Option.some.inj hs).symm ho
  refine ⟨fun k z hk hz => ?_, fun q ph hq hph => ?_, ?_, ?_, fun q hq => ?_⟩
  · by_cases hki : k = i
    · subst hki
      rw [hadders, getElem?_set_self hx] at hk
      obtain rfl := Option.some.inj hk
      exact hheld hz
    · rw [hadders, getElem?_set_ne (Ne.symm hki)] at hk
      exact hkeep (some k) (fun hc => hki (Option.some.inj hc)) (h.held k z hk hz)
  · rw [hdestroying] at hq
    exact hkeep none (Option.some_ne_none i).symm (h.owner q ph hq hph)
  · rw [hdestroying, hterminated]
    exact h.marked
  · have hcount := countP_set_add hx (fun x => x.ph.counted) y
    have hold := h.waitQ
    rw [hadders]
    rcases hxc : x.ph.counted <;> rcases hyc : y.ph.counted <;> simp [hxc, hyc] at hcount hwait <;> omega
  · rw [hreleased, hdestroying] at hq
    rw [hterminated, hadders]
    obtain ⟨hterm, hquiet⟩ := h.quiet q hq
    refine ⟨hterm, fun z hz hzq => ?_⟩
    rcases List.mem_or_eq_of_mem_set hz with hz | rfl
    · exact hquiet z hz hzq
    · have hxq := hquiet x (List.mem_of_getElem? hx) (hown ▸ hzq)
      have hnot : ¬(z.ph = .sleep ∨ z.ph = .blocked) := fun hc => by
        rcases hsleep hc with hc | hc | hc
        · exact hxq.1 hc
        · exact hxq.2 hc
        · exact hc q (hown ▸ hzq) hterm
      exact ⟨fun hc => hnot (.inl hc), fun hc => hnot (.inr hc)⟩

/-- A signal wakes a thread that waits; or there is none. -/
theorem signal_cases (hs : s.signal j = some s') :
    (∃ x, s.adders[j]? = some x ∧ x.ph = .blocked ∧ s' = s.setPhase j x .woken) ∨
      (s' = s ∧ ∀ x ∈ s.adders, x.ph ≠ .blocked) := by
  have hnone : (if s.adders.all fun x => x.ph ≠ .blocked then some s else none) = some s' →
      s' = s ∧ ∀ x ∈ s.adders, x.ph ≠ .blocked := by
    intro hs
    rw [Option.ite_none_right_eq_some] at hs
    obtain ⟨hall, ⟨⟩⟩ := hs
    exact ⟨rfl, by simpa using hall⟩
  unfold signal at hs
  rcases hx : s.adders[j]? with _ | x
  · rw [hx] at hs
    exact .inr (hnone hs)
  · rw [hx] at hs
    by_cases hb : x.ph = .blocked
    · simp only [if_pos hb, Option.some.injEq] at hs
      exact .inl ⟨x, rfl, hb, hs.symm⟩
    · simp only [if_neg hb] at hs
      exact .inr (hnone hs)

theorem RelInv.woken (h : s.RelInv) (hx : s.adders[i]? = some x) (hb : x.ph = .blocked) : (s.setPhase i x .woken).RelInv :=
  h.move hx rfl rfl rfl rfl rfl (fun hc => by cases hc) (.inl rfl) (by rw [hb]; rfl) (fun hc => by simp at hc)

theorem RelInv.signal (h : s.RelInv) (hs : s.signal j = some s') : s'.RelInv := by
  rcases signal_cases hs with ⟨x, hx, hb, rfl⟩ | ⟨rfl, -⟩
  · exact h.woken hx hb
  · exact h

theorem addF_adders (hs : s.addF i x = some s') :
    s'.destroying = s.destroying ∧ ∃ ph, s'.adders = s.adders.set i { x with ph := ph } := by
  obtain ⟨own, noFail, sync, doneSelf, ph⟩ := x
  rcases ph <;> simp only [ReleaseSt.addF, Option.ite_none_right_eq_some, Option.some.injEq, reduceCtorEq] at hs
  case want | woken =>
    obtain ⟨-, rfl⟩ := hs
    exact ⟨rfl, _, rfl⟩
  case count =>
    split_ifs at hs <;> cases hs <;> exact ⟨rfl, _, rfl⟩
  all_goals
    subst hs
    exact ⟨rfl, _, rfl⟩

theorem RelInv.addF (h : s.RelInv) (hx : s.adders[i]? = some x) (hs : s.addF i x = some s') : s'.RelInv := by
  obtain ⟨own, noFail, sync, doneSelf, ph⟩ := x
  have hheld : ph.locked = true → s.lock = some (some i) := h.held i _ hx
  have hwait := h.waitQ
  rcases ph <;> simp only [ReleaseSt.addF, Option.ite_none_right_eq_some, Option.some.injEq, reduceCtorEq] at hs
  case want | woken =>
    obtain ⟨hlock, rfl⟩ := hs
    exact h.move hx rfl rfl rfl rfl rfl (fun _ => rfl) (.inr (.inl hlock)) rfl (fun hc => by simp at hc)
  case enter =>
    subst hs
    refine h.move hx rfl rfl rfl rfl rfl (fun hc => ?_) (.inl rfl) ?_ (fun hc => ?_)
    · split_ifs at hc <;> cases hc
    · split_ifs <;> rfl
    · split_ifs at hc <;> simp at hc
  case count =>
    split_ifs at hs <;> cases hs <;>
      exact h.move hx rfl rfl rfl rfl rfl (fun _ => hheld rfl) (.inl rfl) rfl (fun hc => by simp at hc)
  case flags =>
    subst hs
    refine h.move hx rfl rfl rfl rfl rfl (fun _ => hheld rfl) (.inl rfl) ?_ (fun hc => ?_)
    · cases s.nonblock <;> rfl
    · revert hc
      cases s.nonblock <;> simp
  case term =>
    subst hs
    by_cases hterm : own.any fun q => q ∈ s.terminated
    · rw [if_pos hterm]
      exact h.move hx rfl rfl rfl rfl rfl (fun _ => hheld rfl) (.inl rfl) rfl (fun hc => by simp at hc)
    · rw [if_neg hterm]
      refine h.move hx rfl rfl rfl rfl rfl (fun _ => hheld rfl) (.inl rfl) rfl (fun _ => .inr (.inr fun q hq => ?_))
      obtain rfl : own = some q := hq
      simpa using hterm
  case sleep =>
    subst hs
    exact h.move hx rfl rfl rfl rfl rfl (fun hc => by cases hc) (.inr (.inr (hheld rfl))) rfl (fun _ => .inl rfl)
  case back =>
    subst hs
    have hpos : 0 < s.adders.countP fun x => x.ph.counted :=
      List.countP_pos_iff.2 ⟨_, List.mem_of_getElem? hx, rfl⟩
    refine h.move hx rfl rfl rfl rfl rfl (fun _ => hheld rfl) (.inl rfl) ?_ (fun hc => by simp at hc)
    show s.waitQCount - 1 + 1 = s.waitQCount + 0
    omega
  case added =>
    subst hs
    refine h.move hx rfl rfl rfl rfl rfl (fun hc => ?_) (.inr (.inr (hheld rfl))) ?_ (fun hc => ?_)
    · revert hc
      cases sync <;> simp [AddPhase.locked]
    · cases sync <;> rfl
    · revert hc
      cases sync <;> simp
  case fail err =>
    subst hs
    exact h.move hx rfl rfl rfl rfl rfl (fun hc => by cases hc) (.inr (.inr (hheld rfl))) rfl (fun hc => by simp at hc)
  case executed =>
    subst hs
    exact h.move hx rfl rfl rfl rfl rfl (fun hc => by cases hc) (.inl rfl) rfl (fun hc => by simp at hc)

theorem execute_cases (s : ReleaseSt) (fo : Option Nat) : s.execute fo = s ∨
    ∃ i x, s.adders[i]? = some x ∧ x.ph = .syncWait ∧ s.execute fo = s.setPhase i x .executed := by
  rcases fo with _ | i
  · exact .inl rfl
  · rcases hx : s.adders[i]? with _ | x
    · exact .inl (by simp only [ReleaseSt.execute, hx])
    · by_cases hw : x.ph = .syncWait
      · exact .inr ⟨i, x, hx, hw, by simp only [ReleaseSt.execute, hx, if_pos hw]⟩
      · exact .inl (by simp only [ReleaseSt.execute, hx, if_neg hw])

theorem RelInv.execute (h : s.RelInv) (fo : Option Nat) : (s.execute fo).RelInv := by
  rcases execute_cases s fo with heq | ⟨i, x, hx, hw, heq⟩ <;> rw [heq]
  · exact h
  · exact h.move hx rfl rfl rfl rfl rfl (fun hc => by cases hc) (.inl rfl) (by rw [hw]; rfl) (fun hc => by simp at hc)

/-- What the thread of the queue does to the threads in `____add_f`: nothing, it runs the function of one, or wakes one. -/
theorem work_cases (hs : s.work j = some s') : ∃ s₁, (s₁ = s ∨ (∃ fo, s₁ = s.execute fo) ∨ s.signal j = some s₁) ∧
    s'.adders = s₁.adders ∧ s'.lock = s₁.lock ∧ s'.destroying = s₁.destroying ∧ s'.terminated = s₁.terminated ∧
    s'.released = s₁.released ∧ s'.waitQCount = s₁.waitQCount := by
  unfold ReleaseSt.work at hs
  rcases howner : s.owner with _ | fo | fo | _ <;> simp only [howner] at hs
  · rcases hbatch : s.batch with _ | ⟨fo, batch⟩ <;> simp only [hbatch] at hs
    · rw [Option.ite_none_left_eq_some] at hs
      obtain ⟨-, ⟨⟩⟩ := hs
      exact ⟨s, .inl rfl, rfl, rfl, rfl, rfl, rfl, rfl⟩
    · cases hs
      exact ⟨s, .inl rfl, rfl, rfl, rfl, rfl, rfl, rfl⟩
  · cases hs
    exact ⟨s, .inl rfl, rfl, rfl, rfl, rfl, rfl, rfl⟩
  · cases hs
    exact ⟨s.execute fo, .inr (.inl ⟨fo, rfl⟩), rfl, rfl, rfl, rfl, rfl, rfl⟩
  · rw [Option.ite_none_right_eq_some] at hs
    obtain ⟨-, hs⟩ := hs
    split_ifs at hs
    · obtain ⟨s₁, hs₁, rfl⟩ := Option.map_eq_some_iff.1 hs
      exact ⟨s₁, .inr (.inr hs₁), rfl, rfl, rfl, rfl, rfl, rfl⟩
    · cases hs
      exact ⟨s, .inl rfl, rfl, rfl, rfl, rfl, rfl, rfl⟩

theorem RelInv.work (h : s.RelInv) (hs : s.work j = some s') : s'.RelInv := by
  obtain ⟨s₁, hcases, hadders, hlock, hdestroying, hterminated, hreleased, hwait⟩ := work_cases hs
  have h₁ : s₁.RelInv := by
    rcases hcases with rfl | ⟨fo, rfl⟩ | hs₁
    · exact h
    · exact h.execute fo
    · exact h.signal hs₁
  exact h₁.of_eq hadders hlock hdestroying (fun q hq => hterminated ▸ hq) hreleased hwait

/-- The thread of `p` goes on in `__mpq_destroy`, and nothing else changes but its lock. -/
theorem RelInv.destroyTo (h : s.RelInv) {ph : DestroyPhase} (hadders : s'.adders = s.adders)
    (hterminated : s'.terminated = s.terminated) (hwait : s'.waitQCount = s.waitQCount)
    (hdestroying : s'.destroying = some (q, ph)) (hmem : q ∈ s.terminated)
    (hlock : ∀ i, s.lock = some (some i) → s'.lock = some (some i)) (howner : ph = .wake ∨ ph = .unlock → s'.lock = some none)
    (hquiet : ∀ r, r ∈ s'.released ∨ (r = q ∧ ph = .unlock) → r ∈ s.released ∨ s.destroying = some (r, .unlock) ∨
      (r ∈ s.terminated ∧ ∀ x ∈ s.adders, x.ph ≠ .sleep ∧ x.ph ≠ .blocked)) : s'.RelInv := by
  refine ⟨fun i x hx hl => ?_, fun r ph' hr hph => ?_, fun r ph' hr _ => ?_, ?_, fun r hr => ?_⟩
  · rw [hadders] at hx
    exact hlock i (h.held i x hx hl)
  · rw [hdestroying] at hr
    cases hr
    exact howner hph
  · rw [hdestroying] at hr
    cases hr
    rw [hterminated]
    exact hmem
  · rw [hwait, hadders]
    exact h.waitQ
  · rw [hterminated, hadders]
    have hr' : r ∈ s'.released ∨ (r = q ∧ ph = .unlock) := by
      rcases hr with hr | hr
      · exact .inl hr
      · rw [hdestroying] at hr
        cases hr
        exact .inr ⟨rfl, rfl⟩
    rcases hquiet r hr' with hold | hold | ⟨hterm, hall⟩
    · exact h.quiet r (.inl hold)
    · exact h.quiet r (.inr hold)
    · exact ⟨hterm, fun x hx _ => hall x hx⟩

theorem wake_counted (ph : AddPhase) : ph.wake.counted = ph.counted := by
  cases ph <;> rfl

theorem wake_locked (ph : AddPhase) : ph.wake.locked = ph.locked := by
  cases ph <;> rfl

theorem wake_ne_blocked (ph : AddPhase) : ph.wake ≠ .blocked := by
  cases ph <;> exact AddPhase.noConfusion

theorem wake_eq_sleep {ph : AddPhase} (h : ph.wake = .sleep) : ph = .sleep := by
  cases ph <;> first | rfl | cases h

theorem RelInv.broadcast (h : s.RelInv) : s.broadcast.RelInv := by
  refine ⟨fun i x hx hl => ?_, h.owner, h.marked, ?_, fun q hq => ⟨(h.quiet q hq).1, fun x hx hxq => ?_⟩⟩
  · obtain ⟨y, hy, rfl⟩ := Option.map_eq_some_iff.1 (List.getElem?_map ▸ hx)
    exact h.held i y hy (wake_locked y.ph ▸ hl)
  · show s.waitQCount = (s.adders.map _).countP _
    rw [List.countP_map, h.waitQ]
    exact congrArg (List.countP · s.adders) (funext fun x => (wake_counted x.ph).symm)
  · obtain ⟨y, hy, rfl⟩ := List.mem_map.1 hx
    exact ⟨fun hc => ((h.quiet q hq).2 y hy hxq).1 (wake_eq_sleep hc), wake_ne_blocked y.ph⟩

/-- With the lock, the thread of `p` leaves nobody waiting. -/
theorem RelInv.wake (h : s.RelInv) (hd : s.destroying = some (q, .wake)) (hs : s.destroyGo j q .wake = some s') :
    s'.RelInv := by
  have hlock := h.owner q .wake hd (.inl rfl)
  have hmem := h.marked q .wake hd DestroyPhase.noConfusion
  -- nobody is about to wait, for that needs the lock
  have hsleep : ∀ x ∈ s.adders, x.ph ≠ .sleep := by
    intro x hx hc
    obtain ⟨i, hi⟩ := List.mem_iff_getElem?.1 hx
    have hheld := h.held i x hi (by rw [hc]; rfl)
    rw [hlock] at hheld
    cases hheld
  have hgo : ∀ t : ReleaseSt, t.RelInv → t.destroying = s.destroying → t.lock = s.lock → t.terminated = s.terminated →
      t.released = s.released → (∀ x ∈ t.adders, x.ph ≠ .sleep ∧ x.ph ≠ .blocked) →
      RelInv { t with destroying := some (q, .unlock) } := by
    intro t ht hdt hlt htt hrt hall
    refine ht.destroyTo rfl rfl rfl rfl (htt ▸ hmem) (fun _ => id) (fun _ => hlt.trans hlock) fun r hr => ?_
    rcases hr with hr | ⟨rfl, -⟩
    · exact .inl hr
    · exact .inr (.inr ⟨htt ▸ hmem, hall⟩)
  simp only [ReleaseSt.destroyGo] at hs
  split_ifs at hs with hpos hmany
  · cases hs
    refine hgo s.broadcast h.broadcast rfl rfl rfl rfl fun x hx => ?_
    obtain ⟨y, hy, rfl⟩ := List.mem_map.1 hx
    exact ⟨fun hc => hsleep y hy (wake_eq_sleep hc), wake_ne_blocked y.ph⟩
  · -- the only one that is counted gets the signal
    obtain ⟨t, ht, rfl⟩ := Option.map_eq_some_iff.1 hs
    have hinv := h.signal ht
    rcases signal_cases ht with ⟨x, hx, hb, rfl⟩ | ⟨rfl, hall⟩
    · refine hgo _ hinv rfl rfl rfl rfl fun y hy => ?_
      obtain ⟨k, hk⟩ := List.mem_iff_getElem?.1 hy
      by_cases hkj : k = j
      · subst hkj
        obtain rfl := Option.some.inj ((getElem?_set_self hx).symm.trans hk)
        exact ⟨AddPhase.noConfusion, AddPhase.noConfusion⟩
      · replace hk : s.adders[k]? = some y := (getElem?_set_ne (Ne.symm hkj)).symm.trans hk
        refine ⟨hsleep y (List.mem_of_getElem? hk), fun hyb => ?_⟩
        have htwo := two_le_countP (p := fun x => x.ph.counted) hx hk (Ne.symm hkj) (by rw [hb]; rfl) (by rw [hyb]; rfl)
        have hwait := h.waitQ
        omega
    · exact hgo _ h rfl rfl rfl rfl fun x hx => ⟨hsleep x hx, hall x hx⟩
  · cases hs
    refine hgo s h rfl rfl rfl rfl fun x hx => ⟨hsleep x hx, fun hb => ?_⟩
    have hcount : 0 < s.adders.countP fun x => x.ph.counted := List.countP_pos_iff.2 ⟨x, hx, by rw [hb]; rfl⟩
    have hwait := h.waitQ
    omega

theorem RelInv.destroyGo (h : s.RelInv) {ph : DestroyPhase} (hd : s.destroying = some (q, ph))
    (hs : s.destroyGo j q ph = some s') : s'.RelInv := by
  have hother : ∀ ph' : DestroyPhase, ph' ≠ .unlock → ∀ r, r ∈ s.released ∨ (r = q ∧ ph' = .unlock) → r ∈ s.released ∨
      s.destroying = some (r, .unlock) ∨ (r ∈ s.terminated ∧ ∀ x ∈ s.adders, x.ph ≠ .sleep ∧ x.ph ≠ .blocked) := by
    intro ph' hne r hr
    rcases hr with hr | ⟨-, hr⟩
    · exact .inl hr
    · exact absurd hr hne
  rcases ph
  case mark =>
    cases hs
    have h' : RelInv { s with terminated := q :: s.terminated } :=
      h.of_eq rfl rfl rfl (fun r hr => List.mem_cons_of_mem q hr) rfl rfl
    refine h'.destroyTo rfl rfl rfl rfl (List.mem_cons_self) (fun _ => id) (fun hc => by simp at hc) fun r hr => ?_
    rcases hr with hr | ⟨-, hr⟩
    · exact .inl hr
    · cases hr
  case kick =>
    cases hs
    exact h.destroyTo rfl rfl rfl rfl (h.marked q .kick hd DestroyPhase.noConfusion) (fun _ => id) (fun hc => by simp at hc)
      (hother .lock DestroyPhase.noConfusion)
  case lock =>
    simp only [ReleaseSt.destroyGo, Option.ite_none_right_eq_some] at hs
    obtain ⟨hlock, ⟨⟩⟩ := hs
    refine h.destroyTo rfl rfl rfl rfl (h.marked q .lock hd DestroyPhase.noConfusion) (fun i hi => ?_) (fun _ => rfl)
      (hother .wake DestroyPhase.noConfusion)
    rw [hlock] at hi
    cases hi
  case wake => exact h.wake hd hs
  case unlock =>
    cases hs
    have hlock := h.owner q .unlock hd (.inr rfl)
    refine h.destroyTo rfl rfl rfl rfl (h.marked q .unlock hd DestroyPhase.noConfusion) (fun i hi => ?_)
      (fun hc => by simp at hc) fun r hr => ?_
    · rw [hlock] at hi
      cases hi
    · rcases hr with hr | ⟨-, hr⟩
      · rcases List.mem_cons.1 hr with rfl | hr
        · exact .inr (.inl hd)
        · exact .inl hr
      · cases hr
  case wait =>
    simp only [ReleaseSt.destroyGo, Option.ite_none_right_eq_some] at hs
    obtain ⟨-, ⟨⟩⟩ := hs
    refine ⟨h.held, (fun r ph hr => by cases hr), (fun r ph hr => by cases hr), h.waitQ, fun r hr => ?_⟩
    rcases hr with hr | hr
    · exact h.quiet r (.inl hr)
    · cases hr

theorem RelInv.step {a : ReleaseAct} (h : s.RelInv) (hs : s.step a = some s') : s'.RelInv := by
  rcases a <;> simp only [ReleaseSt.step] at hs
  case call i noFail sync doneSelf =>
    rcases hx : s.adders[i]? with _ | x <;> simp only [hx, Option.ite_none_right_eq_some, reduceCtorEq] at hs
    obtain ⟨hout, ⟨⟩⟩ := hs
    refine h.move hx rfl rfl rfl rfl rfl (fun hc => by cases hc) (.inl rfl) ?_ (fun hc => by simp at hc)
    rcases hph : x.ph <;> rw [hph] at hout <;> first | rfl | cases hout
  case go i =>
    rcases hx : s.adders[i]? with _ | x <;> simp only [hx, reduceCtorEq] at hs
    exact h.addF hx hs
  case spurious i =>
    rcases hx : s.adders[i]? with _ | x <;> simp only [hx, Option.ite_none_right_eq_some, reduceCtorEq] at hs
    obtain ⟨hb, ⟨⟩⟩ := hs
    exact h.woken hx hb
  case work j =>
    rw [Option.ite_none_right_eq_some] at hs
    exact h.work hs.2
  case destroy q =>
    rw [Option.ite_none_right_eq_some] at hs
    obtain ⟨hnone, ⟨⟩⟩ := hs
    refine ⟨h.held, fun r ph hr hph => ?_, fun r ph hr hne => ?_, h.waitQ, fun r hr => ?_⟩
    · cases hr
      simp at hph
    · cases hr
      exact absurd rfl hne
    · rcases hr with hr | hr
      · exact h.quiet r (.inl hr)
      · cases hr
  case destroyGo j =>
    rcases hd : s.destroying with _ | ⟨q, ph⟩ <;> simp only [hd, reduceCtorEq] at hs
    exact h.destroyGo hd hs
  case terminate q =>
    cases hs
    exact h.of_eq rfl rfl rfl (fun r hr => List.mem_cons_of_mem q hr) rfl rfl
  case exit q =>
    rw [Option.ite_none_right_eq_some] at hs
    obtain ⟨-, ⟨⟩⟩ := hs
    exact h.of_eq rfl rfl rfl (fun _ => id) rfl rfl
  case setNonblock | reserve | unreserve =>
    cases hs
    exact h.of_eq rfl rfl rfl (fun _ => id) rfl rfl

theorem relInv_init (qMax : Nat) (nonblock : Bool) (owns : List (Option Nat)) : (init qMax nonblock owns).RelInv := by
  have hout : ∀ x ∈ (init qMax nonblock owns).adders, x.ph = .out := by
    intro x hx
    obtain ⟨own, -, rfl⟩ := List.mem_map.1 hx
    rfl
  refine ⟨fun i x hx hl => ?_, (fun q ph hq => by cases hq), (fun q ph hq => by cases hq), ?_, fun q hq => ?_⟩
  · rw [hout x (List.mem_of_getElem? hx)] at hl
    cases hl
  · refine (List.countP_eq_zero.2 fun x hx => ?_).symm
    rw [hout x hx]
    exact Bool.noConfusion
  · rcases hq with hq | hq <;> cases hq

/-! ### The threads of a destroyed queue -/

/-- What others do to a thread in `____add_f` that does not wait: nothing. -/
theorem step_other {a : ReleaseAct} (hx : s.adders[i]? = some x) (hleft : 0 < x.ph.left) (ha : a ≠ .go i)
    (hs : s.step a = some s') : s'.adders[i]? = some x := by
  have hset : ∀ (j : Nat) (y z : Adder), s.adders[j]? = some y → y.ph.left = 0 → (s.adders.set j z)[i]? = some x := by
    intro j y z hy hzero
    have hne : j ≠ i := by
      rintro rfl
      obtain rfl := Option.some.inj (hx.symm.trans hy)
      omega
    rw [getElem?_set_ne hne]
    exact hx
  have hsignal : ∀ (j : Nat) (t : ReleaseSt), s.signal j = some t → t.adders[i]? = some x := by
    intro j t ht
    rcases signal_cases ht with ⟨y, hy, hb, rfl⟩ | ⟨rfl, -⟩
    · exact hset j y _ hy (by rw [hb]; rfl)
    · exact hx
  rcases a <;> simp only [ReleaseSt.step] at hs
  case call j noFail sync doneSelf =>
    rcases hy : s.adders[j]? with _ | y <;> simp only [hy, Option.ite_none_right_eq_some, reduceCtorEq] at hs
    obtain ⟨hout, ⟨⟩⟩ := hs
    refine hset j y _ hy ?_
    rcases hph : y.ph <;> rw [hph] at hout <;> first | rfl | cases hout
  case go j =>
    rcases hy : s.adders[j]? with _ | y <;> simp only [hy, reduceCtorEq] at hs
    have hji : j ≠ i := fun hc => ha (by rw [hc])
    obtain ⟨-, ph, hz⟩ := addF_adders hs
    rw [hz, getElem?_set_ne hji]
    exact hx
  case spurious j =>
    rcases hy : s.adders[j]? with _ | y <;> simp only [hy, Option.ite_none_right_eq_some, reduceCtorEq] at hs
    obtain ⟨hb, ⟨⟩⟩ := hs
    exact hset j y _ hy (by rw [hb]; rfl)
  case work j =>
    rw [Option.ite_none_right_eq_some] at hs
    obtain ⟨s₁, hcases, hadders, -⟩ := work_cases hs.2
    rw [hadders]
    rcases hcases with rfl | ⟨fo, rfl⟩ | hs₁
    · exact hx
    · rcases execute_cases s fo with heq | ⟨j, y, hy, hw, heq⟩ <;> rw [heq]
      · exact hx
      · exact hset j y _ hy (by rw [hw]; rfl)
    · exact hsignal j s₁ hs₁
  case destroyGo j =>
    rcases hd : s.destroying with _ | ⟨q, ph⟩ <;> simp only [hd, reduceCtorEq] at hs
    rcases ph <;> simp only [ReleaseSt.destroyGo, Option.ite_none_right_eq_some, Option.some.injEq] at hs
    case mark | kick | unlock =>
      subst hs
      exact hx
    case lock | wait =>
      obtain ⟨-, rfl⟩ := hs
      exact hx
    case wake =>
      split_ifs at hs
      · cases hs
        have hself : { x with ph := x.ph.wake } = x := by
          obtain ⟨own, noFail, sync, doneSelf, ph⟩ := x
          rcases ph <;> first | rfl | cases hleft
        show (s.adders.map _)[i]? = _
        rw [List.getElem?_map, hx, Option.map_some, hself]
      · obtain ⟨t, ht, rfl⟩ := Option.map_eq_some_iff.1 hs
        exact hsignal j t ht
      · cases hs
        exact hx
  case destroy q | exit q =>
    rw [Option.ite_none_right_eq_some] at hs
    obtain ⟨-, ⟨⟩⟩ := hs
    exact hx
  case terminate | setNonblock | reserve | unreserve =>
    cases hs
    exact hx

theorem step_go (hx : s.adders[i]? = some x) : s.step (.go i) = s.addF i x := by
  simp only [ReleaseSt.step, hx]

/-- Where `____add_f` goes on from `x`, a thread of a terminated queue. -/
structure AddNext (s : ReleaseSt) (x : Adder) (ph : AddPhase) : Prop where
  nearer : x.ph ≠ .sleep → ph.left < x.ph.left
  fails : ∀ err, ph = .fail err → err = .eintr ∨ (err = .eagain ∧ s.nonblock = true)
  added : x.ph = .added → ph = if x.sync then .syncWait else .done none
  failed : ∀ err, x.ph = .fail err → ph = .done (some err)
  entered : x.ph = .enter → ph = if s.refuses x then .done (some .eperm) else .want

/-- A step on the way, which decides nothing. -/
theorem AddNext.of_lt {ph : AddPhase} (hlt : ph.left < x.ph.left) (hph : ∀ err, ph ≠ .fail err) (hx : x.ph.left ≠ 1)
    (henter : x.ph ≠ .enter) : AddNext s x ph where
  nearer _ := hlt
  fails err herr := absurd herr (hph err)
  added heq := absurd (congrArg AddPhase.left heq) hx
  failed _ heq := absurd (congrArg AddPhase.left heq) hx
  entered heq := absurd heq henter

theorem addF_next (hx : s.adders[i]? = some x) (hown : x.own = some q) (hterm : q ∈ s.terminated)
    (hs : s.addF i x = some s') : ∃ ph, s'.adders[i]? = some { x with ph := ph } ∧ AddNext s x ph := by
  obtain ⟨own, noFail, sync, doneSelf, ph⟩ := x
  obtain rfl : own = some q := hown
  have hself : ∀ y, (s.adders.set i y)[i]? = some y := fun y => getElem?_set_self hx
  rcases ph <;> simp only [ReleaseSt.addF, Option.ite_none_right_eq_some, Option.some.injEq, reduceCtorEq] at hs
  case enter =>
    subst hs
    refine ⟨_, hself _, fun _ => ?_, fun err herr => ?_, by simp, by simp, fun _ => rfl⟩
    · split_ifs <;> simp [AddPhase.left]
    · split_ifs at herr
  case want | woken =>
    obtain ⟨-, rfl⟩ := hs
    exact ⟨_, hself _, .of_lt (by simp [AddPhase.left]) (by simp) (by simp [AddPhase.left]) (by simp)⟩
  case count =>
    split_ifs at hs <;> cases hs <;>
      exact ⟨_, hself _, .of_lt (by simp [AddPhase.left]) (by simp) (by simp [AddPhase.left]) (by simp)⟩
  case flags =>
    subst hs
    refine ⟨_, hself _, fun _ => ?_, fun err herr => ?_, by simp, by simp, by simp⟩
    · cases s.nonblock <;> simp [AddPhase.left]
    · rcases hn : s.nonblock <;> rw [hn] at herr
      · cases herr
      · cases herr
        exact .inr ⟨rfl, rfl⟩
  case term =>
    subst hs
    have hany : ((some q).any fun q => decide (q ∈ s.terminated)) = true := by simpa using hterm
    refine ⟨.fail .eintr, ?_, fun _ => by simp [AddPhase.left], fun err herr => ?_, by simp, by simp, by simp⟩
    · rw [hany]
      exact hself _
    · cases herr
      exact .inl rfl
  case sleep =>
    subst hs
    exact ⟨_, hself _, fun hc => absurd rfl hc, by simp, by simp, by simp, by simp⟩
  case back =>
    subst hs
    exact ⟨_, hself _, .of_lt (by simp [AddPhase.left]) (by simp) (by simp [AddPhase.left]) (by simp)⟩
  case added =>
    subst hs
    refine ⟨_, hself _, fun _ => ?_, fun err herr => ?_, fun _ => rfl, by simp, by simp⟩
    · cases sync <;> simp [AddPhase.left]
    · revert herr
      cases sync <;> simp
  case fail err =>
    subst hs
    exact ⟨_, hself _, fun _ => Nat.zero_lt_one, by simp, by simp, by simp, by simp⟩
  case executed =>
    subst hs
    exact ⟨_, hself _, fun _ => by simp [AddPhase.left], by simp, by simp, by simp, by simp⟩

/-- Once `__mpq_destroy (q)` has returned on the thread of `p`, the thread of `q` does not wait for room in `p`, and no later
add of it does. -/
theorem destroy_releases {qMax : Nat} {nonblock : Bool} {owns : List (Option Nat)} {as : List ReleaseAct}
    (hrun : exec step (init qMax nonblock owns) as = some s) (hq : q ∈ s.released) (hx : s.adders[i]? = some x)
    (hown : x.own = some q) : s.Freed i x := by
  have hinv : s.RelInv := exec_invariant_all (fun s a s' h => h.step) (relInv_init qMax nonblock owns) hrun
  obtain ⟨hterm, hquiet⟩ := hinv.quiet q (.inl hq)
  have hawake := hquiet x (List.mem_of_getElem? hx) hown
  have hnext : ∀ s' x', s.step (.go i) = some s' → s'.adders[i]? = some x' → AddNext s x x'.ph := by
    intro s' x' hs hx'
    rw [step_go hx] at hs
    obtain ⟨ph, hph, hnext⟩ := addF_next hx hown hterm hs
    obtain rfl := Option.some.inj (hx'.symm.trans hph)
    exact hnext
  exact {
    awake := hawake
    goes := fun hleft hlock => by
      rw [step_go hx]
      obtain ⟨own, noFail, sync, doneSelf, ph⟩ := x
      rcases ph <;> simp only [ReleaseSt.addF]
      case want => rw [if_pos (hlock (.inl rfl))]; rfl
      case woken => rw [if_pos (hlock (.inr rfl))]; rfl
      case count => split_ifs <;> rfl
      case enter | flags | term | back | added | fail | executed | sleep => rfl
      all_goals cases hleft
    nearer := fun s' x' hs hx' => (hnext s' x' hs hx').nearer hawake.1
    others := fun a s' ha hleft hs => step_other hx hleft ha hs
    fails := fun s' x' err hs hx' => (hnext s' x' hs hx').fails err
    added := fun s' x' hph hs hx' => (hnext s' x' hs hx').added hph
    failed := fun s' x' err hph hs hx' => (hnext s' x' hs hx').failed err hph
    entered := fun s' x' hph hs hx' => (hnext s' x' hs hx').entered hph }

/-- The thread of queue 0 comes to wait for room in `p`, which another thread has filled. -/
def fullRun : List ReleaseAct :=
  .call 1 false false false :: List.replicate 4 (.go 1) ++ .call 0 false false false :: List.replicate 5 (.go 0)

/-- `p` destroys queue 0 before its thread waits; the signal is for it. -/
theorem destroy_releases_waiter : ∃ s : ReleaseSt, exec step (init 1 false [some 0, none])
    (fullRun ++ [.destroy 0, .go 0] ++ List.replicate 5 (.destroyGo 0)) = some s ∧
    s.adders[0]? = some ⟨some 0, false, false, false, .woken⟩ ∧ s.Freed 0 ⟨some 0, false, false, false, .woken⟩ := by
  have hrun : ((exec step (init 1 false [some 0, none])
      (fullRun ++ [.destroy 0, .go 0] ++ List.replicate 5 (.destroyGo 0))).any
      fun s => s.adders[0]? = some ⟨some 0, false, false, false, .woken⟩ ∧ 0 ∈ s.released) = true := by
    decide +kernel
  obtain ⟨s, hs, hd⟩ := (Option.any_eq_true _ _).1 hrun
  obtain ⟨hx, hq⟩ := of_decide_eq_true hd
  exact ⟨s, hs, hx, destroy_releases hs hq hx rfl⟩

/-- The thread of `p` waits for the end of queue 0, whose thread waits for `p` to execute a function. -/
def Deadlocked (s : ReleaseSt) : Prop :=
  s.destroying = some (0, .wait) ∧ ∃ x, s.adders[0]? = some x ∧ x.own = some 0 ∧ x.ph = .syncWait

theorem Deadlocked.step {a : ReleaseAct} (h : s.Deadlocked) (hs : s.step a = some s') : s'.Deadlocked := by
  obtain ⟨hd, x, hx, hown, hph⟩ := h
  have hset : ∀ (j : Nat) (y z : Adder), s.adders[j]? = some y → y.ph ≠ .syncWait → (s.adders.set j z)[0]? = some x := by
    intro j y z hy hne
    have hj : j ≠ 0 := by
      rintro rfl
      obtain rfl := Option.some.inj (hx.symm.trans hy)
      exact hne hph
    rw [getElem?_set_ne hj]
    exact hx
  rcases a <;> simp only [ReleaseSt.step] at hs
  case call j noFail sync doneSelf =>
    rcases hy : s.adders[j]? with _ | y <;> simp only [hy, Option.ite_none_right_eq_some, reduceCtorEq] at hs
    obtain ⟨hout, ⟨⟩⟩ := hs
    exact ⟨hd, x, hset j y _ hy (fun hc => by rw [hc] at hout; cases hout), hown, hph⟩
  case go j =>
    rcases hy : s.adders[j]? with _ | y <;> simp only [hy, reduceCtorEq] at hs
    obtain ⟨hd', ph, hadders⟩ := addF_adders hs
    refine ⟨hd'.trans hd, x, ?_, hown, hph⟩
    rw [hadders]
    refine hset j y _ hy fun hc => ?_
    rw [ReleaseSt.addF, hc] at hs
    cases hs
  case spurious j =>
    rcases hy : s.adders[j]? with _ | y <;> simp only [hy, Option.ite_none_right_eq_some, reduceCtorEq] at hs
    obtain ⟨hb, ⟨⟩⟩ := hs
    exact ⟨hd, x, hset j y _ hy (fun hc => by rw [hc] at hb; cases hb), hown, hph⟩
  case exit q =>
    rw [Option.ite_none_right_eq_some] at hs
    obtain ⟨-, ⟨⟩⟩ := hs
    exact ⟨hd, x, hx, hown, hph⟩
  case work | destroy =>
    rw [hd, Option.ite_none_right_eq_some] at hs
    cases hs.1
  case destroyGo j =>
    simp only [hd, ReleaseSt.destroyGo, Option.ite_none_right_eq_some, List.all_eq_true] at hs
    have hout := hs.1 x (List.mem_of_getElem? hx)
    rw [hown, hph] at hout
    simp [AddPhase.outside] at hout
  case terminate | setNonblock | reserve | unreserve =>
    cases hs
    exact ⟨hd, x, hx, hown, hph⟩

/-- A pool has reserved the only place in `p` when the thread of queue 0 comes to wait for it. The destruction of the queue
ends that wait with `AOSL_EINTR`; the place is given back, the next call of the thread is synchronous, and never returns. -/
theorem not_destroy_releases : ∃ t u s : ReleaseSt,
    exec step (init 1 false [some 0]) (.reserve :: .call 0 false false false :: List.replicate 6 (.go 0)) = some t ∧
    (t.count = t.qMax ∧ t.adders[0]? = some ⟨some 0, false, false, false, .blocked⟩) ∧
    exec step t (.destroy 0 :: List.replicate 5 (.destroyGo 0) ++ List.replicate 6 (.go 0)) = some u ∧
    (0 ∈ u.released ∧ u.adders[0]? = some ⟨some 0, false, false, false, .done (some .eintr)⟩) ∧
    exec step u (.unreserve :: .call 0 false true false :: List.replicate 4 (.go 0)) = some s ∧
    s.nonblock = false ∧
    ∀ as s', exec step s as = some s' → ∃ x, s'.adders[0]? = some x ∧ x.own = some 0 ∧ x.ph = .syncWait := by
  refine ⟨⟨1, false, 1, 1, none, [], [], [⟨some 0, false, false, false, .blocked⟩], .loop, none, [], [], []⟩,
    ⟨1, false, 1, 0, none, [], [], [⟨some 0, false, false, false, .done (some .eintr)⟩], .loop, some (0, .wait), [0], [], [0]⟩,
    ⟨1, false, 1, 0, none, [some 0], [], [⟨some 0, false, true, false, .syncWait⟩], .loop, some (0, .wait), [0], [], [0]⟩,
    by decide +kernel, by decide, by decide +kernel, by decide, by decide +kernel, rfl, fun as s' hrun => ?_⟩
  have hdead : s'.Deadlocked := exec_invariant_all (fun s a s' h => h.step) ⟨rfl, _, rfl, rfl, rfl⟩ hrun
  exact hdead.2

end ReleaseSt

end Aosl
