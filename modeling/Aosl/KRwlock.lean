import Aosl.Lib.Lists
import Aosl.Lib.Steps

/-!
# The lock that can be upgraded, `k_rwlock_t`

A raw reader/writer lock with the mutex `lk` beside it. Whoever wants to write takes `lk` first, and gives it back if the raw
lock is not free. A reader that upgrades holds the raw lock already, so it takes `lk` with `k_lock_trylock`, gives the raw
lock up and takes it again for writing; to go back it does the reverse, with `lk` in its hands all the time.

`reads` and `write` are what a thread holds of the raw lock. That lock and the mutex are taken as correct: the raw lock is
given for reading while nobody has it for writing, and for writing while nobody has it; the functions that try may fail at
any time. `upgrading` is not in the code: the thread has called `k_rwlock_rd2wrlock` and has not yet returned from
`k_rwlock_wr2rdlock`.
-/

namespace Aosl
open Lib

/-- Where a thread is; `retry` tells `k_rwlock_wrlock` from `k_rwlock_trywrlock`. -/
inductive KRwPhase where
  | idle
  | rdlock
  | tryrdlock
  /-- Before `k_lock_lock (&rw->lk)`. -/
  | want (retry : Bool)
  /-- With `lk`, before `k_raw_rwlock_trywrlock`. -/
  | attempt (retry : Bool)
  /-- That has failed; next is `k_lock_unlock`. -/
  | back (retry : Bool)
  /-- In `k_rwlock_wrunlock`, before `k_lock_unlock`. -/
  | leave
  -- `k_rwlock_rd2wrlock`: before `k_lock_trylock`, after it has failed, and with `lk` before each of the three statements
  | upTry
  | upFailed
  | upGot
  | upDrop
  | upWait
  -- `k_rwlock_wr2rdlock`, after `k_raw_rwlock_wrunlock`
  | dnWait
  | dnCount
  | dnUnlock
deriving DecidableEq

structure KRwThread where
  ph : KRwPhase
  reads : Nat
  write : Bool
  upgrading : Bool
deriving DecidableEq

structure KRwSt where
  lk : Option Nat
  rd2wrlockCount : Nat
  threads : List KRwThread
  aborted : Bool
deriving DecidableEq

inductive KRwOp where
  | rdlock
  | tryrdlock
  | rdunlock
  | wrlock
  | trywrlock
  | wrunlock
  | rd2wrlock
  | wr2rdlock
deriving DecidableEq

inductive KRwAct where
  | call (t : Nat) (op : KRwOp)
  /-- The thread goes on; `ok`: what it tries succeeds. -/
  | go (t : Nat) (ok : Bool)
deriving DecidableEq

def KRwAct.thread : KRwAct → Nat
  | call t _ => t
  | go t _ => t

def KRwAct.upgrades : KRwAct → Bool
  | call _ .rd2wrlock => true
  | _ => false

namespace KRwPhase

/-- The thread has `lk` because of the function it is in. -/
def hasLk : KRwPhase → Bool
  | attempt _ | back _ | leave | upGot | upDrop | upWait | dnWait | dnCount | dnUnlock => true
  | _ => false

/-- In `k_rwlock_rd2wrlock` with `lk`, without the write lock. -/
def midUpgrade : KRwPhase → Bool
  | upGot | upDrop | upWait => true
  | _ => false

/-- In the loop of `k_rwlock_rd2wrlock`. -/
def inLoop : KRwPhase → Bool
  | upTry | upFailed => true
  | _ => false

theorem hasLk_of_between {ph : KRwPhase} (h : ph.midUpgrade = true ∨ ph = .dnWait) : ph.hasLk = true := by
  rcases h with h | rfl
  · rcases ph <;> first | rfl | cases h
  · rfl

end KRwPhase

namespace KRwSt

def init (n : Nat) : KRwSt := ⟨none, 0, List.replicate n ⟨.idle, 0, false, false⟩, false⟩

/-- Nobody has the raw lock for writing. -/
def noWriter (s : KRwSt) : Bool := s.threads.all fun x => !x.write

/-- Nobody has the raw lock. -/
def free (s : KRwSt) : Bool := s.threads.all fun x => x.reads = 0 && !x.write

def setThread (s : KRwSt) (t : Nat) (x : KRwThread) : KRwSt := { s with threads := s.threads.set t x }

/-- The thread `t`, which is `x`, calls a function: up to the first thing that can wait, or the raw unlock. -/
def call (s : KRwSt) (t : Nat) (x : KRwThread) : KRwOp → Option KRwSt
  | .rdlock => some (s.setThread t { x with ph := .rdlock })
  | .tryrdlock => some (s.setThread t { x with ph := .tryrdlock })
  | .rdunlock => if 0 < x.reads then some (s.setThread t { x with reads := x.reads - 1 }) else none
  | .wrlock => some (s.setThread t { x with ph := .want true })
  | .trywrlock => some (s.setThread t { x with ph := .want false })
  | .wrunlock => if x.write then some (s.setThread t { x with ph := .leave, write := false }) else none
  | .rd2wrlock => if 0 < x.reads then some (s.setThread t { x with ph := .upTry, upgrading := true }) else none
  | .wr2rdlock => if x.write then some (s.setThread t { x with ph := .dnWait, write := false }) else none

def go (s : KRwSt) (t : Nat) (x : KRwThread) (ok : Bool) : Option KRwSt :=
  match x.ph with
  | .idle => none
  | .rdlock => if s.noWriter then some (s.setThread t { x with ph := .idle, reads := x.reads + 1 }) else none
  | .tryrdlock =>
    if ok then if s.noWriter then some (s.setThread t { x with ph := .idle, reads := x.reads + 1 }) else none
    else some (s.setThread t { x with ph := .idle })
  | .want retry =>
    if s.lk = none then some { s.setThread t { x with ph := .attempt retry } with lk := some t } else none
  | .attempt retry =>
    if ok then if s.free then some (s.setThread t { x with ph := .idle, write := true }) else none
    else some (s.setThread t { x with ph := .back retry })
  | .back retry =>
    some { s.setThread t { x with ph := if retry then .want true else .idle } with lk := none }
  | .leave => some { s.setThread t { x with ph := .idle } with lk := none }
  | .upTry =>
    if ok then if s.lk = none then some { s.setThread t { x with ph := .upGot } with lk := some t } else none
    else some (s.setThread t { x with ph := .upFailed })
  | .upFailed =>
    if s.rd2wrlockCount ≠ 0 then some { s with aborted := true } else some (s.setThread t { x with ph := .upTry })
  | .upGot => some { s.setThread t { x with ph := .upDrop } with rd2wrlockCount := 1 }
  | .upDrop => some (s.setThread t { x with ph := .upWait, reads := x.reads - 1 })
  | .upWait => if s.free then some (s.setThread t { x with ph := .idle, write := true }) else none
  | .dnWait => if s.noWriter then some (s.setThread t { x with ph := .dnCount, reads := x.reads + 1 }) else none
  | .dnCount => some { s.setThread t { x with ph := .dnUnlock } with rd2wrlockCount := 0 }
  | .dnUnlock => some { s.setThread t { x with ph := .idle, upgrading := false } with lk := none }

def step (s : KRwSt) (a : KRwAct) : Option KRwSt :=
  if s.aborted then none else
    match s.threads[a.thread]? with
    | none => none
    | some x => match a with
      | .call t op => if x.ph = .idle then s.call t x op else none
      | .go t ok => s.go t x ok

/-- The thread `t` has the write lock. -/
def writes (s : KRwSt) (t : Nat) : Bool := s.threads[t]?.any KRwThread.write

/-- The thread `t` has the lock, for reading or for writing. -/
def holds (s : KRwSt) (t : Nat) : Bool := s.threads[t]?.any fun x => x.write || 0 < x.reads

/-- The thread `u` stands between `lk` and the write lock in `k_rwlock_rd2wrlock`, or between the write lock and the read
lock in `k_rwlock_wr2rdlock`. -/
def between (s : KRwSt) (u : Nat) : Bool := s.threads[u]?.any fun x => x.ph.midUpgrade || x.ph = .dnWait

/-- A writer is alone. While a thread changes from reader to writer or back, no other has the write lock or gets it. -/
structure Excludes (s : KRwSt) : Prop where
  alone : ∀ t u, s.writes t → s.holds u → u = t
  other : ∀ t u, s.between u → t ≠ u → s.writes t = false
  step : ∀ a s' t u, s.between u → t ≠ u → s.step a = some s' → s'.writes t = false

/-- A reader starts to upgrade when no other is at it. -/
def OneUpgrade (s : KRwSt) (a : KRwAct) : Prop := a.upgrades = true → ∀ x ∈ s.threads, x.upgrading = false

instance (s : KRwSt) (a : KRwAct) : Decidable (s.OneUpgrade a) := inferInstanceAs (Decidable (_ → _))

/-! ### Who has `lk` -/

/-- Writers and those who are in the middle of a function have `lk`, and a writer is alone. -/
structure LkInv (s : KRwSt) : Prop where
  lk : ∀ (t : Nat) (x : KRwThread), s.threads[t]? = some x → ((x.write || x.ph.hasLk) = true ↔ s.lk = some t)
  apart : ∀ (t : Nat) (x : KRwThread), s.threads[t]? = some x → x.ph.hasLk = true → x.write = false
  alone : ∀ (t u : Nat) (x y : KRwThread), s.threads[t]? = some x → s.threads[u]? = some y → x.write = true →
    y.reads = 0 ∧ (y.write = true → u = t)

variable {s s' : KRwSt} {t : Nat} {x y : KRwThread}

theorem noWriter_iff : s.noWriter = true ↔ ∀ x ∈ s.threads, x.write = false := by
  simp [noWriter]

theorem free_iff : s.free = true ↔ ∀ x ∈ s.threads, x.reads = 0 ∧ x.write = false := by
  simp [free]

/-- The thread `t` goes from `x` to `y`, and with it `lk` to `l`. -/
theorem LkInv.move (h : s.LkInv) (ht : s.threads[t]? = some x) (hthreads : s'.threads = s.threads.set t y)
    (hlk : (y.write || y.ph.hasLk) = true ↔ s'.lk = some t) (hother : ∀ u, u ≠ t → (s'.lk = some u ↔ s.lk = some u))
    (hapart : y.ph.hasLk = true → y.write = false) (hwrite : y.write = true → x.write = true ∨ (s.free = true ∧ y.reads = x.reads))
    (hreads : y.reads ≤ x.reads ∨ s.noWriter = true) : s'.LkInv := by
  have hself : s'.threads[t]? = some y := by rw [hthreads]; exact getElem?_set_self ht
  have hne : ∀ u, u ≠ t → s'.threads[u]? = s.threads[u]? := fun u hu => by
    rw [hthreads]
    exact getElem?_set_ne (Ne.symm hu)
  refine ⟨fun u z hu => ?_, fun u z hu => ?_, fun u v z w hu hv hz => ?_⟩
  · by_cases hut : u = t
    · subst hut
      obtain rfl := Option.some.inj (hself.symm.trans hu)
      exact hlk
    · rw [hne u hut] at hu
      rw [hother u hut]
      exact h.lk u z hu
  · by_cases hut : u = t
    · subst hut
      obtain rfl := Option.some.inj (hself.symm.trans hu)
      exact hapart
    · rw [hne u hut] at hu
      exact h.apart u z hu
  · by_cases hut : u = t
    · -- `t` has the write lock now: it had it, or found the lock free
      subst hut
      obtain rfl := Option.some.inj (hself.symm.trans hu)
      have hold : x.reads = 0 ∧ ∀ w', s.threads[v]? = some w' → w'.reads = 0 ∧ (w'.write = true → v = u) := by
        rcases hwrite hz with hx | ⟨hfree, -⟩
        · exact ⟨(h.alone u u x x ht ht hx).1, fun w' hw' => h.alone u v x w' ht hw' hx⟩
        · rw [free_iff] at hfree
          refine ⟨(hfree x (List.mem_of_getElem? ht)).1, fun w' hw' => ?_⟩
          obtain ⟨h0, hw⟩ := hfree w' (List.mem_of_getElem? hw')
          exact ⟨h0, fun hc => by rw [hw] at hc; cases hc⟩
      by_cases hvu : v = u
      · subst hvu
        obtain rfl := Option.some.inj (hself.symm.trans hv)
        refine ⟨?_, fun _ => rfl⟩
        rcases hreads with hle | hno
        · omega
        · rcases hwrite hz with hx | ⟨-, heq⟩
          · rw [noWriter_iff.1 hno x (List.mem_of_getElem? ht)] at hx
            cases hx
          · omega
      · rw [hne v hvu] at hv
        exact hold.2 w hv
    · rw [hne u hut] at hu
      by_cases hvt : v = t
      · subst hvt
        obtain rfl := Option.some.inj (hself.symm.trans hv)
        obtain ⟨h0, hx⟩ := h.alone u v z x hu ht hz
        refine ⟨?_, fun hw => ?_⟩
        · rcases hreads with hle | hno
          · omega
          · rw [noWriter_iff.1 hno z (List.mem_of_getElem? hu)] at hz
            cases hz
        · rcases hwrite hw with hw | ⟨hfree, -⟩
          · exact hx hw
          · rw [(free_iff.1 hfree z (List.mem_of_getElem? hu)).2] at hz
            cases hz
      · rw [hne v hvt] at hv
        exact h.alone u v z w hu hv hz

theorem LkInv.stay (h : s.LkInv) (ht : s.threads[t]? = some x) (hthreads : s'.threads = s.threads.set t y)
    (hlk : s'.lk = s.lk) (hhas : (y.write || y.ph.hasLk) = (x.write || x.ph.hasLk))
    (hapart : y.ph.hasLk = true → y.write = false)
    (hwrite : y.write = true → x.write = true ∨ (s.free = true ∧ y.reads = x.reads))
    (hreads : y.reads ≤ x.reads ∨ s.noWriter = true) : s'.LkInv := by
  refine h.move ht hthreads ?_ (fun u _ => by rw [hlk]) hapart hwrite hreads
  rw [hhas, hlk]
  exact h.lk t x ht

theorem LkInv.take (h : s.LkInv) (ht : s.threads[t]? = some x) (hthreads : s'.threads = s.threads.set t y)
    (hlk : s'.lk = some t) (hnone : s.lk = none) (hhas : y.ph.hasLk = true) (hwrite : y.write = x.write)
    (hreads : y.reads = x.reads) : s'.LkInv := by
  have hx : x.write = false := by
    have hno := (h.lk t x ht).not.2 (by simp [hnone])
    rw [Bool.or_eq_true, not_or, Bool.not_eq_true] at hno
    exact hno.1
  refine h.move ht hthreads ?_ (fun u hu => ?_) (fun _ => hwrite.trans hx) (fun hy => .inl (hwrite ▸ hy)) (.inl (Nat.le_of_eq hreads))
  · rw [hhas, hlk, Bool.or_true]
    simp
  · rw [hlk, hnone]
    simp [Ne.symm hu]

theorem LkInv.drop (h : s.LkInv) (ht : s.threads[t]? = some x) (hthreads : s'.threads = s.threads.set t y)
    (hlk : s'.lk = none) (hhad : x.ph.hasLk = true) (hhas : y.ph.hasLk = false) (hwrite : y.write = x.write)
    (hreads : y.reads = x.reads) : s'.LkInv := by
  have hy : y.write = false := hwrite.trans (h.apart t x ht hhad)
  have hold : s.lk = some t := (h.lk t x ht).1 (by rw [hhad, Bool.or_true])
  refine h.move ht hthreads ?_ (fun u hu => ?_) (fun _ => hy) (fun hc => ?_) (.inl (Nat.le_of_eq hreads))
  · rw [hy, hhas, hlk]
    simp
  · rw [hlk, hold]
    simp [Ne.symm hu]
  · rw [hy] at hc
    cases hc

theorem LkInv.call {op : KRwOp} (h : s.LkInv) (ht : s.threads[t]? = some x) (hidle : x.ph = .idle)
    (hs : s.call t x op = some s') : s'.LkInv := by
  have hwrite : ∀ y : KRwThread, y.write = x.write → y.write = true → x.write = true ∨ (s.free = true ∧ y.reads = x.reads) :=
    fun y hy h1 => .inl (hy ▸ h1)
  have hno : ∀ y : KRwThread, y.write = false → y.write = true → x.write = true ∨ (s.free = true ∧ y.reads = x.reads) :=
    fun y hy h1 => by rw [hy] at h1; cases h1
  rcases op <;> simp only [KRwSt.call, Option.ite_none_right_eq_some, Option.some.injEq] at hs
  case rdlock | tryrdlock | wrlock | trywrlock =>
    subst hs
    exact h.stay ht rfl rfl (by rw [hidle]; rfl) (fun hc => by cases hc) (hwrite _ rfl) (.inl (Nat.le_refl _))
  case rdunlock =>
    obtain ⟨-, rfl⟩ := hs
    exact h.stay ht rfl rfl rfl (fun hc => by rw [hidle] at hc; cases hc) (hwrite _ rfl) (.inl (Nat.sub_le _ _))
  case rd2wrlock =>
    obtain ⟨-, rfl⟩ := hs
    exact h.stay ht rfl rfl (by rw [hidle]; rfl) (fun hc => by cases hc) (hwrite _ rfl) (.inl (Nat.le_refl _))
  case wrunlock | wr2rdlock =>
    obtain ⟨hw, rfl⟩ := hs
    exact h.stay ht rfl rfl (by rw [hw]; rfl) (fun _ => rfl) (hno _ rfl) (.inl (Nat.le_refl _))

theorem LkInv.go {ok : Bool} (h : s.LkInv) (ht : s.threads[t]? = some x) (hs : s.go t x ok = some s') : s'.LkInv := by
  obtain ⟨ph, reads, write, upgrading⟩ := x
  have hkeep : ∀ y : KRwThread, y.write = write → y.write = true → write = true ∨ (s.free = true ∧ y.reads = reads) :=
    fun y hy h1 => .inl (hy ▸ h1)
  have hno : ph.hasLk = true → write = false := h.apart t _ ht
  rcases ph <;> simp only [KRwSt.go, Option.ite_none_right_eq_some, Option.some.injEq, reduceCtorEq] at hs
  case rdlock =>
    obtain ⟨hw, rfl⟩ := hs
    exact h.stay ht rfl rfl rfl (fun hc => by cases hc) (hkeep _ rfl) (.inr hw)
  case tryrdlock =>
    split_ifs at hs with hok hw <;> cases hs
    · exact h.stay ht rfl rfl rfl (fun hc => by cases hc) (hkeep _ rfl) (.inr hw)
    · exact h.stay ht rfl rfl rfl (fun hc => by cases hc) (hkeep _ rfl) (.inl (Nat.le_refl _))
  case want =>
    obtain ⟨hlk, rfl⟩ := hs
    exact h.take ht rfl rfl hlk rfl rfl rfl
  case attempt =>
    split_ifs at hs with hok hfree <;> cases hs
    · exact h.stay ht rfl rfl (Bool.or_true _).symm (fun hc => by cases hc) (fun _ => .inr ⟨hfree, rfl⟩)
        (.inl (Nat.le_refl _))
    · exact h.stay ht rfl rfl rfl (fun _ => hno rfl) (hkeep _ rfl) (.inl (Nat.le_refl _))
  case back retry =>
    subst hs
    exact h.drop ht rfl rfl rfl (by cases retry <;> rfl) rfl rfl
  case leave | dnUnlock =>
    subst hs
    exact h.drop ht rfl rfl rfl rfl rfl rfl
  case upTry =>
    split_ifs at hs with hok hlk <;> cases hs
    · exact h.take ht rfl rfl hlk rfl rfl rfl
    · exact h.stay ht rfl rfl rfl (fun hc => by cases hc) (hkeep _ rfl) (.inl (Nat.le_refl _))
  case upFailed =>
    split_ifs at hs <;> cases hs
    · exact ⟨h.lk, h.apart, h.alone⟩
    · exact h.stay ht rfl rfl rfl (fun hc => by cases hc) (hkeep _ rfl) (.inl (Nat.le_refl _))
  case upGot | dnCount =>
    subst hs
    exact h.stay ht rfl rfl rfl (fun _ => hno rfl) (hkeep _ rfl) (.inl (Nat.le_refl _))
  case upDrop =>
    subst hs
    exact h.stay ht rfl rfl rfl (fun _ => hno rfl) (hkeep _ rfl) (.inl (Nat.sub_le _ _))
  case upWait =>
    obtain ⟨hfree, rfl⟩ := hs
    exact h.stay ht rfl rfl (Bool.or_true _).symm (fun hc => by cases hc) (fun _ => .inr ⟨hfree, rfl⟩)
      (.inl (Nat.le_refl _))
  case dnWait =>
    obtain ⟨hw, rfl⟩ := hs
    exact h.stay ht rfl rfl rfl (fun _ => hno rfl) (hkeep _ rfl) (.inr hw)

theorem step_cases {a : KRwAct} (hs : s.step a = some s') : s.aborted = false ∧
    ((∃ t op x, a = .call t op ∧ s.threads[t]? = some x ∧ x.ph = .idle ∧ s.call t x op = some s') ∨
      ∃ t ok x, a = .go t ok ∧ s.threads[t]? = some x ∧ s.go t x ok = some s') := by
  simp only [step, Option.ite_none_left_eq_some, Bool.not_eq_true] at hs
  obtain ⟨hab, hs⟩ := hs
  refine ⟨hab, ?_⟩
  rcases hx : s.threads[a.thread]? with _ | x
  · rw [hx] at hs
    cases hs
  · rw [hx] at hs
    rcases a with ⟨t, op⟩ | ⟨t, ok⟩
    · simp only [Option.ite_none_right_eq_some] at hs
      exact .inl ⟨t, op, x, rfl, hx, hs.1, hs.2⟩
    · exact .inr ⟨t, ok, x, rfl, hx, hs⟩

theorem LkInv.step {a : KRwAct} (h : s.LkInv) (hs : s.step a = some s') : s'.LkInv := by
  obtain ⟨-, ⟨t, op, x, -, hx, hidle, hs⟩ | ⟨t, ok, x, -, hx, hs⟩⟩ := step_cases hs
  · exact h.call hx hidle hs
  · exact h.go hx hs

theorem lkInv_init (n : Nat) : (init n).LkInv := by
  have hx : ∀ (t : Nat) (x : KRwThread), (init n).threads[t]? = some x → x = ⟨.idle, 0, false, false⟩ :=
    fun t x hx => (List.mem_replicate.1 (List.mem_of_getElem? hx)).2
  refine ⟨fun t x ht => ?_, fun t x ht hc => ?_, fun t u x y ht _ hw => ?_⟩ <;> obtain rfl := hx t x ht
  · simp [KRwPhase.hasLk, init]
  · cases hc
  · cases hw

/-- A step does nothing to the other threads. -/
theorem step_other {a : KRwAct} {u : Nat} (hs : s.step a = some s') (hu : a.thread ≠ u) : s'.threads[u]? = s.threads[u]? := by
  have hset : s'.threads = s.threads ∨ ∃ y, s'.threads = s.threads.set a.thread y := by
    obtain ⟨-, ⟨t, op, x, rfl, -, -, hs⟩ | ⟨t, ok, ⟨ph, reads, write, upgrading⟩, rfl, -, hs⟩⟩ := step_cases hs
    · rcases op <;> simp only [KRwSt.call, Option.ite_none_right_eq_some, Option.some.injEq] at hs
      case rdlock | tryrdlock | wrlock | trywrlock =>
        subst hs
        exact .inr ⟨_, rfl⟩
      all_goals
        obtain ⟨-, rfl⟩ := hs
        exact .inr ⟨_, rfl⟩
    · rcases ph <;> simp only [KRwSt.go, Option.ite_none_right_eq_some, Option.some.injEq, reduceCtorEq] at hs
      case rdlock | want | upWait | dnWait =>
        obtain ⟨-, rfl⟩ := hs
        exact .inr ⟨_, rfl⟩
      case upFailed =>
        split_ifs at hs <;> cases hs
        · exact .inl rfl
        · exact .inr ⟨_, rfl⟩
      case tryrdlock | attempt | upTry =>
        split_ifs at hs <;> cases hs <;> exact .inr ⟨_, rfl⟩
      all_goals
        subst hs
        exact .inr ⟨_, rfl⟩
  rcases hset with hset | ⟨y, hset⟩ <;> rw [hset]
  exact getElem?_set_ne hu

theorem LkInv.writes_eq_false (h : s.LkInv) {u : Nat} (hx : s.threads[u]? = some x) (hlk : (x.write || x.ph.hasLk) = true)
    (hne : t ≠ u) : s.writes t = false := by
  rw [h.lk u x hx] at hlk
  rw [writes, ← Bool.not_eq_true, Option.any_eq_true]
  rintro ⟨y, hy, hw⟩
  have hty := (h.lk t y hy).1 (by rw [hw, Bool.true_or])
  exact hne (Option.some.inj (hty.symm.trans hlk))

theorem between_iff {u : Nat} : s.between u = true ↔
    ∃ x, s.threads[u]? = some x ∧ (x.ph.midUpgrade = true ∨ x.ph = .dnWait) := by
  rw [between, Option.any_eq_true]
  simp only [Bool.or_eq_true, decide_eq_true_eq]

/-- Whoever stands in between keeps `lk` through any step. -/
theorem between_step {a : KRwAct} {u : Nat} (hu : s.between u = true) (hs : s.step a = some s') :
    ∃ y, s'.threads[u]? = some y ∧ (y.write || y.ph.hasLk) = true := by
  obtain ⟨x, hx, hph⟩ := between_iff.1 hu
  by_cases hau : a.thread = u
  · subst hau
    obtain ⟨-, ⟨t, op, z, rfl, hz, hidle, -⟩ | ⟨t, ok, z, rfl, hz, hs⟩⟩ := step_cases hs
    · obtain rfl := Option.some.inj (hx.symm.trans hz)
      rw [hidle] at hph
      rcases hph with hph | hph <;> cases hph
    · obtain rfl := Option.some.inj (hx.symm.trans hz)
      obtain ⟨ph, reads, write, upgrading⟩ := x
      have hself : ∀ y, (s.threads.set t y)[t]? = some y := fun y => getElem?_set_self hx
      rcases hph with hph | rfl
      · rcases ph <;> first | (cases hph; done) | skip
        all_goals simp only [KRwSt.go, Option.ite_none_right_eq_some, Option.some.injEq] at hs
        case upGot | upDrop => exact ⟨_, by rw [← hs]; exact hself _, Bool.or_true _⟩
        case upWait => exact ⟨_, by rw [← hs.2]; exact hself _, rfl⟩
      · simp only [KRwSt.go, Option.ite_none_right_eq_some, Option.some.injEq] at hs
        exact ⟨_, by rw [← hs.2]; exact hself _, Bool.or_true _⟩
  · exact ⟨x, by rw [step_other hs hau]; exact hx, by rw [KRwPhase.hasLk_of_between hph, Bool.or_true]⟩

theorem LkInv.excludes (h : s.LkInv) : s.Excludes := by
  refine ⟨fun t u ht hu => ?_, fun t u hu hne => ?_, fun a s' t u hu hne hs => ?_⟩
  · obtain ⟨x, hx, hw⟩ := (Option.any_eq_true _ _).1 ht
    obtain ⟨y, hy, hheld⟩ := (Option.any_eq_true _ _).1 hu
    obtain ⟨h0, hyw⟩ := h.alone t u x y hx hy hw
    have hyw' : y.write = true := by simpa [h0] using hheld
    exact hyw hyw'
  · obtain ⟨x, hx, hph⟩ := between_iff.1 hu
    exact h.writes_eq_false hx (by rw [KRwPhase.hasLk_of_between hph, Bool.or_true]) hne
  · obtain ⟨y, hy, hlk⟩ := between_step hu hs
    exact (h.step hs).writes_eq_false hy hlk hne

/-! ### One upgrade at a time -/

/-- While `rd2wrlock_count` is set, the one reader that upgrades is past the loop of `k_rwlock_rd2wrlock`. -/
structure UpInv (s : KRwSt) : Prop where
  aborted : s.aborted = false
  one : ∀ (t u : Nat) (x y : KRwThread), s.threads[t]? = some x → s.threads[u]? = some y → x.upgrading = true →
    y.upgrading = true → t = u
  upgrading : ∀ (t : Nat) (x : KRwThread), s.threads[t]? = some x → (x.ph.inLoop || x.ph.midUpgrade) = true →
    x.upgrading = true
  count : s.rd2wrlockCount ≠ 0 → ∃ (t : Nat) (x : KRwThread), s.threads[t]? = some x ∧ x.upgrading = true ∧ x.ph.inLoop = false
  reset : ∀ (t : Nat) (x : KRwThread), s.threads[t]? = some x → x.ph = .dnUnlock → s.rd2wrlockCount = 0

/-- The thread `t` goes from `x` to `y`, and with it `rd2wrlock_count`. -/
theorem UpInv.move (h : s.UpInv) (hlk : s.LkInv) (ht : s.threads[t]? = some x) (hthreads : s'.threads = s.threads.set t y)
    (haborted : s'.aborted = s.aborted) (hone : y.upgrading = true → x.upgrading = true ∨ ∀ x ∈ s.threads, x.upgrading = false)
    (hup : (y.ph.inLoop || y.ph.midUpgrade) = true → y.upgrading = true)
    (hcount : (y.upgrading = true ∧ y.ph.inLoop = false) ∨ s'.rd2wrlockCount = 0 ∨
      (s'.rd2wrlockCount = s.rd2wrlockCount ∧ (x.upgrading = true → x.ph.inLoop = true)))
    (hreset : y.ph = .dnUnlock → s'.rd2wrlockCount = 0)
    (hset : s'.rd2wrlockCount = s.rd2wrlockCount ∨ s'.rd2wrlockCount = 0 ∨ x.ph.hasLk = true) : s'.UpInv := by
  have hself : s'.threads[t]? = some y := by rw [hthreads]; exact getElem?_set_self ht
  have hne : ∀ u, u ≠ t → s'.threads[u]? = s.threads[u]? := fun u hu => by
    rw [hthreads]
    exact getElem?_set_ne (Ne.symm hu)
  have hpair : ∀ (u : Nat) (z : KRwThread), u ≠ t → s'.threads[u]? = some z → z.upgrading = true → y.upgrading = false := by
    intro u z hu hz hzu
    rw [hne u hu] at hz
    by_contra hy
    rcases hone (by simpa using hy) with hx | hall
    · exact hu (h.one u t z x hz ht hzu hx)
    · rw [hall z (List.mem_of_getElem? hz)] at hzu
      cases hzu
  refine ⟨haborted.trans h.aborted, fun u v z w hu hv hz hw => ?_, fun u z hu => ?_, fun hc => ?_, fun u z hu hz => ?_⟩
  · by_cases hut : u = t <;> by_cases hvt : v = t
    · rw [hut, hvt]
    · subst hut
      obtain rfl := Option.some.inj (hself.symm.trans hu)
      rw [hpair v w hvt hv hw] at hz
      cases hz
    · subst hvt
      obtain rfl := Option.some.inj (hself.symm.trans hv)
      rw [hpair u z hut hu hz] at hw
      cases hw
    · exact h.one u v z w (hne u hut ▸ hu) (hne v hvt ▸ hv) hz hw
  · by_cases hut : u = t
    · subst hut
      obtain rfl := Option.some.inj (hself.symm.trans hu)
      exact hup
    · exact h.upgrading u z (hne u hut ▸ hu)
  · rcases hcount with hy | h0 | ⟨heq, hx⟩
    · exact ⟨t, y, hself, hy⟩
    · exact absurd h0 hc
    · obtain ⟨u, z, hu, hz, hloop⟩ := h.count (heq ▸ hc)
      have hut : u ≠ t := by
        rintro rfl
        obtain rfl := Option.some.inj (ht.symm.trans hu)
        rw [hx hz] at hloop
        cases hloop
      exact ⟨u, z, (hne u hut).trans hu, hz, hloop⟩
  · by_cases hut : u = t
    · subst hut
      obtain rfl := Option.some.inj (hself.symm.trans hu)
      exact hreset hz
    · rw [hne u hut] at hu
      rcases hset with heq | h0 | hx
      · rw [heq]
        exact h.reset u z hu hz
      · exact h0
      · -- both would have `lk`
        have h1 := (hlk.lk t x ht).1 (by rw [hx, Bool.or_true])
        have h2 := (hlk.lk u z hu).1 (by rw [hz]; exact Bool.or_true _)
        exact absurd (Option.some.inj (h2.symm.trans h1)) hut

theorem UpInv.stay (h : s.UpInv) (hlk : s.LkInv) (ht : s.threads[t]? = some x) (hthreads : s'.threads = s.threads.set t y)
    (haborted : s'.aborted = s.aborted) (hcount : s'.rd2wrlockCount = s.rd2wrlockCount)
    (hupgrading : y.upgrading = x.upgrading) (hloop : y.ph.inLoop = false)
    (hmid : y.ph.midUpgrade = true → x.ph.midUpgrade = true) (hne : y.ph ≠ .dnUnlock) : s'.UpInv := by
  refine h.move hlk ht hthreads haborted (fun hy => .inl (hupgrading ▸ hy)) (fun hy => ?_) ?_ (fun hc => absurd hc hne)
    (.inl hcount)
  · rw [hloop, Bool.false_or] at hy
    rw [hupgrading]
    exact h.upgrading t x ht (by rw [hmid hy, Bool.or_true])
  · rcases hx : x.upgrading
    · exact .inr (.inr ⟨hcount, fun hc => by cases hc⟩)
    · exact .inl ⟨hupgrading.trans hx, hloop⟩

theorem UpInv.call {op : KRwOp} (h : s.UpInv) (hlk : s.LkInv) (hok : s.OneUpgrade (.call t op))
    (ht : s.threads[t]? = some x) (hidle : x.ph = .idle) (hs : s.call t x op = some s') : s'.UpInv := by
  rcases op <;> simp only [KRwSt.call, Option.ite_none_right_eq_some, Option.some.injEq] at hs
  case rdlock | tryrdlock | wrlock | trywrlock =>
    subst hs
    exact h.stay hlk ht rfl rfl rfl rfl rfl (fun hc => by cases hc) KRwPhase.noConfusion
  case rdunlock =>
    obtain ⟨-, rfl⟩ := hs
    exact h.stay hlk ht rfl rfl rfl rfl (by rw [hidle]; rfl) id (by rw [hidle]; exact KRwPhase.noConfusion)
  case wrunlock | wr2rdlock =>
    obtain ⟨-, rfl⟩ := hs
    exact h.stay hlk ht rfl rfl rfl rfl rfl (fun hc => by cases hc) KRwPhase.noConfusion
  case rd2wrlock =>
    obtain ⟨-, rfl⟩ := hs
    have hnone : ∀ x ∈ s.threads, x.upgrading = false := hok rfl
    refine h.move hlk ht rfl rfl (fun _ => .inr hnone) (fun _ => rfl) (.inr (.inr ⟨rfl, fun hx => ?_⟩)) KRwPhase.noConfusion
      (.inl rfl)
    rw [hnone x (List.mem_of_getElem? ht)] at hx
    cases hx

theorem UpInv.go {ok : Bool} (h : s.UpInv) (hlk : s.LkInv) (ht : s.threads[t]? = some x) (hs : s.go t x ok = some s') :
    s'.UpInv := by
  obtain ⟨ph, reads, write, upgrading⟩ := x
  have hup : (ph.inLoop || ph.midUpgrade) = true → upgrading = true := h.upgrading t _ ht
  rcases ph <;> simp only [KRwSt.go, Option.ite_none_right_eq_some, Option.some.injEq, reduceCtorEq] at hs
  case rdlock | want | upWait | dnWait =>
    obtain ⟨-, rfl⟩ := hs
    exact h.stay hlk ht rfl rfl rfl rfl rfl (fun hc => by cases hc) KRwPhase.noConfusion
  case tryrdlock | attempt =>
    split_ifs at hs <;> cases hs <;>
      exact h.stay hlk ht rfl rfl rfl rfl rfl (fun hc => by cases hc) KRwPhase.noConfusion
  case back retry =>
    subst hs
    cases retry <;> exact h.stay hlk ht rfl rfl rfl rfl rfl (fun hc => by cases hc) KRwPhase.noConfusion
  case leave =>
    subst hs
    exact h.stay hlk ht rfl rfl rfl rfl rfl (fun hc => by cases hc) KRwPhase.noConfusion
  case upTry =>
    split_ifs at hs <;> cases hs
    · exact h.move hlk ht rfl rfl .inl (fun _ => hup rfl) (.inl ⟨hup rfl, rfl⟩) KRwPhase.noConfusion (.inl rfl)
    · exact h.move hlk ht rfl rfl .inl (fun _ => hup rfl) (.inr (.inr ⟨rfl, fun _ => rfl⟩)) KRwPhase.noConfusion (.inl rfl)
  case upFailed =>
    split_ifs at hs with hcount <;> cases hs
    · -- the reader that has set the count would be another one
      obtain ⟨u, z, hu, hz, hloop⟩ := h.count hcount
      obtain rfl := h.one t u _ z ht hu (hup rfl) hz
      obtain rfl := Option.some.inj (ht.symm.trans hu)
      cases hloop
    · exact h.move hlk ht rfl rfl .inl (fun _ => hup rfl) (.inr (.inr ⟨rfl, fun _ => rfl⟩)) KRwPhase.noConfusion (.inl rfl)
  case upGot =>
    subst hs
    exact h.move hlk ht rfl rfl .inl (fun _ => hup rfl) (.inl ⟨hup rfl, rfl⟩) KRwPhase.noConfusion (.inr (.inr rfl))
  case upDrop =>
    subst hs
    exact h.stay hlk ht rfl rfl rfl rfl rfl (fun _ => rfl) KRwPhase.noConfusion
  case dnCount =>
    subst hs
    exact h.move hlk ht rfl rfl .inl (fun hc => by cases hc) (.inr (.inl rfl)) (fun _ => rfl) (.inr (.inl rfl))
  case dnUnlock =>
    subst hs
    have h0 := h.reset t _ ht rfl
    exact h.move hlk ht rfl rfl (fun hc => by cases hc) (fun hc => by cases hc) (.inr (.inl h0)) KRwPhase.noConfusion
      (.inl rfl)

theorem UpInv.step {a : KRwAct} (h : s.UpInv) (hlk : s.LkInv) (hok : s.OneUpgrade a) (hs : s.step a = some s') :
    s'.UpInv := by
  obtain ⟨-, ⟨t, op, x, rfl, hx, hidle, hs⟩ | ⟨t, ok, x, -, hx, hs⟩⟩ := step_cases hs
  · exact h.call hlk hok hx hidle hs
  · exact h.go hlk hx hs

theorem upInv_init (n : Nat) : (init n).UpInv := by
  have hx : ∀ (t : Nat) (x : KRwThread), (init n).threads[t]? = some x → x = ⟨.idle, 0, false, false⟩ :=
    fun t x hx => (List.mem_replicate.1 (List.mem_of_getElem? hx)).2
  refine ⟨rfl, fun t u x y ht _ hc => ?_, fun t x ht hc => ?_, fun hc => absurd rfl hc, fun t x ht hc => rfl⟩ <;>
    obtain rfl := hx t x ht <;> cases hc

/-- In any interleaving of the functions of the lock a writer is alone, and nobody else gets the write lock while a thread
changes from reader to writer or back. If no two readers upgrade at a time, `k_rwlock_rd2wrlock` does not abort. -/
theorem upgrade_excludes {n : Nat} {as : List KRwAct} (hrun : exec step (init n) as = some s) :
    s.Excludes ∧ (Along step OneUpgrade (init n) as → s.aborted = false) := by
  refine ⟨(exec_invariant_all (fun s a s' h => h.step) (lkInv_init n) hrun).excludes, fun hone => ?_⟩
  have hboth : s.LkInv ∧ s.UpInv := exec_invariant (I := fun s => s.LkInv ∧ s.UpInv)
    (fun s a s' h hok hs => ⟨h.1.step hs, h.2.step h.1 hok hs⟩) ⟨lkInv_init n, upInv_init n⟩ hone hrun
  exact hboth.2.aborted

/-- A reader upgrades while another thread wants to write: at the end it has given up the read lock and waits. -/
theorem upgrade_excludes_upWait : ∃ s : KRwSt,
    exec step (init 2) [.call 0 .rdlock, .go 0 true, .call 1 .wrlock, .go 1 true, .go 1 false, .call 0 .rd2wrlock,
      .go 0 false, .go 0 true, .go 1 true, .go 0 true, .go 0 true, .go 0 true] = some s ∧ s.between 0 = true ∧
    s.Excludes ∧ s.aborted = false := by
  have hrun : (exec step (init 2) [.call 0 .rdlock, .go 0 true, .call 1 .wrlock, .go 1 true, .go 1 false, .call 0 .rd2wrlock,
      .go 0 false, .go 0 true, .go 1 true, .go 0 true, .go 0 true, .go 0 true]).any (fun s => s.between 0) = true := by
    decide +kernel
  obtain ⟨s, hs, hb⟩ := (Option.any_eq_true _ _).1 hrun
  have hex := upgrade_excludes hs
  exact ⟨s, hs, hb, hex.1, hex.2 (by decide +kernel)⟩

end KRwSt

end Aosl
