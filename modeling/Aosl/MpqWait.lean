import Aosl.Lib.Lists
import Aosl.Lib.Steps

/-!
# The waiters of a destroyed queue, `__mpq_add_wait` and `__q_wait_destroy`

One queue with its thread, and any number of threads that wait for its end. `mpq_do_wait` links an entry on
its stack into the queue while it holds a reference; `__mpqp_shrink` and `__mpqp_shrink_all`, which take the
queue out of its pool, link theirs without one, and only then set `terminated`. The thread of the queue
uninstalls the id, waits until no reference is left, reads the head of the list without the lock, destroys
the queue, and marks the entries.

A queue of a pool is one that only the pool may destroy; for this queue the two shrink functions do the same
things in the same order, so they are one here. An entry is its place in the list of all that were linked;
it is `gone` when its thread has returned from `__mpq_destroy_wait`. `fault`: something was used after its
end.
-/

namespace Aosl
open Lib

structure WaitEntry where
  /-- How often `__MPQ_DESTROY_DONE` was stored. -/
  marks : Nat
  gone : Bool
deriving DecidableEq

/-- Where a thread is. -/
inductive WaitPhase where
  | idle
  /-- In `mpq_do_wait` or, without an entry, in `mpq_destroy`, with a reference; `issue`: it is to destroy the queue. -/
  | got (entry issue : Bool)
  | linked (e : Nat) (issue : Bool)
  /-- In a shrink function, with the queue taken out of the pool. -/
  | taken (wait : Bool)
  /-- There before `____q_get`, and after it. -/
  | added (e : Option Nat)
  | ref (e : Option Nat)
  /-- Before `__mpq_put` or `____q_put`. -/
  | put (e : Option Nat)
  | waiting (e : Nat)
  /-- Any other use of the queue, between `__mpq_get` or `__mpqp_best_q_get` and the put. -/
  | held
deriving DecidableEq

/-- Where the thread of the queue is. -/
inductive EndPhase where
  | run
  -- `__q_wait_destroy`
  | uninstall
  | spin
  | funcs
  | head
  | destroy (wait : Option Nat)
  | walk (wait : Option Nat)
  | mark (wait : Nat) (next : Option Nat)
  | returned
deriving DecidableEq

structure WaitSt where
  /-- The queue was created for a pool. -/
  pool : Bool
  inTable : Bool
  installed : Bool
  usage : Nat
  terminated : Bool
  freed : Bool
  waits : List WaitEntry
  threads : List WaitPhase
  owner : EndPhase
  fault : Bool
deriving DecidableEq

inductive WaitOp where
  /-- `aosl_mpq_wait` and `aosl_mpq_destroy_wait`. -/
  | wait (issue : Bool)
  | destroy
  /-- `__mpq_get` and `__mpqp_best_q_get`. -/
  | get
  | bestQGet
  /-- `__mpqp_shrink` and `__mpqp_shrink_all`. -/
  | shrink (wait : Bool)
deriving DecidableEq

inductive WaitAct where
  | call (t : Nat) (op : WaitOp)
  | go (t : Nat)
  /-- The thread of the queue goes on. -/
  | owner
  /-- `init` has failed on the thread of the queue. -/
  | failInit
deriving DecidableEq

namespace WaitPhase

/-- The thread has a reference. -/
def holds : WaitPhase → Bool
  | got _ _ | linked _ _ | ref _ | put _ | held => true
  | _ => false

/-- In a shrink function, before `__mpq_destroy`. -/
def shrinking : WaitPhase → Bool
  | taken _ | added _ | ref _ => true
  | _ => false

/-- Without an entry there is nothing to wait for. -/
def afterPut : Option Nat → WaitPhase
  | some e => waiting e
  | none => idle

/-- The entry that the thread has linked and not given up. -/
def entry : WaitPhase → Option Nat
  | linked e _ | waiting e => some e
  | added e | ref e | put e => e
  | _ => none

end WaitPhase

namespace EndPhase

/-- The head of the list has been read. -/
def hasRead : EndPhase → Bool
  | destroy _ | walk _ | mark _ _ | returned => true
  | _ => false

/-- `__q_destroy` is done. -/
def ended : EndPhase → Bool
  | walk _ | mark _ _ | returned => true
  | _ => false

/-- The loop on `q->usage` has ended. -/
def alone : EndPhase → Bool
  | funcs | head => true
  | ph => ph.hasRead

end EndPhase

namespace WaitSt

def init (pool : Bool) (n : Nat) : WaitSt :=
  ⟨pool, pool, true, 1, false, false, [], List.replicate n .idle, .run, false⟩

/-- The queue is used. -/
def touch (s : WaitSt) : WaitSt := { s with fault := s.fault || s.freed }

def goTo (s : WaitSt) (t : Nat) (ph : WaitPhase) : WaitSt := { s with threads := s.threads.set t ph }

/-- `__mpq_add_wait`. -/
def addWait (s : WaitSt) : WaitSt := { s.touch with waits := s.waits ++ [⟨0, false⟩] }

def call (s : WaitSt) (t : Nat) : WaitOp → Option WaitSt
  -- without the id, `AOSL_EINVAL`
  | .wait issue => if s.installed then some { s.touch.goTo t (.got true issue) with usage := s.usage + 1 } else some s
  | .destroy => if s.installed then some { s.touch.goTo t (.got false true) with usage := s.usage + 1 } else some s
  | .get => if s.installed then some { s.touch.goTo t .held with usage := s.usage + 1 } else some s
  | .bestQGet => if s.inTable then some { s.touch.goTo t .held with usage := s.usage + 1 } else none
  | .shrink wait => if s.inTable then some { s.goTo t (.taken wait) with inTable := false } else none

def go (s : WaitSt) (t : Nat) : WaitPhase → Option WaitSt
  | .idle => none
  | .got entry issue =>
    -- `AOSL_EPERM`
    if issue ∧ s.pool then some (s.goTo t (.put none))
    else if entry then some (s.addWait.goTo t (.linked s.waits.length issue))
    else some { s.touch.goTo t (.put none) with terminated := s.terminated || issue }
  | .linked e issue => some { s.touch.goTo t (.put (some e)) with terminated := s.terminated || issue }
  | .taken wait =>
    if wait then some (s.addWait.goTo t (.added (some s.waits.length))) else some (s.goTo t (.added none))
  | .added e => some { s.touch.goTo t (.ref e) with usage := s.usage + 1 }
  | .ref e => some { s.touch.goTo t (.put e) with terminated := true }
  | .put e => some { s.touch.goTo t (.afterPut e) with usage := s.usage - 1 }
  | .waiting e => match s.waits[e]? with
    | some w => if 0 < w.marks then some { s.goTo t .idle with waits := s.waits.set e { w with gone := true } } else none
    | none => none
  | .held => some { s.touch.goTo t .idle with usage := s.usage - 1 }

/-- The entry after `k` in the list. -/
def next (s : WaitSt) (k : Nat) : Option Nat := if k < s.waits.length then some k else none

/-- The entry `k` is used. -/
def touchEntry (s : WaitSt) (k : Nat) : WaitSt := { s with fault := s.fault || s.waits[k]?.all WaitEntry.gone }

def ownerStep (s : WaitSt) : Option WaitSt :=
  match s.owner with
  | .run => some { s with owner := if s.terminated then .uninstall else .run }
  | .uninstall => some { s with installed := false, owner := .spin }
  | .spin => some { s with owner := if s.usage > 1 then .spin else .funcs }
  | .funcs => some { s with owner := .head }
  | .head => some { s with owner := .destroy (s.next 0) }
  | .destroy wait => some { s with freed := true, owner := .walk wait }
  | .walk none => some { s with owner := .returned }
  | .walk (some k) => some { s.touchEntry k with owner := .mark k (s.next (k + 1)) }
  | .mark k next => some { s.touchEntry k with
      waits := s.waits.modify k fun w => { w with marks := w.marks + 1 }
      owner := .walk next }
  | .returned => none

def step (s : WaitSt) : WaitAct → Option WaitSt
  | .call t op => if s.threads[t]? = some .idle then s.call t op else none
  | .go t => match s.threads[t]? with
    | some ph => s.go t ph
    | none => none
  | .owner => s.ownerStep
  | .failInit => if s.owner = .run ∧ s.pool = false then some { s with terminated := true } else none

/-- No waiter is lost: no entry is marked twice, or before the queue is destroyed; once its thread has gone through the list
all are marked and those who wait can return; it comes to that end by its own steps; and after it has read the head no step
links another. -/
structure NoneLost (s : WaitSt) : Prop where
  once : ∀ w ∈ s.waits, w.marks ≤ 1
  after : ∀ w ∈ s.waits, 0 < w.marks → s.freed = true
  all : s.owner = .returned → ∀ w ∈ s.waits, w.marks = 1
  wakes : s.owner = .returned → ∀ (t e : Nat), s.threads[t]? = some (.waiting e) → (s.step (.go t)).isSome = true
  ends : s.owner.hasRead = true → ∃ k s', exec step s (List.replicate k .owner) = some s' ∧ s'.owner = .returned
  late : s.owner.hasRead = true → ∀ a s', s.step a = some s' → s'.waits.length = s.waits.length
  fault : s.fault = false

/-! ### Who may still use the queue -/

/-- The references are counted; a queue in its pool, or just out of it, is not terminated; and once the loop on the count has
ended nobody has a reference. -/
structure RefInv (s : WaitSt) : Prop where
  usage : s.usage = 1 + s.threads.countP WaitPhase.holds
  table : s.inTable = true → s.pool = true ∧ s.terminated = false ∧ ∀ ph ∈ s.threads, ph.shrinking = false
  shrink : ∀ (t : Nat) (ph : WaitPhase), s.threads[t]? = some ph → ph.shrinking = true →
    s.pool = true ∧ s.terminated = false ∧ ∀ (u : Nat) (ph' : WaitPhase), s.threads[u]? = some ph' → ph'.shrinking = true → u = t
  issue : ∀ e, WaitPhase.linked e true ∈ s.threads → s.pool = false
  started : s.owner ≠ .run → s.terminated = true
  installed : s.installed = true → s.owner = .run ∨ s.owner = .uninstall
  alone : s.owner.alone = true → s.threads.countP WaitPhase.holds = 0
  freed : s.freed = s.owner.ended

variable {s s' : WaitSt} {t : Nat} {ph ph' : WaitPhase}

theorem EndPhase.alone_of_hasRead {ph : EndPhase} (h : ph.hasRead = true) : ph.alone = true := by
  rcases ph <;> first | rfl | cases h

theorem EndPhase.alone_of_ended {ph : EndPhase} (h : ph.ended = true) : ph.alone = true := by
  rcases ph <;> first | rfl | cases h

/-- The thread `t` goes from `ph` to `ph'`. -/
theorem RefInv.move (h : s.RefInv) (ht : s.threads[t]? = some ph) (hthreads : s'.threads = s.threads.set t ph')
    (hpool : s'.pool = s.pool) (howner : s'.owner = s.owner) (hinstalled : s'.installed = s.installed)
    (hfreed : s'.freed = s.freed) (huse : s'.usage + ph.holds.toNat = s.usage + ph'.holds.toNat)
    (hget : ph'.holds = true → ph.holds = true ∨ s.owner.alone = false) (htable : s'.inTable = true → s.inTable = true)
    (hterm : s'.terminated = s.terminated ∨
      (s'.terminated = true ∧ (s.pool = false ∨ (ph.shrinking = true ∧ ph'.shrinking = false))))
    (hshrink : ph'.shrinking = true → ph.shrinking = true ∨ (s.inTable = true ∧ s'.inTable = false))
    (hissue : ∀ e, ph' = .linked e true → s.pool = false) : s'.RefInv := by
  have hself : s'.threads[t]? = some ph' := by rw [hthreads]; exact getElem?_set_self ht
  have hne : ∀ u, u ≠ t → s'.threads[u]? = s.threads[u]? := fun u hu => by
    rw [hthreads]
    exact getElem?_set_ne (Ne.symm hu)
  have hcount := countP_set_add ht WaitPhase.holds ph'
  have hbool : ∀ b : Bool, (if b = true then 1 else 0) = b.toNat := by decide
  rw [hbool, hbool, ← hthreads] at hcount
  have husage := h.usage
  have hmem := List.mem_of_getElem? ht
  -- where a thread that shrinks was before
  have hold : ∀ (u : Nat) (z : WaitPhase), s'.threads[u]? = some z → z.shrinking = true →
      (∃ y, s.threads[u]? = some y ∧ y.shrinking = true) ∨ (u = t ∧ s.inTable = true) := by
    intro u z hu hz
    by_cases hut : u = t
    · subst hut
      obtain rfl := Option.some.inj (hself.symm.trans hu)
      rcases hshrink hz with hsh | ⟨hin, -⟩
      · exact .inl ⟨ph, ht, hsh⟩
      · exact .inr ⟨rfl, hin⟩
    · rw [hne u hut] at hu
      exact .inl ⟨z, hu, hz⟩
  refine ⟨by omega, fun hin => ?_, fun u z hu hz => ?_, fun e he => ?_, fun hrun => ?_, ?_, fun halone => ?_, ?_⟩
  · obtain ⟨hp, hnot, hnone⟩ := h.table (htable hin)
    refine ⟨hpool.trans hp, ?_, fun z hz => ?_⟩
    · rcases hterm with heq | ⟨-, hp' | ⟨hsh, -⟩⟩
      · exact heq.trans hnot
      · rw [hp] at hp'
        cases hp'
      · rw [hnone ph hmem] at hsh
        cases hsh
    · rw [hthreads] at hz
      rcases List.mem_or_eq_of_mem_set hz with hz | rfl
      · exact hnone z hz
      · by_contra hsh
        rcases hshrink (by simpa using hsh) with hsh | ⟨-, hout⟩
        · rw [hnone ph hmem] at hsh
          cases hsh
        · rw [hout] at hin
          cases hin
  · obtain ⟨hp, hnot, hone⟩ : s.pool = true ∧ s.terminated = false ∧
        ∀ v y, s'.threads[v]? = some y → y.shrinking = true → v = u := by
      rcases hold u z hu hz with ⟨y, hy, hsh⟩ | ⟨rfl, hin⟩
      · obtain ⟨hp, hnot, hone⟩ := h.shrink u y hy hsh
        refine ⟨hp, hnot, fun v w hv hw => ?_⟩
        rcases hold v w hv hw with ⟨y', hy', hsh'⟩ | ⟨rfl, hin⟩
        · exact hone v y' hy' hsh'
        · rw [(h.table hin).2.2 y (List.mem_of_getElem? hy)] at hsh
          cases hsh
      · obtain ⟨hp, hnot, hnone⟩ := h.table hin
        refine ⟨hp, hnot, fun v w hv hw => ?_⟩
        rcases hold v w hv hw with ⟨y', hy', hsh'⟩ | ⟨rfl, -⟩
        · rw [hnone y' (List.mem_of_getElem? hy')] at hsh'
          cases hsh'
        · rfl
    refine ⟨hpool.trans hp, ?_, hone⟩
    rcases hterm with heq | ⟨-, hp' | ⟨hsh, hsh'⟩⟩
    · exact heq.trans hnot
    · rw [hp] at hp'
      cases hp'
    · -- the one that shrinks is done with it
      rcases hold u z hu hz with ⟨y, hy, hy'⟩ | ⟨rfl, hin⟩
      · obtain rfl := (h.shrink u y hy hy').2.2 t ph ht hsh
        obtain rfl := Option.some.inj (hself.symm.trans hu)
        rw [hsh'] at hz
        cases hz
      · rw [(h.table hin).2.2 ph hmem] at hsh
        cases hsh
  · rw [hthreads] at he
    rw [hpool]
    rcases List.mem_or_eq_of_mem_set he with he | he
    · exact h.issue e he
    · exact hissue e he.symm
  · rw [howner] at hrun
    rcases hterm with heq | ⟨hterm, -⟩
    · exact heq.trans (h.started hrun)
    · exact hterm
  · rw [hinstalled, howner]
    exact h.installed
  · rw [howner] at halone
    have h0 := h.alone halone
    have hph : ph.holds = false := by
      by_contra hc
      have := List.countP_eq_zero.1 h0 ph hmem
      exact this (by simpa using hc)
    have hph' : ph'.holds = false := by
      by_contra hc
      rcases hget (by simpa using hc) with hc | hc
      · rw [hph] at hc
        cases hc
      · rw [halone] at hc
        cases hc
    rw [hph, hph'] at hcount
    omega
  · rw [hfreed, howner]
    exact h.freed

theorem RefInv.not_freed (h : s.RefInv) (ht : s.threads[t]? = some ph) (hph : ph.holds = true ∨ ph.shrinking = true) :
    s.owner.alone = false := by
  by_contra hc
  rw [Bool.not_eq_false] at hc
  rcases hph with hph | hph
  · exact List.countP_eq_zero.1 (h.alone hc) ph (List.mem_of_getElem? ht) hph
  · have hrun : s.owner ≠ .run := by
      rintro hrun
      rw [hrun] at hc
      cases hc
    have hterm := h.started hrun
    rw [(h.shrink t ph ht hph).2.1] at hterm
    cases hterm

theorem RefInv.not_alone_of_installed (h : s.RefInv) (hin : s.installed = true) : s.owner.alone = false := by
  rcases h.installed hin with ho | ho <;> rw [ho] <;> rfl

theorem RefInv.not_alone_of_inTable (h : s.RefInv) (hin : s.inTable = true) : s.owner.alone = false := by
  have hrun : s.owner = .run := by
    by_contra hc
    have hterm := h.started hc
    rw [(h.table hin).2.1] at hterm
    cases hterm
  rw [hrun]
  rfl

theorem RefInv.call {op : WaitOp} (h : s.RefInv) (ht : s.threads[t]? = some .idle) (hs : s.call t op = some s') :
    s'.RefInv := by
  rcases op <;> simp only [WaitSt.call, Option.ite_none_right_eq_some] at hs
  case wait | destroy | get =>
    split_ifs at hs with hin <;> cases hs
    · exact h.move ht rfl rfl rfl rfl rfl rfl (fun _ => .inr (h.not_alone_of_installed hin)) id (.inl rfl)
        (fun hc => by cases hc) (fun e he => by cases he)
    · exact h
  case bestQGet =>
    obtain ⟨hin, ⟨⟩⟩ := hs
    exact h.move ht rfl rfl rfl rfl rfl rfl (fun _ => .inr (h.not_alone_of_inTable hin)) id (.inl rfl)
      (fun hc => by cases hc) (fun e he => by cases he)
  case shrink =>
    obtain ⟨hin, ⟨⟩⟩ := hs
    exact h.move ht rfl rfl rfl rfl rfl rfl (fun hc => by cases hc) (fun hc => by cases hc) (.inl rfl)
      (fun _ => .inr ⟨hin, rfl⟩) (fun e he => by cases he)

theorem RefInv.go (h : s.RefInv) (ht : s.threads[t]? = some ph) (hs : s.go t ph = some s') : s'.RefInv := by
  have husage := h.usage
  have hpos : ph.holds = true → 0 < s.threads.countP WaitPhase.holds :=
    fun hph => List.countP_pos_iff.2 ⟨ph, List.mem_of_getElem? ht, hph⟩
  have hissues : ∀ (issue : Bool) {P : Prop}, (issue = true → s.pool = false) → (s.terminated || issue) = s.terminated ∨
      ((s.terminated || issue) = true ∧ (s.pool = false ∨ P)) := by
    intro issue P hpool
    rcases issue
    · exact .inl (Bool.or_false _)
    · exact .inr ⟨Bool.or_true _, .inl (hpool rfl)⟩
  rcases ph <;> simp only [WaitSt.go, Option.some.injEq, reduceCtorEq] at hs
  case got entry issue =>
    by_cases hperm : issue = true ∧ s.pool = true
    · rw [if_pos hperm] at hs
      cases hs
      exact h.move ht rfl rfl rfl rfl rfl rfl (fun _ => .inl rfl) id (.inl rfl) (fun hc => by cases hc)
        (fun e he => by cases he)
    · rw [if_neg hperm] at hs
      split_ifs at hs with hentry <;> cases hs
      · refine h.move ht rfl rfl rfl rfl rfl rfl (fun _ => .inl rfl) id (.inl rfl) (fun hc => by cases hc) (fun e he => ?_)
        cases he
        simpa using hperm
      · refine h.move ht rfl rfl rfl rfl rfl rfl (fun _ => .inl rfl) id ?_ (fun hc => by cases hc) (fun e he => by cases he)
        refine hissues issue fun hissue => ?_
        rw [hissue] at hperm
        simpa using hperm
  case linked e issue =>
    subst hs
    refine h.move ht rfl rfl rfl rfl rfl rfl (fun _ => .inl rfl) id ?_ (fun hc => by cases hc) (fun e he => by cases he)
    refine hissues issue fun hissue => ?_
    rw [hissue] at ht
    exact h.issue e (List.mem_of_getElem? ht)
  case taken wait =>
    split_ifs at hs <;> cases hs <;>
      exact h.move ht rfl rfl rfl rfl rfl rfl (fun hc => by cases hc) id (.inl rfl) (fun _ => .inl rfl)
        (fun e he => by cases he)
  case added e =>
    subst hs
    exact h.move ht rfl rfl rfl rfl rfl rfl (fun _ => .inr (h.not_freed ht (.inr rfl))) id (.inl rfl) (fun _ => .inl rfl)
      (fun e he => by cases he)
  case ref e =>
    subst hs
    exact h.move ht rfl rfl rfl rfl rfl rfl (fun _ => .inl rfl) id (.inr ⟨rfl, .inr ⟨rfl, rfl⟩⟩) (fun hc => by cases hc)
      (fun e he => by cases he)
  case put e =>
    subst hs
    have hph : (WaitPhase.afterPut e).holds = false ∧ (WaitPhase.afterPut e).shrinking = false ∧
        ∀ k, WaitPhase.afterPut e ≠ .linked k true := by
      rcases e with _ | e <;> exact ⟨rfl, rfl, fun _ => WaitPhase.noConfusion⟩
    refine h.move ht rfl rfl rfl rfl rfl ?_ (fun hc => ?_) id (.inl rfl) (fun hc => ?_) (fun k hk => absurd hk (hph.2.2 k))
    · have := hpos rfl
      rw [hph.1]
      show s.usage - 1 + 1 = s.usage + 0
      omega
    · rw [hph.1] at hc
      cases hc
    · rw [hph.2.1] at hc
      cases hc
  case waiting e =>
    rcases hw : s.waits[e]? with _ | w <;> simp only [hw, Option.ite_none_right_eq_some, reduceCtorEq] at hs
    obtain ⟨-, ⟨⟩⟩ := hs
    exact h.move ht rfl rfl rfl rfl rfl rfl (fun hc => by cases hc) id (.inl rfl) (fun hc => by cases hc)
      (fun e he => by cases he)
  case held =>
    subst hs
    have := hpos rfl
    refine h.move ht rfl rfl rfl rfl rfl ?_ (fun hc => by cases hc) id (.inl rfl) (fun hc => by cases hc)
      (fun k hk => by cases hk)
    show s.usage - 1 + 1 = s.usage + 0
    omega

theorem RefInv.goOwner (h : s.RefInv) (hpool : s'.pool = s.pool) (htable : s'.inTable = s.inTable)
    (hthreads : s'.threads = s.threads) (husage : s'.usage = s.usage) (hterm : s'.terminated = s.terminated)
    (hstarted : s'.owner ≠ .run → s.terminated = true) (hinstalled : s'.installed = true → s.installed = true ∧
      (s'.owner = .run ∨ s'.owner = .uninstall)) (halone : s'.owner.alone = true → s.owner.alone = true ∨ s.usage ≤ 1)
    (hfreed : s'.freed = s'.owner.ended) : s'.RefInv := by
  refine ⟨?_, ?_, ?_, ?_, fun hrun => hterm.trans (hstarted hrun), fun hin => (hinstalled hin).2, fun hal => ?_, hfreed⟩
  · rw [husage, hthreads]
    exact h.usage
  · rw [htable, hpool, hterm, hthreads]
    exact h.table
  · rw [hpool, hterm, hthreads]
    exact h.shrink
  · rw [hpool, hthreads]
    exact h.issue
  · rw [hthreads]
    rcases halone hal with hal | hle
    · exact h.alone hal
    · have := h.usage
      omega

theorem RefInv.goLate (h : s.RefInv) (hpool : s'.pool = s.pool) (htable : s'.inTable = s.inTable)
    (hthreads : s'.threads = s.threads) (husage : s'.usage = s.usage) (hterm : s'.terminated = s.terminated)
    (hin : s'.installed = s.installed) (hlate : s.owner ≠ .run ∧ s.owner ≠ .uninstall)
    (halone : s'.owner.alone = true → s.owner.alone = true ∨ s.usage ≤ 1) (hfreed : s'.freed = s'.owner.ended) :
    s'.RefInv := by
  refine h.goOwner hpool htable hthreads husage hterm (fun _ => h.started hlate.1) (fun hi => ?_) halone hfreed
  rcases h.installed (hin.symm.trans hi) with hc | hc
  exacts [absurd hc hlate.1, absurd hc hlate.2]

theorem RefInv.ownerStep (h : s.RefInv) (hs : s.ownerStep = some s') : s'.RefInv := by
  have hfreed := h.freed
  unfold WaitSt.ownerStep at hs
  rcases howner : s.owner with _ | _ | _ | _ | _ | wait | _ | ⟨k, next⟩ | _ <;> rw [howner] at hs hfreed
  case run =>
    cases hs
    rcases hterm : s.terminated
    · exact h.goOwner rfl rfl rfl rfl hterm.symm (fun hc => absurd rfl hc) (fun hin => ⟨hin, .inl rfl⟩)
        (fun hc => by cases hc) hfreed
    · exact h.goOwner rfl rfl rfl rfl hterm.symm (fun _ => hterm) (fun hin => ⟨hin, .inr rfl⟩) (fun hc => by cases hc)
        hfreed
  case uninstall =>
    cases hs
    have hterm : s.terminated = true := h.started (by rw [howner]; exact EndPhase.noConfusion)
    exact h.goOwner rfl rfl rfl rfl rfl (fun _ => hterm) (fun hin => by cases hin) (fun hc => by cases hc) hfreed
  case returned => cases hs
  all_goals
    have hlate : s.owner ≠ .run ∧ s.owner ≠ .uninstall := by
      rw [howner]
      exact ⟨EndPhase.noConfusion, EndPhase.noConfusion⟩
  case spin =>
    cases hs
    by_cases huse : s.usage > 1
    · simp only [if_pos huse]
      exact h.goLate rfl rfl rfl rfl rfl rfl hlate (fun hc => by cases hc) hfreed
    · simp only [if_neg huse]
      exact h.goLate rfl rfl rfl rfl rfl rfl hlate (fun _ => .inr (by omega)) hfreed
  case walk next =>
    rcases next with _ | k <;> cases hs <;>
      exact h.goLate rfl rfl rfl rfl rfl rfl hlate (fun _ => .inl (by rw [howner]; rfl)) hfreed
  case funcs | head | mark =>
    cases hs
    exact h.goLate rfl rfl rfl rfl rfl rfl hlate (fun _ => .inl (by rw [howner]; rfl)) hfreed
  case destroy =>
    cases hs
    exact h.goLate rfl rfl rfl rfl rfl rfl hlate (fun _ => .inl (by rw [howner]; rfl)) rfl

theorem RefInv.step {a : WaitAct} (h : s.RefInv) (hs : s.step a = some s') : s'.RefInv := by
  rcases a with ⟨t, op⟩ | t | _ | _ <;> simp only [WaitSt.step] at hs
  · rw [Option.ite_none_right_eq_some] at hs
    exact h.call hs.1 hs.2
  · rcases ht : s.threads[t]? with _ | ph <;> simp only [ht, reduceCtorEq] at hs
    exact h.go ht hs
  · exact h.ownerStep hs
  · rw [Option.ite_none_right_eq_some] at hs
    obtain ⟨⟨hrun, hpool⟩, ⟨⟩⟩ := hs
    have hno : s.pool = true → False := fun hc => by rw [hpool] at hc; cases hc
    exact ⟨h.usage, fun hin => (hno (h.table hin).1).elim, fun t ph ht hph => (hno (h.shrink t ph ht hph).1).elim, h.issue,
      fun _ => rfl, h.installed, h.alone, h.freed⟩

/-! ### Which entries are marked -/

/-- How many entries the thread of the queue has marked. -/
def marked (s : WaitSt) : Nat :=
  match s.owner with
  | .walk (some k) => k
  | .mark k _ => k
  | .walk none => s.waits.length
  | .returned => s.waits.length
  | _ => 0

/-- The pointers in its hands are those of the list. -/
def Placed (s : WaitSt) : Prop :=
  match s.owner with
  | .destroy wait => wait = s.next 0
  | .walk (some k) => k < s.waits.length
  | .mark k next => k < s.waits.length ∧ next = s.next (k + 1)
  | _ => True

structure EntInv (s : WaitSt) : Prop where
  own : ∀ ph ∈ s.threads, ∀ e, ph.entry = some e → e < s.waits.length
  gone : ∀ w ∈ s.waits, w.gone = true → 0 < w.marks
  marks : ∀ (e : Nat) (w : WaitEntry), s.waits[e]? = some w → w.marks = if e < s.marked then 1 else 0
  placed : s.Placed
  fault : s.fault = false

theorem marked_congr (howner : s'.owner = s.owner) (hlen : s'.waits.length = s.waits.length) : s'.marked = s.marked := by
  simp only [marked, howner, hlen]

theorem Placed.congr (h : s.Placed) (howner : s'.owner = s.owner) (hlen : s'.waits.length = s.waits.length) : s'.Placed := by
  simp only [Placed, next] at h ⊢
  rw [howner, hlen]
  exact h

theorem EntInv.move (h : s.EntInv) (ht : s.threads[t]? = some ph) (hthreads : s'.threads = s.threads.set t ph')
    (hwaits : s'.waits = s.waits) (howner : s'.owner = s.owner) (hentry : ph'.entry = ph.entry ∨ ph'.entry = none)
    (hfault : s'.fault = false) : s'.EntInv := by
  have hlen : s'.waits.length = s.waits.length := by rw [hwaits]
  refine ⟨fun z hz e he => ?_, by rw [hwaits]; exact h.gone, ?_, h.placed.congr howner hlen, hfault⟩
  · rw [hthreads] at hz
    rw [hwaits]
    rcases List.mem_or_eq_of_mem_set hz with hz | rfl
    · exact h.own z hz e he
    · rcases hentry with heq | hnone
      · exact h.own ph (List.mem_of_getElem? ht) e (heq ▸ he)
      · rw [hnone] at he
        cases he
  · rw [hwaits, marked_congr howner hlen]
    exact h.marks

/-- The thread `t` links an entry while nobody has read the head. -/
theorem EntInv.link (h : s.EntInv) (hread : s.owner.hasRead = false)
    (hthreads : s'.threads = s.threads.set t ph') (hwaits : s'.waits = s.waits ++ [⟨0, false⟩]) (howner : s'.owner = s.owner)
    (hentry : ∀ e, ph'.entry = some e → e = s.waits.length) (hfault : s'.fault = false) : s'.EntInv := by
  have hmarked : s.marked = 0 ∧ s'.marked = 0 ∧ s'.Placed := by
    unfold marked Placed
    rw [howner]
    rcases hph : s.owner <;> rw [hph] at hread <;> first | exact ⟨rfl, rfl, trivial⟩ | cases hread
  obtain ⟨h0, h0', hplaced⟩ := hmarked
  refine ⟨fun z hz e he => ?_, fun w hw hg => ?_, fun e w hw => ?_, hplaced, hfault⟩
  · rw [hthreads] at hz
    rw [hwaits, List.length_append, List.length_singleton]
    rcases List.mem_or_eq_of_mem_set hz with hz | rfl
    · exact Nat.lt_succ_of_lt (h.own z hz e he)
    · rw [hentry e he]
      exact Nat.lt_succ_self _
  · rw [hwaits] at hw
    rcases List.mem_append.1 hw with hw | hw
    · exact h.gone w hw hg
    · obtain rfl := List.mem_singleton.1 hw
      cases hg
  · have hmarks := h.marks e
    rw [h0] at hmarks
    rw [h0', if_neg (Nat.not_lt_zero e)]
    rw [hwaits, List.getElem?_append] at hw
    split_ifs at hw
    · simpa using hmarks w hw
    · rw [List.mem_singleton.1 (List.mem_of_getElem? hw)]

theorem EntInv.leave {e : Nat} {w : WaitEntry} (h : s.EntInv) (hw : s.waits[e]? = some w) (hpos : 0 < w.marks) :
    EntInv { s.goTo t .idle with waits := s.waits.set e { w with gone := true } } := by
  refine ⟨fun z hz k hk => ?_, fun z hz hg => ?_, fun k z hz => ?_, h.placed.congr rfl (List.length_set ..), h.fault⟩
  · rw [List.length_set]
    rcases List.mem_or_eq_of_mem_set hz with hz | rfl
    · exact h.own z hz k hk
    · cases hk
  · rcases List.mem_or_eq_of_mem_set hz with hz | rfl
    · exact h.gone z hz hg
    · exact hpos
  · have hmarked : WaitSt.marked { s.goTo t .idle with waits := s.waits.set e { w with gone := true } } = s.marked :=
      marked_congr rfl (List.length_set ..)
    rw [hmarked]
    rw [List.getElem?_set] at hz
    split_ifs at hz with hek
    · cases hz
      exact hek ▸ h.marks e w hw
    · exact h.marks k z hz

theorem EntInv.call {op : WaitOp} (h : s.EntInv) (href : s.RefInv) (ht : s.threads[t]? = some .idle)
    (hs : s.call t op = some s') : s'.EntInv := by
  have htouch : s.owner.alone = false → (s.fault || s.freed) = false := by
    intro halone
    rw [h.fault, href.freed, Bool.false_or, ← Bool.not_eq_true]
    exact fun hended => by rw [EndPhase.alone_of_ended hended] at halone; cases halone
  rcases op <;> simp only [WaitSt.call, Option.ite_none_right_eq_some] at hs
  case wait | destroy | get =>
    split_ifs at hs with hin <;> cases hs
    · exact h.move ht rfl rfl rfl (.inr rfl) (htouch (href.not_alone_of_installed hin))
    · exact h
  case bestQGet =>
    obtain ⟨hin, ⟨⟩⟩ := hs
    exact h.move ht rfl rfl rfl (.inr rfl) (htouch (href.not_alone_of_inTable hin))
  case shrink =>
    obtain ⟨hin, ⟨⟩⟩ := hs
    exact h.move ht rfl rfl rfl (.inr rfl) h.fault

theorem EntInv.go (h : s.EntInv) (href : s.RefInv) (ht : s.threads[t]? = some ph) (hs : s.go t ph = some s') :
    s'.EntInv := by
  have hread : ph.holds = true ∨ ph.shrinking = true → s.owner.hasRead = false := by
    intro hph
    have halone := href.not_freed ht hph
    rw [← Bool.not_eq_true]
    exact fun hread => by rw [EndPhase.alone_of_hasRead hread] at halone; cases halone
  have htouch : ph.holds = true ∨ ph.shrinking = true → (s.fault || s.freed) = false := by
    intro hph
    have halone := href.not_freed ht hph
    rw [h.fault, href.freed, Bool.false_or, ← Bool.not_eq_true]
    exact fun hended => by rw [EndPhase.alone_of_ended hended] at halone; cases halone
  rcases ph <;> simp only [WaitSt.go, Option.some.injEq, reduceCtorEq] at hs
  case got entry issue =>
    split_ifs at hs <;> cases hs
    · exact h.move ht rfl rfl rfl (.inr rfl) h.fault
    · exact h.link (hread (.inl rfl)) rfl rfl rfl (fun e he => (Option.some.inj he).symm) (htouch (.inl rfl))
    · exact h.move ht rfl rfl rfl (.inr rfl) (htouch (.inl rfl))
  case linked e issue =>
    subst hs
    exact h.move ht rfl rfl rfl (.inl rfl) (htouch (.inl rfl))
  case taken wait =>
    split_ifs at hs <;> cases hs
    · exact h.link (hread (.inr rfl)) rfl rfl rfl (fun e he => (Option.some.inj he).symm) (htouch (.inr rfl))
    · exact h.move ht rfl rfl rfl (.inr rfl) h.fault
  case added e =>
    subst hs
    exact h.move ht rfl rfl rfl (.inl rfl) (htouch (.inr rfl))
  case ref e =>
    subst hs
    exact h.move ht rfl rfl rfl (.inl rfl) (htouch (.inl rfl))
  case put e =>
    subst hs
    refine h.move ht rfl rfl rfl (.inl ?_) (htouch (.inl rfl))
    rcases e <;> rfl
  case waiting e =>
    rcases hw : s.waits[e]? with _ | w <;> simp only [hw, Option.ite_none_right_eq_some, reduceCtorEq] at hs
    obtain ⟨hpos, ⟨⟩⟩ := hs
    exact h.leave hw hpos
  case held =>
    subst hs
    exact h.move ht rfl rfl rfl (.inr rfl) (htouch (.inl rfl))

theorem EntInv.touchEntry (h : s.EntInv) {k : Nat} (hk : k < s.waits.length) (hmarked : s.marked = k) :
    (s.touchEntry k).fault = false := by
  have hw : s.waits[k]? = some s.waits[k] := List.getElem?_eq_getElem hk
  have hmarks := h.marks k _ hw
  rw [hmarked, if_neg (Nat.lt_irrefl k)] at hmarks
  have hgone : s.waits[k].gone = false := by
    by_contra hg
    have := h.gone _ (List.mem_of_getElem? hw) (by simpa using hg)
    omega
  simp only [WaitSt.touchEntry, h.fault, hw, Option.all_some, hgone, Bool.or_false]

theorem EntInv.goOwner (h : s.EntInv) (hthreads : s'.threads = s.threads) (hwaits : s'.waits = s.waits)
    (hmarked : s'.marked = s.marked) (hplaced : s'.Placed) (hfault : s'.fault = false) : s'.EntInv := by
  refine ⟨?_, ?_, ?_, hplaced, hfault⟩
  · rw [hthreads, hwaits]
    exact h.own
  · rw [hwaits]
    exact h.gone
  · rw [hwaits, hmarked]
    exact h.marks

/-- An entry is marked. -/
theorem EntInv.mark (h : s.EntInv) {k : Nat} {next : Option Nat} (howner : s.owner = .mark k next) :
    EntInv { s.touchEntry k with
      waits := s.waits.modify k fun w => { w with marks := w.marks + 1 }
      owner := .walk next } := by
  have hplaced := h.placed
  rw [Placed, howner] at hplaced
  obtain ⟨hk, rfl⟩ := hplaced
  have hold : s.marked = k := by rw [marked, howner]
  have hw : s.waits[k]? = some s.waits[k] := List.getElem?_eq_getElem hk
  have hmarks := h.marks k _ hw
  rw [hold, if_neg (Nat.lt_irrefl k)] at hmarks
  rw [modify_of_getElem? hw]
  -- the number of marked entries, whether or not this was the last
  have hnew : (WaitSt.marked { s.touchEntry k with
      waits := s.waits.set k { s.waits[k] with marks := s.waits[k].marks + 1 }, owner := .walk (s.next (k + 1)) }) = k + 1 := by
    simp only [marked, WaitSt.next, List.length_set]
    split_ifs
    · rfl
    · show s.waits.length = k + 1
      omega
  refine ⟨fun z hz e he => ?_, fun z hz hg => ?_, fun e z hz => ?_, ?_, h.touchEntry hk hold⟩
  · rw [List.length_set]
    exact h.own z hz e he
  · rcases List.mem_or_eq_of_mem_set hz with hz | rfl
    · exact h.gone z hz hg
    · exact Nat.succ_pos _
  · rw [hnew]
    rw [List.getElem?_set] at hz
    split_ifs at hz with hek
    · cases hz
      rw [← hek, if_pos (Nat.lt_succ_self k)]
      show s.waits[k].marks + 1 = 1
      rw [hmarks]
    · have hmarks := h.marks e z hz
      rw [hold] at hmarks
      rw [hmarks]
      by_cases hlt : e < k
      · rw [if_pos hlt, if_pos (by omega)]
      · rw [if_neg hlt, if_neg (by omega)]
  · rcases hnext : s.next (k + 1) with _ | j
    · trivial
    · show j < (s.waits.set k _).length
      rw [WaitSt.next, Option.ite_none_right_eq_some] at hnext
      obtain ⟨hlt, ⟨⟩⟩ := hnext
      rw [List.length_set]
      exact hlt

theorem EntInv.ownerStep (h : s.EntInv) (hs : s.ownerStep = some s') : s'.EntInv := by
  have hplaced := h.placed
  unfold Placed at hplaced
  unfold WaitSt.ownerStep at hs
  rcases howner : s.owner with _ | _ | _ | _ | _ | wait | wait | ⟨k, next⟩ | _ <;> rw [howner] at hs hplaced
  case run =>
    cases hs
    refine h.goOwner rfl rfl ?_ ?_ h.fault
    · simp only [marked, howner]
      cases s.terminated <;> rfl
    · unfold Placed
      cases s.terminated <;> trivial
  case uninstall | funcs =>
    cases hs
    exact h.goOwner rfl rfl (by simp only [marked, howner]) trivial h.fault
  case spin =>
    cases hs
    refine h.goOwner rfl rfl ?_ ?_ h.fault
    · simp only [marked, howner]
      split_ifs <;> rfl
    · simp only [Placed]
      split_ifs <;> trivial
  case head =>
    cases hs
    exact h.goOwner rfl rfl (by simp only [marked, howner]) rfl h.fault
  case destroy =>
    cases hs
    obtain rfl : wait = s.next 0 := hplaced
    refine h.goOwner rfl rfl ?_ ?_ h.fault
    · simp only [marked, howner, WaitSt.next]
      split_ifs with hpos
      · rfl
      · show s.waits.length = 0
        omega
    · simp only [Placed, WaitSt.next]
      split_ifs with hpos
      · exact hpos
      · trivial
  case walk =>
    rcases wait with _ | k
    · cases hs
      exact h.goOwner rfl rfl (by simp only [marked, howner]) trivial h.fault
    · cases hs
      exact h.goOwner rfl rfl (by simp only [marked, howner]) ⟨hplaced, rfl⟩
        (h.touchEntry hplaced (by simp only [marked, howner]))
  case mark =>
    cases hs
    exact h.mark howner
  case returned => cases hs

theorem EntInv.step {a : WaitAct} (h : s.EntInv) (href : s.RefInv) (hs : s.step a = some s') : s'.EntInv := by
  rcases a with ⟨t, op⟩ | t | _ | _ <;> simp only [WaitSt.step] at hs
  · rw [Option.ite_none_right_eq_some] at hs
    exact h.call href hs.1 hs.2
  · rcases ht : s.threads[t]? with _ | ph <;> simp only [ht, reduceCtorEq] at hs
    exact h.go href ht hs
  · exact h.ownerStep hs
  · rw [Option.ite_none_right_eq_some] at hs
    obtain ⟨-, ⟨⟩⟩ := hs
    exact ⟨h.own, h.gone, h.marks, h.placed, h.fault⟩

theorem refInv_init (pool : Bool) (n : Nat) : (init pool n).RefInv := by
  have hidle : ∀ ph ∈ (init pool n).threads, ph = .idle := fun ph hph => (List.mem_replicate.1 hph).2
  have hcount : (init pool n).threads.countP WaitPhase.holds = 0 := by
    refine List.countP_eq_zero.2 fun ph hph => ?_
    rw [hidle ph hph]
    exact Bool.noConfusion
  refine ⟨?_, fun hin => ⟨hin, rfl, fun ph hph => ?_⟩, fun t ph ht hph => ?_, fun e he => ?_, fun hc => absurd rfl hc,
    fun _ => .inl rfl, fun _ => hcount, rfl⟩
  · rw [hcount]
    rfl
  · rw [hidle ph hph]
    rfl
  · rw [hidle ph (List.mem_of_getElem? ht)] at hph
    cases hph
  · cases hidle _ he

theorem entInv_init (pool : Bool) (n : Nat) : (init pool n).EntInv := by
  refine ⟨fun ph hph e he => ?_, fun w hw => ?_, fun e w hw => ?_, trivial, rfl⟩
  · rw [(List.mem_replicate.1 hph).2] at he
    cases he
  · cases hw
  · simp [init] at hw

/-- How many steps the thread of the queue has left after it has read the head. -/
def left (s : WaitSt) : Nat :=
  match s.owner with
  | .destroy _ => 2 * s.waits.length + 2
  | .walk (some k) => 2 * (s.waits.length - k) + 1
  | .mark k _ => 2 * (s.waits.length - k)
  | .walk none => 1
  | _ => 0

theorem EntInv.ownerStep_left (h : s.EntInv) (hread : s.owner.hasRead = true) (hover : s.owner ≠ .returned) :
    ∃ s', s.step .owner = some s' ∧ s'.owner.hasRead = true ∧ s'.left < s.left := by
  have hplaced := h.placed
  unfold Placed at hplaced
  simp only [WaitSt.step, WaitSt.ownerStep]
  unfold left
  rcases howner : s.owner with _ | _ | _ | _ | _ | wait | wait | ⟨k, next⟩ | _ <;> rw [howner] at hread hplaced <;>
    first | (cases hread; done) | skip
  · refine ⟨_, rfl, rfl, ?_⟩
    rcases wait with _ | k
    · show 1 < 2 * s.waits.length + 2
      omega
    · show 2 * (s.waits.length - k) + 1 < 2 * s.waits.length + 2
      omega
  · rcases wait with _ | k
    · exact ⟨_, rfl, rfl, Nat.zero_lt_one⟩
    · exact ⟨_, rfl, rfl, Nat.lt_succ_self _⟩
  · obtain ⟨hk, rfl⟩ := hplaced
    refine ⟨_, rfl, rfl, ?_⟩
    simp only [WaitSt.next, List.length_modify]
    split_ifs with hlt
    · show 2 * (s.waits.length - (k + 1)) + 1 < 2 * (s.waits.length - k)
      omega
    · show 1 < 2 * (s.waits.length - k)
      omega
  · exact absurd howner hover

theorem EntInv.ends (h : s.EntInv) (hread : s.owner.hasRead = true) :
    ∃ k s', exec WaitSt.step s (List.replicate k .owner) = some s' ∧ s'.owner = .returned := by
  induction hn : s.left using Nat.strongRecOn generalizing s with
  | ind n ih =>
    by_cases hover : s.owner = .returned
    · exact ⟨0, s, rfl, hover⟩
    · obtain ⟨s₁, hs₁, hread₁, hlt⟩ := h.ownerStep_left hread hover
      obtain ⟨k, s', hrun, hover'⟩ := ih s₁.left (hn ▸ hlt) (h.ownerStep hs₁) hread₁ rfl
      exact ⟨k + 1, s', by rw [List.replicate_succ, exec_cons, hs₁]; exact hrun, hover'⟩

/-- A link needs a reference, or a queue that is not terminated. -/
theorem RefInv.length_waits {a : WaitAct} (h : s.RefInv) (hread : s.owner.hasRead = true) (hs : s.step a = some s') :
    s'.waits.length = s.waits.length := by
  have halone := EndPhase.alone_of_hasRead hread
  rcases a with ⟨t, op⟩ | t | _ | _ <;> simp only [WaitSt.step] at hs
  · rw [Option.ite_none_right_eq_some] at hs
    replace hs := hs.2
    rcases op <;> simp only [WaitSt.call, Option.ite_none_right_eq_some] at hs
    case wait | destroy | get => split_ifs at hs <;> cases hs <;> rfl
    all_goals
      obtain ⟨-, ⟨⟩⟩ := hs
      rfl
  · rcases ht : s.threads[t]? with _ | ph <;> simp only [ht, reduceCtorEq] at hs
    have hnot : ph.holds = true ∨ ph.shrinking = true → False := fun hph => by
      have := h.not_freed ht hph
      rw [halone] at this
      cases this
    rcases ph <;> simp only [WaitSt.go, Option.some.injEq, reduceCtorEq] at hs
    case waiting e =>
      rcases hw : s.waits[e]? with _ | w <;> simp only [hw, Option.ite_none_right_eq_some, reduceCtorEq] at hs
      obtain ⟨-, ⟨⟩⟩ := hs
      exact List.length_set ..
    case taken | added => exact (hnot (.inr rfl)).elim
    all_goals exact (hnot (.inl rfl)).elim
  · unfold WaitSt.ownerStep at hs
    rcases howner : s.owner with _ | _ | _ | _ | _ | wait | wait | ⟨k, next⟩ | _ <;> rw [howner] at hs
    case walk => rcases wait with _ | k <;> cases hs <;> rfl
    case mark =>
      cases hs
      exact List.length_modify ..
    all_goals
      cases hs
      first | done | rfl
  · rw [Option.ite_none_right_eq_some] at hs
    obtain ⟨-, ⟨⟩⟩ := hs
    rfl

/-- In any interleaving of waiters, of those who destroy or shrink and of the end of the queue, no waiter is lost. -/
theorem waiters_none_lost {pool : Bool} {n : Nat} {as : List WaitAct} (hrun : exec step (init pool n) as = some s) :
    s.NoneLost := by
  obtain ⟨href, hent⟩ : s.RefInv ∧ s.EntInv := exec_invariant_all (I := fun s => s.RefInv ∧ s.EntInv)
    (fun s a s' h hs => ⟨h.1.step hs, h.2.step h.1 hs⟩) ⟨refInv_init pool n, entInv_init pool n⟩ hrun
  have hone : ∀ w ∈ s.waits, w.marks ≤ 1 ∧ (0 < w.marks → 0 < s.marked) ∧ (s.marked = s.waits.length → w.marks = 1) := by
    intro w hw
    obtain ⟨e, he⟩ := List.mem_iff_getElem?.1 hw
    have hlt : e < s.waits.length := (List.getElem?_eq_some_iff.1 he).1
    have hmarks := hent.marks e w he
    split_ifs at hmarks <;> omega
  have hover : s.owner = .returned → s.marked = s.waits.length := fun howner => by rw [marked, howner]
  refine ⟨fun w hw => (hone w hw).1, fun w hw hpos => ?_, fun howner w hw => (hone w hw).2.2 (hover howner),
    fun howner t e ht => ?_, hent.ends, fun hread a s' hs => href.length_waits hread hs, hent.fault⟩
  · have hmarked := (hone w hw).2.1 hpos
    rw [href.freed]
    rw [marked] at hmarked
    rcases howner : s.owner with _ | _ | _ | _ | _ | wait | wait | ⟨k, next⟩ | _ <;> rw [howner] at hmarked <;>
      first | rfl | cases hmarked
  · have hlt := hent.own _ (List.mem_of_getElem? ht) e rfl
    have hw : s.waits[e]? = some s.waits[e] := List.getElem?_eq_getElem hlt
    have hmark := (hone _ (List.mem_of_getElem? hw)).2.2 (hover howner)
    simp only [WaitSt.step, ht, WaitSt.go, hw, hmark]
    rfl

/-- A waiter and a shrinker, each with an entry; the shrinker links its entry without a reference. -/
theorem waiters_none_lost_two : ∃ s : WaitSt, exec step (init true 2)
    [.call 0 (.wait false), .call 1 (.shrink true), .go 1, .go 0, .go 0, .go 1, .go 1, .owner, .go 0, .owner,
      .owner, .go 1, .owner, .owner, .owner, .owner, .owner, .owner, .go 1, .owner, .owner, .owner, .go 0] = some s ∧
    s.waits = [⟨1, true⟩, ⟨1, true⟩] ∧ s.owner = .returned ∧ s.NoneLost := by
  have hrun : ((exec step (init true 2)
      [.call 0 (.wait false), .call 1 (.shrink true), .go 1, .go 0, .go 0, .go 1, .go 1, .owner, .go 0, .owner,
        .owner, .go 1, .owner, .owner, .owner, .owner, .owner, .owner, .go 1, .owner, .owner, .owner, .go 0]).any
      fun s => s.waits = [⟨1, true⟩, ⟨1, true⟩] ∧ s.owner = .returned) = true := by
    decide +kernel
  obtain ⟨s, hs, hd⟩ := (Option.any_eq_true _ _).1 hrun
  obtain ⟨hw, ho⟩ := of_decide_eq_true hd
  exact ⟨s, hs, hw, ho, waiters_none_lost hs⟩

end WaitSt

end Aosl
