import Aosl.Lib.Lists
import Aosl.Lib.Steps

/-!
# The table of a pool, `qp->pool_entries`

`pool_entries` has room for `pool_size` queues; the first `q_count` entries are in use. What the functions of
`kernel/mpqp.c` do under `qp->lock` is one step, and so is the `__mpq_destroy` that `__mpqp_shrink` calls afterwards for the
queue it has taken out.

A queue is its number among those created for the pool. `doomed` are the queues that a `__mpqp_shrink` has in its hands,
`destroyed` the calls of `__mpq_destroy`. `aosl_errno`, which a failed creation turns into a pointer, is what the caller's
thread has there: not every way to fail sets it. The counters of the queues are those that the atomic reads give.
-/

namespace Aosl
open Lib

structure PoolSlot where
  q : Option Nat
  usage : BitVec 32
deriving DecidableEq

inductive PoolFault where
  | bugOn
  /-- Use of a null queue, of an entry outside the table or of an error as a pointer. -/
  | segv
deriving DecidableEq

structure TableSt where
  poolSize : Nat
  slots : List PoolSlot
  qCount : Nat
  created : Nat
  doomed : List Nat
  destroyed : List Nat
  fault : Option PoolFault
deriving DecidableEq

/-- How `__mpq_create` ends: with a queue, or without one and `aosl_errno` as given. -/
abbrev Creation := Option Int

inductive TableAct where
  /-- `__mpqp_best_q_get`; `reads i` are the two counters read in round `i` of the search, `count` the one read after it. -/
  | bestQGet (reads : Nat → Nat × Nat) (count : Nat) (creation : Creation)
  /-- `__mpqp_best_entry_get_or_alloc`. -/
  | alloc (creation : Creation)
  | free (q : Nat)
  /-- `__mpqp_pool_tail_queue_argv`. -/
  | tail (creation : Creation)
  | shrink
  /-- `__mpq_destroy` in `__mpqp_shrink`. -/
  | destroy (q : Nat)
  | shrinkAll

namespace TableSt

def eperm : Int := 1001

def enomem : Int := 1012

def einval : Int := 1022

/-- The entries that a loop up to `q_count` visits. -/
def visited (s : TableSt) : Except PoolFault (List PoolSlot) :=
  if s.qCount ≤ s.slots.length then .ok (s.slots.take s.qCount) else .error .segv

def slotAt (s : TableSt) (i : Nat) : Except PoolFault PoolSlot :=
  match s.slots[i]? with
  | some e => .ok e
  | none => .error .segv

/-- The loop of `__mpqp_find_best_q_locked` from round `i` on. -/
def findBestQ (reads : Nat → Nat × Nat) : List PoolSlot → Nat → Option Nat → Except PoolFault (Option Nat)
  | [], _, best => .ok best
  | e :: es, i, none => findBestQ reads es (i + 1) e.q
  | ⟨none, _⟩ :: _, _, some _ => .error .segv
  | ⟨some q, _⟩ :: es, i, some best =>
    findBestQ reads es (i + 1) (some (if (reads i).1 < (reads i).2 then q else best))

/-- The loop of `__mpqp_find_best_alloc_entry_locked` from round `i` on: the place of the entry, and the entry. -/
def findBestAllocEntry : List PoolSlot → Nat → Option (Nat × PoolSlot) → Option (Nat × PoolSlot)
  | [], _, best => best
  | e :: es, i, none => findBestAllocEntry es (i + 1) (some (i, e))
  | e :: es, i, some (b, best) => findBestAllocEntry es (i + 1) (some (if e.usage < best.usage then (i, e) else (b, best)))

/-- The loop of `__mpqp_find_entry_with_qid_locked` from round `i` on. -/
def findEntryWithQid (q : Nat) : List PoolSlot → Nat → Except PoolFault (Option Nat)
  | [], _ => .ok none
  | ⟨none, _⟩ :: _, _ => .error .segv
  | ⟨some r, _⟩ :: es, i => if r = q then .ok (some i) else findEntryWithQid q es (i + 1)

/-- The new queue gets the entry at `q_count`, which must be free. -/
def addMpq (s : TableSt) : Except PoolFault TableSt := do
  let e ← s.slotAt s.qCount
  if e.q ≠ none ∨ e.usage ≠ 0 then throw .bugOn
  else return { s with
    slots := s.slots.set s.qCount ⟨some s.created, 1⟩
    qCount := s.qCount + 1
    created := s.created + 1 }

/-- What `ERR_PTR (-aosl_errno)` is to its user: an error as `IS_ERR_OR_NULL` knows it, or a pointer to nowhere. -/
def errPtr (err : Int) : Except PoolFault Int := if 0 ≤ err ∧ err ≤ 4095 then .ok err else .error .segv

/-- `__pool_create_add_mpq_locked`: the place of the new entry, or the error. -/
def createAddMpq (s : TableSt) : Creation → Except PoolFault (Except Int Nat × TableSt)
  | some err => do return (.error (← errPtr err), s)
  | none => do return (.ok s.qCount, ← s.addMpq)

/-- The critical section of `__mpqp_best_q_get`. -/
def bestQGet (s : TableSt) (reads : Nat → Nat × Nat) (count : Nat) (creation : Creation) :
    Except PoolFault (Except Int Nat × TableSt) := do
  match ← findBestQ reads (← s.visited) 0 none with
  | none => match ← s.createAddMpq creation with
    | (.error err, s) => return (.error err, s)
    | (.ok _, s') => return (.ok s.created, s')
  | some q =>
    if count > 0 ∧ s.qCount < s.poolSize then
      match ← s.createAddMpq creation with
      | (.error _, s) => return (.ok q, s)
      | (.ok _, s') => return (.ok s.created, s')
    else return (.ok q, s)

/-- `entry->usage++`. -/
def incUsage (s : TableSt) (i : Nat) : TableSt :=
  { s with slots := s.slots.modify i fun e => { e with usage := e.usage + 1 } }

/-- The critical section of `__mpqp_best_entry_get_or_alloc`. -/
def alloc (s : TableSt) (creation : Creation) : Except PoolFault (Except Int Nat × TableSt) := do
  match findBestAllocEntry (← s.visited) 0 none with
  | none => match ← s.createAddMpq creation with
    | (.error err, s) => return (.error err, s)
    | (.ok i, s') => return (.ok i, s'.incUsage i)
  | some (i, e) =>
    if e.usage > 1 ∧ s.qCount < s.poolSize then
      match ← s.createAddMpq creation with
      | (.error _, s) => return (.ok i, s.incUsage i)
      | (.ok i', s') => return (.ok i', s'.incUsage i')
    else return (.ok i, s.incUsage i)

/-- The critical section of `aosl_mpq_free`. -/
def free (s : TableSt) (q : Nat) : Except PoolFault (Except Int Unit × TableSt) := do
  match ← findEntryWithQid q (← s.visited) 0 with
  | none => return (.error einval, s)
  | some i =>
    let e ← s.slotAt i
    if e.usage > 1 then return (.ok (), { s with slots := s.slots.set i { e with usage := e.usage - 1 } })
    else return (.error eperm, s)

/-- The queues to which `__mpqp_pool_tail_queue_argv` queues the function. -/
def queuesOf : List PoolSlot → Except PoolFault (List Nat)
  | [] => .ok []
  | ⟨none, _⟩ :: _ => .error .segv
  | ⟨some q, _⟩ :: es => do return q :: (← queuesOf es)

/-- The critical section of `__mpqp_pool_tail_queue_argv`. -/
def tail (s : TableSt) (creation : Creation) : Except PoolFault (Except Int (List Nat) × TableSt) := do
  if s.qCount = 0 then
    match creation with
    | some err => return (.error err, s)
    | none =>
      let s ← s.addMpq
      return (.ok (← queuesOf (← s.visited)), s)
  else return (.ok (← queuesOf (← s.visited)), s)

/-- The critical section of `__mpqp_shrink`. -/
def shrink (s : TableSt) : Except PoolFault (Except Int Unit × TableSt) :=
  if s.qCount > 1 then do
    let e ← s.slotAt (s.qCount - 1)
    if e.usage = 0 then throw .bugOn
    else if e.usage = 1 then
      let s := { s with slots := s.slots.set (s.qCount - 1) ⟨none, 0⟩, qCount := s.qCount - 1 }
      match e.q with
      | some q => return (.ok (), { s with doomed := q :: s.doomed })
      | none => return (.error eperm, s)
    else return (.error eperm, s)
  else return (.error eperm, s)

/-- `__mpqp_shrink_all`. -/
def shrinkAll (s : TableSt) : Except PoolFault TableSt := do
  let es ← s.visited
  return { s with
    slots := List.replicate s.qCount ⟨none, 0⟩ ++ s.slots.drop s.qCount
    qCount := 0
    destroyed := s.destroyed ++ es.filterMap PoolSlot.q }

/-- A call ends in a new table, or in the end of the process. -/
def settle (s : TableSt) : Except PoolFault TableSt → TableSt
  | .ok s' => s'
  | .error f => { s with fault := some f }

def step (s : TableSt) (a : TableAct) : Option TableSt :=
  if s.fault ≠ none then some s else
    match a with
    | .bestQGet reads count creation => some (s.settle ((s.bestQGet reads count creation).map Prod.snd))
    | .alloc creation => some (s.settle ((s.alloc creation).map Prod.snd))
    | .free q => some (s.settle ((s.free q).map Prod.snd))
    | .tail creation => some (s.settle ((s.tail creation).map Prod.snd))
    | .shrink => some (s.settle (s.shrink.map Prod.snd))
    | .destroy q =>
      if q ∈ s.doomed then some { s with doomed := s.doomed.erase q, destroyed := s.destroyed ++ [q] } else none
    | .shrinkAll => some (s.settle s.shrinkAll)

/-- The queues in the table. -/
def queues (s : TableSt) : List Nat := s.slots.filterMap PoolSlot.q

/-- The table is filled from the front with live queues, no assertion has failed, and a queue that has left the table has
been destroyed once or is about to be. -/
structure Sound (s : TableSt) : Prop where
  size : s.slots.length = s.poolSize
  count : s.qCount ≤ s.poolSize
  used : ∀ i, i < s.qCount → ∃ q usage, s.slots[i]? = some ⟨some q, usage⟩ ∧ q ∉ s.doomed ∧ q ∉ s.destroyed ∧ 1 ≤ usage
  unused : ∀ i, s.qCount ≤ i → i < s.poolSize → s.slots[i]? = some ⟨none, 0⟩
  noBug : s.fault ≠ some .bugOn
  once : List.Perm (s.queues ++ s.doomed ++ s.destroyed) (List.range s.created)

/-- The creation fails, with an error that is known as one. -/
def failed (creation : Creation) : Bool := creation.any fun err => 0 ≤ err && err ≤ 4095

/-- An allocation finds an entry whose count can still grow, or there is room for another and its creation does not fail. -/
def AllocOk (s : TableSt) : TableAct → Prop
  | .alloc creation => s.fault ≠ none ∨ s.qCount = 0 ∨ (s.qCount < s.poolSize ∧ failed creation = false) ∨
      ∃ e ∈ s.slots.take s.qCount, e.usage ≠ BitVec.allOnes 32
  | _ => True

instance (s : TableSt) : ∀ a, Decidable (s.AllocOk a)
  | .alloc _ => inferInstanceAs (Decidable (_ ∨ _ ∨ _ ∨ _))
  | .bestQGet _ _ _ => isTrue trivial
  | .free _ => isTrue trivial
  | .tail _ => isTrue trivial
  | .shrink => isTrue trivial
  | .destroy _ => isTrue trivial
  | .shrinkAll => isTrue trivial

/-! ### The table as a list -/

/-- The entry of the queue `p.1`, which is used `p.2` times. -/
def slotOf (p : Nat × BitVec 32) : PoolSlot := ⟨some p.1, p.2⟩

/-- The entries in use are those of `l`; only the first may be used 0 times. -/
structure TableInv (s : TableSt) (l : List (Nat × BitVec 32)) : Prop where
  pos : 0 < s.poolSize
  slots : s.slots = l.map slotOf ++ List.replicate (s.poolSize - l.length) ⟨none, 0⟩
  count : s.qCount = l.length
  le : l.length ≤ s.poolSize
  later : ∀ (i : Nat) (p : Nat × BitVec 32), l[i + 1]? = some p → p.2 ≠ 0
  noBug : s.fault ≠ some .bugOn
  once : List.Perm (l.map Prod.fst ++ s.doomed ++ s.destroyed) (List.range s.created)

/-- The first entry is in use at least once. -/
def FirstUsed (l : List (Nat × BitVec 32)) : Prop := ∀ p : Nat × BitVec 32, l[0]? = some p → p.2 ≠ 0

variable {s s' : TableSt} {l l' : List (Nat × BitVec 32)} {p : Nat × BitVec 32} {creation : Creation}

theorem add_one_eq_zero_iff (u : BitVec 32) : u + 1 = 0 ↔ u = BitVec.allOnes 32 := by
  rw [← BitVec.toNat_inj, ← BitVec.toNat_inj, BitVec.toNat_allOnes]
  have := u.isLt
  simp
  omega

theorem ne_zero_iff (u : BitVec 32) : u ≠ 0 ↔ 1 ≤ u := by
  bv_omega

theorem TableInv.take (h : s.TableInv l) : s.slots.take s.qCount = l.map slotOf := by
  rw [h.slots, h.count]
  exact List.take_left' (by simp)

theorem TableInv.visited (h : s.TableInv l) : s.visited = .ok (l.map slotOf) := by
  rw [TableSt.visited, if_pos (by rw [h.slots, h.count]; simp), h.take]

theorem TableInv.slotAt (h : s.TableInv l) {i : Nat} (hp : l[i]? = some p) : s.slotAt i = .ok (slotOf p) := by
  have hlt : i < l.length := (List.getElem?_eq_some_iff.1 hp).1
  rw [TableSt.slotAt, h.slots, List.getElem?_append_left (by simpa using hlt), List.getElem?_map, hp]
  rfl

theorem TableInv.queues (h : s.TableInv l) : s.queues = l.map Prod.fst := by
  rw [TableSt.queues, h.slots, List.filterMap_append, List.filterMap_map, List.filterMap_replicate_of_none rfl,
    List.append_nil]
  exact congrFun (List.filterMap_eq_map' (f := Prod.fst)) l

theorem TableInv.sound_iff (h : s.TableInv l) : s.Sound ↔ FirstUsed l := by
  have hget : ∀ i, i < s.qCount → ∃ p, l[i]? = some p ∧ s.slots[i]? = some (slotOf p) := by
    intro i hi
    rw [h.count] at hi
    refine ⟨l[i], List.getElem?_eq_getElem hi, ?_⟩
    rw [h.slots, List.getElem?_append_left (by simpa using hi), List.getElem?_map, List.getElem?_eq_getElem hi]
    rfl
  constructor
  · intro hs p hp
    have hpos : 0 < s.qCount := by rw [h.count]; exact (List.getElem?_eq_some_iff.1 hp).1
    obtain ⟨q, usage, hq, -, -, hone⟩ := hs.used 0 hpos
    obtain ⟨p', hp', hslot⟩ := hget 0 hpos
    obtain rfl := Option.some.inj (hp.symm.trans hp')
    obtain rfl : p.2 = usage := congrArg PoolSlot.usage (Option.some.inj (hslot.symm.trans hq))
    exact (ne_zero_iff p.2).2 hone
  · intro hfirst
    have hnodup := h.once.nodup_iff.2 List.nodup_range
    refine ⟨?_, by rw [h.count]; exact h.le, fun i hi => ?_, fun i hi hlt => ?_, h.noBug, by rw [h.queues]; exact h.once⟩
    · have hle := h.le
      rw [h.slots, List.length_append, List.length_map, List.length_replicate]
      omega
    · obtain ⟨p, hp, hslot⟩ := hget i hi
      have hmem : p.1 ∈ l.map Prod.fst := List.mem_map_of_mem (List.mem_of_getElem? hp)
      rw [List.append_assoc, List.nodup_append] at hnodup
      have hnot : p.1 ∉ s.doomed ++ s.destroyed := fun hm => hnodup.2.2 _ hmem _ hm rfl
      refine ⟨p.1, p.2, hslot, fun hm => hnot (List.mem_append_left _ hm), fun hm => hnot (List.mem_append_right _ hm), ?_⟩
      rw [← ne_zero_iff]
      rcases i with _ | i
      · exact hfirst p hp
      · exact h.later i p hp
    · rw [h.count] at hi
      rw [h.slots, List.getElem?_append_right (by simpa using hi), List.length_map, List.getElem?_replicate, if_pos (by omega)]

/-! ### The searches -/

theorem findBestQ_spec (reads : Nat → Nat × Nat) (l : List (Nat × BitVec 32)) (i : Nat) (best : Option Nat) :
    ∃ r, findBestQ reads (l.map slotOf) i best = .ok r ∧ (r = none ↔ l = [] ∧ best = none) := by
  induction l generalizing i best with
  | nil => exact ⟨best, by cases best <;> rfl, by simp⟩
  | cons p l ih =>
    rcases best with _ | b
    · obtain ⟨r, hr, hnone⟩ := ih (i + 1) (some p.1)
      exact ⟨r, hr, by simpa using hnone⟩
    · obtain ⟨r, hr, hnone⟩ := ih (i + 1) (some (if (reads i).1 < (reads i).2 then p.1 else b))
      exact ⟨r, hr, by simpa using hnone⟩

theorem findEntryWithQid_spec (q : Nat) (l : List (Nat × BitVec 32)) (i : Nat) :
    ∃ r, findEntryWithQid q (l.map slotOf) i = .ok r ∧ ∀ j, r = some j → i ≤ j ∧ j < i + l.length := by
  induction l generalizing i with
  | nil => exact ⟨none, rfl, fun j hj => by cases hj⟩
  | cons p l ih =>
    by_cases hq : p.1 = q
    · refine ⟨some i, if_pos hq, fun j hj => ?_⟩
      cases hj
      simp
    · obtain ⟨r, hr, hj⟩ := ih (i + 1)
      refine ⟨r, (if_neg hq).trans hr, fun j hrj => ?_⟩
      have := hj j hrj
      rw [List.length_cons]
      omega

theorem queuesOf_spec (l : List (Nat × BitVec 32)) : queuesOf (l.map slotOf) = .ok (l.map Prod.fst) := by
  induction l with
  | nil => rfl
  | cons p l ih =>
    rw [List.map_cons, List.map_cons, slotOf, queuesOf, ih]
    rfl

/-- The entry found is used least, and less than the first one unless it is that. -/
theorem findBestAllocEntry_spec (l₀ l A : List (Nat × BitVec 32)) (b : Nat) (hl : l₀ = A ++ l)
    (hb : l₀[b]? = some p) (hleast : ∀ p' ∈ A, p.2 ≤ p'.2) (hfirst : b ≠ 0 → ∀ p₀, l₀[0]? = some p₀ → p.2 < p₀.2) :
    ∃ i p', findBestAllocEntry (l.map slotOf) A.length (some (b, slotOf p)) = some (i, slotOf p') ∧ l₀[i]? = some p' ∧
      (∀ p'' ∈ l₀, p'.2 ≤ p''.2) ∧ (i ≠ 0 → ∀ p₀, l₀[0]? = some p₀ → p'.2 < p₀.2) := by
  induction l generalizing A b p with
  | nil => exact ⟨b, p, rfl, hb, by simpa [hl] using hleast, hfirst⟩
  | cons e l ih =>
    have hl' : l₀ = (A ++ [e]) ++ l := by simp [hl]
    have hlen : A.length + 1 = (A ++ [e]).length := by simp
    rw [List.map_cons, findBestAllocEntry, hlen]
    by_cases he : (slotOf e).usage < (slotOf p).usage
    · rw [if_pos he]
      refine ih (A ++ [e]) A.length hl' (by simp [hl]) (fun p' hp' => ?_) (fun hne p₀ hp₀ => ?_)
      · rcases List.mem_append.1 hp' with hp' | hp'
        · have hle := hleast p' hp'
          rw [BitVec.le_def] at hle ⊢
          rw [BitVec.lt_def] at he
          exact Nat.le_of_lt (Nat.lt_of_lt_of_le he hle)
        · rw [List.mem_singleton.1 hp']
          exact BitVec.le_refl _
      · have hmem : p₀ ∈ A := by
          rw [hl, List.getElem?_append_left (by omega)] at hp₀
          exact List.mem_of_getElem? hp₀
        have hle := hleast p₀ hmem
        rw [BitVec.le_def] at hle
        rw [BitVec.lt_def] at he ⊢
        exact Nat.lt_of_lt_of_le he hle
    · rw [if_neg he]
      refine ih (A ++ [e]) b hl' hb (fun p' hp' => ?_) hfirst
      rcases List.mem_append.1 hp' with hp' | hp'
      · exact hleast p' hp'
      · rw [List.mem_singleton.1 hp']
        exact BitVec.not_lt.1 he

/-! ### The steps -/

theorem TableInv.fail (h : s.TableInv l) : TableInv { s with fault := some .segv } l :=
  ⟨h.pos, h.slots, h.count, h.le, h.later, by simp, h.once⟩

theorem TableInv.set (h : s.TableInv l) {i : Nat} (hi : i < l.length) (hfst : l[i].1 = p.1) (hp : i ≠ 0 → p.2 ≠ 0) :
    TableInv { s with slots := s.slots.set i (slotOf p) } (l.set i p) := by
  refine ⟨h.pos, ?_, ?_, ?_, fun j p' hj => ?_, h.noBug, ?_⟩
  · rw [List.map_set, List.length_set]
    show s.slots.set i (slotOf p) = _
    rw [h.slots, List.set_append_left _ _ (by simpa using hi)]
  · rw [List.length_set]
    exact h.count
  · rw [List.length_set]
    exact h.le
  · rw [List.getElem?_set] at hj
    split_ifs at hj with hij
    · cases hj
      exact hp (by omega)
    · exact h.later j p' hj
  · have hmap : (l.set i p).map Prod.fst = l.map Prod.fst := by
      rw [List.map_set, ← hfst, ← List.getElem_map Prod.fst (h := by simpa using hi), List.set_getElem_self]
    rw [hmap]
    exact h.once

theorem TableInv.addMpq (h : s.TableInv l) (hlt : l.length < s.poolSize) :
    ∃ s', s.addMpq = .ok s' ∧ s'.TableInv (l ++ [(s.created, 1)]) := by
  have hslot : s.slotAt s.qCount = .ok ⟨none, 0⟩ := by
    rw [TableSt.slotAt, h.slots, h.count, List.getElem?_append_right (by simp), List.length_map, List.getElem?_replicate,
      if_pos (by omega)]
  refine ⟨{ s with
    slots := s.slots.set s.qCount ⟨some s.created, 1⟩
    qCount := s.qCount + 1
    created := s.created + 1 }, by rw [TableSt.addMpq, hslot]; rfl, h.pos, ?_, ?_, ?_, fun i p hp => ?_, h.noBug, ?_⟩
  · have hroom : s.poolSize - l.length = s.poolSize - (l ++ [(s.created, (1 : BitVec 32))]).length + 1 := by
      rw [List.length_append, List.length_singleton]
      omega
    show s.slots.set s.qCount (slotOf (s.created, 1)) = _
    rw [h.slots, h.count, List.set_append_right _ _ (by simp), List.length_map, Nat.sub_self, hroom, List.replicate_succ,
      List.set_cons_zero, List.map_append]
    simp
  · rw [List.length_append]
    exact congrArg (· + 1) h.count
  · rw [List.length_append]
    exact hlt
  · rw [List.getElem?_append] at hp
    split_ifs at hp
    · exact h.later i p hp
    · obtain rfl := List.mem_singleton.1 (List.mem_of_getElem? hp)
      exact (by decide : (1 : BitVec 32) ≠ 0)
  · have hperm : List.Perm (l.map Prod.fst ++ s.created :: (s.doomed ++ s.destroyed)) (List.range s.created ++ [s.created]) := by
      refine (List.perm_middle.trans ?_).trans (List.perm_append_singleton _ _).symm
      rw [← List.append_assoc]
      exact h.once.cons s.created
    show List.Perm _ (List.range (s.created + 1))
    rw [List.range_succ]
    simpa using hperm

theorem TableInv.createAddMpq (h : s.TableInv l) (hlt : l.length < s.poolSize) (creation : Creation) :
    (failed creation = false ∧ s.createAddMpq creation = .error .segv) ∨
    (failed creation = true ∧ ∃ err, s.createAddMpq creation = .ok (.error err, s)) ∨
    (failed creation = false ∧ ∃ s', s.createAddMpq creation = .ok (.ok l.length, s') ∧ s'.TableInv (l ++ [(s.created, 1)])) := by
  rcases creation with _ | err
  · obtain ⟨s', hadd, hs'⟩ := h.addMpq hlt
    refine .inr (.inr ⟨rfl, s', ?_, hs'⟩)
    rw [TableSt.createAddMpq, hadd, h.count]
    rfl
  · by_cases herr : 0 ≤ err ∧ err ≤ 4095
    · refine .inr (.inl ⟨by simpa [failed] using herr, err, ?_⟩)
      rw [TableSt.createAddMpq, errPtr, if_pos herr]
      rfl
    · refine .inl ⟨by simpa [failed] using herr, ?_⟩
      rw [TableSt.createAddMpq, errPtr, if_neg herr]
      rfl

theorem firstUsed_append (hl : FirstUsed l) (hp : p.2 ≠ 0) : FirstUsed (l ++ [p]) := by
  intro p' hp'
  rcases l with _ | ⟨p₀, l⟩
  · cases hp'
    exact hp
  · exact hl p' hp'

/-- `__mpqp_best_q_get` adds an entry or leaves the table alone. -/
theorem TableInv.bestQGet (h : s.TableInv l) (reads : Nat → Nat × Nat) (count : Nat) (creation : Creation) :
    ∃ l', (s.settle ((s.bestQGet reads count creation).map Prod.snd)).TableInv l' ∧ (FirstUsed l → FirstUsed l') := by
  obtain ⟨best, hbest, hnone⟩ := findBestQ_spec reads l 0 none
  have hadds : ∀ s' : TableSt, s'.TableInv (l ++ [(s.created, 1)]) → ∃ l', s'.TableInv l' ∧ (FirstUsed l → FirstUsed l') :=
    fun s' hs' => ⟨_, hs', fun hl => firstUsed_append hl (by decide : (1 : BitVec 32) ≠ 0)⟩
  unfold TableSt.bestQGet
  rw [h.visited]
  rcases best with _ | q
  · obtain ⟨rfl, -⟩ := hnone.1 rfl
    rcases h.createAddMpq h.pos creation with ⟨-, hc⟩ | ⟨-, err, hc⟩ | ⟨-, s', hc, hs'⟩
    · refine ⟨_, ?_, id⟩
      simp only [bind, Except.bind, hbest, hc]
      exact h.fail
    · refine ⟨_, ?_, id⟩
      simp only [bind, Except.bind, hbest, hc]
      exact h
    · simp only [bind, Except.bind, hbest, hc]
      exact hadds s' hs'
  · simp only [bind, Except.bind, hbest]
    by_cases hroom : count > 0 ∧ s.qCount < s.poolSize
    · rw [if_pos hroom]
      rcases h.createAddMpq (h.count ▸ hroom.2) creation with ⟨-, hc⟩ | ⟨-, err, hc⟩ | ⟨-, s', hc, hs'⟩
      · rw [hc]
        exact ⟨l, h.fail, id⟩
      · rw [hc]
        exact ⟨l, h, id⟩
      · rw [hc]
        exact hadds s' hs'
    · rw [if_neg hroom]
      exact ⟨l, h, id⟩

theorem TableInv.incUsage (h : s.TableInv l) {i : Nat} (hp : l[i]? = some p) (hne : i ≠ 0 → p.2 + 1 ≠ 0) :
    (s.incUsage i).TableInv (l.set i (p.1, p.2 + 1)) := by
  obtain ⟨hi, hget⟩ := List.getElem?_eq_some_iff.1 hp
  have hslot : s.slots[i]? = some (slotOf p) := by
    rw [h.slots, List.getElem?_append_left (by simpa using hi), List.getElem?_map, hp]
    rfl
  rw [TableSt.incUsage, modify_of_getElem? hslot]
  exact h.set (p := (p.1, p.2 + 1)) hi (by rw [hget]) hne

/-- The count of the entry that is used least grows; it can run over only in the first entry. -/
theorem TableInv.incBest (h : s.TableInv l) {i : Nat} (hp : l[i]? = some p)
    (hfirst : i ≠ 0 → ∀ p₀, l[0]? = some p₀ → p.2 < p₀.2) :
    ∃ l', (s.incUsage i).TableInv l' ∧ (FirstUsed l → (FirstUsed l' ↔ p.2 ≠ BitVec.allOnes 32)) := by
  have hi : i < l.length := (List.getElem?_eq_some_iff.1 hp).1
  by_cases h0 : i = 0
  · subst h0
    refine ⟨_, h.incUsage hp (fun hc => absurd rfl hc), fun _ => ?_⟩
    rw [ne_eq, ← add_one_eq_zero_iff]
    constructor
    · intro hl'
      exact hl' (p.1, p.2 + 1) (getElem?_set_self hp)
    · intro hne p' hp'
      rw [getElem?_set_self hp] at hp'
      obtain rfl := Option.some.inj hp'
      exact hne
  · have hmax : p.2 ≠ BitVec.allOnes 32 := by
      have hlt := hfirst h0 l[0] (List.getElem?_eq_getElem (by omega))
      rw [BitVec.lt_def] at hlt
      have hbound := (l[0].2).isLt
      rintro hmax
      rw [hmax, BitVec.toNat_allOnes] at hlt
      omega
    refine ⟨_, h.incUsage hp fun _ => by rwa [ne_eq, add_one_eq_zero_iff], fun hl => ?_⟩
    refine ⟨fun _ => hmax, fun _ p' hp' => ?_⟩
    rw [getElem?_set_ne h0] at hp'
    exact hl p' hp'

theorem TableInv.alloc (h : s.TableInv l) (hfault : s.fault = none) (creation : Creation) :
    ∃ l', (s.settle ((s.alloc creation).map Prod.snd)).TableInv l' ∧
      (FirstUsed l → (FirstUsed l' ↔ s.AllocOk (.alloc creation))) := by
  -- a new entry is used twice: for being there, and by the caller
  have hadds : ∀ s' : TableSt, s'.TableInv (l ++ [(s.created, 1)]) →
      ∃ l', (s'.incUsage l.length).TableInv l' ∧ (FirstUsed l → FirstUsed l') := by
    intro s' hs'
    refine ⟨_, hs'.incUsage List.getElem?_concat_length fun _ => (by decide : (1 + 1 : BitVec 32) ≠ 0), fun hl => ?_⟩
    rw [List.set_append_right _ _ (Nat.le_refl _), Nat.sub_self, List.set_cons_zero]
    exact firstUsed_append hl (by decide : (1 + 1 : BitVec 32) ≠ 0)
  unfold TableSt.alloc
  rw [h.visited]
  rcases l with _ | ⟨p₀, l⟩
  · have hok : s.AllocOk (.alloc creation) := .inr (.inl h.count)
    simp only [bind, Except.bind, List.map_nil, findBestAllocEntry]
    rcases h.createAddMpq h.pos creation with ⟨-, hc⟩ | ⟨-, err, hc⟩ | ⟨-, s', hc, hs'⟩ <;> simp only [hc]
    · exact ⟨_, h.fail, fun hl => ⟨fun _ => hok, fun _ => hl⟩⟩
    · exact ⟨_, h, fun hl => ⟨fun _ => hok, fun _ => hl⟩⟩
    · obtain ⟨l', hl', hfirst⟩ := hadds s' hs'
      exact ⟨l', hl', fun hl => ⟨fun _ => hok, fun _ => hfirst hl⟩⟩
  · obtain ⟨i, p, hbest, hp, hleast, hfirst⟩ := findBestAllocEntry_spec (p₀ :: l) l [p₀] 0 rfl rfl
      (fun p' hp' => by rw [List.mem_singleton.1 hp']; exact BitVec.le_refl _) (fun hc => absurd rfl hc)
    replace hbest : findBestAllocEntry ((p₀ :: l).map slotOf) 0 none = some (i, slotOf p) := hbest
    -- the least used entry can grow if and only if any can
    have hcan : (∃ e ∈ s.slots.take s.qCount, e.usage ≠ BitVec.allOnes 32) ↔ p.2 ≠ BitVec.allOnes 32 := by
      rw [h.take]
      constructor
      · rintro ⟨e, he, hne⟩ hmax
        obtain ⟨p', hp', rfl⟩ := List.mem_map.1 he
        have hle := hleast p' hp'
        rw [hmax, BitVec.le_def, BitVec.toNat_allOnes] at hle
        refine hne (BitVec.eq_of_toNat_eq ?_)
        rw [BitVec.toNat_allOnes]
        have hbound := p'.2.isLt
        show p'.2.toNat = _
        omega
      · exact fun hne => ⟨slotOf p, List.mem_map_of_mem (List.mem_of_getElem? hp), hne⟩
    have hpos : s.qCount ≠ 0 := by rw [h.count]; exact Nat.succ_ne_zero _
    have hinc : ¬(s.qCount < s.poolSize ∧ failed creation = false) ∨ p.2 ≠ BitVec.allOnes 32 →
        ∃ l', (s.incUsage i).TableInv l' ∧ (FirstUsed (p₀ :: l) → (FirstUsed l' ↔ s.AllocOk (.alloc creation))) := by
      intro hroom
      obtain ⟨l', hl', hiff⟩ := h.incBest hp hfirst
      refine ⟨l', hl', fun hl => ?_⟩
      rw [hiff hl, AllocOk, hcan]
      tauto
    simp only [bind, Except.bind, hbest]
    by_cases hroom : (slotOf p).usage > 1 ∧ s.qCount < s.poolSize
    · rw [if_pos hroom]
      rcases h.createAddMpq (h.count ▸ hroom.2) creation with ⟨hnf, hc⟩ | ⟨hf, err, hc⟩ | ⟨hnf, s', hc, hs'⟩ <;> simp only [hc]
      · exact ⟨_, h.fail, fun hl => ⟨fun _ => .inr (.inr (.inl ⟨hroom.2, hnf⟩)), fun _ => hl⟩⟩
      · exact hinc (.inl fun hc => by rw [hf] at hc; cases hc.2)
      · obtain ⟨l', hl', hfirst⟩ := hadds s' hs'
        exact ⟨l', hl', fun hl => ⟨fun _ => .inr (.inr (.inl ⟨hroom.2, hnf⟩)), fun _ => hfirst hl⟩⟩
    · rw [if_neg hroom]
      refine hinc ?_
      by_cases hlt : s.qCount < s.poolSize
      · refine .inr fun hmax => hroom ⟨?_, hlt⟩
        show p.2 > 1
        rw [hmax]
        decide
      · exact .inl fun hc => hlt hc.1

theorem TableInv.free (h : s.TableInv l) (q : Nat) :
    ∃ l', (s.settle ((s.free q).map Prod.snd)).TableInv l' ∧ (FirstUsed l → FirstUsed l') := by
  obtain ⟨r, hr, hplace⟩ := findEntryWithQid_spec q l 0
  unfold TableSt.free
  rw [h.visited]
  rcases r with _ | i
  · simp only [bind, Except.bind, hr]
    exact ⟨l, h, id⟩
  · obtain ⟨-, hi⟩ := hplace i rfl
    rw [Nat.zero_add] at hi
    simp only [bind, Except.bind, hr, h.slotAt (List.getElem?_eq_getElem hi)]
    by_cases hone : (slotOf l[i]).usage > 1
    · have hne : l[i].2 - 1 ≠ 0 := by
        change l[i].2 > 1 at hone
        bv_omega
      rw [if_pos hone]
      refine ⟨_, h.set (p := (l[i].1, l[i].2 - 1)) hi rfl fun _ => hne, fun hl p' hp' => ?_⟩
      rw [List.getElem?_set] at hp'
      split_ifs at hp'
      · cases hp'
        exact hne
      · exact hl p' hp'
    · rw [if_neg hone]
      exact ⟨l, h, id⟩

theorem TableInv.tail (h : s.TableInv l) (creation : Creation) :
    ∃ l', (s.settle ((s.tail creation).map Prod.snd)).TableInv l' ∧ (FirstUsed l → FirstUsed l') := by
  unfold TableSt.tail
  by_cases h0 : s.qCount = 0
  · rw [if_pos h0]
    rcases creation with _ | err
    · obtain ⟨s', hadd, hs'⟩ := h.addMpq (by rw [← h.count, h0]; exact h.pos)
      simp only [bind, Except.bind, hadd, hs'.visited, queuesOf_spec]
      exact ⟨_, hs', fun hl => firstUsed_append hl (by decide : (1 : BitVec 32) ≠ 0)⟩
    · exact ⟨l, h, id⟩
  · rw [if_neg h0]
    simp only [bind, Except.bind, h.visited, queuesOf_spec]
    exact ⟨l, h, id⟩

theorem TableInv.dropLast {q : Nat} {u : BitVec 32} (h : s.TableInv (l ++ [(q, u)])) :
    TableInv { s with slots := s.slots.set l.length ⟨none, 0⟩, qCount := l.length, doomed := q :: s.doomed } l := by
  have hle := h.le
  rw [List.length_append, List.length_singleton] at hle
  refine ⟨h.pos, ?_, rfl, Nat.le_of_succ_le hle, fun i p hp => ?_, h.noBug, ?_⟩
  · have hroom : s.poolSize - l.length = s.poolSize - (l ++ [(q, u)]).length + 1 := by
      rw [List.length_append, List.length_singleton]
      omega
    show s.slots.set l.length ⟨none, 0⟩ = _
    rw [h.slots, hroom, List.replicate_succ, List.map_append, List.append_assoc, List.set_append_right _ _ (by simp)]
    simp
  · have hlt := (List.getElem?_eq_some_iff.1 hp).1
    exact h.later i p (by rw [List.getElem?_append_left hlt]; exact hp)
  · have honce := h.once
    simpa using honce

theorem TableInv.shrink (h : s.TableInv l) :
    ∃ l', (s.settle (s.shrink.map Prod.snd)).TableInv l' ∧ (FirstUsed l → FirstUsed l') := by
  unfold TableSt.shrink
  by_cases hmany : s.qCount > 1
  · rw [if_pos hmany]
    rcases l.eq_nil_or_concat' with rfl | ⟨l, ⟨q, u⟩, rfl⟩
    · rw [h.count] at hmany
      cases hmany
    have hcount : s.qCount = l.length + 1 := by rw [h.count]; simp
    have hu : u ≠ 0 := h.later (l.length - 1) (q, u) (by
      rw [Nat.sub_add_cancel (by omega)]
      exact List.getElem?_concat_length)
    have hslot := h.slotAt (i := l.length) (p := (q, u)) List.getElem?_concat_length
    rw [hcount, Nat.add_sub_cancel, hslot]
    simp only [bind, Except.bind]
    have hu' : ¬(slotOf (q, u)).usage = 0 := hu
    rw [if_neg hu']
    by_cases hone : (slotOf (q, u)).usage = 1
    · rw [if_pos hone]
      refine ⟨l, h.dropLast, fun hl p hp => hl p ?_⟩
      rw [List.getElem?_append_left (by omega)]
      exact hp
    · rw [if_neg hone]
      exact ⟨_, h, id⟩
  · rw [if_neg hmany]
    exact ⟨l, h, id⟩

theorem TableInv.shrinkAll (h : s.TableInv l) : (s.settle s.shrinkAll).TableInv [] := by
  unfold TableSt.shrinkAll
  rw [h.visited]
  refine ⟨h.pos, ?_, rfl, Nat.zero_le _, fun i p hp => by simp at hp, h.noBug, ?_⟩
  · show List.replicate s.qCount ⟨none, 0⟩ ++ s.slots.drop s.qCount = _
    have hle := h.le
    rw [h.slots, h.count, List.drop_left' (by simp), ← List.replicate_add, List.map_nil, List.nil_append]
    congr 1
    simp only [List.length_nil]
    show _ = s.poolSize - 0
    omega
  · have hfst : (l.map slotOf).filterMap PoolSlot.q = l.map Prod.fst := by
      rw [List.filterMap_map]
      exact congrFun (List.filterMap_eq_map' (f := Prod.fst)) l
    show List.Perm ([] ++ s.doomed ++ (s.destroyed ++ (l.map slotOf).filterMap PoolSlot.q)) (List.range s.created)
    rw [hfst, List.nil_append, ← List.append_assoc]
    refine List.perm_append_comm.trans ?_
    rw [← List.append_assoc]
    exact h.once

/-- A step keeps the table a list, and the first entry in use unless an allocation finds all entries used as often as can
be counted. -/
theorem TableInv.step {a : TableAct} (h : s.TableInv l) (hs : s.step a = some s') :
    ∃ l', s'.TableInv l' ∧ (FirstUsed l → (FirstUsed l' ↔ s.AllocOk a)) := by
  by_cases hfault : s.fault = none
  · unfold TableSt.step at hs
    rw [if_neg (not_not.2 hfault)] at hs
    have hok : (∃ l', s'.TableInv l' ∧ (FirstUsed l → FirstUsed l')) → s.AllocOk a →
        ∃ l', s'.TableInv l' ∧ (FirstUsed l → (FirstUsed l' ↔ s.AllocOk a)) :=
      fun ⟨l', hl', himp⟩ hok => ⟨l', hl', fun hl => ⟨fun _ => hok, fun _ => himp hl⟩⟩
    rcases a with ⟨reads, count, creation⟩ | creation | q | creation | _ | q | _
    · cases hs
      exact hok (h.bestQGet reads count creation) trivial
    · cases hs
      exact h.alloc hfault creation
    · cases hs
      exact hok (h.free q) trivial
    · cases hs
      exact hok (h.tail creation) trivial
    · cases hs
      exact hok h.shrink trivial
    · simp only [Option.ite_none_right_eq_some] at hs
      obtain ⟨hq, ⟨⟩⟩ := hs
      refine hok ⟨l, ⟨h.pos, h.slots, h.count, h.le, h.later, h.noBug, ?_⟩, id⟩ trivial
      have hperm : List.Perm (s.doomed.erase q ++ (s.destroyed ++ [q])) (s.doomed ++ s.destroyed) := by
        rw [← List.append_assoc]
        refine (List.perm_append_singleton _ _).trans ?_
        exact ((List.perm_cons_erase hq).append_right s.destroyed).symm
      have honce := h.once
      rw [List.append_assoc] at honce ⊢
      exact (hperm.append_left _).trans honce
    · cases hs
      exact hok ⟨[], h.shrinkAll, fun _ p hp => by simp at hp⟩ trivial
  · unfold TableSt.step at hs
    rw [if_pos hfault] at hs
    cases hs
    refine ⟨l, h, fun hl => ⟨fun _ => ?_, fun _ => hl⟩⟩
    rcases a <;> first | trivial | exact .inl hfault

end TableSt

end Aosl
