import Aosl.MpqId
import Aosl.Lib.Lists

/-!
# The main queue, `aosl_main_start`

`aosl_main_qid` is -1 while there is no main queue, 0 from the compare-and-swap of `aosl_main_start` on while the queue is
being created, and the id of the queue once it has been. `__q_destroy` of that queue sets it to -1 again. A creation that
fails, for want of a thread or of the queue or because the user's `init` returns an error, leaves it at 0.

`result` is what the thread of a queue has put into `sync.result`: whether there is a queue. A queue that is `gone` has been
through the part of `__q_destroy` that looks at `aosl_main_qid`.
-/

namespace Aosl
open Lib

inductive MainQPhase where
  | init
  | running
  | failing
  | gone
deriving DecidableEq

structure MainQ where
  qid : BitVec 64
  phase : MainQPhase
  terminated : Bool
  result : Option Bool
deriving DecidableEq

/-- Where a thread is in `aosl_main_start`: in `__mpq_create`, before there is a queue or with queue `k`. -/
inductive StartPhase where
  | idle
  | creating
  | waiting (k : Nat)
deriving DecidableEq

structure MainSt where
  mainQid : BitVec 64
  queues : List MainQ
  starters : List StartPhase

inductive MainAct where
  /-- The compare-and-swap of `aosl_main_start`. -/
  | start (t : Nat)
  /-- `__q_create` on the thread of the new queue has succeeded. -/
  | qCreate (t : Nat) (id life : BitVec 16)
  /-- `init` has returned. -/
  | qInit (k : Nat) (ok : Bool)
  /-- `aosl_main_start` gets the queue and returns 0. -/
  | publish (t : Nat)
  /-- `aosl_main_start` gets no queue and returns -1. -/
  | fail (t : Nat)
  /-- `aosl_main_exit` or `aosl_main_exit_wait`. -/
  | exit
  /-- `__q_destroy`. -/
  | qDestroy (k : Nat)
deriving DecidableEq

namespace MainSt

def init (n : Nat) : MainSt := ⟨-1, [], List.replicate n .idle⟩

/-- `__mpq_destroy` of the queue that `__mpq_get (aosl_main_qid)` finds, if it does. -/
def terminate (s : MainSt) : MainSt :=
  { s with queues := s.queues.map fun q =>
      if q.qid = s.mainQid ∧ q.phase ≠ .gone then { q with terminated := true } else q }

def step (s : MainSt) : MainAct → Option MainSt
  | .start t =>
    if s.starters[t]? = some .idle then
      -- otherwise it returns -1 with `AOSL_EEXIST`
      if s.mainQid = -1 then some { s with mainQid := 0, starters := s.starters.set t .creating } else some s
    else none
  | .qCreate t id life =>
    if s.starters[t]? = some .creating ∧ id.toNat < 0x8000 ∧ life ≠ 0 then
      some { s with
        queues := s.queues ++ [⟨makeObjId 64 id life, .init, false, none⟩]
        starters := s.starters.set t (.waiting s.queues.length) }
    else none
  | .qInit k ok => match s.queues[k]? with
    | some ⟨qid, .init, terminated, _⟩ =>
      if ok then some { s with queues := s.queues.set k ⟨qid, .running, terminated, some true⟩ }
      else some { s with queues := s.queues.set k ⟨qid, .failing, true, none⟩ }
    | _ => none
  | .publish t => match s.starters[t]? with
    | some (.waiting k) => match s.queues[k]? with
      | some ⟨qid, _, _, some true⟩ => some { s with mainQid := qid, starters := s.starters.set t .idle }
      | _ => none
    | _ => none
  | .fail t => match s.starters[t]? with
    | some .creating => some { s with starters := s.starters.set t .idle }
    | some (.waiting k) => match s.queues[k]? with
      | some ⟨_, _, _, some false⟩ => some { s with starters := s.starters.set t .idle }
      | _ => none
    | _ => none
  | .exit => some s.terminate
  | .qDestroy k => match s.queues[k]? with
    | some ⟨qid, .running, true, result⟩ => some { s with
        mainQid := if qid = s.mainQid then -1 else s.mainQid
        queues := s.queues.set k ⟨qid, .gone, true, result⟩ }
    | some ⟨qid, .failing, terminated, _⟩ => some { s with
        mainQid := if qid = s.mainQid then -1 else s.mainQid
        queues := s.queues.set k ⟨qid, .gone, terminated, some false⟩ }
    | _ => none

/-- How many main queues there are. -/
def existing (s : MainSt) : Nat := s.queues.countP (·.phase ≠ .gone)

/-- No trace of a main queue: its id is invalid, `aosl_mpq_main` says so, and `aosl_main_start` can go ahead. -/
structure Clear (s : MainSt) : Prop where
  invalid : s.mainQid = -1
  reported : aoslMpqMain s.mainQid = -1
  starts : ∀ t, s.starters[t]? = some .idle → ∃ s', s.step (.start t) = some s' ∧ s'.starters[t]? = some .creating

/-- An `aosl_main_start` returns -1 because the queue could not be created. -/
def CreationFails (s : MainSt) (a : MainAct) : Prop := ∃ t, a = .fail t ∧ (s.step a).isSome = true

/-! ### Whose turn it is -/

/-- Who is behind the value of `aosl_main_qid`: nobody, a thread that creates the queue (without or with a queue `k`), the
queue `k` itself, or a thread that has left it at 0. -/
inductive Owner where
  | none
  | creating (t : Nat)
  | waiting (t k : Nat)
  | main (k : Nat)
  | stuck
deriving DecidableEq

def Owner.phase : Owner → Nat → StartPhase
  | creating u, t => if t = u then .creating else .idle
  | waiting u k, t => if t = u then .waiting k else .idle
  | _, _ => .idle

/-- What the owner says of queue `k`. -/
def Owner.Has (k : Nat) (q : MainQ) : Owner → Prop
  | waiting _ j => if k = j then (q.phase = .init ∧ q.terminated = false ∧ q.result = Option.none) ∨
      (q.phase = .running ∧ q.terminated = false ∧ q.result = some true) ∨ (q.phase = .failing ∧ q.result = Option.none) ∨
      (q.phase = .gone ∧ q.result = some false)
    else q.phase = .gone
  | main j => if k = j then q.phase = .running else q.phase = .gone
  | _ => q.phase = .gone

def Owner.qid (s : MainSt) : Owner → Option (BitVec 64)
  | none => some (-1)
  | main k => s.queues[k]?.map MainQ.qid
  | _ => some 0

structure Owned (s : MainSt) (o : Owner) : Prop where
  starters : ∀ (t : Nat) (ph : StartPhase), s.starters[t]? = some ph → ph = o.phase t
  qid : o.qid s = some s.mainQid
  queues : ∀ (k : Nat) (q : MainQ), s.queues[k]? = some q → q.qid ≠ 0 ∧ q.qid ≠ -1 ∧ o.Has k q

variable {s s' : MainSt} {o o' : Owner}

theorem Owned.existing_le (h : s.Owned o) : s.existing ≤ 1 := by
  have hgone : ∃ j, ∀ (k : Nat) (q : MainQ), s.queues[k]? = some q → k ≠ j → q.phase = .gone := by
    rcases o with _ | t | ⟨t, j⟩ | j | _
    case waiting | main =>
      refine ⟨j, fun k q hq hk => ?_⟩
      have hhas := (h.queues k q hq).2.2
      simp only [Owner.Has, if_neg hk] at hhas
      exact hhas
    all_goals exact ⟨0, fun k q hq _ => (h.queues k q hq).2.2⟩
  obtain ⟨j, hj⟩ := hgone
  exact countP_le_one j fun k q hq hk => by simp [hj k q hq hk]

theorem Owned.goto (h : s.Owned o) {t : Nat} {ph : StartPhase} {mainQid : BitVec 64} (ht : o'.phase t = ph)
    (hother : ∀ u, u ≠ t → o'.phase u = o.phase u) (hqid : o'.qid s = some mainQid)
    (hqueues : ∀ (k : Nat) (q : MainQ), s.queues[k]? = some q → o.Has k q → o'.Has k q) :
    Owned { s with mainQid := mainQid, starters := s.starters.set t ph } o' := by
  refine ⟨fun u ph' hu => ?_, ?_, fun k q hq => ?_⟩
  · by_cases hut : u = t
    · subst hut
      rw [List.getElem?_set, if_pos rfl] at hu
      split_ifs at hu
      rw [ht]
      exact (Option.some.inj hu).symm
    · rw [List.getElem?_set_ne (Ne.symm hut)] at hu
      rw [hother u hut]
      exact h.starters u ph' hu
  · rcases o' <;> exact hqid
  · obtain ⟨h0, h1, hhas⟩ := h.queues k q hq
    exact ⟨h0, h1, hqueues k q hq hhas⟩

theorem Owned.goQueue (h : s.Owned o) {k : Nat} {q q' : MainQ} {mainQid : BitVec 64} (hq : s.queues[k]? = some q)
    (hid : q'.qid = q.qid) (hphase : ∀ t, o'.phase t = o.phase t)
    (hqid : o'.qid { s with queues := s.queues.set k q' } = some mainQid) (hhas : o'.Has k q')
    (hother : ∀ (j : Nat) (r : MainQ), j ≠ k → o.Has j r → o'.Has j r) :
    Owned { s with mainQid := mainQid, queues := s.queues.set k q' } o' := by
  refine ⟨fun t ph ht => ?_, ?_, fun j r hr => ?_⟩
  · rw [hphase]
    exact h.starters t ph ht
  · rcases o' <;> exact hqid
  · by_cases hj : j = k
    · subst hj
      rw [show ({ s with mainQid := mainQid, queues := s.queues.set j q' } : MainSt).queues = s.queues.set j q' from rfl,
        getElem?_set_self hq] at hr
      obtain rfl := Option.some.inj hr
      rw [hid]
      exact ⟨(h.queues j q hq).1, (h.queues j q hq).2.1, hhas⟩
    · rw [show ({ s with mainQid := mainQid, queues := s.queues.set k q' } : MainSt).queues = s.queues.set k q' from rfl,
        getElem?_set_ne (Ne.symm hj)] at hr
      obtain ⟨h0, h1, hr'⟩ := h.queues j r hr
      exact ⟨h0, h1, hother j r hj hr'⟩

theorem makeObjId_ne {id life : BitVec 16} (hid : id.toNat < 0x8000) (hlife : life ≠ 0) :
    makeObjId 64 id life ≠ 0 ∧ makeObjId 64 id life ≠ -1 := by
  have hval : (makeObjId 64 id life).toNat = life.toNat * 0x10000 + id.toNat := toNat_makeObjId (by decide) hid
  have hpos : life.toNat ≠ 0 := fun h0 => hlife (BitVec.eq_of_toNat_eq h0)
  have hlt := life.isLt
  constructor
  · intro heq
    rw [heq] at hval
    simp at hval
    omega
  · intro heq
    rw [heq] at hval
    simp at hval
    omega

theorem Owned.creating {t : Nat} (h : s.Owned o) (ht : s.starters[t]? = some .creating) : o = .creating t := by
  have hph := h.starters t _ ht
  rcases o with _ | u | ⟨u, k⟩ | k | _ <;> simp only [Owner.phase, reduceCtorEq] at hph
  · split_ifs at hph with htu
    rw [htu]
  · split_ifs at hph

theorem Owned.waiting {t k : Nat} (h : s.Owned o) (ht : s.starters[t]? = some (.waiting k)) : o = .waiting t k := by
  have hph := h.starters t _ ht
  rcases o with _ | u | ⟨u, j⟩ | j | _ <;> simp only [Owner.phase, reduceCtorEq] at hph
  · split_ifs at hph
  · split_ifs at hph with htu
    cases hph
    rw [htu]

theorem Owned.none (h : s.Owned o) (hqid : s.mainQid = -1) : o = .none := by
  have ho := h.qid
  rw [hqid] at ho
  rcases o with _ | u | ⟨u, k⟩ | k | _
  · rfl
  · cases ho
  · cases ho
  · obtain ⟨q, hq, hq'⟩ := Option.map_eq_some_iff.1 ho
    exact absurd hq' (h.queues k q hq).2.1
  · cases ho

theorem Owned.start {t : Nat} (h : s.Owned o) (hs : s.step (.start t) = some s') : ∃ o', s'.Owned o' := by
  simp only [MainSt.step, Option.ite_none_right_eq_some] at hs
  obtain ⟨-, hs⟩ := hs
  split_ifs at hs with hqid
  · cases hs
    obtain rfl := h.none hqid
    exact ⟨.creating t, h.goto (if_pos rfl) (fun u hu => if_neg hu) rfl fun k q _ hhas => hhas⟩
  · cases hs
    exact ⟨o, h⟩

theorem Owned.qCreate {t : Nat} {id life : BitVec 16} (h : s.Owned o) (hs : s.step (.qCreate t id life) = some s') :
    ∃ o', s'.Owned o' := by
  simp only [MainSt.step, Option.ite_none_right_eq_some] at hs
  obtain ⟨⟨ht, hid, hlife⟩, ⟨⟩⟩ := hs
  obtain rfl := h.creating ht
  have hgoto := @Owned.goto s _ (.waiting t s.queues.length) h t _ s.mainQid (if_pos rfl)
    (fun u hu => by simp [Owner.phase, hu]) h.qid fun k q hq hhas => by
      have hlt : k ≠ s.queues.length := Nat.ne_of_lt (List.getElem?_eq_some_iff.1 hq).1
      simp only [Owner.Has, if_neg hlt]
      exact hhas
  refine ⟨.waiting t s.queues.length, hgoto.starters, hgoto.qid, fun k q hq => ?_⟩
  rcases getElem?_concat_cases hq with ⟨-, hq⟩ | ⟨rfl, rfl⟩
  · exact hgoto.queues k q hq
  · obtain ⟨h0, h1⟩ := makeObjId_ne hid hlife
    exact ⟨h0, h1, by simp [Owner.Has]⟩

theorem Owned.owner {k : Nat} {q : MainQ} (h : s.Owned o) (hq : s.queues[k]? = some q) (hne : q.phase ≠ .gone) :
    (∃ t, o = .waiting t k) ∨ o = .main k := by
  have hhas := (h.queues k q hq).2.2
  rcases o with _ | u | ⟨u, j⟩ | j | _
  case waiting | main =>
    by_cases hk : k = j
    · subst hk
      first | exact .inl ⟨u, rfl⟩ | exact .inr rfl
    · simp only [Owner.Has, if_neg hk] at hhas
      exact absurd hhas hne
  all_goals exact absurd hhas hne

theorem Owned.qInit {k : Nat} {ok : Bool} (h : s.Owned o) (hs : s.step (.qInit k ok) = some s') : ∃ o', s'.Owned o' := by
  simp only [MainSt.step] at hs
  rcases hq : s.queues[k]? with _ | ⟨qid, ph, terminated, result⟩
  · rw [hq] at hs
    cases hs
  rw [hq] at hs
  rcases ph with _ | _ | _ | _ <;> simp only [reduceCtorEq] at hs
  -- a main queue is running, so the queue is the one a starter waits for
  have hhas := (h.queues k _ hq).2.2
  obtain ⟨t, rfl⟩ | rfl := h.owner hq MainQPhase.noConfusion
  · simp only [Owner.Has, if_true, reduceCtorEq, false_and, or_false, true_and] at hhas
    obtain ⟨rfl, rfl⟩ := hhas
    have hother : ∀ (j : Nat) (r : MainQ), j ≠ k → (Owner.waiting t k).Has j r → (Owner.waiting t k).Has j r :=
      fun _ _ _ hr => hr
    split_ifs at hs <;> cases hs
    · exact ⟨.waiting t k, h.goQueue hq rfl (fun _ => rfl) h.qid (by simp [Owner.Has]) hother⟩
    · exact ⟨.waiting t k, h.goQueue hq rfl (fun _ => rfl) h.qid (by simp [Owner.Has]) hother⟩
  · simp [Owner.Has] at hhas

theorem Owned.publish {t : Nat} (h : s.Owned o) (hs : s.step (.publish t) = some s') : ∃ o', s'.Owned o' := by
  simp only [MainSt.step] at hs
  rcases ht : s.starters[t]? with _ | _ | _ | k
  · simp [ht] at hs
  · simp [ht] at hs
  · simp [ht] at hs
  obtain rfl := h.waiting ht
  rcases hq : s.queues[k]? with _ | ⟨qid, ph, terminated, _ | _ | _⟩
  · simp [ht, hq] at hs
  · simp [ht, hq] at hs
  · simp [ht, hq] at hs
  simp only [ht, hq, Option.some.injEq] at hs
  subst hs
  refine ⟨.main k, h.goto rfl (fun u hu => by simp [Owner.phase, hu]) (by simp [Owner.qid, hq]) fun j r hr hhas => ?_⟩
  by_cases hj : j = k
  · subst hj
    obtain rfl := Option.some.inj (hq.symm.trans hr)
    have hrunning : ph = .running ∧ terminated = false := by simpa [Owner.Has] using hhas
    simpa [Owner.Has] using hrunning.1
  · simp only [Owner.Has, if_neg hj] at hhas ⊢
    exact hhas

/-- After a creation that has failed `aosl_main_qid` stays at 0, with nobody to reset it. -/
theorem Owned.fail {t : Nat} (h : s.Owned o) (hs : s.step (.fail t) = some s') : s'.Owned .stuck := by
  simp only [MainSt.step] at hs
  rcases ht : s.starters[t]? with _ | _ | _ | k
  · simp [ht] at hs
  · simp [ht] at hs
  · obtain rfl := h.creating ht
    simp only [ht, Option.some.injEq] at hs
    subst hs
    exact h.goto rfl (fun u hu => by simp [Owner.phase, hu]) h.qid fun k q _ hhas => hhas
  · obtain rfl := h.waiting ht
    rcases hq : s.queues[k]? with _ | ⟨qid, ph, terminated, _ | _ | _⟩
    · simp [ht, hq] at hs
    · simp [ht, hq] at hs
    · simp only [ht, hq, Option.some.injEq] at hs
      subst hs
      refine h.goto rfl (fun u hu => by simp [Owner.phase, hu]) h.qid fun j r hr hhas => ?_
      by_cases hj : j = k
      · subst hj
        obtain rfl := Option.some.inj (hq.symm.trans hr)
        simp only [Owner.Has, if_true] at hhas ⊢
        simpa using hhas
      · simp only [Owner.Has, if_neg hj] at hhas ⊢
        exact hhas
    · simp [ht, hq] at hs

/-- Only a queue that `aosl_main_qid` names is told to terminate. -/
theorem Owned.terminate (h : s.Owned o) : s.terminate.Owned o := by
  have hget : ∀ (k : Nat) (q' : MainQ), s.terminate.queues[k]? = some q' → ∃ q : MainQ, s.queues[k]? = some q ∧
      q'.qid = q.qid ∧ q'.phase = q.phase ∧ (q.qid ≠ s.mainQid → q' = q) := by
    intro k q' hq'
    rw [MainSt.terminate, List.getElem?_map, Option.map_eq_some_iff] at hq'
    obtain ⟨q, hq, rfl⟩ := hq'
    refine ⟨q, hq, ?_⟩
    by_cases hc : q.qid = s.mainQid ∧ q.phase ≠ .gone
    · rw [if_pos hc]
      exact ⟨rfl, rfl, fun hne => absurd hc.1 hne⟩
    · rw [if_neg hc]
      exact ⟨rfl, rfl, fun _ => rfl⟩
  refine ⟨h.starters, ?_, fun k q' hq' => ?_⟩
  · have hqid := h.qid
    rcases o with _ | u | ⟨u, j⟩ | j | _ <;> try exact hqid
    obtain ⟨q, hq, hqq⟩ := Option.map_eq_some_iff.1 hqid
    have hj : j < s.terminate.queues.length := by
      rw [MainSt.terminate, List.length_map]
      exact (List.getElem?_eq_some_iff.1 hq).1
    obtain ⟨r, hr, hid, -⟩ := hget j _ (List.getElem?_eq_getElem hj)
    obtain rfl := Option.some.inj (hq.symm.trans hr)
    rw [Owner.qid, List.getElem?_eq_getElem hj, Option.map_some, hid, hqq]
    rfl
  · obtain ⟨q, hq, hid, hphase, hsame⟩ := hget k q' hq'
    obtain ⟨h0, h1, hhas⟩ := h.queues k q hq
    refine ⟨hid ▸ h0, hid ▸ h1, ?_⟩
    rcases o with _ | u | ⟨u, j⟩ | j | _
    case waiting =>
      -- the id of the queue is not yet in `aosl_main_qid`
      have hqid : (0 : BitVec 64) = s.mainQid := Option.some.inj h.qid
      rw [hsame (hqid ▸ h0)]
      exact hhas
    all_goals simpa only [Owner.Has, hphase] using hhas

theorem Owned.qDestroy {k : Nat} (h : s.Owned o) (hs : s.step (.qDestroy k) = some s') : ∃ o', s'.Owned o' := by
  simp only [MainSt.step] at hs
  rcases hq : s.queues[k]? with _ | ⟨qid, ph, terminated, result⟩
  · simp [hq] at hs
  obtain ⟨h0, -, hhas⟩ := h.queues k _ hq
  rcases ph with _ | _ | _ | _
  · simp [hq] at hs
  · -- the main queue: it resets its own id
    rcases terminated with _ | _
    · simp [hq] at hs
    obtain ⟨t, rfl⟩ | rfl := h.owner hq MainQPhase.noConfusion
    · simp [Owner.Has] at hhas
    have hmain : qid = s.mainQid := by simpa [Owner.qid, hq] using h.qid
    simp only [hq, if_pos hmain, Option.some.injEq] at hs
    subst hs
    refine ⟨.none, h.goQueue hq rfl (fun _ => rfl) rfl rfl fun j r hj hr => ?_⟩
    simpa [Owner.Has, hj] using hr
  · -- the queue of a failed `init`
    obtain ⟨t, rfl⟩ | rfl := h.owner hq MainQPhase.noConfusion
    · have hqid : (0 : BitVec 64) = s.mainQid := Option.some.inj h.qid
      have hne : ¬ qid = s.mainQid := hqid ▸ h0
      simp only [hq, if_neg hne, Option.some.injEq] at hs
      subst hs
      exact ⟨.waiting t k, h.goQueue hq rfl (fun _ => rfl) h.qid (by simp [Owner.Has]) fun _ _ _ hr => hr⟩
    · simp [Owner.Has] at hhas
  · simp [hq] at hs

theorem Owned.step {a : MainAct} (h : s.Owned o) (hs : s.step a = some s') : ∃ o', s'.Owned o' := by
  rcases a with t | ⟨t, id, life⟩ | ⟨k, ok⟩ | t | t | _ | k
  · exact h.start hs
  · exact h.qCreate hs
  · exact h.qInit hs
  · exact h.publish hs
  · exact ⟨_, h.fail hs⟩
  · exact ⟨o, Option.some.inj hs ▸ h.terminate⟩
  · exact h.qDestroy hs

theorem owned_init (n : Nat) : (init n).Owned .none := by
  refine ⟨fun t ph ht => ?_, rfl, fun k q hq => by cases hq⟩
  rw [init, List.getElem?_replicate] at ht
  split_ifs at ht
  exact (Option.some.inj ht).symm

theorem owned_run {n : Nat} {acts : List MainAct} (h : exec step (init n) acts = some s) : ∃ o, s.Owned o :=
  exec_invariant_all (I := fun s => ∃ o, s.Owned o) (fun _ _ _ ⟨_, ho⟩ hs => ho.step hs) ⟨_, owned_init n⟩ h

theorem Owned.traceless_iff {a : MainAct} (h : s.Owned o) :
    (∀ t s', a = .fail t → s.step a = some s' → s'.Clear) ↔ ¬ s.CreationFails a := by
  constructor
  · rintro hclear ⟨t, rfl, hsome⟩
    obtain ⟨s', hs'⟩ := Option.isSome_iff_exists.1 hsome
    have hzero : (0 : BitVec 64) = s'.mainQid := Option.some.inj (h.fail hs').qid
    have hinvalid := (hclear t s' rfl hs').invalid
    rw [← hzero] at hinvalid
    cases hinvalid
  · rintro hnot t s' rfl hs'
    exact absurd ⟨t, rfl, by rw [hs']; rfl⟩ hnot

/-- At every moment there is at most one main queue. An `aosl_main_start` that fails to create the queue never leaves
`aosl_main_qid` invalid: the starts of a run leave no trace exactly when none of them fails so. -/
theorem main_start_traceless_iff (n : Nat) (acts : List MainAct) :
    (∀ bs s, bs <+: acts → exec step (init n) bs = some s → s.existing ≤ 1) ∧
      (Along step (fun s a => ∀ t s', a = .fail t → s.step a = some s' → s'.Clear) (init n) acts ↔
        Along step (fun s a => ¬ s.CreationFails a) (init n) acts) := by
  constructor
  · intro bs s _ hrun
    obtain ⟨o, ho⟩ := owned_run hrun
    exact ho.existing_le
  · rw [along_iff_of_prefixes, along_iff_of_prefixes]
    refine forall_congr' fun bs => forall_congr' fun a => forall_congr' fun s => forall_congr' fun _ =>
      forall_congr' fun hrun => ?_
    obtain ⟨o, ho⟩ := owned_run hrun
    exact ho.traceless_iff

/-- `init` of the main queue fails: `aosl_main_qid` is left at 0, `aosl_mpq_main` returns 0, and the next
`aosl_main_start` is refused. -/
theorem not_main_start_traceless : ∃ s, exec step (init 2) [.start 0, .qCreate 0 0 1, .qInit 0 false, .qDestroy 0,
      .fail 0] = some s ∧ ¬ s.Clear ∧ aoslMpqMain s.mainQid = 0 ∧
    (s.step (.start 1)).map MainSt.starters = some [.idle, .idle] := by
  have hany : (exec step (init 2) [.start 0, .qCreate 0 0 1, .qInit 0 false, .qDestroy 0, .fail 0]).any (fun s =>
      decide (aoslMpqMain s.mainQid = 0 ∧ (s.step (.start 1)).map MainSt.starters = some [.idle, .idle])) = true := by
    decide +kernel
  obtain ⟨s, hs, hd⟩ := (Option.any_eq_true ..).1 hany
  obtain ⟨hmain, hstart⟩ := of_decide_eq_true hd
  refine ⟨s, hs, fun hclear => ?_, hmain, hstart⟩
  have hreported := hclear.reported
  rw [hmain] at hreported
  cases hreported

end MainSt

end Aosl
