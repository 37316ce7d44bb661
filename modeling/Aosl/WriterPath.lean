import Aosl.FdCallRun

/-!
# Which writer the bytes go through

`__iofd_write_data` writes what waits in the queue with `f->write_f`. `____write` calls `aosl_hal_sk_write` itself while
nothing waits; that is what `__default_write` does too, but not a writer of the user.

Of a call that the OS has taken a part of and that fails for want of memory, no byte is accepted. No call does fail so
(`malloc` is always true), as `aosl_malloc` aborts where there is no memory.
-/

namespace Aosl
open Lib

structure WriterSt (β : Type) where
  q : WSt β
  /-- `write_f` was given by the user. -/
  custom : Bool
  /-- The accepted bytes that `write_f` has taken, or `aosl_hal_sk_write` where `write_f` is `__default_write`. -/
  written : List β

inductive WriterAct (β : Type) where
  | write (buf : List β) (res : HalRes) (malloc : Bool)
  | writable (results : List HalRes)

namespace WSt

variable {β : Type}

/-- What the OS takes from a buffer before the call queues the rest. -/
def taken (s : WSt β) (buf : List β) : HalRes → List β
  | .sent n => if buf.length ≤ s.wQueueSpace ∧ s.head = none ∧ s.notReady = false then buf.take n else []
  | _ => []

/-- The bytes that the OS has taken since `s`. -/
def newly (s s' : WSt β) : List β := s'.accepted.drop s.accepted.length

end WSt

namespace WriterSt

variable {β : Type}

def init (custom notReady : Bool) : WriterSt β := ⟨WSt.init notReady, custom, []⟩

def step (s : WriterSt β) : WriterAct β → Option (WriterSt β)
  | .write buf res malloc =>
    let r := s.q.write buf res malloc
    some { s with
      q := WSt.log buf r
      written := s.written ++ if s.custom = false ∧ r.1 = buf.length then s.q.newly r.2 else [] }
  | .writable results =>
    some { s with q := s.q.writeData results, written := s.written ++ s.q.newly (s.q.writeData results) }

/-- The accepted bytes went through `write_f` in their order, each of them once, but for those that still wait. -/
def Through (s : WriterSt β) : Prop := ∃ l, s.q.Queue l ∧ s.written ++ s.q.pending l = s.q.full

/-- A call accepts its buffer and writes bytes of it to the OS, past a `write_f` of the user. -/
def Bypasses (s : WriterSt β) : WriterAct β → Prop
  | .write buf res malloc => s.custom = true ∧ s.q.taken buf res ≠ [] ∧ (s.q.taken buf res = buf ∨ malloc = true)
  | .writable _ => False

end WriterSt

namespace WSt

variable {β : Type} {s s' : WSt β} {l : List Nat} {buf t : List β} {malloc : Bool} {res : HalRes}

theorem newly_eq (h : s'.accepted = s.accepted ++ t) : s.newly s' = t := by
  rw [newly, h, List.drop_left]

theorem writeLoop_accepted (results : List HalRes) : s.accepted <+: (s.writeLoop results).accepted := by
  induction results generalizing s with
  | nil => exact List.prefix_rfl
  | cons res results ih =>
    unfold writeLoop
    split
    case h_1 => exact List.prefix_rfl
    case h_2 b n hhead =>
      have hnode : s.accepted <+: (s.writeNode b n).accepted := List.prefix_append ..
      split
      · exact hnode
      · exact hnode.trans (ih (s := (s.writeNode b n).wQueueRemoveHead b))
    case h_3 => exact List.prefix_rfl
    case h_4 => exact List.prefix_rfl

theorem queueIt_accepted (len : Nat) (rest : List β) (extra : Nat) (malloc : Bool) :
    (s.queueIt len rest extra malloc).2.accepted = s.accepted := by
  cases malloc with
  | true => exact (fields_queueIt s len rest extra).2.1
  | false => rfl

theorem put_accepted (extra : Nat) (poll : Bool) :
    (s.put extra poll buf res malloc).2.accepted = s.accepted ++ s.taken buf res := by
  have hnil : ∀ s' : WSt β, s'.accepted = s.accepted → s.taken buf res = [] →
      s'.accepted = s.accepted ++ s.taken buf res :=
    fun s' he ht => by rw [ht, List.append_nil, he]
  have hnone : ¬(buf.length ≤ s.wQueueSpace ∧ s.head = none ∧ s.notReady = false) → s.taken buf res = [] := by
    intro hn
    cases res with
    | sent n => exact if_neg hn
    | eagain | eintr | einprogress | ehal => rfl
  have hspace : s.wQueueSpace ≤ 131072 := by
    unfold wQueueSpace
    split <;> omega
  unfold WSt.put
  split
  case isTrue hbig => exact hnil _ rfl (hnone fun hc => by omega)
  case isFalse =>
    split
    case isTrue hfull => exact hnil _ rfl (hnone fun hc => by omega)
    case isFalse hfits =>
      split
      case isTrue hwait =>
        refine hnil _ (queueIt_accepted ..) (hnone fun hc => ?_)
        simp [hc.2.1, hc.2.2] at hwait
      case isFalse hnow =>
        have hdirect : buf.length ≤ s.wQueueSpace ∧ s.head = none ∧ s.notReady = false :=
          ⟨Nat.not_lt.1 hfits, by simpa using hnow⟩
        cases res with
        | sent n =>
          rw [taken, if_pos hdirect, writeNow]
          split
          case isTrue hzero =>
            have hnil : buf.take n = [] := List.length_eq_zero_iff.1 (by rw [List.length_take]; exact hzero)
            rw [hnil, List.append_nil]
          case isFalse =>
            split
            case isTrue => exact queueIt_accepted ..
            case isFalse hge =>
              rw [List.take_of_length_le (Nat.not_lt.1 hge)]
              rfl
        | eagain | eintr | einprogress | ehal => exact (List.append_nil _).symm

theorem direct_of_taken (h : s.taken buf res ≠ []) : ∃ n, res = .sent n ∧ buf.length ≤ s.wQueueSpace ∧ s.head = none ∧
    s.notReady = false ∧ s.taken buf res = buf.take n ∧ 0 < n := by
  cases res with
  | sent n =>
    rw [taken] at h ⊢
    split at h
    case isTrue hdirect =>
      refine ⟨n, rfl, hdirect.1, hdirect.2.1, hdirect.2.2, if_pos hdirect, Nat.pos_of_ne_zero fun h0 => h ?_⟩
      rw [h0, List.take_zero]
    case isFalse => exact absurd rfl h
  | eagain | eintr | einprogress | ehal => exact absurd rfl h

/-- A buffer that the OS has taken bytes of is accepted if all of it was taken, or the rest can be queued. -/
theorem put_accepts_iff (h : s.taken buf res ≠ []) (extra : Nat) (poll : Bool) :
    (s.put extra poll buf res malloc).1 = buf.length ↔ s.taken buf res = buf ∨ malloc = true := by
  obtain ⟨n, rfl, hspace, hhead, hready, htaken, hpos⟩ := direct_of_taken h
  rw [htaken] at h ⊢
  rcases Nat.lt_or_ge n buf.length with hlt | hge
  · have hne : buf.take n ≠ buf := fun he => by
      have := congrArg List.length he
      rw [List.length_take] at this
      omega
    rw [put_partWritten ⟨hspace, hhead, hready, hpos, hlt⟩]
    cases malloc with
    | true => exact ⟨fun _ => .inr rfl, fun _ => rfl⟩
    | false =>
      refine ⟨fun hret => ?_, fun hc => absurd (hc.resolve_right Bool.false_ne_true) hne⟩
      have hneg : (-1012 : Int) = buf.length := hret
      omega
  · have hmax : s.wQueueSpace ≤ 131072 := by
      unfold wQueueSpace
      split <;> omega
    have hlen : buf.length ≠ 0 := fun h0 => h (by rw [List.length_eq_zero_iff.1 h0, List.take_nil])
    refine ⟨fun _ => .inl (List.take_of_length_le hge), fun _ => ?_⟩
    rw [put, if_neg (by omega), if_neg (by omega), if_neg (by simp [hhead, hready]), writeNow, if_neg (by omega),
      if_neg (by omega)]

/-- What a call does to the queue: it takes in the rest of an accepted buffer, or stays as it is. -/
theorem Queue.put_pending (h : s.Queue l) (buf : List β) (res : HalRes) (malloc : Bool)
    (extra : Nat) (poll : Bool) : ∃ l',
    (s.put extra poll buf res malloc).2.Queue l' ∧ (s.put extra poll buf res malloc).2.calls = s.calls ∧
    if (s.put extra poll buf res malloc).1 = buf.length then
      s.taken buf res ++ (s.put extra poll buf res malloc).2.pending l' = s.pending l ++ buf
    else (s.put extra poll buf res malloc).2.pending l' = s.pending l := by
  by_cases hlost : s.PartWritten buf res ∧ malloc = false
  · obtain ⟨hpart, rfl⟩ := hlost
    cases res with
    | sent n =>
      rw [put_partWritten hpart]
      refine ⟨l, { h with }, rfl, ?_⟩
      rw [if_neg]
      · rfl
      · show ¬(-1012 : Int) = buf.length
        omega
    | eagain | eintr | einprogress | ehal => exact hpart.elim
  · have hfits : s.PartWritten buf res → malloc = true := fun hpart =>
      eq_true_of_ne_false fun hf => hlost ⟨hpart, hf⟩
    obtain ⟨l', hl', heq, hcalls⟩ := h.put extra poll hfits
    rw [put_accepted, List.append_assoc, List.append_assoc, List.append_cancel_left_eq] at heq
    refine ⟨l', hl', hcalls, ?_⟩
    split
    case isTrue hret => rwa [hret, gain, if_pos rfl] at heq
    case isFalse hret =>
      rw [gain, if_neg hret, List.append_nil] at heq
      by_cases ht : s.taken buf res = []
      · rwa [ht] at heq
      · obtain ⟨n, -, -, hhead, -⟩ := direct_of_taken ht
        obtain rfl : l = [] := List.head?_eq_none_iff.1 (h.head.symm.trans hhead)
        exact absurd (List.append_eq_nil_iff.1 heq).1 ht

end WSt

namespace WriterSt

variable {β : Type} {s s' : WriterSt β} {a : WriterAct β} {l : List Nat}

theorem step_write (h : s.q.Queue l) (buf : List β) (res : HalRes) (malloc : Bool) :
    ∃ s' l', s.step (.write buf res malloc) = some s' ∧ s'.custom = s.custom ∧ s'.q.Queue l' ∧
      s'.q.full = s.q.full ++ WSt.gain buf (s.q.write buf res malloc).1 ∧
      (if (s.q.write buf res malloc).1 = buf.length then
        s.q.taken buf res ++ s'.q.pending l' = s.q.pending l ++ buf
      else s'.q.pending l' = s.q.pending l) ∧
      s'.written = s.written ++
        if s.custom = false ∧ (s.q.write buf res malloc).1 = buf.length then s.q.taken buf res else [] := by
  obtain ⟨l', hl', hcalls, hpend⟩ := h.put_pending buf res malloc 0 true
  have hcalls : (s.q.write buf res malloc).2.calls = s.q.calls := hcalls
  have htaken : s.q.newly (s.q.write buf res malloc).2 = s.q.taken buf res := WSt.newly_eq (WSt.put_accepted 0 true)
  refine ⟨_, l', rfl, rfl, { hl' with }, ?_, hpend, ?_⟩
  · rw [WSt.full_log, WSt.full, hcalls, WSt.full]
  · rw [← htaken]

theorem step_writable (h : s.q.Queue l) (results : List HalRes) :
    ∃ s' l', s.step (.writable results) = some s' ∧ s'.custom = s.custom ∧ s'.q.Queue l' ∧ s'.q.full = s.q.full ∧
      s'.written ++ s'.q.pending l' = s.written ++ s.q.pending l := by
  have hready : { s.q with notReady := false }.Queue l := { h with }
  obtain ⟨l', hl', heq, hcalls⟩ := hready.writeLoop results
  obtain ⟨t, ht⟩ := WSt.writeLoop_accepted (s := { s.q with notReady := false }) results
  have hnew : s.q.newly (s.q.writeData results) = t := WSt.newly_eq ht.symm
  refine ⟨_, l', rfl, rfl, hl', ?_, ?_⟩
  · rw [WSt.full, WSt.writeData, hcalls, WSt.full]
  · rw [← ht, List.append_assoc, List.append_cancel_left_eq] at heq
    rw [hnew, List.append_assoc, List.append_cancel_left_eq]
    exact heq

/-- A step keeps the accepted bytes on the way through `write_f` exactly if it does not bypass it. -/
theorem Through.step_iff (h : s.Through) (hs : s.step a = some s') : s'.Through ↔ ¬s.Bypasses a := by
  obtain ⟨l, hq, heq⟩ := h
  cases a with
  | writable results =>
    obtain ⟨s'', l', hs', -, hl', hfull, hbytes⟩ := step_writable hq results
    obtain rfl := Option.some.inj (hs.symm.trans hs')
    exact iff_of_true ⟨l', hl', by rw [hbytes, heq, hfull]⟩ not_false
  | write buf res malloc =>
    obtain ⟨s'', l', hs', -, hl', hfull, hpend, hwritten⟩ := step_write hq buf res malloc
    obtain rfl := Option.some.inj (hs.symm.trans hs')
    by_cases hret : (s.q.write buf res malloc).1 = buf.length
    case neg =>
      rw [if_neg hret] at hpend
      rw [if_neg fun hc => hret hc.2, List.append_nil] at hwritten
      refine iff_of_true ⟨l', hl', ?_⟩ fun hb => ?_
      · rw [hwritten, hpend, heq, hfull, WSt.gain, if_neg hret, List.append_nil]
      · exact hret ((WSt.put_accepts_iff hb.2.1 0 true).2 hb.2.2)
    case pos =>
      rw [if_pos hret] at hpend
      rw [WSt.gain, if_pos hret] at hfull
      cases hcustom : s.custom with
      | false =>
        rw [if_pos ⟨hcustom, hret⟩] at hwritten
        refine iff_of_true ⟨l', hl', ?_⟩ fun hb => ?_
        · rw [hwritten, List.append_assoc, hpend, ← List.append_assoc, heq, hfull]
        · exact Bool.false_ne_true (hcustom.symm.trans hb.1)
      | true =>
        rw [if_neg fun hc => Bool.false_ne_true (hc.1.symm.trans hcustom), List.append_nil] at hwritten
        by_cases ht : s.q.taken buf res = []
        · rw [ht, List.nil_append] at hpend
          exact iff_of_true ⟨l', hl', by rw [hwritten, hpend, ← List.append_assoc, heq, hfull]⟩ fun hb => hb.2.1 ht
        · -- the bytes that the OS has taken are missing
          refine iff_of_false ?_ (not_not_intro ⟨hcustom, ht, (WSt.put_accepts_iff ht 0 true).1 hret⟩)
          rintro ⟨l'', hl'', hbytes⟩
          rw [hl''.unique hl', hwritten, hfull, ← heq, List.append_assoc, ← hpend, List.append_cancel_left_eq] at hbytes
          have hlen := congrArg List.length hbytes
          rw [List.length_append] at hlen
          have hpos := List.length_pos_iff.2 ht
          omega

theorem Through.queue (h : s.Through) : ∃ l, s.q.Queue l := h.imp fun _ hl => hl.1

theorem exists_step (h : ∃ l, s.q.Queue l) (a : WriterAct β) : ∃ s', s.step a = some s' ∧ ∃ l, s'.q.Queue l := by
  obtain ⟨l, hq⟩ := h
  cases a with
  | write buf res malloc =>
    obtain ⟨s', l', hs', -, hl', -⟩ := step_write hq buf res malloc
    exact ⟨s', hs', l', hl'⟩
  | writable results =>
    obtain ⟨s', l', hs', -, hl', -⟩ := step_writable hq results
    exact ⟨s', hs', l', hl'⟩

theorem through_init (custom notReady : Bool) : (init custom notReady : WriterSt β).Through :=
  ⟨[], ⟨trivial, rfl, rfl, rfl, rfl, Nat.zero_le _, List.nodup_nil, nofun⟩, rfl⟩

/-- Along a run all accepted bytes go through `write_f`, in their order and once each, if and only if no call bypasses a
`write_f` of the user. -/
theorem through_iff_not_bypasses (custom notReady : Bool) (as : List (WriterAct β)) :
    (∀ bs s', bs <+: as → exec step (init custom notReady) bs = some s' → s'.Through) ↔
      Along step (fun s a => ¬s.Bypasses a) (init custom notReady) as := by
  refine along_iff_forall_reached (I := fun s => ∃ l, s.q.Queue l) (fun s a s' h hs => ?_)
    (fun s a s' _ ht hs => ht.step_iff hs) (fun s a h hs => ?_) (through_init custom notReady).queue
    (through_init custom notReady)
  · obtain ⟨s'', hs', hl⟩ := exists_step h a
    exact Option.some.inj (hs'.symm.trans hs) ▸ hl
  · obtain ⟨s'', hs', -⟩ := exists_step h a
    cases hs'.symm.trans hs

/-- The OS takes one byte of three: it goes past the `write_f` of the user, the others go through it. -/
theorem not_through : ∃ s : WriterSt Nat, exec step (init true false) [.write [1, 2, 3] (.sent 1) true,
    .writable [.sent 2]] = some s ∧ s.q.calls = [([1, 2, 3], 3)] ∧ s.written = [2, 3] ∧ ¬s.Through := by
  have hany : (exec step (init true false : WriterSt Nat) [.write [1, 2, 3] (.sent 1) true, .writable [.sent 2]]).any
      (fun s => decide (s.q.calls = [([1, 2, 3], 3)] ∧ s.written = [2, 3] ∧ s.q.full = [1, 2, 3])) = true := by
    decide +kernel
  obtain ⟨s, hs, hd⟩ := (Option.any_eq_true ..).1 hany
  obtain ⟨hcalls, hwritten, hfull⟩ := of_decide_eq_true hd
  refine ⟨s, hs, hcalls, hwritten, ?_⟩
  rintro ⟨l, hq, heq⟩
  rw [hwritten, hfull] at heq
  cases heq

end WriterSt

end Aosl
