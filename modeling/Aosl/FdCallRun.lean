import Aosl.FdCall

/-!
# What the operations on an fd return

A request that cannot be queued is answered with `err = aosl_errno`: a positive value, where an error is negative, and
`return_err` lets it through. So `aosl_write` says that it has written 1011 bytes and `aosl_close` returns 1011, when the
queue is full and does not block, or when the caller's queue is terminated. Everything else that is returned is true, but
where the OS has taken a part of the buffer and `malloc` is false, which it never is.
-/

namespace Aosl
open Lib

namespace WSt

variable {β : Type} {s : WSt β} {l l' : List Nat} {buf : List β} {res : HalRes} {malloc : Bool}

theorem seg_unique {next : Nat → Option Nat} (h : Seg id next l none) (h' : Seg id next l' none)
    (hhead : l.head? = l'.head?) : l = l' := by
  induction l generalizing l' with
  | nil => exact (List.head?_eq_none_iff.1 hhead.symm).symm
  | cons b l ih =>
    obtain ⟨m, rfl⟩ := List.head?_eq_some_iff.1 hhead.symm
    have hnext : l.head? = m.head? := by
      have h1 := h.1.symm.trans h'.1
      rwa [Option.or_none, Option.or_none] at h1
    rw [ih h.2 h'.2 hnext]

theorem Queue.unique (h : s.Queue l) (h' : s.Queue l') : l = l' :=
  seg_unique h.links h'.links (h.head.symm.trans h'.head)

theorem Holds.unique {bs bs' : List β} (h : s.Holds bs) (h' : s.Holds bs') : bs = bs' := by
  obtain ⟨l, hq, rfl⟩ := h
  obtain ⟨l', hq', rfl⟩ := h'
  rw [hq.unique hq']

theorem put_partWritten {extra n : Nat} {poll : Bool} (hpart : s.PartWritten buf (.sent n)) :
    s.put extra poll buf (.sent n) malloc =
      ({ s with pollOut := s.pollOut || poll }.accept (buf.take n)).queueIt buf.length (buf.drop n) extra malloc := by
  obtain ⟨hspace, hhead, hready, hpos, hlt⟩ := hpart
  have hmax : s.wQueueSpace ≤ 131072 := by
    unfold wQueueSpace
    split
    · exact Nat.sub_le ..
    · exact Nat.zero_le _
  rw [put, if_neg (by omega), if_neg (by omega), if_neg (by simp [hhead, hready]), writeNow, if_neg (by omega), if_pos hlt]

theorem put_lost (h : s.Queue l) (extra : Nat) (poll : Bool) (hpart : s.PartWritten buf res) :
    (s.put extra poll buf res false).1 = -1012 ∧
      ∃ n, 0 < n ∧ n < buf.length ∧ (s.put extra poll buf res false).2.Holds (s.accepted ++ buf.take n) := by
  cases res with
  | sent n =>
    obtain rfl : l = [] := List.head?_eq_none_iff.1 (h.head.symm.trans hpart.2.1)
    rw [put_partWritten hpart]
    refine ⟨rfl, n, hpart.2.2.2.1, hpart.2.2.2.2, [], { h with }, ?_⟩
    exact List.append_nil _
  | eagain | eintr | einprogress | ehal => exact absurd hpart not_false

/-- The values that `____write`, `____send` and `____sendto` return. -/
theorem put_ret (s : WSt β) (extra : Nat) (poll malloc : Bool) (hlen : 1 ≤ buf.length) (hres : res ≠ .sent 0) :
    isErrValue (s.put extra poll buf res malloc).1 ∨ (s.put extra poll buf res malloc).1 = buf.length := by
  have hqueue : ∀ (t : WSt β) (rest : List β), isErrValue (t.queueIt buf.length rest extra malloc).1 ∨
      (t.queueIt buf.length rest extra malloc).1 = buf.length := by
    intro t rest
    cases malloc with
    | true => exact .inr rfl
    | false => exact .inl rfl
  unfold put
  split
  · exact .inl rfl
  · split
    · exact .inl rfl
    · split
      · exact hqueue ..
      · cases res with
        | sent n =>
          have hn : n ≠ 0 := fun he => hres (he ▸ rfl)
          rw [writeNow, if_neg (by omega)]
          split
          · exact hqueue ..
          · exact .inr rfl
        | eagain => exact .inl rfl
        | eintr => exact .inl rfl
        | einprogress => exact .inl rfl
        | ehal => exact .inl rfl

end WSt

theorem returnErr_of_isErrValue {err : Int} (h : isErrValue err) : returnErr err = -1 := if_pos h

theorem returnErr_of_nonneg {err : Int} (h : 0 ≤ err) : returnErr err = err := by
  refine if_neg fun he => ?_
  simp only [isErrValue, Bool.and_eq_true, decide_eq_true_eq] at he
  omega

namespace FdOp

variable {β : Type} {op : FdOp β} {s : WSt β} {l : List Nat}

/-- A write that has been made on the queue. -/
theorem truthful_put {extra : Nat} {poll malloc : Bool} {buf : List β} {res : HalRes} (h : s.Queue l)
    (hlen : 1 ≤ buf.length) (hres : res ≠ .sent 0) :
    (∃ bs, s.Holds bs ∧ (returnErr (s.put extra poll buf res malloc).1 < 0 ∧ (s.put extra poll buf res malloc).2.Holds bs ∨
      returnErr (s.put extra poll buf res malloc).1 = buf.length ∧
        (s.put extra poll buf res malloc).2.Holds (bs ++ buf))) ↔ (s.PartWritten buf res → malloc = true) := by
  have hs : s.Holds (s.accepted ++ s.pending l) := ⟨l, h, rfl⟩
  constructor
  · rintro ⟨bs, hbs, htrue⟩ hpart
    obtain rfl := hbs.unique hs
    by_contra hm
    obtain rfl : malloc = false := by simpa using hm
    obtain rfl : l = [] := by
      cases res with
      | sent n => exact List.head?_eq_none_iff.1 (h.head.symm.trans hpart.2.1)
      | eagain | eintr | einprogress | ehal => exact absurd hpart not_false
    obtain ⟨hret, n, hpos, hlt, hlost⟩ := WSt.put_lost h extra poll hpart
    rw [hret, returnErr_of_isErrValue rfl] at htrue
    rcases htrue with ⟨-, hsame⟩ | ⟨hfull, -⟩
    · have heq := congrArg List.length (hsame.unique hlost)
      simp only [List.length_append, List.length_take, show s.pending [] = [] from rfl, List.length_nil] at heq
      omega
    · omega
  · intro hfit
    obtain ⟨l', hl', heq, -⟩ := h.put extra poll hfit
    refine ⟨_, hs, ?_⟩
    rcases s.put_ret extra poll malloc hlen hres with herr | hfull
    · have hneg : (s.put extra poll buf res malloc).1 < 0 := by
        simp only [isErrValue, Bool.and_eq_true, decide_eq_true_eq] at herr
        exact herr.2
      rw [WSt.gain_of_neg hneg, List.append_nil] at heq
      exact .inl ⟨by rw [returnErr_of_isErrValue herr]; decide, l', hl', heq⟩
    · rw [hfull, WSt.gain, if_pos rfl] at heq
      exact .inr ⟨by rw [hfull, returnErr_of_nonneg (by omega)], l', hl', heq⟩

theorem truthful_of_le {ret : Int} {done : Bool} (h : isErrValue ret ∨ ret = 0 ∧ done) :
    returnErr ret ≤ 0 ∧ (returnErr ret = 0 → done) := by
  rcases h with herr | ⟨rfl, hdone⟩
  · rw [returnErr_of_isErrValue herr]
    exact ⟨by decide, fun he => absurd he (by decide)⟩
  · exact ⟨Int.le_refl _, fun _ => hdone⟩

theorem halSetError_cases (res : HalRes) : isErrValue (halSetError res) ∨ halSetError res = 0 := by
  cases res with
  | sent n => exact .inr rfl
  | eagain => exact .inl rfl
  | eintr => exact .inl rfl
  | einprogress => exact .inl rfl
  | ehal => exact .inl rfl

theorem qDelF_cases (v : DelView) : isErrValue v.qDelF ∨ v.qDelF = 0 := by
  unfold DelView.qDelF
  split
  · exact .inl rfl
  · split
    · exact .inl rfl
    · exact .inr rfl

theorem thisQCloseF_cases (v : DelView) (res : HalRes) : isErrValue (v.thisQCloseF res) ∨ v.thisQCloseF res = 0 := by
  unfold DelView.thisQCloseF
  split
  case isTrue hneg => exact .inl ((qDelF_cases v).resolve_right (by omega))
  case isFalse => exact halSetError_cases res

theorem addFd_cases (v : AddView) : isErrValue v.addFd ∨ v.addFd = 0 := by
  unfold AddView.addFd
  split_ifs
  · exact .inl rfl
  · exact .inl rfl
  · exact .inl rfl
  · exact .inl rfl
  · exact .inl rfl
  · exact .inl rfl
  · exact halSetError_cases v.add

theorem truthful_target (h : s.Queue l) (hsends : op.Sends) :
    op.Truthful s (op.target s).2.1 (op.target s).2.2 (returnErr (op.target s).1) ↔ op.RestFits s := by
  have hdone : ∀ ret : Int, isErrValue ret ∨ ret = 0 →
      ((returnErr ret ≤ 0 ∧ (returnErr ret = 0 → decide (ret = 0) = true)) ↔ True) := by
    intro ret hret
    refine iff_true_intro (truthful_of_le (hret.imp_right fun he => ⟨he, ?_⟩))
    exact decide_eq_true he
  cases op with
  | write buf res malloc => exact truthful_put h hsends.1 hsends.2
  | send buf res malloc => exact truthful_put h hsends.1 hsends.2
  | sendto buf res malloc => exact truthful_put h hsends.1 hsends.2
  | close v res => exact hdone _ (thisQCloseF_cases v res)
  | delFd v => exact hdone _ (qDelF_cases v)
  | addFdOnQ v => exact hdone _ (addFd_cases v)

theorem truthful_error (h : s.Queue l) (op : FdOp β) (done : Bool) : op.Truthful s s done (-1) := by
  have hs : s.Holds (s.accepted ++ s.pending l) := ⟨l, h, rfl⟩
  have hput : ∀ buf : List β, ∃ bs, s.Holds bs ∧ ((-1 : Int) < 0 ∧ s.Holds bs ∨ (-1 : Int) = buf.length ∧ s.Holds (bs ++ buf)) :=
    fun _ => ⟨_, hs, .inl ⟨by decide, hs⟩⟩
  cases op with
  | write buf res malloc => exact hput buf
  | send buf res malloc => exact hput buf
  | sendto buf res malloc => exact hput buf
  | close v res => exact ⟨by decide, fun he => absurd he (by decide)⟩
  | delFd v => exact ⟨by decide, fun he => absurd he (by decide)⟩
  | addFdOnQ v => exact ⟨by decide, fun he => absurd he (by decide)⟩

theorem truthful_unknown (h : s.Queue l) (op : FdOp β) :
    op.Truthful s s (op.unknown = 0) (returnErr op.unknown) := by
  cases op with
  | close v res =>
    exact truthful_of_le ((halSetError_cases res).imp_right fun he => ⟨he, decide_eq_true he⟩)
  | write buf res malloc => exact truthful_error h _ _
  | send buf res malloc => exact truthful_error h _ _
  | sendto buf res malloc => exact truthful_error h _ _
  | delFd v => exact truthful_error h _ _
  | addFdOnQ v => exact truthful_error h _ _

theorem not_truthful_errno (hsends : op.Sends) {errno : Int} (hpos : 0 < errno) (done : Bool) :
    ¬ op.Truthful s s done errno := by
  have hput : ∀ buf : List β, 1 ≤ buf.length →
      ¬ ∃ bs, s.Holds bs ∧ (errno < 0 ∧ s.Holds bs ∨ errno = buf.length ∧ s.Holds (bs ++ buf)) := by
    rintro buf hlen ⟨bs, hbs, ⟨hneg, -⟩ | ⟨-, hfull⟩⟩
    · omega
    · have heq := congrArg List.length (hbs.unique hfull)
      rw [List.length_append] at heq
      omega
  cases op with
  | write buf res malloc => exact hput buf hsends.1
  | send buf res malloc => exact hput buf hsends.1
  | sendto buf res malloc => exact hput buf hsends.1
  | close v res => exact fun ht => Int.not_lt.2 ht.1 hpos
  | delFd v => exact fun ht => Int.not_lt.2 ht.1 hpos
  | addFdOnQ v => exact fun ht => Int.not_lt.2 ht.1 hpos

end FdOp

namespace FdCall

variable {β : Type} {c : FdCall β} {s : WSt β} {l : List Nat}

/-- `__mpq_call_argv`: the function is called if and only if there is room, or the caller is on the queue. -/
theorem callArgv_cases (c : FdCall β) : (c.callArgv = none ∧ ¬ (c.same ∨ c.q.count < c.q.qMax)) ∨
    (c.callArgv = some none ∧ (c.same ∨ c.q.count < c.q.qMax)) ∨
    ∃ errno, 0 < errno ∧ c.callArgv = some (some errno) ∧ ¬ (c.same ∨ c.q.count < c.q.qMax) := by
  unfold callArgv
  split_ifs with h1 h2 h3 h4
  · exact .inr (.inl ⟨rfl, .inl h1⟩)
  · exact .inr (.inl ⟨rfl, .inr h2⟩)
  · exact .inr (.inr ⟨1011, by decide, rfl, not_or.2 ⟨h1, h2⟩⟩)
  · exact .inr (.inr ⟨1004, by decide, rfl, not_or.2 ⟨h1, h2⟩⟩)
  · exact .inl ⟨rfl, not_or.2 ⟨h1, h2⟩⟩

/-- What a call returns is true if and only if the request can be served. -/
theorem truthful_iff {s' : WSt β} {ret : Int} {done : Bool} (h : s.Queue l) (hsends : c.op.Sends)
    (hr : c.result s = some (ret, s', done)) : c.op.Truthful s s' done ret ↔ c.Served s := by
  unfold result at hr
  split at hr
  case isTrue hunknown =>
    obtain ⟨rfl, rfl, rfl⟩ : returnErr c.op.unknown = ret ∧ s = s' ∧ decide (c.op.unknown = 0) = done := by
      simpa [Prod.ext_iff] using hr
    refine iff_of_true (FdOp.truthful_unknown h c.op) fun hfound => ?_
    obtain ⟨hlook, hnot⟩ : c.op.looksUp = true ∧ c.found = false := by simpa using hunknown
    rw [hfound hlook] at hnot
    cases hnot
  case isFalse hfound =>
    split at hr
    case isTrue hq =>
      obtain ⟨rfl, rfl, rfl⟩ : returnErr (-1022) = ret ∧ s = s' ∧ false = done := by simpa [Prod.ext_iff] using hr
      refine iff_of_true (FdOp.truthful_error h c.op _) fun _ hfound => ?_
      rw [hfound] at hq
      cases hq
    case isFalse hq =>
      have hlook : c.op.looksUp → c.found := by
        intro hl
        by_contra hf
        exact hfound (by simp [hl, hf])
      have hqueue : c.qFound := by simpa using hq
      have hserved : c.Served s ↔ (c.same ∨ c.q.count < c.q.qMax) ∧ c.op.RestFits s :=
        ⟨fun hs => hs hlook hqueue, fun hs _ _ => hs⟩
      rcases c.callArgv_cases with ⟨hcall, -⟩ | ⟨hcall, hroom⟩ | ⟨errno, hpos, hcall, hroom⟩
      · rw [hcall] at hr
        cases hr
      · rw [hcall] at hr
        obtain ⟨rfl, rfl, rfl⟩ : returnErr (c.op.target s).1 = ret ∧ (c.op.target s).2.1 = s' ∧
            (c.op.target s).2.2 = done := by simpa [Prod.ext_iff] using hr
        rw [hserved, FdOp.truthful_target h hsends]
        exact ⟨fun hfits => ⟨hroom, hfits⟩, And.right⟩
      · rw [hcall] at hr
        obtain ⟨rfl, rfl, rfl⟩ : errno = ret ∧ s = s' ∧ false = done := by
          simpa [Prod.ext_iff, returnErr_of_nonneg (Int.le_of_lt hpos)] using hr
        refine iff_of_false (FdOp.not_truthful_errno hsends hpos _) fun hs => hroom (hserved.1 hs).1

end FdCall

namespace FdAct

variable {β : Type} {s : WSt β} {as : List (FdAct β)}

end FdAct

end Aosl
