import Aosl.IofdBase

/-!
# Events and the iofds they are applied to

The dispatchers find the iofd of an event by its fd when they come to the event. As long as no fd that
still occurs in the batch, or that belongs to the iofd in work, is registered anew, an event is applied
to the iofd that was registered when the wait returned, or dropped. The second half of the condition
keeps `f_event_and_close` from removing a registration that a callback has just made: `remove_fd` removes
what it finds under the fd before it looks whether it is the iofd.
-/

namespace Aosl
open Lib

namespace IoSt

/-- Each event was applied to the iofd that was registered under its fd on this queue when the wait
returned. -/
def EventsKept (s : IoSt) : Prop := ∀ p ∈ s.applied, p.1 = some p.2

/-- No fd of the rest of the batch or of the iofd in work is registered anew. -/
def AddOk (s : IoSt) : IoAct → Prop
  | .op (.add fd _ _ _ _ _ _ _ _) => s.attached fd = none →
      (∀ e ∈ s.batch, e.fd ≠ fd) ∧ (s.pc.cur.bind fun f => (s.obj f).fd) ≠ some fd
  | _ => True

instance (s : IoSt) (a : IoAct) : Decidable (s.AddOk a) :=
  match a with
  | .op (.add fd _ _ _ _ _ _ _ _) => inferInstanceAs (Decidable (s.attached fd = none →
      (∀ e ∈ s.batch, e.fd ≠ fd) ∧ (s.pc.cur.bind fun f => (s.obj f).fd) ≠ some fd))
  | .op (.close _ _) | .op (.del _) | .op (.send _ _ _ _) | .wait _ | .timeout _ | .go | .ret _ => .isTrue trivial

/-- Under the fd of `f` there is `f` or nothing. -/
def Owns (s : IoSt) (f : Nat) : Prop :=
  f < s.size ∧ ∀ n, (s.obj f).fd = some n → s.attached n = some f ∨ s.attached n = none

end IoSt

structure EvInv (s : IoSt) : Prop where
  reg : RegInv s
  listed : ∀ i, (s.obj i).listed = true → ∃ n, s.attached n = some i
  timer : ∀ i, (s.obj i).timer = true → (s.obj i).listed = true
  pending : ∀ e ∈ s.batch, ∃ i, e.origin = some i ∧ (s.attached e.fd = some i ∨ s.attached e.fd = none)
  cur : ∀ f, s.pc.cur = some f → s.Owns f
  kept : s.EventsKept

namespace EvInv
open IoSt

variable {s s' : IoSt} {f n q : Nat} {a : IoAct}

theorem owns_of_listed (h : EvInv s) (hl : (s.obj f).listed = true) : s.Owns f := by
  obtain ⟨n, hn⟩ := h.listed f hl
  obtain ⟨hfd, hsz⟩ := h.reg n f hn
  refine ⟨hsz, fun k hk => ?_⟩
  rw [hfd] at hk
  exact Option.some.inj hk ▸ .inl hn

theorem tunes (h : EvInv s) (ht : Tunes s s' f) (hf : s.Owns f) : EvInv s' := by
  have hl : ∀ i, (s'.obj i).listed = (s.obj i).listed ∧ ((s'.obj i).timer = true → (s.obj i).timer = true) := by
    intro i
    by_cases hi : i = f
    · subst hi
      exact ⟨ht.tune.listed, ht.tune.timer⟩
    · rw [ht.other i hi]
      exact ⟨rfl, id⟩
  refine ⟨h.reg.tunes ht, fun i hi => ?_, fun i hi => ?_, ?_, fun i hi => ?_, ?_⟩
  · rw [ht.attached]
    exact h.listed i ((hl i).1 ▸ hi)
  · rw [(hl i).1]
    exact h.timer i ((hl i).2 hi)
  · rw [ht.batch, ht.attached]
    exact h.pending
  · obtain rfl : f = i := by
      rcases ht.cur with hc | hc
      · exact Option.some.inj (hc.symm.trans hi)
      · rw [hc] at hi
        cases hi
    refine ⟨ht.size ▸ hf.1, fun n hn => ?_⟩
    rw [ht.tune.fd] at hn
    rw [ht.attached]
    exact hf.2 n hn
  · unfold EventsKept
    rw [ht.applied]
    exact h.kept

theorem modify (h : EvInv s) {g : Iofd → Iofd} (hfd : ∀ o, (g o).fd = o.fd) (hl : ∀ o, (g o).listed = o.listed)
    (ht : ∀ o, (g o).timer = true → o.timer = true) : EvInv (s.modify f g) := by
  have hobj : ∀ i, ((s.modify f g).obj i).fd = (s.obj i).fd ∧ ((s.modify f g).obj i).listed = (s.obj i).listed ∧
      (((s.modify f g).obj i).timer = true → (s.obj i).timer = true) := by
    intro i
    by_cases hi : i = f
    · subst hi
      rw [modify_self]
      exact ⟨hfd _, hl _, ht _⟩
    · rw [modify_other hi]
      exact ⟨rfl, rfl, id⟩
  refine ⟨h.reg.modify hfd, fun i hi => h.listed i ((hobj i).2.1 ▸ hi), fun i hi => ?_, h.pending, fun i hi => ?_, h.kept⟩
  · rw [(hobj i).2.1]
    exact h.timer i ((hobj i).2.2 hi)
  · refine ⟨(h.cur i hi).1, fun n hn => (h.cur i hi).2 n ?_⟩
    rw [← (hobj i).1]
    exact hn

/-- `__q_del_f` on an iofd that owns its fd. -/
theorem qDelF (h : EvInv s) (hf : s.Owns f) (q : Nat) : EvInv (s.qDelF q f).1 := by
  obtain ⟨-, h1⟩ | ⟨-, h1⟩ | ⟨n, hn, ⟨ha, h1⟩ | ⟨-, ha, h1⟩⟩ := qDelF_cases s q f <;> rw [h1] <;> dsimp only
  · exact h
  · exact h.modify (fun _ => rfl) (fun _ => rfl) fun _ ht => Bool.noConfusion ht
  · rw [detach_of_none (show (s.modify f _).attached n = none from (hf.2 n hn).resolve_left ha)]
    exact h.modify (fun _ => rfl) (fun _ => rfl) fun _ ht => Bool.noConfusion ht
  · have hreg := h.reg.qDelF q f
    rw [h1] at hreg
    have hdet : ∀ k i, (s.attached k = some i ∨ s.attached k = none) →
        (if k = n then none else s.attached k) = some i ∨ (if k = n then none else s.attached k) = none := by
      intro k i hk
      split
      exacts [.inr rfl, hk]
    have hother : ∀ {i}, i ≠ f → ((s.modify f fun o => { o with timer := false, listed := false }).detach n).obj i = s.obj i :=
      fun hi => (congrFun detach_obj _).trans (modify_other hi)
    have hself : ((s.modify f fun o => { o with timer := false, listed := false }).detach n).obj f =
        { s.obj f with timer := false, listed := false } := (congrFun detach_obj _).trans modify_self
    refine ⟨hreg, fun i hi => ?_, fun i hi => ?_, fun e he => ?_, fun i hi => ⟨(h.cur i hi).1, fun k hk => ?_⟩, h.kept⟩
    · have hif : i ≠ f := by
        rintro rfl
        rw [hself] at hi
        cases hi
      rw [hother hif] at hi
      obtain ⟨k, hk⟩ := h.listed i hi
      refine ⟨k, ?_⟩
      show (if k = n then none else s.attached k) = some i
      rw [if_neg, hk]
      rintro rfl
      exact hif (Option.some.inj (hk.symm.trans ha))
    · by_cases hif : i = f
      · subst hif
        rw [hself] at hi
        cases hi
      · rw [hother hif] at hi ⊢
        exact h.timer i hi
    · obtain ⟨i, hi, hk⟩ := h.pending e he
      exact ⟨i, hi, hdet _ _ hk⟩
    · refine hdet k i ((h.cur i hi).2 k ?_)
      by_cases hif : i = f
      · subst hif
        rw [hself] at hk
        exact hk
      · rw [hother hif] at hk
        exact hk

theorem thisQCloseF (h : EvInv s) (hf : s.Owns f) (q : Nat) (ok : Bool) : EvInv (s.thisQCloseF q f ok).1 := by
  have hd := h.qDelF hf q
  have hreg := h.reg.thisQCloseF q f ok
  have hna := h.reg.not_attached (q := q) (f := f)
  unfold IoSt.thisQCloseF at hreg ⊢
  dsimp only at hreg ⊢
  split
  · next hdel =>
    rw [if_pos hdel] at hreg
    have hl : ((s.qDelF q f).1.obj f).listed = false := by
      cases hc : ((s.qDelF q f).1.obj f).listed with
      | false => rfl
      | true =>
        obtain ⟨n, hn⟩ := hd.listed f hc
        exact absurd hn (hna hdel n)
    have hobj : ∀ i, (((s.qDelF q f).1.modify f fun o => { o with fd := none }).obj i).listed = ((s.qDelF q f).1.obj i).listed ∧
        (((s.qDelF q f).1.modify f fun o => { o with fd := none }).obj i).timer = ((s.qDelF q f).1.obj i).timer := by
      intro i
      by_cases hi : i = f
      · subst hi
        rw [modify_self]
        exact ⟨rfl, rfl⟩
      · rw [modify_other hi]
        exact ⟨rfl, rfl⟩
    refine ⟨hreg, fun i hi => hd.listed i ((hobj i).1 ▸ hi), fun i hi => ?_, hd.pending, fun i hi => ?_, hd.kept⟩
    · rw [(hobj i).1]
      exact hd.timer i ((hobj i).2 ▸ hi)
    · refine ⟨(hd.cur i hi).1, fun n hn => ?_⟩
      by_cases hif : i = f
      · subst hif
        rw [modify_self] at hn
        cases hn
      · rw [modify_other hif] at hn
        exact (hd.cur i hi).2 n hn
  · exact hd

theorem setPc (h : EvInv s) {pc : IoPc} (hc : pc.cur = none) : EvInv { s with pc } :=
  ⟨h.reg, h.listed, h.timer, h.pending, (fun f hf => by rw [show pc.cur = some f from hf] at hc; cases hc), h.kept⟩

/-- Registering an fd that is neither in the batch nor in work. -/
theorem addFd (h : EvInv s) {o : Iofd} (ho : o.fd = some n) (hl : o.listed = true)
    (hok : s.attached n = none → (∀ e ∈ s.batch, e.fd ≠ n) ∧ (s.pc.cur.bind fun f => (s.obj f).fd) ≠ some n) :
    EvInv (s.addFd n o) := by
  have hreg := h.reg.addFd ho
  unfold IoSt.addFd at hreg ⊢
  split
  · exact h
  · next ha =>
    rw [if_neg ha] at hreg
    have hn : s.attached n = none := by simpa using ha
    obtain ⟨hb, hc⟩ := hok hn
    have hother : ∀ k i, k ≠ n → (s.attached k = some i ∨ s.attached k = none) →
        (if k = n then some s.size else s.attached k) = some i ∨ (if k = n then some s.size else s.attached k) = none := by
      intro k i hk hor
      rw [if_neg hk]
      exact hor
    refine ⟨hreg, fun i hi => ?_, fun i hi => ?_, fun e he => ?_, fun i hi => ?_, h.kept⟩
    · dsimp only at hi ⊢
      split at hi
      · next his => exact ⟨n, by rw [if_pos rfl, his]⟩
      · obtain ⟨k, hk⟩ := h.listed i hi
        refine ⟨k, ?_⟩
        rw [if_neg, hk]
        rintro rfl
        rw [hn] at hk
        cases hk
    · dsimp only at hi ⊢
      split at hi
      · next his => rw [if_pos his, hl]
      · next his =>
        rw [if_neg his]
        exact h.timer i hi
    · obtain ⟨i, hi, hor⟩ := h.pending e he
      exact ⟨i, hi, hother _ _ (hb e he) hor⟩
    · have hcur := h.cur i hi
      refine ⟨Nat.lt_succ_of_lt hcur.1, fun k hk => ?_⟩
      dsimp only at hk ⊢
      rw [if_neg (Nat.ne_of_lt hcur.1)] at hk
      refine hother k i ?_ (hcur.2 k hk)
      rintro rfl
      exact hc (by rw [show s.pc.cur = some i from hi]; exact hk)

theorem removal {r : IoSt × Bool} (h : EvInv r.1) : EvInv (removal f r) := by
  unfold IoSt.removal
  split
  · exact ⟨h.reg, h.listed, h.timer, h.pending, h.cur, h.kept⟩
  · exact h

theorem owns_of_attached (h : EvInv s) (hn : s.attached n = some f) : s.Owns f := by
  obtain ⟨hfd, hsz⟩ := h.reg n f hn
  refine ⟨hsz, fun k hk => ?_⟩
  rw [hfd] at hk
  exact Option.some.inj hk ▸ .inl hn

theorem doOp (h : EvInv s) {o : IoOp} (hok : s.AddOk (.op o)) : EvInv (s.doOp o) := by
  cases o with
  | close fd ok =>
    simp only [IoSt.doOp]
    split
    · exact h
    · next f hf => exact removal (h.thisQCloseF (h.owns_of_attached hf) _ ok)
  | del fd =>
    simp only [IoSt.doOp]
    split
    · exact h
    · next f hf => exact removal (h.qDelF (h.owns_of_attached hf) _)
  | add fd q timer hasRead hasWrite hasChkPkt hasPost hasEvent notReady => exact h.addFd rfl rfl hok
  | send fn fd len sent =>
    simp only [IoSt.doOp]
    split
    · exact h
    · next f _ =>
      obtain ⟨p, w, hp⟩ := sendF_eq s fn f len sent
      rw [hp]
      exact h.modify (fun _ => rfl) (fun _ => rfl) fun _ => id

theorem runPos (h : EvInv s) {m : EventMask} {pos : IoPos} (hf : s.Owns f) : EvInv (s.runPos f m pos) := by
  cases pos with
  | close t =>
    have hc : (if t then IoPc.idle else .next).cur = none := by cases t <;> rfl
    simp only [IoSt.runPos]
    split
    exacts [(h.thisQCloseF hf _ _).setPc hc, h.setPc hc]
  | _ => exact h.tunes (tunes_runPos rfl) hf

theorem dispatch (h : EvInv s) : EvInv s.dispatch := by
  unfold IoSt.dispatch
  split
  · exact h.setPc rfl
  · next e rest hb =>
    have hrest : ∀ e ∈ rest, e ∈ s.batch := fun e he => by rw [hb]; exact List.mem_cons_of_mem _ he
    split
    · exact ⟨h.reg, h.listed, h.timer, fun e he => h.pending e (hrest e he), h.cur, h.kept⟩
    · next f hf =>
      have ho : e.origin = some f := by
        obtain ⟨i, hi, hor⟩ := h.pending e (by rw [hb]; exact List.mem_cons_self)
        rw [hf] at hor
        rcases hor with hor | hor
        · rw [hi, Option.some.inj hor]
        · cases hor
      have hs : EvInv { s with batch := rest, applied := s.applied ++ [(e.origin, f)] } := by
        refine ⟨h.reg, h.listed, h.timer, fun e he => h.pending e (hrest e he), h.cur, fun p hp => ?_⟩
        rcases List.mem_append.1 hp with hp | hp
        · exact h.kept p hp
        · rw [List.mem_singleton.1 hp]
          exact ho
      have hown := h.owns_of_attached hf
      dsimp only
      split
      exacts [hs.tunes (tunes_eventAndClose_self false) hown, hs.tunes (tunes_goto_self .out) hown]

theorem wait (h : EvInv s) {reports : List (Nat × EventMask)} (hr : ∀ r ∈ reports, s.canReport r = true) :
    EvInv (s.wait reports) := by
  obtain ⟨a, b, heq, -⟩ := foldl_report reports s
  have hreg := h.reg.wait reports
  unfold IoSt.wait at hreg ⊢
  rw [heq] at hreg ⊢
  refine ⟨hreg, h.listed, h.timer, fun e he => ?_, fun f hf => (by cases hf), h.kept⟩
  obtain ⟨r, hm, rfl⟩ := List.mem_map.1 he
  have hcan := hr r hm
  simp only [canReport, Bool.and_eq_true, decide_eq_true_eq] at hcan
  obtain ⟨n, hn⟩ := h.listed r.1 hcan.1.1.1
  have hfd := (h.reg n r.1 hn).1
  refine ⟨r.1, ?_, .inl ?_⟩
  · dsimp only
    rw [hfd]
    simp [registered, hn, hcan.1.1.2]
  · dsimp only
    rw [hfd]
    exact hn

theorem step (h : EvInv s) (hok : s.AddOk a) (hs : s.step a = some s') : EvInv s' := by
  have htimer : ∀ f, EvInv (s.modify f fun o => { o with timer := false }) :=
    fun f => h.modify (fun _ => rfl) (fun _ => rfl) fun _ ht => Bool.noConfusion ht
  cases does_of_step hs with
  | wait _ hr => exact h.wait hr
  | @late f _ _ _ ht =>
    have hown := h.owns_of_listed (h.timer f ht)
    refine (htimer f).tunes (tunes_eventAndClose_self true) ⟨hown.1, fun n hn => hown.2 n ?_⟩
    rw [modify_self] at hn
    exact hn
  | ready => exact htimer _
  | dispatch => exact h.dispatch
  | run hpc => exact h.runPos (h.cur _ (by rw [hpc]; rfl))
  | ret hpc => exact h.tunes (tunes_retCall _) (h.cur _ (by rw [hpc]; rfl))
  | op => exact h.doOp hok

theorem init (backend : Backend) (qid : Nat) : EvInv (init backend qid) :=
  ⟨nofun, nofun, nofun, nofun, nofun, nofun⟩

end EvInv

namespace IoSt

/-- In every run in which no fd of the rest of the batch or of the iofd in work is registered anew, each
event is applied to the iofd that was registered when the wait returned, or dropped. -/
theorem run_events_kept (backend : Backend) (qid : Nat) (as : List IoAct) (s : IoSt)
    (hok : Along step AddOk (init backend qid) as) (hrun : exec step (init backend qid) as = some s) : s.EventsKept :=
  (exec_invariant (fun _ _ _ h hok hs => EvInv.step h hok hs) (EvInv.init backend qid) hok hrun).kept

/-- A callback closes the fd of the next event and registers another one. -/
theorem run_events_kept_close : ∃ s, exec step (init .epoll 0) ([.op (.add 4 0 false true true false false true false),
      .op (.add 5 0 false true true false false true false),
      .wait [(0, ⟨true, false, false, false⟩), (1, ⟨true, false, false, false⟩)]] ++ List.replicate 7 .go ++
      [.op (.close 5 true), .op (.add 6 0 false true true false false true false), .ret (-aoslEAgain)] ++
      List.replicate 3 .go) = some s ∧ s.EventsKept := by
  have hrun : (exec step (init .epoll 0) ([.op (.add 4 0 false true true false false true false),
      .op (.add 5 0 false true true false false true false),
      .wait [(0, ⟨true, false, false, false⟩), (1, ⟨true, false, false, false⟩)]] ++ List.replicate 7 .go ++
      [.op (.close 5 true), .op (.add 6 0 false true true false false true false), .ret (-aoslEAgain)] ++
      List.replicate 3 .go)).isSome = true := by decide +kernel
  obtain ⟨s, hs⟩ := Option.isSome_iff_exists.1 hrun
  exact ⟨s, hs, run_events_kept .epoll 0 _ s (by decide +kernel) hs⟩

/-- A callback closes the fd of the next event and registers a new connection that gets the same number: the
event is applied to the new connection. -/
theorem not_events_kept_reused : ¬∀ (backend : Backend) (qid : Nat) (as : List IoAct) (s : IoSt),
    exec step (init backend qid) as = some s → s.EventsKept := by
  intro h
  have hrun : (exec step (init .epoll 0) ([.op (.add 4 0 false true true false false true false),
      .op (.add 5 0 false true true false false true false),
      .wait [(0, ⟨true, false, false, false⟩), (1, ⟨true, false, false, false⟩)]] ++ List.replicate 7 .go ++
      [.op (.close 5 true), .op (.add 5 0 false true true false false true false), .ret (-aoslEAgain)] ++
      List.replicate 3 .go)).any (fun s => (some 1, 2) ∈ s.applied) = true := by decide +kernel
  obtain ⟨s, hs, hm⟩ := (Option.any_eq_true _ _).1 hrun
  have := h .epoll 0 _ s hs _ (of_decide_eq_true hm)
  cases this

end IoSt

end Aosl
