import Aosl.Iofd

/-!
# What the steps of the dispatcher can do

The code between two calls of user functions works on one iofd: it moves on, calls a function and changes
the flags and buffers of the iofd (`Tunes`). Registrations change in three ways only: `__q_del_f` removes
what is under the fd of an iofd (`qDelF_cases`), `__this_q_close_f` then makes the fd of the iofd invalid,
and `__mpq_add_fd_argv` adds a new iofd under a free fd.
-/

namespace Aosl
open Lib

/-- The iofd the thread of the queue works on. -/
def IoPc.cur : IoPc → Option Nat
  | idle => none
  | next => none
  | run _ f _ => some f
  | call _ f _ => some f

/-- In `f_event_and_close`. -/
def IoPos.closing : IoPos → Bool
  | close _ => true
  | _ => false

/-- Changes of flags and buffers that arm more output than they leave. -/
structure Tune (o o' : Iofd) : Prop where
  fd : o'.fd = o.fd
  q : o'.q = o.q
  listed : o'.listed = o.listed
  hasWrite : o'.hasWrite = o.hasWrite
  timer : o'.timer = true → o.timer = true
  pollOut : o.pollOut = true → o'.pollOut = true
  pending : o'.wQ ≠ [] ∨ o'.notReady = true → o.wQ ≠ [] ∨ o.notReady = true

theorem Tune.refl (o : Iofd) : Tune o o := ⟨rfl, rfl, rfl, rfl, id, id, id⟩

/-- The thread of the queue works on `f`. -/
structure Tunes (s s' : IoSt) (f : Nat) : Prop where
  attached : s'.attached = s.attached
  size : s'.size = s.size
  batch : s'.batch = s.batch
  applied : s'.applied = s.applied
  backend : s'.backend = s.backend
  qid : s'.qid = s.qid
  other : ∀ i, i ≠ f → s'.obj i = s.obj i
  tune : Tune (s.obj f) (s'.obj f)
  cur : s'.pc.cur = some f ∨ s'.pc.cur = none

namespace IoSt

variable {s s' : IoSt} {f i n q : Nat} {m : EventMask} {g : Iofd → Iofd}

theorem modify_self : (s.modify f g).obj f = g (s.obj f) := if_pos rfl

theorem modify_other (h : i ≠ f) : (s.modify f g).obj i = s.obj i := if_neg h

theorem tunes_goto (hg : Tune (s.obj f) (g (s.obj f))) (pos : IoPos) : Tunes s ((s.modify f g).goto pos f m) f :=
  ⟨rfl, rfl, rfl, rfl, rfl, rfl, fun _ hi => modify_other hi, by rw [goto, modify_self]; exact hg, .inl rfl⟩

theorem tunes_goto_self (pos : IoPos) : Tunes s (s.goto pos f m) f :=
  ⟨rfl, rfl, rfl, rfl, rfl, rfl, fun _ _ => rfl, Tune.refl _, .inl rfl⟩

theorem tunes_invoke (site : CallSite) : Tunes s (s.invoke site f m) f :=
  ⟨rfl, rfl, rfl, rfl, rfl, rfl, fun _ _ => rfl, Tune.refl _, .inl rfl⟩

theorem tunes_eventAndClose (hg : Tune (s.obj f) (g (s.obj f))) (t : Bool) :
    Tunes s ((s.modify f g).eventAndClose f m t) f := by
  have h : ∀ s', (s'.obj = (s.modify f g).obj ∧ s'.attached = s.attached ∧ s'.size = s.size ∧ s'.batch = s.batch ∧
      s'.applied = s.applied ∧ s'.backend = s.backend ∧ s'.qid = s.qid ∧ (s'.pc.cur = some f ∨ s'.pc.cur = none)) →
      Tunes s s' f := by
    rintro s' ⟨ho, ha, hs, hb, hap, hbe, hq, hc⟩
    refine ⟨ha, hs, hb, hap, hbe, hq, fun i hi => by rw [ho, modify_other hi], ?_, hc⟩
    rw [ho, modify_self]
    exact hg
  unfold eventAndClose
  split
  · split
    · exact h _ ⟨rfl, rfl, rfl, rfl, rfl, rfl, rfl, .inl rfl⟩
    · exact h _ ⟨rfl, rfl, rfl, rfl, rfl, rfl, rfl, .inl rfl⟩
  · exact h _ ⟨rfl, rfl, rfl, rfl, rfl, rfl, rfl, .inr (by cases t <;> rfl)⟩

@[simp] theorem eventAndClose_obj (s : IoSt) (f : Nat) (m : EventMask) (t : Bool) : (s.eventAndClose f m t).obj = s.obj := by
  unfold eventAndClose
  split
  · split <;> rfl
  · rfl

theorem modify_id : s.modify f id = s := by
  unfold modify
  congr
  funext i
  split
  · next h => rw [h]; rfl
  · rfl

theorem tunes_eventAndClose_self (t : Bool) : Tunes s (s.eventAndClose f m t) f := by
  have := tunes_eventAndClose (s := s) (m := m) (g := id) (Tune.refl (s.obj f)) t
  rwa [modify_id] at this

theorem tunes_runPos {pos : IoPos} (hpos : pos.closing = false) : Tunes s (s.runPos f m pos) f := by
  cases pos with
  | out =>
    simp only [runPos]
    split
    · refine tunes_goto ?_ _
      split
      · exact ⟨rfl, rfl, rfl, rfl, (fun h => by cases h), id, fun h => .inr ‹_›⟩
      · exact Tune.refl _
    · exact tunes_goto_self _
  | write =>
    simp only [runPos]
    split
    · exact tunes_invoke _
    · split
      exacts [tunes_invoke _, tunes_goto_self _]
  | inn =>
    simp only [runPos]
    split <;> exact tunes_goto_self _
  | read =>
    simp only [runPos]
    split
    exacts [tunes_invoke _, tunes_goto_self _]
  | post err =>
    simp only [runPos]
    split
    · split
      exacts [tunes_invoke _, tunes_goto_self _]
    · exact tunes_goto_self _
  | data err dataLen =>
    simp only [runPos]
    split
    · exact tunes_invoke _
    · exact tunes_goto ⟨rfl, rfl, rfl, rfl, id, id, id⟩ _
  | rest err =>
    simp only [runPos]
    split
    · split
      · exact tunes_goto_self _
      · exact tunes_goto ⟨rfl, rfl, rfl, rfl, id, id, id⟩ _
    · split <;> exact tunes_goto_self _
  | fill => exact tunes_invoke _
  | hup =>
    simp only [runPos]
    split
    · exact tunes_eventAndClose_self _
    · exact ⟨rfl, rfl, rfl, rfl, rfl, rfl, fun _ _ => rfl, Tune.refl _, .inr rfl⟩
  | close t => cases hpos

theorem modify_modify {h : Iofd → Iofd} : (s.modify f g).modify f h = s.modify f fun o => h (g o) := by
  unfold modify
  congr
  funext i
  by_cases hi : i = f <;> simp [hi]

theorem modify_congr {h : Iofd → Iofd} (hg : g (s.obj f) = h (s.obj f)) : s.modify f g = s.modify f h := by
  unfold modify
  rw [hg]

theorem tunes_retCall {v : Int} (site : CallSite) : Tunes s (s.retCall f m v site) f := by
  cases site with
  | read =>
    simp only [retCall]
    split
    · split
      · exact tunes_eventAndClose ⟨rfl, rfl, rfl, rfl, id, id, id⟩ _
      · exact tunes_goto ⟨rfl, rfl, rfl, rfl, id, id, id⟩ _
    · split
      · rw [modify_modify]
        exact tunes_goto ⟨rfl, rfl, rfl, rfl, id, id, id⟩ _
      · rw [modify_modify]
        exact tunes_goto ⟨rfl, rfl, rfl, rfl, id, id, id⟩ _
  | write =>
    have hwQ : ((s.modify f fun o => { o with pollOut := true }).obj f).wQ = (s.obj f).wQ := by rw [modify_self]
    simp only [retCall]
    split
    · split
      · exact tunes_eventAndClose ⟨rfl, rfl, rfl, rfl, id, fun _ => rfl, id⟩ _
      · exact tunes_goto ⟨rfl, rfl, rfl, rfl, id, fun _ => rfl, id⟩ _
    · split
      · exact tunes_goto ⟨rfl, rfl, rfl, rfl, id, fun _ => rfl, id⟩ _
      · next b rest hb =>
        rw [hwQ] at hb
        have hne : (s.obj f).wQ ≠ [] := by rw [hb]; exact List.cons_ne_nil b rest
        split <;> rw [modify_modify]
        · exact tunes_goto ⟨rfl, rfl, rfl, rfl, id, fun _ => rfl, fun _ => .inl hne⟩ _
        · exact tunes_goto ⟨rfl, rfl, rfl, rfl, id, fun _ => rfl, fun _ => .inl hne⟩ _
  | chkPkt =>
    simp only [retCall]
    split
    · exact tunes_goto_self _
    · split
      exacts [tunes_eventAndClose_self _, tunes_goto_self _]
  | post err =>
    simp only [retCall]
    split <;> exact tunes_goto_self _
  | data err =>
    simp only [retCall]
    split
    · exact tunes_goto_self _
    · exact tunes_goto ⟨rfl, rfl, rfl, rfl, id, id, id⟩ _
  | ready => exact tunes_goto_self _
  | error t => exact tunes_goto_self _

@[simp] theorem detach_obj : (s.detach n).obj = s.obj := rfl

theorem detach_of_none (h : s.attached n = none) : s.detach n = s := by
  have ha : (fun k => if k = n then none else s.attached k) = s.attached := by
    funext k
    split
    · next hk => rw [hk, h]
    · rfl
  unfold detach
  rw [ha]

/-- What `__q_del_f` can do: nothing on a foreign queue; otherwise the timer is killed, and what is under the
fd is removed, which is the iofd if the result is 0. -/
theorem qDelF_cases (s : IoSt) (q f : Nat) :
    ((s.obj f).q ≠ q ∧ s.qDelF q f = (s, false)) ∨
    ((s.obj f).fd = none ∧ s.qDelF q f = (s.modify f fun o => { o with timer := false }, false)) ∨
    ∃ n, (s.obj f).fd = some n ∧
      ((s.attached n ≠ some f ∧ s.qDelF q f = ((s.modify f fun o => { o with timer := false }).detach n, false)) ∨
      ((s.obj f).q = q ∧ s.attached n = some f ∧
        s.qDelF q f = ((s.modify f fun o => { o with timer := false, listed := false }).detach n, true))) := by
  have hfd : ((s.modify f fun o => { o with timer := false }).obj f).fd = (s.obj f).fd := by rw [modify_self]
  unfold qDelF removeFd
  split
  · next hq => exact .inl ⟨hq, rfl⟩
  · next hq =>
    right
    rw [hfd]
    cases hn : (s.obj f).fd with
    | none => exact .inl ⟨rfl, by simp⟩
    | some n =>
      right
      refine ⟨n, rfl, ?_⟩
      by_cases ha : s.attached n = some f
      · right
        refine ⟨not_not.1 hq, ha, ?_⟩
        have : (s.modify f fun o => { o with timer := false }).attached n = some f := ha
        simp only [this, decide_true, if_true]
        rw [← modify_modify (g := fun o => { o with timer := false }) (h := fun o => { o with listed := false })]
        rfl
      · left
        refine ⟨ha, ?_⟩
        have : ¬(s.modify f fun o => { o with timer := false }).attached n = some f := ha
        simp only [this, decide_false, Bool.false_eq_true, if_false]

theorem timer_qDelF {q : Nat} (hq : (s.obj f).q = q) : ((s.qDelF q f).1.obj f).timer = false := by
  obtain ⟨hne, -⟩ | ⟨-, h1⟩ | ⟨n, -, ⟨-, h1⟩ | ⟨-, -, h1⟩⟩ := qDelF_cases s q f
  · exact absurd hq hne
  · rw [h1, modify_self]
  · rw [h1, detach_obj, modify_self]
  · rw [h1, detach_obj, modify_self]

theorem timer_thisQCloseF {q : Nat} {ok : Bool} (hq : (s.obj f).q = q) :
    ((s.thisQCloseF q f ok).1.obj f).timer = false := by
  unfold thisQCloseF
  dsimp only
  split_ifs
  · rw [modify_self]
    exact timer_qDelF hq
  · exact timer_qDelF hq

/-- `__q_del_f` and `__this_q_close_f` take registrations away; of the iofds they change the timer, the place in
the list and the fd. -/
structure Removes (s s' : IoSt) (f : Nat) : Prop where
  backend : s'.backend = s.backend
  qid : s'.qid = s.qid
  size : s'.size = s.size
  batch : s'.batch = s.batch
  pc : s'.pc = s.pc
  trace : s'.trace = s.trace
  attached : ∀ n i, s'.attached n = some i → s.attached n = some i
  other : ∀ i, i ≠ f → s'.obj i = s.obj i
  self : ∃ l d, s'.obj f = { s.obj f with timer := false, listed := l, fd := d } ∨ s'.obj f = s.obj f

theorem removes_qDelF (s : IoSt) (q f : Nat) : Removes s (s.qDelF q f).1 f := by
  have hdet : ∀ n k i, (if k = n then none else s.attached k) = some i → s.attached k = some i := by
    intro n k i hk
    split at hk
    · cases hk
    · exact hk
  obtain ⟨-, h1⟩ | ⟨-, h1⟩ | ⟨n, -, ⟨-, h1⟩ | ⟨-, -, h1⟩⟩ := qDelF_cases s q f <;> rw [h1]
  · exact ⟨rfl, rfl, rfl, rfl, rfl, rfl, fun _ _ => id, fun _ _ => rfl, true, none, .inr rfl⟩
  · exact ⟨rfl, rfl, rfl, rfl, rfl, rfl, fun _ _ => id, fun _ hi => if_neg hi, (s.obj f).listed, (s.obj f).fd,
      .inl (if_pos rfl)⟩
  · exact ⟨rfl, rfl, rfl, rfl, rfl, rfl, hdet n, fun _ hi => if_neg hi, (s.obj f).listed, (s.obj f).fd,
      .inl (if_pos rfl)⟩
  · exact ⟨rfl, rfl, rfl, rfl, rfl, rfl, hdet n, fun _ hi => if_neg hi, false, (s.obj f).fd, .inl (if_pos rfl)⟩

theorem removes_thisQCloseF (s : IoSt) (q f : Nat) (ok : Bool) : Removes s (s.thisQCloseF q f ok).1 f := by
  have h := removes_qDelF s q f
  have hself := h.self
  unfold thisQCloseF
  dsimp only
  split
  · next hdel =>
    refine ⟨h.backend, h.qid, h.size, h.batch, h.pc, h.trace, h.attached, fun i hi => ?_, ?_⟩
    · rw [modify_other hi, h.other i hi]
    · obtain ⟨-, h1⟩ | ⟨-, h1⟩ | ⟨n, -, ⟨-, h1⟩ | ⟨-, -, h1⟩⟩ := qDelF_cases s q f <;> rw [h1] at hdel ⊢
      · cases hdel
      · cases hdel
      · cases hdel
      · refine ⟨false, none, .inl ?_⟩
        rw [modify_self, detach_obj, modify_self]
  · exact h

/-- The wait changes the flags of what it reports. -/
theorem foldl_report (reports : List (Nat × EventMask)) (s : IoSt) : ∃ a b : Nat → Bool,
    reports.foldl report s = { s with obj := fun i => { s.obj i with pollIn := a i, pollOut := b i } } ∧
      ∀ i, (s.obj i).pollOut = true → b i = true ∨ ∃ m, (i, m) ∈ reports ∧ m.pollOut = true := by
  induction reports generalizing s with
  | nil => exact ⟨fun i => (s.obj i).pollIn, fun i => (s.obj i).pollOut, rfl, fun i h => .inl h⟩
  | cons r reports ih =>
    obtain ⟨a, b, heq, hout⟩ := ih (s.report r)
    rw [List.foldl_cons, heq]
    unfold report at hout ⊢
    split
    · next hb =>
      rw [if_pos hb] at hout
      refine ⟨a, b, rfl, fun i hi => (hout i hi).imp_right fun ⟨m, hm, ho⟩ => ⟨m, List.mem_cons_of_mem r hm, ho⟩⟩
    · next hb =>
      rw [if_neg hb] at hout
      refine ⟨a, b, ?_, fun i hi => ?_⟩
      · unfold modify
        congr
        funext i
        by_cases hr : i = r.1 <;> simp [hr]
      · by_cases hr : i = r.1
        · subst hr
          cases hm : r.2.pollOut with
          | true => exact .inr ⟨r.2, List.mem_cons_self, hm⟩
          | false =>
            refine (hout r.1 ?_).imp_right fun ⟨m, hm, ho⟩ => ⟨m, List.mem_cons_of_mem r hm, ho⟩
            rw [modify_self]
            simp [hi, hm]
        · refine (hout i ?_).imp_right fun ⟨m, hm, ho⟩ => ⟨m, List.mem_cons_of_mem r hm, ho⟩
          rw [modify_other hr]
          exact hi

/-- Sending changes the flag and the queue of the iofd. -/
theorem sendF_eq (s : IoSt) (fn : SendFn) (f len : Nat) (sent : Int) : ∃ p w,
    s.sendF fn f len sent = s.modify f fun o => { o with pollOut := p, wQ := w } := by
  have hid : s = s.modify f fun o => { o with pollOut := (s.obj f).pollOut, wQ := (s.obj f).wQ } := by
    conv => lhs; rw [← modify_id (s := s) (f := f)]
    exact modify_congr rfl
  unfold sendF
  dsimp only
  split
  · exact ⟨_, _, hid⟩
  · split
    · exact ⟨_, _, hid⟩
    · split
      · exact ⟨(s.obj f).pollOut, (s.obj f).wQ ++ [⟨len, len⟩], modify_congr rfl⟩
      · split
        · split
          · exact ⟨true, (s.obj f).wQ ++ [⟨len - sent.toNat, len - sent.toNat⟩], modify_modify.trans (modify_congr rfl)⟩
          · exact ⟨(s.obj f).pollOut, (s.obj f).wQ ++ [⟨len - sent.toNat, len - sent.toNat⟩], modify_congr rfl⟩
        · split
          · exact ⟨true, (s.obj f).wQ, modify_congr rfl⟩
          · exact ⟨_, _, hid⟩

/-- What a step does: one case for the wait, the timer, the dispatcher, the code between two calls, the return of a
user function and the operations of the user. -/
inductive Does (s : IoSt) : IoAct → IoSt → Prop where
  | wait {reports : List (Nat × EventMask)} (hpc : s.pc = .idle) (hr : ∀ r ∈ reports, s.canReport r = true) :
    Does s (.wait reports) (s.wait reports)
  | late {f : Nat} (hpc : s.pc = .idle) (hf : f < s.size) (hq : (s.obj f).q = s.qid) (ht : (s.obj f).timer = true)
    (hn : (s.obj f).notReady = true) : Does s (.timeout f)
      ((s.modify f fun o => { o with timer := false }).eventAndClose f ⟨false, false, false, false⟩ true)
  | ready {f : Nat} (hpc : s.pc = .idle) (hf : f < s.size) (hq : (s.obj f).q = s.qid) (ht : (s.obj f).timer = true)
    (hn : (s.obj f).notReady = false) : Does s (.timeout f) (s.modify f fun o => { o with timer := false })
  | dispatch (hpc : s.pc = .next) : Does s .go s.dispatch
  | run {pos : IoPos} {f : Nat} {m : EventMask} (hpc : s.pc = .run pos f m) : Does s .go (s.runPos f m pos)
  | ret {v : Int} {site : CallSite} {f : Nat} {m : EventMask} (hpc : s.pc = .call site f m) :
    Does s (.ret v) (s.retCall f m v site)
  | op {o : IoOp} (hu : s.opQueue o = s.qid → atUser s.pc = true) : Does s (.op o) (s.doOp o)

theorem does_of_step {a : IoAct} (hs : s.step a = some s') : Does s a s' := by
  rcases a with reports | f | _ | v | o
  · simp only [step] at hs
    split_ifs at hs with hc
    rw [← Option.some.inj hs]
    exact .wait hc.1 hc.2
  · simp only [step] at hs
    split_ifs at hs with hc hn
    · rw [← Option.some.inj hs]
      rw [modify_self] at hn
      exact .late hc.1 hc.2.1 hc.2.2.1 hc.2.2.2 hn
    · rw [← Option.some.inj hs]
      rw [modify_self] at hn
      exact .ready hc.1 hc.2.1 hc.2.2.1 hc.2.2.2 (Bool.not_eq_true _ ▸ hn)
  · simp only [step] at hs
    split at hs
    · next hpc =>
      rw [← Option.some.inj hs]
      exact .dispatch hpc
    · next hpc =>
      rw [← Option.some.inj hs]
      exact .run hpc
    · cases hs
  · simp only [step] at hs
    split at hs
    · next hpc =>
      rw [← Option.some.inj hs]
      exact .ret hpc
    · cases hs
  · simp only [step] at hs
    split_ifs at hs with hu
    rw [← Option.some.inj hs]
    exact .op hu

end IoSt

/-- The tree of fds: an iofd is found under its own fd. -/
def RegInv (s : IoSt) : Prop := ∀ n i, s.attached n = some i → (s.obj i).fd = some n ∧ i < s.size

namespace RegInv
open IoSt

variable {s s' : IoSt} {f n q : Nat} {a : IoAct}

theorem tunes (h : RegInv s) (ht : Tunes s s' f) : RegInv s' := by
  intro n i hi
  rw [ht.attached] at hi
  obtain ⟨hfd, hsz⟩ := h n i hi
  refine ⟨?_, ht.size ▸ hsz⟩
  by_cases hif : i = f
  · subst hif
    rw [ht.tune.fd, hfd]
  · rw [ht.other i hif, hfd]

theorem modify (h : RegInv s) {g : Iofd → Iofd} (hg : ∀ o, (g o).fd = o.fd) : RegInv (s.modify f g) := by
  intro n i hi
  obtain ⟨hfd, hsz⟩ := h n i hi
  refine ⟨?_, hsz⟩
  by_cases hif : i = f
  · subst hif
    rw [modify_self, hg, hfd]
  · rw [modify_other hif, hfd]

theorem detach (h : RegInv s) (n : Nat) : RegInv (s.detach n) := by
  intro k i hi
  simp only [IoSt.detach] at hi
  split at hi
  · cases hi
  · exact h k i hi

theorem qDelF (h : RegInv s) (q f : Nat) : RegInv (s.qDelF q f).1 := by
  obtain ⟨-, h1⟩ | ⟨-, h1⟩ | ⟨n, -, ⟨-, h1⟩ | ⟨-, -, h1⟩⟩ := qDelF_cases s q f <;> rw [h1] <;> dsimp only
  · exact h
  · exact h.modify fun _ => rfl
  · refine RegInv.detach ?_ n
    exact h.modify fun _ => rfl
  · refine RegInv.detach ?_ n
    exact h.modify fun _ => rfl

theorem not_attached (h : RegInv s) (hd : (s.qDelF q f).2 = true) (k : Nat) : (s.qDelF q f).1.attached k ≠ some f := by
  obtain ⟨-, h1⟩ | ⟨-, h1⟩ | ⟨n, hn, ⟨-, h1⟩ | ⟨-, -, h1⟩⟩ := qDelF_cases s q f <;> rw [h1] at hd ⊢
  · cases hd
  · cases hd
  · cases hd
  · simp only [IoSt.detach]
    split
    · exact nofun
    · next hk =>
      intro ha
      have := (h k f ha).1
      rw [hn] at this
      exact hk (Option.some.inj this).symm

theorem thisQCloseF (h : RegInv s) (q f : Nat) (ok : Bool) : RegInv (s.thisQCloseF q f ok).1 := by
  have hna := h.not_attached (q := q) (f := f)
  have hd := h.qDelF q f
  unfold IoSt.thisQCloseF
  dsimp only
  split
  · next hdel =>
    intro n i hi
    by_cases hif : i = f
    · exact absurd hi (hif ▸ hna hdel n)
    · rw [modify_other hif]
      exact hd n i hi
  · exact hd

theorem addFd (h : RegInv s) {o : Iofd} (ho : o.fd = some n) : RegInv (s.addFd n o) := by
  unfold IoSt.addFd
  split
  · exact h
  · intro k i hi
    dsimp only at hi ⊢
    split at hi
    · next hk =>
      cases hi
      exact ⟨by rw [if_pos rfl, ho, hk], Nat.lt_succ_self _⟩
    · obtain ⟨hfd, hsz⟩ := h k i hi
      rw [if_neg (Nat.ne_of_lt hsz)]
      exact ⟨hfd, Nat.lt_succ_of_lt hsz⟩

theorem removal {r : IoSt × Bool} (h : RegInv r.1) : RegInv (removal f r) := by
  unfold IoSt.removal
  split <;> exact h

theorem doOp (h : RegInv s) (o : IoOp) : RegInv (s.doOp o) := by
  cases o with
  | close fd ok =>
    simp only [IoSt.doOp]
    split
    exacts [h, removal (h.thisQCloseF _ _ ok)]
  | del fd =>
    simp only [IoSt.doOp]
    split
    exacts [h, removal (h.qDelF _ _)]
  | add fd q timer hasRead hasWrite hasChkPkt hasPost hasEvent notReady => exact h.addFd rfl
  | send fn fd len sent =>
    simp only [IoSt.doOp]
    split
    · exact h
    · next f _ =>
      obtain ⟨p, w, hp⟩ := sendF_eq s fn f len sent
      rw [hp]
      exact h.modify fun _ => rfl

theorem runPos (h : RegInv s) (f : Nat) (m : EventMask) (pos : IoPos) : RegInv (s.runPos f m pos) := by
  cases pos with
  | close t =>
    simp only [IoSt.runPos]
    split
    exacts [h.thisQCloseF _ _ _, h]
  | _ => exact h.tunes (tunes_runPos rfl)

theorem dispatch (h : RegInv s) : RegInv s.dispatch := by
  unfold IoSt.dispatch
  split
  · exact h
  · split
    · exact h
    · next f _ =>
      dsimp only
      split
      · refine RegInv.tunes ?_ (tunes_eventAndClose_self (f := f) false)
        exact h
      · exact h

theorem wait (h : RegInv s) (reports : List (Nat × EventMask)) : RegInv (s.wait reports) := by
  obtain ⟨a, b, hr, -⟩ := foldl_report reports s
  unfold IoSt.wait
  rw [hr]
  exact h

theorem step (h : RegInv s) (hs : s.step a = some s') : RegInv s' := by
  have htimer : ∀ f, RegInv (s.modify f fun o => { o with timer := false }) := fun f => h.modify fun _ => rfl
  cases does_of_step hs with
  | wait => exact h.wait _
  | late => exact (htimer _).tunes (tunes_eventAndClose_self true)
  | ready => exact htimer _
  | dispatch => exact h.dispatch
  | run => exact h.runPos _ _ _
  | ret => exact h.tunes (tunes_retCall _)
  | op => exact h.doOp _

end RegInv

end Aosl
