import Aosl.IofdBase

/-!
# Pending output and `AOSL_POLLOUT`

The poll and select back ends emulate edge triggering: the wait clears `AOSL_POLLOUT` of the iofds it reports
as writable, and the flag is set again after the next write that may have filled the socket. An iofd with
output in its queue, or that is not ready yet, has the flag set, or its event is still in the batch, or the
dispatcher is about to call its `write_f` (`Armed`). `____send` and `____sendto` queue the rest of a partial
send without setting the flag, so they keep this only where it is set already or the event is still in the
batch.
-/

namespace Aosl
open Lib

/-- Output that waits for the socket. -/
def Iofd.Pending (o : Iofd) : Prop := o.wQ ≠ [] ∨ o.notReady = true

namespace IoPos

/-- The positions of the output, and those of `__iofd_read_data`. -/
def writing : IoPos → Bool
  | out => true
  | write => true
  | _ => false

def reading : IoPos → Bool
  | out => false
  | write => false
  | hup => false
  | close _ => false
  | _ => true

end IoPos

namespace IoPc

/-- The dispatcher is about to call `write_f` of `i`, or `write_f` is running. -/
def writes (i : Nat) : IoPc → Prop
  | run .out f m => f = i ∧ m.pollOut = true
  | run .write f _ => f = i
  | call .write f _ => f = i
  | _ => False

/-- At the loop of `__iofd_write_data` or in `write_f`. -/
def atWrite : IoPc → Bool
  | run .write _ _ => true
  | call .write _ _ => true
  | _ => false

/-- Outside the loop over the events. -/
def outside : IoPc → Bool
  | idle => true
  | run (.close true) _ _ => true
  | call (.error true) _ _ => true
  | _ => false

end IoPc

namespace IoSt

def hasEvent (s : IoSt) (n : Nat) : Prop := ∃ e ∈ s.batch, e.fd = n ∧ e.mask.pollOut = true

instance (s : IoSt) (n : Nat) : Decidable (s.hasEvent n) :=
  inferInstanceAs (Decidable (∃ e ∈ s.batch, e.fd = n ∧ e.mask.pollOut = true))

def Armed (s : IoSt) (n i : Nat) : Prop := (s.obj i).pollOut = true ∨ s.hasEvent n ∨ s.pc.writes i

/-- Whenever the queue is about to wait, the iofds with output in their queue have `AOSL_POLLOUT` set. -/
def OutputArmed (s : IoSt) : Prop := s.pc = .idle → ∀ n f, s.attached n = some f → (s.obj f).q = s.qid →
  (s.obj f).hasWrite = true → (s.obj f).wQ ≠ [] → (s.obj f).pollOut = true

/-- `____send` and `____sendto` send a part directly only if `AOSL_POLLOUT` is set or a writable event of the
iofd is still in the batch. -/
def SendOk (s : IoSt) : IoAct → Prop
  | .op (.send fn n len sent) => match s.attached n with
    | none => True
    | some f => fn ≠ .write → (s.obj f).wQ = [] → (s.obj f).notReady = false → len ≤ fdMaxWbufSize → 0 < sent →
        sent < len → (s.obj f).pollOut = true ∨ s.hasEvent n
  | _ => True

instance (s : IoSt) (a : IoAct) : Decidable (s.SendOk a) :=
  match a with
  | .op (.send fn n len sent) =>
    match h : s.attached n with
    | none => .isTrue (by simp [SendOk, h])
    | some f => decidable_of_iff (fn ≠ .write → (s.obj f).wQ = [] → (s.obj f).notReady = false →
        len ≤ fdMaxWbufSize → 0 < sent → sent < len → (s.obj f).pollOut = true ∨ s.hasEvent n) (by simp [SendOk, h])
  | .op (.close _ _) | .op (.del _) | .op (.add _ _ _ _ _ _ _ _ _) | .wait _ | .timeout _ | .go | .ret _ => .isTrue trivial

end IoSt

structure ArmInv (s : IoSt) : Prop where
  reg : RegInv s
  backend : s.backend ≠ .epoll
  noErr : ∀ e ∈ s.batch, e.mask.pollErr = false
  outside : s.pc.outside = true → s.batch = []
  cur : ∀ f, s.pc.cur = some f → f < s.size
  ready : ∀ f m, s.pc = .run .write f m ∨ s.pc = .call .write f m → (s.obj f).notReady = false
  armed : ∀ n i, s.attached n = some i → (s.obj i).q = s.qid → (s.obj i).hasWrite = true → (s.obj i).Pending →
    s.Armed n i

namespace ArmInv
open IoSt

variable {s s' : IoSt} {f n q : Nat} {a : IoAct}

/-- The thread works on `f`, and if it gives up the writing of `f`, then `f` is armed or has nothing to write. -/
theorem tunes (h : ArmInv s) (ht : Tunes s s' f) (hf : f < s.size) (ho : s'.pc.outside = true → s.pc.outside = true)
    (hr : ∀ g m, s'.pc = .run .write g m ∨ s'.pc = .call .write g m → (s'.obj g).notReady = false)
    (hw : ∀ i, s.pc.writes i → s'.pc.writes i ∨ (i = f ∧ ((s'.obj f).Pending → (s'.obj f).pollOut = true))) :
    ArmInv s' := by
  refine ⟨h.reg.tunes ht, ht.backend ▸ h.backend, ht.batch ▸ h.noErr, fun hp => ht.batch ▸ h.outside (ho hp),
    fun i hi => ?_, hr, fun n i ha hq hwr hp => ?_⟩
  · rw [ht.size]
    rcases ht.cur with hc | hc
    · exact Option.some.inj (hc.symm.trans hi) ▸ hf
    · rw [hc] at hi
      cases hi
  · rw [ht.attached] at ha
    have hbatch : s.hasEvent n → s'.hasEvent n := fun hx => by unfold hasEvent; rw [ht.batch]; exact hx
    have hold : (s.obj i).q = s.qid ∧ (s.obj i).hasWrite = true ∧ (s.obj i).Pending ∧
        ((s.obj i).pollOut = true → (s'.obj i).pollOut = true) := by
      by_cases hif : i = f
      · subst hif
        exact ⟨ht.tune.q ▸ ht.qid ▸ hq, ht.tune.hasWrite ▸ hwr, ht.tune.pending hp, ht.tune.pollOut⟩
      · rw [ht.other i hif] at hq hwr hp ⊢
        exact ⟨ht.qid ▸ hq, hwr, hp, id⟩
    rcases h.armed n i ha hold.1 hold.2.1 hold.2.2.1 with hout | hev | hwi
    · exact .inl (hold.2.2.2 hout)
    · exact .inr (.inl (hbatch hev))
    · rcases hw i hwi with hwi | ⟨rfl, hout⟩
      exacts [.inr (.inr hwi), .inl (hout hp)]

theorem removes (h : ArmInv s) (hr : Removes s s' f) (hreg : RegInv s') : ArmInv s' := by
  have hobj : ∀ i, (s'.obj i).q = (s.obj i).q ∧ (s'.obj i).hasWrite = (s.obj i).hasWrite ∧
      (s'.obj i).wQ = (s.obj i).wQ ∧ (s'.obj i).notReady = (s.obj i).notReady ∧ (s'.obj i).pollOut = (s.obj i).pollOut := by
    intro i
    by_cases hi : i = f
    · subst hi
      obtain ⟨l, d, hs | hs⟩ := hr.self <;> rw [hs] <;> exact ⟨rfl, rfl, rfl, rfl, rfl⟩
    · rw [hr.other i hi]
      exact ⟨rfl, rfl, rfl, rfl, rfl⟩
  refine ⟨hreg, hr.backend ▸ h.backend, hr.batch ▸ h.noErr, fun hp => hr.batch ▸ h.outside (hr.pc ▸ hp),
    fun g hg => hr.size ▸ h.cur g (hr.pc ▸ hg), fun g m hg => ?_, fun n i hi hq hw hp => ?_⟩
  · rw [(hobj g).2.2.2.1]
    exact h.ready g m (hr.pc ▸ hg)
  · obtain ⟨hq', hw', hwQ, hnr, hpo⟩ := hobj i
    have := h.armed n i (hr.attached n i hi) (by rw [← hq', ← hr.qid]; exact hq) (hw' ▸ hw)
      (by unfold Iofd.Pending at hp ⊢; rw [← hwQ, ← hnr]; exact hp)
    unfold Armed hasEvent at this ⊢
    rw [hpo, hr.batch, hr.pc]
    exact this

theorem thisQCloseF (h : ArmInv s) (q f : Nat) (ok : Bool) : ArmInv (s.thisQCloseF q f ok).1 :=
  h.removes (removes_thisQCloseF s q f ok) (h.reg.thisQCloseF q f ok)

theorem setPc (h : ArmInv s) {pc : IoPc} (hw : ∀ i, ¬s.pc.writes i) (ho : pc.outside = true → s.pc.outside = true)
    (hc : pc.cur = none) : ArmInv { s with pc } := by
  refine ⟨h.reg, h.backend, h.noErr, fun hp => h.outside (ho hp), fun f hf => ?_, fun f m hf => ?_,
    fun n i hi hq hwr hp => ?_⟩
  · rw [show pc.cur = some f from hf] at hc
    cases hc
  · rcases hf with hf | hf <;> rw [show pc = _ from hf] at hc <;> cases hc
  · rcases h.armed n i hi hq hwr hp with h1 | h1 | h1
    exacts [.inl h1, .inr (.inl h1), absurd h1 (hw i)]

/-- A function that sends output. -/
theorem sendF (h : ArmInv s) {fn : SendFn} {len : Nat} {sent : Int} (hf : s.attached n = some f)
    (hok : fn ≠ .write → (s.obj f).wQ = [] → (s.obj f).notReady = false → len ≤ fdMaxWbufSize → 0 < sent → sent < len →
      (s.obj f).pollOut = true ∨ s.hasEvent n) : ArmInv (s.sendF fn f len sent) := by
  have hmod : ∀ p w, ((s.obj f).pollOut = true → p = true) → (w ≠ [] ∨ (s.obj f).notReady = true →
      (s.obj f).Pending ∨ p = true ∨ s.hasEvent n) →
      ArmInv (s.modify f fun o => { o with pollOut := p, wQ := w }) := by
    intro p w hp hw
    refine ⟨h.reg.modify fun _ => rfl, h.backend, h.noErr, h.outside, h.cur, fun g m hg => ?_,
      fun k i hi hq hwr hpd => ?_⟩
    · by_cases hgf : g = f
      · subst hgf
        rw [modify_self]
        exact h.ready g m hg
      · rw [modify_other hgf]
        exact h.ready g m hg
    · by_cases hif : i = f
      · subst hif
        rw [modify_self] at hq hwr hpd
        unfold Armed
        rw [modify_self]
        obtain rfl : k = n := Option.some.inj ((h.reg k i hi).1.symm.trans (h.reg n i hf).1)
        rcases hw hpd with hold | hp' | hev
        · rcases h.armed k i hi hq hwr hold with h1 | h1 | h1
          exacts [.inl (hp h1), .inr (.inl h1), .inr (.inr h1)]
        · exact .inl hp'
        · exact .inr (.inl hev)
      · rw [modify_other hif] at hq hwr hpd
        unfold Armed
        rw [modify_other hif]
        exact h.armed k i hi hq hwr hpd
  unfold IoSt.sendF
  dsimp only
  split
  · exact h
  · next hlen =>
    split
    · exact h
    · split
      · next hq =>
        rw [modify_congr (h := fun o => { o with pollOut := (s.obj f).pollOut, wQ := (s.obj f).wQ ++ [⟨len, len⟩] }) rfl]
        exact hmod _ _ id fun _ => .inl (by simpa [Iofd.Pending] using hq)
      · next hq =>
        obtain ⟨hwQ, hnr⟩ : (s.obj f).wQ = [] ∧ (s.obj f).notReady = false := by simpa using hq
        split
        · next hpart =>
          split
          · rw [modify_modify, modify_congr (h := fun o => { o with pollOut := true, wQ := (s.obj f).wQ ++ [_] }) rfl]
            exact hmod _ _ (fun _ => rfl) fun _ => .inr (.inl rfl)
          · next hfn =>
            rw [modify_congr (h := fun o => { o with pollOut := (s.obj f).pollOut, wQ := (s.obj f).wQ ++ [_] }) rfl]
            exact hmod _ _ id fun _ => .inr (hok hfn hwQ hnr (Nat.le_of_not_lt hlen) hpart.1 hpart.2)
        · split
          · rw [modify_congr (h := fun o => { o with pollOut := true, wQ := (s.obj f).wQ }) rfl]
            exact hmod _ _ (fun _ => rfl) fun _ => .inr (.inl rfl)
          · exact h

theorem addFd (h : ArmInv s) {o : Iofd} (ho : o.fd = some n) (harm : o.hasWrite = true → o.pollOut = true) :
    ArmInv (s.addFd n o) := by
  have hreg := h.reg.addFd ho
  unfold IoSt.addFd at hreg ⊢
  split
  · exact h
  · next ha =>
    rw [if_neg ha] at hreg
    refine ⟨hreg, h.backend, h.noErr, h.outside, fun g hg => Nat.lt_succ_of_lt (h.cur g hg), fun g m hg => ?_,
      fun k i hi hq hw hp => ?_⟩
    · have hsz : g < s.size := h.cur g (by rcases hg with hg | hg <;> rw [show s.pc = _ from hg] <;> rfl)
      dsimp only
      rw [if_neg (Nat.ne_of_lt hsz)]
      exact h.ready g m hg
    · dsimp only at hi hq hw hp
      unfold Armed
      dsimp only
      split
      · next his =>
        rw [if_pos his] at hw
        exact .inl (harm hw)
      · next his =>
        rw [if_neg his] at hq hw hp
        split at hi
        · exact absurd (Option.some.inj hi).symm his
        · exact h.armed k i hi hq hw hp

theorem removal {r : IoSt × Bool} (h : ArmInv r.1) : ArmInv (removal f r) := by
  unfold IoSt.removal
  split
  · exact ⟨h.reg, h.backend, h.noErr, h.outside, h.cur, h.ready, h.armed⟩
  · exact h

theorem doOp (h : ArmInv s) {o : IoOp} (hok : s.SendOk (.op o)) : ArmInv (s.doOp o) := by
  cases o with
  | close fd ok =>
    simp only [IoSt.doOp]
    split
    exacts [h, removal (h.thisQCloseF _ _ ok)]
  | del fd =>
    simp only [IoSt.doOp]
    split
    exacts [h, removal (h.removes (removes_qDelF s _ _) (h.reg.qDelF _ _))]
  | add fd q timer hasRead hasWrite hasChkPkt hasPost hasEvent notReady =>
    refine h.addFd rfl fun hw => ?_
    simpa [h.backend] using hw
  | send fn fd len sent =>
    simp only [IoSt.doOp, SendOk] at hok ⊢
    split
    · exact h
    · next f hf =>
      rw [hf] at hok
      exact h.sendF hf hok

theorem not_writes {pos : IoPos} {m : EventMask} (hp : pos.writing = false) (i : Nat) :
    ¬(IoPc.run pos f m).writes i := by
  cases pos with
  | out => cases hp
  | write => cases hp
  | _ => exact id

theorem not_writes_call {site : CallSite} {m : EventMask} (hw : site ≠ .write) (i : Nat) :
    ¬(IoPc.call site f m).writes i := by
  cases site with
  | write => exact absurd rfl hw
  | _ => exact id

theorem eventAndClose_pc (s : IoSt) (f : Nat) (m : EventMask) (t : Bool) :
    (s.eventAndClose f m t).pc = .call (.error t) f m ∨ (s.eventAndClose f m t).pc = .run (.close t) f m ∨
      (s.eventAndClose f m t).pc = if t then .idle else .next := by
  unfold eventAndClose
  split
  · split
    exacts [.inl rfl, .inr (.inl rfl)]
  · exact .inr (.inr rfl)

theorem move (h : ArmInv s) (ht : Tunes s s' f) (hf : f < s.size)
    (ho : s'.pc.outside = true → s.pc.outside = true) (hr : s'.pc.atWrite = false)
    (hw : ∀ i, s.pc.writes i → i = f ∧ ((s'.obj f).Pending → (s'.obj f).pollOut = true)) : ArmInv s' :=
  h.tunes ht hf ho (fun g m hg => by rcases hg with hg | hg <;> rw [hg] at hr <;> cases hr) fun i hi => .inr (hw i hi)

theorem eventAndClose_atWrite (s : IoSt) (f : Nat) (m : EventMask) (t : Bool) :
    (s.eventAndClose f m t).pc.atWrite = false := by
  obtain h | h | h := eventAndClose_pc s f m t <;> rw [h]
  · rfl
  · rfl
  · cases t <;> rfl

theorem eventAndClose_outside (s : IoSt) (f : Nat) (m : EventMask) : (s.eventAndClose f m false).pc.outside = false := by
  obtain h | h | h := eventAndClose_pc s f m false <;> rw [h] <;> rfl

theorem runPos_read_pc {m : EventMask} {pos : IoPos} (hr : pos.reading = true) :
    (s.runPos f m pos).pc.outside = false ∧ (s.runPos f m pos).pc.atWrite = false := by
  cases pos with
  | out => cases hr
  | write => cases hr
  | hup => cases hr
  | close t => cases hr
  | inn =>
    simp only [IoSt.runPos]
    split <;> exact ⟨rfl, rfl⟩
  | read =>
    simp only [IoSt.runPos]
    split <;> exact ⟨rfl, rfl⟩
  | post err =>
    simp only [IoSt.runPos]
    split
    · split <;> exact ⟨rfl, rfl⟩
    · exact ⟨rfl, rfl⟩
  | data err dataLen =>
    simp only [IoSt.runPos]
    split <;> exact ⟨rfl, rfl⟩
  | rest err =>
    simp only [IoSt.runPos]
    split
    · split <;> exact ⟨rfl, rfl⟩
    · split <;> exact ⟨rfl, rfl⟩
  | fill => exact ⟨rfl, rfl⟩

theorem runPos_read (h : ArmInv s) {m : EventMask} {pos : IoPos} (hpc : s.pc = .run pos f m)
    (hr : pos.reading = true) (hc : pos.closing = false) (hw : pos.writing = false) : ArmInv (s.runPos f m pos) := by
  obtain ⟨hout, hne⟩ := runPos_read_pc (s := s) (f := f) (m := m) hr
  refine h.move (tunes_runPos hc) (h.cur f (by rw [hpc]; rfl)) (fun hx => ?_) hne fun i hi => ?_
  · rw [hout] at hx
    cases hx
  · rw [hpc] at hi
    exact absurd hi (not_writes hw i)

theorem runPos (h : ArmInv s) {m : EventMask} {pos : IoPos} (hpc : s.pc = .run pos f m) : ArmInv (s.runPos f m pos) := by
  have hf : f < s.size := h.cur f (by rw [hpc]; rfl)
  have hw : ∀ i, pos.writing = false → ¬s.pc.writes i := fun i hp => hpc ▸ not_writes hp i
  cases pos with
  | out =>
    have ht : Tunes s (s.runPos f m .out) f := tunes_runPos rfl
    simp only [IoSt.runPos] at ht ⊢
    split
    · next hm =>
      rw [if_pos hm] at ht
      refine h.tunes ht hf (fun ho => by cases ho) (fun g m' hg => ?_) fun i hi => .inl ?_
      · rcases hg with hg | hg
        · simp only [goto, IoPc.run.injEq] at hg
          rw [goto, hg.2.1.symm, modify_self]
          split
          · rfl
          · next hn => exact eq_false_of_ne_true hn
        · cases hg
      · rw [hpc] at hi
        exact hi.1
    · next hm =>
      rw [if_neg hm] at ht
      refine h.move ht hf (fun ho => by cases ho) rfl fun i hi => ?_
      rw [hpc] at hi
      exact absurd hi.2 hm
  | write =>
    have hnr := h.ready f m (.inl hpc)
    simp only [IoSt.runPos]
    split
    · refine h.tunes (tunes_invoke .write) hf (fun ho => by cases ho) (fun g m' hg => ?_) fun i hi => .inl ?_
      · rcases hg with hg | hg
        · cases hg
        · simp only [invoke, IoPc.call.injEq] at hg
          exact hg.2.1 ▸ hnr
      · rw [hpc] at hi
        exact hi
    · next hq =>
      have hnp : ¬(s.obj f).Pending := by
        unfold Iofd.Pending
        simp [hq, hnr]
      have hwf : ∀ i, s.pc.writes i → i = f ∧ ((s.obj f).Pending → (s.obj f).pollOut = true) := by
        intro i hi
        rw [hpc] at hi
        exact ⟨Eq.symm hi, fun hp => absurd hp hnp⟩
      split
      · exact h.move (tunes_invoke .ready) hf (fun ho => by cases ho) rfl hwf
      · exact h.move (tunes_goto_self .inn) hf (fun ho => by cases ho) rfl hwf
  | close t =>
    have hset : ∀ s₁, ArmInv s₁ → s₁.pc = s.pc → ArmInv (s₁.leave t) := by
      intro s₁ h₁ hp
      refine h₁.setPc (fun i => hp ▸ hw i rfl) (fun ho => ?_) (by cases t <;> rfl)
      rw [hp, hpc]
      cases t with
      | true => rfl
      | false => cases ho
    simp only [IoSt.runPos]
    split
    · exact hset _ (h.thisQCloseF _ _ _) (removes_thisQCloseF s s.qid f true).pc
    · exact hset s h rfl
  | hup =>
    have hwf : ∀ i, s.pc.writes i → i = f ∧ (((s.eventAndClose f m false).obj f).Pending →
        ((s.eventAndClose f m false).obj f).pollOut = true) := fun i hi => absurd hi (hw i rfl)
    simp only [IoSt.runPos]
    split
    · refine h.move (tunes_eventAndClose_self false) hf (fun ho => ?_) (eventAndClose_atWrite s f m false) hwf
      rw [eventAndClose_outside] at ho
      cases ho
    · exact h.setPc (fun i => hw i rfl) (fun ho => by cases ho) rfl
  | _ => exact h.runPos_read hpc rfl rfl rfl

/-- No function but `event_f` of the timer leads out of the loop over the events. -/
theorem retCall_outside {m : EventMask} {site : CallSite} {v : Int} (hs : site ≠ .error true) :
    (s.retCall f m v site).pc.outside = false := by
  cases site with
  | read =>
    simp only [IoSt.retCall]
    split
    · split
      exacts [eventAndClose_outside _ f m, rfl]
    · split <;> rfl
  | write =>
    simp only [IoSt.retCall]
    split
    · split
      exacts [eventAndClose_outside _ f m, rfl]
    · split
      · rfl
      · split <;> rfl
  | chkPkt =>
    simp only [IoSt.retCall]
    split
    · rfl
    · split
      exacts [eventAndClose_outside _ f m, rfl]
  | post err =>
    simp only [IoSt.retCall]
    split <;> rfl
  | data err =>
    simp only [IoSt.retCall]
    split <;> rfl
  | ready => rfl
  | error t =>
    cases t with
    | true => exact absurd rfl hs
    | false => rfl

theorem retCall_write_obj {m : EventMask} {v : Int} : ((s.retCall f m v .write).obj f).pollOut = true ∧
    ((s.retCall f m v .write).obj f).notReady = (s.obj f).notReady := by
  simp only [IoSt.retCall]
  split
  · split
    · rw [eventAndClose_obj, modify_self]
      exact ⟨rfl, rfl⟩
    · rw [goto, modify_self]
      exact ⟨rfl, rfl⟩
  · split
    · rw [goto, modify_self]
      exact ⟨rfl, rfl⟩
    · split <;> rw [goto, modify_modify, modify_self] <;> exact ⟨rfl, rfl⟩

/-- The other functions are not followed by another `write_f`. -/
theorem retCall_atWrite {m : EventMask} {site : CallSite} {v : Int} (hs : site ≠ .write) :
    (s.retCall f m v site).pc.atWrite = false := by
  cases site with
  | write => exact absurd rfl hs
  | read =>
    simp only [IoSt.retCall]
    split
    · split
      · exact eventAndClose_atWrite _ f m false
      · rfl
    · split <;> rfl
  | chkPkt =>
    simp only [IoSt.retCall]
    split
    · rfl
    · split
      · exact eventAndClose_atWrite _ f m false
      · rfl
  | post err =>
    simp only [IoSt.retCall]
    split <;> rfl
  | data err =>
    simp only [IoSt.retCall]
    split <;> rfl
  | ready => rfl
  | error t => rfl

theorem retCall (h : ArmInv s) {m : EventMask} {site : CallSite} {v : Int} (hpc : s.pc = .call site f m) :
    ArmInv (s.retCall f m v site) := by
  have hf : f < s.size := h.cur f (by rw [hpc]; rfl)
  have ht : Tunes s (s.retCall f m v site) f := tunes_retCall site
  have ho : (s.retCall f m v site).pc.outside = true → s.pc.outside = true := by
    intro ho
    by_cases hs : site = .error true
    · rw [hpc, hs]
      rfl
    · rw [retCall_outside hs] at ho
      cases ho
  by_cases hs : site = .write
  · subst hs
    obtain ⟨hpo, hnr⟩ := retCall_write_obj (s := s) (f := f) (m := m) (v := v)
    refine h.tunes ht hf ho (fun g m' hg => ?_) fun i hi => .inr ⟨?_, fun _ => hpo⟩
    · obtain rfl : f = g := by
        rcases ht.cur with hc | hc <;> rcases hg with hg | hg <;> rw [hg] at hc <;> cases hc <;> rfl
      rw [hnr]
      exact h.ready f m (.inr hpc)
    · rw [hpc] at hi
      exact Eq.symm hi
  · refine h.move ht hf ho (retCall_atWrite hs) fun i hi => ?_
    rw [hpc] at hi
    exact absurd hi (not_writes_call hs i)

theorem dispatch (h : ArmInv s) (hpc : s.pc = .next) : ArmInv s.dispatch := by
  have hw : ∀ i, ¬s.pc.writes i := fun i => by rw [hpc]; exact id
  unfold IoSt.dispatch
  split
  · next hb =>
    exact ⟨h.reg, h.backend, h.noErr, fun _ => hb, nofun, nofun, fun n i hi hq hwr hp =>
      (h.armed n i hi hq hwr hp).imp_right fun ho => .inl (ho.resolve_right (hw i))⟩
  · next e rest hb =>
    have hrest : ∀ e ∈ rest, e ∈ s.batch := fun e he => by rw [hb]; exact List.mem_cons_of_mem _ he
    -- the events that are left, and the first one
    have hev : ∀ n, s.hasEvent n → (∃ e ∈ rest, e.fd = n ∧ e.mask.pollOut = true) ∨ (e.fd = n ∧ e.mask.pollOut = true) := by
      rintro n ⟨e', he', hn⟩
      rw [hb] at he'
      rcases List.mem_cons.1 he' with rfl | he'
      exacts [.inr hn, .inl ⟨e', he', hn⟩]
    have hnx : s.pc.outside = false := by rw [hpc]; rfl
    split
    · next hnone =>
      refine ⟨h.reg, h.backend, fun e he => h.noErr e (hrest e he), fun ho => ?_, h.cur, h.ready, fun n i hi hq hwr hp => ?_⟩
      · rw [show s.pc.outside = true from ho] at hnx
        cases hnx
      · rcases h.armed n i hi hq hwr hp with h1 | h1 | h1
        · exact .inl h1
        · rcases hev n h1 with h1 | ⟨rfl, -⟩
          · exact .inr (.inl h1)
          · rw [show s.attached e.fd = some i from hi] at hnone
            cases hnone
        · exact absurd h1 (hw i)
    · next f hf =>
      dsimp only
      rw [if_neg (by rw [h.noErr e (by rw [hb]; exact List.mem_cons_self)]; exact Bool.false_ne_true)]
      refine ⟨h.reg, h.backend, fun e he => h.noErr e (hrest e he), nofun, fun g hg => ?_, nofun, fun n i hi hq hwr hp => ?_⟩
      · cases hg
        exact (h.reg _ _ hf).2
      · rcases h.armed n i hi hq hwr hp with h1 | h1 | h1
        · exact .inl h1
        · rcases hev n h1 with h1 | ⟨rfl, hm⟩
          · exact .inr (.inl h1)
          · exact .inr (.inr ⟨Option.some.inj (hf.symm.trans hi), hm⟩)
        · exact absurd h1 (hw i)

theorem wait (h : ArmInv s) {reports : List (Nat × EventMask)} (hpc : s.pc = .idle)
    (hr : ∀ r ∈ reports, s.canReport r = true) : ArmInv (s.wait reports) := by
  obtain ⟨a, b, heq, hout⟩ := foldl_report reports s
  have hreg := h.reg.wait reports
  have hb : s.batch = [] := h.outside (by rw [hpc]; rfl)
  unfold IoSt.wait at hreg ⊢
  rw [heq] at hreg ⊢
  refine ⟨hreg, h.backend, fun e he => ?_, nofun, nofun, nofun, fun n i hi hq hwr hp => ?_⟩
  · obtain ⟨r, hm, rfl⟩ := List.mem_map.1 he
    have hcan := hr r hm
    simp only [canReport, if_neg h.backend, Bool.and_eq_true, Bool.not_eq_true'] at hcan
    exact hcan.2.1.2
  · have hpo : (s.obj i).pollOut = true := by
      rcases h.armed n i hi hq hwr hp with h1 | ⟨e, he, -⟩ | h1
      · exact h1
      · rw [hb] at he
        exact absurd he List.not_mem_nil
      · rw [hpc] at h1
        exact h1.elim
    rcases hout i hpo with h1 | ⟨m, hm, ho⟩
    · exact .inl h1
    · refine .inr (.inl ⟨_, List.mem_map_of_mem hm, ?_, ho⟩)
      dsimp only
      rw [(h.reg n i hi).1]
      rfl

theorem step (h : ArmInv s) (hok : s.SendOk a) (hs : s.step a = some s') : ArmInv s' := by
  have hw : s.pc = .idle → ∀ i, ¬s.pc.writes i := by
    intro hpc i
    rw [hpc]
    exact id
  have htimer : s.pc = .idle → ∀ f, f < s.size → ArmInv (s.modify f fun o => { o with timer := false }) := by
    intro hpc f hf
    have hpc' : (s.modify f fun o => { o with timer := false }).pc = .idle := hpc
    have ht : Tunes s (s.modify f fun o => { o with timer := false }) f :=
      ⟨rfl, rfl, rfl, rfl, rfl, rfl, fun _ hi => modify_other hi,
        by rw [modify_self]; exact ⟨rfl, rfl, rfl, rfl, fun hx => Bool.noConfusion hx, id, id⟩, .inr (by rw [hpc']; rfl)⟩
    exact h.move ht hf id (by rw [hpc']; rfl) fun i hi => absurd hi (hw hpc i)
  cases does_of_step hs with
  | wait hpc hr => exact h.wait hpc hr
  | @late f hpc hf =>
    have hpc' : (s.modify f fun o => { o with timer := false }).pc = .idle := hpc
    refine (htimer hpc f hf).move (tunes_eventAndClose_self true) hf (fun _ => ?_) (eventAndClose_atWrite _ f _ true)
      fun i hi => absurd hi (hw hpc i)
    rw [hpc']
    rfl
  | ready hpc hf => exact htimer hpc _ hf
  | dispatch hpc => exact h.dispatch hpc
  | run hpc => exact h.runPos hpc
  | ret hpc => exact h.retCall hpc
  | op => exact h.doOp hok

theorem init {backend : Backend} (hb : backend ≠ .epoll) (qid : Nat) : ArmInv (init backend qid) :=
  ⟨nofun, hb, nofun, fun _ => rfl, nofun, nofun, nofun⟩

end ArmInv

namespace IoSt

/-- On the poll and select back ends, in every run in which `____send` and `____sendto` send a part of their data
directly only while `AOSL_POLLOUT` is set or a writable event of the iofd is in the batch, every iofd with
output in its queue has `AOSL_POLLOUT` set when the queue waits. -/
theorem run_output_armed (backend : Backend) (hb : backend ≠ .epoll) (qid : Nat) (as : List IoAct) (s : IoSt)
    (hok : Along step SendOk (init backend qid) as) (hrun : exec step (init backend qid) as = some s) : s.OutputArmed := by
  have h := exec_invariant (fun _ _ _ h hok hs => ArmInv.step h hok hs) (ArmInv.init hb qid) hok hrun
  intro hpc n f hf hq hw hwQ
  have hbatch : s.batch = [] := h.outside (by rw [hpc]; rfl)
  rcases h.armed n f hf hq hw (.inl hwQ) with h1 | ⟨e, he, -⟩ | h1
  · exact h1
  · rw [hbatch] at he
    exact absurd he List.not_mem_nil
  · rw [hpc] at h1
    exact h1.elim

/-- A partial send before the first wait, and a partial write after a writable event. -/
theorem run_output_armed_partial : ∃ s, exec step (init .poll 0) ([.op (.add 4 0 false true true false false true false),
      .op (.send .send 4 100 40), .wait [(0, ⟨false, true, false, false⟩)]] ++ List.replicate 3 .go ++ [.ret 60] ++
      [.go, .ret 0] ++ List.replicate 3 .go ++ [.op (.send .write 4 100 40)]) = some s ∧
    (s.obj 0).wQ = [⟨60, 60⟩] ∧ s.OutputArmed := by
  have hrun : (exec step (init .poll 0) ([.op (.add 4 0 false true true false false true false),
      .op (.send .send 4 100 40), .wait [(0, ⟨false, true, false, false⟩)]] ++ List.replicate 3 .go ++ [.ret 60] ++
      [.go, .ret 0] ++ List.replicate 3 .go ++ [.op (.send .write 4 100 40)])).any
      (fun s => (s.obj 0).wQ = [⟨60, 60⟩]) = true := by decide +kernel
  obtain ⟨s, hs, hw⟩ := (Option.any_eq_true _ _).1 hrun
  exact ⟨s, hs, of_decide_eq_true hw, run_output_armed .poll nofun 0 _ s (by decide +kernel) hs⟩

/-- A partial send after a writable event that found nothing to write: the rest of the data is never sent. -/
theorem not_output_armed_partial_send : ¬∀ (backend : Backend), backend ≠ .epoll → ∀ (qid : Nat) (as : List IoAct)
    (s : IoSt), exec step (init backend qid) as = some s → s.OutputArmed := by
  intro h
  have hrun : (exec step (init .poll 0) ([.op (.add 4 0 false true true false false true false),
      .wait [(0, ⟨false, true, false, false⟩)]] ++ List.replicate 3 .go ++ [.ret 0] ++ List.replicate 3 .go ++
      [.op (.send .send 4 100 40)])).any (fun s => s.pc = .idle ∧ s.attached 4 = some 0 ∧ (s.obj 0).q = s.qid ∧
        (s.obj 0).hasWrite = true ∧ (s.obj 0).wQ ≠ [] ∧ (s.obj 0).pollOut = false) = true := by decide +kernel
  obtain ⟨s, hs, hm⟩ := (Option.any_eq_true _ _).1 hrun
  obtain ⟨hpc, hf, hq, hw, hwQ, hpo⟩ := of_decide_eq_true hm
  have := h .poll nofun 0 _ s hs hpc 4 0 hf hq hw hwQ
  rw [hpo] at this
  cases this

end IoSt

end Aosl
