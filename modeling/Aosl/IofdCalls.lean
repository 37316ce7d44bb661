import Aosl.IofdBase

/-!
# No function of a removed iofd is called

A user function may close or delete its own iofd. After `aosl_close` the fd of the iofd is invalid, and the
read loop and `f_event_and_close` look at that; after `aosl_mpq_del_fd` it is still valid. `QuietRet` says
for each function when its return is followed by no other call, `QuietPos` says the same for the positions
in between. The positions that are not quiet are left out of reach by the condition on the returns.
-/

namespace Aosl
open Lib

namespace IoSt

/-- Once an iofd has been removed, none of its functions is called. -/
def NoCallAfterRemoval (s : IoSt) : Prop :=
  s.trace.Pairwise fun a b => ∀ f site, a = .removed f → b ≠ .invoke site f

/-- `f_event_and_close` calls nothing. -/
def CloseQuiet (s : IoSt) (f : Nat) : Prop := (s.obj f).fd = none ∨ (s.obj f).hasEvent = false

/-- The test of `AOSL_POLLHUP` leads to no call. -/
def HupQuiet (s : IoSt) (f : Nat) (m : EventMask) : Prop := m.pollHup = false ∨ s.CloseQuiet f

/-- `__iofd_read_data` returns after data that ended a stream, without another read. -/
def EndQuiet (s : IoSt) (f : Nat) (m : EventMask) : Prop :=
  (s.obj f).readReturn0 = true ∧ (s.obj f).hasChkPkt = true ∧ s.HupQuiet f m

/-- The return of a user function of the removed iofd `f` is followed by no other call. -/
def QuietRet (s : IoSt) (f : Nat) (m : EventMask) (v : Int) : CallSite → Prop
  | .read => v < 0 ∧ if v = -aoslEAgain then s.HupQuiet f m else s.CloseQuiet f
  | .write =>
    if v < 0 ∧ v ≠ -aoslEAgain then s.CloseQuiet f
    else m.pollIn = false ∧ s.HupQuiet f m ∧ (v < 0 ∨ match (s.obj f).wQ with
      | [] => True
      | b :: rest => v < b.left ∨ (rest = [] ∧ (s.obj f).hasEvent = false))
  | .chkPkt => (s.obj f).fd = none ∨ ((v < 0 ∨ v > (s.obj f).rLen) ∧ (s.obj f).hasEvent = false)
  | .post _ => (s.obj f).fd = none ∨ (v < 0 ∧ s.EndQuiet f m)
  | .data _ => (s.obj f).fd = none ∨ s.EndQuiet f m
  | .ready => m.pollIn = false ∧ s.HupQuiet f m
  | .error _ => True

def RetQuiet (s : IoSt) (v : Int) : IoPc → Prop
  | .call site f m => .removed f ∈ s.trace → s.QuietRet f m v site
  | _ => True

/-- A user function that returns after its iofd was removed is followed by no other call. -/
def RetOk (s : IoSt) : IoAct → Prop
  | .ret v => s.RetQuiet v s.pc
  | _ => True

def QuietPos (s : IoSt) (f : Nat) (m : EventMask) : IoPos → Prop
  | .write => (s.obj f).wQ = [] ∧ (s.obj f).hasEvent = false ∧ m.pollIn = false ∧ s.HupQuiet f m
  | .inn => m.pollIn = false ∧ s.HupQuiet f m
  | .data _ dataLen => dataLen < 0 ∧ s.EndQuiet f m
  | .rest _ => s.EndQuiet f m
  | .hup => s.HupQuiet f m
  | .close _ => True
  | _ => False

instance (s : IoSt) (f : Nat) : Decidable (s.CloseQuiet f) := inferInstanceAs (Decidable (_ ∨ _))

instance (s : IoSt) (f : Nat) (m : EventMask) : Decidable (s.HupQuiet f m) := inferInstanceAs (Decidable (_ ∨ _))

instance (s : IoSt) (f : Nat) (m : EventMask) : Decidable (s.EndQuiet f m) := inferInstanceAs (Decidable (_ ∧ _ ∧ _))

instance (s : IoSt) (f : Nat) (m : EventMask) (v : Int) (site : CallSite) : Decidable (s.QuietRet f m v site) :=
  match site with
  | .read => inferInstanceAs (Decidable (v < 0 ∧ if v = -aoslEAgain then s.HupQuiet f m else s.CloseQuiet f))
  | .write =>
    have : Decidable (match (s.obj f).wQ with
        | [] => True
        | b :: rest => v < b.left ∨ (rest = [] ∧ (s.obj f).hasEvent = false)) :=
      match (s.obj f).wQ with
      | [] => .isTrue trivial
      | b :: rest => inferInstanceAs (Decidable (v < b.left ∨ (rest = [] ∧ (s.obj f).hasEvent = false)))
    inferInstanceAs (Decidable (if v < 0 ∧ v ≠ -aoslEAgain then s.CloseQuiet f
      else m.pollIn = false ∧ s.HupQuiet f m ∧ (v < 0 ∨ _)))
  | .chkPkt => inferInstanceAs (Decidable ((s.obj f).fd = none ∨
      ((v < 0 ∨ v > (s.obj f).rLen) ∧ (s.obj f).hasEvent = false)))
  | .post _ => inferInstanceAs (Decidable ((s.obj f).fd = none ∨ (v < 0 ∧ s.EndQuiet f m)))
  | .data _ => inferInstanceAs (Decidable ((s.obj f).fd = none ∨ s.EndQuiet f m))
  | .ready => inferInstanceAs (Decidable (m.pollIn = false ∧ s.HupQuiet f m))
  | .error _ => .isTrue trivial

instance (s : IoSt) (v : Int) (pc : IoPc) : Decidable (s.RetQuiet v pc) :=
  match pc with
  | .call site f m => inferInstanceAs (Decidable (.removed f ∈ s.trace → s.QuietRet f m v site))
  | .idle | .next | .run _ _ _ => .isTrue trivial

instance (s : IoSt) (a : IoAct) : Decidable (s.RetOk a) :=
  match a with
  | .ret v => inferInstanceAs (Decidable (s.RetQuiet v s.pc))
  | .wait _ | .timeout _ | .go | .op _ => .isTrue trivial

end IoSt

structure CallInv (s : IoSt) : Prop where
  reg : RegInv s
  order : s.NoCallAfterRemoval
  gone : ∀ f, .removed f ∈ s.trace → f < s.size ∧ (s.obj f).q = s.qid ∧ (s.obj f).timer = false ∧
    ∀ n, s.attached n ≠ some f
  quiet : ∀ pos f m, s.pc = .run pos f m → .removed f ∈ s.trace → s.QuietPos f m pos

namespace CallInv
open IoSt

variable {s s' : IoSt} {f n q : Nat} {m : EventMask} {a : IoAct}

/-- The thread works on `f` and calls at most one function, which has to be of an iofd that is not removed. -/
theorem tunes (h : CallInv s) (ht : Tunes s s' f)
    (htr : s'.trace = s.trace ∨ ∃ site, s'.trace = s.trace ++ [.invoke site f] ∧ .removed f ∉ s.trace)
    (hq : ∀ pos m, s'.pc = .run pos f m → .removed f ∈ s.trace → s'.QuietPos f m pos) : CallInv s' := by
  have hmem : ∀ g, .removed g ∈ s'.trace → .removed g ∈ s.trace := by
    intro g hg
    rcases htr with htr | ⟨site, htr, -⟩
    · exact htr ▸ hg
    · rw [htr] at hg
      rcases List.mem_append.1 hg with hg | hg
      · exact hg
      · cases List.mem_singleton.1 hg
  refine ⟨h.reg.tunes ht, ?_, fun g hg => ?_, fun pos g m hpc hg => ?_⟩
  · unfold NoCallAfterRemoval
    rcases htr with htr | ⟨site, htr, hn⟩
    · rw [htr]
      exact h.order
    · rw [htr, List.pairwise_append]
      refine ⟨h.order, List.pairwise_singleton _ _, fun x hx y hy g site' hxg hyg => hn ?_⟩
      rw [List.mem_singleton.1 hy] at hyg
      cases hyg
      exact hxg ▸ hx
  · obtain ⟨hsz, hqi, htm, hna⟩ := h.gone g (hmem g hg)
    rw [ht.size, ht.qid, ht.attached]
    by_cases hgf : g = f
    · subst hgf
      rw [ht.tune.q]
      exact ⟨hsz, hqi, eq_false_of_ne_true fun hx => Bool.false_ne_true (htm.symm.trans (ht.tune.timer hx)), hna⟩
    · rw [ht.other g hgf]
      exact ⟨hsz, hqi, htm, hna⟩
  · obtain rfl : f = g := by
      rcases ht.cur with hc | hc <;> rw [hpc] at hc <;> cases hc
      rfl
    exact hq pos m hpc (hmem f hg)

theorem live (h : CallInv s) (ht : Tunes s s' f) (hn : .removed f ∉ s.trace)
    (htr : s'.trace = s.trace ∨ ∃ site, s'.trace = s.trace ++ [.invoke site f]) : CallInv s' :=
  h.tunes ht (htr.imp_right fun ⟨site, hs⟩ => ⟨site, hs, hn⟩) fun _ _ _ hg => absurd hg hn

theorem gone_of_removes (h : CallInv s) (hr : Removes s s' f) {g : Nat} (hg : .removed g ∈ s.trace) :
    g < s'.size ∧ (s'.obj g).q = s'.qid ∧ (s'.obj g).timer = false ∧ ∀ n, s'.attached n ≠ some g := by
  obtain ⟨hsz, hqi, htm, hna⟩ := h.gone g hg
  rw [hr.size, hr.qid]
  refine ⟨hsz, ?_, ?_, fun n hn => hna n (hr.attached n g hn)⟩
  · by_cases hgf : g = f
    · subst hgf
      obtain ⟨l, d, hs | hs⟩ := hr.self <;> rw [hs] <;> exact hqi
    · rw [hr.other g hgf, hqi]
  · by_cases hgf : g = f
    · subst hgf
      obtain ⟨l, d, hs | hs⟩ := hr.self <;> rw [hs]
      exact htm
    · rw [hr.other g hgf, htm]

theorem removes (h : CallInv s) (hr : Removes s s' f) (hreg : RegInv s')
    (hrun : ∀ pos g m, s.pc = .run pos g m → .removed g ∈ s.trace → g ≠ f) : CallInv s' := by
  refine ⟨hreg, ?_, fun g hg => h.gone_of_removes hr (hr.trace ▸ hg), fun pos g m hpc hg => ?_⟩
  · unfold NoCallAfterRemoval
    rw [hr.trace]
    exact h.order
  · rw [hr.pc] at hpc
    rw [hr.trace] at hg
    have hq := h.quiet pos g m hpc hg
    have hobj := hr.other g (hrun pos g m hpc hg)
    unfold QuietPos EndQuiet HupQuiet CloseQuiet at hq ⊢
    rw [hobj]
    exact hq

theorem removes_leave (h : CallInv s) (hr : Removes s s' f) (hreg : RegInv s') (t : Bool) : CallInv (s'.leave t) := by
  refine ⟨hreg, ?_, fun g hg => h.gone_of_removes hr (hr.trace ▸ hg), fun pos g m hpc => ?_⟩
  · show s'.NoCallAfterRemoval
    unfold NoCallAfterRemoval
    rw [hr.trace]
    exact h.order
  · cases t <;> cases hpc

theorem setPc (h : CallInv s) {pc : IoPc} (hpc : ∀ pos f m, pc ≠ .run pos f m) : CallInv { s with pc } :=
  ⟨h.reg, h.order, h.gone, fun pos f m hp => absurd hp (hpc pos f m)⟩

theorem eventAndClose_trace (s : IoSt) (f : Nat) (m : EventMask) (t : Bool) :
    (s.eventAndClose f m t).trace = s.trace ∨ ∃ site, (s.eventAndClose f m t).trace = s.trace ++ [.invoke site f] := by
  unfold eventAndClose
  split
  · split
    exacts [.inr ⟨_, rfl⟩, .inl rfl]
  · exact .inl rfl

theorem runPos_trace {pos : IoPos} (hc : pos.closing = false) : (s.runPos f m pos).trace = s.trace ∨
    ∃ site, (s.runPos f m pos).trace = s.trace ++ [.invoke site f] := by
  cases pos with
  | out =>
    simp only [IoSt.runPos]
    split <;> exact .inl rfl
  | write =>
    simp only [IoSt.runPos]
    split
    · exact .inr ⟨_, rfl⟩
    · split
      exacts [.inr ⟨_, rfl⟩, .inl rfl]
  | inn =>
    simp only [IoSt.runPos]
    split <;> exact .inl rfl
  | read =>
    simp only [IoSt.runPos]
    split
    exacts [.inr ⟨_, rfl⟩, .inl rfl]
  | post err =>
    simp only [IoSt.runPos]
    split
    · split
      exacts [.inr ⟨_, rfl⟩, .inl rfl]
    · exact .inl rfl
  | data err dataLen =>
    simp only [IoSt.runPos]
    split
    exacts [.inr ⟨_, rfl⟩, .inl rfl]
  | rest err =>
    simp only [IoSt.runPos]
    split
    · split <;> exact .inl rfl
    · split <;> exact .inl rfl
  | fill => exact .inr ⟨_, rfl⟩
  | hup =>
    simp only [IoSt.runPos]
    split
    exacts [eventAndClose_trace s f m false, .inl rfl]
  | close t => cases hc

theorem retCall_trace {v : Int} (site : CallSite) : (s.retCall f m v site).trace = s.trace ∨
    ∃ site', (s.retCall f m v site).trace = s.trace ++ [.invoke site' f] := by
  cases site with
  | read =>
    simp only [IoSt.retCall]
    split
    · split
      exacts [eventAndClose_trace _ f m false, .inl rfl]
    · split <;> exact .inl rfl
  | write =>
    simp only [IoSt.retCall]
    split
    · split
      exacts [eventAndClose_trace _ f m false, .inl rfl]
    · split
      · exact .inl rfl
      · split <;> exact .inl rfl
  | chkPkt =>
    simp only [IoSt.retCall]
    split
    · exact .inl rfl
    · split
      exacts [eventAndClose_trace _ f m false, .inl rfl]
  | post err =>
    simp only [IoSt.retCall]
    split <;> exact .inl rfl
  | data err =>
    simp only [IoSt.retCall]
    split <;> exact .inl rfl
  | ready => exact .inl rfl
  | error t => exact .inl rfl

theorem gotoQuiet (h : CallInv s) {g : Iofd → Iofd} {pos : IoPos} (hg : Tune (s.obj f) (g (s.obj f)))
    (hq : ((s.modify f g).goto pos f m).QuietPos f m pos) : CallInv ((s.modify f g).goto pos f m) := by
  refine h.tunes (tunes_goto hg pos) (.inl rfl) fun pos' m' hpc _ => ?_
  cases hpc
  exact hq

theorem gotoQuiet_self (h : CallInv s) {pos : IoPos} (hq : s.QuietPos f m pos) : CallInv (s.goto pos f m) := by
  refine h.tunes (tunes_goto_self pos) (.inl rfl) fun pos' m' hpc _ => ?_
  cases hpc
  exact hq

theorem leave_ne (t : Bool) (pos : IoPos) (f : Nat) (m : EventMask) :
    (if t then IoPc.idle else .next) ≠ .run pos f m := by
  cases t <;> exact IoPc.noConfusion

theorem eventAndClose (h : CallInv s) (hc : s.CloseQuiet f) (t : Bool) : CallInv (s.eventAndClose f m t) := by
  unfold IoSt.eventAndClose
  split
  · next hfd =>
    have he : (s.obj f).hasEvent = false := by
      refine hc.resolve_left fun hn => ?_
      rw [hn] at hfd
      cases hfd
    rw [if_neg (by rw [he]; exact Bool.false_ne_true)]
    exact h.gotoQuiet_self trivial
  · exact h.setPc (leave_ne t)

theorem runClose (h : CallInv s) (t : Bool) : CallInv (s.runPos f m (.close t)) := by
  simp only [IoSt.runPos]
  split
  · exact h.removes_leave (removes_thisQCloseF s s.qid f true) (h.reg.thisQCloseF _ _ _) t
  · exact h.setPc (leave_ne t)

theorem runPos (h : CallInv s) {pos : IoPos} (hpc : s.pc = .run pos f m) : CallInv (s.runPos f m pos) := by
  by_cases hg : .removed f ∈ s.trace
  · have hq := h.quiet pos f m hpc hg
    cases pos with
    | write =>
      obtain ⟨hwQ, he, hrest⟩ := hq
      simp only [IoSt.runPos, hwQ, he, Bool.false_eq_true, if_false]
      exact h.gotoQuiet_self hrest
    | inn =>
      obtain ⟨hin, hh⟩ := hq
      simp only [IoSt.runPos, hin, Bool.false_eq_true, if_false]
      exact h.gotoQuiet_self hh
    | data err dataLen =>
      obtain ⟨hlt, he⟩ := hq
      simp only [IoSt.runPos]
      rw [if_neg (Int.not_le.2 hlt)]
      refine h.gotoQuiet ⟨rfl, rfl, rfl, rfl, id, id, id⟩ ?_
      simpa only [QuietPos, EndQuiet, HupQuiet, CloseQuiet, goto, modify_self] using he
    | rest err =>
      obtain ⟨hr0, hck, hh⟩ := hq
      simp only [IoSt.runPos, hr0, hck, if_true]
      exact h.gotoQuiet_self hh
    | hup =>
      simp only [IoSt.runPos]
      split
      · next hm =>
        refine h.eventAndClose (hq.resolve_left fun hn => ?_) false
        rw [hn] at hm
        cases hm
      · exact h.setPc fun _ _ _ => IoPc.noConfusion
    | close t => exact h.runClose t
    | _ => exact hq.elim
  · cases pos with
    | close t => exact h.runClose t
    | _ => exact h.live (tunes_runPos rfl) hg (runPos_trace rfl)

theorem tuned (h : CallInv s) {g : Iofd → Iofd} (hg : Tune (s.obj f) (g (s.obj f))) (hpc : ∀ pos k m, s.pc ≠ .run pos k m)
    (hc : s.pc.cur = some f ∨ s.pc.cur = none) : CallInv (s.modify f g) :=
  h.tunes ⟨rfl, rfl, rfl, rfl, rfl, rfl, fun _ hi => modify_other hi, by rw [modify_self]; exact hg, hc⟩ (.inl rfl)
    fun pos m hp => absurd hp (hpc pos f m)

theorem retCall (h : CallInv s) {site : CallSite} {v : Int} (hpc : s.pc = .call site f m)
    (hok : s.RetOk (.ret v)) : CallInv (s.retCall f m v site) := by
  by_cases hg : .removed f ∈ s.trace
  · have hq : s.QuietRet f m v site := by
      unfold RetOk at hok
      rw [hpc] at hok
      exact hok hg
    have hrun : ∀ pos k m, s.pc ≠ .run pos k m := fun pos k m hp => by rw [hpc] at hp; cases hp
    have hcur : s.pc.cur = some f ∨ s.pc.cur = none := .inl (by rw [hpc]; rfl)
    cases site with
    | read =>
      obtain ⟨hv, hq⟩ := hq
      have h' : CallInv (s.modify f fun o => { o with pollIn := true }) := h.tuned ⟨rfl, rfl, rfl, rfl, id, id, id⟩ hrun hcur
      simp only [IoSt.retCall]
      rw [if_pos hv]
      split
      · next hne =>
        rw [if_neg hne] at hq
        refine h'.eventAndClose ?_ false
        simpa only [CloseQuiet, modify_self] using hq
      · next heq =>
        rw [if_pos (not_not.1 heq)] at hq
        refine h'.gotoQuiet_self ?_
        simpa only [QuietPos, HupQuiet, CloseQuiet, modify_self] using hq
    | write =>
      have h' : CallInv (s.modify f fun o => { o with pollOut := true }) :=
        h.tuned ⟨rfl, rfl, rfl, rfl, id, fun _ => rfl, id⟩ hrun hcur
      have hwQ : ((s.modify f fun o => { o with pollOut := true }).obj f).wQ = (s.obj f).wQ := by rw [modify_self]
      simp only [QuietRet] at hq
      simp only [IoSt.retCall]
      split
      · next hv =>
        split
        · next hne =>
          rw [if_pos ⟨hv, hne⟩] at hq
          refine h'.eventAndClose ?_ false
          simpa only [CloseQuiet, modify_self] using hq
        · next heq =>
          rw [if_neg fun hx => heq hx.2] at hq
          refine h'.gotoQuiet_self ⟨hq.1, ?_⟩
          simpa only [HupQuiet, CloseQuiet, modify_self] using hq.2.1
      · next hv =>
        rw [if_neg fun hx => hv hx.1] at hq
        obtain ⟨hin, hh, hwr⟩ := hq
        replace hwr := hwr.resolve_left hv
        split
        · refine h'.gotoQuiet_self ⟨hin, ?_⟩
          simpa only [HupQuiet, CloseQuiet, modify_self] using hh
        · next b rest hb =>
          rw [hwQ] at hb
          rw [hb] at hwr
          have hne : (s.obj f).wQ ≠ [] := by rw [hb]; exact List.cons_ne_nil b rest
          split
          · rw [modify_modify]
            refine h.gotoQuiet ⟨rfl, rfl, rfl, rfl, id, fun _ => rfl, fun _ => .inl hne⟩ ⟨hin, ?_⟩
            simpa only [HupQuiet, CloseQuiet, goto, modify_self] using hh
          · next hlt =>
            obtain ⟨hrest, hev⟩ := hwr.resolve_left hlt
            rw [modify_modify]
            refine h.gotoQuiet ⟨rfl, rfl, rfl, rfl, id, fun _ => rfl, fun _ => .inl hne⟩ ?_
            simpa only [QuietPos, HupQuiet, CloseQuiet, goto, modify_self] using ⟨hrest, hev, hin, hh⟩
    | chkPkt =>
      simp only [IoSt.retCall]
      split
      · next hn => exact h.gotoQuiet_self (.inr (.inl (Option.isNone_iff_eq_none.1 hn)))
      · next hn =>
        obtain ⟨hv, he⟩ := hq.resolve_left fun hx => hn (Option.isNone_iff_eq_none.2 hx)
        rw [if_pos hv]
        exact h.eventAndClose (.inr he) false
    | post err =>
      simp only [IoSt.retCall]
      split
      · next hn => exact h.gotoQuiet_self (.inr (.inl (Option.isNone_iff_eq_none.1 hn)))
      · next hn => exact h.gotoQuiet_self (hq.resolve_left fun hx => hn (Option.isNone_iff_eq_none.2 hx))
    | data err =>
      simp only [IoSt.retCall]
      split
      · next hn => exact h.gotoQuiet_self (.inr (.inl (Option.isNone_iff_eq_none.1 hn)))
      · next hn =>
        have he := hq.resolve_left fun hx => hn (Option.isNone_iff_eq_none.2 hx)
        refine h.gotoQuiet ⟨rfl, rfl, rfl, rfl, id, id, id⟩ ?_
        simpa only [QuietPos, EndQuiet, HupQuiet, CloseQuiet, goto, modify_self] using he
    | ready => exact h.gotoQuiet_self hq
    | error t => exact h.gotoQuiet_self trivial
  · exact h.live (tunes_retCall site) hg (retCall_trace site)

/-- What the thread of the queue works on is not touched by operations on other queues. -/
theorem ne_of_op (h : CallInv s) (hok : (s.obj f).q = s.qid → atUser s.pc = true) {pos : IoPos} {g : Nat}
    (hpc : s.pc = .run pos g m) (hg : .removed g ∈ s.trace) : g ≠ f := by
  rintro rfl
  have hu := hok (h.gone g hg).2.1
  rw [hpc] at hu
  cases hu

/-- A removal of an iofd of this queue is noted; the thread of the queue is in user code then. -/
theorem removal {r : IoSt × Bool} (h : CallInv r.1) (hr : r.2 = true → f < r.1.size ∧ (r.1.obj f).timer = false ∧
    ∀ n, r.1.attached n ≠ some f) (hrun : (r.1.obj f).q = r.1.qid → ∀ pos g m, r.1.pc ≠ .run pos g m) :
    CallInv (removal f r) := by
  unfold IoSt.removal
  split
  · next hc =>
    obtain ⟨hsz, htm, hna⟩ := hr hc.1
    refine ⟨h.reg, ?_, fun g hg => ?_, fun pos g m hpc => absurd hpc (hrun hc.2 pos g m)⟩
    · refine List.pairwise_append.2 ⟨h.order, List.pairwise_singleton _ _, fun x _ y hy g site _ hyg => ?_⟩
      rw [List.mem_singleton.1 hy] at hyg
      cases hyg
    · rcases List.mem_append.1 hg with hg | hg
      · exact h.gone g hg
      · cases List.mem_singleton.1 hg
        exact ⟨hsz, hc.2, htm, hna⟩
  · exact h

theorem close (h : CallInv s) (hf : s.attached n = some f) (hok : (s.obj f).q = s.qid → atUser s.pc = true) (ok : Bool) :
    CallInv (IoSt.removal f (s.thisQCloseF (s.obj f).q f ok)) := by
  have hr := removes_thisQCloseF s (s.obj f).q f ok
  have hreg := h.reg.thisQCloseF (s.obj f).q f ok
  refine removal (h.removes hr hreg fun pos g m => h.ne_of_op hok) (fun hd => ⟨?_, ?_, fun k hk => ?_⟩) fun hq pos g m hpc => ?_
  · rw [hr.size]
    exact (h.reg n f hf).2
  · exact timer_thisQCloseF rfl
  · unfold IoSt.thisQCloseF at hd hk
    dsimp only at hd hk
    split at hd
    · next hdel =>
      rw [if_pos hdel] at hk
      exact h.reg.not_attached hdel k hk
    · cases hd
  · have hqf : (s.obj f).q = s.qid := by
      rw [hr.qid] at hq
      obtain ⟨l, d, hs | hs⟩ := hr.self <;> rw [hs] at hq <;> exact hq
    have hu := hok hqf
    rw [← hr.pc, hpc] at hu
    cases hu

theorem del (h : CallInv s) (hf : s.attached n = some f) (hok : (s.obj f).q = s.qid → atUser s.pc = true) :
    CallInv (IoSt.removal f (s.qDelF (s.obj f).q f)) := by
  have hr := removes_qDelF s (s.obj f).q f
  refine removal (h.removes hr (h.reg.qDelF _ _) fun pos g m => h.ne_of_op hok)
    (fun hd => ⟨hr.size ▸ (h.reg n f hf).2, timer_qDelF rfl, h.reg.not_attached hd⟩) fun hq pos g m hpc => ?_
  have hqf : (s.obj f).q = s.qid := by
    rw [hr.qid] at hq
    obtain ⟨l, d, hs | hs⟩ := hr.self <;> rw [hs] at hq <;> exact hq
  have hu := hok hqf
  rw [← hr.pc, hpc] at hu
  cases hu

theorem addFd (h : CallInv s) {o : Iofd} (ho : o.fd = some n) : CallInv (s.addFd n o) := by
  have hreg := h.reg.addFd ho
  unfold IoSt.addFd at hreg ⊢
  split
  · exact h
  · next ha =>
    rw [if_neg ha] at hreg
    refine ⟨hreg, h.order, fun g hg => ?_, fun pos g m hpc hg => ?_⟩
    · obtain ⟨hsz, hq, htm, hna⟩ := h.gone g hg
      dsimp only
      rw [if_neg (Nat.ne_of_lt hsz)]
      refine ⟨Nat.lt_succ_of_lt hsz, hq, htm, fun k hk => ?_⟩
      split at hk
      · exact Nat.ne_of_gt hsz (Option.some.inj hk)
      · exact hna k hk
    · have hq := h.quiet pos g m hpc hg
      unfold QuietPos EndQuiet HupQuiet CloseQuiet at hq ⊢
      dsimp only
      rw [if_neg (Nat.ne_of_lt (h.gone g hg).1)]
      exact hq

theorem send (h : CallInv s) (hok : (s.obj f).q = s.qid → atUser s.pc = true) (fn : SendFn) (len : Nat) (sent : Int) :
    CallInv (s.sendF fn f len sent) := by
  obtain ⟨p, w, hs⟩ := sendF_eq s fn f len sent
  rw [hs]
  refine ⟨h.reg.modify fun _ => rfl, h.order, fun g hg => ?_, fun pos g m hpc hg => ?_⟩
  · by_cases hgf : g = f
    · subst hgf
      rw [modify_self]
      exact h.gone g hg
    · rw [modify_other hgf]
      exact h.gone g hg
  · have hq := h.quiet pos g m hpc hg
    unfold QuietPos EndQuiet HupQuiet CloseQuiet at hq ⊢
    rw [modify_other (h.ne_of_op hok hpc hg)]
    exact hq

theorem doOp (h : CallInv s) {o : IoOp} (hok : s.opQueue o = s.qid → atUser s.pc = true) : CallInv (s.doOp o) := by
  cases o with
  | close fd ok =>
    simp only [IoSt.doOp]
    split
    · exact h
    · next f hf => exact h.close hf (fun hq => hok (by simpa [opQueue, hf] using hq)) ok
  | del fd =>
    simp only [IoSt.doOp]
    split
    · exact h
    · next f hf => exact h.del hf fun hq => hok (by simpa [opQueue, hf] using hq)
  | add fd q timer hasRead hasWrite hasChkPkt hasPost hasEvent notReady => exact h.addFd rfl
  | send fn fd len sent =>
    simp only [IoSt.doOp]
    split
    · exact h
    · next f hf => exact h.send (fun hq => hok (by simpa [opQueue, hf] using hq)) fn len sent

theorem dispatch (h : CallInv s) : CallInv s.dispatch := by
  unfold IoSt.dispatch
  split
  · exact h.setPc nofun
  · next e rest _ =>
    split
    · exact ⟨h.reg, h.order, h.gone, h.quiet⟩
    · next f hf =>
      have hn : .removed f ∉ s.trace := fun hg => (h.gone f hg).2.2.2 _ hf
      have h' : CallInv { s with batch := rest, applied := s.applied ++ [(e.origin, f)] } :=
        ⟨h.reg, h.order, h.gone, h.quiet⟩
      dsimp only
      split
      · exact h'.live (tunes_eventAndClose_self false) hn (eventAndClose_trace _ f e.mask false)
      · exact h'.live (tunes_goto_self .out) hn (.inl rfl)

theorem wait (h : CallInv s) (reports : List (Nat × EventMask)) : CallInv (s.wait reports) := by
  obtain ⟨a, b, heq, -⟩ := foldl_report reports s
  have hreg := h.reg.wait reports
  unfold IoSt.wait at hreg ⊢
  rw [heq] at hreg ⊢
  exact ⟨hreg, h.order, h.gone, nofun⟩

theorem step (h : CallInv s) (hok : s.RetOk a) (hs : s.step a = some s') : CallInv s' := by
  have htimer : s.pc = .idle → ∀ f, CallInv (s.modify f fun o => { o with timer := false }) := by
    intro hpc f
    refine h.tuned ⟨rfl, rfl, rfl, rfl, fun hx => Bool.noConfusion hx, id, id⟩ ?_ (.inr (by rw [hpc]; rfl))
    intro pos k m hp
    rw [hpc] at hp
    cases hp
  cases does_of_step hs with
  | wait => exact h.wait _
  | @late f hpc _ _ ht =>
    have hn : .removed f ∉ s.trace := fun hg => Bool.false_ne_true ((h.gone f hg).2.2.1.symm.trans ht)
    exact (htimer hpc f).live (tunes_eventAndClose_self true) hn (eventAndClose_trace _ f _ true)
  | ready hpc => exact htimer hpc _
  | dispatch => exact h.dispatch
  | run hpc => exact h.runPos hpc
  | ret hpc => exact h.retCall hpc hok
  | op hu => exact h.doOp hu

theorem init (backend : Backend) (qid : Nat) : CallInv (init backend qid) :=
  ⟨nofun, List.Pairwise.nil, nofun, nofun⟩

end CallInv

namespace IoSt

/-- In every run in which a function that removes its own iofd is one whose return is followed by no other call,
no function of a removed iofd is called. -/
theorem run_no_call_after_removal (backend : Backend) (qid : Nat) (as : List IoAct) (s : IoSt)
    (hok : Along step RetOk (init backend qid) as) (hrun : exec step (init backend qid) as = some s) :
    s.NoCallAfterRemoval :=
  (exec_invariant (fun _ _ _ h hok hs => CallInv.step h hok hs) (CallInv.init backend qid) hok hrun).order

/-- `data_f` closes its iofd in the middle of a batch. -/
theorem run_no_call_after_removal_close : ∃ s, exec step (init .epoll 0)
      ([.op (.add 5 0 false true true false false true false), .wait [(0, ⟨true, false, false, true⟩)]] ++
        List.replicate 7 .go ++ [.ret 3, .go, .go, .go, .op (.close 5 true), .ret 0, .go, .go]) = some s ∧
    .removed 0 ∈ s.trace ∧ s.NoCallAfterRemoval := by
  have hrun : (exec step (init .epoll 0)
      ([.op (.add 5 0 false true true false false true false), .wait [(0, ⟨true, false, false, true⟩)]] ++
        List.replicate 7 .go ++ [.ret 3, .go, .go, .go, .op (.close 5 true), .ret 0, .go, .go])).any
      (fun s => .removed 0 ∈ s.trace) = true := by decide +kernel
  obtain ⟨s, hs, hm⟩ := (Option.any_eq_true _ _).1 hrun
  exact ⟨s, hs, of_decide_eq_true hm, run_no_call_after_removal .epoll 0 _ s (by decide +kernel) hs⟩

/-- `data_f` deletes its iofd with `aosl_mpq_del_fd`, and `read_f` is called again. -/
theorem not_no_call_del_in_data : ¬∀ (backend : Backend) (qid : Nat) (as : List IoAct) (s : IoSt),
    exec step (init backend qid) as = some s → s.NoCallAfterRemoval := by
  intro h
  have hrun : (exec step (init .epoll 0)
      ([.op (.add 5 0 false true true false false true false), .wait [(0, ⟨true, false, false, false⟩)]] ++
        List.replicate 7 .go ++ [.ret 3, .go, .go, .go, .op (.del 5), .ret 0] ++ List.replicate 5 .go)).any
      (fun s => s.trace = [.invoke .read 0, .invoke (.data 3) 0, .removed 0, .invoke .read 0]) = true := by decide +kernel
  obtain ⟨s, hs, hm⟩ := (Option.any_eq_true _ _).1 hrun
  have := h .epoll 0 _ s hs
  unfold NoCallAfterRemoval at this
  rw [of_decide_eq_true hm] at this
  simp at this

end IoSt

end Aosl
