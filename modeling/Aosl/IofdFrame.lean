import Aosl.IofdBase

/-!
# What a step leaves of an iofd

A step that neither works on an iofd nor removes it leaves its registration, and all of it but the armed
flags and the write queue. The thread comes to the iofd with the next event of the batch only.
-/

namespace Aosl
open Lib

/-- In `f_event_and_close`. -/
def IoPc.closing : IoPc → Bool
  | call (.error _) _ _ => true
  | run (.close _) _ _ => true
  | _ => false

/-- What a step leaves of `f` that does not concern it. -/
structure Frame (s s' : IoSt) (f : Nat) : Prop where
  backend : s'.backend = s.backend
  qid : s'.qid = s.qid
  size : s.size ≤ s'.size
  attached : ∀ n, s'.attached n = some f ↔ s.attached n = some f
  obj : ∃ a b w, s'.obj f = { s.obj f with pollIn := a, pollOut := b, wQ := w }

/-- The iofd is registered under its fd, and not closed. -/
def IoSt.Registered (s : IoSt) (f : Nat) : Prop :=
  ∃ fd, (s.obj f).fd = some fd ∧ s.attached fd = some f ∧ (s.obj f).listed = true

theorem IoSt.Registered.frame {s s' : IoSt} {f : Nat} (h : s.Registered f) (hf : Frame s s' f) : s'.Registered f := by
  obtain ⟨fd, hfd, hatt, hlist⟩ := h
  obtain ⟨a, b, w, ho⟩ := hf.obj
  refine ⟨fd, ?_, (hf.attached fd).2 hatt, ?_⟩
  · rw [ho]
    exact hfd
  · rw [ho]
    exact hlist

/-- Whatever `__this_q_close_f` returns on the thread of its queue, afterwards the iofd is found nowhere. -/
theorem RegInv.gone_thisQCloseF {s : IoSt} {f q : Nat} {ok : Bool} (h : RegInv s) (hq : (s.obj f).q = q) (k : Nat) :
    (s.thisQCloseF q f ok).1.attached k ≠ some f := by
  have hdel : (s.qDelF q f).1.attached k ≠ some f := by
    obtain ⟨hne, -⟩ | ⟨hnone, h1⟩ | ⟨n, hn, ⟨hatt, h1⟩ | ⟨-, hatt, h1⟩⟩ := IoSt.qDelF_cases s q f
    · exact absurd hq hne
    · rw [h1]
      intro hk
      rw [(h k f hk).1] at hnone
      cases hnone
    all_goals
      rw [h1]
      simp only [IoSt.detach]
      split_ifs with hkn
      · exact fun h => by cases h
      · intro hk
        have hfd := (h k f hk).1
        rw [hn] at hfd
        exact hkn (Option.some.inj hfd).symm
  unfold IoSt.thisQCloseF
  dsimp only
  split_ifs
  · exact hdel
  · exact hdel

namespace IoSt

variable {s s' : IoSt} {f g n q : Nat} {a : IoAct}

/-- Closing or deleting what is registered under an fd. -/
def removesFd (n : Nat) : IoAct → Bool
  | .op (.close fd _) => fd = n
  | .op (.del fd) => fd = n
  | _ => false

theorem frame_obj (hb : s'.backend = s.backend) (hq : s'.qid = s.qid) (hs : s.size ≤ s'.size)
    (ha : ∀ n, s'.attached n = some f ↔ s.attached n = some f) (ho : s'.obj f = s.obj f) : Frame s s' f :=
  ⟨hb, hq, hs, ha, (s.obj f).pollIn, (s.obj f).pollOut, (s.obj f).wQ, ho⟩

theorem frame_tunes (ht : Tunes s s' g) (hfg : f ≠ g) : Frame s s' f := by
  apply frame_obj ht.backend ht.qid (Nat.le_of_eq ht.size.symm) ?_ (ht.other f hfg)
  intro n
  rw [ht.attached]

theorem frame_wait (reports : List (Nat × EventMask)) : Frame s (s.wait reports) f := by
  obtain ⟨a, b, heq, -⟩ := foldl_report reports s
  unfold wait
  rw [heq]
  exact ⟨rfl, rfl, Nat.le_refl _, fun _ => Iff.rfl, a f, b f, (s.obj f).wQ, rfl⟩

theorem frame_timer (hfg : f ≠ g) : Frame s (s.modify g fun o => { o with timer := false }) f :=
  frame_obj rfl rfl (Nat.le_refl _) (fun _ => Iff.rfl) (modify_other hfg)

theorem frame_dispatch : Frame s s.dispatch f := by
  unfold dispatch
  split
  · exact frame_obj rfl rfl (Nat.le_refl _) (fun _ => Iff.rfl) rfl
  · split
    · exact frame_obj rfl rfl (Nat.le_refl _) (fun _ => Iff.rfl) rfl
    · unfold eventAndClose
      dsimp only
      split_ifs
      all_goals exact frame_obj rfl rfl (Nat.le_refl _) (fun _ => Iff.rfl) rfl

theorem attached_qDelF (hn : ∀ n, (s.obj g).fd = some n → s.attached n ≠ some f) (k : Nat) :
    (s.qDelF q g).1.attached k = some f ↔ s.attached k = some f := by
  have hdetach : ∀ s' : IoSt, s'.attached = s.attached → ∀ n, (s.obj g).fd = some n →
      ((s'.detach n).attached k = some f ↔ s.attached k = some f) := by
    intro s' hs' n hg
    simp only [detach, hs']
    split_ifs with hk
    · subst hk
      exact iff_of_false (by simp) (hn k hg)
    · exact Iff.rfl
  obtain ⟨-, h⟩ | ⟨-, h⟩ | ⟨n, hg, ⟨-, h⟩ | ⟨-, -, h⟩⟩ := qDelF_cases s q g
  · rw [h]
  · rw [h]
    exact Iff.rfl
  · rw [h]
    exact hdetach _ rfl n hg
  · rw [h]
    exact hdetach _ rfl n hg

theorem frame_qDelF (hfg : f ≠ g) (hn : ∀ n, (s.obj g).fd = some n → s.attached n ≠ some f) :
    Frame s (s.qDelF q g).1 f := by
  have hr := removes_qDelF s q g
  exact frame_obj hr.backend hr.qid (Nat.le_of_eq hr.size.symm) (attached_qDelF hn) (hr.other f hfg)

theorem frame_thisQCloseF {ok : Bool} (hfg : f ≠ g) (hn : ∀ n, (s.obj g).fd = some n → s.attached n ≠ some f) :
    Frame s (s.thisQCloseF q g ok).1 f := by
  have hr := removes_thisQCloseF s q g ok
  refine frame_obj hr.backend hr.qid (Nat.le_of_eq hr.size.symm) (fun k => ?_) (hr.other f hfg)
  rw [← attached_qDelF hn (q := q) k]
  unfold thisQCloseF
  dsimp only
  split_ifs
  · exact Iff.rfl
  · exact Iff.rfl

theorem frame_removal {r : IoSt × Bool} (h : Frame s r.1 f) : Frame s (removal g r) f := by
  unfold removal
  split_ifs
  · exact ⟨h.backend, h.qid, h.size, h.attached, h.obj⟩
  · exact h

theorem frame_sendF {fn : SendFn} {len : Nat} {sent : Int} : Frame s (s.sendF fn g len sent) f := by
  obtain ⟨p, w, heq⟩ := sendF_eq s fn g len sent
  rw [heq]
  by_cases hfg : f = g
  · subst hfg
    exact ⟨rfl, rfl, Nat.le_refl _, fun _ => Iff.rfl, (s.obj f).pollIn, p, w, modify_self⟩
  · exact frame_obj rfl rfl (Nat.le_refl _) (fun _ => Iff.rfl) (modify_other hfg)

theorem frame_addFd {o : Iofd} (hf : f < s.size) : Frame s (s.addFd n o) f := by
  unfold addFd
  split_ifs with hn
  · exact frame_obj rfl rfl (Nat.le_refl _) (fun _ => Iff.rfl) rfl
  · refine frame_obj rfl rfl (Nat.le_succ _) (fun k => ?_) (if_neg (Nat.ne_of_lt hf))
    dsimp only
    split_ifs with hk
    · subst hk
      rw [Option.not_isSome_iff_eq_none.1 hn]
      refine iff_of_false (fun h => ?_) (by simp)
      exact Nat.ne_of_lt hf (Option.some.inj h).symm
    · exact Iff.rfl

theorem frame_doOp {o : IoOp} (hreg : RegInv s) (hf : f < s.size)
    (hrem : ∀ n, removesFd n (.op o) = true → s.attached n ≠ some f) : Frame s (s.doOp o) f := by
  -- what is closed or deleted is found under its own fd
  have hother : ∀ n g, removesFd n (.op o) = true → s.attached n = some g →
      f ≠ g ∧ ∀ k, (s.obj g).fd = some k → s.attached k ≠ some f := by
    intro n g hn hg
    have hfg : f ≠ g := by
      rintro rfl
      exact hrem n hn hg
    refine ⟨hfg, fun k hk hkf => ?_⟩
    rw [(hreg n g hg).1] at hk
    rw [← Option.some.inj hk, hg] at hkf
    exact hfg (Option.some.inj hkf).symm
  rcases o with ⟨fd, ok⟩ | fd | ⟨fd, q, timer, r, w, c, p, e, nr⟩ | ⟨fn, fd, len, sent⟩
  · simp only [doOp]
    split
    · exact frame_obj rfl rfl (Nat.le_refl _) (fun _ => Iff.rfl) rfl
    · next g hg =>
      obtain ⟨hfg, hk⟩ := hother fd g (by simp [removesFd]) hg
      exact frame_removal (frame_thisQCloseF hfg hk)
  · simp only [doOp]
    split
    · exact frame_obj rfl rfl (Nat.le_refl _) (fun _ => Iff.rfl) rfl
    · next g hg =>
      obtain ⟨hfg, hk⟩ := hother fd g (by simp [removesFd]) hg
      exact frame_removal (frame_qDelF hfg hk)
  · exact frame_addFd hf
  · simp only [doOp]
    split
    · exact frame_obj rfl rfl (Nat.le_refl _) (fun _ => Iff.rfl) rfl
    · exact frame_sendF

theorem leave_cur (s : IoSt) (t : Bool) : (s.leave t).pc.cur = none := by
  unfold leave
  rcases t
  · rfl
  · rfl

theorem doOp_keeps (s : IoSt) (o : IoOp) : (s.doOp o).pc = s.pc ∧ s.size ≤ (s.doOp o).size ∧
    (s.doOp o).batch = s.batch ∧ (s.doOp o).backend = s.backend := by
  have hrem : ∀ g (r : IoSt × Bool), Removes s r.1 g → (removal g r).pc = s.pc ∧ s.size ≤ (removal g r).size ∧
      (removal g r).batch = s.batch ∧ (removal g r).backend = s.backend := by
    intro g r hr
    unfold removal
    split_ifs
    · exact ⟨hr.pc, Nat.le_of_eq hr.size.symm, hr.batch, hr.backend⟩
    · exact ⟨hr.pc, Nat.le_of_eq hr.size.symm, hr.batch, hr.backend⟩
  rcases o with ⟨fd, ok⟩ | fd | ⟨fd, q, timer, r, w, c, p, e, nr⟩ | ⟨fn, fd, len, sent⟩
  · simp only [doOp]
    split
    · exact ⟨rfl, Nat.le_refl _, rfl, rfl⟩
    · exact hrem _ _ (removes_thisQCloseF ..)
  · simp only [doOp]
    split
    · exact ⟨rfl, Nat.le_refl _, rfl, rfl⟩
    · exact hrem _ _ (removes_qDelF ..)
  · simp only [doOp, addFd]
    split_ifs
    · exact ⟨rfl, Nat.le_refl _, rfl, rfl⟩
    · exact ⟨rfl, Nat.le_succ _, rfl, rfl⟩
  · simp only [doOp]
    split
    · exact ⟨rfl, Nat.le_refl _, rfl, rfl⟩
    · next g _ =>
      obtain ⟨p, w, heq⟩ := sendF_eq s fn g len sent
      rw [heq]
      exact ⟨rfl, Nat.le_refl _, rfl, rfl⟩

/-- The dispatcher comes to the iofd of the next event. -/
theorem cur_dispatch (hpc : s.pc = .next) (hcur : s.dispatch.pc.cur = some f) :
    ∃ e rest, s.batch = e :: rest ∧ s.attached e.fd = some f := by
  unfold dispatch at hcur
  split at hcur
  · cases hcur
  · next e rest hbatch =>
    split at hcur
    · rw [hpc] at hcur
      cases hcur
    · next g hg =>
      refine ⟨e, rest, hbatch, hg.trans ?_⟩
      dsimp only at hcur
      split_ifs at hcur
      · rcases (tunes_eventAndClose_self (f := g) false).cur with h | h
        · rw [h] at hcur
          exact hcur
        · rw [h] at hcur
          cases hcur
      · exact hcur

theorem cur_tunes (ht : Tunes s s' g) (hfg : f ≠ g) : s'.pc.cur ≠ some f := by
  rcases ht.cur with h | h
  · rw [h]
    exact fun h => hfg (Option.some.inj h).symm
  · rw [h]
    exact nofun

/-- Where the thread is after a step that does not concern `f`. -/
def Comes (s s' : IoSt) (f : Nat) (a : IoAct) : Prop :=
  s'.pc = s.pc ∨ (s.pc.cur ≠ some f ∧ s'.pc.cur ≠ some f) ∨
    ∃ e rest, a = .go ∧ s.pc = .next ∧ s.batch = e :: rest ∧ s.attached e.fd = some f ∧ s' = s.dispatch

/-- A step of the thread on `f`. -/
def worksOn (s : IoSt) (f : Nat) (a : IoAct) : Prop :=
  s.pc.cur = some f ∧ (a = .go ∨ ∃ v, a = .ret v)

/-- `f_event_and_close` of another iofd is not about to remove `f`, which has been registered under the same fd. -/
def CloseOk (s : IoSt) (f : Nat) (a : IoAct) : Prop :=
  ∀ t g m n, a = .go → s.pc = .run (.close t) g m → (s.obj g).fd = some n → s.attached n = some f → g = f

theorem frame_step (hs : s.step a = some s') (hreg : RegInv s) (hf : f < s.size) (hwork : ¬ s.worksOn f a)
    (htimer : a ≠ .timeout f) (hclose : s.CloseOk f a) (hrem : ∀ n, removesFd n a = true → s.attached n ≠ some f) :
    Frame s s' f ∧ s.Comes s' f a := by
  cases does_of_step hs with
  | wait hpc => exact ⟨frame_wait _, .inr (.inl ⟨by rw [hpc]; exact (fun h => by cases h), fun h => by cases h⟩)⟩
  | @late g hpc =>
    have hfg : f ≠ g := fun h => htimer (h ▸ rfl)
    have ht := tunes_eventAndClose_self (s := s.modify g fun o => { o with timer := false }) (f := g)
      (m := ⟨false, false, false, false⟩) true
    have hframe := frame_timer (s := s) hfg
    have hframe' := frame_tunes ht hfg
    refine ⟨frame_obj hframe'.backend hframe'.qid hframe'.size (fun n => ?_) ?_,
      .inr (.inl ⟨by rw [hpc]; exact (fun h => by cases h), cur_tunes ht hfg⟩)⟩
    · rw [hframe'.attached, hframe.attached]
    · rw [ht.other f hfg, modify_other hfg]
  | @ready g => exact ⟨frame_timer fun h => htimer (h ▸ rfl), .inl rfl⟩
  | dispatch hpc =>
    refine ⟨frame_dispatch, .inr ?_⟩
    by_cases hcur : s.dispatch.pc.cur = some f
    · obtain ⟨e, rest, hbatch, hatt⟩ := cur_dispatch hpc hcur
      exact .inr ⟨e, rest, rfl, hpc, hbatch, hatt, rfl⟩
    · exact .inl ⟨by rw [hpc]; exact (fun h => by cases h), hcur⟩
  | @run pos g m hpc =>
    have hfg : f ≠ g := by
      rintro rfl
      exact hwork ⟨by rw [hpc]; rfl, .inl rfl⟩
    have hcur : s.pc.cur ≠ some f := by
      rw [hpc]
      exact fun h => hfg (Option.some.inj h).symm
    by_cases hpos : pos.closing = true
    · rcases pos
      case close t =>
        have hk : ∀ n, (s.obj g).fd = some n → s.attached n ≠ some f :=
          fun n hn ha => hfg (hclose t g m n rfl hpc hn ha).symm
        have hframe : Frame s (s.thisQCloseF s.qid g true).1 f := frame_thisQCloseF hfg hk
        simp only [runPos]
        split_ifs
        · refine ⟨⟨hframe.backend, hframe.qid, hframe.size, hframe.attached, hframe.obj⟩, .inr (.inl ⟨hcur, ?_⟩)⟩
          rw [leave_cur]
          exact fun h => by cases h
        · refine ⟨frame_obj rfl rfl (Nat.le_refl _) (fun _ => Iff.rfl) rfl, .inr (.inl ⟨hcur, ?_⟩)⟩
          rw [leave_cur]
          exact fun h => by cases h
      all_goals cases hpos
    · have ht := tunes_runPos (s := s) (f := g) (m := m) (Bool.not_eq_true _ ▸ hpos)
      exact ⟨frame_tunes ht hfg, .inr (.inl ⟨hcur, cur_tunes ht hfg⟩)⟩
  | @ret v site g m hpc =>
    have hfg : f ≠ g := by
      rintro rfl
      exact hwork ⟨by rw [hpc]; rfl, .inr ⟨v, rfl⟩⟩
    have ht := tunes_retCall (s := s) (f := g) (m := m) (v := v) site
    refine ⟨frame_tunes ht hfg, .inr (.inl ⟨?_, cur_tunes ht hfg⟩)⟩
    rw [hpc]
    exact fun h => hfg (Option.some.inj h).symm
  | op => exact ⟨frame_doOp hreg hf hrem, .inl (doOp_keeps _ _).1⟩

theorem timer_of_step (hs : s.step (.timeout f) = some s') : (s.obj f).timer = true := by
  cases does_of_step hs with
  | late _ _ _ ht => exact ht
  | ready _ _ _ ht => exact ht

/-- The code on an iofd changes its flags and buffers. -/
def Touches (o o' : Iofd) : Prop :=
  ∃ a b r n w, o' = { o with pollIn := a, pollOut := b, readReturn0 := r, rLen := n, wQ := w }

theorem touches_refl (o : Iofd) : Touches o o := ⟨o.pollIn, o.pollOut, o.readReturn0, o.rLen, o.wQ, rfl⟩

theorem touches_modify {g : Iofd → Iofd} (hg : Touches (s.obj f) (g (s.obj f))) :
    Touches (s.obj f) ((s.modify f g).obj f) := by
  rw [modify_self]
  exact hg

theorem touches_goto {g : Iofd → Iofd} {pos : IoPos} {m : EventMask} (hg : Touches (s.obj f) (g (s.obj f))) :
    Touches (s.obj f) (((s.modify f g).goto pos f m).obj f) := touches_modify hg

theorem touches_runPos {pos : IoPos} {m : EventMask} (hpos : pos.closing = false) (hout : pos = .out → m.pollOut = false) :
    Touches (s.obj f) ((s.runPos f m pos).obj f) := by
  rcases pos with _ | _ | _ | _ | err | ⟨err, dataLen⟩ | err | _ | _ | t
  · rw [runPos, hout rfl]
    exact touches_refl _
  · rw [runPos]
    split
    · exact touches_refl _
    · split_ifs
      · exact touches_refl _
      · exact touches_refl _
  · rw [runPos]
    split_ifs
    · exact touches_refl _
    · exact touches_refl _
  · rw [runPos]
    split_ifs
    · exact touches_refl _
    · exact touches_refl _
  · rw [runPos]
    split_ifs
    · exact touches_refl _
    · exact touches_refl _
    · exact touches_refl _
  · rw [runPos]
    split_ifs
    · exact touches_refl _
    · exact touches_goto ⟨_, _, _, _, _, rfl⟩
  · rw [runPos]
    split_ifs
    · exact touches_refl _
    · exact touches_goto ⟨_, _, _, _, _, rfl⟩
    · exact touches_refl _
    · exact touches_refl _
  · exact touches_refl _
  · rw [runPos]
    split_ifs
    · rw [eventAndClose_obj]
      exact touches_refl _
    · exact touches_refl _
  · cases hpos

theorem touches_retCall {m : EventMask} {v : Int} (site : CallSite) : Touches (s.obj f) ((s.retCall f m v site).obj f) := by
  rcases site with _ | _ | _ | err | err | _ | t
  · have hread : Touches (s.obj f) ((s.modify f fun o => { o with pollIn := true }).obj f) :=
      touches_modify ⟨_, _, _, _, _, rfl⟩
    simp only [retCall]
    split_ifs
    · rw [eventAndClose_obj]
      exact hread
    · exact hread
    · rw [modify_modify]
      exact touches_goto ⟨_, _, _, _, _, rfl⟩
    · rw [modify_modify]
      exact touches_goto ⟨_, _, _, _, _, rfl⟩
  · have hwrite : Touches (s.obj f) ((s.modify f fun o => { o with pollOut := true }).obj f) :=
      touches_modify ⟨_, _, _, _, _, rfl⟩
    simp only [retCall]
    split_ifs
    · rw [eventAndClose_obj]
      exact hwrite
    · exact hwrite
    · split
      · exact hwrite
      · split_ifs
        all_goals
          rw [modify_modify]
          exact touches_goto ⟨_, _, _, _, _, rfl⟩
  · simp only [retCall]
    split_ifs
    · exact touches_refl _
    · rw [eventAndClose_obj]
      exact touches_refl _
    · exact touches_refl _
  · simp only [retCall]
    split_ifs
    · exact touches_refl _
    · exact touches_refl _
  · simp only [retCall]
    split_ifs
    · exact touches_refl _
    · exact touches_goto ⟨_, _, _, _, _, rfl⟩
  · exact touches_refl _
  · exact touches_refl _

/-- Between two calls nobody sends on an iofd of the queue. -/
theorem wQ_of_run {pos : IoPos} {m : EventMask} {o : IoOp} (hpc : s.pc = .run pos g m) (hq : (s.obj f).q = s.qid)
    (hf : f < s.size) (hu : s.opQueue o = s.qid → atUser s.pc = true) : ((s.doOp o).obj f).wQ = (s.obj f).wQ := by
  have hremoves : ∀ g (r : IoSt × Bool), Removes s r.1 g → ((removal g r).obj f).wQ = (s.obj f).wQ := by
    intro g r hr
    have hobj : (removal g r).obj = r.1.obj := by
      unfold removal
      split_ifs
      · rfl
      · rfl
    rw [hobj]
    by_cases hfg : f = g
    · subst hfg
      obtain ⟨l, d, ho | ho⟩ := hr.self
      · rw [ho]
      · rw [ho]
    · rw [hr.other f hfg]
  rcases o with ⟨fd, ok⟩ | fd | ⟨fd, q, timer, r, w, c, p, e, nr⟩ | ⟨fn, fd, len, sent⟩
  · simp only [doOp]
    split
    · rfl
    · exact hremoves _ _ (removes_thisQCloseF ..)
  · simp only [doOp]
    split
    · rfl
    · exact hremoves _ _ (removes_qDelF ..)
  · simp only [doOp, addFd]
    split_ifs
    · rfl
    · dsimp only
      rw [if_neg (Nat.ne_of_lt hf)]
  · simp only [doOp]
    split
    · rfl
    · next k hk =>
      obtain ⟨p, w, heq⟩ := sendF_eq s fn k len sent
      rw [heq]
      by_cases hfk : f = k
      · subst hfk
        have hqueue : s.opQueue (.send fn fd len sent) = s.qid := by
          simp only [opQueue, hk, Option.map_some, Option.getD_some]
          exact hq
        have := hu hqueue
        rw [hpc] at this
        cases this
      · rw [modify_other hfk]

/-- The thread works on iofds that exist. -/
theorem cur_lt_step (hs : s.step a = some s') (hreg : RegInv s) (hcur : ∀ f, s.pc.cur = some f → f < s.size) :
    ∀ f, s'.pc.cur = some f → f < s'.size := by
  have htunes : ∀ s1 s2 g, Tunes s1 s2 g → g < s1.size → ∀ f, s2.pc.cur = some f → f < s2.size := by
    intro s1 s2 g ht hg f hf
    rw [ht.size]
    rcases ht.cur with h | h
    · rw [h] at hf
      rwa [← Option.some.inj hf]
    · rw [h] at hf
      cases hf
  cases does_of_step hs with
  | wait => exact nofun
  | late _ hf => exact htunes _ _ _ (tunes_eventAndClose_self true) hf
  | ready => exact hcur
  | dispatch hpc =>
    intro f hf
    obtain ⟨e, rest, -, hatt⟩ := cur_dispatch hpc hf
    exact Nat.lt_of_lt_of_le (hreg e.fd f hatt).2 (frame_dispatch (f := f)).size
  | @run pos g m hpc =>
    have hg : g < s.size := hcur g (by rw [hpc]; rfl)
    by_cases hpos : pos.closing = true
    · rcases pos
      case close t =>
        intro f hf
        simp only [runPos] at hf
        split_ifs at hf
        · rw [leave_cur] at hf
          cases hf
        · rw [leave_cur] at hf
          cases hf
      all_goals cases hpos
    · exact htunes _ _ _ (tunes_runPos (Bool.not_eq_true _ ▸ hpos)) hg
  | ret hpc => exact htunes _ _ _ (tunes_retCall _) (hcur _ (by rw [hpc]; rfl))
  | @op o =>
    intro f hf
    obtain ⟨hpc, hsize, -⟩ := doOp_keeps s o
    rw [hpc] at hf
    exact Nat.lt_of_lt_of_le (hcur f hf) hsize

end IoSt

end Aosl
