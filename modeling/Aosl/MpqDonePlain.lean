import Aosl.MpqDoneRun

/-!
# Functions with neither ref nor done queue

Such a function is called once, on the queue to which it was queued, and with no ref object (`DoneSt.Plain`): only a ref
that is gone or destroyed, or a done queue that is lost, has a function called to free. A thread that is in a function
stays in it until it goes on (`frame_step`).
-/

namespace Aosl
open Lib

/-! ### Functions without a ref -/

/-- The function `k` has no ref, wherever it is in the queue. -/
structure DoneQ.NoRef (k : Nat) (q : DoneQ) : Prop where
  items : ∀ fo ∈ q.taken ++ q.fos, fo.id = k → fo.ref = none
  frames : ∀ fr ∈ q.stack, ∀ fo, fr.fo = some fo → fo.id = k → fo.ref = none ∧ ∀ r, fr ≠ .check fo r

theorem DoneQ.NoRef.goPhase {k : Nat} {q q' : DoneQ} (h : q.NoRef k) (hgo : q.goPhase = some q') : q'.NoRef k := by
  unfold DoneQ.goPhase at hgo
  split at hgo
  · cases hgo
    exact ⟨h.items, h.frames⟩
  · split_ifs at hgo
    · cases hgo
      refine ⟨fun fo hfo => h.items fo (List.mem_append_right _ ?_), h.frames⟩
      simpa using hfo
    · cases hgo
      exact ⟨h.items, h.frames⟩
  · split at hgo
    · cases hgo
      exact ⟨h.items, h.frames⟩
    · rename_i fo taken htaken
      cases hgo
      have hitems : ∀ x ∈ fo :: (taken ++ q.fos), x.id = k → x.ref = none := by
        intro x hx
        refine h.items x ?_
        rw [htaken]
        exact hx
      refine ⟨fun x hx => hitems x (List.mem_cons_of_mem fo hx), ?_⟩
      intro fr hfr x hx hk
      cases List.mem_singleton.1 hfr
      cases hx
      exact ⟨hitems fo List.mem_cons_self hk, nofun⟩
  · cases hgo
    exact ⟨h.items, h.frames⟩
  · cases hgo
    exact ⟨h.items, h.frames⟩
  · cases hgo
    exact ⟨h.items, h.frames⟩
  · cases hgo

namespace DoneSt

variable {s s' : DoneSt} {a : DoneAct} {i k p : Nat} {q : DoneQ} {rest : List Invoke} {fr : Invoke}

theorem forall_modQ {P : DoneQ → Prop} {f : DoneQ → DoneQ} (h : ∀ q ∈ s.qs, P q)
    (hf : ∀ q, s.qs[i]? = some q → P q → P (f q)) : ∀ q ∈ (s.modQ i f).qs, P q := by
  intro q hq
  obtain ⟨j, hj⟩ := List.mem_iff_getElem?.1 hq
  rw [modQ, List.getElem?_modify] at hj
  obtain ⟨q0, hq0, rfl⟩ := Option.map_eq_some_iff.1 hj
  have hP := h q0 (List.mem_of_getElem? hq0)
  split_ifs with hij
  · exact hf q0 (hij ▸ hq0) hP
  · exact hP

theorem noRef_goto (h : ∀ q ∈ s.qs, q.NoRef k) (hq : s.qs[i]? = some q) {stack : List Invoke}
    (hst : ∀ y ∈ stack, y ∈ q.stack ∨ ∀ fo, y.fo = some fo → fo.id = k → fo.ref = none ∧ ∀ r, y ≠ .check fo r) :
    ∀ q ∈ (s.goto i stack).qs, q.NoRef k := by
  refine forall_modQ h ?_
  intro q0 hq0 hn
  cases hq.symm.trans hq0
  refine ⟨hn.items, ?_⟩
  intro y hy
  rcases hst y hy with hy | hy
  · exact hn.frames y hy
  · exact hy

theorem noRef_modQ (h : ∀ q ∈ s.qs, q.NoRef k) {f : DoneQ → DoneQ}
    (hf : ∀ q, (f q).taken = q.taken ∧ (f q).fos = q.fos ∧ (f q).stack = q.stack) :
    ∀ q ∈ (s.modQ i f).qs, q.NoRef k := by
  refine forall_modQ h ?_
  intro q _ hn
  obtain ⟨htaken, hfos, hst⟩ := hf q
  refine ⟨?_, ?_⟩
  · rw [htaken, hfos]
    exact hn.items
  · rw [hst]
    exact hn.frames

theorem noRef_link (h : ∀ q ∈ s.qs, q.NoRef k) {fo : DoneFo} (hfo : fo.id = k → fo.ref = none) :
    ∀ q ∈ (s.link i fo).qs, q.NoRef k := by
  refine forall_modQ h ?_
  intro q _ hn
  refine ⟨?_, hn.frames⟩
  intro x hx hk
  rw [← List.append_assoc] at hx
  rcases List.mem_append.1 hx with hx | hx
  · exact hn.items x hx hk
  · cases List.mem_singleton.1 hx
    exact hfo hk

theorem noRef_goInvoke (h : ∀ q ∈ s.qs, q.NoRef k) (hq : s.qs[i]? = some q) (hst : q.stack = fr :: rest) :
    ∀ q ∈ (s.goInvoke i rest fr).qs, q.NoRef k := by
  have hfr := (h q (List.mem_of_getElem? hq)).frames fr (hst ▸ List.mem_cons_self)
  have hrest : ∀ y ∈ rest, y ∈ q.stack := fun y hy => hst ▸ List.mem_cons_of_mem fr hy
  have hgo : ∀ y : Invoke, (∀ fo, y.fo = some fo → fr.fo = some fo ∧ ∀ r, y = .check fo r → fo.ref = some r) →
      ∀ z ∈ y :: rest, z ∈ q.stack ∨ ∀ fo, z.fo = some fo → fo.id = k → fo.ref = none ∧ ∀ r, z ≠ .check fo r := by
    intro y hy z hz
    rcases List.mem_cons.1 hz with rfl | hz
    · right
      intro fo hfo hk
      obtain ⟨he, hcheck⟩ := hy fo hfo
      have href := (hfr fo he hk).1
      refine ⟨href, fun r hr => ?_⟩
      cases href.symm.trans (hcheck r hr)
    · exact .inl (hrest z hz)
  have hpop : ∀ q ∈ (s.goto i rest).qs, q.NoRef k := noRef_goto h hq fun y hy => .inl (hrest y hy)
  rcases fr with fo | ⟨fo, r⟩ | ⟨fo, robj⟩ | ⟨fo, d⟩ | ⟨fo, d⟩ | d | fo
  · have hrun : ∀ robj, ∀ q ∈ (s.goto i (.run fo robj :: rest)).qs, q.NoRef k :=
      fun robj => noRef_goto h hq (hgo (.run fo robj) fun _ he => ⟨he, fun _ hr => by cases hr⟩)
    simp only [DoneSt.goInvoke]
    split
    · exact hrun .null
    · rename_i r href
      split_ifs
      · exact hrun .freeOnly
      · refine noRef_goto h hq (hgo (.check fo r) fun x he => ⟨he, ?_⟩)
        cases he
        intro r' hr
        cases hr
        exact href
  · exact noRef_goto h hq (hgo (.run fo _) fun _ he => ⟨he, fun _ hr => by cases hr⟩)
  · simp only [DoneSt.goInvoke]
    split
    · exact hpop
    · rename_i d _
      split_ifs
      · exact hpop
      · exact noRef_goto h hq (hgo (.done fo d) fun _ he => ⟨he, fun _ hr => by cases hr⟩)
  · simp only [DoneSt.goInvoke]
    split_ifs
    · have hq' := getElem?_modQ (d := d) hq fun q => { q with usage := q.usage + 1 }
      have hst' : (if d = i then { q with usage := q.usage + 1 } else q).stack = q.stack := by split_ifs <;> rfl
      refine noRef_goto (s := s.hold d) (noRef_modQ h fun _ => ⟨rfl, rfl, rfl⟩) hq' ?_
      rw [hst']
      exact hgo (.add fo d) fun _ he => ⟨he, fun _ hr => by cases hr⟩
    · exact noRef_goto h hq (hgo (.free fo) fun _ he => ⟨he, fun _ hr => by cases hr⟩)
  · refine noRef_link (noRef_goto h hq (hgo (.leave d) fun _ he => by cases he)) ?_
    exact fun hk => (hfr fo rfl hk).1
  · exact noRef_modQ hpop fun _ => ⟨rfl, rfl, rfl⟩
  · exact hpop

theorem noRef_step (h : ∀ q ∈ s.qs, q.NoRef k) (hk : k < s.reqs.length) (hs : s.step a = some s') :
    ∀ q ∈ s'.qs, q.NoRef k := by
  rcases a with _ | d | ⟨j, done, ref⟩ | j | i | r | r | ⟨i, ref⟩ | i
  · cases hs
    intro q hq
    rcases List.mem_append.1 hq with hq | hq
    · exact h q hq
    · cases List.mem_singleton.1 hq
      exact ⟨by simp [DoneQ.create], by simp [DoneQ.create]⟩
  · simp only [DoneSt.step] at hs
    split_ifs at hs
    cases hs
    exact noRef_modQ h fun _ => ⟨rfl, rfl, rfl⟩
  · simp only [DoneSt.step] at hs
    split at hs
    · cases hs
      exact noRef_link h fun he => absurd he (Nat.ne_of_gt hk)
    · cases hs
  · simp only [DoneSt.step] at hs
    split at hs
    · cases hs
      exact noRef_modQ h fun _ => ⟨rfl, rfl, rfl⟩
    · cases hs
  · cases hs
    exact noRef_modQ h fun _ => ⟨rfl, rfl, rfl⟩
  · cases hs
    exact h
  · cases hs
    exact h
  · simp only [DoneSt.step] at hs
    split at hs
    · rename_i q hq
      split_ifs at hs
      cases hs
      refine noRef_goto h hq ?_
      intro y hy
      rcases List.mem_cons.1 hy with rfl | hy
      · right
        rintro fo ⟨⟩ he
        exact absurd he (Nat.ne_of_gt hk)
      · exact .inl hy
    · cases hs
  · simp only [DoneSt.step] at hs
    split at hs
    · rename_i q hq
      split at hs
      · obtain ⟨q', hgo, rfl⟩ := Option.map_eq_some_iff.1 hs
        refine forall_modQ h ?_
        intro q0 hq0 hn
        cases hq.symm.trans hq0
        exact hn.goPhase hgo
      · rename_i fr rest hst
        cases hs
        exact noRef_goInvoke h hq hst
    · cases hs

/-! ### The log -/

theorem log_goInvoke (s : DoneSt) (i : Nat) (rest : List Invoke) (fr : Invoke) : (s.goInvoke i rest fr).log = s.log ∨
    (∃ (fo : DoneFo) (robj : Robj), (fr = .get fo ∧ (fo.ref = none → robj = .null) ∨ ∃ r, fr = .check fo r) ∧
      s.goInvoke i rest fr = s.invoke i fo robj rest) ∨
    ∃ (fo : DoneFo) (d : Nat), fr = .done fo d ∧
      (s.goInvoke i rest fr).log = s.log ++ [DoneEv.lost d, .call i none .freeOnly].map (fo.id, ·) := by
  rcases fr with fo | ⟨fo, r⟩ | ⟨fo, robj⟩ | ⟨fo, d⟩ | ⟨fo, d⟩ | d | fo
  · simp only [DoneSt.goInvoke]
    split
    · exact .inr (.inl ⟨fo, .null, .inl ⟨rfl, fun _ => rfl⟩, rfl⟩)
    · rename_i r href
      split_ifs
      · refine .inr (.inl ⟨fo, .freeOnly, .inl ⟨rfl, fun he => ?_⟩, rfl⟩)
        cases he.symm.trans href
      · exact .inl rfl
  · exact .inr (.inl ⟨fo, _, .inr ⟨r, rfl⟩, rfl⟩)
  · simp only [DoneSt.goInvoke]
    split
    · exact .inl rfl
    · split_ifs
      · exact .inl rfl
      · exact .inl rfl
  · by_cases hin : s.obtainable d = true
    · left
      simp only [DoneSt.goInvoke, if_pos hin]
      rfl
    · refine .inr (.inr ⟨fo, d, rfl, ?_⟩)
      simp only [DoneSt.goInvoke, if_neg hin]
      exact List.append_assoc ..
  · exact .inl rfl
  · exact .inl rfl
  · exact .inl rfl

theorem log_step (hs : s.step a = some s') : s'.log = s.log ∨
    ∃ (i : Nat) (q : DoneQ) (fr : Invoke) (rest : List Invoke), s.qs[i]? = some q ∧ q.stack = fr :: rest ∧
      s' = s.goInvoke i rest fr := by
  rcases a
  case go i =>
    simp only [DoneSt.step] at hs
    split at hs
    · rename_i q hq
      split at hs
      · obtain ⟨q', -, rfl⟩ := Option.map_eq_some_iff.1 hs
        exact .inl rfl
      · rename_i fr rest hst
        cases hs
        exact .inr ⟨i, q, fr, rest, hq, hst, rfl⟩
    · cases hs
  all_goals
    left
    simp only [DoneSt.step] at hs
    repeat' split at hs
    all_goals first
      | cases hs; done
      | cases hs; rfl

theorem hist_append (l l' : List (Nat × DoneEv)) (k : Nat) : hist (l ++ l') k = hist l k ++ hist l' k := by
  rw [hist, List.filter_append, List.map_append]
  rfl

theorem mem_hist {l : List (Nat × DoneEv)} {ev : DoneEv} : ev ∈ hist l k ↔ (k, ev) ∈ l := by simp [hist]

theorem hist_step (hs : s.step a = some s') (k : Nat) : hist s.log k <+: hist s'.log k := by
  have hlog : s.log <+: s'.log := by
    rcases log_step hs with hl | ⟨i, q, fr, rest, -, -, rfl⟩
    · exact hl ▸ List.prefix_rfl
    · rcases log_goInvoke s i rest fr with hl | ⟨fo, robj, -, he⟩ | ⟨fo, d, -, hl⟩
      · exact hl ▸ List.prefix_rfl
      · rw [he]
        exact List.prefix_append _ _
      · rw [hl]
        exact List.prefix_append _ _
  obtain ⟨l, hl⟩ := hlog
  rw [← hl, hist_append]
  exact List.prefix_append _ _

theorem mem_toks_of_frame {t : Tok} (hq : s.qs[i]? = some q) (hfr : fr ∈ q.stack) (ht : fr.tok i = some t) :
    t ∈ s.toks :=
  mem_toks hq (List.mem_append_left _ (List.mem_filterMap.2 ⟨fr, hfr, ht⟩))

/-- When a function is called, it is what the thread does. -/
theorem called_step (hp : s.ProtoInv) (hs : s.step a = some s') (hk : hist s.log k = []) (hk' : hist s'.log k ≠ []) :
    ∃ (i : Nat) (q : DoneQ) (fo : DoneFo) (robj : Robj) (rest : List Invoke), s'.qs[i]? = some q ∧
      q.stack = .run fo robj :: rest ∧ fo.id = k := by
  rcases log_step hs with hl | ⟨i, q, fr, rest, hq, hst, rfl⟩
  · rw [hl] at hk'
    exact absurd hk hk'
  · rcases log_goInvoke s i rest fr with hl | ⟨fo, robj, -, he⟩ | ⟨fo, d, rfl, hl⟩
    · rw [hl] at hk'
      exact absurd hk hk'
    · rw [he] at hk' ⊢
      refine ⟨i, _, fo, robj, rest, getElem?_goto hq _, rfl, ?_⟩
      by_contra hne
      refine hk' ?_
      change hist (s.log ++ [DoneEv.call i fo.done robj].map (fo.id, ·)) k = []
      rw [Proto.hist_append_ne (Ne.symm hne)]
      exact hk
    · by_cases hne : k = fo.id
      · subst hne
        have htok : Tok.back i fo d ∈ s.toks := mem_toks_of_frame hq (hst ▸ List.mem_cons_self) rfl
        obtain ⟨r, -, -, -, -, o, -, hh⟩ := hp.ok _ htok
        cases hk.symm.trans hh
      · rw [hl, Proto.hist_append_ne hne] at hk'
        exact absurd hk hk'

/-! ### The frames of a thread -/

theorem stack_goInvoke (hq : s.qs[i]? = some q) (rest : List Invoke) (fr : Invoke) :
    ∃ (q' : DoneQ) (ys : List Invoke), (s.goInvoke i rest fr).qs[i]? = some q' ∧ q'.stack = ys ++ rest := by
  have hmove : ∀ ys, ∃ (q' : DoneQ) (ys' : List Invoke), (s.goto i (ys ++ rest)).qs[i]? = some q' ∧
      q'.stack = ys' ++ rest :=
    fun ys => ⟨_, ys, getElem?_goto hq _, rfl⟩
  rcases fr with fo | ⟨fo, r⟩ | ⟨fo, robj⟩ | ⟨fo, d⟩ | ⟨fo, d⟩ | d | fo
  · simp only [DoneSt.goInvoke]
    split
    · exact hmove [.run fo .null]
    · rename_i r _
      split_ifs
      · exact hmove [.run fo .freeOnly]
      · exact hmove [.check fo r]
  · exact hmove [.run fo _]
  · simp only [DoneSt.goInvoke]
    split
    · exact hmove []
    · rename_i d _
      split_ifs
      · exact hmove []
      · exact hmove [.done fo d]
  · simp only [DoneSt.goInvoke]
    split_ifs
    · obtain ⟨q', hq', -⟩ := grows_hold (d := d) hq
      exact ⟨_, [.add fo d], getElem?_goto hq' _, rfl⟩
    · exact hmove [.free fo]
  · obtain ⟨q', hq', hg⟩ := grows_link (d := d) { fo with done := none } (getElem?_goto hq (.leave d :: rest))
    exact ⟨q', [.leave d], hq', hg.stack⟩
  · obtain ⟨q', hq', hg⟩ := grows_drop (d := d) (getElem?_goto hq rest)
    exact ⟨q', [], hq', hg.stack⟩
  · exact hmove []

/-- A call goes on until the thread does. -/
theorem frame_step (hq : s.qs[i]? = some q) (hfr : fr ∈ q.stack) (hgo : a = .go i → q.stack.head? ≠ some fr)
    (hs : s.step a = some s') : ∃ q' : DoneQ, s'.qs[i]? = some q' ∧ fr ∈ q'.stack := by
  by_cases ha : a = .go i
  · subst ha
    simp only [DoneSt.step, hq] at hs
    split at hs
    · rename_i hst
      rw [hst] at hfr
      cases hfr
    · rename_i top rest hst
      cases hs
      obtain ⟨q', ys, hq', hst'⟩ := stack_goInvoke hq rest top
      refine ⟨q', hq', ?_⟩
      rw [hst']
      refine List.mem_append_right _ ?_
      rw [hst] at hfr hgo
      rcases List.mem_cons.1 hfr with rfl | hfr
      · exact absurd rfl (hgo rfl)
      · exact hfr
  · by_cases hc : ∃ ref, a = .call i ref
    · obtain ⟨ref, rfl⟩ := hc
      simp only [DoneSt.step, hq] at hs
      split_ifs at hs
      cases hs
      exact ⟨_, getElem?_goto hq _, List.mem_cons_of_mem _ hfr⟩
    · obtain ⟨q', hq', hg⟩ := grows_step hq ha (fun ref he => hc ⟨ref, he⟩) hs
      exact ⟨q', hq', hg.stack ▸ hfr⟩

/-! ### Functions with neither ref nor done queue -/

/-- The function `k` of queue `p` has neither a done queue nor a ref, and it is called with no ref object. -/
structure Plain (s : DoneSt) (k p : Nat) : Prop where
  req : s.reqs[k]? = some ⟨p, none, none⟩
  noRef : ∀ q ∈ s.qs, q.NoRef k
  called : ∀ i d o, (k, .call i d o) ∈ s.log → o = .null

theorem Plain.lt_length (h : s.Plain k p) : k < s.reqs.length := (List.getElem?_eq_some_iff.1 h.req).1

theorem Plain.step (h : s.Plain k p) (hp : s.ProtoInv) (hs : s.step a = some s') : s'.Plain k p := by
  refine ⟨reqs_step hs h.req, noRef_step h.noRef h.lt_length hs, ?_⟩
  intro j d o hm
  rcases log_step hs with hl | ⟨i, q, fr, rest, hq, hst, rfl⟩
  · exact h.called j d o (hl ▸ hm)
  · have hmem : fr ∈ q.stack := hst ▸ List.mem_cons_self
    have hfr := (h.noRef q (List.mem_of_getElem? hq)).frames fr hmem
    rcases log_goInvoke s i rest fr with hl | ⟨fo, robj, hcase, he⟩ | ⟨fo, d', rfl, hl⟩
    · exact h.called j d o (hl ▸ hm)
    · rw [he] at hm
      rcases List.mem_append.1 hm with hm | hm
      · exact h.called j d o hm
      · simp only [List.mem_singleton, Prod.mk.injEq, DoneEv.call.injEq] at hm
        obtain ⟨hid, -, -, rfl⟩ := hm
        rcases hcase with ⟨rfl, hnull⟩ | ⟨r, rfl⟩
        · exact hnull (hfr fo rfl hid.symm).1
        · exact absurd rfl ((hfr fo rfl hid.symm).2 r)
    · rw [hl] at hm
      rcases List.mem_append.1 hm with hm | hm
      · exact h.called j d o hm
      · obtain ⟨ev, -, hev⟩ := List.mem_map.1 hm
        obtain ⟨r, hr, hok⟩ := hp.ok (.back i fo d') (mem_toks_of_frame hq hmem rfl)
        have hid : fo.id = k := congrArg Prod.fst hev
        have hr' : s.reqs[k]? = some r := hid ▸ hr
        cases h.req.symm.trans hr'
        cases hok.2.1

theorem Plain.add {j d : Nat} (hp : s.ProtoInv) (hd : s.holders[j]? = some d)
    (hs : s.step (.add j none none) = some s') : s'.Plain s.reqs.length d := by
  simp only [DoneSt.step, hd] at hs
  cases hs
  have hnew : ∀ q ∈ s.qs, ∀ fo, q.Holds fo → fo.id ≠ s.reqs.length := by
    intro q hq fo hfo
    obtain ⟨i, hi⟩ := List.mem_iff_getElem?.1 hq
    obtain ⟨t, ht, rfl⟩ := hfo.exists_tok i
    exact Nat.ne_of_lt (Proto.lt_length hp (mem_toks hi ht))
  refine ⟨List.getElem?_concat_length, noRef_link ?_ fun _ => rfl, ?_⟩
  · intro q hq
    refine ⟨?_, ?_⟩
    · intro fo hfo he
      refine absurd he (hnew q hq fo (.inl ?_))
      rwa [List.take_length]
    · intro fr hfr fo hfo he
      exact absurd he (hnew q hq fo (.inr ⟨fr, hfr, hfo⟩))
  · intro i d o hm
    exact absurd (hp.old _ hm) (Nat.lt_irrefl _)

theorem Plain.hist_of_done (h : s.Plain k p) (hp : s.ProtoInv) (hk : k ∉ s.toks.map Tok.id) :
    hist s.log k = [.call p none .null] := by
  obtain ⟨o, ho⟩ := hp.rest k _ h.req hk
  have hmem : (k, DoneEv.call p none o) ∈ s.log := mem_hist.1 (ho ▸ List.mem_singleton_self _)
  cases h.called p none o hmem
  exact ho

theorem Plain.hist_cases (h : s.Plain k p) (hp : s.ProtoInv) :
    hist s.log k = [] ∨ hist s.log k = [.call p none .null] := by
  by_cases hk : k ∈ s.toks.map Tok.id
  · obtain ⟨t, ht, rfl⟩ := List.mem_map.1 hk
    obtain ⟨r, hr, hok⟩ := hp.ok t ht
    cases h.req.symm.trans hr
    obtain ⟨h', ⟨o, rfl⟩, l, hl⟩ := hok.prefix
    rcases hh : hist s.log t.id with _ | ⟨ev, evs⟩
    · exact .inl rfl
    · rw [hh] at hl
      obtain ⟨rfl, hnil⟩ := List.cons.inj hl
      cases h.called p none o (mem_hist.1 (hh ▸ List.mem_cons_self))
      rw [(List.append_eq_nil_iff.1 hnil).1]
      exact .inr rfl
  · exact .inr (h.hist_of_done hp hk)

theorem Plain.queue_eq {fo : DoneFo} {robj : Robj} (h : s.Plain k p) (hp : s.ProtoInv) (hq : s.qs[i]? = some q)
    (hfr : .run fo robj ∈ q.stack) (hid : fo.id = k) : i = p := by
  subst hid
  obtain ⟨r, hr, h', hb, -⟩ := hp.ok (.ran i fo robj) (mem_toks_of_frame hq hfr rfl)
  cases h.req.symm.trans hr
  rcases hb with ⟨rfl, -⟩ | ⟨hdone, -⟩
  · rfl
  · cases hdone

theorem Plain.holds_of_nil (h : s.Plain k p) (hp : s.ProtoInv) (hn : hist s.log k = []) :
    ∃ (i : Nat) (q : DoneQ) (fo : DoneFo), s.qs[i]? = some q ∧ q.Holds fo ∧ fo.id = k := by
  by_cases hk : k ∈ s.toks.map Tok.id
  · obtain ⟨t, ht, rfl⟩ := List.mem_map.1 hk
    obtain ⟨i, q, hq, hfo⟩ := exists_holds ht
    exact ⟨i, q, t.fo, hq, hfo, rfl⟩
  · cases hn.symm.trans (h.hist_of_done hp hk)

theorem holders_step (hs : s.step a = some s') : s'.holders = match a with
    | .get d => s.holders ++ [d]
    | .put j => s.holders.eraseIdx j
    | _ => s.holders := by
  rcases a
  case go i =>
    simp only [DoneSt.step] at hs
    split at hs
    · split at hs
      · obtain ⟨q', -, rfl⟩ := Option.map_eq_some_iff.1 hs
        rfl
      · rename_i fr rest _
        cases hs
        rcases fr
        all_goals
          simp only [DoneSt.goInvoke]
          repeat' split
          all_goals rfl
    · cases hs
  all_goals
    simp only [DoneSt.step] at hs
    repeat' split at hs
    all_goals first
      | cases hs; done
      | cases hs; rfl

end DoneSt

end Aosl
