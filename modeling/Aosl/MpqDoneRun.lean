import Aosl.MpqDone

/-!
# Every accepted function is completed once

The protocol by itself is about tokens: an accepted function is in one place at a time, in the list of a queue or in an `__invoke_f`,
and where it is says what has happened to it so far (`Tok.Ok`). `Proto` is the invariant of a set of
tokens, with one lemma for each thing that can happen to a token; the queues are connected to it by `toks`, which
reads the tokens off a state. Apart from that it needs that no queue is freed with a function in it: a function is
only linked by who holds a reference, and `__q_wait_destroy` goes on only when nobody does (`DoneSt.HoldInv`).
-/

namespace Aosl
open Lib

/-- A function that is not finished: not called yet, in `q->head` or in `__invoke_f`; running; run, on its way to
the done queue; running for the second time on its target queue. -/
inductive Tok where
  | item (q : Nat) (fo : DoneFo)
  | ran (q : Nat) (fo : DoneFo) (robj : Robj)
  | back (q : Nat) (fo : DoneFo) (d : Nat)
  | freed (q : Nat) (fo : DoneFo)
deriving DecidableEq

/-- The possible histories of a function. -/
def DoneReq.Complete (r : DoneReq) (h : List DoneEv) : Prop :=
  match r.done with
  | none => ∃ o, h = [.call r.q none o]
  | some d => h = [.call r.q (some d) .freeOnly] ∨ ∃ o, o ≠ .freeOnly ∧
      ((∃ o', h = [.call r.q (some d) o, .call d none o']) ∨
        h = [.call r.q (some d) o, .lost d, .call r.q none .freeOnly])

/-- The history of a function that is going to be called on `q`: for the first time on its target queue, or for
the second time on its done queue. -/
def DoneReq.Before (r : DoneReq) (q : Nat) (fo : DoneFo) (h : List DoneEv) : Prop :=
  (r.q = q ∧ r.done = fo.done ∧ h = []) ∨
  (r.done = some q ∧ fo.done = none ∧ ∃ o, o ≠ .freeOnly ∧ h = [.call r.q (some q) o])

/-- What has happened to the function `k`. -/
def hist (log : List (Nat × DoneEv)) (k : Nat) : List DoneEv := (log.filter (·.1 = k)).map (·.2)

namespace Tok

def fo : Tok → DoneFo
  | item _ fo => fo
  | ran _ fo _ => fo
  | back _ fo _ => fo
  | freed _ fo => fo

def id (t : Tok) : Nat := t.fo.id

/-- Where a function is says what has happened to it. -/
def Ok (r : DoneReq) (h : List DoneEv) : Tok → Prop
  | item q fo => r.Before q fo h
  | ran q fo robj => ∃ h', r.Before q fo h' ∧ h = h' ++ [.call q fo.done robj]
  | back q fo d => r.q = q ∧ r.done = some d ∧ fo.done = some d ∧ ∃ o, o ≠ .freeOnly ∧ h = [.call q (some d) o]
  | freed _ _ => r.Complete h

theorem Ok.run {r : DoneReq} {h : List DoneEv} {q : Nat} {fo : DoneFo} (hok : (item q fo).Ok r h) (robj : Robj) :
    (ran q fo robj).Ok r (h ++ [.call q fo.done robj]) := ⟨h, hok, rfl⟩

theorem Ok.finish {r : DoneReq} {h : List DoneEv} {q : Nat} {fo : DoneFo} {robj : Robj}
    (hok : (ran q fo robj).Ok r h) (hlast : fo.done = none ∨ robj = .freeOnly) : r.Complete h := by
  obtain ⟨h', ⟨rfl, hdone, rfl⟩ | ⟨hdone, hfo, o, ho, rfl⟩, rfl⟩ := hok
  · unfold DoneReq.Complete
    rw [hdone]
    rcases hd : fo.done with _ | d
    · exact ⟨robj, rfl⟩
    · rcases hlast with hlast | rfl
      · rw [hd] at hlast
        cases hlast
      · exact .inl rfl
  · unfold DoneReq.Complete
    rw [hdone, hfo]
    exact .inr ⟨o, ho, .inl ⟨robj, rfl⟩⟩

theorem Ok.goBack {r : DoneReq} {h : List DoneEv} {q d : Nat} {fo : DoneFo} {robj : Robj}
    (hok : (ran q fo robj).Ok r h) (hd : fo.done = some d) (hobj : robj ≠ .freeOnly) : (back q fo d).Ok r h := by
  obtain ⟨h', ⟨rfl, hdone, rfl⟩ | ⟨-, hfo, -⟩, rfl⟩ := hok
  · exact ⟨rfl, hdone.trans hd, hd, robj, hobj, by rw [hd]; rfl⟩
  · rw [hd] at hfo
    cases hfo

theorem Ok.again {r : DoneReq} {h : List DoneEv} {q d : Nat} {fo : DoneFo} (hok : (back q fo d).Ok r h) :
    (item d { fo with done := none }).Ok r h := by
  obtain ⟨rfl, hdone, -, o, ho, rfl⟩ := hok
  exact .inr ⟨hdone, rfl, o, ho, rfl⟩

theorem Ok.goFree {r : DoneReq} {h : List DoneEv} {q d : Nat} {fo : DoneFo} (hok : (back q fo d).Ok r h) :
    (freed q fo).Ok r (h ++ [.lost d, .call q none .freeOnly]) := by
  obtain ⟨rfl, hdone, -, o, ho, rfl⟩ := hok
  unfold Ok DoneReq.Complete
  rw [hdone]
  exact .inr ⟨o, ho, .inr rfl⟩

end Tok

/-- The accepted functions, what happened, and where they are. -/
structure Proto (reqs : List DoneReq) (log : List (Nat × DoneEv)) (T : List Tok) : Prop where
  nodup : (T.map Tok.id).Nodup
  ok : ∀ t ∈ T, ∃ r, reqs[t.id]? = some r ∧ t.Ok r (hist log t.id)
  rest : ∀ k r, reqs[k]? = some r → k ∉ T.map Tok.id → r.Complete (hist log k)
  old : ∀ e ∈ log, e.1 < reqs.length

namespace Proto

variable {reqs : List DoneReq} {log : List (Nat × DoneEv)} {T R : List Tok} {t t' : Tok} {evs : List DoneEv}

theorem perm (h : Proto reqs log T) (hp : T.Perm R) : Proto reqs log R := by
  refine ⟨(hp.map _).nodup_iff.1 h.nodup, fun t ht => h.ok t (hp.mem_iff.2 ht), ?_, h.old⟩
  intro k r hr hk
  refine h.rest k r hr ?_
  rwa [(hp.map _).mem_iff]

theorem hist_append_self (k : Nat) : hist (log ++ evs.map (k, ·)) k = hist log k ++ evs := by
  simp [hist, List.filter_append, List.filter_map, Function.comp_def]

theorem hist_append_ne {k k' : Nat} (hne : k ≠ k') : hist (log ++ evs.map (k', ·)) k = hist log k := by
  simp [hist, List.filter_append, List.filter_map, Function.comp_def, Ne.symm hne]

theorem id_ne (h : Proto reqs log (t :: R)) {u : Tok} (hu : u ∈ R) : u.id ≠ t.id := by
  intro he
  have hn := (List.nodup_cons.1 h.nodup).1
  exact hn (he ▸ List.mem_map_of_mem hu)

theorem lt_length (h : Proto reqs log T) (ht : t ∈ T) : t.id < reqs.length := by
  obtain ⟨r, hr, -⟩ := h.ok t ht
  exact (List.getElem?_eq_some_iff.1 hr).1

/-- Something happens to a function, and it is somewhere else. -/
theorem move (h : Proto reqs log (t :: R)) (hid : t'.id = t.id)
    (hok : ∀ r, t.Ok r (hist log t.id) → t'.Ok r (hist log t.id ++ evs)) :
    Proto reqs (log ++ evs.map (t.id, ·)) (t' :: R) := by
  refine ⟨?_, ?_, ?_, ?_⟩
  · rw [List.map_cons, hid]
    exact h.nodup
  · intro u hu
    rcases List.mem_cons.1 hu with rfl | hu
    · obtain ⟨r, hr, ht⟩ := h.ok t List.mem_cons_self
      rw [hid, hist_append_self]
      exact ⟨r, hr, hok r ht⟩
    · rw [hist_append_ne (h.id_ne hu)]
      exact h.ok u (List.mem_cons_of_mem t hu)
  · intro k r hr hk
    rw [List.map_cons, hid] at hk
    have hne : k ≠ t.id := by
      rintro rfl
      exact hk List.mem_cons_self
    rw [hist_append_ne hne]
    exact h.rest k r hr hk
  · intro e he
    rcases List.mem_append.1 he with he | he
    · exact h.old e he
    · obtain ⟨ev, -, rfl⟩ := List.mem_map.1 he
      exact h.lt_length List.mem_cons_self

theorem finish (h : Proto reqs log (t :: R)) (hok : ∀ r, t.Ok r (hist log t.id) → r.Complete (hist log t.id)) :
    Proto reqs log R := by
  refine ⟨(List.nodup_cons.1 h.nodup).2, fun u hu => h.ok u (List.mem_cons_of_mem t hu), ?_, h.old⟩
  intro k r hr hk
  by_cases he : k = t.id
  · subst he
    obtain ⟨r', hr', ht⟩ := h.ok t List.mem_cons_self
    cases hr.symm.trans hr'
    exact hok r ht
  · refine h.rest k r hr ?_
    rw [List.map_cons, List.mem_cons, not_or]
    exact ⟨he, hk⟩

theorem accept (h : Proto reqs log T) (q : Nat) (done ref : Option Nat) :
    Proto (reqs ++ [⟨q, done, ref⟩]) log (.item q ⟨reqs.length, done, ref⟩ :: T) := by
  have hnew : ∀ t ∈ T, t.id ≠ reqs.length := fun t ht => Nat.ne_of_lt (h.lt_length ht)
  refine ⟨?_, ?_, ?_, ?_⟩
  · refine List.nodup_cons.2 ⟨?_, h.nodup⟩
    intro hm
    obtain ⟨t, ht, he⟩ := List.mem_map.1 hm
    exact hnew t ht he
  · intro t ht
    rcases List.mem_cons.1 ht with rfl | ht
    · refine ⟨_, List.getElem?_concat_length, .inl ⟨rfl, rfl, ?_⟩⟩
      simp only [hist, List.map_eq_nil_iff, List.filter_eq_nil_iff, decide_eq_true_eq]
      exact fun e he => Nat.ne_of_lt (h.old e he)
    · obtain ⟨r, hr, hok⟩ := h.ok t ht
      exact ⟨r, by rw [List.getElem?_append_left (h.lt_length ht)]; exact hr, hok⟩
  · intro k r hr hk
    rw [List.map_cons, List.mem_cons, not_or] at hk
    refine h.rest k r ?_ hk.2
    have hlt := (List.getElem?_eq_some_iff.1 hr).1
    rw [List.length_append, List.length_singleton] at hlt
    have hne : k ≠ reqs.length := hk.1
    rwa [List.getElem?_append_left (by omega)] at hr
  · intro e he
    rw [List.length_append]
    exact Nat.lt_of_lt_of_le (h.old e he) (Nat.le_add_right _ _)

end Proto

namespace Invoke

/-- The function an `__invoke_f` is about; after it has been linked to the done queue it is there. -/
def tok (i : Nat) : Invoke → Option Tok
  | get fo => some (.item i fo)
  | check fo _ => some (.item i fo)
  | run fo robj => some (.ran i fo robj)
  | done fo d => some (.back i fo d)
  | add fo d => some (.back i fo d)
  | leave _ => none
  | free fo => some (.freed i fo)

end Invoke

/-- The unfinished functions in queue `i`. -/
def DoneQ.toks (i : Nat) (q : DoneQ) : List Tok :=
  q.stack.filterMap (Invoke.tok i) ++ (q.taken ++ q.fos).map (.item i)

namespace DoneSt

variable {s s' : DoneSt} {i d : Nat} {q : DoneQ} {xs ys rest : List Invoke}

def toks (s : DoneSt) : List Tok := (s.qs.mapIdx DoneQ.toks).flatten

theorem toks_modQ (hq : s.qs[i]? = some q) :
    ∃ R, s.toks.Perm (q.toks i ++ R) ∧ ∀ f, (s.modQ i f).toks.Perm ((f q).toks i ++ R) := by
  have hi : (s.qs.mapIdx DoneQ.toks)[i]? = some (q.toks i) := by rw [List.getElem?_mapIdx, hq]; rfl
  obtain ⟨R, hp, hset⟩ := flatten_set_perm hi
  refine ⟨R, hp, fun f => ?_⟩
  rw [toks, modQ, modify_of_getElem? hq, List.mapIdx_set]
  exact hset _

theorem toks_modQ_eq (f : DoneQ → DoneQ) (hf : ∀ q i, (f q).toks i = q.toks i) : (s.modQ i f).toks = s.toks := by
  rw [toks, toks, modQ]
  congr 1
  apply List.ext_getElem?
  intro j
  rw [List.getElem?_mapIdx, List.getElem?_mapIdx, List.getElem?_modify]
  rcases s.qs[j]? with _ | q
  · rfl
  · by_cases h : i = j
    · simp [h, hf]
    · simp [h]

theorem toks_goto (xs : List Invoke) (hq : s.qs[i]? = some q) (hst : q.stack = xs ++ rest) :
    ∃ R, s.toks.Perm (xs.filterMap (Invoke.tok i) ++ R) ∧
      ∀ ys, (s.goto i (ys ++ rest)).toks.Perm (ys.filterMap (Invoke.tok i) ++ R) := by
  obtain ⟨R, hp, hmod⟩ := toks_modQ hq
  refine ⟨rest.filterMap (Invoke.tok i) ++ ((q.taken ++ q.fos).map (.item i) ++ R), ?_, fun ys => ?_⟩
  · simpa only [DoneQ.toks, hst, List.filterMap_append, List.append_assoc] using hp
  · have hgoto := hmod ({ · with stack := ys ++ rest })
    simp only [DoneQ.toks, List.filterMap_append, List.append_assoc] at hgoto
    exact hgoto

theorem toks_link (hq : s.qs[d]? = some q) (fo : DoneFo) : (s.link d fo).toks.Perm (.item d fo :: s.toks) := by
  obtain ⟨R, hp, hmod⟩ := toks_modQ hq
  have heq : ({ q with fos := q.fos ++ [fo] } : DoneQ).toks d = q.toks d ++ [.item d fo] := by simp [DoneQ.toks]
  have hlink := hmod fun q => { q with fos := q.fos ++ [fo] }
  rw [heq, List.append_assoc, List.singleton_append] at hlink
  exact hlink.trans (List.perm_middle.trans (hp.symm.cons _))

/-- The protocol invariant of a state. -/
def ProtoInv (s : DoneSt) : Prop := Proto s.reqs s.log s.toks

theorem ProtoInv.move {fr : Invoke} {t t' : Tok} (h : s.ProtoInv) (fr' : Invoke) (evs : List DoneEv) (hq : s.qs[i]? = some q)
    (hst : q.stack = fr :: rest) (hfr : fr.tok i = some t) (hfr' : fr'.tok i = some t') (hid : t'.id = t.id)
    (hok : ∀ r, t.Ok r (hist s.log t.id) → t'.Ok r (hist s.log t.id ++ evs)) (hreqs : s'.reqs = s.reqs)
    (hlog : s'.log = s.log ++ evs.map (t.id, ·)) (htoks : s'.toks = (s.goto i (fr' :: rest)).toks) : s'.ProtoInv := by
  obtain ⟨R, hp, hgoto⟩ := toks_goto [fr] hq hst
  have hp' := hgoto [fr']
  simp only [List.filterMap_cons, List.filterMap_nil, hfr, List.singleton_append] at hp
  simp only [List.filterMap_cons, List.filterMap_nil, hfr', List.singleton_append] at hp'
  unfold ProtoInv
  rw [hreqs, hlog, htoks]
  exact ((Proto.perm h hp).move hid hok).perm hp'.symm

theorem ProtoInv.finish {fr : Invoke} {t : Tok} (h : s.ProtoInv) (hq : s.qs[i]? = some q)
    (hst : q.stack = fr :: rest) (hfr : fr.tok i = some t)
    (hok : ∀ r, t.Ok r (hist s.log t.id) → r.Complete (hist s.log t.id)) : (s.goto i rest).ProtoInv := by
  obtain ⟨R, hp, hgoto⟩ := toks_goto [fr] hq hst
  have hp' := hgoto []
  simp only [List.filterMap_cons, List.filterMap_nil, hfr, List.singleton_append] at hp
  exact ((Proto.perm h hp).finish hok).perm hp'.symm

theorem ProtoInv.invoke {fr : Invoke} {fo : DoneFo} {robj : Robj} (h : s.ProtoInv) (hq : s.qs[i]? = some q)
    (hst : q.stack = fr :: rest) (hfr : fr.tok i = some (.item i fo)) : (s.invoke i fo robj rest).ProtoInv := by
  refine h.move (.run fo robj) [.call i fo.done robj] hq hst hfr rfl rfl ?_ rfl rfl rfl
  exact fun r hok => hok.run robj

theorem ProtoInv.congr (h : s.ProtoInv) (hreqs : s'.reqs = s.reqs) (hlog : s'.log = s.log)
    (htoks : s'.toks.Perm s.toks) : s'.ProtoInv := by
  unfold ProtoInv
  rw [hreqs, hlog]
  exact Proto.perm h htoks.symm

theorem toks_hold : (s.hold d).toks = s.toks := toks_modQ_eq _ fun _ _ => rfl

theorem toks_drop : (s.drop d).toks = s.toks := toks_modQ_eq _ fun _ _ => rfl

theorem getElem?_modQ (hq : s.qs[i]? = some q) (f : DoneQ → DoneQ) :
    (s.modQ d f).qs[i]? = some (if d = i then f q else q) := by
  rw [modQ, List.getElem?_modify, hq]
  rfl

theorem ProtoInv.goInvoke {fr : Invoke} (h : s.ProtoInv) (hq : s.qs[i]? = some q) (hst : q.stack = fr :: rest)
    (hd : ∀ fo d, fr = .add fo d → d < s.qs.length) : (s.goInvoke i rest fr).ProtoInv := by
  rcases fr with fo | ⟨fo, r⟩ | ⟨fo, robj⟩ | ⟨fo, d⟩ | ⟨fo, d⟩ | d | fo
  · simp only [DoneSt.goInvoke]
    split
    · exact h.invoke hq hst rfl
    · rename_i r _
      split_ifs
      · exact h.invoke hq hst rfl
      · refine h.move (.check fo r) [] hq hst rfl rfl rfl ?_ rfl (List.append_nil _).symm rfl
        intro r' hok
        rwa [List.append_nil]
  · exact h.invoke hq hst rfl
  · simp only [DoneSt.goInvoke]
    split
    · rename_i hdone
      exact h.finish hq hst rfl fun r hok => hok.finish (.inl hdone)
    · rename_i d hdone
      split_ifs with hfree
      · exact h.finish hq hst rfl fun r hok => hok.finish (.inr hfree)
      · refine h.move (.done fo d) [] hq hst rfl rfl rfl ?_ rfl (List.append_nil _).symm rfl
        intro r hok
        rw [List.append_nil]
        exact hok.goBack hdone hfree
  · simp only [DoneSt.goInvoke]
    split_ifs
    · have h' : (s.hold d).ProtoInv := h.congr rfl rfl (.of_eq toks_hold)
      have hq' := getElem?_modQ (d := d) hq fun q => { q with usage := q.usage + 1 }
      have hst' : (if d = i then { q with usage := q.usage + 1 } else q).stack = .done fo d :: rest := by
        split_ifs <;> exact hst
      refine h'.move (.add fo d) [] hq' hst' rfl rfl rfl ?_ rfl (List.append_nil _).symm rfl
      intro r hok
      rwa [List.append_nil]
    · refine h.move (.free fo) [.lost d, .call i none .freeOnly] hq hst rfl rfl rfl ?_ rfl ?_ rfl
      · exact fun r hok => hok.goFree
      · exact List.append_assoc ..
  · -- the function is now in the list of the done queue
    obtain ⟨R, hp, hgoto⟩ := toks_goto [.add fo d] hq hst
    have hp' := hgoto [.leave d]
    have hlt : d < (s.goto i (.leave d :: rest)).qs.length := by
      rw [goto, modQ, List.length_modify]
      exact hd fo d rfl
    have hlink := toks_link (List.getElem?_eq_getElem hlt) { fo with done := none }
    have hmove : Proto s.reqs (s.log ++ [].map (fo.id, ·)) (.item d { fo with done := none } :: R) := by
      refine Proto.move (Proto.perm h hp) rfl ?_
      intro r hok
      rw [List.append_nil]
      exact hok.again
    rw [List.map_nil, List.append_nil] at hmove
    exact hmove.perm ((hp'.symm.cons _).trans hlink.symm)
  · obtain ⟨R, hp, hgoto⟩ := toks_goto [.leave d] hq hst
    refine h.congr rfl rfl ?_
    unfold DoneSt.goInvoke
    rw [toks_drop]
    exact (hgoto []).trans hp.symm
  · exact h.finish hq hst rfl fun r hok => hok

end DoneSt

/-- Taking the list of the queue and taking one object from it moves no function. -/
theorem DoneQ.toks_goPhase {q q' : DoneQ} {i : Nat} (hst : q.stack = []) (hgo : q.goPhase = some q')
    (hloop : q.taken ≠ [] → ∃ site count, q.phase = .loop site count) : (q'.toks i).Perm (q.toks i) := by
  unfold goPhase at hgo
  split at hgo
  · cases hgo
    exact .refl _
  · rename_i site hph
    have htaken : q.taken = [] := by
      by_contra hne
      obtain ⟨_, _, h⟩ := hloop hne
      rw [hph] at h
      cases h
    split_ifs at hgo
    · cases hgo
      simp [toks, htaken]
    · cases hgo
      exact .refl _
  · split at hgo
    · cases hgo
      exact .refl _
    · rename_i fo taken htaken
      cases hgo
      simp [toks, hst, htaken, Invoke.tok]
  · cases hgo
    exact .refl _
  · cases hgo
    exact .refl _
  · cases hgo
    exact .refl _
  · cases hgo

namespace DonePhase

/-- After the queue has left the table. -/
def closed : DonePhase → Bool
  | check site => site ≠ .poll
  | loop site _ => site ≠ .poll
  | waitUsage => true
  | fini => true
  | freed => true
  | _ => false

/-- After `__q_wait_destroy` has found that nobody holds a reference. -/
def final : DonePhase → Bool
  | check site => site = .final
  | loop site _ => site = .final
  | fini => true
  | freed => true
  | _ => false

theorem closed_of_final {ph : DonePhase} (h : ph.final = true) : ph.closed = true := by
  rcases ph with _ | site | ⟨site, _⟩ | _ | _ | _ | _
  all_goals first | rfl | cases h | skip
  all_goals
    rw [of_decide_eq_true h]
    rfl

end DonePhase

/-- What the thread of a queue knows at each place. -/
structure DoneQ.Ok (q : DoneQ) : Prop where
  closed : q.phase.closed = true → q.installed = false
  alone : q.phase.final = true → q.usage = 1
  empty : q.phase = .fini ∨ q.phase = .freed → q.fos = []
  taken : q.taken ≠ [] → ∃ site count, q.phase = .loop site count
  first : ∀ site, q.phase = .loop site 0 → q.taken ≠ []
  freed : q.phase = .freed → q.stack = []

theorem DoneQ.Ok.taken_nil {q : DoneQ} {ph : DonePhase} (h : q.Ok) (hph : q.phase = ph)
    (hne : ∀ site count, ph ≠ .loop site count) : q.taken = [] := by
  by_contra ht
  obtain ⟨site, count, hloop⟩ := h.taken ht
  exact hne site count (hph ▸ hloop)

theorem DoneQ.Ok.goPhase {q q' : DoneQ} (h : q.Ok) (hpos : 0 < q.usage) (hst : q.stack = [])
    (hgo : q.goPhase = some q') : q'.Ok := by
  unfold DoneQ.goPhase at hgo
  split at hgo
  · rename_i hph
    have ht := h.taken_nil hph (by simp)
    cases hgo
    split_ifs
    · exact ⟨by simp [DonePhase.closed], by simp [DonePhase.final], by simp, by simp [ht], by simp, by simp⟩
    · exact ⟨by simp [DonePhase.closed], by simp [DonePhase.final], by simp, by simp [ht], by simp, by simp⟩
  · rename_i site hph
    have ht := h.taken_nil hph (by simp)
    have hclosed := h.closed
    have halone := h.alone
    rw [hph] at hclosed halone
    split_ifs at hgo with hfos
    · cases hgo
      exact ⟨hclosed, halone, by simp, fun _ => ⟨site, 0, rfl⟩, fun _ _ => hfos, by simp⟩
    · cases hgo
      rw [not_not] at hfos
      rcases site
      · exact ⟨by simp [DonePhase.ret, DonePhase.closed], by simp [DonePhase.ret, DonePhase.final],
          by simp [DonePhase.ret], by simp [ht], by simp [DonePhase.ret], by simp [DonePhase.ret]⟩
      · exact ⟨fun _ => hclosed rfl, by simp [DonePhase.ret, DonePhase.final],
          by simp [DonePhase.ret], by simp [ht], by simp [DonePhase.ret], by simp [DonePhase.ret]⟩
      · exact ⟨fun _ => hclosed rfl, fun _ => halone rfl, fun _ => hfos, by simp [ht], by simp [DonePhase.ret],
          by simp [DonePhase.ret]⟩
  · rename_i site count hph
    have hclosed := h.closed
    have halone := h.alone
    rw [hph] at hclosed halone
    split at hgo
    · rename_i ht
      cases hgo
      rcases site
      · exact ⟨by simp [DonePhase.ret, DonePhase.closed], by simp [DonePhase.ret, DonePhase.final],
          by simp [DonePhase.ret], by simp [ht], by simp [DonePhase.ret], by simp [DonePhase.ret]⟩
      · exact ⟨fun _ => hclosed rfl, by simp [DonePhase.ret, DonePhase.final],
          by simp [DonePhase.ret], by simp [ht], by simp [DonePhase.ret], by simp [DonePhase.ret]⟩
      · rcases count with _ | count
        · exact absurd ht (h.first _ hph)
        · exact ⟨fun _ => hclosed rfl, fun _ => halone rfl, by simp [DonePhase.ret], by simp [ht],
            by simp [DonePhase.ret], by simp [DonePhase.ret]⟩
    · cases hgo
      exact ⟨hclosed, halone, by simp, fun _ => ⟨site, count + 1, rfl⟩, by simp, by simp⟩
  · rename_i hph
    have ht := h.taken_nil hph (by simp)
    cases hgo
    exact ⟨fun _ => rfl, by simp [DonePhase.final], by simp, by simp [ht], by simp, by simp⟩
  · rename_i hph
    have ht := h.taken_nil hph (by simp)
    have hclosed : q.installed = false := h.closed (by rw [hph]; rfl)
    cases hgo
    refine ⟨fun _ => hclosed, ?_, by simp, by simp [ht], by simp, by simp⟩
    intro hfinal
    split_ifs at hfinal
    · cases hfinal
    · change q.usage = 1
      omega
  · rename_i hph
    have ht := h.taken_nil hph (by simp)
    have hclosed : q.installed = false := h.closed (by rw [hph]; rfl)
    have halone : q.usage = 1 := h.alone (by rw [hph]; rfl)
    cases hgo
    exact ⟨fun _ => hclosed, fun _ => halone, fun _ => h.empty (.inl hph), by simp [ht], by simp, fun _ => hst⟩
  · cases hgo

/-- The queue an `__invoke_f` holds. -/
def Invoke.held : Invoke → Option Nat
  | add _ d => some d
  | leave d => some d
  | _ => none

/-- `H` lists the references to the queues `qs`, one for each that is held. -/
structure QRefs (qs : List DoneQ) (H : List Nat) : Prop where
  usage : ∀ (d : Nat) (q : DoneQ), qs[d]? = some q → q.usage = 1 + H.count d
  ok : ∀ (d : Nat) (q : DoneQ), qs[d]? = some q → q.Ok
  lt : ∀ d ∈ H, d < qs.length

namespace QRefs

variable {qs : List DoneQ} {H H' : List Nat} {d i : Nat} {q : DoneQ}

theorem perm (h : QRefs qs H) (hp : H.Perm H') : QRefs qs H' :=
  ⟨fun d q hq => by rw [h.usage d q hq, hp.count_eq], h.ok, fun d hd => h.lt d (hp.mem_iff.2 hd)⟩

theorem modify (h : QRefs qs H) (f : DoneQ → DoneQ) (hne : ∀ j, j ≠ i → H'.count j = H.count j)
    (hf : ∀ q, qs[i]? = some q → (f q).usage = 1 + H'.count i ∧ (f q).Ok) (hlt : ∀ d ∈ H', d < qs.length) :
    QRefs (qs.modify i f) H' := by
  have hcase : ∀ d q, (qs.modify i f)[d]? = some q → q.usage = 1 + H'.count d ∧ q.Ok := by
    intro d q hq
    rw [List.getElem?_modify] at hq
    obtain ⟨q0, hq0, rfl⟩ := Option.map_eq_some_iff.1 hq
    split_ifs with hi
    · subst hi
      exact hf q0 hq0
    · rw [hne d fun he => hi he.symm]
      exact ⟨h.usage d q0 hq0, h.ok d q0 hq0⟩
  exact ⟨fun d q hq => (hcase d q hq).1, fun d q hq => (hcase d q hq).2, by rwa [List.length_modify]⟩

theorem same (h : QRefs qs H) (f : DoneQ → DoneQ) (hf : ∀ q, qs[i]? = some q → (f q).usage = q.usage ∧ (f q).Ok) :
    QRefs (qs.modify i f) H := by
  refine h.modify f (fun _ _ => rfl) ?_ h.lt
  intro q hq
  rw [(hf q hq).1]
  exact ⟨h.usage i q hq, (hf q hq).2⟩

theorem hold (h : QRefs qs H) (hd : (qs[d]?).any (·.installed) = true) :
    QRefs (qs.modify d fun q => { q with usage := q.usage + 1 }) (d :: H) := by
  obtain ⟨q, hq, hin⟩ := (Option.any_eq_true ..).1 hd
  refine h.modify _ ?_ ?_ ?_
  · exact fun j hj => List.count_cons_of_ne hj.symm
  · intro q' hq'
    cases hq.symm.trans hq'
    have hok := h.ok d q hq
    have husage := h.usage d q hq
    rw [List.count_cons_self]
    refine ⟨?_, hok.closed, ?_, hok.empty, hok.taken, hok.first, hok.freed⟩
    · change q.usage + 1 = _
      omega
    · -- a queue that is in the table has not come to the end of its thread
      intro hfinal
      have := hok.closed (DonePhase.closed_of_final hfinal)
      rw [hin] at this
      cases this
  · intro j hj
    rcases List.mem_cons.1 hj with rfl | hj
    · exact (List.getElem?_eq_some_iff.1 hq).1
    · exact h.lt j hj

theorem not_final (h : QRefs qs H) (hd : d ∈ H) (hq : qs[d]? = some q) : ¬ q.phase.final = true := by
  intro hfinal
  have hpos : 0 < H.count d := List.count_pos_iff.2 hd
  have := h.usage d q hq
  have := (h.ok d q hq).alone hfinal
  omega

theorem drop (h : QRefs qs (d :: H)) : QRefs (qs.modify d fun q => { q with usage := q.usage - 1 }) H := by
  refine h.modify _ ?_ ?_ fun j hj => h.lt j (List.mem_cons_of_mem d hj)
  · exact fun j hj => (List.count_cons_of_ne hj.symm).symm
  · intro q hq
    have hok := h.ok d q hq
    have husage := h.usage d q hq
    rw [List.count_cons_self] at husage
    refine ⟨?_, hok.closed, fun hfinal => ?_, hok.empty, hok.taken, hok.first, hok.freed⟩
    · change q.usage - 1 = _
      omega
    · exact absurd hfinal (h.not_final (q := q) List.mem_cons_self hq)

theorem link (h : QRefs qs H) (hd : d ∈ H) (fo : DoneFo) :
    QRefs (qs.modify d fun q => { q with fos := q.fos ++ [fo] }) H := by
  refine h.same _ ?_
  intro q hq
  have hok := h.ok d q hq
  refine ⟨rfl, hok.closed, hok.alone, fun hend => ?_, hok.taken, hok.first, hok.freed⟩
  have hfinal : q.phase.final = true := by
    rcases hend with hend | hend
    · change q.phase = _ at hend
      rw [hend]
      rfl
    · change q.phase = _ at hend
      rw [hend]
      rfl
  exact absurd hfinal (h.not_final hd hq)

/-- The thread of a queue that is in `__invoke_f`, or in code of the user, goes on there. -/
theorem goto (h : QRefs qs H) (hq : qs[i]? = some q) (hph : q.phase ≠ .freed) (stack : List Invoke) :
    QRefs (qs.modify i ({ · with stack := stack })) H := by
  refine h.same _ ?_
  intro q' hq'
  cases hq.symm.trans hq'
  have hok := h.ok i q hq
  exact ⟨rfl, hok.closed, hok.alone, hok.empty, hok.taken, hok.first, fun hf => absurd hf hph⟩

theorem create (h : QRefs qs H) : QRefs (qs ++ [DoneQ.create]) H := by
  have hcase : ∀ d q, (qs ++ [DoneQ.create])[d]? = some q → q.usage = 1 + H.count d ∧ q.Ok := by
    intro d q hq
    rcases getElem?_concat_cases hq with ⟨-, hq⟩ | ⟨rfl, rfl⟩
    · exact ⟨h.usage d q hq, h.ok d q hq⟩
    · have hcount : H.count qs.length = 0 := List.count_eq_zero.2 fun hd => Nat.lt_irrefl _ (h.lt _ hd)
      rw [hcount]
      exact ⟨rfl, by simp [DoneQ.create, DonePhase.closed], by simp [DoneQ.create, DonePhase.final],
        by simp [DoneQ.create], by simp [DoneQ.create], by simp [DoneQ.create], by simp [DoneQ.create]⟩
  refine ⟨fun d q hq => (hcase d q hq).1, fun d q hq => (hcase d q hq).2, fun d hd => ?_⟩
  rw [List.length_append]
  exact Nat.lt_of_lt_of_le (h.lt d hd) (Nat.le_add_right _ _)

end QRefs

theorem DoneQ.usage_goPhase {q q' : DoneQ} (hgo : q.goPhase = some q') : q'.usage = q.usage := by
  unfold DoneQ.goPhase at hgo
  split at hgo
  all_goals
    try split at hgo
    all_goals
      cases hgo
      try rfl

theorem DoneQ.held_goPhase {q q' : DoneQ} (hst : q.stack = []) (hgo : q.goPhase = some q') :
    q'.stack.filterMap Invoke.held = [] := by
  unfold DoneQ.goPhase at hgo
  split at hgo
  all_goals
    try split at hgo
    all_goals
      cases hgo
      try simp [hst, Invoke.held]

namespace DoneSt

variable {s s' : DoneSt} {i d : Nat} {q : DoneQ} {xs ys rest : List Invoke} {fr : Invoke}

/-- The references that are out. -/
def held (s : DoneSt) : List Nat := s.holders ++ (s.qs.map (·.stack.filterMap Invoke.held)).flatten

def HoldInv (s : DoneSt) : Prop := QRefs s.qs s.held

theorem held_goto (xs : List Invoke) (hq : s.qs[i]? = some q) (hst : q.stack = xs ++ rest) :
    ∃ R, s.held.Perm (xs.filterMap Invoke.held ++ R) ∧
      ∀ ys, (s.goto i (ys ++ rest)).held.Perm (ys.filterMap Invoke.held ++ R) := by
  have hi : (s.qs.map (·.stack.filterMap Invoke.held))[i]? =
      some (xs.filterMap Invoke.held ++ rest.filterMap Invoke.held) := by
    rw [List.getElem?_map, hq, ← List.filterMap_append, ← hst]
    rfl
  obtain ⟨R, hp, hset⟩ := flatten_set_perm hi
  refine ⟨rest.filterMap Invoke.held ++ (s.holders ++ R), ?_, fun ys => ?_⟩
  · refine (hp.append_left _).trans ?_
    refine (List.perm_append_comm_assoc _ _ _).trans ?_
    rw [List.append_assoc]
  · have hys := (hset ((ys ++ rest).filterMap Invoke.held)).append_left s.holders
    rw [held, goto, modQ, modify_of_getElem? hq, List.map_set]
    refine hys.trans ?_
    rw [List.filterMap_append]
    refine (List.perm_append_comm_assoc _ _ _).trans ?_
    rw [List.append_assoc]

theorem held_modQ (f : DoneQ → DoneQ)
    (hf : ∀ q, s.qs[i]? = some q → (f q).stack.filterMap Invoke.held = q.stack.filterMap Invoke.held) :
    (s.modQ i f).held = s.held := by
  rw [held, held, modQ]
  congr 2
  apply List.ext_getElem?
  intro j
  rw [List.getElem?_map, List.getElem?_map, List.getElem?_modify]
  rcases hq : s.qs[j]? with _ | q
  · rfl
  · by_cases h : i = j
    · subst h
      simp [hf q hq]
    · simp [h]

theorem held_hold : (s.hold d).held = s.held := held_modQ _ fun _ _ => rfl

theorem held_drop : (s.drop d).held = s.held := held_modQ _ fun _ _ => rfl

theorem held_link {fo : DoneFo} : (s.link d fo).held = s.held := held_modQ _ fun _ _ => rfl

theorem HoldInv.not_freed (h : s.HoldInv) (hq : s.qs[i]? = some q) (hst : q.stack = fr :: rest) :
    q.phase ≠ .freed := by
  intro hph
  rw [(h.ok i q hq).freed hph] at hst
  cases hst

theorem HoldInv.goto (h : s.HoldInv) (xs ys : List Invoke) (hq : s.qs[i]? = some q) (hst : q.stack = xs ++ rest)
    (hph : q.phase ≠ .freed)
    (hys : ys.filterMap Invoke.held = xs.filterMap Invoke.held) : (s.goto i (ys ++ rest)).HoldInv := by
  obtain ⟨R, hp, hgoto⟩ := held_goto xs hq hst
  have hp' := hgoto ys
  rw [hys] at hp'
  exact (QRefs.goto h hq hph _).perm (hp.trans hp'.symm)

theorem HoldInv.goInvoke (h : s.HoldInv) (hq : s.qs[i]? = some q) (hst : q.stack = fr :: rest) :
    (s.goInvoke i rest fr).HoldInv := by
  have hph := h.not_freed hq hst
  have hquiet : ∀ ys : List Invoke, ys.filterMap Invoke.held = [fr].filterMap Invoke.held →
      (s.goto i (ys ++ rest)).HoldInv := fun ys hys => h.goto [fr] ys hq hst hph hys
  rcases fr with fo | ⟨fo, r⟩ | ⟨fo, robj⟩ | ⟨fo, d⟩ | ⟨fo, d⟩ | d | fo
  · simp only [DoneSt.goInvoke]
    split
    · exact hquiet [.run fo .null] rfl
    · rename_i r _
      split_ifs
      · exact hquiet [.run fo .freeOnly] rfl
      · exact hquiet [.check fo r] rfl
  · exact hquiet [.run fo _] rfl
  · simp only [DoneSt.goInvoke]
    split
    · exact hquiet [] rfl
    · rename_i d _
      split_ifs
      · exact hquiet [] rfl
      · exact hquiet [.done fo d] rfl
  · simp only [DoneSt.goInvoke]
    split_ifs with hin
    · have hq' := getElem?_modQ (d := d) hq fun q => { q with usage := q.usage + 1 }
      have hst' : (if d = i then { q with usage := q.usage + 1 } else q).stack = [.done fo d] ++ rest := by
        split_ifs <;> exact hst
      obtain ⟨R, hp, hgoto⟩ := held_goto (s := s.hold d) [.done fo d] hq' hst'
      rw [held_hold] at hp
      refine QRefs.perm ?_ ((hp.cons d).trans (hgoto [.add fo d]).symm)
      exact (QRefs.hold h hin).goto hq' (by split_ifs <;> exact hph) _
    · exact hquiet [.free fo] rfl
  · have hgoto := hquiet [.leave d] rfl
    have hmem : d ∈ (s.goto i (.leave d :: rest)).held := by
      obtain ⟨R, -, hheld⟩ := held_goto [.add fo d] hq hst
      exact (hheld [.leave d]).mem_iff.2 List.mem_cons_self
    have hlink := QRefs.link hgoto hmem { fo with done := none }
    exact hlink.perm (.of_eq held_link.symm)
  · obtain ⟨R, hp, hgoto⟩ := held_goto [.leave d] hq hst
    have hdrop : QRefs (s.goto i rest).qs (d :: (s.goto i rest).held) :=
      (QRefs.goto h hq hph _).perm (hp.trans ((hgoto []).symm.cons d))
    exact hdrop.drop.perm (.of_eq held_drop.symm)
  · exact hquiet [] rfl

theorem HoldInv.step {a : DoneAct} (h : s.HoldInv) (hs : s.step a = some s') : s'.HoldInv := by
  rcases a with _ | d | ⟨j, done, ref⟩ | j | i | r | r | ⟨i, ref⟩ | i
  · cases hs
    refine (QRefs.create h).perm (.of_eq ?_)
    simp [held, DoneQ.create]
  · simp only [DoneSt.step] at hs
    split_ifs at hs with hin
    cases hs
    refine (QRefs.hold h hin).perm ?_
    change (d :: s.held).Perm (s.holders ++ [d] ++ ((s.hold d).qs.map (·.stack.filterMap Invoke.held)).flatten)
    rw [← held_hold (d := d), held, List.append_assoc, List.singleton_append]
    exact List.perm_middle.symm
  · simp only [DoneSt.step] at hs
    split at hs
    · rename_i d hd
      cases hs
      exact (QRefs.link h (List.mem_append_left _ (List.mem_of_getElem? hd)) _).perm (.of_eq held_link.symm)
    · cases hs
  · simp only [DoneSt.step] at hs
    split at hs
    · rename_i d hd
      cases hs
      obtain ⟨A, B, hA, -, hB⟩ := exists_split hd
      have hp : s.held.Perm (d :: { s.drop d with holders := s.holders.eraseIdx j }.held) := by
        rw [← held_drop (d := d)]
        change (s.holders ++ _).Perm (d :: (s.holders.eraseIdx j ++ _))
        rw [hB, hA, List.append_assoc, List.append_assoc, List.cons_append]
        exact List.perm_middle
      exact (QRefs.perm h hp).drop
    · cases hs
  · cases hs
    have hheld : (s.modQ i ({ · with terminated := true })).held = s.held := held_modQ _ fun _ _ => rfl
    refine QRefs.perm (QRefs.same h _ ?_) (.of_eq hheld.symm)
    intro q hq
    have hok := h.ok i q hq
    exact ⟨rfl, hok.closed, hok.alone, hok.empty, hok.taken, hok.first, hok.freed⟩
  · cases hs
    exact h
  · cases hs
    exact h
  · simp only [DoneSt.step] at hs
    split at hs
    · rename_i q hq
      split_ifs at hs with hu
      cases hs
      refine h.goto [] [.get _] hq rfl ?_ rfl
      intro hph
      rw [DoneQ.atUser, (h.ok i q hq).freed hph] at hu
      simp [hph] at hu
    · cases hs
  · simp only [DoneSt.step] at hs
    split at hs
    · rename_i q hq
      split at hs
      · rename_i hst
        obtain ⟨q', hgo, rfl⟩ := Option.map_eq_some_iff.1 hs
        have hpos : 0 < q.usage := by
          rw [h.usage i q hq]
          omega
        have hheld : (s.modQ i fun _ => q').held = s.held := by
          apply held_modQ
          intro q0 hq0
          cases hq.symm.trans hq0
          rw [hst]
          exact DoneQ.held_goPhase hst hgo
        refine QRefs.perm (QRefs.same h _ ?_) (.of_eq hheld.symm)
        intro q0 hq0
        cases hq.symm.trans hq0
        exact ⟨DoneQ.usage_goPhase hgo, (h.ok i q hq).goPhase hpos hst hgo⟩
      · rename_i fr rest hst
        cases hs
        exact h.goInvoke hq hst
    · cases hs

theorem ProtoInv.step {a : DoneAct} (h : s.ProtoInv) (hh : s.HoldInv) (hs : s.step a = some s') : s'.ProtoInv := by
  rcases a with _ | d | ⟨j, done, ref⟩ | j | i | r | r | ⟨i, ref⟩ | i
  · cases hs
    refine h.congr rfl rfl (.of_eq ?_)
    simp [toks, DoneQ.toks, DoneQ.create]
  · simp only [DoneSt.step] at hs
    split_ifs at hs
    cases hs
    exact h.congr rfl rfl (.of_eq toks_hold)
  · simp only [DoneSt.step] at hs
    split at hs
    · rename_i d hd
      cases hs
      have hlt := hh.lt d (List.mem_append_left _ (List.mem_of_getElem? hd))
      have hlink := toks_link (List.getElem?_eq_getElem hlt) ⟨s.reqs.length, done, ref⟩
      exact (Proto.accept h d done ref).perm hlink.symm
    · cases hs
  · simp only [DoneSt.step] at hs
    split at hs
    · cases hs
      exact h.congr rfl rfl (.of_eq toks_drop)
    · cases hs
  · cases hs
    exact h.congr rfl rfl (.of_eq (toks_modQ_eq ({ · with terminated := true }) fun _ _ => rfl))
  · cases hs
    exact h
  · cases hs
    exact h
  · simp only [DoneSt.step] at hs
    split at hs
    · rename_i q hq
      split_ifs at hs
      cases hs
      obtain ⟨R, hp, hgoto⟩ := toks_goto [] hq rfl
      exact (Proto.accept h i none ref).perm ((hp.cons _).trans (hgoto [.get ⟨s.reqs.length, none, ref⟩]).symm)
    · cases hs
  · simp only [DoneSt.step] at hs
    split at hs
    · rename_i q hq
      split at hs
      · rename_i hst
        obtain ⟨q', hgo, rfl⟩ := Option.map_eq_some_iff.1 hs
        obtain ⟨R, hp, hmod⟩ := toks_modQ hq
        refine h.congr rfl rfl (((hmod fun _ => q').trans ?_).trans hp.symm)
        exact (DoneQ.toks_goPhase hst hgo (hh.ok i q hq).taken).append_right R
      · rename_i fr rest hst
        cases hs
        refine h.goInvoke hq hst ?_
        rintro fo d rfl
        obtain ⟨R, hp, -⟩ := held_goto [.add fo d] hq hst
        exact hh.lt d (hp.mem_iff.2 List.mem_cons_self)
    · cases hs

theorem inv_run {as : List DoneAct} (h : s.ProtoInv ∧ s.HoldInv) (hs : exec DoneSt.step s as = some s') :
    s'.ProtoInv ∧ s'.HoldInv :=
  exec_invariant_all (I := fun s => s.ProtoInv ∧ s.HoldInv) (fun _ _ _ h hs => ⟨h.1.step h.2 hs, h.2.step hs⟩) h hs

theorem inv_init : init.ProtoInv ∧ init.HoldInv := by
  refine ⟨⟨List.nodup_nil, ?_, ?_, ?_⟩, ⟨?_, ?_, ?_⟩⟩
  · intro t ht
    cases ht
  · intro k r hr
    cases hr
  · intro e he
    cases he
  · intro d q hq
    cases hq
  · intro d q hq
    cases hq
  · intro d hd
    cases hd

end DoneSt

/-! ## Every accepted function gets its turn -/

namespace Invoke

def fo : Invoke → Option DoneFo
  | get fo => some fo
  | check fo _ => some fo
  | run fo _ => some fo
  | done fo _ => some fo
  | add fo _ => some fo
  | leave _ => none
  | free fo => some fo

/-- The steps to the end of an `__invoke_f`, at most. -/
def left : Invoke → Nat
  | get _ => 6
  | check _ _ => 5
  | run _ _ => 4
  | done _ _ => 3
  | add _ _ => 2
  | leave _ => 1
  | free _ => 1

end Invoke

namespace DoneQ

/-- The steps of the thread until it takes an object from `q->head`, at most. -/
def dist (q : DoneQ) : Nat :=
  match q.phase with
  | .events => 4
  | .check _ => 1
  | .loop _ _ => if q.taken = [] then 5 else 0
  | .uninstall => 3
  | .waitUsage => 2
  | .fini => 0
  | .freed => 0

def stackLeft : List Invoke → Nat
  | [] => 0
  | fr :: rest => fr.left + stackLeft rest

theorem stackLeft_pop {fr : Invoke} {rest : List Invoke} : stackLeft ([] ++ rest) + 1 ≤ stackLeft (fr :: rest) := by
  have hpos : 0 < fr.left := by rcases fr <;> exact Nat.succ_pos _
  rw [List.nil_append, stackLeft]
  omega

theorem stackLeft_move {fr y : Invoke} {rest : List Invoke} (hy : y.left < fr.left) :
    stackLeft ([y] ++ rest) + 1 ≤ stackLeft (fr :: rest) := by
  rw [List.singleton_append, stackLeft, stackLeft]
  omega

/-- The steps of the thread until it is done with the functions it is in and with `n` more, at most. -/
def work (q : DoneQ) (n : Nat) : Nat := 6 * (stackLeft q.stack + 7 * n) + q.dist

/-- The object is among the next `n` of the queue, or in an `__invoke_f`. -/
def Has (q : DoneQ) (fo : DoneFo) (n : Nat) : Prop :=
  fo ∈ (q.taken ++ q.fos).take n ∨ ∃ fr ∈ q.stack, fr.fo = some fo

variable {q q' : DoneQ} {fo : DoneFo} {n : Nat}

/-- What other threads can do to a queue. -/
structure Grows (q q' : DoneQ) : Prop where
  stack : q'.stack = q.stack
  taken : q'.taken = q.taken
  phase : q'.phase = q.phase
  fos : q.fos <+: q'.fos

theorem Grows.refl (q : DoneQ) : q.Grows q := ⟨rfl, rfl, rfl, List.prefix_rfl⟩

theorem Grows.work (h : q.Grows q') : q'.work n = q.work n := by
  unfold DoneQ.work dist
  rw [h.stack, h.taken, h.phase]

theorem mem_take_append {l m : List DoneFo} (h : fo ∈ l.take n) : fo ∈ (l ++ m).take n := by
  rw [List.take_append]
  exact List.mem_append_left _ h

theorem Grows.has (h : q.Grows q') (hq : q.Has fo n) : q'.Has fo n := by
  obtain ⟨m, hm⟩ := h.fos
  unfold Has
  rw [h.stack, h.taken, ← hm, ← List.append_assoc]
  exact hq.imp_left mem_take_append

theorem dist_le (q : DoneQ) : q.dist ≤ 5 := by
  unfold dist
  split
  all_goals try split_ifs
  all_goals omega

/-- The thread goes on outside of `__invoke_f`. -/
theorem Has.goPhase (h : q.Has fo n) (hok : q.Ok) (hst : q.stack = []) (hgo : q.goPhase = some q') :
    ∃ n', q'.Has fo n' ∧ q'.work n' + 1 ≤ q.work n := by
  have hmem : fo ∈ (q.taken ++ q.fos).take n := by
    rcases h with h | ⟨fr, hfr, -⟩
    · exact h
    · rw [hst] at hfr
      cases hfr
  have hne : q.taken ++ q.fos ≠ [] := by
    intro he
    rw [he, List.take_nil] at hmem
    cases hmem
  unfold DoneQ.goPhase at hgo
  split at hgo
  · rename_i hph
    cases hgo
    refine ⟨n, .inl hmem, ?_⟩
    rcases ht : q.terminated
    · simp only [work, dist, hph, Bool.false_eq_true, if_false]
      omega
    · simp only [work, dist, hph, if_true]
      omega
  · rename_i site hph
    have ht := hok.taken_nil hph (by simp)
    rw [ht, List.nil_append] at hne
    rw [if_pos hne] at hgo
    cases hgo
    refine ⟨n, .inl ?_, ?_⟩
    · simpa [ht] using hmem
    · simp only [work, dist, hph, if_neg hne]
      omega
  · rename_i site count hph
    split at hgo
    · rename_i ht
      cases hgo
      refine ⟨n, .inl hmem, ?_⟩
      rcases site
      · simp only [work, dist, hph, ht, DonePhase.ret, if_true]
        omega
      · simp only [work, dist, hph, ht, DonePhase.ret, if_true]
        omega
      · rcases count with _ | count
        · exact absurd ht (hok.first _ hph)
        · simp only [work, dist, hph, ht, DonePhase.ret, if_true]
          omega
    · rename_i fo' taken ht
      cases hgo
      rcases n with _ | n
      · cases hmem
      · refine ⟨n, ?_, ?_⟩
        · rw [ht, List.cons_append, List.take_succ_cons] at hmem
          rcases List.mem_cons.1 hmem with rfl | hmem
          · exact .inr ⟨_, List.mem_singleton_self _, rfl⟩
          · exact .inl hmem
        · have hdist := dist_le { q with phase := .loop site (count + 1), taken := taken, stack := [.get fo'] }
          simp only [work, stackLeft, Invoke.left, hst]
          omega
  · rename_i hph
    cases hgo
    refine ⟨n, .inl hmem, ?_⟩
    simp only [work, dist, hph]
    omega
  · rename_i hph
    cases hgo
    refine ⟨n, .inl hmem, ?_⟩
    simp only [work, dist, hph]
    omega
  · rename_i hph
    rw [hok.taken_nil hph (by simp), hok.empty (.inl hph)] at hne
    exact absurd rfl hne
  · cases hgo

end DoneQ

namespace DoneSt

variable {s s' : DoneSt} {i j d n : Nat} {q : DoneQ} {rest : List Invoke} {fr : Invoke} {fo : DoneFo} {r : DoneReq}

theorem grows_modQ (hq : s.qs[i]? = some q) (f : DoneQ → DoneQ) (hf : ∀ q : DoneQ, q.Grows (f q)) :
    ∃ q', (s.modQ j f).qs[i]? = some q' ∧ q.Grows q' := by
  refine ⟨_, getElem?_modQ hq f, ?_⟩
  split_ifs
  · exact hf q
  · exact .refl q

theorem getElem?_goto (hq : s.qs[i]? = some q) (stack : List Invoke) :
    (s.goto i stack).qs[i]? = some { q with stack := stack } := by
  rw [goto, getElem?_modQ hq, if_pos rfl]

theorem grows_goto (hq : s.qs[i]? = some q) (hj : j ≠ i) (stack : List Invoke) :
    (s.goto j stack).qs[i]? = some q := by
  rw [goto, getElem?_modQ hq, if_neg hj]

theorem grows_hold (hq : s.qs[i]? = some q) : ∃ q', (s.hold d).qs[i]? = some q' ∧ q.Grows q' :=
  grows_modQ hq _ fun _ => ⟨rfl, rfl, rfl, List.prefix_rfl⟩

theorem grows_drop (hq : s.qs[i]? = some q) : ∃ q', (s.drop d).qs[i]? = some q' ∧ q.Grows q' :=
  grows_modQ hq _ fun _ => ⟨rfl, rfl, rfl, List.prefix_rfl⟩

theorem grows_link (fo : DoneFo) (hq : s.qs[i]? = some q) : ∃ q', (s.link d fo).qs[i]? = some q' ∧ q.Grows q' :=
  grows_modQ hq _ fun _ => ⟨rfl, rfl, rfl, List.prefix_append _ _⟩

theorem mem_link (fo : DoneFo) (hd : d < s.qs.length) : ∃ q', (s.link d fo).qs[d]? = some q' ∧ fo ∈ q'.fos := by
  refine ⟨_, getElem?_modQ (List.getElem?_eq_getElem hd) _, ?_⟩
  rw [if_pos rfl]
  exact List.mem_append_right _ (List.mem_singleton_self _)

/-- Another thread in `__invoke_f`. -/
theorem grows_goInvoke (hq : s.qs[i]? = some q) (hj : j ≠ i) :
    ∃ q', (s.goInvoke j rest fr).qs[i]? = some q' ∧ q.Grows q' := by
  have hself : ∀ stack, ∃ q', (s.goto j stack).qs[i]? = some q' ∧ q.Grows q' :=
    fun stack => ⟨q, grows_goto hq hj stack, .refl q⟩
  rcases fr with fo | ⟨fo, r⟩ | ⟨fo, robj⟩ | ⟨fo, d⟩ | ⟨fo, d⟩ | d | fo
  · simp only [DoneSt.goInvoke]
    split
    · exact hself _
    · split_ifs
      · exact hself _
      · exact hself _
  · exact hself _
  · simp only [DoneSt.goInvoke]
    split
    · exact hself _
    · split_ifs
      · exact hself _
      · exact hself _
  · simp only [DoneSt.goInvoke]
    split_ifs
    · obtain ⟨q', hq', hg⟩ := grows_hold (d := d) hq
      exact ⟨q', grows_goto hq' hj _, hg⟩
    · exact hself _
  · exact grows_link _ (grows_goto hq hj _)
  · exact grows_drop (grows_goto hq hj _)
  · exact hself _

/-- What the other threads do to queue `i`, apart from calls of its own functions. -/
theorem grows_step {a : DoneAct} (hq : s.qs[i]? = some q) (ha : a ≠ .go i) (hc : ∀ ref, a ≠ .call i ref)
    (hs : s.step a = some s') : ∃ q', s'.qs[i]? = some q' ∧ q.Grows q' := by
  rcases a with _ | d | ⟨j, done, ref⟩ | j | j | r | r | ⟨j, ref⟩ | j
  · cases hs
    refine ⟨q, ?_, .refl q⟩
    rw [List.getElem?_append_left (List.getElem?_eq_some_iff.1 hq).1]
    exact hq
  · simp only [DoneSt.step] at hs
    split_ifs at hs
    cases hs
    exact grows_hold hq
  · simp only [DoneSt.step] at hs
    split at hs
    · cases hs
      exact grows_link _ hq
    · cases hs
  · simp only [DoneSt.step] at hs
    split at hs
    · cases hs
      exact grows_drop hq
    · cases hs
  · cases hs
    exact grows_modQ hq _ fun _ => ⟨rfl, rfl, rfl, List.prefix_rfl⟩
  · cases hs
    exact ⟨q, hq, .refl q⟩
  · cases hs
    exact ⟨q, hq, .refl q⟩
  · have hj : j ≠ i := by
      rintro rfl
      exact hc ref rfl
    simp only [DoneSt.step] at hs
    split at hs
    · split_ifs at hs
      cases hs
      exact ⟨q, grows_goto hq hj _, .refl q⟩
    · cases hs
  · have hj : j ≠ i := by
      rintro rfl
      exact ha rfl
    simp only [DoneSt.step] at hs
    split at hs
    · split at hs
      · obtain ⟨q', -, rfl⟩ := Option.map_eq_some_iff.1 hs
        refine ⟨q, ?_, .refl q⟩
        rw [getElem?_modQ hq, if_neg hj]
      · cases hs
        exact grows_goInvoke hq hj
    · cases hs

/-- Queue `i` after a step of its own thread in `__invoke_f`: the function is still there, and less is left. -/
theorem has_after (q' : DoneQ) (ys : List Invoke) (hst : q.stack = fr :: rest) (hhas : q.Has fo n)
    (hst' : q'.stack = ys ++ rest) (htaken : q'.taken = q.taken) (hphase : q'.phase = q.phase) (hfos : q.fos <+: q'.fos)
    (hleft : DoneQ.stackLeft (ys ++ rest) + 1 ≤ DoneQ.stackLeft (fr :: rest))
    (hkeep : fr.fo = some fo → ∃ y ∈ ys, y.fo = some fo) : q'.Has fo n ∧ q'.work n + 1 ≤ q.work n := by
  refine ⟨?_, ?_⟩
  · rcases hhas with hmem | ⟨x, hx, hfo⟩
    · obtain ⟨m, hm⟩ := hfos
      left
      rw [htaken, ← hm, ← List.append_assoc]
      exact DoneQ.mem_take_append hmem
    · right
      rw [hst] at hx
      rw [hst']
      rcases List.mem_cons.1 hx with rfl | hx
      · obtain ⟨y, hy, hyfo⟩ := hkeep hfo
        exact ⟨y, List.mem_append_left _ hy, hyfo⟩
      · exact ⟨x, List.mem_append_right _ hx, hfo⟩
  · simp only [DoneQ.work, DoneQ.dist, hst, hst', htaken, hphase]
    omega

/-- Where the function `fo` of queue `i` is after a step: completed; in the list of its done queue; or still in the queue. -/
def Goes (s' : DoneSt) (i : Nat) (fo : DoneFo) (r : DoneReq) (bound : Nat) : Prop :=
  r.Complete (hist s'.log fo.id) ∨
  (∃ d q', fo.done = some d ∧ s'.qs[d]? = some q' ∧ { fo with done := none } ∈ q'.fos) ∨
  ∃ q' n', s'.qs[i]? = some q' ∧ q'.Has fo n' ∧ q'.work n' < bound

theorem goes_goInvoke (h : s.ProtoInv) (hq : s.qs[i]? = some q) (hst : q.stack = fr :: rest) (hhas : q.Has fo n)
    (hr : s.reqs[fo.id]? = some r) (hd : ∀ fo d, fr = .add fo d → d < s.qs.length) :
    (s.goInvoke i rest fr).Goes i fo r (q.work n) := by
  -- the function is still in the queue
  have hgoto : ∀ ys : List Invoke, DoneQ.stackLeft (ys ++ rest) + 1 ≤ DoneQ.stackLeft (fr :: rest) →
      (fr.fo = some fo → ∃ y ∈ ys, y.fo = some fo) → ∀ s' : DoneSt, s'.qs = (s.goto i (ys ++ rest)).qs →
      s'.Goes i fo r (q.work n) := by
    intro ys hleft hkeep s' hs'
    obtain ⟨hhas', hwork⟩ := has_after { q with stack := ys ++ rest } ys hst hhas rfl rfl rfl
      List.prefix_rfl hleft hkeep
    refine .inr (.inr ⟨_, n, ?_, hhas', by omega⟩)
    rw [hs']
    exact getElem?_goto hq _
  -- the token of the innermost call
  have htok : ∀ t, fr.tok i = some t → t.id = fo.id → t.Ok r (hist s.log fo.id) := by
    intro t ht hid
    obtain ⟨R, hp, -⟩ := toks_goto [fr] hq hst
    simp only [List.filterMap_cons, List.filterMap_nil, ht, List.singleton_append] at hp
    obtain ⟨r', hr', hok⟩ := h.ok t (hp.mem_iff.2 List.mem_cons_self)
    rw [hid] at hr' hok
    cases hr.symm.trans hr'
    exact hok
  rcases fr with fo' | ⟨fo', r'⟩ | ⟨fo', robj⟩ | ⟨fo', d⟩ | ⟨fo', d⟩ | d | fo'
  · simp only [DoneSt.goInvoke]
    split
    · exact hgoto [.run fo' .null] (DoneQ.stackLeft_move (by simp [Invoke.left]))
        (fun hfo => ⟨_, List.mem_singleton_self _, hfo⟩) _ rfl
    · rename_i r' _
      split_ifs
      · exact hgoto [.run fo' .freeOnly] (DoneQ.stackLeft_move (by simp [Invoke.left]))
          (fun hfo => ⟨_, List.mem_singleton_self _, hfo⟩) _ rfl
      · exact hgoto [.check fo' r'] (DoneQ.stackLeft_move (by simp [Invoke.left]))
          (fun hfo => ⟨_, List.mem_singleton_self _, hfo⟩) _ rfl
  · exact hgoto [.run fo' _] (DoneQ.stackLeft_move (by simp [Invoke.left]))
      (fun hfo => ⟨_, List.mem_singleton_self _, hfo⟩) _ rfl
  · by_cases hfo : fo' = fo
    · subst hfo
      have hran := htok (.ran i fo' robj) rfl rfl
      simp only [DoneSt.goInvoke]
      split
      · rename_i hdone
        exact .inl (hran.finish (.inl hdone))
      · rename_i d hdone
        split_ifs with hfree
        · exact .inl (hran.finish (.inr hfree))
        · exact hgoto [.done fo' d] (DoneQ.stackLeft_move (by simp [Invoke.left]))
            (fun hfo => ⟨_, List.mem_singleton_self _, hfo⟩) _ rfl
    · have hne : (Invoke.run fo' robj).fo ≠ some fo := by simpa [Invoke.fo] using hfo
      simp only [DoneSt.goInvoke]
      split
      · exact hgoto [] DoneQ.stackLeft_pop (fun hfo => absurd hfo hne) _ rfl
      · rename_i d _
        split_ifs
        · exact hgoto [] DoneQ.stackLeft_pop (fun hfo => absurd hfo hne) _ rfl
        · exact hgoto [.done fo' d] (DoneQ.stackLeft_move (by simp [Invoke.left]))
            (fun hfo => absurd hfo hne) _ rfl
  · simp only [DoneSt.goInvoke]
    split_ifs
    · obtain ⟨q1, hq1, hg⟩ := grows_hold (d := d) hq
      obtain ⟨hhas', hwork⟩ := has_after { q1 with stack := .add fo' d :: rest } [.add fo' d] hst hhas
        rfl hg.taken hg.phase hg.fos (DoneQ.stackLeft_move (by simp [Invoke.left]))
        (fun hfo => ⟨_, List.mem_singleton_self _, hfo⟩)
      exact .inr (.inr ⟨_, n, getElem?_goto hq1 _, hhas', by omega⟩)
    · exact hgoto [.free fo'] (DoneQ.stackLeft_move (by simp [Invoke.left]))
        (fun hfo => ⟨_, List.mem_singleton_self _, hfo⟩) _ rfl
  · have hlt := hd fo' d rfl
    by_cases hfo : fo' = fo
    · subst hfo
      have hback := htok (.back i fo' d) rfl rfl
      have hlt' : d < (s.goto i (.leave d :: rest)).qs.length := by
        rw [goto, modQ, List.length_modify]
        exact hlt
      obtain ⟨q', hq', hmem⟩ := mem_link { fo' with done := none } hlt'
      exact .inr (.inl ⟨d, q', hback.2.2.1, hq', hmem⟩)
    · have hne : (Invoke.add fo' d).fo ≠ some fo := by simpa [Invoke.fo] using hfo
      obtain ⟨q', hq', hg⟩ := grows_link (d := d) { fo' with done := none } (getElem?_goto hq (.leave d :: rest))
      obtain ⟨hhas', hwork⟩ := has_after q' [.leave d] hst hhas hg.stack hg.taken hg.phase hg.fos
        (DoneQ.stackLeft_move (by simp [Invoke.left])) (fun hfo => absurd hfo hne)
      exact .inr (.inr ⟨q', n, hq', hhas', by omega⟩)
  · obtain ⟨q', hq', hg⟩ := grows_drop (d := d) (getElem?_goto hq rest)
    obtain ⟨hhas', hwork⟩ := has_after q' [] hst hhas hg.stack hg.taken hg.phase hg.fos
      DoneQ.stackLeft_pop (fun hfo => by cases hfo)
    exact .inr (.inr ⟨q', n, hq', hhas', by omega⟩)
  · by_cases hfo : fo' = fo
    · subst hfo
      exact .inl (htok (.freed i fo') rfl rfl)
    · have hne : (Invoke.free fo').fo ≠ some fo := by simpa [Invoke.fo] using hfo
      exact hgoto [] DoneQ.stackLeft_pop (fun hfo => absurd hfo hne) _ rfl

end DoneSt

/-- A call of a function on its own queue. -/
def DoneAct.isCall (i : Nat) : DoneAct → Bool
  | call j _ => j = i
  | _ => false

namespace DoneSt

variable {s s' : DoneSt} {i n : Nat} {q : DoneQ} {fo : DoneFo} {r : DoneReq}

theorem reqs_goInvoke {fr : Invoke} {rest : List Invoke} : (s.goInvoke i rest fr).reqs = s.reqs := by
  rcases fr
  all_goals
    simp only [DoneSt.goInvoke]
    repeat' split
    all_goals rfl

theorem reqs_step {a : DoneAct} {k : Nat} (hs : s.step a = some s') (hr : s.reqs[k]? = some r) :
    s'.reqs[k]? = some r := by
  have happ : ∀ r', (s.reqs ++ [r'])[k]? = some r := by
    intro r'
    rw [List.getElem?_append_left (List.getElem?_eq_some_iff.1 hr).1]
    exact hr
  rcases a with _ | d | ⟨j, done, ref⟩ | j | i | r | r | ⟨i, ref⟩ | i
  all_goals simp only [DoneSt.step] at hs
  case go =>
    split at hs
    · split at hs
      · obtain ⟨q', -, rfl⟩ := Option.map_eq_some_iff.1 hs
        exact hr
      · cases hs
        rw [reqs_goInvoke]
        exact hr
    · cases hs
  all_goals
    repeat' split at hs
    all_goals first
      | cases hs; done
      | cases hs; exact hr
      | cases hs; exact happ _

theorem goes_step {a : DoneAct} (h : s.ProtoInv) (hh : s.HoldInv) (hq : s.qs[i]? = some q) (hhas : q.Has fo n)
    (hr : s.reqs[fo.id]? = some r) (hs : s.step a = some s') :
    s'.Goes i fo r (q.work n + (if a = .go i then 0 else 1) + if a.isCall i then 36 else 0) := by
  by_cases hgo : a = .go i
  · subst hgo
    rw [if_pos rfl]
    simp only [DoneSt.step, hq] at hs
    split at hs
    · rename_i hst
      obtain ⟨q', hgo, rfl⟩ := Option.map_eq_some_iff.1 hs
      obtain ⟨n', hhas', hwork⟩ := hhas.goPhase (hh.ok i q hq) hst hgo
      refine .inr (.inr ⟨q', n', ?_, hhas', by simp [DoneAct.isCall]; omega⟩)
      rw [getElem?_modQ hq, if_pos rfl]
    · rename_i fr rest hst
      cases hs
      refine goes_goInvoke h hq hst hhas hr ?_
      rintro fo d rfl
      obtain ⟨R, hp, -⟩ := held_goto [.add fo d] hq hst
      exact hh.lt d (hp.mem_iff.2 List.mem_cons_self)
  · rw [if_neg hgo]
    by_cases hcall : ∃ ref, a = .call i ref
    · obtain ⟨ref, rfl⟩ := hcall
      simp only [DoneSt.step, hq] at hs
      split_ifs at hs
      cases hs
      refine .inr (.inr ⟨_, n, getElem?_goto hq _, ?_, ?_⟩)
      · exact hhas.imp_right fun ⟨fr, hfr, hfo⟩ => ⟨fr, List.mem_cons_of_mem _ hfr, hfo⟩
      · simp [DoneQ.work, DoneQ.dist, DoneQ.stackLeft, Invoke.left, DoneAct.isCall]
        omega
    · obtain ⟨q', hq', hg⟩ := grows_step hq hgo (fun ref he => hcall ⟨ref, he⟩) hs
      refine .inr (.inr ⟨q', n, hq', hg.has hhas, ?_⟩)
      rw [hg.work]
      omega

/-- After enough steps of the thread of its queue the function is completed, or it is in the list of its done queue. -/
theorem goes_run {as : List DoneAct} (hi : s.ProtoInv ∧ s.HoldInv) (hq : s.qs[i]? = some q) (hhas : q.Has fo n)
    (hr : s.reqs[fo.id]? = some r) (hs : exec step s as = some s')
    (hgo : q.work n + 36 * as.countP (·.isCall i) < as.count (.go i)) :
    ∃ as₁ as₂ s₁, as = as₁ ++ as₂ ∧ exec step s as₁ = some s₁ ∧ (r.Complete (hist s₁.log fo.id) ∨
      ∃ d q', fo.done = some d ∧ s₁.qs[d]? = some q' ∧ { fo with done := none } ∈ q'.fos) := by
  induction as generalizing s q n with
  | nil =>
    rw [List.count_nil] at hgo
    omega
  | cons a as ih =>
    rw [exec_cons] at hs
    obtain ⟨t, ht, hs⟩ := Option.bind_eq_some_iff.1 hs
    have hstep : exec step s [a] = some t := by
      rw [exec_cons, ht]
      rfl
    have hr' : t.reqs[fo.id]? = some r := reqs_step ht hr
    rcases goes_step hi.1 hi.2 hq hhas hr ht with hdone | hdone | ⟨q', n', hq', hhas', hwork⟩
    · exact ⟨[a], as, t, rfl, hstep, .inl hdone⟩
    · exact ⟨[a], as, t, rfl, hstep, .inr hdone⟩
    · have hlt : q'.work n' + 36 * as.countP (·.isCall i) < as.count (.go i) := by
        rw [List.countP_cons, List.count_cons] at hgo
        simp only [beq_iff_eq] at hgo
        split_ifs at hwork hgo <;> omega
      obtain ⟨as₁, as₂, s₁, rfl, hs₁, hend⟩ := ih ⟨hi.1.step hi.2 ht, hi.2.step ht⟩ hq' hhas' hr' hs hlt
      refine ⟨a :: as₁, as₂, s₁, rfl, ?_, hend⟩
      rw [exec_cons, ht]
      exact hs₁

end DoneSt

/-- The function is told that nobody will call it again: it has no done queue, or it is called to free only. -/
def DoneEv.releases : DoneEv → Bool
  | call _ done robj => done = none ∨ robj = .freeOnly
  | lost _ => false

theorem DoneReq.Complete.releases {r : DoneReq} {h : List DoneEv} (hc : r.Complete h) :
    h.countP DoneEv.releases = 1 := by
  unfold Complete at hc
  split at hc
  · obtain ⟨o, rfl⟩ := hc
    rfl
  · rcases hc with rfl | ⟨o, ho, ⟨o', rfl⟩ | rfl⟩
    · rfl
    · simp [DoneEv.releases, ho]
    · simp [DoneEv.releases, ho]

/-- What has happened to a function so far is the beginning of one of its possible histories. -/
theorem DoneReq.Before.prefix {r : DoneReq} {q : Nat} {fo : DoneFo} {h : List DoneEv} (hb : r.Before q fo h)
    (robj : Robj) : ∃ h', r.Complete h' ∧ h ++ [.call q fo.done robj] <+: h' := by
  unfold Complete
  rcases hb with ⟨rfl, hdone, rfl⟩ | ⟨hdone, hfo, o, ho, rfl⟩
  · rw [hdone]
    rcases fo.done with _ | d
    · exact ⟨_, ⟨robj, rfl⟩, List.prefix_rfl⟩
    · by_cases hfree : robj = .freeOnly
      · subst hfree
        exact ⟨_, .inl rfl, List.prefix_rfl⟩
      · exact ⟨_, .inr ⟨robj, hfree, .inr rfl⟩, List.prefix_append _ _⟩
  · rw [hdone, hfo]
    exact ⟨_, .inr ⟨o, ho, .inl ⟨robj, rfl⟩⟩, List.prefix_rfl⟩

theorem Tok.Ok.prefix {r : DoneReq} {h : List DoneEv} {t : Tok} (hok : t.Ok r h) : ∃ h', r.Complete h' ∧ h <+: h' := by
  rcases t with ⟨q, fo⟩ | ⟨q, fo, robj⟩ | ⟨q, fo, d⟩ | ⟨q, fo⟩
  · obtain ⟨h', hc, hp⟩ := DoneReq.Before.prefix hok .null
    exact ⟨h', hc, (List.prefix_append _ _).trans hp⟩
  · obtain ⟨h0, hb, rfl⟩ := hok
    exact hb.prefix robj
  · obtain ⟨rfl, hdone, -, o, ho, rfl⟩ := hok
    unfold DoneReq.Complete
    rw [hdone]
    exact ⟨_, .inr ⟨o, ho, .inr rfl⟩, List.prefix_append _ _⟩
  · exact ⟨h, hok, List.prefix_rfl⟩

/-- The function is in the queue or in a call of its thread. -/
def DoneQ.Holds (q : DoneQ) (fo : DoneFo) : Prop := q.Has fo (q.taken ++ q.fos).length

theorem DoneQ.holds_of_tok {q : DoneQ} {i : Nat} {t : Tok} (ht : t ∈ q.toks i) : q.Holds t.fo := by
  rcases List.mem_append.1 ht with ht | ht
  · obtain ⟨fr, hfr, htok⟩ := List.mem_filterMap.1 ht
    refine .inr ⟨fr, hfr, ?_⟩
    rcases fr with fo | ⟨fo, r⟩ | ⟨fo, robj⟩ | ⟨fo, d⟩ | ⟨fo, d⟩ | d | fo
    · cases htok
      rfl
    · cases htok
      rfl
    · cases htok
      rfl
    · cases htok
      rfl
    · cases htok
      rfl
    · cases htok
    · cases htok
      rfl
  · obtain ⟨fo, hfo, rfl⟩ := List.mem_map.1 ht
    left
    rwa [List.take_length]

theorem DoneQ.Holds.exists_tok {q : DoneQ} {fo : DoneFo} (h : q.Holds fo) (i : Nat) : ∃ t ∈ q.toks i, t.fo = fo := by
  rcases h with h | ⟨fr, hfr, hfo⟩
  · rw [List.take_length] at h
    exact ⟨.item i fo, List.mem_append_right _ (List.mem_map_of_mem h), rfl⟩
  · have htok : ∃ t, fr.tok i = some t ∧ t.fo = fo := by
      rcases fr with fo' | ⟨fo', r⟩ | ⟨fo', robj⟩ | ⟨fo', d⟩ | ⟨fo', d⟩ | d | fo'
      · exact ⟨_, rfl, Option.some.inj hfo⟩
      · exact ⟨_, rfl, Option.some.inj hfo⟩
      · exact ⟨_, rfl, Option.some.inj hfo⟩
      · exact ⟨_, rfl, Option.some.inj hfo⟩
      · exact ⟨_, rfl, Option.some.inj hfo⟩
      · cases hfo
      · exact ⟨_, rfl, Option.some.inj hfo⟩
    obtain ⟨t, ht, rfl⟩ := htok
    exact ⟨t, List.mem_append_left _ (List.mem_filterMap.2 ⟨fr, hfr, ht⟩), rfl⟩

theorem DoneQ.Ok.not_holds {q : DoneQ} (h : q.Ok) (hph : q.phase = .freed) (fo : DoneFo) : ¬ q.Holds fo := by
  rintro (hfo | ⟨fr, hfr, -⟩)
  · rw [h.taken_nil hph (by simp), h.empty (.inr hph)] at hfo
    cases hfo
  · rw [h.freed hph] at hfr
    cases hfr

namespace DoneSt

variable {s : DoneSt} {i : Nat} {q : DoneQ} {fo : DoneFo}

theorem mem_toks (hq : s.qs[i]? = some q) {t : Tok} (ht : t ∈ q.toks i) : t ∈ s.toks := by
  obtain ⟨R, hp, -⟩ := toks_modQ hq
  exact hp.mem_iff.2 (List.mem_append_left _ ht)

theorem exists_holds {t : Tok} (ht : t ∈ s.toks) : ∃ (i : Nat) (q : DoneQ), s.qs[i]? = some q ∧ q.Holds t.fo := by
  obtain ⟨l, hl, ht⟩ := List.mem_flatten.1 ht
  obtain ⟨i, hi⟩ := List.mem_iff_getElem?.1 hl
  rw [List.getElem?_mapIdx] at hi
  obtain ⟨q, hq, rfl⟩ := Option.map_eq_some_iff.1 hi
  exact ⟨i, q, hq, DoneQ.holds_of_tok ht⟩

theorem HoldInv.can_go (h : s.HoldInv) (hq : s.qs[i]? = some q) (hfo : q.Holds fo) : ∃ s', s.step (.go i) = some s' := by
  simp only [DoneSt.step, hq]
  split
  · have hph : q.phase ≠ .freed := fun hph => (h.ok i q hq).not_holds hph fo hfo
    have hgo : ∃ q', q.goPhase = some q' := by
      unfold DoneQ.goPhase
      split
      case h_7 hf => exact absurd hf hph
      all_goals
        try split
        all_goals exact ⟨_, rfl⟩
    obtain ⟨q', hq'⟩ := hgo
    exact ⟨_, by rw [hq']; rfl⟩
  · exact ⟨_, rfl⟩

/-- A function is called to free only because of its done queue when that queue cannot be obtained. -/
theorem lost_step {s' : DoneSt} {a : DoneAct} {k d : Nat} (hs : s.step a = some s') (hl : (k, .lost d) ∈ s'.log) :
    (k, .lost d) ∈ s.log ∨ s.obtainable d = false := by
  have hcall : ∀ {k' q : Nat} {done : Option Nat} {robj : Robj}, (k, .lost d) ∈ s.log ++ [(k', .call q done robj)] →
      (k, .lost d) ∈ s.log := by
    intro k' q done robj hm
    rcases List.mem_append.1 hm with hm | hm
    · exact hm
    · simp at hm
  rcases a
  case go i =>
    simp only [DoneSt.step] at hs
    split at hs
    · split at hs
      · obtain ⟨q', -, rfl⟩ := Option.map_eq_some_iff.1 hs
        exact .inl hl
      · rename_i fr rest _
        cases hs
        rcases fr with fo | ⟨fo, r⟩ | ⟨fo, robj⟩ | ⟨fo, d'⟩ | ⟨fo, d'⟩ | d' | fo
        · simp only [DoneSt.goInvoke] at hl
          split at hl
          · exact .inl (hcall hl)
          · split_ifs at hl
            · exact .inl (hcall hl)
            · exact .inl hl
        · exact .inl (hcall hl)
        · simp only [DoneSt.goInvoke] at hl
          split at hl
          · exact .inl hl
          · split_ifs at hl <;> exact .inl hl
        · simp only [DoneSt.goInvoke] at hl
          split_ifs at hl with hob
          · exact .inl hl
          · rcases List.mem_append.1 hl with hl | hl
            · rcases List.mem_append.1 hl with hl | hl
              · exact .inl hl
              · simp only [List.mem_singleton, Prod.mk.injEq, DoneEv.lost.injEq] at hl
                rw [hl.2]
                exact .inr (Bool.not_eq_true _ ▸ hob)
            · simp at hl
        · exact .inl hl
        · exact .inl hl
        · exact .inl hl
    · cases hs
  all_goals
    left
    simp only [DoneSt.step] at hs
    repeat' split at hs
    all_goals first
      | cases hs; done
      | cases hs; exact hl

/-- The completion protocol over all runs of all queues. An accepted function is complete or still somewhere, and what
has happened to it so far is the beginning of a possible history, so its resources are released at most once, and once
when it is complete. `lost` stands in a history only when the done queue could not be obtained. A queue is not freed
with a function in it. A function that is somewhere gets on: the
thread of that queue can go on, and in every further run with enough steps of it the function is completed or comes into its
done queue, where it has no done queue any more. -/
theorem completed_once {as : List DoneAct} (hs : exec step init as = some s) :
    (∀ (k : Nat) (r : DoneReq), s.reqs[k]? = some r → (∃ h, r.Complete h ∧ hist s.log k <+: h) ∧
      (hist s.log k).countP DoneEv.releases ≤ 1 ∧
      ((r.Complete (hist s.log k) ∧ (hist s.log k).countP DoneEv.releases = 1) ∨
        ∃ (i : Nat) (q : DoneQ) (fo : DoneFo), s.qs[i]? = some q ∧ q.Holds fo ∧ fo.id = k)) ∧
    (∀ a s' k d, s.step a = some s' → (k, .lost d) ∈ s'.log → (k, .lost d) ∈ s.log ∨ s.obtainable d = false) ∧
    (∀ q ∈ s.qs, q.phase = .freed → ∀ fo, ¬ q.Holds fo) ∧
    ∀ (i : Nat) (q : DoneQ) (fo : DoneFo), s.qs[i]? = some q → q.Holds fo →
      ∃ r, s.reqs[fo.id]? = some r ∧ (∃ s', s.step (.go i) = some s') ∧
      ∀ as' s', exec step s as' = some s' →
        q.work (q.taken ++ q.fos).length + 36 * as'.countP (·.isCall i) < as'.count (.go i) →
        ∃ as₁ as₂ s₁, as' = as₁ ++ as₂ ∧ exec step s as₁ = some s₁ ∧ (r.Complete (hist s₁.log fo.id) ∨
          ∃ d q', fo.done = some d ∧ s₁.qs[d]? = some q' ∧ { fo with done := none } ∈ q'.fos) := by
  have hi := inv_run inv_init hs
  refine ⟨?_, fun _ _ _ _ => lost_step, ?_, ?_⟩
  · intro k r hr
    by_cases hk : k ∈ s.toks.map Tok.id
    · obtain ⟨t, ht, rfl⟩ := List.mem_map.1 hk
      obtain ⟨r', hr', hok⟩ := hi.1.ok t ht
      cases hr.symm.trans hr'
      obtain ⟨h, hc, hp⟩ := hok.prefix
      obtain ⟨i, q, hq, hfo⟩ := exists_holds ht
      refine ⟨⟨h, hc, hp⟩, ?_, .inr ⟨i, q, t.fo, hq, hfo, rfl⟩⟩
      rw [← hc.releases]
      exact hp.sublist.countP_le
    · have hc := hi.1.rest k r hr hk
      exact ⟨⟨_, hc, List.prefix_rfl⟩, Nat.le_of_eq hc.releases, .inl ⟨hc, hc.releases⟩⟩
  · intro q hq hph
    obtain ⟨i, hi'⟩ := List.mem_iff_getElem?.1 hq
    exact (hi.2.ok i q hi').not_holds hph
  · intro i q fo hq hfo
    obtain ⟨t, ht, rfl⟩ := hfo.exists_tok i
    obtain ⟨r, hr, -⟩ := hi.1.ok t (mem_toks hq ht)
    refine ⟨r, hr, hi.2.can_go hq hfo, ?_⟩
    intro as' s' hs' hgo
    exact goes_run hi hq hfo hr hs' hgo

/-- A function with a done queue, queued by another thread; both queues execute it. -/
def doneRun : List DoneAct :=
  [.create, .create, .get 0, .add 0 (some 1) none, .put 0] ++ List.replicate 8 (.go 0) ++ List.replicate 5 (.go 1)

theorem completed_once_doneRun : ∃ s, exec step init doneRun = some s ∧
    hist s.log 0 = [.call 0 (some 1) .null, .call 1 none .null] ∧ (hist s.log 0).countP DoneEv.releases ≤ 1 := by
  have hany : (exec step init doneRun).any (fun s => s.reqs = [⟨0, some 1, none⟩] &&
      hist s.log 0 = [.call 0 (some 1) .null, .call 1 none .null]) = true := by decide +kernel
  obtain ⟨s, hs, h⟩ := (Option.any_eq_true ..).1 hany
  rw [Bool.and_eq_true, decide_eq_true_eq, decide_eq_true_eq] at h
  refine ⟨s, hs, h.2, ((completed_once hs).1 0 ⟨0, some 1, none⟩ ?_).2.1⟩
  rw [h.1]
  rfl

end DoneSt

end Aosl
