import Aosl.MpqpTail
import Aosl.Lib.Lists
import Mathlib.Data.List.Nodup

/-!
# The counter of a tail call

The counter of a tail call is the number of its promises that have not begun, and a queue that has been taken out of
the pool drains what is linked in it before it is freed. `TailInv` says so for every state of a run; `ofPool`,
`ofQueue` and `ofCalls` keep it when the pool, the functions of one queue or the calls change.
-/

namespace Aosl
open Lib

namespace Work

def fo : Work → Fo
  | user c => .user c
  | promise t _ => .promise t

end Work

namespace TailQ

/-- The functions of a queue in the order in which they run. -/
def line (r : TailQ) : List Fo := (r.running.map Work.fo).toList ++ r.waiting

/-- What the functions of a queue are. -/
def fns (r : TailQ) : Option Work × List Fo × List Fo := (r.running, r.batch, r.linked)

end TailQ

namespace TailSt

/-- How many promises of `t` have not begun. -/
def pending (s : TailSt) (t : Nat) : Nat := (s.queues.map TailQ.waiting).flatten.countP (· = .promise t)

/-- How many promises of `t` are invoking the function. -/
def invoking (s : TailSt) (t : Nat) : Nat := s.queues.countP (·.running = some (.promise t true))

/-- The promise of `t` stands behind the function of `c`. -/
def Behind (r : TailQ) (c t : Nat) : Prop := ∃ A B, r.line = A ++ .user c :: B ∧ .promise t ∈ B

variable {s s' : TailSt} {q t c : Nat} {r : TailQ} {f : TailQ → TailQ}

theorem modifyQ_set (h : s.queues[q]? = some r) : (s.modifyQ q f).queues = s.queues.set q (f r) := modify_of_getElem? h f

theorem modifyQ_none (h : s.queues[q]? = none) : s.modifyQ q f = s := by
  unfold modifyQ
  rw [List.modify_eq_set_getElem?, h]
  rfl

theorem getElem?_modifyQ (s : TailSt) (q i : Nat) (f : TailQ → TailQ) :
    (s.modifyQ q f).queues[i]? = if q = i then s.queues[i]?.map f else s.queues[i]? := by
  rw [modifyQ, List.getElem?_modify]
  cases s.queues[i]? with
  | none =>
    split_ifs
    · rfl
    · rfl
  | some r =>
    split_ifs
    · rfl
    · rfl

theorem pending_modifyQ (h : s.queues[q]? = some r) :
    (s.modifyQ q f).pending t + r.waiting.countP (· = .promise t) =
      s.pending t + (f r).waiting.countP (· = .promise t) := by
  have hmap : (s.queues.map TailQ.waiting)[q]? = some r.waiting := by
    rw [List.getElem?_map, h]
    rfl
  unfold pending
  rw [modifyQ_set h, List.map_set]
  exact countP_flatten_set_add hmap _ _

theorem invoking_modifyQ (h : s.queues[q]? = some r) :
    (s.modifyQ q f).invoking t + (if r.running = some (.promise t true) then 1 else 0) =
      s.invoking t + if (f r).running = some (.promise t true) then 1 else 0 := by
  have hset := countP_set_add h (fun r => decide (r.running = some (.promise t true))) (f r)
  unfold invoking
  rw [modifyQ_set h]
  simpa using hset

/-- Steps that leave the functions in the queues. -/
def SameFns (s s' : TailSt) : Prop := s'.queues.map TailQ.fns = s.queues.map TailQ.fns

theorem SameFns.modifyQ (hf : ∀ r, (f r).fns = r.fns) : s.SameFns (s.modifyQ q f) := by
  unfold SameFns TailSt.modifyQ
  apply List.ext_getElem?
  intro i
  rw [List.getElem?_map, List.getElem?_map]
  change Option.map _ (s.modifyQ q f).queues[i]? = _
  rw [getElem?_modifyQ]
  split_ifs
  · rw [Option.map_map]
    exact congrFun (congrArg Option.map (funext hf)) _
  · rfl

theorem SameFns.trans {s'' : TailSt} (h : s.SameFns s') (h' : s'.SameFns s'') : s.SameFns s'' := Eq.trans h' h

theorem SameFns.getElem? (h : s.SameFns s') (q : Nat) :
    s'.queues[q]?.map TailQ.fns = s.queues[q]?.map TailQ.fns := by
  rw [← List.getElem?_map, ← List.getElem?_map, h]

theorem SameFns.pending (h : s.SameFns s') (t : Nat) : s'.pending t = s.pending t := by
  have hw : ∀ s : TailSt, s.queues.map TailQ.waiting = (s.queues.map TailQ.fns).map fun p => p.2.1 ++ p.2.2 := by
    intro s
    rw [List.map_map]
    rfl
  unfold TailSt.pending
  rw [hw, hw, h]

theorem SameFns.invoking (h : s.SameFns s') (t : Nat) : s'.invoking t = s.invoking t := by
  have hw : ∀ s : TailSt, s.invoking t = (s.queues.map TailQ.fns).countP (·.1 = some (.promise t true)) := by
    intro s
    rw [List.countP_map]
    rfl
  rw [hw, hw, h]

theorem SameFns.line (h : s.SameFns s') {r' : TailQ} (hr' : s'.queues[q]? = some r') :
    ∃ r, s.queues[q]? = some r ∧ r.fns = r'.fns := by
  have hq := h.getElem? q
  rw [hr', Option.map_some] at hq
  obtain ⟨r, hr, heq⟩ := Option.map_eq_some_iff.1 hq.symm
  exact ⟨r, hr, heq⟩

theorem SameFns.symm (h : s.SameFns s') : s'.SameFns s := Eq.symm h

theorem line_of_fns {r r' : TailQ} (h : r.fns = r'.fns) : r.line = r'.line ∧ r.linked = r'.linked ∧ r.running = r'.running := by
  simp only [TailQ.fns, Prod.mk.injEq] at h
  obtain ⟨h1, h2, h3⟩ := h
  refine ⟨?_, h3, h1⟩
  unfold TailQ.line TailQ.waiting
  rw [h1, h2, h3]

/-- The record of a tail call against the queues. -/
structure TailRec (s : TailSt) (t : Nat) (l : Tail) : Prop where
  early : l.phase ≠ .queued → s.pending t = 0 ∧ s.invoking t = 0 ∧ l.invoked = 0
  started : l.phase = .started → l.countFreed = 0
  count : l.phase = .queued → l.count = s.pending t ∧ l.invoked = (if l.count = 0 then 1 else 0) ∧ l.countFreed = l.invoked
  name : l.nameFreed + (if l.hasName then s.invoking t else 0) = if l.hasName then l.invoked else 0
  before : ∀ c ∈ l.before, ∃ k, s.calls[c]? = some k ∧ k.phase = .returned

/-- The invariant of all runs. -/
structure TailInv (s : TailSt) : Prop where
  nodup : (s.entries.map PoolEntry.q).Nodup
  entry : ∀ q ∈ s.entries.map PoolEntry.q, ∃ r, s.queues[q]? = some r ∧ r.terminated = false
  doomed : ∀ q ∈ s.doomed, q < s.queues.length ∧ q ∉ s.entries.map PoolEntry.q
  alive : ∀ (q : Nat) (r : TailQ), s.queues[q]? = some r → r.terminated = false → r.installed = true
  freed : ∀ (q : Nat) (r : TailQ), s.queues[q]? = some r → r.pc = .freed → ∀ t, .promise t ∉ r.line
  held : ∀ (c : Nat) (k : TailCall), s.calls[c]? = some k → k.q < s.queues.length
  linked : ∀ (c : Nat) (k : TailCall), s.calls[c]? = some k → k.phase = .added ∨ k.phase = .returned → k.finished = false →
    ∃ r, s.queues[k.q]? = some r ∧ .user c ∈ r.line
  absent : ∀ t, s.tails.length ≤ t → s.pending t = 0 ∧ s.invoking t = 0
  tails : ∀ (t : Nat) (l : Tail), s.tails[t]? = some l → TailRec s t l

theorem SameFns.length (h : s.SameFns s') : s'.queues.length = s.queues.length := by
  have hlen := congrArg List.length h
  rwa [List.length_map, List.length_map] at hlen

theorem TailRec.congr {l : Tail} (h : TailRec s t l) (hp : s'.pending t = s.pending t) (hi : s'.invoking t = s.invoking t)
    (hc : ∀ (c : Nat) (k : TailCall), s.calls[c]? = some k → k.phase = .returned →
      ∃ k', s'.calls[c]? = some k' ∧ k'.phase = .returned) : TailRec s' t l := by
  refine ⟨?_, h.started, ?_, ?_, fun c hc' => ?_⟩
  · rw [hp, hi]
    exact h.early
  · rw [hp]
    exact h.count
  · rw [hi]
    exact h.name
  · obtain ⟨k, hk, hret⟩ := h.before c hc'
    exact hc c k hk hret

namespace TailInv

/-- Steps of the pool, which leave functions, calls and tail calls alone. -/
theorem ofPool (h : TailInv s) (hf : s.SameFns s') (hc : s'.calls = s.calls) (ht : s'.tails = s.tails)
    (hn : (s'.entries.map PoolEntry.q).Nodup)
    (he : ∀ q ∈ s'.entries.map PoolEntry.q, ∃ r, s'.queues[q]? = some r ∧ r.terminated = false)
    (hd : ∀ q ∈ s'.doomed, q < s.queues.length ∧ q ∉ s'.entries.map PoolEntry.q)
    (ha : ∀ (q : Nat) (r : TailQ), s'.queues[q]? = some r → r.terminated = false → r.installed = true)
    (hr : ∀ (q : Nat) (r : TailQ), s'.queues[q]? = some r → r.pc = .freed → ∀ t, .promise t ∉ r.line) : TailInv s' := by
  refine ⟨hn, he, ?_, ha, hr, ?_, ?_, ?_, ?_⟩
  · rw [hf.length]
    exact hd
  · rw [hc, hf.length]
    exact h.held
  · intro c k hk hp hfin
    rw [hc] at hk
    obtain ⟨r, hr, hm⟩ := h.linked c k hk hp hfin
    obtain ⟨r', hr', heq⟩ := hf.symm.line hr
    refine ⟨r', hr', ?_⟩
    rw [(line_of_fns heq).1]
    exact hm
  · intro t hl
    rw [ht] at hl
    rw [hf.pending, hf.invoking]
    exact h.absent t hl
  · intro t l hl
    rw [ht] at hl
    refine (h.tails t l hl).congr (hf.pending t) (hf.invoking t) fun c k hk hret => ⟨k, ?_, hret⟩
    rw [hc]
    exact hk

/-- A queue is changed, but for its functions and its place in its life. -/
theorem modifyQ (h : TailInv s) (hf : ∀ r, (f r).fns = r.fns ∧ (f r).terminated = r.terminated ∧ (f r).pc = r.pc) :
    TailInv (s.modifyQ q f) := by
  have hold : ∀ (i : Nat) r', (s.modifyQ q f).queues[i]? = some r' → ∃ r, s.queues[i]? = some r ∧ r'.fns = r.fns ∧
      r'.terminated = r.terminated ∧ r'.pc = r.pc := by
    intro i r' hr'
    rw [getElem?_modifyQ] at hr'
    split_ifs at hr'
    · obtain ⟨r, hr, rfl⟩ := Option.map_eq_some_iff.1 hr'
      exact ⟨r, hr, hf r⟩
    · exact ⟨r', hr', rfl, rfl, rfl⟩
  refine h.ofPool (.modifyQ fun r => (hf r).1) rfl rfl h.nodup (fun i hi => ?_) h.doomed (fun i r' hr' ht => ?_)
    fun i r' hr' hp => ?_
  · obtain ⟨r, hr, ht⟩ := h.entry i hi
    rw [getElem?_modifyQ, hr]
    split_ifs
    · exact ⟨f r, rfl, (hf r).2.1.trans ht⟩
    · exact ⟨r, rfl, ht⟩
  · obtain ⟨r, hr, -, hterm, hpc⟩ := hold i r' hr'
    have hal := h.alive i r hr (hterm.symm.trans ht)
    unfold TailQ.installed at hal ⊢
    rw [hpc]
    exact hal
  · obtain ⟨r, hr, hfns, -, hpc⟩ := hold i r' hr'
    rw [(line_of_fns hfns).1]
    exact h.freed i r hr (hpc.symm.trans hp)

theorem mapEntries (h : TailInv s) {g : PoolEntry → PoolEntry} (hg : ∀ e, (g e).q = e.q) :
    TailInv { s with entries := s.entries.map g } := by
  have hmap : (s.entries.map g).map PoolEntry.q = s.entries.map PoolEntry.q := by
    rw [List.map_map]
    exact List.map_congr_left fun e _ => hg e
  refine h.ofPool rfl rfl rfl ?_ ?_ ?_ h.alive h.freed
  · exact hmap ▸ h.nodup
  · exact hmap ▸ h.entry
  · exact hmap ▸ h.doomed

/-- A queue that is not in the pool is terminated. -/
theorem terminate (h : TailInv s) (hq : q ∉ s.entries.map PoolEntry.q) (hd : ∀ i ∈ s'.doomed, i ∈ s.doomed)
    (hs' : s'.queues = (s.modifyQ q fun r => { r with terminated := true }).queues) (he : s'.entries = s.entries)
    (hc : s'.calls = s.calls) (ht : s'.tails = s.tails) : TailInv s' := by
  have hsame : s.SameFns s' := by
    unfold SameFns
    rw [hs']
    exact SameFns.modifyQ fun r => rfl
  have hold : ∀ (i : Nat) r', s'.queues[i]? = some r' → ∃ r, s.queues[i]? = some r ∧ r'.fns = r.fns ∧ r'.pc = r.pc ∧
      (r'.terminated = false → r.terminated = false) := by
    intro i r' hr'
    rw [hs', getElem?_modifyQ] at hr'
    split_ifs at hr'
    · obtain ⟨r, hr, rfl⟩ := Option.map_eq_some_iff.1 hr'
      exact ⟨r, hr, rfl, rfl, nofun⟩
    · exact ⟨r', hr', rfl, rfl, id⟩
  refine h.ofPool hsame hc ht ?_ (fun i hi => ?_) (fun i hi => ?_) (fun i r' hr' hterm => ?_) fun i r' hr' hp => ?_
  · rw [he]
    exact h.nodup
  · rw [he] at hi
    have hne : q ≠ i := fun h' => hq (h' ▸ hi)
    rw [hs', getElem?_modifyQ, if_neg hne]
    exact h.entry i hi
  · rw [he]
    exact h.doomed i (hd i hi)
  · obtain ⟨r, hr, -, hpc, hterm'⟩ := hold i r' hr'
    have hal := h.alive i r hr (hterm' hterm)
    unfold TailQ.installed at hal ⊢
    rw [hpc]
    exact hal
  · obtain ⟨r, hr, hfns, hpc, -⟩ := hold i r' hr'
    rw [(line_of_fns hfns).1]
    exact h.freed i r hr (hpc.symm.trans hp)

theorem shrink (h : TailInv s) : TailInv s.shrink := by
  unfold TailSt.shrink
  split
  · next e hlast =>
    split_ifs
    · obtain ⟨es, hes⟩ := List.getLast?_eq_some_iff.1 hlast
      have hdrop : s.entries.dropLast = es := by
        rw [hes, List.dropLast_concat]
      have hmap : s.entries.map PoolEntry.q = es.map PoolEntry.q ++ [e.q] := by
        rw [hes, List.map_append]
        rfl
      have hnodup := h.nodup
      rw [hmap, List.nodup_append] at hnodup
      refine h.ofPool rfl rfl rfl ?_ ?_ ?_ h.alive h.freed
      · dsimp only
        rw [hdrop]
        exact hnodup.1
      · intro q hq
        refine h.entry q ?_
        rw [hmap]
        dsimp only at hq
        rw [hdrop] at hq
        exact List.mem_append_left _ hq
      · intro q hq
        dsimp only
        rw [hdrop]
        rcases List.mem_cons.1 hq with rfl | hq
        · obtain ⟨r, hr, -⟩ := h.entry e.q (by rw [hmap]; exact List.mem_append_right _ List.mem_cons_self)
          exact ⟨(List.getElem?_eq_some_iff.1 hr).1, fun hmem => hnodup.2.2 _ hmem _ List.mem_cons_self rfl⟩
        · refine ⟨(h.doomed q hq).1, fun hmem => (h.doomed q hq).2 ?_⟩
          rw [hmap]
          exact List.mem_append_left _ hmem
    · exact h
  · exact h

theorem shrinkAll (h : TailInv s) : TailInv s.shrinkAll := by
  have hfold : ∀ (es : List PoolEntry) (s₀ s₁ : TailSt),
      s₁ = es.foldl (fun s e => s.modifyQ e.q fun r => { r with terminated := true }) s₀ →
      s₀.SameFns s₁ ∧ s₁.calls = s₀.calls ∧ s₁.tails = s₀.tails ∧ s₁.doomed = s₀.doomed ∧
        ∀ (i : Nat) r', s₁.queues[i]? = some r' → ∃ r, s₀.queues[i]? = some r ∧ r'.fns = r.fns ∧ r'.pc = r.pc ∧
          (r'.terminated = false → r.terminated = false) := by
    intro es
    induction es with
    | nil =>
      rintro s₀ s₁ rfl
      exact ⟨rfl, rfl, rfl, rfl, fun i r' hr' => ⟨r', hr', rfl, rfl, id⟩⟩
    | cons e es ih =>
      intro s₀ s₁ hs₁
      obtain ⟨hf, hc, ht, hd, hq⟩ := ih _ s₁ hs₁
      have hfirst : s₀.SameFns (s₀.modifyQ e.q fun r => { r with terminated := true }) := .modifyQ fun r => rfl
      refine ⟨hfirst.trans hf, hc, ht, hd, fun i r' hr' => ?_⟩
      obtain ⟨r₁, hr₁, hfns, hpc, hterm⟩ := hq i r' hr'
      rw [getElem?_modifyQ] at hr₁
      split_ifs at hr₁
      · obtain ⟨r, hr, rfl⟩ := Option.map_eq_some_iff.1 hr₁
        exact ⟨r, hr, hfns, hpc, fun h' => nomatch hterm h'⟩
      · exact ⟨r₁, hr₁, hfns, hpc, hterm⟩
  obtain ⟨hf, hc, ht, hd, hq⟩ := hfold s.entries s _ rfl
  refine h.ofPool hf hc ht List.nodup_nil nofun (fun i hi => ?_) (fun i r' hr' hterm => ?_)
    fun i r' hr' hp => ?_
  · refine ⟨(h.doomed i ?_).1, nofun⟩
    rw [← hd]
    exact hi
  · obtain ⟨r, hr, -, hpc, hterm'⟩ := hq i r' hr'
    have hal := h.alive i r hr (hterm' hterm)
    unfold TailQ.installed at hal ⊢
    rw [hpc]
    exact hal
  · obtain ⟨r, hr, hfns, hpc, -⟩ := hq i r' hr'
    rw [(line_of_fns hfns).1]
    exact h.freed i r hr (hpc.symm.trans hp)

theorem pending_createAdd (s : TailSt) (t : Nat) : s.createAdd.pending t = s.pending t := by
  unfold pending createAdd
  rw [List.map_append, List.flatten_append, List.countP_append]
  rfl

theorem invoking_createAdd (s : TailSt) (t : Nat) : s.createAdd.invoking t = s.invoking t := by
  unfold invoking createAdd
  rw [List.countP_append]
  rfl

theorem getElem?_createAdd {i : Nat} (hr : s.createAdd.queues[i]? = some r) :
    s.queues[i]? = some r ∨ i = s.queues.length ∧ r = TailQ.create := by
  unfold TailSt.createAdd at hr
  exact (getElem?_concat_cases hr).imp And.right id

theorem getElem?_createAdd_of {i : Nat} (hr : s.queues[i]? = some r) : s.createAdd.queues[i]? = some r := by
  obtain ⟨hi, -⟩ := List.getElem?_eq_some_iff.1 hr
  unfold TailSt.createAdd
  rw [List.getElem?_append_left hi]
  exact hr

theorem createAdd (h : TailInv s) : TailInv s.createAdd := by
  have hmap : s.createAdd.entries.map PoolEntry.q = s.entries.map PoolEntry.q ++ [s.queues.length] := by
    unfold TailSt.createAdd
    rw [List.map_append]
    rfl
  have hlt : ∀ q ∈ s.entries.map PoolEntry.q, q < s.queues.length := by
    intro q hq
    obtain ⟨r, hr, -⟩ := h.entry q hq
    exact (List.getElem?_eq_some_iff.1 hr).1
  refine ⟨?_, ?_, ?_, ?_, ?_, ?_, ?_, ?_, ?_⟩
  · rw [hmap, List.nodup_append]
    refine ⟨h.nodup, List.nodup_singleton _, fun q hq q' hq' => ?_⟩
    rw [List.mem_singleton.1 hq']
    exact Nat.ne_of_lt (hlt q hq)
  · intro q hq
    rw [hmap] at hq
    rcases List.mem_append.1 hq with hq | hq
    · obtain ⟨r, hr, ht⟩ := h.entry q hq
      exact ⟨r, getElem?_createAdd_of hr, ht⟩
    · rw [List.mem_singleton.1 hq]
      exact ⟨TailQ.create, List.getElem?_concat_length, rfl⟩
  · intro q hq
    have hlen : s.createAdd.queues.length = s.queues.length + 1 := List.length_append
    obtain ⟨hlt', hne⟩ := h.doomed q hq
    rw [hmap, hlen]
    refine ⟨Nat.lt_succ_of_lt hlt', fun hmem => ?_⟩
    rcases List.mem_append.1 hmem with hmem | hmem
    · exact hne hmem
    · exact Nat.ne_of_lt hlt' (List.mem_singleton.1 hmem)
  · intro q r hr ht
    rcases getElem?_createAdd hr with hr | ⟨-, rfl⟩
    · exact h.alive q r hr ht
    · rfl
  · intro q r hr hp t
    rcases getElem?_createAdd hr with hr | ⟨-, rfl⟩
    · exact h.freed q r hr hp t
    · cases hp
  · intro c k hk
    have hlen : s.createAdd.queues.length = s.queues.length + 1 := List.length_append
    rw [hlen]
    exact Nat.lt_succ_of_lt (h.held c k hk)
  · intro c k hk hp hfin
    obtain ⟨r, hr, hm⟩ := h.linked c k hk hp hfin
    exact ⟨r, getElem?_createAdd_of hr, hm⟩
  · intro t ht
    rw [pending_createAdd, invoking_createAdd]
    exact h.absent t ht
  · intro t l hl
    exact (h.tails t l hl).congr (pending_createAdd s t) (invoking_createAdd s t) fun c k hk hret => ⟨k, hk, hret⟩

/-- The functions of one queue change. -/
theorem ofQueue (h : TailInv s) (hq : s.queues[q]? = some r) (hs' : s'.queues = (s.modifyQ q f).queues)
    (hother : s'.entries = s.entries ∧ s'.doomed = s.doomed ∧ s'.calls = s.calls)
    (hterm : (f r).terminated = r.terminated) (halive : (f r).terminated = false → (f r).installed = true)
    (hfreed : (f r).pc = .freed → ∀ t, .promise t ∉ (f r).line)
    (hline : ∀ (c : Nat) (k : TailCall), s.calls[c]? = some k → k.finished = false → .user c ∈ r.line → .user c ∈ (f r).line)
    (hnone : ∀ t, s'.tails.length ≤ t → s'.pending t = 0 ∧ s'.invoking t = 0)
    (htails : ∀ (t : Nat) (l : Tail), s'.tails[t]? = some l → TailRec s' t l) : TailInv s' := by
  obtain ⟨he, hd, hc⟩ := hother
  have hget : ∀ (i : Nat) r', s'.queues[i]? = some r' → i = q ∧ r' = f r ∨ s.queues[i]? = some r' := by
    intro i r' hr'
    rw [hs', getElem?_modifyQ] at hr'
    split_ifs at hr' with hi
    · subst hi
      rw [hq] at hr'
      exact .inl ⟨rfl, (Option.some.inj hr').symm⟩
    · exact .inr hr'
  have hput : ∀ (i : Nat) r₀, s.queues[i]? = some r₀ → i = q ∧ r₀ = r ∧ s'.queues[i]? = some (f r) ∨
      s'.queues[i]? = some r₀ := by
    intro i r₀ hr₀
    rw [hs', getElem?_modifyQ]
    split_ifs with hi
    · subst hi
      rw [hq] at hr₀ ⊢
      exact .inl ⟨rfl, (Option.some.inj hr₀).symm, rfl⟩
    · exact .inr hr₀
  have hlen : s'.queues.length = s.queues.length := by
    rw [hs', TailSt.modifyQ, List.length_modify]
  refine ⟨?_, ?_, ?_, ?_, ?_, ?_, ?_, hnone, htails⟩
  · rw [he]
    exact h.nodup
  · intro i hi
    rw [he] at hi
    obtain ⟨r₀, hr₀, ht⟩ := h.entry i hi
    rcases hput i r₀ hr₀ with ⟨-, rfl, hr'⟩ | hr'
    · exact ⟨f r₀, hr', hterm.trans ht⟩
    · exact ⟨r₀, hr', ht⟩
  · rw [hd, he, hlen]
    exact h.doomed
  · intro i r' hr' ht
    rcases hget i r' hr' with ⟨-, rfl⟩ | hr
    · exact halive ht
    · exact h.alive i r' hr ht
  · intro i r' hr' hp
    rcases hget i r' hr' with ⟨-, rfl⟩ | hr
    · exact hfreed hp
    · exact h.freed i r' hr hp
  · rw [hc, hlen]
    exact h.held
  · intro c k hk hp hfin
    rw [hc] at hk
    obtain ⟨r₀, hr₀, hm⟩ := h.linked c k hk hp hfin
    rcases hput _ r₀ hr₀ with ⟨-, rfl, hr'⟩ | hr'
    · exact ⟨_, hr', hline c k hk hfin hm⟩
    · exact ⟨r₀, hr', hm⟩

/-- The functions of one queue change, but for the promises. -/
theorem ofUsers (h : TailInv s) (hq : s.queues[q]? = some r)
    (hterm : (f r).terminated = r.terminated) (halive : (f r).terminated = false → (f r).installed = true)
    (hfreed : (f r).pc = .freed → ∀ t, .promise t ∉ (f r).line)
    (hline : ∀ (c : Nat) (k : TailCall), s.calls[c]? = some k → k.finished = false → .user c ∈ r.line → .user c ∈ (f r).line)
    (hpend : ∀ t, (f r).waiting.countP (· = .promise t) = r.waiting.countP (· = .promise t))
    (hinv : ∀ t, (f r).running = some (.promise t true) ↔ r.running = some (.promise t true)) :
    TailInv (s.modifyQ q f) := by
  have hp : ∀ t, (s.modifyQ q f).pending t = s.pending t := by
    intro t
    have := pending_modifyQ (f := f) (t := t) hq
    rw [hpend] at this
    exact Nat.add_right_cancel this
  have hi : ∀ t, (s.modifyQ q f).invoking t = s.invoking t := by
    intro t
    have := invoking_modifyQ (f := f) (t := t) hq
    simp only [hinv] at this
    exact Nat.add_right_cancel this
  refine h.ofQueue hq rfl ⟨rfl, rfl, rfl⟩ hterm halive hfreed hline (fun t ht => ?_) fun t l hl => ?_
  · rw [hp, hi]
    exact h.absent t ht
  · exact (h.tails t l hl).congr (hp t) (hi t) fun c k hk hret => ⟨k, hk, hret⟩

theorem ofCalls (h : TailInv s) {cs : List TailCall}
    (hheld : ∀ (c : Nat) (k : TailCall), cs[c]? = some k → k.q < s.queues.length)
    (hlinked : ∀ (c : Nat) (k : TailCall), cs[c]? = some k → k.phase = .added ∨ k.phase = .returned → k.finished = false →
      ∃ r, s.queues[k.q]? = some r ∧ .user c ∈ r.line)
    (hret : ∀ (c : Nat) (k : TailCall), s.calls[c]? = some k → k.phase = .returned →
      ∃ k', cs[c]? = some k' ∧ k'.phase = .returned) : TailInv { s with calls := cs } :=
  ⟨h.nodup, h.entry, h.doomed, h.alive, h.freed, hheld, hlinked, h.absent,
    fun t l hl => (h.tails t l hl).congr rfl rfl hret⟩

theorem getElem?_modifyCall (s : TailSt) (c i : Nat) (g : TailCall → TailCall) :
    (s.modifyCall c g).calls[i]? = if c = i then s.calls[i]?.map g else s.calls[i]? := by
  rw [modifyCall, List.getElem?_modify]
  cases s.calls[i]? with
  | none =>
    split_ifs
    · rfl
    · rfl
  | some k =>
    split_ifs
    · rfl
    · rfl

theorem hold (h : TailInv s) {best : Bool} (hq : q < s.queues.length) : TailInv (s.hold q best) := by
  have hm : TailInv (s.modifyQ q (·.get best)) :=
    h.modifyQ fun r => ⟨rfl, rfl, rfl⟩
  have hlen : (s.modifyQ q (·.get best)).queues.length =
      s.queues.length := List.length_modify ..
  have hnew : ∀ (c : Nat) (k : TailCall), (s.calls ++ [⟨q, best, .held, false⟩])[c]? = some k →
      s.calls[c]? = some k ∨ k = ⟨q, best, .held, false⟩ := by
    intro c k hk
    rw [List.getElem?_append] at hk
    split_ifs at hk
    · exact .inl hk
    · exact .inr (List.mem_singleton.1 (List.mem_of_getElem? hk))
  refine hm.ofCalls (fun c k hk => ?_) (fun c k hk hp hfin => ?_) fun c k hk hret => ⟨k, ?_, hret⟩
  · rcases hnew c k hk with hk | rfl
    · exact hm.held c k hk
    · rw [hlen]
      exact hq
  · rcases hnew c k hk with hk | rfl
    · exact hm.linked c k hk hp hfin
    · exact absurd hp (by simp)
  · have hk : s.calls[c]? = some k := hk
    obtain ⟨hi, -⟩ := List.getElem?_eq_some_iff.1 hk
    rw [List.getElem?_append_left hi]
    exact hk

/-- A call moves on. -/
theorem modifyCall (h : TailInv s) {g : TailCall → TailCall} {k : TailCall} (hk : s.calls[c]? = some k)
    (hq : (g k).q = k.q) (hret : k.phase = .returned → (g k).phase = .returned)
    (hlinked : (g k).phase = .added ∨ (g k).phase = .returned → (g k).finished = false →
      ∃ r, s.queues[k.q]? = some r ∧ .user c ∈ r.line) : TailInv (s.modifyCall c g) := by
  have hget : ∀ (i : Nat) k', (s.modifyCall c g).calls[i]? = some k' → i = c ∧ k' = g k ∨ s.calls[i]? = some k' := by
    intro i k' hk'
    rw [getElem?_modifyCall] at hk'
    split_ifs at hk' with hi
    · subst hi
      rw [hk] at hk'
      exact .inl ⟨rfl, (Option.some.inj hk').symm⟩
    · exact .inr hk'
  refine h.ofCalls (fun i k' hk' => ?_) (fun i k' hk' hp hfin => ?_) fun i k' hk' hr => ?_
  · rcases hget i k' hk' with ⟨-, rfl⟩ | hk'
    · rw [hq]
      exact h.held c k hk
    · exact h.held i k' hk'
  · rcases hget i k' hk' with ⟨rfl, rfl⟩ | hk'
    · rw [hq]
      exact hlinked hp hfin
    · exact h.linked i k' hk' hp hfin
  · have hi := getElem?_modifyCall s c i g
    change (s.calls.modify c g)[i]? = _ at hi
    rw [hi]
    split_ifs with hci
    · subst hci
      rw [hk] at hk'
      cases hk'
      exact ⟨g k, by rw [hk]; rfl, hret hr⟩
    · exact ⟨k', hk', hr⟩

theorem line_add (r : TailQ) (fo : Fo) : (r.add fo).line = r.line ++ [fo] := by
  unfold TailQ.line TailQ.waiting TailQ.add
  rw [List.append_assoc, List.append_assoc]

theorem waiting_add (r : TailQ) (fo : Fo) : (r.add fo).waiting = r.waiting ++ [fo] := by
  unfold TailQ.waiting TailQ.add
  rw [List.append_assoc]

theorem add (h : TailInv s) {k : TailCall} (hk : s.calls[c]? = some k) (hheld : k.phase = .held) :
    TailInv ((s.modifyQ k.q (·.add (.user c))).modifyCall c fun k => { k with phase := .added }) := by
  obtain ⟨r, hr⟩ : ∃ r, s.queues[k.q]? = some r := ⟨_, List.getElem?_eq_getElem (h.held c k hk)⟩
  have hq : TailInv (s.modifyQ k.q (·.add (.user c))) := by
    refine h.ofUsers hr rfl (h.alive k.q r hr) (fun hp t hm => ?_) (fun c' _ _ _ hm => ?_) (fun t => ?_) fun t => Iff.rfl
    · rw [line_add] at hm
      rcases List.mem_append.1 hm with hm | hm
      · exact h.freed k.q r hr hp t hm
      · cases List.mem_singleton.1 hm
    · rw [line_add]
      exact List.mem_append_left _ hm
    · rw [waiting_add, List.countP_append]
      rfl
  refine hq.modifyCall hk rfl (fun hp => ?_) fun _ _ => ⟨r.add (.user c), ?_, ?_⟩
  · cases hheld.symm.trans hp
  · rw [getElem?_modifyQ, if_pos rfl, hr]
    rfl
  · rw [line_add]
    exact List.mem_append_right _ List.mem_cons_self

theorem tailStart (h : TailInv s) (hasName : Bool) : TailInv { s with tails := s.tails ++ [⟨.started, hasName, 0, 0, 0, 0,
    (List.range s.calls.length).filter fun c => s.calls[c]?.any (·.phase = .returned), []⟩] } := by
  refine ⟨h.nodup, h.entry, h.doomed, h.alive, h.freed, h.held, h.linked, fun t ht => ?_, fun t l hl => ?_⟩
  · refine h.absent t (Nat.le_trans (Nat.le_succ _) ?_)
    have hlen : (s.tails ++ [(⟨.started, hasName, 0, 0, 0, 0, (List.range s.calls.length).filter fun c =>
      s.calls[c]?.any (·.phase = .returned), []⟩ : Tail)]).length = s.tails.length + 1 := List.length_append
    rw [← Nat.succ_eq_add_one] at hlen
    exact hlen ▸ ht
  · dsimp only at hl
    rcases getElem?_concat_cases hl with ⟨-, hl⟩ | ⟨rfl, rfl⟩
    · exact (h.tails t l hl).congr rfl rfl fun c k hk hret => ⟨k, hk, hret⟩
    · obtain ⟨hp, hi⟩ := h.absent _ (Nat.le_refl _)
      refine ⟨fun _ => ⟨hp, hi, rfl⟩, fun _ => rfl, nofun, ?_, fun c hc => ?_⟩
      · change 0 + (if hasName then s.invoking s.tails.length else 0) = if hasName then 0 else 0
        rw [hi]
        exact Nat.zero_add _
      · obtain ⟨-, hany⟩ := List.mem_filter.1 hc
        obtain ⟨k, hk, hret⟩ := (Option.any_eq_true ..).1 hany
        exact ⟨k, hk, of_decide_eq_true hret⟩

theorem getElem?_modifyTail (s : TailSt) (t i : Nat) (g : Tail → Tail) :
    (s.modifyTail t g).tails[i]? = if t = i then s.tails[i]?.map g else s.tails[i]? := by
  rw [modifyTail, List.getElem?_modify]
  cases s.tails[i]? with
  | none =>
    split_ifs
    · rfl
    · rfl
  | some l =>
    split_ifs
    · rfl
    · rfl

theorem modifyTail (h : TailInv s) {g : Tail → Tail} {l : Tail} (hl : s.tails[t]? = some l)
    (hg : TailRec s t l → TailRec s t (g l)) : TailInv (s.modifyTail t g) := by
  refine ⟨h.nodup, h.entry, h.doomed, h.alive, h.freed, h.held, h.linked, fun i hi => ?_, fun i l' hl' => ?_⟩
  · rw [TailSt.modifyTail, List.length_modify] at hi
    exact h.absent i hi
  · rw [getElem?_modifyTail] at hl'
    split_ifs at hl' with hti
    · subst hti
      rw [hl] at hl'
      obtain rfl := Option.some.inj hl'
      exact (hg (h.tails t l hl)).congr rfl rfl fun c k hk hret => ⟨k, hk, hret⟩
    · exact (h.tails i l' hl').congr rfl rfl fun c k hk hret => ⟨k, hk, hret⟩

end TailInv

/-- The promises of `t` are added to the queues `es`. -/
structure Promised (s s' : TailSt) (t : Nat) (es : List Nat) : Prop where
  other : s'.entries = s.entries ∧ s'.doomed = s.doomed ∧ s'.calls = s.calls ∧ s'.tails = s.tails
  length : s'.queues.length = s.queues.length
  queue : ∀ (i : Nat) (r : TailQ), s.queues[i]? = some r → ∃ r' n, s'.queues[i]? = some r' ∧
    r'.line = r.line ++ List.replicate n (.promise t) ∧ r'.terminated = r.terminated ∧ r'.pc = r.pc ∧
    r'.running = r.running ∧ r'.linked = r.linked ++ List.replicate n (.promise t) ∧ (0 < n ↔ i ∈ es)
  pending : s'.pending t = s.pending t + es.length
  pending_ne : ∀ i, i ≠ t → s'.pending i = s.pending i
  invoking : ∀ i, s'.invoking i = s.invoking i

theorem promised_foldl (es : List PoolEntry) (s : TailSt) (h : ∀ e ∈ es, e.q < s.queues.length) :
    Promised s (es.foldl (fun s e => s.modifyQ e.q (·.add (.promise t))) s) t (es.map PoolEntry.q) := by
  induction es generalizing s with
  | nil =>
    refine ⟨⟨rfl, rfl, rfl, rfl⟩, rfl, fun i r hr => ⟨r, 0, hr, ?_, rfl, rfl, rfl, ?_, by simp⟩, rfl, fun _ _ => rfl,
      fun _ => rfl⟩
    · exact (List.append_nil _).symm
    · exact (List.append_nil _).symm
  | cons e es ih =>
    obtain ⟨r₀, hr₀⟩ : ∃ r, s.queues[e.q]? = some r := ⟨_, List.getElem?_eq_getElem (h e List.mem_cons_self)⟩
    have hlen : (s.modifyQ e.q (·.add (.promise t))).queues.length = s.queues.length := List.length_modify ..
    have hrest := ih (s.modifyQ e.q (·.add (.promise t))) fun e' he' => by
      rw [hlen]
      exact h e' (List.mem_cons_of_mem _ he')
    have hpend : ∀ i, (s.modifyQ e.q (·.add (.promise t))).pending i = s.pending i + if i = t then 1 else 0 := by
      intro i
      have hp := pending_modifyQ (f := (·.add (.promise t))) (t := i) hr₀
      rw [TailInv.waiting_add, List.countP_append] at hp
      have hone : [Fo.promise t].countP (· = .promise i) = if i = t then 1 else 0 := by
        by_cases hi : i = t
        · simp [hi]
        · have hne : t ≠ i := fun h => hi h.symm
          simp [hi, hne]
      rw [hone] at hp
      omega
    refine ⟨hrest.other, hrest.length.trans hlen, fun i r hr => ?_, ?_, fun i hi => ?_, fun i => ?_⟩
    · by_cases hi : e.q = i
      · subst hi
        cases hr₀.symm.trans hr
        have hr₁ : (s.modifyQ e.q (·.add (.promise t))).queues[e.q]? = some (r₀.add (.promise t)) := by
          rw [getElem?_modifyQ, if_pos rfl, hr₀]
          rfl
        obtain ⟨r', n, hr', hline, hterm, hpc, hrun, hlink, -⟩ := hrest.queue _ _ hr₁
        refine ⟨r', n + 1, hr', ?_, hterm, hpc, hrun, ?_, by simp⟩
        · rw [hline, TailInv.line_add, List.append_assoc]
          rfl
        · rw [hlink]
          change r₀.linked ++ [Fo.promise t] ++ _ = _
          rw [List.append_assoc]
          rfl
      · have hr₁ : (s.modifyQ e.q (·.add (.promise t))).queues[i]? = some r := by
          rw [getElem?_modifyQ, if_neg hi]
          exact hr
        obtain ⟨r', n, hr', hline, hterm, hpc, hrun, hlink, hn⟩ := hrest.queue _ _ hr₁
        refine ⟨r', n, hr', hline, hterm, hpc, hrun, hlink, ?_⟩
        rw [hn, List.map_cons, List.mem_cons]
        have hne : i ≠ e.q := fun h => hi h.symm
        simp [hne]
    · have hlast := hrest.pending
      rw [hpend, if_pos rfl] at hlast
      rw [List.map_cons, List.length_cons]
      refine hlast.trans ?_
      omega
    · have hlast := hrest.pending_ne i hi
      rw [hpend, if_neg hi] at hlast
      exact hlast
    · have hinv := invoking_modifyQ (f := (·.add (.promise t))) (t := i) hr₀
      exact (hrest.invoking i).trans (Nat.add_right_cancel hinv)

namespace TailInv

/-- The tail call with the lock. -/
theorem queued (h : TailInv s) {l : Tail} (hl : s.tails[t]? = some l) (hp : l.phase = .started) (hne : s.entries ≠ []) :
    TailInv (s.entries.foldl (fun s e => s.modifyQ e.q (·.add (.promise t)))
      (s.modifyTail t fun l => { l with phase := .queued, count := s.entries.length })) := by
  have hlt : ∀ e ∈ s.entries, e.q < s.queues.length := by
    intro e he
    obtain ⟨r, hr, -⟩ := h.entry e.q (List.mem_map_of_mem he)
    exact (List.getElem?_eq_some_iff.1 hr).1
  have hprom := promised_foldl (t := t) s.entries
    (s.modifyTail t fun l => { l with phase := .queued, count := s.entries.length }) hlt
  generalize hs' : s.entries.foldl (fun s e => s.modifyQ e.q (·.add (.promise t)))
    (s.modifyTail t fun l => { l with phase := .queued, count := s.entries.length }) = s' at hprom ⊢
  obtain ⟨he, hd, hc, ht⟩ := hprom.other
  have hback : ∀ (i : Nat) r', s'.queues[i]? = some r' → ∃ r n, s.queues[i]? = some r ∧
      r'.line = r.line ++ List.replicate n (.promise t) ∧ r'.terminated = r.terminated ∧ r'.pc = r.pc ∧
      (0 < n ↔ i ∈ s.entries.map PoolEntry.q) := by
    intro i r' hr'
    have hi : i < s.queues.length := by
      have := (List.getElem?_eq_some_iff.1 hr').1
      rw [hprom.length] at this
      exact this
    obtain ⟨r'', n, hr'', hline, hterm, hpc, -, -, hn⟩ := hprom.queue i _ (List.getElem?_eq_getElem hi)
    cases hr'.symm.trans hr''
    exact ⟨_, n, List.getElem?_eq_getElem hi, hline, hterm, hpc, hn⟩
  have hrec := h.tails t l hl
  obtain ⟨hpend, hinv, hinvoked⟩ := hrec.early (by rw [hp]; exact nofun)
  refine ⟨?_, ?_, ?_, ?_, ?_, ?_, ?_, ?_, ?_⟩
  · rw [he]
    exact h.nodup
  · intro q hq
    rw [he] at hq
    obtain ⟨r, hr, hterm⟩ := h.entry q hq
    obtain ⟨r', n, hr', -, hterm', -⟩ := hprom.queue q r hr
    exact ⟨r', hr', hterm'.trans hterm⟩
  · rw [hd, he, hprom.length]
    exact h.doomed
  · intro q r' hr' hterm
    obtain ⟨r, n, hr, -, hterm', hpc, -⟩ := hback q r' hr'
    have hal := h.alive q r hr (hterm'.symm.trans hterm)
    unfold TailQ.installed at hal ⊢
    rw [hpc]
    exact hal
  · intro q r' hr' hfreed i
    obtain ⟨r, n, hr, hline, -, hpc, hn⟩ := hback q r' hr'
    have hold := h.freed q r hr (hpc.symm.trans hfreed)
    -- what is in the pool is not freed
    have hz : n = 0 := by
      by_contra hz
      obtain ⟨r₀, hr₀, hterm⟩ := h.entry q (hn.1 (Nat.pos_of_ne_zero hz))
      cases hr.symm.trans hr₀
      have hal := h.alive q r hr hterm
      rw [TailQ.installed, hpc.symm.trans hfreed] at hal
      cases hal
    rw [hline, hz]
    exact fun hm => hold i (by simpa using hm)
  · rw [hc, hprom.length]
    exact h.held
  · intro c k hk hphase hfin
    rw [hc] at hk
    obtain ⟨r, hr, hm⟩ := h.linked c k hk hphase hfin
    obtain ⟨r', n, hr', hline, -⟩ := hprom.queue k.q r hr
    refine ⟨r', hr', ?_⟩
    rw [hline]
    exact List.mem_append_left _ hm
  · intro i hi
    rw [ht, TailSt.modifyTail, List.length_modify] at hi
    have hne : i ≠ t := by
      rintro rfl
      rw [List.getElem?_eq_none hi] at hl
      cases hl
    rw [hprom.pending_ne i hne, hprom.invoking]
    exact h.absent i hi
  · intro i l' hl'
    rw [ht, getElem?_modifyTail] at hl'
    split_ifs at hl' with hti
    · subst hti
      rw [hl] at hl'
      obtain rfl := Option.some.inj hl'
      have hpend' : s'.pending t = s.entries.length := by
        have hp' := hprom.pending
        rw [List.length_map] at hp'
        refine hp'.trans ?_
        change s.pending t + _ = _
        rw [hpend, Nat.zero_add]
      have hpos : s.entries.length ≠ 0 := fun h0 => hne (List.length_eq_zero_iff.1 h0)
      refine ⟨fun h' => absurd rfl h', nofun, fun _ => ⟨hpend'.symm, ?_, ?_⟩, ?_, fun c hcb => ?_⟩
      · dsimp only
        rw [if_neg hpos]
        exact hinvoked
      · exact (hrec.started hp).trans hinvoked.symm
      · have hname := hrec.name
        rw [hprom.invoking]
        exact hname
      · obtain ⟨k, hk, hret⟩ := hrec.before c hcb
        exact ⟨k, by rw [hc]; exact hk, hret⟩
    · have hne' : i ≠ t := fun h' => hti h'.symm
      refine (h.tails i l' hl').congr ?_ ?_ fun c k hk hret => ⟨k, by rw [hc]; exact hk, hret⟩
      · exact hprom.pending_ne i hne'
      · exact hprom.invoking i

/-- The function of a call ends. -/
theorem finishUser (h : TailInv s) (hq : s.queues[q]? = some r) (hrun : r.running = some (.user c)) :
    TailInv ((s.modifyCall c fun k => { k with finished := true }).modifyQ q TailQ.leave) := by
  have hcall : TailInv (s.modifyCall c fun k => { k with finished := true }) := by
    rcases hk : s.calls[c]? with _ | k
    · have hsame : s.modifyCall c (fun k => { k with finished := true }) = s := by
        unfold TailSt.modifyCall
        rw [List.modify_eq_set_getElem?, hk]
        rfl
      rw [hsame]
      exact h
    · exact h.modifyCall hk rfl id fun _ => nofun
  refine hcall.ofUsers hq rfl (h.alive q r hq) (fun hp t hm => ?_) (fun c' k' hk' hfin hm => ?_) (fun t => rfl) fun t => ?_
  · refine h.freed q r hq hp t ?_
    unfold TailQ.line at hm ⊢
    exact List.mem_append_right _ hm
  · unfold TailQ.line at hm ⊢
    rw [hrun] at hm
    rcases List.mem_cons.1 hm with heq | hm
    · obtain rfl : c' = c := Fo.user.inj heq
      rw [getElem?_modifyCall, if_pos rfl] at hk'
      obtain ⟨k, -, rfl⟩ := Option.map_eq_some_iff.1 hk'
      cases hfin
    · exact hm
  · rw [hrun]
    exact ⟨nofun, nofun⟩

theorem finishPromise (h : TailInv s) (hq : s.queues[q]? = some r) (hrun : r.running = some (.promise t false)) :
    TailInv (s.modifyQ q TailQ.leave) := by
  refine h.ofUsers hq rfl (h.alive q r hq) (fun hp t hm => ?_) (fun c' k' _ _ hm => ?_) (fun t => rfl) fun t => ?_
  · refine h.freed q r hq hp t ?_
    unfold TailQ.line at hm ⊢
    exact List.mem_append_right _ hm
  · unfold TailQ.line at hm ⊢
    rw [hrun] at hm
    rcases List.mem_cons.1 hm with heq | hm
    · cases heq
    · exact hm
  · rw [hrun]
    exact ⟨nofun, nofun⟩

/-- The last promise ends, after the function. -/
theorem finishLast (h : TailInv s) (hq : s.queues[q]? = some r) (hrun : r.running = some (.promise t true)) :
    TailInv ((s.modifyTail t fun l => { l with nameFreed := if l.hasName then l.nameFreed + 1 else l.nameFreed }).modifyQ q TailQ.leave) := by
  generalize hs' : (s.modifyTail t fun l => { l with nameFreed := if l.hasName then l.nameFreed + 1 else l.nameFreed }).modifyQ
    q TailQ.leave = s'
  have hqueues : s'.queues = (s.modifyQ q TailQ.leave).queues := by
    rw [← hs']
    rfl
  have hpend : ∀ i, s'.pending i = s.pending i := by
    intro i
    have hp := pending_modifyQ (f := TailQ.leave) (t := i) hq
    have hp' : s'.pending i + r.waiting.countP (· = .promise i) = s.pending i + r.waiting.countP (· = .promise i) := by
      unfold pending at hp ⊢
      rw [hqueues]
      exact hp
    exact Nat.add_right_cancel hp'
  have hinv : ∀ i, s'.invoking i + (if i = t then 1 else 0) = s.invoking i := by
    intro i
    have hi := invoking_modifyQ (f := TailQ.leave) (t := i) hq
    unfold invoking at hi ⊢
    rw [hqueues]
    rw [hrun] at hi
    simpa [eq_comm, TailQ.leave] using hi
  have htails : s'.tails = (s.modifyTail t fun l =>
      { l with nameFreed := if l.hasName then l.nameFreed + 1 else l.nameFreed }).tails := by
    rw [← hs']
    rfl
  refine h.ofQueue (f := TailQ.leave) hq hqueues ?_ rfl (h.alive q r hq)
    (fun hp t hm => ?_) (fun c' k' _ _ hm => ?_) (fun i hi => ?_) fun i l hl => ?_
  · rw [← hs']
    exact ⟨rfl, rfl, rfl⟩
  · refine h.freed q r hq hp t ?_
    unfold TailQ.line at hm ⊢
    exact List.mem_append_right _ hm
  · unfold TailQ.line at hm ⊢
    rw [hrun] at hm
    rcases List.mem_cons.1 hm with heq | hm
    · cases heq
    · exact hm
  · rw [htails, TailSt.modifyTail, List.length_modify] at hi
    obtain ⟨hp, hi'⟩ := h.absent i hi
    have hone := hinv i
    exact ⟨(hpend i).trans hp, by omega⟩
  · rw [htails, getElem?_modifyTail] at hl
    have hcalls : s'.calls = s.calls := by
      rw [← hs']
      rfl
    split_ifs at hl with hti
    · subst hti
      obtain ⟨l₀, hl₀, rfl⟩ := Option.map_eq_some_iff.1 hl
      have hrec := h.tails t l₀ hl₀
      have hone := hinv t
      rw [if_pos rfl] at hone
      refine ⟨fun hp => ?_, hrec.started, fun hp => ?_, ?_, fun c hc => ?_⟩
      · have := (hrec.early hp).2.1
        omega
      · rw [hpend]
        exact hrec.count hp
      · have hname := hrec.name
        dsimp only at hname ⊢
        rcases hn : l₀.hasName
        · rw [hn] at hname
          simpa using hname
        · rw [hn] at hname
          simp only [if_true] at hname ⊢
          omega
      · obtain ⟨k, hk, hret⟩ := hrec.before c hc
        exact ⟨k, by rw [hcalls]; exact hk, hret⟩
    · have hone := hinv i
      rw [if_neg fun h' => hti h'.symm] at hone
      exact (h.tails i l hl).congr (hpend i) hone fun c k hk hret => ⟨k, by rw [hcalls]; exact hk, hret⟩

theorem line_begin {w : Work} {rest : List Fo} (hrun : r.running = none) (hbatch : r.batch = w.fo :: rest) :
    ({ r with running := some w, batch := rest } : TailQ).line = r.line ∧ r.waiting = w.fo :: rest ++ r.linked := by
  unfold TailQ.line TailQ.waiting
  rw [hrun, hbatch]
  exact ⟨rfl, rfl⟩

theorem beginUser (h : TailInv s) {rest : List Fo} (hq : s.queues[q]? = some r) (hrun : r.running = none)
    (hbatch : r.batch = .user c :: rest) : TailInv (s.modifyQ q fun r => { r with running := some (.user c), batch := rest }) := by
  obtain ⟨hline, hwait⟩ := line_begin (w := .user c) hrun hbatch
  refine h.ofUsers hq rfl (h.alive q r hq) (fun hp t => ?_) (fun c' k' _ _ hm => ?_) (fun t => ?_) fun t => ?_
  · rw [hline]
    exact h.freed q r hq hp t
  · rw [hline]
    exact hm
  · rw [hwait]
    rfl
  · rw [hrun]
    exact ⟨nofun, nofun⟩

/-- A promise begins: of its tail call one less is pending. -/
theorem beginPromise (h : TailInv s) {rest : List Fo} (hq : s.queues[q]? = some r) (hrun : r.running = none)
    (hbatch : r.batch = .promise t :: rest) : ∃ l, s.tails[t]? = some l ∧ l.phase = .queued ∧ 0 < l.count ∧
      ∀ (s' : TailSt) (w : Bool), s'.queues = (s.modifyQ q fun r => { r with running := some (.promise t w), batch := rest }).queues →
        s'.pending t + 1 = s.pending t ∧ (∀ i, i ≠ t → s'.pending i = s.pending i) ∧
        ∀ i, s'.invoking i = s.invoking i + if i = t ∧ w then 1 else 0 := by
  obtain ⟨-, hwait⟩ := line_begin (w := .promise t false) hrun hbatch
  have hmem : ∀ i, r.waiting.countP (· = .promise i) = (rest ++ r.linked).countP (· = .promise i) + if i = t then 1 else 0 := by
    intro i
    rw [hwait]
    change (Fo.promise t :: (rest ++ r.linked)).countP _ = _
    rw [List.countP_cons]
    simp [eq_comm]
  have hpos : 0 < s.pending t := by
    unfold pending
    rw [List.countP_pos_iff]
    refine ⟨.promise t, List.mem_flatten.2 ⟨r.waiting, List.mem_map.2 ⟨r, List.mem_of_getElem? hq, rfl⟩, ?_⟩, by simp⟩
    rw [hwait]
    exact List.mem_cons_self
  have hlt : t < s.tails.length := by
    by_contra hlt
    rw [(h.absent t (Nat.le_of_not_lt hlt)).1] at hpos
    exact Nat.lt_irrefl _ hpos
  have hl : s.tails[t]? = some s.tails[t] := List.getElem?_eq_getElem hlt
  have hrec := h.tails t _ hl
  have hphase : s.tails[t].phase = .queued := by
    by_contra hp
    rw [(hrec.early hp).1] at hpos
    exact Nat.lt_irrefl _ hpos
  refine ⟨_, hl, hphase, ?_, fun s' w hs' => ?_⟩
  · rw [(hrec.count hphase).1]
    exact hpos
  · have hpend : ∀ i, s'.pending i + (if i = t then 1 else 0) = s.pending i := by
      intro i
      have hp := pending_modifyQ (f := fun r => { r with running := some (.promise t w), batch := rest }) (t := i) hq
      rw [hmem i] at hp
      unfold pending at hp ⊢
      rw [hs']
      change _ + (_ + _) = _ + (rest ++ r.linked).countP _ at hp
      omega
    refine ⟨?_, fun i hi => ?_, fun i => ?_⟩
    · have := hpend t
      rwa [if_pos rfl] at this
    · have := hpend i
      rwa [if_neg hi] at this
    · have hi := invoking_modifyQ (f := fun r => { r with running := some (.promise t w), batch := rest }) (t := i) hq
      rw [hrun] at hi
      unfold invoking at hi ⊢
      rw [hs']
      simpa [eq_comm] using hi

/-- The record of a tail call after one of its promises has begun. -/
def began (s : TailSt) (l : Tail) : Tail :=
  if l.count = 1 then
    { l with
      count := 0
      countFreed := l.countFreed + 1
      invoked := l.invoked + 1
      early := l.before.filter fun c => !s.finished c }
  else { l with count := l.count - 1 }

theorem begin_eq {l : Tail} (hl : s.tails[t]? = some l) :
    (s.begin (.promise t)).1 = s.modifyTail t (began s) ∧ (s.begin (.promise t)).2 = .promise t (l.count = 1) := by
  have hset : ∀ g : Tail → Tail, s.modifyTail t g = { s with tails := s.tails.set t (g l) } := by
    intro g
    unfold TailSt.modifyTail
    rw [modify_of_getElem? hl]
  unfold TailSt.begin
  dsimp only
  rw [hl, Option.any_some, hset, hset]
  by_cases hc : l.count = 1
  · rw [if_pos (decide_eq_true hc)]
    refine ⟨?_, by rw [decide_eq_true hc]⟩
    have hget : (s.tails.set t { l with count := l.count - 1 })[t]? = some { l with count := l.count - 1 } :=
      getElem?_set_self hl
    unfold TailSt.modifyTail
    dsimp only
    rw [modify_of_getElem? hget, List.set_set]
    unfold began
    rw [if_pos hc, hc]
    rfl
  · rw [if_neg (by simpa using hc)]
    refine ⟨?_, by rw [decide_eq_false hc]⟩
    unfold began
    rw [if_neg hc]

theorem beginTail (h : TailInv s) {rest : List Fo} (hq : s.queues[q]? = some r) (hrun : r.running = none)
    (hbatch : r.batch = .promise t :: rest) :
    TailInv ((s.begin (.promise t)).1.modifyQ q fun r => { r with running := some (s.begin (.promise t)).2, batch := rest }) := by
  obtain ⟨l, hl, hphase, hpos, hcounts⟩ := h.beginPromise hq hrun hbatch
  obtain ⟨hs₁, hw⟩ := begin_eq hl
  rw [hs₁, hw]
  generalize hs' : (s.modifyTail t (began s)).modifyQ q
    (fun r => { r with running := some (.promise t (l.count = 1)), batch := rest }) = s'
  have hqueues : s'.queues =
      (s.modifyQ q fun r => { r with running := some (.promise t (l.count = 1)), batch := rest }).queues := by
    rw [← hs']
    rfl
  have htails : s'.tails = (s.modifyTail t (began s)).tails := by
    rw [← hs']
    rfl
  have hcalls : s'.calls = s.calls := by
    rw [← hs']
    rfl
  obtain ⟨hpend, hpend', hinv⟩ := hcounts s' (l.count = 1) hqueues
  obtain ⟨hline, -⟩ := line_begin (w := .promise t (l.count = 1)) hrun hbatch
  refine h.ofQueue (f := fun r => { r with running := some (.promise t (l.count = 1)), batch := rest }) hq hqueues ?_ rfl
    (h.alive q r hq) (fun hp i => ?_) (fun c' k' _ _ hm => ?_) (fun i hi => ?_) fun i l' hl' => ?_
  · rw [← hs']
    exact ⟨rfl, rfl, rfl⟩
  · rw [hline]
    exact h.freed q r hq hp i
  · rw [hline]
    exact hm
  · rw [htails, TailSt.modifyTail, List.length_modify] at hi
    have hne : i ≠ t := by
      rintro rfl
      rw [List.getElem?_eq_none hi] at hl
      cases hl
    rw [hpend' i hne, hinv, if_neg fun h' => hne h'.1]
    exact h.absent i hi
  · rw [htails, getElem?_modifyTail] at hl'
    split_ifs at hl' with hti
    · subst hti
      rw [hl] at hl'
      obtain rfl := Option.some.inj hl'
      have hrec := h.tails t l hl
      obtain ⟨hcount, hinvoked, hfreed⟩ := hrec.count hphase
      have hin := hinv t
      have hname := hrec.name
      unfold began
      by_cases hc : l.count = 1
      · rw [if_pos hc]
        rw [if_pos ⟨rfl, decide_eq_true hc⟩] at hin
        rw [hc] at hinvoked
        have hz : l.invoked = 0 := hinvoked
        refine ⟨fun h' => absurd hphase h', fun h' => absurd (hphase.symm.trans h') nofun, fun _ => ⟨?_, ?_, ?_⟩, ?_,
          fun c hcb => ?_⟩
        · dsimp only
          omega
        · dsimp only
          rw [hz]
          rfl
        · dsimp only
          rw [hfreed]
        · dsimp only
          rw [hin]
          rcases hn : l.hasName
          · rw [hn] at hname
            simpa using hname
          · rw [hn] at hname
            simp only [if_true] at hname ⊢
            omega
        · obtain ⟨k, hk, hret⟩ := hrec.before c hcb
          exact ⟨k, by rw [hcalls]; exact hk, hret⟩
      · rw [if_neg hc]
        rw [if_neg fun h' => hc (of_decide_eq_true h'.2)] at hin
        refine ⟨fun h' => absurd hphase h', fun h' => absurd (hphase.symm.trans h') nofun, fun _ => ⟨?_, ?_, hfreed⟩, ?_,
          fun c hcb => ?_⟩
        · dsimp only
          omega
        · have hne : l.count - 1 ≠ 0 := by omega
          have hne' : l.count ≠ 0 := by omega
          dsimp only
          rw [if_neg hne]
          rw [if_neg hne'] at hinvoked
          exact hinvoked
        · rw [hin]
          exact hname
        · obtain ⟨k, hk, hret⟩ := hrec.before c hcb
          exact ⟨k, by rw [hcalls]; exact hk, hret⟩
    · have hne : i ≠ t := fun h' => hti h'.symm
      refine (h.tails i l' hl').congr (hpend' i hne) ?_ fun c k hk hret => ⟨k, by rw [hcalls]; exact hk, hret⟩
      rw [hinv, if_neg fun h' => hne h'.1]
      rfl

theorem moves (h : TailInv s) (hq : s.queues[q]? = some r) (hline : (f r).line = r.line)
    (hwait : (f r).waiting = r.waiting) (hrun : (f r).running = r.running) (hterm : (f r).terminated = r.terminated)
    (halive : (f r).terminated = false → (f r).installed = true) (hfreed : (f r).pc = .freed → r.line = []) :
    TailInv (s.modifyQ q f) := by
  refine h.ofUsers hq hterm halive (fun hp t => ?_) (fun c' k' _ _ hm => ?_) (fun t => ?_) fun t => ?_
  · rw [hline, hfreed hp]
    exact List.not_mem_nil
  · rw [hline]
    exact hm
  · rw [hwait]
  · rw [hrun]

theorem line_take (hbatch : r.batch = []) : r.take.waiting = r.waiting ∧ r.take.line = r.line := by
  unfold TailQ.line TailQ.waiting TailQ.take
  rw [hbatch, List.append_nil]
  exact ⟨rfl, rfl⟩

theorem threadStep (h : TailInv s) (hq : s.queues[q]? = some r) (hs : s.threadStep q r = some s') : TailInv s' := by
  unfold TailSt.threadStep at hs
  split at hs
  · next _ w hrun =>
    obtain rfl := Option.some.inj hs
    rcases w with c | ⟨t, last⟩
    · exact h.finishUser hq hrun
    · rcases last
      · exact h.finishPromise hq hrun
      · exact h.finishLast hq hrun
  · next fo rest hrun hbatch =>
    obtain rfl := Option.some.inj hs
    rcases fo with c | t
    · exact h.beginUser hq hrun hbatch
    · exact h.beginTail hq hrun hbatch
  · next hrun hbatch =>
    obtain ⟨hwait, hline⟩ := line_take hbatch
    have hnot : r.pc = .usage ∨ r.pc = .final → r.terminated = true := by
      intro hp
      by_contra ht
      have hal := h.alive q r hq ((Bool.not_eq_true _).mp ht)
      rcases hp with hp | hp
      · rw [TailQ.installed, hp] at hal
        cases hal
      · rw [TailQ.installed, hp] at hal
        cases hal
    split at hs
    · next hpc =>
      obtain rfl := Option.some.inj hs
      exact h.moves hq hline hwait rfl rfl (fun _ => rfl) nofun
    · next hpc =>
      obtain rfl := Option.some.inj hs
      refine h.moves hq rfl rfl rfl rfl (fun ht => ?_) fun hp => ?_
      · have ht : r.terminated = false := ht
        rw [TailQ.installed, ht]
        rfl
      · dsimp only at hp
        split_ifs at hp
    · next hpc =>
      obtain rfl := Option.some.inj hs
      have hterm := hnot (.inl hpc)
      refine h.moves hq ?_ ?_ ?_ ?_ ?_ ?_
      all_goals split_ifs
      · exact hline
      · rfl
      · exact hwait
      · rfl
      · rfl
      · rfl
      · rfl
      · rfl
      · intro ht
        cases hterm.symm.trans ht
      · intro ht
        cases hterm.symm.trans ht
      · intro hp
        cases hpc.symm.trans hp
      · exact nofun
    · next hpc =>
      obtain rfl := Option.some.inj hs
      have hterm := hnot (.inr hpc)
      refine h.moves hq ?_ ?_ ?_ ?_ ?_ ?_
      all_goals split_ifs with hnil
      · rfl
      · exact hline
      · rfl
      · exact hwait
      · rfl
      · rfl
      · rfl
      · rfl
      · intro ht
        cases hterm.symm.trans ht
      · intro ht
        cases hterm.symm.trans ht
      · intro _
        unfold TailQ.line TailQ.waiting
        rw [hrun, hbatch, hnil]
        rfl
      · intro hp
        cases hpc.symm.trans hp
    · cases hs

theorem init (poolSize : Nat) : TailInv (init poolSize) :=
  ⟨List.nodup_nil, nofun, nofun, nofun, nofun, nofun, nofun, fun _ _ => ⟨rfl, rfl⟩, nofun⟩

theorem findBestQ_mem (hq : s.findBestQ = some q) : q ∈ s.entries.map PoolEntry.q := by
  have hfold : ∀ g : Option Nat → PoolEntry → Option Nat, (∀ best e, g best e = some e.q ∨ g best e = best) →
      ∀ (es : List PoolEntry) (best : Option Nat), es.foldl g best = some q → best = some q ∨ q ∈ es.map PoolEntry.q := by
    intro g hg es
    induction es with
    | nil => exact fun best hb => .inl hb
    | cons e es ih =>
      intro best hb
      rw [List.map_cons, List.mem_cons]
      rcases ih _ hb with hb | hb
      · rcases hg best e with he | he
        · exact .inr (.inl (Option.some.inj (he.symm.trans hb)).symm)
        · exact .inl (he.symm.trans hb)
      · exact .inr (.inr hb)
  refine (hfold _ (fun best e => ?_) s.entries none hq).resolve_left fun h => by cases h
  rcases best with _ | b
  · exact .inl rfl
  · dsimp only
    split_ifs
    · exact .inl rfl
    · exact .inr rfl

theorem bestQGet (h : TailInv s) {created : Bool} (hs : s.bestQGet created = some s') : TailInv s' := by
  have hnew : TailInv (s.createAdd.hold s.queues.length true) := by
    refine h.createAdd.hold ?_
    have hlen : s.createAdd.queues.length = s.queues.length + 1 := List.length_append
    rw [hlen]
    exact Nat.lt_succ_self _
  unfold TailSt.bestQGet at hs
  split at hs
  · split_ifs at hs
    obtain rfl := Option.some.inj hs
    exact hnew
  · next q hq =>
    split_ifs at hs
    · obtain rfl := Option.some.inj hs
      exact hnew
    · obtain rfl := Option.some.inj hs
      obtain ⟨r, hr, -⟩ := h.entry q (findBestQ_mem hq)
      exact h.hold (List.getElem?_eq_some_iff.1 hr).1

theorem alloc (h : TailInv s) {created : Bool} (hs : s.alloc created = some s') : TailInv s' := by
  have hif : ∀ (q : Nat) (e : PoolEntry), (if e.q = q then { e with usage := e.usage + 1 } else e).q = e.q := by
    intro q e
    split_ifs
    · rfl
    · rfl
  unfold TailSt.alloc at hs
  dsimp only at hs
  split at hs
  · split_ifs at hs
    obtain rfl := Option.some.inj hs
    exact h.createAdd.mapEntries (hif _)
  · split_ifs at hs
    · obtain rfl := Option.some.inj hs
      exact h.createAdd.mapEntries (hif _)
    · obtain rfl := Option.some.inj hs
      exact h.mapEntries (hif _)

theorem tailQueue (h : TailInv s) {l : Tail} {created : Bool} (hl : s.tails[t]? = some l) (hp : l.phase = .started) :
    TailInv (s.tailQueue t created) := by
  unfold TailSt.tailQueue
  by_cases hfail : s.entries = [] ∧ !created
  · rw [if_pos hfail]
    refine h.modifyTail hl fun hrec => ⟨fun _ => hrec.early (by rw [hp]; exact nofun), nofun, nofun, hrec.name, hrec.before⟩
  · rw [if_neg hfail]
    by_cases hnil : s.entries = []
    · rw [if_pos hnil]
      exact h.createAdd.queued hl hp (by unfold TailSt.createAdd; simp)
    · rw [if_neg hnil]
      exact h.queued hl hp hnil

theorem step {a : TailAct} (h : TailInv s) (hs : s.step a = some s') : TailInv s' := by
  rcases a with created | q | c | c | c | c | created | q | _ | q | _ | hasName | ⟨t, created⟩ | q
  · exact h.bestQGet hs
  · simp only [TailSt.step] at hs
    split at hs
    · next r hr =>
      split_ifs at hs
      obtain rfl := Option.some.inj hs
      exact h.hold (List.getElem?_eq_some_iff.1 hr).1
    · cases hs
  · simp only [TailSt.step] at hs
    split at hs
    · next k hk =>
      split_ifs at hs with hp
      obtain rfl := Option.some.inj hs
      exact h.add hk hp
    · cases hs
  · simp only [TailSt.step] at hs
    split at hs
    · next k hk =>
      split_ifs at hs with hp
      obtain rfl := Option.some.inj hs
      have hm := h.modifyQ (q := k.q) (f := (·.put k.best)) fun r => ⟨rfl, rfl, rfl⟩
      refine hm.modifyCall (g := fun k => { k with phase := .failed }) hk rfl (fun h' => ?_) fun h' => ?_
      · cases hp.symm.trans h'
      · simp at h'
    · cases hs
  · simp only [TailSt.step] at hs
    split at hs
    · next k hk =>
      split_ifs at hs with hp
      obtain rfl := Option.some.inj hs
      refine h.modifyCall hk rfl (fun h' => ?_) fun _ => nofun
      cases hp.symm.trans h'
    · cases hs
  · simp only [TailSt.step] at hs
    split at hs
    · next k hk =>
      split_ifs at hs with hp
      obtain rfl := Option.some.inj hs
      have hm := h.modifyQ (q := k.q) (f := (·.put k.best)) fun r => ⟨rfl, rfl, rfl⟩
      exact hm.modifyCall (g := fun k => { k with phase := .returned }) hk rfl (fun _ => rfl) fun _ hfin => hm.linked c k hk (.inl hp) hfin
    · cases hs
  · exact h.alloc hs
  · obtain rfl := Option.some.inj hs
    refine h.mapEntries fun e => ?_
    split_ifs
    · rfl
    · rfl
  · obtain rfl := Option.some.inj hs
    exact h.shrink
  · simp only [TailSt.step] at hs
    split_ifs at hs with hd
    obtain rfl := Option.some.inj hs
    exact h.terminate (h.doomed q hd).2 (fun i hi => List.mem_of_mem_erase hi) rfl rfl rfl rfl
  · obtain rfl := Option.some.inj hs
    exact h.shrinkAll
  · obtain rfl := Option.some.inj hs
    exact h.tailStart hasName
  · simp only [TailSt.step] at hs
    split at hs
    · next l hl =>
      split_ifs at hs with hp
      obtain rfl := Option.some.inj hs
      exact h.tailQueue hl hp
    · cases hs
  · simp only [TailSt.step] at hs
    split at hs
    · next r hr => exact h.threadStep hr hs
    · cases hs

end TailInv

end TailSt

end Aosl
