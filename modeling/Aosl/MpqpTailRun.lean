import Aosl.MpqpTailBase

/-!
# The tail of a pool over whole runs

What is linked in a queue runs in order, so the promise of a tail call stands behind every function that was in the
queue when it was added. A queue that has been taken out of the pool gets no promise, and what it still has to run is
not waited for.
-/

namespace Aosl
open Lib

namespace TailQ

/-- The position of the last `fo`, from 1. -/
def upTo (fo : Fo) : List Fo → Nat
  | [] => 0
  | x :: xs => if upTo fo xs = 0 then if x = fo then 1 else 0 else upTo fo xs + 1

/-- How many steps the thread takes to the next list of functions. -/
def toTake : TailPc → Nat
  | .funcs => 1
  | .test => 3
  | .usage => 2
  | .final => 1
  | .freed => 0

/-- How many steps the thread of the queue takes until the promise of `t` has finished. -/
def ahead (r : TailQ) (t : Nat) : Nat :=
  if upTo (.promise t) r.line = 0 then 0
  else 2 * upTo (.promise t) r.line - (if r.running.isSome then 1 else 0) +
    if .promise t ∈ r.linked then toTake r.pc else 0

theorem upTo_eq_zero {fo : Fo} {l : List Fo} : upTo fo l = 0 ↔ fo ∉ l := by
  induction l with
  | nil => simp [upTo]
  | cons x xs ih =>
    rw [upTo, List.mem_cons]
    split_ifs with h hx
    · simp [hx]
    · have hne : fo ≠ x := fun h' => hx h'.symm
      simp [hne, ih.1 h]
    · have hmem : fo ∈ xs := by
        by_contra hn
        exact h (ih.2 hn)
      simp [hmem]

theorem upTo_cons {fo x : Fo} {l : List Fo} (h : upTo fo (x :: l) ≠ 0) : upTo fo (x :: l) = upTo fo l + 1 := by
  rw [upTo] at h ⊢
  split_ifs at h ⊢ with h1 h2
  · rw [h1]
  · exact absurd rfl h
  · rfl

end TailQ

namespace TailSt

variable {s s' : TailSt} {q t c : Nat} {r : TailQ} {f : TailQ → TailQ}

/-- The queue, or a new one. -/
def queue (s : TailSt) (q : Nat) : TailQ := s.queues[q]?.getD TailQ.create

theorem queue_of (h : s.queues[q]? = some r) : s.queue q = r := by
  rw [queue, h]
  rfl

theorem queue_modifyQ_self (h : s.queues[q]? = some r) : (s.modifyQ q f).queue q = f r := by
  rw [queue, getElem?_modifyQ, if_pos rfl, h]
  rfl

theorem queue_modifyQ_ne {i : Nat} (h : q ≠ i) : (s.modifyQ q f).queue i = s.queue i := by
  rw [queue, getElem?_modifyQ, if_neg h]
  rfl

theorem queue_createAdd (s : TailSt) (i : Nat) : s.createAdd.queue i = s.queue i := by
  unfold queue createAdd
  dsimp only
  rcases Nat.lt_trichotomy i s.queues.length with hi | hi | hi
  · rw [List.getElem?_append_left hi]
  · subst hi
    rw [List.getElem?_concat_length, List.getElem?_eq_none (Nat.le_refl _)]
    rfl
  · rw [List.getElem?_eq_none (by rw [List.length_append]; exact hi), List.getElem?_eq_none (Nat.le_of_lt hi)]

/-- Functions are added at the end of a queue. -/
structure Grows (r r' : TailQ) (B : List Fo) : Prop where
  line : r'.line = r.line ++ B
  linked : r'.linked = r.linked ++ B
  running : r'.running = r.running
  pc : r'.pc = r.pc

theorem Grows.refl (r : TailQ) : Grows r r [] := ⟨(List.append_nil _).symm, (List.append_nil _).symm, rfl, rfl⟩

theorem Grows.of_fns {r' : TailQ} (h : r'.fns = r.fns) (hpc : r'.pc = r.pc) : Grows r r' [] := by
  obtain ⟨hline, hlinked, hrun⟩ := line_of_fns h
  refine ⟨?_, ?_, hrun, hpc⟩
  · rw [hline, List.append_nil]
  · rw [hlinked, List.append_nil]

theorem Grows.modifyQ {i : Nat} (hf : ∀ r, (f r).fns = r.fns ∧ (f r).pc = r.pc) :
    Grows (s.queue i) ((s.modifyQ q f).queue i) [] := by
  by_cases hi : q = i
  · subst hi
    rcases hr : s.queues[q]? with _ | r
    · rw [modifyQ_none hr]
      exact .refl _
    · rw [queue_modifyQ_self hr, queue_of hr]
      exact .of_fns (hf r).1 (hf r).2
  · rw [queue_modifyQ_ne hi]
    exact .refl _

theorem Promised.grows {es : List Nat} {i : Nat} (h : Promised s s' t es) (hes : ∀ q ∈ es, q < s.queues.length) :
    ∃ n, Grows (s.queue i) (s'.queue i) (List.replicate n (.promise t)) ∧ (i ∈ es → 0 < n) := by
  rcases hr : s.queues[i]? with _ | r
  · have hle := List.getElem?_eq_none_iff.1 hr
    have hr' : s'.queues[i]? = none := by
      rw [List.getElem?_eq_none_iff, h.length]
      exact hle
    refine ⟨0, ?_, fun hi => absurd (hes i hi) (Nat.not_lt.2 hle)⟩
    rw [TailSt.queue, TailSt.queue, hr, hr']
    exact .refl _
  · obtain ⟨r', n, hr', hline, -, hpc, hrun, hlinked, hn⟩ := h.queue i r hr
    refine ⟨n, ?_, hn.2⟩
    rw [queue_of hr, queue_of hr']
    exact ⟨hline, hlinked, hrun, hpc⟩

/-- With the lock, the tail call adds its promises to the queues of the pool. -/
theorem grows_tailQueue {i : Nat} (h : TailInv s) (created : Bool) :
    ∃ n, Grows (s.queue i) ((s.tailQueue t created).queue i) (List.replicate n (.promise t)) ∧
      (i ∈ s.entries.map PoolEntry.q → 0 < n) := by
  have hlt : ∀ s : TailSt, TailInv s → ∀ e ∈ s.entries, e.q < s.queues.length := by
    intro s h e he
    obtain ⟨r, hr, -⟩ := h.entry e.q (List.mem_map_of_mem he)
    exact (List.getElem?_eq_some_iff.1 hr).1
  have hfold : ∀ s : TailSt, TailInv s → ∃ n, Grows (s.queue i) ((s.entries.foldl (fun s e => s.modifyQ e.q
      (·.add (.promise t))) (s.modifyTail t fun l => { l with phase := .queued, count := s.entries.length })).queue i)
      (List.replicate n (.promise t)) ∧ (i ∈ s.entries.map PoolEntry.q → 0 < n) := by
    intro s h
    have hprom := promised_foldl (t := t) s.entries
      (s.modifyTail t fun l => { l with phase := .queued, count := s.entries.length }) (hlt s h)
    refine hprom.grows fun q hq => ?_
    obtain ⟨e, he, rfl⟩ := List.mem_map.1 hq
    exact hlt s h e he
  unfold TailSt.tailQueue
  by_cases hfail : s.entries = [] ∧ !created
  · rw [if_pos hfail]
    refine ⟨0, .refl _, fun hi => ?_⟩
    rw [hfail.1] at hi
    cases hi
  · rw [if_neg hfail]
    by_cases hnil : s.entries = []
    · rw [if_pos hnil, ← queue_createAdd s i]
      obtain ⟨n, hg, -⟩ := hfold s.createAdd h.createAdd
      refine ⟨n, hg, fun hi => ?_⟩
      rw [hnil] at hi
      cases hi
    · rw [if_neg hnil]
      exact hfold s h

/-- What a step of the thread does to its queue: the line stays, or its first function has ended. -/
structure Works (s s' : TailSt) (r r' : TailQ) : Prop where
  line : r'.line = r.line ∨ ∃ x, r.line = x :: r'.line ∧ ∀ c k, x = .user c → s.calls[c]? = some k → s'.finished c = true
  ahead : ∀ t, r'.ahead t ≤ r.ahead t - 1

theorem ahead_eq (h : .promise t ∈ r.line) : r.ahead t = 2 * TailQ.upTo (.promise t) r.line -
    (if r.running.isSome then 1 else 0) + if .promise t ∈ r.linked then TailQ.toTake r.pc else 0 := by
  rw [TailQ.ahead, if_neg fun h0 => TailQ.upTo_eq_zero.1 h0 h]

theorem ahead_zero (h : .promise t ∉ r.line) : r.ahead t = 0 := by
  rw [TailQ.ahead, if_pos (TailQ.upTo_eq_zero.2 h)]

theorem ahead_leave {w : Work} (hrun : r.running = some w) (t : Nat) : r.leave.ahead t ≤ r.ahead t - 1 := by
  have hline : r.line = w.fo :: r.leave.line := by
    unfold TailQ.line TailQ.leave TailQ.waiting
    rw [hrun]
    rfl
  by_cases hm : .promise t ∈ r.leave.line
  · have hm' : .promise t ∈ r.line := by
      rw [hline]
      exact List.mem_cons_of_mem _ hm
    have hup : TailQ.upTo (.promise t) r.line = TailQ.upTo (.promise t) r.leave.line + 1 := by
      rw [hline]
      refine TailQ.upTo_cons fun h0 => TailQ.upTo_eq_zero.1 h0 ?_
      rw [← hline]
      exact hm'
    have hpos : TailQ.upTo (.promise t) r.leave.line ≠ 0 := fun h0 => TailQ.upTo_eq_zero.1 h0 hm
    rw [ahead_eq hm, ahead_eq hm', hup, hrun]
    change _ - (if (none : Option Work).isSome = true then 1 else 0) + (if .promise t ∈ r.linked then TailQ.toTake r.pc else 0) ≤ _
    simp only [Option.isSome_none, Option.isSome_some, Bool.false_eq_true, if_false, if_true]
    omega
  · rw [ahead_zero hm]
    exact Nat.zero_le _

theorem ahead_begin {w : Work} {rest : List Fo} (hrun : r.running = none) (hbatch : r.batch = w.fo :: rest) (t : Nat) :
    ({ r with running := some w, batch := rest } : TailQ).ahead t ≤ r.ahead t - 1 := by
  obtain ⟨hline, -⟩ := TailInv.line_begin hrun hbatch
  by_cases hm : .promise t ∈ r.line
  · have hpos : TailQ.upTo (.promise t) r.line ≠ 0 := fun h0 => TailQ.upTo_eq_zero.1 h0 hm
    rw [ahead_eq hm, ahead_eq (by rw [hline]; exact hm), hline, hrun]
    simp only [Option.isSome_none, Option.isSome_some, Bool.false_eq_true, if_false, if_true]
    omega
  · rw [ahead_zero (by rw [hline]; exact hm)]
    exact Nat.zero_le _

theorem ahead_moves {r' : TailQ} (hrun : r.running = none) (hbatch : r.batch = []) (hline : r'.line = r.line)
    (hrun' : r'.running = none) (hto : r'.linked = [] ∧ 0 < TailQ.toTake r.pc ∨ TailQ.toTake r'.pc < TailQ.toTake r.pc) (t : Nat) :
    r'.ahead t ≤ r.ahead t - 1 := by
  by_cases hm : .promise t ∈ r.line
  · have hlink : .promise t ∈ r.linked := by
      unfold TailQ.line TailQ.waiting at hm
      rw [hrun, hbatch] at hm
      exact hm
    rw [ahead_eq hm, ahead_eq (by rw [hline]; exact hm), hline, hrun, hrun', if_pos hlink]
    simp only [Option.isSome_none, Bool.false_eq_true, if_false]
    rcases hto with ⟨hnil, hpos⟩ | hlt
    · rw [hnil, if_neg List.not_mem_nil]
      omega
    · split_ifs
      · omega
      · omega
  · rw [ahead_zero (by rw [hline]; exact hm)]
    exact Nat.zero_le _

theorem works_of_thread (hq : s.queues[q]? = some r) (hs : s.threadStep q r = some s') :
    (∀ i, i ≠ q → s'.queue i = s.queue i) ∧ Works s s' r (s'.queue q) := by
  have hbegin : ∀ fo, (s.begin fo).1.queues = s.queues ∧ (s.begin fo).2.fo = fo := by
    intro fo
    rcases fo with c | t
    · exact ⟨rfl, rfl⟩
    · unfold TailSt.begin
      dsimp only
      split_ifs
      · exact ⟨rfl, rfl⟩
      · exact ⟨rfl, rfl⟩
  have hfinish : ∀ w, (s.finish w).queues = s.queues := by
    intro w
    rcases w with c | ⟨t, last⟩
    · rfl
    · unfold TailSt.finish
      dsimp only
      split_ifs
      · rfl
      · rfl
  unfold TailSt.threadStep at hs
  split at hs
  · next _ w hrun =>
    obtain rfl := Option.some.inj hs
    have hq' : (s.finish w).queues[q]? = some r := by
      rw [hfinish]
      exact hq
    refine ⟨fun i hi => ?_, ?_⟩
    · rw [queue_modifyQ_ne fun h' => hi h'.symm, queue, hfinish]
      rfl
    · rw [queue_modifyQ_self hq']
      refine ⟨.inr ⟨w.fo, ?_, fun c k hx hk => ?_⟩, ahead_leave hrun⟩
      · unfold TailQ.line TailQ.leave TailQ.waiting
        rw [hrun]
        rfl
      · rcases w with c' | ⟨t, last⟩
        · obtain rfl : c' = c := Fo.user.inj hx
          change ((s.modifyCall c' fun k => { k with finished := true }).calls[c']?.any (·.finished)) = true
          rw [TailInv.getElem?_modifyCall, if_pos rfl, hk]
          rfl
        · cases hx
  · next fo rest hrun hbatch =>
    obtain rfl := Option.some.inj hs
    obtain ⟨hqueues, hfo⟩ := hbegin fo
    have hq' : (s.begin fo).1.queues[q]? = some r := by
      rw [hqueues]
      exact hq
    have hbatch' : r.batch = (s.begin fo).2.fo :: rest := by
      rw [hfo]
      exact hbatch
    refine ⟨fun i hi => ?_, ?_⟩
    · rw [queue_modifyQ_ne fun h' => hi h'.symm]
      change (s.begin fo).1.queues[i]?.getD _ = _
      rw [hqueues]
      rfl
    · rw [queue_modifyQ_self hq']
      exact ⟨.inl (TailInv.line_begin hrun hbatch').1, ahead_begin hrun hbatch'⟩
  · next hrun hbatch =>
    obtain ⟨-, hline⟩ := TailInv.line_take hbatch
    split at hs
    · next hpc =>
      obtain rfl := Option.some.inj hs
      refine ⟨fun i hi => queue_modifyQ_ne fun h' => hi h'.symm, ?_⟩
      rw [queue_modifyQ_self hq]
      refine ⟨.inl hline, ahead_moves hrun hbatch hline hrun (.inl ⟨rfl, ?_⟩)⟩
      rw [hpc]
      exact Nat.one_pos
    · next hpc =>
      obtain rfl := Option.some.inj hs
      refine ⟨fun i hi => queue_modifyQ_ne fun h' => hi h'.symm, ?_⟩
      rw [queue_modifyQ_self hq]
      refine ⟨.inl rfl, ahead_moves hrun hbatch rfl hrun (.inr ?_)⟩
      rw [hpc]
      dsimp only
      split_ifs
      · decide
      · decide
    · next hpc =>
      obtain rfl := Option.some.inj hs
      refine ⟨fun i hi => queue_modifyQ_ne fun h' => hi h'.symm, ?_⟩
      rw [queue_modifyQ_self hq]
      split_ifs
      · refine ⟨.inl hline, ahead_moves hrun hbatch hline hrun (.inl ⟨rfl, ?_⟩)⟩
        rw [hpc]
        decide
      · refine ⟨.inl rfl, ahead_moves hrun hbatch rfl hrun (.inr ?_)⟩
        rw [hpc]
        exact Nat.lt_succ_self 1
    · next hpc =>
      obtain rfl := Option.some.inj hs
      refine ⟨fun i hi => queue_modifyQ_ne fun h' => hi h'.symm, ?_⟩
      rw [queue_modifyQ_self hq]
      split_ifs
      · refine ⟨.inl rfl, ahead_moves hrun hbatch rfl hrun (.inr ?_)⟩
        rw [hpc]
        exact Nat.lt_succ_self 0
      · refine ⟨.inl hline, ahead_moves hrun hbatch hline hrun (.inl ⟨rfl, ?_⟩)⟩
        rw [hpc]
        decide
    · cases hs

theorem foldl_modifyQ (g : PoolEntry → TailQ → TailQ) (es : List PoolEntry) (s : TailSt) :
    (es.foldl (fun s e => s.modifyQ e.q (g e)) s).tails = s.tails ∧
      (es.foldl (fun s e => s.modifyQ e.q (g e)) s).calls = s.calls := by
  induction es generalizing s with
  | nil => exact ⟨rfl, rfl⟩
  | cons e es ih => exact ih (s.modifyQ e.q (g e))

theorem finished_append {k : TailCall} (hcalls : s'.calls = s.calls ++ [k]) (hc : s.finished c = true) :
    s'.finished c = true := by
  obtain ⟨k', hk', hfin⟩ := (Option.any_eq_true ..).1 hc
  unfold finished
  rw [hcalls, List.getElem?_append_left (List.getElem?_eq_some_iff.1 hk').1, hk']
  exact hfin

theorem finished_modify {i : Nat} {g : TailCall → TailCall} (hg : ∀ k, k.finished = true → (g k).finished = true)
    (hcalls : s'.calls = (s.modifyCall i g).calls) (hc : s.finished c = true) : s'.finished c = true := by
  obtain ⟨k', hk', hfin⟩ := (Option.any_eq_true ..).1 hc
  unfold finished
  rw [hcalls, TailInv.getElem?_modifyCall, hk']
  split_ifs
  · exact hg k' hfin
  · exact hfin

/-- What a step of another thread than those of the queues does: functions are added at the end of queues, the function
of a call or the promise of the tail call that has the lock. -/
structure Effect (s s' : TailSt) (a : TailAct) : Prop where
  queue : ∀ i, ∃ B, Grows (s.queue i) (s'.queue i) B ∧
    ∀ x ∈ B, (∃ c, x = .user c) ∨ ∃ t created, a = .tailQueue t created ∧ x = .promise t
  tail : ∀ (t : Nat) (l' : Tail), s'.tails[t]? = some l' →
    s.tails.length ≤ t ∧ l'.early = [] ∧ l'.phase = .started ∨
    ∃ l, s.tails[t]? = some l ∧ l'.early = l.early ∧ l'.before = l.before ∧
      (l'.phase = l.phase ∨ ∃ created, a = .tailQueue t created)
  length : s.tails.length ≤ s'.tails.length
  finished : ∀ c, s.finished c = true → s'.finished c = true

theorem Effect.of_tails {a : TailAct} (hq : ∀ i, ∃ B, Grows (s.queue i) (s'.queue i) B ∧ ∀ x ∈ B, ∃ c, x = .user c)
    (ht : s'.tails = s.tails) (hc : ∀ c, s.finished c = true → s'.finished c = true) : Effect s s' a := by
  refine ⟨fun i => ?_, fun t l' hl' => .inr ⟨l', ?_, rfl, rfl, .inl rfl⟩, Nat.le_of_eq (congrArg List.length ht).symm, hc⟩
  · obtain ⟨B, hg, hB⟩ := hq i
    exact ⟨B, hg, fun x hx => .inl (hB x hx)⟩
  · rw [ht] at hl'
    exact hl'

theorem Effect.of_pool {a : TailAct} (hq : ∀ i, Grows (s.queue i) (s'.queue i) []) (ht : s'.tails = s.tails)
    (hc : s'.calls = s.calls) : Effect s s' a := by
  refine .of_tails (fun i => ⟨[], hq i, nofun⟩) ht fun c hfin => ?_
  unfold TailSt.finished
  rw [hc]
  exact hfin

theorem Effect.hold {a : TailAct} {best : Bool} : Effect s (s.hold q best) a :=
  .of_tails (fun _ => ⟨[], Grows.modifyQ (f := (·.get best)) fun _ => ⟨rfl, rfl⟩, nofun⟩) rfl fun _ => finished_append rfl

theorem Effect.createHold {a : TailAct} {best : Bool} : Effect s (s.createAdd.hold q best) a := by
  refine .of_tails (fun i => ⟨[], ?_, nofun⟩) rfl fun _ => finished_append rfl
  rw [← queue_createAdd s i]
  exact Grows.modifyQ (f := (·.get best)) fun _ => ⟨rfl, rfl⟩

theorem grows_createAdd (s : TailSt) (i : Nat) : Grows (s.queue i) (s.createAdd.queue i) [] := by
  rw [queue_createAdd]
  exact .refl _

theorem Effect.add {a : TailAct} {k : TailCall} (h : TailInv s) (hk : s.calls[c]? = some k) :
    Effect s ((s.modifyQ k.q (·.add (.user c))).modifyCall c fun k => { k with phase := .added }) a := by
  obtain ⟨r, hr⟩ : ∃ r, s.queues[k.q]? = some r := ⟨_, List.getElem?_eq_getElem (h.held c k hk)⟩
  refine .of_tails (fun i => ?_) rfl fun _ =>
    finished_modify (i := c) (g := fun k => { k with phase := .added }) (fun _ h => h) rfl
  change ∃ B, Grows (s.queue i) ((s.modifyQ k.q (·.add (.user c))).queue i) B ∧ _
  by_cases hi : k.q = i
  · subst hi
    refine ⟨[.user c], ?_, fun x hx => ⟨c, List.mem_singleton.1 hx⟩⟩
    rw [queue_modifyQ_self hr, queue_of hr]
    exact ⟨TailInv.line_add r _, rfl, rfl, rfl⟩
  · refine ⟨[], ?_, nofun⟩
    rw [queue_modifyQ_ne hi]
    exact .refl _

theorem Effect.shrinkAll {a : TailAct} : Effect s s.shrinkAll a := by
  have hfold : ∀ (i : Nat) (es : List PoolEntry) (s₀ : TailSt), Grows (s₀.queue i)
      ((es.foldl (fun s e => s.modifyQ e.q fun r => { r with terminated := true }) s₀).queue i) [] := by
    intro i es
    induction es with
    | nil => exact fun s₀ => .refl _
    | cons e es ih =>
      intro s₀
      have hfirst : Grows (s₀.queue i) ((s₀.modifyQ e.q fun r => { r with terminated := true }).queue i) [] :=
        Grows.modifyQ fun r => ⟨rfl, rfl⟩
      have hrest := ih (s₀.modifyQ e.q fun r => { r with terminated := true })
      refine ⟨hrest.line.trans ?_, hrest.linked.trans ?_, hrest.running.trans hfirst.running, hrest.pc.trans hfirst.pc⟩
      · rw [hfirst.line, List.append_nil, List.append_nil]
      · rw [hfirst.linked, List.append_nil, List.append_nil]
  obtain ⟨ht, hc⟩ := foldl_modifyQ (fun _ r => { r with terminated := true }) s.entries s
  exact .of_pool (fun i => hfold i s.entries s) ht hc

theorem Effect.tailStart {a : TailAct} {l : Tail} (he : l.early = []) (hp : l.phase = .started) :
    Effect s { s with tails := s.tails ++ [l] } a := by
  refine ⟨fun i => ⟨[], .refl _, nofun⟩, fun t l' hl' => ?_, ?_, fun c hc => hc⟩
  · dsimp only at hl'
    rw [List.getElem?_append] at hl'
    split_ifs at hl' with hlt
    · exact .inr ⟨l', hl', rfl, rfl, .inl rfl⟩
    · rw [List.mem_singleton.1 (List.mem_of_getElem? hl')]
      exact .inl ⟨Nat.le_of_not_lt hlt, he, hp⟩
  · dsimp only
    rw [List.length_append]
    exact Nat.le_add_right _ _

theorem Effect.tailQueue (h : TailInv s) (t : Nat) (created : Bool) :
    Effect s (s.tailQueue t created) (.tailQueue t created) := by
  have hmod : (s.tailQueue t created).calls = s.calls ∧ ∃ g : Tail → Tail,
      (s.tailQueue t created).tails = (s.modifyTail t g).tails ∧ ∀ l, (g l).early = l.early ∧ (g l).before = l.before := by
    unfold TailSt.tailQueue
    by_cases hfail : s.entries = [] ∧ !created
    · rw [if_pos hfail]
      exact ⟨rfl, _, rfl, fun l => ⟨rfl, rfl⟩⟩
    · rw [if_neg hfail]
      by_cases hnil : s.entries = []
      · rw [if_pos hnil]
        obtain ⟨ht, hc⟩ := foldl_modifyQ (fun _ r => r.add (.promise t)) s.createAdd.entries
          (s.createAdd.modifyTail t fun l => { l with phase := .queued, count := s.createAdd.entries.length })
        exact ⟨hc, _, ht, fun l => ⟨rfl, rfl⟩⟩
      · rw [if_neg hnil]
        obtain ⟨ht, hc⟩ := foldl_modifyQ (fun _ r => r.add (.promise t)) s.entries
          (s.modifyTail t fun l => { l with phase := .queued, count := s.entries.length })
        exact ⟨hc, _, ht, fun l => ⟨rfl, rfl⟩⟩
  obtain ⟨hcalls, g, hg, hkeep⟩ := hmod
  refine ⟨fun i => ?_, fun i l' hl' => ?_, ?_, fun c hc => ?_⟩
  · obtain ⟨n, hgrow, -⟩ := grows_tailQueue (t := t) (i := i) h created
    exact ⟨_, hgrow, fun x hx => .inr ⟨t, created, rfl, List.eq_of_mem_replicate hx⟩⟩
  · rw [hg, TailInv.getElem?_modifyTail] at hl'
    split_ifs at hl' with hti
    · subst hti
      obtain ⟨l, hl, rfl⟩ := Option.map_eq_some_iff.1 hl'
      exact .inr ⟨l, hl, (hkeep l).1, (hkeep l).2, .inr ⟨created, rfl⟩⟩
    · exact .inr ⟨l', hl', rfl, rfl, .inl rfl⟩
  · exact Nat.le_of_eq (by rw [hg, modifyTail, List.length_modify])
  · unfold TailSt.finished
    rw [hcalls]
    exact hc

theorem effect_of_step {a : TailAct} (h : TailInv s) (hs : s.step a = some s') (ha : ∀ q, a ≠ .thread q) : Effect s s' a := by
  have hput : ∀ (c : Nat) (k : TailCall) (p : CallPhase),
      Effect s ((s.modifyQ k.q (·.put k.best)).modifyCall c fun k => { k with phase := p }) a := by
    intro c k p
    exact .of_tails (fun _ => ⟨[], Grows.modifyQ (f := (·.put k.best)) fun _ => ⟨rfl, rfl⟩, nofun⟩) rfl fun _ =>
      finished_modify (i := c) (g := fun k => { k with phase := p }) (fun _ h => h) rfl
  rcases a with created | q | c | c | c | c | created | q | _ | q | _ | hasName | ⟨i, created⟩ | q
  · simp only [TailSt.step, bestQGet] at hs
    split at hs
    · split_ifs at hs
      obtain rfl := Option.some.inj hs
      exact .createHold
    · split_ifs at hs
      · obtain rfl := Option.some.inj hs
        exact .createHold
      · obtain rfl := Option.some.inj hs
        exact .hold
  · simp only [TailSt.step] at hs
    split at hs
    · split_ifs at hs
      obtain rfl := Option.some.inj hs
      exact .hold
    · cases hs
  · simp only [TailSt.step] at hs
    split at hs
    · next k hk =>
      split_ifs at hs
      obtain rfl := Option.some.inj hs
      exact .add h hk
    · cases hs
  · simp only [TailSt.step] at hs
    split at hs
    · split_ifs at hs
      obtain rfl := Option.some.inj hs
      exact hput _ _ _
    · cases hs
  · simp only [TailSt.step] at hs
    split at hs
    · split_ifs at hs
      obtain rfl := Option.some.inj hs
      exact .of_tails (fun i => ⟨[], .refl _, nofun⟩) rfl fun _ =>
        finished_modify (i := c) (g := fun k => { k with phase := .added, finished := true }) (fun _ _ => rfl) rfl
    · cases hs
  · simp only [TailSt.step] at hs
    split at hs
    · split_ifs at hs
      obtain rfl := Option.some.inj hs
      exact hput _ _ _
    · cases hs
  · simp only [TailSt.step, alloc] at hs
    split at hs
    · split_ifs at hs
      obtain rfl := Option.some.inj hs
      exact .of_pool (grows_createAdd s) rfl rfl
    · split_ifs at hs
      · obtain rfl := Option.some.inj hs
        exact .of_pool (grows_createAdd s) rfl rfl
      · obtain rfl := Option.some.inj hs
        exact .of_pool (fun _ => .refl _) rfl rfl
  · obtain rfl := Option.some.inj hs
    exact .of_pool (fun _ => .refl _) rfl rfl
  · obtain rfl := Option.some.inj hs
    unfold shrink
    split
    · split_ifs
      · exact .of_pool (fun _ => .refl _) rfl rfl
      · exact .of_pool (fun _ => .refl _) rfl rfl
    · exact .of_pool (fun _ => .refl _) rfl rfl
  · simp only [TailSt.step] at hs
    split_ifs at hs
    obtain rfl := Option.some.inj hs
    exact .of_pool (fun _ => Grows.modifyQ (f := fun r => { r with terminated := true }) fun r => ⟨rfl, rfl⟩) rfl rfl
  · obtain rfl := Option.some.inj hs
    exact .shrinkAll
  · obtain rfl := Option.some.inj hs
    exact .tailStart rfl rfl
  · simp only [TailSt.step] at hs
    split at hs
    · split_ifs at hs
      obtain rfl := Option.some.inj hs
      exact .tailQueue h i created
    · cases hs
  · exact absurd rfl (ha q)

/-- What the thread of a queue does to the records: the last promise looks who has not finished. -/
theorem tail_of_thread {l' : Tail} (hs : s.threadStep q r = some s') (hl' : s'.tails[t]? = some l') :
    ∃ l, s.tails[t]? = some l ∧ l'.before = l.before ∧ l'.phase = l.phase ∧
      (l'.early = l.early ∨ r.running = none ∧ (∃ rest, r.batch = .promise t :: rest) ∧ l.count = 1 ∧
        l'.early = l.before.filter fun c => !s.finished c) := by
  have hsame : s'.tails = s.tails → ∃ l, s.tails[t]? = some l ∧ l'.before = l.before ∧ l'.phase = l.phase ∧
      (l'.early = l.early ∨ r.running = none ∧ (∃ rest, r.batch = .promise t :: rest) ∧ l.count = 1 ∧
        l'.early = l.before.filter fun c => !s.finished c) := by
    intro htails
    rw [htails] at hl'
    exact ⟨l', hl', rfl, rfl, .inl rfl⟩
  unfold threadStep at hs
  split at hs
  · next _ w hrun =>
    obtain rfl := Option.some.inj hs
    rcases w with c | ⟨i, last⟩
    · exact hsame rfl
    · rcases last
      · exact hsame rfl
      · have hl'' : (s.modifyTail i fun l =>
            { l with nameFreed := if l.hasName then l.nameFreed + 1 else l.nameFreed }).tails[t]? = some l' := hl'
        rw [TailInv.getElem?_modifyTail] at hl''
        split_ifs at hl''
        · obtain ⟨l, hl, rfl⟩ := Option.map_eq_some_iff.1 hl''
          exact ⟨l, hl, rfl, rfl, .inl rfl⟩
        · exact ⟨l', hl'', rfl, rfl, .inl rfl⟩
  · next fo rest hrun hbatch =>
    obtain rfl := Option.some.inj hs
    rcases fo with c | i
    · exact hsame rfl
    · rcases hi : s.tails[i]? with _ | l
      · apply hsame
        have hmod : ∀ g : Tail → Tail, s.modifyTail i g = s := by
          intro g
          unfold modifyTail
          rw [List.modify_eq_set_getElem?, hi]
          rfl
        change (s.begin (.promise i)).1.tails = _
        unfold TailSt.begin
        dsimp only
        rw [hi, hmod]
        rfl
      · have hl'' : (s.begin (.promise i)).1.tails[t]? = some l' := hl'
        rw [(TailInv.begin_eq hi).1, TailInv.getElem?_modifyTail] at hl''
        split_ifs at hl'' with hti
        · subst hti
          rw [hi] at hl''
          obtain rfl := Option.some.inj hl''
          refine ⟨l, hi, ?_⟩
          unfold TailInv.began
          by_cases hc : l.count = 1
          · rw [if_pos hc]
            exact ⟨rfl, rfl, .inr ⟨hrun, ⟨rest, hbatch⟩, hc, rfl⟩⟩
          · rw [if_neg hc]
            exact ⟨rfl, rfl, .inl rfl⟩
        · exact ⟨l', hl'', rfl, rfl, .inl rfl⟩
  · apply hsame
    split at hs
    · rw [← Option.some.inj hs]
      rfl
    · rw [← Option.some.inj hs]
      rfl
    · rw [← Option.some.inj hs]
      rfl
    · rw [← Option.some.inj hs]
      rfl
    · cases hs

theorem finished_of_thread (hs : s.threadStep q r = some s') (hc : s.finished c = true) : s'.finished c = true := by
  unfold threadStep at hs
  split at hs
  · next w _ =>
    rw [← Option.some.inj hs]
    rcases w with i | ⟨t, last⟩
    · exact finished_modify (i := i) (g := fun k => { k with finished := true }) (fun _ _ => rfl) rfl hc
    · rcases last
      · exact hc
      · exact hc
  · next fo _ _ _ =>
    rw [← Option.some.inj hs]
    rcases fo with i | t
    · exact hc
    · have hcalls : (s.begin (.promise t)).1.calls = s.calls := by
        unfold TailSt.begin
        dsimp only
        split_ifs
        · rfl
        · rfl
      change (s.begin (.promise t)).1.calls[c]?.any _ = true
      rw [hcalls]
      exact hc
  · split at hs
    · rw [← Option.some.inj hs]
      exact hc
    · rw [← Option.some.inj hs]
      exact hc
    · rw [← Option.some.inj hs]
      exact hc
    · rw [← Option.some.inj hs]
      exact hc
    · cases hs

/-- No unfinished function is overlooked. -/
def OrderInv (s : TailSt) : Prop := ∀ (t : Nat) (l : Tail), s.tails[t]? = some l → l.early = [] ∧
  (l.phase = .queued → ∀ c ∈ l.before, s.finished c = true ∨ ∃ q, Behind (s.queue q) c t)

theorem Behind.grows {r' : TailQ} {B : List Fo} (h : Behind r c t) (hg : Grows r r' B) : Behind r' c t := by
  obtain ⟨A, B', hline, hm⟩ := h
  refine ⟨A, B' ++ B, ?_, List.mem_append_left _ hm⟩
  rw [hg.line, hline, List.append_assoc]
  rfl

theorem Behind.works {r' : TailQ} {k : TailCall} (h : Behind r c t) (hw : Works s s' r r') (hk : s.calls[c]? = some k) :
    s'.finished c = true ∨ Behind r' c t := by
  obtain ⟨A, B, hline, hm⟩ := h
  rcases hw.line with heq | ⟨x, hx, hfin⟩
  · exact .inr ⟨A, B, heq.trans hline, hm⟩
  · rcases A with _ | ⟨y, A⟩
    · rw [hline] at hx
      exact .inl (hfin c k (List.cons.inj hx).1.symm hk)
    · rw [hline] at hx
      exact .inr ⟨A, B, (List.cons.inj hx).2.symm, hm⟩

/-- A promise of `t` behind a function is one that has not begun. -/
theorem Behind.waiting (h : Behind r c t) : .promise t ∈ r.waiting ∧
    (r.running = none → ∀ rest, r.batch = .promise t :: rest → 2 ≤ r.waiting.countP (· = .promise t)) := by
  obtain ⟨A, B, hline, hm⟩ := h
  unfold TailQ.line at hline
  rcases hrun : r.running with _ | w
  · rw [hrun] at hline
    have hwait : r.waiting = A ++ .user c :: B := hline
    refine ⟨?_, fun _ rest hbatch => ?_⟩
    · rw [hwait]
      exact List.mem_append_right _ (List.mem_cons_of_mem _ hm)
    · have hhead : r.waiting = .promise t :: (rest ++ r.linked) := by
        unfold TailQ.waiting
        rw [hbatch]
        rfl
      rcases A with _ | ⟨y, A⟩
      · rw [hhead] at hwait
        cases (List.cons.inj hwait).1
      · have hy : y = .promise t := by
          rw [hhead] at hwait
          exact (List.cons.inj hwait).1.symm
        have hpos : 0 < B.countP (· = .promise t) := List.countP_pos_iff.2 ⟨_, hm, by simp⟩
        rw [hwait, hy, List.cons_append, List.countP_cons, List.countP_append, List.countP_cons]
        simp
        omega
  · rw [hrun] at hline
    refine ⟨?_, nofun⟩
    have hcons : w.fo :: r.waiting = A ++ .user c :: B := hline
    rcases A with _ | ⟨y, A⟩
    · rw [(List.cons.inj hcons).2]
      exact hm
    · rw [(List.cons.inj hcons).2]
      exact List.mem_append_right _ (List.mem_cons_of_mem _ hm)

theorem countP_le_pending (hq : s.queues[q]? = some r) : r.waiting.countP (· = .promise t) ≤ s.pending t := by
  have h0 := pending_modifyQ (f := fun r => { r with batch := [], linked := [] }) (t := t) hq
  change _ + _ = _ + 0 at h0
  omega

theorem two_le_pending {i : Nat} {r' : TailQ} (hq : s.queues[q]? = some r) (hi : s.queues[i]? = some r') (hne : q ≠ i)
    (hm : .promise t ∈ r.waiting) (hm' : .promise t ∈ r'.waiting) : 2 ≤ s.pending t := by
  have h0 := pending_modifyQ (f := fun r => { r with batch := [], linked := [] }) (t := t) hq
  change _ + _ = _ + 0 at h0
  have hi' : (s.modifyQ q fun r => { r with batch := [], linked := [] }).queues[i]? = some r' := by
    rw [getElem?_modifyQ, if_neg hne]
    exact hi
  have hle := countP_le_pending (t := t) hi'
  have h1 : 0 < r.waiting.countP (· = .promise t) := List.countP_pos_iff.2 ⟨_, hm, by simp⟩
  have h2 : 0 < r'.waiting.countP (· = .promise t) := List.countP_pos_iff.2 ⟨_, hm', by simp⟩
  omega

theorem Behind.exists (h : Behind (s.queue q) c t) : s.queues[q]? = some (s.queue q) := by
  rcases hr : s.queues[q]? with _ | r
  · obtain ⟨A, B, hline, -⟩ := h
    rw [queue, hr] at hline
    exact absurd hline.symm (by simp [TailQ.create, TailQ.line, TailQ.waiting])
  · rw [queue_of hr]

/-- When the last promise begins, nothing is left to wait for. -/
theorem OrderInv.last (ho : OrderInv s) (h : TailInv s) {l : Tail} {rest : List Fo} (hl : s.tails[t]? = some l)
    (hq : s.queues[q]? = some r) (hrun : r.running = none) (hbatch : r.batch = .promise t :: rest) (hone : l.count = 1) :
    l.before.filter (fun c => !s.finished c) = [] := by
  obtain ⟨l₀, hl₀, hphase, -⟩ := h.beginPromise hq hrun hbatch
  cases hl.symm.trans hl₀
  have hpend : s.pending t = 1 := ((h.tails t l hl).count hphase).1.symm.trans hone
  rw [List.filter_eq_nil_iff]
  intro c hc hfin
  rcases (ho t l hl).2 hphase c hc with hdone | ⟨i, hb⟩
  · rw [hdone] at hfin
    cases hfin
  · have hi := hb.exists
    by_cases hqi : q = i
    · subst hqi
      rw [queue_of hq] at hb
      have hle := countP_le_pending (t := t) hq
      have h2 := hb.waiting.2 hrun rest hbatch
      omega
    · have hm : .promise t ∈ r.waiting := by
        unfold TailQ.waiting
        rw [hbatch]
        exact List.mem_cons_self
      have h2 := two_le_pending hq hi hqi hm hb.waiting.1
      omega

theorem OrderInv.thread (ho : OrderInv s) (h : TailInv s) (hq : s.queues[q]? = some r) (hs : s.threadStep q r = some s') :
    OrderInv s' := by
  intro t l' hl'
  obtain ⟨hother, hworks⟩ := works_of_thread hq hs
  obtain ⟨l, hl, hbefore, hphase, hearly⟩ := tail_of_thread hs hl'
  obtain ⟨hnil, hbehind⟩ := ho t l hl
  refine ⟨?_, fun hp c hc => ?_⟩
  · rcases hearly with heq | ⟨hrun, ⟨rest, hbatch⟩, hone, heq⟩
    · exact heq.trans hnil
    · exact heq.trans (ho.last h hl hq hrun hbatch hone)
  · rw [hbefore] at hc
    obtain ⟨k, hk, -⟩ := (h.tails t l hl).before c hc
    rcases hbehind (hphase.symm.trans hp) c hc with hfin | ⟨i, hb⟩
    · exact .inl (finished_of_thread hs hfin)
    · by_cases hi : i = q
      · subst hi
        rw [queue_of hq] at hb
        exact (hb.works hworks hk).imp_right fun hb' => ⟨i, hb'⟩
      · exact .inr ⟨i, by rw [hother i hi]; exact hb⟩

theorem OrderInv.step {a : TailAct} (ho : OrderInv s) (h : TailInv s) (hok : s.TailOk a) (hs : s.step a = some s') :
    OrderInv s' := by
  by_cases ha : ∃ q, a = .thread q
  · obtain ⟨q, rfl⟩ := ha
    simp only [TailSt.step] at hs
    split at hs
    · next r hr => exact ho.thread h hr hs
    · cases hs
  · have heff := effect_of_step h hs fun q hq => ha ⟨q, hq⟩
    intro t l' hl'
    rcases heff.tail t l' hl' with ⟨-, hnil, hp⟩ | ⟨l, hl, hearly, hbefore, hphase⟩
    · refine ⟨hnil, fun hp' => ?_⟩
      cases hp.symm.trans hp'
    · obtain ⟨hnil, hbehind⟩ := ho t l hl
      refine ⟨hearly.trans hnil, fun hp c hc => ?_⟩
      rw [hbefore] at hc
      rcases hphase with hphase | ⟨created, rfl⟩
      · rcases hbehind (hphase.symm.trans hp) c hc with hfin | ⟨i, hb⟩
        · exact .inl (heff.finished c hfin)
        · obtain ⟨B, hg, -⟩ := heff.queue i
          exact .inr ⟨i, hb.grows hg⟩
      · rcases hok l hl c hc with hfin | ⟨k, hk, hentry⟩
        · exact .inl (heff.finished c hfin)
        · rcases hfin : k.finished
          · -- the function is in a queue of the pool, which gets a promise now
            obtain ⟨k', hk', hret⟩ := (h.tails t l hl).before c hc
            cases hk.symm.trans hk'
            obtain ⟨r, hr, hm⟩ := h.linked c k hk (.inr hret) hfin
            have hs' : s' = s.tailQueue t created := by
              simp only [TailSt.step] at hs
              rw [hl] at hs
              dsimp only at hs
              split_ifs at hs
              exact (Option.some.inj hs).symm
            obtain ⟨n, hg, hpos⟩ := grows_tailQueue (t := t) (i := k.q) h created
            obtain ⟨A, B, hsplit⟩ := List.mem_iff_append.1 hm
            refine .inr ⟨k.q, A, B ++ List.replicate n (.promise t), ?_, ?_⟩
            · rw [hs', hg.line, queue_of hr, hsplit, List.append_assoc]
              rfl
            · exact List.mem_append_right _ (List.mem_replicate.2 ⟨Nat.ne_of_gt (hpos hentry), rfl⟩)
          · left
            apply heff.finished
            rw [finished, hk]
            exact hfin

end TailSt

end Aosl
