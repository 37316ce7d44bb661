import Aosl.Mpqp
import Mathlib.Data.List.Nodup
import Mathlib.Logic.Relation

/-!
# Who waits for whom in a pool

The queues of a pool are ranked by the critical section that took them out: a queue that is still in
`pool_entries` has the top rank, and one that its own thread took out is ranked above the others of the
same section. A thread that is still in the pool when it shrinks it only waits for queues of a lower rank
(`PoolInv.remove`), so it cannot be waited for by them. A thread that has been taken out and goes on
shrinking breaks this.
-/

namespace Aosl
open Lib

namespace PoolPc

/-- The queues the thread waits for, now or later. -/
def targets : PoolPc → List Nat
  | destroy q w => if w then [q] else []
  | put q w => if w then [q] else []
  | destroyWait qs => qs
  | _ => []

end PoolPc

namespace PoolSt

def targets (s : PoolSt) (x : Nat) : List Nat := (s.queues[x]?.map (·.pc.targets)).getD []

/-- A critical section that takes queues out runs on the thread of a queue that is in the pool. -/
def ShrinkOk (s : PoolSt) : PoolAct → Prop
  | .thread x => ∀ all, s.queues[x]?.map PoolQ.pc = some (.shrink all) →
      x ∈ s.entries.map PoolEntry.q ∨ s.taken all = []
  | _ => True

instance (s : PoolSt) (a : PoolAct) : Decidable (s.ShrinkOk a) :=
  match a with
  | .thread x => inferInstanceAs (Decidable (∀ all, s.queues[x]?.map PoolQ.pc = some (.shrink all) →
      x ∈ s.entries.map PoolEntry.q ∨ s.taken all = []))
  | .bestQGet _ | .bestQPut _ | .mpqGet _ | .mpqPut _ | .add _ | .alloc _ | .free _ | .checkShrink _ => .isTrue trivial

end PoolSt

/-- A ranking with top `N` that every wait lowers. -/
structure PoolInv (s : PoolSt) (rank : Nat → Nat) (N : Nat) : Prop where
  nodup : (s.entries.map PoolEntry.q).Nodup
  valid : ∀ q ∈ s.entries.map PoolEntry.q, q < s.queues.length
  le : ∀ x, rank x ≤ N
  entry : ∀ q ∈ s.entries.map PoolEntry.q, rank q = N
  fresh : ∀ x, s.queues.length ≤ x → rank x = N
  lower : ∀ x, ∀ y ∈ s.targets x, rank y < rank x

namespace PoolInv
open PoolSt

variable {s s' : PoolSt} {rank : Nat → Nat} {N x q : Nat} {R : List Nat} {a : PoolAct}

theorem mem_targets {y : Nat} : y ∈ s.targets x ↔ ∃ r, s.queues[x]? = some r ∧ y ∈ r.pc.targets := by
  unfold targets
  cases s.queues[x]? <;> simp

theorem mem_targets_modifyQ {f : PoolQ → PoolQ} {y : Nat} (h : y ∈ (s.modifyQ q f).targets x) :
    (q = x ∧ ∃ r, s.queues[x]? = some r ∧ y ∈ (f r).pc.targets) ∨ y ∈ s.targets x := by
  obtain ⟨r, hr, hy⟩ := mem_targets.1 h
  rw [PoolSt.modifyQ, List.getElem?_modify] at hr
  split at hr
  · next hq =>
    obtain ⟨r', hr', rfl⟩ := Option.map_eq_some_iff.1 hr
    exact .inl ⟨hq, r', hr', hy⟩
  · exact .inr (mem_targets.2 ⟨r, by simpa using hr, hy⟩)

theorem mono (h : PoolInv s rank N) (he : s'.entries.map PoolEntry.q = s.entries.map PoolEntry.q)
    (hl : s.queues.length = s'.queues.length) (ht : ∀ x, ∀ y ∈ s'.targets x, y ∈ s.targets x) :
    PoolInv s' rank N :=
  ⟨he ▸ h.nodup, he ▸ hl ▸ h.valid, h.le, he ▸ h.entry, hl ▸ h.fresh, fun x y hy => h.lower x y (ht x y hy)⟩

theorem modifyQ (h : PoolInv s rank N) {f : PoolQ → PoolQ}
    (hf : ∀ r, s.queues[q]? = some r → ∀ y ∈ (f r).pc.targets, y ∈ r.pc.targets) :
    PoolInv (s.modifyQ q f) rank N := by
  refine h.mono rfl (by simp [PoolSt.modifyQ]) fun x y hy => ?_
  rcases mem_targets_modifyQ hy with ⟨rfl, r, hr, hy⟩ | hy
  · exact mem_targets.2 ⟨r, hr, hf r hr y hy⟩
  · exact hy

theorem createAdd (h : PoolInv s rank N) : PoolInv s.createAdd rank N := by
  have hmap : s.createAdd.entries.map PoolEntry.q = s.entries.map PoolEntry.q ++ [s.queues.length] := by
    simp [PoolSt.createAdd]
  have hlen : s.createAdd.queues.length = s.queues.length + 1 := by simp [PoolSt.createAdd]
  refine ⟨?_, fun q hq => ?_, h.le, fun q hq => ?_, fun x hx => h.fresh x (by omega), fun x y hy => h.lower x y ?_⟩
  · rw [hmap, List.nodup_append]
    refine ⟨h.nodup, List.nodup_singleton _, fun q hq q' hq' => ?_⟩
    rw [List.mem_singleton.1 hq']
    exact Nat.ne_of_lt (h.valid q hq)
  · rw [hmap, List.mem_append, List.mem_singleton] at hq
    rcases hq with hq | rfl
    · have := h.valid q hq
      omega
    · omega
  · rw [hmap, List.mem_append, List.mem_singleton] at hq
    rcases hq with hq | rfl
    exacts [h.entry q hq, h.fresh _ (Nat.le_refl _)]
  · obtain ⟨r, hr, hy⟩ := mem_targets.1 hy
    rw [PoolSt.createAdd, List.getElem?_append] at hr
    split at hr
    · exact mem_targets.2 ⟨r, hr, hy⟩
    · obtain rfl : r = PoolQ.create := by simpa using List.mem_of_getElem? hr
      exact absurd hy List.not_mem_nil

theorem mapEntries (h : PoolInv s rank N) {f : PoolEntry → PoolEntry} (hf : ∀ e, (f e).q = e.q) :
    PoolInv { s with entries := s.entries.map f } rank N := by
  refine h.mono ?_ rfl fun x y hy => hy
  rw [List.map_map]
  exact List.map_congr_left fun e _ => hf e

/-- The ranking after the thread of `x` has taken `R` out. -/
def removeRank (rank : Nat → Nat) (N x : Nat) (R : List Nat) (q : Nat) : Nat :=
  if q ∈ R then (if q = x then N + 1 else N) else if rank q = N then N + 2 else rank q

theorem removeRank_eq (hR : ∀ q ∈ R, rank q = N) (hq : rank q < N) : removeRank rank N x R q = rank q := by
  rw [removeRank, if_neg fun hm => absurd (hR q hm) (by omega), if_neg (by omega)]

theorem le_removeRank (hq : rank q ≤ N) : rank q ≤ removeRank rank N x R q := by
  unfold removeRank
  split
  · split <;> omega
  · split <;> omega

/-- A thread of the pool takes out `R` and waits for those of `R` that are not its own queue. -/
theorem remove (h : PoolInv s rank N) (hx : rank x = N)
    (hE : (s.entries.map PoolEntry.q).Perm (s'.entries.map PoolEntry.q ++ R))
    (hl : s'.queues.length = s.queues.length)
    (ht : ∀ z, ∀ y ∈ s'.targets z, y ∈ s.targets z ∨ (z = x ∧ y ∈ R ∧ y ≠ x)) :
    PoolInv s' (removeRank rank N x R) (N + 2) := by
  have hnd := hE.nodup_iff.1 h.nodup
  have hR : ∀ q ∈ R, q ∈ s.entries.map PoolEntry.q := fun q hq => hE.mem_iff.2 (List.mem_append_right _ hq)
  have hE' : ∀ q ∈ s'.entries.map PoolEntry.q, q ∈ s.entries.map PoolEntry.q := fun q hq =>
    hE.mem_iff.2 (List.mem_append_left _ hq)
  have hRN : ∀ q ∈ R, rank q = N := fun q hq => h.entry q (hR q hq)
  refine ⟨(List.nodup_append.1 hnd).1, fun q hq => hl ▸ h.valid q (hE' q hq), fun q => ?_, fun q hq => ?_,
    fun q hq => ?_, fun z y hy => ?_⟩
  · have := h.le q
    unfold removeRank
    split
    · split <;> omega
    · split <;> omega
  · rw [removeRank, if_neg fun hm => (List.nodup_append.1 hnd).2.2 q hq q hm rfl, if_pos (h.entry q (hE' q hq))]
  · rw [hl] at hq
    rw [removeRank, if_neg fun hm => absurd (h.valid q (hR q hm)) (by omega), if_pos (h.fresh q hq)]
  · rcases ht z y hy with hy | ⟨rfl, hyR, hyx⟩
    · have hlt := h.lower z y hy
      have hz := h.le z
      calc removeRank rank N x R y = rank y := removeRank_eq hRN (by omega)
        _ < rank z := hlt
        _ ≤ removeRank rank N x R z := le_removeRank hz
    · have hy : removeRank rank N z R y = N := by rw [removeRank, if_pos hyR, if_neg hyx]
      have hz : N < removeRank rank N z R z := by
        unfold removeRank
        rw [if_pos rfl, if_pos hx]
        split <;> omega
      rw [hy]
      exact hz

theorem shrink (h : PoolInv s rank N) (hx : x ∈ s.entries.map PoolEntry.q ∨ s.taken false = []) :
    ∃ rank' N', PoolInv (s.shrink x) rank' N' := by
  unfold PoolSt.shrink
  split
  · exact ⟨rank, N, h.modifyQ fun r _ y hy => absurd hy List.not_mem_nil⟩
  · next q R hq =>
    have hx := hx.resolve_right (by rw [hq]; exact List.cons_ne_nil q R)
    refine ⟨_, _, h.remove (R := [q]) (h.entry x hx) ?_ (by simp [PoolSt.modifyQ]) fun z y hy => ?_⟩
    · simp only [taken] at hq
      split at hq
      · next e he =>
        split at hq <;> cases hq
        show (s.entries.map PoolEntry.q).Perm (s.entries.dropLast.map PoolEntry.q ++ [e].map PoolEntry.q)
        rw [← List.map_append, List.dropLast_append_getLast? e he]
      · cases hq
    · rcases mem_targets_modifyQ hy with ⟨rfl, r, -, hy⟩ | hy
      · right
        simp only [PoolPc.targets] at hy
        split at hy
        · next hxq => exact ⟨rfl, hy, (List.mem_singleton.1 hy) ▸ (of_decide_eq_true hxq).symm⟩
        · exact absurd hy List.not_mem_nil
      · exact .inl hy

theorem shrinkAll (h : PoolInv s rank N) (hx : x ∈ s.entries.map PoolEntry.q ∨ s.taken true = []) :
    ∃ rank' N', PoolInv (s.shrinkAll x) rank' N' := by
  have ht : ∀ z, ∀ y ∈ (s.shrinkAll x).targets z, y ∈ s.targets z ∨ (z = x ∧ y ∈ s.taken true ∧ y ≠ x) := by
    intro z y hy
    rcases mem_targets_modifyQ hy with ⟨rfl, r, -, hy⟩ | hy
    · simp only [PoolPc.targets, List.mem_filter, decide_eq_true_eq] at hy
      exact .inr ⟨rfl, hy⟩
    · obtain ⟨r, hr, hy⟩ := mem_targets.1 hy
      rw [List.getElem?_mapIdx, Option.map_eq_some_iff] at hr
      obtain ⟨r', hr', rfl⟩ := hr
      refine .inl (mem_targets.2 ⟨r', hr', ?_⟩)
      split at hy <;> exact hy
  have hl : (s.shrinkAll x).queues.length = s.queues.length := by simp [PoolSt.shrinkAll, PoolSt.modifyQ]
  rcases hx with hx | hx
  · exact ⟨_, _, h.remove (R := s.taken true) (h.entry x hx) (List.Perm.refl _) hl ht⟩
  · refine ⟨rank, N, h.mono hx.symm hl.symm fun z y hy => (ht z y hy).resolve_right ?_⟩
    rw [hx]
    rintro ⟨-, hm, -⟩
    exact List.not_mem_nil hm

theorem pc_modifyQ {f : PoolQ → PoolQ} {r r' : PoolQ} (hr : s.queues[x]? = some r)
    (hr' : (s.modifyQ q f).queues[x]? = some r') (hf : ∀ r, (f r).pc = r.pc) : r'.pc = r.pc := by
  rw [PoolSt.modifyQ, List.getElem?_modify, hr] at hr'
  split at hr' <;> cases hr'
  exacts [hf r, rfl]

/-- Every step of the thread of a queue keeps some ranking, if it shrinks the pool only from inside. -/
theorem threadStep (h : PoolInv s rank N) {r : PoolQ} (hr : s.queues[x]? = some r) (hok : s.ShrinkOk (.thread x))
    (hs : s.threadStep x r = some s') : ∃ rank' N', PoolInv s' rank' N' := by
  have hok : ∀ all, r.pc = .shrink all → x ∈ s.entries.map PoolEntry.q ∨ s.taken all = [] := fun all hpc =>
    hok all (by rw [hr, ← hpc]; rfl)
  have hdone : ∀ f : PoolQ → PoolQ, (∀ r, (f r).pc.targets = []) → ∃ rank' N', PoolInv (s.modifyQ x f) rank' N' :=
    fun f hf => ⟨rank, N, h.modifyQ fun r _ y hy => absurd (hf r ▸ hy) List.not_mem_nil⟩
  unfold PoolSt.threadStep at hs
  cases hpc : r.pc with
  | funcs =>
    rw [hpc] at hs
    cases hs
    exact hdone _ fun _ => rfl
  | timers =>
    rw [hpc] at hs
    cases hs
    exact hdone _ fun _ => rfl
  | shrink all =>
    rw [hpc] at hs
    cases all <;> cases hs
    exacts [h.shrink (hok false hpc), h.shrinkAll (hok true hpc)]
  | destroy q w =>
    rw [hpc] at hs
    cases hs
    refine ⟨rank, N, PoolInv.modifyQ ?_ fun r' hr' y hy => ?_⟩
    · exact h.modifyQ fun _ _ _ hy => hy
    · rw [pc_modifyQ hr hr' fun _ => rfl, hpc]
      exact hy
  | put q w =>
    rw [hpc] at hs
    cases hs
    refine ⟨rank, N, PoolInv.modifyQ ?_ fun r' hr' y hy => ?_⟩
    · exact h.modifyQ fun _ _ _ hy => hy
    · rw [pc_modifyQ hr hr' fun _ => rfl, hpc]
      exact hy
  | destroyWait qs =>
    rw [hpc] at hs
    cases qs with
    | nil =>
      cases hs
      exact hdone _ fun _ => rfl
    | cons q qs =>
      simp only at hs
      split at hs <;> cases hs
      refine ⟨rank, N, h.modifyQ fun r' hr' y hy => ?_⟩
      obtain rfl : r = r' := Option.some.inj (hr.symm.trans hr')
      rw [hpc]
      exact List.mem_cons_of_mem q hy
  | test =>
    rw [hpc] at hs
    cases hs
    exact hdone _ fun r => by dsimp only; split <;> rfl
  | waitUsage =>
    rw [hpc] at hs
    cases hs
    exact hdone _ fun r => by split <;> rfl
  | final =>
    rw [hpc] at hs
    cases hs
    exact hdone _ fun r => by split <;> rfl
  | freed =>
    rw [hpc] at hs
    cases hs

theorem bestQGet (h : PoolInv s rank N) {created : Bool} (hs : s.bestQGet created = some s') : PoolInv s' rank N := by
  unfold PoolSt.bestQGet at hs
  split at hs
  · split at hs <;> cases hs
    exact h.createAdd.modifyQ fun _ _ _ hy => hy
  · split at hs <;> cases hs
    · exact h.createAdd.modifyQ fun _ _ _ hy => hy
    · exact h.modifyQ fun _ _ _ hy => hy

theorem alloc (h : PoolInv s rank N) {created : Bool} (hs : s.alloc created = some s') : PoolInv s' rank N := by
  unfold PoolSt.alloc at hs
  split at hs
  · split at hs <;> cases hs
    exact h.createAdd.mapEntries fun e => by split <;> rfl
  · split at hs <;> cases hs
    · exact h.createAdd.mapEntries fun e => by split <;> rfl
    · exact h.mapEntries fun e => by split <;> rfl

theorem checkShrink_targets (r : PoolQ) (n : Nat) : (r.checkShrink n).pc.targets = [] := by
  unfold PoolQ.checkShrink
  dsimp only
  split
  · rfl
  · split <;> rfl

theorem step (h : PoolInv s rank N) (hok : s.ShrinkOk a) (hs : s.step a = some s') :
    ∃ rank' N', PoolInv s' rank' N' := by
  have hkeep : ∀ q (f : PoolQ → PoolQ), (∀ r, (f r).pc = r.pc) → PoolInv (s.modifyQ q f) rank N :=
    fun q f hf => h.modifyQ fun r _ y hy => hf r ▸ hy
  unfold PoolSt.step at hs
  cases a with
  | bestQGet created => exact ⟨rank, N, h.bestQGet hs⟩
  | alloc created => exact ⟨rank, N, h.alloc hs⟩
  | free q =>
    cases hs
    exact ⟨rank, N, h.mapEntries fun e => by split <;> rfl⟩
  | thread x =>
    simp only at hs
    split at hs
    · next r hr => exact h.threadStep hr hok hs
    · cases hs
  | checkShrink x =>
    simp only at hs
    split at hs
    · split at hs <;> cases hs
      exact ⟨rank, N, h.modifyQ fun r _ y hy => absurd (checkShrink_targets r _ ▸ hy) List.not_mem_nil⟩
    · cases hs
  | _ =>
    simp only at hs
    split at hs
    · split at hs <;> cases hs
      exact ⟨rank, N, hkeep _ _ fun _ => rfl⟩
    · cases hs

theorem lt_of_waits (h : PoolInv s rank N) {y : Nat} (hw : Relation.TransGen s.Waits x y) : rank y < rank x := by
  have hone : ∀ {x y}, s.Waits x y → rank y < rank x := by
    intro x y hxy
    refine h.lower x y ?_
    obtain ⟨r, hr, hm⟩ := (Option.any_eq_true _ _).1 hxy.1
    refine mem_targets.2 ⟨r, hr, ?_⟩
    split at hm
    · next q qs hpc =>
      rw [hpc, ← of_decide_eq_true hm]
      exact List.mem_cons_self
    · cases hm
  induction hw with
  | single hxy => exact hone hxy
  | tail _ hyz ih => exact Nat.lt_trans (hone hyz) ih

end PoolInv

namespace PoolSt

/-- In every run of a pool in which only threads of queues that are in the pool take queues out, no thread
waits for itself. -/
theorem run_acyclic (poolSize qMaxIdles : Nat) (as : List PoolAct) (s : PoolSt)
    (hok : Along step ShrinkOk (init poolSize qMaxIdles) as)
    (hrun : exec step (init poolSize qMaxIdles) as = some s) (x : Nat) : ¬Relation.TransGen s.Waits x x := by
  have h0 : PoolInv (init poolSize qMaxIdles) (fun _ => 0) 0 :=
    ⟨List.nodup_nil, fun _ hq => absurd hq List.not_mem_nil, fun _ => Nat.le_refl _, fun _ _ => rfl, fun _ _ => rfl,
      fun _ _ hy => absurd hy List.not_mem_nil⟩
  obtain ⟨rank, N, h⟩ : ∃ rank N, PoolInv s rank N :=
    exec_invariant (I := fun s => ∃ rank N, PoolInv s rank N) (fun _ _ _ ⟨_, _, h⟩ hok hs => h.step hok hs) ⟨_, _, h0⟩ hok hrun
  exact fun hw => absurd (h.lt_of_waits hw) (Nat.lt_irrefl _)

/-- Three queues, the second of which takes out the third and waits for it. -/
theorem run_acyclic_three : ∃ s, exec step (init 3 1) [.bestQGet true, .add 0, .bestQGet true, .add 1, .bestQGet true,
      .bestQPut 0, .bestQPut 1, .bestQPut 2, .thread 1, .checkShrink 1, .checkShrink 1, .thread 1, .thread 1,
      .thread 1] = some s ∧ s.Waits 1 2 ∧ ¬Relation.TransGen s.Waits 1 1 := by
  have hrun : (exec step (init 3 1) [.bestQGet true, .add 0, .bestQGet true, .add 1, .bestQGet true,
      .bestQPut 0, .bestQPut 1, .bestQPut 2, .thread 1, .checkShrink 1, .checkShrink 1, .thread 1, .thread 1,
      .thread 1]).any (fun s => s.Waits 1 2) = true := by decide +kernel
  obtain ⟨s, hs, hw⟩ := (Option.any_eq_true _ _).1 hrun
  exact ⟨s, hs, of_decide_eq_true hw, run_acyclic 3 1 _ s (by decide +kernel) hs 1⟩

/-- The third queue is taken out while it is about to shrink the pool, and takes out the queue that waits
for it. -/
theorem not_acyclic_taken_shrinks : ¬∀ (poolSize qMaxIdles : Nat), 0 < qMaxIdles → ∀ (as : List PoolAct) (s : PoolSt),
    exec step (init poolSize qMaxIdles) as = some s → ∀ x, ¬Relation.TransGen s.Waits x x := by
  intro h
  have hrun : (exec step (init 3 1) [.bestQGet true, .add 0, .bestQGet true, .add 1, .bestQGet true, .add 2, .bestQPut 0,
      .bestQPut 1, .bestQPut 2, .thread 1, .checkShrink 1, .checkShrink 1, .thread 2, .checkShrink 2, .checkShrink 2,
      .thread 1, .thread 2, .thread 1, .thread 2, .thread 1, .thread 2]).any
      (fun s => s.Waits 1 2 ∧ s.Waits 2 1) = true := by decide +kernel
  obtain ⟨s, hs, hw⟩ := (Option.any_eq_true _ _).1 hrun
  obtain ⟨h12, h21⟩ := of_decide_eq_true hw
  exact h 3 1 Nat.one_pos _ s hs 1 (.tail (.single h12) h21)

end PoolSt

end Aosl
