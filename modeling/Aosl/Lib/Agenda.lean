import Aosl.Lib.Lists
import Mathlib.Data.List.Induction
import Mathlib.Data.List.Nodup
import Mathlib.Data.List.Pairwise
import Mathlib.Tactic.Common

/-!
# Agendas

Jobs with a time each, in the order in which they were put on the agenda. The job to run next is one
with the earliest time, and the one put on first among those. A job with a period is put on the agenda
again when it runs, one period later; any other job leaves it.

`Ran now a done b`: running the jobs `done` one after the other leads from `a` to `b`, and none of them
was early. This is kept by running the next job while it is due, and it fixes how often each job can
have run, so that only so many jobs can run, and all of them have when no job is due any more.
-/

namespace Lib

structure Agenda (α : Type) where
  jobs : List α
  time : α → Nat
  period : α → Option Nat

/-- The last place of `x` in a list that has it. -/
def lastIdx {α : Type} [DecidableEq α] (x : α) (l : List α) : Nat := l.length - 1 - l.reverse.idxOf x

/-- The sum of `f` over a list. -/
def total {α : Type} (f : α → Nat) : List α → Nat
  | [] => 0
  | x :: l => f x + total f l

section total

variable {α : Type} {f g : α → Nat} {l : List α}

theorem total_le (h : ∀ x ∈ l, f x ≤ g x) : total f l ≤ total g l := by
  induction l with
  | nil => exact Nat.le_refl _
  | cons x l ih => exact Nat.add_le_add (h x List.mem_cons_self) (ih fun y hy => h y (List.mem_cons_of_mem x hy))

theorem total_congr (h : ∀ x ∈ l, f x = g x) : total f l = total g l :=
  Nat.le_antisymm (total_le fun x hx => Nat.le_of_eq (h x hx)) (total_le fun x hx => Nat.le_of_eq (h x hx).symm)

/-- The elements of a list, counted over the distinct elements of another that has them all. -/
theorem total_count [DecidableEq α] {m : List α} (hl : l.Nodup) (hm : ∀ y ∈ m, y ∈ l) :
    total (fun x => m.count x) l = m.length := by
  induction l generalizing m with
  | nil => rw [List.eq_nil_iff_forall_not_mem.2 fun y hy => List.not_mem_nil (hm y hy)]; rfl
  | cons x l ih =>
    rw [List.nodup_cons] at hl
    -- the others are those of the list without `x`
    have hrest := ih (m := m.filter (· ≠ x)) hl.2 fun y hy => by
      have hy := List.mem_filter.1 hy
      simpa [of_decide_eq_true hy.2] using hm y hy.1
    have hcount : total (fun y => (m.filter (· ≠ x)).count y) l = total (fun y => m.count y) l :=
      total_congr fun y hy => List.count_filter (by simpa using ne_of_mem_of_not_mem hy hl.1)
    rw [total, ← hcount, hrest, ← List.countP_eq_length_filter, List.count, List.length_eq_countP_add_countP (· == x)]
    simp

end total

section lastIdx

variable {α : Type} [DecidableEq α] {x y : α} {l : List α}

theorem count_concat_self : (l ++ [x]).count x = l.count x + 1 := by
  rw [List.count_append, List.count_singleton_self]

theorem count_concat_ne (h : y ≠ x) : (l ++ [y]).count x = l.count x := by
  rw [List.count_append, List.count_eq_zero_of_not_mem (l := [y]) (by simpa using h.symm), Nat.add_zero]

@[simp] theorem lastIdx_concat_self : lastIdx x (l ++ [x]) = l.length := by
  simp [lastIdx]

theorem lastIdx_concat_ne (h : y ≠ x) : lastIdx x (l ++ [y]) = lastIdx x l := by
  simp only [lastIdx, List.reverse_append, List.reverse_singleton, List.singleton_append, List.length_append,
    List.length_singleton, List.idxOf_cons_ne _ h]
  omega

theorem lastIdx_lt (h : x ∈ l) : lastIdx x l < l.length := by
  have := List.length_pos_of_mem h
  rw [lastIdx]
  omega

theorem pairwise_lastIdx (h : l.Nodup) : l.Pairwise fun x y => lastIdx x l < lastIdx y l := by
  induction l using List.reverseRecOn with
  | nil => exact .nil
  | append_singleton l z ih =>
    obtain ⟨hl, -, hz⟩ := List.nodup_append.1 h
    have hne : ∀ x ∈ l, z ≠ x := fun x hx => (hz x hx z (List.mem_singleton_self z)).symm
    refine List.pairwise_append.2 ⟨?_, List.pairwise_singleton _ _, fun x hx y hy => ?_⟩
    · refine (ih hl).imp_of_mem fun {x y} hx hy hxy => ?_
      rwa [lastIdx_concat_ne (hne x hx), lastIdx_concat_ne (hne y hy)]
    · rw [List.mem_singleton.1 hy, lastIdx_concat_self, lastIdx_concat_ne (hne x hx)]
      exact lastIdx_lt hx

end lastIdx

namespace Agenda

variable {α : Type}

/-- `x` is the job to run next. -/
def Next (a : Agenda α) (x : α) : Prop :=
  x ∈ a.jobs ∧ ∀ y ∈ a.jobs, y ≠ x → a.time x < a.time y ∨ a.time x = a.time y ∧ [x, y].Sublist a.jobs

/-- The time of `x` when it has run `n` times. -/
def timeAfter (a : Agenda α) (x : α) (n : Nat) : Nat := a.time x + n * (a.period x).getD 0

/-- How often `x` is due up to `now`. -/
def dueCount (a : Agenda α) (now : Nat) (x : α) : Nat :=
  if a.time x ≤ now then
    match a.period x with
    | none => 1
    | some p => (now - a.time x) / p + 1
  else 0

@[simp] theorem timeAfter_zero (a : Agenda α) (x : α) : a.timeAfter x 0 = a.time x := by simp [timeAfter]

theorem timeAfter_succ (a : Agenda α) (x : α) (n : Nat) :
    a.timeAfter x (n + 1) = a.timeAfter x n + (a.period x).getD 0 := by
  rw [timeAfter, timeAfter, Nat.succ_mul, Nat.add_assoc]

theorem timeAfter_mono (a : Agenda α) (x : α) {m n : Nat} (h : m ≤ n) : a.timeAfter x m ≤ a.timeAfter x n :=
  Nat.add_le_add_left (Nat.mul_le_mul_right _ h) _

/-- How many runs are due up to `now`. -/
def dueTotal (a : Agenda α) (now : Nat) : Nat := total (a.dueCount now) a.jobs

variable [DecidableEq α]

def run (a : Agenda α) (x : α) : Agenda α :=
  match a.period x with
  | none => { a with jobs := a.jobs.erase x }
  | some p => { a with jobs := a.jobs.erase x ++ [x], time := Function.update a.time x (a.time x + p) }

/-- What the order of the runs compares, at the place `k` of the runs `done`: the time of the job, and then
when it was put on the agenda. The putting on of a job is numbered by the jobs on the agenda at the start,
followed by the ones put on again as they run. -/
def runKey (a : Agenda α) (done : List α) (k : Nat) (x : α) : Nat × Nat :=
  (a.timeAfter x ((done.take k).count x), lastIdx x (a.jobs ++ done.take k))

/-- The order of time, and of putting on at one time. -/
def Before (k k' : Nat × Nat) : Prop := k.1 < k'.1 ∨ k.1 = k'.1 ∧ k.2 < k'.2

structure Ran (now : Nat) (a : Agenda α) (done : List α) (b : Agenda α) : Prop where
  period : b.period = a.period
  nodup : b.jobs.Nodup
  mem : ∀ x, x ∈ b.jobs ↔ x ∈ a.jobs ∧ (a.period x = none → x ∉ done)
  time : ∀ x ∈ b.jobs, b.time x = a.timeAfter x (done.count x)
  due : ∀ x ∈ done, x ∈ a.jobs ∧ a.timeAfter x (done.count x - 1) ≤ now
  once : ∀ x, a.period x = none → done.count x ≤ 1
  placed : b.jobs.Pairwise fun x y => lastIdx x (a.jobs ++ done) < lastIdx y (a.jobs ++ done)
  order : ∀ (j k : Nat) (x y : α), j < k → done[j]? = some x → done[k]? = some y →
    Before (a.runKey done j x) (a.runKey done k y)
  ahead : ∀ (j : Nat) (x y : α), done[j]? = some x → y ∈ b.jobs →
    Before (a.runKey done j x) (b.time y, lastIdx y (a.jobs ++ done))

section run

variable {a : Agenda α} {x y : α}

@[simp] theorem period_run : (a.run x).period = a.period := by
  rw [run]
  split <;> rfl

theorem time_run_ne (h : y ≠ x) : (a.run x).time y = a.time y := by
  rw [run]
  split
  · rfl
  · exact Function.update_of_ne h _ _

theorem time_run_self : (a.run x).time x = a.timeAfter x 1 := by
  rw [run, timeAfter]
  split <;> rename_i hp
  · simp [hp]
  · simp [hp]

theorem nodup_run (h : a.jobs.Nodup) : (a.run x).jobs.Nodup := by
  rw [run]
  split
  · exact h.erase x
  · exact (List.perm_append_singleton x _).nodup_iff.2 (List.nodup_cons.2 ⟨h.not_mem_erase, h.erase x⟩)

theorem mem_run (h : a.jobs.Nodup) (hx : x ∈ a.jobs) :
    y ∈ (a.run x).jobs ↔ y ∈ a.jobs ∧ (a.period y = none → y ≠ x) := by
  rw [run]
  by_cases hy : y = x
  · subst hy
    split <;> rename_i hp <;> simp [hp, hx, h.not_mem_erase]
  · split <;> simp [hy, List.mem_erase_of_ne]

/-- The jobs on the agenda stay in their order, behind the others the one that runs. -/
theorem pairwise_run {R : α → α → Prop} (h : (a.jobs.erase x).Pairwise R) (hx : ∀ y ∈ a.jobs.erase x, R y x) :
    (a.run x).jobs.Pairwise R := by
  rw [run]
  split
  · exact h
  · refine List.pairwise_append.2 ⟨h, List.pairwise_singleton _ _, fun y hy z hz => ?_⟩
    rw [List.mem_singleton.1 hz]
    exact hx y hy

end run

theorem Before.trans {k₁ k₂ k₃ : Nat × Nat} (h : Before k₁ k₂) (h' : Before k₂ k₃) : Before k₁ k₃ := by
  unfold Before at *
  omega

theorem runKey_append {a : Agenda α} {done rest : List α} {k : Nat} (h : k ≤ done.length) (x : α) :
    a.runKey (done ++ rest) k x = a.runKey done k x := by
  rw [runKey, runKey, List.take_append_of_le_length h]

namespace Ran

variable {now : Nat} {a b : Agenda α} {done : List α} {x y : α}

theorem init (now : Nat) (h : a.jobs.Nodup) : Ran now a [] a where
  period := rfl
  nodup := h
  mem x := by simp
  time x _ := by simp
  due x hx := by simp at hx
  once x _ := by simp
  placed := by simpa using pairwise_lastIdx h
  order j k x y _ hj := by simp at hj
  ahead j x y hj := by simp at hj

theorem runKey_next (h : Ran now a done b) (hx : x ∈ b.jobs) :
    a.runKey done done.length x = (b.time x, lastIdx x (a.jobs ++ done)) := by
  rw [runKey, List.take_length, h.time x hx]

theorem next_before (h : Ran now a done b) (hx : b.Next x) (hy : y ∈ b.jobs) (hne : y ≠ x) :
    Before (b.time x, lastIdx x (a.jobs ++ done)) (b.time y, lastIdx y (a.jobs ++ done)) := by
  rcases hx.2 y hy hne with hlt | ⟨heq, hsub⟩
  · exact .inl hlt
  · exact .inr ⟨heq, List.pairwise_iff_forall_sublist.1 h.placed hsub⟩

theorem time_lt_run (h : Ran now a done b) (hx : x ∈ b.jobs) (hpos : ∀ p, a.period x = some p → 0 < p)
    (hagain : x ∈ (b.run x).jobs) : b.time x < (b.run x).time x := by
  have hp := ((mem_run h.nodup hx).1 hagain).2
  rw [h.period] at hp
  obtain ⟨p, hp⟩ := Option.ne_none_iff_exists'.1 fun hnone => hp hnone rfl
  have := hpos p hp
  rw [time_run_self, timeAfter, h.period, hp]
  simpa using this

theorem before_run (h : Ran now a done b) (hx : b.Next x) (hpos : ∀ p, a.period x = some p → 0 < p)
    (hy : y ∈ (b.run x).jobs) : Before (b.time x, lastIdx x (a.jobs ++ done))
      ((b.run x).time y, lastIdx y (a.jobs ++ (done ++ [x]))) := by
  by_cases hne : y = x
  · subst hne
    exact .inl (h.time_lt_run hx.1 hpos hy)
  · rw [time_run_ne hne, ← List.append_assoc, lastIdx_concat_ne (Ne.symm hne)]
    exact h.next_before hx ((mem_run h.nodup hx.1).1 hy).1 hne

theorem step (h : Ran now a done b) (hx : b.Next x) (hdue : b.time x ≤ now)
    (hpos : ∀ p, a.period x = some p → 0 < p) : Ran now a (done ++ [x]) (b.run x) := by
  have hxa : x ∈ a.jobs ∧ (a.period x = none → x ∉ done) := (h.mem x).1 hx.1
  have htime : b.time x = a.timeAfter x (done.count x) := h.time x hx.1
  constructor
  · rw [period_run, h.period]
  · exact nodup_run h.nodup
  · intro y
    rw [mem_run h.nodup hx.1, h.mem y, h.period]
    simp only [List.mem_append, List.mem_singleton]
    tauto
  · intro y hy
    by_cases hne : y = x
    · subst hne
      rw [time_run_self, timeAfter_succ, timeAfter_zero, h.period, htime, count_concat_self, timeAfter_succ]
    · rw [time_run_ne hne, h.time y ((mem_run h.nodup hx.1).1 hy).1, count_concat_ne (Ne.symm hne)]
  · intro y hy
    by_cases hne : y = x
    · subst hne
      rw [count_concat_self, Nat.add_sub_cancel, ← htime]
      exact ⟨hxa.1, hdue⟩
    · rw [count_concat_ne (Ne.symm hne)]
      exact h.due y (by simpa [hne] using hy)
  · intro y hy
    by_cases hne : y = x
    · subst hne
      have hnone : done.count y = 0 := List.count_eq_zero_of_not_mem (hxa.2 hy)
      exact Nat.le_of_eq (count_concat_self.trans (congrArg (· + 1) hnone))
    · rw [count_concat_ne (Ne.symm hne)]
      exact h.once y hy
  · have hold : ∀ y ∈ b.jobs.erase x, y ≠ x := fun y hy => ne_of_mem_of_not_mem hy h.nodup.not_mem_erase
    simp only [← List.append_assoc]
    refine pairwise_run ((h.placed.sublist List.erase_sublist).imp_of_mem fun {y z} hy hz hyz => ?_) fun y hy => ?_
    · rwa [lastIdx_concat_ne (hold y hy).symm, lastIdx_concat_ne (hold z hz).symm]
    · rw [lastIdx_concat_self, lastIdx_concat_ne (hold y hy).symm]
      exact lastIdx_lt (List.mem_append_left _ ((h.mem y).1 (List.mem_of_mem_erase hy)).1)
  · intro j k y z hjk hj hk
    rcases getElem?_concat_cases hj with ⟨hjlt, hjold⟩ | ⟨rfl, -⟩
    · rw [runKey_append (Nat.le_of_lt hjlt)]
      rcases getElem?_concat_cases hk with ⟨hklt, hkold⟩ | ⟨rfl, rfl⟩
      · rw [runKey_append (Nat.le_of_lt hklt)]
        exact h.order j k y z hjk hjold hkold
      · rw [runKey_append (Nat.le_refl _), h.runKey_next hx.1]
        exact h.ahead j y z hjold hx.1
    · rcases getElem?_concat_cases hk with ⟨hklt, -⟩ | ⟨rfl, -⟩ <;> omega
  · intro j y z hj hz
    rcases getElem?_concat_cases hj with ⟨hjlt, hjold⟩ | ⟨rfl, rfl⟩
    · rw [runKey_append (Nat.le_of_lt hjlt)]
      exact (h.ahead j y x hjold hx.1).trans (h.before_run hx hpos hz)
    · rw [runKey_append (Nat.le_refl _), h.runKey_next hx.1]
      exact h.before_run hx hpos hz

theorem count_le (h : Ran now a done b) (hpos : ∀ p, a.period x = some p → 0 < p) :
    done.count x ≤ a.dueCount now x := by
  by_cases hx : x ∈ done
  · have hdue := (h.due x hx).2
    have hle : a.time x ≤ now := Nat.le_trans (Nat.le_add_right _ _) hdue
    rw [dueCount, if_pos hle]
    rw [timeAfter] at hdue
    rcases hp : a.period x with _ | p
    · exact h.once x hp
    · rw [hp, Option.getD_some] at hdue
      have : done.count x - 1 ≤ (now - a.time x) / p := (Nat.le_div_iff_mul_le (hpos p hp)).2 (by omega)
      show _ ≤ (now - a.time x) / p + 1
      omega
  · rw [List.count_eq_zero_of_not_mem hx]
    exact Nat.zero_le _

/-- Where no job is due any more, every job has run as often as it was due. -/
theorem count_eq (h : Ran now a done b) (hpos : ∀ p, a.period x = some p → 0 < p)
    (hlate : ∀ y ∈ b.jobs, now < b.time y) (hx : x ∈ a.jobs) : done.count x = a.dueCount now x := by
  refine Nat.le_antisymm (h.count_le hpos) ?_
  have hleft : (a.period x = none → x ∉ done) → now < a.timeAfter x (done.count x) := by
    intro hmem
    have hxb := (h.mem x).2 ⟨hx, hmem⟩
    rw [← h.time x hxb]
    exact hlate x hxb
  rw [dueCount]
  split_ifs with hle
  · rcases hp : a.period x with _ | p
    · by_contra hlt
      have hzero : done.count x = 0 := Nat.lt_one_iff.1 (Nat.not_le.1 hlt)
      have := hleft fun _ => List.count_eq_zero.1 hzero
      rw [hzero, timeAfter_zero] at this
      exact Nat.lt_irrefl _ (Nat.lt_of_lt_of_le this hle)
    · have := hleft fun hnone => by simp [hp] at hnone
      rw [timeAfter, hp, Option.getD_some] at this
      exact (Nat.div_lt_iff_lt_mul (hpos p hp)).2 (by omega)
  · exact Nat.zero_le _

theorem length_eq_total (h : Ran now a done b) (hnodup : a.jobs.Nodup) :
    done.length = total (fun x => done.count x) a.jobs :=
  (total_count hnodup fun x hx => (h.due x hx).1).symm

theorem length_le (h : Ran now a done b) (hnodup : a.jobs.Nodup)
    (hpos : ∀ x ∈ a.jobs, ∀ p, a.period x = some p → 0 < p) : done.length ≤ a.dueTotal now := by
  rw [h.length_eq_total hnodup]
  exact total_le fun x hx => h.count_le (hpos x hx)

theorem length_eq (h : Ran now a done b) (hnodup : a.jobs.Nodup)
    (hpos : ∀ x ∈ a.jobs, ∀ p, a.period x = some p → 0 < p) (hlate : ∀ y ∈ b.jobs, now < b.time y) :
    done.length = a.dueTotal now := by
  rw [h.length_eq_total hnodup]
  exact total_congr fun x hx => h.count_eq (hpos x hx) hlate hx

end Ran

end Agenda

end Lib
