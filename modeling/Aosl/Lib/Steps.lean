import Mathlib.Tactic.Common

/-!
# Runs of a step function

A system is a step function `step : σ → α → Option σ` on states and actions; `none` means that the
action cannot be taken. `exec` runs a list of actions, `Along ok` says that every action of a run
meets a condition on the state it is taken in.
-/

namespace Lib

variable {σ α : Type} (step : σ → α → Option σ) (ok : σ → α → Prop)

/-- The state after a list of actions. -/
def exec : σ → List α → Option σ
  | s, [] => some s
  | s, a :: as => match step s a with
    | none => none
    | some s' => exec s' as

/-- Every action of the run meets `ok`, up to the first one that cannot be taken. -/
def Along : σ → List α → Prop
  | _, [] => True
  | s, a :: as => ok s a ∧ match step s a with
    | none => True
    | some s' => Along s' as

instance decidableAlong [∀ s a, Decidable (ok s a)] : ∀ (s : σ) (as : List α), Decidable (Along step ok s as)
  | _, [] => .isTrue trivial
  | s, a :: as =>
    have : Decidable (match step s a with | none => True | some s' => Along step ok s' as) :=
      match step s a with
      | none => .isTrue trivial
      | some s' => decidableAlong s' as
    inferInstanceAs (Decidable (ok s a ∧ _))

variable {step ok} {I : σ → Prop} {s s' : σ} {as : List α}

@[simp] theorem exec_nil : exec step s [] = some s := rfl

@[simp] theorem along_nil : Along step ok s [] := trivial

theorem exec_cons {a : α} : exec step s (a :: as) = (step s a).bind (exec step · as) := by
  rw [exec]
  cases step s a <;> rfl

theorem along_cons {a : α} :
    Along step ok s (a :: as) ↔ ok s a ∧ ∀ t, step s a = some t → Along step ok t as := by
  rw [Along]
  cases step s a <;> simp

theorem exec_append {bs : List α} : exec step s (as ++ bs) = (exec step s as).bind (exec step · bs) := by
  induction as generalizing s with
  | nil => rfl
  | cons a as ih =>
    rw [List.cons_append, exec_cons, exec_cons]
    cases step s a with
    | none => rfl
    | some t => exact ih

theorem along_of_forall (h : ∀ s a, ok s a) : Along step ok s as := by
  induction as generalizing s with
  | nil => trivial
  | cons a as ih => exact along_cons.2 ⟨h s a, fun _ _ => ih⟩

theorem along_of_mem (h : ∀ a ∈ as, ∀ s, ok s a) : Along step ok s as := by
  induction as generalizing s with
  | nil => trivial
  | cons a as ih =>
    rw [List.forall_mem_cons] at h
    exact along_cons.2 ⟨h.1 s, fun _ _ => ih h.2⟩

/-- An invariant of the steps that meet `ok` holds after every run of such steps. -/
theorem exec_invariant (hstep : ∀ s a s', I s → ok s a → step s a = some s' → I s') (h0 : I s)
    (hok : Along step ok s as) (hrun : exec step s as = some s') : I s' := by
  induction as generalizing s with
  | nil => exact Option.some.inj hrun ▸ h0
  | cons a as ih =>
    rw [along_cons] at hok
    rw [exec_cons, Option.bind_eq_some_iff] at hrun
    obtain ⟨t, ht, hrun⟩ := hrun
    exact ih (hstep s a t h0 hok.1 ht) (hok.2 t ht) hrun

theorem exec_invariant_all (hstep : ∀ s a s', I s → step s a = some s' → I s') (h0 : I s)
    (hrun : exec step s as = some s') : I s' := by
  have hok : Along step (fun _ _ => True) s as := along_of_forall fun _ _ => trivial
  exact exec_invariant (fun s a s' h _ => hstep s a s' h) h0 hok hrun

/-- If every step that meets `ok` can be taken and keeps the invariant, so does every run. -/
theorem exec_total (hstep : ∀ s a, I s → ok s a → ∃ s', step s a = some s' ∧ I s') (h0 : I s)
    (hok : Along step ok s as) : ∃ s', exec step s as = some s' ∧ I s' := by
  induction as generalizing s with
  | nil => exact ⟨s, rfl, h0⟩
  | cons a as ih =>
    rw [along_cons] at hok
    obtain ⟨t, ht, hi⟩ := hstep s a h0 hok.1
    obtain ⟨s', hs', hi'⟩ := ih hi (hok.2 t ht)
    exact ⟨s', by rw [exec_cons, ht]; exact hs', hi'⟩

theorem exec_simulates {τ : Type} {step' : τ → α → Option τ} {R : σ → τ → Prop} {t : τ}
    (hstep : ∀ s a s' t, R s t → step s a = some s' → ∃ t', step' t a = some t' ∧ R s' t') (h0 : R s t)
    (hrun : exec step s as = some s') : ∃ t', exec step' t as = some t' ∧ R s' t' := by
  induction as generalizing s t with
  | nil => exact ⟨t, rfl, Option.some.inj hrun ▸ h0⟩
  | cons a as ih =>
    rw [exec_cons, Option.bind_eq_some_iff] at hrun
    obtain ⟨u, hu, hrun⟩ := hrun
    obtain ⟨u', hu', hr⟩ := hstep s a u t h0 hu
    obtain ⟨t', ht', hr'⟩ := ih hr hrun
    exact ⟨t', by rw [exec_cons, hu']; exact ht', hr'⟩

/-- How many actions of a run are counted by `p`, each in the state it is taken in. -/
def tally (step : σ → α → Option σ) (p : σ → α → Bool) : σ → List α → Nat
  | _, [] => 0
  | s, a :: as => (p s a).toNat + match step s a with
    | none => 0
    | some s' => tally step p s' as

theorem tally_cons {p : σ → α → Bool} {a : α} (h : step s a = some s') :
    tally step p s (a :: as) = (p s a).toNat + tally step p s' as := by
  rw [tally, h]

theorem along_append {bs : List α} :
    Along step ok s (as ++ bs) ↔ Along step ok s as ∧ ∀ t, exec step s as = some t → Along step ok t bs := by
  induction as generalizing s with
  | nil => simp
  | cons a as ih =>
    rw [List.cons_append, along_cons, along_cons, exec_cons]
    rcases step s a with _ | t
    · simp
    · simp [ih, and_assoc]

/-- Every action of a run, in the state it is taken in. -/
theorem along_iff_of_prefixes :
    Along step ok s as ↔ ∀ bs a t, bs ++ [a] <+: as → exec step s bs = some t → ok t a := by
  induction as generalizing s with
  | nil =>
    refine ⟨fun _ bs a t hbs => ?_, fun _ => trivial⟩
    simpa using List.prefix_nil.1 hbs
  | cons b as ih =>
    rw [along_cons]
    constructor
    · rintro ⟨hok, hrest⟩ bs a t hbs hrun
      rcases bs with _ | ⟨b', bs⟩
      · obtain ⟨rfl, -⟩ := List.cons_prefix_cons.1 hbs
        exact Option.some.inj hrun ▸ hok
      · obtain ⟨rfl, hbs'⟩ := List.cons_prefix_cons.1 hbs
        rw [exec_cons, Option.bind_eq_some_iff] at hrun
        obtain ⟨t', ht', hrun⟩ := hrun
        exact ih.1 (hrest t' ht') bs a t hbs' hrun
    · intro hall
      refine ⟨hall [] b s (List.cons_prefix_cons.2 ⟨rfl, List.nil_prefix⟩) rfl, fun t' ht' => ih.2 ?_⟩
      intro bs a t hbs hrun
      refine hall (b :: bs) a t (List.cons_prefix_cons.2 ⟨rfl, hbs⟩) ?_
      rw [exec_cons, ht']
      exact hrun

/-- Where each step of a run keeps a property exactly when it meets `ok`, the property holds in every state of the run
exactly when all its steps meet `ok`. -/
theorem along_iff_forall_reached {P : σ → Prop} (hstep : ∀ s a s', I s → step s a = some s' → I s')
    (hkeep : ∀ s a s', I s → P s → step s a = some s' → (P s' ↔ ok s a))
    (hnone : ∀ s a, I s → step s a = none → ok s a) (h0 : I s) (hP : P s) :
    (∀ bs s', bs <+: as → exec step s bs = some s' → P s') ↔ Along step ok s as := by
  induction as generalizing s with
  | nil =>
    refine ⟨fun _ => trivial, fun _ bs s' hbs hrun => ?_⟩
    rw [List.prefix_nil.1 hbs] at hrun
    exact Option.some.inj hrun ▸ hP
  | cons a as ih =>
    rw [along_cons]
    constructor
    · intro hall
      rcases ht : step s a with _ | t
      · exact ⟨hnone s a h0 ht, nofun⟩
      have hPt : P t := hall [a] t ⟨as, rfl⟩ (by rw [exec_cons, ht]; rfl)
      refine ⟨(hkeep s a t h0 hP ht).1 hPt, fun t' ht' => ?_⟩
      obtain rfl := Option.some.inj ht'
      refine (ih (hstep s a t h0 ht) hPt).1 fun bs s' hbs hrun => ?_
      refine hall (a :: bs) s' (List.cons_prefix_cons.2 ⟨rfl, hbs⟩) ?_
      rw [exec_cons, ht]
      exact hrun
    · rintro ⟨hok, hrest⟩ bs s' hbs hrun
      rcases bs with _ | ⟨b, bs⟩
      · exact Option.some.inj hrun ▸ hP
      obtain ⟨rfl, hbs'⟩ := List.cons_prefix_cons.1 hbs
      rw [exec_cons, Option.bind_eq_some_iff] at hrun
      obtain ⟨t, ht, hrun⟩ := hrun
      exact (ih (hstep s b t h0 ht) ((hkeep s b t h0 hP ht).2 hok)).2 (hrest t ht) bs s' hbs' hrun

end Lib
