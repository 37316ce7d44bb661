import Mathlib.Data.List.Basic
import Mathlib.Tactic.Common

/-!
# Computations that may stop half-way

An `Attempt` that stops with an error keeps the state it has reached. `Keeps` is the rule for what every part of it
does to the state. `Follows` and `Trips` compare two of them that run until the second meets something bad: as long as
it does not, the first one goes the same way, and where it does, the first one fails, or nothing is known of it.
-/

namespace Lib

structure Attempt (ε σ α : Type) where
  run : σ → Except ε α × σ

namespace Attempt
variable {ε σ τ α β : Type}

instance : Monad (Attempt ε σ) where
  pure a := ⟨fun s => (.ok a, s)⟩
  bind m f := ⟨fun s => match m.run s with
    | (.ok a, s) => (f a).run s
    | (.error x, s) => (.error x, s)⟩

def fail (x : ε) : Attempt ε σ α := ⟨fun s => (.error x, s)⟩

@[simp] theorem run_pure {a : α} {s : σ} : (pure a : Attempt ε σ α).run s = (.ok a, s) := rfl

@[simp] theorem run_fail {x : ε} {s : σ} : (fail x : Attempt ε σ α).run s = (.error x, s) := rfl

theorem run_bind {m : Attempt ε σ α} {f : α → Attempt ε σ β} {s : σ} :
    (m >>= f).run s = match m.run s with
      | (.ok a, s) => (f a).run s
      | (.error x, s) => (.error x, s) := rfl

theorem bind_ok {m : Attempt ε σ α} {f : α → Attempt ε σ β} {s s' : σ} {a : α} (h : m.run s = (.ok a, s')) :
    (m >>= f).run s = (f a).run s' := by
  rw [run_bind, h]

theorem bind_error {m : Attempt ε σ α} {f : α → Attempt ε σ β} {s s' : σ} {x : ε} (h : m.run s = (.error x, s')) :
    (m >>= f).run s = (.error x, s') := by
  rw [run_bind, h]

/-! ## What becomes of the state -/

/-- The state before and the state afterwards are in `R`. -/
def Keeps (R : σ → σ → Prop) (m : Attempt ε σ α) : Prop := ∀ s, R s (m.run s).2

section
variable {R : σ → σ → Prop}

theorem Keeps.pure {a : α} (hrefl : ∀ s, R s s) : Keeps R (pure a : Attempt ε σ α) := hrefl

theorem Keeps.fail {x : ε} (hrefl : ∀ s, R s s) : Keeps R (fail x : Attempt ε σ α) := hrefl

theorem Keeps.bind {m : Attempt ε σ α} {f : α → Attempt ε σ β} (htrans : ∀ {a b c}, R a b → R b c → R a c)
    (hm : Keeps R m) (hf : ∀ a, Keeps R (f a)) : Keeps R (m >>= f) := by
  intro s
  have h := hm s
  rcases hrun : m.run s with ⟨x | a, s'⟩
  · rw [bind_error hrun]
    rwa [hrun] at h
  · rw [bind_ok hrun]
    rw [hrun] at h
    exact htrans h (hf a s')

end

/-! ## What it costs, and what it results in -/

/-- Nothing is gained, and with success at least `n` is used up of `size`. -/
def Uses (size : σ → Nat) (n : Nat) (m : Attempt ε σ α) : Prop :=
  ∀ s, size (m.run s).2 ≤ size s ∧ ∀ a s', m.run s = (.ok a, s') → size s' + n ≤ size s

/-- Success is with a result in `P`, and an error is in `E`. -/
def Yields (P : α → Prop) (E : ε → Prop) (m : Attempt ε σ α) : Prop :=
  (∀ s a s', m.run s = (.ok a, s') → P a) ∧ ∀ s x s', m.run s = (.error x, s') → E x

section
variable {size : σ → Nat} {n k : Nat} {P : α → Prop} {Q : β → Prop} {E : ε → Prop}

theorem Uses.intro {m : Attempt ε σ α} (h : ∀ s, (∃ a s', m.run s = (.ok a, s') ∧ size s' + n ≤ size s) ∨
    ∃ x s', m.run s = (.error x, s') ∧ size s' ≤ size s) : Uses size n m := by
  intro s
  obtain ⟨a, s', hrun, hle⟩ | ⟨x, s', hrun, hle⟩ := h s
  · rw [hrun]
    refine ⟨by dsimp only; omega, fun b t ht => ?_⟩
    obtain ⟨-, rfl⟩ := Prod.mk.inj ht
    exact hle
  · rw [hrun]
    exact ⟨hle, fun _ _ ht => absurd (congrArg Prod.fst ht) nofun⟩

theorem Uses.pure {a : α} : Uses size 0 (pure a : Attempt ε σ α) :=
  Uses.intro fun s => .inl ⟨a, s, rfl, Nat.le_refl _⟩

theorem Uses.fail {x : ε} : Uses size n (fail x : Attempt ε σ α) :=
  Uses.intro fun s => .inr ⟨x, s, rfl, Nat.le_refl _⟩

theorem Uses.mono {m : Attempt ε σ α} (h : Uses size n m) (hle : k ≤ n) : Uses size k m := fun s =>
  ⟨(h s).1, fun a s' hrun => Nat.le_trans (Nat.add_le_add_left hle _) ((h s).2 a s' hrun)⟩

theorem Uses.bind {m : Attempt ε σ α} {f : α → Attempt ε σ β} (hm : Uses size n m) (hf : ∀ a, Uses size k (f a)) :
    Uses size (n + k) (m >>= f) := by
  intro s
  obtain ⟨hle, hok⟩ := hm s
  rcases hrun : m.run s with ⟨x | a, s₁⟩
  · rw [bind_error hrun]
    rw [hrun] at hle
    exact ⟨hle, fun _ _ h => absurd (congrArg Prod.fst h) nofun⟩
  · have hused := hok a s₁ hrun
    obtain ⟨hle', hok'⟩ := hf a s₁
    rw [bind_ok hrun]
    refine ⟨by omega, fun b s' h => ?_⟩
    have hused' := hok' b s' h
    omega

theorem Uses.bind_left {m : Attempt ε σ α} {f : α → Attempt ε σ β} (hm : Uses size n m) (hf : ∀ a, Uses size 0 (f a)) :
    Uses size n (m >>= f) := hm.bind hf

theorem Yields.of_runs {m : Attempt ε σ α} (h : ∀ s, ∃ n : Attempt ε σ α, m.run s = n.run s ∧ Yields P E n) :
    Yields P E m := by
  constructor
  · intro s a s' hrun
    obtain ⟨n, heq, hn⟩ := h s
    exact hn.1 s a s' (heq.symm.trans hrun)
  · intro s x s' hrun
    obtain ⟨n, heq, hn⟩ := h s
    exact hn.2 s x s' (heq.symm.trans hrun)

theorem Yields.trivial (m : Attempt ε σ α) : Yields (fun _ => True) (fun _ => True) m :=
  ⟨fun _ _ _ _ => True.intro, fun _ _ _ _ => True.intro⟩

theorem Yields.pure {a : α} (h : P a) : Yields P E (pure a : Attempt ε σ α) :=
  ⟨fun _ _ _ hrun => Except.ok.inj (Prod.mk.inj hrun).1 ▸ h, fun _ _ _ hrun => absurd (congrArg Prod.fst hrun) nofun⟩

theorem Yields.fail {x : ε} (h : E x) : Yields P E (fail x : Attempt ε σ α) :=
  ⟨fun _ _ _ hrun => absurd (congrArg Prod.fst hrun) nofun, fun _ _ _ hrun => Except.error.inj (Prod.mk.inj hrun).1 ▸ h⟩

theorem Yields.bind {m : Attempt ε σ α} {f : α → Attempt ε σ β} (hm : Yields P E m) (hf : ∀ a, P a → Yields Q E (f a)) :
    Yields Q E (m >>= f) := by
  constructor
  · intro s b s' h
    rcases hrun : m.run s with ⟨x | a, s₁⟩
    · rw [bind_error hrun] at h
      exact absurd (congrArg Prod.fst h) nofun
    · rw [bind_ok hrun] at h
      exact (hf a (hm.1 s a s₁ hrun)).1 s₁ b s' h
  · intro s x s' h
    rcases hrun : m.run s with ⟨y | a, s₁⟩
    · rw [bind_error hrun] at h
      obtain rfl := Except.error.inj (Prod.mk.inj h).1
      exact hm.2 s y s₁ hrun
    · rw [bind_ok hrun] at h
      exact (hf a (hm.1 s a s₁ hrun)).2 s₁ x s' h

end

/-! ## Two computations until something bad happens -/

/-- Success leads to related states, an error to states in `E`. -/
def Ended (R E : σ → τ → Prop) : Except ε α → σ → τ → Prop
  | .ok _ => R
  | .error _ => E

section
variable {R E : σ → τ → Prop} {bad lost : τ → Prop} {x : ε}

/-- What is bad stays bad. -/
def Stays (bad : τ → Prop) (n : Attempt ε τ α) : Prop := ∀ t, bad t → bad (n.run t).2

/-- As long as `n` meets nothing bad, `m` does the same. -/
def Follows (R E : σ → τ → Prop) (bad : τ → Prop) (m : Attempt ε σ α) (n : Attempt ε τ α) : Prop :=
  ∀ s t, R s t → ¬ bad (n.run t).2 → (m.run s).1 = (n.run t).1 ∧ Ended R E (n.run t).1 (m.run s).2 (n.run t).2

/-- Where `n` meets something bad, `m` fails with `x`, unless `n` is lost. -/
def Trips (R : σ → τ → Prop) (bad lost : τ → Prop) (x : ε) (m : Attempt ε σ α) (n : Attempt ε τ α) : Prop :=
  ∀ s t, R s t → ¬ bad t → bad (n.run t).2 → lost (n.run t).2 ∨ (m.run s).1 = .error x

theorem Stays.bind {n : Attempt ε τ α} {g : α → Attempt ε τ β} (hn : Stays bad n) (hg : ∀ a, Stays bad (g a)) :
    Stays bad (n >>= g) := by
  intro t ht
  have h := hn t ht
  rcases hrun : n.run t with ⟨y | a, t'⟩
  · rw [bind_error hrun]
    rwa [hrun] at h
  · rw [bind_ok hrun]
    rw [hrun] at h
    exact hg a t' h

theorem Follows.bind {m : Attempt ε σ α} {n : Attempt ε τ α} {f : α → Attempt ε σ β} {g : α → Attempt ε τ β}
    (hm : Follows R E bad m n) (hf : ∀ a, Follows R E bad (f a) (g a)) (hg : ∀ a, Stays bad (g a)) :
    Follows R E bad (m >>= f) (n >>= g) := by
  intro s t hR hbad
  have h := hm s t hR
  rcases hn : n.run t with ⟨y | a, t'⟩
  · rw [bind_error hn] at hbad ⊢
    rw [hn] at h
    obtain ⟨heq, hE⟩ := h hbad
    have hrun : m.run s = (.error y, (m.run s).2) := Prod.ext heq rfl
    rw [bind_error hrun]
    exact ⟨rfl, hE⟩
  · rw [bind_ok hn] at hbad ⊢
    rw [hn] at h
    obtain ⟨heq, hR'⟩ := h fun hb => hbad (hg a t' hb)
    have hrun : m.run s = (.ok a, (m.run s).2) := Prod.ext heq rfl
    rw [bind_ok hrun]
    exact hf a _ _ hR' hbad

theorem Trips.bind {m : Attempt ε σ α} {n : Attempt ε τ α} {f : α → Attempt ε σ β} {g : α → Attempt ε τ β}
    (hm : Trips R bad lost x m n) (hfol : Follows R E bad m n) (hf : ∀ a, Trips R bad lost x (f a) (g a))
    (hg : ∀ a, Stays lost (g a)) : Trips R bad lost x (m >>= f) (n >>= g) := by
  intro s t hR hnot hbad
  by_cases hmid : bad (n.run t).2
  · rcases hm s t hR hnot hmid with hlost | herr
    · rcases hn : n.run t with ⟨y | a, t'⟩
      · rw [hn] at hlost
        rw [bind_error hn]
        exact .inl hlost
      · rw [hn] at hlost
        rw [bind_ok hn]
        exact .inl (hg a t' hlost)
    · have hrun : m.run s = (.error x, (m.run s).2) := Prod.ext herr rfl
      rw [bind_error hrun]
      exact .inr rfl
  · obtain ⟨heq, hend⟩ := hfol s t hR hmid
    rcases hn : n.run t with ⟨y | a, t'⟩
    · rw [bind_error hn] at hbad
      rw [hn] at hmid
      exact absurd hbad hmid
    · rw [bind_ok hn] at hbad ⊢
      rw [hn] at heq hend hmid
      have hrun : m.run s = (.ok a, (m.run s).2) := Prod.ext heq rfl
      rw [bind_ok hrun]
      exact hf a _ _ hend hmid hbad

end

end Attempt

end Lib
