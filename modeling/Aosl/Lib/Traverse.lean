import Aosl.Lib.Attempt

/-!
# Recursive traversals

A traversal of a data structure is a function that calls itself. Each call does something on its own first, `enter`, and
this says which calls it goes on to make: `next k` is the place of the `k`-th, as long as there is one. The calls of one
call are made in a row, in a loop, and add up their results.

`Machine.call` bounds the depth of the recursion and the turns of each loop; `spins` is the outcome when a bound is
reached. `Makes` relates a call to all calls that are made on behalf of it. A traversal fails where one of these fails
on its own (`fails_iff`), two traversals agree that agree on these (`call_congr`), and a traversal ends whose calls go
down in some measure (`call_ends`).
-/

namespace Lib

inductive Stop (ε : Type) where
  | fail (x : ε)
  /-- More depth or more turns are needed. -/
  | spins
deriving DecidableEq

structure Machine (ε σ π : Type) where
  enter : π → Attempt ε σ (Nat × (Nat → Option π))

namespace Machine
open Attempt

variable {ε σ π : Type}

/-- `len += f p` for the places of `next`, from the `k`-th on. -/
def loop (f : π → Attempt (Stop ε) σ Nat) (next : Nat → Option π) : (turns k len : Nat) → Attempt (Stop ε) σ Nat
  | turns, k, len => match next k with
    | none => pure len
    | some p => match turns with
      | 0 => Attempt.fail .spins
      | turns + 1 => f p >>= fun l => loop f next turns (k + 1) (len + l)

def call (M : Machine ε σ π) (turns : Nat) : (depth : Nat) → π → Attempt (Stop ε) σ Nat
  | 0, _ => Attempt.fail .spins
  | depth + 1, p => ⟨fun s => match (M.enter p).run s with
    | (.error x, s) => (.error (.fail x), s)
    | (.ok (len, next), s) => (loop (M.call turns depth) next turns 0 len).run s⟩

variable {M : Machine ε σ π} {f g : π → Attempt (Stop ε) σ Nat} {next : Nat → Option π}
  {turns turns' depth depth' k len : Nat} {p q : π} {s s' t : σ} {x : ε}

/-! ## Loops -/

theorem loop_none (h : next k = none) : loop f next turns k len = pure len := by
  rw [loop, h]

theorem loop_some (h : next k = some p) :
    loop f next (turns + 1) k len = f p >>= fun l => loop f next turns (k + 1) (len + l) := by
  rw [loop, h]

theorem loop_stuck (h : next k = some p) : loop f next 0 k len = Attempt.fail .spins := by
  rw [loop, h]

theorem call_error (h : (M.enter p).run s = (.error x, s')) :
    (M.call turns (depth + 1) p).run s = (.error (.fail x), s') := by
  simp only [call, h]

theorem call_ok (h : (M.enter p).run s = (.ok (len, next), s')) :
    (M.call turns (depth + 1) p).run s = (loop (M.call turns depth) next turns 0 len).run s' := by
  simp only [call, h]

theorem loop_next_congr {next' : Nat → Option π} (h : ∀ i, k ≤ i → i ≤ k + turns → next i = next' i) :
    loop f next turns k len = loop f next' turns k len := by
  induction turns generalizing k len with
  | zero =>
    have hk := h k (Nat.le_refl k) (Nat.le_refl k)
    rw [loop, loop, hk]
  | succ turns ih =>
    have hk := h k (Nat.le_refl k) (Nat.le_add_right k _)
    cases hnext : next' k with
    | none => rw [loop_none (hk.trans hnext), loop_none hnext]
    | some p =>
      rw [loop_some (hk.trans hnext), loop_some hnext]
      congr 1
      funext l
      exact ih fun i hi hle => h i (Nat.le_of_succ_le hi) (by omega)

theorem loop_forever (hnext : ∀ k, next k ≠ none)
    (hcalls : ∀ k q, next k = some q → (f q).run s = (.error .spins, s) ∨ ∃ l, (f q).run s = (.ok l, s)) :
    (loop f next turns k len).run s = (.error .spins, s) := by
  induction turns generalizing k len with
  | zero =>
    obtain ⟨p, hp⟩ := Option.ne_none_iff_exists'.1 (hnext k)
    rw [loop_stuck hp]
    rfl
  | succ turns ih =>
    obtain ⟨p, hp⟩ := Option.ne_none_iff_exists'.1 (hnext k)
    rw [loop_some hp]
    rcases hcalls k p hp with hf | ⟨l, hf⟩
    · exact bind_error hf
    · rw [bind_ok hf, ih]

/-- Where `m` has an outcome, `n` has the same. -/
def Extends (m n : Attempt (Stop ε) σ Nat) : Prop := ∀ s, (m.run s).1 ≠ .error .spins → n.run s = m.run s

theorem loop_extends (hfg : ∀ p, Extends (f p) (g p)) (hle : turns ≤ turns') :
    Extends (loop f next turns k len) (loop g next turns' k len) := by
  induction turns generalizing k len turns' with
  | zero =>
    intro s hs
    cases hnext : next k with
    | none => rw [loop_none hnext, loop_none hnext]
    | some p =>
      rw [loop_stuck hnext] at hs
      exact absurd rfl hs
  | succ turns ih =>
    intro s hs
    cases hnext : next k with
    | none => rw [loop_none hnext, loop_none hnext]
    | some p =>
      obtain ⟨turns', rfl⟩ : ∃ n, turns' = n + 1 := ⟨turns' - 1, by omega⟩
      rw [loop_some hnext] at hs ⊢
      rw [loop_some hnext]
      rcases hf : (f p).run s with ⟨y | l, s₁⟩
      · rw [bind_error hf] at hs ⊢
        have hg := hfg p s (by rwa [hf])
        rw [hf] at hg
        exact bind_error hg
      · have hg := hfg p s (by rw [hf]; exact nofun)
        rw [hf] at hg
        rw [bind_ok hf] at hs ⊢
        rw [bind_ok hg]
        exact ih (Nat.le_of_succ_le_succ hle) s₁ hs

theorem call_extends (hturns : turns ≤ turns') (hdepth : depth ≤ depth') :
    Extends (M.call turns depth p) (M.call turns' depth' p) := by
  induction depth generalizing depth' p with
  | zero => exact fun s hs => absurd rfl hs
  | succ depth ih =>
    obtain ⟨depth', rfl⟩ : ∃ n, depth' = n + 1 := ⟨depth' - 1, by omega⟩
    intro s hs
    rcases henter : (M.enter p).run s with ⟨y | ⟨len, next⟩, s₁⟩
    · rw [call_error henter, call_error henter]
    · rw [call_ok henter] at hs ⊢
      rw [call_ok henter]
      exact loop_extends (fun q => ih (Nat.le_of_succ_le_succ hdepth)) hturns s₁ hs

/-! ## The calls of a traversal -/

/-- The calls of the places from `k` to `j` take `s` to `s'`. -/
inductive Walks (R : π → σ → σ → Prop) (next : Nat → Option π) : Nat → σ → Nat → σ → Prop where
  | nil {k : Nat} {s : σ} : Walks R next k s k s
  | cons {k j : Nat} {p : π} {s s₁ s' : σ} (hnext : next k = some p) (hp : R p s s₁)
      (hrest : Walks R next (k + 1) s₁ j s') : Walks R next k s j s'

def Gives (f : π → Attempt (Stop ε) σ Nat) (p : π) (s s' : σ) : Prop := ∃ l, (f p).run s = (.ok l, s')

/-- The call returns. -/
def Returns (M : Machine ε σ π) (p : π) (s s' : σ) : Prop := ∃ turns depth, Gives (M.call turns depth) p s s'

def Fails (M : Machine ε σ π) (p : π) (s : σ) (x : ε) : Prop :=
  ∃ turns depth s', (M.call turns depth p).run s = (.error (.fail x), s')

/-- The call of `p` in the state `s` makes the call of `q` in the state `t`, or is this call. -/
inductive Makes (M : Machine ε σ π) : π → σ → π → σ → Prop where
  | self {p : π} {s : σ} : Makes M p s p s
  | elem {p q r : π} {s s₁ s₂ t : σ} {len k : Nat} {next : Nat → Option π}
      (henter : (M.enter p).run s = (.ok (len, next), s₁)) (hwalk : Walks M.Returns next 0 s₁ k s₂)
      (hnext : next k = some q) (hq : Makes M q s₂ r t) : Makes M p s r t

theorem Walks.mono {R R' : π → σ → σ → Prop} {j : Nat} (hR : ∀ p s s', R p s s' → R' p s s')
    (h : Walks R next k s j s') : Walks R' next k s j s' := by
  induction h with
  | nil => exact .nil
  | cons hnext hp _ ih => exact .cons hnext (hR _ _ _ hp) ih

theorem Walks.snoc {R : π → σ → σ → Prop} {j : Nat} (h : Walks R next k s j s') (hnext : next j = some p)
    (hp : R p s' t) : Walks R next k s (j + 1) t := by
  induction h with
  | nil => exact .cons hnext hp .nil
  | cons hnext' hp' _ ih => exact .cons hnext' hp' (ih hnext hp)

theorem Gives.extends {s s' : σ} (hfg : Extends (f p) (g p)) (h : Gives f p s s') : Gives g p s s' := by
  obtain ⟨l, hl⟩ := h
  exact ⟨l, by rw [hfg s (by rw [hl]; exact nofun), hl]⟩

theorem Walks.bounded {j : Nat} (h : Walks M.Returns next k s j s') :
    ∃ turns depth, Walks (Gives (M.call turns depth)) next k s j s' := by
  induction h with
  | nil => exact ⟨0, 0, .nil⟩
  | cons hnext hp _ ih =>
    obtain ⟨turns, depth, hp⟩ := hp
    obtain ⟨turns', depth', hwalk⟩ := ih
    refine ⟨max turns turns', max depth depth', .cons hnext (hp.extends ?_) (hwalk.mono fun q t t' hq => hq.extends ?_)⟩
    · exact call_extends (Nat.le_max_left _ _) (Nat.le_max_left _ _)
    · exact call_extends (Nat.le_max_right _ _) (Nat.le_max_right _ _)

theorem Walks.le {R : π → σ → σ → Prop} {j : Nat} (h : Walks R next k s j s') : k ≤ j := by
  induction h with
  | nil => exact Nat.le_refl _
  | cons _ _ _ ih => exact Nat.le_of_succ_le ih

theorem Walks.congr {R : π → σ → σ → Prop} {j : Nat} {next' : Nat → Option π} (h : Walks R next k s j s')
    (hnext : ∀ i, k ≤ i → i < j → next i = next' i) : Walks R next' k s j s' := by
  induction h with
  | nil => exact .nil
  | cons hq hp hrest ih =>
    refine .cons ((hnext _ (Nat.le_refl _) hrest.le).symm.trans hq) hp (ih fun i hi hj => ?_)
    exact hnext i (Nat.le_of_succ_le hi) hj

theorem loop_walk (turns len : Nat) {j : Nat} (h : Walks (Gives f) next k s j s') :
    ∃ len', (loop f next (turns + (j - k)) k len).run s = (loop f next turns j len').run s' := by
  induction h generalizing len with
  | @nil k s => exact ⟨len, by rw [Nat.sub_self, Nat.add_zero]⟩
  | @cons k j p s s₁ s' hnext hp hrest ih =>
    obtain ⟨l, hl⟩ := hp
    obtain ⟨len', hloop⟩ := ih (len + l)
    have hle := hrest.le
    have hturns : turns + (j - k) = turns + (j - (k + 1)) + 1 := by omega
    refine ⟨len', ?_⟩
    rw [hturns, loop_some hnext, bind_ok hl, hloop]

theorem loop_walk_error {j : Nat} {y : Stop ε} (h : Walks (Gives f) next k s j s') (hnext : next j = some p)
    (hp : (f p).run s' = (.error y, t)) (hturns : j < turns + k) : (loop f next turns k len).run s = (.error y, t) := by
  have hle := h.le
  obtain ⟨n, rfl⟩ : ∃ n, turns = n + 1 + (j - k) := ⟨turns - 1 - (j - k), by omega⟩
  obtain ⟨len', hloop⟩ := loop_walk (n + 1) len h
  rw [hloop, loop_some hnext, bind_error hp]

theorem loop_returns {l : Nat} (h : (loop f next turns k len).run s = (.ok l, s')) :
    ∃ j, Walks (Gives f) next k s j s' ∧ next j = none := by
  induction turns generalizing k len s with
  | zero =>
    cases hnext : next k with
    | none =>
      rw [loop_none hnext] at h
      obtain ⟨-, rfl⟩ := Prod.mk.inj h
      exact ⟨k, .nil, hnext⟩
    | some p => simp [loop_stuck hnext] at h
  | succ turns ih =>
    cases hnext : next k with
    | none =>
      rw [loop_none hnext] at h
      obtain ⟨-, rfl⟩ := Prod.mk.inj h
      exact ⟨k, .nil, hnext⟩
    | some p =>
      rw [loop_some hnext] at h
      rcases hf : (f p).run s with ⟨y | l', s₁⟩
      · rw [bind_error hf] at h
        exact absurd (congrArg Prod.fst h) nofun
      · rw [bind_ok hf] at h
        obtain ⟨j, hwalk, hj⟩ := ih h
        exact ⟨j, .cons hnext ⟨l', hf⟩ hwalk, hj⟩

theorem loop_fails (h : (loop f next turns k len).run s = (.error (.fail x), s')) :
    ∃ j q t, Walks (Gives f) next k s j t ∧ next j = some q ∧ (f q).run t = (.error (.fail x), s') := by
  induction turns generalizing k len s with
  | zero =>
    cases hnext : next k with
    | none => simp [loop_none hnext] at h
    | some p => simp [loop_stuck hnext] at h
  | succ turns ih =>
    cases hnext : next k with
    | none => simp [loop_none hnext] at h
    | some p =>
      rw [loop_some hnext] at h
      rcases hf : (f p).run s with ⟨y | l, s₁⟩
      · rw [bind_error hf] at h
        exact ⟨k, p, s, .nil, hnext, hf.trans h⟩
      · rw [bind_ok hf] at h
        obtain ⟨j, q, t, hwalk, hq, hfail⟩ := ih h
        exact ⟨j, q, t, .cons hnext ⟨l, hf⟩ hwalk, hq, hfail⟩

/-- A traversal fails if and only if one of its calls fails on its own. -/
theorem fails_iff : M.Fails p s x ↔ ∃ q t, M.Makes p s q t ∧ ((M.enter q).run t).1 = .error x := by
  constructor
  · rintro ⟨turns, depth, s', h⟩
    induction depth generalizing p s with
    | zero => simp [call] at h
    | succ depth ih =>
      simp only [call] at h
      rcases henter : (M.enter p).run s with ⟨y | ⟨len, next⟩, s₁⟩
      · rw [henter] at h
        refine ⟨p, s, .self, ?_⟩
        rw [henter]
        simpa using congrArg Prod.fst h
      · rw [henter] at h
        obtain ⟨j, q, t, hwalk, hnext, hfail⟩ := loop_fails h
        obtain ⟨r, u, hmakes, hr⟩ := ih hfail
        exact ⟨r, u, .elem henter (hwalk.mono fun _ _ _ hg => ⟨turns, depth, hg⟩) hnext hmakes, hr⟩
  · rintro ⟨q, t, hmakes, hq⟩
    induction hmakes with
    | @self p s =>
      refine ⟨0, 1, ((M.enter p).run s).2, ?_⟩
      simp only [call]
      rcases henter : (M.enter p).run s with ⟨y | ⟨len, next⟩, s₁⟩
      · rw [henter] at hq
        rw [Except.error.inj hq]
      · simp [henter] at hq
    | @elem p q r s s₁ s₂ t len k next henter hwalk hnext _ ih =>
      obtain ⟨turns, depth, s', hfail⟩ := ih hq
      obtain ⟨turns', depth', hwalk⟩ := hwalk.bounded
      -- enough for the calls before, for the one that fails and for the turns of the loop
      obtain ⟨T, hT⟩ : ∃ T, T = max turns turns' + 1 + k := ⟨_, rfl⟩
      obtain ⟨D, hD⟩ : ∃ D, D = max depth depth' := ⟨_, rfl⟩
      have hmore : Extends (M.call turns depth q) (M.call T D q) := call_extends (by omega) (by omega)
      have hq' : (M.call T D q).run s₂ = (.error (.fail x), s') := by
        rw [hmore s₂ (by rw [hfail]; exact nofun), hfail]
      have hwalk' : Walks (Gives (M.call T D)) next 0 s₁ k s₂ :=
        hwalk.mono fun r t t' hr => hr.extends (call_extends (by omega) (by omega))
      refine ⟨T, D + 1, s', ?_⟩
      rw [call_ok henter]
      exact loop_walk_error hwalk' hnext hq' (by omega)

/-- The call of `p` in the state `s` makes the call of `q` in the state `t`, and no further one after it. -/
inductive MakesLast (M : Machine ε σ π) : π → σ → π → σ → Prop where
  | self {p : π} {s : σ} : MakesLast M p s p s
  | elem {p q r : π} {s s₁ s₂ t : σ} {len k : Nat} {next : Nat → Option π}
      (henter : (M.enter p).run s = (.ok (len, next), s₁)) (hwalk : Walks M.Returns next 0 s₁ k s₂)
      (hnext : next k = some q) (hlast : next (k + 1) = none) (hq : MakesLast M q s₂ r t) : MakesLast M p s r t

theorem returns_of_last (h : M.MakesLast p s q t) (hq : (M.enter q).run t = (.ok (len, next), s'))
    (hnone : next 0 = none) : M.Returns p s s' := by
  induction h with
  | self =>
    refine ⟨0, 1, len, ?_⟩
    rw [call_ok hq, loop_none hnone]
    rfl
  | @elem p q r s s₁ s₂ t len₁ k next₁ henter hwalk hnext hlast _ ih =>
    obtain ⟨turns, depth, hwalk⟩ := (hwalk.snoc hnext (ih hq)).bounded
    -- enough for the calls and for the turns of the loop
    have hwalk' : Walks (Gives (M.call (turns + (k + 1 - 0)) depth)) next₁ 0 s₁ (k + 1) s' :=
      hwalk.mono fun r u u' hr => hr.extends (call_extends (Nat.le_add_right ..) (Nat.le_refl _))
    obtain ⟨len₂, hloop⟩ := loop_walk turns len₁ hwalk'
    refine ⟨turns + (k + 1 - 0), depth + 1, len₂, ?_⟩
    rw [call_ok henter, hloop, loop_none hlast]
    rfl

theorem Returns.not_fails (h : M.Returns p s s') : ¬ M.Fails p s x := by
  obtain ⟨turns, depth, l, hl⟩ := h
  rintro ⟨turns', depth', t, ht⟩
  have hok : (M.call (max turns turns') (max depth depth') p).run s = _ :=
    call_extends (Nat.le_max_left ..) (Nat.le_max_left ..) s (by rw [hl]; exact nofun)
  have herr : (M.call (max turns turns') (max depth depth') p).run s = _ :=
    call_extends (Nat.le_max_right ..) (Nat.le_max_right ..) s (by rw [ht]; exact nofun)
  rw [hok, hl, ht] at herr
  exact absurd (congrArg Prod.fst herr) nofun

/-! ## Traversals that agree -/

theorem loop_congr {N : Machine ε σ π} {i : Nat} {s₀ : σ}
    (hcalls : ∀ k s q, Walks M.Returns next 0 s₀ k s → next k = some q →
      (M.call turns' depth q).run s = (N.call turns' depth q).run s)
    (hwalk : Walks M.Returns next 0 s₀ i s) :
    (loop (M.call turns' depth) next turns i len).run s = (loop (N.call turns' depth) next turns i len).run s := by
  induction turns generalizing i len s with
  | zero =>
    cases hnext : next i with
    | none => rw [loop_none hnext, loop_none hnext]
    | some p => rw [loop_stuck hnext, loop_stuck hnext]
  | succ turns ih =>
    cases hnext : next i with
    | none => rw [loop_none hnext, loop_none hnext]
    | some p =>
      have hsame := hcalls i s p hwalk hnext
      rw [loop_some hnext, loop_some hnext]
      rcases hf : (M.call turns' depth p).run s with ⟨y | l, s₁⟩
      · rw [bind_error hf, bind_error (hsame.symm.trans hf)]
      · rw [bind_ok hf, bind_ok (hsame.symm.trans hf)]
        exact ih (hwalk.snoc hnext ⟨turns', depth, l, hf⟩)

/-- Two traversals go the same way if each call that the first one makes does the same in both. -/
theorem call_congr {N : Machine ε σ π} (h : ∀ q t, M.Makes p s q t → (M.enter q).run t = (N.enter q).run t) :
    (M.call turns depth p).run s = (N.call turns depth p).run s := by
  induction depth generalizing p s with
  | zero => rfl
  | succ depth ih =>
    have hself := h p s .self
    rcases henter : (M.enter p).run s with ⟨y | ⟨len, next⟩, s₁⟩
    · rw [call_error henter, call_error (hself.symm.trans henter)]
    · rw [call_ok henter, call_ok (hself.symm.trans henter)]
      exact loop_congr (fun k t q hwalk hnext => ih fun r u hr => h r u (.elem henter hwalk hnext hr)) .nil

theorem walks_congr {N : Machine ε σ π} {j : Nat} {s₀ : σ}
    (h : ∀ k t q, Walks M.Returns next 0 s₀ k t → next k = some q → ∀ r u, M.Makes q t r u →
      (M.enter r).run u = (N.enter r).run u)
    (hwalk : Walks M.Returns next 0 s₀ k s) (hrest : Walks N.Returns next k s j t) :
    Walks M.Returns next 0 s₀ j t := by
  induction hrest with
  | nil => exact hwalk
  | @cons k j p s s₁ t hnext hp _ ih =>
    obtain ⟨turns, depth, l, hl⟩ := hp
    refine ih (hwalk.snoc hnext ⟨turns, depth, l, ?_⟩)
    rw [call_congr (h k s p hwalk hnext), hl]

theorem makes_congr {N : Machine ε σ π} (h : ∀ q t, M.Makes p s q t → (M.enter q).run t = (N.enter q).run t)
    (hmakes : N.Makes p s q t) : M.Makes p s q t := by
  induction hmakes with
  | self => exact .self
  | @elem p q r s s₁ s₂ t len k next henter hwalk hnext _ ih =>
    have henter' := (h p s .self).trans henter
    have hwalk' : Walks M.Returns next 0 s₁ k s₂ :=
      walks_congr (fun k t q hw hn r u hr => h r u (.elem henter' hw hn hr)) .nil hwalk
    exact .elem henter' hwalk' hnext (ih fun r u hr => h r u (.elem henter' hwalk' hnext hr))

/-! ## Traversals that end -/

/-- A measure of the calls that goes down from a call to those it makes, in whatever state they are made that is not
larger. -/
structure Descends (M : Machine ε σ π) (size : σ → Nat) (measure : π → σ → Nat) (turns : Nat) : Prop where
  size_le : ∀ p s, size ((M.enter p).run s).2 ≤ size s
  stops : ∀ p s len next s', (M.enter p).run s = (.ok (len, next), s') → ∃ k ≤ turns, next k = none
  lt : ∀ p s len next s', (M.enter p).run s = (.ok (len, next), s') → ∀ k q, next k = some q → ∀ t,
    size t ≤ size s' → measure q t < measure p s

/-- An outcome within the bounds, in a state that is not larger. -/
def Ends (size : σ → Nat) (m : Attempt (Stop ε) σ Nat) (s : σ) : Prop :=
  (m.run s).1 ≠ .error .spins ∧ size (m.run s).2 ≤ size s

theorem loop_ends {size : σ → Nat} {j : Nat} (hj : next j = none) (hk : k ≤ j) (hturns : j ≤ k + turns)
    (hcalls : ∀ j q t, next j = some q → size t ≤ size s → Ends size (f q) t) :
    Ends size (loop f next turns k len) s := by
  induction turns generalizing k len s with
  | zero =>
    obtain rfl : j = k := by omega
    rw [Ends, loop_none hj]
    exact ⟨nofun, Nat.le_refl _⟩
  | succ turns ih =>
    cases hnext : next k with
    | none =>
      rw [Ends, loop_none hnext]
      exact ⟨nofun, Nat.le_refl _⟩
    | some p =>
      have hp := hcalls k p s hnext (Nat.le_refl _)
      have hne : j ≠ k := fun heq => by simp [← heq, hj] at hnext
      rw [Ends, loop_some hnext]
      rcases hf : (f p).run s with ⟨y | l, s₁⟩
      · rw [bind_error hf]
        rw [Ends, hf] at hp
        exact ⟨fun heq => hp.1 (congrArg _ (Except.error.inj heq)), hp.2⟩
      · rw [bind_ok hf]
        rw [Ends, hf] at hp
        have hrest : Ends size (loop f next turns (k + 1) (len + l)) s₁ :=
          ih (by omega) (by omega) fun j q t hq ht => hcalls j q t hq (Nat.le_trans ht hp.2)
        exact ⟨hrest.1, Nat.le_trans hrest.2 hp.2⟩

theorem call_ends {size : σ → Nat} {measure : π → σ → Nat} (h : M.Descends size measure turns)
    (hdepth : measure p s < depth) : Ends size (M.call turns depth p) s := by
  induction depth generalizing p s with
  | zero => exact absurd hdepth (Nat.not_lt_zero _)
  | succ depth ih =>
    have hsize := h.size_le p s
    rcases henter : (M.enter p).run s with ⟨y | ⟨len, next⟩, s₁⟩
    · rw [henter] at hsize
      rw [Ends, call_error henter]
      exact ⟨nofun, hsize⟩
    · rw [henter] at hsize
      have hloop : Ends size (loop (M.call turns depth) next turns 0 len) s₁ := by
        obtain ⟨j, hj, hnone⟩ := h.stops p s len next s₁ henter
        refine loop_ends hnone (Nat.zero_le j) (by omega) fun j q t hq ht => ih ?_
        have hlt := h.lt p s len next s₁ henter j q hq t ht
        omega
      rw [Ends, call_ok henter]
      exact ⟨hloop.1, Nat.le_trans hloop.2 hsize⟩

end Machine

end Lib
