import Aosl.Refobj

/-!
# The life of a ref object

`usage` is the base reference and one for each call that holds the object. The base reference goes with the
one call of `aosl_ref_destroy (ref, 1)` that finds the object in the table, so the count reaches 0 once, after
the object has left the table: what frees it runs once, and nobody finds it any more.

The invariant counts calls: `PcLife` says what a call holds at each of its steps, and a step only has to
balance what it takes and gives.
-/

namespace Aosl
open Lib

/-- What a call counts for: it holds a reference; it has uninstalled the object and will drop the base
reference; it is a delete that will return 0; it is going to call the dtor. -/
structure PcLife where
  get : Bool
  going : Bool
  won : Bool
  dying : Bool
deriving DecidableEq

namespace RefPc

def life : RefPc → PcLife
  | want (.destroy del _) => ⟨true, del, false, false⟩
  | attempt (.destroy del _) => ⟨true, del, false, false⟩
  | leave (.destroy del _) _ => ⟨true, del, false, false⟩
  | unlk (.destroy del _) _ => ⟨true, del, false, false⟩
  | invFree => ⟨false, false, false, false⟩
  | dCheck del _ => ⟨true, del, false, false⟩
  | dIn del _ => ⟨true, del, false, false⟩
  | dAfter del _ _ => ⟨true, del, false, false⟩
  | dSpin _ => ⟨true, false, true, false⟩
  | dLast del err => ⟨true, false, del && err.isNone, false⟩
  | dRet del err => ⟨false, false, del && err.isNone, false⟩
  | dying => ⟨false, false, false, true⟩
  | dtor => ⟨false, false, false, false⟩
  | _ => ⟨true, false, false, false⟩

theorem life_dying : RefPc.dying.life = ⟨false, false, false, true⟩ := rfl

theorem life_dying_eq (x : RefPc) : x.life.dying = decide (x = dying) := by
  unfold life
  split <;> simp_all

/-- A delete that has dropped its own reference has nothing left to do but return. -/
theorem life_won {x : RefPc} (h : ¬ x.life.get = true) : x.life.won = decide (x = dRet true none) := by
  rw [Bool.eq_iff_iff]
  unfold life at *
  split <;> simp_all

end RefPc

namespace RefSt

variable {s s' : RefSt} {i : Nat} {l l' rest : List RefPc} {x y : RefPc}

theorem put_thr (s : RefSt) (i : Nat) (l : List RefPc) :
    (s.put i l).thr = s.thr.set i (if s.usage - 1 = 0 then .dying :: l else l) := rfl
theorem put_usage (s : RefSt) (i : Nat) (l : List RefPc) : (s.put i l).usage = s.usage - 1 := rfl
theorem put_deleted (s : RefSt) (i : Nat) (l : List RefPc) : (s.put i l).deleted = s.deleted := rfl
theorem put_installed (s : RefSt) (i : Nat) (l : List RefPc) : (s.put i l).installed = s.installed := rfl
theorem put_dtors (s : RefSt) (i : Nat) (l : List RefPc) : (s.put i l).dtors = s.dtors := rfl

/-- The number of calls with a property. -/
def cnt (s : RefSt) (p : RefPc → Bool) : Nat := s.thr.flatten.countP p

/-- The references that are out. -/
def gets (s : RefSt) : Nat := s.cnt (·.life.get)

/-- The calls of `aosl_ref_destroy (ref, 1)` that returned 0. -/
def wins (s : RefSt) : Nat := s.results.countP fun r => r.1 && r.2.isNone

structure LifeInv (s : RefSt) : Prop where
  usage : s.usage = (if s.deleted then 0 else 1) + s.gets
  going : s.cnt (·.life.going) + (if s.deleted then 1 else 0) = if s.installed then 0 else 1
  won : s.cnt (·.life.won) + s.wins = if s.deleted then 1 else 0
  dying : s.cnt (·.life.dying) + s.dtors = if s.usage = 0 then 1 else 0

theorem cnt_set (hl : s.thr[i]? = some l) (hthr : s'.thr = s.thr.set i l') (p : RefPc → Bool) :
    s'.cnt p + l.countP p = s.cnt p + l'.countP p := by
  rw [cnt, cnt, hthr]
  exact countP_flatten_set_add hl p l'

theorem cnt_pos (hl : s.thr[i]? = some (x :: rest)) {p : RefPc → Bool} (hx : p x = true) : 0 < s.cnt p := by
  have h : (s.goto i []).cnt p + _ = _ := cnt_set hl rfl p
  rw [List.countP_cons, hx, List.countP_nil] at h
  simp only [if_true] at h
  omega

/-- A step of one thread has to balance what its stack counts for. -/
theorem LifeInv.change (h : s.LifeInv) (hl : s.thr[i]? = some l) (hthr : s'.thr = s.thr.set i l')
    (husage : s'.usage + l.countP (·.life.get) + (if s.deleted then 0 else 1) =
      s.usage + l'.countP (·.life.get) + if s'.deleted then 0 else 1)
    (hgoing : l'.countP (·.life.going) + (if s'.deleted then 1 else 0) + (if s.installed then 0 else 1) =
      l.countP (·.life.going) + (if s.deleted then 1 else 0) + if s'.installed then 0 else 1)
    (hwon : l'.countP (·.life.won) + s'.wins + (if s.deleted then 1 else 0) =
      l.countP (·.life.won) + s.wins + if s'.deleted then 1 else 0)
    (hdying : l'.countP (·.life.dying) + s'.dtors + (if s.usage = 0 then 1 else 0) =
      l.countP (·.life.dying) + s.dtors + if s'.usage = 0 then 1 else 0) : s'.LifeInv := by
  have hcnt := fun p => cnt_set hl hthr p
  have hc1 := hcnt (·.life.get)
  have hc2 := hcnt (·.life.going)
  have hc3 := hcnt (·.life.won)
  have hc4 := hcnt (·.life.dying)
  obtain ⟨h1, h2, h3, h4⟩ := h
  rw [gets] at h1
  refine ⟨?_, ?_, ?_, ?_⟩
  · rw [gets]
    omega
  · omega
  · omega
  · omega

theorem LifeInv.quiet (h : s.LifeInv) (hl : s.thr[i]? = some (x :: rest)) (hthr : s'.thr = s.thr.set i (y :: rest))
    (hxy : x.life = y.life) (hs : s'.usage = s.usage ∧ s'.deleted = s.deleted ∧ s'.installed = s.installed ∧
      s'.results = s.results ∧ s'.dtors = s.dtors) : s'.LifeInv := by
  obtain ⟨husage, hdeleted, hinstalled, hresults, hdtors⟩ := hs
  apply h.change hl hthr
  · simp only [List.countP_cons, hxy, husage, hdeleted]
  · simp only [List.countP_cons, hxy, hdeleted, hinstalled]
  · simp only [List.countP_cons, hxy, wins, hresults, hdeleted]
  · simp only [List.countP_cons, hxy, husage, hdtors]

theorem countP_put (n : Nat) (l : List RefPc) (p : RefPc → Bool) :
    (if n = 0 then RefPc.dying :: l else l).countP p = l.countP p + if n = 0 then (if p .dying then 1 else 0) else 0 := by
  split_ifs <;> simp [*]

/-- `__refobj_put`, where the call counts for one reference less afterwards. -/
theorem LifeInv.put (h : s.LifeInv) (hl : s.thr[i]? = some (x :: rest)) (hx : x.life.get = true)
    (hget : l'.countP (·.life.get) = rest.countP (·.life.get))
    (hgoing : l'.countP (·.life.going) = (x :: rest).countP (·.life.going))
    (hwon : l'.countP (·.life.won) = (x :: rest).countP (·.life.won))
    (hdying : l'.countP (·.life.dying) = (x :: rest).countP (·.life.dying)) : (s.put i l').LifeInv := by
  have hpos : 0 < s.gets := cnt_pos hl hx
  have husage := h.usage
  apply h.change hl (put_thr s i l')
  · rw [countP_put, put_usage, put_deleted, hget, List.countP_cons, hx, if_pos rfl, RefPc.life_dying]
    simp only [Bool.false_eq_true, if_false, ite_self]
    omega
  · rw [countP_put, put_deleted, put_installed, hgoing, RefPc.life_dying]
    simp only [Bool.false_eq_true, if_false, ite_self, Nat.add_zero]
  · rw [countP_put, put_deleted, hwon, RefPc.life_dying]
    simp only [Bool.false_eq_true, if_false, ite_self, Nat.add_zero]
    rfl
  · have hne : ¬ s.usage = 0 := by omega
    rw [countP_put, put_usage, put_dtors, hdying, RefPc.life_dying, if_neg hne]
    simp only [if_true]
    omega

theorem LifeInv.not_deleted (h : s.LifeInv) (hin : s.installed = true) : s.deleted = false := by
  have hgoing := h.going
  rw [hin] at hgoing
  rcases hd : s.deleted
  · rfl
  · simp [hd] at hgoing

theorem LifeInv.usage_ne_zero (h : s.LifeInv) (hdel : s.deleted = false) : s.usage ≠ 0 := by
  have := h.usage
  simp only [hdel, Bool.false_eq_true, if_false] at this
  omega

theorem LifeInv.push (h : s.LifeInv) (hl : s.thr[i]? = some l) (hin : s.installed = true)
    (hy : y.life = ⟨true, false, false, false⟩) : ({ s with usage := s.usage + 1 }.goto i (y :: l)).LifeInv := by
  have hdel : s.deleted = false := h.not_deleted hin
  have hne : ¬ s.usage = 0 := h.usage_ne_zero hdel
  apply h.change hl rfl
  · simp [goto, hy, hdel]
    omega
  · simp [goto, hy, hdel, hin]
  · simp [goto, hy, hdel, wins]
  · simp [goto, hy, hne]

theorem LifeInv.crash (h : s.LifeInv) : s.crash.LifeInv := ⟨h.usage, h.going, h.won, h.dying⟩

theorem LifeInv.pop (h : s.LifeInv) (hl : s.thr[i]? = some (x :: rest)) (hx : x.life = ⟨false, false, false, false⟩) :
    (s.goto i rest).LifeInv := by
  apply h.change hl rfl
  all_goals
    rw [List.countP_cons, hx]
    rfl

theorem LifeInv.uninstall {gets : Nat} (h : s.LifeInv) (hl : s.thr[i]? = some (.dUninst gets :: rest))
    (hin : s.installed = true) : ({ s with installed := false }.goto i (.dCheck true gets :: rest)).LifeInv := by
  have hdel : s.deleted = false := h.not_deleted hin
  apply h.change hl rfl
  · simp [goto, RefPc.life, hdel]
  · simp [goto, RefPc.life, hdel, hin]
  · simp [goto, RefPc.life, hdel, wins]
  · simp only [goto, RefPc.life, List.countP_cons]
    rfl

theorem LifeInv.two_le_usage {gets : Nat} {err : Option RefErr} (h : s.LifeInv)
    (hl : s.thr[i]? = some (.dAfter true gets err :: rest)) : s.deleted = false ∧ 2 ≤ s.usage := by
  have hpos : 0 < s.cnt (·.life.going) := cnt_pos hl rfl
  have hget : 0 < s.gets := cnt_pos hl rfl
  have hdel : s.deleted = false := by
    have hgoing := h.going
    rcases hd : s.deleted
    · rfl
    · rw [hd, if_pos rfl] at hgoing
      split_ifs at hgoing
      omega
  refine ⟨hdel, ?_⟩
  rw [h.usage, hdel, if_neg Bool.false_ne_true]
  omega

theorem LifeInv.delete_thr {gets : Nat} {err : Option RefErr} (h : s.LifeInv)
    (hl : s.thr[i]? = some (.dAfter true gets err :: rest)) :
    ({ s with deleted := true }.put i (.dSpin gets :: rest)).thr = s.thr.set i (.dSpin gets :: rest) := by
  have husage := (h.two_le_usage hl).2
  have hne : ¬ s.usage - 1 = 0 := by omega
  rw [put_thr, if_neg hne]

theorem LifeInv.delete {gets : Nat} {err : Option RefErr} (h : s.LifeInv)
    (hl : s.thr[i]? = some (.dAfter true gets err :: rest)) :
    ({ s with deleted := true }.put i (.dSpin gets :: rest)).LifeInv := by
  obtain ⟨hdel, husage⟩ := h.two_le_usage hl
  have hne : ¬ s.usage - 1 = 0 := by omega
  have hne' : ¬ s.usage = 0 := by omega
  apply h.change hl (h.delete_thr hl)
  · simp [RefSt.put, goto, RefPc.life, hdel]
    omega
  · simp [RefSt.put, goto, RefPc.life, hdel]
    rfl
  · simp [RefSt.put, goto, RefPc.life, hdel, wins]
    omega
  · simp [RefSt.put, goto, RefPc.life, hne, hne']

theorem LifeInv.ret {del : Bool} {err : Option RefErr} (h : s.LifeInv) (hl : s.thr[i]? = some (.dRet del err :: rest)) :
    ({ s with results := s.results ++ [(del, err)] }.goto i rest).LifeInv := by
  have hlife : (RefPc.dRet del err).life = ⟨false, false, del && err.isNone, false⟩ := rfl
  have hwins : ({ s with results := s.results ++ [(del, err)] }.goto i rest).wins =
      s.wins + if del && err.isNone then 1 else 0 := by
    simp only [goto, wins, List.countP_append, List.countP_cons, List.countP_nil, Nat.zero_add]
  apply h.change hl rfl
  · simp only [List.countP_cons, hlife]
    rfl
  · simp only [List.countP_cons, hlife]
    rfl
  · rw [hwins, List.countP_cons, hlife]
    change rest.countP (·.life.won) + (s.wins + if del && err.isNone then 1 else 0) + (if s.deleted then 1 else 0) =
      rest.countP (·.life.won) + (if del && err.isNone then 1 else 0) + s.wins + if s.deleted then 1 else 0
    omega
  · simp only [List.countP_cons, hlife]
    rfl

theorem LifeInv.start {op : RefOp} (h : s.LifeInv) (hl : s.thr[i]? = some l) : (s.start i l op).LifeInv := by
  unfold RefSt.start
  split_ifs with hin
  · rcases op with _ | _ | _ | _ | del
    all_goals exact h.push hl hin rfl
  · rcases op with _ | _ | _ | _ | del
    · exact h
    · exact h
    · exact h
    · apply h.change hl rfl
      · rfl
      · rfl
      · rfl
      · rfl
    · refine ⟨h.usage, h.going, ?_, h.dying⟩
      have hwon := h.won
      simpa [wins, cnt, List.countP_append] using hwon

theorem LifeInv.go (h : s.LifeInv) (hl : s.thr[i]? = some (x :: rest)) (hgo : s.go i x rest = some s') :
    s'.LifeInv := by
  rcases x
  case putting =>
    cases hgo
    exact h.put hl rfl rfl (by simp [RefPc.life]) (by simp [RefPc.life]) (by simp [RefPc.life])
  case invFailPut =>
    cases hgo
    exact h.put hl rfl (by simp [RefPc.life]) (by simp [RefPc.life]) (by simp [RefPc.life]) (by simp [RefPc.life])
  case dLast del err =>
    cases hgo
    refine h.put hl rfl (by simp [RefPc.life]) (by simp [RefPc.life]) ?_ (by simp [RefPc.life])
    rw [List.countP_cons, List.countP_cons]
    rfl
  case dUninst gets =>
    simp only [RefSt.go] at hgo
    split_ifs at hgo with hin
    · cases hgo
      exact h.uninstall hl hin
    · cases hgo
      exact h.quiet hl rfl rfl ⟨rfl, rfl, rfl, rfl, rfl⟩
  case dAfter del gets err =>
    simp only [RefSt.go] at hgo
    split_ifs at hgo with hdel
    · cases hgo
      subst hdel
      exact h.delete hl
    · cases hgo
      rw [Bool.not_eq_true] at hdel
      subst hdel
      exact h.quiet hl rfl rfl ⟨rfl, rfl, rfl, rfl, rfl⟩
  case dRet del err =>
    cases hgo
    exact h.ret hl
  case dying =>
    cases hgo
    apply h.change hl rfl
    · rfl
    · rfl
    · rfl
    · change rest.countP (·.life.dying) + (s.dtors + 1) + (if s.usage = 0 then 1 else 0) =
        (RefPc.dying :: rest).countP (·.life.dying) + s.dtors + if s.usage = 0 then 1 else 0
      rw [List.countP_cons, RefPc.life_dying, if_pos rfl]
      omega
  case dtor =>
    cases hgo
    exact h.pop hl rfl
  case invFree =>
    cases hgo
    exact h.pop hl rfl
  case want u =>
    simp only [RefSt.go] at hgo
    split_ifs at hgo
    cases hgo
    exact h.quiet hl rfl (by rcases u <;> rfl) ⟨rfl, rfl, rfl, rfl, rfl⟩
  case attempt u =>
    simp only [RefSt.go] at hgo
    split_ifs at hgo
    all_goals
      cases hgo
      exact h.quiet hl rfl (by rcases u <;> rfl) ⟨rfl, rfl, rfl, rfl, rfl⟩
  case leave u err =>
    cases hgo
    exact h.quiet hl rfl (by rcases u <;> rfl) ⟨rfl, rfl, rfl, rfl, rfl⟩
  case unlk u err =>
    cases hgo
    exact h.quiet hl rfl (by rcases u <;> rfl) ⟨rfl, rfl, rfl, rfl, rfl⟩
  -- the other steps take and give locks, and leave what is counted here alone
  all_goals
    simp only [RefSt.go, invUnlock] at hgo
    try split_ifs at hgo
    all_goals
      cases hgo
      first
        | exact h.crash
        | exact h.quiet hl rfl rfl ⟨rfl, rfl, rfl, rfl, rfl⟩

theorem LifeInv.step {a : RefAct} (h : s.LifeInv) (hs : s.step a = some s') : s'.LifeInv := by
  obtain ⟨i, op, l, hl, -, rfl⟩ | ⟨i, x, rest, hl, hgo⟩ := step_cases hs
  · exact h.start hl
  · exact h.go hl hgo

theorem lifeInv_init (modifyAsync rdlockRecursive callerFree : Bool) (n : Nat) :
    (init modifyAsync rdlockRecursive callerFree n).LifeInv := by
  have hcnt : ∀ p, (init modifyAsync rdlockRecursive callerFree n).cnt p = 0 := by
    intro p
    simp [cnt, init]
  refine ⟨?_, ?_, ?_, ?_⟩
  · rw [gets, hcnt]
    rfl
  · rw [hcnt]
    rfl
  · rw [hcnt]
    rfl
  · rw [hcnt]
    rfl

theorem LifeInv.run {as : List RefAct} (h : s.LifeInv) (hs : exec RefSt.step s as = some s') : s'.LifeInv :=
  exec_invariant_all (fun _ _ _ h hs => h.step hs) h hs

/-- What only grows. -/
structure Grows (s s' : RefSt) : Prop where
  destroyed : s.destroyed = true → s'.destroyed = true
  dtors : s.dtors ≤ s'.dtors

theorem Grows.refl (s : RefSt) : s.Grows s := ⟨id, Nat.le_refl _⟩

theorem Grows.trans {t : RefSt} (h : s.Grows s') (h' : s'.Grows t) : s.Grows t :=
  ⟨fun hd => h'.destroyed (h.destroyed hd), Nat.le_trans h.dtors h'.dtors⟩

theorem grows_step {a : RefAct} (hs : s.step a = some s') : s.Grows s' := by
  obtain ⟨i, op, l, -, -, rfl⟩ | ⟨i, x, rest, -, hgo⟩ := step_cases hs
  · unfold RefSt.start
    split_ifs
    · rcases op
      all_goals exact ⟨id, Nat.le_refl _⟩
    · rcases op
      all_goals exact ⟨id, Nat.le_refl _⟩
  · rcases x
    case dIn =>
      cases hgo
      exact ⟨fun _ => rfl, Nat.le_refl _⟩
    case dying =>
      cases hgo
      exact ⟨id, Nat.le_succ _⟩
    all_goals
      simp only [RefSt.go, invUnlock] at hgo
      try split_ifs at hgo
      all_goals
        cases hgo
        exact ⟨id, Nat.le_refl _⟩

theorem grows_run {as : List RefAct} (hs : exec RefSt.step s as = some s') : s.Grows s' :=
  exec_invariant_all (fun _ _ _ h hs => h.trans (grows_step hs)) (Grows.refl s) hs

/-- No reference is out and none of the calls is going to drop the base reference. -/
theorem LifeInv.dtor_started (h : s.LifeInv) (hd : 0 < s.dtors) :
    s.deleted = true ∧ s.gets = 0 ∧ s.cnt (·.life.won) + s.wins = 1 := by
  have hdying := h.dying
  have husage := h.usage
  have hwon := h.won
  rcases hdel : s.deleted
  · simp only [hdel, Bool.false_eq_true, if_false] at husage
    rw [if_neg (by omega)] at hdying
    omega
  · simp only [hdel, if_true] at husage hwon
    split_ifs at hdying with h0
    · exact ⟨rfl, by omega, hwon⟩
    · omega

theorem cnt_won_of_gets (h : s.gets = 0) : s.cnt (·.life.won) = s.cnt (· = .dRet true none) := by
  unfold gets cnt at h
  rw [List.countP_eq_zero] at h
  apply List.countP_congr
  intro x hx
  rw [RefPc.life_won (h x hx)]

theorem cnt_life_dying (s : RefSt) : s.cnt (·.life.dying) = s.cnt (· = .dying) := by
  apply List.countP_congr
  intro x _
  rw [RefPc.life_dying_eq]

/-- The life of a ref object over all runs. `s'` is any state after `s`: the flag stays, and once the dtor has
been called nothing holds the object again. The dtor is called when the one delete that succeeds has
returned 0 or has only its return left, and no call holds the object. -/
theorem ref_life_cycle {modifyAsync rdlockRecursive callerFree : Bool} {n : Nat} {as bs : List RefAct}
    (hs : exec step (init modifyAsync rdlockRecursive callerFree n) as = some s) (hs' : exec step s bs = some s') :
    s.usage = (if s.deleted then 0 else 1) + s.gets ∧
    s.wins ≤ 1 ∧ (0 < s.wins → s.deleted = true) ∧
    s.dtors ≤ 1 ∧
    (0 < s.dtors → s.deleted = true ∧ s.cnt (· = .dRet true none) + s.wins = 1 ∧ s.gets = 0) ∧
    (s.deleted = true → s.gets = 0 → s.cnt (· = .dying) + s.dtors = 1) ∧
    (s.destroyed = true → s'.destroyed = true) ∧
    (0 < s.dtors → s'.gets = 0 ∧ s'.dtors = 1) := by
  have h : s.LifeInv := (lifeInv_init _ _ _ n).run hs
  have h' : s'.LifeInv := h.run hs'
  have hgrows := grows_run hs'
  have hone : ∀ t : RefSt, t.LifeInv → t.dtors ≤ 1 := by
    intro t ht
    have := ht.dying
    split_ifs at this
    · omega
    · omega
  refine ⟨h.usage, ?_, ?_, hone s h, ?_, ?_, hgrows.destroyed, ?_⟩
  · have := h.won
    split_ifs at this
    · omega
    · omega
  · intro hw
    have := h.won
    split_ifs at this with hdel
    · exact hdel
    · omega
  · intro hd
    obtain ⟨hdel, hgets, hwon⟩ := h.dtor_started hd
    rw [cnt_won_of_gets hgets] at hwon
    exact ⟨hdel, hwon, hgets⟩
  · intro hdel hgets
    have husage := h.usage
    have hdying := h.dying
    rw [hdel, if_pos rfl, hgets] at husage
    rw [if_pos husage] at hdying
    rwa [cnt_life_dying] at hdying
  · intro hd
    have hd' : 0 < s'.dtors := Nat.lt_of_lt_of_le hd hgrows.dtors
    have hle := hone s' h'
    exact ⟨(h'.dtor_started hd').2.1, by omega⟩

/-- A queue runs a function with the object while another thread deletes it; the queue drops its reference
last but one, so the dtor is called in the delete. -/
def deleteRun : List RefAct :=
  [.start 0 .invoke, .go 0, .go 0, .start 1 (.destroy true), .go 1, .go 1, .go 1, .go 1, .go 1, .go 0, .go 0, .go 1,
    .go 1, .go 1, .go 1, .go 1, .go 1, .go 1, .go 0, .go 1, .go 1]

theorem ref_life_cycle_deleteRun : ∃ s s', exec step (init false false false 2) deleteRun = some s ∧
    exec step s [.go 1, .go 1] = some s' ∧ 0 < s.dtors ∧ s'.gets = 0 ∧ s'.wins = 1 := by
  have hany : (exec step (init false false false 2) deleteRun).any (fun s => 0 < s.dtors &&
      (exec step s [.go 1, .go 1]).any (fun s' => s'.wins = 1)) = true := by decide +kernel
  obtain ⟨s, hs, h⟩ := (Option.any_eq_true ..).1 hany
  rw [Bool.and_eq_true, decide_eq_true_eq] at h
  obtain ⟨s', hs', hw⟩ := (Option.any_eq_true ..).1 h.2
  have hlife := ref_life_cycle hs hs'
  exact ⟨s, s', hs, hs', h.1, (hlife.2.2.2.2.2.2.2 h.1).1, of_decide_eq_true hw⟩

end RefSt

end Aosl
