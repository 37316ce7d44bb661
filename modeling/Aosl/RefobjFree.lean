import Aosl.RefobjLife

/-!
# The thread that frees a ref object

With `caller_free`, and not `modify_async`, `aosl_ref_destroy (ref, 1)` waits until `usage` is down to its own
reference and those its thread had before. A call of the thread below the delete is code of the user, so
what `get_count` counts there is what the thread holds; when the delete has left its loop, no other thread holds the
object, and nobody finds it any more. The last reference is then dropped on this thread.

`FreeSt` adds to the object who returned 0 from a delete and who called the dtor. Neither is in the code.
-/

namespace Aosl
open Lib

structure FreeSt where
  ref : RefSt
  /-- The threads that returned 0 from `aosl_ref_destroy (ref, 1)`, with the references they held below it. -/
  returned : List (Nat × Nat)
  /-- The threads that called the user dtor, and whether they did inside such a call. -/
  freed : List (Nat × Bool)

namespace FreeSt

def note (s : FreeSt) (i : Nat) (r : RefSt) : List RefPc → FreeSt
  | .dRet true none :: rest => { s with ref := r, returned := s.returned ++ [(i, rest.countP RefPc.isGet)] }
  | .dying :: rest => { s with ref := r, freed := s.freed ++ [(i, decide (rest.head? = some (.dRet true none)))] }
  | _ => { s with ref := r }

def step (s : FreeSt) (a : RefAct) : Option FreeSt :=
  (s.ref.step a).map fun r =>
    match a with
    | .start _ _ => { s with ref := r }
    | .go i => s.note i r (s.ref.thr[i]?.getD [])

theorem note_ref (s : FreeSt) (i : Nat) (r : RefSt) (l : List RefPc) : (s.note i r l).ref = r := by
  unfold note
  split <;> rfl

/-- An object created with `caller_free` and without `modify_async`. -/
def init (rdlockRecursive : Bool) (n : Nat) : FreeSt := ⟨.init false rdlockRecursive true n, [], []⟩

end FreeSt

namespace RefPc

/-- `robj_this_thread_get_count` of a call of `aosl_ref_destroy`. -/
def snap : RefPc → Option Nat
  | want (.destroy _ gets) => some gets
  | attempt (.destroy _ gets) => some gets
  | leave (.destroy _ gets) _ => some gets
  | unlk (.destroy _ gets) _ => some gets
  | dUninst gets => some gets
  | dCheck _ gets => some gets
  | dIn _ gets => some gets
  | dAfter _ gets _ => some gets
  | dSpin gets => some gets
  | _ => none

/-- A delete that has left its loop. -/
def passed : RefPc → Bool
  | dLast del err => del && err.isNone
  | dRet del err => del && err.isNone
  | _ => false

/-- The returning part of a call of `aosl_ref_destroy`. -/
def isRet : RefPc → Bool
  | dRet _ _ => true
  | _ => false

/-- The next step drops a reference, ends the call, or is one of the steps around the dtor. -/
def ends : RefPc → Bool
  | putting => true
  | invFailPut => true
  | invFree => true
  | dAfter del _ _ => del
  | dSpin _ => true
  | dLast _ _ => true
  | dRet _ _ => true
  | dying => true
  | dtor => true
  | _ => false

theorem get_of_atUser {x : RefPc} (h : x.atUser = true) : x.life.get = x.isGet := by
  rcases x <;> first | rfl | cases h

theorem get_of_isRet {x : RefPc} (h : x.isRet = true) : x.life.get = x.isGet := by
  rcases x <;> first | rfl | cases h

theorem snap_of_atUser {x : RefPc} (h : x.atUser = true) : x.snap = none := by
  rcases x <;> first | rfl | cases h

theorem won_of_atUser {x : RefPc} (h : x.atUser = true) : x.life.won = false := by
  rcases x <;> first | rfl | cases h

theorem won_of_passed {x : RefPc} (h : x.passed = true) : x.life.won = true := by
  rcases x <;> first | exact h | cases h

theorem snap_of_isRet {x : RefPc} (h : x.isRet = true) : x.snap = none := by
  rcases x <;> first | rfl | cases h

end RefPc

namespace RefSt

variable {s s' : RefSt} {i j : Nat} {l l' rest : List RefPc} {x y : RefPc}

/-- The calls of a thread for an object with `caller_free`. -/
structure StackInv (s : RefSt) : Prop where
  callerFree : s.callerFree = true
  modifyAsync : s.modifyAsync = false
  /-- A call has another one above it in code of the user, or at its end in `refobj_free`. -/
  below : ∀ l ∈ s.thr, ∀ x ∈ l.tail, x.atUser = true ∨ s.usage = 0 ∧ x.isRet = true
  snap : ∀ l ∈ s.thr, ∀ x rest, l = x :: rest → ∀ g, x.snap = some g → g = rest.countP RefPc.isGet

theorem mem_thr_set (hthr : s'.thr = s.thr.set i l') (hm : l ∈ s'.thr) : l ∈ s.thr ∨ l = l' := by
  rw [hthr] at hm
  exact List.mem_or_eq_of_mem_set hm

/-- The innermost call goes on from `x` to `y`. -/
structure Plain (s s' : RefSt) (i : Nat) (rest : List RefPc) (x y : RefPc) : Prop where
  thr : s'.thr = s.thr.set i (y :: rest)
  flags : s'.callerFree = s.callerFree ∧ s'.modifyAsync = s.modifyAsync
  usage : s'.usage = s.usage
  counts : s'.dtors = s.dtors ∧ s'.wins = s.wins
  snap : ∀ g, y.snap = some g → x.snap = some g ∨ g = s.getCount rest
  calls : (y.life.get = true → x.life.get = true) ∧ y.passed = x.passed ∧ y ≠ .dying

theorem go_plain (hx : x.ends = false) (hgo : s.go i x rest = some s') : s' = s.crash ∨ ∃ y, Plain s s' i rest x y := by
  rcases x
  case dGot del =>
    simp only [RefSt.go] at hgo
    split_ifs at hgo <;> cases hgo
    · exact .inl rfl
    · exact .inl rfl
    · exact .inr ⟨_, rfl, ⟨rfl, rfl⟩, rfl, ⟨rfl, rfl⟩, fun g hg => .inr (Option.some.inj hg).symm, id, rfl,
        RefPc.noConfusion⟩
    · exact .inr ⟨_, rfl, ⟨rfl, rfl⟩, rfl, ⟨rfl, rfl⟩, fun g hg => .inr (Option.some.inj hg).symm, id, rfl,
        RefPc.noConfusion⟩
  case dAfter del gets err =>
    rcases del
    · cases hgo
      exact .inr ⟨_, rfl, ⟨rfl, rfl⟩, rfl, ⟨rfl, rfl⟩, fun g hg => (by cases hg), id, rfl, RefPc.noConfusion⟩
    · cases hx
  case dUninst gets =>
    simp only [RefSt.go] at hgo
    split_ifs at hgo <;> cases hgo
    · exact .inr ⟨_, rfl, ⟨rfl, rfl⟩, rfl, ⟨rfl, rfl⟩, fun g hg => .inl hg, id, rfl, RefPc.noConfusion⟩
    · exact .inr ⟨_, rfl, ⟨rfl, rfl⟩, rfl, ⟨rfl, rfl⟩, fun g hg => (by cases hg), id, rfl, RefPc.noConfusion⟩
  case want u | attempt u | leave u err | unlk u err =>
    rcases u
    all_goals
      simp only [RefSt.go] at hgo
      try split_ifs at hgo
      all_goals
        cases hgo
        exact .inr ⟨_, rfl, ⟨rfl, rfl⟩, rfl, ⟨rfl, rfl⟩, fun g hg => .inl hg, id, rfl, RefPc.noConfusion⟩
  case putting | invFailPut | invFree | dSpin | dLast | dRet | dying | dtor => cases hx
  -- the other steps do not concern the calls of `aosl_ref_destroy`, or keep what these counted
  all_goals
    simp only [RefSt.go, invUnlock] at hgo
    try split_ifs at hgo
    all_goals
      cases hgo
      first
        | exact .inl rfl
        | exact .inr ⟨_, rfl, ⟨rfl, rfl⟩, rfl, ⟨rfl, rfl⟩, fun g hg => .inl hg, id, rfl, RefPc.noConfusion⟩

namespace StackInv

theorem change (h : s.StackInv) (hthr : s'.thr = s.thr.set i l')
    (hflags : s'.callerFree = s.callerFree ∧ s'.modifyAsync = s.modifyAsync) (hzero : s.usage = 0 → s'.usage = 0)
    (hbelow : ∀ x ∈ l'.tail, x.atUser = true ∨ s'.usage = 0 ∧ x.isRet = true)
    (hsnap : ∀ x rest, l' = x :: rest → ∀ g, x.snap = some g → g = rest.countP RefPc.isGet) : s'.StackInv := by
  refine ⟨hflags.1.trans h.callerFree, hflags.2.trans h.modifyAsync, fun l hm => ?_, fun l hm => ?_⟩
  · rcases mem_thr_set hthr hm with hm | rfl
    · intro x hx
      exact (h.below l hm x hx).imp id fun hr => ⟨hzero hr.1, hr.2⟩
    · exact hbelow
  · rcases mem_thr_set hthr hm with hm | rfl
    · exact h.snap l hm
    · exact hsnap

theorem below_rest (h : s.StackInv) (hl : s.thr[i]? = some (x :: rest)) (hy : y ∈ rest) :
    y.atUser = true ∨ s.usage = 0 ∧ y.isRet = true :=
  h.below _ (List.mem_of_getElem? hl) y hy

theorem top (h : s.StackInv) (hl : s.thr[i]? = some (x :: rest)) (hthr : s'.thr = s.thr.set i (y :: rest))
    (hflags : s'.callerFree = s.callerFree ∧ s'.modifyAsync = s.modifyAsync) (hzero : s.usage = 0 → s'.usage = 0)
    (hsnap : ∀ g, y.snap = some g → x.snap = some g ∨ g = rest.countP RefPc.isGet) : s'.StackInv := by
  refine h.change hthr hflags hzero (fun z hz => ?_) fun z rest' heq g hg => ?_
  · exact (h.below_rest hl hz).imp id fun hr => ⟨hzero hr.1, hr.2⟩
  · obtain ⟨rfl, rfl⟩ := List.cons.inj heq
    rcases hsnap g hg with hx | hx
    · exact h.snap _ (List.mem_of_getElem? hl) _ _ rfl g hx
    · exact hx

theorem countP_get (h : s.StackInv) (hl : s.thr[i]? = some (x :: rest)) :
    rest.countP (·.life.get) = rest.countP RefPc.isGet := by
  refine List.countP_congr fun y hy => ?_
  rcases h.below_rest hl hy with hu | ⟨-, hr⟩
  · rw [RefPc.get_of_atUser hu]
  · rw [RefPc.get_of_isRet hr]

theorem crash (h : s.StackInv) : s.crash.StackInv := ⟨h.callerFree, h.modifyAsync, h.below, h.snap⟩

theorem pop (h : s.StackInv) (hl : s.thr[i]? = some (x :: rest)) (hthr : s'.thr = s.thr.set i rest)
    (hflags : s'.callerFree = s.callerFree ∧ s'.modifyAsync = s.modifyAsync) (hzero : s.usage = 0 → s'.usage = 0) :
    s'.StackInv := by
  refine h.change hthr hflags hzero (fun z hz => ?_) fun z rest' heq g hg => ?_
  · exact (h.below_rest hl (List.mem_of_mem_tail hz)).imp id fun hr => ⟨hzero hr.1, hr.2⟩
  · have hz : z ∈ rest := by rw [heq]; exact List.mem_cons_self
    rcases h.below_rest hl hz with hu | ⟨-, hr⟩
    · rw [RefPc.snap_of_atUser hu] at hg
      cases hg
    · rw [RefPc.snap_of_isRet hr] at hg
      cases hg

theorem snap_rest (h : s.StackInv) (hl : s.thr[i]? = some (x :: rest)) (hy : y ∈ rest) : y.snap = none := by
  rcases h.below_rest hl hy with hu | ⟨-, hr⟩
  · exact RefPc.snap_of_atUser hu
  · exact RefPc.snap_of_isRet hr

/-- A call drops the object and goes on as `l'`. -/
theorem put (h : s.StackInv) (hl : s.thr[i]? = some (x :: rest))
    (hnew : ∀ y ∈ l', y ∈ rest ∨ y.atUser = true ∨ y.isRet = true) (hbelow : ∀ y ∈ l'.tail, y ∈ rest) :
    (s.put i l').StackInv := by
  have hzero : s.usage = 0 → (s.put i l').usage = 0 := fun h0 => by rw [put_usage, h0]
  have hrest : ∀ y ∈ rest, y.atUser = true ∨ (s.put i l').usage = 0 ∧ y.isRet = true := fun y hy =>
    (h.below_rest hl hy).imp id fun hr => ⟨hzero hr.1, hr.2⟩
  refine h.change (put_thr s i l') ⟨rfl, rfl⟩ hzero ?_ ?_
  · split_ifs with hlast
    · intro y hy
      rcases hnew y hy with hm | hu | hr
      · exact hrest y hm
      · exact .inl hu
      · exact .inr ⟨hlast, hr⟩
    · intro y hy
      exact hrest y (hbelow y hy)
  · intro y rest' heq g hg
    split_ifs at heq
    · rw [← (List.cons.inj heq).1] at hg
      cases hg
    · have hy : y ∈ l' := by rw [heq]; exact List.mem_cons_self
      have hnone : y.snap = none := by
        rcases hnew y hy with hm | hu | hr
        · exact h.snap_rest hl hm
        · exact RefPc.snap_of_atUser hu
        · exact RefPc.snap_of_isRet hr
      rw [hnone] at hg
      cases hg

theorem push (h : s.StackInv) (hl : s.thr[i]? = some l) (hu : RefSt.atUser l = true)
    (hthr : s'.thr = s.thr.set i (y :: l)) (hflags : s'.callerFree = s.callerFree ∧ s'.modifyAsync = s.modifyAsync)
    (hzero : s.usage = 0 → s'.usage = 0) (hy : y.snap = none) : s'.StackInv := by
  refine h.change hthr hflags hzero (fun z hz => ?_) fun z rest' heq g hg => ?_
  · rcases l with _ | ⟨x, rest⟩
    · cases hz
    · rcases List.mem_cons.1 hz with rfl | hz
      · exact .inl hu
      · exact (h.below_rest hl hz).imp id fun hr => ⟨hzero hr.1, hr.2⟩
  · rw [← (List.cons.inj heq).1, hy] at hg
    cases hg

theorem start {op : RefOp} (h : s.StackInv) (hlife : s.LifeInv) (hl : s.thr[i]? = some l)
    (hu : RefSt.atUser l = true) : (s.start i l op).StackInv := by
  unfold RefSt.start
  split_ifs with hin
  · have hne := hlife.usage_ne_zero (hlife.not_deleted hin)
    rcases op with _ | _ | _ | _ | del
    all_goals exact h.push hl hu rfl ⟨rfl, rfl⟩ (fun h0 => absurd h0 hne) rfl
  · rcases op with _ | _ | _ | _ | del
    · exact h
    · exact h
    · exact h
    · exact h.push hl hu rfl ⟨rfl, rfl⟩ id rfl
    · exact ⟨h.callerFree, h.modifyAsync, h.below, h.snap⟩

theorem go (h : s.StackInv) (hlife : s.LifeInv) (hl : s.thr[i]? = some (x :: rest)) (hgo : s.go i x rest = some s') :
    s'.StackInv := by
  rcases hx : x.ends
  · obtain rfl | ⟨y, hy⟩ := go_plain hx hgo
    · exact h.crash
    · refine h.top hl hy.thr hy.flags (fun h0 => hy.usage.trans h0) fun g hg => (hy.snap g hg).imp id fun heq => ?_
      rw [heq, getCount, if_pos h.callerFree]
  rcases x
  case putting =>
    cases hgo
    exact h.put hl (fun y hy => .inl hy) fun y hy => List.mem_of_mem_tail hy
  case invFailPut =>
    cases hgo
    refine h.put hl (fun y hy => ?_) fun y hy => hy
    rcases List.mem_cons.1 hy with rfl | hy
    exacts [.inr (.inl rfl), .inl hy]
  case dLast del err =>
    cases hgo
    refine h.put hl (fun y hy => ?_) fun y hy => hy
    rcases List.mem_cons.1 hy with rfl | hy
    exacts [.inr (.inr rfl), .inl hy]
  case dAfter del gets err =>
    rcases del
    · cases hx
    · cases hgo
      have husage := (hlife.two_le_usage hl).2
      exact h.top hl (hlife.delete_thr hl) ⟨rfl, rfl⟩ (fun h0 => by omega) fun g hg => .inl hg
  case dSpin gets =>
    simp only [RefSt.go] at hgo
    split_ifs at hgo
    cases hgo
    exact h.top hl rfl ⟨rfl, rfl⟩ id fun g hg => (by cases hg)
  case dying =>
    cases hgo
    exact h.top hl rfl ⟨rfl, rfl⟩ id fun g hg => (by cases hg)
  case dRet | dtor | invFree =>
    cases hgo
    exact h.pop hl rfl ⟨rfl, rfl⟩ id
  all_goals cases hx

end StackInv

end RefSt

namespace RefSt

variable {s s' : RefSt} {i j : Nat} {l l' : List RefPc}

/-- No thread but `i` holds the object. -/
def OnlyHolder (s : RefSt) (i : Nat) : Prop :=
  ∀ (j : Nat) (l : List RefPc), j ≠ i → s.thr[j]? = some l → l.countP (·.life.get) = 0

theorem countP_le_cnt (hl : s.thr[i]? = some l) (p : RefPc → Bool) : l.countP p ≤ s.cnt p := by
  have hset : (s.goto i []).cnt p + l.countP p = s.cnt p + ([] : List RefPc).countP p := cnt_set hl rfl p
  rw [List.countP_nil] at hset
  omega

theorem countP_add_le_cnt (hl : s.thr[i]? = some l) (hl' : s.thr[j]? = some l') (hne : j ≠ i) (p : RefPc → Bool) :
    l.countP p + l'.countP p ≤ s.cnt p := by
  have hset : (s.goto i []).cnt p + l.countP p = s.cnt p + ([] : List RefPc).countP p := cnt_set hl rfl p
  have hle : l'.countP p ≤ (s.goto i []).cnt p := countP_le_cnt ((getElem?_set_ne (Ne.symm hne)).trans hl') p
  rw [List.countP_nil] at hset
  omega

theorem exists_of_cnt_pos {p : RefPc → Bool} (h : 0 < s.cnt p) :
    ∃ (i : Nat) (l : List RefPc) (x : RefPc), s.thr[i]? = some l ∧ x ∈ l ∧ p x = true := by
  obtain ⟨x, hx, hp⟩ := List.countP_pos_iff.1 h
  obtain ⟨l, hl, hxl⟩ := List.mem_flatten.1 hx
  obtain ⟨i, hi⟩ := List.mem_iff_getElem?.1 hl
  exact ⟨i, l, x, hi, hxl, hp⟩

theorem OnlyHolder.gets_eq (h : s.OnlyHolder i) (hl : s.thr[i]? = some l) : s.gets = l.countP (·.life.get) := by
  have hset : (s.goto i []).cnt (·.life.get) + l.countP (·.life.get) = s.gets + ([] : List RefPc).countP _ :=
    cnt_set hl rfl (·.life.get)
  rw [List.countP_nil] at hset
  have hzero : (s.goto i []).cnt (·.life.get) = 0 := by
    by_contra hne
    obtain ⟨j, lj, x, hlj, hx, hxg⟩ := exists_of_cnt_pos (Nat.pos_of_ne_zero hne)
    by_cases hji : j = i
    · subst hji
      have hself : (s.goto j []).thr[j]? = some [] := getElem?_set_self hl
      rw [hself] at hlj
      rw [← Option.some.inj hlj] at hx
      cases hx
    · have hlj' : s.thr[j]? = some lj := (getElem?_set_ne (Ne.symm hji)).symm.trans hlj
      exact List.countP_eq_zero.1 (h j lj hji hlj') x hx hxg
  omega

end RefSt

namespace FreeSt

variable {s s' : FreeSt} {i j : Nat} {l l' rest : List RefPc} {x y : RefPc}

/-- The delete of thread `i` has left its loop. -/
def Past (s : FreeSt) (i : Nat) : Prop :=
  (∃ g, (i, g) ∈ s.returned) ∨ ∃ l, s.ref.thr[i]? = some l ∧ ∃ x ∈ l, x.passed = true

/-- The thread dropped its last reference inside its delete, or held references when this returned. -/
def OwnPut (s : FreeSt) (i : Nat) (inside : Prop) : Prop := inside ∨ ∃ g, 0 < g ∧ (i, g) ∈ s.returned

structure FreeInv (s : FreeSt) : Prop where
  life : s.ref.LifeInv
  stack : s.ref.StackInv
  alone : ∀ i, s.Past i → s.ref.OnlyHolder i
  fewer : ∀ i g, (i, g) ∈ s.returned → ∀ l, s.ref.thr[i]? = some l → l.countP (·.life.get) ≤ g
  dies : ∀ i rest, s.ref.thr[i]? = some (.dying :: rest) →
    s.Past i ∧ s.OwnPut i (rest.head? = some (.dRet true none))
  freed : ∀ i b, (i, b) ∈ s.freed → s.Past i ∧ s.OwnPut i (b = true)
  calls : s.freed.length = s.ref.dtors
  wins : s.returned.length = s.ref.wins

namespace FreeInv

/-- A step of thread `i`. -/
theorem change (h : s.FreeInv) (hl : s.ref.thr[i]? = some l) (hthr : s'.ref.thr = s.ref.thr.set i l')
    (hlife : s'.ref.LifeInv) (hstack : s'.ref.StackInv) (hget : l'.countP (·.life.get) ≤ l.countP (·.life.get))
    (hkeep : ∀ p ∈ s.returned, p ∈ s'.returned)
    (hnew : ∀ j g, (j, g) ∈ s'.returned → (j, g) ∈ s.returned ∨ j = i ∧ s.Past i ∧ l'.countP (·.life.get) ≤ g)
    (hpast : (∃ x ∈ l, x.passed = true) → s'.Past i)
    (hpass : (∃ x ∈ l', x.passed = true) → s.Past i ∨ s.ref.OnlyHolder i)
    (hdies : ∀ rest, l' = .dying :: rest → s'.Past i ∧ s'.OwnPut i (rest.head? = some (.dRet true none)))
    (hfreed : ∀ j b, (j, b) ∈ s'.freed → (j, b) ∈ s.freed ∨ s'.Past j ∧ s'.OwnPut j (b = true))
    (hcalls : s'.freed.length = s'.ref.dtors) (hwins : s'.returned.length = s'.ref.wins) : s'.FreeInv := by
  have hself : s'.ref.thr[i]? = some l' := by rw [hthr]; exact getElem?_set_self hl
  have hother : ∀ {j : Nat}, j ≠ i → s'.ref.thr[j]? = s.ref.thr[j]? := fun hne => by
    rw [hthr]
    exact getElem?_set_ne (Ne.symm hne)
  have hpast' : ∀ j, s.Past j → s'.Past j := by
    rintro j (⟨g, hg⟩ | ⟨lj, hlj, hx⟩)
    · exact .inl ⟨g, hkeep _ hg⟩
    · by_cases hne : j = i
      · subst hne
        rw [hl] at hlj
        exact hpast (Option.some.inj hlj ▸ hx)
      · exact .inr ⟨lj, (hother hne).trans hlj, hx⟩
  have hown : ∀ j b, s.OwnPut j b → s'.OwnPut j b := fun j b => Or.imp id fun ⟨g, hpos, hg⟩ => ⟨g, hpos, hkeep _ hg⟩
  -- a delete that is past its loop was so before, or has just seen that nobody else holds the object
  have hfrom : ∀ j, s'.Past j → s.Past j ∨ j = i ∧ s.ref.OnlyHolder i := by
    rintro j (⟨g, hg⟩ | ⟨lj, hlj, hx⟩)
    · rcases hnew j g hg with hg | ⟨rfl, hp, -⟩
      exacts [.inl (.inl ⟨g, hg⟩), .inl hp]
    · by_cases hne : j = i
      · subst hne
        rw [hself] at hlj
        exact (hpass (Option.some.inj hlj ▸ hx)).imp id fun ho => ⟨rfl, ho⟩
      · exact .inl (.inr ⟨lj, (hother hne).symm.trans hlj, hx⟩)
  refine ⟨hlife, hstack, fun k hk j lj hne hlj => ?_, fun k g hg lk hlk => ?_, fun k rest hk => ?_, fun k b hb => ?_,
    hcalls, hwins⟩
  · have hold : ∀ l₀, s.ref.thr[j]? = some l₀ → s.Past k ∨ k = i ∧ s.ref.OnlyHolder i → l₀.countP (·.life.get) = 0 := by
      rintro l₀ hl₀ (hp | ⟨rfl, ho⟩)
      exacts [h.alone k hp j l₀ hne hl₀, ho j l₀ hne hl₀]
    by_cases hji : j = i
    · subst hji
      rw [hself] at hlj
      have := hold l hl (hfrom k hk)
      rw [← Option.some.inj hlj]
      omega
    · exact hold lj ((hother hji).symm.trans hlj) (hfrom k hk)
  · by_cases hki : k = i
    · subst hki
      rw [hself] at hlk
      rw [← Option.some.inj hlk]
      rcases hnew k g hg with hg | ⟨-, -, hle⟩
      exacts [Nat.le_trans hget (h.fewer k g hg l hl), hle]
    · rcases hnew k g hg with hg | ⟨rfl, -, -⟩
      exacts [h.fewer k g hg lk ((hother hki).symm.trans hlk), absurd rfl hki]
  · by_cases hki : k = i
    · subst hki
      exact hdies rest (Option.some.inj (hself.symm.trans hk))
    · exact (h.dies k rest ((hother hki).symm.trans hk)).imp (hpast' k) (hown k _)
  · rcases hfreed k b hb with hb | hb
    exacts [(h.freed k b hb).imp (hpast' k) (hown k _), hb]

theorem move {r : RefSt} (h : s.FreeInv) (hl : s.ref.thr[i]? = some l) (hthr : r.thr = s.ref.thr.set i l')
    (hlife : r.LifeInv) (hstack : r.StackInv) (hget : l'.countP (·.life.get) ≤ l.countP (·.life.get))
    (hpast : (∃ x ∈ l, x.passed = true) → ∃ x ∈ l', x.passed = true)
    (hpass : (∃ x ∈ l', x.passed = true) → s.Past i ∨ s.ref.OnlyHolder i)
    (hdies : ∀ rest, l' = .dying :: rest →
      ((∃ x ∈ l', x.passed = true) ∨ s.Past i) ∧ s.OwnPut i (rest.head? = some (.dRet true none)))
    (hdtors : r.dtors = s.ref.dtors) (hwins : r.wins = s.ref.wins) : FreeInv { s with ref := r } := by
  have hself : r.thr[i]? = some l' := by rw [hthr]; exact getElem?_set_self hl
  have hpast' : (∃ x ∈ l', x.passed = true) → Past { s with ref := r } i := fun hx => .inr ⟨l', hself, hx⟩
  refine h.change hl hthr hlife hstack hget (fun p hp => hp) (fun j g hg => .inl hg) (fun hx => hpast' (hpast hx)) hpass
    (fun rest hrest => ?_) (fun j b hb => .inl hb) (h.calls.trans hdtors.symm) (h.wins.trans hwins.symm)
  obtain ⟨hx, hown⟩ := hdies rest hrest
  refine ⟨?_, hown⟩
  rcases hx with hx | ⟨g, hg⟩ | ⟨l₀, hl₀, hx⟩
  · exact hpast' hx
  · exact .inl ⟨g, hg⟩
  · rw [hl] at hl₀
    exact hpast' (hpast (Option.some.inj hl₀ ▸ hx))

theorem past_of_mem (hl : s.ref.thr[i]? = some l) (hx : ∃ x ∈ l, x.passed = true) : s.Past i := .inr ⟨l, hl, hx⟩

theorem exists_passed_cons {x : RefPc} (hx : x.passed = false) :
    (∃ z ∈ rest, z.passed = true) ↔ ∃ z ∈ x :: rest, z.passed = true := by
  rw [List.exists_mem_cons_iff, hx]
  exact (or_iff_right Bool.false_ne_true).symm

theorem rest_ne_dying (h : s.FreeInv) (hl : s.ref.thr[i]? = some (x :: rest)) {rest' : List RefPc} :
    rest ≠ .dying :: rest' := by
  intro heq
  rcases h.stack.below_rest hl (heq ▸ List.mem_cons_self) with hu | ⟨-, hr⟩
  · cases hu
  · cases hr

theorem top {r : RefSt} (h : s.FreeInv) (hl : s.ref.thr[i]? = some (x :: rest))
    (hthr : r.thr = s.ref.thr.set i (y :: rest)) (hlife : r.LifeInv) (hstack : r.StackInv)
    (hsame : (y.life.get = true → x.life.get = true) ∧ y.passed = x.passed ∧ y ≠ .dying)
    (hsame' : r.dtors = s.ref.dtors ∧ r.wins = s.ref.wins) : FreeInv { s with ref := r } := by
  obtain ⟨hget, hpassed, hdying⟩ := hsame
  have hmem : (∃ z ∈ y :: rest, z.passed = true) ↔ ∃ z ∈ x :: rest, z.passed = true := by
    simp only [List.exists_mem_cons_iff, hpassed]
  refine h.move hl hthr hlife hstack ?_ hmem.2 (fun hz => .inl (past_of_mem hl (hmem.1 hz))) (fun rest' heq => ?_)
    hsame'.1 hsame'.2
  · rw [List.countP_cons, List.countP_cons]
    split_ifs with h1 h2
    · exact Nat.le_refl _
    · exact absurd (hget h1) h2
    · exact Nat.le_succ _
    · exact Nat.le_refl _
  · exact absurd (List.cons.inj heq).1 hdying

theorem pop {r : RefSt} (h : s.FreeInv) (hl : s.ref.thr[i]? = some (x :: rest)) (hthr : r.thr = s.ref.thr.set i rest)
    (hlife : r.LifeInv) (hstack : r.StackInv) (hx : x.passed = false)
    (hsame' : r.dtors = s.ref.dtors ∧ r.wins = s.ref.wins) : FreeInv { s with ref := r } := by
  have hmem : (∃ z ∈ rest, z.passed = true) ↔ ∃ z ∈ x :: rest, z.passed = true := exists_passed_cons hx
  have hget : rest.countP (·.life.get) ≤ (x :: rest).countP (·.life.get) := by
    rw [List.countP_cons]
    exact Nat.le_add_right _ _
  exact h.move hl hthr hlife hstack hget hmem.2 (fun hz => .inl (past_of_mem hl (hmem.1 hz)))
    (fun rest' heq => absurd heq (h.rest_ne_dying hl)) hsame'.1 hsame'.2

/-- The thread that drops the last reference is in its delete, or has returned from it. -/
theorem last (h : s.FreeInv) (hl : s.ref.thr[i]? = some (x :: rest)) (hx : x.life.get = true)
    (hwon : x.life.won = true → x.passed = true) (hlast : s.ref.usage - 1 = 0) :
    x.passed = true ∨ ∃ g, 0 < g ∧ (i, g) ∈ s.returned := by
  have hcount : 0 < (x :: rest).countP (·.life.get) := List.countP_pos_iff.2 ⟨x, List.mem_cons_self, hx⟩
  have hgets : 0 < s.ref.gets := RefSt.cnt_pos hl hx
  have husage := h.life.usage
  have hdel : s.ref.deleted = true := by
    by_contra hdel
    rw [if_neg hdel] at husage
    omega
  have hwins := h.life.won
  rw [if_pos hdel] at husage hwins
  -- the delete that has dropped the base reference has returned or not
  rcases Nat.eq_zero_or_pos s.ref.wins with hzero | hpos
  · left
    obtain ⟨k, lk, y, hlk, hy, hyw⟩ := RefSt.exists_of_cnt_pos (s := s.ref) (p := (·.life.won)) (by omega)
    by_cases hne : k = i
    · subst hne
      obtain rfl := Option.some.inj (hl.symm.trans hlk)
      rcases List.mem_cons.1 hy with rfl | hy
      · exact hwon hyw
      · rcases h.stack.below_rest hl hy with hu | ⟨h0, -⟩
        · rw [RefPc.won_of_atUser hu] at hyw
          cases hyw
        · omega
    · by_cases hyg : y.life.get = true
      · have hk : 0 < lk.countP (·.life.get) := List.countP_pos_iff.2 ⟨y, hy, hyg⟩
        have hle : _ ≤ s.ref.gets := RefSt.countP_add_le_cnt hl hlk hne (·.life.get)
        omega
      · rw [RefPc.life_won hyg, decide_eq_true_eq] at hyw
        have hpast : s.Past k := past_of_mem hlk ⟨y, hy, by rw [hyw]; rfl⟩
        have := h.alone k hpast i _ (Ne.symm hne) hl
        omega
  · right
    rw [← h.wins] at hpos
    obtain ⟨⟨k, g⟩, hmem⟩ := List.exists_mem_of_length_pos hpos
    have hk : k = i := by
      by_contra hne
      have := h.alone k (.inl ⟨g, hmem⟩) i _ (Ne.symm hne) hl
      omega
    subst hk
    exact ⟨g, Nat.lt_of_lt_of_le hcount (h.fewer k g hmem _ hl), hmem⟩

theorem put (h : s.FreeInv) (hl : s.ref.thr[i]? = some (x :: rest)) (hx : x.life.get = true)
    (hwon : x.life.won = true → x.passed = true) (hlife : (s.ref.put i l').LifeInv) (hstack : (s.ref.put i l').StackInv)
    (hget : l'.countP (·.life.get) = rest.countP (·.life.get))
    (hmem : (∃ z ∈ l', z.passed = true) ↔ ∃ z ∈ x :: rest, z.passed = true)
    (hin : x.passed = true → l'.head? = some (.dRet true none)) (hdying : ∀ rest', l' ≠ .dying :: rest') :
    FreeInv { s with ref := s.ref.put i l' } := by
  have hmem' : (∃ z ∈ if s.ref.usage - 1 = 0 then RefPc.dying :: l' else l', z.passed = true) ↔
      ∃ z ∈ x :: rest, z.passed = true := by
    rw [← hmem]
    split_ifs
    · exact (List.exists_mem_cons_iff _ _ _).trans (or_iff_right (by decide))
    · exact Iff.rfl
  refine h.move hl (RefSt.put_thr s.ref i l') hlife hstack ?_ hmem'.2 (fun hz => .inl (past_of_mem hl (hmem'.1 hz)))
    (fun rest' heq => ?_) rfl rfl
  · rw [RefSt.countP_put, hget, RefPc.life_dying, List.countP_cons]
    simp only [Bool.false_eq_true, if_false, ite_self]
    exact Nat.add_le_add_left (Nat.zero_le _) _
  · split_ifs at heq with hlast
    · obtain ⟨-, rfl⟩ := List.cons.inj heq
      rcases h.last hl hx hwon hlast with hp | ⟨g, hpos, hg⟩
      · exact ⟨.inr (past_of_mem hl ⟨x, List.mem_cons_self, hp⟩), .inl (hin hp)⟩
      · exact ⟨.inr (.inl ⟨g, hg⟩), .inr ⟨g, hpos, hg⟩⟩
    · exact absurd heq (hdying rest')

/-- The loop of the delete ends when no other thread holds the object. -/
theorem onlyHolder_iff {g : Nat} (h : s.FreeInv) (hl : s.ref.thr[i]? = some (.dSpin g :: rest)) :
    s.ref.usage ≤ 1 + g ↔ s.ref.OnlyHolder i := by
  have hsnap : g = rest.countP RefPc.isGet := h.stack.snap _ (List.mem_of_getElem? hl) _ _ rfl g rfl
  have hown : (RefPc.dSpin g :: rest).countP (·.life.get) = 1 + g := by
    rw [List.countP_cons, h.stack.countP_get hl, hsnap, Nat.add_comm]
    rfl
  have husage : s.ref.usage = s.ref.gets := by
    have hwon : 0 < s.ref.cnt (·.life.won) := RefSt.cnt_pos hl rfl
    have hdel := h.life.won
    have husage := h.life.usage
    split_ifs at hdel husage
    · omega
    · omega
  constructor
  · intro hle j lj hne hlj
    have hsum : _ ≤ s.ref.gets := RefSt.countP_add_le_cnt hl hlj hne (·.life.get)
    omega
  · intro honly
    have := honly.gets_eq hl
    omega

/-- Before the base reference is dropped nothing has been returned or freed. -/
theorem of_not_deleted (hlife : s.ref.LifeInv) (hstack : s.ref.StackInv) (hdel : s.ref.deleted = false)
    (hcalls : s.freed.length = s.ref.dtors) (hwins : s.returned.length = s.ref.wins) : s.FreeInv := by
  have hwon := hlife.won
  have hdying := hlife.dying
  rw [hdel, if_neg Bool.false_ne_true] at hwon
  rw [if_neg (hlife.usage_ne_zero hdel)] at hdying
  have hret : s.returned = [] := List.eq_nil_of_length_eq_zero (by omega)
  have hfree : s.freed = [] := List.eq_nil_of_length_eq_zero (by omega)
  have hpast : ∀ i, ¬s.Past i := by
    rintro i (⟨g, hg⟩ | ⟨l, hl, x, hx, hp⟩)
    · rw [hret] at hg
      cases hg
    · have hmem : x ∈ s.ref.thr.flatten := List.mem_flatten.2 ⟨l, List.mem_of_getElem? hl, hx⟩
      have := List.countP_eq_zero.1 (show s.ref.cnt (·.life.won) = 0 by omega) x hmem
      exact this (RefPc.won_of_passed hp)
  refine ⟨hlife, hstack, fun i hp => absurd hp (hpast i), fun i g hg => ?_, fun i rest hl => ?_, fun i b hb => ?_,
    hcalls, hwins⟩
  · rw [hret] at hg
    cases hg
  · have : 0 < s.ref.cnt (·.life.dying) := RefSt.cnt_pos hl rfl
    omega
  · rw [hfree] at hb
    cases hb

theorem crash (h : s.FreeInv) : FreeInv { s with ref := s.ref.crash } :=
  ⟨h.life.crash, h.stack.crash, h.alone, h.fewer, h.dies, h.freed, h.calls, h.wins⟩

theorem start {op : RefOp} (h : s.FreeInv) (hl : s.ref.thr[i]? = some l) (hu : RefSt.atUser l = true) :
    FreeInv { s with ref := s.ref.start i l op } := by
  have hlife : (s.ref.start i l op).LifeInv := h.life.start hl
  have hstack : (s.ref.start i l op).StackInv := h.stack.start h.life hl hu
  revert hlife hstack
  unfold RefSt.start
  split_ifs with hin
  · have hdel := h.life.not_deleted hin
    rcases op
    all_goals exact fun hlife hstack => .of_not_deleted hlife hstack hdel h.calls h.wins
  · rcases op with _ | _ | _ | _ | del
    · exact fun _ _ => h
    · exact fun _ _ => h
    · exact fun _ _ => h
    · intro hlife hstack
      have hmem : (∃ z ∈ l, z.passed = true) ↔ ∃ z ∈ RefPc.invFree :: l, z.passed = true := exists_passed_cons rfl
      exact h.move hl rfl hlife hstack (Nat.le_refl _) hmem.1 (fun hz => .inl (past_of_mem hl (hmem.2 hz)))
        (fun rest heq => (by cases heq)) rfl rfl
    · intro hlife hstack
      have hwins : RefSt.wins { s.ref with results := s.ref.results ++ [(del, some .enoent)] } = s.ref.wins := by
        simp [RefSt.wins, List.countP_append]
      exact ⟨hlife, hstack, h.alone, h.fewer, h.dies, h.freed, h.calls, h.wins.trans hwins.symm⟩

theorem note_eq {r : RefSt} (hret : x ≠ .dRet true none) (hd : x ≠ .dying) :
    s.note i r (x :: rest) = { s with ref := r } := by
  unfold note
  split
  · rename_i heq
    exact absurd (List.cons.inj heq).1 hret
  · rename_i heq
    exact absurd (List.cons.inj heq).1 hd
  · rfl

theorem ret (h : s.FreeInv) (hl : s.ref.thr[i]? = some (.dRet true none :: rest)) {r : RefSt}
    (hgo : s.ref.go i (.dRet true none) rest = some r) : (s.note i r (.dRet true none :: rest)).FreeInv := by
  have hlife : r.LifeInv := h.life.go hl hgo
  have hstack : r.StackInv := h.stack.go h.life hl hgo
  cases hgo
  have hpast : s.Past i := past_of_mem hl ⟨_, List.mem_cons_self, rfl⟩
  have hnow : (i, rest.countP RefPc.isGet) ∈ s.returned ++ [(i, rest.countP RefPc.isGet)] :=
    List.mem_append_right _ (List.mem_singleton_self _)
  refine h.change hl rfl hlife hstack (by rw [List.countP_cons]; exact Nat.le_add_right _ _)
    (fun p hp => List.mem_append_left _ hp) (fun j g hg => ?_) (fun _ => .inl ⟨_, hnow⟩) (fun _ => .inl hpast)
    (fun rest' heq => absurd heq (h.rest_ne_dying hl)) (fun j b hb => .inl hb) h.calls ?_
  · rcases List.mem_append.1 hg with hg | hg
    · exact .inl hg
    · obtain ⟨rfl, rfl⟩ := Prod.mk.inj (List.mem_singleton.1 hg)
      exact .inr ⟨rfl, hpast, Nat.le_of_eq (h.stack.countP_get hl)⟩
  · simp only [FreeSt.note, RefSt.goto, RefSt.wins, List.length_append, List.length_singleton, List.countP_append]
    exact congrArg (· + 1) h.wins

theorem die (h : s.FreeInv) (hl : s.ref.thr[i]? = some (.dying :: rest)) {r : RefSt}
    (hgo : s.ref.go i .dying rest = some r) : (s.note i r (.dying :: rest)).FreeInv := by
  have hlife : r.LifeInv := h.life.go hl hgo
  have hstack : r.StackInv := h.stack.go h.life hl hgo
  cases hgo
  obtain ⟨hpast, hown⟩ := h.dies i rest hl
  have hself : (s.ref.thr.set i (.dtor :: rest))[i]? = some (.dtor :: rest) := getElem?_set_self hl
  have hmem : (∃ z ∈ RefPc.dtor :: rest, z.passed = true) ↔ ∃ z ∈ RefPc.dying :: rest, z.passed = true := by
    rw [List.exists_mem_cons_iff, List.exists_mem_cons_iff]
    exact Iff.rfl
  have hpast' : Past (s.note i ({ s.ref with dtors := s.ref.dtors + 1 }.goto i (.dtor :: rest)) (.dying :: rest)) i := by
    rcases hpast with hret | ⟨l₀, hl₀, hx⟩
    · exact .inl hret
    · rw [hl] at hl₀
      exact .inr ⟨_, hself, hmem.2 (Option.some.inj hl₀ ▸ hx)⟩
  refine h.change hl rfl hlife hstack (Nat.le_refl _) (fun p hp => hp) (fun j g hg => .inl hg) (fun _ => hpast')
    (fun hx => .inl (past_of_mem hl (hmem.1 hx))) (fun rest' heq => (by cases heq)) (fun j b hb => ?_) ?_ h.wins
  · rcases List.mem_append.1 hb with hb | hb
    · exact .inl hb
    · obtain ⟨rfl, rfl⟩ := Prod.mk.inj (List.mem_singleton.1 hb)
      exact .inr ⟨hpast', hown.imp decide_eq_true id⟩
  · simp only [FreeSt.note, RefSt.goto, List.length_append, List.length_singleton, h.calls]

theorem go (h : s.FreeInv) (hl : s.ref.thr[i]? = some (x :: rest)) {r : RefSt} (hgo : s.ref.go i x rest = some r) :
    (s.note i r (x :: rest)).FreeInv := by
  have hlife : r.LifeInv := h.life.go hl hgo
  have hstack : r.StackInv := h.stack.go h.life hl hgo
  rcases hx : x.ends
  · rw [note_eq (fun hret => by rw [hret] at hx; cases hx) (fun hd => by rw [hd] at hx; cases hx)]
    obtain rfl | ⟨y, hy⟩ := RefSt.go_plain hx hgo
    · exact h.crash
    · exact h.top hl hy.thr hlife hstack hy.calls hy.counts
  rcases x
  case dying => exact h.die hl hgo
  case dRet del err =>
    by_cases hret : del = true ∧ err = none
    · obtain ⟨rfl, rfl⟩ := hret
      exact h.ret hl hgo
    · have hpassed : (RefPc.dRet del err).passed = false := by
        rcases del <;> rcases err <;> first | rfl | exact absurd ⟨rfl, rfl⟩ hret
      rw [note_eq (by simpa using hret) RefPc.noConfusion]
      cases hgo
      refine h.pop hl rfl hlife hstack hpassed ⟨rfl, ?_⟩
      have hwin : (del && err.isNone) = false := hpassed
      simp [RefSt.wins, RefSt.goto, List.countP_append, hwin]
  case dSpin gets =>
    simp only [RefSt.go] at hgo
    split_ifs at hgo with hspin
    cases hgo
    have honly : s.ref.OnlyHolder i := (h.onlyHolder_iff hl).1 (Nat.not_lt.1 fun hlt =>
      hspin ⟨h.stack.callerFree, by rw [h.stack.modifyAsync]; rfl, hlt⟩)
    exact h.move hl rfl hlife hstack (Nat.le_refl _) (fun _ => ⟨_, List.mem_cons_self, rfl⟩) (fun _ => .inr honly)
      (fun rest' heq => (by cases heq)) rfl rfl
  case putting =>
    cases hgo
    exact h.put hl rfl (fun hw => (by cases hw)) hlife hstack rfl (exists_passed_cons rfl) (fun hp => (by cases hp))
      fun rest' => h.rest_ne_dying hl
  case invFailPut =>
    cases hgo
    refine h.put hl rfl (fun hw => (by cases hw)) hlife hstack rfl ?_ (fun hp => (by cases hp))
      fun rest' heq => (by cases heq)
    exact (exists_passed_cons rfl).symm.trans (exists_passed_cons rfl)
  case dLast del err =>
    cases hgo
    refine h.put hl rfl id hlife hstack rfl ?_ (fun hp => ?_) fun rest' heq => (by cases heq)
    · rw [List.exists_mem_cons_iff, List.exists_mem_cons_iff]
      exact Iff.rfl
    · rcases del <;> rcases err <;> first | rfl | cases hp
  case dAfter del gets err =>
    rcases del
    · cases hx
    · cases hgo
      exact h.top hl (h.life.delete_thr hl) hlife hstack ⟨id, rfl, RefPc.noConfusion⟩ ⟨rfl, rfl⟩
  case dtor | invFree =>
    cases hgo
    exact h.pop hl rfl hlife hstack rfl ⟨rfl, rfl⟩
  all_goals cases hx

theorem step {a : RefAct} (h : s.FreeInv) (hs : s.step a = some s') : s'.FreeInv := by
  obtain ⟨r, hr, rfl⟩ := Option.map_eq_some_iff.1 hs
  rcases a with ⟨i, op⟩ | i
  · obtain ⟨l, hl, hu, rfl⟩ := RefSt.step_start hr
    exact h.start hl hu
  · obtain ⟨x, rest, hl, hgo⟩ := RefSt.step_go hr
    simp only [hl, Option.getD_some]
    exact h.go hl hgo

theorem init (rdlockRecursive : Bool) (n : Nat) : (FreeSt.init rdlockRecursive n).FreeInv := by
  have hstack : (RefSt.init false rdlockRecursive true n).StackInv := by
    refine ⟨rfl, rfl, fun l hl => ?_, fun l hl x rest heq => ?_⟩
    · rw [List.eq_of_mem_replicate hl]
      exact fun x hx => (by cases hx)
    · rw [List.eq_of_mem_replicate hl] at heq
      cases heq
  exact .of_not_deleted (RefSt.lifeInv_init false rdlockRecursive true n) hstack rfl rfl rfl

/-- Only one delete leaves its loop. -/
theorem past_unique (h : s.FreeInv) (hi : s.Past i) (hj : s.Past j) : i = j := by
  have hwon := h.life.won
  have hle : s.ref.cnt (·.life.won) + s.returned.length ≤ 1 := by
    rw [h.wins]
    split_ifs at hwon <;> omega
  have hframe : ∀ {l : List RefPc}, (∃ x ∈ l, x.passed = true) → 0 < l.countP (·.life.won) := fun ⟨x, hx, hp⟩ =>
    List.countP_pos_iff.2 ⟨x, hx, RefPc.won_of_passed hp⟩
  have hpos : ∀ {l : List RefPc} {k : Nat}, s.ref.thr[k]? = some l → (∃ x ∈ l, x.passed = true) →
      0 < s.ref.cnt (·.life.won) := fun hl hx => Nat.lt_of_lt_of_le (hframe hx) (RefSt.countP_le_cnt hl _)
  by_contra hne
  rcases hi with ⟨g, hg⟩ | ⟨l, hl, hx⟩
  · have hlen := List.length_pos_of_mem hg
    rcases hj with ⟨g', hg'⟩ | ⟨l', hl', hx'⟩
    · obtain ⟨p, hp⟩ := List.length_eq_one_iff.1 (show s.returned.length = 1 by omega)
      rw [hp, List.mem_singleton] at hg hg'
      exact hne (Prod.mk.inj (hg.trans hg'.symm)).1
    · have := hpos hl' hx'
      omega
  · rcases hj with ⟨g', hg'⟩ | ⟨l', hl', hx'⟩
    · have := hpos hl hx
      have := List.length_pos_of_mem hg'
      omega
    · have hsum : _ ≤ s.ref.cnt (·.life.won) := RefSt.countP_add_le_cnt hl hl' (Ne.symm hne) (·.life.won)
      have := hframe hx
      have := hframe hx'
      omega

/-- When the thread of the delete holds the object no more, it has called the dtor. -/
theorem done {g : Nat} (h : s.FreeInv) (hret : (i, g) ∈ s.returned) (hl : s.ref.thr[i]? = some l)
    (hnone : l.countP (·.life.get) = 0) (hdying : l.head? ≠ some .dying) : ∃ inside, s.freed = [(i, inside)] := by
  have hpast : s.Past i := .inl ⟨g, hret⟩
  have hgets := (h.alone i hpast).gets_eq hl
  have husage := h.life.usage
  have hwon := h.life.won
  have hdtors := h.life.dying
  have hlen := List.length_pos_of_mem hret
  rw [h.wins] at hlen
  have hdel : s.ref.deleted = true := by
    by_contra hdel
    rw [if_neg hdel] at hwon
    omega
  rw [if_pos hdel, hgets, hnone] at husage
  rw [if_pos husage] at hdtors
  -- the dtor is not yet to be called: this would be on the same thread
  have hzero : s.ref.cnt (·.life.dying) = 0 := by
    by_contra hne
    obtain ⟨k, lk, x, hlk, hx, hxd⟩ := RefSt.exists_of_cnt_pos (Nat.pos_of_ne_zero hne)
    rw [RefPc.life_dying_eq, decide_eq_true_eq] at hxd
    subst hxd
    rcases lk with _ | ⟨y, rest⟩
    · cases hx
    · rcases List.mem_cons.1 hx with rfl | hx
      · have hki : k = i := h.past_unique (h.dies k rest hlk).1 hpast
        subst hki
        rw [hl] at hlk
        rw [Option.some.inj hlk] at hdying
        exact hdying rfl
      · rcases h.stack.below_rest hlk hx with hu | ⟨-, hr⟩
        · cases hu
        · cases hr
  obtain ⟨⟨k, inside⟩, hp⟩ := List.length_eq_one_iff.1 (h.calls.trans (show s.ref.dtors = 1 by omega))
  have hk : (k, inside) ∈ s.freed := by rw [hp]; exact List.mem_singleton_self _
  exact ⟨inside, by rw [hp, h.past_unique (h.freed k inside hk).1 hpast]⟩

end FreeInv

/-- What `caller_free` promises. -/
structure CallerFrees (s : FreeSt) : Prop where
  /-- The dtor is called by the thread of the one delete that returns 0, inside this call, or later if the thread still
  held references when it returned. -/
  freed : ∀ i inside, (i, inside) ∈ s.freed → s.Past i ∧ s.OwnPut i (inside = true)
  one : ∀ i j, s.Past i → s.Past j → i = j
  /-- From the end of the loop on no other thread has a reference that it could put. -/
  alone : ∀ i, s.Past i → s.ref.OnlyHolder i
  /-- With the last reference of its thread the object is freed. -/
  done : ∀ i g l, (i, g) ∈ s.returned → s.ref.thr[i]? = some l → l.countP (·.life.get) = 0 → l.head? ≠ some .dying →
    ∃ inside, s.freed = [(i, inside)]
  /-- The loop waits for the references of other threads, and for these only. -/
  spin : ∀ i g rest, s.ref.thr[i]? = some (.dSpin g :: rest) → s.ref.crashed = false →
    ((s.step (.go i)).isSome = true ↔ s.ref.OnlyHolder i)

theorem exec_ref (s : FreeSt) (as : List RefAct) : (exec step s as).map FreeSt.ref = exec RefSt.step s.ref as := by
  induction as generalizing s with
  | nil => rfl
  | cons a as ih =>
    rw [exec_cons, exec_cons, step]
    rcases s.ref.step a with _ | r
    · rfl
    · rcases a with ⟨i, op⟩ | i
      · exact ih _
      · rw [Option.map_some, Option.bind_some, Option.bind_some, ih, note_ref]

/-- In every interleaving the dtor of an object created with `caller_free`, and without `modify_async`, is called by the
thread of the delete. -/
theorem callerFrees {rdlockRecursive : Bool} {n : Nat} {as : List RefAct}
    (hrun : exec step (init rdlockRecursive n) as = some s) : s.CallerFrees := by
  have h : s.FreeInv := exec_invariant_all (fun _ _ _ h hs => h.step hs) (.init rdlockRecursive n) hrun
  refine ⟨h.freed, fun i j => h.past_unique, h.alone, fun i g l => h.done, fun i g rest hl hc => ?_⟩
  rw [← h.onlyHolder_iff hl, step, Option.isSome_map]
  simp only [RefSt.step, hc, hl, RefSt.go, h.stack.callerFree, h.stack.modifyAsync]
  by_cases hle : s.ref.usage ≤ 1 + g
  · simp [hle]
  · simp [hle]

/-- A thread that holds the object deletes it; another one, which held it too, drops it first. -/
def holdRun : List RefAct :=
  [.start 0 .get, .start 1 .get, .start 1 (.destroy true)] ++ List.replicate 9 (.go 1) ++ [.go 0, .go 0] ++
    List.replicate 6 (.go 1)

theorem callerFrees_holdRun : ∃ s, exec step (init false 2) holdRun = some s ∧ s.returned = [(1, 1)] ∧
    s.freed = [(1, false)] ∧ s.CallerFrees := by
  have hany : (exec step (init false 2) holdRun).any (fun s => s.returned = [(1, 1)] ∧ s.freed = [(1, false)]) = true := by
    decide +kernel
  obtain ⟨s, hs, h⟩ := (Option.any_eq_true ..).1 hany
  obtain ⟨hret, hfreed⟩ := of_decide_eq_true h
  exact ⟨s, hs, hret, hfreed, callerFrees hs⟩

end FreeSt

end Aosl
