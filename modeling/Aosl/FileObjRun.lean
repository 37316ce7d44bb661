import Aosl.FileObj

/-!
# The registry and the lists of the queues agree

`RegInv` counts, for each object, where it is held: linked in a list or just installed (`holds`), and in the hands of a
thread that has removed it (`works`). The count is the same on both sides, so an object that is registered is held once
and worked on by nobody.

`remove_fd` is the step that can break it: it removes what is registered under the number, and a reference from an
earlier lookup may be to an object that has been deleted, with its number registered again for another one. That object
is then no more in the registry and stays in the list, and `mpq_fini_iofds` tries to close it forever.
-/

namespace Aosl
open Lib

namespace FileQ

def adding (r : FileQ) : List Nat := match r.pc with
  | .installed f => [f]
  | _ => []

def holds (r : FileQ) : List Nat := r.iofds ++ r.adding

def removing (r : FileQ) : List Nat := match r.pc with
  | .removed f _ => [f]
  | _ => []

def works (r : FileQ) : List Nat := match r.pc with
  | .removed f _ | .deleted f | .closed f => [f]
  | _ => []

/-- What the thread of a queue knows of its own objects. -/
structure Ok (objs : List FileObj) (r : FileQ) : Prop where
  own : ∀ f ∈ r.holds ++ r.works, objs[f]?.map FileObj.q = some r.qid
  linked : ∀ f ∈ r.removing, f ∈ r.iofds
  count : r.iofdCount = r.iofds.length
  dead : r.alive = false → r.iofds = [] ∧ r.pc = .idle
  fini : r.fini → r.adding = []

/-- How many steps the thread has to go in `mpq_fini_iofds`, at most. -/
def left (r : FileQ) : Nat :=
  if r.alive then 4 * r.iofds.length + match r.pc with
    | .idle => 1
    | .installed _ | .removed .. => 0
    | .deleted _ => 3
    | .closed _ => 2
  else 0

theorem removing_le_works (r : FileQ) (f : Nat) : r.removing.count f ≤ r.works.count f := by
  unfold removing works
  cases r.pc <;> simp

theorem idle_of_free {r : FileQ} (h : r.free) : r.alive ∧ r.fini = false ∧ r.pc = .idle := by
  simpa [free, and_assoc] using h

section Idle
variable {r : FileQ} (h : r.pc = .idle)
include h

theorem adding_idle : r.adding = [] := by rw [adding, h]

theorem removing_idle : r.removing = [] := by rw [removing, h]

theorem works_idle : r.works = [] := by rw [works, h]

theorem holds_idle : r.holds = r.iofds := by rw [holds, adding_idle h, List.append_nil]

end Idle

end FileQ

theorem count_one (f j : Nat) : [f].count j = if j = f then 1 else 0 := by
  by_cases h : j = f
  · simp [h]
  · simp [h, Ne.symm h]

namespace FileSt

/-- How often `f` occurs in what the queues have. -/
def total (s : FileSt) (g : FileQ → List Nat) (f : Nat) : Nat := (s.queues.map g).flatten.count f

def reg (s : FileSt) (f : Nat) : Nat := (s.registered f).toNat

structure RegInv (s : FileSt) : Prop where
  keyed : ∀ n f, s.attached n = some f → s.fdOf f = some n
  held : ∀ f, s.total FileQ.holds f = s.reg f + s.total FileQ.removing f
  once : ∀ f, s.reg f + s.total FileQ.works f ≤ 1
  ok : ∀ (k : Nat) (r : FileQ), s.queues[k]? = some r → r.Ok s.objs

variable {s s' : FileSt} {k f n : Nat} {r r' : FileQ} {g g' : FileQ → List Nat}

theorem total_set (hr : s.queues[k]? = some r) (hq : s'.queues = s.queues.set k r') :
    s'.total g f + (g r).count f = s.total g f + (g r').count f := by
  have hg : (s.queues.map g)[k]? = some (g r) := by rw [List.getElem?_map, hr]; rfl
  have := countP_flatten_set_add hg (· == f) (g r')
  rwa [← List.map_set, ← hq] at this

theorem total_append : s.total (fun r => g r ++ g' r) f = s.total g f + s.total g' f := by
  unfold total
  induction s.queues with
  | nil => rfl
  | cons r rs ih =>
    simp only [List.map_cons, List.flatten_cons, List.count_append] at ih ⊢
    omega

theorem total_mono (h : ∀ r, (g r).count f ≤ (g' r).count f) : s.total g f ≤ s.total g' f := by
  unfold total
  induction s.queues with
  | nil => exact Nat.le_refl _
  | cons r rs ih =>
    simp only [List.map_cons, List.flatten_cons, List.count_append]
    exact Nat.add_le_add (h r) ih

theorem total_pos : 0 < s.total g f ↔ ∃ (k : Nat) (r : FileQ), s.queues[k]? = some r ∧ f ∈ g r := by
  rw [total, List.count_pos_iff, List.mem_flatten]
  constructor
  · rintro ⟨l, hl, hf⟩
    obtain ⟨r, hr, rfl⟩ := List.mem_map.1 hl
    obtain ⟨k, hk⟩ := List.mem_iff_getElem?.1 hr
    exact ⟨k, r, hk, hf⟩
  · rintro ⟨k, r, hr, hf⟩
    exact ⟨g r, List.mem_map_of_mem (List.mem_of_getElem? hr), hf⟩

theorem same_of_holds {k' : Nat} (h : s.total FileQ.holds f ≤ 1) (hr : s.queues[k]? = some r) (hf : f ∈ r.holds)
    (hr' : s.queues[k']? = some r') (hf' : f ∈ r'.holds) : r = r' := by
  by_cases hk : k = k'
  · subst hk
    exact Option.some.inj (hr.symm.trans hr')
  · -- without the queue `k`, the object is still held by `k'`
    have hset : (s.setQ k (FileQ.create 0)).total FileQ.holds f + r.holds.count f =
        s.total FileQ.holds f + (FileQ.create 0).holds.count f := total_set hr rfl
    have hnil : (FileQ.create 0).holds.count f = 0 := rfl
    have hpos : 0 < (s.setQ k (FileQ.create 0)).total FileQ.holds f :=
      total_pos.2 ⟨k', r', (getElem?_set_ne hk).trans hr', hf'⟩
    have hcount : 0 < r.holds.count f := List.count_pos_iff.2 hf
    omega

theorem reg_le : s.reg f ≤ 1 := Bool.toNat_le _

theorem reg_eq_one : s.reg f = 1 ↔ ∃ n, s.fdOf f = some n ∧ s.attached n = some f := by
  simp [reg, registered, lookup, Option.bind_eq_some_iff]

theorem reg_eq_zero : s.reg f = 0 ↔ ∀ n, s.fdOf f = some n → s.attached n ≠ some f := by
  simp [reg, registered, lookup, Option.bind_eq_some_iff]

theorem reg_congr (hfd : s'.fdOf f = s.fdOf f)
    (hat : ∀ n, s.fdOf f = some n → (s'.attached n = some f ↔ s.attached n = some f)) : s'.reg f = s.reg f := by
  have hiff : s'.reg f = 1 ↔ s.reg f = 1 := by
    rw [reg_eq_one, reg_eq_one, hfd]
    exact exists_congr fun n => and_congr_right (hat n)
  have h1 := reg_le (s := s) (f := f)
  have h2 := reg_le (s := s') (f := f)
  omega

theorem queues_removeFd (s : FileSt) (f : Nat) : (s.removeFd f).2.queues = s.queues := by
  unfold removeFd
  split <;> rfl

theorem queues_delF (s : FileSt) (k : Nat) (r : FileQ) (f : Nat) (close : Bool) :
    (s.delF k r f close).queues = s.queues ∨ ∃ r', (s.delF k r f close).queues = s.queues.set k r' := by
  unfold delF
  split
  · exact .inl rfl
  · split
    · exact .inr ⟨_, by rw [setQ, queues_removeFd]⟩
    · exact .inl (queues_removeFd s f)

theorem queues_thread (hs : s.thread k r = some s') :
    s'.queues = s.queues ∨ ∃ r', s'.queues = s.queues.set k r' := by
  unfold thread at hs
  split at hs
  case h_1 =>
    split at hs
    · cases hs
    · split at hs
      · exact .inr ⟨_, by rw [← Option.some.inj hs]; rfl⟩
      · exact Option.some.inj hs ▸ queues_delF ..
  case h_2 => cases hs
  all_goals exact .inr ⟨_, by rw [← Option.some.inj hs]; rfl⟩

/-- A step changes one queue at most: one whose thread takes functions or adds an object, or the one that goes on. -/
theorem step_queues {a : FileAct} (hs : s.step a = some s') : s'.queues = s.queues ∨
    (∃ qid, s'.queues = s.queues ++ [FileQ.create qid]) ∨
    ∃ (k : Nat) (r r' : FileQ), s.queues[k]? = some r ∧ s'.queues = s.queues.set k r' ∧
      (r.free ∨ r.adding ≠ [] ∨ a = .thread k) := by
  unfold step at hs
  split at hs
  case h_1 qid =>
    split at hs
    · cases hs
    · exact .inr (.inl ⟨qid, by rw [← Option.some.inj hs]⟩)
  case h_2 =>
    obtain ⟨f, -, rfl⟩ := Option.map_eq_some_iff.1 hs
    exact .inl rfl
  case h_3 =>
    split at hs
    · cases hs
    · split at hs
      · exact .inl (by rw [← Option.some.inj hs])
      · cases hs
  case h_4 =>
    split at hs
    · exact .inl (by rw [← Option.some.inj hs])
    · cases hs
  case h_5 k fd =>
    split at hs
    case h_1 => cases hs
    case h_2 =>
      split at hs
      · exact .inl (by rw [← Option.some.inj hs])
      · cases hs
    case h_3 r n hr =>
      split at hs
      · cases hs
      case isFalse hfree =>
        split at hs
        · exact .inl (by rw [← Option.some.inj hs])
        · exact .inr (.inr ⟨k, r, _, hr, by rw [← Option.some.inj hs]; rfl, .inl (by simpa using hfree)⟩)
  case h_6 k ok =>
    split at hs
    case h_1 => cases hs
    case h_2 r hr =>
      split at hs
      case h_1 f hpc =>
        have hadd : r.adding ≠ [] := by simp [FileQ.adding, hpc]
        split at hs
        · exact .inr (.inr ⟨k, r, _, hr, by rw [← Option.some.inj hs]; rfl, .inr (.inl hadd)⟩)
        · exact .inr (.inr ⟨k, r, _, hr, by rw [← Option.some.inj hs, setQ, queues_removeFd], .inr (.inl hadd)⟩)
      case h_2 => cases hs
  case h_7 k f close =>
    split at hs
    case h_1 => cases hs
    case h_2 r hr =>
      split at hs
      case isTrue hfree =>
        obtain rfl := Option.some.inj hs
        rcases queues_delF s k r f close with he | ⟨r', he⟩
        · exact .inl he
        · exact .inr (.inr ⟨k, r, r', hr, he, .inl (Bool.and_eq_true_iff.1 hfree).1⟩)
      case isFalse => cases hs
  case h_8 k =>
    split at hs
    case h_1 => cases hs
    case h_2 r hr =>
      split at hs
      case isTrue hfree => exact .inr (.inr ⟨k, r, _, hr, by rw [← Option.some.inj hs]; rfl, .inl hfree⟩)
      case isFalse => cases hs
  case h_9 k =>
    split at hs
    case h_1 => cases hs
    case h_2 r hr =>
      rcases queues_thread hs with he | ⟨r', he⟩
      · exact .inl he
      · exact .inr (.inr ⟨k, r, r', hr, he, .inr (.inr rfl)⟩)

namespace RegInv

/-- The invariant after a step that changes one queue, and its objects. -/
theorem update (h : s.RegInv) (hr : s.queues[k]? = some r) (hq : s'.queues = s.queues.set k r')
    (hkeyed : ∀ n f, s'.attached n = some f → s'.fdOf f = some n) (hok : r'.Ok s'.objs)
    (hobjs : ∀ (f q : Nat), s.objs[f]?.map FileObj.q = some q → s'.objs[f]?.map FileObj.q = some q)
    (hheld : ∀ f, r'.holds.count f + s.reg f + r.removing.count f = r.holds.count f + s'.reg f + r'.removing.count f)
    (honce : ∀ f, s'.reg f + r'.works.count f ≤ s.reg f + r.works.count f ∨
      s.total FileQ.works f = 0 ∧ s'.reg f + r'.works.count f ≤ 1) : s'.RegInv := by
  refine ⟨hkeyed, fun f => ?_, fun f => ?_, fun k' r₁ hr₁ => ?_⟩
  · have h1 := total_set (g := FileQ.holds) (f := f) hr hq
    have h2 := total_set (g := FileQ.removing) (f := f) hr hq
    have h3 := h.held f
    have h4 := hheld f
    omega
  · have h1 := total_set (g := FileQ.works) (f := f) hr hq
    have h2 := h.once f
    rcases honce f with h3 | ⟨h3, h4⟩ <;> omega
  · rw [hq] at hr₁
    by_cases hk : k = k'
    · subst hk
      rw [getElem?_set_self hr, Option.some.injEq] at hr₁
      exact hr₁ ▸ hok
    · rw [getElem?_set_ne hk] at hr₁
      have hr₁ok := h.ok k' r₁ hr₁
      exact { hr₁ok with own := fun f hf => hobjs f _ (hr₁ok.own f hf) }

theorem setQ (h : s.RegInv) (hr : s.queues[k]? = some r) (hok : r'.Ok s.objs)
    (hheld : ∀ f, r'.holds.count f + r.removing.count f = r.holds.count f + r'.removing.count f)
    (hworks : ∀ f, r'.works.count f ≤ r.works.count f) : (s.setQ k r').RegInv := by
  refine h.update hr rfl h.keyed hok (fun _ _ hq => hq) (fun f => ?_) fun f => .inl ?_
  · have h1 : (s.setQ k r').reg f = s.reg f := rfl
    have h2 := hheld f
    omega
  · exact Nat.add_le_add_left (hworks f) _

theorem fresh (h : s.RegInv) (hf : s.objs.length ≤ f) : s.reg f = 0 ∧ s.total FileQ.works f = 0 := by
  have hnone : s.objs[f]? = none := List.getElem?_eq_none hf
  constructor
  · refine reg_eq_zero.2 fun n hn => ?_
    simp [fdOf, hnone] at hn
  · refine Nat.eq_zero_of_not_pos fun hpos => ?_
    obtain ⟨k, r, hr, hw⟩ := total_pos.1 hpos
    have := (h.ok k r hr).own f (List.mem_append_right _ hw)
    simp [hnone] at this

theorem reg_of_attached (h : s.RegInv) (hn : s.attached n = some f) : s.reg f = 1 :=
  reg_eq_one.2 ⟨n, h.keyed n f hn, hn⟩

theorem works_of_reg (h : s.RegInv) (hf : s.reg f = 1) : s.total FileQ.works f = 0 := by
  have := h.once f
  omega

theorem held_le_one (h : s.RegInv) (f : Nat) : s.total FileQ.holds f ≤ 1 := by
  have h1 := h.held f
  have h2 := h.once f
  have h3 : s.total FileQ.removing f ≤ s.total FileQ.works f := total_mono fun r => r.removing_le_works f
  omega

/-- What a queue holds is registered, unless the thread of that queue has just removed it. -/
theorem reg_of_mem (h : s.RegInv) (hr : s.queues[k]? = some r) (hf : f ∈ r.holds) (hrem : f ∉ r.removing) :
    s.reg f = 1 := by
  by_contra hreg
  have hreg := reg_le (s := s) (f := f)
  have hpos : 0 < s.total FileQ.holds f := total_pos.2 ⟨k, r, hr, hf⟩
  have hheld := h.held f
  obtain ⟨k', r', hr', hf'⟩ := total_pos.1 (show 0 < s.total FileQ.removing f by omega)
  have hlinked := List.mem_append_left r'.adding ((h.ok k' r' hr').linked f hf')
  obtain rfl := same_of_holds (h.held_le_one f) hr hf hr' hlinked
  exact hrem hf'

theorem reg_remove (h : s.RegInv) (hn : s.attached n = some f) (j : Nat) :
    { s with attached := Function.update s.attached n none }.reg j = if j = f then 0 else s.reg j := by
  by_cases hj : j = f
  · rw [if_pos hj, reg_eq_zero]
    intro m hm
    have hmn : m = n := by
      rw [hj] at hm
      exact Option.some.inj (hm.symm.trans (h.keyed n f hn))
    simp [hmn]
  · rw [if_neg hj]
    refine reg_congr rfl fun m _ => ?_
    by_cases hm : m = n
    · subst hm
      have hne : s.attached m ≠ some j := fun hc => hj (Option.some.inj (hc.symm.trans hn))
      simp [hne]
    · exact Eq.congr_left (Function.update_of_ne hm ..)

theorem removeFd_of_reg (h : s.RegInv) (hreg : s.reg f = 1) : (s.removeFd f).1 = true ∧
    (s.removeFd f).2.objs = s.objs ∧ (s.removeFd f).2.queues = s.queues ∧
    (∀ n j, (s.removeFd f).2.attached n = some j → s.attached n = some j) ∧
    ∀ j, (s.removeFd f).2.reg j = if j = f then 0 else s.reg j := by
  obtain ⟨n, hfd, hn⟩ := reg_eq_one.1 hreg
  have he : s.removeFd f = (true, { s with attached := Function.update s.attached n none }) := by
    simp [removeFd, hfd, hn]
  rw [he]
  refine ⟨rfl, rfl, rfl, fun m j hm => ?_, h.reg_remove hn⟩
  by_cases hmn : m = n
  · simp [hmn] at hm
  · simpa [Function.update_of_ne hmn] using hm

theorem removeFd_of_none (hf : s.lookup (s.fdOf f) = none) : s.removeFd f = (false, s) := by
  unfold removeFd
  cases hfd : s.fdOf f with
  | none => rfl
  | some n =>
    have hn : s.attached n = none := by simpa [lookup, hfd] using hf
    have hupd : Function.update s.attached n none = s.attached := by rw [← hn, Function.update_eq_self]
    simp [hn, hupd]

theorem create (h : s.RegInv) (qid : Nat) : { s with queues := s.queues ++ [FileQ.create qid] }.RegInv := by
  have htotal : ∀ (g : FileQ → List Nat) (f : Nat), g (FileQ.create qid) = [] →
      { s with queues := s.queues ++ [FileQ.create qid] }.total g f = s.total g f := by
    intro g f hg
    simp [total, hg]
  refine ⟨h.keyed, fun f => ?_, fun f => ?_, fun k r hr => ?_⟩
  · rw [htotal _ f rfl, htotal _ f rfl]
    exact h.held f
  · rw [htotal _ f rfl]
    exact h.once f
  · rcases getElem?_concat_cases hr with ⟨-, hr⟩ | ⟨-, rfl⟩
    · exact h.ok k r hr
    · exact ⟨nofun, nofun, rfl, nofun, nofun⟩

theorem fdOf_install : (s.install k r n).fdOf f = if f = s.objs.length then some n else s.fdOf f := by
  unfold fdOf FileSt.install
  rcases Nat.lt_trichotomy f s.objs.length with hf | hf | hf
  · rw [if_neg (Nat.ne_of_lt hf), List.getElem?_append_left hf]
  · subst hf
    simp
  · rw [if_neg (Nat.ne_of_gt hf), List.getElem?_eq_none (by simp; omega), List.getElem?_eq_none (Nat.le_of_lt hf)]

theorem reg_install (hn : s.attached n = none) :
    (s.install k r n).reg f = if f = s.objs.length then 1 else s.reg f := by
  by_cases hf : f = s.objs.length
  · rw [if_pos hf]
    refine reg_eq_one.2 ⟨n, ?_, ?_⟩
    · rw [fdOf_install, if_pos hf]
    · rw [hf]
      exact Function.update_self ..
  · rw [if_neg hf]
    refine reg_congr (by rw [fdOf_install, if_neg hf]) fun m _ => ?_
    by_cases hm : m = n
    · subst hm
      have hne : s.objs.length ≠ f := fun he => hf he.symm
      simp [FileSt.install, hn, hne]
    · exact Eq.congr_left (Function.update_of_ne hm ..)

theorem install (h : s.RegInv) (hr : s.queues[k]? = some r) (hfree : r.free) (hn : s.attached n = none) :
    (s.install k r n).RegInv := by
  obtain ⟨halive, hfini, hidle⟩ := FileQ.idle_of_free hfree
  have hok := h.ok k r hr
  have hlt : ∀ {f q : Nat}, s.objs[f]?.map FileObj.q = some q → f < s.objs.length := by
    intro f q hq
    obtain ⟨o, ho, -⟩ := Option.map_eq_some_iff.1 hq
    exact (List.getElem?_eq_some_iff.1 ho).1
  have hobjs : ∀ (f q : Nat), s.objs[f]?.map FileObj.q = some q →
      (s.install k r n).objs[f]?.map FileObj.q = some q := by
    intro f q hq
    rw [FileSt.install, List.getElem?_append_left (hlt hq), hq]
  refine h.update hr rfl ?keyed ?ok hobjs ?held ?once
  case keyed =>
    intro m f hm
    by_cases hmn : m = n
    · subst hmn
      obtain rfl : s.objs.length = f := by simpa [FileSt.install] using hm
      rw [fdOf_install, if_pos rfl]
    · have hm : s.attached m = some f := (Function.update_of_ne hmn ..).symm.trans hm
      have hfd := h.keyed m f hm
      have hne : f ≠ s.objs.length := by
        rintro rfl
        simp [fdOf] at hfd
      rw [fdOf_install, if_neg hne, hfd]
  case ok =>
    refine { own := fun f hf => ?_, linked := nofun, count := hok.count, dead := fun hd => ?_, fini := fun hf => ?_ }
    · have hf : f ∈ r.iofds ∨ f = s.objs.length := by
        simpa [FileQ.holds, FileQ.adding, FileQ.works] using hf
      rcases hf with hf | rfl
      · exact hobjs f _ (hok.own f (List.mem_append_left _ (List.mem_append_left _ hf)))
      · simp [FileSt.install]
    · exact absurd halive (by simp [show r.alive = false from hd])
    · exact absurd hfini (by simp [show r.fini = true from hf])
  case held =>
    intro f
    rw [reg_install hn]
    rw [FileQ.holds_idle hidle, FileQ.removing_idle hidle]
    by_cases hf : f = s.objs.length
    · have h0 := (h.fresh (Nat.le_of_eq hf.symm)).1
      simp [FileQ.holds, FileQ.adding, FileQ.removing, hf, hf ▸ h0]
    · simp [FileQ.holds, FileQ.adding, FileQ.removing, hf, Ne.symm hf]
  case once =>
    intro f
    rw [reg_install hn, FileQ.works_idle hidle]
    by_cases hf : f = s.objs.length
    · exact .inr ⟨(h.fresh (Nat.le_of_eq hf.symm)).2, by simp [hf, FileQ.works]⟩
    · exact .inl (by simp [hf, FileQ.works])

/-- `remove_fd` of a registered object, with what the thread of the queue makes of it. -/
theorem removeFd (h : s.RegInv) (hr : s.queues[k]? = some r) (hreg : s.reg f = 1) (hok : r'.Ok s.objs)
    (hheld : ∀ j, r'.holds.count j + (if j = f then 1 else 0) + r.removing.count j =
      r.holds.count j + r'.removing.count j)
    (hworks : ∀ j, r'.works.count j ≤ r.works.count j + if j = f then 1 else 0) :
    ((s.removeFd f).2.setQ k r').RegInv := by
  obtain ⟨-, hobjs, hqueues, hat, hregs⟩ := h.removeFd_of_reg hreg
  have hq : ((s.removeFd f).2.setQ k r').queues = s.queues.set k r' := by rw [FileSt.setQ, hqueues]
  have hobjs' : ((s.removeFd f).2.setQ k r').objs = s.objs := hobjs
  have hregs' : ∀ j, ((s.removeFd f).2.setQ k r').reg j = if j = f then 0 else s.reg j := hregs
  refine h.update hr hq (fun n j hn => ?keyed) (hobjs'.symm ▸ hok) (fun _ _ hq => hobjs'.symm ▸ hq) (fun j => ?held)
    fun j => .inl ?once
  case keyed =>
    have := h.keyed n j (hat n j hn)
    rwa [fdOf, ← hobjs] at this
  case held =>
    have := hheld j
    rw [hregs']
    by_cases hj : j = f
    · subst hj
      simp only [if_true] at this ⊢
      omega
    · simp only [if_neg hj] at this ⊢
      omega
  case once =>
    have := hworks j
    rw [hregs']
    by_cases hj : j = f
    · subst hj
      simp only [if_true] at this ⊢
      omega
    · simp only [if_neg hj] at this ⊢
      omega

/-- A thread that has nothing in hand removes an object of its own list. -/
theorem remove (h : s.RegInv) (hr : s.queues[k]? = some r) (hidle : r.pc = .idle) (hf : f ∈ r.iofds) (close : Bool) :
    s.delF k r f close = (s.removeFd f).2.setQ k { r with pc := .removed f close } ∧ (s.delF k r f close).RegInv := by
  have hok := h.ok k r hr
  have hf' : f ∈ r.holds := List.mem_append_left _ hf
  have hq := hok.own f (List.mem_append_left _ hf')
  have hreg : s.reg f = 1 := h.reg_of_mem hr hf' (by simp [FileQ.removing_idle hidle])
  have he : s.delF k r f close = (s.removeFd f).2.setQ k { r with pc := .removed f close } := by
    rw [delF, if_neg (not_not.2 hq), if_pos (h.removeFd_of_reg hreg).1]
  refine ⟨he, he ▸ h.removeFd hr hreg ?_ (fun j => ?_) fun j => ?_⟩
  · refine { own := fun j hj => ?_, linked := fun j hj => ?_, count := hok.count, dead := fun hd => ?_, fini := fun _ => rfl }
    · have hj : j ∈ r.iofds := by
        rcases (by simpa [FileQ.holds, FileQ.adding, FileQ.works] using hj : j ∈ r.iofds ∨ j = f) with hj | rfl
        · exact hj
        · exact hf
      exact hok.own j (List.mem_append_left _ (List.mem_append_left _ hj))
    · obtain rfl : j = f := by simpa [FileQ.removing] using hj
      exact hf
    · exact absurd hf (by simp [(hok.dead hd).1])
  · rw [FileQ.holds_idle hidle, FileQ.removing_idle hidle]
    simp [FileQ.holds, FileQ.adding, FileQ.removing, count_one]
  · simp [FileQ.works, count_one]

theorem link (h : s.RegInv) (hr : s.queues[k]? = some r) (hpc : r.pc = .installed f) :
    (s.setQ k { r with iofds := r.iofds ++ [f], iofdCount := r.iofdCount + 1, pc := .idle }).RegInv := by
  have hok := h.ok k r hr
  have hadd : r.adding = [f] := by rw [FileQ.adding, hpc]
  refine h.setQ hr ?_ (fun j => ?_) fun j => Nat.zero_le _
  · refine { own := fun j hj => ?_, linked := nofun, count := ?_, dead := fun hd => ?_, fini := fun _ => rfl }
    · have hj : j ∈ r.holds := by simpa [FileQ.holds, FileQ.adding, FileQ.works, hpc] using hj
      exact hok.own j (List.mem_append_left _ hj)
    · rw [List.length_append, hok.count]
      rfl
    · cases hpc.symm.trans (hok.dead hd).2
  · simp [FileQ.holds, FileQ.adding, FileQ.removing, hpc]

theorem unroll (h : s.RegInv) (hr : s.queues[k]? = some r) (hpc : r.pc = .installed f) :
    ((s.removeFd f).2.setQ k { r with pc := .idle }).RegInv := by
  have hok := h.ok k r hr
  have hf : f ∈ r.holds := by simp [FileQ.holds, FileQ.adding, hpc]
  have hrem : r.removing = [] := by rw [FileQ.removing, hpc]
  have hreg : s.reg f = 1 := h.reg_of_mem hr hf (by simp [hrem])
  refine h.removeFd hr hreg ?_ (fun j => ?_) fun j => Nat.zero_le _
  · refine { own := fun j hj => ?_, linked := nofun, count := hok.count, dead := fun hd => ?_, fini := fun _ => rfl }
    · have hj : j ∈ r.iofds := by simpa [FileQ.holds, FileQ.adding, FileQ.works] using hj
      exact hok.own j (List.mem_append_left _ (List.mem_append_left _ hj))
    · cases hpc.symm.trans (hok.dead hd).2
  · simp [FileQ.holds, FileQ.adding, FileQ.removing, hpc, count_one]

/-- `aosl_list_del`. -/
theorem unlink (h : s.RegInv) (hr : s.queues[k]? = some r) {close : Bool} (hpc : r.pc = .removed f close)
    {pc : FilePc} (hpc' : pc = .deleted f ∨ pc = .idle) : (s.setQ k (r.unlink f pc)).RegInv := by
  have hok := h.ok k r hr
  have hf : f ∈ r.iofds := hok.linked f (by simp [FileQ.removing, hpc])
  have hadd : (r.unlink f pc).adding = [] := by rcases hpc' with rfl | rfl <;> rfl
  have hrem : (r.unlink f pc).removing = [] := by rcases hpc' with rfl | rfl <;> rfl
  have hworks : ∀ j ∈ (r.unlink f pc).works, j = f := by
    rcases hpc' with rfl | rfl
    · exact fun j hj => List.mem_singleton.1 hj
    · exact nofun
  refine h.setQ hr ?_ (fun j => ?_) fun j => ?_
  · refine { own := fun j hj => ?_, linked := by simp [hrem], count := ?_, dead := fun hd => ?_, fini := fun _ => hadd }
    · rcases List.mem_append.1 hj with hj | hj
      · rw [FileQ.holds, hadd, List.append_nil] at hj
        exact hok.own j (List.mem_append_left _ (List.mem_append_left _ (List.mem_of_mem_erase hj)))
      · rw [hworks j hj]
        exact hok.own f (List.mem_append_left _ (List.mem_append_left _ hf))
    · change r.iofdCount - 1 = (r.iofds.erase f).length
      rw [List.length_erase_of_mem hf, hok.count]
    · cases hpc.symm.trans (hok.dead hd).2
  · have hpos : 0 < r.iofds.count f := List.count_pos_iff.2 hf
    rw [hrem, FileQ.holds, hadd]
    change (r.iofds.erase f ++ []).count j + _ = _
    by_cases hjf : j = f
    · subst hjf
      simp [FileQ.holds, FileQ.adding, FileQ.removing, hpc]
      omega
    · simp [FileQ.holds, FileQ.adding, FileQ.removing, hpc, Ne.symm hjf, List.count_erase_of_ne hjf]
  · rcases hpc' with rfl | rfl
    · simp [FileQ.works, FileQ.unlink, hpc]
    · exact Nat.zero_le _

/-- `fd = AOSL_INVALID_FD`, at the end of `__this_q_close_f`. -/
theorem invalidate (h : s.RegInv) (hr : s.queues[k]? = some r) (hpc : r.pc = .closed f) :
    ((s.invalidate f).setQ k { r with pc := .idle }).RegInv := by
  have hok := h.ok k r hr
  have hw : f ∈ r.works := by simp [FileQ.works, hpc]
  have hreg : s.reg f = 0 := by
    have hpos : 0 < s.total FileQ.works f := total_pos.2 ⟨k, r, hr, hw⟩
    have := h.once f
    omega
  have hobjs : ∀ (j q : Nat), s.objs[j]?.map FileObj.q = some q →
      (s.invalidate f).objs[j]?.map FileObj.q = some q := by
    intro j q hq
    rw [FileSt.invalidate, List.getElem?_modify]
    by_cases hj : f = j
    · subst hj
      simpa using hq
    · simpa [hj] using hq
  have hfd : ∀ j, j ≠ f → ((s.invalidate f).setQ k { r with pc := .idle }).fdOf j = s.fdOf j := by
    intro j hj
    change ((s.objs.modify f _)[j]?).bind _ = _
    simp [hj.symm, fdOf]
  have hregs : ∀ j, ((s.invalidate f).setQ k { r with pc := .idle }).reg j = s.reg j := by
    intro j
    by_cases hj : j = f
    · subst hj
      rw [hreg, reg_eq_zero]
      intro n hn
      change ((s.objs.modify j _)[j]?).bind _ = _ at hn
      rw [List.getElem?_modify_eq] at hn
      cases ho : s.objs[j]? with
      | none => simp [ho] at hn
      | some o => simp [ho] at hn
    · exact reg_congr (hfd j hj) fun _ _ => Iff.rfl
  refine h.update hr rfl (fun n j hn => ?_) ?_ hobjs (fun j => ?_) fun j => ?_
  · have hj : j ≠ f := by
      rintro rfl
      have := h.reg_of_attached hn
      omega
    rw [hfd j hj]
    exact h.keyed n j hn
  · refine { own := fun j hj => hobjs j _ ?_, linked := nofun, count := hok.count, dead := fun hd => ?_,
             fini := fun _ => rfl }
    · have hj : j ∈ r.iofds := by simpa [FileQ.holds, FileQ.adding, FileQ.works] using hj
      exact hok.own j (List.mem_append_left _ (List.mem_append_left _ hj))
    · cases hpc.symm.trans (hok.dead hd).2
  · simp [hregs, FileQ.holds, FileQ.adding, FileQ.removing, hpc]
  · simp [hregs, FileQ.works]

/-- `__q_del_f` for a caller's reference that meets `Fresh`: the object of the list is removed, or nothing happens. -/
theorem delF (h : s.RegInv) (hr : s.queues[k]? = some r) (hidle : r.pc = .idle)
    (hfresh : f ∈ r.iofds ∨ s.lookup (s.fdOf f) = none) (close : Bool) : (s.delF k r f close).RegInv := by
  rcases hfresh with hf | hf
  · exact (h.remove hr hidle hf close).2
  · unfold FileSt.delF
    rw [removeFd_of_none hf]
    split
    · exact h
    · rw [if_neg Bool.false_ne_true]
      exact h

/-- The thread goes on with what it has in hand, or with the loop of `mpq_fini_iofds`. -/
theorem thread (h : s.RegInv) (hr : s.queues[k]? = some r) (hs : s.thread k r = some s') : s'.RegInv := by
  have hok := h.ok k r hr
  unfold FileSt.thread at hs
  split at hs
  case h_1 hpc =>
    split at hs
    · cases hs
    · split at hs
      case h_1 hnil =>
        obtain rfl := Option.some.inj hs
        refine h.setQ hr { own := ?_, linked := ?_, count := ?_, dead := fun _ => ⟨hnil, hpc⟩, fini := hok.fini }
          (fun _ => rfl) fun _ => Nat.le_refl _
        · exact hok.own
        · exact hok.linked
        · simp [FileQ.finish, hnil]
      case h_2 f fs hcons =>
        obtain rfl := Option.some.inj hs
        exact (h.remove hr hpc (by simp [hcons]) true).2
  case h_2 => cases hs
  case h_3 f hpc =>
    obtain rfl := Option.some.inj hs
    exact h.unlink hr hpc (.inl rfl)
  case h_4 f hpc =>
    obtain rfl := Option.some.inj hs
    exact h.unlink hr hpc (.inr rfl)
  case h_5 f hpc =>
    obtain rfl := Option.some.inj hs
    refine h.setQ hr { own := ?_, linked := nofun, count := hok.count, dead := fun hd => ?_, fini := fun _ => rfl }
      (fun j => ?_) fun j => ?_
    · have := hok.own
      simpa [FileQ.holds, FileQ.adding, FileQ.works, hpc] using this
    · cases hpc.symm.trans (hok.dead hd).2
    · simp [FileQ.holds, FileQ.adding, FileQ.removing, hpc]
    · simp [FileQ.works, hpc]
  case h_6 f hpc =>
    obtain rfl := Option.some.inj hs
    exact h.invalidate hr hpc

theorem step (h : s.RegInv) {a : FileAct} (hfresh : s.Fresh a) (hs : s.step a = some s') : s'.RegInv := by
  cases a with
  | create qid =>
    simp only [FileSt.step] at hs
    split at hs
    · cases hs
    · obtain rfl := Option.some.inj hs
      exact h.create qid
  | lookup fd =>
    obtain ⟨f, -, rfl⟩ := Option.map_eq_some_iff.1 hs
    exact ⟨h.keyed, h.held, h.once, h.ok⟩
  | hold k f =>
    simp only [FileSt.step] at hs
    split at hs
    · cases hs
    · split at hs
      · obtain rfl := Option.some.inj hs
        exact ⟨h.keyed, h.held, h.once, h.ok⟩
      · cases hs
  | put f =>
    simp only [FileSt.step] at hs
    split at hs
    · obtain rfl := Option.some.inj hs
      exact ⟨h.keyed, h.held, h.once, h.ok⟩
    · cases hs
  | install k fd =>
    simp only [FileSt.step] at hs
    split at hs
    case h_1 => cases hs
    case h_2 r hr =>
      split at hs
      · exact Option.some.inj hs ▸ h
      · cases hs
    case h_3 r n hr =>
      split at hs
      · cases hs
      case isFalse hfree =>
        split at hs
        · exact Option.some.inj hs ▸ h
        case isFalse hn =>
          obtain rfl := Option.some.inj hs
          exact h.install hr (by simpa using hfree) (by simpa using hn)
  | addFd k ok =>
    simp only [FileSt.step] at hs
    split at hs
    case h_1 => cases hs
    case h_2 r hr =>
      split at hs
      case h_1 f hpc =>
        split at hs
        · exact Option.some.inj hs ▸ h.link hr hpc
        · exact Option.some.inj hs ▸ h.unroll hr hpc
      case h_2 => cases hs
  | delF k f close =>
    simp only [FileSt.step] at hs
    split at hs
    case h_1 => cases hs
    case h_2 r hr =>
      split at hs
      case isTrue hfree =>
        obtain rfl := Option.some.inj hs
        have hidle := (FileQ.idle_of_free (Bool.and_eq_true_iff.1 hfree).1).2.2
        refine h.delF hr hidle (hfresh.imp_left ?_) close
        rintro ⟨r', hr', hf⟩
        obtain rfl := Option.some.inj (hr.symm.trans hr')
        exact hf
      case isFalse => cases hs
  | destroy k =>
    simp only [FileSt.step] at hs
    split at hs
    case h_1 => cases hs
    case h_2 r hr =>
      split at hs
      case isTrue hfree =>
        obtain rfl := Option.some.inj hs
        have hok := h.ok k r hr
        have hadd := FileQ.adding_idle (FileQ.idle_of_free hfree).2.2
        exact h.setQ hr { own := hok.own, linked := hok.linked, count := hok.count, dead := hok.dead, fini := fun _ => hadd }
          (fun _ => rfl) fun _ => Nat.le_refl _
      case isFalse => cases hs
  | thread k =>
    simp only [FileSt.step] at hs
    split at hs
    case h_1 => cases hs
    case h_2 r hr => exact h.thread hr hs

theorem init : FileSt.init.RegInv := by
  refine ⟨nofun, fun _ => rfl, fun _ => Nat.zero_le _, nofun⟩

theorem agrees (h : s.RegInv) : s.Agrees := by
  refine ⟨fun k r hr f hf => ?_, fun n f hn => ⟨h.keyed n f hn, ?_⟩⟩
  · by_cases hrem : f ∈ r.removing
    · right
      unfold FileQ.removing at hrem
      split at hrem
      case h_1 f' close hpc =>
        obtain rfl := List.mem_singleton.1 hrem
        exact ⟨close, hpc⟩
      case h_2 => cases hrem
    · left
      have := h.reg_of_mem hr (List.mem_append_left _ hf) hrem
      simpa [reg] using this
  · have hreg := h.reg_of_attached hn
    have hworks := h.works_of_reg hreg
    have hrem : s.total FileQ.removing f ≤ s.total FileQ.works f := total_mono fun r => r.removing_le_works f
    have hheld := h.held f
    have hsplit : s.total FileQ.holds f = s.linkedCount f + s.total FileQ.adding f := total_append
    by_cases hadd : s.total FileQ.adding f = 0
    · left
      omega
    · right
      obtain ⟨k, r, hr, hf⟩ := total_pos.1 (Nat.pos_of_ne_zero hadd)
      refine ⟨k, r, hr, ?_⟩
      unfold FileQ.adding at hf
      split at hf
      case h_1 f' hpc =>
        obtain rfl := List.mem_singleton.1 hf
        exact hpc
      case h_2 => cases hf

/-- Each call of `remove_fd`. -/
theorem removes (h : s.RegInv) {a : FileAct} (hfresh : s.Fresh a) (ha : s.removes a = some f) :
    (s.removeFd f).1 = true ∨ (s.removeFd f).2 = s := by
  have hmem : ∀ (k : Nat) (r : FileQ), s.queues[k]? = some r → f ∈ r.holds → f ∉ r.removing →
      (s.removeFd f).1 = true ∨ (s.removeFd f).2 = s := fun k r hr hf hrem =>
    .inl (h.removeFd_of_reg (h.reg_of_mem hr hf hrem)).1
  unfold FileSt.removes at ha
  split at ha
  case h_1 k =>
    obtain ⟨r, hr, hf⟩ := Option.bind_eq_some_iff.1 ha
    split at hf
    case h_1 f' hpc =>
      obtain rfl := Option.some.inj hf
      exact hmem k r hr (by simp [FileQ.holds, FileQ.adding, hpc]) (by simp [FileQ.removing, hpc])
    case h_2 => cases hf
  case h_2 k f' close =>
    obtain ⟨r, hr, hf⟩ := Option.bind_eq_some_iff.1 ha
    split at hf
    case isTrue hfree =>
      obtain rfl := Option.some.inj hf
      have hidle := (FileQ.idle_of_free hfree.1).2.2
      rcases hfresh with ⟨r', hr', hf'⟩ | hnone
      · obtain rfl := Option.some.inj (hr.symm.trans hr')
        exact hmem k r hr (List.mem_append_left _ hf') (by simp [FileQ.removing_idle hidle])
      · exact .inr (by rw [removeFd_of_none hnone])
    case isFalse => cases hf
  case h_3 k =>
    obtain ⟨r, hr, hf⟩ := Option.bind_eq_some_iff.1 ha
    split at hf
    case isTrue hpc =>
      have hf : f ∈ r.iofds := List.mem_of_mem_head? hf
      exact hmem k r hr (List.mem_append_left _ hf) (by simp [FileQ.removing_idle hpc.2])
    case isFalse => cases hf
  case h_4 => cases ha

/-- The thread in `mpq_fini_iofds` gets closer to its end with each step. -/
theorem thread_fini (h : s.RegInv) (hr : s.queues[k]? = some r) (hfini : r.fini) (halive : r.alive) :
    ∃ s' r', s.thread k r = some s' ∧ s'.queues[k]? = some r' ∧ r'.fini ∧ r'.left < r.left := by
  have hok := h.ok k r hr
  have hset : ∀ r' : FileQ, (s.queues.set k r')[k]? = some r' := fun _ => getElem?_set_self hr
  have hunlink : ∀ f close pc, r.pc = .removed f close → (pc = .deleted f ∨ pc = .idle) →
      (r.unlink f pc).left < r.left := by
    intro f close pc hpc hpc'
    have hf : f ∈ r.iofds := hok.linked f (by simp [FileQ.removing, hpc])
    have hlen : 0 < r.iofds.length := List.length_pos_of_mem hf
    rcases hpc' with rfl | rfl
    all_goals
      simp only [FileQ.left, FileQ.unlink, hpc, halive, if_true, List.length_erase_of_mem hf]
      omega
  unfold FileSt.thread
  cases hpc : r.pc with
  | idle =>
    cases hnil : r.iofds with
    | nil =>
      refine ⟨s.setQ k r.finish, r.finish, by simp [halive, hfini], hset _, hfini, ?_⟩
      simp [FileQ.left, FileQ.finish, halive, hpc]
    | cons f fs =>
      have hf : f ∈ r.iofds := by simp [hnil]
      have hreg : s.reg f = 1 := h.reg_of_mem hr (List.mem_append_left _ hf) (by simp [FileQ.removing_idle hpc])
      refine ⟨s.delF k r f true, { r with pc := .removed f true }, by simp [halive, hfini], ?_, hfini, ?_⟩
      · rw [(h.remove hr hpc hf true).1, FileSt.setQ, (h.removeFd_of_reg hreg).2.2.1]
        exact hset _
      · simp [FileQ.left, halive, hpc]
  | installed f =>
    have := hok.fini hfini
    simp [FileQ.adding, hpc] at this
  | removed f close =>
    cases close with
    | true => exact ⟨_, _, rfl, hset _, hfini, hunlink f true _ hpc (.inl rfl)⟩
    | false => exact ⟨_, _, rfl, hset _, hfini, hunlink f false _ hpc (.inr rfl)⟩
  | deleted f =>
    refine ⟨_, _, rfl, hset _, hfini, ?_⟩
    simp [FileQ.left, halive, hpc]
  | closed f =>
    refine ⟨_, _, rfl, hset _, hfini, ?_⟩
    simp [FileQ.left, halive, hpc]

theorem step_fini (h : s.RegInv) {a : FileAct} (hs : s.step a = some s') (hr : s.queues[k]? = some r) (hfini : r.fini)
    (ha : a ≠ .thread k) : s'.queues[k]? = some r := by
  rcases step_queues hs with hq | ⟨qid, hq⟩ | ⟨k', r₁, r', hr₁, hq, hwho⟩
  · rw [hq, hr]
  · rw [hq]
    exact (List.getElem?_append_left (List.getElem?_eq_some_iff.1 hr).1).trans hr
  · have hk : k' ≠ k := by
      rintro rfl
      obtain rfl := Option.some.inj (hr.symm.trans hr₁)
      rcases hwho with hfree | hadd | rfl
      · exact absurd hfini (by simp [(FileQ.idle_of_free hfree).2.1])
      · exact hadd ((h.ok k' r hr).fini hfini)
      · exact ha rfl
    rw [hq]
    exact (getElem?_set_ne hk).trans hr

theorem run_fini {as : List FileAct} (h : s.RegInv) (hr : s.queues[k]? = some r) (hfini : r.fini)
    (hok : Along FileSt.step Fresh s as) (hrun : exec FileSt.step s as = some s') :
    ∃ r', s'.queues[k]? = some r' ∧ r'.fini ∧ as.count (.thread k) + r'.left ≤ r.left := by
  induction as generalizing s r with
  | nil =>
    obtain rfl := Option.some.inj hrun
    exact ⟨r, hr, hfini, by simp⟩
  | cons a as ih =>
    rw [along_cons] at hok
    rw [exec_cons, Option.bind_eq_some_iff] at hrun
    obtain ⟨t, ht, hrun⟩ := hrun
    have hinv := h.step hok.1 ht
    by_cases ha : a = .thread k
    · subst ha
      have ht' : s.thread k r = some t := by simpa [FileSt.step, hr] using ht
      have halive : r.alive := by
        by_contra hdead
        have hpc := ((h.ok k r hr).dead (by simpa using hdead)).2
        simp [FileSt.thread, hpc, hdead] at ht'
      obtain ⟨t', r₁, hstep, hr₁, hfini₁, hlt⟩ := h.thread_fini hr hfini halive
      obtain rfl := Option.some.inj (hstep.symm.trans ht')
      obtain ⟨r', hr', hfini', hle⟩ := ih hinv hr₁ hfini₁ (hok.2 _ ht) hrun
      refine ⟨r', hr', hfini', ?_⟩
      rw [List.count_cons_self]
      omega
    · have hr₁ := h.step_fini ht hr hfini ha
      obtain ⟨r', hr', hfini', hle⟩ := ih hinv hr₁ hfini (hok.2 _ ht) hrun
      refine ⟨r', hr', hfini', ?_⟩
      rwa [List.count_cons_of_ne ha]

theorem finiEnds (h : s.RegInv) (hr : s.queues[k]? = some r) (hfini : r.fini) : s.FiniEnds k := by
  refine ⟨r.left, fun as s' hok hrun => ?_⟩
  obtain ⟨r', hr', hfini', hle⟩ := h.run_fini hr hfini hok hrun
  have hinv : s'.RegInv := exec_invariant (fun _ _ _ h hok hs => h.step hok hs) h hok hrun
  refine ⟨by omega, r', hr', fun halive => ?_, fun hdead => ((hinv.ok k r' hr').dead hdead).1⟩
  obtain ⟨t, -, ht, -⟩ := hinv.thread_fini hr' hfini' halive
  simp [FileSt.step, hr', ht]

end RegInv

variable {as : List FileAct}

theorem run_regInv (hrun : run as = some s) (hok : Along step Fresh init as) : s.RegInv :=
  exec_invariant (fun _ _ _ h hok hs => h.step hok hs) RegInv.init hok hrun

/-- In every run in which the references of the callers are used for objects that are still linked, or whose number is
not registered: the registry and the lists agree, `remove_fd` removes the object or changes nothing, and the loop of
`mpq_fini_iofds` ends. -/
theorem registry_agrees (hrun : run as = some s) (hok : Along step Fresh init as) :
    s.Agrees ∧
    (∀ a f, s.Fresh a → s.removes a = some f → (s.removeFd f).1 = true ∨ (s.removeFd f).2 = s) ∧
    ∀ (k : Nat) (r : FileQ), s.queues[k]? = some r → r.fini → s.FiniEnds k := by
  have hinv := run_regInv hrun hok
  exact ⟨hinv.agrees, fun _ _ => hinv.removes, fun _ _ => hinv.finiEnds⟩

/-- Two callers have looked the fd 5 up; one deletes it, the other is late. -/
def lateRun : List FileAct :=
  [.create 0, .install 0 (some 5), .addFd 0 true, .lookup (some 5), .lookup (some 5), .delF 0 0 false, .thread 0, .put 0]

/-- The late one deletes nothing, and the fd is added again. -/
def cleanRun : List FileAct :=
  lateRun ++ [.delF 0 0 false, .put 0, .install 0 (some 5), .addFd 0 true, .destroy 0, .thread 0]

theorem registry_agrees_cleanRun : ∃ s, run cleanRun = some s ∧ s.Agrees ∧
    (∀ a f, s.Fresh a → s.removes a = some f → (s.removeFd f).1 = true ∨ (s.removeFd f).2 = s) ∧
    ∀ (k : Nat) (r : FileQ), s.queues[k]? = some r → r.fini → s.FiniEnds k := by
  obtain ⟨s, hs⟩ := Option.isSome_iff_exists.1 (show (run cleanRun).isSome by decide +kernel)
  exact ⟨s, hs, registry_agrees hs (by decide +kernel)⟩

/-- The fd is added again before the late one deletes it: the new object is out of the registry. -/
def staleRun : List FileAct :=
  lateRun ++ [.install 0 (some 5), .addFd 0 true, .delF 0 0 false, .put 0, .destroy 0]

theorem step_stuck (hr : s.queues[k]? = some r) (halive : r.alive) (hfini : r.fini) (hidle : r.pc = .idle) {fs : List Nat}
    (hcons : r.iofds = f :: fs) (hnone : s.lookup (s.fdOf f) = none) : s.step (.thread k) = some s := by
  have hdel : s.delF k r f true = s := by
    unfold delF
    rw [RegInv.removeFd_of_none hnone]
    simp
  simp [step, hr, thread, hidle, halive, hfini, hcons, hdel]

theorem exec_replicate {a : FileAct} (h : s.step a = some s) (m : Nat) : exec step s (List.replicate m a) = some s := by
  induction m with
  | zero => rfl
  | succ m ih => rw [List.replicate_succ, exec_cons, h, Option.bind_some, ih]

/-- The new object is linked and not registered, and `mpq_fini_iofds` tries to close it forever. -/
theorem not_registry_agrees : ∃ s, run staleRun = some s ∧ ¬ s.Agrees ∧
    ∀ m, exec step s (List.replicate m (.thread 0)) = some s := by
  have hany : (run staleRun).any (fun s => decide (s.queues = [⟨0, true, true, [1], 1, .idle⟩] ∧
      s.lookup (s.fdOf 1) = none)) = true := by decide +kernel
  obtain ⟨s, hs, hd⟩ := (Option.any_eq_true ..).1 hany
  obtain ⟨hq, hnone⟩ := of_decide_eq_true hd
  have hr : s.queues[0]? = some ⟨0, true, true, [1], 1, .idle⟩ := by rw [hq]; rfl
  refine ⟨s, hs, fun h => ?_, exec_replicate (step_stuck hr rfl rfl rfl rfl hnone)⟩
  rcases h.linked 0 _ hr 1 (List.mem_singleton.2 rfl) with hreg | ⟨close, hpc⟩
  · simp [registered, hnone] at hreg
  · cases hpc

end FileSt

end Aosl
