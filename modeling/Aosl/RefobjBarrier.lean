import Aosl.RefobjLife

/-!
# Destroying a ref object waits for the queued functions that run with it

An invocation of an object that is not `modify_async` holds the read lock of the object, so a destroyer gets the
write lock only when none is running. The exception is `aosl_ref_write` inside a queued function, which gives up
the read lock of the invocation below it: `lent` counts these. It keeps `lk` from before the read lock
is dropped until it is back, and a destroyer needs `lk` as well, so the destroyer never sees a lent lock.
-/

namespace Aosl
open Lib

/-- What a call holds of `stop_lock`, for an object that is not `modify_async`: the raw read lock; the raw write
lock; the mutex `lk`. `lent`: it has given up the read lock of the invocation below it. -/
structure PcLock where
  rd : Bool
  lent : Bool
  wr : Bool
  lk : Bool
deriving DecidableEq

namespace RefPc

def lock : RefPc → PcLock
  | rdIn l => ⟨l = .raw, false, false, false⟩
  | rdRun l => ⟨l = .raw, false, false, false⟩
  | rdLeave l => ⟨l = .raw, false, false, false⟩
  | attempt _ => ⟨false, false, false, true⟩
  | leave _ _ => ⟨false, false, true, true⟩
  | unlk _ _ => ⟨false, false, false, true⟩
  | wrIn up => ⟨false, up, true, true⟩
  | wrRun up => ⟨false, up, true, true⟩
  | upDrop => ⟨false, false, false, true⟩
  | upWait => ⟨false, true, false, true⟩
  | upLeave => ⟨false, true, true, true⟩
  | dnWait => ⟨false, true, false, true⟩
  | dnUnlk => ⟨false, false, false, true⟩
  | invIn => ⟨true, false, false, false⟩
  | invFail => ⟨true, false, false, false⟩
  | invRun => ⟨true, false, false, false⟩
  | invLeave => ⟨true, false, false, false⟩
  | dIn _ _ => ⟨false, false, true, true⟩
  | _ => ⟨false, false, false, false⟩

/-- A write inside an invocation, up to where the read lock is back. -/
def isUp : RefPc → Bool
  | wrIn up => up
  | wrRun up => up
  | upWant => true
  | upDrop => true
  | upWait => true
  | upLeave => true
  | dnWait => true
  | _ => false

/-- A destroy that has set or seen the flag and does not fail. -/
def isPast : RefPc → Bool
  | leave u _ => u ≠ .write
  | unlk u _ => u ≠ .write
  | dAfter _ _ _ => true
  | dSpin _ => true
  | dLast _ err => err = none
  | dRet _ err => err = none
  | _ => false

theorem isUp_of_lent {x : RefPc} (h : x.lock.lent = true) : x.isUp = true := by
  unfold lock at h
  split at h <;> simp_all [isUp]

theorem lk_of_lent {x : RefPc} (h : x.lock.lent = true) : x.lock.lk = true := by
  unfold lock at *
  split <;> simp_all

end RefPc

namespace RefSt

variable {s s' : RefSt} {i : Nat} {l xs ys rest : List RefPc} {x y : RefPc}

/-- A write inside an invocation has the invocation below it. -/
def UpOk : List RefPc → Prop
  | [] => True
  | x :: rest => (x.isUp = true → onThisQ rest = true) ∧ UpOk rest

structure BarInv (s : RefSt) : Prop where
  sync : s.modifyAsync = false
  readers : s.readers + s.cnt (·.lock.lent) = s.cnt (·.lock.rd)
  writer : s.cnt (·.lock.wr) = s.writer.toNat
  lk : s.cnt (·.lock.lk) = s.lk.toNat
  excl : s.writer = true → s.readers = 0
  up : ∀ l ∈ s.thr, UpOk l
  run : s.destroyed = true → .invRun ∉ s.thr.flatten
  past : ∀ x ∈ s.thr.flatten, x.isPast = true → s.destroyed = true
  ret : ∀ r ∈ s.results, r.2 = none → s.destroyed = true

theorem onThisQ_append (h : onThisQ rest = true) : onThisQ (ys ++ rest) = true := by
  simp only [onThisQ, List.any_append, Bool.or_eq_true]
  exact .inr h

theorem UpOk.append (h : UpOk rest) (hys : ∀ y ∈ ys, y.isUp = true → onThisQ rest = true) : UpOk (ys ++ rest) := by
  induction ys with
  | nil => exact h
  | cons y ys ih =>
    refine ⟨fun hy => onThisQ_append (hys y List.mem_cons_self hy), ?_⟩
    exact ih fun z hz => hys z (List.mem_cons_of_mem y hz)

theorem UpOk.tail (h : UpOk (xs ++ rest)) : UpOk rest := by
  induction xs with
  | nil => exact h
  | cons x xs ih => exact ih h.2

theorem rd_pos_of_onThisQ (h : onThisQ l = true) : 0 < l.countP (·.lock.rd) := by
  obtain ⟨x, hx, hrun⟩ := List.any_eq_true.1 h
  rw [decide_eq_true_eq] at hrun
  subst hrun
  exact List.countP_pos_iff.2 ⟨_, hx, rfl⟩

theorem UpOk.rd_pos (h : UpOk l) (hlent : 0 < l.countP (·.lock.lent)) : 0 < l.countP (·.lock.rd) := by
  induction l with
  | nil => cases hlent
  | cons x l ih =>
    rw [List.countP_cons]
    by_cases hx : x.lock.lent = true
    · have := rd_pos_of_onThisQ (h.1 (RefPc.isUp_of_lent hx))
      omega
    · rw [List.countP_cons, if_neg hx, Nat.add_zero] at hlent
      have := ih h.2 hlent
      omega

theorem lent_le {ls : List (List RefPc)} (hup : ∀ l ∈ ls, UpOk l) (hlk : ls.flatten.countP (·.lock.lk) ≤ 1) :
    ls.flatten.countP (·.lock.lent) ≤ ls.flatten.countP (·.lock.rd) := by
  have hle : ls.flatten.countP (·.lock.lent) ≤ ls.flatten.countP (·.lock.lk) :=
    List.countP_mono_left fun x _ => RefPc.lk_of_lent
  by_cases hpos : 0 < ls.flatten.countP (·.lock.lent)
  · obtain ⟨x, hx, hlent⟩ := List.countP_pos_iff.1 hpos
    obtain ⟨l, hl, hxl⟩ := List.mem_flatten.1 hx
    have hrd := (hup l hl).rd_pos (List.countP_pos_iff.2 ⟨x, hxl, hlent⟩)
    obtain ⟨y, hy, hyrd⟩ := List.countP_pos_iff.1 hrd
    have : 0 < ls.flatten.countP (·.lock.rd) :=
      List.countP_pos_iff.2 ⟨y, List.mem_flatten.2 ⟨l, hl, hy⟩, hyrd⟩
    omega
  · omega

/-- The calls `xs` at the top of a stack become `ys`: what they hold changes as the lock does. -/
structure Balance (s s' : RefSt) (xs ys : List RefPc) : Prop where
  readers : s'.readers + ys.countP (·.lock.lent) + xs.countP (·.lock.rd) =
    s.readers + xs.countP (·.lock.lent) + ys.countP (·.lock.rd)
  writer : ys.countP (·.lock.wr) + s.writer.toNat = xs.countP (·.lock.wr) + s'.writer.toNat
  lk : ys.countP (·.lock.lk) + s.lk.toNat = xs.countP (·.lock.lk) + s'.lk.toNat
  excl : s'.writer = true → s'.readers = 0

theorem mem_flatten_set {ls : List (List RefPc)} (h : x ∈ (ls.set i l).flatten) : x ∈ ls.flatten ∨ x ∈ l := by
  obtain ⟨m, hm, hx⟩ := List.mem_flatten.1 h
  rcases List.mem_or_eq_of_mem_set hm with hm | rfl
  · exact .inl (List.mem_flatten.2 ⟨m, hm, hx⟩)
  · exact .inr hx

/-- One lemma for all steps. The flag is only set when no queued function runs with the object, and what
comes in has to fit the flag. -/
theorem BarInv.swap (h : s.BarInv) (xs ys : List RefPc) (hl : s.thr[i]? = some (xs ++ rest))
    (hthr : s'.thr = s.thr.set i (ys ++ rest)) (hsync : s'.modifyAsync = s.modifyAsync) (hbal : Balance s s' xs ys)
    (hup : ∀ y ∈ ys, y.isUp = true → onThisQ rest = true)
    (hflag : s.destroyed = true → s'.destroyed = true)
    (hrun : s'.destroyed = true → .invRun ∉ s.thr.flatten ∧ .invRun ∉ ys)
    (hpast : ∀ y ∈ ys, y.isPast = true → s'.destroyed = true)
    (hret : ∀ r ∈ s'.results, r.2 = none → r ∈ s.results ∨ s'.destroyed = true) : s'.BarInv := by
  have hcnt : ∀ p, s'.cnt p + xs.countP p = s.cnt p + ys.countP p := by
    intro p
    have := cnt_set hl hthr p
    simp only [List.countP_append] at this
    omega
  have hmem : ∀ x ∈ s'.thr.flatten, x ∈ s.thr.flatten ∨ x ∈ ys := by
    intro x hx
    rw [hthr] at hx
    rcases mem_flatten_set hx with hx | hx
    · exact .inl hx
    · rcases List.mem_append.1 hx with hx | hx
      · exact .inr hx
      · exact .inl (List.mem_flatten.2 ⟨_, List.mem_of_getElem? hl, List.mem_append_right xs hx⟩)
  refine ⟨hsync.trans h.sync, ?_, ?_, ?_, hbal.excl, ?_, ?_, ?_, ?_⟩
  · have := h.readers
    have := hbal.readers
    have := hcnt (·.lock.lent)
    have := hcnt (·.lock.rd)
    omega
  · have := h.writer
    have := hbal.writer
    have := hcnt (·.lock.wr)
    omega
  · have := h.lk
    have := hbal.lk
    have := hcnt (·.lock.lk)
    omega
  · intro l hm
    rw [hthr] at hm
    rcases List.mem_or_eq_of_mem_set hm with hm | rfl
    · exact h.up l hm
    · exact (h.up _ (List.mem_of_getElem? hl)).tail.append hup
  · intro hd hx
    rcases hmem _ hx with hx | hx
    · exact (hrun hd).1 hx
    · exact (hrun hd).2 hx
  · intro x hx hp
    rcases hmem x hx with hx | hx
    · exact hflag (h.past x hx hp)
    · exact hpast x hx hp
  · intro r hr hnone
    rcases hret r hr hnone with hr | hd
    · exact hflag (h.ret r hr hnone)
    · exact hd

/-- A step that leaves the flag and the results alone and brings in nothing that depends on the flag. -/
theorem BarInv.plain (h : s.BarInv) (xs ys : List RefPc) (hl : s.thr[i]? = some (xs ++ rest))
    (hthr : s'.thr = s.thr.set i (ys ++ rest))
    (hs : s'.modifyAsync = s.modifyAsync ∧ s'.destroyed = s.destroyed ∧ s'.results = s.results)
    (hbal : Balance s s' xs ys) (hup : ∀ y ∈ ys, y.isUp = true → onThisQ rest = true)
    (hys : ∀ y ∈ ys, y ≠ .invRun ∧ y.isPast = false) : s'.BarInv := by
  obtain ⟨hsync, hdestroyed, hresults⟩ := hs
  apply h.swap xs ys hl hthr hsync hbal hup
  · intro hd
    rw [hdestroyed]
    exact hd
  · intro hd
    rw [hdestroyed] at hd
    exact ⟨h.run hd, fun hy => (hys _ hy).1 rfl⟩
  · intro y hy hp
    rw [(hys y hy).2] at hp
    cases hp
  · intro r hr _
    rw [hresults] at hr
    exact .inl hr

theorem BarInv.lk_le (h : s.BarInv) : s.cnt (·.lock.lk) ≤ 1 := by
  rw [h.lk]
  exact Bool.toNat_le _

/-- The innermost call of a thread holds a read lock, so it is not lent. -/
theorem BarInv.readers_pos (h : s.BarInv) (hl : s.thr[i]? = some (x :: rest)) (hrd : x.lock.rd = true)
    (hlent : x.lock.lent = false) : 0 < s.readers := by
  have hcnt : ∀ p, (s.goto i rest).cnt p + _ = _ := fun p => cnt_set hl rfl p
  have hlk : (s.goto i rest).cnt (·.lock.lk) ≤ 1 := by
    have := hcnt (·.lock.lk)
    rw [List.countP_cons] at this
    have := h.lk_le
    omega
  have hup : ∀ l ∈ (s.goto i rest).thr, UpOk l := by
    intro l hm
    rcases List.mem_or_eq_of_mem_set hm with hm | rfl
    · exact h.up l hm
    · exact (h.up _ (List.mem_of_getElem? hl)).2
  have hle : (s.goto i rest).cnt (·.lock.lent) ≤ (s.goto i rest).cnt (·.lock.rd) := lent_le hup hlk
  have h1 := hcnt (·.lock.lent)
  have h2 := hcnt (·.lock.rd)
  rw [List.countP_cons, hlent, if_neg Bool.false_ne_true] at h1
  rw [List.countP_cons, hrd, if_pos rfl] at h2
  have := h.readers
  omega

theorem BarInv.lent_zero (h : s.BarInv) (hl : s.thr[i]? = some (x :: rest)) (hlk : x.lock.lk = true)
    (hlent : x.lock.lent = false) : s.cnt (·.lock.lent) = 0 := by
  have hcnt : ∀ p, (s.goto i rest).cnt p + _ = _ := fun p => cnt_set hl rfl p
  have hle : (s.goto i rest).cnt (·.lock.lent) ≤ (s.goto i rest).cnt (·.lock.lk) :=
    List.countP_mono_left fun x _ => RefPc.lk_of_lent
  have h1 := hcnt (·.lock.lent)
  have h2 := hcnt (·.lock.lk)
  rw [List.countP_cons, hlent, if_neg Bool.false_ne_true] at h1
  rw [List.countP_cons, hlk, if_pos rfl] at h2
  have := h.lk_le
  omega

theorem BarInv.lk_eq (h : s.BarInv) (hl : s.thr[i]? = some (x :: rest)) (hlk : x.lock.lk = true) : s.lk = true := by
  have hpos : 0 < s.cnt (·.lock.lk) := cnt_pos hl hlk
  rw [h.lk] at hpos
  rcases hb : s.lk
  · rw [hb] at hpos
    cases hpos
  · rfl

theorem BarInv.writer_eq (h : s.BarInv) (hl : s.thr[i]? = some (x :: rest)) (hwr : x.lock.wr = true) :
    s.writer = true := by
  have hpos : 0 < s.cnt (·.lock.wr) := cnt_pos hl hwr
  rw [h.writer] at hpos
  rcases hb : s.writer
  · rw [hb] at hpos
    cases hpos
  · rfl

theorem BarInv.up_eq (h : s.BarInv) (hl : s.thr[i]? = some (x :: rest)) (hup : x.isUp = true) :
    onThisQ rest = true := (h.up _ (List.mem_of_getElem? hl)).1 hup

theorem BarInv.past_eq (h : s.BarInv) (hl : s.thr[i]? = some (x :: rest)) (hp : x.isPast = true) :
    s.destroyed = true :=
  h.past x (List.mem_flatten.2 ⟨_, List.mem_of_getElem? hl, List.mem_cons_self⟩) hp

theorem BarInv.no_run (h : s.BarInv) {del : Bool} {gets : Nat} (hl : s.thr[i]? = some (.dIn del gets :: rest)) :
    .invRun ∉ s.thr.flatten := by
  have hreaders : s.readers = 0 := h.excl (h.writer_eq hl rfl)
  have hlent : s.cnt (·.lock.lent) = 0 := h.lent_zero hl rfl rfl
  have hrd : s.cnt (·.lock.rd) = 0 := by
    rw [← h.readers]
    omega
  intro hx
  exact absurd rfl (List.countP_eq_zero.1 hrd _ hx)

theorem BarInv.put (hl : s.thr[i]? = some l) (h : (s.goto i ys).BarInv) : (s.put i ys).BarInv := by
  have h' : ({ s with usage := s.usage - 1 }.goto i ys).BarInv :=
    ⟨h.sync, h.readers, h.writer, h.lk, h.excl, h.up, h.run, h.past, h.ret⟩
  have hself : (s.thr.set i ys)[i]? = some ([] ++ ys) := getElem?_set_self hl
  unfold RefSt.put
  split_ifs
  · refine h'.plain [] [.dying] hself ?_ ⟨rfl, rfl, rfl⟩ ⟨rfl, rfl, rfl, h.excl⟩ (by simp [RefPc.isUp])
      (by simp [RefPc.isPast])
    exact (List.set_set ..).symm
  · exact h'

theorem BarInv.move (h : s.BarInv) (hl : s.thr[i]? = some (x :: rest)) (hthr : s'.thr = s.thr.set i (y :: rest))
    (hs : s'.modifyAsync = s.modifyAsync ∧ s'.destroyed = s.destroyed ∧ s'.results = s.results)
    (hbal : Balance s s' [x] [y]) (hup : y.isUp = true → onThisQ rest = true) (hrun : y ≠ .invRun)
    (hpast : y.isPast = true → s.destroyed = true) : s'.BarInv := by
  by_cases hp : y.isPast = true
  · have hd := hpast hp
    have hd' : s'.destroyed = true := hs.2.1.trans hd
    refine h.swap [x] [y] hl hthr hs.1 hbal ?_ (fun _ => hd') ?_ (fun _ _ _ => hd') fun _ _ _ => .inr hd'
    · intro z hz hup'
      rw [List.mem_singleton.1 hz] at hup'
      exact hup hup'
    · exact fun _ => ⟨h.run hd, fun hz => hrun (List.mem_singleton.1 hz).symm⟩
  · refine h.plain [x] [y] hl hthr hs hbal ?_ ?_
    · intro z hz hup'
      rw [List.mem_singleton.1 hz] at hup'
      exact hup hup'
    · intro z hz
      rw [List.mem_singleton.1 hz]
      exact ⟨hrun, Bool.not_eq_true _ ▸ hp⟩

theorem BarInv.quiet (h : s.BarInv) (hl : s.thr[i]? = some (x :: rest)) (hthr : s'.thr = s.thr.set i (y :: rest))
    (hs : s'.modifyAsync = s.modifyAsync ∧ s'.destroyed = s.destroyed ∧ s'.results = s.results)
    (hlk : s'.readers = s.readers ∧ s'.writer = s.writer ∧ s'.lk = s.lk) (hlock : x.lock = y.lock)
    (hup : y.isUp = true → onThisQ rest = true) (hrun : y ≠ .invRun)
    (hpast : y.isPast = true → s.destroyed = true) : s'.BarInv := by
  obtain ⟨hreaders, hwriter, hlk⟩ := hlk
  refine h.move hl hthr hs ⟨?_, ?_, ?_, ?_⟩ hup hrun hpast
  · simp only [List.countP_cons, hlock, hreaders]
  · simp only [List.countP_cons, hlock, hwriter]
  · simp only [List.countP_cons, hlock, hlk]
  · rw [hreaders, hwriter]
    exact h.excl

theorem BarInv.crash (h : s.BarInv) : s.crash.BarInv :=
  ⟨h.sync, h.readers, h.writer, h.lk, h.excl, h.up, h.run, h.past, h.ret⟩

theorem BarInv.pop (h : s.BarInv) (hl : s.thr[i]? = some (x :: rest)) (hx : x.lock = ⟨false, false, false, false⟩) :
    (s.goto i rest).BarInv := by
  refine h.plain [x] [] hl rfl ⟨rfl, rfl, rfl⟩ ⟨?_, ?_, ?_, h.excl⟩ (by simp) (by simp)
  · simp [hx, goto]
  · simp [hx, goto]
  · simp [hx, goto]

theorem BarInv.unread (h : s.BarInv) (hl : s.thr[i]? = some (x :: rest)) (hx : x.lock = ⟨true, false, false, false⟩)
    (hy : y.lock = ⟨false, false, false, false⟩) (hup : y.isUp = false) (hrun : y ≠ .invRun) (hpast : y.isPast = false) :
    ({ s with readers := s.readers - 1 }.goto i (y :: rest)).BarInv := by
  have hpos : 0 < s.readers := h.readers_pos hl (by rw [hx]) (by rw [hx])
  refine h.move hl rfl ⟨rfl, rfl, rfl⟩ ⟨?_, ?_, ?_, ?_⟩ (by simp [hup]) hrun (by simp [hpast])
  · simp [hx, hy, goto]
    omega
  · simp [hx, hy, goto]
  · simp [hx, hy, goto]
  · intro hw
    have := h.excl hw
    omega

theorem BarInv.go (h : s.BarInv) (hl : s.thr[i]? = some (x :: rest)) (hgo : s.go i x rest = some s') : s'.BarInv := by
  have hsync : ¬ s.modifyAsync = true := by
    rw [h.sync]
    exact Bool.false_ne_true
  have hno : ∀ {p : Prop}, false = true → p := fun hf => absurd hf Bool.false_ne_true
  rcases x
  -- reading
  case rdWant =>
    simp only [RefSt.go] at hgo
    split_ifs at hgo with hw
    cases hgo
    exact h.move hl rfl ⟨rfl, rfl, rfl⟩ ⟨rfl, rfl, rfl, fun hw' => absurd hw' hw⟩ hno (by simp) hno
  case rdLeave l =>
    simp only [RefSt.go] at hgo
    split_ifs at hgo with hraw
    · cases hgo
      subst hraw
      exact h.unread hl rfl rfl rfl (by simp) rfl
    · cases hgo
      have hlock : (RefPc.rdLeave l).lock = RefPc.putting.lock := by simp [RefPc.lock, hraw]
      exact h.quiet hl rfl ⟨rfl, rfl, rfl⟩ ⟨rfl, rfl, rfl⟩ hlock hno (by simp) hno
  -- the write lock
  case want u =>
    simp only [RefSt.go] at hgo
    split_ifs at hgo with hlk
    cases hgo
    rw [Bool.not_eq_true] at hlk
    refine h.move hl rfl ⟨rfl, rfl, rfl⟩ ⟨rfl, rfl, ?_, h.excl⟩ hno (by simp) hno
    rw [hlk]
    rfl
  case attempt u =>
    have hlk := h.lk_eq hl rfl
    simp only [RefSt.go] at hgo
    split_ifs at hgo with hfree
    · cases hgo
      have hw : s.writer = false := by simpa using hfree.2
      rcases u with _ | ⟨del, gets⟩
      · refine h.move hl rfl ⟨rfl, rfl, rfl⟩ ⟨rfl, ?_, rfl, fun _ => hfree.1⟩ hno (by simp) hno
        rw [hw]
        rfl
      · refine h.move hl rfl ⟨rfl, rfl, rfl⟩ ⟨rfl, ?_, rfl, fun _ => hfree.1⟩ hno (by simp) hno
        rw [hw]
        rfl
    · cases hgo
      refine h.move hl rfl ⟨rfl, rfl, rfl⟩ ⟨rfl, rfl, ?_, h.excl⟩ hno (by simp) hno
      rw [hlk]
      rfl
  case leave u err =>
    have hw := h.writer_eq hl rfl
    cases hgo
    refine h.move hl rfl ⟨rfl, rfl, rfl⟩ ⟨rfl, ?_, rfl, hno⟩ hno (by simp) fun hp => h.past_eq hl hp
    rw [hw]
    rfl
  case unlk u err =>
    have hlk := h.lk_eq hl rfl
    cases hgo
    rcases u with _ | ⟨del, gets⟩
    · refine h.move hl rfl ⟨rfl, rfl, rfl⟩ ⟨rfl, rfl, ?_, h.excl⟩ hno (by simp) hno
      rw [hlk]
      rfl
    · refine h.move hl rfl ⟨rfl, rfl, rfl⟩ ⟨rfl, rfl, ?_, h.excl⟩ hno (by simp) fun _ => h.past_eq hl rfl
      rw [hlk]
      rfl
  -- writing, and the write lock taken inside an invocation
  case wrGot =>
    simp only [RefSt.go] at hgo
    split_ifs at hgo with _ hq
    · cases hgo
      exact h.crash
    · cases hgo
      exact h.quiet hl rfl ⟨rfl, rfl, rfl⟩ ⟨rfl, rfl, rfl⟩ rfl (fun _ => hq.1) (by simp) hno
    · cases hgo
      exact h.quiet hl rfl ⟨rfl, rfl, rfl⟩ ⟨rfl, rfl, rfl⟩ rfl hno (by simp) hno
  case wrIn up =>
    simp only [RefSt.go] at hgo
    split_ifs at hgo with _ hup
    · cases hgo
      exact h.crash
    · cases hgo
      rw [Bool.not_eq_true] at hup
      subst hup
      exact h.quiet hl rfl ⟨rfl, rfl, rfl⟩ ⟨rfl, rfl, rfl⟩ rfl hno (by simp) hno
    · cases hgo
      exact h.quiet hl rfl ⟨rfl, rfl, rfl⟩ ⟨rfl, rfl, rfl⟩ rfl (fun hup => h.up_eq hl hup) (by simp) hno
  case wrRun up =>
    cases hgo
    rcases up
    · exact h.quiet hl rfl ⟨rfl, rfl, rfl⟩ ⟨rfl, rfl, rfl⟩ rfl hno (by simp) hno
    · exact h.quiet hl rfl ⟨rfl, rfl, rfl⟩ ⟨rfl, rfl, rfl⟩ rfl (fun _ => h.up_eq hl rfl) (by simp) hno
  case upWant =>
    simp only [RefSt.go] at hgo
    split_ifs at hgo with hlk
    · cases hgo
      exact h.crash
    · cases hgo
      rw [Bool.not_eq_true] at hlk
      refine h.move hl rfl ⟨rfl, rfl, rfl⟩ ⟨rfl, rfl, ?_, h.excl⟩ (fun _ => h.up_eq hl rfl) (by simp) hno
      rw [hlk]
      rfl
  case upDrop =>
    have hlent := h.lent_zero hl rfl rfl
    have hrd : 0 < s.cnt (·.lock.rd) := by
      obtain ⟨z, hz, hzrd⟩ := List.countP_pos_iff.1 (rd_pos_of_onThisQ (h.up_eq hl rfl))
      refine List.countP_pos_iff.2 ⟨z, List.mem_flatten.2 ⟨_, List.mem_of_getElem? hl, ?_⟩, hzrd⟩
      exact List.mem_cons_of_mem _ hz
    have hpos : 0 < s.readers := by
      have := h.readers
      omega
    cases hgo
    refine h.move hl rfl ⟨rfl, rfl, rfl⟩ ⟨?_, rfl, rfl, ?_⟩ (fun _ => h.up_eq hl rfl) (by simp) hno
    · exact Nat.sub_add_cancel hpos
    · intro hw
      have := h.excl hw
      omega
  case upWait =>
    simp only [RefSt.go] at hgo
    split_ifs at hgo with hfree
    cases hgo
    have hw : s.writer = false := by simpa using hfree.2
    refine h.move hl rfl ⟨rfl, rfl, rfl⟩ ⟨rfl, ?_, rfl, fun _ => hfree.1⟩ (fun _ => h.up_eq hl rfl) (by simp) hno
    rw [hw]
    rfl
  case upLeave =>
    have hw := h.writer_eq hl rfl
    cases hgo
    refine h.move hl rfl ⟨rfl, rfl, rfl⟩ ⟨rfl, ?_, rfl, hno⟩ (fun _ => h.up_eq hl rfl) (by simp) hno
    rw [hw]
    rfl
  case dnWait =>
    simp only [RefSt.go] at hgo
    split_ifs at hgo with hw
    cases hgo
    exact h.move hl rfl ⟨rfl, rfl, rfl⟩ ⟨rfl, rfl, rfl, fun hw' => absurd hw' hw⟩ hno (by simp) hno
  case dnUnlk =>
    have hlk := h.lk_eq hl rfl
    cases hgo
    refine h.move hl rfl ⟨rfl, rfl, rfl⟩ ⟨rfl, rfl, ?_, h.excl⟩ hno (by simp) hno
    rw [hlk]
    rfl
  -- a queued function
  case invGot =>
    simp only [RefSt.go] at hgo
    rw [if_neg hsync] at hgo
    split_ifs at hgo with hw
    cases hgo
    exact h.move hl rfl ⟨rfl, rfl, rfl⟩ ⟨rfl, rfl, rfl, fun hw' => absurd hw' hw⟩ hno (by simp) hno
  case invIn =>
    simp only [RefSt.go] at hgo
    split_ifs at hgo with hd
    · cases hgo
      exact h.quiet hl rfl ⟨rfl, rfl, rfl⟩ ⟨rfl, rfl, rfl⟩ rfl hno (by simp) hno
    · cases hgo
      refine h.swap [.invIn] [.invRun] hl rfl rfl ⟨rfl, rfl, rfl, h.excl⟩ ?_ id ?_ ?_ ?_
      · simp [RefPc.isUp]
      · exact fun hd' => absurd hd' hd
      · simp [RefPc.isPast]
      · exact fun r hr _ => .inl hr
  case invFail =>
    rw [RefSt.go, invUnlock, if_neg hsync] at hgo
    cases hgo
    exact h.unread hl rfl rfl rfl (by simp) rfl
  case invLeave =>
    rw [RefSt.go, invUnlock, if_neg hsync] at hgo
    cases hgo
    exact h.unread hl rfl rfl rfl (by simp) rfl
  case invFailPut =>
    cases hgo
    exact .put hl (h.quiet hl rfl ⟨rfl, rfl, rfl⟩ ⟨rfl, rfl, rfl⟩ rfl hno (by simp) hno)
  case invFree =>
    cases hgo
    exact h.pop hl rfl
  -- destroying
  case dCheck del gets =>
    simp only [RefSt.go] at hgo
    split_ifs at hgo with hd
    · cases hgo
      exact h.quiet hl rfl ⟨rfl, rfl, rfl⟩ ⟨rfl, rfl, rfl⟩ rfl hno (by simp) fun _ => hd
    · cases hgo
      exact h.quiet hl rfl ⟨rfl, rfl, rfl⟩ ⟨rfl, rfl, rfl⟩ rfl hno (by simp) hno
  case dIn del gets =>
    have hrun := h.no_run hl
    cases hgo
    refine h.swap [.dIn del gets]
      [.leave (.destroy del gets) (if s.destroyed then some .eperm else none)] hl rfl rfl
      ⟨rfl, rfl, rfl, h.excl⟩ ?_ (fun _ => rfl) ?_ (fun _ _ _ => rfl) fun _ _ _ => .inr rfl
    · simp [RefPc.isUp]
    · exact fun _ => ⟨hrun, by simp⟩
  case dAfter del gets err =>
    have hd := h.past_eq hl rfl
    have hq : ∀ y : RefPc, y.lock = ⟨false, false, false, false⟩ → y.isUp = false → y ≠ .invRun →
        (s.goto i (y :: rest)).BarInv := by
      intro y hlock hup hrun
      exact h.quiet hl rfl ⟨rfl, rfl, rfl⟩ ⟨rfl, rfl, rfl⟩ hlock.symm (by simp [hup]) hrun fun _ => hd
    simp only [RefSt.go] at hgo
    split_ifs at hgo
    · cases hgo
      have h' := hq (.dSpin gets) rfl rfl (by simp)
      exact .put hl ⟨h'.sync, h'.readers, h'.writer, h'.lk, h'.excl, h'.up, h'.run, h'.past, h'.ret⟩
    · cases hgo
      exact hq (.dLast false err) rfl rfl (by simp)
  case dSpin gets =>
    simp only [RefSt.go] at hgo
    split_ifs at hgo
    cases hgo
    exact h.quiet hl rfl ⟨rfl, rfl, rfl⟩ ⟨rfl, rfl, rfl⟩ rfl hno (by simp) fun _ => h.past_eq hl rfl
  case dLast del err =>
    cases hgo
    exact .put hl (h.quiet hl rfl ⟨rfl, rfl, rfl⟩ ⟨rfl, rfl, rfl⟩ rfl hno (by simp) fun hp => h.past_eq hl hp)
  case dRet del err =>
    cases hgo
    have h' := h.pop hl rfl
    refine ⟨h'.sync, h'.readers, h'.writer, h'.lk, h'.excl, h'.up, h'.run, h'.past, ?_⟩
    intro r hr hnone
    rcases List.mem_append.1 hr with hr | hr
    · exact h.ret r hr hnone
    · rw [List.mem_singleton.1 hr] at hnone
      exact h.past_eq hl (decide_eq_true hnone)
  case putting =>
    cases hgo
    exact .put hl (h.pop hl rfl)
  case dtor =>
    cases hgo
    exact h.pop hl rfl
  -- the other steps do not touch the lock
  all_goals
    simp only [RefSt.go] at hgo
    try split_ifs at hgo
    all_goals
      cases hgo
      first
        | exact h.crash
        | exact h.quiet hl rfl ⟨rfl, rfl, rfl⟩ ⟨rfl, rfl, rfl⟩ rfl hno (by simp) hno

theorem BarInv.push (h : s.BarInv) (hl : s.thr[i]? = some l) (hs : s'.modifyAsync = s.modifyAsync ∧
      s'.destroyed = s.destroyed ∧ s'.results = s.results) (hlk : s'.readers = s.readers ∧ s'.writer = s.writer ∧ s'.lk = s.lk)
    (hthr : s'.thr = s.thr.set i (y :: l)) (hy : y.lock = ⟨false, false, false, false⟩) (hup : y.isUp = false)
    (hrun : y ≠ .invRun) (hpast : y.isPast = false) : s'.BarInv := by
  obtain ⟨hreaders, hwriter, hlk⟩ := hlk
  refine h.plain [] [y] hl hthr hs ⟨?_, ?_, ?_, ?_⟩ (by simp [hup]) (by simp [hrun, hpast])
  · simp [hy, hreaders]
  · simp [hy, hwriter]
  · simp [hy, hlk]
  · rw [hreaders, hwriter]
    exact h.excl

theorem BarInv.start {op : RefOp} (h : s.BarInv) (hl : s.thr[i]? = some l) : (s.start i l op).BarInv := by
  unfold RefSt.start
  split_ifs
  · rcases op
    all_goals exact h.push hl ⟨rfl, rfl, rfl⟩ ⟨rfl, rfl, rfl⟩ rfl rfl rfl (by simp) rfl
  · rcases op
    case invoke => exact h.push hl ⟨rfl, rfl, rfl⟩ ⟨rfl, rfl, rfl⟩ rfl rfl rfl (by simp) rfl
    case destroy del =>
      refine ⟨h.sync, h.readers, h.writer, h.lk, h.excl, h.up, h.run, h.past, ?_⟩
      intro r hr hnone
      rcases List.mem_append.1 hr with hr | hr
      · exact h.ret r hr hnone
      · rw [List.mem_singleton.1 hr] at hnone
        cases hnone
    all_goals exact h

theorem BarInv.step {a : RefAct} (h : s.BarInv) (hs : s.step a = some s') : s'.BarInv := by
  obtain ⟨i, op, l, hl, -, rfl⟩ | ⟨i, x, rest, hl, hgo⟩ := step_cases hs
  · exact h.start hl
  · exact h.go hl hgo

theorem BarInv.runs {as : List RefAct} (h : s.BarInv) (hs : exec RefSt.step s as = some s') : s'.BarInv :=
  exec_invariant_all (fun _ _ _ h hs => h.step hs) h hs

theorem barInv_init (rdlockRecursive callerFree : Bool) (n : Nat) : (init false rdlockRecursive callerFree n).BarInv := by
  have hnil : (init false rdlockRecursive callerFree n).thr.flatten = [] := by simp [init]
  have hcnt : ∀ p, (init false rdlockRecursive callerFree n).cnt p = 0 := by
    intro p
    rw [cnt, hnil]
    rfl
  refine ⟨rfl, ?_, ?_, ?_, ?_, ?_, ?_, ?_, ?_⟩
  · rw [hcnt, hcnt]
    rfl
  · rw [hcnt]
    rfl
  · rw [hcnt]
    rfl
  · exact fun _ => rfl
  · intro l hl
    rw [List.eq_of_mem_replicate hl]
    trivial
  · intro hd
    cases hd
  · intro x hx
    rw [hnil] at hx
    cases hx
  · intro r hr
    cases hr

/-- After any `aosl_ref_destroy` that returned 0, no queued function runs with the object, then or later: its
`robj` is `AOSL_FREE_ONLY_OBJ`. -/
theorem destroy_is_barrier {rdlockRecursive callerFree : Bool} {n : Nat} {as bs : List RefAct} {del : Bool}
    (hs : exec step (init false rdlockRecursive callerFree n) as = some s) (hdone : (del, none) ∈ s.results)
    (hs' : exec step s bs = some s') : .invRun ∉ s'.thr.flatten := by
  have h : s.BarInv := (barInv_init _ _ n).runs hs
  have hd : s.destroyed = true := h.ret _ hdone rfl
  exact (h.runs hs').run ((grows_run hs').destroyed hd)

/-- A queued function turns its read lock into a write lock while another thread waits to mark the object
destroyed. -/
def barrierRun : List RefAct :=
  [.start 0 .invoke, .go 0, .go 0, .start 0 .write, .go 0, .start 1 (.destroy false), .go 1, .go 1, .go 0, .go 0, .go 0,
    .go 0, .go 0, .go 0, .go 0, .go 0, .go 0, .go 0, .go 0, .go 1, .go 1, .go 1, .go 1, .go 1, .go 1, .go 1, .go 1]

theorem destroy_is_barrier_barrierRun : ∃ s s', exec step (init false false false 2) barrierRun = some s ∧
    (false, none) ∈ s.results ∧ exec step s [.go 0, .start 0 .invoke, .go 0, .go 0] = some s' ∧
    .invRun ∉ s'.thr.flatten := by
  have hany : (exec step (init false false false 2) barrierRun).any (fun s => (false, none) ∈ s.results &&
      (exec step s [.go 0, .start 0 .invoke, .go 0, .go 0]).isSome) = true := by decide +kernel
  obtain ⟨s, hs, h⟩ := (Option.any_eq_true ..).1 hany
  rw [Bool.and_eq_true, decide_eq_true_eq] at h
  obtain ⟨s', hs'⟩ := Option.isSome_iff_exists.1 h.2
  exact ⟨s, s', hs, h.1, hs', destroy_is_barrier hs h.1 hs'⟩

end RefSt

end Aosl
