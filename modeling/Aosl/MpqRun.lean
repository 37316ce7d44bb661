import Aosl.Mpq
import Aosl.Lib.Fifo
import Aosl.Lib.Lists

/-!
# No function object is lost, repeated or reordered

The objects that are linked but not executed are, in order, the one whose function is running, the
detached ones and the ones in `q->head`. The invariant has three parts: `QInv` says that these lists
are in memory and that their tickets continue `executed` to all numbers below `linked`; `RInv` says
that `usage` counts the references and that none is left once `__q_wait_destroy` is in its last loop;
`SInv` says that a synchronous caller waits for its own object.
-/

namespace Aosl
open Lib

def plink (o : Option Ptr) : Ptr := o.getD 0

section PtrFifo

variable {head tail fo q : Ptr} {next : Ptr → Ptr} {L : List Ptr}

theorem fifo_tail_eq_zero (h : Fifo plink head tail next L) (hne : ∀ p ∈ L, p ≠ 0) : tail = 0 ↔ L = [] := by
  rw [h.tail_eq]
  rcases List.eq_nil_or_concat L with rfl | ⟨L', p, rfl⟩
  · simp [plink]
  · simpa [plink] using hne p (by simp)

theorem fifo_tail_mem (h : Fifo plink head tail next L) (ht : tail ≠ 0) : tail ∈ L := by
  rw [h.tail_eq] at ht ⊢
  rcases List.eq_nil_or_concat L with rfl | ⟨L', p, rfl⟩
  · exact absurd rfl ht
  · simp [plink]

theorem next_fifo_add (h : Fifo plink head tail next L) (hq : q ∉ L) (hqf : q ≠ fo) :
    (if tail ≠ 0 ∧ q = tail then fo else if q = fo then 0 else next q) = next q := by
  have hlast : ¬(tail ≠ 0 ∧ q = tail) := fun hc => hq (hc.2 ▸ fifo_tail_mem h hc.1)
  rw [if_neg hlast, if_neg hqf]

theorem fifo_add (h : Fifo plink head tail next L) (hne : ∀ p ∈ L, p ≠ 0) (hnd : L.Nodup) (hfo : fo ∉ L) :
    Fifo plink (if tail ≠ 0 then head else fo) fo
      (fun q => if tail ≠ 0 ∧ q = tail then fo else if q = fo then 0 else next q) (L ++ [fo]) := by
  have htail := fifo_tail_eq_zero h hne
  refine h.push hnd ?_ ?_ fun q hq => ⟨fun hl => ?_, fun hl => ?_⟩
  · by_cases ht : tail = 0
    · rw [if_neg (not_not_intro ht), if_pos (htail.1 ht)]
      rfl
    · rw [if_pos ht, if_neg fun hL => ht (htail.2 hL)]
  · have hlast : ¬(tail ≠ 0 ∧ fo = tail) := fun hc => hfo (hc.2 ▸ fifo_tail_mem h hc.1)
    show (if tail ≠ 0 ∧ fo = tail then fo else if fo = fo then 0 else next fo) = 0
    rw [if_neg hlast, if_pos rfl]
  · have hqt : q = tail := by
      rw [h.tail_eq, hl]
      rfl
    exact if_pos ⟨fun ht => List.ne_nil_of_mem hq (htail.1 ht), hqt⟩
  · show (if tail ≠ 0 ∧ q = tail then fo else if q = fo then 0 else next q) = next q
    rw [if_neg, if_neg (ne_of_mem_of_not_mem hq hfo)]
    rintro ⟨ht, rfl⟩
    refine hl ?_
    rw [h.tail_eq]
    rcases List.eq_nil_or_concat L with rfl | ⟨L', p, rfl⟩
    · cases hq
    · simp [plink]

end PtrFifo

namespace QPc

/-- The local `head` of `__check_and_call_funcs`. -/
def head : QPc → Ptr
  | loop _ h _ => h
  | call _ _ h _ => h
  | wake _ _ h _ => h
  | _ => 0

/-- The object whose function is running. -/
def running : QPc → List Ptr
  | call _ fo _ _ => [fo]
  | _ => []

/-- The part of `__q_wait_destroy` a call belongs to. -/
def site : QPc → Site
  | events => .poll
  | check st => st
  | detach st => st
  | loop st _ _ => st
  | call st _ _ _ => st
  | wake st _ _ _ => st
  | uninstall => .poll
  | waitUsage => .usage
  | fini => .final
  | freed => .final

/-- What the thread of the queue knows about the linked objects: the test of `q->head` stays true up to
the detaching, so the first round of a loop has an object, and nothing is linked after the last test. -/
def Ok (L : List Ptr) : QPc → Prop
  | detach _ => L ≠ []
  | loop .final h 0 => h ≠ 0
  | fini => L = []
  | freed => L = []
  | _ => True

theorem Ok.append {L L' : List Ptr} {pc : QPc} (h : pc.Ok L) (hf : pc ≠ .fini) (hd : pc ≠ .freed) :
    pc.Ok (L ++ L') := by
  cases pc with
  | detach st => exact fun hn => h (List.append_eq_nil_iff.1 hn).1
  | fini => exact absurd rfl hf
  | freed => exact absurd rfl hd
  | loop st p n => cases st <;> cases n <;> exact h
  | _ => exact h

end QPc

/-- The objects in memory: `D` is detached, `L` is linked. -/
structure QInv (s : MpqSt) (D L : List Ptr) : Prop where
  head : s.head = plink L.head?
  tail : s.tail = plink L.getLast?
  linkedSeg : Seg plink s.next L none
  detachedHead : s.pc.head = plink D.head?
  detachedSeg : Seg plink s.next D none
  nodup : (s.pc.running ++ D ++ L).Nodup
  live : ∀ p ∈ s.pc.running ++ D ++ L, p ∈ s.live
  live_ne : 0 ∉ s.live
  order : s.executed ++ (s.pc.running ++ D ++ L).map s.ticket = List.range s.linked
  atPc : s.pc.Ok L

namespace QInv

variable {s s' : MpqSt} {D L : List Ptr} {fo : Ptr}

theorem ne_zero (h : QInv s D L) {p : Ptr} (hp : p ∈ s.pc.running ++ D ++ L) : p ≠ 0 := fun h0 =>
  h.live_ne (h0 ▸ h.live p hp)

theorem head_eq_zero (h : QInv s D L) : s.head = 0 ↔ L = [] := by
  rw [h.head]
  cases L with
  | nil => simp [plink]
  | cons p L => simpa [plink] using h.ne_zero (p := p) (by simp)

theorem fifo (h : QInv s D L) : Fifo plink s.head s.tail s.next L := ⟨h.head, h.tail, h.linkedSeg⟩

theorem detached_eq_nil (h : QInv s D L) (h0 : s.pc.head = 0) : D = [] := by
  rw [h.detachedHead] at h0
  cases D with
  | nil => rfl
  | cons p D => exact absurd h0 (h.ne_zero (p := p) (by simp))

/-- The critical section of `____add_f` appends to the linked objects. -/
theorem link (h : QInv s D L) (h0 : fo ≠ 0) (hf : fo ∉ s.live) (so : Option Nat)
    (hpc : s.pc ≠ .fini ∧ s.pc ≠ .freed) : QInv (s.link fo so) D (L ++ [fo]) := by
  have hfp : fo ∉ s.pc.running ++ D ++ L := fun hm => hf (h.live fo hm)
  have hnd := h.nodup
  simp only [List.mem_append, not_or] at hfp
  obtain ⟨⟨hfr, hfD⟩, hfL⟩ := hfp
  have hLnd : L.Nodup := (List.nodup_append.1 hnd).2.1
  have hadd := fifo_add h.fifo (fun p hp => h.ne_zero (List.mem_append_right _ hp)) hLnd hfL
  refine ⟨hadd.head_eq, hadd.tail_eq, hadd.nexts, h.detachedHead, ?_, ?_, ?_, ?_, ?_, h.atPc.append hpc.1 hpc.2⟩
  · refine h.detachedSeg.congr fun q hq => next_fifo_add h.fifo (fun hqL => ?_) (ne_of_mem_of_not_mem hq hfD)
    exact (List.nodup_append.1 hnd).2.2 q (List.mem_append_right _ hq) q hqL rfl
  · show (s.pc.running ++ D ++ (L ++ [fo])).Nodup
    rw [← List.append_assoc, List.nodup_append]
    refine ⟨hnd, List.nodup_singleton fo, fun a ha b hb hab => ?_⟩
    rw [List.mem_singleton.1 hb] at hab
    exact hf (h.live fo (hab ▸ ha))
  · intro q hq
    show q ∈ s.live ++ [fo]
    simp only [MpqSt.link, List.mem_append, List.mem_singleton] at hq ⊢
    rcases hq with hq | hq | hq
    exacts [.inl (h.live q (List.mem_append_left _ (by simpa using hq))), .inl (h.live q (by simp [hq])), .inr hq]
  · show 0 ∉ s.live ++ [fo]
    simp [h.live_ne, h0.symm]
  · show s.executed ++ (s.pc.running ++ D ++ (L ++ [fo])).map _ = List.range (s.linked + 1)
    rw [List.range_succ, ← h.order, List.append_assoc s.executed, ← List.append_assoc _ L, List.map_append]
    congr 2
    · refine List.map_congr_left fun q hq => ?_
      exact if_neg fun he : q = fo => hf (he ▸ h.live q hq)
    · simp [MpqSt.link]

theorem move (h : QInv s D L) {pc : QPc} {callers : List Caller} {usage : Nat} {installed terminated : Bool}
    (hr : pc.running = s.pc.running) (hh : pc.head = s.pc.head) (hp : pc.Ok L) :
    QInv { s with pc, callers, usage, installed, terminated } D L := by
  refine ⟨h.head, h.tail, h.linkedSeg, hh.trans h.detachedHead, h.detachedSeg, ?_, ?_, h.live_ne, ?_, hp⟩
  · show (pc.running ++ D ++ L).Nodup
    rw [hr]
    exact h.nodup
  · show ∀ p ∈ pc.running ++ D ++ L, p ∈ s.live
    rw [hr]
    exact h.live
  · show s.executed ++ (pc.running ++ D ++ L).map s.ticket = List.range s.linked
    rw [hr]
    exact h.order

/-- `__check_and_call_funcs` returns: with nothing linked, or after a round of functions. -/
theorem moveRet (h : QInv s D L) {st : Site} {n : Nat} (hr : s.pc.running = []) (hh : s.pc.head = 0)
    (hn : n = 0 → st = .final → L = []) : QInv { s with pc := MpqSt.ret st n } D L := by
  cases st with
  | poll => exact h.move hr.symm hh.symm trivial
  | usage => exact h.move hr.symm hh.symm trivial
  | final =>
    cases n with
    | zero => exact h.move hr.symm hh.symm (hn rfl rfl)
    | succ n => exact h.move hr.symm hh.symm trivial

/-- The thread of the queue keeps the order and adds no object. -/
theorem queueStep (h : QInv s D L) (hs : s.queueStep = some s') : ∃ D' L', QInv s' D' L' ∧
    ∀ p ∈ s'.pc.running ++ D' ++ L', p ∈ s.pc.running ++ D ++ L := by
  have hnd := h.nodup
  have hlive := h.live
  have hord := h.order
  have hdh := h.detachedHead
  have hok := h.atPc
  have hmove := @h.move
  have hret := @h.moveRet
  cases hpc : s.pc <;> rw [hpc] at hnd hlive hord hdh hok hmove hret <;>
    simp only [MpqSt.queueStep, hpc, Option.some.injEq, reduceCtorEq] at hs
  case events =>
    subst hs
    split
    · exact ⟨D, L, hmove rfl rfl trivial, fun p hp => hp⟩
    · exact ⟨D, L, hmove rfl rfl trivial, fun p hp => hp⟩
  case check st =>
    subst hs
    split
    · next hh => exact ⟨D, L, hmove rfl rfl fun hL => hh (h.head_eq_zero.2 hL), fun p hp => hp⟩
    · next hh =>
      refine ⟨D, L, hret rfl rfl fun _ _ => h.head_eq_zero.1 (not_not.1 hh), ?_⟩
      cases st <;> exact fun p hp => hp
  case detach st =>
    subst hs
    have hD : D = [] := h.detached_eq_nil (by rw [hpc]; rfl)
    subst hD
    refine ⟨L, [], ⟨rfl, rfl, trivial, h.head, h.linkedSeg, ?_, ?_, h.live_ne, ?_, ?_⟩, by simp [QPc.running]⟩
    · simpa [QPc.running] using hnd
    · simpa [QPc.running] using hlive
    · simpa [QPc.running] using hord
    · cases st with
      | final => exact fun h0 => hok (h.head_eq_zero.1 h0)
      | _ => trivial
  case loop st hd n =>
    split at hs <;> cases hs
    · next h0 =>
      refine ⟨D, L, hret rfl h0 ?_, ?_⟩
      · rintro rfl rfl
        exact absurd h0 hok
      · cases st <;> cases n <;> exact fun p hp => hp
    · next h0 =>
      cases D with
      | nil => exact absurd hdh h0
      | cons p D =>
        obtain rfl : hd = p := hdh
        have hseg := h.detachedSeg
        refine ⟨D, L, ⟨h.head, h.tail, h.linkedSeg, ?_, hseg.2, ?_, ?_, h.live_ne, ?_, trivial⟩, by simp [QPc.running]⟩
        · show s.next hd = plink D.head?
          rw [hseg.1, Option.or_none]
        · simpa [QPc.running] using hnd
        · simpa [QPc.running] using hlive
        · simpa [QPc.running] using hord
  case call st fo hd n =>
    subst hs
    simp only [QPc.running, List.cons_append, List.nodup_cons] at hnd hlive
    refine ⟨D, L, ⟨h.head, h.tail, h.linkedSeg, hdh, h.detachedSeg, hnd.2, fun p hp => ?_, ?_, ?_, trivial⟩,
      fun p hp => List.mem_cons_of_mem fo hp⟩
    · exact (List.mem_erase_of_ne (ne_of_mem_of_not_mem hp hnd.1)).2 (hlive p (List.mem_cons_of_mem _ hp))
    · exact fun hm => h.live_ne (List.mem_of_mem_erase hm)
    · simpa [QPc.running] using hord
  case wake st so hd n =>
    subst hs
    cases st <;> exact ⟨D, L, hmove rfl rfl trivial, fun p hp => hp⟩
  case uninstall =>
    subst hs
    exact ⟨D, L, hmove rfl rfl trivial, fun p hp => hp⟩
  case waitUsage =>
    subst hs
    exact ⟨D, L, hmove rfl rfl trivial, fun p hp => hp⟩
  case fini =>
    subst hs
    exact ⟨D, L, hmove rfl rfl hok, fun p hp => hp⟩

end QInv

/-- `usage` counts the references of the queue itself and of the threads; there are none but its own in
the last loop of `__q_wait_destroy`. -/
structure RInv (s : MpqSt) : Prop where
  usage : s.usage = 1 + s.callers.countP Caller.holds
  installed : s.installed = true ↔ s.pc.site = .poll
  alone : s.pc.site = .final → s.callers.countP Caller.holds = 0

/-- A synchronous caller waits for its own object. -/
structure SInv (s : MpqSt) (P : List Ptr) : Prop where
  pending : ∀ p ∈ P, ∀ i, s.syncObj p = some i → s.callers[i]? = some (.waiting (s.ticket p) false)
  wake : ∀ st i h n, s.pc = .wake st (some i) h n → ∃ k ∈ s.executed, s.callers[i]? = some (.waiting k false)
  waited : ∀ i k : Nat, s.callers[i]? = some (.waiting k true) → k ∈ s.executed
  returned : ∀ i k : Nat, s.callers[i]? = some (.returned k true) → k ∈ s.executed

namespace RInv

variable {s s' : MpqSt} {i : Nat} {a b : Caller}

theorem site_ne_final (h : RInv s) (ha : s.callers[i]? = some a) (hh : a.holds = true) : s.pc.site ≠ .final := by
  intro hf
  have := h.alone hf
  rw [List.countP_eq_zero] at this
  exact this a (List.mem_of_getElem? ha) hh

theorem set (h : RInv s) (ha : s.callers[i]? = some a) (hh : a.holds = b.holds) (hu : s'.usage = s.usage)
    (hi : s'.installed = s.installed) (hp : s'.pc = s.pc) (hc : s'.callers = s.callers.set i b) : RInv s' := by
  have hcount := countP_set_add ha Caller.holds b
  rw [hh] at hcount
  refine ⟨?_, by rw [hi, hp]; exact h.installed, fun hf => ?_⟩
  · rw [hu, hc, h.usage]
    omega
  · rw [hp] at hf
    have := h.alone hf
    rw [hc]
    omega

theorem put (h : RInv s) (ha : s.callers[i]? = some a) (hh : a.holds = true) :
    RInv { s with usage := s.usage - 1, callers := s.callers.set i .finished } := by
  have hcount := countP_set_add ha Caller.holds .finished
  have hu := h.usage
  rw [hh, show Caller.holds .finished = false from rfl] at hcount
  simp only [if_true, Bool.false_eq_true, if_false] at hcount
  refine ⟨?_, h.installed, fun hf => absurd hf (h.site_ne_final ha hh)⟩
  show s.usage - 1 = 1 + (s.callers.set i .finished).countP Caller.holds
  omega

theorem get (h : RInv s) (hi : s.installed = true) (noFail sync : Bool) :
    RInv { s with usage := s.usage + 1, callers := s.callers ++ [.got noFail sync] } := by
  have hc : (s.callers ++ [Caller.got noFail sync]).countP Caller.holds = s.callers.countP Caller.holds + 1 := by
    simp [Caller.holds]
  refine ⟨?_, h.installed, fun hf => ?_⟩
  · show s.usage + 1 = 1 + _
    rw [hc, h.usage]
    omega
  · have := h.installed.1 hi
    rw [show s.pc.site = .final from hf] at this
    cases this

theorem countP_wakeUp (callers : List Caller) (o : Option Nat) :
    (MpqSt.wakeUp callers o).countP Caller.holds = callers.countP Caller.holds := by
  cases o with
  | none => rfl
  | some i =>
    rw [MpqSt.wakeUp]
    split
    · next k r hk =>
      have := countP_set_add hk Caller.holds (.waiting k true)
      simpa [Caller.holds] using this
    · rfl

theorem queueStep (h : RInv s) (hs : s.queueStep = some s') : RInv s' := by
  have hi := h.installed
  have hf := h.alone
  have hu := h.usage
  cases hpc : s.pc <;> rw [hpc] at hi hf <;>
    simp only [MpqSt.queueStep, hpc, Option.some.injEq, reduceCtorEq] at hs
  case events =>
    subst hs
    split <;> exact ⟨hu, hi, fun h => by cases h⟩
  case check st =>
    subst hs
    split
    · exact ⟨hu, hi, hf⟩
    · cases st <;> exact ⟨hu, hi, hf⟩
  case detach st =>
    subst hs
    exact ⟨hu, hi, hf⟩
  case loop st hd n =>
    split at hs <;> cases hs
    · cases st <;> cases n <;> exact ⟨hu, hi, hf⟩
    · exact ⟨hu, hi, hf⟩
  case call st fo hd n =>
    subst hs
    exact ⟨hu, hi, hf⟩
  case wake st so hd n =>
    subst hs
    refine ⟨?_, hi, fun h => ?_⟩
    · show s.usage = 1 + _
      rw [countP_wakeUp, hu]
    · show (MpqSt.wakeUp s.callers so).countP Caller.holds = 0
      rw [countP_wakeUp]
      exact hf h
  case uninstall =>
    subst hs
    exact ⟨hu, by simp [QPc.site], fun h => by cases h⟩
  case waitUsage =>
    subst hs
    refine ⟨hu, ?_, fun h => ?_⟩
    · show s.installed = true ↔ (if s.usage > 1 then Site.usage else .final) = .poll
      split <;> simpa [QPc.site] using hi
    · show s.callers.countP Caller.holds = 0
      have hle : ¬s.usage > 1 := fun hg => by
        simp only [QPc.site, if_pos hg, reduceCtorEq] at h
      omega
  case fini =>
    subst hs
    exact ⟨hu, hi, hf⟩

end RInv

namespace SInv

variable {s s' : MpqSt} {P P' : List Ptr} {i : Nat} {a b : Caller}

/-- A thread that is not waiting for an object moves on. -/
theorem set (h : SInv s P) (ha : s.callers[i]? = some a) (hna : ∀ k, a ≠ .waiting k false)
    (hw : ∀ k, b = .waiting k true → k ∈ s.executed) (hr : ∀ k, b = .returned k true → k ∈ s.executed)
    (hso : s'.syncObj = s.syncObj) (ht : s'.ticket = s.ticket) (hp : s'.pc = s.pc) (he : s'.executed = s.executed)
    (hc : s'.callers = s.callers.set i b) : SInv s' P := by
  have hne : ∀ j k, s.callers[j]? = some (.waiting k false) → i ≠ j := by
    rintro j k hj rfl
    exact hna k (Option.some.inj (ha.symm.trans hj))
  refine ⟨fun p hpp j hj => ?_, fun st j hd n hpc => ?_, fun j k hj => ?_, fun j k hj => ?_⟩
  · rw [hso] at hj
    rw [hc, ht, getElem?_set_ne (hne j _ (h.pending p hpp j hj))]
    exact h.pending p hpp j hj
  · rw [hp] at hpc
    obtain ⟨k, hk, hj⟩ := h.wake st j hd n hpc
    exact ⟨k, he ▸ hk, by rw [hc, getElem?_set_ne (hne j k hj)]; exact hj⟩
  · rw [he]
    rw [hc] at hj
    by_cases hij : i = j
    · subst hij
      rw [getElem?_set_self ha] at hj
      exact hw k (Option.some.inj hj)
    · rw [getElem?_set_ne hij] at hj
      exact h.waited j k hj
  · rw [he]
    rw [hc] at hj
    by_cases hij : i = j
    · subst hij
      rw [getElem?_set_self ha] at hj
      exact hr k (Option.some.inj hj)
    · rw [getElem?_set_ne hij] at hj
      exact h.returned j k hj

theorem get (h : SInv s P) (noFail sync : Bool) :
    SInv { s with usage := s.usage + 1, callers := s.callers ++ [.got noFail sync] } P := by
  have hold : ∀ {j : Nat} {c : Caller}, s.callers[j]? = some c → (s.callers ++ [Caller.got noFail sync])[j]? = some c :=
    fun hj => by rw [List.getElem?_append_left (List.getElem?_eq_some_iff.1 hj).1]; exact hj
  have hnew : ∀ {j : Nat} {c : Caller}, c ≠ .got noFail sync → (s.callers ++ [Caller.got noFail sync])[j]? = some c →
      s.callers[j]? = some c := fun hc hj => by
    rw [List.getElem?_append] at hj
    split at hj
    · exact hj
    · rw [List.getElem?_singleton] at hj
      split at hj
      · exact absurd (Option.some.inj hj).symm hc
      · cases hj
  refine ⟨fun p hp j hj => hold (h.pending p hp j hj), fun st j hd n hpc => ?_, fun j k hj => ?_, fun j k hj => ?_⟩
  · obtain ⟨k, hk, hj⟩ := h.wake st j hd n hpc
    exact ⟨k, hk, hold hj⟩
  · exact h.waited j k (hnew Caller.noConfusion hj)
  · exact h.returned j k (hnew Caller.noConfusion hj)

theorem link (h : SInv s P) {fo : Ptr} (hf : fo ∉ P) : SInv (s.link fo none) (P ++ [fo]) := by
  refine ⟨fun p hp j hj => ?_, h.wake, h.waited, h.returned⟩
  simp only [MpqSt.link] at hj ⊢
  rcases List.mem_append.1 hp with hp | hp
  · have hpf : p ≠ fo := ne_of_mem_of_not_mem hp hf
    rw [if_neg hpf] at hj ⊢
    exact h.pending p hp j hj
  · rw [if_pos (List.mem_singleton.1 hp)] at hj
    cases hj

/-- A synchronous caller links its object and waits. -/
theorem linkSync (h : SInv s P) {fo : Ptr} (hf : fo ∉ P) {noFail : Bool} (ha : s.callers[i]? = some (.got noFail true)) :
    SInv { s.link fo (some i) with callers := s.callers.set i (.waiting s.linked false) } (P ++ [fo]) := by
  have hne : ∀ j k, s.callers[j]? = some (.waiting k false) → i ≠ j := by
    rintro j k hj rfl
    exact Caller.noConfusion (Option.some.inj (ha.symm.trans hj))
  refine ⟨fun p hp j hj => ?_, fun st j hd n hpc => ?_, fun j k hj => ?_, fun j k hj => ?_⟩
  · simp only [MpqSt.link] at hj ⊢
    rcases List.mem_append.1 hp with hp | hp
    · have hpf : p ≠ fo := ne_of_mem_of_not_mem hp hf
      rw [if_neg hpf] at hj ⊢
      rw [getElem?_set_ne (hne j _ (h.pending p hp j hj))]
      exact h.pending p hp j hj
    · rw [if_pos (List.mem_singleton.1 hp)] at hj ⊢
      cases hj
      exact getElem?_set_self ha
  · obtain ⟨k, hk, hj⟩ := h.wake st j hd n hpc
    exact ⟨k, hk, by rw [show _ = s.callers[j]? from getElem?_set_ne (hne j k hj)]; exact hj⟩
  · change (s.callers.set i (Caller.waiting s.linked false))[j]? = _ at hj
    by_cases hij : i = j
    · subst hij
      rw [getElem?_set_self ha] at hj
      cases hj
    · rw [getElem?_set_ne hij] at hj
      exact h.waited j k hj
  · change (s.callers.set i (Caller.waiting s.linked false))[j]? = _ at hj
    by_cases hij : i = j
    · subst hij
      rw [getElem?_set_self ha] at hj
      cases hj
    · rw [getElem?_set_ne hij] at hj
      exact h.returned j k hj

theorem mono (h : SInv s P) (hP : ∀ p ∈ P', p ∈ P) {pc : QPc} (hpc : ∀ st i hd n, pc ≠ .wake st (some i) hd n)
    (hso : s'.syncObj = s.syncObj) (ht : s'.ticket = s.ticket) (hp : s'.pc = pc) (he : s'.executed = s.executed)
    (hc : s'.callers = s.callers) : SInv s' P' := by
  refine ⟨fun p hpp j hj => ?_, fun st j hd n hw => absurd (hp.symm.trans hw) (hpc st j hd n), fun j k hj => ?_,
    fun j k hj => ?_⟩
  · rw [hso] at hj
    rw [hc, ht]
    exact h.pending p (hP p hpp) j hj
  · rw [he]
    exact h.waited j k (hc ▸ hj)
  · rw [he]
    exact h.returned j k (hc ▸ hj)

/-- Waking the caller whose object has just been executed. -/
theorem wakeUp (h : SInv s P) (hnot : ∀ p ∈ P, s.ticket p ∉ s.executed) (hk : ∃ k ∈ s.executed, s.callers[i]? = some (.waiting k false))
    (hso : s'.syncObj = s.syncObj) (ht : s'.ticket = s.ticket) (hp : ∀ st j hd n, s'.pc ≠ .wake st (some j) hd n)
    (he : s'.executed = s.executed) (hc : s'.callers = MpqSt.wakeUp s.callers (some i)) : SInv s' P := by
  obtain ⟨k, hk, hi⟩ := hk
  rw [MpqSt.wakeUp, hi] at hc
  refine ⟨fun p hpp j hj => ?_, fun st j hd n hw => absurd hw (hp st j hd n), fun j l hj => ?_, fun j l hj => ?_⟩
  · rw [hso] at hj
    have hw := h.pending p hpp j hj
    have hij : i ≠ j := by
      rintro rfl
      have := Option.some.inj (hi.symm.trans hw)
      rw [Caller.waiting.injEq] at this
      exact hnot p hpp (this.1 ▸ hk)
    rw [hc, ht, getElem?_set_ne hij]
    exact hw
  · rw [he]
    rw [hc] at hj
    by_cases hij : i = j
    · subst hij
      rw [getElem?_set_self hi] at hj
      cases hj
      exact hk
    · rw [getElem?_set_ne hij] at hj
      exact h.waited j l hj
  · rw [he]
    rw [hc] at hj
    by_cases hij : i = j
    · subst hij
      rw [getElem?_set_self hi] at hj
      cases hj
    · rw [getElem?_set_ne hij] at hj
      exact h.returned j l hj

theorem queueStep (h : SInv s P) (hnot : ∀ p ∈ P, s.ticket p ∉ s.executed) (hrun : ∀ p ∈ s.pc.running, p ∈ P)
    (hP : ∀ p ∈ P', p ∈ P) (hs : s.queueStep = some s') : SInv s' P' := by
  cases hpc : s.pc <;> simp only [MpqSt.queueStep, hpc, Option.some.injEq, reduceCtorEq] at hs
  case events =>
    subst hs
    refine h.mono hP (fun st i hd n => ?_) rfl rfl rfl rfl rfl
    split <;> exact QPc.noConfusion
  case check st =>
    subst hs
    refine h.mono hP (fun st' i hd n => ?_) rfl rfl rfl rfl rfl
    split
    · exact QPc.noConfusion
    · cases st <;> exact QPc.noConfusion
  case detach st =>
    subst hs
    exact h.mono hP (fun _ _ _ _ => QPc.noConfusion) rfl rfl rfl rfl rfl
  case loop st hd n =>
    split at hs <;> cases hs
    · refine h.mono hP (fun st' i hd n' => ?_) rfl rfl rfl rfl rfl
      cases st <;> cases n <;> exact QPc.noConfusion
    · exact h.mono hP (fun _ _ _ _ => QPc.noConfusion) rfl rfl rfl rfl rfl
  case call st fo hd n =>
    subst hs
    refine ⟨fun p hp => h.pending p (hP p hp), fun st' i hd' n' hw => ?_, fun j k hj => ?_, fun j k hj => ?_⟩
    · simp only [QPc.wake.injEq] at hw
      exact ⟨s.ticket fo, by simp, h.pending fo (hrun fo (by rw [hpc]; simp [QPc.running])) i hw.2.1⟩
    · exact List.mem_append_left _ (h.waited j k hj)
    · exact List.mem_append_left _ (h.returned j k hj)
  case wake st so hd n =>
    subst hs
    cases so with
    | none => exact h.mono hP (fun _ _ _ _ => QPc.noConfusion) rfl rfl rfl rfl rfl
    | some i =>
      have : SInv { s with pc := .loop st hd (n + 1), callers := MpqSt.wakeUp s.callers (some i) } _ :=
        h.wakeUp hnot (h.wake st i hd n hpc) rfl rfl (fun _ _ _ _ => QPc.noConfusion) rfl rfl
      exact this.mono hP (fun _ _ _ _ => QPc.noConfusion) rfl rfl rfl rfl rfl
  case uninstall =>
    subst hs
    exact h.mono hP (fun _ _ _ _ => QPc.noConfusion) rfl rfl rfl rfl rfl
  case waitUsage =>
    subst hs
    exact h.mono hP (fun _ _ _ _ => QPc.noConfusion) rfl rfl rfl rfl rfl
  case fini =>
    subst hs
    exact h.mono hP (fun _ _ _ _ => QPc.noConfusion) rfl rfl rfl rfl rfl

end SInv

/-- The object of a thread in or after a successful `____add_f`. -/
def Caller.ticket? : Caller → Option Nat
  | waiting k _ => some k
  | returned k _ => some k
  | _ => none

/-- The threads have linked the objects they wait for or return from. -/
def TInv (s : MpqSt) : Prop := ∀ c ∈ s.callers, ∀ k, c.ticket? = some k → k < s.linked

namespace TInv

variable {s s' : MpqSt} {i : Nat} {b : Caller}

theorem set (h : TInv s) (hb : ∀ k, b.ticket? = some k → k < s'.linked) (hl : s.linked ≤ s'.linked)
    (hc : s'.callers = s.callers.set i b) : TInv s' := by
  intro c hm k hk
  rw [hc] at hm
  rcases List.mem_or_eq_of_mem_set hm with hm | rfl
  exacts [Nat.lt_of_lt_of_le (h c hm k hk) hl, hb k hk]

theorem wakeUp (h : TInv s) (o : Option Nat) (hl : s'.linked = s.linked)
    (hc : s'.callers = MpqSt.wakeUp s.callers o) : TInv s' := by
  cases o with
  | none =>
    intro c hm k hk
    rw [hl]
    exact h c (by rw [show s.callers = s'.callers from hc.symm]; exact hm) k hk
  | some i =>
    rw [MpqSt.wakeUp] at hc
    split at hc
    · next l r hi =>
      refine h.set (fun k hk => ?_) (Nat.le_of_eq hl.symm) hc
      cases hk
      exact hl ▸ h _ (List.mem_of_getElem? hi) _ rfl
    · exact fun c hm k hk => hl ▸ h c (hc ▸ hm) k hk

theorem step (h : TInv s) {a : MpqAct} (hs : s.step a = some s') : TInv s' := by
  cases a with
  | get noFail sync =>
    simp only [MpqSt.step] at hs
    split at hs <;> cases hs
    intro c hm k hk
    rcases List.mem_append.1 hm with hm | hm
    · exact h c hm k hk
    · rw [List.mem_singleton.1 hm] at hk
      cases hk
  | add i fo =>
    simp only [MpqSt.step] at hs
    split at hs
    · next noFail sync hi =>
      split at hs <;> cases hs
      refine h.set (fun k hk => ?_) (Nat.le_succ _) rfl
      cases sync <;> cases hk <;> exact Nat.lt_succ_self _
    · cases hs
  | full i =>
    simp only [MpqSt.step] at hs
    split at hs
    · split at hs <;> cases hs
      exact h.set (b := .left) (fun k hk => by cases hk) (Nat.le_refl _) rfl
    · cases hs
  | refuse i | destroy i =>
    simp only [MpqSt.step] at hs
    split at hs <;> cases hs
    exact h.set (b := .left) (fun k hk => by cases hk) (Nat.le_refl _) rfl
  | resume i =>
    simp only [MpqSt.step] at hs
    split at hs
    · next l hi =>
      cases hs
      refine h.set (fun k hk => ?_) (Nat.le_refl _) rfl
      cases hk
      exact h _ (List.mem_of_getElem? hi) _ rfl
    · cases hs
  | put i =>
    simp only [MpqSt.step] at hs
    split at hs <;> cases hs <;> exact h.set (b := .finished) (fun k hk => by cases hk) (Nat.le_refl _) rfl
  | addSelf fo =>
    simp only [MpqSt.step] at hs
    split at hs <;> cases hs
    exact fun c hm k hk => Nat.lt_succ_of_lt (h c hm k hk)
  | queue =>
    simp only [MpqSt.step, MpqSt.queueStep] at hs
    split at hs
    case h_4 => split at hs <;> cases hs <;> exact h
    case h_6 =>
      cases hs
      exact h.wakeUp _ rfl rfl
    all_goals cases hs <;> exact h

end TInv

/-- The invariant of the queue and its threads. -/
def MpqInv (s : MpqSt) : Prop := ∃ D L, QInv s D L ∧ RInv s ∧ SInv s (s.pc.running ++ D ++ L)

theorem QInv.ticket_not_mem {s : MpqSt} {D L : List Ptr} (h : QInv s D L) :
    ∀ p ∈ s.pc.running ++ D ++ L, s.ticket p ∉ s.executed := by
  intro p hp hm
  have hn : (s.executed ++ (s.pc.running ++ D ++ L).map s.ticket).Nodup := h.order ▸ List.nodup_range
  exact (List.nodup_append.1 hn).2.2 _ hm _ (List.mem_map_of_mem hp) rfl

namespace MpqInv

variable {s s' : MpqSt} {a : MpqAct}

theorem init (qMax : Nat) (next : Ptr → Ptr) (syncObj : Ptr → Option Nat) (f : Bool) :
    MpqInv (MpqSt.init qMax next syncObj f) :=
  ⟨[], [], ⟨rfl, rfl, trivial, rfl, trivial, List.nodup_nil, nofun, List.not_mem_nil, rfl, trivial⟩,
    ⟨rfl, by simp [MpqSt.init, QPc.site], nofun⟩, nofun, nofun, nofun, nofun⟩

theorem set (h : MpqInv s) {i : Nat} {c : Caller} (hc : s.callers[i]? = some c) (c' : Caller)
    (hh : c.holds = c'.holds) (hn : ∀ k, c ≠ .waiting k false) (hw : ∀ k, c' ≠ .waiting k true)
    (hr : ∀ k, c' = .returned k true → k ∈ s.executed) (terminated : Bool) :
    MpqInv { s with terminated, callers := s.callers.set i c' } := by
  obtain ⟨D, L, hq, hri, hsi⟩ := h
  exact ⟨D, L, hq.move rfl rfl hq.atPc, hri.set hc hh rfl rfl rfl rfl,
    hsi.set hc hn (fun k hk => absurd hk (hw k)) hr rfl rfl rfl rfl rfl⟩

theorem add (h : MpqInv s) {i : Nat} {noFail sync : Bool} {fo : Ptr} (hc : s.callers[i]? = some (.got noFail sync))
    (h0 : fo ≠ 0) (hf : fo ∉ s.live) : MpqInv { s.link fo (if sync then some i else none) with
      callers := s.callers.set i (if sync then .waiting s.linked false else .returned s.linked false) } := by
  obtain ⟨D, L, hq, hri, hsi⟩ := h
  have hsite := hri.site_ne_final hc rfl
  have hpc : s.pc ≠ .fini ∧ s.pc ≠ .freed :=
    ⟨fun h => hsite (by rw [h]; rfl), fun h => hsite (by rw [h]; rfl)⟩
  have hfp : fo ∉ s.pc.running ++ D ++ L := fun hm => hf (hq.live fo hm)
  have hq' := hq.link h0 hf (if sync then some i else none) hpc
  refine ⟨D, L ++ [fo], hq'.move rfl rfl hq'.atPc, hri.set hc ?_ rfl rfl rfl rfl, ?_⟩
  · cases sync <;> rfl
  · show SInv _ (s.pc.running ++ D ++ (L ++ [fo]))
    rw [← List.append_assoc]
    cases sync with
    | true => exact hsi.linkSync hfp hc
    | false =>
      exact (hsi.link hfp).set hc (fun _ => Caller.noConfusion) (fun _ => Caller.noConfusion)
        (fun k hk => by cases hk) rfl rfl rfl rfl rfl

theorem put (h : MpqInv s) {i : Nat} {c : Caller} (hc : s.callers[i]? = some c) (hh : c.holds = true)
    (hn : ∀ k, c ≠ .waiting k false) :
    MpqInv { s with usage := s.usage - 1, callers := s.callers.set i .finished } := by
  obtain ⟨D, L, hq, hri, hsi⟩ := h
  exact ⟨D, L, hq.move rfl rfl hq.atPc, hri.put hc hh,
    hsi.set hc hn (fun _ => Caller.noConfusion) (fun _ => Caller.noConfusion) rfl rfl rfl rfl rfl⟩

theorem step (h : MpqInv s) (hs : s.step a = some s') : MpqInv s' := by
  cases a with
  | get noFail sync =>
    simp only [MpqSt.step] at hs
    split at hs <;> cases hs
    next hi =>
    obtain ⟨D, L, hq, hri, hsi⟩ := h
    exact ⟨D, L, hq.move rfl rfl hq.atPc, hri.get hi noFail sync, hsi.get noFail sync⟩
  | add i fo =>
    simp only [MpqSt.step] at hs
    split at hs
    · next noFail sync hc =>
      split at hs <;> cases hs
      next hg => exact h.add hc hg.1 hg.2.1
    · cases hs
  | full i =>
    simp only [MpqSt.step] at hs
    split at hs
    · next noFail sync hc =>
      split at hs <;> cases hs
      exact h.set hc .left rfl (fun _ => Caller.noConfusion) (fun _ => Caller.noConfusion) (fun _ => Caller.noConfusion) _
    · cases hs
  | refuse i | destroy i =>
    simp only [MpqSt.step] at hs
    split at hs
    · next noFail sync hc =>
      cases hs
      exact h.set hc .left rfl (fun _ => Caller.noConfusion) (fun _ => Caller.noConfusion) (fun _ => Caller.noConfusion) _
    · cases hs
  | resume i =>
    simp only [MpqSt.step] at hs
    split at hs
    · next k hc =>
      cases hs
      obtain ⟨_, _, _, _, hsi⟩ := id h
      refine h.set hc (.returned k true) rfl (fun j hj => ?_) (fun _ => Caller.noConfusion) (fun j hj => ?_) _
      · rw [Caller.waiting.injEq] at hj
        exact Bool.noConfusion hj.2
      · rw [Caller.returned.injEq] at hj
        exact hj.1 ▸ hsi.waited i k hc
    · cases hs
  | put i =>
    simp only [MpqSt.step] at hs
    split at hs
    · next hc =>
      cases hs
      exact h.put hc rfl fun _ => Caller.noConfusion
    · next hc =>
      cases hs
      exact h.put hc rfl fun _ => Caller.noConfusion
    · cases hs
  | addSelf fo =>
    simp only [MpqSt.step] at hs
    split at hs <;> cases hs
    next hg =>
    obtain ⟨D, L, hq, hri, hsi⟩ := h
    have hpc : s.pc ≠ .fini ∧ s.pc ≠ .freed := by
      constructor <;> intro hp <;> rw [hp] at hg <;> exact Bool.noConfusion hg.1
    have hfp : fo ∉ s.pc.running ++ D ++ L := fun hm => hg.2.2 (hq.live fo hm)
    refine ⟨D, L ++ [fo], hq.link hg.2.1 hg.2.2 none hpc, ⟨hri.usage, hri.installed, hri.alone⟩, ?_⟩
    show SInv _ (s.pc.running ++ D ++ (L ++ [fo]))
    rw [← List.append_assoc]
    exact hsi.link hfp
  | queue =>
    obtain ⟨D, L, hq, hri, hsi⟩ := h
    obtain ⟨D', L', hq', hP⟩ := hq.queueStep hs
    exact ⟨D', L', hq', hri.queueStep hs, hsi.queueStep hq.ticket_not_mem
      (fun p hp => by simp [hp]) hP hs⟩

end MpqInv

namespace MpqSt

/-- How many steps the thread of the queue takes until the next function returns, if there is one. -/
def phase : QPc → Nat
  | .call _ _ _ _ => 0
  | .loop _ h _ => if h = 0 then 7 else 1
  | .detach _ => 2
  | .check _ => 3
  | .waitUsage => 4
  | .uninstall => 5
  | .events => 6
  | .wake _ _ _ _ => 8
  | .fini => 0
  | .freed => 0

/-- A bound on the steps of the thread of the queue until `n` functions have returned. -/
def distance (n : Nat) (s : MpqSt) : Nat := 10 * (n - s.executed.length) + phase s.pc

end MpqSt

namespace MpqInv
open MpqSt

variable {s s' : MpqSt} {D L : List Ptr} {n : Nat} {a : MpqAct} {as : List MpqAct}

theorem length_add (h : QInv s D L) : s.executed.length + (s.pc.running ++ D ++ L).length = s.linked := by
  simpa using congrArg List.length h.order

/-- As long as objects are left, every step of the thread of the queue comes closer to the next one. -/
theorem queueStep_distance (h : MpqInv s) (hn : n ≤ s.linked) (hlt : s.executed.length < n)
    (hs : s.queueStep = some s') : s'.distance n < s.distance n ∨ n ≤ s'.executed.length := by
  obtain ⟨D, L, hq, -, -⟩ := h
  have hlen := length_add hq
  have hok := hq.atPc
  have hD := hq.detached_eq_nil
  cases hpc : s.pc <;> rw [hpc] at hlen hok hD <;>
    simp only [MpqSt.queueStep, hpc, Option.some.injEq, reduceCtorEq] at hs
  case events =>
    subst hs
    left
    unfold distance
    rw [hpc]
    split <;> simp [phase]
  case check st =>
    subst hs
    left
    have hh : s.head ≠ 0 := by
      intro h0
      rw [hD rfl, hq.head_eq_zero.1 h0] at hlen
      simp only [QPc.running, List.append_nil, List.length_nil] at hlen
      omega
    unfold distance
    rw [hpc, if_pos hh]
    simp [phase]
  case detach st =>
    subst hs
    left
    have hh : s.head ≠ 0 := fun h0 => hok (hq.head_eq_zero.1 h0)
    unfold distance
    rw [hpc]
    simp [phase, hh]
  case loop st hd m =>
    left
    split at hs <;> cases hs
    · next h0 =>
      unfold distance
      rw [hpc]
      cases st with
      | poll => simp [phase, ret, h0]
      | usage => simp [phase, ret, h0]
      | final =>
        cases m with
        | zero => exact absurd h0 hok
        | succ m => simp [phase, ret, h0]
    · next h0 =>
      unfold distance
      rw [hpc]
      simp [phase, h0]
  case call st fo hd m =>
    subst hs
    left
    unfold distance
    rw [hpc]
    simp only [phase, List.length_append, List.length_singleton]
    omega
  case wake st so hd m =>
    subst hs
    left
    unfold distance
    rw [hpc]
    simp only [phase]
    split <;> omega
  case uninstall =>
    subst hs
    left
    unfold distance
    rw [hpc]
    simp [phase]
  case waitUsage =>
    subst hs
    left
    unfold distance
    rw [hpc]
    simp [phase]
  case fini =>
    rw [hD rfl, show L = [] from hok] at hlen
    simp only [QPc.running, List.append_nil, List.length_nil] at hlen
    omega

/-- The other threads neither unlink objects nor move the thread of the queue. -/
theorem step_frame (ha : a ≠ .queue) (hs : s.step a = some s') :
    s'.executed = s.executed ∧ s'.pc = s.pc ∧ s.linked ≤ s'.linked := by
  cases a with
  | queue => exact absurd rfl ha
  | get noFail sync =>
    simp only [MpqSt.step] at hs
    split at hs <;> cases hs
    exact ⟨rfl, rfl, Nat.le_refl _⟩
  | add i fo =>
    simp only [MpqSt.step] at hs
    split at hs
    · split at hs <;> cases hs
      exact ⟨rfl, rfl, Nat.le_succ _⟩
    · cases hs
  | full i =>
    simp only [MpqSt.step] at hs
    split at hs
    · split at hs <;> cases hs
      exact ⟨rfl, rfl, Nat.le_refl _⟩
    · cases hs
  | refuse i | destroy i =>
    simp only [MpqSt.step] at hs
    split at hs <;> cases hs
    exact ⟨rfl, rfl, Nat.le_refl _⟩
  | resume i =>
    simp only [MpqSt.step] at hs
    split at hs <;> cases hs
    exact ⟨rfl, rfl, Nat.le_refl _⟩
  | put i =>
    simp only [MpqSt.step] at hs
    split at hs <;> cases hs <;> exact ⟨rfl, rfl, Nat.le_refl _⟩
  | addSelf fo =>
    simp only [MpqSt.step] at hs
    split at hs <;> cases hs
    exact ⟨rfl, rfl, Nat.le_succ _⟩

theorem queueStep_linked (hs : s.queueStep = some s') :
    s'.linked = s.linked ∧ s.executed.length ≤ s'.executed.length := by
  unfold MpqSt.queueStep at hs
  split at hs
  all_goals first
    | cases hs; done
    | (cases hs; exact ⟨rfl, by simp⟩)
    | (split at hs <;> cases hs <;> exact ⟨rfl, Nat.le_refl _⟩)

/-- In any interleaving, enough steps of the thread of the queue execute the first `n` objects. -/
theorem served (h : MpqInv s) (hn : n ≤ s.linked)
    (hd : s.distance n ≤ as.count .queue ∨ n ≤ s.executed.length) (hrun : exec MpqSt.step s as = some s') :
    n ≤ s'.executed.length := by
  induction as generalizing s with
  | nil =>
    cases hrun
    rcases hd with hd | hd
    · simp only [distance, List.count_nil, Nat.le_zero, Nat.add_eq_zero_iff] at hd
      omega
    · exact hd
  | cons a as ih =>
    rw [exec_cons, Option.bind_eq_some_iff] at hrun
    obtain ⟨t, ht, hrun⟩ := hrun
    have hi := h.step ht
    by_cases ha : a = .queue
    · subst ha
      obtain ⟨hl, he⟩ := queueStep_linked ht
      refine ih hi (hl ▸ hn) ?_ hrun
      by_cases hlt : s.executed.length < n
      · rcases hd with hd | hd
        · rw [List.count_cons_self] at hd
          rcases h.queueStep_distance hn hlt ht with hdist | hge
          exacts [.inl (by omega), .inr hge]
        · omega
      · exact .inr (by omega)
    · obtain ⟨he, hp, hl⟩ := step_frame ha ht
      refine ih hi (Nat.le_trans hn hl) ?_ hrun
      rw [List.count_cons_of_ne ha] at hd
      rwa [distance, he, hp]

end MpqInv

namespace MpqSt

variable {s : MpqSt}

end MpqSt

end Aosl
