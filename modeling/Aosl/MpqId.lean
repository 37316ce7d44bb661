import Aosl.IdTableRun

/-!
# Queue ids as results

`aosl_mpqp_queue*`, `aosl_mpqp_call*` and `aosl_mpq_main` return the id of a queue. An id is an `intptr_t`
made from 32 unsigned bits, the functions carry it in an `int` on the way: from life id 0x8000 on the
`int` is negative and is sign extended, so that the result is not the id any more. The platform is one
with an `intptr_t` of 64 bits.
-/

namespace Aosl
open Lib

def mpqArgcMax : Nat := 64

/-- The end of `__mpqp_best_q_queue` and of `__mpqp_best_q_call`: `q` is the id of the selected queue, `none` if
there is none, and `err` what the function that queues or calls returned. -/
def mpqpBestQResult (q : Option (BitVec 64)) (err : BitVec 32) : BitVec 32 :=
  match q with
  | none => -1
  | some qid => if 0 ≤ err.toInt then qid.setWidth 32 else err

/-- `__mpqp_best_q_queue`; `err` is `none` for a function it does not know. -/
def mpqpBestQQueue (q : Option (BitVec 64)) (err : Option (BitVec 32)) : BitVec 32 :=
  mpqpBestQResult q (err.getD (-1))

/-- `__mpqp_best_q_call`. -/
def mpqpBestQCall (q : Option (BitVec 64)) (err : BitVec 32) : BitVec 32 := mpqpBestQResult q err

/-- The functions of the pool that return a queue id. -/
inductive PoolFn where
  | queue
  | queueArgs
  | queueArgv
  | queueData
  | call
  | callArgs
  | callArgv
  | callData
deriving DecidableEq

namespace PoolFn

/-- The functions that check `argc`. -/
def takesArgs : PoolFn → Bool
  | queueData => false
  | callData => false
  | _ => true

def isCall : PoolFn → Bool
  | call => true
  | callArgs => true
  | callArgv => true
  | callData => true
  | _ => false

/-- `aosl_mpqp_queue` and its siblings. -/
def result (fn : PoolFn) (argc : Nat) (q : Option (BitVec 64)) (err : BitVec 32) : BitVec 64 :=
  if fn.takesArgs ∧ argc > mpqArgcMax then -1
  else if fn.isCall then (mpqpBestQCall q err).signExtend 64
  else (mpqpBestQQueue q (some err)).signExtend 64

end PoolFn

/-- `aosl_mpq_main`. -/
def aoslMpqMain (aoslMainQid : BitVec 64) : BitVec 64 :=
  let mainQ := aoslMainQid.setWidth 32
  if (getObjId mainQ).toInt < 0 then -1 else mainQ.signExtend 64

/-- A call that returns the id of a queue and succeeds. -/
inductive QidCall where
  | pool (fn : PoolFn) (argc : Nat) (err : BitVec 32)
  | main

namespace QidCall

def Succeeds : QidCall → Prop
  | pool fn argc err => ¬ (fn.takesArgs ∧ argc > mpqArgcMax) ∧ 0 ≤ err.toInt
  | main => True

/-- What the call returns for the queue with this id. -/
def result (c : QidCall) (qid : BitVec 64) : BitVec 64 :=
  match c with
  | pool fn argc err => fn.result argc (some qid) err
  | main => aoslMpqMain qid

end QidCall

section

variable {qid : BitVec 64} {id life : BitVec 16}

theorem signExtend_int_iff (life : BitVec 16) (hid : id.toNat < 0x8000) :
    ((makeObjId 64 id life).setWidth 32).signExtend 64 = makeObjId 64 id life ↔ life.toNat < 0x8000 := by
  have hval : (makeObjId 64 id life).toNat = life.toNat * 0x10000 + id.toNat := toNat_makeObjId (by decide) hid
  have hlife := life.isLt
  have hid' := id.isLt
  have hint : ((makeObjId 64 id life).setWidth 32).toNat = life.toNat * 0x10000 + id.toNat := by
    rw [BitVec.toNat_setWidth, hval]
    omega
  by_cases hlt : life.toNat < 0x8000
  · have hmsb : ((makeObjId 64 id life).setWidth 32).msb = false := by
      rw [BitVec.msb_eq_false_iff_two_mul_lt]
      omega
    refine iff_of_true ?_ hlt
    apply BitVec.eq_of_toNat_eq
    rw [BitVec.signExtend_eq_setWidth_of_msb_false hmsb, BitVec.toNat_setWidth, hint, hval]
    omega
  · have hmsb : ((makeObjId 64 id life).setWidth 32).msb = true := by
      rw [BitVec.msb_eq_true_iff_two_mul_ge]
      omega
    refine iff_of_false (fun heq => ?_) hlt
    -- the result is negative, the id is not
    have hneg : (((makeObjId 64 id life).setWidth 32).signExtend 64).msb = true := by
      rw [BitVec.msb_signExtend]
      simpa using hmsb
    rw [heq, BitVec.msb_eq_true_iff_two_mul_ge] at hneg
    omega

theorem getLifeId_makeObjId (hid : id.toNat < 0x8000) : getLifeId (makeObjId 64 id life) = life := by
  have hval : (makeObjId 64 id life).toNat = life.toNat * 0x10000 + id.toNat := toNat_makeObjId (by decide) hid
  have hlife := life.isLt
  have hid' := id.isLt
  apply BitVec.eq_of_toNat_eq
  rw [getLifeId, BitVec.toNat_setWidth, BitVec.toNat_ushiftRight, BitVec.toNat_setWidth, hval, Nat.shiftRight_eq_div_pow]
  omega

theorem QidCall.result_eq {c : QidCall} (hc : c.Succeeds) (hid : id.toNat < 0x8000) :
    c.result (makeObjId 64 id life) = ((makeObjId 64 id life).setWidth 32).signExtend 64 := by
  cases c with
  | pool fn argc err =>
    obtain ⟨hargc, herr⟩ := hc
    simp only [QidCall.result, PoolFn.result, if_neg hargc, mpqpBestQCall, mpqpBestQQueue, mpqpBestQResult, Option.getD_some,
      if_pos herr, ite_self]
  | main =>
    have hget : getObjId ((makeObjId 64 id life).setWidth 32) = id := by
      rw [getObjId, BitVec.setWidth_setWidth_of_le _ (by decide)]
      exact getObjId_makeObjId (by decide) hid
    have hpos : ¬ id.toInt < 0 := by
      rw [BitVec.toInt_eq_toNat_of_lt (by omega)]
      omega
    simp only [QidCall.result, aoslMpqMain, hget, if_neg hpos]

end

/-! ### Queues that are installed -/

namespace TblSt

variable {s : TblSt .mpq} {o : Nat}

/-- An object in the table has a handle with a small id and the life id of its install. -/
theorem Inv.handle {k : ObjKind} {s : TblSt k} (h : s.Inv) (ho : o < s.size) {n : Nat} (hn : (s.obj o).serial = some n) :
    ∃ id : BitVec 16, id.toNat < 0x8000 ∧ (s.obj o).objId = makeObjId k.width id (BitVec.ofNat 16 (lifeOf n)) := by
  have hid := h.id_lt o ho
  have hlt := h.size_lt
  refine ⟨BitVec.ofNat 16 (s.obj o).id, ?_, ((h.ok o ho).handle n hn).2⟩
  rw [BitVec.toNat_ofNat]
  omega

theorem Inv.getLifeId_eq (h : s.Inv) (ho : o < s.size) {n : Nat} (hn : (s.obj o).serial = some n) :
    getLifeId (s.obj o).objId = BitVec.ofNat 16 (lifeOf n) := by
  obtain ⟨id, hid, hobj⟩ := h.handle ho hn
  rw [hobj]
  exact getLifeId_makeObjId hid

theorem Inv.qid_usable_iff (h : s.Inv) (ho : o < s.size) (hin : s.inTable o = true) {c : QidCall} (hc : c.Succeeds) :
    (c.result (s.obj o).objId = (s.obj o).objId ∧ s.find (c.result (s.obj o).objId) = some o) ↔
      (getLifeId (s.obj o).objId).toNat < 0x8000 := by
  obtain ⟨n, hn⟩ := Option.ne_none_iff_exists'.1 (h.alive ho hin).1
  obtain ⟨id, hid, hobj⟩ := h.handle ho hn
  have hself := h.find_self ho hin
  have hiff := signExtend_int_iff (BitVec.ofNat 16 (lifeOf n)) hid
  have hres : c.result (s.obj o).objId = ((makeObjId 64 id (BitVec.ofNat 16 (lifeOf n))).setWidth 32).signExtend 64 := by
    rw [hobj]
    exact c.result_eq hc hid
  rw [h.getLifeId_eq ho hn, ← hiff, hres]
  constructor
  · rintro ⟨heq, -⟩
    exact heq.trans hobj
  · intro heq
    refine ⟨heq.trans hobj.symm, ?_⟩
    rw [heq]
    exact hobj ▸ hself

/-- For every reachable queue the result of a call that succeeds is its id, and leads to it while it is
installed, just when its life id is below 0x8000. -/
theorem qid_result_usable_iff {acts : List (TblAct .mpq)} (h : run .mpq acts = some s) {slot : Nat}
    (hslot : s.table[slot]? = some (some o)) {c : QidCall} (hc : c.Succeeds) :
    (c.result (s.obj o).objId = (s.obj o).objId ∧ s.find (c.result (s.obj o).objId) = some o) ↔
      (getLifeId (s.obj o).objId).toNat < 0x8000 := by
  have hinv := Inv.run h
  obtain ⟨ho, hid⟩ := hinv.entry slot o hslot
  exact hinv.qid_usable_iff ho (inTable_iff.2 (by rw [hid]; exact hslot)) hc

/-- The first queue of the process. -/
theorem qid_result_usable_iff_first : ∃ s : TblSt .mpq, run .mpq [.alloc true true, .install 0] = some s ∧
    s.table[0]? = some (some 0) ∧
    ((QidCall.main.result (s.obj 0).objId = (s.obj 0).objId ∧ s.find (QidCall.main.result (s.obj 0).objId) = some 0) ↔
      (getLifeId (s.obj 0).objId).toNat < 0x8000) :=
  ⟨_, rfl, rfl, qid_result_usable_iff (show run .mpq [.alloc true true, .install 0] = some _ from rfl)
    (show _[0]? = some (some 0) from rfl) (c := .main) trivial⟩

/-! ### A queue with a large life id -/

/-- A queue is created and destroyed. -/
def cycle (o : Nat) : List (TblAct .mpq) := [.alloc true true, .install o, .uninstall o, .drop o, .release o]

def cycles (n : Nat) : List (TblAct .mpq) := (List.range n).flatMap cycle

/-- No object has an id. -/
def Quiet (s : TblSt .mpq) : Prop := s.Inv ∧ ∀ o < s.size, (s.obj o).released = true

theorem Quiet.create (h : s.Quiet) : ∃ s', exec step s [.alloc true true, .install s.size] = some s' ∧ s'.Inv ∧
    s'.size = s.size + 1 ∧ s'.installs = s.installs + 1 ∧ s'.inTable s.size = true ∧
    (s'.obj s.size).serial = some s.installs ∧ (s'.obj s.size).usage = 1 ∧
    ∀ o < s.size, (s'.obj o).released = true := by
  obtain ⟨hinv, hquiet⟩ := h
  obtain ⟨used, hfit, hmem⟩ := hinv.bits
  have hnil : used = [] := List.eq_nil_iff_forall_not_mem.2 fun i hi => by
    obtain ⟨o, ho, -, hrel⟩ := (hmem i).1 hi
    simp [hquiet o ho] at hrel
  obtain ⟨id, p, hget⟩ := (hfit.getUnused_ok_iff ObjKind.mpq.cfg_valid).2 (by rw [hnil]; decide)
  have hadd := hinv.add hget
  have hlt : s.size < (s.add id p).size := Nat.lt_succ_self _
  have hself := add_obj_self (s := s) id p
  have hser : ((s.add id p).obj s.size).serial = none := by rw [hself]
  refine ⟨(s.add id p).place s.size, ?_, hadd.place hlt hser, rfl, rfl, hadd.place_inTable hlt, ?_, ?_, ?_⟩
  · have hstep : s.step (.alloc true true) = some (s.add id p) := by simp [step, hinv.crashed, alloc, hget]
    have hstep' : (s.add id p).step (.install s.size) = some ((s.add id p).place s.size) := by
      simp only [step, hadd.crashed, Bool.false_eq_true, if_false, if_pos (And.intro hlt hser), hadd.install_eq hlt hser]
    simp [exec_cons, hstep, hstep']
  · rw [place_obj_self]
    rfl
  · rw [place_obj_self, hself]
  · intro o ho
    rw [place_obj_ne (Nat.ne_of_lt ho), add_obj_ne _ _ (Nat.ne_of_lt ho)]
    exact hquiet o ho

/-- A queue that nobody holds is destroyed. -/
theorem Inv.destroy (h : s.Inv) (ho : o < s.size) (hin : s.inTable o = true) (husage : (s.obj o).usage = 1) :
    ∃ s', exec TblSt.step s [.uninstall o, .drop o, .release o] = some s' ∧ s'.Inv ∧ s'.size = s.size ∧
      s'.installs = s.installs ∧ (s'.obj o).released = true ∧ ∀ i, i ≠ o → s'.obj i = s.obj i := by
  obtain ⟨hser, hdrops, hdropped, -, hrel⟩ := h.alive ho hin
  obtain ⟨s₁, hs₁⟩ : ∃ s₁, s₁ = (s.setSlot (s.obj o).id none).modify o fun r => { r with drops := r.drops + 1 } := ⟨_, rfl⟩
  have hinv₁ : s₁.Inv := hs₁ ▸ h.unplace ho hin
  have hobj₁ : s₁.obj o = { s.obj o with drops := (s.obj o).drops + 1 } := by rw [hs₁, modify_obj_self]; rfl
  have hstep₁ : s.step (.uninstall o) = some s₁ := by
    simp [TblSt.step, h.crashed, ho, hser, hdropped, h.uninstall_eq ho hser, hin, hs₁]
  obtain ⟨s₂, hs₂⟩ : ∃ s₂, s₂ = s₁.modify o fun r => { r with drops := r.drops - 1, dropped := true, dying := true } := ⟨_, rfl⟩
  have hsize₁ : s₁.size = s.size := by rw [hs₁]; rfl
  have hstep₂ : s₁.step (.drop o) = some s₂ := by
    have hdrop : s₁.drop o = some s₂ := by simp [TblSt.drop, ObjKind.counted, hobj₁, husage, hs₂]
    simp [TblSt.step, hinv₁.crashed, hsize₁, ho, hobj₁, hdrop]
  have hinv₂ := hinv₁.step hstep₂
  have hobj₂ : s₂.obj o = { s.obj o with drops := (s.obj o).drops, dropped := true, dying := true } := by
    rw [hs₂, modify_obj_self, hobj₁]
    rfl
  have hsize₂ : s₂.size = s.size := by rw [hs₂, ← hsize₁]; rfl
  have hser₂ : (s₂.obj o).serial ≠ none := by rw [hobj₂]; exact hser
  have hstep₃ : s₂.step (.release o) = some (s₂.release o) := by
    simp [TblSt.step, hinv₂.crashed, hsize₂, ho, hobj₂, hrel]
  have hrelease := hinv₂.release_eq (hsize₂ ▸ ho) hser₂
  refine ⟨s₂.release o, ?_, hinv₂.step hstep₃, ?_, ?_, ?_, fun i hi => ?_⟩
  · simp [exec_cons, hstep₁, hstep₂, hstep₃]
  · rw [hrelease, ← hsize₂]
    rfl
  · rw [hrelease]
    have : s₂.installs = s.installs := by rw [hs₂, hs₁]; rfl
    exact this
  · rw [hrelease, modify_obj_self]
  · rw [hrelease, modify_obj_ne _ hi]
    have : s₂.obj i = s.obj i := by
      rw [hs₂, modify_obj_ne _ hi, hs₁, modify_obj_ne _ hi]
      rfl
    exact this

theorem Quiet.cycle (h : s.Quiet) : ∃ s', exec step s (cycle s.size) = some s' ∧ s'.Quiet ∧
    s'.size = s.size + 1 ∧ s'.installs = s.installs + 1 := by
  obtain ⟨t, ht, hinv, hsize, hinst, hin, -, husage, hrel⟩ := h.create
  obtain ⟨s', hs', hinv', hsize', hinst', hrel', hobj⟩ := hinv.destroy (by omega) hin husage
  refine ⟨s', ?_, ⟨hinv', fun o ho => ?_⟩, by omega, by omega⟩
  · rw [show TblSt.cycle s.size = [.alloc true true, .install s.size] ++ [.uninstall s.size, .drop s.size, .release s.size] from rfl,
      exec_append, ht]
    exact hs'
  · by_cases hos : o = s.size
    · rw [hos]
      exact hrel'
    · rw [hobj o hos]
      exact hrel o (by omega)

theorem run_append {k : ObjKind} {as bs : List (TblAct k)} : run k (as ++ bs) = (run k as).bind (exec step · bs) := by
  unfold run
  rw [Option.bind_assoc]
  simp only [exec_append]

theorem run_cycles (n : Nat) : ∃ s, run .mpq (cycles n) = some s ∧ s.Quiet ∧ s.size = n ∧ s.installs = n := by
  induction n with
  | zero =>
    obtain ⟨s, hs⟩ : ∃ s, run .mpq (cycles 0) = some s := ⟨_, rfl⟩
    have hsize : s.size = 0 ∧ s.installs = 0 := by
      cases hs
      exact ⟨rfl, rfl⟩
    exact ⟨s, hs, ⟨Inv.run hs, fun o ho => by omega⟩, hsize⟩
  | succ n ih =>
    obtain ⟨s, hs, hquiet, hsize, hinst⟩ := ih
    obtain ⟨s', hs', hquiet', hsize', hinst'⟩ := hquiet.cycle
    have happ : cycles (n + 1) = cycles n ++ cycle n := by simp [cycles, List.range_succ]
    refine ⟨s', ?_, hquiet', by omega, by omega⟩
    rw [happ, run_append, hs, ← hsize]
    exact hs'

/-- After 32767 queues the next one has life id 0x8000: what `aosl_mpqp_queue` returns is not its id and does
not lead to it. -/
theorem not_qid_result_usable : ∃ s, run .mpq (cycles 0x7fff ++ [.alloc true true, .install 0x7fff]) = some s ∧
    s.inTable 0x7fff = true ∧ (QidCall.pool .queue 0 0).Succeeds ∧
    ¬ ((QidCall.pool .queue 0 0).result (s.obj 0x7fff).objId = (s.obj 0x7fff).objId ∧
      s.find ((QidCall.pool .queue 0 0).result (s.obj 0x7fff).objId) = some 0x7fff) := by
  obtain ⟨t, ht, hquiet, hsize, hinst⟩ := run_cycles 0x7fff
  obtain ⟨s, hs, hinv, hsize', -, hin, hser, -⟩ := hquiet.create
  rw [hsize] at hs hin hser
  have hc : (QidCall.pool .queue 0 0).Succeeds := ⟨by decide, by decide⟩
  refine ⟨s, by rw [run_append, ht]; exact hs, hin, hc, ?_⟩
  rw [hinv.qid_usable_iff (by omega) hin hc, hinv.getLifeId_eq (by omega) hser, hinst]
  decide

end TblSt

end Aosl
