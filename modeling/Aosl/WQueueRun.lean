import Aosl.WQueue

/-!
# No byte of the write queue is lost

The bytes that the OS has taken and those in the queue are the buffers of the calls that have returned their full
length, in order. `put` loses bytes only where the OS takes a part of a buffer and there is no node for the rest
(`PartWritten`); `aosl_malloc` aborts then.
-/

namespace Aosl
open Lib

namespace WSt

variable {β : Type} {s : WSt β} {l : List Nat} {b : Nat}

/-- The bytes of the nodes `l` that are still to be written. -/
def pending (s : WSt β) (l : List Nat) : List β := (l.map fun b => (s.node b).pending).flatten

def mems (s : WSt β) (l : List Nat) : List β := (l.map fun b => (s.node b).mem).flatten

/-- The nodes `l` are the queue, whatever was written before. -/
structure Queue (s : WSt β) (l : List Nat) : Prop where
  links : Seg id (fun b => (s.node b).next) l none
  head : s.head = l.head?
  tail : s.tail = l.getLast?
  count : s.count = l.length
  totalLen : s.totalLen = (s.mems l).length
  bound : s.totalLen ≤ 131072
  nodup : l.Nodup
  old : ∀ b ∈ l, b < s.fresh

section Nodes
variable {f : WNode β → WNode β} {i : Nat}

@[simp] theorem setNode_node_self : (s.setNode i f).node i = f (s.node i) := Function.update_self ..

theorem setNode_node_ne (h : b ≠ i) : (s.setNode i f).node b = s.node b := Function.update_of_ne h ..

variable {s' : WSt β}

theorem pending_congr (h : ∀ b ∈ l, (s'.node b).pending = (s.node b).pending) : s'.pending l = s.pending l := by
  rw [pending, pending, List.map_congr_left h]

theorem mems_congr (h : ∀ b ∈ l, (s'.node b).mem = (s.node b).mem) : s'.mems l = s.mems l := by
  rw [mems, mems, List.map_congr_left h]

theorem pending_cons : s.pending (b :: l) = (s.node b).pending ++ s.pending l := rfl

theorem mems_cons : s.mems (b :: l) = (s.node b).mem ++ s.mems l := rfl

end Nodes

theorem node_wQueueAdd (hb : s.tail ≠ some b) (i : Nat) : (s.wQueueAdd b).node i =
    { s.node i with next := if i = b then none else if s.tail = some i then some b else (s.node i).next } := by
  have htail : (s.setNode b fun n => { n with next := none }).tail = s.tail := rfl
  rw [wQueueAdd, htail]
  by_cases hi : i = b
  · subst hi
    cases ht : s.tail with
    | none => simp
    | some t =>
      have hne : i ≠ t := fun he => hb (he ▸ ht)
      simp [setNode_node_ne hne]
  · cases ht : s.tail with
    | none => simp [hi, setNode_node_ne hi]
    | some t =>
      by_cases hit : i = t
      · subst hit
        simp [hi, setNode_node_ne hi]
      · simp [hi, setNode_node_ne hit, setNode_node_ne hi, Ne.symm hit]

theorem fields_wQueueAdd : (s.wQueueAdd b).head = (if s.tail = none then some b else s.head) ∧
    (s.wQueueAdd b).tail = some b ∧ (s.wQueueAdd b).count = s.count + 1 ∧
    (s.wQueueAdd b).totalLen = s.totalLen + (s.node b).mem.length ∧ (s.wQueueAdd b).fresh = s.fresh ∧
    (s.wQueueAdd b).notReady = s.notReady ∧ (s.wQueueAdd b).accepted = s.accepted ∧ (s.wQueueAdd b).calls = s.calls := by
  have htail : (s.setNode b fun n => { n with next := none }).tail = s.tail := rfl
  rw [wQueueAdd, htail]
  cases s.tail with
  | none => exact ⟨rfl, rfl, rfl, rfl, rfl, rfl, rfl, rfl⟩
  | some t => exact ⟨rfl, rfl, rfl, rfl, rfl, rfl, rfl, rfl⟩

namespace Queue

theorem alloc (h : s.Queue l) (rest : List β) (extra : Nat) :
    (s.alloc rest extra).Queue l ∧ (s.alloc rest extra).pending l = s.pending l := by
  have hnode : ∀ i ∈ l, (s.alloc rest extra).node i = s.node i := by
    intro i hi
    have hne : i ≠ s.fresh := Nat.ne_of_lt (h.old i hi)
    exact Function.update_of_ne hne ..
  refine ⟨{ h with links := ?_, totalLen := ?_, old := fun i hi => ?_ }, ?_⟩
  · exact h.links.congr fun i hi => congrArg WNode.next (hnode i hi)
  · rw [mems_congr fun i hi => congrArg WNode.mem (hnode i hi)]
    exact h.totalLen
  · exact Nat.lt_succ_of_lt (h.old i hi)
  · exact pending_congr fun i hi => congrArg WNode.pending (hnode i hi)

theorem wQueueAdd (h : s.Queue l) (hb : b ∉ l) (hlt : b < s.fresh) (hle : s.totalLen + (s.node b).mem.length ≤ 131072) :
    (s.wQueueAdd b).Queue (l ++ [b]) ∧ (s.wQueueAdd b).pending (l ++ [b]) = s.pending l ++ (s.node b).pending := by
  have htail : s.tail ≠ some b := fun he => hb (List.mem_of_getLast? (h.tail ▸ he))
  have hmem : ∀ i, ((s.wQueueAdd b).node i).mem = (s.node i).mem := by
    intro i
    rw [node_wQueueAdd htail]
  have hpend : ∀ i, ((s.wQueueAdd b).node i).pending = (s.node i).pending := by
    intro i
    rw [node_wQueueAdd htail]
    rfl
  obtain ⟨hhead, htail', hcount, htotal, hfresh, -⟩ := fields_wQueueAdd (s := s) (b := b)
  have hfifo : Fifo id (s.wQueueAdd b).head (id (some b)) (fun i => ((s.wQueueAdd b).node i).next) (l ++ [b]) := by
    have hold : Fifo id s.head s.tail (fun i => (s.node i).next) l := ⟨h.head, h.tail, h.links⟩
    refine hold.push h.nodup ?_ ?_ fun i hi => ?_
    · rw [hhead, h.tail]
      cases l with
      | nil => rfl
      | cons a l => simp
    · rw [node_wQueueAdd htail, if_pos rfl]
      rfl
    · have hne : i ≠ b := ne_of_mem_of_not_mem hi hb
      rw [node_wQueueAdd htail, if_neg hne, ← h.tail]
      constructor
      · intro ht
        rw [if_pos ht]
        rfl
      · intro ht
        rw [if_neg ht]
  refine ⟨{ links := hfifo.nexts, head := hfifo.head_eq, tail := htail'.trans hfifo.tail_eq, count := ?_,
            totalLen := ?_, bound := ?_, nodup := ?_, old := ?_ }, ?_⟩
  · rw [hcount, h.count, List.length_append]
    rfl
  · rw [htotal, h.totalLen, mems, mems, List.map_append, List.flatten_append, List.length_append]
    simp [hmem]
  · rw [htotal]
    exact hle
  · rw [List.nodup_append]
    exact ⟨h.nodup, List.nodup_singleton b, fun i hi j hj => by
      rw [List.mem_singleton.1 hj]
      exact fun he => hb (he ▸ hi)⟩
  · intro i hi
    rw [hfresh]
    rcases List.mem_append.1 hi with hi | hi
    · exact h.old i hi
    · exact List.mem_singleton.1 hi ▸ hlt
  · rw [pending, pending, List.map_append, List.flatten_append]
    simp [hpend]

theorem queueIt (h : s.Queue l) {rest : List β} (extra len : Nat) (hle : s.totalLen + rest.length ≤ 131072) :
    ∃ l', (s.queueIt len rest extra true).2.Queue l' ∧
      (s.queueIt len rest extra true).2.pending l' = s.pending l ++ rest := by
  obtain ⟨hq, hpend⟩ := h.alloc rest extra
  have hnew : s.fresh ∉ l := fun hmem => Nat.lt_irrefl _ (h.old _ hmem)
  have hnode : (s.alloc rest extra).node s.fresh = ⟨none, rest, 0, extra⟩ := Function.update_self ..
  obtain ⟨hq', hpend'⟩ := hq.wQueueAdd hnew (Nat.lt_succ_self _) (by rw [hnode]; exact hle)
  refine ⟨l ++ [s.fresh], hq', ?_⟩
  change ((s.alloc rest extra).wQueueAdd s.fresh).pending _ = _
  rw [hpend', hpend, hnode]
  rfl

theorem wQueueRemoveHead (h : s.Queue (b :: l)) :
    (s.wQueueRemoveHead b).Queue l ∧ (s.wQueueRemoveHead b).pending l = s.pending l := by
  have hnodup := List.nodup_cons.1 h.nodup
  have hnode : ∀ i ∈ l, (s.wQueueRemoveHead b).node i = s.node i := by
    intro i hi
    have hne : i ≠ b := fun he => hnodup.1 (he ▸ hi)
    exact Function.update_of_ne hne ..
  have hnext : (s.node b).next = l.head? := by
    have := h.links.1
    rwa [Option.or_none] at this
  have htotal := h.totalLen
  rw [mems_cons, List.length_append] at htotal
  have hcount := h.count
  have hbound := h.bound
  refine ⟨{ links := ?_, head := hnext, tail := ?_, count := ?_, totalLen := ?_, bound := ?_, nodup := hnodup.2,
            old := fun i hi => h.old i (List.mem_cons_of_mem b hi) }, ?_⟩
  · exact h.links.2.congr fun i hi => congrArg WNode.next (hnode i hi)
  · change (if (s.node b).next = none then none else s.tail) = _
    rw [hnext, h.tail]
    cases l with
    | nil => rfl
    | cons a l => simp
  · change s.count - 1 = l.length
    rw [hcount]
    rfl
  · change s.totalLen - (s.node b).mem.length = _
    rw [mems_congr fun i hi => congrArg WNode.mem (hnode i hi)]
    omega
  · exact Nat.le_trans (Nat.sub_le ..) hbound
  · exact pending_congr fun i hi => congrArg WNode.pending (hnode i hi)

/-- `w_data` of the head moves on. -/
theorem writeNode (h : s.Queue (b :: l)) (n : Nat) : (s.writeNode b n).Queue (b :: l) ∧
    (s.writeNode b n).accepted ++ (s.writeNode b n).pending (b :: l) = s.accepted ++ s.pending (b :: l) := by
  have hself : (s.writeNode b n).node b = { s.node b with wData := (s.node b).wData + min n (s.node b).pending.length } :=
    Function.update_self ..
  have hne : ∀ i, i ≠ b → (s.writeNode b n).node i = s.node i := fun i hi => Function.update_of_ne hi ..
  have hfield : ∀ i, ((s.writeNode b n).node i).next = (s.node i).next ∧
      ((s.writeNode b n).node i).mem = (s.node i).mem := by
    intro i
    by_cases hi : i = b
    · subst hi
      rw [hself]
      exact ⟨rfl, rfl⟩
    · rw [hne i hi]
      exact ⟨rfl, rfl⟩
  refine ⟨{ h with links := h.links.congr fun i _ => (hfield i).1, totalLen := ?_ }, ?_⟩
  · rw [mems_congr fun i _ => (hfield i).2]
    exact h.totalLen
  · have hl : (s.writeNode b n).pending l = s.pending l := by
      refine pending_congr fun i hi => ?_
      rw [hne i fun he => (List.nodup_cons.1 h.nodup).1 (he ▸ hi)]
    have hb : (s.node b).pending.take n ++ ((s.writeNode b n).node b).pending = (s.node b).pending := by
      rw [hself, List.take_eq_take_min]
      change _ ++ (s.node b).mem.drop ((s.node b).wData + min n (s.node b).pending.length) = _
      rw [← List.drop_drop]
      exact List.take_append_drop ..
    change (s.accepted ++ (s.node b).pending.take n) ++ (s.writeNode b n).pending (b :: l) = _
    rw [pending_cons, pending_cons, hl, List.append_assoc, ← List.append_assoc _ _ (s.pending l), hb]

/-- `__iofd_write_data` moves bytes from the queue to the OS. -/
theorem writeLoop (h : s.Queue l) (results : List HalRes) : ∃ l', (s.writeLoop results).Queue l' ∧
    (s.writeLoop results).accepted ++ (s.writeLoop results).pending l' = s.accepted ++ s.pending l ∧
    (s.writeLoop results).calls = s.calls := by
  induction results generalizing s l with
  | nil => exact ⟨l, h, rfl, rfl⟩
  | cons res results ih =>
    generalize hw : s.writeLoop (res :: results) = t
    unfold WSt.writeLoop at hw
    split at hw
    case h_1 =>
      subst hw
      exact ⟨l, h, rfl, rfl⟩
    case h_2 b n hhead =>
      obtain ⟨l, rfl⟩ : ∃ l', l = b :: l' := List.head?_eq_some_iff.1 (h.head.symm.trans hhead)
      obtain ⟨hq, heq⟩ := h.writeNode n
      split at hw
      · subst hw
        exact ⟨b :: l, hq, heq, rfl⟩
      case isFalse hdone =>
        obtain ⟨hq', hpend⟩ := hq.wQueueRemoveHead
        obtain ⟨l', hl', heq', hcalls⟩ := ih hq'
        rw [hw] at hl' heq' hcalls
        refine ⟨l', hl', heq'.trans ?_, hcalls⟩
        have hnil : ((s.writeNode b n).node b).pending = [] := List.drop_eq_nil_of_le (Nat.not_lt.1 hdone)
        rw [hpend, ← heq, pending_cons, hnil]
        rfl
    case h_3 =>
      subst hw
      exact ⟨l, { h with }, rfl, rfl⟩
    case h_4 =>
      subst hw
      exact ⟨l, { h with }, rfl, rfl⟩

end Queue

/-- What a call adds to the bytes of the full calls. -/
def gain (buf : List β) (ret : Int) : List β := if ret = buf.length then buf else []

theorem gain_of_neg {buf : List β} {ret : Int} (h : ret < 0) : gain buf ret = [] := if_neg (by omega)

theorem full_log (buf : List β) (r : Int × WSt β) : (log buf r).full = r.2.full ++ gain buf r.1 := by
  by_cases h : r.1 = buf.length
  · simp [full, log, gain, h]
  · simp [full, log, gain, h]

theorem le_of_wQueueSpace {n : Nat} (h : n ≤ s.wQueueSpace) (hb : s.totalLen ≤ 131072) : s.totalLen + n ≤ 131072 := by
  unfold wQueueSpace at h
  split at h
  · omega
  · omega

theorem fields_queueIt (s : WSt β) (len : Nat) (rest : List β) (extra : Nat) : (s.queueIt len rest extra true).1 = len ∧
    (s.queueIt len rest extra true).2.accepted = s.accepted ∧ (s.queueIt len rest extra true).2.calls = s.calls := by
  obtain ⟨-, -, -, -, -, -, haccepted, hcalls⟩ := fields_wQueueAdd (s := s.alloc rest extra) (b := s.fresh)
  exact ⟨rfl, haccepted, hcalls⟩

namespace Queue

variable {buf : List β} {malloc : Bool} {res : HalRes}

/-- The part that writes to the OS, with an empty queue. -/
theorem writeNow (h : s.Queue []) (extra : Nat) (hspace : buf.length ≤ s.wQueueSpace)
    (hrest : ∀ n, res = .sent n → 0 < n → n < buf.length → malloc = true) :
    ∃ l', (s.writeNow buf extra malloc res).2.Queue l' ∧
      (s.writeNow buf extra malloc res).2.accepted ++ (s.writeNow buf extra malloc res).2.pending l' =
        s.accepted ++ gain buf (s.writeNow buf extra malloc res).1 ∧
      (s.writeNow buf extra malloc res).2.calls = s.calls := by
  have hsame : ∀ ret : Int, gain buf ret = [] → ∃ l', s.Queue l' ∧ s.accepted ++ s.pending l' = s.accepted ++ gain buf ret ∧
      s.calls = s.calls := fun ret hret => ⟨[], h, by rw [hret]; rfl, rfl⟩
  generalize hw : s.writeNow buf extra malloc res = r
  cases res with
  | sent n =>
    rw [WSt.writeNow] at hw
    split at hw
    case isTrue hzero =>
      subst hw
      refine hsame 0 ?_
      unfold gain
      split
      · exact List.length_eq_zero_iff.1 (by omega)
      · rfl
    case isFalse hpos =>
      split at hw
      case isTrue hlt =>
        rw [hrest n rfl (by omega) hlt] at hw
        have hq : (s.accept (buf.take n)).Queue [] := { h with }
        have hle := le_of_wQueueSpace hspace h.bound
        obtain ⟨l', hl', hpend⟩ := hq.queueIt extra buf.length (show s.totalLen + (buf.drop n).length ≤ 131072 by
          rw [List.length_drop]
          omega)
        obtain ⟨hret, haccepted, hcalls⟩ := fields_queueIt (s.accept (buf.take n)) buf.length (buf.drop n) extra
        rw [hw] at hl' hpend hret haccepted hcalls
        refine ⟨l', hl', ?_, hcalls⟩
        rw [haccepted, hpend, hret, gain, if_pos rfl]
        change (s.accepted ++ buf.take n) ++ ([] ++ buf.drop n) = _
        rw [List.nil_append, List.append_assoc, List.take_append_drop]
      case isFalse hge =>
        subst hw
        refine ⟨[], { h with }, ?_, rfl⟩
        change (s.accepted ++ buf) ++ [] = _
        rw [gain, if_pos rfl, List.append_nil]
  | eagain => exact hw ▸ hsame (-1011) (gain_of_neg (by decide))
  | eintr => exact hw ▸ hsame (-1004) (gain_of_neg (by decide))
  | einprogress => exact hw ▸ hsame (-1115) (gain_of_neg (by decide))
  | ehal => exact hw ▸ hsame (-2000) (gain_of_neg (by decide))

/-- `____write` and `____send`. -/
theorem put (h : s.Queue l) (extra : Nat) (poll : Bool) (hrest : s.PartWritten buf res → malloc = true) :
    ∃ l', (s.put extra poll buf res malloc).2.Queue l' ∧
      (s.put extra poll buf res malloc).2.accepted ++ (s.put extra poll buf res malloc).2.pending l' =
        s.accepted ++ s.pending l ++ gain buf (s.put extra poll buf res malloc).1 ∧
      (s.put extra poll buf res malloc).2.calls = s.calls := by
  have hsame : ∀ ret : Int, ret < 0 → ∃ l', s.Queue l' ∧
      s.accepted ++ s.pending l' = s.accepted ++ s.pending l ++ gain buf ret ∧ s.calls = s.calls :=
    fun ret hret => ⟨l, h, by rw [gain_of_neg hret, List.append_nil], rfl⟩
  generalize hp : s.put extra poll buf res malloc = r
  rw [WSt.put] at hp
  split at hp
  · exact hp ▸ hsame (-1090) (by decide)
  · split at hp
    · exact hp ▸ hsame (-1011) (by decide)
    case isFalse hspace =>
      have hspace := Nat.not_lt.1 hspace
      split at hp
      case isTrue =>
        cases malloc with
        | true =>
          obtain ⟨l', hl', hpend⟩ := h.queueIt extra buf.length (le_of_wQueueSpace hspace h.bound)
          obtain ⟨hret, haccepted, hcalls⟩ := fields_queueIt s buf.length buf extra
          rw [hp] at hl' hpend hret haccepted hcalls
          refine ⟨l', hl', ?_, hcalls⟩
          rw [haccepted, hpend, hret, gain, if_pos rfl, List.append_assoc]
        | false => exact hp ▸ hsame (-1012) (by decide)
      case isFalse hnow =>
        obtain ⟨hhead, hready⟩ : s.head = none ∧ s.notReady = false := by simpa using hnow
        obtain rfl : l = [] := List.head?_eq_none_iff.1 (h.head.symm.trans hhead)
        have hq : { s with pollOut := s.pollOut || poll }.Queue [] := { h with }
        have hfits : ∀ n, res = .sent n → 0 < n → n < buf.length → malloc = true := by
          rintro n rfl hpos hlt
          exact hrest ⟨hspace, hhead, hready, hpos, hlt⟩
        obtain ⟨l', hl', heq, hcalls⟩ := hq.writeNow extra hspace hfits
        rw [hp] at hl' heq hcalls
        refine ⟨l', hl', heq.trans ?_, hcalls⟩
        rw [show s.pending [] = [] from rfl, List.append_nil]

end Queue

/-- The queue is intact, and the bytes are those of the full calls. -/
def Inv (s : WSt β) : Prop := ∃ l, s.Queue l ∧ s.accepted ++ s.pending l = s.full

theorem Inv.log {buf : List β} {r : Int × WSt β} (hq : r.2.Queue l)
    (heq : r.2.accepted ++ r.2.pending l = s.full ++ gain buf r.1) (hcalls : r.2.calls = s.calls) :
    (log buf r).Inv := by
  refine ⟨l, { hq with }, ?_⟩
  rw [full_log]
  have hfull : r.2.full = s.full := by rw [full, hcalls, full]
  rw [hfull]
  exact heq

theorem Inv.step {s' : WSt β} {a : WAct β} (h : s.Inv) (hs : s.step a = some s') : s'.Inv := by
  obtain ⟨l, hq, heq⟩ := h
  cases a with
  | write buf res =>
    obtain rfl := Option.some.inj hs
    obtain ⟨l', hl', hput, hcalls⟩ := hq.put 0 true fun _ => rfl
    exact Inv.log hl' (heq ▸ hput) hcalls
  | send buf res =>
    obtain rfl := Option.some.inj hs
    obtain ⟨l', hl', hput, hcalls⟩ := hq.put 4 false fun _ => rfl
    exact Inv.log hl' (heq ▸ hput) hcalls
  | writable results =>
    obtain rfl := Option.some.inj hs
    have hready : { s with notReady := false }.Queue l := { hq with }
    obtain ⟨l', hl', hw, hcalls⟩ := hready.writeLoop results
    refine ⟨l', hl', hw.trans (heq.trans ?_)⟩
    rw [full, full, writeData, hcalls]

theorem inv_init (notReady : Bool) : (init notReady : WSt β).Inv :=
  ⟨[], ⟨trivial, rfl, rfl, rfl, rfl, Nat.zero_le _, List.nodup_nil, nofun⟩, rfl⟩

/-- In every run the bytes that the OS has taken and those that wait are the buffers of the full calls, and the queue is a
list with its length and its size. -/
theorem write_queue_intact {notReady : Bool} {as : List (WAct β)} (hrun : run notReady as = some s) :
    ∃ l, s.Intact l ∧ (s.head = none ↔ s.tail = none) := by
  obtain ⟨l, hq, heq⟩ : s.Inv := exec_invariant_all (fun _ _ _ h hs => h.step hs) (inv_init notReady) hrun
  refine ⟨l, ⟨hq.links, hq.head, hq.tail, hq.count, hq.totalLen, hq.bound, heq⟩, ?_⟩
  rw [hq.head, hq.tail, List.head?_eq_none_iff, List.getLast?_eq_none_iff]

/-- A buffer is taken in part, another one waits behind the rest; then the fd is writable. -/
def restRun : List (WAct Nat) :=
  [.write [1, 2, 3] (.sent 1), .send [4, 5] .eagain, .writable [.sent 2, .sent 1, .eagain]]

theorem write_queue_intact_restRun : ∃ s, run false restRun = some s ∧ s.accepted = [1, 2, 3, 4] ∧
    ∃ l, s.Intact l ∧ (s.head = none ↔ s.tail = none) := by
  have hany : (run false restRun).any (fun s => decide (s.accepted = [1, 2, 3, 4])) = true := by decide +kernel
  obtain ⟨s, hs, hd⟩ := (Option.any_eq_true ..).1 hany
  exact ⟨s, hs, of_decide_eq_true hd, write_queue_intact hs⟩

end WSt

end Aosl
