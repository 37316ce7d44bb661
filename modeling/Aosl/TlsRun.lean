import Aosl.TlsKeys
import Aosl.Lib.Lists

/-!
# Thread-local values of threads that come and go

Threads create, delete, set and get keys. A call is a sequence of steps: the slot of the key is read under
`tls_key_id_lock`, what follows touches the node of the calling thread and reads `tls_key_id_size` without the lock.
Nodes are found by thread id and never removed, and the system may give the id of an exited thread to a new one.

`log` is not in the code: what has been done to the keys, the newest first. A set counts from the moment its slot is read.
-/

namespace Aosl
open Lib

/-- Where a thread is in a call; `want` is not in the code, it is what `k_tls_key_get` should return. -/
inductive TlsPhase where
  | idle
  | exited
  | get (key : Nat) (seq : BitVec 64) (want : Nat)
  | set (key value : Nat) (seq : BitVec 64)
  | setClear (key value : Nat) (seq : BitVec 64) (alloc : Nat)
  | setSize (key value : Nat) (seq : BitVec 64) (alloc clear : Nat)
  | setStore (key value : Nat) (seq : BitVec 64)
deriving DecidableEq

/-- The thread is between the reads of `tls_key_id_size` for its new node. -/
def TlsPhase.sizing : TlsPhase → Bool
  | setClear .. | setSize .. => true
  | _ => false

structure TlsThread where
  id : Nat
  phase : TlsPhase
deriving DecidableEq

inductive TlsEvent where
  | create (key : Nat)
  | delete (key : Nat)
  | set (t key value : Nat)
deriving DecidableEq

/-- The value that thread `t` has set last since the key was created, `NULL` if there is none. -/
def lastSet (t key : Nat) : List TlsEvent → Nat
  | [] => 0
  | .create k :: log => if k = key then 0 else lastSet t key log
  | .delete k :: log => if k = key then 0 else lastSet t key log
  | .set u k value :: log => if u = t ∧ k = key then value else lastSet t key log

/-- `fault` is an assertion that has failed or an access past a table. -/
structure TlsSys where
  tls : TlsSt
  threads : List TlsThread
  log : List TlsEvent
  fault : Bool

inductive TlsAct where
  | start (id : Nat)
  | exit (t : Nat)
  | create (t : Nat) (memBits memTable : Bool)
  | delete (t : Nat) (key : Int)
  | set (t : Nat) (key : Int) (value : Nat)
  | get (t : Nat) (key : Int)
  | go (t : Nat)
deriving DecidableEq

namespace TlsSys

def init : TlsSys := ⟨.rbTlsInit, [], [], false⟩

def size (s : TlsSys) : Nat := s.tls.keys.table.length

def idle (s : TlsSys) (t : Nat) : Bool := s.threads[t]?.any (·.phase = .idle)

/-- Thread `t` goes on to `ph`. -/
def goto (s : TlsSys) (t : Nat) (th : TlsThread) (ph : TlsPhase) : TlsSys :=
  { s with threads := s.threads.set t ⟨th.id, ph⟩ }

/-- Thread `t` goes on to `ph` with the node `n`. -/
def gotoNode (s : TlsSys) (t : Nat) (th : TlsThread) (n : TlsNode) (ph : TlsPhase) : TlsSys :=
  { s with
    tls := { s.tls with nodes := Function.update s.tls.nodes th.id (some n) }
    threads := s.threads.set t ⟨th.id, ph⟩ }

/-- The next step of the call a thread is in. -/
def go (s : TlsSys) (t : Nat) (th : TlsThread) : Option TlsSys := match th.phase with
  | .idle | .exited => none
  | .get key seq _ => match s.tls.nodes th.id with
    | none => some (s.goto t th .idle)
    | some n => match n.get key seq with
      | none => some { s with fault := true }
      | some (_, n) => some (s.gotoNode t th n .idle)
  | .set key value seq => match s.tls.nodes th.id with
    | none => some (s.goto t th (.setClear key value seq s.size))
    | some _ => some (s.goto t th (.setStore key value seq))
  | .setClear key value seq alloc => some (s.goto t th (.setSize key value seq alloc s.size))
  | .setSize key value seq alloc clear => match TlsNode.create alloc clear s.size with
    | none => some { s with fault := true }
    | some n => some (s.gotoNode t th n (.setStore key value seq))
  | .setStore key value seq => match (s.tls.nodes th.id).bind (·.put s.size key ⟨seq, value⟩) with
    | none => some { s with fault := true }
    | some n => some (s.gotoNode t th n .idle)

def step (s : TlsSys) : TlsAct → Option TlsSys
  | .start id =>
    if s.threads.any (fun th => th.id = id ∧ th.phase ≠ .exited) then none
    else some { s with threads := s.threads ++ [⟨id, .idle⟩] }
  | .exit t => if s.idle t then s.threads[t]?.map fun th => s.goto t th .exited else none
  | .create t memBits memTable =>
    if s.idle t then match allocTlsKey memBits memTable s.tls.keys with
      | .ok (key, p) => some { s with tls := { s.tls with keys := p }, log := .create key :: s.log }
      | .error .bug => some { s with fault := true }
      | .error _ => some s
    else none
  | .delete t key =>
    if s.idle t then some { s with
      tls := { s.tls with keys := kTlsKeyDelete key s.tls.keys }
      log := if key < 0 then s.log else .delete key.toNat :: s.log }
    else none
  | .set t key value =>
    if s.idle t then match usedSlot s.tls.keys key with
      | none => some s
      | some seq => s.threads[t]?.map fun th =>
        { s.goto t th (.set key.toNat value seq) with log := .set t key.toNat value :: s.log }
    else none
  | .get t key =>
    if s.idle t then match usedSlot s.tls.keys key with
      | none => some s
      | some seq => s.threads[t]?.map fun th => s.goto t th (.get key.toNat seq (lastSet t key.toNat s.log))
    else none
  | .go t => s.threads[t]?.bind (s.go t)

/-- Where a call of `k_tls_key_get` returns: what it should return, and what it does. -/
def returns (s : TlsSys) : TlsAct → Option (Nat × Nat)
  | .get t key => if s.idle t ∧ usedSlot s.tls.keys key = none
      then some (if key < 0 then 0 else lastSet t key.toNat s.log, 0) else none
  | .go t => s.threads[t]?.bind fun th => match th.phase with
    | .get key seq want => match s.tls.nodes th.id with
      | none => some (want, 0)
      | some n => (n.get key seq).map fun r => (want, r.1)
    | _ => none
  | _ => none

/-- Each key is deleted once: the key exists. -/
def DeletesOnce (s : TlsSys) : TlsAct → Prop
  | .delete _ key => (usedSlot s.tls.keys key).isSome = true
  | _ => True

/-- A new thread has no node of an exited one, the key table does not grow between the reads of its size, and no
counter wraps. -/
def Clean (s : TlsSys) : TlsAct → Prop
  | .start id => (s.tls.nodes id).isNone = true
  | .create _ _ _ => s.tls.keys.bits.findFirstZeroBit = none → ∀ th ∈ s.threads, th.phase.sizing = false
  | .delete _ key => usedSlot s.tls.keys key ≠ some (BitVec.allOnes 64)
  | _ => True

instance (s : TlsSys) : (a : TlsAct) → Decidable (s.DeletesOnce a)
  | .delete _ key => inferInstanceAs (Decidable ((usedSlot s.tls.keys key).isSome = true))
  | .start _ | .exit _ | .create _ _ _ | .set _ _ _ | .get _ _ | .go _ => .isTrue trivial

instance (s : TlsSys) : (a : TlsAct) → Decidable (s.Clean a)
  | .start id => inferInstanceAs (Decidable ((s.tls.nodes id).isNone = true))
  | .create _ _ _ => inferInstanceAs (Decidable (_ → _))
  | .delete _ key => inferInstanceAs (Decidable (usedSlot s.tls.keys key ≠ some (BitVec.allOnes 64)))
  | .exit _ | .set _ _ _ | .get _ _ | .go _ => .isTrue trivial

end TlsSys

/-! ### What a node holds -/

theorem toNat_add_one {seq : BitVec 64} (h : seq.toNat + 1 < 18446744073709551616) :
    (seq + 1#64).toNat = seq.toNat + 1 := by
  rw [BitVec.toNat_add, BitVec.toNat_ofNat]
  omega

/-- The value a node holds for a key with the counter `seq`. -/
def heldIn (node : Option TlsNode) (key : Nat) (seq : BitVec 64) : Nat :=
  (((node.bind fun n => n.table[key]?).filter fun e => e.seq = seq).map TlsValue.val).getD 0

theorem heldIn_some {n : TlsNode} {key : Nat} {seq : BitVec 64} {e : TlsValue} (he : n.table[key]? = some e) :
    heldIn (some n) key seq = if e.seq = seq then e.val else 0 := by
  rw [heldIn, Option.bind_some, he, Option.filter_some]
  by_cases hseq : e.seq = seq <;> simp [hseq]

theorem heldIn_none {n : TlsNode} {key : Nat} {seq : BitVec 64} (he : n.table[key]? = none) :
    heldIn (some n) key seq = 0 := by
  rw [heldIn, Option.bind_some, he]
  rfl

/-- A node whose values are stamped with counters that the slots have had. -/
structure NodeOk (table : List (BitVec 64)) (n : TlsNode) : Prop where
  size : n.tableSize = n.table.length
  pos : 0 < n.tableSize
  le : n.tableSize ≤ table.length
  old : ∀ (key : Nat) (e : TlsValue) (seq : BitVec 64), n.table[key]? = some e → table[key]? = some seq →
    e.seq.toNat ≤ seq.toNat

namespace NodeOk

variable {table : List (BitVec 64)} {n : TlsNode} {key value : Nat} {seq q : BitVec 64}

theorem create (h : 0 < table.length) :
    ∃ n, TlsNode.create table.length table.length table.length = some n ∧ NodeOk table n ∧
      ∀ key seq, heldIn (some n) key seq = 0 := by
  refine ⟨_, if_pos rfl, ⟨by simp, h, Nat.le_refl _, fun key e seq he _ => ?_⟩, fun key seq => ?_⟩
  · rw [List.getElem?_replicate] at he
    split_ifs at he
    obtain rfl := Option.some.inj he
    exact Nat.zero_le _
  · by_cases hk : key < table.length
    · rw [heldIn_some (List.getElem?_replicate_of_lt hk)]
      simp
    · exact heldIn_none (List.getElem?_eq_none (by simpa using hk))

/-- A larger table holds the same values. -/
theorem grow (h : NodeOk table n) : ∃ n', n.grow table.length = some n' ∧ NodeOk table n' ∧
    n'.tableSize = table.length ∧ ∀ key seq, heldIn (some n') key seq = heldIn (some n) key seq := by
  have hcond : ¬ (n.tableSize = 0 ∨ n.tableSize > table.length ∨ n.tableSize > n.table.length) := by
    have := h.pos
    have := h.le
    have := h.size
    omega
  have htake : n.table.take n.tableSize = n.table := by rw [h.size, List.take_length]
  have hle := h.le
  have hsize := h.size
  refine ⟨_, if_neg hcond, ⟨?_, ?_, Nat.le_refl _, fun key e seq he hseq => ?_⟩, rfl, fun key seq => ?_⟩
  · simp only [htake, List.length_append, List.length_replicate]
    omega
  · have := h.pos
    show 0 < table.length
    omega
  · simp only [htake] at he
    by_cases hk : key < n.table.length
    · rw [List.getElem?_append_left hk] at he
      exact h.old key e seq he hseq
    · rw [List.getElem?_append_right (Nat.le_of_not_lt hk), List.getElem?_replicate] at he
      split_ifs at he
      obtain rfl := Option.some.inj he
      exact Nat.zero_le _
  · simp only [htake]
    by_cases hk : key < n.table.length
    · have he := List.getElem?_eq_getElem hk
      rw [heldIn_some he, heldIn_some ((List.getElem?_append_left hk).trans he)]
    · have hnone : n.table[key]? = none := List.getElem?_eq_none (Nat.le_of_not_lt hk)
      rw [heldIn_none hnone]
      rcases he : (n.table ++ List.replicate (table.length - n.tableSize) ⟨0#64, 0⟩)[key]? with _ | e
      · exact heldIn_none he
      · rw [heldIn_some he]
        rw [List.getElem?_append_right (Nat.le_of_not_lt hk), List.getElem?_replicate] at he
        split_ifs at he
        obtain rfl := Option.some.inj he
        simp

theorem set (h : NodeOk table n) {v : TlsValue} (hseq : table[key]? = some seq)
    (hv : v.seq.toNat ≤ seq.toNat) : NodeOk table { n with table := n.table.set key v } := by
  refine ⟨by simp [h.size], h.pos, h.le, fun k e sq he hsq => ?_⟩
  rw [List.getElem?_set] at he
  split_ifs at he with hk hlt
  · obtain rfl := Option.some.inj he
    subst hk
    obtain rfl := Option.some.inj (hseq.symm.trans hsq)
    exact hv
  · exact h.old k e sq he hsq

theorem heldIn_set (h : NodeOk table n) (hkey : key < n.tableSize) (v : TlsValue) (k : Nat) (sq : BitVec 64) :
    heldIn (some { n with table := n.table.set key v }) k sq =
      if k = key then if v.seq = sq then v.val else 0 else heldIn (some n) k sq := by
  have hlt : key < n.table.length := h.size ▸ hkey
  by_cases hk : k = key
  · subst hk
    rw [if_pos rfl]
    exact heldIn_some (List.getElem?_set_self hlt)
  · rw [if_neg hk, heldIn, heldIn, Option.bind_some, Option.bind_some, List.getElem?_set_ne (Ne.symm hk)]

theorem put (h : NodeOk table n) (value : Nat) (hseq : table[key]? = some seq) (hq : q.toNat ≤ seq.toNat) :
    ∃ n', n.put table.length key ⟨q, value⟩ = some n' ∧ NodeOk table n' ∧
      ∀ k sq, heldIn (some n') k sq = if k = key then if q = sq then value else 0 else heldIn (some n) k sq := by
  have hlt : key < table.length := (List.getElem?_eq_some_iff.1 hseq).1
  have hroom : ∃ m, (if key ≥ n.tableSize then n.grow table.length else some n) = some m ∧ NodeOk table m ∧
      key < m.tableSize ∧ ∀ k sq, heldIn (some m) k sq = heldIn (some n) k sq := by
    by_cases hkey : key ≥ n.tableSize
    · obtain ⟨m, hgrow, hm, hsize, hsame⟩ := h.grow
      exact ⟨m, by rw [if_pos hkey, hgrow], hm, hsize ▸ hlt, hsame⟩
    · exact ⟨n, if_neg hkey, h, Nat.lt_of_not_le hkey, fun _ _ => rfl⟩
  obtain ⟨m, hfound, hm, hkm, hsame⟩ := hroom
  have hcond : ¬ (key ≥ m.tableSize ∨ key ≥ m.table.length) := by
    have := hm.size
    omega
  refine ⟨{ m with table := m.table.set key ⟨q, value⟩ }, ?_, hm.set hseq hq, fun k sq => ?_⟩
  · rw [TlsNode.put, hfound, Option.bind_some, if_neg hcond]
  · rw [hm.heldIn_set hkm, hsame]

/-- A get returns the value held; a value it drops was not to be seen again. -/
theorem get (h : NodeOk table n) (hseq : table[key]? = some seq) (hq : q.toNat ≤ seq.toNat)
    (hold : ∀ e, n.table[key]? = some e → e.seq.toNat ≤ q.toNat) :
    ∃ n', n.get key q = some (heldIn (some n) key q, n') ∧ NodeOk table n' ∧
      ∀ (k : Nat) (sq : BitVec 64), table[k]? = some sq → heldIn (some n') k sq = heldIn (some n) k sq := by
  by_cases hkey : key ≥ n.tableSize
  · have hnone : n.table[key]? = none := List.getElem?_eq_none (h.size ▸ hkey)
    refine ⟨n, ?_, h, fun _ _ _ => rfl⟩
    rw [TlsNode.get, if_pos hkey, heldIn_none hnone]
  have hlt : key < n.table.length := h.size ▸ Nat.lt_of_not_le hkey
  have he := List.getElem?_eq_getElem hlt
  rw [TlsNode.get, if_neg hkey, he, heldIn_some he, Option.map_some]
  by_cases hdrop : (n.table[key]).val ≠ 0 ∧ (n.table[key]).seq ≠ q
  · rw [if_pos hdrop, if_neg hdrop.2]
    have hle : (n.table[key]).seq.toNat ≤ seq.toNat := h.old key _ seq he hseq
    refine ⟨_, rfl, h.set hseq hle, fun k sq hsq => ?_⟩
    rw [h.heldIn_set (Nat.lt_of_not_le hkey)]
    by_cases hk : k = key
    · subst hk
      obtain rfl := Option.some.inj (hseq.symm.trans hsq)
      rw [if_pos rfl, heldIn_some he]
      -- the entry is older than the counter read, and so than the slot
      have hne : (n.table[k]).seq ≠ seq := by
        rintro rfl
        exact hdrop.2 (BitVec.eq_of_toNat_eq (Nat.le_antisymm (hold _ he) hq))
      rw [if_neg hne, if_neg hne]
    · rw [if_neg hk]
  · rw [if_neg hdrop]
    refine ⟨n, ?_, h, fun _ _ _ => rfl⟩
    by_cases hsame : (n.table[key]).seq = q
    · rw [if_pos hsame]
    · have hval : (n.table[key]).val = 0 := by
        by_contra hval
        exact hdrop ⟨hval, hsame⟩
      rw [if_neg hsame, hval]

theorem countUp (h : NodeOk table n) (hseq : table[key]? = some seq) (hwrap : seq.toNat + 1 < 18446744073709551616) :
    NodeOk (table.modify key (· + 1#64)) n := by
  refine ⟨h.size, h.pos, by rw [List.length_modify]; exact h.le, fun k e sq he hsq => ?_⟩
  obtain ⟨old, hold, rfl⟩ := getElem?_countUp.1 hsq
  have hle := h.old k e old he hold
  split_ifs with hk
  · subst hk
    obtain rfl := Option.some.inj (hseq.symm.trans hold)
    rw [toNat_add_one hwrap]
    omega
  · exact hle

theorem more (h : NodeOk table n) (l : List (BitVec 64)) : NodeOk (table ++ l) n := by
  refine ⟨h.size, h.pos, ?_, fun k e sq he hsq => ?_⟩
  · rw [List.length_append]
    exact Nat.le_trans h.le (Nat.le_add_right _ _)
  · have hk : k < table.length := Nat.lt_of_lt_of_le (List.getElem?_eq_some_iff.1 he).1 (h.size ▸ h.le)
    rw [List.getElem?_append_left hk] at hsq
    exact h.old k e sq he hsq

end NodeOk

/-! ### What a thread finds -/

/-- The set that is under way: the key, the value and the counter that was read. -/
def TlsPhase.pending : TlsPhase → Option (Nat × Nat × BitVec 64)
  | set key value seq | setClear key value seq _ | setSize key value seq _ _ | setStore key value seq =>
    some (key, value, seq)
  | _ => none

/-- What a thread has read of its node and of the table. -/
def TlsPhase.Finds (table : List (BitVec 64)) (node : Option TlsNode) : TlsPhase → Prop
  | get key q want => heldIn node key q = want ∧ (∃ seq, table[key]? = some seq ∧ q.toNat ≤ seq.toNat) ∧
    ∀ n e, node = some n → n.table[key]? = some e → e.seq.toNat ≤ q.toNat
  | setClear _ _ _ alloc => alloc = table.length ∧ node = none
  | setSize _ _ _ alloc clear => alloc = table.length ∧ clear = table.length ∧ node = none
  | setStore _ _ _ => node ≠ none
  | _ => True

/-- The node of a thread holds what the thread has set `last`, but for a set that is under way. -/
structure PhaseOk (table : List (BitVec 64)) (node : Option TlsNode) (last : Nat → Nat) (ph : TlsPhase) : Prop where
  own : ∀ (key : Nat) (seq : BitVec 64), table[key]? = some seq → keyUsed seq = true →
    (∀ v q, ph.pending ≠ some (key, v, q)) → heldIn node key seq = last key
  pend : ∀ key v q, ph.pending = some (key, v, q) → ∃ seq, table[key]? = some seq ∧ q.toNat ≤ seq.toNat ∧
    (keyUsed seq = true → last key = if q = seq then v else 0)
  finds : ph.Finds table node

namespace PhaseOk

variable {table : List (BitVec 64)} {node : Option TlsNode} {last last' : Nat → Nat} {ph : TlsPhase} {key : Nat}
  {seq : BitVec 64}

/-- A key that is created or deleted has no value afterwards. -/
theorem countUp (h : PhaseOk table node last ph) (hnode : ∀ n, node = some n → NodeOk table n)
    (hseq : table[key]? = some seq) (hwrap : seq.toNat + 1 < 18446744073709551616) (hkey : last' key = 0)
    (hother : ∀ k, k ≠ key → last' k = last k) : PhaseOk (table.modify key (· + 1#64)) node last' ph := by
  refine ⟨fun k sq hsq hused hpend => ?_, fun k v q hpend => ?_, ?_⟩
  · obtain ⟨old, hold, rfl⟩ := getElem?_countUp.1 hsq
    by_cases hk : key = k
    · subst hk
      rw [if_pos rfl, hkey]
      obtain rfl := Option.some.inj (hseq.symm.trans hold)
      rcases node with _ | n
      · rfl
      rcases he : n.table[key]? with _ | e
      · exact heldIn_none he
      · have hle := (hnode n rfl).old key e seq he hseq
        rw [heldIn_some he, if_neg]
        rintro heq
        rw [heq, toNat_add_one hwrap] at hle
        omega
    · rw [if_neg hk] at hused ⊢
      rw [hother k (Ne.symm hk)]
      exact h.own k old hold hused hpend
  · obtain ⟨old, hold, hle, hlast⟩ := h.pend k v q hpend
    refine ⟨_, getElem?_countUp.2 ⟨old, hold, rfl⟩, ?_, ?_⟩
    · split_ifs with hk
      · subst hk
        obtain rfl := Option.some.inj (hseq.symm.trans hold)
        rw [toNat_add_one hwrap]
        omega
      · exact hle
    · by_cases hk : key = k
      · subst hk
        obtain rfl := Option.some.inj (hseq.symm.trans hold)
        intro _
        rw [hkey, if_pos rfl, if_neg]
        rintro rfl
        rw [toNat_add_one hwrap] at hle
        omega
      · rw [if_neg hk, hother k (Ne.symm hk)]
        exact hlast
  · have hfinds := h.finds
    rcases ph with _ | _ | ⟨k, q, want⟩ | _ | _ | _ | _ <;>
      simp only [TlsPhase.Finds, List.length_modify] at hfinds ⊢ <;> try exact hfinds
    obtain ⟨hheld, ⟨old, hold, hle⟩, hstamp⟩ := hfinds
    refine ⟨hheld, ⟨_, getElem?_countUp.2 ⟨old, hold, rfl⟩, ?_⟩, hstamp⟩
    split_ifs with hk
    · subst hk
      obtain rfl := Option.some.inj (hseq.symm.trans hold)
      rw [toNat_add_one hwrap]
      omega
    · exact hle

theorem more (h : PhaseOk table node last ph) (hsizing : ph.sizing = false) (n : Nat) :
    PhaseOk (table ++ List.replicate n 0#64) node last ph := by
  have hin : ∀ (k : Nat) (sq : BitVec 64), table[k]? = some sq → (table ++ List.replicate n 0#64)[k]? = some sq :=
    fun k sq hk => (List.getElem?_append_left (List.getElem?_eq_some_iff.1 hk).1).trans hk
  refine ⟨fun k sq hsq hused hpend => ?_, fun k v q hpend => ?_, ?_⟩
  · by_cases hk : k < table.length
    · rw [List.getElem?_append_left hk] at hsq
      exact h.own k sq hsq hused hpend
    · rw [List.getElem?_append_right (Nat.le_of_not_lt hk), List.getElem?_replicate] at hsq
      split_ifs at hsq
      obtain rfl := Option.some.inj hsq
      cases hused
  · obtain ⟨sq, hsq, hrest⟩ := h.pend k v q hpend
    exact ⟨sq, hin k sq hsq, hrest⟩
  · have hfinds := h.finds
    rcases ph with _ | _ | ⟨k, q, want⟩ | _ | _ | _ | _ <;> try exact hfinds
    · obtain ⟨hheld, ⟨sq, hsq, hle⟩, hstamp⟩ := hfinds
      exact ⟨hheld, ⟨sq, hin k sq hsq, hle⟩, hstamp⟩
    · cases hsizing
    · cases hsizing

end PhaseOk

/-! ### Every step keeps the threads apart -/

namespace TlsSys

structure TlsInv (s : TlsSys) : Prop where
  fault : s.fault = false
  keys : ∃ used, IdPool.Fits tlsPool s.tls.keys used ∧ Counted s.tls.keys.table used
  pos : 0 < s.tls.keys.table.length
  nodes : ∀ id n, s.tls.nodes id = some n → NodeOk s.tls.keys.table n
  unset : ∀ t (key : Nat), (∀ seq, s.tls.keys.table[key]? = some seq → keyUsed seq = false) → lastSet t key s.log = 0
  log : ∀ t key v, TlsEvent.set t key v ∈ s.log → t < s.threads.length
  ids : ∀ (t u : Nat) (th th' : TlsThread), s.threads[t]? = some th → s.threads[u]? = some th' → th.phase ≠ .exited →
    th'.phase ≠ .exited → th.id = th'.id → t = u
  each : ∀ (t : Nat) (th : TlsThread), s.threads[t]? = some th → th.phase ≠ .exited →
    PhaseOk s.tls.keys.table (s.tls.nodes th.id) (fun key => lastSet t key s.log) th.phase

variable {s s' : TlsSys} {t : Nat} {th : TlsThread}

/-- A step of thread `t` on its own node: no other thread that is alive has its id. -/
theorem TlsInv.move (h : s.TlsInv) (ht : s.threads[t]? = some th) (hlive : th.phase ≠ .exited) {node : Option TlsNode}
    {ph : TlsPhase} {log : List TlsEvent} (hnode : ∀ n, node = some n → NodeOk s.tls.keys.table n)
    (hlog : ∀ u key, u ≠ t → lastSet u key log = lastSet u key s.log)
    (hsets : ∀ u key v, TlsEvent.set u key v ∈ log → TlsEvent.set u key v ∈ s.log ∨ u = t)
    (hunset : ∀ key : Nat, (∀ seq, s.tls.keys.table[key]? = some seq → keyUsed seq = false) → lastSet t key log = 0)
    (hok : ph ≠ .exited → PhaseOk s.tls.keys.table node (fun key => lastSet t key log) ph) :
    TlsInv { s with
      tls := { s.tls with nodes := Function.update s.tls.nodes th.id node }
      threads := s.threads.set t ⟨th.id, ph⟩
      log := log } := by
  have hself : (s.threads.set t ⟨th.id, ph⟩)[t]? = some ⟨th.id, ph⟩ := getElem?_set_self ht
  have hother : ∀ u, u ≠ t → (s.threads.set t ⟨th.id, ph⟩)[u]? = s.threads[u]? := fun u hu => getElem?_set_ne (Ne.symm hu)
  have hlt : t < s.threads.length := (List.getElem?_eq_some_iff.1 ht).1
  refine ⟨h.fault, h.keys, h.pos, fun id n hn => ?_, fun u key hkey => ?_, fun u key v hm => ?_,
    fun u w th₁ th₂ h₁ h₂ hl₁ hl₂ hid => ?_, fun u th' hu hl => ?_⟩
  · replace hn : Function.update s.tls.nodes th.id node id = some n := hn
    by_cases hid : id = th.id
    · rw [hid, Function.update_self] at hn
      exact hnode n hn
    · rw [Function.update_of_ne hid] at hn
      exact h.nodes id n hn
  · by_cases hu : u = t
    · exact hu ▸ hunset key hkey
    · rw [hlog u key hu]
      exact h.unset u key hkey
  · rw [List.length_set]
    rcases hsets u key v hm with hm | rfl
    · exact h.log u key v hm
    · exact hlt
  · -- a thread that is alive after the step was so before it, with the same id
    have hback : ∀ (u : Nat) (th' : TlsThread), (s.threads.set t ⟨th.id, ph⟩)[u]? = some th' → th'.phase ≠ .exited →
        ∃ th₀, s.threads[u]? = some th₀ ∧ th₀.phase ≠ .exited ∧ th₀.id = th'.id := by
      intro u th' hu hl
      by_cases hut : u = t
      · subst hut
        obtain rfl := Option.some.inj (hself.symm.trans hu)
        exact ⟨th, ht, hlive, rfl⟩
      · exact ⟨th', (hother u hut).symm.trans hu, hl, rfl⟩
    obtain ⟨a, ha, hla, hida⟩ := hback u th₁ h₁ hl₁
    obtain ⟨b, hb, hlb, hidb⟩ := hback w th₂ h₂ hl₂
    exact h.ids u w a b ha hb hla hlb (by rw [hida, hidb, hid])
  · by_cases hut : u = t
    · subst hut
      obtain rfl := Option.some.inj (hself.symm.trans hu)
      show PhaseOk _ (Function.update s.tls.nodes th.id node th.id) _ ph
      rw [Function.update_self]
      exact hok hl
    · have hu' := (hother u hut).symm.trans hu
      have hid : th'.id ≠ th.id := fun hid => hut (h.ids u t th' th hu' ht hl hlive hid)
      have heach := h.each u th' hu' hl
      show PhaseOk _ (Function.update s.tls.nodes th.id node th'.id) (fun key => lastSet u key log) th'.phase
      rw [Function.update_of_ne hid]
      simpa only [hlog u _ hut] using heach

theorem TlsInv.goto (h : s.TlsInv) (ht : s.threads[t]? = some th) (hlive : th.phase ≠ .exited) {ph : TlsPhase}
    (hok : ph ≠ .exited → PhaseOk s.tls.keys.table (s.tls.nodes th.id) (fun key => lastSet t key s.log) ph) :
    (s.goto t th ph).TlsInv := by
  have hmove := h.move ht hlive (h.nodes th.id) (fun _ _ _ => rfl) (fun _ _ _ hm => .inl hm) (h.unset t) hok
  rwa [Function.update_eq_self] at hmove

theorem TlsInv.gotoNode (h : s.TlsInv) (ht : s.threads[t]? = some th) (hlive : th.phase ≠ .exited) {n : TlsNode}
    {ph : TlsPhase} (hn : NodeOk s.tls.keys.table n)
    (hok : PhaseOk s.tls.keys.table (some n) (fun key => lastSet t key s.log) ph) : (s.gotoNode t th n ph).TlsInv :=
  h.move ht hlive (fun _ hm => Option.some.inj hm ▸ hn) (fun _ _ _ => rfl) (fun _ _ _ hm => .inl hm) (h.unset t)
    fun _ => hok

theorem exists_of_idle (h : s.idle t = true) : ∃ th, s.threads[t]? = some th ∧ th.phase = .idle := by
  obtain ⟨th, hth, hph⟩ := (Option.any_eq_true ..).1 h
  exact ⟨th, hth, of_decide_eq_true hph⟩

theorem usedSlot_some {p : IdPool (BitVec 64)} {key : Int} {seq : BitVec 64} (h : usedSlot p key = some seq) :
    ¬ key < 0 ∧ p.table[key.toNat]? = some seq ∧ keyUsed seq = true := by
  unfold usedSlot at h
  split_ifs at h with hrange
  obtain ⟨hseq, hused⟩ := Option.filter_eq_some_iff.1 h
  exact ⟨fun hneg => hrange (.inl hneg), hseq, hused⟩

theorem unused_of_usedSlot {p : IdPool (BitVec 64)} {key : Int} (h : usedSlot p key = none) (hneg : ¬ key < 0) :
    ∀ seq, p.table[key.toNat]? = some seq → keyUsed seq = false := by
  intro seq hseq
  have hlt := (List.getElem?_eq_some_iff.1 hseq).1
  have hrange : ¬ (key < 0 ∨ key ≥ p.table.length) := by omega
  rw [usedSlot, if_neg hrange, hseq, Option.filter_some] at h
  simpa using h

/-- A thread whose id has no node has set nothing. -/
theorem TlsInv.start (h : s.TlsInv) {id : Nat} (hnode : (s.tls.nodes id).isNone = true)
    (hfree : ∀ (u : Nat) (th : TlsThread), s.threads[u]? = some th → th.phase ≠ .exited → th.id ≠ id) :
    TlsInv { s with threads := s.threads ++ [⟨id, .idle⟩] } := by
  have hsplit : ∀ (u : Nat) (th : TlsThread), (s.threads ++ [⟨id, .idle⟩])[u]? = some th →
      s.threads[u]? = some th ∨ (u = s.threads.length ∧ th = ⟨id, .idle⟩) := by
    intro u th hu
    exact (getElem?_concat_cases hu).imp And.right fun h => h
  refine ⟨h.fault, h.keys, h.pos, h.nodes, h.unset, fun t key v hm => ?_, fun t u th th' ht hu hl hl' hid => ?_,
    fun t th ht hl => ?_⟩
  · rw [List.length_append]
    exact Nat.lt_add_right _ (h.log t key v hm)
  · rcases hsplit t th ht with ht | ⟨rfl, rfl⟩ <;> rcases hsplit u th' hu with hu | ⟨rfl, rfl⟩
    · exact h.ids t u th th' ht hu hl hl' hid
    · exact absurd hid (hfree t th ht hl)
    · exact absurd hid.symm (hfree u th' hu hl')
    · rfl
  · rcases hsplit t th ht with ht | ⟨rfl, rfl⟩
    · exact h.each t th ht hl
    · have hnew : ∀ key, lastSet s.threads.length key s.log = 0 := by
        intro key
        have hlog := h.log s.threads.length key
        revert hlog
        induction s.log with
        | nil => exact fun _ => rfl
        | cons e log ih =>
          intro hlog
          have ih' := ih fun v hv => hlog v (List.mem_cons_of_mem _ hv)
          rcases e with k | k | ⟨u, k, v⟩
          · simp [lastSet, ih']
          · simp [lastSet, ih']
          · rw [lastSet, if_neg, ih']
            rintro ⟨rfl, rfl⟩
            exact Nat.lt_irrefl _ (hlog v List.mem_cons_self)
      refine ⟨fun key seq _ _ _ => ?_, (fun key v q hpend => by cases hpend), trivial⟩
      simp only [Option.isNone_iff_eq_none.1 hnode, hnew]
      rfl

/-- A slot is counted up, for a key that is created or deleted. -/
theorem TlsInv.countUp (h : s.TlsInv) {key : Nat} {seq : BitVec 64} {p : IdPool (BitVec 64)} {log : List TlsEvent}
    (hseq : s.tls.keys.table[key]? = some seq) (hwrap : seq.toNat + 1 < 18446744073709551616)
    (hp : p.table = s.tls.keys.table.modify key (· + 1#64))
    (hkeys : ∃ used, IdPool.Fits tlsPool p used ∧ Counted p.table used) (hkey : ∀ t, lastSet t key log = 0)
    (hother : ∀ t k, k ≠ key → lastSet t k log = lastSet t k s.log)
    (hsets : ∀ t k v, TlsEvent.set t k v ∈ log → TlsEvent.set t k v ∈ s.log) :
    TlsInv { s with tls := { s.tls with keys := p }, log := log } := by
  refine ⟨h.fault, hkeys, ?_, fun id n hn => ?_, fun t k hk => ?_, fun t k v hm => h.log t k v (hsets t k v hm), h.ids,
    fun t th ht hl => ?_⟩
  · show 0 < p.table.length
    rw [hp, List.length_modify]
    exact h.pos
  · show NodeOk p.table n
    rw [hp]
    exact (h.nodes id n hn).countUp hseq hwrap
  · by_cases hkk : k = key
    · exact hkk ▸ hkey t
    · rw [hother t k hkk]
      refine h.unset t k fun sq hsq => hk sq ?_
      show p.table[k]? = some sq
      rw [hp, getElem?_countUp]
      exact ⟨sq, hsq, (if_neg (Ne.symm hkk)).symm⟩
  · show PhaseOk p.table (s.tls.nodes th.id) (fun key => lastSet t key log) th.phase
    rw [hp]
    exact (h.each t th ht hl).countUp (h.nodes th.id) hseq hwrap (hkey t) (hother t)

theorem TlsInv.more (h : s.TlsInv) {p : IdPool (BitVec 64)} (hp : p.table = s.tls.keys.table ++ List.replicate 16 0#64)
    (hkeys : ∃ used, IdPool.Fits tlsPool p used ∧ Counted p.table used)
    (hsizing : ∀ th ∈ s.threads, th.phase.sizing = false) : TlsInv { s with tls := { s.tls with keys := p } } := by
  refine ⟨h.fault, hkeys, ?_, fun id n hn => ?_, fun t k hk => h.unset t k fun sq hsq => hk sq ?_, h.log, h.ids,
    fun t th ht hl => ?_⟩
  · show 0 < p.table.length
    rw [hp, List.length_append]
    exact Nat.lt_add_right _ h.pos
  · show NodeOk p.table n
    rw [hp]
    exact (h.nodes id n hn).more _
  · show p.table[k]? = some sq
    rw [hp, List.getElem?_append_left (List.getElem?_eq_some_iff.1 hsq).1]
    exact hsq
  · show PhaseOk p.table _ _ _
    rw [hp]
    exact (h.each t th ht hl).more (hsizing th (List.mem_of_getElem? ht)) 16

theorem lastSet_cons_create {u k key : Nat} {log : List TlsEvent} (h : key ≠ k) :
    lastSet u key (.create k :: log) = lastSet u key log := if_neg (Ne.symm h)

theorem lastSet_cons_delete {u k key : Nat} {log : List TlsEvent} (h : key ≠ k) :
    lastSet u key (.delete k :: log) = lastSet u key log := if_neg (Ne.symm h)

theorem TlsInv.create (h : s.TlsInv) {memBits memTable : Bool}
    (hclean : s.tls.keys.bits.findFirstZeroBit = none → ∀ th ∈ s.threads, th.phase.sizing = false)
    (hs : s.step (.create t memBits memTable) = some s') : s'.TlsInv := by
  simp only [TlsSys.step, Option.ite_none_right_eq_some] at hs
  obtain ⟨-, hs⟩ := hs
  obtain ⟨used, hfit, hc⟩ := h.keys
  rcases allocTlsKey_cases hfit memBits memTable with ⟨key, p, q, hok, hfree, hfit', htable, hlt, hgrown⟩ | herr
  · rw [hok] at hs
    cases hs
    -- first the table grows, then the slot is counted up
    have hq : TlsInv { s with tls := { s.tls with keys := q } } ∧ Counted q.table used := by
      rcases hgrown with rfl | ⟨hfull, hfitq, hmore⟩
      · exact ⟨h, hc⟩
      · have hcq : Counted q.table used := by
          rw [hmore]
          exact hc.grow hfit.lt 16
        exact ⟨h.more hmore ⟨used, hfitq, hcq⟩ (hclean hfull), hcq⟩
    obtain ⟨hinv, hcq⟩ := hq
    have hseq : q.table[key]? = some q.table[key] := List.getElem?_eq_getElem hlt
    have hcount : Counted p.table (used ++ [key]) := by
      rw [htable, hcq.modify_iff hlt fun i hi => by simp [hi]]
      simp [hfree]
    -- the slot was free, its counter is even
    have heven : keyUsed q.table[key] = false := by
      rw [Bool.eq_false_iff]
      exact fun hodd => hfree ((hcq key _ hseq).2 hodd)
    have hwrap : (q.table[key]).toNat + 1 < 18446744073709551616 := by
      have hlt := (q.table[key]).isLt
      have hodd := keyUsed_iff q.table[key]
      rw [heven] at hodd
      simp only [Bool.false_eq_true, false_iff] at hodd
      omega
    refine hinv.countUp hseq hwrap htable ⟨_, hfit', hcount⟩ (fun u => if_pos rfl)
      (fun u k hk => lastSet_cons_create hk) fun u k v hm => ?_
    rcases List.mem_cons.1 hm with hm | hm
    · cases hm
    · exact hm
  · rw [herr] at hs
    cases hs
    exact h

theorem TlsInv.delete (h : s.TlsInv) {key : Int} (hexists : (usedSlot s.tls.keys key).isSome = true)
    (hwrap : usedSlot s.tls.keys key ≠ some (BitVec.allOnes 64)) (hs : s.step (.delete t key) = some s') :
    s'.TlsInv := by
  simp only [TlsSys.step, Option.ite_none_right_eq_some] at hs
  obtain ⟨-, ⟨⟩⟩ := hs
  obtain ⟨used, hfit, hc⟩ := h.keys
  obtain ⟨seq, hslot⟩ := Option.isSome_iff_exists.1 hexists
  obtain ⟨hneg, hseq, hodd⟩ := usedSlot_some hslot
  have hlt : key.toNat < s.tls.keys.table.length := (List.getElem?_eq_some_iff.1 hseq).1
  have htable : (kTlsKeyDelete key s.tls.keys).table = s.tls.keys.table.modify key.toNat (· + 1#64) := by
    rw [kTlsKeyDelete, if_neg hneg, freeTlsKey, if_pos hlt]
  have hfit' : IdPool.Fits tlsPool (kTlsKeyDelete key s.tls.keys) (used.erase key.toNat) := by
    rw [kTlsKeyDelete, if_neg hneg]
    exact freeTlsKey_fits hfit
  have hcount : Counted (kTlsKeyDelete key s.tls.keys).table (used.erase key.toNat) := by
    have hin : key.toNat ∈ used := (hc _ _ hseq).2 hodd
    have hgone : key.toNat ∉ used.erase key.toNat := hfit.nodup.not_mem_erase
    rw [htable, hc.modify_iff hlt fun i hi => List.mem_erase_of_ne hi]
    simp [hin, hgone]
  have hmax : seq.toNat + 1 < 18446744073709551616 := by
    have hne : seq ≠ BitVec.allOnes 64 := fun heq => hwrap (heq ▸ hslot)
    have hlt := seq.isLt
    have hne' : seq.toNat ≠ 18446744073709551615 := fun heq => hne (BitVec.eq_of_toNat_eq (by rw [heq]; rfl))
    omega
  simp only [if_neg hneg]
  refine h.countUp hseq hmax htable ⟨_, hfit', hcount⟩ (fun u => if_pos rfl) (fun u k hk => lastSet_cons_delete hk)
    fun u k v hm => ?_
  rcases List.mem_cons.1 hm with hm | hm
  · cases hm
  · exact hm

theorem TlsInv.idle (h : s.TlsInv) (hidle : s.idle t = true) : ∃ th, s.threads[t]? = some th ∧ th.phase ≠ .exited ∧
    PhaseOk s.tls.keys.table (s.tls.nodes th.id) (fun k => lastSet t k s.log) .idle := by
  obtain ⟨th, ht, hph⟩ := exists_of_idle hidle
  have hlive : th.phase ≠ .exited := by
    rw [hph]
    exact TlsPhase.noConfusion
  exact ⟨th, ht, hlive, hph ▸ h.each t th ht hlive⟩

theorem TlsInv.set (h : s.TlsInv) {key : Int} {value : Nat} (hs : s.step (.set t key value) = some s') : s'.TlsInv := by
  simp only [TlsSys.step, Option.ite_none_right_eq_some] at hs
  obtain ⟨hidle, hs⟩ := hs
  obtain ⟨th, ht, hlive, hok⟩ := h.idle hidle
  rcases hslot : usedSlot s.tls.keys key with _ | seq
  · rw [hslot] at hs
    cases hs
    exact h
  simp only [hslot, ht, Option.map_some, Option.some.injEq] at hs
  subst hs
  obtain ⟨-, hseq, hodd⟩ := usedSlot_some hslot
  have hlast : ∀ k, lastSet t k (.set t key.toNat value :: s.log) = if k = key.toNat then value else lastSet t k s.log := by
    intro k
    simp only [lastSet, true_and, eq_comm]
  have hmove := @TlsInv.move s t th h ht hlive (s.tls.nodes th.id) (.set key.toNat value seq)
    (.set t key.toNat value :: s.log) (h.nodes th.id) (fun u k hu => ?_) (fun u k v hm => ?_) (fun k hk => ?_)
    fun _ => ?_
  · rwa [Function.update_eq_self] at hmove
  · exact if_neg fun hc => hu hc.1.symm
  · rcases List.mem_cons.1 hm with hm | hm
    · cases hm
      exact .inr rfl
    · exact .inl hm
  · have hne : k ≠ key.toNat := by
      rintro rfl
      rw [hk seq hseq] at hodd
      cases hodd
    rw [hlast, if_neg hne]
    exact h.unset t k hk
  · refine ⟨fun k sq hsq hused hpend => ?_, fun k v q hpend => ?_, trivial⟩
    · have hne : k ≠ key.toNat := by
        rintro rfl
        exact hpend value seq rfl
      rw [hlast, if_neg hne]
      exact hok.own k sq hsq hused fun v q hp => by cases hp
    · cases hpend
      refine ⟨seq, hseq, Nat.le_refl _, fun _ => ?_⟩
      rw [hlast, if_pos rfl, if_pos rfl]

theorem TlsInv.get (h : s.TlsInv) {key : Int} (hs : s.step (.get t key) = some s') : s'.TlsInv := by
  simp only [TlsSys.step, Option.ite_none_right_eq_some] at hs
  obtain ⟨hidle, hs⟩ := hs
  obtain ⟨th, ht, hlive, hok⟩ := h.idle hidle
  rcases hslot : usedSlot s.tls.keys key with _ | seq
  · rw [hslot] at hs
    cases hs
    exact h
  simp only [hslot, ht, Option.map_some, Option.some.injEq] at hs
  subst hs
  obtain ⟨-, hseq, hodd⟩ := usedSlot_some hslot
  refine h.goto ht hlive fun _ => ⟨fun k sq hsq hused _ => ?_, (fun k v q hp => by cases hp), ?_⟩
  · exact hok.own k sq hsq hused fun v q hp => by cases hp
  · refine ⟨?_, ⟨seq, hseq, Nat.le_refl _⟩, fun n e hn he => (h.nodes th.id n hn).old key.toNat e seq he hseq⟩
    exact hok.own key.toNat seq hseq hodd fun v q hp => by cases hp

/-- A thread that has stored the value is done with the call. -/
theorem TlsInv.go (h : s.TlsInv) (ht : s.threads[t]? = some th) (hs : s.go t th = some s') : s'.TlsInv := by
  obtain ⟨id, ph⟩ := th
  have hlive : ph ≠ .exited := by
    rintro rfl
    cases hs
  have hok := h.each t _ ht hlive
  rcases ph with _ | _ | ⟨key, q, want⟩ | ⟨key, value, q⟩ | ⟨key, value, q, alloc⟩ | ⟨key, value, q, alloc, clear⟩ |
    ⟨key, value, q⟩ <;> simp only [TlsSys.go] at hs
  · cases hs
  · cases hs
  case get =>
    obtain ⟨hheld, ⟨seq, hseq, hle⟩, hstamp⟩ := hok.finds
    rcases hnode : s.tls.nodes id with _ | n
    · simp only [hnode, Option.some.injEq] at hs
      subst hs
      exact h.goto ht hlive fun _ => ⟨hok.own, (fun k v q hp => by cases hp), trivial⟩
    obtain ⟨n', hget, hn', hsame⟩ := (h.nodes id n hnode).get hseq hle fun e he => hstamp n e hnode he
    simp only [hnode, hget, Option.some.injEq] at hs
    subst hs
    refine h.gotoNode ht hlive hn' ⟨fun k sq hsq hused hp => ?_, (fun k v q hp => by cases hp), trivial⟩
    rw [hsame k sq hsq]
    have hown := hok.own k sq hsq hused hp
    rwa [hnode] at hown
  case set =>
    rcases hnode : s.tls.nodes id with _ | n
    · simp only [hnode, Option.some.injEq] at hs
      subst hs
      exact h.goto ht hlive fun _ => ⟨hok.own, hok.pend, rfl, hnode⟩
    · simp only [hnode, Option.some.injEq] at hs
      subst hs
      refine h.goto ht hlive fun _ => ⟨hok.own, hok.pend, ?_⟩
      show s.tls.nodes id ≠ none
      rw [hnode]
      exact Option.some_ne_none n
  case setClear =>
    cases hs
    obtain ⟨rfl, hnone⟩ := hok.finds
    exact h.goto ht hlive fun _ => ⟨hok.own, hok.pend, rfl, rfl, hnone⟩
  case setSize =>
    obtain ⟨rfl, rfl, hnone⟩ := hok.finds
    obtain ⟨n, hcreate, hn, hzero⟩ := NodeOk.create h.pos
    simp only [TlsSys.size, hcreate, Option.some.injEq] at hs
    subst hs
    refine h.gotoNode ht hlive hn ⟨fun k sq hsq hused hp => ?_, hok.pend, Option.some_ne_none n⟩
    rw [hzero]
    have hown := hok.own k sq hsq hused hp
    rwa [hnone] at hown
  case setStore =>
    obtain ⟨n, hnode⟩ := Option.ne_none_iff_exists'.1 hok.finds
    obtain ⟨seq, hseq, hle, hlast⟩ := hok.pend key value q rfl
    obtain ⟨n', hput, hn', hheld⟩ := (h.nodes id n hnode).put value hseq hle
    simp only [hnode, TlsSys.size, Option.bind_some, hput, Option.some.injEq] at hs
    subst hs
    refine h.gotoNode ht hlive hn' ⟨fun k sq hsq hused _ => ?_, (fun k v q hp => by cases hp), trivial⟩
    rw [hheld]
    by_cases hk : k = key
    · subst hk
      obtain rfl := Option.some.inj (hseq.symm.trans hsq)
      rw [if_pos rfl]
      exact (hlast hused).symm
    · rw [if_neg hk]
      have hown := hok.own k sq hsq hused fun v q' hp => hk (by cases hp; rfl)
      rwa [hnode] at hown

theorem TlsInv.step {a : TlsAct} (h : s.TlsInv) (hdel : s.DeletesOnce a) (hclean : s.Clean a) (hs : s.step a = some s') :
    s'.TlsInv := by
  rcases a with id | t | ⟨t, memBits, memTable⟩ | ⟨t, key⟩ | ⟨t, key, value⟩ | ⟨t, key⟩ | t
  · simp only [TlsSys.step] at hs
    split_ifs at hs with hany
    cases hs
    refine h.start hclean fun u th hu hl hid => hany (List.any_eq_true.2 ⟨th, List.mem_of_getElem? hu, ?_⟩)
    simp [hid, hl]
  · simp only [TlsSys.step, Option.ite_none_right_eq_some] at hs
    obtain ⟨hidle, hs⟩ := hs
    obtain ⟨th, ht, hph⟩ := exists_of_idle hidle
    rw [ht] at hs
    cases hs
    exact h.goto ht (by rw [hph]; exact TlsPhase.noConfusion) fun hne => absurd rfl hne
  · exact h.create hclean hs
  · exact h.delete hdel hclean hs
  · exact h.set hs
  · exact h.get hs
  · obtain ⟨th, ht, hs⟩ := Option.bind_eq_some_iff.1 hs
    exact h.go ht hs

theorem TlsInv.returns {a : TlsAct} (h : s.TlsInv) {want got : Nat} (hr : s.returns a = some (want, got)) : got = want := by
  rcases a with _ | _ | _ | _ | _ | ⟨t, key⟩ | t
  case get =>
    simp only [TlsSys.returns, Option.ite_none_right_eq_some] at hr
    obtain ⟨⟨-, hslot⟩, hr⟩ := hr
    cases hr
    split_ifs with hneg
    · rfl
    · exact (h.unset t key.toNat (unused_of_usedSlot hslot hneg)).symm
  case go =>
    obtain ⟨th, ht, hr⟩ := Option.bind_eq_some_iff.1 hr
    obtain ⟨id, ph⟩ := th
    rcases ph with _ | _ | ⟨key, q, w⟩ | _ | _ | _ | _ <;> simp only [reduceCtorEq] at hr
    obtain ⟨hheld, ⟨seq, hseq, hle⟩, hstamp⟩ := (h.each t _ ht TlsPhase.noConfusion).finds
    rcases hnode : s.tls.nodes id with _ | n
    · simp only [hnode, Option.some.injEq, Prod.mk.injEq] at hr
      obtain ⟨rfl, rfl⟩ := hr
      rw [← hheld, hnode]
      rfl
    · obtain ⟨n', hget, -⟩ := (h.nodes id n hnode).get hseq hle fun e he => hstamp n e hnode he
      simp only [hnode, hget, Option.map_some, Option.some.injEq, Prod.mk.injEq] at hr
      obtain ⟨rfl, rfl⟩ := hr
      rw [← hheld, hnode]
  all_goals cases hr

theorem inv_init : init.TlsInv := by
  have h0 := TlsKeySt.inv_init
  refine ⟨rfl, ⟨[], h0.fits, TlsKeySt.counted_init⟩, by decide, fun id n hn => ?_, fun _ _ _ => rfl, fun t key v hm => ?_,
    fun t u th th' ht => ?_, fun t th ht => ?_⟩
  · cases hn
  · cases hm
  · cases ht
  · cases ht

/-- In a run in which each key is deleted once, no thread starts with the id of an exited thread that has a node, the
key table does not grow while a thread sizes its new node, and no counter wraps, every `k_tls_key_get` returns what the
calling thread has set last since the key was created, and no access goes past a table. -/
theorem tls_isolated (acts : List TlsAct) (hok : Along step (fun s a => s.DeletesOnce a ∧ s.Clean a) init acts) :
    (∀ bs s, bs <+: acts → exec step init bs = some s → s.fault = false) ∧
      Along step (fun s a => ∀ want got, s.returns a = some (want, got) → got = want) init acts := by
  have hinv : ∀ bs s, bs <+: acts → exec step init bs = some s → s.TlsInv := by
    rintro bs s ⟨cs, rfl⟩ hrun
    exact exec_invariant (fun s a s' h hok => h.step hok.1 hok.2) inv_init (along_append.1 hok).1 hrun
  refine ⟨fun bs s hbs hrun => (hinv bs s hbs hrun).fault, along_iff_of_prefixes.2 ?_⟩
  intro bs a s hbs hrun want got hr
  exact (hinv bs s ((List.prefix_append bs [a]).trans hbs) hrun).returns hr

/-- A thread with id 5 sets a key. -/
def setRun : List TlsAct := [.start 5, .create 0 true true, .set 0 0 7, .go 0, .go 0, .go 0, .go 0]

/-- Another thread, with another id, gets nothing, and then the first one gets its value. -/
def getRun : List TlsAct := setRun ++ [.start 6, .get 1 0, .go 1, .get 0 0]

theorem tls_isolated_getRun : ∃ s, exec step init getRun = some s ∧ s.returns (.go 0) = some (7, 7) ∧ s.fault = false := by
  have hok : Along step (fun s a => s.DeletesOnce a ∧ s.Clean a) init getRun := by decide +kernel
  have hany : (exec step init getRun).any (fun s => decide (s.returns (.go 0) = some (7, 7))) = true := by decide +kernel
  obtain ⟨s, hs, hd⟩ := (Option.any_eq_true ..).1 hany
  exact ⟨s, hs, of_decide_eq_true hd, (tls_isolated getRun hok).1 getRun s List.prefix_rfl hs⟩

/-- The thread exits and a new one gets its id: the new thread, which has set nothing, gets the value 7. -/
theorem not_tls_isolated : ∃ s, exec step init (setRun ++ [.exit 0, .start 5, .get 1 0]) = some s ∧
    s.returns (.go 1) = some (0, 7) ∧ Along step DeletesOnce init (setRun ++ [.exit 0, .start 5, .get 1 0]) := by
  have hany : (exec step init (setRun ++ [.exit 0, .start 5, .get 1 0])).any (fun s =>
      decide (s.returns (.go 1) = some (0, 7))) = true := by decide +kernel
  obtain ⟨s, hs, hd⟩ := (Option.any_eq_true ..).1 hany
  exact ⟨s, hs, of_decide_eq_true hd, by decide +kernel⟩

end TlsSys

end Aosl
