import Aosl.RefNode

/-!
# Who holds the lock of a ref object

The calls of a thread say what its node counts and what it holds: each call leaves `Marks`, in every stage and while its
function runs, and the counts of the thread are sums of these (`Thread.Ok`). What the threads hold of `stop_lock` excludes
each other, and the object is not destroyed while a queue runs a function with the lock (`Inv`). So a thread holds
`stop_lock` by `refobj_thread_rdlock` exactly when its `lock_count` is positive, but in the two stages in which it is about
to take it or to give it back.

A read or a write in a write aborts by design, except that a read on the queue that has the lock takes none; so does a
write in a read, and a read in a read of an object that is not recursive (`WellNested`).
-/

namespace Aosl
open Lib

namespace RefNode

def Op.isWrite : Op → Bool
  | .write _ => true
  | _ => false

def Op.isDestroy : Op → Bool
  | .destroy _ => true
  | _ => false

/-- The raw lock is held because of the call. -/
def Op.locks (op : Op) : Bool := op = .read true ∨ op = .invoke true ∨ op.isWrite

/-- The calls that may be made within the calls `stack`. -/
def WellNested (cfg : Cfg) (stack : List Op) : Call → Prop
  | .hold | .invoke => True
  | .read => cfg.onLockedQ stack = true ∨
      (∀ op ∈ stack, op.isWrite = false) ∧ (cfg.recursive = true ∨ ∀ op ∈ stack, op ≠ .read true)
  | .write => ∀ op ∈ stack, op.isWrite = false ∧ op ≠ .read true
  | .destroy _ => ∀ op ∈ stack, op.locks = false

instance (cfg : Cfg) (stack : List Op) (c : Call) : Decidable (WellNested cfg stack c) := by
  unfold WellNested
  split <;> infer_instance

/-- The calls are well nested, and less than 2^31 of them are within each other. -/
def St.Allowed (cfg : Cfg) (s : St) : Act → Prop
  | .start t c => ∀ x ∈ s.threads[t]?, WellNested cfg x.stack c ∧ x.stack.length + 1 < 0x80000000
  | _ => True

instance (cfg : Cfg) (s : St) (a : Act) : Decidable (s.Allowed cfg a) := by
  unfold St.Allowed
  split <;> infer_instance

/-! ## What a call leaves -/

namespace Stage

/-- The call counts in `lock_count`. -/
def counted : Stage → Bool
  | rdRaw | wrWant | wrTry | upTry | upDrop | upWait | check | find .unlock | use .unlock => true
  | _ => false

/-- `refobj_get` has counted. -/
def got : Stage → Bool
  | get | find .inc | insert .inc | use .inc => false
  | _ => true

/-- Between `robj_this_thread_node_get` and `robj_this_thread_node_put`. -/
def inUse : Stage → Bool
  | use _ => true
  | _ => false

/-- A call that has taken `stop_lock`, until it gives it back. -/
def locked : Stage → Bool
  | check | find .unlock | use .unlock | rdUnraw | wrUnraw => true
  | _ => false

/-- `aosl_ref_destroy` has the write lock. -/
def destroying : Stage → Bool
  | set | wrUnraw => true
  | _ => false

/-- Within `k_rwlock_wrlock` and its kin with `lk`. -/
def withLk : Stage → Bool
  | wrTry | upDrop | upWait | wrUnlk | dnWait | dnUnlk => true
  | _ => false

/-- The queue function has the read lock. -/
def queueLocked : Stage → Bool
  | check | invokeUnraw => true
  | _ => false

/-- `k_rwlock_rd2wrlock` has given up the read lock of the queue function. -/
def givenUp : Stage → Bool
  | upWait | check | find .unlock | use .unlock | wrUnraw | dnWait => true
  | _ => false

end Stage

/-- What there is because of a call: an additional `usage` of the node, a `get_count`, a `lock_count` for reading and for
writing, the raw lock for reading, by a queue, given up by one, for writing, and `lk`. -/
structure Marks where
  usage : Bool
  gets : Bool
  rdlocks : Bool
  wrlocks : Bool
  reads : Bool
  invokes : Bool
  upgrades : Bool
  writes : Bool
  lk : Bool
deriving DecidableEq

/-- Of a call whose function runs. -/
def Op.running (op : Op) : Marks where
  usage := false
  gets := !op.isDestroy
  rdlocks := op = .read true
  wrlocks := op.isWrite
  reads := op = .read true
  invokes := op = .invoke true
  upgrades := op = .write true
  writes := op.isWrite
  lk := op.isWrite

def Op.marks (op : Op) (st : Stage) : Marks where
  usage := st.inUse
  gets := !op.isDestroy && st.got
  rdlocks := op = .read true && st.counted
  wrlocks := op.isWrite && st.counted
  reads := op = .read true && st.locked
  invokes := op = .invoke true && st.queueLocked
  upgrades := op = .write true && st.givenUp
  writes := op.isWrite && st.locked || op.isDestroy && st.destroying
  lk := op.isWrite && (st.locked || st.withLk) || op.isDestroy && (st.destroying || st.withLk)

/-- The marks of no call. -/
abbrev unmarked : Marks := ⟨false, false, false, false, false, false, false, false, false⟩

/-- The marks of a call that counts in `get_count` only. -/
abbrev gotten : Marks := ⟨false, true, false, false, false, false, false, false, false⟩

def Thread.marks (x : Thread) : Marks :=
  match x.pc with
  | .idle => unmarked
  | .busy op st _ => op.marks st

/-! ## Where a call can be -/

/-- The stages that a call gets to but for `insert`. -/
def Op.fits (cfg : Cfg) (op : Op) (refused : Bool) : Stage → Bool
  | .get => !refused
  | .find .inc | .use .inc => cfg.callerFree && !op.isDestroy && !refused
  | .find .lock | .use .lock => (op = .read true ∨ op.isWrite) && !refused
  | .find .dec | .use .dec => cfg.callerFree && !op.isDestroy
  | .find .look | .use .look | .uninstall | .set => op.isDestroy && !refused
  | .find .unlock | .use .unlock | .cleanup | .cleanWant | .cleaning =>
    (op = .read true ∨ op.isWrite) && !(refused && op = .write true)
  | .insert _ => false
  | .rdRaw => op = .read true && !refused
  | .invokeRaw => op = .invoke true && !refused
  | .wrWant | .wrTry => (op = .write false ∨ op.isDestroy) && !refused
  | .upTry | .upDrop | .upWait => op = .write true && !refused
  | .check => op ≠ .hold && op ≠ .read false && !refused
  | .rdUnraw => op = .read true
  | .invokeUnraw => op = .invoke true
  | .wrUnraw => (op.isWrite || op.isDestroy) && !(refused && op = .write true)
  | .wrUnlk => op = .write false ∨ op.isDestroy
  | .dnWait | .dnUnlk => op = .write true && !refused

/-- Each call may be made within those below it. -/
def Nested (cfg : Cfg) : List Op → Prop
  | [] => True
  | op :: rest => (∃ c, op = Call.op cfg rest c ∧ WellNested cfg rest c) ∧ Nested cfg rest

namespace Nested
variable {cfg : Cfg} {op : Op} {rest l : List Op}

theorem onLockedQ_iff (h : Nested cfg l) : cfg.onLockedQ l = true ↔ .invoke true ∈ l := by
  induction l with
  | nil => simp [Cfg.onLockedQ, onThisQ]
  | cons op rest ih =>
    obtain ⟨⟨c, rfl, -⟩, hrest⟩ := h
    have ih := ih hrest
    simp only [Cfg.onLockedQ, onThisQ, List.any_cons, Bool.and_eq_true, Bool.or_eq_true, List.mem_cons] at ih ⊢
    rw [← ih]
    rcases hasync : cfg.modifyAsync <;> cases c <;> simp [Call.op, hasync]

/-- Below a call for writing, or below `aosl_ref_destroy`, nobody writes, and nobody reads by `refobj_thread_rdlock`. -/
theorem below_write (h : Nested cfg (op :: rest)) (hop : op.isWrite = true ∨ op.isDestroy = true) :
    (∀ o ∈ rest, o.isWrite = false ∧ o ≠ .read true) ∧ (op.isDestroy = true → .invoke true ∉ rest) := by
  obtain ⟨⟨c, rfl, hc⟩, -⟩ := h
  rcases c with _ | _ | _ | _ | del
  · simp [Call.op, Op.isWrite, Op.isDestroy] at hop
  · simp [Call.op, Op.isWrite, Op.isDestroy] at hop
  · exact ⟨hc, fun hd => by simp [Call.op, Op.isDestroy] at hd⟩
  · simp [Call.op, Op.isWrite, Op.isDestroy] at hop
  · have hlocks : ∀ o ∈ rest, o.locks = false := hc
    simp only [Op.locks, decide_eq_false_iff_not, not_or] at hlocks
    exact ⟨fun o ho => ⟨by simpa using (hlocks o ho).2.2, (hlocks o ho).1⟩, fun _ ho => (hlocks _ ho).2.1 rfl⟩

/-- Below a read that takes the lock nobody writes, and nobody reads but of a recursive object. -/
theorem below_read (h : Nested cfg (.read true :: rest)) :
    (∀ o ∈ rest, o.isWrite = false) ∧ (cfg.recursive = true ∨ .read true ∉ rest) := by
  obtain ⟨⟨c, hop, hc⟩, -⟩ := h
  rcases c with _ | _ | _ | _ | _ <;> simp only [Call.op, Op.read.injEq, reduceCtorEq] at hop
  rcases hc with hq | ⟨hwr, hrd⟩
  · simp [hq] at hop
  · exact ⟨hwr, hrd.imp_right fun h hm => h _ hm rfl⟩

theorem below_upgrade (h : Nested cfg (.write true :: rest)) : .invoke true ∈ rest := by
  obtain ⟨⟨c, hop, -⟩, hrest⟩ := h
  rcases c with _ | _ | _ | _ | _ <;> simp only [Call.op, Op.write.injEq, reduceCtorEq] at hop
  exact hrest.onLockedQ_iff.1 hop.symm

theorem writes_le (h : Nested cfg l) :
    l.countP Op.isWrite ≤ 1 ∧ (0 < l.countP Op.isWrite → l.countP (fun op => op = .read true) = 0) := by
  induction l with
  | nil => exact ⟨Nat.zero_le _, fun _ => rfl⟩
  | cons op rest ih =>
    have ih := ih h.2
    rw [countP_cons_toNat, countP_cons_toNat]
    by_cases hw : op.isWrite = true
    · have hbelow := (h.below_write (.inl hw)).1
      have hzero : rest.countP Op.isWrite = 0 := List.countP_eq_zero.2 fun o ho => by simp [(hbelow o ho).1]
      have hreads : rest.countP (fun op => op = .read true) = 0 :=
        List.countP_eq_zero.2 fun o ho => by simp [(hbelow o ho).2]
      have hop : op ≠ .read true := by rintro rfl; cases hw
      simp [hzero, hreads, hw, hop]
    · simp only [hw, Bool.toNat_false, Nat.add_zero]
      refine ⟨ih.1, fun hpos => ?_⟩
      have hop : op ≠ .read true := by
        rintro rfl
        have hzero : rest.countP Op.isWrite = 0 := List.countP_eq_zero.2 fun o ho => by simp [h.below_read.1 o ho]
        omega
      simp [ih.2 hpos, hop]

theorem upgrades_le (h : Nested cfg l) :
    l.countP (fun op => op = .write true) ≤ l.countP (fun op => op = .invoke true) := by
  induction l with
  | nil => exact Nat.le_refl _
  | cons op rest ih =>
    have ih := ih h.2
    rw [countP_cons_toNat, countP_cons_toNat]
    by_cases hop : op = .write true
    · subst hop
      have hbelow := (h.below_write (.inl rfl)).1
      have hzero : rest.countP (fun op => op = .write true) = 0 :=
        List.countP_eq_zero.2 fun o ho => by
          rw [decide_eq_true_iff]
          rintro rfl
          cases (hbelow _ ho).1
      have hpos : 0 < rest.countP (fun op => op = .invoke true) := List.countP_pos_iff.2 ⟨_, h.below_upgrade, by simp⟩
      simp only [hzero, decide_true, Bool.toNat_true]
      omega
    · simp only [hop, decide_false, Bool.toNat_false]
      omega

end Nested

/-! ## The counts of a node -/

/-- The counts of a node for so many calls that leave each mark. -/
def Node.Counts (n : Node) (usage gets rdlocks wrlocks : Nat) : Prop :=
  n.usage = UInt32.ofNat (1 + usage) ∧ n.getCount = UInt32.ofNat gets ∧
    n.lockCount = BitVec.ofNat 32 (rdlocks + wrlocks * 0x80000000)

/-- A thread without a node has nothing to count. -/
def NodeOk (node : Option Node) (usage gets rdlocks wrlocks : Nat) : Prop :=
  match node with
  | none => usage = 0 ∧ gets = 0 ∧ rdlocks = 0 ∧ wrlocks = 0
  | some n => n.Counts usage gets rdlocks wrlocks

theorem Node.rdlockCount_toNat (n : Node) : n.rdlockCount.toNat = n.lockCount.toNat % 0x80000000 := by
  rw [rdlockCount, BitVec.toNat_and]
  exact Nat.and_two_pow_sub_one_eq_mod _ 31

namespace Node.Counts
variable {n : Node} {u g r w : Nat}

theorem get (h : n.Counts 0 g r w) (now : UInt64) : (n.get now).Counts 1 g r w := by
  obtain ⟨hu, hg, hl⟩ := h
  refine ⟨?_, hg, hl⟩
  rw [Node.get, hu]
  rfl

theorem new (now : UInt64) : Node.Counts ⟨2, 0, 0, now⟩ 1 0 0 0 := ⟨rfl, rfl, rfl⟩

theorem put (h : n.Counts 1 g r w) : ∃ m, n.put = some m ∧ m.Counts 0 g r w := by
  obtain ⟨hu, hg, hl⟩ := h
  have hput : n.put = some { n with usage := n.usage - 1 } := by rw [Node.put, if_neg (by rw [hu]; decide)]
  exact ⟨_, hput, by rw [hu]; rfl, hg, hl⟩

theorem incGet (h : n.Counts u g r w) : Node.Counts { n with getCount := n.getCount + 1 } u (g + 1) r w :=
  ⟨h.1, by rw [h.2.1, UInt32.ofNat_add]; rfl, h.2.2⟩

theorem decGet (h : n.Counts u (g + 1) r w) : Node.Counts { n with getCount := n.getCount - 1 } u g r w := by
  refine ⟨h.1, ?_, h.2.2⟩
  rw [h.2.1, UInt32.ofNat_add]
  exact UInt32.add_sub_cancel _ _

theorem incRdlock (h : n.Counts u g r w) : Node.Counts { n with lockCount := n.lockCount + 1 } u g (r + 1) w := by
  refine ⟨h.1, h.2.1, ?_⟩
  show n.lockCount + 1 = _
  rw [h.2.2, show r + 1 + w * 0x80000000 = r + w * 0x80000000 + 1 by omega, BitVec.ofNat_add _ 1]
  rfl

theorem decRdlock (h : n.Counts u g (r + 1) w) : Node.Counts { n with lockCount := n.lockCount - 1 } u g r w := by
  refine ⟨h.1, h.2.1, ?_⟩
  show n.lockCount - 1 = _
  rw [h.2.2, show r + 1 + w * 0x80000000 = r + w * 0x80000000 + 1 by omega, BitVec.ofNat_add _ 1]
  exact BitVec.add_sub_cancel _ _

theorem setWrlocked (h : n.Counts u g 0 0) : Node.Counts { n with lockCount := 0x80000000 } u g 0 1 := ⟨h.1, h.2.1, rfl⟩

theorem clrWrlocked (h : n.Counts u g r w) : Node.Counts { n with lockCount := 0 } u g 0 0 := ⟨h.1, h.2.1, rfl⟩

theorem toNat_lockCount (h : n.Counts u g r w) (hr : r < 0x80000000) (hw : w ≤ 1) :
    n.lockCount.toNat = r + w * 0x80000000 := by
  rw [h.2.2, BitVec.toNat_ofNat]
  omega

theorem toNat_rdlockCount (h : n.Counts u g r w) (hr : r < 0x80000000) (hw : w ≤ 1) : n.rdlockCount.toNat = r := by
  rw [n.rdlockCount_toNat, h.toNat_lockCount hr hw]
  omega

theorem rdlockCount_eq_iff (h : n.Counts u g r w) (hr : r < 0x80000000) (hw : w ≤ 1) (k : Nat) (hk : k < 0x80000000) :
    n.rdlockCount = BitVec.ofNat 32 k ↔ r = k := by
  rw [← BitVec.toNat_inj, h.toNat_rdlockCount hr hw, BitVec.toNat_ofNat]
  omega

theorem wrlocked_eq (h : n.Counts u g r 0) (hr : r < 0x80000000) : n.wrlocked = false := by
  have hzero : n.lockCount &&& 0x80000000 = 0 := by
    refine BitVec.eq_of_toNat_eq ?_
    rw [BitVec.toNat_and, h.toNat_lockCount hr (Nat.zero_le _)]
    have hhigh : (r &&& 0x80000000) / 0x80000000 = r / 0x80000000 &&& 1 := Nat.and_div_two_pow (n := 31)
    have hlow : (r &&& 0x80000000) % 0x80000000 = r % 0x80000000 &&& 0 := Nat.and_mod_two_pow (n := 31)
    rw [Nat.div_eq_of_lt hr, Nat.zero_and] at hhigh
    rw [Nat.and_zero] at hlow
    show (r &&& 0x80000000) = 0
    omega
  rw [wrlocked, hzero]
  rfl

theorem lockFree_iff (h : n.Counts u g r w) (hr : r < 0x80000000) (hw : w ≤ 1) :
    n.lockFree = true ↔ r = 0 ∧ w = 0 := by
  have hzero : (0 : BitVec 32).toNat = 0 := rfl
  rw [lockFree, decide_eq_true_iff, ← BitVec.toNat_inj, h.toNat_lockCount hr hw, hzero]
  omega

theorem of_idleSince {now : UInt64} (h : n.Counts u g r w) (hu : u ≤ 1) (hg : g < 0x80000000) (hr : r < 0x80000000)
    (hw : w ≤ 1) (hidle : n.idleSince now = true) : (u = 0 ∧ g = 0 ∧ r = 0 ∧ w = 0) ∧ n.put = none := by
  rw [idleSince, decide_eq_true_iff] at hidle
  obtain ⟨husage, hget, hfree, -⟩ := hidle
  have hu' : u = 0 := by
    have := congrArg UInt32.toNat (h.1.symm.trans husage)
    rw [UInt32.toNat_ofNat', show (1 : UInt32).toNat = 1 from rfl] at this
    omega
  have hg' : g = 0 := by
    have := congrArg UInt32.toNat (h.2.1.symm.trans hget)
    rw [UInt32.toNat_ofNat', show (0 : UInt32).toNat = 0 from rfl] at this
    omega
  obtain ⟨hr', hw'⟩ := (h.lockFree_iff hr hw).1 hfree
  exact ⟨⟨hu', hg', hr', hw'⟩, by rw [Node.put, husage, if_pos (by decide)]⟩

end Node.Counts

theorem Op.marks_get (op : Op) : op.marks .get = unmarked := by
  simp [marks, Stage.inUse, Stage.got, Stage.counted, Stage.locked, Stage.queueLocked, Stage.givenUp, Stage.withLk,
    Stage.destroying]

theorem Op.marks_inc (op : Op) : op.marks (.find .inc) = unmarked := by
  simp [marks, Stage.inUse, Stage.got, Stage.counted, Stage.locked, Stage.queueLocked, Stage.givenUp, Stage.withLk,
    Stage.destroying]

theorem Op.marks_dec {op : Op} (h : op.isDestroy = false) : op.marks (.find .dec) = gotten := by
  simp [marks, h, Stage.inUse, Stage.got, Stage.counted, Stage.locked, Stage.queueLocked, Stage.givenUp, Stage.withLk]

theorem countP_eq_zero_of_notMem {l : List Op} {op : Op} (h : op ∉ l) : l.countP (fun o => o = op) = 0 :=
  List.countP_eq_zero.2 fun o ho => by
    rw [decide_eq_true_iff]
    rintro rfl
    exact h ho

theorem countP_eq_zero_of_forall {l : List Op} (h : ∀ op ∈ l, op.isWrite = false) : l.countP Op.isWrite = 0 :=
  List.countP_eq_zero.2 fun op hop => by simp [h op hop]

/-! ## A thread between two steps -/

namespace Thread

/-- The calls of a thread, innermost first. -/
def calls (x : Thread) : List Op :=
  match x.pc with
  | .idle => x.stack
  | .busy op _ _ => op :: x.stack

/-- The call is in a stage that it gets to; in `insert` there is no node. -/
def fits (cfg : Cfg) (x : Thread) : Bool :=
  match x.pc with
  | .idle => true
  | .busy op (.insert u) refused => x.node = none && u.create && op.fits cfg refused (.find u)
  | .busy op st refused => op.fits cfg refused st

/-- The calls of the thread are as they may be. -/
structure Placed (cfg : Cfg) (x : Thread) : Prop where
  nested : Nested cfg x.calls
  depth : x.calls.length < 0x80000000
  stack : ∀ op ∈ x.stack, op.isDestroy = false
  fits : x.fits cfg = true
  /-- The raw lock is for the outermost read. -/
  outermost : ∀ op st refused, x.pc = .busy op st refused → st = .rdRaw ∨ st = .rdUnraw → .read true ∉ x.stack

/-- What the thread counts and holds for the calls `l` whose functions run and one with the marks `m`. -/
structure Counted (cfg : Cfg) (l : List Op) (m : Marks) (x : Thread) : Prop where
  node : NodeOk x.node m.usage.toNat (if cfg.callerFree then l.length + m.gets.toNat else 0)
    (l.countP (fun op => op = .read true) + m.rdlocks.toNat) (l.countP Op.isWrite + m.wrlocks.toNat)
  reads : x.reads = min 1 (l.countP (fun op => op = .read true) + m.reads.toNat)
  queueReads : x.queueReads + (l.countP (fun op => op = .write true) + m.upgrades.toNat) =
    l.countP (fun op => op = .invoke true) + m.invokes.toNat
  write : x.write.toNat = l.countP Op.isWrite + m.writes.toNat

/-- The thread between two steps. -/
structure Ok (cfg : Cfg) (x : Thread) : Prop where
  placed : x.Placed cfg
  counted : x.Counted cfg x.stack x.marks

section
variable {cfg : Cfg} {x x' : Thread} {op : Op} {st st' : Stage} {refused refused' : Bool} {rest : List Op}

theorem calls_idle (h : x.pc = .idle) : x.calls = x.stack := by rw [calls, h]

theorem calls_busy (h : x.pc = .busy op st refused) : x.calls = op :: x.stack := by rw [calls, h]

theorem fits_idle (h : x.pc = .idle) : x.fits cfg = true := by rw [fits, h]

theorem fits_of (h : x.pc = .busy op st refused) (hfits : op.fits cfg refused st = true) : x.fits cfg = true := by
  rw [fits, h]
  cases st with
  | insert u => cases hfits
  | _ => exact hfits

theorem fits_busy (h : x.pc = .busy op st refused) (hst : ∀ u, st ≠ .insert u) : x.fits cfg = op.fits cfg refused st := by
  rw [fits, h]
  cases st with
  | insert u => exact absurd rfl (hst u)
  | _ => rfl

theorem fits_insert {u : Use} (h : x.pc = .busy op (.insert u) refused) (hfits : x.fits cfg = true) :
    x.node = none ∧ u.create = true ∧ op.fits cfg refused (.find u) = true := by
  rw [fits, h] at hfits
  simpa [and_assoc] using hfits

theorem marks_idle (h : x.pc = .idle) : x.marks = unmarked := by
  rw [marks, h]

theorem marks_busy (h : x.pc = .busy op st refused) : x.marks = op.marks st := by rw [marks, h]

/-! ### The calls -/

namespace Placed

theorem goto (h : x.Placed cfg) (hpc : x.pc = .busy op st refused) (hpc' : x'.pc = .busy op st' refused')
    (hstack : x'.stack = x.stack) (hfits : op.fits cfg refused' st' = true)
    (hout : st' = .rdRaw ∨ st' = .rdUnraw → .read true ∉ x.stack) : x'.Placed cfg := by
  have hcalls : x'.calls = x.calls := by rw [calls_busy hpc, calls_busy hpc', hstack]
  refine ⟨hcalls ▸ h.nested, hcalls ▸ h.depth, hstack ▸ h.stack, fits_of hpc' hfits, fun o s r hx hs => ?_⟩
  obtain ⟨-, rfl, -⟩ := Pc.busy.inj (hpc'.symm.trans hx)
  exact hstack ▸ hout hs

theorem run (h : x.Placed cfg) (hpc : x.pc = .busy op st refused) (hpc' : x'.pc = .idle)
    (hstack : x'.stack = op :: x.stack) (hop : op.isDestroy = false) : x'.Placed cfg := by
  have hcalls : x'.calls = x.calls := by rw [calls_busy hpc, calls_idle hpc', hstack]
  refine ⟨hcalls ▸ h.nested, hcalls ▸ h.depth, ?_, fits_idle hpc', fun o s r hx => by simp [hpc'] at hx⟩
  rw [hstack]
  exact List.forall_mem_cons.2 ⟨hop, h.stack⟩

theorem done (h : x.Placed cfg) (hpc : x.pc = .busy op st refused) (hpc' : x'.pc = .idle) (hstack : x'.stack = x.stack) :
    x'.Placed cfg := by
  have hcalls : x.calls = op :: x'.calls := by rw [calls_busy hpc, calls_idle hpc', hstack]
  have hnested := h.nested
  have hdepth := h.depth
  rw [hcalls] at hnested hdepth
  exact ⟨hnested.2, Nat.lt_of_succ_lt hdepth, hstack ▸ h.stack, fits_idle hpc', fun o s r hx => by simp [hpc'] at hx⟩

theorem pop (h : x.Placed cfg) (hpc : x.pc = .idle) (hx : x.stack = op :: rest) (hpc' : x'.pc = .busy op st refused)
    (hstack : x'.stack = rest) (hfits : op.fits cfg refused st = true) (hout : st ≠ .rdRaw ∧ st ≠ .rdUnraw) :
    x'.Placed cfg := by
  have hcalls : x'.calls = x.calls := by rw [calls_idle hpc, calls_busy hpc', hstack, hx]
  have hrest := h.stack
  rw [hx, List.forall_mem_cons] at hrest
  refine ⟨hcalls ▸ h.nested, hcalls ▸ h.depth, hstack ▸ hrest.2, fits_of hpc' hfits, fun o s r hx hs => ?_⟩
  obtain ⟨-, rfl, -⟩ := Pc.busy.inj (hpc'.symm.trans hx)
  exact absurd hs (not_or.2 hout)

end Placed

/-! ### What it counts and holds -/

/-- The thread holds the same of `stop_lock`. -/
def SameLocks (x x' : Thread) : Prop := x'.reads = x.reads ∧ x'.queueReads = x.queueReads ∧ x'.write = x.write

namespace Counted
variable {l : List Op} {m m' : Marks} {n : Node}

theorem same (h : x.Counted cfg l m) (hnode : x'.node = x.node) (hlocks : x.SameLocks x') : x'.Counted cfg l m :=
  ⟨hnode ▸ h.node, hlocks.1 ▸ h.reads, hlocks.2.1 ▸ h.queueReads, hlocks.2.2 ▸ h.write⟩

theorem counts (h : x.Counted cfg l m) (hn : x.node = some n) :
    n.Counts m.usage.toNat (if cfg.callerFree then l.length + m.gets.toNat else 0)
      (l.countP (fun op => op = .read true) + m.rdlocks.toNat) (l.countP Op.isWrite + m.wrlocks.toNat) := by
  have hnode := h.node
  rw [hn] at hnode
  exact hnode

theorem setNode (h : x.Counted cfg l m)
    (hnode : NodeOk x'.node m'.usage.toNat (if cfg.callerFree then l.length + m'.gets.toNat else 0)
      (l.countP (fun op => op = .read true) + m'.rdlocks.toNat) (l.countP Op.isWrite + m'.wrlocks.toNat))
    (hmarks : m'.reads = m.reads ∧ m'.upgrades = m.upgrades ∧ m'.invokes = m.invokes ∧ m'.writes = m.writes)
    (hlocks : x.SameLocks x') : x'.Counted cfg l m' := by
  obtain ⟨hr, hu, hi, hw⟩ := hmarks
  exact ⟨hnode, by rw [hlocks.1, hr, h.reads], by rw [hlocks.2.1, hu, hi, h.queueReads],
    by rw [hlocks.2.2, hw, h.write]⟩

theorem of_lk (h : x.Counted cfg l m) (lk : Bool) : x.Counted cfg l { m with lk := lk } :=
  ⟨h.node, h.reads, h.queueReads, h.write⟩

theorem of_gets {g : Bool} (h : x.Counted cfg l m) (hfree : cfg.callerFree = false) :
    x.Counted cfg l { m with gets := g } := by
  refine ⟨?_, h.reads, h.queueReads, h.write⟩
  have hnode := h.node
  rw [if_neg (by simp [hfree])] at hnode ⊢
  exact hnode

theorem run_iff {op : Op} (hop : op.isDestroy = false) (hm : m = op.running)
    (hm' : m' = unmarked) :
    x.Counted cfg (op :: l) m' ↔ x.Counted cfg l m := by
  subst hm hm'
  constructor
  all_goals
    rintro ⟨hnode, hreads, hqueue, hwrite⟩
    constructor <;>
      simp_all [Op.running, countP_cons_toNat]

section
variable (h : x.Counted cfg l m) (hlocks : x.SameLocks x')
include h hlocks

theorem find (hn : x.node = some n) (hm : m.usage = false) {now : UInt64} (hnode : x'.node = some (n.get now)) :
    x'.Counted cfg l { m with usage := true } := by
  refine h.setNode ?_ ⟨rfl, rfl, rfl, rfl⟩ hlocks
  have hn := h.counts hn
  rw [hm] at hn
  rw [hnode]
  exact hn.get now

theorem insert (hn : x.node = none) {now : UInt64} (hnode : x'.node = some ⟨2, 0, 0, now⟩) :
    x'.Counted cfg l { m with usage := true } := by
  refine h.setNode ?_ ⟨rfl, rfl, rfl, rfl⟩ hlocks
  have hnone := h.node
  rw [hn] at hnone
  obtain ⟨-, hg, hr, hw⟩ := hnone
  rw [hnode]
  dsimp only
  rw [hg, hr, hw]
  exact Node.Counts.new now

theorem usePut {k : Node} (m' : Marks)
    (hm' : m' = { m with usage := false, gets := m'.gets, rdlocks := m'.rdlocks, wrlocks := m'.wrlocks })
    (hcounts : k.Counts 1 (if cfg.callerFree then l.length + m'.gets.toNat else 0)
      (l.countP (fun op => op = .read true) + m'.rdlocks.toNat) (l.countP Op.isWrite + m'.wrlocks.toNat))
    (hnode : x'.node = k.put) : x'.Counted cfg l m' ∧ x'.node.isSome = true := by
  obtain ⟨k', hput, hk'⟩ := hcounts.put
  rw [hnode, hput]
  refine ⟨h.setNode ?_ ?_ hlocks, rfl⟩
  · rw [hnode, hput, hm']
    exact hk'
  · rw [hm']
    exact ⟨rfl, rfl, rfl, rfl⟩

end

section
variable (h : x.Counted cfg l m)
include h

theorem rdlock (hl : .read true ∉ l) (hm : m.reads = false) (hnode : x'.node = x.node) (hreads : x'.reads = x.reads + 1)
    (hqueue : x'.queueReads = x.queueReads) (hwrite : x'.write = x.write) :
    x'.Counted cfg l { m with reads := true } := by
  have hzero := countP_eq_zero_of_notMem hl
  refine ⟨hnode ▸ h.node, ?_, hqueue ▸ h.queueReads, hwrite ▸ h.write⟩
  rw [hreads, h.reads, hzero, hm]
  rfl

theorem nested (hl : .read true ∈ l) (reads : Bool) : x.Counted cfg l { m with reads := reads } := by
  have hpos : 0 < l.countP (fun op => op = .read true) := List.countP_pos_iff.2 ⟨_, hl, by simp⟩
  refine ⟨h.node, ?_, h.queueReads, h.write⟩
  rw [h.reads]
  dsimp only
  omega

theorem rdunlock (hl : .read true ∉ l) (hm : m.reads = true) (hnode : x'.node = x.node) (hreads : x'.reads = x.reads - 1)
    (hqueue : x'.queueReads = x.queueReads) (hwrite : x'.write = x.write) :
    x'.Counted cfg l { m with reads := false } := by
  have hzero := countP_eq_zero_of_notMem hl
  refine ⟨hnode ▸ h.node, ?_, hqueue ▸ h.queueReads, hwrite ▸ h.write⟩
  rw [hreads, h.reads, hzero, hm]
  rfl

theorem queue (m' : Marks) (hqueue : x'.queueReads + (m'.upgrades.toNat + m.invokes.toNat) =
      x.queueReads + (m.upgrades.toNat + m'.invokes.toNat))
    (hm' : m' = { m with upgrades := m'.upgrades, invokes := m'.invokes }) (hnode : x'.node = x.node)
    (hreads : x'.reads = x.reads) (hwrite : x'.write = x.write) : x'.Counted cfg l m' := by
  have hold := h.queueReads
  constructor
  · rw [hm', hnode]
    exact h.node
  · rw [hm', hreads]
    exact h.reads
  · omega
  · rw [hm', hwrite]
    exact h.write

theorem setWrite {w : Bool} (hl : ∀ o ∈ l, o.isWrite = false) (hnode : x'.node = x.node) (hreads : x'.reads = x.reads)
    (hqueue : x'.queueReads = x.queueReads) (hwrite : x'.write = w) : x'.Counted cfg l { m with writes := w } := by
  have hzero := countP_eq_zero_of_forall hl
  refine ⟨hnode ▸ h.node, hreads ▸ h.reads, hqueue ▸ h.queueReads, ?_⟩
  rw [hwrite, hzero, Nat.zero_add]

end

end Counted

/-! ### Both -/

namespace Placed

theorem of_eq (h : x.Placed cfg) (hpc : x.pc = .busy op st refused) (hst : ∀ u, st ≠ .insert u) (hpc' : x'.pc = x.pc)
    (hstack : x'.stack = x.stack) : x'.Placed cfg := by
  have hcalls : x'.calls = x.calls := by rw [calls, calls, hpc', hstack]
  have hfits : x'.fits cfg = x.fits cfg := by rw [Thread.fits_busy hpc hst, Thread.fits_busy (hpc'.trans hpc) hst]
  exact ⟨hcalls ▸ h.nested, hcalls ▸ h.depth, hstack ▸ h.stack, hfits ▸ h.fits, by rw [hpc', hstack]; exact h.outermost⟩

end Placed

/-- Whether the thread has `lk`. -/
def ownsLk (x : Thread) : Bool := x.stack.any Op.isWrite || x.marks.lk

theorem ownsLk_busy (h : x.pc = .busy op st refused) : x.ownsLk = (x.stack.any Op.isWrite || (op.marks st).lk) := by
  rw [ownsLk, marks_busy h]

theorem ownsLk_idle (h : x.pc = .idle) : x.ownsLk = x.stack.any Op.isWrite := by
  rw [ownsLk, marks_idle h, Bool.or_false]

/-- What stays where a call of the thread gets to another stage without a lock. -/
structure Goes (cfg : Cfg) (x x' : Thread) : Prop where
  ok : x'.Ok cfg
  locks : x.SameLocks x'
  lk : x'.ownsLk = x.ownsLk
  node : x.node.isSome = true → x'.node.isSome = true

namespace Placed

theorem goes_goto (h : x.Placed cfg) (hpc : x.pc = .busy op st refused) (hc : x.Counted cfg x.stack (op.marks st'))
    (hlk : (op.marks st').lk = (op.marks st).lk) (hfits : op.fits cfg refused' st' = true)
    (hout : st' = .rdRaw ∨ st' = .rdUnraw → .read true ∉ x.stack) : x.Goes cfg (x.goto op st' refused') := by
  have hlocks : x.SameLocks (x.goto op st' refused') := ⟨rfl, rfl, rfl⟩
  refine ⟨⟨h.goto hpc rfl rfl hfits hout, ?_⟩, hlocks, ?_, id⟩
  · rw [marks_busy (x := x.goto op st' refused') rfl]
    exact hc.same rfl hlocks
  · rw [ownsLk_busy hpc, ownsLk_busy (x := x.goto op st' refused') rfl, hlk]
    rfl

theorem goes_run (h : x.Placed cfg) (hpc : x.pc = .busy op st refused) (hop : op.isDestroy = false)
    (hc : x.Counted cfg x.stack op.running) (hlk : op.running.lk = (op.marks st).lk) : x.Goes cfg (x.run op) := by
  have hlocks : x.SameLocks (x.run op) := ⟨rfl, rfl, rfl⟩
  refine ⟨⟨h.run hpc rfl rfl hop, ?_⟩, hlocks, ?_, id⟩
  · rw [marks_idle (x := x.run op) rfl]
    exact (Counted.run_iff hop rfl rfl).2 (hc.same rfl hlocks)
  · rw [ownsLk_busy hpc, ownsLk_idle (x := x.run op) rfl, ← hlk, Thread.run, List.any_cons, Bool.or_comm]
    rfl

theorem goes_idle (h : x.Placed cfg) (hpc : x.pc = .busy op st refused) (hc : x.Counted cfg x.stack unmarked)
    (hlk : (op.marks st).lk = false) : x.Goes cfg { x with pc := .idle } := by
  have hlocks : x.SameLocks { x with pc := .idle } := ⟨rfl, rfl, rfl⟩
  refine ⟨⟨h.done hpc rfl rfl, ?_⟩, hlocks, ?_, id⟩
  · rw [marks_idle (x := { x with pc := .idle }) rfl]
    exact hc.same rfl hlocks
  · rw [ownsLk_busy hpc, ownsLk_idle (x := { x with pc := .idle }) rfl, hlk, Bool.or_false]

theorem goes_enter (h : x.Placed cfg) (hpc : x.pc = .busy op st refused) (hop : op.isDestroy = false)
    (hc : x.Counted cfg x.stack gotten) (hlk : (op.marks st).lk = false) : x.Goes cfg (x.enter op) := by
  rcases op with _ | ⟨_ | _⟩ | ⟨_ | _⟩ | ⟨_ | _⟩ | _
  · exact h.goes_run hpc rfl hc hlk.symm
  · exact h.goes_run hpc rfl hc hlk.symm
  · exact h.goes_goto hpc hc hlk.symm rfl (by simp)
  · exact h.goes_goto hpc hc hlk.symm rfl (by simp)
  · exact h.goes_goto hpc hc hlk.symm rfl (by simp)
  · exact h.goes_goto hpc hc hlk.symm rfl (by simp)
  · exact h.goes_goto hpc hc hlk.symm rfl (by simp)
  · cases hop

theorem goes_put (h : x.Placed cfg) (hpc : x.pc = .busy op st refused) (hop : op.isDestroy = false)
    (hc : x.Counted cfg x.stack gotten) (hlk : (op.marks st).lk = false) : x.Goes cfg (x.put cfg op refused') := by
  unfold Thread.put
  split
  · rename_i hfree
    rw [← Op.marks_dec hop] at hc
    exact h.goes_goto hpc hc (by rw [hlk, Op.marks_dec hop]) (by simp [Op.fits, hop, hfree]) (by simp)
  · rename_i hfree
    exact h.goes_idle hpc (hc.of_gets (g := false) (by simpa using hfree)) hlk

end Placed

namespace Ok

theorem counted_busy (h : x.Ok cfg) (hpc : x.pc = .busy op st refused) : x.Counted cfg x.stack (op.marks st) :=
  marks_busy hpc ▸ h.counted

theorem fits_busy (h : x.Ok cfg) (hpc : x.pc = .busy op st refused) (hst : ∀ u, st ≠ .insert u) :
    op.fits cfg refused st = true := by
  rw [← Thread.fits_busy hpc hst]
  exact h.placed.fits

theorem nested_busy (h : x.Ok cfg) (hpc : x.pc = .busy op st refused) : Nested cfg (op :: x.stack) := by
  rw [← calls_busy hpc]
  exact h.placed.nested

theorem reads_lt (h : x.Ok cfg) (hpc : x.pc = .busy op st refused) :
    x.stack.countP (fun op => op = .read true) + 1 < 0x80000000 := by
  have hdepth := h.placed.depth
  rw [calls_busy hpc, List.length_cons] at hdepth
  exact Nat.lt_of_le_of_lt (Nat.succ_le_succ List.countP_le_length) hdepth

theorem goto (h : x.Ok cfg) (hpc : x.pc = .busy op st refused) (hm : op.marks st' = op.marks st)
    (hfits : op.fits cfg refused' st' = true) (hout : st' = .rdRaw ∨ st' = .rdUnraw → .read true ∉ x.stack) :
    x.Goes cfg (x.goto op st' refused') :=
  h.placed.goes_goto hpc (hm ▸ h.counted_busy hpc) (hm ▸ rfl) hfits hout

theorem run (h : x.Ok cfg) (hpc : x.pc = .busy op st refused) (hop : op.isDestroy = false)
    (hm : op.running = op.marks st) : x.Goes cfg (x.run op) :=
  h.placed.goes_run hpc hop (hm ▸ h.counted_busy hpc) (hm ▸ rfl)

theorem done (h : x.Ok cfg) (hpc : x.pc = .busy op st refused) (hm : op.marks st = unmarked) :
    x.Goes cfg { x with pc := .idle } :=
  h.placed.goes_idle hpc (hm ▸ h.counted_busy hpc) (by rw [hm])

theorem put (h : x.Ok cfg) (hpc : x.pc = .busy op st refused) (hop : op.isDestroy = false) (hm : op.marks st = gotten) :
    x.Goes cfg (x.put cfg op refused') :=
  h.placed.goes_put hpc hop (hm ▸ h.counted_busy hpc) (by rw [hm])

theorem enter (h : x.Ok cfg) (hpc : x.pc = .busy op .get refused) (hop : op.isDestroy = false)
    (hfree : cfg.callerFree = false) : x.Goes cfg (x.enter op) := by
  have hcounted := (h.counted_busy hpc).of_gets (g := true) hfree
  rw [Op.marks_get] at hcounted
  exact h.placed.goes_enter hpc hop hcounted (by rw [Op.marks_get])

theorem goto_insert {u : Use} (h : x.Ok cfg) (hpc : x.pc = .busy op (.find u) refused) (hu : u.create = true)
    (hn : x.node = none) : x.Goes cfg (x.goto op (.insert u) refused) := by
  have hfits := h.fits_busy hpc (by simp)
  have hm : op.marks (.insert u) = op.marks (.find u) := by cases u <;> first | rfl | cases hu
  have hlocks : x.SameLocks (x.goto op (.insert u) refused) := ⟨rfl, rfl, rfl⟩
  have hcalls : (x.goto op (.insert u) refused).calls = x.calls := by rw [calls_busy hpc]; rfl
  refine ⟨⟨⟨hcalls ▸ h.placed.nested, hcalls ▸ h.placed.depth, h.placed.stack, ?_, ?_⟩, ?_⟩, hlocks, ?_, id⟩
  · simp only [Thread.fits, Thread.goto, hn, hu, hfits, decide_true, Bool.and_self]
  · intro o s' r hx hs
    obtain ⟨-, rfl, -⟩ := Pc.busy.inj hx
    simp at hs
  · rw [marks_busy (x := x.goto op (.insert u) refused) rfl, hm]
    exact (h.counted_busy hpc).same rfl hlocks
  · rw [ownsLk_busy hpc, ownsLk_busy (x := x.goto op (.insert u) refused) rfl, hm]
    rfl

theorem used (h : x.Ok cfg) (hpc : x.pc = .busy op st refused) (hpc' : x'.pc = .busy op st' refused')
    (hstack : x'.stack = x.stack) (hcounted : x'.Counted cfg x.stack (op.marks st'))
    (hfits : op.fits cfg refused' st' = true) (hout : st' = .rdRaw ∨ st' = .rdUnraw → .read true ∉ x.stack) : x'.Ok cfg := by
  refine ⟨h.placed.goto hpc hpc' hstack hfits hout, ?_⟩
  rw [marks_busy hpc', hstack]
  exact hcounted

end Ok

end

end Thread

end RefNode

end Aosl
