import Aosl.RefNodeCount

/-!
# Who holds the lock of a ref object
-/

namespace Aosl
open Lib

namespace RefNode

/-! ## What a step does -/

/-- The raw read locks of a thread. -/
def Thread.raw (x : Thread) : Nat := x.reads + x.queueReads

/-- What a step of the thread `t` makes of it, and of what is not of a thread. -/
structure Moves (cfg : Cfg) (s s' : St) (t : Nat) (x x' : Thread) : Prop where
  threads : s'.threads = s.threads.set t x'
  aborted : s'.aborted = s.aborted
  ok : x'.Ok cfg
  /-- The raw lock for writing is taken while nobody has it. -/
  write : x'.write = true → x'.raw ≤ x.raw ∧ (x.write = true ∨ s.free = true)
  /-- And for reading while nobody has it for writing. -/
  raw : x'.raw ≤ x.raw ∨ s.noWriter = true
  lk : s'.lk = s.lk ∧ x'.ownsLk = x.ownsLk ∨ s.lk = none ∧ s'.lk = some t ∧ x'.ownsLk = true ∨
    x.ownsLk = true ∧ s'.lk = none ∧ x'.ownsLk = false
  /-- `destroyed` is set with the write lock; a function runs with the lock of its queue if it was not. -/
  destroyed : s'.destroyed = s.destroyed ∧ (.invoke true ∈ x'.stack → .invoke true ∈ x.stack ∨ s.destroyed = false) ∨
    x.write = true ∧ x.ownsLk = true ∧ .invoke true ∉ x'.stack
  /-- The raw lock of the reads is taken and given back while there is none. -/
  reads : .read true ∈ x.stack → x'.reads = x.reads
  node : x.node.isSome = true → x'.node.isSome = true

/-- The states that a step of the thread `t`, which is `x`, can lead to but for the clean-up. -/
inductive Outcome (cfg : Cfg) (s : St) (t : Nat) (x : Thread) : St → Prop
  | aborts {a : Abort} (h : a = .noMem ∨ a = .twoUpgrades) : Outcome cfg s t x (s.abort a)
  | stays : Outcome cfg s t x s
  | moves {s' : St} {x' : Thread} (h : Moves cfg s s' t x x') : Outcome cfg s t x s'

section
variable {cfg : Cfg} {s s' : St} {t : Nat} {x x' : Thread} {op : Op} {st : Stage} {refused : Bool} {env : Env}

theorem Moves.of_goes (h : x.Goes cfg x') (hthreads : s'.threads = s.threads.set t x') (haborted : s'.aborted = s.aborted)
    (hlk : s'.lk = s.lk) (hdestroyed : s'.destroyed = s.destroyed)
    (hstack : .invoke true ∈ x'.stack → .invoke true ∈ x.stack ∨ s.destroyed = false) : Moves cfg s s' t x x' where
  threads := hthreads
  aborted := haborted
  ok := h.ok
  write hw := by
    rw [Thread.raw, Thread.raw, h.locks.1, h.locks.2.1]
    exact ⟨Nat.le_refl _, .inl (h.locks.2.2 ▸ hw)⟩
  raw := .inl (Nat.le_of_eq (by rw [Thread.raw, Thread.raw, h.locks.1, h.locks.2.1]))
  lk := .inl ⟨hlk, h.lk⟩
  destroyed := .inl ⟨hdestroyed, hstack⟩
  reads _ := h.locks.1
  node := h.node

theorem Outcome.goes (h : x.Goes cfg x') (hstack : .invoke true ∈ x'.stack → .invoke true ∈ x.stack ∨ s.destroyed = false) :
    Outcome cfg s t x (s.setThread t x') :=
  .moves (.of_goes h rfl rfl rfl rfl hstack)

theorem Outcome.goto {st' : Stage} {refused' : Bool} (h : x.Ok cfg) (hpc : x.pc = .busy op st refused)
    (hm : op.marks st' = op.marks st) (hfits : op.fits cfg refused' st' = true)
    (hout : st' ≠ .rdRaw ∧ st' ≠ .rdUnraw) : Outcome cfg s t x (s.setThread t (x.goto op st' refused')) :=
  .goes (h.goto hpc hm hfits fun h => absurd h (not_or.2 hout)) .inl

theorem enter_stack (h : .invoke true ∈ (x.enter op).stack) : .invoke true ∈ x.stack := by
  rcases op with _ | ⟨_ | _⟩ | _ | ⟨_ | _⟩ | _
  all_goals simpa [Thread.enter, Thread.run, Thread.goto] using h

theorem put_stack : (x.put cfg op refused).stack = x.stack := by
  unfold Thread.put
  split <;> rfl

namespace St

/-! ### The node -/

theorem get_outcome (h : x.Ok cfg) (hpc : x.pc = .busy op .get refused) : Outcome cfg s t x (s.get cfg t x op) := by
  have hnested := h.nested_busy hpc
  unfold get
  split
  · split
    · -- `aosl_ref_destroy` is not called on the queue that has the lock
      rename_i del
      have hno := (hnested.below_write (.inr rfl)).2 rfl
      rw [if_neg (by rw [hnested.2.onLockedQ_iff]; exact hno)]
      exact .goto h hpc rfl rfl (by decide)
    · rename_i hop
      have hop : op.isDestroy = false := by
        cases op <;> first | rfl | exact absurd rfl (hop _)
      split
      · rename_i hfree
        exact .goto h hpc (op.marks_get ▸ op.marks_inc) (by simp [Op.fits, hop, hfree]) (by decide)
      · rename_i hfree
        exact .goes (h.enter hpc hop (by simpa using hfree)) (.inl ∘ enter_stack)
  · exact .goes (h.done hpc op.marks_get) .inl

theorem outcome_node {st' : Stage} (h : x.Ok cfg) (hpc : x.pc = .busy op st refused) (hpc' : x'.pc = .busy op st' refused)
    (hstack : x'.stack = x.stack) (hlocks : x.SameLocks x') (hcounted : x'.Counted cfg x.stack (op.marks st'))
    (hlk : (op.marks st').lk = (op.marks st).lk) (hnode : x'.node.isSome = true) (hfits : op.fits cfg refused st' = true)
    (hout : st' = .rdRaw ∨ st' = .rdUnraw → .read true ∉ x.stack) : Outcome cfg s t x (s.setThread t x') := by
  refine .goes ⟨h.used hpc hpc' hstack hcounted hfits hout, hlocks, ?_, fun _ => hnode⟩ fun hq => .inl (hstack ▸ hq)
  rw [x.ownsLk_busy hpc, x'.ownsLk_busy hpc', hstack, hlk]

theorem find_outcome {u : Use} (h : x.Ok cfg) (hpc : x.pc = .busy op (.find u) refused) :
    Outcome cfg s t x (s.find t x op refused env u) := by
  have hcounted := h.counted_busy hpc
  have hfits := h.fits_busy hpc (by simp)
  unfold find
  split
  · rename_i n hn
    have hm : op.marks (.use u) = { op.marks (.find u) with usage := true } := by cases u <;> rfl
    refine outcome_node h hpc rfl rfl ⟨rfl, rfl, rfl⟩ ?_ (by rw [hm]) rfl (by cases u <;> exact hfits) (by simp)
    rw [hm]
    exact hcounted.find ⟨rfl, rfl, rfl⟩ hn (by cases u <;> rfl) rfl
  · rename_i hn
    have hnone := hcounted.node
    rw [hn] at hnone
    obtain ⟨-, hgets, hrd, hwr⟩ := hnone
    split
    · rename_i hu
      exact .goes (h.goto_insert hpc hu hn) .inl
    · -- who gives something back has a node, since it is counted there
      rename_i hu
      cases u with
      | inc => exact absurd rfl hu
      | lock => exact absurd rfl hu
      | look => exact .goto h hpc rfl hfits (by decide)
      | unlock =>
        rcases op with _ | ⟨_ | _⟩ | ⟨_ | _⟩ | _ | _ <;> first | cases hfits | simp [Op.marks, Op.isWrite, Stage.counted] at hrd hwr
      | dec =>
        simp only [Op.fits, Bool.and_eq_true, Bool.not_eq_true'] at hfits
        simp [Op.marks, hfits, Stage.got] at hgets

theorem insert_outcome {u : Use} (h : x.Ok cfg) (hpc : x.pc = .busy op (.insert u) refused) :
    Outcome cfg s t x (s.insert t x op refused env u) := by
  obtain ⟨hn, hu, hfits⟩ := x.fits_insert hpc h.placed.fits
  unfold insert
  split
  · have hm : op.marks (.use u) = { op.marks (.insert u) with usage := true } := by
      cases u <;> first | rfl | cases hu
    refine outcome_node h hpc rfl rfl ⟨rfl, rfl, rfl⟩ ?_ (by rw [hm]) rfl (by cases u <;> exact hfits) (by simp)
    rw [hm]
    exact (h.counted_busy hpc).insert ⟨rfl, rfl, rfl⟩ hn rfl
  · exact .aborts (.inl rfl)

section
variable {n : Node} (h : x.Ok cfg) (hn : x.node = some n)
include h hn

theorem inc_outcome (hpc : x.pc = .busy op (.use .inc) refused) :
    Outcome cfg s t x (s.use cfg t x op refused n .inc) := by
  have hfits := h.fits_busy hpc (by simp)
  simp only [Op.fits, Bool.and_eq_true, Bool.not_eq_true'] at hfits
  obtain ⟨⟨hfree, hop⟩, -⟩ := hfits
  have hm : op.marks (.use .inc) = { unmarked with usage := true } := by rw [← op.marks_inc]; rfl
  have hcounted := hm ▸ h.counted_busy hpc
  let y : Thread := { x with node := Node.put { n with getCount := n.getCount + 1 } }
  have hy : x.SameLocks y := ⟨rfl, rfl, rfl⟩
  have hget : Node.Counts { n with getCount := n.getCount + 1 } 1 (if cfg.callerFree then x.stack.length + 1 else 0)
      (x.stack.countP (fun op => op = .read true) + 0) (x.stack.countP Op.isWrite + 0) := by
    have hcounts := hcounted.counts hn
    rw [if_pos hfree] at hcounts ⊢
    exact hcounts.incGet
  obtain ⟨hgot, hnode⟩ := hcounted.usePut hy gotten rfl hget rfl
  have hplaced : y.Placed cfg := h.placed.of_eq hpc (by simp) rfl rfl
  have hgoes := hplaced.goes_enter hpc hop hgot (by rw [hm])
  have hlk : y.ownsLk = x.ownsLk := rfl
  exact .goes ⟨hgoes.ok, hgoes.locks, hgoes.lk.trans hlk, fun _ => hgoes.node hnode⟩ (.inl ∘ enter_stack)

theorem dec_outcome (hpc : x.pc = .busy op (.use .dec) refused) :
    Outcome cfg s t x (s.use cfg t x op refused n .dec) := by
  have hfits := h.fits_busy hpc (by simp)
  simp only [Op.fits, Bool.and_eq_true, Bool.not_eq_true'] at hfits
  obtain ⟨hfree, hop⟩ := hfits
  have hm : op.marks (.use .dec) = { gotten with usage := true } := by rw [← Op.marks_dec hop]; rfl
  have hcounted := hm ▸ h.counted_busy hpc
  let y : Thread := { x with node := Node.put { n with getCount := n.getCount - 1 } }
  have hget : Node.Counts { n with getCount := n.getCount - 1 } 1 (if cfg.callerFree then x.stack.length + 0 else 0)
      (x.stack.countP (fun op => op = .read true) + 0) (x.stack.countP Op.isWrite + 0) := by
    have hcounts := hcounted.counts hn
    rw [if_pos hfree] at hcounts ⊢
    exact hcounts.decGet
  have hy : x.SameLocks y := ⟨rfl, rfl, rfl⟩
  obtain ⟨hgot, hnode⟩ := hcounted.usePut hy unmarked rfl hget rfl
  have hplaced : y.Placed cfg := h.placed.of_eq hpc (by simp) rfl rfl
  have hgoes := hplaced.goes_idle hpc hgot (by rw [hm])
  have hlk : y.ownsLk = x.ownsLk := rfl
  exact .goes ⟨hgoes.ok, hgoes.locks, hgoes.lk.trans hlk, fun _ => hgoes.node hnode⟩ .inl

theorem rdlock_outcome (hpc : x.pc = .busy (.read true) (.use .lock) false) :
    Outcome cfg s t x (s.rdlock cfg t x (.read true) false n) := by
  obtain ⟨hwrites, hrecursive⟩ := (h.nested_busy hpc).below_read
  have hdepth := h.reads_lt hpc
  have hcounted := h.counted_busy hpc
  have hcounts := hcounted.counts hn
  rw [countP_eq_zero_of_forall hwrites] at hcounts
  have hnew := hcounts.incRdlock
  unfold rdlock
  rw [if_neg (by rw [hcounts.wrlocked_eq (by exact Nat.lt_of_succ_lt hdepth)]; decide), if_neg ?_]
  · have hlocks : x.SameLocks { x with node := Node.put { n with lockCount := n.lockCount + 1 } } := ⟨rfl, rfl, rfl⟩
    obtain ⟨hput, hnode⟩ := hcounted.usePut hlocks ((Op.read true).marks .rdRaw) rfl
      (by rw [countP_eq_zero_of_forall hwrites]; exact hnew) rfl
    have hone := hnew.rdlockCount_eq_iff hdepth (Nat.zero_le _) 1 (by decide)
    dsimp only
    split
    · -- the outermost read
      rename_i heq
      refine outcome_node h hpc rfl rfl ⟨rfl, rfl, rfl⟩ (hput.same rfl ⟨rfl, rfl, rfl⟩) rfl hnode rfl fun _ hmem => ?_
      have hpos : 0 < x.stack.countP (fun op => op = .read true) := List.countP_pos_iff.2 ⟨_, hmem, by simp⟩
      have := hone.1 heq
      omega
    · rename_i hne
      have hmem : .read true ∈ x.stack := by
        by_contra hmem
        exact hne (hone.2 (by rw [countP_eq_zero_of_notMem hmem]; rfl))
      exact outcome_node h hpc rfl rfl ⟨rfl, rfl, rfl⟩ ((hput.nested hmem true).same rfl ⟨rfl, rfl, rfl⟩) rfl hnode rfl (by simp)
  · -- a read within another, of an object that is not recursive
    rcases hrecursive with hrec | hmem
    · simp [hrec]
    · have hzero := (hcounts.rdlockCount_eq_iff (Nat.lt_of_succ_lt hdepth) (Nat.zero_le _) 0 (by decide)).2
        (by rw [countP_eq_zero_of_notMem hmem]; rfl)
      simp [hzero]

theorem rdunlock_outcome (hpc : x.pc = .busy (.read true) (.use .unlock) refused) :
    Outcome cfg s t x (s.rdunlock t x (.read true) refused n) := by
  obtain ⟨hwrites, -⟩ := (h.nested_busy hpc).below_read
  have hdepth := h.reads_lt hpc
  have hcounted := h.counted_busy hpc
  have hcounts := hcounted.counts hn
  rw [countP_eq_zero_of_forall hwrites] at hcounts
  have hnew := hcounts.decRdlock
  have hlocks : x.SameLocks { x with node := Node.put { n with lockCount := n.lockCount - 1 } } := ⟨rfl, rfl, rfl⟩
  obtain ⟨hput, hnode⟩ := hcounted.usePut hlocks ((Op.read true).marks .rdUnraw) rfl
    (by rw [countP_eq_zero_of_forall hwrites]; exact hnew) rfl
  have hzero := hnew.rdlockCount_eq_iff (Nat.lt_of_succ_lt hdepth) (Nat.zero_le _) 0 (by decide)
  unfold rdunlock
  dsimp only
  split
  · -- the outermost read
    rename_i heq
    refine outcome_node h hpc rfl rfl ⟨rfl, rfl, rfl⟩ (hput.same rfl ⟨rfl, rfl, rfl⟩) rfl hnode rfl fun _ hmem => ?_
    have hpos : 0 < x.stack.countP (fun op => op = .read true) := List.countP_pos_iff.2 ⟨_, hmem, by simp⟩
    have := hzero.1 heq
    omega
  · rename_i hne
    have hmem : .read true ∈ x.stack := by
      by_contra hmem
      exact hne (hzero.2 (countP_eq_zero_of_notMem hmem))
    refine outcome_node h hpc rfl rfl ⟨rfl, rfl, rfl⟩ ((hput.nested hmem false).same rfl ⟨rfl, rfl, rfl⟩) rfl hnode ?_ (by simp)
    simp [Op.fits]

theorem wrlock_outcome {rdlocked : Bool} (hpc : x.pc = .busy (.write rdlocked) (.use .lock) false) :
    Outcome cfg s t x (s.wrlock t x (.write rdlocked) false n rdlocked) := by
  have hbelow := ((h.nested_busy hpc).below_write (.inl rfl)).1
  have hcounted := h.counted_busy hpc
  have hcounts := hcounted.counts hn
  have hwrites := countP_eq_zero_of_forall fun o ho => (hbelow o ho).1
  have hreads : x.stack.countP (fun op => op = .read true) = 0 := countP_eq_zero_of_notMem fun hm => (hbelow _ hm).2 rfl
  rw [hwrites, hreads] at hcounts
  unfold wrlock
  rw [if_pos ((hcounts.lockFree_iff (by cases rdlocked <;> decide) (by cases rdlocked <;> decide)).2
    (by cases rdlocked <;> exact ⟨rfl, rfl⟩))]
  have hlocks : x.SameLocks { x with node := Node.put { n with lockCount := 0x80000000 } } := ⟨rfl, rfl, rfl⟩
  obtain ⟨hput, hnode⟩ := hcounted.usePut hlocks ((Op.write rdlocked).marks .wrWant) (by cases rdlocked <;> rfl)
    (by rw [hwrites, hreads]; cases rdlocked <;> exact hcounts.setWrlocked) rfl
  cases rdlocked with
  | true => exact outcome_node h hpc rfl rfl ⟨rfl, rfl, rfl⟩ (hput.same rfl ⟨rfl, rfl, rfl⟩) rfl hnode rfl (by simp)
  | false => exact outcome_node h hpc rfl rfl ⟨rfl, rfl, rfl⟩ (hput.same rfl ⟨rfl, rfl, rfl⟩) rfl hnode rfl (by simp)

theorem wrunlock_outcome {rdlocked : Bool} (hpc : x.pc = .busy (.write rdlocked) (.use .unlock) refused) :
    Outcome cfg s t x (s.use cfg t x (.write rdlocked) refused n .unlock) := by
  have hfits := h.fits_busy hpc (by simp)
  have hbelow := ((h.nested_busy hpc).below_write (.inl rfl)).1
  have hcounted := h.counted_busy hpc
  have hwrites := countP_eq_zero_of_forall fun o ho => (hbelow o ho).1
  have hreads : x.stack.countP (fun op => op = .read true) = 0 := countP_eq_zero_of_notMem fun hm => (hbelow _ hm).2 rfl
  have hlocks : x.SameLocks { x with node := Node.put { n with lockCount := 0 } } := ⟨rfl, rfl, rfl⟩
  obtain ⟨hput, hnode⟩ := hcounted.usePut hlocks ((Op.write rdlocked).marks .wrUnraw) (by cases rdlocked <;> rfl)
    (by rw [hwrites, hreads]; cases rdlocked <;> exact (hcounted.counts hn).clrWrlocked) rfl
  refine outcome_node h hpc rfl rfl ⟨rfl, rfl, rfl⟩ (hput.same rfl ⟨rfl, rfl, rfl⟩) ?_ hnode ?_ (by simp)
  · cases rdlocked <;> rfl
  · cases rdlocked <;> cases refused <;> first | rfl | cases hfits

theorem look_outcome (hpc : x.pc = .busy op (.use .look) refused) :
    Outcome cfg s t x (s.use cfg t x op refused n .look) := by
  have hfits := h.fits_busy hpc (by simp)
  rcases op with _ | _ | _ | _ | del <;> try cases hfits
  have hbelow := ((h.nested_busy hpc).below_write (.inr rfl)).1
  have hcounted := h.counted_busy hpc
  have hcounts := hcounted.counts hn
  have hreads : x.stack.countP (fun op => op = .read true) = 0 := countP_eq_zero_of_notMem fun hm => (hbelow _ hm).2 rfl
  have hwrites := countP_eq_zero_of_forall fun o ho => (hbelow o ho).1
  have hzero : n.rdlockCount = 0 := by
    rw [hreads, hwrites] at hcounts
    exact (hcounts.rdlockCount_eq_iff (by cases del <;> decide) (by cases del <;> decide) 0 (by decide)).2 rfl
  have hlocks : x.SameLocks { x with node := n.put } := ⟨rfl, rfl, rfl⟩
  obtain ⟨hput, hnode⟩ := hcounted.usePut hlocks ((Op.destroy del).marks .uninstall) rfl hcounts rfl
  show Outcome cfg s t x (if n.rdlockCount = 0 then _ else _)
  rw [if_pos hzero]
  exact outcome_node h hpc rfl rfl ⟨rfl, rfl, rfl⟩ (hput.same rfl ⟨rfl, rfl, rfl⟩) rfl hnode hfits (by simp)

theorem use_outcome {u : Use} (hpc : x.pc = .busy op (.use u) refused) :
    Outcome cfg s t x (s.use cfg t x op refused n u) := by
  have hfits := h.fits_busy hpc (by simp)
  cases u with
  | inc => exact inc_outcome h hn hpc
  | dec => exact dec_outcome h hn hpc
  | look => exact look_outcome h hn hpc
  | lock =>
    rcases op with _ | ⟨_ | _⟩ | rdlocked | _ | _ <;> cases refused <;> try cases hfits
    · exact rdlock_outcome h hn hpc
    · exact wrlock_outcome h hn hpc
  | unlock =>
    rcases op with _ | ⟨_ | _⟩ | rdlocked | _ | _ <;> try cases hfits
    · exact rdunlock_outcome h hn hpc
    · exact wrunlock_outcome h hn hpc

end

/-! ### The lock -/

/-- The look at `destroyed`: who holds the lock of a queue finds it clear. -/
theorem check_outcome (h : x.Ok cfg) (hpc : x.pc = .busy op .check refused)
    (hlive : .invoke true ∈ x.stack → s.destroyed = false) : Outcome cfg s t x (s.check cfg t x op refused) := by
  have hfits := h.fits_busy hpc (by simp)
  have hnested := h.nested_busy hpc
  unfold check
  rcases hd : s.destroyed with _ | _
  · rcases op with _ | ⟨_ | _⟩ | ⟨_ | _⟩ | ⟨_ | _⟩ | del <;> cases refused <;> try cases hfits
    · exact .goes (h.run hpc rfl rfl) fun _ => .inr hd
    · exact .goes (h.run hpc rfl rfl) fun _ => .inr hd
    · exact .goes (h.run hpc rfl rfl) fun _ => .inr hd
    · exact .goes (h.run hpc rfl rfl) fun _ => .inr hd
    · exact .goes (h.run hpc rfl rfl) fun _ => .inr hd
    · exact .goto h hpc rfl rfl (by decide)
  · rcases op with _ | ⟨_ | _⟩ | ⟨_ | _⟩ | ⟨_ | _⟩ | del <;> cases refused <;> try cases hfits
    · exact .goto h hpc rfl rfl (by decide)
    · exact .goto h hpc rfl rfl (by decide)
    · exact absurd (hlive hnested.below_upgrade) (by simp [hd])
    · exact .goes (h.put hpc rfl rfl) fun hq => .inl (put_stack ▸ hq)
    · exact .goto h hpc rfl rfl (by decide)
    · exact .goes (h.done hpc rfl) .inl

theorem moves_lock {st' : Stage} (h : x.Ok cfg) (hpc : x.pc = .busy op st refused)
    (hthreads : s'.threads = s.threads.set t x') (hpc' : x'.pc = .busy op st' refused) (hstack : x'.stack = x.stack)
    (hcounted : x'.Counted cfg x.stack (op.marks st')) (hfits : op.fits cfg refused st' = true)
    (hst' : st' ≠ .rdRaw ∧ st' ≠ .rdUnraw) (hrest : s'.aborted = s.aborted ∧ s'.destroyed = s.destroyed) (hnode : x'.node = x.node)
    (hwrite : x'.write = true → x'.raw ≤ x.raw ∧ (x.write = true ∨ s.free = true))
    (hraw : x'.raw ≤ x.raw ∨ s.noWriter = true)
    (hlk : s'.lk = s.lk ∧ (op.marks st').lk = (op.marks st).lk ∨ s.lk = none ∧ s'.lk = some t ∧ (op.marks st').lk = true ∨
      (op.marks st).lk = true ∧ s'.lk = none ∧ (op.marks st').lk = false ∧ ∀ o ∈ x.stack, o.isWrite = false)
    (hreads : .read true ∈ x.stack → x'.reads = x.reads) : Outcome cfg s t x s' := by
  refine .moves ⟨hthreads, hrest.1, h.used hpc hpc' hstack hcounted hfits fun h => absurd h (not_or.2 hst'), hwrite, hraw, ?_,
    .inl ⟨hrest.2, fun hq => .inl (hstack ▸ hq)⟩, hreads, fun hn => hnode ▸ hn⟩
  rw [x.ownsLk_busy hpc, x'.ownsLk_busy hpc', hstack]
  rcases hlk with ⟨hsame, hm⟩ | ⟨hnone, hsome, hm⟩ | ⟨hm, hnone, hm', hl⟩
  · exact .inl ⟨hsame, by rw [hm]⟩
  · exact .inr (.inl ⟨hnone, hsome, by rw [hm, Bool.or_true]⟩)
  · refine .inr (.inr ⟨by rw [hm, Bool.or_true], hnone, ?_⟩)
    rw [hm', Bool.or_false, List.any_eq_false]
    exact fun o ho => by simp [hl o ho]

theorem noWriter_iff : s.noWriter = true ↔ ∀ y ∈ s.threads, y.write = false := by
  simp [noWriter]

theorem free_iff : s.free = true ↔ ∀ y ∈ s.threads, y.raw = 0 ∧ y.write = false := by
  simp [free, Thread.raw, and_assoc]

section
variable (h : x.Ok cfg) (hx : x ∈ s.threads)
include h hx

/-- The raw lock for reading is taken by `k_rwlock_rdlock` or by `k_rwlock_wr2rdlock`. -/
theorem moves_rdlock {st' : Stage} (hw : s.noWriter = true) (hpc : x.pc = .busy op st refused)
    (hpc' : x'.pc = .busy op st' refused) (hstack : x'.stack = x.stack) (hcounted : x'.Counted cfg x.stack (op.marks st'))
    (hfits : op.fits cfg refused st' = true) (hst' : st' ≠ .rdRaw ∧ st' ≠ .rdUnraw) (hnode : x'.node = x.node)
    (hwrite : x'.write = x.write) (hm : (op.marks st').lk = (op.marks st).lk)
    (hreads : .read true ∈ x.stack → x'.reads = x.reads) : Outcome cfg s t x (s.setThread t x') := by
  refine moves_lock h hpc rfl hpc' hstack hcounted hfits hst' ⟨rfl, rfl⟩ hnode (fun hx' => ?_) (.inr hw) (.inl ⟨rfl, hm⟩) hreads
  rw [hwrite, noWriter_iff.1 hw x hx] at hx'
  cases hx'

theorem rdRaw_outcome (hpc : x.pc = .busy op .rdRaw refused) (hw : s.noWriter = true) :
    Outcome cfg s t x (s.setThread t { x with reads := x.reads + 1, pc := .busy op .check refused }) := by
  have hfits := h.fits_busy hpc (by simp)
  rcases op with _ | ⟨_ | _⟩ | _ | _ | _ <;> cases refused <;> try cases hfits
  have hl := h.placed.outermost _ _ _ hpc (.inl rfl)
  exact moves_rdlock h hx hw hpc rfl rfl ((h.counted_busy hpc).rdlock hl rfl rfl rfl rfl rfl) rfl (by decide) rfl rfl rfl
    fun hm => absurd hm hl

theorem invokeRaw_outcome (hpc : x.pc = .busy op .invokeRaw refused) (hw : s.noWriter = true) :
    Outcome cfg s t x (s.setThread t { x with queueReads := x.queueReads + 1, pc := .busy op .check refused }) := by
  have hfits := h.fits_busy hpc (by simp)
  rcases op with _ | _ | _ | ⟨_ | _⟩ | _ <;> cases refused <;> try cases hfits
  exact moves_rdlock h hx hw hpc rfl rfl
    ((h.counted_busy hpc).queue ((Op.invoke true).marks .check) rfl rfl rfl rfl rfl) rfl (by decide) rfl rfl rfl
    fun _ => rfl

theorem dnWait_outcome (hpc : x.pc = .busy op .dnWait refused) (hw : s.noWriter = true) :
    Outcome cfg s t x (s.setThread t { x with queueReads := x.queueReads + 1, pc := .busy op .dnUnlk refused }) := by
  have hfits := h.fits_busy hpc (by simp)
  rcases op with _ | _ | ⟨_ | _⟩ | _ | _ <;> cases refused <;> try cases hfits
  exact moves_rdlock h hx hw hpc rfl rfl
    ((h.counted_busy hpc).queue ((Op.write true).marks .dnUnlk) rfl rfl rfl rfl rfl) rfl (by decide) rfl rfl rfl
    fun _ => rfl

end

theorem takeLk_outcome {st' : Stage} (h : x.Ok cfg) (hpc : x.pc = .busy op st refused) (hlk : s.lk = none)
    (hm : op.marks st' = { op.marks st with lk := true }) (hfits : op.fits cfg refused st' = true)
    (hst' : st' ≠ .rdRaw ∧ st' ≠ .rdUnraw) :
    Outcome cfg s t x { s.setThread t (x.goto op st' refused) with lk := some t } := by
  have hcounted : (x.goto op st' refused).Counted cfg x.stack (op.marks st') := by
    rw [hm]
    exact ((h.counted_busy hpc).of_lk true).same rfl ⟨rfl, rfl, rfl⟩
  exact moves_lock h hpc rfl rfl rfl hcounted hfits hst' ⟨rfl, rfl⟩ rfl (fun hw => ⟨Nat.le_refl _, .inl hw⟩)
    (.inl (Nat.le_refl _)) (.inr (.inl ⟨hlk, rfl, by rw [hm]⟩)) fun _ => rfl

theorem dropLk_outcome {st' : Stage} (h : x.Ok cfg) (hpc : x.pc = .busy op st refused) (hlk : (op.marks st).lk = true)
    (hop : op.isWrite = true ∨ op.isDestroy = true) (hm : op.marks st' = { op.marks st with lk := false })
    (hfits : op.fits cfg refused st' = true) (hst' : st' ≠ .rdRaw ∧ st' ≠ .rdUnraw)
    (hs' : s'.threads = s.threads.set t (x.goto op st' refused)) (hrest : s'.aborted = s.aborted ∧ s'.destroyed = s.destroyed)
    (hnone : s'.lk = none) : Outcome cfg s t x s' := by
  have hbelow := ((h.nested_busy hpc).below_write hop).1
  have hcounted : (x.goto op st' refused).Counted cfg x.stack (op.marks st') := by
    rw [hm]
    exact ((h.counted_busy hpc).of_lk false).same rfl ⟨rfl, rfl, rfl⟩
  exact moves_lock h hpc hs' rfl rfl hcounted hfits hst' hrest rfl (fun hw => ⟨Nat.le_refl _, .inl hw⟩)
    (.inl (Nat.le_refl _)) (.inr (.inr ⟨hlk, hnone, by rw [hm], fun o ho => (hbelow o ho).1⟩)) fun _ => rfl

theorem takeWrite_outcome {st' : Stage} (h : x.Ok cfg) (hpc : x.pc = .busy op st refused) (hfree : s.free = true)
    (hop : op.isWrite = true ∨ op.isDestroy = true) (hm : op.marks st' = { op.marks st with writes := true })
    (hfits : op.fits cfg refused st' = true) (hst' : st' ≠ .rdRaw ∧ st' ≠ .rdUnraw) :
    Outcome cfg s t x (s.setThread t { x with write := true, pc := .busy op st' refused }) := by
  have hbelow := ((h.nested_busy hpc).below_write hop).1
  refine moves_lock h hpc rfl rfl rfl ?_ hfits hst' ⟨rfl, rfl⟩ rfl (fun _ => ⟨Nat.le_refl _, .inr hfree⟩)
    (.inl (Nat.le_refl _)) (.inl ⟨rfl, by rw [hm]⟩) fun _ => rfl
  rw [hm]
  exact (h.counted_busy hpc).setWrite (fun o ho => (hbelow o ho).1) rfl rfl rfl rfl

theorem wrTry_outcome (h : x.Ok cfg) (hpc : x.pc = .busy op .wrTry refused) (hs' : s.lockStep cfg t x op refused .wrTry = some s') :
    Outcome cfg s t x s' := by
  have hfits := h.fits_busy hpc (by simp)
  simp only [lockStep] at hs'
  split at hs'
  · rename_i hfree
    obtain rfl := Option.some.inj hs'
    rcases op with _ | _ | ⟨_ | _⟩ | _ | del <;> cases refused <;> try cases hfits
    · exact takeWrite_outcome h hpc hfree (.inl rfl) rfl rfl ⟨nofun, nofun⟩
    · exact takeWrite_outcome h hpc hfree (.inr rfl) rfl rfl ⟨nofun, nofun⟩
  · obtain rfl := Option.some.inj hs'
    rcases op with _ | _ | ⟨_ | _⟩ | _ | del <;> cases refused <;> try cases hfits
    · exact dropLk_outcome h hpc rfl (.inl rfl) rfl rfl (by decide) rfl ⟨rfl, rfl⟩ rfl
    · exact dropLk_outcome h hpc rfl (.inr rfl) rfl rfl (by decide) rfl ⟨rfl, rfl⟩ rfl

theorem upTry_outcome (h : x.Ok cfg) (hpc : x.pc = .busy op .upTry refused) (hs' : s.lockStep cfg t x op refused .upTry = some s') :
    Outcome cfg s t x s' := by
  have hfits := h.fits_busy hpc (by simp)
  rcases op with _ | _ | ⟨_ | _⟩ | _ | _ <;> cases refused <;> try cases hfits
  simp only [lockStep] at hs'
  split at hs'
  · rename_i hlk
    obtain rfl := Option.some.inj hs'
    exact takeLk_outcome h hpc hlk rfl rfl (by decide)
  · split at hs' <;> obtain rfl := Option.some.inj hs'
    · exact .aborts (.inr rfl)
    · exact .stays

theorem upDrop_outcome (h : x.Ok cfg) (hpc : x.pc = .busy op .upDrop refused) (hs' : s.lockStep cfg t x op refused .upDrop = some s') :
    Outcome cfg s t x s' := by
  have hfits := h.fits_busy hpc (by simp)
  rcases op with _ | _ | ⟨_ | _⟩ | _ | _ <;> cases refused <;> try cases hfits
  obtain rfl := Option.some.inj hs'
  have hnested := h.nested_busy hpc
  have hcounted := h.counted_busy hpc
  have hpos : 0 < x.queueReads := by
    have hq := hcounted.queueReads
    have hinvoke : 0 < x.stack.countP (fun op => op = .invoke true) := List.countP_pos_iff.2 ⟨_, hnested.below_upgrade, by simp⟩
    have hzero : x.stack.countP (fun op => op = .write true) = 0 :=
      countP_eq_zero_of_notMem fun hm => by cases ((hnested.below_write (.inl rfl)).1 _ hm).1
    rw [hzero, show ((Op.write true).marks .upDrop).upgrades.toNat = 0 from rfl] at hq
    omega
  refine moves_lock h hpc rfl rfl rfl (hcounted.queue ((Op.write true).marks .upWait) ?_ rfl rfl rfl rfl) rfl (by decide)
    ⟨rfl, rfl⟩ rfl (fun hw => ⟨?_, .inl hw⟩) (.inl ?_) (.inl ⟨rfl, rfl⟩) fun _ => rfl
  · show x.queueReads - 1 + 1 = x.queueReads
    omega
  · exact Nat.add_le_add_left (Nat.sub_le _ _) _
  · exact Nat.add_le_add_left (Nat.sub_le _ _) _

theorem upWait_outcome (h : x.Ok cfg) (hpc : x.pc = .busy op .upWait refused) (hfree : s.free = true) :
    Outcome cfg s t x (s.setThread t { x with write := true, pc := .busy op .check refused }) := by
  have hfits := h.fits_busy hpc (by simp)
  rcases op with _ | _ | ⟨_ | _⟩ | _ | _ <;> cases refused <;> try cases hfits
  exact takeWrite_outcome h hpc hfree (.inl rfl) rfl rfl (by decide)

theorem rdUnraw_outcome (h : x.Ok cfg) (hpc : x.pc = .busy op .rdUnraw refused) :
    Outcome cfg s t x (s.setThread t { x with reads := x.reads - 1, pc := .busy op .cleanup refused }) := by
  have hfits := h.fits_busy hpc (by simp)
  rcases op with _ | ⟨_ | _⟩ | _ | _ | _ <;> try cases hfits
  have hl := h.placed.outermost _ _ _ hpc (.inr rfl)
  exact moves_lock h hpc rfl rfl rfl ((h.counted_busy hpc).rdunlock hl rfl rfl rfl rfl rfl) (by simp [Op.fits]) (by decide)
    ⟨rfl, rfl⟩ rfl (fun hw => ⟨Nat.add_le_add_right (Nat.sub_le _ _) _, .inl hw⟩)
    (.inl (Nat.add_le_add_right (Nat.sub_le _ _) _)) (.inl ⟨rfl, rfl⟩) fun hm => absurd hm hl

theorem wrUnraw_outcome (h : x.Ok cfg) (hpc : x.pc = .busy op .wrUnraw refused) (hs' : s.lockStep cfg t x op refused .wrUnraw = some s') :
    Outcome cfg s t x s' := by
  have hfits := h.fits_busy hpc (by simp)
  obtain rfl := Option.some.inj hs'
  have hdone : ∀ st', (op.isWrite = true ∨ op.isDestroy = true) → op.marks st' = { op.marks .wrUnraw with writes := false } →
      op.fits cfg refused st' = true → st' ≠ .rdRaw ∧ st' ≠ .rdUnraw →
      Outcome cfg s t x (s.setThread t { x with write := false, pc := .busy op st' refused }) := by
    intro st' hop hm hfits' hst'
    have hbelow := ((h.nested_busy hpc).below_write hop).1
    refine moves_lock h hpc rfl rfl rfl ?_ hfits' hst' ⟨rfl, rfl⟩ rfl (fun hw => by cases hw) (.inl (Nat.le_refl _))
      (.inl ⟨rfl, by rw [hm]⟩) fun _ => rfl
    rw [hm]
    exact (h.counted_busy hpc).setWrite (fun o ho => (hbelow o ho).1) rfl rfl rfl rfl
  rcases op with _ | _ | ⟨_ | _⟩ | _ | del <;> cases refused <;> try cases hfits
  · exact hdone .wrUnlk (.inl rfl) rfl rfl (by decide)
  · exact hdone .wrUnlk (.inl rfl) rfl rfl (by decide)
  · exact hdone .dnWait (.inl rfl) rfl rfl (by decide)
  · exact hdone .wrUnlk (.inr rfl) rfl rfl (by decide)
  · exact hdone .wrUnlk (.inr rfl) rfl rfl (by decide)

theorem dnUnlk_outcome (h : x.Ok cfg) (hpc : x.pc = .busy op .dnUnlk refused) (hs' : s.lockStep cfg t x op refused .dnUnlk = some s') :
    Outcome cfg s t x s' := by
  have hfits := h.fits_busy hpc (by simp)
  rcases op with _ | _ | ⟨_ | _⟩ | _ | _ <;> cases refused <;> try cases hfits
  obtain rfl := Option.some.inj hs'
  exact dropLk_outcome h hpc rfl (.inl rfl) rfl rfl (by decide) rfl ⟨rfl, rfl⟩ rfl

theorem invokeUnraw_outcome (h : x.Ok cfg) (hpc : x.pc = .busy op .invokeUnraw refused) :
    Outcome cfg s t x (s.setThread t ({ x with queueReads := x.queueReads - 1 }.put cfg op refused)) := by
  have hfits := h.fits_busy hpc (by simp)
  rcases op with _ | _ | _ | ⟨_ | _⟩ | _ <;> try cases hfits
  have hcounted := h.counted_busy hpc
  have hpos : 0 < x.queueReads := by
    have hq := hcounted.queueReads
    have hle := (h.nested_busy hpc).2.upgrades_le
    rw [show ((Op.invoke true).marks .invokeUnraw).upgrades.toNat = 0 from rfl,
      show ((Op.invoke true).marks .invokeUnraw).invokes.toNat = 1 from rfl] at hq
    omega
  let y : Thread := { x with queueReads := x.queueReads - 1 }
  have hy : y.queueReads + (0 + 1) = x.queueReads + (0 + 0) := by
    show x.queueReads - 1 + 1 = x.queueReads
    omega
  have hplaced : y.Placed cfg := h.placed.of_eq hpc (by simp) rfl rfl
  have hgoes : y.Goes cfg (y.put cfg (.invoke true) refused) :=
    hplaced.goes_put hpc rfl (hcounted.queue gotten hy rfl rfl rfl rfl) rfl
  have hraw : (y.put cfg (.invoke true) refused).raw ≤ x.raw := by
    rw [Thread.raw, hgoes.locks.1, hgoes.locks.2.1]
    exact Nat.add_le_add_left (Nat.sub_le _ _) _
  exact .moves ⟨rfl, rfl, hgoes.ok, fun hw => ⟨hraw, .inl (hgoes.locks.2.2 ▸ hw)⟩, .inl hraw, .inl ⟨rfl, hgoes.lk⟩,
    .inl ⟨rfl, fun hq => .inl (put_stack (x := y) ▸ hq)⟩, fun _ => hgoes.locks.1, hgoes.node⟩

theorem wrUnlk_outcome (h : x.Ok cfg) (hpc : x.pc = .busy op .wrUnlk refused)
    (hs' : s.lockStep cfg t x op refused .wrUnlk = some s') : Outcome cfg s t x s' := by
  have hfits := h.fits_busy hpc (by simp)
  obtain rfl := Option.some.inj hs'
  rcases op with _ | _ | ⟨_ | _⟩ | _ | del <;> try cases hfits
  · exact dropLk_outcome h hpc rfl (.inl rfl) rfl (by simp [Op.fits, Op.isWrite]) (by decide) rfl ⟨rfl, rfl⟩ rfl
  · -- `aosl_ref_destroy` is at its end
    have hbelow := ((h.nested_busy hpc).below_write (.inr rfl)).1
    let y : Thread := { x with pc := .idle }
    have hy : x.SameLocks y := ⟨rfl, rfl, rfl⟩
    have hcounted := ((h.counted_busy hpc).of_lk false).same (rfl : y.node = x.node) hy
    have hok : y.Ok cfg := ⟨h.placed.done hpc rfl rfl, hcounted⟩
    refine .moves ⟨rfl, rfl, hok, fun hw => ⟨Nat.le_refl _, .inl hw⟩, .inl (Nat.le_refl _), .inr (.inr ⟨?_, rfl, ?_⟩),
      .inl ⟨rfl, .inl⟩, fun _ => rfl, id⟩
    · rw [x.ownsLk_busy hpc]
      exact Bool.or_true _
    · rw [Thread.ownsLk_idle rfl, List.any_eq_false]
      exact fun o ho => by simp [(hbelow o ho).1]

theorem lockStep_outcome (h : x.Ok cfg) (hx : x ∈ s.threads) (hpc : x.pc = .busy op st refused)
    (hs' : s.lockStep cfg t x op refused st = some s') : Outcome cfg s t x s' := by
  cases st with
  | rdRaw =>
    simp only [lockStep, Option.ite_none_right_eq_some, Option.some.injEq] at hs'
    exact hs'.2 ▸ rdRaw_outcome h hx hpc hs'.1
  | invokeRaw =>
    simp only [lockStep, Option.ite_none_right_eq_some, Option.some.injEq] at hs'
    exact hs'.2 ▸ invokeRaw_outcome h hx hpc hs'.1
  | wrWant =>
    have hfits := h.fits_busy hpc (by simp)
    simp only [lockStep, Option.ite_none_right_eq_some, Option.some.injEq] at hs'
    obtain ⟨hlk, rfl⟩ := hs'
    rcases op with _ | _ | ⟨_ | _⟩ | _ | del <;> try cases hfits
    · exact takeLk_outcome h hpc hlk rfl hfits (by decide)
    · exact takeLk_outcome h hpc hlk rfl hfits (by decide)
  | wrTry => exact wrTry_outcome h hpc hs'
  | upTry => exact upTry_outcome h hpc hs'
  | upDrop => exact upDrop_outcome h hpc hs'
  | upWait =>
    simp only [lockStep, Option.ite_none_right_eq_some, Option.some.injEq] at hs'
    exact hs'.2 ▸ upWait_outcome h hpc hs'.1
  | rdUnraw => exact Option.some.inj hs' ▸ rdUnraw_outcome h hpc
  | invokeUnraw => exact Option.some.inj hs' ▸ invokeUnraw_outcome h hpc
  | wrUnraw => exact wrUnraw_outcome h hpc hs'
  | wrUnlk => exact wrUnlk_outcome h hpc hs'
  | dnWait =>
    simp only [lockStep, Option.ite_none_right_eq_some, Option.some.injEq] at hs'
    exact hs'.2 ▸ dnWait_outcome h hx hpc hs'.1
  | dnUnlk => exact dnUnlk_outcome h hpc hs'
  | _ => cases hs'

/-! ### The rest of a call -/

theorem set_outcome (h : x.Ok cfg) (hpc : x.pc = .busy op .set refused) :
    Outcome cfg s t x { s.setThread t (x.goto op .wrUnraw refused) with destroyed := true } := by
  have hfits := h.fits_busy hpc (by simp)
  rcases op with _ | _ | _ | _ | del <;> cases refused <;> try cases hfits
  have hbelow := (h.nested_busy hpc).below_write (.inr rfl)
  have hgoes : x.Goes cfg (x.goto (.destroy del) .wrUnraw false) := h.goto hpc rfl rfl (by simp)
  have hw : x.write = true := by
    have hwrite := (h.counted_busy hpc).write
    rw [countP_eq_zero_of_forall fun o ho => (hbelow.1 o ho).1] at hwrite
    cases hxw : x.write with
    | true => rfl
    | false => rw [hxw] at hwrite; cases hwrite
  have hlk : x.ownsLk = true := by
    rw [x.ownsLk_busy hpc]
    exact Bool.or_true _
  exact .moves ⟨rfl, rfl, hgoes.ok, fun _ => ⟨Nat.le_refl _, .inl hw⟩, .inl (Nat.le_refl _), .inl ⟨rfl, hgoes.lk⟩,
    .inr ⟨hw, hlk, hbelow.2 rfl⟩, fun _ => rfl, id⟩

theorem unlocked_outcome {c : Option Nat} (h : x.Ok cfg) (hpc : x.pc = .busy op st refused)
    (hst : st = .cleanup ∨ st = .cleaning) : Outcome cfg s t x ({ s with cleaner := c }.unlocked cfg t x op refused) := by
  have hfits : (op = .read true ∨ op.isWrite = true) ∧ (refused = false ∨ op ≠ .write true) := by
    have hfits := h.fits_busy hpc (by rcases hst with rfl | rfl <;> simp)
    rcases hst with rfl | rfl <;> simpa [Op.fits] using hfits
  have hm : op.marks st = gotten := by
    rcases hst with rfl | rfl <;> rcases op with _ | ⟨_ | _⟩ | ⟨_ | _⟩ | _ | _ <;> first | rfl | simp [Op.isWrite] at hfits
  have hop : op.isDestroy = false := by
    rcases op with _ | _ | _ | _ | _ <;> first | rfl | simp [Op.isWrite] at hfits
  have hnot : ¬(op = .write true ∧ refused = true) := by
    rintro ⟨hop, hr⟩
    rcases hfits.2 with hr' | hop'
    · simp [hr] at hr'
    · exact hop' hop
  unfold unlocked
  rw [if_neg hnot]
  exact .moves (.of_goes (h.put hpc hop hm) rfl rfl rfl rfl fun hq => .inl (put_stack ▸ hq))

theorem uninstall_outcome (h : x.Ok cfg) (hpc : x.pc = .busy op .uninstall refused)
    (hs' : s.advance cfg t x op refused env .uninstall = some s') : Outcome cfg s t x s' := by
  have hfits := h.fits_busy hpc (by simp)
  rcases op with _ | _ | _ | _ | del <;> cases refused <;> try cases hfits
  cases del
  · obtain rfl := Option.some.inj hs'
    exact .goto h hpc rfl rfl (by decide)
  · simp only [advance] at hs'
    split at hs' <;> obtain rfl := Option.some.inj hs'
    · have hgoes : x.Goes cfg (x.goto (.destroy true) .check false) := h.goto hpc rfl rfl (by simp)
      exact .moves (.of_goes hgoes rfl rfl rfl rfl .inl)
    · exact .goes (h.done hpc rfl) .inl

theorem advance_outcome (h : x.Ok cfg) (hx : x ∈ s.threads) (hlive : .invoke true ∈ x.stack → s.destroyed = false)
    (hpc : x.pc = .busy op st refused) (hs' : s.advance cfg t x op refused env st = some s') :
    Outcome cfg s t x s' ∨ ∃ v, s' = s.checkErase env.now v := by
  cases st with
  | get => exact .inl (Option.some.inj hs' ▸ get_outcome h hpc)
  | find u =>
    simp only [advance, Option.ite_none_right_eq_some, Option.some.injEq] at hs'
    exact .inl (hs'.2 ▸ find_outcome h hpc)
  | insert u =>
    simp only [advance, Option.ite_none_right_eq_some, Option.some.injEq] at hs'
    exact .inl (hs'.2 ▸ insert_outcome h hpc)
  | use u =>
    simp only [advance, Option.map_eq_some_iff] at hs'
    obtain ⟨n, hn, rfl⟩ := hs'
    exact .inl (use_outcome h hn hpc)
  | check => exact .inl (Option.some.inj hs' ▸ check_outcome h hpc hlive)
  | cleanup =>
    have hfits := h.fits_busy hpc (by simp)
    simp only [advance] at hs'
    split at hs' <;> obtain rfl := Option.some.inj hs'
    · refine .inl (.goto h hpc ?_ hfits (by decide))
      rcases op with _ | ⟨_ | _⟩ | ⟨_ | _⟩ | _ | _ <;> rfl
    · exact .inl (unlocked_outcome (c := s.cleaner) h hpc (.inl rfl))
  | cleanWant =>
    have hfits := h.fits_busy hpc (by simp)
    simp only [advance, Option.ite_none_right_eq_some, Option.some.injEq] at hs'
    obtain ⟨-, rfl⟩ := hs'
    have hmarks : op.marks .cleaning = op.marks .cleanWant := by
      rcases op with _ | ⟨_ | _⟩ | ⟨_ | _⟩ | _ | _ <;> rfl
    have hgoes : x.Goes cfg (x.goto op .cleaning refused) := h.goto hpc hmarks hfits (by simp)
    exact .inl (.moves (.of_goes hgoes rfl rfl rfl rfl .inl))
  | cleaning =>
    simp only [advance] at hs'
    split at hs' <;> obtain rfl := Option.some.inj hs'
    · exact .inr ⟨_, rfl⟩
    · exact .inl (unlocked_outcome h hpc (.inr rfl))
  | uninstall => exact .inl (uninstall_outcome h hpc hs')
  | set => exact .inl (Option.some.inj hs' ▸ set_outcome h hpc)
  | _ => exact .inl (lockStep_outcome h hx hpc hs')

/-! ### Calls of the user -/

theorem start_goes {c : Call} (h : x.Ok cfg) (hpc : x.pc = .idle) (hc : WellNested cfg x.stack c)
    (hdepth : x.stack.length + 1 < 0x80000000) : x.Goes cfg (x.goto (c.op cfg x.stack) .get false) := by
  have hcounted := h.counted
  have hnested := h.placed.nested
  rw [Thread.marks_idle hpc] at hcounted
  rw [Thread.calls_idle hpc] at hnested
  refine ⟨⟨⟨⟨⟨c, rfl, hc⟩, hnested⟩, hdepth, h.placed.stack, rfl, ?_⟩, ?_⟩, ⟨rfl, rfl, rfl⟩, ?_, id⟩
  · intro o s' r hx hs
    obtain ⟨-, rfl, -⟩ := Pc.busy.inj hx
    simp at hs
  · rw [Thread.marks_busy (x := x.goto (c.op cfg x.stack) .get false) rfl, Op.marks_get]
    exact hcounted.same rfl ⟨rfl, rfl, rfl⟩
  · rw [Thread.ownsLk_idle hpc, Thread.ownsLk_busy (x := x.goto (c.op cfg x.stack) .get false) rfl, Op.marks_get,
      Bool.or_false]
    rfl

theorem ret_goes {rest : List Op} (h : x.Ok cfg) (hpc : x.pc = .idle) (hstack : x.stack = op :: rest) :
    x.Goes cfg (({ x with stack := rest } : Thread).ret cfg op) ∧
      (({ x with stack := rest } : Thread).ret cfg op).stack = rest := by
  have hop : op.isDestroy = false := h.placed.stack op (hstack ▸ List.mem_cons_self)
  have hnested := h.placed.nested
  rw [Thread.calls_idle hpc, hstack] at hnested
  have hcounted := h.counted
  rw [Thread.marks_idle hpc, hstack] at hcounted
  have hcounted := (Thread.Counted.run_iff hop rfl rfl).1 hcounted
  -- the call is on its way again, in a stage with the marks that it left when its function ran
  have hback : ∀ st, op.marks st = op.running → op.fits cfg false st = true → st ≠ .rdRaw ∧ st ≠ .rdUnraw →
      x.Goes cfg (({ x with stack := rest } : Thread).goto op st false) := by
    intro st hm hfits hst
    have hpc' : (({ x with stack := rest } : Thread).goto op st false).pc = .busy op st false := rfl
    refine ⟨⟨h.placed.pop hpc hstack rfl rfl hfits hst, ?_⟩, ⟨rfl, rfl, rfl⟩, ?_, id⟩
    · rw [Thread.marks_busy hpc', hm]
      exact hcounted.same rfl ⟨rfl, rfl, rfl⟩
    · rw [Thread.ownsLk_idle hpc, Thread.ownsLk_busy hpc', hm, hstack, List.any_cons, Bool.or_comm]
      rfl
  have hput : op.running = gotten → x.Goes cfg (({ x with stack := rest } : Thread).put cfg op false) := by
    intro hm
    unfold Thread.put
    split
    · rename_i hfree
      exact hback (.find .dec) ((Op.marks_dec hop).trans hm.symm) (by simp [Op.fits, hop, hfree]) (by decide)
    · rename_i hfree
      have hrest := h.placed.stack
      rw [hstack, List.forall_mem_cons] at hrest
      have hdepth := h.placed.depth
      rw [Thread.calls_idle hpc, hstack] at hdepth
      have hpc' : ({ x with stack := rest, pc := .idle } : Thread).pc = .idle := rfl
      refine ⟨⟨⟨hnested.2, Nat.lt_of_succ_lt hdepth, hrest.2, Thread.fits_idle hpc',
        fun o s r hx => by simp at hx⟩, ?_⟩, ⟨rfl, rfl, rfl⟩, ?_, id⟩
      · rw [Thread.marks_idle hpc']
        rw [hm] at hcounted
        exact (hcounted.of_gets (g := false) (by simpa using hfree)).same rfl ⟨rfl, rfl, rfl⟩
      · rw [Thread.ownsLk_idle hpc, Thread.ownsLk_idle hpc', hstack, List.any_cons, show op.isWrite = false from congrArg Marks.wrlocks hm]
        rfl
  obtain ⟨⟨c, hc, -⟩, hbelow⟩ := hnested
  unfold Thread.ret
  rcases op with _ | locked | rdlocked | locked | del
  · exact ⟨hput rfl, put_stack⟩
  · have hlocked : locked = !cfg.onLockedQ rest := by cases c <;> simp [Call.op] at hc; exact hc
    dsimp only
    rcases hq : cfg.onLockedQ rest with _ | _ <;> rw [hq] at hlocked <;> subst hlocked
    · exact ⟨hback _ rfl rfl (by decide), rfl⟩
    · exact ⟨hput rfl, put_stack⟩
  · exact ⟨hback _ (by cases rdlocked <;> rfl) rfl (by decide), rfl⟩
  · cases locked with
    | true => exact ⟨hback _ rfl rfl (by decide), rfl⟩
    | false => exact ⟨hput rfl, put_stack⟩
  · cases hop

end St

end

end RefNode

end Aosl
