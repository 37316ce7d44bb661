import Aosl.RefNodeStep

/-!
# Who holds the lock of a ref object

A thread holds `stop_lock` by `refobj_thread_rdlock` exactly when its `lock_count` is positive, but between the count and
the raw lock. In every state of every run of well nested calls, by any number of threads: the outermost read takes the lock
and gives it back, a call that is over leaves what there was before it, the clean-up takes the nodes of threads that count
nothing, and the calls of `abort` for misuse are not reached (`lock_counts`). Without the condition on what is called in a
write they are (`not_lock_counts`).
-/

namespace Aosl
open Lib

namespace RefNode

/-- The counts and holdings of every thread are those of its calls, what the threads hold of `stop_lock` excludes each other,
and the object is not destroyed while the function of a queue that has the lock runs. -/
structure Inv (cfg : Cfg) (s : St) : Prop where
  ok : ∀ (t : Nat) (x : Thread), s.threads[t]? = some x → x.Ok cfg
  excl : ∀ (t : Nat) (x : Thread) (u : Nat) (y : Thread), s.threads[t]? = some x → s.threads[u]? = some y →
    x.write = true → y.raw = 0 ∧ (u ≠ t → y.write = false)
  lk : ∀ (t : Nat) (x : Thread), s.threads[t]? = some x → (x.ownsLk = true ↔ s.lk = some t)
  live : ∀ (t : Nat) (x : Thread), s.threads[t]? = some x → .invoke true ∈ x.stack → s.destroyed = false
  aborted : ∀ a, s.aborted = some a → a = .noMem ∨ a = .twoUpgrades

section
variable {cfg : Cfg} {s s' : St} {t : Nat} {x x' : Thread} {n : Node} {now : UInt64}

theorem inv_init (n : Nat) : Inv cfg (St.init n) := by
  have hthread : ∀ (t : Nat) x, (St.init n).threads[t]? = some x → x = ⟨[], .idle, none, 0, 0, false⟩ := fun t x hx =>
    (List.eq_replicate_iff.1 rfl).2 x (List.mem_of_getElem? hx)
  constructor
  · intro t x hx
    obtain rfl := hthread t x hx
    refine ⟨⟨trivial, by decide, by simp, rfl, nofun⟩, ⟨?_, rfl, rfl, rfl⟩⟩
    cases cfg.callerFree <;> exact ⟨rfl, rfl, rfl, rfl⟩
  · intro t x u y hx _ hw
    obtain rfl := hthread t x hx
    cases hw
  · intro t x hx
    obtain rfl := hthread t x hx
    exact ⟨nofun, nofun⟩
  · intro t x hx hq
    obtain rfl := hthread t x hx
    cases hq
  · exact nofun

/-- A queue function that runs with the lock holds the raw lock, or its thread upgrades and has `lk`. -/
theorem Thread.Ok.invoking (h : x.Ok cfg) (hq : .invoke true ∈ x.stack) (hraw : x.raw = 0) : x.ownsLk = true := by
  have hcounted := h.counted.queueReads
  have hpos : 0 < x.stack.countP (fun op => op = .invoke true) := List.countP_pos_iff.2 ⟨_, hq, by simp⟩
  rw [Thread.raw, Nat.add_eq_zero_iff] at hraw
  rw [ownsLk, Bool.or_eq_true]
  by_cases hup : 0 < x.stack.countP (fun op => op = .write true)
  · obtain ⟨op, hmem, hop⟩ := List.countP_pos_iff.1 hup
    rw [decide_eq_true_iff] at hop
    exact .inl (List.any_eq_true.2 ⟨op, hmem, by rw [hop]; rfl⟩)
  · right
    have hmark : x.marks.upgrades = true := by
      cases hm : x.marks.upgrades with
      | true => rfl
      | false =>
        rw [hm, Bool.toNat_false] at hcounted
        omega
    rcases hpc : x.pc with _ | ⟨op, st, refused⟩
    · rw [marks_idle hpc] at hmark
      cases hmark
    · rw [marks_busy hpc] at hmark ⊢
      simp only [Op.marks, Bool.and_eq_true, decide_eq_true_eq] at hmark
      obtain ⟨rfl, hst⟩ := hmark
      cases st <;> first | rfl | (rename_i u; cases u <;> first | rfl | cases hst) | cases hst

theorem Moves.inv (h : Inv cfg s) (hx : s.threads[t]? = some x) (hm : Moves cfg s s' t x x') : Inv cfg s' := by
  have hcases : ∀ {u : Nat} {y : Thread}, s'.threads[u]? = some y → u = t ∧ y = x' ∨ u ≠ t ∧ s.threads[u]? = some y :=
    fun hy => getElem?_set_cases (hm.threads ▸ hy)
  have hwriter : s.noWriter = true → ∀ {u : Nat} {y : Thread}, s.threads[u]? = some y → y.write = false :=
    fun hw _ _ hy => St.noWriter_iff.1 hw _ (List.mem_of_getElem? hy)
  have hfree : s.free = true → ∀ {u : Nat} {y : Thread}, s.threads[u]? = some y → y.raw = 0 ∧ y.write = false :=
    fun hf _ _ hy => St.free_iff.1 hf _ (List.mem_of_getElem? hy)
  constructor
  · intro u y hy
    obtain ⟨rfl, rfl⟩ | ⟨-, hy⟩ := hcases hy
    · exact hm.ok
    · exact h.ok u y hy
  · intro u y v z hy hz hw
    obtain ⟨rfl, rfl⟩ | ⟨hne, hy⟩ := hcases hy
    · -- the thread that steps has the lock for writing
      obtain ⟨hraw, hx' | hf⟩ := hm.write hw
      · obtain ⟨rfl, rfl⟩ | ⟨hne', hz⟩ := hcases hz
        · have := (h.excl _ _ _ _ hx hx hx').1
          exact ⟨by omega, fun hne => absurd rfl hne⟩
        · exact ⟨(h.excl _ _ _ _ hx hz hx').1, fun _ => (h.excl _ _ _ _ hx hz hx').2 hne'⟩
      · obtain ⟨rfl, rfl⟩ | ⟨hne', hz⟩ := hcases hz
        · have := (hfree hf hx).1
          exact ⟨by omega, fun hne => absurd rfl hne⟩
        · exact ⟨(hfree hf hz).1, fun _ => (hfree hf hz).2⟩
    · obtain ⟨rfl, rfl⟩ | ⟨hne', hz⟩ := hcases hz
      · obtain ⟨hraw, hno⟩ := h.excl _ _ _ _ hy hx hw
        constructor
        · rcases hm.raw with hle | hw'
          · omega
          · rw [hwriter hw' hy] at hw
            cases hw
        · intro hvu
          by_contra hz
          obtain ⟨-, hx' | hf⟩ := hm.write (by simpa using hz)
          · rw [hno hvu] at hx'
            cases hx'
          · rw [(hfree hf hy).2] at hw
            cases hw
      · exact h.excl _ _ _ _ hy hz hw
  · intro u y hy
    obtain ⟨rfl, rfl⟩ | ⟨hne, hy⟩ := hcases hy
    · rcases hm.lk with ⟨hs, hsame⟩ | ⟨-, hs, hown⟩ | ⟨-, hs, hown⟩
      · rw [hs, hsame]
        exact h.lk _ _ hx
      · rw [hs, hown]
        simp
      · rw [hs, hown]
        simp
    · rw [h.lk _ _ hy]
      rcases hm.lk with ⟨hs, -⟩ | ⟨hnone, hs, -⟩ | ⟨hown, hs, -⟩
      · rw [hs]
      · rw [hs, hnone]
        simp [Ne.symm hne]
      · rw [hs, (h.lk _ _ hx).1 hown]
        simp [Ne.symm hne]
  · intro u y hy hq
    rcases hm.destroyed with ⟨hs, hstack⟩ | ⟨hw, hown, hno⟩
    · rw [hs]
      obtain ⟨rfl, rfl⟩ | ⟨-, hy⟩ := hcases hy
      · rcases hstack hq with hq | hd
        · exact h.live _ _ hx hq
        · exact hd
      · exact h.live _ _ hy hq
    · -- who destroys the object has the lock, and so has nobody else
      exfalso
      obtain ⟨rfl, rfl⟩ | ⟨hne, hy⟩ := hcases hy
      · exact hno hq
      · have hylk := (h.ok _ _ hy).invoking hq (h.excl _ _ _ _ hx hy hw).1
        have hsame := ((h.lk _ _ hy).1 hylk).symm.trans ((h.lk _ _ hx).1 hown)
        exact hne (Option.some.inj hsame)
  · rw [hm.aborted]
    exact h.aborted

/-! ## The clean-up -/

/-- The gets of the thread that it has not put. -/
def Thread.gets (x : Thread) : Nat := x.stack.length + x.marks.gets.toNat

theorem Thread.Ok.gets_le (h : x.Ok cfg) : x.gets < 0x80000000 := by
  have hdepth := h.placed.depth
  rw [gets]
  rcases hpc : x.pc with _ | ⟨op, st, refused⟩
  · rw [calls_idle hpc] at hdepth
    rw [marks_idle hpc]
    exact hdepth
  · rw [calls_busy hpc, List.length_cons] at hdepth
    have := Bool.toNat_le x.marks.gets
    omega

theorem Thread.Ok.reads_lt_pow (h : x.Ok cfg) :
    x.stack.countP (fun op => op = .read true) + x.marks.rdlocks.toNat < 0x80000000 := by
  have hdepth := h.placed.depth
  have hle : x.stack.countP (fun op => op = .read true) ≤ x.stack.length := List.countP_le_length
  rcases hpc : x.pc with _ | ⟨op, st, refused⟩
  · rw [calls_idle hpc] at hdepth
    rw [marks_idle hpc, Bool.toNat_false]
    omega
  · rw [calls_busy hpc, List.length_cons] at hdepth
    have := Bool.toNat_le x.marks.rdlocks
    omega

theorem Thread.Ok.wrlocks_le (h : x.Ok cfg) : x.stack.countP Op.isWrite + x.marks.wrlocks.toNat ≤ 1 ∧
    (0 < x.stack.countP Op.isWrite + x.marks.wrlocks.toNat →
      x.stack.countP (fun op => op = .read true) + x.marks.rdlocks.toNat = 0) := by
  have hle := h.placed.nested.writes_le
  rcases hpc : x.pc with _ | ⟨op, st, refused⟩
  · rw [calls_idle hpc] at hle
    rw [marks_idle hpc]
    exact hle
  · rw [calls_busy hpc, countP_cons_toNat, countP_cons_toNat] at hle
    rw [marks_busy hpc]
    have hw : (op.marks st).wrlocks.toNat ≤ op.isWrite.toNat := by
      simp only [Op.marks]
      cases op.isWrite <;> simp [Bool.toNat_le]
    have hr : (op.marks st).rdlocks.toNat ≤ (decide (op = .read true)).toNat := by
      simp only [Op.marks]
      cases decide (op = .read true) <;> simp [Bool.toNat_le]
    omega

theorem Thread.Ok.of_idleSince (h : x.Ok cfg) (hn : x.node = some n) (hidle : n.idleSince now = true) :
    (x.marks.usage.toNat = 0 ∧ (if cfg.callerFree then x.gets else 0) = 0 ∧
      x.stack.countP (fun op => op = .read true) + x.marks.rdlocks.toNat = 0 ∧
      x.stack.countP Op.isWrite + x.marks.wrlocks.toNat = 0) ∧ n.put = none := by
  refine (h.counted.counts hn).of_idleSince (Bool.toNat_le _) ?_ h.reads_lt_pow h.wrlocks_le.1 hidle
  have := h.gets_le
  split
  · exact this
  · decide

theorem Thread.fits_erase {k : Option Node} (h : x.fits cfg = true) (hn : x.node = some n) :
    ({ x with node := k } : Thread).fits cfg = true := by
  obtain ⟨stack, pc, node, reads, queueReads, write⟩ := x
  subst hn
  rcases pc with _ | ⟨op, st, refused⟩
  · rfl
  · cases st with
    | insert u => cases (fits_insert (x := ⟨stack, .busy op (.insert u) refused, some n, reads, queueReads, write⟩) rfl h).1
    | _ => exact h

theorem Thread.Ok.erase (h : x.Ok cfg) (hn : x.node = some n) (hidle : n.idleSince now = true) :
    ({ x with node := n.put } : Thread).Ok cfg := by
  obtain ⟨hzero, hput⟩ := h.of_idleSince hn hidle
  rw [hput]
  exact ⟨⟨h.placed.nested, h.placed.depth, h.placed.stack, fits_erase h.placed.fits hn, h.placed.outermost⟩,
    ⟨hzero, h.counted.reads, h.counted.queueReads, h.counted.write⟩⟩

theorem checkErase_cases (s : St) (now : UInt64) (v : Nat) : s.checkErase now v = s ∨
    ∃ y n, s.threads[v]? = some y ∧ y.node = some n ∧ n.idleSince now = true ∧
      s.checkErase now v = s.setThread v { y with node := n.put } := by
  unfold St.checkErase
  split
  · exact .inl rfl
  rename_i y hy
  split
  · exact .inl rfl
  rename_i n hn
  split
  · rename_i hidle
    exact .inr ⟨y, n, hy, hn, hidle, rfl⟩
  · exact .inl rfl

theorem Inv.checkErase (h : Inv cfg s) (v : Nat) : Inv cfg (s.checkErase now v) := by
  rcases checkErase_cases s now v with hs | ⟨y, n, hy, hn, hidle, hs⟩
  · rw [hs]
    exact h
  · rw [hs]
    have hok := (h.ok _ _ hy).erase hn hidle
    have hcases : ∀ {u : Nat} {z : Thread}, (s.setThread v { y with node := n.put }).threads[u]? = some z →
        ∃ z', s.threads[u]? = some z' ∧ z.Ok cfg ∧ z.stack = z'.stack ∧ z.pc = z'.pc ∧ z.raw = z'.raw ∧ z.write = z'.write := by
      intro u z hz
      obtain ⟨rfl, rfl⟩ | ⟨-, hz⟩ := getElem?_set_cases hz
      · exact ⟨y, hy, hok, rfl, rfl, rfl, rfl⟩
      · exact ⟨z, hz, h.ok _ _ hz, rfl, rfl, rfl, rfl⟩
    constructor
    · intro u z hz
      obtain ⟨z', -, hz', -⟩ := hcases hz
      exact hz'
    · intro u z u' w hz hw hzw
      obtain ⟨z', hz', -, -, -, -, hzw'⟩ := hcases hz
      obtain ⟨w', hw', -, -, -, hraw, hww⟩ := hcases hw
      rw [hraw, hww]
      exact h.excl _ _ _ _ hz' hw' (hzw' ▸ hzw)
    · intro u z hz
      obtain ⟨z', hz', -, hstack, hpc, -, -⟩ := hcases hz
      rw [Thread.ownsLk, Thread.marks, hstack, hpc]
      exact h.lk _ _ hz'
    · intro u z hz hq
      obtain ⟨z', hz', -, hstack, -⟩ := hcases hz
      exact h.live _ _ hz' (hstack ▸ hq)
    · exact h.aborted

/-! ## Steps and runs -/

/-- What a step does: a step of a thread, or a visit of the clean-up. -/
theorem step_cases {a : Act} (h : Inv cfg s) (hok : s.Allowed cfg a) (hstep : step cfg s a = some s') :
    (∃ t x, s.threads[t]? = some x ∧ Outcome cfg s t x s') ∨ ∃ now v, s' = s.checkErase now v := by
  unfold step at hstep
  split at hstep
  · cases hstep
  cases a with
  | start t c =>
    obtain ⟨x, hx, hstep⟩ := Option.bind_eq_some_iff.1 hstep
    split at hstep
    · rename_i hpc
      obtain rfl := Option.some.inj hstep
      obtain ⟨hc, hdepth⟩ := hok x hx
      exact .inl ⟨t, x, hx, .goes (St.start_goes (h.ok _ _ hx) hpc hc hdepth) .inl⟩
    · cases hstep
  | ret t =>
    obtain ⟨x, hx, hstep⟩ := Option.bind_eq_some_iff.1 hstep
    split at hstep
    · rename_i op rest hpc hstack
      obtain rfl := Option.some.inj hstep
      obtain ⟨hgoes, hrest⟩ := St.ret_goes (h.ok _ _ hx) hpc hstack
      refine .inl ⟨t, x, hx, .goes hgoes fun hq => .inl ?_⟩
      rw [hrest] at hq
      rw [hstack]
      exact List.mem_cons_of_mem _ hq
    · cases hstep
  | go t env =>
    obtain ⟨x, hx, hstep⟩ := Option.bind_eq_some_iff.1 hstep
    split at hstep
    · rename_i op st refused hpc
      rcases St.advance_outcome (h.ok _ _ hx) (List.mem_of_getElem? hx) (h.live _ _ hx) hpc hstep with hout | ⟨v, hv⟩
      · exact .inl ⟨t, x, hx, hout⟩
      · exact .inr ⟨_, v, hv⟩
    · cases hstep

theorem inv_step {a : Act} (h : Inv cfg s) (hok : s.Allowed cfg a) (hstep : step cfg s a = some s') : Inv cfg s' := by
  rcases step_cases h hok hstep with ⟨t, x, hx, hout⟩ | ⟨now, v, rfl⟩
  · cases hout with
    | aborts ha => exact ⟨h.ok, h.excl, h.lk, h.live, fun b hb => Option.some.inj hb ▸ ha⟩
    | stays => exact h
    | moves hm => exact hm.inv h hx
  · exact h.checkErase v

theorem inv_run {n : Nat} {as : List Act} (hok : Along (step cfg) (St.Allowed cfg) (St.init n) as)
    (hrun : exec (step cfg) (St.init n) as = some s) : Inv cfg s :=
  exec_invariant (fun _ _ _ h hok hstep => inv_step h hok hstep) (inv_init n) hok hrun

/-! ## What holds in a run -/

namespace Thread

/-- `lock_count`, nothing without a node. -/
def lockCount (x : Thread) : Int :=
  match x.node with
  | none => 0
  | some n => n.lockCount.toInt

/-- `get_count`. -/
def getCount (x : Thread) : Nat :=
  match x.node with
  | none => 0
  | some n => n.getCount.toNat

/-- In `refobj_thread_rdlock` or `refobj_thread_rdunlock`, between the count and the raw lock. -/
def atRdRaw (x : Thread) : Bool :=
  match x.pc with
  | .busy _ .rdRaw _ | .busy _ .rdUnraw _ => true
  | _ => false

/-- With a raw lock that is not counted: it is about to be given back, or it is that of `aosl_ref_destroy`. -/
def uncounted (x : Thread) : Bool :=
  match x.pc with
  | .busy _ .rdUnraw _ | .busy _ .wrUnraw _ | .busy _ .set _ => true
  | _ => false

/-- The thread holds nothing that its node is there for: no lock, and no get where these are counted. -/
def Unheld (cfg : Cfg) (x : Thread) : Prop :=
  x.lockCount = 0 ∧ (cfg.callerFree = true → x.gets = 0) ∧ (x.uncounted = false → x.reads = 0 ∧ x.write = false)

/-- The thread holds and counts the same. -/
def Same (x x' : Thread) : Prop := x.SameLocks x' ∧ x'.lockCount = x.lockCount ∧ x'.getCount = x.getCount

namespace Ok

theorem lockCount_eq (h : x.Ok cfg) : x.lockCount =
    if 0 < x.stack.countP Op.isWrite + x.marks.wrlocks.toNat then -0x80000000
    else ((x.stack.countP (fun op => op = .read true) + x.marks.rdlocks.toNat : Nat) : Int) := by
  obtain ⟨hw, hr⟩ := h.wrlocks_le
  have hlt := h.reads_lt_pow
  have hcounted := h.counted.node
  unfold Thread.lockCount
  cases hn : x.node with
  | none =>
    rw [hn] at hcounted
    obtain ⟨-, -, hzero, hzero'⟩ := hcounted
    rw [hzero, hzero']
    rfl
  | some n =>
    rw [hn] at hcounted
    dsimp only
    rw [BitVec.toInt_eq_toNat_cond, Node.Counts.toNat_lockCount hcounted hlt hw]
    split <;> split <;> omega

theorem getCount_eq (h : x.Ok cfg) : x.getCount = if cfg.callerFree then x.gets else 0 := by
  have hcounted := h.counted.node
  have hlt := h.gets_le
  unfold Thread.getCount
  cases hn : x.node with
  | none =>
    rw [hn] at hcounted
    exact hcounted.2.1.symm
  | some n =>
    rw [hn] at hcounted
    dsimp only
    rw [hcounted.2.1, UInt32.toNat_ofNat']
    refine Nat.mod_eq_of_lt ?_
    rw [← gets]
    split
    · omega
    · decide

/-- A read holds the raw lock where it counts, but for the two stages between them. -/
theorem marks_reads {st : Stage} {refused : Bool} (h : x.Ok cfg) (hpc : x.pc = .busy (.read true) st refused)
    (hat : st ≠ .rdRaw ∧ st ≠ .rdUnraw) : x.marks.reads = x.marks.rdlocks := by
  rw [marks_busy hpc]
  cases st with
  | find u => cases u <;> rfl
  | use u => cases u <;> rfl
  | insert u => cases u <;> rfl
  | rdRaw => exact absurd rfl hat.1
  | rdUnraw => exact absurd rfl hat.2
  | _ =>
    have hfits := h.fits_busy hpc (by simp)
    first | rfl | simp [Op.fits, Op.isWrite, Op.isDestroy] at hfits

theorem reads_iff (h : x.Ok cfg) (hat : x.atRdRaw = false) : x.reads = 1 ↔ 0 < x.lockCount := by
  have hmarks : x.marks.reads = x.marks.rdlocks := by
    rcases hpc : x.pc with _ | ⟨op, st, refused⟩
    · rw [marks_idle hpc]
    · by_cases hop : op = .read true
      · subst hop
        rw [atRdRaw, hpc] at hat
        exact h.marks_reads hpc ⟨(by rintro rfl; cases hat), (by rintro rfl; cases hat)⟩
      · rw [marks_busy hpc]
        simp [Op.marks, hop]
  have hexcl := h.wrlocks_le.2
  rw [h.counted.reads, hmarks, h.lockCount_eq]
  split <;> omega

theorem same (h : x.Ok cfg) (h' : x'.Ok cfg) (hpc : x.pc = .idle) (hpc' : x'.pc = .idle) (hstack : x'.stack = x.stack) :
    x.Same x' := by
  have hcounted := h.counted
  have hcounted' := h'.counted
  have hmarks : x'.marks = x.marks := by rw [marks_idle hpc, marks_idle hpc']
  rw [hmarks, hstack] at hcounted'
  refine ⟨⟨?_, ?_, ?_⟩, ?_, ?_⟩
  · rw [hcounted.reads, hcounted'.reads]
  · have hq := hcounted.queueReads
    have hq' := hcounted'.queueReads
    omega
  · have hw := hcounted'.write.trans hcounted.write.symm
    cases hx : x.write <;> cases hx' : x'.write <;> rw [hx, hx'] at hw <;> first | rfl | cases hw
  · rw [h.lockCount_eq, h'.lockCount_eq, hmarks, hstack]
  · rw [h.getCount_eq, h'.getCount_eq, gets, gets, hmarks, hstack]

theorem counted_of_locked {st : Stage} (hst : st.locked = true) (hat : st ≠ .rdUnraw ∧ st ≠ .wrUnraw) :
    st.counted = true := by
  cases st with
  | find u => cases u <;> first | rfl | cases hst
  | use u => cases u <;> first | rfl | cases hst
  | rdUnraw => exact absurd rfl hat.1
  | wrUnraw => exact absurd rfl hat.2
  | _ => first | rfl | cases hst

theorem marks_held (hat : x.uncounted = false) :
    (x.marks.reads = true → x.marks.rdlocks = true) ∧ (x.marks.writes = true → x.marks.wrlocks = true) := by
  rcases hpc : x.pc with _ | ⟨op, st, refused⟩
  · rw [marks_idle hpc]
    exact ⟨id, id⟩
  · rw [uncounted, hpc] at hat
    have hst : st ≠ .rdUnraw ∧ st ≠ .wrUnraw := ⟨(by rintro rfl; cases hat), (by rintro rfl; cases hat)⟩
    have hset : st ≠ .set := by rintro rfl; cases hat
    rw [marks_busy hpc]
    simp only [Op.marks, Bool.and_eq_true, Bool.or_eq_true]
    refine ⟨fun hr => ⟨hr.1, counted_of_locked hr.2 hst⟩, fun hw => ?_⟩
    rcases hw with ⟨hop, hlocked⟩ | ⟨-, hdestroying⟩
    · exact ⟨hop, counted_of_locked hlocked hst⟩
    · cases st <;> first | exact absurd rfl hset | exact absurd rfl hst.2 | cases hdestroying

/-- The clean-up takes the node of a thread that holds nothing by it. -/
theorem unheld_of_idleSince (h : x.Ok cfg) (hn : x.node = some n) (hidle : n.idleSince now = true) : x.Unheld cfg := by
  obtain ⟨⟨-, hgets, hr, hw⟩, -⟩ := h.of_idleSince hn hidle
  refine ⟨?_, fun hfree => ?_, fun hat => ⟨?_, ?_⟩⟩
  · rw [h.lockCount_eq, hw, hr]
    rfl
  · rw [if_pos hfree] at hgets
    exact hgets
  · have hmark : x.marks.reads = false := by
      by_contra hmark
      rw [(marks_held hat).1 (by simpa using hmark), Bool.toNat_true] at hr
      omega
    rw [h.counted.reads, hmark, Bool.toNat_false]
    omega
  · have hmark : x.marks.writes = false := by
      by_contra hmark
      rw [(marks_held hat).2 (by simpa using hmark), Bool.toNat_true] at hw
      omega
    have hwrite := h.counted.write
    rw [hmark, Bool.toNat_false] at hwrite
    cases hx : x.write with
    | false => rfl
    | true =>
      rw [hx, Bool.toNat_true] at hwrite
      omega

end Ok

end Thread

/-- What a step does to a thread: the raw lock of its reads stays while one runs, and a node is taken from a thread that
holds nothing by it. -/
theorem step_thread {a : Act} (h : Inv cfg s) (hok : s.Allowed cfg a) (hstep : step cfg s a = some s')
    (hx : s.threads[t]? = some x) (hx' : s'.threads[t]? = some x') :
    (.read true ∈ x.stack → x'.reads = x.reads) ∧ (x.node.isSome = true → x'.node = none → x.Unheld cfg) := by
  have hsame : s'.threads[t]? = some x →
      (.read true ∈ x.stack → x'.reads = x.reads) ∧ (x.node.isSome = true → x'.node = none → x.Unheld cfg) := by
    intro hx''
    obtain rfl := Option.some.inj (hx'.symm.trans hx'')
    exact ⟨fun _ => rfl, fun hn hnone => by simp [hnone] at hn⟩
  rcases step_cases h hok hstep with ⟨u, y, hy, hout⟩ | ⟨now, v, rfl⟩
  · cases hout with
    | aborts ha => exact hsame hx
    | stays => exact hsame hx
    | moves hm =>
      obtain ⟨rfl, rfl⟩ | ⟨hne, -⟩ := getElem?_set_cases (hm.threads ▸ hx')
      · obtain rfl := Option.some.inj (hy.symm.trans hx)
        refine ⟨hm.reads, fun hn hnone => ?_⟩
        have hnode := hm.node hn
        rw [hnone] at hnode
        cases hnode
      · exact hsame (by rw [hm.threads, getElem?_set_ne (Ne.symm hne), hx])
  · rcases checkErase_cases s now v with hs | ⟨y, n, hy, hn, hidle, hs⟩
    · exact hsame (hs.symm ▸ hx)
    · rw [hs] at hx' hsame
      obtain ⟨rfl, rfl⟩ | ⟨hne, -⟩ := getElem?_set_cases hx'
      · obtain rfl := Option.some.inj (hy.symm.trans hx)
        exact ⟨fun _ => rfl, fun _ _ => (h.ok _ _ hx).unheld_of_idleSince hn hidle⟩
      · exact hsame (by rw [St.setThread, getElem?_set_ne (Ne.symm hne), hx])

end

/-- In every run of well nested calls, of any number of threads: the calls of `abort` are for lack of memory and for two
upgrades at once. A thread has the raw lock by its reads at most once, and exactly when its `lock_count` is positive, and
`get_count` is what it has got and not put. What an idle thread holds and counts is a matter of the calls that it is in: a
call that is over, because it was refused or otherwise, leaves it as it was. And in every step: the raw lock stays while a
read runs, and a node is taken from a thread that holds nothing by it. -/
theorem lock_counts {cfg : Cfg} {n : Nat} {as : List Act} {s : St}
    (hok : Along (step cfg) (St.Allowed cfg) (St.init n) as) (hrun : exec (step cfg) (St.init n) as = some s) :
    (∀ a, s.aborted = some a → a = .noMem ∨ a = .twoUpgrades) ∧
    (∀ x ∈ s.threads, x.reads ≤ 1 ∧ (x.atRdRaw = false → (x.reads = 1 ↔ 0 < x.lockCount)) ∧
      (cfg.callerFree = true → x.getCount = x.gets)) ∧
    (∀ (bs : List Act) (s' : St) (t : Nat) (x x' : Thread), Along (step cfg) (St.Allowed cfg) s bs →
      exec (step cfg) s bs = some s' → s.threads[t]? = some x → s'.threads[t]? = some x' →
      x.pc = .idle → x'.pc = .idle → x'.stack = x.stack → x.Same x') ∧
    ∀ (a : Act) (s' : St) (t : Nat) (x x' : Thread), s.Allowed cfg a → step cfg s a = some s' →
      s.threads[t]? = some x → s'.threads[t]? = some x' →
      (.read true ∈ x.stack → x'.reads = x.reads) ∧ (x.node.isSome = true → x'.node = none → x.Unheld cfg) := by
  have hinv := inv_run hok hrun
  refine ⟨hinv.aborted, fun x hx => ?_, fun bs s' t x x' hok' hrun' hx hx' hpc hpc' hstack => ?_,
    fun a s' t x x' hok' hstep hx hx' => step_thread hinv hok' hstep hx hx'⟩
  · obtain ⟨t, hx⟩ := List.getElem?_of_mem hx
    have hthread := hinv.ok t x hx
    refine ⟨?_, hthread.reads_iff, fun hfree => by rw [hthread.getCount_eq, if_pos hfree]⟩
    rw [hthread.counted.reads]
    exact Nat.min_le_left _ _
  · have hinv' : Inv cfg s' := exec_invariant (fun _ _ _ h hok hstep => inv_step h hok hstep) hinv hok' hrun'
    exact (hinv.ok _ _ hx).same (hinv'.ok _ _ hx') hpc hpc' hstack

/-- The next `k` steps of a thread at the time 0, with memory. -/
def goes (t k : Nat) : List Act := List.replicate k (.go t ⟨0, true, none⟩)

/-- A read in a read, an upgrade on the queue that has the lock, and a read that is refused. -/
def mixedRun : List Act :=
  .start 0 .read :: goes 0 8 ++ .start 0 .read :: goes 0 6 ++ .ret 0 :: goes 0 5 ++ .ret 0 :: goes 0 6 ++
    .start 1 .invoke :: goes 1 6 ++ .start 1 .write :: goes 1 9 ++ .ret 1 :: goes 1 8 ++ .ret 1 :: goes 1 3 ++
    .start 1 (.destroy false) :: goes 1 10 ++ .start 0 .read :: goes 0 13

theorem lock_counts_mixed : ∃ s, exec (step ⟨false, true, true⟩) (St.init 2) mixedRun = some s ∧
    (∀ a, s.aborted = some a → a = .noMem ∨ a = .twoUpgrades) ∧
    ∀ x ∈ s.threads, x.reads ≤ 1 ∧ (x.atRdRaw = false → (x.reads = 1 ↔ 0 < x.lockCount)) ∧ x.getCount = x.gets := by
  have hok : Along (step ⟨false, true, true⟩) (St.Allowed ⟨false, true, true⟩) (St.init 2) mixedRun := by decide +kernel
  have hrun : (exec (step ⟨false, true, true⟩) (St.init 2) mixedRun).isSome = true := by decide +kernel
  obtain ⟨s, hs⟩ := Option.isSome_iff_exists.1 hrun
  obtain ⟨haborted, hcounts, -⟩ := lock_counts hok hs
  refine ⟨s, hs, haborted, fun x hx => ?_⟩
  obtain ⟨hle, hiff, hgets⟩ := hcounts x hx
  exact ⟨hle, hiff, hgets rfl⟩

/-! ## Calls that are not well nested -/

/-- A read is in no other read unless the object is recursive, and no write is in a read. -/
def St.NestsReads (cfg : Cfg) (s : St) : Act → Prop
  | .start t .read => cfg.recursive = true ∨ ∀ x ∈ s.threads[t]?, ∀ op ∈ x.stack, op ≠ .read true ∧ op ≠ .read false
  | .start t .write => ∀ x ∈ s.threads[t]?, ∀ op ∈ x.stack, op ≠ .read true ∧ op ≠ .read false
  | .start t (.destroy _) => ∀ x ∈ s.threads[t]?, ∀ op ∈ x.stack, op.locks = false
  | _ => True

instance (cfg : Cfg) (s : St) (a : Act) : Decidable (s.NestsReads cfg a) := by
  unfold St.NestsReads
  split <;> infer_instance

section

/-- A read by the first thread when it has a node and reads. -/
def readAgain : List Act := .start 0 .read :: goes 0 4

/-- One thread in `k` reads. -/
def deepAt (k : Nat) (pc : Pc) (n : Node) : St :=
  ⟨true, false, none, 0, none, [⟨List.replicate k (.read true), pc, some n, 1, 0, false⟩], none⟩

def deep (k : Nat) : St := deepAt k .idle ⟨1, 0, BitVec.ofNat 32 k, 0⟩

theorem rdlock_nested {cfg : Cfg} {s : St} {t : Nat} {x : Thread} {op : Op} {refused : Bool} {n : Node}
    (hw : n.wrlocked = false) (hrec : cfg.recursive = true)
    (hcount : Node.rdlockCount { n with lockCount := n.lockCount + 1 } ≠ 1) : s.rdlock cfg t x op refused n =
      s.setThread t { x with node := Node.put { n with lockCount := n.lockCount + 1 }, pc := .busy op .check refused } := by
  rw [St.rdlock, hw, if_neg Bool.false_ne_true, if_neg (by simp [hrec])]
  dsimp only
  rw [if_neg hcount]

theorem exec_readFind (k : Nat) : exec (step ⟨false, true, false⟩) (deep k) (.start 0 .read :: goes 0 2) =
    some (deepAt k (.busy (.read true) (.use .lock) false) (Node.get ⟨1, 0, BitVec.ofNat 32 k, 0⟩ 0)) := by
  have hq : onThisQ (List.replicate k (.read true)) = false := by simp [onThisQ]
  have hstart : step ⟨false, true, false⟩ (deep k) (.start 0 .read) =
      some (deepAt k (.busy (.read true) .get false) ⟨1, 0, BitVec.ofNat 32 k, 0⟩) := by
    simp [step, deep, deepAt, Call.op, Cfg.onLockedQ, hq, St.setThread, Thread.goto]
  rw [exec_cons, hstart]
  rfl

theorem exec_readAgain {k : Nat} (hk : 0 < k) (hlt : k < 0x80000000) :
    exec (step ⟨false, true, false⟩) (deep k) readAgain = some (deep (k + 1)) := by
  have hcounts : (Node.get ⟨1, 0, BitVec.ofNat 32 k, 0⟩ 0).Counts 1 0 k 0 := Node.Counts.get ⟨rfl, rfl, rfl⟩ 0
  have hnew : BitVec.ofNat 32 k + 1 = BitVec.ofNat 32 (k + 1) := (BitVec.ofNat_add k 1).symm
  have hcount : Node.rdlockCount ⟨1 + 1, 0, BitVec.ofNat 32 k + 1, 0⟩ ≠ 1 := by
    intro h
    have hnat := congrArg BitVec.toNat h
    rw [Node.rdlockCount_toNat, hnew, BitVec.toNat_ofNat, show (1 : BitVec 32).toNat = 1 from rfl] at hnat
    omega
  have huse : step ⟨false, true, false⟩
      (deepAt k (.busy (.read true) (.use .lock) false) (Node.get ⟨1, 0, BitVec.ofNat 32 k, 0⟩ 0)) (.go 0 ⟨0, true, none⟩) =
      some (deepAt k (.busy (.read true) .check false) ⟨1, 0, BitVec.ofNat 32 k + 1, 0⟩) := by
    have hput : Node.put ⟨1 + 1, 0, BitVec.ofNat 32 k + 1, 0⟩ = some ⟨1, 0, BitVec.ofNat 32 k + 1, 0⟩ := by
      simp [Node.put]
    show some (St.rdlock _ _ _ _ _ _ _) = _
    rw [rdlock_nested (hcounts.wrlocked_eq hlt) rfl hcount]
    dsimp only [Node.get]
    rw [hput]
    rfl
  have hsplit : readAgain = (.start 0 .read :: goes 0 2) ++ (.go 0 ⟨0, true, none⟩ :: goes 0 1) := rfl
  rw [hsplit, exec_append, exec_readFind, Option.bind_some, exec_cons, huse, Option.bind_some, hnew]
  rfl

theorem exec_readsAgain {k m : Nat} (hk : 0 < k) (hlt : k + m ≤ 0x80000000) :
    exec (step ⟨false, true, false⟩) (deep k) (List.replicate m readAgain).flatten = some (deep (k + m)) := by
  induction m generalizing k with
  | zero => rfl
  | succ m ih =>
    rw [List.replicate_succ, List.flatten_cons, exec_append, exec_readAgain hk (by omega), Option.bind_some,
      ih (Nat.succ_pos k) (by omega), show k.succ + m = k + (m + 1) by omega]

theorem exec_readTooDeep {k : Nat} (hw : (Node.get ⟨1, 0, BitVec.ofNat 32 k, 0⟩ 0).wrlocked = true) :
    ∃ s, exec (step ⟨false, true, false⟩) (deep k) (.start 0 .read :: goes 0 3) = some s ∧
      s.aborted = some .readInWrite := by
  have hsplit : (.start 0 .read :: goes 0 3) = (.start 0 .read :: goes 0 2) ++ [.go 0 ⟨0, true, none⟩] := rfl
  have huse : step ⟨false, true, false⟩
      (deepAt k (.busy (.read true) (.use .lock) false) (Node.get ⟨1, 0, BitVec.ofNat 32 k, 0⟩ 0)) (.go 0 ⟨0, true, none⟩) =
      some ((deepAt k (.busy (.read true) (.use .lock) false) (Node.get ⟨1, 0, BitVec.ofNat 32 k, 0⟩ 0)).abort
        .readInWrite) := by
    show some (St.rdlock _ _ _ _ _ _ _) = _
    rw [St.rdlock, if_pos hw]
  have hrun : exec (step ⟨false, true, false⟩) (deep k) (.start 0 .read :: goes 0 3) =
      some ((deepAt k (.busy (.read true) (.use .lock) false) (Node.get ⟨1, 0, BitVec.ofNat 32 k, 0⟩ 0)).abort
        .readInWrite) := by
    rw [hsplit, exec_append, exec_readFind, Option.bind_some, exec_cons, huse]
    rfl
  exact ⟨_, hrun, rfl⟩

/-- Reads nested 2^31 times, and another one. -/
def tooDeep : List Act :=
  .start 0 .read :: goes 0 6 ++ (List.replicate 0x7fffffff readAgain).flatten ++ .start 0 .read :: goes 0 3

theorem exec_tooDeep : ∃ s, exec (step ⟨false, true, false⟩) (St.init 1) tooDeep = some s ∧
    s.aborted = some .readInWrite := by
  have hfirst : exec (step ⟨false, true, false⟩) (St.init 1) (.start 0 .read :: goes 0 6) = some (deep 1) := by
    decide +kernel
  obtain ⟨s, hs, haborted⟩ := exec_readTooDeep (k := 1 + 0x7fffffff) (by decide)
  refine ⟨s, ?_, haborted⟩
  rw [tooDeep, List.append_assoc, exec_append, hfirst, Option.bind_some, exec_append, exec_readsAgain Nat.one_pos (by decide),
    Option.bind_some, hs]

theorem nestsReads_deep (m : Nat) : Along (step ⟨false, true, false⟩) (St.NestsReads ⟨false, true, false⟩) (St.init 1)
    (.start 0 .read :: goes 0 6 ++ (List.replicate m readAgain).flatten ++ .start 0 .read :: goes 0 3) := by
  refine along_of_mem fun a ha s => ?_
  have hcases : a = .start 0 .read ∨ a = .go 0 ⟨0, true, none⟩ := by
    simp only [readAgain, goes, List.cons_append, List.mem_append, List.mem_cons, List.mem_flatten,
      List.mem_replicate] at ha
    grind
  obtain rfl | rfl := hcases
  · exact .inl rfl
  · trivial

end

/-- A write, and a read in it. -/
def readInWrite : List Act := .start 0 .write :: goes 0 7 ++ .start 0 .read :: goes 0 3

/-- Two functions on queues that both write. -/
def writesInReads : List Act :=
  .start 0 .invoke :: goes 0 3 ++ .start 1 .invoke :: goes 1 3 ++ .start 0 .write :: goes 0 6 ++ .start 1 .write :: goes 1 5

/-- `abort` is reached by a read in a write, by too many reads in each other, without memory and by two upgrades. -/
theorem not_lock_counts :
    (Along (step ⟨false, false, false⟩) (St.NestsReads ⟨false, false, false⟩) (St.init 1) readInWrite ∧
      (exec (step ⟨false, false, false⟩) (St.init 1) readInWrite).map St.aborted = some (some .readInWrite)) ∧
    (Along (step ⟨false, true, false⟩) (St.NestsReads ⟨false, true, false⟩) (St.init 1) tooDeep ∧
      (exec (step ⟨false, true, false⟩) (St.init 1) tooDeep).map St.aborted = some (some .readInWrite)) ∧
    (Along (step ⟨false, false, false⟩) (St.NestsReads ⟨false, false, false⟩) (St.init 1)
        (.start 0 .read :: List.replicate 3 (.go 0 ⟨0, false, none⟩)) ∧
      (exec (step ⟨false, false, false⟩) (St.init 1)
        (.start 0 .read :: List.replicate 3 (.go 0 ⟨0, false, none⟩))).map St.aborted = some (some .noMem)) ∧
    Along (step ⟨false, false, false⟩) (St.NestsReads ⟨false, false, false⟩) (St.init 2) writesInReads ∧
      (exec (step ⟨false, false, false⟩) (St.init 2) writesInReads).map St.aborted = some (some .twoUpgrades) := by
  refine ⟨⟨by decide +kernel, by decide +kernel⟩, ⟨nestsReads_deep _, ?_⟩, ⟨by decide +kernel, by decide +kernel⟩,
    by decide +kernel, by decide +kernel⟩
  obtain ⟨s, hs, haborted⟩ := exec_tooDeep
  rw [hs, Option.map_some, haborted]

end RefNode

end Aosl
