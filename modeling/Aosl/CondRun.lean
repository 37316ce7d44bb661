import Aosl.Cond
import Aosl.Lib.Lists

/-!
# Which waiters the signals reach

A waiter that has been signalled stays first on the list until it has run, so the next signal posts its semaphore once
more. Signals reach as many waiters as they could exactly when each of them is given while the first waiter of the list
is not signalled, or while none is left to be.
-/

namespace Aosl
open Lib

namespace CondPc

/-- The waiter is on the list. -/
def linked : CondPc → Bool
  | waitLeave _ => true
  | waitSem _ => true
  | waitRelock => true
  | waitBack => true
  | waitDel => true
  | _ => false

/-- The thread has yet to come through its semaphore. -/
def waits : CondPc → Bool
  | waitLeave _ => true
  | waitSem _ => true
  | _ => false

def posts : CondPc → Bool
  | signalPost _ => true
  | _ => false

def casts : CondPc → Bool
  | castPost _ => true
  | _ => false

end CondPc

namespace CondThread

def unsignalled (x : CondThread) : Bool := x.pc.waits && x.sem = 0

end CondThread

namespace CondSt

variable {s s' : CondSt} {a : CondAct} {n t u : Nat} {x y z : CondThread} {acts seg : List CondAct}

/-- The waiters that are linked and not yet signalled. -/
def unsignalled (s : CondSt) : List Nat := s.waitList.filter fun t => s.threads[t]?.any CondThread.unsignalled

/-- The semaphore of the thread has been posted: its `aosl_hal_sem_timedwait` returns. -/
def posted (s : CondSt) (t : Nat) : Bool := s.threads[t]?.any (0 < ·.sem)

/-- Of the waiters of `s` that were not signalled, those that come through in `s'`. -/
def woken (s s' : CondSt) : List Nat := s.unsignalled.filter s'.posted

/-- The step is the body of a `k_cond_signal`. -/
def isSignal (s : CondSt) (a : CondAct) : Bool := a.op = .go && s.threads[a.thread]?.any (·.pc.posts)

/-- The step is the body of a `k_cond_broadcast`. -/
def isCast (s : CondSt) (a : CondAct) : Bool := a.op = .go && s.threads[a.thread]?.any (·.pc.casts)

/-- A signal is given while the first waiter is not signalled, or no waiter is. -/
def SignalOk (s : CondSt) (a : CondAct) : Prop :=
  s.isSignal a = true → s.unsignalled = [] ∨ s.waitList.head?.any (· ∈ s.unsignalled) = true

instance (s : CondSt) (a : CondAct) : Decidable (s.SignalOk a) := inferInstanceAs (Decidable (_ → _))

structure CondInv (s : CondSt) : Prop where
  nodup : s.waitList.Nodup
  linked : ∀ (t : Nat) (x : CondThread), s.threads[t]? = some x → (t ∈ s.waitList ↔ x.pc.linked = true)

theorem semPost_get (hx : s.threads[u]? = some x) (v : Nat) :
    (s.semPost v).threads[u]? = some (if v = u then { x with sem := x.sem + 1 } else x) := by
  unfold semPost
  rw [List.getElem?_modify, hx]
  rfl

theorem broadcast_get (hx : s.threads[u]? = some x) :
    ∃ x', s.broadcast.threads[u]? = some x' ∧ x'.pc = x.pc := by
  have hfold : ∀ (l : List Nat) (s : CondSt) (x : CondThread), s.threads[u]? = some x →
      ∃ x', (l.foldl semPost s).threads[u]? = some x' ∧ x'.pc = x.pc := by
    intro l
    induction l with
    | nil => exact fun s x hx => ⟨x, hx, rfl⟩
    | cons v l ih =>
      intro s x hx
      obtain ⟨x', hx', hpc⟩ := ih (s.semPost v) _ (semPost_get hx v)
      refine ⟨x', hx', hpc.trans ?_⟩
      split <;> rfl
  exact hfold s.waitList s x hx

/-- What a step of a thread from `x` to `y` does. -/
inductive Does (s : CondSt) (a : CondAct) (s' : CondSt) (x y : CondThread) : Prop where
  | own (threads : s'.threads = s.threads.set a.thread y) (list : s'.waitList = s.waitList)
      (linked : y.pc.linked = x.pc.linked) (unsignalled : y.unsignalled = true → x.unsignalled = true)
      (signal : s.isSignal a = false)
  | add (threads : s'.threads = s.threads.set a.thread y) (list : s'.waitList = s.waitList ++ [a.thread])
      (old : x.pc.linked = false) (new : y.pc.linked = true) (signal : s.isSignal a = false)
  | del (threads : s'.threads = s.threads.set a.thread y) (list : s'.waitList = s.waitList.erase a.thread)
      (new : y.pc.linked = false) (signal : s.isSignal a = false)
  | post (threads : s'.threads = s.signal.threads.set a.thread y) (list : s'.waitList = s.waitList)
      (old : x.pc.linked = false) (new : y.pc.linked = false) (signal : s.isSignal a = true)
  | cast (threads : s'.threads = s.broadcast.threads.set a.thread y) (list : s'.waitList = s.waitList)
      (old : x.pc.linked = false) (new : y.pc.linked = false) (cast : s.isCast a = true)
      (signal : s.isSignal a = false)

theorem signal_waitList (s : CondSt) : s.signal.waitList = s.waitList := by
  unfold signal
  split <;> rfl

theorem broadcast_waitList (s : CondSt) : s.broadcast.waitList = s.waitList := by
  have hfold : ∀ (l : List Nat) (s : CondSt), (l.foldl semPost s).waitList = s.waitList := by
    intro l
    induction l with
    | nil => exact fun s => rfl
    | cons v l ih => exact fun s => ih (s.semPost v)
  exact hfold s.waitList s

theorem isSignal_eq (hx : s.threads[a.thread]? = some x) (hpc : x.pc.posts = false) : s.isSignal a = false := by
  unfold isSignal
  rw [hx]
  simp [hpc]

theorem Does.off (hx : s.threads[a.thread]? = some x) (hthr : s'.threads = s.threads.set a.thread y)
    (hlist : s'.waitList = s.waitList) (hold : x.pc.linked = false) (hnew : y.pc.linked = false)
    (hpost : x.pc.posts = false) : Does s a s' x y := by
  refine .own hthr hlist (hnew.trans hold.symm) (fun hun => ?_) (isSignal_eq hx hpost)
  have hwaits : y.pc.waits = false := by
    rcases hpc : y.pc <;> simp_all [CondPc.linked, CondPc.waits]
  simp [CondThread.unsignalled, hwaits] at hun

theorem go_does (hop : a.op = .go) (hx : s.threads[a.thread]? = some x) (hs' : s.go a.thread x = some s') :
    ∃ y, Does s a s' x y := by
  unfold go at hs'
  split at hs'
  case h_1 timed hpc =>
    obtain ⟨-, ⟨⟩⟩ := Option.ite_none_right_eq_some.1 hs'
    exact ⟨_, .off hx rfl rfl (by rw [hpc]; rfl) rfl (by rw [hpc]; rfl)⟩
  case h_2 timed hpc =>
    cases hs'
    exact ⟨_, .off hx rfl rfl (by rw [hpc]; rfl) rfl (by rw [hpc]; rfl)⟩
  case h_3 timed hpc =>
    cases hs'
    exact ⟨_, .add rfl rfl (by rw [hpc]; rfl) rfl (isSignal_eq hx (by rw [hpc]; rfl))⟩
  case h_4 timed hpc =>
    cases hs'
    refine ⟨{ x with pc := .waitSem timed }, .own rfl rfl (by rw [hpc]; rfl) ?_ (isSignal_eq hx (by rw [hpc]; rfl))⟩
    simp [CondThread.unsignalled, CondPc.waits, hpc]
  case h_5 timed hpc =>
    obtain ⟨-, ⟨⟩⟩ := Option.ite_none_right_eq_some.1 hs'
    exact ⟨_, .own rfl rfl (by rw [hpc]; rfl) nofun (isSignal_eq hx (by rw [hpc]; rfl))⟩
  case h_6 hpc =>
    obtain ⟨-, ⟨⟩⟩ := Option.ite_none_right_eq_some.1 hs'
    exact ⟨_, .own rfl rfl (by rw [hpc]; rfl) nofun (isSignal_eq hx (by rw [hpc]; rfl))⟩
  case h_7 hpc =>
    obtain ⟨-, ⟨⟩⟩ := Option.ite_none_right_eq_some.1 hs'
    exact ⟨_, .own rfl rfl (by rw [hpc]; rfl) nofun (isSignal_eq hx (by rw [hpc]; rfl))⟩
  case h_8 hpc =>
    cases hs'
    exact ⟨_, .del rfl rfl rfl (isSignal_eq hx (by rw [hpc]; rfl))⟩
  case h_9 user hpc =>
    obtain ⟨-, ⟨⟩⟩ := Option.ite_none_right_eq_some.1 hs'
    exact ⟨_, .off hx rfl rfl (by rw [hpc]; rfl) rfl (by rw [hpc]; rfl)⟩
  case h_10 user hpc =>
    cases hs'
    exact ⟨_, .post rfl (signal_waitList s) (by rw [hpc]; rfl) rfl (by simp [isSignal, hop, hx, hpc, CondPc.posts])⟩
  case h_11 user hpc =>
    cases hs'
    refine ⟨_, .off hx rfl rfl (by rw [hpc]; rfl) ?_ (by rw [hpc]; rfl)⟩
    rcases user <;> rfl
  case h_12 user hpc =>
    obtain ⟨-, ⟨⟩⟩ := Option.ite_none_right_eq_some.1 hs'
    exact ⟨_, .off hx rfl rfl (by rw [hpc]; rfl) rfl (by rw [hpc]; rfl)⟩
  case h_13 user hpc =>
    cases hs'
    refine ⟨_, .cast rfl (broadcast_waitList s) (by rw [hpc]; rfl) rfl ?_ (isSignal_eq hx (by rw [hpc]; rfl))⟩
    simp [isCast, hop, hx, hpc, CondPc.casts]
  case h_14 user hpc =>
    cases hs'
    refine ⟨_, .off hx rfl rfl (by rw [hpc]; rfl) ?_ (by rw [hpc]; rfl)⟩
    rcases user <;> rfl
  case h_15 => cases hs'

theorem step_does (hs' : s.step a = some s') : ∃ x y, s.threads[a.thread]? = some x ∧ Does s a s' x y := by
  unfold step at hs'
  split at hs'
  · cases hs'
  rename_i x hx
  refine ⟨x, ?_⟩
  split at hs'
  case h_1 hpc =>
    obtain ⟨-, ⟨⟩⟩ := Option.ite_none_right_eq_some.1 hs'
    exact ⟨_, hx, .off hx rfl rfl (by rw [hpc]; rfl) rfl (by rw [hpc]; rfl)⟩
  case h_8 hpc =>
    cases hs'
    exact ⟨_, hx, .own rfl rfl (by rw [hpc]; rfl) nofun (isSignal_eq hx (by rw [hpc]; rfl))⟩
  case h_9 hop =>
    obtain ⟨y, hy⟩ := go_does hop hx hs'
    exact ⟨y, hx, hy⟩
  case h_10 => cases hs'
  all_goals
    rename_i hpc
    cases hs'
    exact ⟨_, hx, .off hx rfl rfl (by rw [hpc]; rfl) rfl (by rw [hpc]; rfl)⟩

theorem signal_get (hx : s.threads[u]? = some x) :
    s.signal.threads[u]? = some (if s.waitList.head? = some u then { x with sem := x.sem + 1 } else x) := by
  unfold signal
  split
  · rename_i hlist
    rw [hlist, hx]
    rfl
  · rename_i v rest hlist
    rw [semPost_get hx, hlist]
    simp

theorem set_get {l : List CondThread} (ht : l[t]? = some x) (hu : (l.set t y)[u]? = some z) :
    t = u ∧ z = y ∨ t ≠ u ∧ l[u]? = some z := by
  by_cases htu : t = u
  · subst htu
    exact .inl ⟨rfl, Option.some.inj (hu.symm.trans (getElem?_set_self ht))⟩
  · exact .inr ⟨htu, (getElem?_set_ne htu).symm.trans hu⟩

theorem CondInv.of_posts {l : List CondThread} (h : s.CondInv) (hx : s.threads[a.thread]? = some x)
    (hl : ∀ (u : Nat) (z : CondThread), s.threads[u]? = some z → ∃ z', l[u]? = some z' ∧ z'.pc = z.pc) (hlen : l.length = s.threads.length)
    (hthr : s'.threads = l.set a.thread y) (hlist : s'.waitList = s.waitList) (hold : x.pc.linked = false)
    (hnew : y.pc.linked = false) : s'.CondInv := by
  refine ⟨hlist ▸ h.nodup, fun u z hz => ?_⟩
  rw [hthr] at hz
  obtain ⟨x', hx', -⟩ := hl a.thread x hx
  rw [hlist]
  rcases set_get hx' hz with ⟨rfl, rfl⟩ | ⟨-, hz⟩
  · rw [hnew, ← hold]
    exact h.linked _ x hx
  · have hlt : u < s.threads.length := by
      rw [← hlen]
      exact (List.getElem?_eq_some_iff.1 hz).1
    obtain ⟨z', hz', hpc⟩ := hl u _ (List.getElem?_eq_getElem hlt)
    obtain rfl := Option.some.inj (hz.symm.trans hz')
    rw [hpc]
    exact h.linked u _ (List.getElem?_eq_getElem hlt)

theorem signal_length (s : CondSt) : s.signal.threads.length = s.threads.length := by
  unfold signal
  split
  · rfl
  · simp [semPost]

theorem broadcast_length (s : CondSt) : s.broadcast.threads.length = s.threads.length := by
  have hfold : ∀ (l : List Nat) (s : CondSt), (l.foldl semPost s).threads.length = s.threads.length := by
    intro l
    induction l with
    | nil => exact fun s => rfl
    | cons v l ih => exact fun s => (ih (s.semPost v)).trans (by simp [semPost])
  exact hfold s.waitList s

theorem CondInv.step (h : s.CondInv) (hs' : s.step a = some s') : s'.CondInv := by
  obtain ⟨x, y, hx, hdo⟩ := step_does hs'
  rcases hdo with ⟨hthr, hlist, hlinked, -, -⟩ | ⟨hthr, hlist, hold, hnew, -⟩ | ⟨hthr, hlist, hnew, -⟩ |
    ⟨hthr, hlist, hold, hnew, -⟩ | ⟨hthr, hlist, hold, hnew, -, -⟩
  · refine ⟨hlist ▸ h.nodup, fun u z hz => ?_⟩
    rw [hthr] at hz
    rw [hlist]
    rcases set_get hx hz with ⟨rfl, rfl⟩ | ⟨-, hz⟩
    · rw [hlinked]
      exact h.linked _ x hx
    · exact h.linked u z hz
  · have hno : a.thread ∉ s.waitList := fun hmem => by
      rw [h.linked _ x hx, hold] at hmem
      cases hmem
    refine ⟨?_, fun u z hz => ?_⟩
    · rw [hlist, List.nodup_append]
      refine ⟨h.nodup, by simp, fun v hv w hw heq => ?_⟩
      rw [List.mem_singleton.1 hw] at heq
      exact hno (heq ▸ hv)
    · rw [hthr] at hz
      rw [hlist, List.mem_append, List.mem_singleton]
      rcases set_get hx hz with ⟨rfl, rfl⟩ | ⟨hne, hz⟩
      · simp [hnew]
      · rw [← h.linked u z hz]
        exact ⟨fun hmem => hmem.resolve_right (Ne.symm hne), .inl⟩
  · refine ⟨hlist ▸ h.nodup.erase _, fun u z hz => ?_⟩
    rw [hthr] at hz
    rw [hlist]
    rcases set_get hx hz with ⟨rfl, rfl⟩ | ⟨hne, hz⟩
    · rw [h.nodup.mem_erase_iff]
      simp [hnew]
    · rw [List.mem_erase_of_ne (Ne.symm hne)]
      exact h.linked u z hz
  · refine h.of_posts hx (fun u z hz => ⟨_, signal_get hz, ?_⟩) (signal_length s) hthr hlist hold hnew
    split <;> rfl
  · exact h.of_posts hx (fun u z => broadcast_get) (broadcast_length s) hthr hlist hold hnew

theorem init_inv : (init n).CondInv := by
  refine ⟨List.nodup_nil, fun t x hx => ?_⟩
  rw [List.eq_of_mem_replicate (List.mem_of_getElem? hx)]
  exact ⟨nofun, nofun⟩

/-- While the threads `U`, none of them signalled at first, do not run: they stay on the list, before all that come
later, and those before them that are not among them have been signalled. -/
structure Still (U : List Nat) (s : CondSt) : Prop where
  waits : ∀ t ∈ U, ∃ x, s.threads[t]? = some x ∧ x.pc.waits = true
  order : ∃ old new, s.waitList = old ++ new ∧ (∀ t ∈ U, t ∈ old) ∧
    ∀ t ∈ old, t ∉ U → s.threads[t]?.any CondThread.unsignalled = false

theorem linked_of_waits {pc : CondPc} (h : pc.waits = true) : pc.linked = true := by
  rcases pc <;> simp_all [CondPc.waits, CondPc.linked]

theorem unsignalled_of_linked (h : x.pc.linked = false) : x.unsignalled = false := by
  rcases hw : x.pc.waits
  · simp [CondThread.unsignalled, hw]
  · rw [linked_of_waits hw] at h
    cases h

theorem still_init (s : CondSt) : Still s.unsignalled s := by
  refine ⟨fun t ht => ?_, s.waitList, [], (List.append_nil _).symm, fun t ht => (List.mem_filter.1 ht).1, ?_⟩
  · obtain ⟨x, hx, hun⟩ := (Option.any_eq_true ..).1 (List.mem_filter.1 ht).2
    exact ⟨x, hx, (Bool.and_eq_true ..).mp hun |>.1⟩
  · intro t ht hno
    rw [← Bool.not_eq_true]
    exact fun hun => hno (List.mem_filter.2 ⟨ht, hun⟩)

variable {U : List Nat}

/-- A thread other than those of `U`, and the one that steps, is as before but for its semaphore. -/
theorem Still.of_threads (h : s.Still U) (hold : ∀ (u : Nat) (z : CondThread), u ≠ a.thread → s.threads[u]? = some z →
      ∃ z', s'.threads[u]? = some z' ∧ z'.pc = z.pc ∧ (z'.unsignalled = true → z.unsignalled = true))
    (hself : s'.threads[a.thread]?.any CondThread.unsignalled = true →
      s.threads[a.thread]?.any CondThread.unsignalled = true)
    (hlist : s'.waitList = s.waitList) (hlen : s'.threads.length = s.threads.length) (hU : a.thread ∉ U) :
    s'.Still U := by
  obtain ⟨old, new, hsplit, hin, hsig⟩ := h.order
  refine ⟨fun t ht => ?_, old, new, hlist.trans hsplit, hin, fun t ht hno => ?_⟩
  · obtain ⟨x, hx, hw⟩ := h.waits t ht
    obtain ⟨x', hx', hpc, -⟩ := hold t x (fun heq => hU (heq ▸ ht)) hx
    exact ⟨x', hx', hpc ▸ hw⟩
  · rw [← Bool.not_eq_true]
    intro hun
    refine absurd ?_ (Bool.eq_false_iff.1 (hsig t ht hno))
    by_cases hta : t = a.thread
    · subst hta
      exact hself hun
    · obtain ⟨z', hz', hun'⟩ := (Option.any_eq_true ..).1 hun
      have hlt : t < s.threads.length := hlen ▸ (List.getElem?_eq_some_iff.1 hz').1
      obtain ⟨z1, hz1, -, himp⟩ := hold t _ hta (List.getElem?_eq_getElem hlt)
      obtain rfl := Option.some.inj (hz'.symm.trans hz1)
      rw [List.getElem?_eq_getElem hlt]
      exact himp hun'

theorem post_get (hthr : s'.threads = s.signal.threads.set a.thread y) (hu : u ≠ a.thread)
    (hz : s.threads[u]? = some z) :
    s'.threads[u]? = some (if s.waitList.head? = some u then { z with sem := z.sem + 1 } else z) := by
  rw [hthr, getElem?_set_ne (Ne.symm hu)]
  exact signal_get hz

theorem Still.step (h : s.Still U) (hinv : s.CondInv) (hs' : s.step a = some s') (hU : a.thread ∉ U)
    (hcast : s.isCast a = false) : s'.Still U := by
  obtain ⟨x, y, hx, hdo⟩ := step_does hs'
  obtain ⟨old, new, hsplit, hin, hsig⟩ := h.order
  have hset : (s.threads.set a.thread y)[a.thread]? = some y := getElem?_set_self hx
  have hne : ∀ t ∈ U, a.thread ≠ t := fun t ht heq => hU (heq ▸ ht)
  rcases hdo with ⟨hthr, hlist, -, hun, -⟩ | ⟨hthr, hlist, hold, -, -⟩ | ⟨hthr, hlist, hnew, -⟩ |
    ⟨hthr, hlist, hold, hnew, -⟩ | ⟨-, -, -, -, hc, -⟩
  · refine h.of_threads (fun u z hu hz => ⟨z, ?_, rfl, id⟩) ?_ hlist (by rw [hthr, List.length_set]) hU
    · rw [hthr]
      exact (getElem?_set_ne (Ne.symm hu)).trans hz
    · rw [hthr, hset, hx]
      exact hun
  · refine ⟨fun t ht => ?_, old, new ++ [a.thread], ?_, hin, fun t ht hno => ?_⟩
    · obtain ⟨z, hz, hw⟩ := h.waits t ht
      rw [hthr]
      exact ⟨z, (getElem?_set_ne (hne t ht)).trans hz, hw⟩
    · rw [hlist, hsplit, List.append_assoc]
    · have hne : a.thread ≠ t := by
        rintro rfl
        have hmem := (hinv.linked _ x hx).1 (by rw [hsplit]; exact List.mem_append_left _ ht)
        rw [hold] at hmem
        cases hmem
      rw [hthr, getElem?_set_ne hne]
      exact hsig t ht hno
  · refine ⟨fun t ht => ?_, old.filter (· != a.thread), new.filter (· != a.thread), ?_, fun t ht => ?_,
      fun t ht hno => ?_⟩
    · obtain ⟨z, hz, hw⟩ := h.waits t ht
      rw [hthr]
      exact ⟨z, (getElem?_set_ne (hne t ht)).trans hz, hw⟩
    · rw [hlist, hinv.nodup.erase_eq_filter, hsplit, List.filter_append]
    · exact List.mem_filter.2 ⟨hin t ht, by simpa using Ne.symm (hne t ht)⟩
    · obtain ⟨ht, hta⟩ := List.mem_filter.1 ht
      have hta' : a.thread ≠ t := Ne.symm (by simpa using hta)
      rw [hthr, getElem?_set_ne hta']
      exact hsig t ht hno
  · refine h.of_threads (fun u z hu hz => ⟨_, post_get hthr hu hz, ?_, ?_⟩) ?_ hlist ?_ hU
    · split <;> rfl
    · split
      · simp [CondThread.unsignalled]
      · exact id
    · have hset' : (s.signal.threads.set a.thread y)[a.thread]? = some y := getElem?_set_self (signal_get hx)
      rw [hthr, hset']
      intro hun
      rw [show Option.any CondThread.unsignalled (some y) = y.unsignalled from rfl, unsignalled_of_linked hnew] at hun
      cases hun
    · rw [hthr, List.length_set, signal_length]
  · rw [hcast] at hc
    cases hc

theorem posted_eq (hs' : s.step a = some s') (hsig : s.isSignal a = false) (hcast : s.isCast a = false)
    (hu : u ≠ a.thread) : s'.posted u = s.posted u := by
  obtain ⟨x, y, -, hdo⟩ := step_does hs'
  unfold posted
  rcases hdo with ⟨hthr, -, -, -, -⟩ | ⟨hthr, -, -, -, -⟩ | ⟨hthr, -, -, -⟩ | ⟨-, -, -, -, hs⟩ | ⟨-, -, -, -, hc, -⟩
  · rw [hthr, getElem?_set_ne (Ne.symm hu)]
  · rw [hthr, getElem?_set_ne (Ne.symm hu)]
  · rw [hthr, getElem?_set_ne (Ne.symm hu)]
  · rw [hsig] at hs
    cases hs
  · rw [hcast] at hc
    cases hc

theorem posted_signal (hs' : s.step a = some s') (hsig : s.isSignal a = true) (hu : u ≠ a.thread)
    (hz : s.threads[u]? = some z) : s'.posted u = (s.posted u || s.waitList.head? = some u) := by
  obtain ⟨x, y, -, hdo⟩ := step_does hs'
  unfold posted
  rcases hdo with ⟨-, -, -, -, hs⟩ | ⟨-, -, -, -, hs⟩ | ⟨-, -, -, hs⟩ | ⟨hthr, -, -, -, -⟩ | ⟨-, -, -, -, -, hs⟩
  · rw [hsig] at hs
    cases hs
  · rw [hsig] at hs
    cases hs
  · rw [hsig] at hs
    cases hs
  · rw [post_get hthr hu hz, hz]
    by_cases hhead : s.waitList.head? = some u
    · simp [hhead]
    · simp [hhead]
  · rw [hsig] at hs
    cases hs

theorem mem_unsignalled : t ∈ s.unsignalled ↔ t ∈ s.waitList ∧ ∃ x, s.threads[t]? = some x ∧ x.pc.waits = true ∧
    x.sem = 0 := by
  unfold unsignalled CondThread.unsignalled
  rw [List.mem_filter, Option.any_eq_true]
  simp

theorem posted_of_unsignalled (h : t ∈ s.unsignalled) : s.posted t = false := by
  obtain ⟨-, x, hx, -, hsem⟩ := mem_unsignalled.1 h
  simp [posted, hx, hsem]

/-- A signal that is given in time reaches one more of the threads, while there is one. -/
theorem Still.count_signal (h : s.Still U) (hnodup : U.Nodup) (hok : s.SignalOk a) (hs' : s.step a = some s')
    (hsig : s.isSignal a = true) (hU : a.thread ∉ U) :
    U.countP s'.posted = min U.length (U.countP s.posted + 1) := by
  have hpost : ∀ u ∈ U, s'.posted u = (s.posted u || s.waitList.head? = some u) := by
    intro u hu
    obtain ⟨z, hz, -⟩ := h.waits u hu
    exact posted_signal hs' hsig (fun heq => hU (heq ▸ hu)) hz
  by_cases hall : ∀ u ∈ U, s.posted u = true
  · have hbefore : U.countP s.posted = U.length := List.countP_eq_length.2 hall
    have hafter : U.countP s'.posted = U.length :=
      List.countP_eq_length.2 fun u hu => by rw [hpost u hu, hall u hu, Bool.true_or]
    omega
  · simp only [not_forall] at hall
    obtain ⟨u, hu, hnot⟩ := hall
    obtain ⟨old, new, hsplit, hin, hdone⟩ := h.order
    obtain ⟨z, hz, hw⟩ := h.waits u hu
    have hun : u ∈ s.unsignalled := by
      refine mem_unsignalled.2 ⟨by rw [hsplit]; exact List.mem_append_left _ (hin u hu), z, hz, hw, ?_⟩
      simpa [posted, hz] using hnot
    -- the first waiter is not signalled, and it is one of the threads
    rcases hok hsig with hnil | hhead
    · rw [hnil] at hun
      cases hun
    obtain ⟨v, hv, hvun⟩ := (Option.any_eq_true ..).1 hhead
    have hvun : v ∈ s.unsignalled := of_decide_eq_true hvun
    have hold : v ∈ old := by
      rcases old with _ | ⟨w, old⟩
      · cases hin u hu
      · rw [hsplit] at hv
        rw [← Option.some.inj hv]
        exact List.mem_cons_self
    have hvU : v ∈ U := by
      by_contra hno
      have := hdone v hold hno
      rw [(List.mem_filter.1 hvun).2] at this
      cases this
    have hflip : U.countP s'.posted = U.countP s.posted + 1 := by
      refine countP_flip hnodup hvU (posted_of_unsignalled hvun) ?_ fun w hw hne => ?_
      · rw [hpost v hvU, hv]
        simp
      · rw [hpost w hw, hv]
        simp [Ne.symm hne]
    have hle : U.countP s'.posted ≤ U.length := List.countP_le_length
    omega

/-- Signals that are all given in time reach as many threads as they could. -/
theorem Still.count_exec {k : Nat} (h : s.Still U) (hinv : s.CondInv) (hnodup : U.Nodup)
    (hok : Along CondSt.step SignalOk s seg) (hU : ∀ a ∈ seg, a.thread ∉ U)
    (hcast : tally CondSt.step isCast s seg = 0) (hrun : exec CondSt.step s seg = some s')
    (hk : U.countP s.posted = min U.length k) :
    U.countP s'.posted = min U.length (k + tally CondSt.step isSignal s seg) := by
  induction seg generalizing s k with
  | nil =>
    cases hrun
    exact hk
  | cons a seg ih =>
    rw [exec_cons, Option.bind_eq_some_iff] at hrun
    obtain ⟨s1, hs1, hrun⟩ := hrun
    rw [along_cons] at hok
    rw [tally_cons hs1] at hcast ⊢
    have hcast1 : s.isCast a = false := by
      rcases hc : s.isCast a
      · rfl
      · rw [hc, Bool.toNat_true] at hcast
        omega
    have hU1 : a.thread ∉ U := hU a List.mem_cons_self
    have hstep : U.countP s1.posted = min U.length (k + (s.isSignal a).toNat) := by
      rcases hsig : s.isSignal a
      · rw [Bool.toNat_false, Nat.add_zero, ← hk]
        refine List.countP_congr fun u hu => ?_
        rw [posted_eq hs1 hsig hcast1 fun heq => hU1 (heq ▸ hu)]
      · rw [h.count_signal hnodup hok.1 hs1 hsig hU1, hk, Bool.toNat_true]
        omega
    have hrest := ih (h.step hinv hs1 hU1 hcast1) (hinv.step hs1) (hok.2 s1 hs1)
      (fun b hb => hU b (List.mem_cons_of_mem _ hb)) (by omega) hrun hstep
    rw [hrest, Nat.add_assoc]

theorem step_signal (hsig : s.isSignal a = true) :
    (∃ s', s.step a = some s') ∧ a.thread ∉ s.unsignalled ∧ s.isCast a = false := by
  unfold isSignal at hsig
  rw [Bool.and_eq_true, decide_eq_true_eq] at hsig
  obtain ⟨hop, hany⟩ := hsig
  obtain ⟨x, hx, hpost⟩ := (Option.any_eq_true ..).1 hany
  obtain ⟨user, hpc⟩ : ∃ user, x.pc = .signalPost user := by
    rcases hpc : x.pc <;> simp_all [CondPc.posts]
  refine ⟨⟨s.signal.goto a.thread x (.signalLeave user), ?_⟩, fun hmem => ?_, ?_⟩
  · simp only [step, hx, hop, hpc, go]
  · obtain ⟨-, x', hx', hw, -⟩ := mem_unsignalled.1 hmem
    obtain rfl := Option.some.inj (hx.symm.trans hx')
    rw [hpc] at hw
    cases hw
  · simp [isCast, hx, hpc, CondPc.casts]

theorem woken_eq_nil (hs' : s.step a = some s') (hsig : s.isSignal a = true)
    (hhead : s.waitList.head?.any (· ∈ s.unsignalled) ≠ true) : s.woken s' = [] := by
  refine List.filter_eq_nil_iff.2 fun t ht hp => ?_
  obtain ⟨-, x, hx, -, -⟩ := mem_unsignalled.1 ht
  have hne : t ≠ a.thread := fun heq => (step_signal hsig).2.1 (heq ▸ ht)
  rw [posted_signal hs' hsig hne hx, posted_of_unsignalled ht, Bool.false_or, decide_eq_true_eq] at hp
  rw [hp] at hhead
  exact hhead (decide_eq_true ht)

/-- In a run with any number of threads, signals given before any of the unsignalled waiters runs again reach as many
different waiters as they could, exactly when each signal of the run is given while the first waiter of the list is
not signalled, or while none is. -/
theorem cond_wakes_distinct_iff (n : Nat) (acts : List CondAct) :
    (∀ pre seg s s', pre ++ seg <+: acts → exec step (init n) pre = some s → exec step s seg = some s' →
      (∀ a ∈ seg, a.thread ∉ s.unsignalled) → tally step isCast s seg = 0 →
      (s.woken s').length = min s.unsignalled.length (tally step isSignal s seg)) ↔
    Along step SignalOk (init n) acts := by
  constructor
  · intro hall
    refine along_iff_of_prefixes.2 fun pre a s hpre hrun => ?_
    intro hsig
    by_contra hno
    rw [not_or] at hno
    obtain ⟨⟨s', hs'⟩, hU, hcast⟩ := step_signal hsig
    have hone := hall pre [a] s s' hpre hrun (by rw [exec_cons, hs']; rfl)
      (fun b hb => by rw [List.mem_singleton.1 hb]; exact hU) (by rw [tally_cons hs', hcast]; rfl)
    rw [woken_eq_nil hs' hsig hno.2, tally_cons hs', hsig] at hone
    have hpos : 0 < s.unsignalled.length := List.length_pos_iff.2 hno.1
    simp only [tally, List.length_nil, Bool.toNat_true] at hone
    omega
  · intro hok pre seg s s' hpre hrun hrun' hU hcast
    have hinv : s.CondInv := exec_invariant_all (fun _ _ _ h => h.step) init_inv hrun
    obtain ⟨post, rfl⟩ := hpre
    rw [List.append_assoc, along_append] at hok
    have hok' := (along_append.1 (hok.2 s hrun)).1
    have hstart : s.unsignalled.countP s.posted = min s.unsignalled.length 0 := by
      rw [Nat.min_zero, List.countP_eq_zero]
      intro t ht
      rw [posted_of_unsignalled ht]
      exact fun h => by cases h
    have hcount := (still_init s).count_exec hinv (hinv.nodup.filter _) hok' hU hcast hrun' hstart
    rw [Nat.zero_add] at hcount
    rw [← hcount, List.countP_eq_length_filter]
    rfl

/-- Two threads wait. -/
def twoWaiters : List CondAct :=
  [⟨0, .lock⟩, ⟨0, .condWait false⟩, ⟨0, .go⟩, ⟨0, .go⟩, ⟨0, .go⟩, ⟨0, .go⟩,
    ⟨1, .lock⟩, ⟨1, .condWait false⟩, ⟨1, .go⟩, ⟨1, .go⟩, ⟨1, .go⟩, ⟨1, .go⟩]

/-- A third one signals twice. -/
def twoSignals : List CondAct :=
  [⟨2, .condSignal⟩, ⟨2, .go⟩, ⟨2, .go⟩, ⟨2, .go⟩, ⟨2, .condSignal⟩, ⟨2, .go⟩, ⟨2, .go⟩, ⟨2, .go⟩]

/-- Both signals go to the first waiter, and the second one stays in its wait. -/
theorem not_cond_wakes_distinct : ∃ s s', exec step (init 3) twoWaiters = some s ∧
    exec step s twoSignals = some s' ∧ (∀ a ∈ twoSignals, a.thread ∉ s.unsignalled) ∧
    tally step isCast s twoSignals = 0 ∧ s.unsignalled = [0, 1] ∧ tally step isSignal s twoSignals = 2 ∧
    s.woken s' = [0] ∧ s'.step ⟨1, .go⟩ = none := by
  have hany : (exec step (init 3) twoWaiters).any (fun s => (exec step s twoSignals).any fun s' => decide
      ((∀ a ∈ twoSignals, a.thread ∉ s.unsignalled) ∧ tally step isCast s twoSignals = 0 ∧ s.unsignalled = [0, 1] ∧
        tally step isSignal s twoSignals = 2 ∧ s.woken s' = [0] ∧ s'.step ⟨1, .go⟩ = none)) = true := by
    decide +kernel
  obtain ⟨s, hs, hany⟩ := (Option.any_eq_true ..).1 hany
  obtain ⟨s', hs', hd⟩ := (Option.any_eq_true ..).1 hany
  exact ⟨s, s', hs, hs', of_decide_eq_true hd⟩

end CondSt

end Aosl
