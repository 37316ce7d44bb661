import Aosl.Rwlock
import Aosl.Lib.Lists
import Aosl.Lib.Packed
import Mathlib.Data.List.Perm.Subperm
import Mathlib.Tactic.Ring

/-!
# What the count of the raw reader/writer lock stands for

`count` packs two counters: the units of the threads that hold the lock, ask for it on the fast path or are being
let in by a waker, and the multiples of the waiting bias, one for each writing unit and one for a wait list that is
not empty. While the holder of `wait_lock` is between a list operation and its update of `count`, some entries of
the list are `hidden` from the count.
-/

namespace Aosl
open Lib

theorem Word.wrap_eq {w : Word} {a k : Nat} {c : Int} (ha : a < w.activeSpan) (hk : k ≤ 32768)
    (hc : c = a - w.activeSpan * k) : w.wrap c = c := by
  unfold wrap
  rcases w
  · simp only [activeSpan, span] at *
    exact Int.bmod_eq_of_le (by omega) (by omega)
  · simp only [activeSpan, span] at *
    exact Int.bmod_eq_of_le (by omega) (by omega)

namespace RwPhase

/-- Inside `wait_lock`. -/
def inside : RwPhase → Bool
  | readAddIn => true
  | readIn => true
  | writeAddIn => true
  | writeIn => true
  | writeGotIn => true
  | wakeIn => true
  | downIn => true
  | _ => false

end RwPhase

namespace RwThread

/-- The thread has the lock for reading. A reader on the slow path has it from the moment its `waiter.event` is
cleared. -/
def holdsRead (x : RwThread) : Bool :=
  match x.ph with
  | .readHeld => true
  | .downPending => true
  | .downIn => true
  | .readIn => !x.event
  | .readLoop => !x.event
  | .readWait => !x.event
  | _ => false

def holdsWrite (x : RwThread) : Bool :=
  match x.ph with
  | .writeHeld => true
  | .writeGotIn => true
  | _ => false

/-- A unit of the active part of `count` is this thread's. -/
def active (x : RwThread) : Bool :=
  match x.ph with
  | .readFailed => true
  | .readAddIn => true
  | .writeFailed => true
  | .writeAddIn => true
  | _ => x.holdsRead || x.holdsWrite

/-- A waiting bias in `count` is this thread's. -/
def writer (x : RwThread) : Bool :=
  match x.ph with
  | .writeFailed => true
  | .writeAddIn => true
  | _ => x.holdsWrite

/-- The thread has an entry on the list that no waker has let in. -/
def waitsAs (x : RwThread) : Option WaiterType :=
  match x.ph with
  | .readAddIn => some .read
  | .readIn => if x.event = true then some .read else none
  | .readLoop => if x.event = true then some .read else none
  | .readWait => if x.event = true then some .read else none
  | .writeAddIn => some .write
  | .writeIn => some .write
  | .writeWait => some .write
  | .writeWoken => some .write
  | .writeGotIn => some .write
  | _ => none

/-- The thread is bound to look after the list before it comes to rest. -/
def owes (x : RwThread) : Bool :=
  match x.ph with
  | .writeWoken => true
  | .wakePending => true
  | _ => x.active

theorem owes_of_active {x : RwThread} (h : x.active = true) : x.owes = true := by
  unfold owes
  split <;> simp_all

theorem holds_le_active (x : RwThread) : x.holdsWrite.toNat + x.holdsRead.toNat ≤ x.active.toNat := by
  unfold active holdsRead holdsWrite
  rcases x with ⟨ph, event, pulsed⟩
  rcases ph <;> rcases event <;> simp

theorem writer_of_holdsWrite {x : RwThread} (h : x.holdsWrite = true) : x.writer = true := by
  unfold writer
  split <;> simp_all

theorem active_of_writer {x : RwThread} (h : x.writer = true) : x.active = true := by
  unfold writer at h
  unfold active
  split at h
  · rename_i hph
    rw [hph]
  · rename_i hph
    rw [hph]
  · rw [h, Bool.or_true]
    split <;> rfl

end RwThread

namespace RwCaller

/-- The caller goes on to try for the lock. -/
def owes (w : Word) : RwCaller → Bool
  | write count => w.activePart count = 0
  | _ => false

end RwCaller

namespace RwCrit

/-- Units that a waker has added for readers. -/
def units : RwCrit → Nat
  | retract _ => 1
  | count adj _ => adj
  | clear _ loop _ => loop
  | pulse _ loop _ => loop
  | _ => 0

/-- Of these, units that will not be taken back. -/
def granted : RwCrit → Nat
  | retract _ => 0
  | c => c.units

/-- Entries of the list for which `count` has no waiting bias. -/
def hidden : RwCrit → Nat
  | readAdded _ => 1
  | writeAdded _ => 1
  | writeDel => 1
  | clear done loop _ => done + loop
  | pulse done loop _ => done + 1 + loop
  | _ => 0

/-- Entries of the list whose readers have been let in. -/
def given : RwCrit → Nat
  | clear done _ _ => done
  | pulse done _ _ => done + 1
  | _ => 0

def owes (w : Word) : RwCrit → Bool
  | doWake type k => type = .any || k.owes w
  | grant _ => true
  | retract _ => true
  | count _ _ => true
  | clear _ _ _ => true
  | pulse _ loop k => 0 < loop || k.owes w
  | ret k => k.owes w
  | writeTry c => w.activePart c = 0
  | writeRead => true
  | writeCas => true
  | writeLoad => true
  | _ => false

theorem units_eq_zero {w : Word} {c : RwCrit} (h : c.owes w ≠ true) : c.units = 0 := by
  rcases c <;> simp_all [owes, units]

/-- What the locals of the holder say about the list, and where its thread stands. -/
def Fits (w : Word) (l : List Waiter) (x : RwThread) : RwCrit → Prop
  | readAdded adj => x.ph = .readAddIn ∧ x.event = true ∧ l ≠ [] ∧
      adj = if l.length = 1 then -activeReadBias + w.waitingBias else -activeReadBias
  | writeAdded adj => x.ph = .writeAddIn ∧ l ≠ [] ∧
      adj = if l.length = 1 then -w.activeWriteBias + w.waitingBias else -w.activeWriteBias
  | doWake type k => x.ph = k.phase ∧ l ≠ [] ∧ (type = .readOwned → k = .down)
  | grant k => x.ph = k.phase ∧ 0 < RwSt.woken l
  | retract k => x.ph = k.phase ∧ 0 < RwSt.woken l
  | count adj k => x.ph = k.phase ∧ 0 < RwSt.woken l ∧ (adj = 1 ∨ adj = 0 ∧ k = .down)
  | clear done loop k => x.ph = k.phase ∧ 0 < loop ∧ done + loop = RwSt.woken l
  | pulse done loop k => x.ph = k.phase ∧ done + 1 + loop = RwSt.woken l
  | ret k => x.ph = k.phase
  | writeDel => x.ph = .writeGotIn
  | _ => x.ph = .writeIn

theorem Fits.congr {w : Word} {l : List Waiter} {x y : RwThread} {c : RwCrit} (h : c.Fits w l x) (hph : y.ph = x.ph)
    (hev : y.event = x.event) : c.Fits w l y := by
  rcases c <;> simp only [Fits] at h ⊢ <;> rw [hph] <;> first | exact h | rw [hev]; exact h

end RwCrit

namespace RwSt

/-- Reading something off the holder of `wait_lock`. -/
def atCrit {α : Type} (none : α) (f : RwCrit → α) : Option (Nat × RwCrit) → α
  | .none => none
  | some p => f p.2

def units (s : RwSt) : Nat := atCrit 0 RwCrit.units s.crit

def granted (s : RwSt) : Nat := atCrit 0 RwCrit.granted s.crit

def hidden (s : RwSt) : Nat := atCrit 0 RwCrit.hidden s.crit

def given (s : RwSt) : Nat := atCrit 0 RwCrit.given s.crit

def critOwes (s : RwSt) : Bool := atCrit false (RwCrit.owes s.word) s.crit

/-- The entries of the list that no waker has let in. -/
def queue (s : RwSt) : List Waiter := s.waitList.drop s.given

/-- The entries of the list that `count` knows of. -/
def known (s : RwSt) : List Waiter := s.waitList.drop s.hidden

/-- The active part of `count`. -/
def activeUnits (s : RwSt) : Nat := s.threads.countP (·.active) + s.units

/-- The waiting bias of a list some entries of which are hidden from `count`. -/
def listBias (hidden length : Nat) : Nat := if hidden < length then 1 else 0

theorem listBias_pos {hidden length : Nat} (h : hidden < length) : listBias hidden length = 1 := if_pos h

theorem listBias_zero {hidden length : Nat} (h : length ≤ hidden) : listBias hidden length = 0 :=
  if_neg (Nat.not_lt.2 h)

/-- The waiting part of `count`. -/
def waitingUnits (s : RwSt) : Nat :=
  s.threads.countP (·.writer) + listBias s.hidden s.waitList.length

/-- The thread whose event the waker is about to pulse. -/
def pulsing (s : RwSt) : Option Nat :=
  match s.crit with
  | some (_, .pulse done _ _) => s.waitList[done]?.map (·.thread)
  | _ => none

theorem pulsing_iff {s : RwSt} {t : Nat} : s.pulsing = some t ↔ ∃ u done loop k w,
    s.crit = some (u, .pulse done loop k) ∧ s.waitList[done]? = some w ∧ w.thread = t := by
  unfold pulsing
  constructor
  · intro h
    split at h
    · rename_i u done loop k hc
      obtain ⟨w, hw, ht⟩ := Option.map_eq_some_iff.1 h
      exact ⟨u, done, loop, k, w, hc, hw, ht⟩
    · cases h
  · rintro ⟨u, done, loop, k, w, hc, hw, rfl⟩
    simp [hc, hw]

/-- The threads, the list and the holder of `wait_lock` agree. -/
structure Shape (s : RwSt) : Prop where
  size : s.threads.length < 32768
  nodup : (s.waitList.map (·.thread)).Nodup
  bound : ∀ w ∈ s.waitList, w.thread < s.threads.length
  queue : ∀ (t : Nat) (x : RwThread) (type : WaiterType), s.threads[t]? = some x →
    (⟨t, type⟩ ∈ s.queue ↔ x.waitsAs = some type)
  inside : ∀ (t : Nat) (x : RwThread), s.threads[t]? = some x → (x.ph.inside = true ↔ ∃ c, s.crit = some (t, c))
  fits : ∀ (t : Nat) (c : RwCrit), s.crit = some (t, c) →
    ∃ x, s.threads[t]? = some x ∧ c.Fits s.word s.waitList x

/-- A writer is alone; the readers a waker is letting in count. -/
def Excl (s : RwSt) : Prop :=
  s.threads.countP (·.holdsWrite) = 0 ∨
    s.threads.countP (·.holdsWrite) = 1 ∧ s.threads.countP (·.holdsRead) + s.granted = 0

/-- Someone still looks after the list, or its head has been woken. -/
def Served (s : RwSt) : Prop := s.known ≠ [] →
  (∃ x ∈ s.threads, x.owes = true) ∨ s.critOwes = true ∨
    ∃ w x, s.known.head? = some w ∧ w.type = .write ∧ s.threads[w.thread]? = some x ∧ x.pulsed = true

/-- A reader that has been let in while it waits is pulsed. -/
def Pulsed (s : RwSt) : Prop := ∀ (t : Nat) (x : RwThread), s.threads[t]? = some x → x.ph = .readWait →
  x.event = false → x.pulsed = true ∨ s.pulsing = some t

structure RwInv (s : RwSt) : Prop where
  shape : s.Shape
  packed : Packed s.word.activeSpan s.count s.activeUnits s.waitingUnits
  excl : s.Excl
  served : s.Served
  pulsed : s.Pulsed

namespace Shape

variable {s : RwSt}

theorem waitList_length_le (h : s.Shape) : s.waitList.length ≤ s.threads.length := by
  have hsub : (s.waitList.map (·.thread)) ⊆ List.range s.threads.length := by
    intro t ht
    obtain ⟨w, hw, rfl⟩ := List.mem_map.1 ht
    exact List.mem_range.2 (h.bound w hw)
  have := (List.subperm_of_subset h.nodup hsub).length_le
  rwa [List.length_map, List.length_range] at this

theorem woken_le (l : List Waiter) : woken l ≤ l.length := (List.takeWhile_prefix _).length_le

theorem units_le (h : s.Shape) : s.units ≤ s.threads.length := by
  have hlen := h.waitList_length_le
  have hwoken := woken_le s.waitList
  unfold units
  rcases hc : s.crit with _ | ⟨t, c⟩
  · exact Nat.zero_le _
  obtain ⟨x, -, hfits⟩ := h.fits t c hc
  rcases c <;> simp only [atCrit, RwCrit.units, RwCrit.Fits] at hfits ⊢ <;> omega

theorem activeUnits_lt (h : s.Shape) : s.activeUnits < s.word.activeSpan := by
  have hunits := h.units_le
  have hsize := h.size
  have hcount : s.threads.countP (·.active) ≤ s.threads.length := List.countP_le_length
  unfold activeUnits Word.activeSpan
  rcases s.word <;> simp only <;> omega

theorem waitingUnits_le (h : s.Shape) : s.waitingUnits ≤ 32768 := by
  have hsize := h.size
  have hcount : s.threads.countP (·.writer) ≤ s.threads.length := List.countP_le_length
  unfold waitingUnits listBias
  split <;> omega

theorem wrap_eq (h : s.Shape) {c : Int} (hc : c = s.activeUnits - s.word.activeSpan * s.waitingUnits) :
    s.word.wrap c = c := by
  exact Word.wrap_eq h.activeUnits_lt h.waitingUnits_le hc

theorem given_le_hidden : s.given ≤ s.hidden := by
  unfold given hidden atCrit
  rcases s.crit with _ | ⟨t, c⟩
  · exact Nat.le_refl _
  · rcases c <;> simp [RwCrit.given, RwCrit.hidden]

theorem waitsAs_of_known (h : s.Shape) {w : Waiter} {x : RwThread} (hw : w ∈ s.known)
    (hx : s.threads[w.thread]? = some x) : x.waitsAs = some w.type :=
  (h.queue w.thread x w.type hx).1 ((List.drop_sublist_drop_left _ given_le_hidden).subset hw)

end Shape

/-- Most steps: thread `t` goes on as `y`, `count` becomes `c` and `wait_lock` is as in `k`; the list stays. -/
def move (s : RwSt) (t : Nat) (y : RwThread) (c : Int) (k : Option (Nat × RwCrit)) : RwSt :=
  { s with threads := s.threads.set t y, count := c, crit := k }

/-- Thread `t` is only pulsed, or leaves `wait_lock` alone, or has it or takes it. -/
def Turn (s : RwSt) (t : Nat) (x y : RwThread) (k : Option (Nat × RwCrit)) : Prop :=
  k = s.crit ∧ y.ph = x.ph ∧ y.event = x.event ∨
  k = s.crit ∧ x.ph.inside = false ∧ y.ph.inside = false ∨
  (s.crit = none ∨ ∃ c, s.crit = some (t, c)) ∧
    (k = none ∧ y.ph.inside = false ∨
      ∃ c, k = some (t, c) ∧ y.ph.inside = true ∧ c.Fits s.word s.waitList y)

section Move

variable {s : RwSt} {t : Nat} {x y : RwThread} {c : Int} {k : Option (Nat × RwCrit)}

theorem Shape.move (h : s.Shape) (hx : s.threads[t]? = some x) (hwaits : y.waitsAs = x.waitsAs)
    (hgiven : atCrit 0 RwCrit.given k = s.given) (hturn : s.Turn t x y k) : (s.move t y c k).Shape := by
  have hy : (s.threads.set t y)[t]? = some y := getElem?_set_self hx
  have hother : ∀ u, t ≠ u → (s.threads.set t y)[u]? = s.threads[u]? := fun u hu => getElem?_set_ne hu
  refine ⟨?_, h.nodup, ?_, ?_, ?_, ?_⟩
  · simpa [RwSt.move] using h.size
  · intro w hw
    simpa [RwSt.move] using h.bound w hw
  · intro u z type hz
    have hqueue : (s.move t y c k).queue = s.queue := by
      unfold RwSt.queue RwSt.given
      rw [show atCrit 0 RwCrit.given (s.move t y c k).crit = s.given from hgiven]
      rfl
    rw [hqueue]
    by_cases hu : t = u
    · subst hu
      obtain rfl := Option.some.inj (hz.symm.trans hy)
      rw [hwaits]
      exact h.queue t x type hx
    · exact h.queue u z type ((hother u hu).symm.trans hz)
  · intro u z hz
    change _ ↔ ∃ c, k = some (u, c)
    by_cases hu : t = u
    · subst hu
      obtain rfl := Option.some.inj (hz.symm.trans hy)
      rcases hturn with ⟨rfl, hph, -⟩ | ⟨rfl, hxin, hyin⟩ | ⟨-, ⟨rfl, hyin⟩ | ⟨c', rfl, hyin, -⟩⟩
      · rw [hph]
        exact h.inside t x hx
      · rw [hyin, ← hxin]
        exact h.inside t x hx
      · simp [hyin]
      · simp [hyin]
    · have hin := h.inside u z ((hother u hu).symm.trans hz)
      rcases hturn with ⟨rfl, -, -⟩ | ⟨rfl, -, -⟩ | ⟨hold, hnew⟩
      · exact hin
      · exact hin
      · -- the holder before and the holder after are not `u`
        have hno : ¬ ∃ c, s.crit = some (u, c) := by
          rintro ⟨c', hc'⟩
          rcases hold with hold | ⟨c0, hold⟩
          · rw [hold] at hc'
            cases hc'
          · rw [hold] at hc'
            exact hu (congrArg Prod.fst (Option.some.inj hc'))
        have hno' : ¬ ∃ c, k = some (u, c) := by
          rintro ⟨c', hc'⟩
          rcases hnew with ⟨hnew, -⟩ | ⟨c0, hnew, -⟩
          · rw [hnew] at hc'
            cases hc'
          · rw [hnew] at hc'
            exact hu (congrArg Prod.fst (Option.some.inj hc'))
        exact ⟨fun hz => absurd (hin.1 hz) hno, fun hz => absurd hz hno'⟩
  · intro u c' hc'
    change k = some (u, c') at hc'
    rcases hturn with ⟨hk, hph, hev⟩ | ⟨hk, hxin, -⟩ | ⟨-, ⟨hk, -⟩ | ⟨c0, hk, -, hfits⟩⟩
    · obtain ⟨z, hz, hfits⟩ := h.fits u c' (hk ▸ hc')
      by_cases hu : t = u
      · subst hu
        obtain rfl := Option.some.inj (hx.symm.trans hz)
        exact ⟨y, hy, hfits.congr hph hev⟩
      · exact ⟨z, (hother u hu).trans hz, hfits⟩
    · obtain ⟨z, hz, hfits⟩ := h.fits u c' (hk ▸ hc')
      have hu : t ≠ u := by
        rintro rfl
        have := (h.inside t x hx).2 ⟨c', hk ▸ hc'⟩
        rw [hxin] at this
        cases this
      exact ⟨z, (hother u hu).trans hz, hfits⟩
    · rw [hk] at hc'
      cases hc'
    · rw [hk] at hc'
      cases hc'
      exact ⟨y, hy, hfits⟩

/-- The counts of the other threads. -/
structure Rest (a wr hw hr : Nat) : Prop where
  holds : hw + hr ≤ a
  writes : hw ≤ wr
  active : wr ≤ a

theorem exists_rest_counts (hx : s.threads[t]? = some x) : ∃ a wr hw hr, Rest a wr hw hr ∧
    (∀ y, (s.threads.set t y).countP (·.active) = a + y.active.toNat ∧
      (s.threads.set t y).countP (·.writer) = wr + y.writer.toNat ∧
      (s.threads.set t y).countP (·.holdsWrite) = hw + y.holdsWrite.toNat ∧
      (s.threads.set t y).countP (·.holdsRead) = hr + y.holdsRead.toNat) ∧
    s.threads.countP (·.active) = a + x.active.toNat ∧ s.threads.countP (·.writer) = wr + x.writer.toNat ∧
    s.threads.countP (·.holdsWrite) = hw + x.holdsWrite.toNat ∧
    s.threads.countP (·.holdsRead) = hr + x.holdsRead.toNat := by
  obtain ⟨rest, -, hold, hnew⟩ := exists_rest hx
  refine ⟨_, _, _, _, ⟨?_, ?_, ?_⟩, fun y => ⟨hnew _ y, hnew _ y, hnew _ y, hnew _ y⟩, hold _, hold _, hold _, hold _⟩
  · exact countP_add_le RwThread.holds_le_active
  · exact List.countP_mono_left fun _ _ => RwThread.writer_of_holdsWrite
  · exact List.countP_mono_left fun _ _ => RwThread.active_of_writer

/-- The step of `x` to `y` accounts for the change of `count`, whatever the other threads are doing, and lets no
one in beside a writer. -/
def Sums (s : RwSt) (x y : RwThread) (c : Int) (k : Option (Nat × RwCrit)) : Prop := ∀ a wr hw hr : Nat,
  Rest a wr hw hr →
  Packed s.word.activeSpan s.count (a + x.active.toNat + s.units)
    (wr + x.writer.toNat + listBias s.hidden s.waitList.length) →
  (hw + x.holdsWrite.toNat = 0 ∨ hw + x.holdsWrite.toNat = 1 ∧ hr + x.holdsRead.toNat + s.granted = 0) →
  c = s.word.wrap ((a + y.active.toNat + atCrit 0 RwCrit.units k : Nat) - s.word.activeSpan *
    (wr + y.writer.toNat + listBias (atCrit 0 RwCrit.hidden k) s.waitList.length : Nat)) ∧
  (hw + y.holdsWrite.toNat = 0 ∨
    hw + y.holdsWrite.toNat = 1 ∧ hr + y.holdsRead.toNat + atCrit 0 RwCrit.granted k = 0)

theorem granted_le_units : s.granted ≤ s.units := by
  unfold granted units atCrit
  rcases s.crit with _ | ⟨u, c⟩
  · exact Nat.le_refl _
  · rcases c <;> simp [RwCrit.granted, RwCrit.units]

/-- Why a step lets no one in beside a writer: it lets no one in; a writer becomes a reader; `count` shows no writing
unit; the thread is letting readers in already; `count` shows no active unit. -/
def Enters (s : RwSt) (x y : RwThread) (k : Option (Nat × RwCrit)) : Prop :=
  y.holdsWrite.toNat ≤ x.holdsWrite.toNat ∧
    y.holdsRead.toNat + atCrit 0 RwCrit.granted k ≤ x.holdsRead.toNat + s.granted ∨
  x.holdsWrite = true ∧ y.holdsWrite = false ∨
  y.holdsWrite = false ∧ (∀ a n, Packed s.word.activeSpan s.count a n →
    n ≤ listBias s.hidden s.waitList.length) ∨
  y.holdsWrite = false ∧ 0 < x.holdsRead.toNat + s.granted ∨
  y.holdsRead.toNat + atCrit 0 RwCrit.granted k = 0 ∧ ∀ a n, Packed s.word.activeSpan s.count a n → a = 0

theorem Enters.sums {delta : Int} (hexcl : s.Enters x y k) (hc : c = s.atomicUpdate delta)
    (hdelta : delta = (y.active.toNat + atCrit 0 RwCrit.units k : Int) - (x.active.toNat + s.units) -
      s.word.activeSpan * ((y.writer.toNat + listBias (atCrit 0 RwCrit.hidden k) s.waitList.length) -
        (x.writer.toNat + listBias s.hidden s.waitList.length))) : s.Sums x y c k := by
  intro a wr hw hr hrest hp he
  constructor
  · rw [hc, atomicUpdate, hp.eq, hdelta]
    push_cast
    ring_nf
  · obtain ⟨h1, h2, h3⟩ := hrest
    have hg : s.granted ≤ s.units := granted_le_units
    rcases hexcl with ⟨hle, hle'⟩ | ⟨hx', hy'⟩ | ⟨hy', hno⟩ | ⟨hy', hin⟩ | ⟨hy', hno⟩
    · omega
    · rw [hx'] at he
      rw [hy']
      simp only [Bool.toNat_true, Bool.toNat_false] at he ⊢
      omega
    · have := hno _ _ hp
      rw [hy']
      simp only [Bool.toNat_false]
      omega
    · rw [hy']
      simp only [Bool.toNat_false]
      omega
    · have := hno _ _ hp
      have := y.holds_le_active
      have := Bool.toNat_le y.active
      omega

/-- An atomic operation whose units are accounted for does not overflow. -/
theorem RwInv.update_eq {delta : Int} (h : s.RwInv) (hx : s.threads[t]? = some x) (hs : (s.move t y c k).Shape)
    (hdelta : delta = (y.active.toNat + atCrit 0 RwCrit.units k : Int) - (x.active.toNat + s.units) -
      s.word.activeSpan * ((y.writer.toNat + listBias (atCrit 0 RwCrit.hidden k) s.waitList.length) -
        (x.writer.toNat + listBias s.hidden s.waitList.length))) :
    s.atomicUpdate delta = s.count + delta := by
  obtain ⟨a, wr, hw, hr, -, hset, ha, hwr, -, -⟩ := exists_rest_counts hx
  obtain ⟨ha', hwr', -, -⟩ := hset y
  have hA : (s.move t y c k).activeUnits = a + y.active.toNat + atCrit 0 RwCrit.units k := by
    rw [← ha']
    rfl
  have hK : (s.move t y c k).waitingUnits =
      wr + y.writer.toNat + listBias (atCrit 0 RwCrit.hidden k) s.waitList.length := by
    rw [← hwr']
    rfl
  have hp := h.packed.eq
  unfold activeUnits waitingUnits at hp
  rw [ha, hwr] at hp
  refine hs.wrap_eq ?_
  rw [hA, hK, hp, hdelta]
  push_cast
  change _ = _ - (s.word.activeSpan : Int) * _
  ring

theorem Sums.move (hsums : s.Sums x y c k) (h : s.RwInv) (hx : s.threads[t]? = some x)
    (hs : (s.move t y c k).Shape) :
    Packed s.word.activeSpan c (s.move t y c k).activeUnits (s.move t y c k).waitingUnits ∧ (s.move t y c k).Excl := by
  obtain ⟨a, wr, hw, hr, hrest, hset, ha, hwr, hhw, hhr⟩ := exists_rest_counts hx
  obtain ⟨ha', hwr', hhw', hhr'⟩ := hset y
  have hp := h.packed
  have he := h.excl
  unfold activeUnits waitingUnits at hp
  unfold Excl at he
  rw [ha, hwr] at hp
  rw [hhw, hhr] at he
  obtain ⟨hc, he'⟩ := hsums a wr hw hr hrest hp he
  have hA : (s.move t y c k).activeUnits = a + y.active.toNat + atCrit 0 RwCrit.units k := by
    rw [← ha']
    rfl
  have hK : (s.move t y c k).waitingUnits =
      wr + y.writer.toNat + listBias (atCrit 0 RwCrit.hidden k) s.waitList.length := by
    rw [← hwr']
    rfl
  refine ⟨⟨?_, hs.activeUnits_lt⟩, ?_⟩
  · rw [← hA, ← hK] at hc
    rw [hc]
    exact hs.wrap_eq rfl
  · unfold Excl
    rw [← hhw', ← hhr'] at he'
    exact he'

/-- Where no one is bound to look after the list, `count` is the waiting bias alone. -/
theorem count_eq_of_rest (hp : Packed s.word.activeSpan s.count s.activeUnits s.waitingUnits) (hknown : s.known ≠ [])
    (hthr : ∀ x ∈ s.threads, x.owes ≠ true) (hcrit : s.critOwes ≠ true) : s.count = -s.word.activeSpan := by
  have hactive : s.threads.countP (·.active) = 0 :=
    List.countP_eq_zero.2 fun x hx ha => hthr x hx (RwThread.owes_of_active ha)
  have hwriter : s.threads.countP (·.writer) = 0 :=
    List.countP_eq_zero.2 fun x hx hw => hthr x hx (RwThread.owes_of_active (RwThread.active_of_writer hw))
  have hunits : s.units = 0 := by
    unfold critOwes at hcrit
    unfold units
    rcases hc : s.crit with _ | ⟨u, c⟩
    · rfl
    · rw [hc] at hcrit
      exact RwCrit.units_eq_zero hcrit
  have hlen : s.hidden < s.waitList.length := by
    by_contra hle
    exact hknown (List.drop_eq_nil_of_le (Nat.le_of_not_lt hle))
  refine hp.eq_neg_iff.2 ⟨?_, ?_⟩
  · unfold activeUnits
    rw [hactive, hunits]
  · unfold waitingUnits
    rw [hwriter, listBias_pos hlen]

/-- What a step must do for the list: see to it later, or leave behind a `count` that shows someone else active, or
have had nothing to do with it. -/
def Passes (s : RwSt) (x y : RwThread) (c : Int) (k : Option (Nat × RwCrit)) : Prop :=
  y.owes = true ∨ atCrit false (RwCrit.owes s.word) k = true ∨ c ≠ -s.word.activeSpan ∨
  (x.owes = false ∧ (s.critOwes = true → atCrit false (RwCrit.owes s.word) k = true) ∧
    atCrit 0 RwCrit.hidden k = s.hidden ∧ (x.waitsAs = some .write → x.pulsed = true → y.pulsed = true))

theorem Passes.served (hpass : s.Passes x y c k) (h : s.RwInv) (hx : s.threads[t]? = some x)
    (hp : Packed s.word.activeSpan c (s.move t y c k).activeUnits (s.move t y c k).waitingUnits) :
    (s.move t y c k).Served := by
  intro hknown
  have hy : (s.threads.set t y)[t]? = some y := getElem?_set_self hx
  rcases hpass with hy' | hcrit | hc | ⟨hxo, hco, hhid, hpul⟩
  · exact .inl ⟨y, List.mem_of_getElem? hy, hy'⟩
  · exact .inr (.inl hcrit)
  · by_contra hno
    simp only [not_or, not_exists, not_and] at hno
    exact hc (count_eq_of_rest (s := s.move t y c k) hp hknown hno.1 hno.2.1)
  · have hsame : (s.move t y c k).known = s.known := by
      unfold RwSt.known RwSt.hidden
      rw [show atCrit 0 RwCrit.hidden (s.move t y c k).crit = s.hidden from hhid]
      rfl
    rw [hsame] at hknown ⊢
    rcases h.served hknown with ⟨z, hz, hzo⟩ | hcrit | ⟨w, z, hhead, htype, hz, hzp⟩
    · obtain ⟨u, hu⟩ := List.mem_iff_getElem?.1 hz
      refine .inl ⟨z, List.mem_of_getElem? (i := u) ?_, hzo⟩
      rw [← hu]
      refine getElem?_set_ne ?_
      rintro rfl
      rw [hx] at hu
      cases hu
      rw [hxo] at hzo
      cases hzo
    · exact .inr (.inl (hco hcrit))
    · refine .inr (.inr ?_)
      by_cases hu : t = w.thread
      · subst hu
        obtain rfl := Option.some.inj (hx.symm.trans hz)
        have hwaits := h.shape.waitsAs_of_known (List.mem_of_head? hhead) hz
        exact ⟨w, y, hhead, htype, hy, hpul (hwaits.trans (congrArg some htype)) hzp⟩
      · exact ⟨w, z, hhead, htype, (getElem?_set_ne hu).trans hz, hzp⟩

theorem RwInv.move (h : s.RwInv) (hx : s.threads[t]? = some x) (hwaits : y.waitsAs = x.waitsAs)
    (hgiven : atCrit 0 RwCrit.given k = s.given) (hturn : s.Turn t x y k) (hsums : s.Sums x y c k)
    (hserved : Packed s.word.activeSpan c (s.move t y c k).activeUnits (s.move t y c k).waitingUnits →
      (s.move t y c k).Served)
    (hpulsed : (s.move t y c k).Pulsed) : (s.move t y c k).RwInv := by
  have hs : (s.move t y c k).Shape := h.shape.move hx hwaits hgiven hturn
  obtain ⟨hp, he⟩ := hsums.move h hx hs
  exact ⟨hs, hp, he, hserved hp, hpulsed⟩

theorem Pulsed.move (h : s.Pulsed) (hx : s.threads[t]? = some x)
    (hwait : y.ph = .readWait → y.event = true ∨ y.pulsed = true)
    (hpulse : ∀ u done loop j, s.crit = some (u, .pulse done loop j) → k = s.crit) : (s.move t y c k).Pulsed := by
  intro u z hz hph hev
  by_cases hu : t = u
  · subst hu
    obtain rfl := Option.some.inj (hz.symm.trans (getElem?_set_self hx))
    rcases hwait hph with hev' | hp
    · rw [hev'] at hev
      cases hev
    · exact .inl hp
  · rcases h u z ((getElem?_set_ne hu).symm.trans hz) hph hev with hzp | hzp
    · exact .inl hzp
    · obtain ⟨v, done, loop, j, w, hc, hw, hwu⟩ := pulsing_iff.1 hzp
      exact .inr (pulsing_iff.2 ⟨v, done, loop, j, w, (hpulse v done loop j hc).trans hc, hw, hwu⟩)

end Move

end RwSt

end Aosl
