import Aosl.RwlockInv
import Mathlib.Data.List.Nodup

/-!
# The steps of the raw reader/writer lock keep the books

Each access to `count` is accounted for by the thread that makes it, or by the waker inside `wait_lock`.
-/

namespace Aosl
open Lib

namespace RwSt

variable {s : RwSt} {t : Nat} {x y : RwThread} {c : Int}

theorem RwInv.atomicUpdate_zero (h : s.RwInv) : s.count = s.atomicUpdate 0 := by
  unfold atomicUpdate
  rw [Int.add_zero]
  exact (h.shape.wrap_eq h.packed.eq).symm

/-- A step of thread `t` from `x` to `y` that adds `delta` to `count` and leaves `wait_lock` as in `k`. -/
structure Moves (s : RwSt) (t : Nat) (x y : RwThread) (k : Option (Nat × RwCrit)) (delta : Int) : Prop where
  turn : s.Turn t x y k
  given : atCrit 0 RwCrit.given k = s.given
  waits : y.waitsAs = x.waitsAs
  delta : delta = (y.active.toNat + atCrit 0 RwCrit.units k : Int) - (x.active.toNat + s.units) -
    s.word.activeSpan * ((y.writer.toNat + listBias (atCrit 0 RwCrit.hidden k) s.waitList.length) -
      (x.writer.toNat + listBias s.hidden s.waitList.length))
  wait : y.ph = .readWait → y.event = true ∨ y.pulsed = true
  plain : ∀ u done loop j, s.crit = some (u, .pulse done loop j) → k = s.crit

namespace Moves

variable {k : Option (Nat × RwCrit)} {delta : Int}

theorem update_eq (hm : s.Moves t x y k delta) (h : s.RwInv) (hx : s.threads[t]? = some x) :
    s.atomicUpdate delta = s.count + delta :=
  h.update_eq hx (h.shape.move (c := 0) hx hm.waits hm.given hm.turn) hm.delta

theorem inv (hm : s.Moves t x y k delta) (h : s.RwInv) (hx : s.threads[t]? = some x) (hexcl : s.Enters x y k)
    (hpass : s.Passes x y (s.count + delta) k) : (s.move t y (s.count + delta) k).RwInv := by
  have hsums := hexcl.sums (hm.update_eq h hx).symm hm.delta
  exact h.move hx hm.waits hm.given hm.turn hsums (hpass.served h hx) (h.pulsed.move hx hm.wait hm.plain)

theorem still (hm : s.Moves t x y k 0) (h : s.RwInv) (hx : s.threads[t]? = some x) (hexcl : s.Enters x y k)
    (hpass : s.Passes x y s.count k) : (s.move t y s.count k).RwInv := by
  have hinv := hm.inv h hx hexcl (by rwa [Int.add_zero])
  rwa [Int.add_zero] at hinv

end Moves

theorem moves_outer {delta : Int} (hxin : x.ph.inside = false) (hyin : y.ph.inside = false)
    (hwaits : y.waitsAs = x.waitsAs)
    (hdelta : delta = (y.active.toNat - x.active.toNat : Int) -
      s.word.activeSpan * (y.writer.toNat - x.writer.toNat : Int))
    (hwait : y.ph = .readWait → y.event = true ∨ y.pulsed = true) : s.Moves t x y s.crit delta := by
  refine ⟨.inr (.inl ⟨rfl, hxin, hyin⟩), rfl, hwaits, ?_, hwait, fun _ _ _ _ _ => rfl⟩
  rw [hdelta]
  change _ = (y.active.toNat + s.units : Int) - (x.active.toNat + s.units) - s.word.activeSpan *
    ((y.writer.toNat + listBias s.hidden s.waitList.length) -
      (x.writer.toNat + listBias s.hidden s.waitList.length))
  ring

theorem Enters.of_le (hw : y.holdsWrite.toNat ≤ x.holdsWrite.toNat) (hr : y.holdsRead.toNat ≤ x.holdsRead.toNat) :
    s.Enters x y s.crit := .inl ⟨hw, Nat.add_le_add_right hr _⟩

theorem Enters.of_nonneg (hc : 0 ≤ s.count) (hy : y.holdsWrite = false) : s.Enters x y s.crit := by
  refine .inr (.inr (.inl ⟨hy, fun a n hp => ?_⟩))
  rw [hp.nonneg_iff.1 hc]
  exact Nat.zero_le _

theorem Enters.of_zero (h : s.RwInv) (hc : s.count = 0) (hy : y.holdsRead = false) : s.Enters x y s.crit := by
  have hg : s.granted = 0 := by
    have := (h.packed.eq_zero_iff.1 hc).1
    have := granted_le_units (s := s)
    unfold activeUnits at *
    omega
  refine .inr (.inr (.inr (.inr ⟨?_, fun a n hp => (hp.eq_zero_iff.1 hc).1⟩)))
  rw [hy, Bool.toNat_false, Nat.zero_add]
  exact hg

theorem Passes.of_owes {k : Option (Nat × RwCrit)} (h : y.owes = true) : s.Passes x y c k := .inl h

theorem Passes.of_idle (h : x.owes = false) (hp : x.waitsAs = some .write → x.pulsed = true → y.pulsed = true) :
    s.Passes x y c s.crit := .inr (.inr (.inr ⟨h, id, rfl, hp⟩))

theorem Passes.of_count {k : Option (Nat × RwCrit)} (h : c ≠ -s.word.activeSpan) : s.Passes x y c k :=
  .inr (.inr (.inl h))

theorem Word.two_le_activeSpan (w : Word) : 2 ≤ w.activeSpan := by
  rcases w <;> decide

theorem Word.activePart_bias (w : Word) : w.activePart (-w.activeSpan) = 0 := by
  unfold Word.activePart
  simp

theorem RwInv.rdlock (h : s.RwInv) (hx : s.threads[t]? = some x) (hph : x.ph = .idle) : (s.rdlock t x).RwInv := by
  obtain ⟨ph, event, pulsed⟩ := x
  obtain rfl : ph = .idle := hph
  have hfail : s.Moves t ⟨.idle, event, pulsed⟩ ⟨.readFailed, event, pulsed⟩ s.crit activeReadBias :=
    moves_outer rfl rfl rfl (by simp [RwThread.active, RwThread.writer, RwThread.holdsRead, RwThread.holdsWrite, activeReadBias])
      nofun
  have hheld : s.Moves t ⟨.idle, event, pulsed⟩ ⟨.readHeld, event, pulsed⟩ s.crit activeReadBias :=
    moves_outer rfl rfl rfl (by simp [RwThread.active, RwThread.writer, RwThread.holdsRead, RwThread.holdsWrite, activeReadBias])
      nofun
  unfold RwSt.rdlock
  rw [hfail.update_eq h hx]
  split
  · exact hfail.inv h hx (.of_le (Nat.zero_le _) (Nat.zero_le _)) (.of_owes rfl)
  · refine hheld.inv h hx (.of_nonneg ?_ rfl) (.of_owes rfl)
    unfold activeReadBias at *
    omega

theorem moves_write {event pulsed : Bool} {ph : RwPhase} (hph : ph = .writeFailed ∨ ph = .writeHeld) :
    s.Moves t ⟨.idle, event, pulsed⟩ ⟨ph, event, pulsed⟩ s.crit s.word.activeWriteBias := by
  rcases hph with rfl | rfl
  all_goals
    refine moves_outer rfl rfl rfl ?_ nofun
    simp [RwThread.active, RwThread.writer, RwThread.holdsRead, RwThread.holdsWrite, Word.activeWriteBias,
      Word.waitingBias]
    ring

theorem RwInv.wrlock (h : s.RwInv) (hx : s.threads[t]? = some x) (hph : x.ph = .idle) : (s.wrlock t x).RwInv := by
  obtain ⟨ph, event, pulsed⟩ := x
  obtain rfl : ph = .idle := hph
  unfold RwSt.wrlock
  rw [(moves_write (t := t) (.inl rfl)).update_eq h hx]
  split
  · exact (moves_write (t := t) (.inl rfl)).inv h hx (.of_le (Nat.zero_le _) (Nat.zero_le _)) (.of_owes rfl)
  · refine (moves_write (t := t) (.inr rfl)).inv h hx (.of_zero h ?_ rfl) (.of_owes rfl)
    omega

theorem RwInv.trywrlock (h : s.RwInv) (hx : s.threads[t]? = some x) (hph : x.ph = .idle) :
    (s.trywrlock t x).RwInv := by
  obtain ⟨ph, event, pulsed⟩ := x
  obtain rfl : ph = .idle := hph
  unfold RwSt.trywrlock
  split
  · rename_i hc
    have hinv := (moves_write (t := t) (.inr rfl)).inv h hx (.of_zero h hc rfl) (.of_owes rfl)
    rwa [hc, Int.zero_add] at hinv
  · exact h

theorem RwInv.rdunlock (h : s.RwInv) (hx : s.threads[t]? = some x) (hph : x.ph = .readHeld) :
    (s.rdunlock t x).RwInv := by
  obtain ⟨ph, event, pulsed⟩ := x
  obtain rfl : ph = .readHeld := hph
  have hwake : s.Moves t ⟨.readHeld, event, pulsed⟩ ⟨.wakePending, event, pulsed⟩ s.crit (-1) :=
    moves_outer rfl rfl rfl (by simp [RwThread.active, RwThread.writer, RwThread.holdsRead, RwThread.holdsWrite]) nofun
  have hidle : s.Moves t ⟨.readHeld, event, pulsed⟩ ⟨.idle, event, pulsed⟩ s.crit (-1) :=
    moves_outer rfl rfl rfl (by simp [RwThread.active, RwThread.writer, RwThread.holdsRead, RwThread.holdsWrite]) nofun
  unfold RwSt.rdunlock
  rw [hidle.update_eq h hx]
  split
  · exact hwake.inv h hx (.of_le (Nat.zero_le _) (Nat.zero_le _)) (.of_owes rfl)
  · rename_i hc
    refine hidle.inv h hx (.of_le (Nat.zero_le _) (Nat.zero_le _)) (.of_count ?_)
    -- with the waiting bias alone in `count`, `rwlock_wake` is called
    intro hbias
    have := Word.two_le_activeSpan s.word
    refine hc ⟨by omega, ?_⟩
    rw [hbias]
    exact Word.activePart_bias _

theorem RwInv.wrunlock (h : s.RwInv) (hx : s.threads[t]? = some x) (hph : x.ph = .writeHeld) :
    (s.wrunlock t x).RwInv := by
  obtain ⟨ph, event, pulsed⟩ := x
  obtain rfl : ph = .writeHeld := hph
  have hwake : s.Moves t ⟨.writeHeld, event, pulsed⟩ ⟨.wakePending, event, pulsed⟩ s.crit (-s.word.activeWriteBias) :=
    moves_outer rfl rfl rfl (by simp [RwThread.active, RwThread.writer, RwThread.holdsRead, RwThread.holdsWrite,
      Word.activeWriteBias, Word.waitingBias]) nofun
  have hidle : s.Moves t ⟨.writeHeld, event, pulsed⟩ ⟨.idle, event, pulsed⟩ s.crit (-s.word.activeWriteBias) :=
    moves_outer rfl rfl rfl (by simp [RwThread.active, RwThread.writer, RwThread.holdsRead, RwThread.holdsWrite,
      Word.activeWriteBias, Word.waitingBias]) nofun
  unfold RwSt.wrunlock
  rw [hidle.update_eq h hx]
  split
  · exact hwake.inv h hx (.of_le (Nat.zero_le _) (Nat.zero_le _)) (.of_owes rfl)
  · refine hidle.inv h hx (.of_le (Nat.zero_le _) (Nat.zero_le _)) (.of_count ?_)
    have := Word.two_le_activeSpan s.word
    omega

theorem RwInv.wr2rdLock (h : s.RwInv) (hx : s.threads[t]? = some x) (hph : x.ph = .writeHeld) :
    (s.wr2rdLock t x).RwInv := by
  obtain ⟨ph, event, pulsed⟩ := x
  obtain rfl : ph = .writeHeld := hph
  have hdown : s.Moves t ⟨.writeHeld, event, pulsed⟩ ⟨.downPending, event, pulsed⟩ s.crit (-s.word.waitingBias) :=
    moves_outer rfl rfl rfl (by simp [RwThread.active, RwThread.writer, RwThread.holdsRead, RwThread.holdsWrite,
      Word.waitingBias]) nofun
  have hheld : s.Moves t ⟨.writeHeld, event, pulsed⟩ ⟨.readHeld, event, pulsed⟩ s.crit (-s.word.waitingBias) :=
    moves_outer rfl rfl rfl (by simp [RwThread.active, RwThread.writer, RwThread.holdsRead, RwThread.holdsWrite,
      Word.waitingBias]) nofun
  unfold RwSt.wr2rdLock
  rw [hheld.update_eq h hx]
  split
  · exact hdown.inv h hx (.inr (.inl ⟨rfl, rfl⟩)) (.of_owes rfl)
  · exact hheld.inv h hx (.inr (.inl ⟨rfl, rfl⟩)) (.of_owes rfl)

theorem moves_still (hxin : x.ph.inside = false) (hyin : y.ph.inside = false) (hwaits : y.waitsAs = x.waitsAs)
    (ha : y.active = x.active) (hw : y.writer = x.writer) (hwait : y.ph = .readWait → y.event = true ∨ y.pulsed = true) :
    s.Moves t x y s.crit 0 := by
  refine moves_outer hxin hyin hwaits ?_ hwait
  rw [ha, hw]
  ring

theorem RwInv.tryrdlock (h : s.RwInv) (hx : s.threads[t]? = some x) (hph : x.ph = .idle) :
    (s.goto t x .tryRead s.count).RwInv := by
  obtain ⟨ph, event, pulsed⟩ := x
  obtain rfl : ph = .idle := hph
  have ho : s.Moves t ⟨.idle, event, pulsed⟩ ⟨.tryRead, event, pulsed⟩ s.crit 0 := moves_still rfl rfl rfl rfl rfl nofun
  exact ho.still h hx (.of_le (Nat.zero_le _) (Nat.zero_le _)) (.of_idle rfl nofun)

theorem RwInv.tryRead (h : s.RwInv) (hx : s.threads[t]? = some x) (hph : x.ph = .tryRead) :
    (s.tryRead t x).RwInv := by
  obtain ⟨ph, event, pulsed⟩ := x
  obtain rfl : ph = .tryRead := hph
  unfold RwSt.tryRead
  split
  · have ho : s.Moves t ⟨.tryRead, event, pulsed⟩ ⟨.tryCas s.count.toNat, event, pulsed⟩ s.crit 0 :=
      moves_still rfl rfl rfl rfl rfl nofun
    exact ho.still h hx (.of_le (Nat.zero_le _) (Nat.zero_le _)) (.of_idle rfl nofun)
  · have ho : s.Moves t ⟨.tryRead, event, pulsed⟩ ⟨.idle, event, pulsed⟩ s.crit 0 := moves_still rfl rfl rfl rfl rfl nofun
    exact ho.still h hx (.of_le (Nat.zero_le _) (Nat.zero_le _)) (.of_idle rfl nofun)

theorem RwInv.tryCas {tmp : Nat} (h : s.RwInv) (hx : s.threads[t]? = some x) (hph : x.ph = .tryCas tmp) :
    (s.tryCas t x tmp).RwInv := by
  obtain ⟨ph, event, pulsed⟩ := x
  obtain rfl : ph = .tryCas tmp := hph
  unfold RwSt.tryCas
  split
  · rename_i hc
    have ho : s.Moves t ⟨.tryCas tmp, event, pulsed⟩ ⟨.readHeld, event, pulsed⟩ s.crit activeReadBias :=
      moves_outer rfl rfl rfl (by simp [RwThread.active, RwThread.writer, RwThread.holdsRead, RwThread.holdsWrite,
        activeReadBias]) nofun
    have hupdate := ho.update_eq h hx
    unfold atomicUpdate at hupdate
    rw [← hc, hupdate]
    exact ho.inv h hx (.of_nonneg (by omega) rfl) (.of_owes rfl)
  · have ho : s.Moves t ⟨.tryCas tmp, event, pulsed⟩ ⟨.tryRead, event, pulsed⟩ s.crit 0 := moves_still rfl rfl rfl rfl rfl nofun
    exact ho.still h hx (.of_le (Nat.zero_le _) (Nat.zero_le _)) (.of_idle rfl nofun)

theorem RwInv.readLoop (h : s.RwInv) (hx : s.threads[t]? = some x) (hph : x.ph = .readLoop) :
    (s.readLoop t x).RwInv := by
  obtain ⟨ph, event, pulsed⟩ := x
  obtain rfl : ph = .readLoop := hph
  unfold RwSt.readLoop
  rcases event
  · have ho : s.Moves t ⟨.readLoop, false, pulsed⟩ ⟨.readHeld, false, pulsed⟩ s.crit 0 := moves_still rfl rfl rfl rfl rfl nofun
    exact ho.still h hx (.of_le (Nat.zero_le _) (Nat.le_refl _)) (.of_owes rfl)
  · have ho : s.Moves t ⟨.readLoop, true, pulsed⟩ ⟨.readWait, true, pulsed⟩ s.crit 0 :=
      moves_still rfl rfl rfl rfl rfl fun _ => .inl rfl
    exact ho.still h hx (.of_le (Nat.zero_le _) (Nat.le_refl _)) (.of_idle rfl nofun)

theorem RwInv.readWake (h : s.RwInv) (hx : s.threads[t]? = some x) (hph : x.ph = .readWait) :
    (s.put t ⟨.readLoop, x.event, false⟩).RwInv := by
  obtain ⟨ph, event, pulsed⟩ := x
  obtain rfl : ph = .readWait := hph
  rcases event
  · have ho : s.Moves t ⟨.readWait, false, pulsed⟩ ⟨.readLoop, false, false⟩ s.crit 0 := moves_still rfl rfl rfl rfl rfl nofun
    exact ho.still h hx (.of_le (Nat.zero_le _) (Nat.le_refl _)) (.of_owes rfl)
  · have ho : s.Moves t ⟨.readWait, true, pulsed⟩ ⟨.readLoop, true, false⟩ s.crit 0 := moves_still rfl rfl rfl rfl rfl nofun
    exact ho.still h hx (.of_le (Nat.zero_le _) (Nat.le_refl _)) (.of_idle rfl nofun)

theorem RwInv.writeWake (h : s.RwInv) (hx : s.threads[t]? = some x) (hph : x.ph = .writeWait) :
    (s.put t ⟨.writeWoken, x.event, false⟩).RwInv := by
  obtain ⟨ph, event, pulsed⟩ := x
  obtain rfl : ph = .writeWait := hph
  have ho : s.Moves t ⟨.writeWait, event, pulsed⟩ ⟨.writeWoken, event, false⟩ s.crit 0 :=
    moves_still rfl rfl rfl rfl rfl nofun
  exact ho.still h hx (.of_le (Nat.zero_le _) (Nat.zero_le _)) (.of_owes rfl)

theorem moves_inside {delta : Int} {c c' : RwCrit} (hc : s.crit = some (t, c)) (hold : c.given = 0) (hnew : c'.given = 0)
    (hin : y.ph.inside = true) (hfits : c'.Fits s.word s.waitList y) (hwaits : y.waitsAs = x.waitsAs)
    (hdelta : delta = (y.active.toNat + c'.units : Int) - (x.active.toNat + c.units) -
      s.word.activeSpan * ((y.writer.toNat + listBias c'.hidden s.waitList.length) -
        (x.writer.toNat + listBias c.hidden s.waitList.length))) :
    s.Moves t x y (some (t, c')) delta := by
  refine ⟨.inr (.inr ⟨.inr ⟨c, hc⟩, .inr ⟨c', rfl, hin, hfits⟩⟩), ?_, hwaits, ?_, ?_, ?_⟩
  · unfold RwSt.given
    rw [hc]
    exact hnew.trans hold.symm
  · unfold RwSt.units RwSt.hidden
    rw [hc]
    exact hdelta
  · intro hph
    rw [hph] at hin
    cases hin
  · intro u done loop j hpulse
    rw [hc] at hpulse
    cases hpulse
    cases hold

theorem moves_leave {c : RwCrit} (hc : s.crit = some (t, c)) (hold : c.given = 0) (hunits : c.units = 0)
    (hhid : c.hidden = 0) (hin : y.ph.inside = false) (hwaits : y.waitsAs = x.waitsAs) (ha : y.active = x.active)
    (hw : y.writer = x.writer) (hwait : y.ph ≠ .readWait) : s.Moves t x y none 0 := by
  refine ⟨.inr (.inr ⟨.inr ⟨c, hc⟩, .inl ⟨rfl, hin⟩⟩), ?_, hwaits, ?_, fun hph => absurd hph hwait, ?_⟩
  · unfold RwSt.given
    rw [hc]
    exact hold.symm
  · unfold RwSt.units RwSt.hidden
    rw [hc, ha, hw]
    simp only [atCrit]
    rw [hunits, hhid]
    simp
  · intro u done loop j hpulse
    rw [hc] at hpulse
    cases hpulse
    cases hold

theorem moves_take {c : RwCrit} (hc : s.crit = none) (hnew : c.given = 0) (hunits : c.units = 0) (hhid : c.hidden = 0)
    (hin : y.ph.inside = true) (hfits : c.Fits s.word s.waitList y) (hwaits : y.waitsAs = x.waitsAs)
    (ha : y.active = x.active) (hw : y.writer = x.writer) : s.Moves t x y (some (t, c)) 0 := by
  refine ⟨.inr (.inr ⟨.inl hc, .inr ⟨c, rfl, hin, hfits⟩⟩), ?_, hwaits, ?_, ?_, ?_⟩
  · unfold RwSt.given
    rw [hc]
    exact hnew
  · unfold RwSt.units RwSt.hidden
    rw [hc, ha, hw]
    simp only [atCrit]
    rw [hunits, hhid]
    simp
  · intro hph
    rw [hph] at hin
    cases hin
  · intro u done loop j hpulse
    rw [hc] at hpulse
    cases hpulse

theorem inside_eq (hx : s.threads[t]? = some x) (c' : RwCrit) (n : Int) :
    s.inside t c' n = s.move t x n (some (t, c')) := by
  have hset : s.threads.set t x = s.threads := by
    obtain ⟨hlt, rfl⟩ := List.getElem?_eq_some_iff.1 hx
    exact List.set_getElem_self hlt
  unfold RwSt.inside RwSt.move
  rw [hset]

theorem Shape.fits_self {cr : RwCrit} (h : s.Shape) (hx : s.threads[t]? = some x) (hc : s.crit = some (t, cr)) :
    cr.Fits s.word s.waitList x := by
  obtain ⟨z, hz, hfits⟩ := h.fits t cr hc
  obtain rfl := Option.some.inj (hx.symm.trans hz)
  exact hfits

section Crit

variable {c' : RwCrit}

theorem RwInv.inside {cr : RwCrit} (h : s.RwInv) (hx : s.threads[t]? = some x) (hc : s.crit = some (t, cr))
    (hold : cr.given = 0) (hnew : c'.given = 0) (hunits : c'.units = cr.units) (hgranted : c'.granted ≤ cr.granted)
    (hhid : c'.hidden = cr.hidden) (hfits : c'.Fits s.word s.waitList x)
    (hpass : s.Passes x x s.count (some (t, c'))) : (s.inside t c' s.count).RwInv := by
  have hin : x.ph.inside = true := (h.shape.inside t x hx).2 ⟨cr, hc⟩
  have hm : s.Moves t x x (some (t, c')) 0 := by
    refine moves_inside hc hold hnew hin hfits rfl ?_
    rw [hunits, hhid]
    ring
  rw [inside_eq hx]
  refine hm.still h hx (.inl ⟨Nat.le_refl _, ?_⟩) hpass
  unfold RwSt.granted
  rw [hc]
  exact Nat.add_le_add_left hgranted _

theorem Passes.of_same {cr : RwCrit} (hc : s.crit = some (t, cr)) (hhid : c'.hidden = cr.hidden)
    (howes : cr.owes s.word = true → c'.owes s.word = true) : s.Passes x x s.count (some (t, c')) := by
  by_cases hx : x.owes = true
  · exact .of_owes hx
  · refine .inr (.inr (.inr ⟨Bool.eq_false_iff.2 hx, ?_, ?_, fun _ => id⟩))
    · unfold critOwes
      rw [hc]
      exact howes
    · unfold RwSt.hidden
      rw [hc]
      exact hhid

theorem Passes.of_crit {k : Option (Nat × RwCrit)} (h : atCrit false (RwCrit.owes s.word) k = true) :
    s.Passes x y c k := .inr (.inl h)

theorem RwInv.grant {k : RwCaller} (h : s.RwInv) (hx : s.threads[t]? = some x) (hc : s.crit = some (t, .grant k)) :
    (s.grant t k).RwInv := by
  have hfits : x.ph = k.phase ∧ 0 < woken s.waitList := h.shape.fits_self hx hc
  have hin : x.ph.inside = true := (h.shape.inside t x hx).2 ⟨_, hc⟩
  have hlen : 0 < s.waitList.length := Nat.lt_of_lt_of_le hfits.2 (Shape.woken_le _)
  have hretract : s.Moves t x x (some (t, .retract k)) activeReadBias := by
    refine moves_inside hc rfl rfl hin hfits rfl ?_
    simp only [RwCrit.units, RwCrit.hidden, activeReadBias]
    push_cast
    ring
  have hcount : s.Moves t x x (some (t, .count 1 k)) activeReadBias := by
    refine moves_inside hc rfl rfl hin ⟨hfits.1, hfits.2, .inl rfl⟩ rfl ?_
    simp only [RwCrit.units, RwCrit.hidden, activeReadBias]
    push_cast
    ring
  unfold RwSt.grant
  rw [hretract.update_eq h hx]
  split
  · rw [inside_eq hx]
    refine hretract.inv h hx (.inl ⟨Nat.le_refl _, ?_⟩) (.of_crit rfl)
    exact Nat.add_le_add_left (Nat.zero_le _) _
  · rename_i hlow
    rw [inside_eq hx]
    refine hcount.inv h hx (.inr (.inr (.inl ⟨?_, fun a n hp => ?_⟩))) (.of_crit rfl)
    · unfold RwThread.holdsWrite
      rw [hfits.1]
      rcases k <;> rfl
    · -- the old `count` is not below the waiting bias, so that bias is the only one
      have hn : ¬ 2 ≤ n := fun hn => hlow (by
        have := hp.lt_neg_iff.2 hn
        unfold activeReadBias Word.waitingBias
        omega)
      have hhid : s.hidden = 0 := by
        unfold RwSt.hidden
        rw [hc]
        rfl
      rw [hhid, listBias_pos hlen]
      omega

theorem RwInv.retract {k : RwCaller} (h : s.RwInv) (hx : s.threads[t]? = some x)
    (hc : s.crit = some (t, .retract k)) : (s.retract t k).RwInv := by
  have hfits : x.ph = k.phase ∧ 0 < woken s.waitList := h.shape.fits_self hx hc
  have hin : x.ph.inside = true := (h.shape.inside t x hx).2 ⟨_, hc⟩
  have hgranted : s.granted = 0 := by
    unfold RwSt.granted
    rw [hc]
    rfl
  have hret : s.Moves t x x (some (t, .ret k)) (-activeReadBias) := by
    refine moves_inside hc rfl rfl hin hfits.1 rfl ?_
    simp only [RwCrit.units, RwCrit.hidden, activeReadBias]
    push_cast
    ring
  have hgrant : s.Moves t x x (some (t, .grant k)) (-activeReadBias) := by
    refine moves_inside hc rfl rfl hin hfits rfl ?_
    simp only [RwCrit.units, RwCrit.hidden, activeReadBias]
    push_cast
    ring
  unfold RwSt.retract
  rw [hret.update_eq h hx]
  split
  · rename_i hact
    rw [inside_eq hx]
    refine hret.inv h hx (.inl ⟨Nat.le_refl _, ?_⟩) (.of_count fun hbias => hact ?_)
    · rw [hgranted]
      exact Nat.le_refl _
    · rw [hbias]
      exact Word.activePart_bias _
  · rw [inside_eq hx]
    refine hgrant.inv h hx (.inl ⟨Nat.le_refl _, ?_⟩) (.of_crit rfl)
    rw [hgranted]
    exact Nat.le_refl _

theorem holdsWrite_phase {k : RwCaller} (hph : x.ph = k.phase) : x.holdsWrite = false := by
  unfold RwThread.holdsWrite
  rw [hph]
  rcases k <;> rfl

theorem RwInv.countReaders {adj : Nat} {k : RwCaller} (h : s.RwInv) (hx : s.threads[t]? = some x)
    (hc : s.crit = some (t, .count adj k)) : (s.countReaders t adj k).RwInv := by
  obtain ⟨hph, hwoken, hadj⟩ : x.ph = k.phase ∧ 0 < woken s.waitList ∧ (adj = 1 ∨ adj = 0 ∧ k = .down) :=
    h.shape.fits_self hx hc
  have hin : x.ph.inside = true := (h.shape.inside t x hx).2 ⟨_, hc⟩
  have hle := Shape.woken_le s.waitList
  have hm : s.Moves t x x (some (t, .clear 0 (woken s.waitList) k))
      (if woken s.waitList = s.waitList.length then (woken s.waitList - adj : Int) - s.word.waitingBias
        else woken s.waitList - adj) := by
    refine moves_inside hc rfl rfl hin ⟨hph, hwoken, Nat.zero_add _⟩ rfl ?_
    simp only [RwCrit.units, RwCrit.hidden, Nat.zero_add]
    rw [listBias_pos (Nat.lt_of_lt_of_le hwoken hle)]
    split
    · rw [listBias_zero (by omega), Word.waitingBias]
      push_cast
      ring
    · rw [listBias_pos (by omega)]
      ring
  unfold RwSt.countReaders
  simp only []
  rw [hm.update_eq h hx, inside_eq hx]
  refine hm.inv h hx (.inr (.inr (.inr (.inl ⟨holdsWrite_phase hph, ?_⟩)))) (.of_crit rfl)
  -- the waker has a unit for the first reader, or holds the lock for reading itself
  unfold RwSt.granted
  rw [hc]
  rcases hadj with rfl | ⟨rfl, rfl⟩
  · exact Nat.lt_of_lt_of_le Nat.zero_lt_one (Nat.le_add_left _ _)
  · unfold RwThread.holdsRead
    rw [hph]
    exact Nat.zero_lt_one

theorem RwInv.readAdded {adj : Int} (h : s.RwInv) (hx : s.threads[t]? = some x)
    (hc : s.crit = some (t, .readAdded adj)) : (s.readAdded t x adj).RwInv := by
  obtain ⟨hph, hev, hnil, hadj⟩ := h.shape.fits_self hx hc
  obtain ⟨ph, event, pulsed⟩ := x
  obtain rfl : ph = .readAddIn := hph
  obtain rfl : event = true := hev
  have hlen : 0 < s.waitList.length := List.length_pos_iff.2 hnil
  have hm : ∀ c' : RwCrit, c'.units = 0 → c'.hidden = 0 → c'.given = 0 →
      c'.Fits s.word s.waitList ⟨.readIn, true, pulsed⟩ →
      s.Moves t ⟨.readAddIn, true, pulsed⟩ ⟨.readIn, true, pulsed⟩ (some (t, c')) adj := by
    intro c' hunits hhid hgiven hfits
    refine moves_inside hc rfl hgiven rfl hfits rfl ?_
    rw [hunits, hhid, listBias_pos hlen, hadj]
    simp only [RwThread.active, RwThread.writer, RwThread.holdsRead, RwThread.holdsWrite, RwCrit.units, RwCrit.hidden,
      activeReadBias, Word.waitingBias]
    split
    · rw [listBias_zero (by omega)]
      simp
      ring
    · rw [listBias_pos (by omega)]
      simp
  have hwake := hm (.doWake .any .read) rfl rfl rfl ⟨rfl, hnil, (fun h => by cases h)⟩
  have hret := hm (.ret .read) rfl rfl rfl rfl
  unfold RwSt.readAdded
  simp only []
  rw [hret.update_eq h hx]
  split
  · exact hwake.inv h hx (.inl ⟨Nat.zero_le _, Nat.zero_le _⟩) (.of_crit rfl)
  · rename_i hno
    exact hret.inv h hx (.inl ⟨Nat.zero_le _, Nat.zero_le _⟩) (.of_count fun hbias => hno (.inl hbias))

theorem RwInv.writeAdded {adj : Int} (h : s.RwInv) (hx : s.threads[t]? = some x)
    (hc : s.crit = some (t, .writeAdded adj)) : (s.writeAdded t x adj).RwInv := by
  obtain ⟨hph, hnil, hadj⟩ := h.shape.fits_self hx hc
  obtain ⟨ph, event, pulsed⟩ := x
  obtain rfl : ph = .writeAddIn := hph
  have hlen : 0 < s.waitList.length := List.length_pos_iff.2 hnil
  have hm : ∀ c' : RwCrit, c'.units = 0 → c'.hidden = 0 → c'.given = 0 →
      c'.Fits s.word s.waitList ⟨.writeIn, event, pulsed⟩ →
      s.Moves t ⟨.writeAddIn, event, pulsed⟩ ⟨.writeIn, event, pulsed⟩ (some (t, c')) adj := by
    intro c' hunits hhid hgiven hfits
    refine moves_inside hc rfl hgiven rfl hfits rfl ?_
    rw [hunits, hhid, listBias_pos hlen, hadj]
    simp only [RwThread.active, RwThread.writer, RwThread.holdsRead, RwThread.holdsWrite, RwCrit.units, RwCrit.hidden,
      Word.activeWriteBias, Word.waitingBias]
    split
    · rw [listBias_zero (by omega)]
      simp
    · rw [listBias_pos (by omega)]
      simp
  -- with the waiting bias alone in `count`, the writer tries for the lock
  have hpass : ∀ c' : RwCrit, (s.word.activePart (s.count + adj) = 0 → c'.owes s.word = true) →
      s.Passes ⟨.writeAddIn, event, pulsed⟩ ⟨.writeIn, event, pulsed⟩ (s.count + adj) (some (t, c')) := by
    intro c' howes
    by_cases hbias : s.count + adj = -s.word.activeSpan
    · exact .of_crit (howes (by rw [hbias]; exact Word.activePart_bias _))
    · exact .of_count hbias
  have hwake := hm (.doWake .readers (.write (s.count + adj))) rfl rfl rfl ⟨rfl, hnil, (fun h => by cases h)⟩
  have htry := hm (.writeTry (s.count + adj)) rfl rfl rfl rfl
  unfold RwSt.writeAdded
  simp only []
  rw [htry.update_eq h hx]
  split
  · exact hwake.inv h hx (.inl ⟨Nat.zero_le _, Nat.zero_le _⟩) (hpass _ fun ha => by simp [RwCrit.owes, RwCaller.owes, ha])
  · exact htry.inv h hx (.inl ⟨Nat.zero_le _, Nat.zero_le _⟩) (hpass _ fun ha => by simp [RwCrit.owes, ha])

theorem RwInv.leave {cr : RwCrit} (h : s.RwInv) (hx : s.threads[t]? = some x) (hc : s.crit = some (t, cr))
    (hold : cr.given = 0) (hunits : cr.units = 0) (hhid : cr.hidden = 0)
    (howes : cr.owes s.word = false) (hin : y.ph.inside = false) (hwaits : y.waitsAs = x.waitsAs)
    (ha : y.active = x.active) (hw : y.writer = x.writer) (hhw : y.holdsWrite = x.holdsWrite)
    (hhr : y.holdsRead = x.holdsRead) (hwait : y.ph ≠ .readWait) (hyo : x.owes = true → y.owes = true)
    (hp : y.pulsed = x.pulsed) : (s.move t y s.count none).RwInv := by
  have hm : s.Moves t x y none 0 := moves_leave hc hold hunits hhid hin hwaits ha hw hwait
  refine hm.still h hx (.inl ⟨?_, ?_⟩) ?_
  · rw [hhw]
  · rw [hhr]
    exact Nat.le_add_right _ _
  · by_cases hxo : x.owes = true
    · exact .of_owes (hyo hxo)
    · refine .inr (.inr (.inr ⟨Bool.eq_false_iff.2 hxo, ?_, ?_, fun _ => hp.trans⟩))
      · unfold critOwes
        rw [hc]
        intro hco
        exact absurd hco (Bool.eq_false_iff.1 howes)
      · unfold RwSt.hidden
        rw [hc]
        exact hhid.symm

theorem RwInv.ret {k : RwCaller} (h : s.RwInv) (hx : s.threads[t]? = some x) (hc : s.crit = some (t, .ret k)) :
    (s.ret t x k).RwInv := by
  have hph : x.ph = k.phase := h.shape.fits_self hx hc
  obtain ⟨ph, event, pulsed⟩ := x
  obtain rfl : ph = k.phase := hph
  rcases k with _ | count | _ | _
  · exact h.leave hx hc rfl rfl rfl rfl rfl rfl rfl rfl rfl rfl nofun id rfl
  · exact h.inside hx hc rfl rfl rfl (Nat.le_refl _) rfl rfl (.of_same hc rfl id)
  · exact h.leave hx hc rfl rfl rfl rfl rfl rfl rfl rfl rfl rfl nofun id rfl
  · exact h.leave hx hc rfl rfl rfl rfl rfl rfl rfl rfl rfl rfl nofun id rfl

theorem RwInv.writeUnlock (h : s.RwInv) (hx : s.threads[t]? = some x) (hc : s.crit = some (t, .writeUnlock)) :
    ({ s.goto t x .writeWait s.count with crit := none } : RwSt).RwInv := by
  have hph : x.ph = .writeIn := h.shape.fits_self hx hc
  obtain ⟨ph, event, pulsed⟩ := x
  obtain rfl : ph = .writeIn := hph
  exact h.leave hx hc rfl rfl rfl rfl rfl rfl rfl rfl rfl rfl nofun id rfl

theorem RwInv.writeTry {count : Int} (h : s.RwInv) (hx : s.threads[t]? = some x)
    (hc : s.crit = some (t, .writeTry count)) :
    (s.inside t (if s.word.activePart count = 0 then .writeRead else .writeUnlock) s.count).RwInv := by
  have hph : x.ph = .writeIn := h.shape.fits_self hx hc
  split
  · exact h.inside hx hc rfl rfl rfl (Nat.le_refl _) rfl hph (.of_crit rfl)
  · rename_i hact
    refine h.inside hx hc rfl rfl rfl (Nat.le_refl _) rfl hph (.of_same hc rfl fun howes => ?_)
    exact absurd (of_decide_eq_true howes) hact

theorem RwInv.writeRead (h : s.RwInv) (hx : s.threads[t]? = some x) (hc : s.crit = some (t, .writeRead)) :
    (s.inside t (if s.count = s.word.waitingBias then .writeCas else .writeUnlock) s.count).RwInv := by
  have hph : x.ph = .writeIn := h.shape.fits_self hx hc
  split
  · exact h.inside hx hc rfl rfl rfl (Nat.le_refl _) rfl hph (.of_crit rfl)
  · rename_i hbias
    exact h.inside hx hc rfl rfl rfl (Nat.le_refl _) rfl hph (.of_count hbias)

theorem RwInv.writeLoad (h : s.RwInv) (hx : s.threads[t]? = some x) (hc : s.crit = some (t, .writeLoad)) :
    (s.inside t (.writeTry s.count) s.count).RwInv := by
  have hph : x.ph = .writeIn := h.shape.fits_self hx hc
  refine h.inside hx hc rfl rfl rfl (Nat.le_refl _) rfl hph ?_
  by_cases hbias : s.count = -s.word.activeSpan
  · refine .of_crit (decide_eq_true ?_)
    rw [hbias]
    exact Word.activePart_bias _
  · exact .of_count hbias

theorem RwInv.count_ne_of_nil (h : s.RwInv) (hnil : s.waitList = []) : s.count ≠ -s.word.activeSpan := by
  intro hbias
  obtain ⟨ha, hk⟩ := h.packed.eq_neg_iff.1 hbias
  have hle : s.threads.countP (·.writer) ≤ s.threads.countP (·.active) :=
    List.countP_mono_left fun _ _ => RwThread.active_of_writer
  unfold activeUnits at ha
  unfold waitingUnits at hk
  rw [hnil, List.length_nil, listBias_zero (Nat.zero_le _)] at hk
  omega

theorem RwInv.writeCas (h : s.RwInv) (hx : s.threads[t]? = some x) (hc : s.crit = some (t, .writeCas)) :
    (s.writeCas t x).RwInv := by
  have hph : x.ph = .writeIn := h.shape.fits_self hx hc
  unfold RwSt.writeCas
  split
  · rename_i hbias
    obtain ⟨ph, event, pulsed⟩ := x
    obtain rfl : ph = .writeIn := hph
    have hlen : 0 < s.waitList.length := by
      by_contra hle
      exact h.count_ne_of_nil (List.length_eq_zero_iff.1 (by omega)) hbias
    have hm : s.Moves t ⟨.writeIn, event, pulsed⟩ ⟨.writeGotIn, event, pulsed⟩ (some (t, .writeDel))
        ((if s.waitList.length = 1 then s.word.activeWriteBias else s.word.activeWriteBias + s.word.waitingBias) -
          s.count) := by
      refine moves_inside hc rfl rfl rfl rfl rfl ?_
      rw [hbias]
      simp only [RwThread.active, RwThread.writer, RwThread.holdsRead, RwThread.holdsWrite, RwCrit.units,
        RwCrit.hidden, Word.activeWriteBias, Word.waitingBias]
      rw [listBias_pos hlen]
      split
      · rw [listBias_zero (by omega)]
        simp
      · rw [listBias_pos (by omega)]
        simp
        ring
    have hinv := hm.inv h hx (.inr (.inr (.inr (.inr ⟨rfl, fun a n hp => (hp.eq_neg_iff.1 hbias).1⟩)))) (.of_owes rfl)
    rwa [show ∀ n : Int, s.count + (n - s.count) = n from fun n => by ring] at hinv
  · rename_i hbias
    exact h.inside hx hc rfl rfl rfl (Nat.le_refl _) rfl hph (.of_count hbias)

theorem RwInv.writeWoken (h : s.RwInv) (hx : s.threads[t]? = some x) (hph : x.ph = .writeWoken)
    (hc : s.crit = none) : ({ s.put t { x with ph := .writeIn } with crit := some (t, .writeLoad) } : RwSt).RwInv := by
  obtain ⟨ph, event, pulsed⟩ := x
  obtain rfl : ph = .writeWoken := hph
  have hm : s.Moves t ⟨.writeWoken, event, pulsed⟩ ⟨.writeIn, event, pulsed⟩ (some (t, .writeLoad)) 0 :=
    moves_take hc rfl rfl rfl rfl rfl rfl rfl rfl
  exact hm.still h hx (.inl ⟨Nat.zero_le _, Nat.zero_le _⟩) (.of_crit rfl)

theorem RwInv.wakeEnter {type : WakeType} {k : RwCaller} (h : s.RwInv) (hx : s.threads[t]? = some x)
    (hph : x.ph = .wakePending ∧ k = .wake ∧ type = .any ∨ x.ph = .downPending ∧ k = .down ∧ type = .readOwned)
    (hc : s.crit = none) : (s.wakeEnter t x type k).RwInv := by
  obtain ⟨ph, event, pulsed⟩ := x
  unfold RwSt.wakeEnter
  rcases hph with ⟨hph, rfl, rfl⟩ | ⟨hph, rfl, rfl⟩
  · obtain rfl : ph = .wakePending := hph
    split
    · rename_i hnil
      have hm : s.Moves t ⟨.wakePending, event, pulsed⟩ ⟨.wakeIn, event, pulsed⟩ (some (t, .ret .wake)) 0 :=
        moves_take hc rfl rfl rfl rfl rfl rfl rfl rfl
      exact hm.still h hx (.inl ⟨Nat.zero_le _, Nat.zero_le _⟩) (.of_count (h.count_ne_of_nil hnil))
    · rename_i hnil
      have hm : s.Moves t ⟨.wakePending, event, pulsed⟩ ⟨.wakeIn, event, pulsed⟩ (some (t, .doWake .any .wake)) 0 :=
        moves_take hc rfl rfl rfl rfl ⟨rfl, hnil, nofun⟩ rfl rfl rfl
      exact hm.still h hx (.inl ⟨Nat.zero_le _, Nat.zero_le _⟩) (.of_crit rfl)
  · obtain rfl : ph = .downPending := hph
    split
    · have hm : s.Moves t ⟨.downPending, event, pulsed⟩ ⟨.downIn, event, pulsed⟩ (some (t, .ret .down)) 0 :=
        moves_take hc rfl rfl rfl rfl rfl rfl rfl rfl
      exact hm.still h hx (.inl ⟨Nat.zero_le _, Nat.le_add_right _ _⟩) (.of_owes rfl)
    · rename_i hnil
      have hm : s.Moves t ⟨.downPending, event, pulsed⟩ ⟨.downIn, event, pulsed⟩
          (some (t, .doWake .readOwned .down)) 0 := moves_take hc rfl rfl rfl rfl ⟨rfl, hnil, fun _ => rfl⟩ rfl rfl rfl
      exact hm.still h hx (.inl ⟨Nat.zero_le _, Nat.le_add_right _ _⟩) (.of_owes rfl)

end Crit

section List

variable {k : Option (Nat × RwCrit)} {l : List Waiter}

/-- A step of thread `t` that changes the list and neither `count` nor what `count` stands for. -/
theorem RwInv.relist (h : s.RwInv) (hx : s.threads[t]? = some x)
    (hs : ({ s.move t y s.count k with waitList := l } : RwSt).Shape) (ha : y.active = x.active)
    (hw : y.writer = x.writer) (hhw : y.holdsWrite = x.holdsWrite) (hhr : y.holdsRead = x.holdsRead)
    (hunits : atCrit 0 RwCrit.units k = s.units) (hgranted : atCrit 0 RwCrit.granted k = s.granted)
    (hbias : listBias (atCrit 0 RwCrit.hidden k) l.length = listBias s.hidden s.waitList.length)
    (howes : y.owes = true) (hwait : y.ph ≠ .readWait)
    (hplain : ∀ u done loop j, s.crit ≠ some (u, .pulse done loop j)) :
    ({ s.move t y s.count k with waitList := l } : RwSt).RwInv := by
  obtain ⟨a, wr, hw', hr', -, hset, hA, hW, hHW, hHR⟩ := exists_rest_counts hx
  obtain ⟨hA', hW', hHW', hHR'⟩ := hset y
  have hy : (s.threads.set t y)[t]? = some y := getElem?_set_self hx
  refine ⟨hs, ?_, ?_, ?_, ?_⟩
  · have hactive : ({ s.move t y s.count k with waitList := l } : RwSt).activeUnits = s.activeUnits := by
      change (s.threads.set t y).countP (·.active) + atCrit 0 RwCrit.units k = s.threads.countP (·.active) + s.units
      rw [hA', hA, ha, hunits]
    have hwaiting : ({ s.move t y s.count k with waitList := l } : RwSt).waitingUnits = s.waitingUnits := by
      change (s.threads.set t y).countP (·.writer) + listBias (atCrit 0 RwCrit.hidden k) l.length =
        s.threads.countP (·.writer) + listBias s.hidden s.waitList.length
      rw [hW', hW, hw, hbias]
    rw [hactive, hwaiting]
    exact h.packed
  · have he := h.excl
    unfold Excl at he ⊢
    change (s.threads.set t y).countP (·.holdsWrite) = 0 ∨ (s.threads.set t y).countP (·.holdsWrite) = 1 ∧
      (s.threads.set t y).countP (·.holdsRead) + atCrit 0 RwCrit.granted k = 0
    rw [hHW', hHR', hhw, hhr, hgranted, ← hHW, ← hHR]
    exact he
  · exact fun _ => .inl ⟨y, List.mem_of_getElem? hy, howes⟩
  · intro u z hz hph hev
    by_cases hu : t = u
    · subst hu
      obtain rfl := Option.some.inj (hz.symm.trans hy)
      exact absurd hph hwait
    · rcases h.pulsed u z ((getElem?_set_ne hu).symm.trans hz) hph hev with hzp | hzp
      · exact .inl hzp
      · obtain ⟨v, done, loop, j, w, hc, -, -⟩ := pulsing_iff.1 hzp
        exact absurd hc (hplain v done loop j)

/-- Adding a waiter at the tail. -/
theorem RwInv.enqueue {type : WaiterType} {ph : RwPhase} {bias : Int} {added : Int → RwCrit} (h : s.RwInv)
    (hx : s.threads[t]? = some x) (hc : s.crit = none) (hnew : x.waitsAs = none)
    (hwaits : (⟨ph, true, false⟩ : RwThread).waitsAs = some type) (hin : ph.inside = true)
    (hfits : (added (if s.waitList = [] then -bias + s.word.waitingBias else -bias)).Fits s.word
      (s.waitList ++ [⟨t, type⟩]) ⟨ph, true, false⟩)
    (hadded : ∀ n, (added n).units = 0 ∧ (added n).granted = 0 ∧ (added n).given = 0 ∧ (added n).hidden = 1)
    (ha : (⟨ph, true, false⟩ : RwThread).active = x.active) (hw : (⟨ph, true, false⟩ : RwThread).writer = x.writer)
    (hhw : (⟨ph, true, false⟩ : RwThread).holdsWrite = x.holdsWrite)
    (hhr : (⟨ph, true, false⟩ : RwThread).holdsRead = x.holdsRead)
    (howes : (⟨ph, true, false⟩ : RwThread).owes = true) : (s.enqueue t ph type bias added).RwInv := by
  obtain ⟨hu, hg, hgiven, hhid⟩ := hadded (if s.waitList = [] then -bias + s.word.waitingBias else -bias)
  have hy : (s.threads.set t ⟨ph, true, false⟩)[t]? = some ⟨ph, true, false⟩ := getElem?_set_self hx
  have hqueue : s.queue = s.waitList := by
    unfold RwSt.queue RwSt.given
    rw [hc]
    rfl
  have hno : ∀ w ∈ s.waitList, w.thread ≠ t := by
    rintro w hw rfl
    have := (h.shape.queue w.thread x w.type hx).1 (hqueue ▸ hw)
    rw [hnew] at this
    cases this
  have hs : (s.enqueue t ph type bias added).Shape := by
    refine ⟨?_, ?_, ?_, ?_, ?_, ?_⟩
    · simpa [RwSt.enqueue, RwSt.put] using h.shape.size
    · change ((s.waitList ++ [(⟨t, type⟩ : Waiter)]).map (·.thread)).Nodup
      rw [List.map_append, List.nodup_append]
      refine ⟨h.shape.nodup, by simp, ?_⟩
      intro a ha b hb
      obtain ⟨w, hw, rfl⟩ := List.mem_map.1 ha
      rw [List.mem_singleton.1 hb]
      exact hno w hw
    · intro w hw
      have hlt : t < s.threads.length := (List.getElem?_eq_some_iff.1 hx).1
      rcases List.mem_append.1 hw with hw | hw
      · simpa [RwSt.enqueue, RwSt.put] using h.shape.bound w hw
      · rw [List.mem_singleton.1 hw]
        simpa [RwSt.enqueue, RwSt.put] using hlt
    · intro u z type' hz
      have hq : (s.enqueue t ph type bias added).queue = s.waitList ++ [⟨t, type⟩] := by
        unfold RwSt.queue RwSt.given
        change List.drop (RwCrit.given (added _)) (s.waitList ++ [⟨t, type⟩]) = _
        rw [hgiven]
        rfl
      rw [hq]
      by_cases hu : t = u
      · subst hu
        obtain rfl := Option.some.inj (hz.symm.trans hy)
        rw [hwaits]
        constructor
        · intro hmem
          rcases List.mem_append.1 hmem with hmem | hmem
          · exact absurd rfl (hno _ hmem)
          · rw [List.mem_singleton] at hmem
            rw [(Waiter.mk.inj hmem).2]
        · intro htype
          rw [Option.some.inj htype]
          exact List.mem_append_right _ (List.mem_singleton_self _)
      · rw [← h.shape.queue u z type' ((getElem?_set_ne hu).symm.trans hz), hqueue, List.mem_append]
        refine ⟨fun hmem => hmem.resolve_right fun hmem => ?_, .inl⟩
        exact hu (Waiter.mk.inj (List.mem_singleton.1 hmem)).1.symm
    · intro u z hz
      change _ ↔ ∃ c, some (t, added _) = some (u, c)
      by_cases hu : t = u
      · subst hu
        obtain rfl := Option.some.inj (hz.symm.trans hy)
        simp [hin]
      · have hold := h.shape.inside u z ((getElem?_set_ne hu).symm.trans hz)
        rw [hold, hc]
        simp [hu]
    · intro u c' hc'
      obtain ⟨rfl, rfl⟩ := Prod.mk.inj (Option.some.inj hc')
      exact ⟨_, hy, hfits⟩
  refine h.relist (y := ⟨ph, true, false⟩) (l := s.waitList ++ [(⟨t, type⟩ : Waiter)])
    (k := some (t, added (if s.waitList = [] then -bias + s.word.waitingBias else -bias))) hx hs ha hw hhw hhr
    ?_ ?_ ?_ howes ?_ ?_
  · unfold RwSt.units
    rw [hc]
    exact hu
  · unfold RwSt.granted
    rw [hc]
    exact hg
  · unfold RwSt.hidden
    rw [hc]
    change listBias (RwCrit.hidden (added _)) _ = _
    rw [hhid, List.length_append]
    unfold listBias atCrit
    simp
  · rintro rfl
    cases hin
  · intro u done loop j hpulse
    rw [hc] at hpulse
    cases hpulse

theorem RwInv.readLockFailed (h : s.RwInv) (hx : s.threads[t]? = some x) (hph : x.ph = .readFailed)
    (hc : s.crit = none) : (s.readLockFailed t).RwInv := by
  obtain ⟨ph, event, pulsed⟩ := x
  obtain rfl : ph = .readFailed := hph
  refine h.enqueue hx hc rfl rfl rfl ⟨rfl, rfl, by simp, ?_⟩ (fun _ => ⟨rfl, rfl, rfl, rfl⟩) rfl rfl rfl rfl rfl
  simp

theorem RwInv.writeLockFailed (h : s.RwInv) (hx : s.threads[t]? = some x) (hph : x.ph = .writeFailed)
    (hc : s.crit = none) : (s.writeLockFailed t).RwInv := by
  obtain ⟨ph, event, pulsed⟩ := x
  obtain rfl : ph = .writeFailed := hph
  refine h.enqueue hx hc rfl rfl rfl ⟨rfl, by simp, ?_⟩ (fun _ => ⟨rfl, rfl, rfl, rfl⟩) rfl rfl rfl rfl rfl
  simp

/-- `__aosl_list_del_entry` of the writer that has the lock. -/
theorem RwInv.writeDel (h : s.RwInv) (hx : s.threads[t]? = some x) (hc : s.crit = some (t, .writeDel)) :
    (s.writeDel t x).RwInv := by
  have hph : x.ph = .writeGotIn := h.shape.fits_self hx hc
  obtain ⟨ph, event, pulsed⟩ := x
  obtain rfl : ph = .writeGotIn := hph
  have hy : (s.threads.set t ⟨.writeHeld, event, pulsed⟩)[t]? = some ⟨.writeHeld, event, pulsed⟩ :=
    getElem?_set_self hx
  have hqueue : s.queue = s.waitList := by
    unfold RwSt.queue RwSt.given
    rw [hc]
    rfl
  have hmem : (⟨t, .write⟩ : Waiter) ∈ s.waitList := by
    rw [← hqueue]
    exact (h.shape.queue t _ .write hx).2 rfl
  have hlen : (s.waitList.filter (·.thread ≠ t)).length + 1 = s.waitList.length := by
    have hone : (s.waitList.map (·.thread)).count t = 1 :=
      List.count_eq_one_of_mem h.shape.nodup (List.mem_map_of_mem hmem)
    have hsplit := List.length_eq_countP_add_countP (fun w : Waiter => w.thread == t) (l := s.waitList)
    rw [List.count, List.countP_map] at hone
    rw [hsplit, ← List.countP_eq_length_filter, Nat.add_comm]
    congr 1
    · exact hone.symm
    · exact List.countP_congr fun w _ => by simp
  have hs : (s.writeDel t ⟨.writeGotIn, event, pulsed⟩).Shape := by
    refine ⟨?_, ?_, ?_, ?_, ?_, nofun⟩
    · simpa [RwSt.writeDel, RwSt.goto, RwSt.put] using h.shape.size
    · exact h.shape.nodup.sublist (List.filter_sublist.map _)
    · intro w hw
      simpa [RwSt.writeDel, RwSt.goto, RwSt.put] using h.shape.bound w (List.mem_filter.1 hw).1
    · intro u z type hz
      change (⟨u, type⟩ : Waiter) ∈ s.waitList.filter (·.thread ≠ t) ↔ _
      rw [List.mem_filter]
      by_cases hu : t = u
      · subst hu
        obtain rfl := Option.some.inj (hz.symm.trans hy)
        simp [RwThread.waitsAs]
      · rw [← h.shape.queue u z type ((getElem?_set_ne hu).symm.trans hz), hqueue]
        simp [Ne.symm hu]
    · intro u z hz
      change _ ↔ ∃ c, (none : Option (Nat × RwCrit)) = some (u, c)
      by_cases hu : t = u
      · subst hu
        obtain rfl := Option.some.inj (hz.symm.trans hy)
        simp [RwPhase.inside]
      · rw [h.shape.inside u z ((getElem?_set_ne hu).symm.trans hz), hc]
        simp [hu]
  refine h.relist (k := none) (l := s.waitList.filter (·.thread ≠ t)) hx hs rfl rfl rfl rfl ?_ ?_ ?_ rfl nofun ?_
  · unfold RwSt.units
    rw [hc]
    rfl
  · unfold RwSt.granted
    rw [hc]
    rfl
  · unfold RwSt.hidden
    rw [hc, ← hlen]
    unfold listBias atCrit RwCrit.hidden
    simp
  · intro u done loop j hpulse
    rw [hc] at hpulse
    cases hpulse

end List

section Wake

variable {u : Nat} {z : RwThread} {k : RwCaller} {w : Waiter} {done loop : Nat}

theorem eventPulse_eq (hz : s.threads[u]? = some z) :
    s.eventPulse u = s.move u { z with pulsed := true } s.count s.crit := by
  unfold RwSt.eventPulse
  rw [modify_of_getElem? hz]
  rfl

theorem RwInv.eventPulse (h : s.RwInv) (hz : s.threads[u]? = some z) : (s.eventPulse u).RwInv := by
  have hm : s.Moves u z { z with pulsed := true } s.crit 0 := by
    refine ⟨.inl ⟨rfl, rfl, rfl⟩, rfl, rfl, ?_, fun _ => .inr rfl, fun _ _ _ _ _ => rfl⟩
    change 0 = (z.active.toNat + s.units : Int) - (z.active.toNat + s.units) - s.word.activeSpan *
      ((z.writer.toNat + listBias s.hidden s.waitList.length) - (z.writer.toNat + listBias s.hidden s.waitList.length))
    ring
  rw [eventPulse_eq hz]
  refine hm.still h hz (.of_le (Nat.le_refl _) (Nat.le_refl _)) ?_
  by_cases ho : z.owes = true
  · exact .of_owes ho
  · exact .of_idle (Bool.eq_false_iff.2 ho) fun _ _ => rfl

theorem eventPulse_self (hx : s.threads[t]? = some x) (hz : s.threads[u]? = some z) :
    ∃ x', (s.eventPulse u).threads[t]? = some x' ∧ x'.ph = x.ph := by
  rw [eventPulse_eq hz]
  by_cases hu : u = t
  · subst hu
    obtain rfl := Option.some.inj (hx.symm.trans hz)
    exact ⟨_, getElem?_set_self hx, rfl⟩
  · exact ⟨x, (getElem?_set_ne hu).trans hx, rfl⟩

theorem RwInv.doWake {type : WakeType} {s' : RwSt} (h : s.RwInv) (hx : s.threads[t]? = some x)
    (hc : s.crit = some (t, .doWake type k)) (hs' : s.doWake t type k = some s') : s'.RwInv := by
  obtain ⟨hph, -, hown⟩ : x.ph = k.phase ∧ s.waitList ≠ [] ∧ (type = .readOwned → k = .down) :=
    h.shape.fits_self hx hc
  unfold RwSt.doWake at hs'
  split at hs'
  · cases hs'
  rename_i w rest hlist
  split at hs'
  · rename_i htype
    split at hs'
    · -- the head is a writer: its event is pulsed
      rename_i hany
      cases hs'
      have hbound : w.thread < s.threads.length := h.shape.bound w (by rw [hlist]; exact List.mem_cons_self)
      obtain ⟨z, hz⟩ : ∃ z, s.threads[w.thread]? = some z := ⟨_, List.getElem?_eq_getElem hbound⟩
      have h1 := h.eventPulse hz
      obtain ⟨x', hx', hph'⟩ := eventPulse_self hx hz
      have hc1 : (s.eventPulse w.thread).crit = some (t, .doWake type k) := hc
      have hin : x'.ph.inside = true := (h1.shape.inside t x' hx').2 ⟨_, hc1⟩
      have hm : (s.eventPulse w.thread).Moves t x' x' (some (t, .ret k)) 0 := by
        refine moves_inside hc1 rfl rfl hin (hph'.trans hph) rfl ?_
        simp only [RwCrit.units, RwCrit.hidden]
        ring
      have hcount : s.count = (s.eventPulse w.thread).atomicUpdate 0 := h1.atomicUpdate_zero
      have hsums := Enters.sums (s := s.eventPulse w.thread) (x := x') (y := x') (c := s.count) (k := some (t, .ret k))
        (.inl ⟨Nat.le_refl _, Nat.add_le_add_left (Nat.zero_le _) _⟩) hcount hm.delta
      rw [inside_eq hx']
      refine h1.move hx' hm.waits hm.given hm.turn hsums ?_ (h1.pulsed.move hx' hm.wait hm.plain)
      intro _ _
      refine .inr (.inr ⟨w, { z with pulsed := true }, ?_, htype, ?_, rfl⟩)
      · change (s.waitList.drop 0).head? = some w
        rw [hlist]
        rfl
      · have hset : (s.eventPulse w.thread).threads[w.thread]? = some { z with pulsed := true } := by
          rw [eventPulse_eq hz]
          exact getElem?_set_self hz
        have hsame := inside_eq hx' (.ret k) s.count
        change ((s.eventPulse w.thread).move t x' s.count (some (t, .ret k))).threads[w.thread]? = _
        rw [← hsame]
        exact hset
    · rename_i hany
      cases hs'
      refine h.inside hx hc rfl rfl rfl (Nat.le_refl _) rfl hph (.of_same hc rfl fun howes => ?_)
      simpa [RwCrit.owes, hany] using howes
  · rename_i htype
    have hread : w.type = .read := by
      rcases hw : w.type
      · exact absurd hw htype
      · rfl
    have hwoken : 0 < woken s.waitList := by
      unfold woken
      rw [hlist, List.takeWhile_cons_of_pos (by simp [hread])]
      exact Nat.zero_lt_succ _
    split at hs'
    · rename_i hro
      cases hs'
      exact h.inside hx hc rfl rfl rfl (Nat.le_refl _) rfl ⟨hph, hwoken, .inr ⟨rfl, hown hro⟩⟩ (.of_crit rfl)
    · cases hs'
      exact h.inside hx hc rfl rfl rfl (Nat.le_refl _) rfl ⟨hph, hwoken⟩ (.of_crit rfl)

theorem woken_cons (w : Waiter) (l : List Waiter) : woken (w :: l) = if w.type = .read then woken l + 1 else 0 := by
  unfold woken
  rw [List.takeWhile_cons]
  by_cases hw : w.type = .read
  · simp [hw]
  · simp [hw]

theorem type_of_lt_woken {l : List Waiter} (hw : l[done]? = some w) (hlt : done < woken l) : w.type = .read := by
  induction l generalizing done with
  | nil => cases hlt
  | cons v l ih =>
    rw [woken_cons] at hlt
    split at hlt
    · rename_i hv
      rcases done with _ | done
      · rw [← Option.some.inj hw]
        exact hv
      · exact ih hw (Nat.lt_of_succ_lt_succ hlt)
    · cases hlt

/-- The next waiter of the wake loop still waits for reading. -/
theorem Shape.waiting (h : s.Shape) (hc : s.crit = some (t, .clear done loop k)) (hw : s.waitList[done]? = some w)
    (hz : s.threads[w.thread]? = some z) : z.event = true ∧ z.active = false ∧ z.holdsRead = false ∧
      z.writer = false ∧ z.holdsWrite = false ∧
      (z.ph = .readIn ∨ z.ph = .readLoop ∨ z.ph = .readWait) := by
  obtain ⟨x, hx, hph, hpos, hwoken⟩ := h.fits t _ hc
  have htype : w.type = .read := type_of_lt_woken hw (by omega)
  have hqueue : s.queue = s.waitList.drop done := by
    unfold RwSt.queue RwSt.given
    rw [hc]
    rfl
  have hmem : w ∈ s.queue := by
    rw [hqueue]
    refine List.mem_of_getElem? (i := 0) ?_
    rwa [List.getElem?_drop, Nat.add_zero]
  have hwaits : z.waitsAs = some .read := by
    rw [← htype]
    exact (h.queue w.thread z w.type hz).1 hmem
  -- the thread that adds itself is the holder of `wait_lock`, which is elsewhere
  have hadd : z.ph ≠ .readAddIn := by
    intro hadd
    obtain ⟨c', hc'⟩ := (h.inside w.thread z hz).1 (by rw [hadd]; rfl)
    rw [hc] at hc'
    cases hc'
    obtain rfl := Option.some.inj (hx.symm.trans hz)
    rw [hadd] at hph
    rcases k <;> cases hph
  obtain ⟨ph, event, pulsed⟩ := z
  rcases ph <;> rcases event <;>
    simp_all [RwThread.waitsAs, RwThread.active, RwThread.holdsRead, RwThread.writer, RwThread.holdsWrite]

theorem Shape.clear (h : s.Shape) (hc : s.crit = some (t, .clear done (loop + 1) k))
    (hw : s.waitList[done]? = some w) (hz : s.threads[w.thread]? = some z) :
    (s.move w.thread { z with event := false } s.count (some (t, .pulse done loop k))).Shape := by
  obtain ⟨-, -, -, -, -, hphase⟩ := h.waiting hc hw hz
  obtain ⟨x, hx, hph, -, hwoken⟩ := h.fits t _ hc
  have hz' : (s.threads.set w.thread { z with event := false })[w.thread]? = some { z with event := false } :=
    getElem?_set_self hz
  have hqueue : s.queue = w :: s.waitList.drop (done + 1) := by
    unfold RwSt.queue RwSt.given
    rw [hc]
    obtain ⟨hlt, rfl⟩ := List.getElem?_eq_some_iff.1 hw
    exact List.drop_eq_getElem_cons hlt
  have hnot : w.thread ∉ (s.waitList.drop (done + 1)).map (·.thread) := by
    have hsub : (s.queue.map (·.thread)).Nodup := h.nodup.sublist ((List.drop_sublist _ _).map _)
    rw [hqueue, List.map_cons, List.nodup_cons] at hsub
    exact hsub.1
  refine ⟨?_, h.nodup, ?_, ?_, ?_, ?_⟩
  · simpa [RwSt.move] using h.size
  · intro v hv
    simpa [RwSt.move] using h.bound v hv
  · intro v y type hy
    change (⟨v, type⟩ : Waiter) ∈ s.waitList.drop (done + 1) ↔ _
    by_cases hv : w.thread = v
    · subst hv
      obtain rfl := Option.some.inj (hy.symm.trans hz')
      refine ⟨fun hmem => absurd (List.mem_map_of_mem hmem) hnot, fun hwaits => ?_⟩
      rcases hphase with hp | hp | hp <;> simp [RwThread.waitsAs, hp] at hwaits
    · rw [← h.queue v y type ((getElem?_set_ne hv).symm.trans hy), hqueue, List.mem_cons]
      refine ⟨.inr, fun hmem => hmem.resolve_left fun heq => ?_⟩
      exact hv (by rw [← heq])
  · intro v y hy
    have hold : (∃ c, some (t, RwCrit.pulse done loop k) = some (v, c)) ↔ ∃ c, s.crit = some (v, c) := by
      rw [hc]
      constructor
      · rintro ⟨c', hc'⟩
        exact ⟨_, by rw [(Prod.mk.inj (Option.some.inj hc')).1]⟩
      · rintro ⟨c', hc'⟩
        exact ⟨_, by rw [(Prod.mk.inj (Option.some.inj hc')).1]⟩
    change _ ↔ ∃ c, some (t, RwCrit.pulse done loop k) = some (v, c)
    rw [hold]
    by_cases hv : w.thread = v
    · subst hv
      obtain rfl := Option.some.inj (hy.symm.trans hz')
      exact h.inside w.thread z hz
    · exact h.inside v y ((getElem?_set_ne hv).symm.trans hy)
  · intro v c' hc'
    obtain ⟨rfl, rfl⟩ := Prod.mk.inj (Option.some.inj hc')
    have hfits : done + 1 + loop = woken s.waitList := by omega
    by_cases hv : w.thread = t
    · subst hv
      obtain rfl := Option.some.inj (hx.symm.trans hz)
      exact ⟨_, hz', hph, hfits⟩
    · exact ⟨x, (getElem?_set_ne hv).trans hx, hph, hfits⟩

theorem Shape.clear_eq {s' : RwSt} (h : s.Shape) (hc : s.crit = some (t, .clear done loop k))
    (hs' : s.clear t done loop k = some s') : ∃ w z n, loop = n + 1 ∧ s.waitList[done]? = some w ∧
      s.threads[w.thread]? = some z ∧
      s' = s.move w.thread { z with event := false } s.count (some (t, .pulse done n k)) := by
  obtain ⟨x, hx, -, hpos, -⟩ := h.fits t _ hc
  obtain ⟨loop, rfl⟩ : ∃ n, loop = n + 1 := ⟨loop - 1, by omega⟩
  unfold RwSt.clear at hs'
  split at hs'
  · cases hs'
  rename_i w hw
  obtain ⟨z, hz⟩ : ∃ z, s.threads[w.thread]? = some z :=
    ⟨_, List.getElem?_eq_getElem (h.bound w (List.mem_of_getElem? hw))⟩
  refine ⟨w, z, loop, rfl, hw, hz, ?_⟩
  rw [← Option.some.inj hs']
  unfold RwSt.eventClear
  rw [modify_of_getElem? hz]
  rfl

theorem RwInv.clear {s' : RwSt} (h : s.RwInv) (hc : s.crit = some (t, .clear done loop k))
    (hs' : s.clear t done loop k = some s') : s'.RwInv := by
  obtain ⟨w, z, loop, rfl, hw, hz, rfl⟩ := h.shape.clear_eq hc hs'
  obtain ⟨-, ha, hr, hwr, hhw, hphase⟩ := h.shape.waiting hc hw hz
  have hs := h.shape.clear hc hw hz
  -- the unit of the waker becomes the reader's
  have ha' : ({ z with event := false } : RwThread).active = true := by
    rcases hphase with hp | hp | hp <;> simp [RwThread.active, RwThread.holdsRead, hp]
  have hr' : ({ z with event := false } : RwThread).holdsRead = true := by
    rcases hphase with hp | hp | hp <;> simp [RwThread.holdsRead, hp]
  have hwr' : ({ z with event := false } : RwThread).writer = false := hwr
  have hhw' : ({ z with event := false } : RwThread).holdsWrite = false := hhw
  have hunits : s.units = loop + 1 := by
    unfold RwSt.units
    rw [hc]
    rfl
  have hgranted : s.granted = loop + 1 := by
    unfold RwSt.granted
    rw [hc]
    rfl
  have hhidden : s.hidden = done + (loop + 1) := by
    unfold RwSt.hidden
    rw [hc]
    rfl
  have hexcl : s.Enters z { z with event := false } (some (t, .pulse done loop k)) := by
    refine .inl ⟨?_, ?_⟩
    · rw [hhw']
      exact Nat.zero_le _
    · rw [hr', hr, hgranted]
      simp only [atCrit, RwCrit.granted, RwCrit.units, Bool.toNat_true, Bool.toNat_false]
      omega
  have hdelta : (0 : Int) = (({ z with event := false } : RwThread).active.toNat +
      atCrit 0 RwCrit.units (some (t, .pulse done loop k)) : Int) - (z.active.toNat + s.units) - s.word.activeSpan *
        ((({ z with event := false } : RwThread).writer.toNat +
          listBias (atCrit 0 RwCrit.hidden (some (t, .pulse done loop k))) s.waitList.length) -
          (z.writer.toNat + listBias s.hidden s.waitList.length)) := by
    rw [ha', ha, hwr', hwr, hunits, hhidden, show done + (loop + 1) = done + 1 + loop by omega]
    simp only [atCrit, RwCrit.units, RwCrit.hidden, Bool.toNat_true, Bool.toNat_false]
    push_cast
    ring
  have hsums := hexcl.sums h.atomicUpdate_zero hdelta
  obtain ⟨hp, he⟩ := hsums.move h hz hs
  refine ⟨hs, hp, he, fun _ => .inl ⟨_, List.mem_of_getElem? (getElem?_set_self hz), RwThread.owes_of_active ha'⟩, ?_⟩
  intro v y hy hph hev'
  by_cases hv : w.thread = v
  · exact .inr (pulsing_iff.2 ⟨t, done, loop, k, w, rfl, hw, hv⟩)
  · rcases h.pulsed v y ((getElem?_set_ne hv).symm.trans hy) hph hev' with hyp | hyp
    · exact .inl hyp
    · obtain ⟨_, _, _, _, _, hc', -, -⟩ := pulsing_iff.1 hyp
      rw [hc] at hc'
      cases hc'

theorem Pulsed.pulse {k' : Option (Nat × RwCrit)} {l : List Waiter} (h : s.Pulsed)
    (hc : s.crit = some (t, .pulse done loop k)) (hw : s.waitList[done]? = some w)
    (hz : s.threads[w.thread]? = some z) :
    ({ s.eventPulse w.thread with waitList := l, crit := k' } : RwSt).Pulsed := by
  intro v y hy hph hev
  rw [eventPulse_eq hz] at hy
  by_cases hv : w.thread = v
  · subst hv
    obtain rfl := Option.some.inj (hy.symm.trans (getElem?_set_self hz))
    exact .inl rfl
  · rcases h v y ((getElem?_set_ne hv).symm.trans hy) hph hev with hyp | hyp
    · exact .inl hyp
    · obtain ⟨_, _, _, _, w', hc', hw', hwv⟩ := pulsing_iff.1 hyp
      rw [hc] at hc'
      cases hc'
      obtain rfl := Option.some.inj (hw.symm.trans hw')
      exact absurd hwv hv

theorem listBias_eq (h : Nat) (l : List Waiter) : listBias h l.length = if l.drop h = [] then 0 else 1 := by
  unfold listBias
  by_cases hlt : h < l.length
  · rw [if_pos hlt, if_neg fun hnil => by have := List.drop_eq_nil_iff.1 hnil; omega]
  · rw [if_neg hlt, if_pos (List.drop_eq_nil_of_le (Nat.le_of_not_lt hlt))]

/-- The holder of `wait_lock` goes on, and entries that are out of the queue may leave the list. -/
theorem RwInv.recrit {cr : RwCrit} {l : List Waiter} (h : s.RwInv) (c' : RwCrit) (hc : s.crit = some (t, cr))
    (hl : l.Sublist s.waitList) (hqueue : l.drop c'.given = s.queue) (hknown : l.drop c'.hidden = s.known)
    (hunits : c'.units = cr.units) (hgranted : c'.granted = cr.granted)
    (howes : cr.owes s.word = true → c'.owes s.word = true)
    (hfits : ∀ x, s.threads[t]? = some x → cr.Fits s.word s.waitList x → c'.Fits s.word l x)
    (hp : ({ s with waitList := l, crit := some (t, c') } : RwSt).Pulsed) :
    ({ s with waitList := l, crit := some (t, c') } : RwSt).RwInv := by
  refine ⟨⟨h.shape.size, ?_, ?_, ?_, ?_, ?_⟩, ?_, ?_, ?_, hp⟩
  · exact h.shape.nodup.sublist (hl.map _)
  · exact fun w hw => h.shape.bound w (hl.subset hw)
  · intro u x type hx
    change _ ∈ l.drop c'.given ↔ _
    rw [hqueue]
    exact h.shape.queue u x type hx
  · intro u x hx
    rw [h.shape.inside u x hx, hc]
    constructor
    · rintro ⟨c0, hc0⟩
      exact ⟨c', by rw [(Prod.mk.inj (Option.some.inj hc0)).1]⟩
    · rintro ⟨c0, hc0⟩
      exact ⟨cr, by rw [(Prod.mk.inj (Option.some.inj hc0)).1]⟩
  · intro u c0 hc0
    obtain ⟨rfl, rfl⟩ := Prod.mk.inj (Option.some.inj hc0)
    obtain ⟨x, hx, hold⟩ := h.shape.fits t cr hc
    exact ⟨x, hx, hfits x hx hold⟩
  · have hactive : ({ s with waitList := l, crit := some (t, c') } : RwSt).activeUnits = s.activeUnits := by
      unfold RwSt.activeUnits RwSt.units
      rw [hc]
      exact congrArg _ hunits
    have hwaiting : ({ s with waitList := l, crit := some (t, c') } : RwSt).waitingUnits = s.waitingUnits := by
      change s.threads.countP (·.writer) + listBias c'.hidden l.length =
        s.threads.countP (·.writer) + listBias s.hidden s.waitList.length
      rw [listBias_eq, listBias_eq, hknown]
      rfl
    rw [hactive, hwaiting]
    exact h.packed
  · have he := h.excl
    unfold Excl RwSt.granted at he ⊢
    rw [hc] at he
    simp only [atCrit] at he ⊢
    rw [hgranted]
    exact he
  · intro hne
    have hsame : ({ s with waitList := l, crit := some (t, c') } : RwSt).known = s.known := hknown
    rw [hsame] at hne ⊢
    rcases h.served hne with hthr | hcrit | hhead
    · exact .inl hthr
    · refine .inr (.inl (howes ?_))
      unfold critOwes at hcrit
      rw [hc] at hcrit
      exact hcrit
    · exact .inr (.inr hhead)

theorem RwInv.pulse {s' : RwSt} (h : s.RwInv) (hc : s.crit = some (t, .pulse done loop k))
    (hs' : s.pulse t done loop k = some s') : s'.RwInv := by
  unfold RwSt.pulse at hs'
  split at hs'
  · cases hs'
  rename_i w hw
  obtain ⟨z, hz⟩ : ∃ z, s.threads[w.thread]? = some z :=
    ⟨_, List.getElem?_eq_getElem (h.shape.bound w (List.mem_of_getElem? hw))⟩
  have h1 := h.eventPulse hz
  have hc1 : (s.eventPulse w.thread).crit = some (t, .pulse done loop k) := hc
  have hqueue : (s.eventPulse w.thread).queue = s.waitList.drop (done + 1) := by
    unfold RwSt.queue RwSt.given
    rw [hc1]
    rfl
  have hknown : (s.eventPulse w.thread).known = s.waitList.drop (done + 1 + loop) := by
    unfold RwSt.known RwSt.hidden
    rw [hc1]
    rfl
  split at hs'
  · rename_i hloop
    subst hloop
    cases hs'
    exact h1.recrit (.ret k) hc1 (List.drop_sublist _ _) hqueue.symm hknown.symm rfl rfl (fun ho => by
      simpa [RwCrit.owes] using ho) (fun _ _ hold => hold.1) (h.pulsed.pulse hc hw hz)
  · rename_i hloop
    cases hs'
    refine h1.recrit (.clear (done + 1) loop k) hc1 (List.Sublist.refl _) hqueue.symm hknown.symm rfl rfl
      (fun _ => rfl) (fun _ _ hold => ⟨hold.1, Nat.pos_of_ne_zero hloop, hold.2⟩) (h.pulsed.pulse hc hw hz)

end Wake

/-! ## A step of the lock -/

theorem RwInv.critStep {cr : RwCrit} {s' : RwSt} (h : s.RwInv) (hx : s.threads[t]? = some x)
    (hc : s.crit = some (t, cr)) (hs' : s.critStep t x cr = some s') : s'.RwInv := by
  rcases cr with adj | adj | ⟨type, k⟩ | k | k | ⟨adj, k⟩ | ⟨done, loop, k⟩ | ⟨done, loop, k⟩ | k | count | _ | _ | _ | _ | _
  · cases hs'
    exact h.readAdded hx hc
  · cases hs'
    exact h.writeAdded hx hc
  · exact h.doWake hx hc hs'
  · cases hs'
    exact h.grant hx hc
  · cases hs'
    exact h.retract hx hc
  · cases hs'
    exact h.countReaders hx hc
  · exact h.clear hc hs'
  · exact h.pulse hc hs'
  · cases hs'
    exact h.ret hx hc
  · have hinv := h.writeTry hx hc
    simp only [RwSt.critStep] at hs'
    split at hs'
    · rename_i ha
      cases hs'
      rwa [if_pos ha] at hinv
    · rename_i ha
      cases hs'
      rwa [if_neg ha] at hinv
  · have hinv := h.writeRead hx hc
    simp only [RwSt.critStep] at hs'
    split at hs'
    · rename_i ha
      cases hs'
      rwa [if_pos ha] at hinv
    · rename_i ha
      cases hs'
      rwa [if_neg ha] at hinv
  · cases hs'
    exact h.writeCas hx hc
  · cases hs'
    exact h.writeDel hx hc
  · cases hs'
    exact h.writeUnlock hx hc
  · cases hs'
    exact h.writeLoad hx hc

theorem RwInv.outside {s' : RwSt} (h : s.RwInv) (hx : s.threads[t]? = some x)
    (hs' : s.outside t x x.ph = some s') : s'.RwInv := by
  rcases hph : x.ph <;> rw [hph] at hs' <;> simp only [RwSt.outside, Option.ite_none_right_eq_some] at hs'
  case tryRead =>
    cases hs'
    exact h.tryRead hx hph
  case tryCas tmp =>
    cases hs'
    exact h.tryCas hx hph
  case readLoop =>
    cases hs'
    exact h.readLoop hx hph
  case readFailed =>
    obtain ⟨hc, ⟨⟩⟩ := hs'
    exact h.readLockFailed hx hph hc
  case readWait =>
    obtain ⟨-, ⟨⟩⟩ := hs'
    exact h.readWake hx hph
  case writeFailed =>
    obtain ⟨hc, ⟨⟩⟩ := hs'
    exact h.writeLockFailed hx hph hc
  case writeWait =>
    obtain ⟨-, ⟨⟩⟩ := hs'
    exact h.writeWake hx hph
  case writeWoken =>
    obtain ⟨hc, ⟨⟩⟩ := hs'
    exact h.writeWoken hx hph hc
  case wakePending =>
    obtain ⟨hc, ⟨⟩⟩ := hs'
    exact h.wakeEnter hx (.inl ⟨hph, rfl, rfl⟩) hc
  case downPending =>
    obtain ⟨hc, ⟨⟩⟩ := hs'
    exact h.wakeEnter hx (.inr ⟨hph, rfl, rfl⟩) hc
  all_goals cases hs'

theorem RwInv.go {s' : RwSt} (h : s.RwInv) (hx : s.threads[t]? = some x) (hs' : s.go t x = some s') : s'.RwInv := by
  unfold RwSt.go at hs'
  split at hs'
  · exact h.outside hx hs'
  · rename_i u cr hc
    split at hs'
    · rename_i hu
      subst hu
      exact h.critStep hx hc hs'
    · exact h.outside hx hs'

theorem RwInv.spurious {s' : RwSt} (h : s.RwInv) (hx : s.threads[t]? = some x) (hs' : s.spurious t x = some s') :
    s'.RwInv := by
  unfold RwSt.spurious at hs'
  split at hs'
  · rename_i hph
    cases hs'
    exact h.readWake hx hph
  · rename_i hph
    cases hs'
    exact h.writeWake hx hph
  · cases hs'

theorem RwInv.step {s' : RwSt} {a : RwAct} (h : s.RwInv) (hs' : s.step a = some s') : s'.RwInv := by
  unfold RwSt.step at hs'
  split at hs'
  · cases hs'
  rename_i x hx
  obtain ⟨t, op⟩ := a
  rcases op <;> simp only [Option.ite_none_right_eq_some] at hs'
  case go => exact h.go hx hs'
  case spurious => exact h.spurious hx hs'
  all_goals obtain ⟨hph, ⟨⟩⟩ := hs'
  · exact h.rdlock hx hph
  · exact h.tryrdlock hx hph
  · exact h.wrlock hx hph
  · exact h.trywrlock hx hph
  · exact h.rdunlock hx hph
  · exact h.wrunlock hx hph
  · exact h.wr2rdLock hx hph

end RwSt

end Aosl
