import Aosl.IofdBase
import Aosl.Lib.Lists
import Mathlib.Data.List.Nodup

/-!
# The waits of `poll_mp.c` and `select_mp.c`

The two back ends that emulate edge triggering ask the OS in different ways: `os_mp_wait_poll` has an array with one
entry for each iofd of the queue, `os_mp_wait_select` two sets of fds. Both then go through `q->iofds`, collect what is
ready in `events` until the array is full, and clear the flags of what they report. Each does what the wait of
`Iofd.lean` does, and they agree where `aosl_hal_poll` and `aosl_hal_select` count the same as ready (`waits_agree`).

The two calls are parameters: each platform has its own. `PollAnswers` and `SelectAnswers` are what is asked of them.
They do not say that both have the same as ready: on Linux an fd with `POLLHUP` or `POLLERR` and no data is readable for
`select` only. `aosl_hal_poll` of Darwin and of Windows is as `PollAnswers` says; that of Linux is where the memory of its
array happens to be zero, as it adds the events to what was there.

`iofds` are the iofds of the queue in the order of the list. A function is `none` where `BUG_ON` fails, an array or a set
is left, or the OS does not return.
-/

namespace Aosl
open Lib

namespace MpWait

/-- What a call has as ready. -/
structure Ready where
  readable : Nat → Bool
  writable : Nat → Bool

/-- The `events` of an `aosl_poll_event_t` that has none. -/
def noEvents : EventMask := ⟨false, false, false, false⟩

/-- An entry of `events`; `fd` is `none` for `AOSL_INVALID_FD`. -/
structure PollEvent where
  fd : Option Nat
  events : EventMask
deriving DecidableEq

/-- An entry of the array for `aosl_hal_poll`. -/
structure PollFd where
  fd : Nat
  events : EventMask
  revents : EventMask
deriving DecidableEq

structure Waited where
  ret : Int
  events : List PollEvent
  st : IoSt

/-- What a call of the HAL returns; `ω` is what the OS has when it returns without an error. -/
inductive HalRet (ω : Type) where
  /-- `AOSL_HAL_RET_EINTR`. -/
  | eintr
  | error (err : Int)
  | ready (o : ω)

/-- `aosl_hal_poll` without an error: what it returns, and the array after it. -/
abbrev PollCall : Type := List PollFd → Nat × List PollFd

/-- `aosl_hal_select` without an error: of `nfds` and the two sets, what it returns and the sets after it. -/
abbrev SelectCall : Type := Nat → (Nat → Bool) → (Nat → Bool) → Nat × (Nat → Bool) × (Nat → Bool)

/-- `timeo` after the lines at `__again`. -/
def again (timeo timeStamp now : Int) : Int :=
  if 0 < timeo then (if timeo - (now - timeStamp) < 0 then 0 else timeo - (now - timeStamp)) else timeo

/-- `events [i]` for the first `maxevents` of them. -/
def clearEvents (maxevents : Nat) : List PollEvent := List.replicate maxevents ⟨none, noEvents⟩

/-- The pipe that wakes the queue. -/
def putSigp (piper : Nat) (isset : Bool) (events : List PollEvent) : Option (Nat × List PollEvent) :=
  if isset then
    if 0 < events.length then some (1, events.set 0 ⟨some piper, { noEvents with pollIn := true }⟩) else none
  else some (0, events)

/-- The body of the loops over `q->iofds`. -/
def collect (s : IoSt) (f : Nat) (revents : EventMask) (i : Nat) (events : List PollEvent) :
    Option (IoSt × Nat × List PollEvent) :=
  match events[i]? with
  | none => none
  | some e =>
    let s := if revents.pollIn then s.modify f fun o => { o with pollIn := false } else s
    let s := if revents.pollOut then s.modify f fun o => { o with pollOut := false } else s
    let mask := { e.events with
      pollIn := e.events.pollIn || revents.pollIn
      pollOut := e.events.pollOut || revents.pollOut }
    if mask ≠ noEvents then some (s, i + 1, events.set i ⟨(s.obj f).fd, mask⟩) else some (s, i, events)

/-! ### `poll_mp.c` -/

/-- The entry for what is asked for and ready. -/
def answer (r : Ready) (p : PollFd) : PollFd :=
  { p with revents := { noEvents with
    pollIn := p.events.pollIn && r.readable p.fd
    pollOut := p.events.pollOut && r.writable p.fd } }

/-- The entry without the events that nobody asks for. -/
def PollFd.plain (p : PollFd) : PollFd :=
  { p with revents := { noEvents with pollIn := p.revents.pollIn, pollOut := p.revents.pollOut } }

/-- The call writes what was asked for and is ready to each entry, perhaps with other events, and returns at least the
number of entries for which there is something. -/
structure PollAnswers (r : Ready) (call : PollCall) : Prop where
  fds : ∀ fds, (∀ p ∈ fds, p.revents = noEvents) → (call fds).2.map PollFd.plain = fds.map (answer r)
  count : ∀ fds, ((call fds).2.countP fun p => p.revents.pollIn || p.revents.pollOut) ≤ (call fds).1

/-- The entry for the pipe. -/
def sigpFd (piper : Nat) : PollFd := ⟨piper, { noEvents with pollIn := true }, noEvents⟩

/-- The entry for an iofd. -/
def pollFd (s : IoSt) (f : Nat) : PollFd :=
  ⟨(s.obj f).fd.getD 0, { noEvents with pollIn := (s.obj f).pollIn, pollOut := (s.obj f).pollOut }, noEvents⟩

def pollLoop (err maxevents : Nat) : List Nat → List PollFd → IoSt → Nat → List PollEvent → Option Waited
  | [], _, s, i, events => some ⟨i, events, s⟩
  | _ :: _, [], _, _, _ => none
  | f :: iofds, p :: pfds, s, i, events =>
    -- `BUG_ON (pfd->fd != iofd_fobj (f)->fd)`
    if (s.obj f).fd ≠ some p.fd then none
    else match collect s f p.revents i events with
    | none => none
    | some (s, i, events) =>
      if err ≤ i ∨ maxevents ≤ i then some ⟨i, events, s⟩ else pollLoop err maxevents iofds pfds s i events

/-- After a call of `aosl_hal_poll` that has not failed. -/
def pollReady (s : IoSt) (piper : Nat) (iofds : List Nat) (maxevents : Nat) (events : List PollEvent)
    (halPoll : PollCall) : Option Waited :=
  let hal := halPoll (sigpFd piper :: iofds.map (pollFd s))
  if hal.1 = 0 then some ⟨0, events, s⟩
  else match hal.2 with
  | [] => none
  | p :: pfds =>
    -- `BUG_ON (pfd->fd != q->sigp.piper)`
    if p.fd ≠ piper then none
    else (putSigp piper p.revents.pollIn (clearEvents maxevents)).bind fun (i, events) =>
      pollLoop hal.1 maxevents iofds pfds s i events

/-- Of the fds below `nfds` the call leaves those in the sets that are ready, and returns at least their number. -/
structure SelectAnswers (r : Ready) (call : SelectCall) : Prop where
  read : ∀ nfds readfds writefds n, n < nfds → (call nfds readfds writefds).2.1 n = (readfds n && r.readable n)
  write : ∀ nfds readfds writefds n, n < nfds → (call nfds readfds writefds).2.2 n = (writefds n && r.writable n)
  count : ∀ nfds readfds writefds, (List.range nfds).countP (call nfds readfds writefds).2.1 +
    (List.range nfds).countP (call nfds readfds writefds).2.2 ≤ (call nfds readfds writefds).1

def selectLoop (err maxevents : Nat) (readfds writefds : Nat → Bool) :
    List Nat → IoSt → Nat → List PollEvent → Option Waited
  | [], s, i, events => some ⟨i, events, s⟩
  | f :: iofds, s, i, events => match (s.obj f).fd with
    | none => none
    | some fd => match collect s f { noEvents with pollIn := readfds fd, pollOut := writefds fd } i events with
      | none => none
      | some (s, i, events) =>
        if err ≤ i ∨ maxevents ≤ i then some ⟨i, events, s⟩
        else selectLoop err maxevents readfds writefds iofds s i events

/-- After a call of `aosl_hal_select` that has not failed. -/
def selectReady (s : IoSt) (piper : Nat) (iofds : List Nat) (maxevents : Nat) (events : List PollEvent)
    (sets : (Nat → Bool) × (Nat → Bool) × Nat) (halSelect : SelectCall) : Option Waited :=
  let (err, readfds, writefds) := halSelect (sets.2.2 + 1) sets.1 sets.2.1
  if err = 0 then some ⟨0, events, s⟩
  else (putSigp piper (readfds piper) (clearEvents maxevents)).bind fun (i, events) =>
    selectLoop err maxevents readfds writefds iofds s i events

/-- What there is to report of an iofd: what its flags ask for and the call has as ready. -/
def reportable (s : IoSt) (r : Ready) (f : Nat) : EventMask :=
  let fd := (s.obj f).fd.getD 0
  { noEvents with pollIn := (s.obj f).pollIn && r.readable fd, pollOut := (s.obj f).pollOut && r.writable fd }

/-- The iofds that have something to report. -/
def pickAll (m : Nat → EventMask) (iofds : List Nat) : List (Nat × EventMask) :=
  (iofds.map fun f => (f, m f)).filter fun x => x.2 ≠ noEvents

/-- Those for which there is room in `events`. -/
def reports (s : IoSt) (piper : Nat) (iofds : List Nat) (maxevents : Nat) (r : Ready) : List (Nat × EventMask) :=
  (pickAll (reportable s r) iofds).take (maxevents - (r.readable piper).toNat)

/-- The wait has returned what the OS had: first the pipe, then what the wait of the dispatchers' model reports, and it
leaves the iofds as that does. -/
structure Shows (s : IoSt) (piper : Nat) (iofds : List Nat) (maxevents : Nat) (r : Ready) (w : Waited) : Prop where
  can : ∀ x ∈ reports s piper iofds maxevents r, s.canReport x = true
  ret : w.ret = ((r.readable piper).toNat + (reports s piper iofds maxevents r).length : Nat)
  st : w.st = { s.wait (reports s piper iofds maxevents r) with batch := s.batch, pc := s.pc }
  events : w.events.take w.ret.toNat =
    (if r.readable piper then [⟨some piper, { noEvents with pollIn := true }⟩] else []) ++
      (s.wait (reports s piper iofds maxevents r)).batch.map fun e => ⟨some e.fd, e.mask⟩

/-- The iofds of the queue, each with its own fd. -/
structure Watches (s : IoSt) (piper : Nat) (iofds : List Nat) : Prop where
  backend : s.backend ≠ .epoll
  own : ∀ f ∈ iofds, (s.obj f).listed = true ∧ (s.obj f).q = s.qid ∧ (s.obj f).fd.isSome = true
  distinct : (some piper :: iofds.map fun f => (s.obj f).fd).Nodup

/-- What the caller looks at. -/
def Waited.seen (w : Waited) : Int × List PollEvent × IoSt := (w.ret, w.events.take w.ret.toNat, w.st)

/-! ### The loop over the iofds -/

/-- The loops of the two, which differ in where they find what the OS has said of an iofd. -/
def scan (err maxevents : Nat) (m : Nat → EventMask) : List Nat → IoSt → Nat → List PollEvent → Option Waited
  | [], s, i, events => some ⟨i, events, s⟩
  | f :: iofds, s, i, events => match collect s f (m f) i events with
    | none => none
    | some (s, i, events) =>
      if err ≤ i ∨ maxevents ≤ i then some ⟨i, events, s⟩ else scan err maxevents m iofds s i events

section
variable {s s' : IoSt} {f i k err maxevents piper : Nat} {iofds : List Nat} {m m' : EventMask}
  {events events' : List PollEvent} {M M' : Nat → EventMask}

/-- Only the two events the waits look for. -/
def Plain (m : EventMask) : Prop := m.pollErr = false ∧ m.pollHup = false

theorem report_eq (hb : s.backend ≠ .epoll) (f : Nat) (m : EventMask) :
    (if m.pollOut then (if m.pollIn then s.modify f fun o => { o with pollIn := false } else s).modify f
        fun o => { o with pollOut := false }
      else if m.pollIn then s.modify f fun o => { o with pollIn := false } else s) = s.report (f, m) := by
  rw [IoSt.report, if_neg hb]
  rcases m.pollIn <;> rcases m.pollOut
  · simp only [Bool.not_false, Bool.and_true]
    exact IoSt.modify_id.symm
  · simp
  · simp
  · simp [IoSt.modify_modify]

theorem report_fd (s : IoSt) (x : Nat × EventMask) (g : Nat) : ((s.report x).obj g).fd = (s.obj g).fd := by
  unfold IoSt.report
  split
  · rfl
  · unfold IoSt.modify
    dsimp only
    split
    · next h => rw [h]
    · rfl

theorem report_backend (s : IoSt) (x : Nat × EventMask) : (s.report x).backend = s.backend := by
  unfold IoSt.report
  split <;> rfl

theorem report_noEvents (hb : s.backend ≠ .epoll) (f : Nat) : s.report (f, noEvents) = s :=
  (report_eq hb f noEvents).symm

theorem collect_eq (hb : s.backend ≠ .epoll) (hm : Plain m) (pre : List PollEvent) (k : Nat) :
    collect s f m pre.length (pre ++ clearEvents (k + 1)) =
      if m ≠ noEvents then some (s.report (f, m), pre.length + 1, pre ++ ⟨(s.obj f).fd, m⟩ :: clearEvents k)
      else some (s, pre.length, pre ++ clearEvents (k + 1)) := by
  have hget : (pre ++ clearEvents (k + 1))[pre.length]? = some ⟨none, noEvents⟩ := by
    rw [List.getElem?_append_right (Nat.le_refl _), Nat.sub_self]
    rfl
  have hset : ∀ e, (pre ++ clearEvents (k + 1)).set pre.length e = pre ++ e :: clearEvents k := by
    intro e
    rw [List.set_append_right _ _ (Nat.le_refl _), Nat.sub_self]
    rfl
  have hmask : { noEvents with
      pollIn := noEvents.pollIn || m.pollIn
      pollOut := noEvents.pollOut || m.pollOut } = m := by
    cases m
    obtain ⟨rfl, rfl⟩ := hm
    rfl
  unfold collect
  rw [hget]
  dsimp only
  rw [hmask, report_eq hb, hset, report_fd]
  split_ifs with hne
  · rfl
  · obtain rfl := not_not.1 hne
    rw [report_noEvents hb]

theorem pickAll_cons (M : Nat → EventMask) (f : Nat) (iofds : List Nat) :
    pickAll M (f :: iofds) = if M f ≠ noEvents then (f, M f) :: pickAll M iofds else pickAll M iofds := by
  unfold pickAll
  rw [List.map_cons, List.filter_cons]
  simp only [decide_eq_true_eq]

/-- Where `err` is at least the number of iofds to report, the loop reports those for which there is room. -/
theorem scan_eq (hb : s.backend ≠ .epoll) (hm : ∀ f, Plain (M f)) (pre : List PollEvent) (k : Nat)
    (herr : pre.length + (pickAll M iofds).length ≤ err) :
    scan err (pre.length + (k + 1)) M iofds s pre.length (pre ++ clearEvents (k + 1)) =
      some ⟨(pre.length + ((pickAll M iofds).take (k + 1)).length : Nat),
        pre ++ ((pickAll M iofds).take (k + 1)).map (fun x => ⟨(s.obj x.1).fd, x.2⟩) ++
          clearEvents (k + 1 - ((pickAll M iofds).take (k + 1)).length),
        ((pickAll M iofds).take (k + 1)).foldl IoSt.report s⟩ := by
  induction iofds generalizing s pre k with
  | nil => simp [scan, pickAll]
  | cons f iofds ih =>
    rw [pickAll_cons] at herr ⊢
    rw [scan, collect_eq hb (hm f)]
    by_cases hne : M f ≠ noEvents
    · simp only [if_pos hne] at herr ⊢
      rw [List.length_cons] at herr
      rw [List.take_succ_cons]
      have hpre : pre ++ ⟨(s.obj f).fd, M f⟩ :: clearEvents k = (pre ++ [⟨(s.obj f).fd, M f⟩]) ++ clearEvents k :=
        List.append_cons ..
      split_ifs with hstop
      · have hnil : (pickAll M iofds).take k = [] := by
          rcases hstop with hstop | hstop
          · have hlen : (pickAll M iofds).length = 0 := by omega
            rw [List.eq_nil_of_length_eq_zero hlen, List.take_nil]
          · have hk : k = 0 := by omega
            rw [hk, List.take_zero]
        rw [hnil]
        simp
      · obtain ⟨k, rfl⟩ := Nat.exists_eq_add_one_of_ne_zero (n := k) (by omega)
        have hlen : (pre ++ [(⟨(s.obj f).fd, M f⟩ : PollEvent)]).length = pre.length + 1 := List.length_append
        have hrest := ih (s := s.report (f, M f)) (by rwa [report_backend]) (pre ++ [⟨(s.obj f).fd, M f⟩]) k
          (by rw [hlen]; omega)
        simp only [hlen, report_fd] at hrest
        rw [hpre, show pre.length + (k + 1 + 1) = pre.length + 1 + (k + 1) by omega, hrest]
        simp only [List.length_cons, List.map_cons, List.foldl_cons, List.append_assoc, List.cons_append,
          List.nil_append]
        rw [show k + 1 + 1 - (((pickAll M iofds).take (k + 1)).length + 1) =
          k + 1 - ((pickAll M iofds).take (k + 1)).length by omega]
        congr 3
        omega
    · simp only [if_neg hne] at herr ⊢
      split_ifs with hstop
      · have hlen : (pickAll M iofds).length = 0 := by omega
        rw [List.eq_nil_of_length_eq_zero hlen]
        simp
      · exact ih hb pre k herr

theorem modify_fd (g : Iofd → Iofd) (hg : ∀ o, (g o).fd = o.fd) (f n : Nat) :
    ((s.modify f g).obj n).fd = (s.obj n).fd := by
  unfold IoSt.modify
  dsimp only
  split
  · next h => rw [hg, h]
  · rfl

theorem collect_fd (hc : collect s f m i events = some (s', k, events')) (n : Nat) :
    (s'.obj n).fd = (s.obj n).fd := by
  have hin : ∀ s : IoSt, ((if m.pollIn then s.modify f fun o => { o with pollIn := false } else s).obj n).fd =
      (s.obj n).fd := by
    intro s
    split
    · exact modify_fd (fun o => { o with pollIn := false }) (fun _ => rfl) f n
    · rfl
  have hout : ∀ s : IoSt, ((if m.pollOut then s.modify f fun o => { o with pollOut := false } else s).obj n).fd =
      (s.obj n).fd := by
    intro s
    split
    · exact modify_fd (fun o => { o with pollOut := false }) (fun _ => rfl) f n
    · rfl
  unfold collect at hc
  split at hc
  · cases hc
  · dsimp only at hc
    split at hc
    all_goals
      cases hc
      exact (hout _).trans (hin s)

theorem scan_congr (h : ∀ f ∈ iofds, M f = M' f) :
    scan err maxevents M iofds s i events = scan err maxevents M' iofds s i events := by
  induction iofds generalizing s i events with
  | nil => rfl
  | cons f iofds ih =>
    rw [scan, scan, h f List.mem_cons_self]
    rcases collect s f (M' f) i events with _ | ⟨s, i, events⟩
    · rfl
    · dsimp only
      rw [ih fun g hg => h g (List.mem_cons_of_mem f hg)]

theorem pollLoop_eq {p : Nat → PollFd} (hfd : ∀ f ∈ iofds, (s.obj f).fd = some (p f).fd) :
    pollLoop err maxevents iofds (iofds.map p) s i events =
      scan err maxevents (fun f => (p f).revents) iofds s i events := by
  induction iofds generalizing s i events with
  | nil => rfl
  | cons f iofds ih =>
    rw [List.map_cons, pollLoop, scan, if_neg (not_not.2 (hfd f List.mem_cons_self))]
    rcases hc : collect s f (p f).revents i events with _ | ⟨s', i', events'⟩
    · rfl
    · dsimp only
      rw [ih fun g hg => (collect_fd hc g).trans (hfd g (List.mem_cons_of_mem f hg))]

theorem selectLoop_eq {fd : Nat → Nat} {readfds writefds : Nat → Bool}
    (hfd : ∀ f ∈ iofds, (s.obj f).fd = some (fd f)) :
    selectLoop err maxevents readfds writefds iofds s i events =
      scan err maxevents (fun f => { noEvents with pollIn := readfds (fd f), pollOut := writefds (fd f) }) iofds s i
        events := by
  induction iofds generalizing s i events with
  | nil => rfl
  | cons f iofds ih =>
    rw [selectLoop, scan, hfd f List.mem_cons_self]
    dsimp only
    rcases hc : collect s f { noEvents with pollIn := readfds (fd f), pollOut := writefds (fd f) } i events with
      _ | ⟨s', i', events'⟩
    · rfl
    · dsimp only
      rw [ih fun g hg => (collect_fd hc g).trans (hfd g (List.mem_cons_of_mem f hg))]

variable {r : Ready} {x : Nat × EventMask} {w : Waited}

theorem mem_pickAll : x ∈ pickAll M iofds ↔ x.1 ∈ iofds ∧ x.2 = M x.1 ∧ x.2 ≠ noEvents := by
  unfold pickAll
  rw [List.mem_filter, List.mem_map, decide_eq_true_eq]
  constructor
  · rintro ⟨⟨f, hf, rfl⟩, hne⟩
    exact ⟨hf, rfl, hne⟩
  · rintro ⟨hf, heq, hne⟩
    exact ⟨⟨x.1, hf, by rw [← heq]⟩, hne⟩

theorem Watches.canReport (h : Watches s piper iofds) (hx : x ∈ reports s piper iofds maxevents r) :
    s.canReport x = true := by
  obtain ⟨hf, heq, -⟩ := mem_pickAll.1 (List.mem_of_mem_take hx)
  obtain ⟨hlisted, hq, hfd⟩ := h.own x.1 hf
  have hflag : ∀ a b : Bool, (!(a && b) || a) = true := by decide
  unfold IoSt.canReport
  dsimp only
  rw [if_neg h.backend, heq, hlisted, hq, hfd]
  simp only [reportable, noEvents, hflag, decide_true, Bool.and_self, Bool.not_false]

theorem foldl_report_eq (s : IoSt) (l : List (Nat × EventMask)) :
    l.foldl IoSt.report s = { s.wait l with batch := s.batch, pc := s.pc } := by
  obtain ⟨a, b, heq, -⟩ := IoSt.foldl_report l s
  unfold IoSt.wait
  rw [heq]

theorem Watches.batch (h : Watches s piper iofds) :
    (reports s piper iofds maxevents r).map (fun x => (⟨(s.obj x.1).fd, x.2⟩ : PollEvent)) =
      (s.wait (reports s piper iofds maxevents r)).batch.map fun e => ⟨some e.fd, e.mask⟩ := by
  unfold IoSt.wait
  rw [List.map_map]
  refine List.map_congr_left fun x hx => ?_
  obtain ⟨hf, -, -⟩ := mem_pickAll.1 (List.mem_of_mem_take hx)
  obtain ⟨fd, hfd⟩ := Option.isSome_iff_exists.1 (h.own x.1 hf).2.2
  simp [hfd]

theorem Watches.shows_nil (h : Watches s piper iofds) (events : List PollEvent)
    (hnone : (r.readable piper).toNat + (pickAll (reportable s r) iofds).length = 0) :
    Shows s piper iofds maxevents r ⟨0, events, s⟩ := by
  have hsig : r.readable piper = false := by
    rcases hr : r.readable piper
    · rfl
    · rw [hr, Bool.toNat_true] at hnone
      omega
  have hnil : reports s piper iofds maxevents r = [] := by
    unfold reports
    rw [List.eq_nil_of_length_eq_zero (by omega : (pickAll (reportable s r) iofds).length = 0), List.take_nil]
  refine ⟨fun x hx => h.canReport hx, ?_, ?_, ?_⟩
  · rw [hnil, hsig]
    rfl
  · rw [hnil]
    rfl
  · rw [hnil, hsig]
    rfl

/-- The event of the pipe. -/
def sigpEvents (piper : Nat) (isset : Bool) : List PollEvent :=
  if isset then [⟨some piper, { noEvents with pollIn := true }⟩] else []

theorem sigpEvents_length (piper : Nat) (isset : Bool) : (sigpEvents piper isset).length = isset.toNat := by
  cases isset <;> rfl

theorem putSigp_eq (piper : Nat) (isset : Bool) (k : Nat) : putSigp piper isset (clearEvents (k + 1)) =
    some ((sigpEvents piper isset).length, sigpEvents piper isset ++ clearEvents (k + 1 - isset.toNat)) := by
  cases isset
  · rfl
  · have hpos : 0 < (clearEvents (k + 1)).length := by simp [clearEvents]
    rw [putSigp, if_pos rfl, if_pos hpos]
    rfl

theorem Watches.shows (h : Watches s piper iofds) (hmax : 2 ≤ maxevents) (hM : ∀ f ∈ iofds, M f = reportable s r f)
    (herr : (r.readable piper).toNat + (pickAll (reportable s r) iofds).length ≤ err) :
    ∃ w, ((putSigp piper (r.readable piper) (clearEvents maxevents)).bind fun x =>
      scan err maxevents M iofds s x.1 x.2) = some w ∧ Shows s piper iofds maxevents r w := by
  have hplain : ∀ f, Plain (reportable s r f) := fun f => ⟨rfl, rfl⟩
  have hlen := sigpEvents_length piper (r.readable piper)
  have hone := (r.readable piper).toNat_le
  obtain ⟨k, hk⟩ : ∃ k, maxevents = (sigpEvents piper (r.readable piper)).length + (k + 1) :=
    ⟨maxevents - (r.readable piper).toNat - 1, by omega⟩
  have hput : putSigp piper (r.readable piper) (clearEvents maxevents) =
      some ((sigpEvents piper (r.readable piper)).length,
        sigpEvents piper (r.readable piper) ++ clearEvents (k + 1)) := by
    obtain ⟨n, hn⟩ : ∃ n, maxevents = n + 1 := ⟨maxevents - 1, by omega⟩
    rw [hn, putSigp_eq, show n + 1 - (r.readable piper).toNat = k + 1 by omega]
  have hroom : (sigpEvents piper (r.readable piper)).length + (pickAll (reportable s r) iofds).length ≤ err := by
    rw [hlen]
    exact herr
  have hscan := scan_eq (s := s) (M := reportable s r) h.backend hplain (sigpEvents piper (r.readable piper)) k hroom
  have hreports : (pickAll (reportable s r) iofds).take (k + 1) = reports s piper iofds maxevents r := by
    rw [reports, show maxevents - (r.readable piper).toNat = k + 1 by omega]
  rw [hreports, ← hk, ← scan_congr hM] at hscan
  refine ⟨_, by rw [hput]; exact hscan, fun x hx => h.canReport hx, by rw [hlen], foldl_report_eq s _, ?_⟩
  rw [← h.batch]
  exact List.take_left' (by rw [List.length_append, List.length_map, Int.toNat_natCast])

/-! ### The two back ends -/

theorem pollLoop_plain (pfds : List PollFd) (s : IoSt) (i : Nat) (events : List PollEvent) :
    pollLoop err maxevents iofds (pfds.map PollFd.plain) s i events = pollLoop err maxevents iofds pfds s i events := by
  induction iofds generalizing pfds s i events with
  | nil => rfl
  | cons f iofds ih =>
    cases pfds with
    | nil => rfl
    | cons p pfds =>
      have hcollect : collect s f p.plain.revents i events = collect s f p.revents i events := rfl
      rw [List.map_cons, pollLoop, pollLoop, hcollect]
      simp only [ih]
      rfl

theorem answer_sigpFd (r : Ready) (piper : Nat) : (answer r (sigpFd piper)).revents.pollIn = r.readable piper := rfl

theorem answer_pollFd (r : Ready) (s : IoSt) (f : Nat) : (answer r (pollFd s f)).revents = reportable s r f := rfl

theorem plain_ne_noEvents (hm : Plain m) (hne : m ≠ noEvents) : (m.pollIn || m.pollOut) = true := by
  obtain ⟨pollIn, pollOut, pollErr, pollHup⟩ := m
  obtain ⟨rfl, rfl⟩ := hm
  rcases pollIn <;> rcases pollOut
  · exact absurd rfl hne
  all_goals rfl

theorem PollAnswers.array {call : PollCall} (hcall : PollAnswers r call) (s : IoSt) (piper : Nat) (iofds : List Nat) :
    (call (sigpFd piper :: iofds.map (pollFd s))).2.map PollFd.plain =
      answer r (sigpFd piper) :: iofds.map fun f => answer r (pollFd s f) := by
  rw [hcall.fds, List.map_cons, List.map_map]
  · rfl
  · intro p hp
    rcases List.mem_cons.1 hp with rfl | hp
    · rfl
    · obtain ⟨f, -, rfl⟩ := List.mem_map.1 hp
      rfl

theorem PollAnswers.le {call : PollCall} (hcall : PollAnswers r call) (s : IoSt) (piper : Nat) (iofds : List Nat) :
    (r.readable piper).toNat + (pickAll (reportable s r) iofds).length ≤
      (call (sigpFd piper :: iofds.map (pollFd s))).1 := by
  refine Nat.le_trans ?_ (hcall.count _)
  have hplain : ∀ fds : List PollFd, fds.countP (fun p => p.revents.pollIn || p.revents.pollOut) =
      (fds.map PollFd.plain).countP fun p => p.revents.pollIn || p.revents.pollOut := by
    intro fds
    rw [List.countP_map]
    rfl
  have hpick : (pickAll (reportable s r) iofds).length ≤ (iofds.map fun f => answer r (pollFd s f)).countP
      fun p => p.revents.pollIn || p.revents.pollOut := by
    unfold pickAll
    rw [← List.countP_eq_length_filter, List.countP_map, List.countP_map]
    refine List.countP_mono_left fun f _ hf => ?_
    exact plain_ne_noEvents (m := reportable s r f) ⟨rfl, rfl⟩ (of_decide_eq_true hf)
  rw [hplain, hcall.array, countP_cons_toNat, answer_sigpFd]
  have hsig : (r.readable piper).toNat ≤
      (r.readable piper || (answer r (sigpFd piper)).revents.pollOut).toNat := by
    rcases r.readable piper
    · exact Nat.zero_le _
    · exact Nat.le_refl _
  omega

theorem Watches.poll (h : Watches s piper iofds) (hmax : 2 ≤ maxevents) (events : List PollEvent) {call : PollCall}
    (hcall : PollAnswers r call) :
    ∃ w, pollReady s piper iofds maxevents events call = some w ∧ Shows s piper iofds maxevents r w := by
  have herr := hcall.le s piper iofds
  unfold pollReady
  dsimp only
  split_ifs with hzero
  · exact ⟨_, rfl, h.shows_nil events (by omega)⟩
  · obtain ⟨w, hw, hshows⟩ := h.shows hmax (M := fun f => (answer r (pollFd s f)).revents)
      (fun f _ => answer_pollFd r s f) herr
    refine ⟨w, ?_, hshows⟩
    obtain ⟨p, pfds, hfds, hp, hpfds⟩ := List.map_eq_cons_iff.1 (hcall.array s piper iofds)
    have hfd : p.fd = piper := congrArg PollFd.fd hp
    have hsig : p.revents.pollIn = r.readable piper := congrArg (·.revents.pollIn) hp
    rw [hfds]
    dsimp only
    rw [if_neg (not_not.2 hfd), hsig]
    refine Eq.trans ?_ hw
    congr 1
    funext x
    rw [← pollLoop_plain, hpfds]
    exact pollLoop_eq fun f hf => by
      obtain ⟨fd, hfd⟩ := Option.isSome_iff_exists.1 (h.own f hf).2.2
      show (s.obj f).fd = some ((s.obj f).fd.getD 0)
      rw [hfd]
      rfl

variable {size n : Nat} {readfds : Nat → Bool}

/-- The sets hold the fds whose flags are set, and `maxfd` is not below any fd of the queue. -/
structure Filled (s : IoSt) (iofds : List Nat) (readfds writefds : Nat → Bool) (maxfd : Nat)
    (sets : (Nat → Bool) × (Nat → Bool) × Nat) : Prop where
  read : ∀ n, sets.1 n = true ↔ readfds n = true ∨ ∃ f ∈ iofds, (s.obj f).fd = some n ∧ (s.obj f).pollIn = true
  write : ∀ n, sets.2.1 n = true ↔ writefds n = true ∨ ∃ f ∈ iofds, (s.obj f).fd = some n ∧ (s.obj f).pollOut = true
  maxfd : maxfd ≤ sets.2.2
  le : ∀ f ∈ iofds, ∀ n, (s.obj f).fd = some n → n ≤ sets.2.2

variable {call : SelectCall}

/-- What is left of the sets after `aosl_hal_select` says what there is to report. -/
theorem Watches.select_revents (h : Watches s piper iofds) (hcall : SelectAnswers r call)
    {sets : (Nat → Bool) × (Nat → Bool) × Nat}
    (hsets : Filled s iofds (fun k => decide (k = piper) || false) (fun _ => false) piper sets) (hf : f ∈ iofds) :
    { noEvents with
      pollIn := (call (sets.2.2 + 1) sets.1 sets.2.1).2.1 ((s.obj f).fd.getD 0)
      pollOut := (call (sets.2.2 + 1) sets.1 sets.2.1).2.2 ((s.obj f).fd.getD 0) } = reportable s r f := by
  obtain ⟨n, hn⟩ := Option.isSome_iff_exists.1 (h.own f hf).2.2
  have hdistinct := List.nodup_cons.1 h.distinct
  have hne : n ≠ piper := by
    rintro rfl
    exact hdistinct.1 (List.mem_map.2 ⟨f, hf, hn⟩)
  have hsame : ∀ g ∈ iofds, (s.obj g).fd = some n → g = f := fun g hg hgn =>
    List.inj_on_of_nodup_map hdistinct.2 hg hf (hgn.trans hn.symm)
  have hlt := Nat.lt_succ_of_le (hsets.le f hf n hn)
  have hread : sets.1 n = (s.obj f).pollIn := by
    rw [Bool.eq_iff_iff, hsets.read]
    constructor
    · rintro (hpiper | ⟨g, hg, hgn, hflag⟩)
      · exact absurd (by simpa using hpiper) hne
      · exact hsame g hg hgn ▸ hflag
    · exact fun hflag => .inr ⟨f, hf, hn, hflag⟩
  have hwrite : sets.2.1 n = (s.obj f).pollOut := by
    rw [Bool.eq_iff_iff, hsets.write]
    constructor
    · rintro (hpiper | ⟨g, hg, hgn, hflag⟩)
      · cases hpiper
      · exact hsame g hg hgn ▸ hflag
    · exact fun hflag => .inr ⟨f, hf, hn, hflag⟩
  unfold reportable
  dsimp only
  rw [hn, Option.getD_some, hcall.read _ _ _ _ hlt, hcall.write _ _ _ _ hlt, hread, hwrite]

theorem countP_or_le (p q : Nat → Bool) (l : List Nat) : l.countP (fun n => p n || q n) ≤ l.countP p + l.countP q := by
  induction l with
  | nil => exact Nat.zero_le _
  | cons a l ih =>
    simp only [countP_cons_toNat]
    have hor : (p a || q a).toNat ≤ (p a).toNat + (q a).toNat := by rcases p a <;> rcases q a <;> decide
    omega

theorem SelectAnswers.sigp (hcall : SelectAnswers r call) {sets : (Nat → Bool) × (Nat → Bool) × Nat}
    (hsets : Filled s iofds (fun k => decide (k = piper) || false) (fun _ => false) piper sets) :
    (call (sets.2.2 + 1) sets.1 sets.2.1).2.1 piper = r.readable piper := by
  have hpiper : sets.1 piper = true := (hsets.read piper).2 (.inl (by simp))
  rw [hcall.read _ _ _ _ (Nat.lt_succ_of_le hsets.maxfd), hpiper, Bool.true_and]

/-- The number of bits that `aosl_hal_select` returns is enough. -/
theorem Watches.select_le (h : Watches s piper iofds) (hcall : SelectAnswers r call)
    {sets : (Nat → Bool) × (Nat → Bool) × Nat}
    (hsets : Filled s iofds (fun k => decide (k = piper) || false) (fun _ => false) piper sets) :
    (r.readable piper).toNat + (pickAll (reportable s r) iofds).length ≤
      (call (sets.2.2 + 1) sets.1 sets.2.1).1 := by
  refine Nat.le_trans ?_ (hcall.count _ _ _)
  have hsig := hcall.sigp hsets
  have hrev := fun f hf => h.select_revents hcall (f := f) hsets hf
  generalize (call (sets.2.2 + 1) sets.1 sets.2.1).2.1 = rd at hsig hrev ⊢
  generalize (call (sets.2.2 + 1) sets.1 sets.2.1).2.2 = wr at hrev ⊢
  refine Nat.le_trans ?_ (countP_or_le _ _ _)
  -- The fds that are reported, and the bits of the two sets.
  let fds := (if r.readable piper then [some piper] else []) ++
    (pickAll (reportable s r) iofds).map fun x => (s.obj x.1).fd
  have hlen : fds.length = (r.readable piper).toNat + (pickAll (reportable s r) iofds).length := by
    show ((if r.readable piper then [some piper] else []) ++ _).length = _
    rw [List.length_append, List.length_map]
    rcases r.readable piper <;> rfl
  have hnodup : fds.Nodup := by
    refine List.Nodup.sublist ?_ h.distinct
    have hpick : ((pickAll (reportable s r) iofds).map fun x => (s.obj x.1).fd).Sublist
        (iofds.map fun f => (s.obj f).fd) := by
      have := (List.filter_sublist (p := fun x : Nat × EventMask => decide (x.2 ≠ noEvents))
        (l := iofds.map fun f => (f, reportable s r f))).map fun x => (s.obj x.1).fd
      rwa [List.map_map] at this
    show ((if r.readable piper then [some piper] else []) ++ _).Sublist _
    split
    · exact hpick.cons_cons _
    · exact hpick.cons _
  have hsub : fds ⊆ ((List.range (sets.2.2 + 1)).filter fun n => rd n || wr n).map some := by
    intro fd hmem
    have hbits : ∀ n ≤ sets.2.2, (rd n || wr n) = true →
        some n ∈ ((List.range (sets.2.2 + 1)).filter fun n => rd n || wr n).map some := fun n hn hbit =>
      List.mem_map_of_mem (List.mem_filter.2 ⟨List.mem_range.2 (Nat.lt_succ_of_le hn), hbit⟩)
    rcases List.mem_append.1 hmem with hmem | hmem
    · split at hmem
      · next hready =>
        obtain rfl := List.mem_singleton.1 hmem
        exact hbits piper hsets.maxfd (by rw [hsig, hready]; rfl)
      · cases hmem
    · obtain ⟨x, hx, rfl⟩ := List.mem_map.1 hmem
      obtain ⟨hf, hmask, hne⟩ := mem_pickAll.1 hx
      obtain ⟨n, hn⟩ := Option.isSome_iff_exists.1 (h.own x.1 hf).2.2
      have hbit := hrev x.1 hf
      rw [← hmask, hn, Option.getD_some] at hbit
      have hor := plain_ne_noEvents (m := x.2) (by rw [hmask]; exact ⟨rfl, rfl⟩) hne
      rw [← hbit] at hor
      rw [hn]
      exact hbits n (hsets.le x.1 hf n hn) hor
  have hle := hnodup.length_le_of_subset hsub
  rw [← hlen, List.countP_eq_length_filter]
  rwa [List.length_map] at hle

theorem Watches.select (h : Watches s piper iofds) (hmax : 2 ≤ maxevents) (events : List PollEvent)
    (hcall : SelectAnswers r call) {sets : (Nat → Bool) × (Nat → Bool) × Nat}
    (hsets : Filled s iofds (fun k => decide (k = piper) || false) (fun _ => false) piper sets) :
    ∃ w, selectReady s piper iofds maxevents events sets call = some w ∧ Shows s piper iofds maxevents r w := by
  have herr := h.select_le hcall hsets
  unfold selectReady
  dsimp only
  split_ifs with hzero
  · exact ⟨_, rfl, h.shows_nil events (by omega)⟩
  · obtain ⟨w, hw, hshows⟩ := h.shows hmax (fun f hf => h.select_revents hcall hsets hf) herr
    refine ⟨w, ?_, hshows⟩
    rw [hcall.sigp hsets]
    refine Eq.trans ?_ hw
    congr 1
    funext x
    exact selectLoop_eq fun f hf => by
      obtain ⟨fd, hfd⟩ := Option.isSome_iff_exists.1 (h.own f hf).2.2
      rw [hfd]
      rfl

/-! ### The loop around the call of the HAL -/

variable {ω : Type} {onError : Int → Waited} {onReady onReady' : ω → Option Waited} {timeo timeStamp : Int}
  {hal : List (Int × HalRet ω)} {timeos : List Int}

/-- What is left of the timeout at `now`. A timeout of 0 or less, which is none, stays as it is. -/
def remaining (timeo timeStamp now : Int) : Int := if 0 < timeo then max 0 (timeo - (now - timeStamp)) else timeo

theorem Shows.seen {w' : Waited} (h : Shows s piper iofds maxevents r w) (h' : Shows s piper iofds maxevents r w') :
    w.seen = w'.seen := by
  unfold Waited.seen
  rw [h.events, h'.events, h.st, h'.st, h.ret, h'.ret]

/-- What a wait does, whose calls have `r` as ready: it returns when the OS does, each call of the HAL gets what is left
of the timeout, and an error of the OS is passed on. Otherwise it reports the pipe and then, in the order of the list and
as far as there is room, the iofds of the queue that are ready for what their flags ask; it clears the flags of what it
reports and of nothing else, as the wait of the dispatchers' model does. -/
structure Waits (r : ω → Ready) (s : IoSt) (piper : Nat) (iofds : List Nat) (maxevents : Nat) (events : List PollEvent)
    (timeo timeStamp : Int) (hal : List (Int × HalRet ω)) (result : Option (List Int × Waited)) : Prop where
  returns : result.isSome = true ↔ ∃ x ∈ hal, x.2 ≠ .eintr
  timeouts : ∀ timeos w, result = some (timeos, w) → ∀ (k : Nat) (t : Int), timeos[k]? = some t →
    ∃ now ret, hal[k]? = some (now, ret) ∧ t = remaining timeo timeStamp now
  shows : ∀ timeos w, result = some (timeos, w) → (∃ now err, (now, .error err) ∈ hal ∧ w = ⟨err, events, s⟩) ∨
    ∃ now o, (now, .ready o) ∈ hal ∧ Shows s piper iofds maxevents (r o) w

end

end MpWait

end Aosl
