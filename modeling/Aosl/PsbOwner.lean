import Aosl.Lib.Lists
import Aosl.Lib.Steps

/-!
# Who frees the buffer of a packet buffer, `lib/psbuff.c`

A `struct ps_buff` points to a buffer that `alloc_psb` has allocated or that the user has supplied. Which one it
is says `PSB_USER_BUFFER` of `flags`, which `alloc_user_psb` sets and nothing else changes: after
`aosl_psb_attach_buf` on a packet buffer of `alloc_psb` the flag is clear and the buffer is the user's.

The packet buffers are numbered in the order they are allocated in, and so are the buffers of `alloc_psb`. The user
links the packet buffers by writing `next`. `freed` is what has been given to `aosl_free`, in order. The code tests
whether the allocations have succeeded; they always have, as `aosl_malloc` aborts where there is no memory.
-/

namespace Aosl
open Lib

inductive PsbBuf where
  | internal (k : Nat)
  | user (u : Nat)
deriving DecidableEq

/-- `struct ps_buff`; `userBuffer` is `flags & PSB_USER_BUFFER`. -/
structure PsbSeg where
  data : Option PsbBuf
  len : Nat
  next : Option Nat
  head : Option PsbBuf
  size : Nat
  userBuffer : Bool
deriving DecidableEq

structure PsbHeap where
  /-- `none` for a packet buffer that has been freed. -/
  psbs : List (Option PsbSeg)
  /-- How many buffers `alloc_psb` has allocated. -/
  bufs : Nat
  freed : List PsbBuf
deriving DecidableEq

/-- The calls of the user; the arguments `mem…` say whether the allocations succeed. -/
inductive PsbAct where
  | allocUserPsb (buf : Option Nat) (bufsz : Nat) (mem : Bool)
  | allocPsb (size : Nat) (memPsb memBuf : Bool)
  | attachBuf (psb : Nat) (buf : Option Nat) (bufsz : Nat)
  | detachBuf (psb : Nat)
  /-- `psb->next = next`. -/
  | link (psb : Nat) (next : Option Nat)
  | freePsbList (psb : Option Nat)
deriving DecidableEq

def maxSpbSize : Nat := 8 * 1024 * 1024

namespace PsbHeap

def init : PsbHeap := ⟨[], 0, []⟩

/-- `aosl_free`; nothing happens for `NULL`. -/
def free (s : PsbHeap) (buf : Option PsbBuf) : PsbHeap := { s with freed := s.freed ++ buf.toList }

def allocUserPsb (s : PsbHeap) (buf : Option Nat) (bufsz : Nat) (mem : Bool) : PsbHeap :=
  if mem then
    let head := if bufsz > 0 then buf.map .user else none
    { s with psbs := s.psbs ++ [some ⟨head, 0, none, head, bufsz, true⟩] }
  else s

def allocPsb (s : PsbHeap) (size : Nat) (memPsb memBuf : Bool) : PsbHeap :=
  if size > maxSpbSize then s
  else if memPsb then
    if size > 0 then
      if memBuf then
        let head := some (.internal s.bufs)
        { s with psbs := s.psbs ++ [some ⟨head, 0, none, head, size, false⟩], bufs := s.bufs + 1 }
      else s
    else { s with psbs := s.psbs ++ [some ⟨none, 0, none, none, size, false⟩] }
  else s

def freePsb (s : PsbHeap) (p : Nat) (psb : PsbSeg) : PsbHeap :=
  let s := if !psb.userBuffer && psb.head.isSome then s.free psb.head else s
  { s with psbs := s.psbs.set p none }

def attachBuf (s : PsbHeap) (p : Nat) (psb : PsbSeg) (buf : Option Nat) (bufsz : Nat) : PsbHeap :=
  let s := if psb.size > 0 && !psb.userBuffer then s.free psb.head else s
  let head := if bufsz > 0 then buf.map .user else none
  { s with psbs := s.psbs.set p (some { psb with head := head, data := head, size := bufsz, len := 0 }) }

def detachBuf (s : PsbHeap) (p : Nat) (psb : PsbSeg) : PsbHeap :=
  if psb.size > 0 then
    let s := if !psb.userBuffer then s.free psb.head else s
    { s with psbs := s.psbs.set p (some { psb with head := none, size := 0, data := none, len := 0 }) }
  else s

/-- The live packet buffer a pointer points to. -/
def live (s : PsbHeap) (p : Nat) : Option PsbSeg := s.psbs[p]?.join

/-- The loop of `aosl_free_psb_list`. It cannot run on after a packet buffer that is gone; a turn frees one, so that
there are at most `s.psbs.length` turns. -/
def freePsbList : (turns : Nat) → (s : PsbHeap) → Option Nat → Option PsbHeap
  | _, s, none => some s
  | 0, _, some _ => none
  | turns + 1, s, some p => match s.live p with
    | none => none
    | some psb => freePsbList turns (s.freePsb p psb) psb.next

/-- A call on a packet buffer that is gone is not a call the user can make. -/
def step (s : PsbHeap) : PsbAct → Option PsbHeap
  | .allocUserPsb buf bufsz mem => some (s.allocUserPsb buf bufsz mem)
  | .allocPsb size memPsb memBuf => some (s.allocPsb size memPsb memBuf)
  | .attachBuf p buf bufsz => (s.live p).map fun psb => s.attachBuf p psb buf bufsz
  | .detachBuf p => (s.live p).map fun psb => s.detachBuf p psb
  | .link p next => (s.live p).map fun psb => { s with psbs := s.psbs.set p (some { psb with next := next }) }
  | .freePsbList p => freePsbList s.psbs.length s p

/-! ### Owners -/

def holds (b : PsbBuf) (o : Option PsbSeg) : Bool := o.any fun psb => psb.head = some b

/-- Every buffer of `alloc_psb` is freed once, when no packet buffer has it any more, and never before; a buffer of
the user is not freed. -/
structure Owned (s : PsbHeap) : Prop where
  kept : ∀ k < s.bufs, (∃ o ∈ s.psbs, holds (.internal k) o) → .internal k ∉ s.freed
  once : ∀ k < s.bufs, (∀ o ∈ s.psbs, holds (.internal k) o = false) → s.freed.count (.internal k) = 1
  user : ∀ u, .user u ∉ s.freed

/-- The buffer is the user's and the flag is clear. -/
def Borrowed (psb : PsbSeg) : Prop := psb.userBuffer = false ∧ ∃ u, psb.head = some (.user u)

/-- The packet buffers on a chain. -/
def chain (s : PsbHeap) : (turns : Nat) → Option Nat → List PsbSeg
  | _, none => []
  | 0, some _ => []
  | turns + 1, some p => match s.live p with
    | none => []
    | some psb => psb :: s.chain turns psb.next

/-- The packet buffers whose buffer a call takes away. -/
def releases (s : PsbHeap) : PsbAct → List PsbSeg
  | .attachBuf p _ _ | .detachBuf p => (s.live p).toList
  | .freePsbList p => s.chain s.psbs.length p
  | .allocUserPsb .. | .allocPsb .. | .link .. => []

/-- The call, if it can be made, takes no buffer of the user away from a packet buffer with a clear flag. -/
def SparesUser (s : PsbHeap) (a : PsbAct) : Prop := (s.step a).isSome → ∀ psb ∈ s.releases a, ¬Borrowed psb

/-! ### One call -/

variable {s s' : PsbHeap} {p : Nat} {psb : PsbSeg} {a : PsbAct}

/-- What is freed with a packet buffer. -/
def released (psb : PsbSeg) : List PsbBuf := if psb.userBuffer then [] else psb.head.toList

theorem user_mem_released {u : Nat} :
    .user u ∈ released psb ↔ psb.userBuffer = false ∧ psb.head = some (.user u) := by
  rw [released]
  cases psb.userBuffer <;> simp

theorem mem_psbs (h : s.live p = some psb) : s.psbs[p]? = some (some psb) := Option.join_eq_some_iff.1 h

/-- A packet buffer of no size has no buffer, and one with the flag has none of `alloc_psb`. -/
structure Tidy (psb : PsbSeg) : Prop where
  empty : psb.size = 0 → psb.head = none
  flagged : psb.userBuffer = true → ∀ k, psb.head ≠ some (.internal k)

/-- The packet buffer `psb` of number `p` gives up its buffer, and gets none of `alloc_psb` for it. -/
structure Replaces (s : PsbHeap) (p : Nat) (psb : PsbSeg) (s' : PsbHeap) (o : Option PsbSeg) : Prop where
  eq : s' = ⟨s.psbs.set p o, s.bufs, s.freed ++ released psb⟩
  tidy : ∀ psb', o = some psb' → Tidy psb'
  foreign : ∀ k, holds (.internal k) o = false

theorem freePsb_replaces : Replaces s p psb (s.freePsb p psb) none := by
  refine ⟨?_, nofun, fun _ => rfl⟩
  simp only [freePsb, free, released]
  cases psb.userBuffer
  · cases psb.head <;> simp
  · simp

theorem released_of_empty (ht : Tidy psb) (h : psb.size = 0) : released psb = [] := by
  rw [released, ht.empty h]
  exact ite_self _

theorem free_head (ht : Tidy psb) :
    (if psb.size > 0 && !psb.userBuffer then s.free psb.head else s) = { s with freed := s.freed ++ released psb } := by
  rcases Nat.eq_zero_or_pos psb.size with h | h
  · simp [h, released_of_empty ht h]
  · rw [released]
    cases psb.userBuffer <;> simp [h, free]

theorem attachBuf_replaces (ht : Tidy psb) (buf : Option Nat) (bufsz : Nat) :
    ∃ o, Replaces s p psb (s.attachBuf p psb buf bufsz) (some o) := by
  refine ⟨_, by rw [attachBuf, free_head ht], fun psb' h => ?_, fun k => ?_⟩
  · obtain rfl := Option.some.inj h
    constructor
    · intro h
      simp only at h
      simp [h]
    · intro _ k
      split <;> simp
  · rw [holds, Option.any_some, decide_eq_false_iff_not]
    split <;> simp

theorem detachBuf_replaces (ht : Tidy psb) (hp : s.live p = some psb) :
    ∃ o, Replaces s p psb (s.detachBuf p psb) (some o) := by
  rcases Nat.eq_zero_or_pos psb.size with h | h
  · -- there is nothing to detach
    refine ⟨psb, ?_, fun psb' h => Option.some.inj h ▸ ht, fun k => by simp [holds, ht.empty h]⟩
    obtain ⟨hlt, hget⟩ := List.getElem?_eq_some_iff.1 (mem_psbs hp)
    rw [detachBuf, if_neg (by omega), released_of_empty ht h, List.append_nil, ← hget, List.set_getElem_self]
  · have hfree := free_head (s := s) ht
    simp only [h, decide_true, Bool.true_and] at hfree
    refine ⟨_, by rw [detachBuf, if_pos h, hfree], fun psb' h => ?_, fun k => by simp [holds]⟩
    obtain rfl := Option.some.inj h
    exact ⟨fun _ => rfl, by simp⟩

/-! ### The invariant -/

structure Inv (s : PsbHeap) : Prop where
  balanced : ∀ k, s.freed.count (.internal k) + s.psbs.countP (holds (.internal k)) = if k < s.bufs then 1 else 0
  tidy : ∀ psb, some psb ∈ s.psbs → Tidy psb

theorem Inv.tidy_live (h : s.Inv) (hp : s.live p = some psb) : Tidy psb :=
  h.tidy psb (List.mem_of_getElem? (mem_psbs hp))

theorem count_released (ht : Tidy psb) (k : Nat) :
    (released psb).count (.internal k) = if holds (.internal k) (some psb) then 1 else 0 := by
  simp only [released, holds, Option.any_some, decide_eq_true_eq]
  cases hf : psb.userBuffer with
  | false => cases psb.head <;> simp [List.count_singleton]
  | true => simp [ht.flagged hf k]

theorem Inv.replaces {o : Option PsbSeg} (h : s.Inv) (hp : s.live p = some psb) (hr : Replaces s p psb s' o) :
    s'.Inv := by
  obtain ⟨rfl, htidy, hforeign⟩ := hr
  constructor
  · intro k
    have hset := countP_set_add (mem_psbs hp) (holds (.internal k)) o
    have hbal := h.balanced k
    rw [hforeign k] at hset
    rw [List.count_append, count_released (h.tidy_live hp)]
    simp only [Bool.false_eq_true, if_false] at hset ⊢
    omega
  · intro psb' hmem
    rcases List.mem_or_eq_of_mem_set hmem with hmem | heq
    · exact h.tidy psb' hmem
    · exact htidy psb' heq.symm

theorem Inv.link (h : s.Inv) (hp : s.live p = some psb) (next : Option Nat) :
    Inv { s with psbs := s.psbs.set p (some { psb with next := next }) } := by
  constructor
  · intro k
    have hset := countP_set_add (mem_psbs hp) (holds (.internal k)) (some { psb with next := next })
    rw [← h.balanced k]
    exact congrArg _ (Nat.add_right_cancel hset)
  · intro psb' hmem
    rcases List.mem_or_eq_of_mem_set hmem with hmem | heq
    · exact h.tidy psb' hmem
    · obtain rfl := Option.some.inj heq
      exact ⟨(h.tidy_live hp).empty, (h.tidy_live hp).flagged⟩

theorem Inv.append (h : s.Inv) (ht : Tidy psb) (hforeign : ∀ k, holds (.internal k) (some psb) = false) :
    Inv { s with psbs := s.psbs ++ [some psb] } := by
  constructor
  · intro k
    simp only [List.countP_append, List.countP_singleton, hforeign k]
    exact h.balanced k
  · intro psb' hmem
    rcases List.mem_append.1 hmem with hmem | hmem
    · exact h.tidy psb' hmem
    · obtain rfl := Option.some.inj (List.mem_singleton.1 hmem)
      exact ht

theorem Inv.allocUserPsb (h : s.Inv) (buf : Option Nat) (bufsz : Nat) (mem : Bool) :
    (s.allocUserPsb buf bufsz mem).Inv := by
  cases mem with
  | false => exact h
  | true =>
    refine h.append ⟨fun hz => ?_, fun _ k => ?_⟩ fun k => ?_
    · simp only at hz
      simp [hz]
    · simp only
      split <;> simp
    · rw [holds, Option.any_some, decide_eq_false_iff_not]
      split <;> simp

theorem Inv.internal (h : s.Inv) (size : Nat) (hsize : size > 0) : Inv { s with
    psbs := s.psbs ++ [some ⟨some (.internal s.bufs), 0, none, some (.internal s.bufs), size, false⟩]
    bufs := s.bufs + 1 } := by
  constructor
  · intro k
    have hbal := h.balanced k
    simp only [List.countP_append, List.countP_singleton, holds, Option.any_some, decide_eq_true_eq,
      Option.some.injEq, PsbBuf.internal.injEq]
    by_cases hk : s.bufs = k
    · rw [if_neg (by omega)] at hbal
      rw [if_pos hk, if_pos (by omega)]
      exact congrArg (· + 1) hbal
    · rw [if_neg hk, Nat.add_zero]
      rw [hbal]
      split <;> split <;> omega
  · intro psb hmem
    rcases List.mem_append.1 hmem with hmem | hmem
    · exact h.tidy psb hmem
    · obtain rfl := Option.some.inj (List.mem_singleton.1 hmem)
      exact ⟨fun hz => by simp only at hz; omega, fun hf => by cases hf⟩

theorem Inv.allocPsb (h : s.Inv) (size : Nat) (memPsb memBuf : Bool) : (s.allocPsb size memPsb memBuf).Inv := by
  rw [PsbHeap.allocPsb]
  by_cases hbig : size > maxSpbSize
  · rwa [if_pos hbig]
  · rw [if_neg hbig]
    cases memPsb with
    | false => exact h
    | true =>
      by_cases hsize : size > 0
      · rw [if_pos rfl, if_pos hsize]
        cases memBuf with
        | false => exact h
        | true => exact h.internal size hsize
      · rw [if_pos rfl, if_neg hsize]
        exact h.append ⟨fun _ => rfl, by simp⟩ fun k => rfl

/-! ### The loop of `aosl_free_psb_list` -/

theorem live_freePsb {q : Nat} {psb' : PsbSeg} (h : (s.freePsb p psb).live q = some psb') : s.live q = some psb' := by
  rw [freePsb_replaces.eq] at h
  rcases getElem?_set_cases (mem_psbs h) with ⟨-, hnone⟩ | ⟨-, hq⟩
  · cases hnone
  · exact Option.join_eq_some_iff.2 hq

theorem chain_eq {t : PsbHeap} {turns : Nat} {p : Option Nat}
    (hsub : ∀ q psb, t.live q = some psb → s.live q = some psb) (h : freePsbList turns t p = some s') :
    t.chain turns p = s.chain turns p := by
  induction turns generalizing s t p with
  | zero => cases p <;> rfl
  | succ turns ih =>
    cases p with
    | none => rfl
    | some p =>
      cases hp : t.live p with
      | none => simp [freePsbList, hp] at h
      | some psb =>
        simp only [freePsbList, hp] at h
        simp only [chain, hp, hsub p psb hp]
        have hown := ih (s := t) (fun q psb' => live_freePsb) h
        rw [← hown, ih (fun q psb' hq => hsub q psb' (live_freePsb hq)) h]

theorem Inv.freePsbList {turns : Nat} {p : Option Nat} (h : s.Inv) (hrun : freePsbList turns s p = some s') :
    s'.Inv ∧ s'.freed = s.freed ++ (s.chain turns p).flatMap released := by
  induction turns generalizing s p with
  | zero =>
    cases p with
    | none =>
      obtain rfl := Option.some.inj hrun
      exact ⟨h, (List.append_nil _).symm⟩
    | some p => cases hrun
  | succ turns ih =>
    cases p with
    | none =>
      obtain rfl := Option.some.inj hrun
      exact ⟨h, (List.append_nil _).symm⟩
    | some p =>
      cases hp : s.live p with
      | none => simp [PsbHeap.freePsbList, hp] at hrun
      | some psb =>
        simp only [PsbHeap.freePsbList, hp] at hrun
        obtain ⟨hinv, hfreed⟩ := ih (h.replaces hp freePsb_replaces) hrun
        refine ⟨hinv, ?_⟩
        rw [hfreed, chain_eq (s := s) (fun q psb' => live_freePsb) hrun, freePsb_replaces.eq]
        simp [chain, hp]

/-- A list that can be freed at all needs no more turns than there are packet buffers. -/
theorem freePsbList_turns {turns : Nat} {p : Option Nat} (h : s.psbs.countP Option.isSome ≤ turns) :
    freePsbList (turns + 1) s p = freePsbList turns s p := by
  induction turns generalizing s p with
  | zero =>
    cases p with
    | none => rfl
    | some p =>
      cases hp : s.live p with
      | none => simp [freePsbList, hp]
      | some psb =>
        have hone := List.countP_pos_iff.2 ⟨_, List.mem_of_getElem? (mem_psbs hp), Option.isSome_some (a := psb)⟩
        omega
  | succ turns ih =>
    cases p with
    | none => rfl
    | some p =>
      cases hp : s.live p with
      | none => simp [freePsbList, hp]
      | some psb =>
        have hset := countP_set_add (mem_psbs hp) Option.isSome none
        have hless : (s.freePsb p psb).psbs.countP Option.isSome ≤ turns := by
          rw [freePsb_replaces.eq]
          simp only [Option.isSome_some, Option.isSome_none, Bool.false_eq_true, if_true, if_false] at hset ⊢
          omega
        have hnext := ih (p := psb.next) hless
        rw [freePsbList, freePsbList, hp]
        exact hnext

/-! ### All calls -/

theorem Inv.step (h : s.Inv) (hs : s.step a = some s') :
    s'.Inv ∧ s'.freed = s.freed ++ (s.releases a).flatMap released := by
  cases a with
  | allocUserPsb buf bufsz mem =>
    obtain rfl := Option.some.inj hs
    refine ⟨h.allocUserPsb buf bufsz mem, ?_⟩
    cases mem <;> simp [PsbHeap.allocUserPsb, releases]
  | allocPsb size memPsb memBuf =>
    obtain rfl := Option.some.inj hs
    refine ⟨h.allocPsb size memPsb memBuf, ?_⟩
    simp only [PsbHeap.allocPsb, releases]
    repeat' split
    all_goals simp
  | attachBuf p buf bufsz =>
    obtain ⟨psb, hp, rfl⟩ := Option.map_eq_some_iff.1 hs
    obtain ⟨o, hr⟩ := attachBuf_replaces (s := s) (p := p) (h.tidy_live hp) buf bufsz
    exact ⟨h.replaces hp hr, by simp [hr.eq, releases, hp]⟩
  | detachBuf p =>
    obtain ⟨psb, hp, rfl⟩ := Option.map_eq_some_iff.1 hs
    obtain ⟨o, hr⟩ := detachBuf_replaces (h.tidy_live hp) hp
    exact ⟨h.replaces hp hr, by simp [hr.eq, releases, hp]⟩
  | link p next =>
    obtain ⟨psb, hp, rfl⟩ := Option.map_eq_some_iff.1 hs
    exact ⟨h.link hp next, (List.append_nil _).symm⟩
  | freePsbList p => exact h.freePsbList hs

theorem Inv.owned_iff (h : s.Inv) : s.Owned ↔ ∀ u, .user u ∉ s.freed := by
  refine ⟨fun ho => ho.user, fun hu => ⟨fun k hk ⟨o, ho, hb⟩ => ?_, fun k hk hb => ?_, hu⟩⟩
  · have hbal := h.balanced k
    have hpos := List.countP_pos_iff.2 ⟨o, ho, hb⟩
    rw [if_pos hk] at hbal
    exact List.count_eq_zero.1 (by omega)
  · have hbal := h.balanced k
    have hzero : s.psbs.countP (holds (.internal k)) = 0 := List.countP_eq_zero.2 fun o ho => by simp [hb o ho]
    rw [if_pos hk] at hbal
    omega

theorem Inv.owned_step_iff (h : s.Inv) (ho : s.Owned) (hs : s.step a = some s') : s'.Owned ↔ s.SparesUser a := by
  obtain ⟨hinv, hfreed⟩ := h.step hs
  rw [hinv.owned_iff, hfreed]
  constructor
  · rintro hu - psb hmem ⟨hflag, u, hhead⟩
    exact hu u (List.mem_append_right _ (List.mem_flatMap.2 ⟨psb, hmem, user_mem_released.2 ⟨hflag, hhead⟩⟩))
  · intro hspare u hmem
    rcases List.mem_append.1 hmem with hmem | hmem
    · exact ho.user u hmem
    · obtain ⟨psb, hpsb, hu⟩ := List.mem_flatMap.1 hmem
      obtain ⟨hflag, hhead⟩ := user_mem_released.1 hu
      exact hspare (by rw [hs]; rfl) psb hpsb ⟨hflag, u, hhead⟩

theorem init_inv : init.Inv := ⟨fun _ => rfl, nofun⟩

/-- Every buffer is freed by its owner in every state of a run, if and only if no call takes a buffer of the user away
from a packet buffer with a clear flag. -/
theorem owned_run_iff (acts : List PsbAct) :
    (∀ bs s, bs <+: acts → exec step init bs = some s → s.Owned) ↔ Along step SparesUser init acts := by
  refine along_iff_forall_reached (I := Inv) (fun s a s' h hs => (h.step hs).1) (fun s a s' h ho => h.owned_step_iff ho)
    (fun s a h hnone => ?_) init_inv ⟨nofun, nofun, nofun⟩
  rw [SparesUser, hnone]
  exact nofun

/-- The user attaches a buffer to a packet buffer of `alloc_psb` and frees the packet buffer. -/
def attachRun : List PsbAct := [.allocPsb 64 true true, .attachBuf 0 (some 0) 16, .freePsbList (some 0)]

theorem user_buffer_freed :
    ¬∀ (acts : List PsbAct) bs s, bs <+: acts → exec step init bs = some s → s.Owned := by
  intro hall
  have howned := hall attachRun attachRun ⟨[none], 1, [.internal 0, .user 0]⟩ List.prefix_rfl (by decide)
  exact howned.user 0 (by decide)

end PsbHeap
end Aosl
