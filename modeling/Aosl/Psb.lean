import Mathlib.Data.List.Basic
import Mathlib.Tactic.Common

/-!
# Packet buffers, `kernel/psbuff.h`, and how `marshalling.c` fills and empties them

A `struct ps_buff` is its unread bytes and the room behind them; the bytes before `data` are gone for
good and left out. `psb_len` and `psb_tailroom` return an `unsigned int`, and `SAFE_STRSIZE` compares
with `(int)b->len`, so these truncate as the code does.

A marshaller is a `Writer`: the buffers it has passed, the one it fills and those behind. A reader is a
`Chain`. `Writer.Holds` says what a marshaller has written so far, `Chain.Readable` that no buffer is so
long that a cast changes its length and that no empty buffer stands among the bytes to be read: the one
place where the code looks at the first byte of a buffer before its length is `SAFE_STRSIZE`.
-/

namespace Aosl

/-- The errors of `marshalling.c`. `fault` is an access to memory that holds nothing. -/
inductive Err where
  | emsgsize
  | enospc
  | einval
  | enomem
  | fault
deriving DecidableEq

/-- `stale` is the byte at `data` while the buffer is empty, if there is one to read. -/
structure Psb where
  data : List UInt8
  tailroom : Nat
  stale : Option UInt8
deriving DecidableEq

namespace Psb

def psbTailroom (p : Psb) : Nat := p.tailroom % 0x100000000

def psbLen (p : Psb) : Nat := p.data.length % 0x100000000

/-- `(int)b->len`. -/
def intLen (p : Psb) : Int :=
  if p.psbLen < 0x80000000 then (p.psbLen : Int) else (p.psbLen : Int) - 0x100000000

/-- `psb_put` of `bs.length` bytes, and the copy to there. -/
def put (p : Psb) (bs : List UInt8) : Psb :=
  { p with data := p.data ++ bs, tailroom := p.tailroom - bs.length }

/-- `psb_get` and `psb_pull`. -/
def get (p : Psb) (n : Nat) : Psb := { p with data := p.data.drop n }

def byteAt (p : Psb) (i : Nat) : Option UInt8 :=
  if p.data = [] then p.stale else p.data[i]?

theorem psbLen_of_lt {p : Psb} (h : p.data.length < 0x100000000) : p.psbLen = p.data.length := Nat.mod_eq_of_lt h

theorem psbLen_eq {p : Psb} (h : p.data.length < 0x80000000) : p.psbLen = p.data.length := psbLen_of_lt (by omega)

theorem intLen_le (p : Psb) : p.intLen ≤ p.data.length := by
  have hle : p.psbLen ≤ p.data.length := Nat.mod_le ..
  unfold intLen
  split <;> omega

theorem intLen_eq {p : Psb} (h : p.data.length < 0x80000000) : p.intLen = p.data.length := by
  unfold intLen
  rw [psbLen_eq h, if_pos h]

end Psb

/-- `alloc_psb`, with the memory that `malloc` returns never written. -/
def allocPsb (size : Nat) : Psb := ⟨[], size, none⟩

def dfltMaxPsbPkt : Nat := 4096

structure Writer where
  done : List Psb
  psb : Psb
  rest : List Psb
deriving DecidableEq

/-- A buffer and those after it. -/
structure Chain where
  psb : Psb
  next : List Psb
deriving DecidableEq

namespace Writer

/-- On to `psb->next`, which is allocated where there is none. -/
def advance (w : Writer) : Writer :=
  match w.rest with
  | [] => ⟨w.done ++ [w.psb], allocPsb dfltMaxPsbPkt, []⟩
  | p :: ps => ⟨w.done ++ [w.psb], p, ps⟩

/-- The number of bytes of `bs` that the current buffer takes. -/
def copy (w : Writer) (bs : List UInt8) : Nat := min w.psb.psbTailroom bs.length

def fill (w : Writer) (bs : List UInt8) : Writer :=
  { w with psb := w.psb.put (bs.take (w.copy bs)) }

/-- `__CHECK_AND_ENCODE_BYTES`, and the loop of `__CHECK_AND_ENCODE_BASETYPE`. -/
def encodeBytes (w : Writer) (bs : List UInt8) : Writer :=
  if bs.drop (w.copy bs) = [] then w.fill bs
  else encodeBytes (w.fill bs).advance (bs.drop (w.copy bs))
termination_by (w.rest.length, 2 * bs.length + if w.psb.psbTailroom = 0 then 1 else 0)
decreasing_by
  cases hr : w.rest with
  | nil =>
    apply Prod.Lex.right'
    · simp [advance, fill, hr]
    · have hroom : (w.fill bs).advance.psb.psbTailroom = dfltMaxPsbPkt := by
        simp [advance, fill, hr, allocPsb, Psb.psbTailroom, dfltMaxPsbPkt]
      have hne : (w.copy bs) < bs.length := by
        rename_i h
        exact Nat.lt_of_not_le fun hle => h (List.drop_eq_nil_of_le hle)
      have hcopy : w.psb.psbTailroom = 0 ∨ 0 < w.copy bs := by
        unfold copy
        omega
      rw [hroom, if_neg (by decide), List.length_drop]
      rcases hcopy with h0 | hpos
      · rw [if_pos h0]
        omega
      · omega
  | cons p ps =>
    apply Prod.Lex.left
    simp [advance, fill, hr]

/-- `__CHECK_AND_ENCODE_BASETYPE`: at once where the buffer has the room. -/
def encodeBase (w : Writer) (bs : List UInt8) : Writer :=
  if bs.length ≤ w.psb.tailroom then { w with psb := w.psb.put bs } else w.encodeBytes bs

end Writer

namespace Chain

/-- `__CHECK_AND_DECODE_BYTES`: the bytes copied, and the chain behind them if there were enough. -/
def decodeBytes (n : Nat) (p : Psb) : List Psb → List UInt8 × Option Chain
  | [] =>
    let k := min p.psbLen n
    (p.data.take k, if n - k = 0 then some ⟨p.get k, []⟩ else none)
  | q :: qs =>
    let k := min p.psbLen n
    if n - k = 0 then (p.data.take k, some ⟨p.get k, q :: qs⟩)
    else
      let (bs, c) := decodeBytes (n - k) q qs
      (p.data.take k ++ bs, c)

/-- `__CHECK_AND_DECODE_BASETYPE`, never with `__peek`. -/
def decodeBase (n : Nat) (c : Chain) : Option (List UInt8 × Chain) :=
  if n ≤ c.psb.data.length then some (c.psb.data.take n, ⟨c.psb.get n, c.next⟩)
  else
    match decodeBytes n c.psb c.next with
    | (bs, some c') => some (bs, c')
    | (_, none) => none

/-- The loop of `SAFE_STRSIZE`, with `l` bytes behind it and `i` of them in `b`. A buffer is entered
without a look at its length. -/
def strsizeFrom (l i : Nat) (b : Psb) (next : List Psb) : Except Err Nat :=
  if b.intLen ≤ i then
    match next with
    | [] => .error .emsgsize
    | p :: ps =>
      match p.byteAt 0 with
      | none => .error .fault
      | some c => if c = 0 then .ok (l + 1) else strsizeFrom (l + 1) 1 p ps
  else
    match b.byteAt i with
    | none => .error .fault
    | some c => if c = 0 then .ok (l + 1) else strsizeFrom (l + 1) (i + 1) b next
termination_by (next.length, b.data.length - i)
decreasing_by
  · exact Prod.Lex.left _ _ (by simp)
  · apply Prod.Lex.right
    have := b.intLen_le
    omega

def safeStrsize (c : Chain) : Except Err Nat := strsizeFrom 0 0 c.psb c.next

/-! ## Reading -/

def contents (c : Chain) : List UInt8 := c.psb.data ++ c.next.flatMap Psb.data

theorem length_le_contents {c : Chain} {p : Psb} (hp : p ∈ c.psb :: c.next) :
    p.data.length ≤ c.contents.length := by
  have hin : p.data <:+: ((c.psb :: c.next).map Psb.data).flatten :=
    List.infix_of_mem_flatten (List.mem_map_of_mem hp)
  exact hin.length_le

/-- No buffer is empty among those with the next `k` bytes; `avail` of these are in the current one. -/
def Gapless (k avail : Nat) : List Psb → Prop
  | [] => True
  | q :: qs => avail < k → q.data ≠ [] ∧ Gapless (k - avail) q.data.length qs

structure Readable (k : Nat) (c : Chain) : Prop where
  short : ∀ p ∈ c.psb :: c.next, p.data.length < 0x80000000
  gapless : Gapless k c.psb.data.length c.next

theorem Gapless.mono {k m avail : Nat} {qs : List Psb} (hkm : m ≤ k) (h : Gapless k avail qs) :
    Gapless m avail qs := by
  induction qs generalizing k m avail with
  | nil => trivial
  | cons q qs ih =>
    intro hlt
    obtain ⟨hne, hq⟩ := h (by omega)
    exact ⟨hne, ih (by omega) hq⟩

theorem Gapless.get {n m avail : Nat} {qs : List Psb} (hn : n ≤ avail) (h : Gapless (n + m) avail qs) :
    Gapless m (avail - n) qs := by
  cases qs with
  | nil => trivial
  | cons q qs =>
    intro hlt
    obtain ⟨hne, hq⟩ := h (by omega)
    have hk : m - (avail - n) = n + m - avail := by omega
    exact ⟨hne, hk ▸ hq⟩

theorem Readable.get {n m : Nat} {c : Chain} {bs extra : List UInt8} (h : c.Readable (n + m))
    (hc : c.contents = bs ++ extra) (hn : bs.length = n) (hle : n ≤ c.psb.data.length) :
    c.psb.data.take n = bs ∧ Chain.contents ⟨c.psb.get n, c.next⟩ = extra ∧
      Readable m ⟨c.psb.get n, c.next⟩ := by
  have htake : c.psb.data.take n = bs := by
    have := congrArg (List.take n) hc
    rwa [contents, List.take_append_of_le_length hle, List.take_left' hn] at this
  have hdrop : Chain.contents ⟨c.psb.get n, c.next⟩ = extra := by
    have := congrArg (List.drop n) hc
    rwa [contents, List.drop_append_of_le_length hle, List.drop_left' hn] at this
  refine ⟨htake, hdrop, ?_, ?_⟩
  · intro p hp
    rcases List.mem_cons.1 hp with rfl | hp
    · have := h.short c.psb (List.mem_cons_self ..)
      simp only [Psb.get, List.length_drop]
      omega
    · exact h.short p (List.mem_cons_of_mem _ hp)
  · simpa [Psb.get] using h.gapless.get hle

theorem decodeBytes_spec {n m : Nat} {p : Psb} {qs : List Psb} {bs extra : List UInt8}
    (h : Readable (n + m) ⟨p, qs⟩) (hc : Chain.contents ⟨p, qs⟩ = bs ++ extra) (hn : bs.length = n) :
    ∃ c, decodeBytes n p qs = (bs, some c) ∧ c.contents = extra ∧ c.Readable m := by
  have hlen : p.psbLen = p.data.length := Psb.psbLen_eq (h.short p (List.mem_cons_self ..))
  induction qs generalizing p n bs with
  | nil =>
    have hle : n ≤ p.data.length := by
      have := congrArg List.length hc
      simp [contents] at this
      omega
    obtain ⟨htake, hdrop, hread⟩ := h.get hc hn hle
    refine ⟨_, ?_, hdrop, hread⟩
    simp only [decodeBytes, hlen, Nat.min_eq_right hle, Nat.sub_self, if_true]
    rw [htake]
  | cons q qs ih =>
    by_cases hle : n ≤ p.data.length
    · obtain ⟨htake, hdrop, hread⟩ := h.get hc hn hle
      refine ⟨_, ?_, hdrop, hread⟩
      simp only [decodeBytes, hlen, Nat.min_eq_right hle, Nat.sub_self, if_true]
      rw [htake]
    · have hlt : p.data.length ≤ n := by omega
      -- the current buffer is used up: `bs` is its data and what `q` and the others supply
      obtain ⟨bs', rfl⟩ : ∃ bs', bs = p.data ++ bs' := by
        have hpre : p.data <+: bs ++ extra := hc ▸ List.prefix_append ..
        obtain ⟨t, ht⟩ := (List.prefix_append_right_inj []).2
          (List.prefix_of_prefix_length_le hpre (List.prefix_append bs extra) (by omega))
        exact ⟨t, ht.symm⟩
      have hc' : Chain.contents ⟨q, qs⟩ = bs' ++ extra := by
        simpa [contents, List.append_assoc] using hc
      have hn' : bs'.length = n - p.data.length := by
        rw [List.length_append] at hn
        omega
      have hr : Readable (n - p.data.length + m) ⟨q, qs⟩ := by
        refine ⟨fun r hr => h.short r (List.mem_cons_of_mem _ hr), ?_⟩
        have hgap : Gapless (n + m) p.data.length (q :: qs) := h.gapless
        obtain ⟨-, hq⟩ := hgap (by omega)
        exact hq.mono (by omega)
      obtain ⟨c, hdec, hcont, hread⟩ := ih hr hc' hn' (Psb.psbLen_eq (hr.short q (List.mem_cons_self ..)))
      refine ⟨c, ?_, hcont, hread⟩
      have hne : n - p.data.length ≠ 0 := by omega
      simp only [decodeBytes, hlen, Nat.min_eq_left hlt, if_neg hne, hdec, List.take_length]

theorem decodeBase_spec {n m : Nat} {c : Chain} {bs extra : List UInt8} (h : c.Readable (n + m))
    (hc : c.contents = bs ++ extra) (hn : bs.length = n) :
    ∃ c', decodeBase n c = some (bs, c') ∧ c'.contents = extra ∧ c'.Readable m := by
  unfold decodeBase
  split
  · next hle =>
    obtain ⟨htake, hdrop, hread⟩ := h.get hc hn hle
    exact ⟨_, by rw [htake], hdrop, hread⟩
  · obtain ⟨c', hdec, hcont, hread⟩ := decodeBytes_spec h hc hn
    exact ⟨c', by rw [hdec], hcont, hread⟩

/-- `SAFE_STRSIZE` looks at the next byte of the chain, in this buffer or in the one after it. -/
theorem strsizeFrom_byte {a : UInt8} {t : List UInt8} {k i : Nat} {b : Psb} {next : List Psb}
    (hshort : ∀ p ∈ b :: next, p.data.length < 0x80000000) (hgap : Gapless (k + 1) (b.data.length - i) next)
    (hc : b.data.drop i ++ next.flatMap Psb.data = a :: t) :
    ∃ i' b' next', (∀ l, strsizeFrom l i b next =
        if a = 0 then .ok (l + 1) else strsizeFrom (l + 1) i' b' next') ∧
      (∀ p ∈ b' :: next', p.data.length < 0x80000000) ∧ Gapless k (b'.data.length - i') next' ∧
      b'.data.drop i' ++ next'.flatMap Psb.data = t := by
  have hlen : b.intLen = b.data.length := Psb.intLen_eq (hshort b (List.mem_cons_self ..))
  by_cases hi : i < b.data.length
  · have hdrop := List.drop_eq_getElem_cons hi
    rw [hdrop, List.cons_append, List.cons.injEq] at hc
    refine ⟨i + 1, b, next, fun l => ?_, hshort, ?_, hc.2⟩
    · have hbyte : b.byteAt i = some a := by
        have hne : b.data ≠ [] := List.ne_nil_of_length_pos (by omega)
        rw [Psb.byteAt, if_neg hne, List.getElem?_eq_getElem hi, hc.1]
      rw [strsizeFrom.eq_def, hlen, if_neg (by omega), hbyte]
    · have hk : b.data.length - i - 1 = b.data.length - (i + 1) := by omega
      exact hk ▸ Gapless.get (n := 1) (by omega) (Nat.add_comm k 1 ▸ hgap)
  · have hnil : b.data.drop i = [] := List.drop_eq_nil_of_le (by omega)
    rw [hnil, List.nil_append] at hc
    cases next with
    | nil => simp at hc
    | cons q qs =>
      obtain ⟨hne, hq⟩ := hgap (by omega)
      obtain ⟨c, cs, hqd⟩ := List.exists_cons_of_ne_nil hne
      rw [List.flatMap_cons, hqd, List.cons_append, List.cons.injEq] at hc
      refine ⟨1, q, qs, fun l => ?_, fun p hp => hshort p (List.mem_cons_of_mem _ hp), ?_, ?_⟩
      · have hbyte : q.byteAt 0 = some a := by
          rw [Psb.byteAt, if_neg hne, hqd, ← hc.1]
          rfl
        rw [strsizeFrom, hlen, if_pos (by omega)]
        simp only [hbyte]
      · have hpos : 1 ≤ q.data.length := by
          rw [hqd]
          simp
        exact Gapless.get (n := 1) hpos (hq.mono (by omega))
      · rw [hqd]
        exact hc.2

theorem strsizeFrom_spec {s extra : List UInt8} {l i : Nat} {b : Psb} {next : List Psb}
    (hs : 0 ∉ s) (hshort : ∀ p ∈ b :: next, p.data.length < 0x80000000)
    (hgap : Gapless (s.length + 1) (b.data.length - i) next)
    (hc : b.data.drop i ++ next.flatMap Psb.data = s ++ 0 :: extra) :
    strsizeFrom l i b next = .ok (l + s.length + 1) := by
  induction s generalizing l i b next with
  | nil =>
    obtain ⟨i', b', next', heq, -⟩ := strsizeFrom_byte hshort hgap hc
    rw [heq, if_pos rfl]
    rfl
  | cons a s ih =>
    obtain ⟨i', b', next', heq, hshort', hgap', hc'⟩ := strsizeFrom_byte hshort hgap hc
    rw [List.mem_cons, not_or] at hs
    rw [heq, if_neg (Ne.symm hs.1), ih hs.2 hshort' hgap' hc', List.length_cons]
    congr 1
    omega

theorem safeStrsize_spec {s extra : List UInt8} {m : Nat} {c : Chain} (hs : 0 ∉ s)
    (h : c.Readable (s.length + 1 + m)) (hc : c.contents = s ++ 0 :: extra) :
    c.safeStrsize = .ok (s.length + 1) := by
  have := strsizeFrom_spec (l := 0) (i := 0) hs h.short (h.gapless.mono (by omega)) hc
  rwa [Nat.zero_add] at this

end Chain

namespace Writer

/-! ## Writing -/

def segs (w : Writer) : List Psb := w.done ++ w.psb :: w.rest

def contents (w : Writer) : List UInt8 := w.segs.flatMap Psb.data

/-- The chain that starts after the first `old` bytes of the first buffer, once `x` has been put behind
what was written and `more` chained to it. -/
def resume (w : Writer) (old : Nat) (x : List UInt8) (more : List Psb) : Chain :=
  match w.done with
  | [] => ⟨(w.psb.put x).get old, more⟩
  | p :: ps => ⟨p.get old, ps ++ w.psb.put x :: more⟩

/-- `bs` was written behind the bytes `pre` of the first buffer. The buffers passed on the way are not
empty; the current one may be. -/
structure Filling (pre bs : List UInt8) (w : Writer) : Prop where
  room : ∀ p ∈ w.rest, p.data = [] ∧ 0 < p.tailroom
  short : ∀ p ∈ w.segs, p.data.length + p.tailroom < 0x80000000
  data : w.contents = pre ++ bs
  first : ∀ p ps, w.done = p :: ps → pre <+: p.data ∧ ∀ q ∈ ps, q.data ≠ []

structure Holds (pre bs : List UInt8) (w : Writer) : Prop extends Filling pre bs w where
  reached : w.done ≠ [] → w.psb.data ≠ []

variable {pre bs : List UInt8} {w : Writer}

theorem Filling.rest_nil (h : w.Filling pre bs) : w.rest.flatMap Psb.data = [] :=
  List.flatMap_eq_nil_iff.2 fun p hp => (h.room p hp).1

theorem Filling.data_eq (h : w.Filling pre bs) : w.done.flatMap Psb.data ++ w.psb.data = pre ++ bs := by
  have := h.data
  rwa [contents, segs, List.flatMap_append, List.flatMap_cons, h.rest_nil, List.append_nil] at this

theorem Filling.put {xs : List UInt8} (h : w.Filling pre bs) (hle : xs.length ≤ w.psb.tailroom) :
    Filling pre (bs ++ xs) { w with psb := w.psb.put xs } := by
  refine ⟨h.room, fun p hp => ?_, ?_, h.first⟩
  · rw [segs, List.mem_append, List.mem_cons] at hp
    rcases hp with hp | rfl | hp
    · exact h.short p (List.mem_append_left _ hp)
    · have := h.short w.psb (List.mem_append_right _ (List.mem_cons_self ..))
      simp only [Psb.put, List.length_append]
      omega
    · exact h.short p (List.mem_append_right _ (List.mem_cons_of_mem _ hp))
  · rw [contents, segs, List.flatMap_append, List.flatMap_cons, h.rest_nil, List.append_nil, Psb.put,
      ← List.append_assoc, h.data_eq, List.append_assoc]

theorem Filling.advance (h : w.Filling pre bs) (hcur : w.done ≠ [] → w.psb.data ≠ []) :
    w.advance.Filling pre bs ∧ 0 < w.advance.psb.tailroom := by
  have hdata := h.data_eq
  have hfirst : ∀ p ps, w.done ++ [w.psb] = p :: ps → pre <+: p.data ∧ ∀ q ∈ ps, q.data ≠ [] := by
    intro p ps heq
    cases hd : w.done with
    | nil =>
      rw [hd, List.nil_append, List.cons.injEq] at heq
      obtain ⟨rfl, rfl⟩ := heq
      rw [hd, List.flatMap_nil, List.nil_append] at hdata
      exact ⟨hdata ▸ List.prefix_append .., by simp⟩
    | cons p' ps' =>
      rw [hd, List.cons_append, List.cons.injEq] at heq
      obtain ⟨rfl, rfl⟩ := heq
      obtain ⟨hpre, hps⟩ := h.first _ _ hd
      refine ⟨hpre, fun q hq => ?_⟩
      rcases List.mem_append.1 hq with hq | hq
      · exact hps q hq
      · rw [List.mem_singleton.1 hq]
        exact hcur (by simp [hd])
  unfold Writer.advance
  cases hr : w.rest with
  | nil =>
    refine ⟨⟨by simp, fun p hp => ?_, ?_, hfirst⟩, Nat.succ_pos _⟩
    · rw [segs, List.append_assoc, List.mem_append] at hp
      simp only [List.cons_append, List.nil_append, List.mem_cons, List.not_mem_nil, or_false] at hp
      rcases hp with hp | rfl | rfl
      · exact h.short p (List.mem_append_left _ hp)
      · exact h.short w.psb (List.mem_append_right _ (List.mem_cons_self ..))
      · decide
    · simpa [contents, segs, allocPsb, List.append_assoc] using hdata
  | cons q qs =>
    have hq := h.room q (by simp [hr])
    refine ⟨⟨fun p hp => h.room p (by simp [hr, hp]), fun p hp => h.short p ?_, ?_, hfirst⟩, hq.2⟩
    · simpa [segs, hr] using hp
    · have hqs : qs.flatMap Psb.data = [] := by
        have := h.rest_nil
        rw [hr, List.flatMap_cons, List.append_eq_nil_iff] at this
        exact this.2
      simpa [contents, segs, hq.1, hqs, List.append_assoc] using hdata

/-- What `fill` leaves of the buffer is not empty, where it has room and there is something to write. -/
theorem Filling.fill {xs : List UInt8} (h : w.Filling pre bs)
    (hcur : w.done ≠ [] → w.psb.data ≠ [] ∨ xs ≠ [] ∧ 0 < w.psb.tailroom) :
    (w.fill xs).Holds pre (bs ++ xs.take (w.copy xs)) := by
  have hroom : w.psb.psbTailroom = w.psb.tailroom := by
    have := h.short w.psb (List.mem_append_right _ (List.mem_cons_self ..))
    exact Nat.mod_eq_of_lt (by omega)
  have hle : (xs.take (w.copy xs)).length ≤ w.psb.tailroom := by
    rw [List.length_take, copy, hroom]
    omega
  refine ⟨h.put hle, fun hd => ?_⟩
  simp only [Writer.fill, Psb.put, ne_eq, List.append_eq_nil_iff, not_and, List.take_eq_nil_iff]
  intro hnil
  rcases hcur hd with hne | ⟨hxs, hpos⟩
  · exact absurd hnil hne
  · have := List.length_pos_iff.2 hxs
    rw [copy, hroom]
    simp only [hxs, or_false]
    omega

theorem Filling.encodeBytes {xs : List UInt8} (h : w.Filling pre bs)
    (hcur : w.done ≠ [] → w.psb.data ≠ [] ∨ xs ≠ [] ∧ 0 < w.psb.tailroom) :
    (w.encodeBytes xs).Holds pre (bs ++ xs) := by
  induction w, xs using Writer.encodeBytes.induct generalizing bs with
  | case1 w xs hend =>
    have hall : xs.take (w.copy xs) = xs := List.take_of_length_le (List.drop_eq_nil_iff.1 hend)
    have := h.fill hcur
    rw [hall] at this
    rwa [Writer.encodeBytes, if_pos hend]
  | case2 w xs hmore ih =>
    have hf := h.fill hcur
    obtain ⟨hadv, hroom⟩ := hf.toFilling.advance hf.reached
    have := ih hadv fun _ => .inr ⟨hmore, hroom⟩
    rw [Writer.encodeBytes, if_neg hmore]
    rwa [List.append_assoc, List.take_append_drop] at this

theorem Holds.encodeBytes (h : w.Holds pre bs) (xs : List UInt8) :
    (w.encodeBytes xs).Holds pre (bs ++ xs) :=
  h.toFilling.encodeBytes fun hd => .inl (h.reached hd)

theorem Holds.encodeBase (h : w.Holds pre bs) (xs : List UInt8) :
    (w.encodeBase xs).Holds pre (bs ++ xs) := by
  unfold Writer.encodeBase
  split
  · next hle =>
    refine ⟨h.toFilling.put hle, fun hd => ?_⟩
    simp [Psb.put, h.reached hd]
  · exact h.encodeBytes xs

/-- A chain is ready for a marshaller when nothing stands in the buffers after the first. -/
theorem holds_nil {p : Psb} {ps : List Psb} (hroom : ∀ q ∈ ps, q.data = [] ∧ 0 < q.tailroom)
    (hshort : ∀ q ∈ p :: ps, q.data.length + q.tailroom < 0x80000000) : Holds p.data [] ⟨[], p, ps⟩ := by
  refine ⟨⟨hroom, hshort, ?_, nofun⟩, fun h => absurd rfl h⟩
  have hnil : ps.flatMap Psb.data = [] := List.flatMap_eq_nil_iff.2 fun q hq => (hroom q hq).1
  simp [contents, segs, hnil]

theorem gapless_append {k avail : Nat} (qs more : List Psb) (hne : ∀ q ∈ qs, q.data ≠ [])
    (hk : k ≤ avail + (qs.flatMap Psb.data).length) : Chain.Gapless k avail (qs ++ more) := by
  induction qs generalizing k avail with
  | nil =>
    cases more with
    | nil => trivial
    | cons r rs =>
      intro hlt
      simp at hk
      omega
  | cons q qs ih =>
    intro _
    refine ⟨hne q (List.mem_cons_self ..), ih (fun r hr => hne r (List.mem_cons_of_mem _ hr)) ?_⟩
    rw [List.flatMap_cons, List.length_append] at hk
    omega

theorem Holds.cases (h : w.Holds pre bs) :
    w.done = [] ∧ w.psb.data = pre ++ bs ∨
      ∃ p ps b, w.done = p :: ps ∧ p.data = pre ++ b ∧ bs = b ++ (ps.flatMap Psb.data ++ w.psb.data) ∧
        ∀ q ∈ ps ++ [w.psb], q.data ≠ [] := by
  have hdata := h.data_eq
  cases hd : w.done with
  | nil =>
    rw [hd, List.flatMap_nil, List.nil_append] at hdata
    exact .inl ⟨rfl, hdata⟩
  | cons p ps =>
    obtain ⟨⟨b, hb⟩, hps⟩ := h.first p ps hd
    refine .inr ⟨p, ps, b, rfl, hb.symm, ?_, fun q hq => ?_⟩
    · rw [hd, List.flatMap_cons, ← hb, List.append_assoc, List.append_assoc] at hdata
      exact (List.append_cancel_left hdata).symm
    · rcases List.mem_append.1 hq with hq | hq
      · exact hps q hq
      · rw [List.mem_singleton.1 hq]
        exact h.reached (by simp [hd])

theorem Holds.resume_contents {x : List UInt8} {more : List Psb} (h : w.Holds pre bs) :
    (w.resume pre.length x more).contents = bs ++ (x ++ more.flatMap Psb.data) := by
  rcases h.cases with ⟨hd, hp⟩ | ⟨p, ps, b, hd, hp, rfl, -⟩
  · simp [resume, hd, Chain.contents, Psb.put, Psb.get, hp, List.append_assoc, List.drop_left']
  · simp [resume, hd, Chain.contents, Psb.put, Psb.get, hp, List.append_assoc, List.drop_left']

theorem Holds.resume_readable {x : List UInt8} {more : List Psb} (h : w.Holds pre bs)
    (hshort : ∀ p ∈ (w.resume pre.length x more).psb :: (w.resume pre.length x more).next,
      p.data.length < 0x80000000) : (w.resume pre.length x more).Readable bs.length := by
  refine ⟨hshort, ?_⟩
  rcases h.cases with ⟨hd, hp⟩ | ⟨p, ps, b, hd, hp, rfl, hne⟩
  · simp only [resume, hd]
    refine gapless_append [] more nofun ?_
    simp [Psb.put, Psb.get, hp]
  · have hne' : ∀ q ∈ ps ++ [w.psb.put x], q.data ≠ [] := by
      intro q hq
      rcases List.mem_append.1 hq with hq | hq
      · exact hne q (List.mem_append_left _ hq)
      · rw [List.mem_singleton.1 hq]
        simp [Psb.put, hne w.psb (List.mem_append_right _ (List.mem_singleton_self _))]
    simp only [resume, hd]
    rw [List.append_cons]
    refine gapless_append _ more hne' ?_
    simp [Psb.put, Psb.get, hp]

end Writer

end Aosl
