import Aosl.Psb

/-!
# `SAFE_STRSIZE`, empty buffers and very long ones

`SAFE_STRSIZE` moves on to the next buffer and looks at its first byte whatever its length is. As long as no buffer
that it comes to is empty, it returns what a scan of the bytes that it sees returns; otherwise its result depends on
memory that is not part of the chain. It sees all bytes but those of buffers of 2^31 bytes and more: it compares with
`(int)len`, which is negative there, and goes on at once, in the buffer that it starts in before the first byte and in
the others after it.

`len` is an `unsigned int`, so the buffers of a chain have fewer than 2^32 bytes.
-/

namespace Aosl
namespace Chain

/-- The number of bytes up to the first `'\\0'`, which is one of them. -/
def strsize : List UInt8 → Except Err Nat
  | [] => .error .emsgsize
  | a :: s => if a = 0 then .ok 1 else (strsize s).map (· + 1)

/-- The number of bytes that a scan of these bytes asks for. -/
def scanned : List UInt8 → Nat
  | [] => 1
  | a :: s => if a = 0 then 1 else scanned s + 1

variable {s t extra : List UInt8} {k m n l i avail : Nat} {b : Psb} {next qs : List Psb}

theorem scanned_cons (a : UInt8) (t : List UInt8) : scanned (a :: t) = (if a = 0 then 0 else scanned t) + 1 := by
  rw [scanned]
  split <;> rfl

theorem gapless_of_le (h : k ≤ avail) : Gapless k avail qs := by
  cases qs with
  | nil => trivial
  | cons q qs =>
    intro hlt
    omega

theorem gapless_get (hn : n ≤ avail) : Gapless (n + m) avail qs ↔ Gapless m (avail - n) qs := by
  constructor
  · exact Gapless.get hn
  · intro h
    cases qs with
    | nil => trivial
    | cons q qs =>
      intro hlt
      obtain ⟨hne, hq⟩ := h (by omega)
      have hk : n + m - avail = m - (avail - n) := by omega
      exact ⟨hne, hk ▸ hq⟩

theorem drop_append_eq_nil (h : b.data.drop i ++ next.flatMap Psb.data = []) :
    b.data.length ≤ i ∧ ∀ p ∈ next, p.data = [] := by
  obtain ⟨hb, hn⟩ := List.append_eq_nil_iff.1 h
  exact ⟨List.drop_eq_nil_iff.1 hb, List.flatMap_eq_nil_iff.1 hn⟩

/-- The result of `SAFE_STRSIZE` where no empty buffer is in its way. -/
theorem strsizeFrom_clear (hshort : ∀ p ∈ b :: next, p.data.length < 0x80000000)
    (hc : b.data.drop i ++ next.flatMap Psb.data = t) (hgap : Gapless (scanned t) (b.data.length - i) next) :
    strsizeFrom l i b next = (strsize t).map (l + ·) := by
  induction t generalizing l i b next with
  | nil =>
    obtain ⟨hi, hall⟩ := drop_append_eq_nil hc
    cases next with
    | nil =>
      rw [strsizeFrom, Psb.intLen_eq (hshort b (List.mem_cons_self ..)), if_pos (by omega)]
      rfl
    | cons q qs =>
      have hgap : b.data.length - i < 1 → q.data ≠ [] ∧ _ := hgap
      exact absurd (hall q (List.mem_cons_self ..)) (hgap (by omega)).1
  | cons a t ih =>
    rw [scanned_cons] at hgap
    obtain ⟨i', b', next', heq, hshort', hgap', hc'⟩ := strsizeFrom_byte hshort hgap hc
    rw [heq, strsize]
    split
    · rfl
    · next h0 =>
      rw [if_neg h0] at hgap'
      rw [ih hshort' hc' hgap']
      cases strsize t with
      | error x => rfl
      | ok n =>
        show Except.ok (l + 1 + n) = Except.ok (l + (n + 1))
        rw [Nat.add_assoc, Nat.add_comm 1 n]

/-- With nothing to be read behind an empty buffer, `SAFE_STRSIZE` fails at the first one in its way. -/
theorem strsizeFrom_stuck (hshort : ∀ p ∈ b :: next, p.data.length < 0x80000000) (hstale : ∀ p ∈ next, p.stale = none)
    (hc : b.data.drop i ++ next.flatMap Psb.data = t) (hgap : ¬ Gapless (scanned t) (b.data.length - i) next) :
    strsizeFrom l i b next = .error .fault := by
  induction t generalizing l i b next with
  | nil =>
    obtain ⟨hi, hall⟩ := drop_append_eq_nil hc
    cases next with
    | nil => exact absurd trivial hgap
    | cons q qs =>
      have hbyte : q.byteAt 0 = none := by
        rw [Psb.byteAt, if_pos (hall q (List.mem_cons_self ..)), hstale q (List.mem_cons_self ..)]
      rw [strsizeFrom, Psb.intLen_eq (hshort b (List.mem_cons_self ..)), if_pos (by omega)]
      simp only [hbyte]
  | cons a t ih =>
    have hlen : b.intLen = b.data.length := Psb.intLen_eq (hshort b (List.mem_cons_self ..))
    by_cases hi : i < b.data.length
    · have hdrop := List.drop_eq_getElem_cons hi
      rw [hdrop, List.cons_append, List.cons.injEq] at hc
      have hbyte : b.byteAt i = some a := by
        have hne : b.data ≠ [] := List.ne_nil_of_length_pos (by omega)
        rw [Psb.byteAt, if_neg hne, List.getElem?_eq_getElem hi, hc.1]
      have h0 : a ≠ 0 := fun h0 => hgap (gapless_of_le (by rw [scanned, if_pos h0]; omega))
      rw [scanned, if_neg h0, Nat.add_comm, gapless_get (by omega)] at hgap
      rw [strsizeFrom.eq_def, hlen, if_neg (by omega), hbyte]
      dsimp only
      rw [if_neg h0]
      exact ih hshort hstale hc.2 (by rwa [Nat.sub_sub] at hgap)
    · have hnil : b.data.drop i = [] := List.drop_eq_nil_of_le (by omega)
      rw [hnil, List.nil_append] at hc
      cases next with
      | nil => exact absurd hc.symm (List.cons_ne_nil _ _)
      | cons q qs =>
        rw [strsizeFrom, hlen, if_pos (by omega)]
        by_cases hq : q.data = []
        · have hbyte : q.byteAt 0 = none := by rw [Psb.byteAt, if_pos hq, hstale q (List.mem_cons_self ..)]
          simp only [hbyte]
        · obtain ⟨c, cs, hqd⟩ := List.exists_cons_of_ne_nil hq
          rw [List.flatMap_cons, hqd, List.cons_append, List.cons.injEq] at hc
          obtain ⟨rfl, hc⟩ := hc
          have hbyte : q.byteAt 0 = some c := by
            rw [Psb.byteAt, if_neg hq, hqd]
            rfl
          have hpos : 1 ≤ q.data.length := by
            rw [hqd]
            exact Nat.succ_le_succ (Nat.zero_le _)
          have hzero : b.data.length - i = 0 := by omega
          have h0 : c ≠ 0 := by
            intro h0
            rw [scanned, if_pos h0, hzero] at hgap
            exact hgap fun _ => ⟨hq, gapless_of_le (by omega)⟩
          simp only [hbyte]
          rw [if_neg h0]
          refine ih (fun p hp => hshort p (List.mem_cons_of_mem _ hp))
            (fun p hp => hstale p (List.mem_cons_of_mem _ hp))
            (by rw [hqd]; exact hc) fun hclear => hgap ?_
          rw [scanned, if_neg h0, hzero]
          intro hlt
          refine ⟨hq, ?_⟩
          rw [Nat.sub_zero, Nat.add_comm]
          exact (gapless_get hpos).2 hclear

end Chain

namespace Psb

/-- What `SAFE_STRSIZE` sees of the buffer that it starts in. -/
def started (p : Psb) : Psb := if p.intLen < 0 then { p with data := [] } else p

/-- What it sees of a buffer that it enters. -/
def entered (p : Psb) : Psb := if p.intLen < 0 then { p with data := p.data.take 1 } else p

variable {p : Psb}

theorem length_of_intLen (hlen : p.data.length < 0x100000000) (h : ¬ p.intLen < 0) : p.data.length < 0x80000000 := by
  unfold intLen at h
  rw [psbLen_of_lt hlen] at h
  split at h <;> omega

theorem ne_nil_of_intLen (h : p.intLen < 0) : p.data ≠ [] := by
  intro hnil
  rw [intLen_eq (by rw [hnil]; decide), hnil] at h
  exact absurd h (by decide)

theorem started_cases (p : Psb) : p.started = p ∧ 0 ≤ p.intLen ∨ p.intLen < 0 ∧ p.started.intLen ≤ (0 : Nat) := by
  unfold started
  split
  · next h => exact .inr ⟨h, intLen_le _⟩
  · next h => exact .inl ⟨rfl, Int.not_lt.1 h⟩

theorem entered_cases (p : Psb) : p.entered = p ∧ 0 ≤ p.intLen ∨ p.intLen < 0 ∧ p.entered.intLen ≤ (1 : Nat) := by
  unfold entered
  split
  · next h => exact .inr ⟨h, Int.le_trans (intLen_le _) (Int.ofNat_le.2 (List.length_take_le 1 p.data))⟩
  · next h => exact .inl ⟨rfl, Int.not_lt.1 h⟩

theorem byteAt_entered (p : Psb) : p.entered.byteAt 0 = p.byteAt 0 := by
  unfold entered
  split
  · next h =>
    obtain ⟨a, as, hp⟩ := List.exists_cons_of_ne_nil (ne_nil_of_intLen h)
    simp [byteAt, hp]
  · rfl

theorem entered_stale (p : Psb) : p.entered.stale = p.stale := by
  unfold entered
  split <;> rfl

theorem psbLen_congr {p' : Psb} (h : p.data = p'.data) : p.psbLen = p'.psbLen := by
  rw [psbLen, psbLen, h]

theorem intLen_congr {p' : Psb} (h : p.data = p'.data) : p.intLen = p'.intLen := by
  rw [intLen, intLen, psbLen_congr h]

theorem started_data_congr {p' : Psb} (h : p.data = p'.data) : p.started.data = p'.started.data := by
  unfold started
  rw [intLen_congr h]
  split
  · rfl
  · exact h

theorem entered_data_congr {p' : Psb} (h : p.data = p'.data) : p.entered.data = p'.entered.data := by
  unfold entered
  rw [intLen_congr h]
  split
  · exact congrArg (List.take 1) h
  · exact h

end Psb

namespace Chain
variable {s t extra : List UInt8} {k m n l i avail : Nat} {b : Psb} {next qs qs' : List Psb} {c : Chain}

/-- The bytes that `SAFE_STRSIZE` may look at. -/
def seen (c : Chain) : Chain := ⟨c.psb.started, c.next.map Psb.entered⟩

/-- It does not look at the others. -/
theorem strsizeFrom_entered {b' : Psb} (h : b' = b ∧ 0 ≤ b.intLen ∨ b.intLen < 0 ∧ b'.intLen ≤ i) :
    strsizeFrom l i b' (next.map Psb.entered) = strsizeFrom l i b next := by
  have hle : ∀ {i : Nat} {b b' : Psb}, (b' = b ∧ 0 ≤ b.intLen ∨ b.intLen < 0 ∧ b'.intLen ≤ i) → b.intLen ≤ i →
      b'.intLen ≤ i := by
    rintro i b b' (⟨rfl, -⟩ | ⟨-, h⟩) hi
    · exact hi
    · exact h
  have heq : ∀ {i : Nat} {b b' : Psb}, (b' = b ∧ 0 ≤ b.intLen ∨ b.intLen < 0 ∧ b'.intLen ≤ i) → ¬ b.intLen ≤ i →
      b' = b := by
    rintro i b b' (⟨h, -⟩ | ⟨h, -⟩) hi
    · exact h
    · exact absurd (Int.le_trans (Int.le_of_lt h) (Int.natCast_nonneg i)) hi
  fun_induction strsizeFrom l i b next generalizing b' with
  | case1 l i b hi =>
    rw [List.map_nil, strsizeFrom.eq_def, if_pos (hle h hi)]
  | case2 l i b hi p ps hbyte =>
    rw [List.map_cons, strsizeFrom.eq_def, if_pos (hle h hi)]
    simp only [Psb.byteAt_entered, hbyte]
  | case3 l i b hi p ps hbyte =>
    rw [List.map_cons, strsizeFrom.eq_def, if_pos (hle h hi)]
    simp only [Psb.byteAt_entered, hbyte, if_true]
  | case4 l i b hi p ps a hbyte h0 ih =>
    rw [List.map_cons, strsizeFrom.eq_def, if_pos (hle h hi)]
    simp only [Psb.byteAt_entered, hbyte, if_neg h0]
    exact ih p.entered_cases
  | case5 l i b next hi hbyte =>
    rw [heq h hi, strsizeFrom.eq_def, if_neg hi, hbyte]
  | case6 l i b next hi hbyte =>
    rw [heq h hi, strsizeFrom.eq_def, if_neg hi, hbyte]
    simp only [if_true]
  | case7 l i b next hi a hbyte h0 ih =>
    rw [heq h hi, strsizeFrom.eq_def, if_neg hi, hbyte]
    simp only [if_neg h0]
    exact ih (.inl ⟨rfl, Int.le_of_lt (Int.lt_of_le_of_lt (Int.natCast_nonneg i) (Int.not_le.1 hi))⟩)

theorem safeStrsize_seen (c : Chain) : c.seen.safeStrsize = c.safeStrsize := strsizeFrom_entered c.psb.started_cases

theorem seen_short (hlen : ∀ p ∈ c.psb :: c.next, p.data.length < 0x100000000) :
    ∀ p ∈ c.seen.psb :: c.seen.next, p.data.length < 0x80000000 := by
  intro p hp
  rcases List.mem_cons.1 hp with rfl | hp
  · show c.psb.started.data.length < _
    unfold Psb.started
    split
    · exact Nat.zero_lt_succ _
    · next h => exact Psb.length_of_intLen (hlen c.psb (List.mem_cons_self ..)) h
  · obtain ⟨q, hq, rfl⟩ := List.mem_map.1 hp
    unfold Psb.entered
    split
    · exact Nat.lt_of_le_of_lt (List.length_take_le 1 q.data) (by decide)
    · next h => exact Psb.length_of_intLen (hlen q (List.mem_cons_of_mem _ hq)) h

/-- `SAFE_STRSIZE` comes to no empty buffer, up to the first `'\0'` that it sees, but perhaps the one that it starts
in. -/
def NoGap (c : Chain) : Prop := Gapless (scanned c.seen.contents) c.seen.psb.data.length c.seen.next

theorem NoGap.safeStrsize (h : c.NoGap) (hlen : ∀ p ∈ c.psb :: c.next, p.data.length < 0x100000000) :
    c.safeStrsize = strsize c.seen.contents := by
  have hclear := strsizeFrom_clear (l := 0) (i := 0) (seen_short hlen) (t := c.seen.contents) rfl h
  rw [← safeStrsize_seen, Chain.safeStrsize, hclear]
  cases strsize c.seen.contents with
  | error x => rfl
  | ok n => exact congrArg Except.ok (Nat.zero_add n)

theorem safeStrsize_gap (hlen : ∀ p ∈ c.psb :: c.next, p.data.length < 0x100000000)
    (hstale : ∀ p ∈ c.next, p.stale = none) (h : ¬ c.NoGap) : c.safeStrsize = .error .fault := by
  rw [← safeStrsize_seen]
  refine strsizeFrom_stuck (seen_short hlen) (fun p hp => ?_) rfl h
  obtain ⟨q, hq, rfl⟩ := List.mem_map.1 hp
  exact (Psb.entered_stale q).trans (hstale q hq)

/-- No `(int)len` is negative among the buffers with the next `k` bytes, unless only the first byte of it is one of them;
`avail` of these are in the current one. -/
def Narrow (k avail : Nat) : List Psb → Prop
  | [] => True
  | q :: qs => avail < k → (0 ≤ q.intLen ∨ k - avail = 1) ∧ Narrow (k - avail) q.data.length qs

/-- `SAFE_STRSIZE` comes to no buffer whose `(int)len` is negative. -/
def SeesAll (c : Chain) : Prop := 0 ≤ c.psb.intLen ∧ Narrow (scanned c.contents) c.psb.data.length c.next

theorem Narrow.take {bs : List UInt8} (h : Narrow k bs.length qs) :
    (bs ++ (qs.map Psb.entered).flatMap Psb.data).take k = (bs ++ qs.flatMap Psb.data).take k := by
  induction qs generalizing k bs with
  | nil => rfl
  | cons q qs ih =>
    by_cases hk : bs.length < k
    · obtain ⟨hq, hqs⟩ := h hk
      rw [List.take_append, List.take_append, List.map_cons, List.flatMap_cons, List.flatMap_cons]
      congr 1
      by_cases hneg : q.intLen < 0
      · obtain ⟨a, as, hqd⟩ := List.exists_cons_of_ne_nil (Psb.ne_nil_of_intLen hneg)
        rw [hq.resolve_left (Int.not_le.2 hneg), Psb.entered, if_pos hneg, hqd]
        rfl
      · rw [Psb.entered, if_neg hneg]
        exact ih hqs
    · rw [List.take_append_of_le_length (Nat.le_of_not_lt hk), List.take_append_of_le_length (Nat.le_of_not_lt hk)]

/-- The size depends only on the bytes that a scan asks for. -/
theorem strsize_of_take {t' : List UInt8} (h : t'.take (scanned t) = t.take (scanned t)) : strsize t' = strsize t := by
  induction t generalizing t' with
  | nil =>
    cases t' with
    | nil => rfl
    | cons a t' => exact absurd h nofun
  | cons a t ih =>
    rw [scanned_cons] at h
    cases t' with
    | nil => exact absurd h nofun
    | cons a' t' =>
      rw [List.take_succ_cons, List.take_succ_cons, List.cons.injEq] at h
      obtain ⟨rfl, h⟩ := h
      rw [strsize, strsize]
      split
      · rfl
      · next h0 =>
        rw [if_neg h0] at h
        rw [ih h]

theorem SeesAll.strsize (h : c.SeesAll) : strsize c.seen.contents = strsize c.contents := by
  refine strsize_of_take ?_
  have hpsb : c.psb.started = c.psb := if_neg (Int.not_lt.2 h.1)
  show (c.psb.started.data ++ (c.next.map Psb.entered).flatMap Psb.data).take _ = _
  rw [hpsb]
  exact h.2.take

/-! ## Copying -/

/-- What a copy of `n` bytes leaves of `p` and the buffers after it. -/
structure Copied (n : Nat) (p : Psb) (qs : List Psb) (c : Chain) : Prop where
  contents : c.contents = (p.data ++ qs.flatMap Psb.data).drop n
  len : ∀ q ∈ c.psb :: c.next, q.data.length < 0x100000000
  stale : ∀ P : Option UInt8 → Prop, (∀ q ∈ p :: qs, P q.stale) → ∀ q ∈ c.psb :: c.next, P q.stale

theorem Copied.get {p : Psb} (hlen : ∀ q ∈ p :: qs, q.data.length < 0x100000000) (hn : n ≤ p.data.length) :
    Copied n p qs ⟨p.get n, qs⟩ := by
  refine ⟨(List.drop_append_of_le_length hn).symm, fun q hq => ?_, fun P hP q hq => ?_⟩
  · rcases List.mem_cons.1 hq with rfl | hq
    · have := hlen p (List.mem_cons_self ..)
      show (p.data.drop n).length < 0x100000000
      rw [List.length_drop]
      omega
    · exact hlen q (List.mem_cons_of_mem _ hq)
  · rcases List.mem_cons.1 hq with rfl | hq
    · exact hP p (List.mem_cons_self ..)
    · exact hP q (List.mem_cons_of_mem _ hq)

theorem decodeBytes_get {p : Psb} (hlen : p.data.length < 0x100000000) (hn : n ≤ p.data.length) (qs : List Psb) :
    decodeBytes n p qs = (p.data.take n, some ⟨p.get n, qs⟩) := by
  cases qs <;> simp only [decodeBytes, Psb.psbLen_of_lt hlen, Nat.min_eq_right hn, Nat.sub_self, if_true]

theorem decodeBytes_next {p q : Psb} (hlen : p.data.length < 0x100000000) (hn : p.data.length < n) (qs : List Psb) :
    decodeBytes n p (q :: qs) =
      (p.data ++ (decodeBytes (n - p.data.length) q qs).1, (decodeBytes (n - p.data.length) q qs).2) := by
  have hne : n - p.data.length ≠ 0 := by omega
  simp only [decodeBytes, Psb.psbLen_of_lt hlen, Nat.min_eq_left (Nat.le_of_lt hn), if_neg hne, List.take_length]

/-- There are enough bytes. -/
theorem decodeBytes_enough {p : Psb} (hlen : ∀ q ∈ p :: qs, q.data.length < 0x100000000)
    (hn : n ≤ (p.data ++ qs.flatMap Psb.data).length) :
    ∃ c, decodeBytes n p qs = ((p.data ++ qs.flatMap Psb.data).take n, some c) ∧ Copied n p qs c := by
  induction qs generalizing n p with
  | nil =>
    have hle : n ≤ p.data.length := by
      rwa [List.flatMap_nil, List.append_nil] at hn
    refine ⟨⟨p.get n, []⟩, ?_, .get hlen hle⟩
    rw [decodeBytes_get (hlen p (List.mem_cons_self ..)) hle, List.take_append_of_le_length hle]
  | cons q qs ih =>
    by_cases hle : n ≤ p.data.length
    · refine ⟨⟨p.get n, q :: qs⟩, ?_, .get hlen hle⟩
      rw [decodeBytes_get (hlen p (List.mem_cons_self ..)) hle, List.take_append_of_le_length hle]
    · rw [List.flatMap_cons, List.length_append] at hn
      have hlt : p.data.length < n := Nat.lt_of_not_le hle
      obtain ⟨c, hdec, hc⟩ := ih (fun r hr => hlen r (List.mem_cons_of_mem _ hr)) (n := n - p.data.length) (by omega)
      refine ⟨c, ?_, ?_, hc.len, fun P hP => hc.stale P fun r hr => hP r (List.mem_cons_of_mem _ hr)⟩
      · have htake : ∀ t : List UInt8, (p.data ++ t).take n = p.data ++ t.take (n - p.data.length) := fun t => by
          rw [List.take_append, List.take_of_length_le (Nat.le_of_lt hlt)]
        rw [decodeBytes_next (hlen p (List.mem_cons_self ..)) hlt, hdec, htake]
        rfl
      · have hdrop : ∀ t : List UInt8, (p.data ++ t).drop n = t.drop (n - p.data.length) := fun t => by
          rw [List.drop_append, List.drop_eq_nil_of_le (Nat.le_of_lt hlt), List.nil_append]
        rw [hdrop, hc.contents]
        rfl

theorem decodeBytes_few {p : Psb} (hlen : ∀ q ∈ p :: qs, q.data.length < 0x100000000)
    (hn : (p.data ++ qs.flatMap Psb.data).length < n) : decodeBytes n p qs = (p.data ++ qs.flatMap Psb.data, none) := by
  induction qs generalizing n p with
  | nil =>
    rw [List.flatMap_nil, List.append_nil] at hn ⊢
    have hne : n - p.data.length ≠ 0 := by omega
    simp only [decodeBytes, Psb.psbLen_of_lt (hlen p (List.mem_cons_self ..)), Nat.min_eq_left (Nat.le_of_lt hn),
      if_neg hne, List.take_length]
  | cons q qs ih =>
    rw [List.flatMap_cons, List.length_append] at hn
    have hlt : p.data.length < n := by omega
    rw [decodeBytes_next (hlen p (List.mem_cons_self ..)) hlt,
      ih (fun r hr => hlen r (List.mem_cons_of_mem _ hr)) (n := n - p.data.length) (by omega), List.flatMap_cons]

theorem decodeBytes_get_add {p : Psb} (hp : p.data.length < 0x100000000) (hm : m ≤ p.data.length) :
    (decodeBytes (m + n) p qs).2 = (decodeBytes n (p.get m) qs).2 := by
  have hget : (p.get m).data.length = p.data.length - m := List.length_drop
  have hgetlen : (p.get m).data.length < 0x100000000 := by omega
  by_cases hn : m + n ≤ p.data.length
  · rw [decodeBytes_get hp hn, decodeBytes_get hgetlen (by omega)]
    simp only [Psb.get, List.drop_drop]
  · cases qs with
    | nil =>
      have hfew : ∀ {k : Nat} {r : Psb}, r.data.length < 0x100000000 → r.data.length < k →
          (decodeBytes k r []).2 = none := fun hr hk => by
        rw [decodeBytes_few (by simpa using hr) (by simpa using hk)]
      rw [hfew hp (by omega), hfew hgetlen (by omega)]
    | cons q qs =>
      have hsub : m + n - p.data.length = n - (p.data.length - m) := by omega
      rw [decodeBytes_next hp (by omega), decodeBytes_next hgetlen (by omega), hget, hsub]

/-- One copy after the other comes to the same buffers as one copy of all. -/
theorem decodeBytes_add {p : Psb} {c : Chain} (hlen : ∀ q ∈ p :: qs, q.data.length < 0x100000000)
    (hm : (decodeBytes m p qs).2 = some c) : (decodeBytes (m + n) p qs).2 = (decodeBytes n c.psb c.next).2 := by
  induction qs generalizing m p with
  | nil =>
    by_cases hle : m ≤ p.data.length
    · rw [decodeBytes_get (hlen p (List.mem_cons_self ..)) hle] at hm
      cases hm
      exact decodeBytes_get_add (hlen p (List.mem_cons_self ..)) hle
    · rw [decodeBytes_few hlen (by rw [List.flatMap_nil, List.append_nil]; omega)] at hm
      cases hm
  | cons q qs ih =>
    have hp := hlen p (List.mem_cons_self ..)
    by_cases hle : m ≤ p.data.length
    · rw [decodeBytes_get hp hle] at hm
      cases hm
      exact decodeBytes_get_add hp hle
    · have hsub : m + n - p.data.length = m - p.data.length + n := by omega
      rw [decodeBytes_next hp (by omega)] at hm
      rw [decodeBytes_next hp (by omega), hsub]
      exact ih (fun r hr => hlen r (List.mem_cons_of_mem _ hr)) hm

/-! ## What lies behind the empty buffers -/

/-- Two chains with the same bytes in the same buffers; what lies behind an empty buffer is no part of it. -/
def SameBuffers (c c' : Chain) : Prop := c.psb.data = c'.psb.data ∧ c.next.map Psb.data = c'.next.map Psb.data

namespace SameBuffers
variable {c c' : Chain}

theorem contents (h : SameBuffers c c') : c'.contents = c.contents := by
  show c'.psb.data ++ (c'.next.map Psb.data).flatten = c.psb.data ++ (c.next.map Psb.data).flatten
  rw [h.1, h.2]

theorem len (h : SameBuffers c c') (hc : ∀ p ∈ c.psb :: c.next, p.data.length < 0x100000000) :
    ∀ p ∈ c'.psb :: c'.next, p.data.length < 0x100000000 := by
  intro p hp
  have hdata : p.data ∈ (c'.psb :: c'.next).map Psb.data := List.mem_map_of_mem hp
  rw [List.map_cons, ← h.1, ← h.2, ← List.map_cons] at hdata
  obtain ⟨q, hq, hqp⟩ := List.mem_map.1 hdata
  rw [← hqp]
  exact hc q hq

theorem symm (h : SameBuffers c c') : SameBuffers c' c := ⟨h.1.symm, h.2.symm⟩

theorem seen (h : SameBuffers c c') : SameBuffers c.seen c'.seen := by
  refine ⟨Psb.started_data_congr h.1, ?_⟩
  have hnext : ∀ {qs qs' : List Psb}, qs.map Psb.data = qs'.map Psb.data →
      (qs.map Psb.entered).map Psb.data = (qs'.map Psb.entered).map Psb.data := by
    intro qs
    induction qs with
    | nil =>
      intro qs' hqs
      rw [List.map_eq_nil_iff.1 hqs.symm]
    | cons q qs ih =>
      intro qs' hqs
      cases qs' with
      | nil => exact absurd hqs (List.cons_ne_nil _ _)
      | cons q' qs' =>
        obtain ⟨hq, hqs⟩ := List.cons.inj hqs
        simp only [List.map_cons, Psb.entered_data_congr hq, ih hqs]
  exact hnext h.2

end SameBuffers

theorem gapless_congr (hqs : qs.map Psb.data = qs'.map Psb.data) (h : Gapless k avail qs) : Gapless k avail qs' := by
  induction qs generalizing qs' k avail with
  | nil =>
    rw [List.map_eq_nil_iff.1 hqs.symm]
    trivial
  | cons q qs ih =>
    cases qs' with
    | nil => exact absurd hqs (List.cons_ne_nil _ _)
    | cons q' qs' =>
      obtain ⟨hq, hqs⟩ := List.cons.inj hqs
      intro hlt
      obtain ⟨hne, hgap⟩ := h hlt
      exact ⟨hq ▸ hne, hq ▸ ih hqs hgap⟩

theorem narrow_congr (hqs : qs.map Psb.data = qs'.map Psb.data) (h : Narrow k avail qs) : Narrow k avail qs' := by
  induction qs generalizing qs' k avail with
  | nil =>
    rw [List.map_eq_nil_iff.1 hqs.symm]
    trivial
  | cons q qs ih =>
    cases qs' with
    | nil => exact absurd hqs (List.cons_ne_nil _ _)
    | cons q' qs' =>
      obtain ⟨hq, hqs⟩ := List.cons.inj hqs
      intro hlt
      obtain ⟨hlen, hnarrow⟩ := h hlt
      exact ⟨Psb.intLen_congr hq ▸ hlen, hq ▸ ih hqs hnarrow⟩

theorem NoGap.congr {c c' : Chain} (hsame : c.SameBuffers c') (h : c.NoGap) : c'.NoGap := by
  unfold NoGap
  rw [hsame.seen.contents, ← hsame.seen.1]
  exact gapless_congr hsame.seen.2 h

theorem SeesAll.congr {c c' : Chain} (hsame : c.SameBuffers c') (h : c.SeesAll) : c'.SeesAll := by
  refine ⟨Psb.intLen_congr hsame.1 ▸ h.1, ?_⟩
  rw [hsame.contents, ← hsame.1]
  exact narrow_congr hsame.2 h.2

/-- A copy does not look behind the empty buffers. -/
theorem decodeBytes_same {P : Option UInt8 → Prop} {bs : List UInt8} {p p' : Psb} {qs' : List Psb} {c : Chain}
    (hp : p.data = p'.data) (hqs : qs.map Psb.data = qs'.map Psb.data) (hP : ∀ q ∈ qs', P q.stale)
    (hdec : decodeBytes n p qs = (bs, some c)) :
    ∃ c', decodeBytes n p' qs' = (bs, some c') ∧ c.SameBuffers c' ∧ ∀ q ∈ c'.next, P q.stale := by
  have hlen := Psb.psbLen_congr hp
  induction qs generalizing n p p' qs' bs with
  | nil =>
    obtain rfl := List.map_eq_nil_iff.1 hqs.symm
    by_cases h0 : n - min p.psbLen n = 0
    · simp only [decodeBytes, if_pos h0] at hdec
      cases hdec
      refine ⟨⟨p'.get (min p.psbLen n), []⟩, ?_, ⟨congrArg (List.drop _) hp, rfl⟩, hP⟩
      simp only [decodeBytes, ← hlen, if_pos h0, hp]
    · simp only [decodeBytes, if_neg h0] at hdec
      exact absurd (congrArg Prod.snd hdec).symm (Option.some_ne_none c)
  | cons q qs ih =>
    cases qs' with
    | nil => exact absurd hqs (List.cons_ne_nil _ _)
    | cons q' qs' =>
      obtain ⟨hq, hqs'⟩ := List.cons.inj hqs
      by_cases h0 : n - min p.psbLen n = 0
      · simp only [decodeBytes, if_pos h0] at hdec
        cases hdec
        refine ⟨⟨p'.get (min p.psbLen n), q' :: qs'⟩, ?_, ⟨congrArg (List.drop _) hp, hqs⟩, hP⟩
        simp only [decodeBytes, ← hlen, if_pos h0, hp]
      · rcases hrest : decodeBytes (n - min p.psbLen n) q qs with ⟨bs', c'⟩
        simp only [decodeBytes, if_neg h0, hrest, Prod.mk.injEq] at hdec
        obtain ⟨rfl, rfl⟩ := hdec
        obtain ⟨c', hdec', hsame⟩ :=
          ih hq hqs' (fun r hr => hP r (List.mem_cons_of_mem _ hr)) hrest (Psb.psbLen_congr hq)
        refine ⟨c', ?_, hsame⟩
        simp only [decodeBytes, ← hlen, if_neg h0, hdec', hp]

end Chain
end Aosl
