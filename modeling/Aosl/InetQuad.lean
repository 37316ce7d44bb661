import Aosl.Inet
import Aosl.Lib.Numeral

/-!
# IPv4 addresses as text

What `inet_ntop4` writes is `dottedText`: four decimal numbers without leading zeros, with dots between them.
`inet_pton4` accepts exactly these texts, and leaves `dst` alone for any other (`inetPton4_iff`). At each place in the text
the loop has the octets before the last dot and the number since then (`Quad.Holds`), and it accepts what completes them
to a text of four octets (`pton4Loop_accepts`).
-/

namespace Aosl
open Lib

namespace Inet

/-! ### Buffers -/

section
variable {α : Type} {l m n r : List α}

theorem store_append (h : n.length = m.length) : store (l ++ m ++ r) l.length n = some (l ++ n ++ r) := by
  have hlen : l.length + n.length ≤ (l ++ m ++ r).length := by
    rw [List.length_append, List.length_append]
    omega
  rw [store, if_pos hlen, List.append_assoc l m r, List.take_left]
  congr 2
  rw [← List.append_assoc, h, ← List.length_append, List.drop_left]

theorem store_cell (x y : α) : store (l ++ x :: r) l.length [y] = some (l ++ y :: r) := by
  have h := store_append (l := l) (m := [x]) (n := [y]) (r := r) rfl
  simpa using h

theorem store_next (h : m.length ≤ r.length) : store (l ++ r) l.length m = some (l ++ m ++ r.drop m.length) := by
  have hr : r = r.take m.length ++ r.drop m.length := (List.take_append_drop _ _).symm
  have htake : m.length = (r.take m.length).length := by rw [List.length_take, Nat.min_eq_left h]
  conv_lhs => rw [hr, ← List.append_assoc]
  exact store_append htake

theorem store_fill (h : m.length = r.length) : store r 0 m = some m := by
  have hnext := store_next (l := []) (m := m) (r := r) (by omega)
  rw [List.nil_append, List.length_nil, List.nil_append, h, List.drop_length, List.append_nil] at hnext
  exact hnext

end

theorem cString_append {t : Text} (h : ∀ c ∈ t, c ≠ nul) (r : Text) : cString (t ++ nul :: r) = t := by
  rw [cString, List.takeWhile_append_of_pos (by simpa using h), List.takeWhile_cons]
  simp

/-! ### Decimal numbers -/

/-- `c` is the decimal digit `d`. -/
def DecDigit (c : Char) (d : Nat) : Prop := d < 10 ∧ c = Nat.digitChar d

theorem DecDigit.unique {c : Char} {d d' : Nat} (h : DecDigit c d) (h' : DecDigit c d') : d = d' := by
  obtain ⟨hd, rfl⟩ := h
  obtain ⟨hd', he⟩ := h'
  have hnat := congrArg Char.toNat he
  rw [Nat.toNat_digitChar_of_lt_ten hd, Nat.toNat_digitChar_of_lt_ten hd'] at hnat
  omega

theorem isDecDigit_iff (ch : Char) : '0' ≤ ch ∧ ch ≤ '9' ↔ ∃ d, DecDigit ch d := by
  have h0 : '0'.toNat = 48 := rfl
  have h9 : '9'.toNat = 57 := rfl
  rw [Char.le_def, Char.le_def, UInt32.le_iff_toNat_le, UInt32.le_iff_toNat_le]
  show '0'.toNat ≤ ch.toNat ∧ ch.toNat ≤ '9'.toNat ↔ _
  constructor
  · rintro ⟨hlow, hhigh⟩
    refine ⟨ch.toNat - 48, by omega, Char.toNat_inj.1 ?_⟩
    rw [Nat.toNat_digitChar_of_lt_ten (by omega)]
    omega
  · rintro ⟨d, hd, rfl⟩
    rw [Nat.toNat_digitChar_of_lt_ten hd]
    omega

theorem DecDigit.toNat_sub {ch : Char} {d : Nat} (h : DecDigit ch d) : ch.toNat - '0'.toNat = d := by
  rw [h.2]
  exact Nat.toNat_digitChar_sub_48_of_lt_ten h.1

theorem decText_reads (n : Nat) : Reads DecDigit 10 (decText n) n :=
  reads_toDigits (by decide) (fun d hd => ⟨hd, rfl⟩) n

theorem decText_inj {m n : Nat} (h : decText m = decText n) : m = n :=
  (decText_reads m).unique (fun _ _ _ hd hd' => hd.unique hd') (h ▸ decText_reads n)

theorem decText_digit {d : Nat} (h : d < 10) : decText d = [Nat.digitChar d] := Nat.toDigits_of_lt_base h

theorem decText_snoc {v d : Nat} (hv : 0 < v) (hd : d < 10) : decText (v * 10 + d) = decText v ++ [Nat.digitChar d] := by
  rw [← decText_digit hd, decText, decText, decText, Nat.mul_comm, Nat.toDigits_append_toDigits (by decide) hv hd]

theorem decText_ne_nil (n : Nat) : decText n ≠ [] := Nat.toDigits_ne_nil

theorem isDecDigit_of_mem {n : Nat} {c : Char} (h : c ∈ decText n) : '0' ≤ c ∧ c ≤ '9' :=
  (isDecDigit_iff c).2 ((decText_reads n).digits c h)

/-! ### Dotted quads -/

/-- The octets `as` after other ones. -/
def dotTail : List UInt8 → Text
  | [] => []
  | a :: as => '.' :: (decText a.toNat ++ dotTail as)

/-- The octets as decimal numbers with dots between them. -/
def dottedText : List UInt8 → Text
  | [] => []
  | a :: as => decText a.toNat ++ dotTail as

theorem dotTail_head (as : List UInt8) : ∀ c ∈ (dotTail as).head?, ¬('0' ≤ c ∧ c ≤ '9') := by
  cases as with
  | nil => simp [dotTail]
  | cons a as =>
    intro c hc
    obtain rfl : '.' = c := by simpa [dotTail] using hc
    decide

section
variable {x : UInt8} {xs : List UInt8} {u r : Text}

theorem dotted_split (hu : ∀ c ∈ u, '0' ≤ c ∧ c ≤ '9') (hr : ∀ c ∈ r.head?, ¬('0' ≤ c ∧ c ≤ '9'))
    (h : dottedText (x :: xs) = u ++ r) : decText x.toNat = u ∧ dotTail xs = r :=
  run_unique (fun _ hc => isDecDigit_of_mem hc) hu (dotTail_head xs) hr h

theorem dotted_prefix (hu : ∀ c ∈ u, '0' ≤ c ∧ c ≤ '9') (h : dottedText (x :: xs) = u ++ r) :
    ∃ ds, decText x.toNat = u ++ ds := by
  obtain ⟨ds, hds⟩ := prefix_of_run (fun _ hc => isDecDigit_of_mem hc) hu (dotTail_head xs) h
  exact ⟨ds, hds.symm⟩

theorem le_of_dotted {n : Nat} (h : dottedText (x :: xs) = decText n ++ r) : n ≤ x.toNat := by
  obtain ⟨ds, hds⟩ := dotted_prefix (fun _ hc => isDecDigit_of_mem hc) h
  exact (decText_reads n).le_append (Nat.zero_lt_succ 9) (fun _ _ _ hd hd' => hd.unique hd') (hds ▸ decText_reads x.toNat)

theorem not_dotted_zero {c : Char} (hc : '0' ≤ c ∧ c ≤ '9') : dottedText (x :: xs) ≠ '0' :: c :: r := by
  intro h
  obtain ⟨ds, hds⟩ := dotted_prefix (u := ['0', c]) (r := r) (by simpa using hc) h
  by_cases hx : x.toNat < 10
  · rw [decText_digit hx] at hds
    simp at hds
  · obtain ⟨c', t, ht, hne⟩ := toDigits_head_ne (b := 10) (by decide) (by omega : 10 ≤ x.toNat)
    rw [decText, ht] at hds
    exact hne (List.cons.inj hds).1

end

theorem dotTail_inj {as bs : List UInt8} (h : dotTail as = dotTail bs) : as = bs := by
  induction as generalizing bs with
  | nil =>
    cases bs with
    | nil => rfl
    | cons b bs => simp [dotTail] at h
  | cons a as ih =>
    cases bs with
    | nil => simp [dotTail] at h
    | cons b bs =>
      obtain ⟨hx, hxs⟩ := dotted_split (fun _ hc => isDecDigit_of_mem hc) (dotTail_head bs) (List.cons.inj h).2
      rw [UInt8.toNat_inj.1 (decText_inj hx), ih hxs]

theorem dottedText_inj {as bs : List UInt8} (has : as ≠ []) (hbs : bs ≠ []) (h : dottedText as = dottedText bs) :
    as = bs := by
  obtain ⟨a, as, rfl⟩ := List.exists_cons_of_ne_nil has
  obtain ⟨b, bs, rfl⟩ := List.exists_cons_of_ne_nil hbs
  exact dotTail_inj (congrArg ('.' :: ·) h)

/-! ### `inet_pton4` -/

/-- The digits of the current octet. -/
def curText : Option UInt8 → Text
  | none => []
  | some v => decText v.toNat

/-- The loop has read the octets `done`, and `cur` since the last dot. -/
structure Quad.Holds (st : Quad) (done : List UInt8) (cur : Option UInt8) (junk : List UInt8) : Prop where
  tmp : st.tmp = done ++ cur.getD 0 :: junk
  len : done.length + junk.length = 3
  tp : st.tp = done.length
  sawDigit : st.sawDigit = cur.isSome
  octets : st.octets = done.length + cur.toList.length

/-- The loop ends with the octets `a`. -/
def Accepts (r : Option Quad) (a : List UInt8) : Prop := ∃ st, r = some st ∧ ¬st.octets < 4 ∧ st.tmp = a

theorem not_accepts_none (a : List UInt8) : ¬Accepts none a := by
  rintro ⟨st, hst, -⟩
  cases hst

/-- The octets `a` are `done` and then those of the text. -/
def Completes (done : List UInt8) (t : Text) (a : List UInt8) : Prop :=
  ∃ rest, rest ≠ [] ∧ a = done ++ rest ∧ a.length = 4 ∧ dottedText rest = t

theorem not_completes {done : List UInt8} {t : Text} (h : ∀ x xs, dottedText (x :: xs) ≠ t) (a : List UInt8) :
    ¬Completes done t a := by
  rintro ⟨rest, hne, -, -, ht⟩
  cases rest with
  | nil => exact hne rfl
  | cons x xs => exact h x xs ht

section
variable {st : Quad} {done junk : List UInt8} {cur : Option UInt8} {v : UInt8} {s : Text} {ch : Char}

/-- At the end of the text. -/
theorem Quad.Holds.accepts_end (h : st.Holds done cur junk) (a : List UInt8) :
    Accepts (some st) a ↔ Completes done (curText cur) a := by
  cases cur with
  | none =>
    refine iff_of_false ?_ (not_completes (fun x xs ht => decText_ne_nil _ (List.append_eq_nil_iff.1 ht).1) a)
    rintro ⟨st', hst, hoct, -⟩
    cases hst
    rw [h.octets] at hoct
    have hlen := h.len
    simp only [Option.toList_none, List.length_nil] at hoct
    omega
  | some v =>
    have hoct := h.octets
    have hlen := h.len
    simp only [Option.toList_some, List.length_singleton] at hoct
    constructor
    · rintro ⟨st', hst, h4, rfl⟩
      cases hst
      obtain rfl : junk = [] := List.length_eq_zero_iff.1 (by omega)
      refine ⟨[v], by simp, h.tmp, ?_, by simp [dottedText, dotTail, curText]⟩
      rw [h.tmp, List.length_append, List.length_singleton]
      omega
    · rintro ⟨rest, hne, rfl, h4, ht⟩
      cases rest with
      | nil => exact absurd rfl hne
      | cons x xs =>
        obtain ⟨hx, hxs⟩ := dotted_split (r := []) (fun _ hc => isDecDigit_of_mem hc) (by simp)
          (ht.trans (List.append_nil _).symm)
        obtain rfl : x = v := UInt8.toNat_inj.1 (decText_inj hx)
        obtain rfl : xs = [] := by
          cases xs with
          | nil => rfl
          | cons y ys => simp [dotTail] at hxs
        simp only [List.length_append, List.length_singleton] at h4
        obtain rfl : junk = [] := List.length_eq_zero_iff.1 (by omega)
        exact ⟨st, rfl, by omega, h.tmp⟩

/-- A digit where the octet is `cur`: what it becomes, unless the octet would begin with a zero or be too large. -/
theorem completes_digit {d : Nat} (hd : DecDigit ch d) {n : Nat} (hn : n = (cur.getD 0).toNat * 10 + d)
    (hzero : cur ≠ some 0) (a : List UInt8) :
    Completes done (curText cur ++ ch :: s) a ↔ n ≤ 255 ∧ Completes done (curText (some (UInt8.ofNat n)) ++ s) a := by
  have htext : curText cur ++ ch :: s = decText n ++ s := by
    cases cur with
    | none =>
      obtain rfl : n = d := by simpa using hn
      rw [decText_digit hd.1, ← hd.2]
      rfl
    | some v =>
      have hv : 0 < v.toNat := Nat.pos_of_ne_zero fun h0 => hzero (congrArg some (UInt8.toNat_inj.1 h0))
      rw [hn, Option.getD_some, decText_snoc hv hd.1, ← hd.2]
      simp [curText]
  rw [htext]
  by_cases hle : n ≤ 255
  · rw [and_iff_right hle, curText, UInt8.toNat_ofNat', Nat.mod_eq_of_lt (by omega)]
  · refine iff_of_false (not_completes (fun x xs ht => ?_) a) (fun hc => hle hc.1)
    have hx := le_of_dotted ht
    have hlt := x.toNat_lt
    omega

theorem completes_dot (v : UInt8) (a : List UInt8) :
    Completes done (curText (some v) ++ '.' :: s) a ↔ done.length ≠ 3 ∧ Completes (done ++ [v]) s a := by
  constructor
  · rintro ⟨rest, hne, rfl, h4, ht⟩
    cases rest with
    | nil => exact absurd rfl hne
    | cons x xs =>
      obtain ⟨hx, hxs⟩ := dotted_split (fun _ hc => isDecDigit_of_mem hc) (by simp) ht
      obtain rfl : x = v := UInt8.toNat_inj.1 (decText_inj hx)
      cases xs with
      | nil => simp [dotTail] at hxs
      | cons y ys =>
        simp only [List.length_append, List.length_cons] at h4
        refine ⟨by omega, y :: ys, by simp, by simp, by simp; omega, (List.cons.inj hxs).2⟩
  · rintro ⟨-, rest, hne, rfl, h4, rfl⟩
    refine ⟨v :: rest, by simp, by simp, by simpa using h4, ?_⟩
    cases rest with
    | nil => exact absurd rfl hne
    | cons y ys => rfl

theorem not_completes_other (hdigit : ¬('0' ≤ ch ∧ ch ≤ '9')) (hdot : ch ≠ '.' ∨ cur = none) (a : List UInt8) :
    ¬Completes done (curText cur ++ ch :: s) a := by
  refine not_completes (fun x xs ht => ?_) a
  have hcur : ∀ c ∈ curText cur, '0' ≤ c ∧ c ≤ '9' := by
    cases cur with
    | none => simp [curText]
    | some v => exact fun _ hc => isDecDigit_of_mem hc
  obtain ⟨hx, hxs⟩ := dotted_split hcur (by simpa using hdigit) ht
  rcases hdot with hdot | rfl
  · cases xs with
    | nil => simp [dotTail] at hxs
    | cons y ys => exact hdot (List.cons.inj hxs).1.symm
  · exact decText_ne_nil _ hx

/-- From any place in the text the loop accepts what completes the octets that it has. -/
theorem pton4Loop_accepts (h : st.Holds done cur junk) :
    ∃ r, pton4Loop s st = some r ∧ ∀ a, Accepts r a ↔ Completes done (curText cur ++ s) a := by
  induction s generalizing st done cur junk with
  | nil => exact ⟨some st, rfl, fun a => by rw [List.append_nil]; exact h.accepts_end a⟩
  | cons ch s ih =>
    rw [pton4Loop]
    have hlen := h.len
    by_cases hdigit : '0' ≤ ch ∧ ch ≤ '9'
    · obtain ⟨d, hd⟩ := (isDecDigit_iff ch).1 hdigit
      have hcell : st.tmp[st.tp]? = some (cur.getD 0) := by rw [h.tmp, h.tp]; simp
      rw [if_pos hdigit, hcell]
      simp only [Option.bind_eq_bind, Option.bind_some, hd.toNat_sub]
      by_cases hzero : cur = some 0
      · subst hzero
        refine ⟨none, by simp [h.sawDigit], fun a => iff_of_false (not_accepts_none a) ?_⟩
        exact not_completes (fun x xs ht => not_dotted_zero hdigit ht) a
      have hsaw : ¬(st.sawDigit = true ∧ cur.getD 0 = 0) := by
        rw [h.sawDigit]
        cases cur with
        | none => simp
        | some v => exact fun h0 => hzero (congrArg some h0.2)
      rw [if_neg hsaw]
      by_cases hbig : 255 < (cur.getD 0).toNat * 10 + d
      · refine ⟨none, by rw [if_pos hbig]; rfl, fun a => iff_of_false (not_accepts_none a) ?_⟩
        rw [completes_digit hd rfl hzero]
        exact fun hc => absurd hc.1 (by omega)
      rw [if_neg hbig]
      have hstore : store st.tmp st.tp [UInt8.ofNat ((cur.getD 0).toNat * 10 + d)] =
          some (done ++ UInt8.ofNat ((cur.getD 0).toNat * 10 + d) :: junk) := by
        rw [h.tmp, h.tp]
        exact store_cell _ _
      rw [hstore]
      simp only [Option.bind_some, h.sawDigit]
      have hiff : ∀ a, Completes done (curText cur ++ ch :: s) a ↔
          Completes done (curText (some (UInt8.ofNat ((cur.getD 0).toNat * 10 + d))) ++ s) a := fun a => by
        rw [completes_digit hd rfl hzero, and_iff_right (by omega)]
      cases cur with
      | none =>
        have hoct := h.octets
        simp only [Option.toList_none, List.length_nil] at hoct
        have hnext : Quad.Holds ⟨true, st.octets + 1, done ++ UInt8.ofNat ((none.getD (0 : UInt8)).toNat * 10 + d) :: junk,
            st.tp⟩ done (some (UInt8.ofNat ((none.getD (0 : UInt8)).toNat * 10 + d))) junk :=
          ⟨rfl, h.len, h.tp, rfl, by simp [hoct]⟩
        obtain ⟨r, hr, ha⟩ := ih hnext
        refine ⟨r, ?_, fun a => (ha a).trans (hiff a).symm⟩
        rw [if_neg (by simp), if_neg (by omega)]
        exact hr
      | some v =>
        have hnext : Quad.Holds ⟨st.sawDigit, st.octets, done ++ UInt8.ofNat (((some v).getD (0 : UInt8)).toNat * 10 + d) ::
            junk, st.tp⟩ done (some (UInt8.ofNat (((some v).getD (0 : UInt8)).toNat * 10 + d))) junk :=
          ⟨rfl, h.len, h.tp, h.sawDigit, h.octets⟩
        obtain ⟨r, hr, ha⟩ := ih hnext
        refine ⟨r, ?_, fun a => (ha a).trans (hiff a).symm⟩
        rw [if_pos (by simp)]
        simp only [h.sawDigit] at hr ⊢
        exact hr
    · rw [if_neg hdigit]
      by_cases hdot : ch = '.' ∧ st.sawDigit = true
      · rw [if_pos hdot]
        obtain ⟨rfl, hsaw⟩ := hdot
        rw [h.sawDigit] at hsaw
        obtain ⟨v, rfl⟩ := Option.isSome_iff_exists.1 hsaw
        have hoct := h.octets
        simp only [Option.toList_some, List.length_singleton] at hoct
        by_cases h4 : st.octets = 4
        · refine ⟨none, by rw [if_pos h4], fun a => iff_of_false (not_accepts_none a) ?_⟩
          rw [completes_dot]
          exact fun hc => hc.1 (by omega)
        · rw [if_neg h4]
          cases junk with
          | nil =>
            simp only [List.length_nil] at hlen
            omega
          | cons j junk =>
            simp only [List.length_cons] at hlen
            have hstore : store st.tmp (st.tp + 1) [0] = some (done ++ [v] ++ 0 :: junk) := by
              have hcell := store_cell (l := done ++ [v]) (r := junk) j 0
              rw [List.length_append, List.length_singleton] at hcell
              rw [h.tmp, h.tp, Option.getD_some, show done ++ v :: j :: junk = done ++ [v] ++ j :: junk by simp]
              exact hcell
            have hnext : Quad.Holds ⟨false, st.octets, done ++ [v] ++ 0 :: junk, st.tp + 1⟩ (done ++ [v]) none junk :=
              ⟨rfl, by simp; omega, by simp [h.tp], rfl, by simp [hoct]⟩
            obtain ⟨r, hr, ha⟩ := ih hnext
            refine ⟨r, by simp only [hstore, Option.bind_eq_bind, Option.bind_some]; exact hr, fun a => (ha a).trans ?_⟩
            rw [completes_dot, and_iff_right (by omega)]
            exact Iff.rfl
      · rw [if_neg hdot]
        refine ⟨none, rfl, fun a => iff_of_false (not_accepts_none a) (not_completes_other hdigit ?_ a)⟩
        rw [h.sawDigit, not_and_or] at hdot
        refine hdot.imp id fun hnone => ?_
        cases cur with
        | none => rfl
        | some v => exact absurd rfl hnone

end

/-- `inet_pton4` writes the octets of a dotted quad, and nothing for any other text. -/
theorem inetPton4_run {tmp l m r : List UInt8} (htmp : tmp.length = 4) (hm : m.length = 4) (s : Text) :
    (∃ a, a.length = 4 ∧ dottedText a = s ∧ inetPton4 tmp s (l ++ m ++ r) l.length = some (1, l ++ a ++ r)) ∨
    (∀ a, a.length = 4 → dottedText a ≠ s) ∧ inetPton4 tmp s (l ++ m ++ r) l.length = some (0, l ++ m ++ r) := by
  obtain ⟨j, junk, rfl⟩ : ∃ j junk, tmp = j :: junk := List.exists_cons_of_length_eq_add_one htmp
  have hfirst : store (j :: junk) 0 [0] = some (0 :: junk) := store_cell (l := []) j 0
  have hholds : Quad.Holds ⟨false, 0, 0 :: junk, 0⟩ [] none junk :=
    ⟨rfl, by simpa using htmp, rfl, rfl, rfl⟩
  obtain ⟨o, ho, hacc⟩ := pton4Loop_accepts (s := s) hholds
  have hacc' : ∀ a, Accepts o a ↔ a.length = 4 ∧ dottedText a = s := fun a => by
    rw [hacc]
    constructor
    · rintro ⟨rest, -, rfl, h4, ht⟩
      exact ⟨h4, ht⟩
    · rintro ⟨h4, ht⟩
      refine ⟨a, ?_, rfl, h4, ht⟩
      rintro rfl
      cases h4
  have hrun : inetPton4 (j :: junk) s (l ++ m ++ r) l.length = (match o with
      | none => some (0, l ++ m ++ r)
      | some st => if st.octets < 4 then some (0, l ++ m ++ r) else
          (store (l ++ m ++ r) l.length st.tmp).map (1, ·)) := by
    simp only [inetPton4, hfirst, ho, Option.bind_eq_bind, Option.bind_some]
    cases o with
    | none => rfl
    | some st =>
      dsimp only
      by_cases h4 : st.octets < 4
      · rw [if_pos h4, if_pos h4]
        rfl
      · rw [if_neg h4, if_neg h4]
        cases store (l ++ m ++ r) l.length st.tmp <;> rfl
  by_cases hex : ∃ a, Accepts o a
  · obtain ⟨a, ha⟩ := hex
    obtain ⟨h4, ht⟩ := (hacc' a).1 ha
    obtain ⟨st, rfl, hoct, rfl⟩ := ha
    refine .inl ⟨st.tmp, h4, ht, ?_⟩
    rw [hrun]
    dsimp only
    rw [if_neg hoct, store_append (h4.trans hm.symm)]
    rfl
  · refine .inr ⟨fun a h4 ht => hex ⟨a, (hacc' a).2 ⟨h4, ht⟩⟩, ?_⟩
    rw [hrun]
    cases o with
    | none => rfl
    | some st =>
      dsimp only
      rw [if_pos]
      by_contra h4
      exact hex ⟨st.tmp, st, rfl, h4, rfl⟩

/-! ### `inet_ntop4` -/

theorem length_decText (x : UInt8) : (decText x.toNat).length ≤ 3 :=
  (Nat.length_toDigits_le_iff (by decide) (by decide)).2 (Nat.lt_trans x.toNat_lt (by decide))

theorem ne_nul_of_isDecDigit {c : Char} (h : '0' ≤ c ∧ c ≤ '9') : c ≠ nul := by
  rintro rfl
  exact absurd h (by decide)

theorem length_dotTail (as : List UInt8) : (dotTail as).length ≤ 4 * as.length := by
  induction as with
  | nil => simp [dotTail]
  | cons a as ih =>
    have hlen := length_decText a
    simp only [dotTail, List.length_cons, List.length_append]
    omega

theorem length_dottedText (as : List UInt8) : (dottedText as).length ≤ 4 * as.length - 1 := by
  cases as with
  | nil => simp [dottedText]
  | cons a as =>
    have hlen := length_decText a
    have htail := length_dotTail as
    simp only [dottedText, List.length_cons, List.length_append]
    omega

theorem ne_nul_of_mem_dotTail {as : List UInt8} {c : Char} (h : c ∈ dotTail as) : c ≠ nul := by
  induction as with
  | nil => simp [dotTail] at h
  | cons a as ih =>
    simp only [dotTail, List.mem_cons, List.mem_append] at h
    rcases h with rfl | h | h
    · decide
    · exact ne_nul_of_isDecDigit (isDecDigit_of_mem h)
    · exact ih h

theorem ne_nul_of_mem_dottedText {as : List UInt8} {c : Char} (h : c ∈ dottedText as) : c ≠ nul := by
  cases as with
  | nil => simp [dottedText] at h
  | cons a as =>
    rcases List.mem_append.1 h with h | h
    · exact ne_nul_of_isDecDigit (isDecDigit_of_mem h)
    · exact ne_nul_of_mem_dotTail h

section
variable {tmp l m r : Text} {a : List UInt8} {size : Int}

theorem sprintfQuad_eq (h4 : a.length = 4) : sprintfQuad (a ++ rest) = some (dottedText a) := by
  obtain ⟨b, c, d, e, rfl⟩ := List.length_eq_four.1 h4
  simp [sprintfQuad, dottedText, dotTail]

theorem inetNtop4_eq (rest : List UInt8) (htmp : tmp.length = 16) (h4 : a.length = 4) (dst : Text) (off : Nat) (size : Int) :
    inetNtop4 tmp (a ++ rest) dst off size = if size ≤ (dottedText a).length then some (false, dst) else
      (store dst off (dottedText a ++ [nul])).map (true, ·) := by
  have hlen := length_dottedText a
  have hstore : store tmp 0 (dottedText a ++ [nul]) = some (dottedText a ++ [nul] ++ tmp.drop (dottedText a ++ [nul]).length) := by
    refine store_next (l := []) ?_
    rw [List.length_append, List.length_singleton]
    omega
  have hstr : cString (dottedText a ++ [nul] ++ tmp.drop (dottedText a ++ [nul]).length) = dottedText a := by
    rw [List.append_assoc]
    exact cString_append (fun c hc => ne_nul_of_mem_dottedText hc) _
  simp only [inetNtop4, sprintfQuad_eq h4, hstore, hstr, Option.bind_eq_bind, Option.bind_some]
  by_cases hsize : size ≤ (dottedText a).length
  · rw [if_pos hsize, if_pos hsize]
    rfl
  · rw [if_neg hsize, if_neg hsize]
    cases store dst off (dottedText a ++ [nul]) <;> rfl

end

/-- `inet_ntop4` with a buffer of 16 writes the string `s` for the address `a`. -/
def Ntop4Writes (a : Vector UInt8 4) (s : Text) : Prop :=
  ∀ tmp out : Vector Char 16, ∃ out', inetNtop4 tmp.toList a.toList out.toList 0 16 = some (true, out') ∧ cString out' = s

theorem ntop4Writes_iff (a : Vector UInt8 4) (s : Text) : Ntop4Writes a s ↔ s = dottedText a.toList := by
  have hlen := length_dottedText a.toList
  have h4 : a.toList.length = 4 := by simp
  have hrun : ∀ tmp out : Vector Char 16, inetNtop4 tmp.toList a.toList out.toList 0 16 =
      some (true, dottedText a.toList ++ [nul] ++ out.toList.drop (dottedText a.toList ++ [nul]).length) := fun tmp out => by
    have heq := inetNtop4_eq [] tmp.length_toList h4 out.toList 0 16
    rw [List.append_nil, if_neg (by omega)] at heq
    rw [heq, show (0 : Nat) = ([] : Text).length from rfl, ← List.nil_append out.toList, store_next]
    · simp
    · rw [List.length_append, List.length_singleton, Vector.length_toList]
      omega
  have hstr : ∀ r, cString (dottedText a.toList ++ [nul] ++ r) = dottedText a.toList := fun r => by
    rw [List.append_assoc]
    exact cString_append (fun c hc => ne_nul_of_mem_dottedText hc) r
  constructor
  · intro h
    obtain ⟨out', hout, rfl⟩ := h (Vector.replicate 16 nul) (Vector.replicate 16 nul)
    rw [hrun] at hout
    cases hout
    exact hstr _
  · rintro rfl tmp out
    exact ⟨_, hrun tmp out, hstr _⟩

/-- `inet_pton4` accepts a string exactly if `inet_ntop4` writes it for some address, which is then stored in `dst`; for
any other string it returns 0 and `dst` is as before. The strings are four decimal numbers below 256 without leading
zeros, with single dots between them. -/
theorem inetPton4_iff (tmp dst : Vector UInt8 4) (s : Text) :
    ∃ r dst', inetPton4 tmp.toList s dst.toList 0 = some (r, dst') ∧
      (r = 1 ↔ ∃ a, Ntop4Writes a s) ∧ (∀ a, Ntop4Writes a s → dst' = a.toList) ∧
      (r ≠ 1 → r = 0 ∧ dst' = dst.toList) ∧
      ∀ a : Vector UInt8 4, Ntop4Writes a s ↔ s = decText a[0].toNat ++ '.' :: (decText a[1].toNat ++ '.' ::
        (decText a[2].toNat ++ '.' :: decText a[3].toNat)) := by
  have hshape : ∀ a : Vector UInt8 4, Ntop4Writes a s ↔ s = decText a[0].toNat ++ '.' :: (decText a[1].toNat ++ '.' ::
      (decText a[2].toNat ++ '.' :: decText a[3].toNat)) := fun a => by
    rw [ntop4Writes_iff]
    obtain ⟨b, c, d, e, hlist⟩ := List.length_eq_four.1 a.length_toList
    have hget : ∀ i (hi : i < 4), some a[i] = [b, c, d, e][i]? := fun i hi => by
      rw [← hlist]
      simp
    rw [Option.some.inj (hget 0 (by decide)), Option.some.inj (hget 1 (by decide)), Option.some.inj (hget 2 (by decide)),
      Option.some.inj (hget 3 (by decide)), hlist]
    simp [dottedText, dotTail]
  have hrun := inetPton4_run (l := []) (r := []) tmp.length_toList dst.length_toList s
  simp only [List.nil_append, List.append_nil, List.length_nil] at hrun
  rcases hrun with ⟨a, h4, rfl, hrun⟩ | ⟨hno, hrun⟩
  · have hval : ∀ b : Vector UInt8 4, Ntop4Writes b (dottedText a) → a = b.toList := fun b hb =>
      dottedText_inj (List.ne_nil_of_length_eq_add_one h4) (List.ne_nil_of_length_eq_add_one (by simp : b.toList.length = 4))
        ((ntop4Writes_iff b _).1 hb)
    exact ⟨1, a, hrun, ⟨fun _ => ⟨⟨a.toArray, by simpa using h4⟩, (ntop4Writes_iff _ _).2 (by simp)⟩, fun _ => rfl⟩, hval,
      fun h => absurd rfl h, hshape⟩
  · have hnot : ∀ a, ¬Ntop4Writes a s := fun a ha => hno a.toList (by simp) ((ntop4Writes_iff _ _).1 ha).symm
    exact ⟨0, dst.toList, hrun, ⟨fun h => absurd h (by decide), fun ⟨a, ha⟩ => absurd ha (hnot a)⟩,
      fun a ha => absurd ha (hnot a), fun _ => ⟨rfl, rfl⟩, hshape⟩

end Inet

end Aosl
