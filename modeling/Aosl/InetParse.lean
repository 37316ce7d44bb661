import Aosl.InetGrammar

/-!
# `inet_pton6` accepts the texts of addresses

At each place in the text the loop has written the bytes `done`, it has seen the `::` or not, and it is within a token of
which it has read the digits `cur` (`Pton6.Holds`). What it ends with is what may be scanned from the start of the token
on, as long as that fits into the 16 bytes (`pton6Loop_ends`). So the function returns 1 exactly for the texts that denote
an address, which it stores; for any other text it leaves `dst` alone, and it stays in its buffers
(`inetPton6_iff`).
-/

namespace Aosl
open Lib

namespace Inet

theorem cast_byte (w : Nat) : UInt8.ofNat (w &&& 0xff) = UInt8.ofNat (w % 256) := by
  rw [show 0xff = 2 ^ 8 - 1 from rfl, Nat.and_two_pow_sub_one_eq_mod]

theorem hiLo_eq {w : Nat} (h : w < 65536) : [UInt8.ofNat (w >>> 8 &&& 0xff), UInt8.ofNat (w &&& 0xff)] = hiLo w := by
  rw [cast_byte, cast_byte, Nat.shiftRight_eq_div_pow, Nat.mod_eq_of_lt (by omega : w / 2 ^ 8 < 256)]
  rfl

theorem shift_digit {v d : Nat} (hd : d < 16) : v <<< 4 ||| d = 16 * v + d := by
  rw [← Nat.shiftLeft_add_eq_or_of_lt (b := d) (i := 4) (by omega) v, Nat.shiftLeft_eq]
  omega

/-- Where the loop is; `s` is the rest of the text. -/
structure Pton6.Holds (st : Pton6) (done : List UInt8) (colon : Option Nat) (cur s : Text) (junk : List UInt8) : Prop where
  tmp : st.tmp = done ++ junk
  len : done.length + junk.length = 16
  tp : st.tp = done.length
  colonp : st.colonp = colon
  curtok : st.curtok = cur ++ s
  seen : st.xdigitsSeen = cur.length
  short : cur.length ≤ 4
  reads : Reads HexDigit 16 cur st.val

/-- The loop and the last group: `W` is written, and the `::` is at `k`. -/
def Ends (r : Option Pton6) (W : List UInt8) (k : Option Nat) : Prop :=
  ∃ st junk, r = some st ∧ st.tmp = W ++ junk ∧ W.length + junk.length = 16 ∧ st.tp = W.length ∧ st.colonp = k

/-- What is scanned in the text `t` after `done` and `colon` makes `W` and `k`, and fits. -/
def Fits (done : List UInt8) (colon : Option Nat) (t : Text) (W : List UInt8) (k : Option Nat) : Prop :=
  ∃ new k', Scan colon.isSome t new k' ∧ W = done ++ new ∧ k = (k'.map (done.length + ·)).or colon ∧ W.length ≤ 16

theorem not_ends_none (W : List UInt8) (k : Option Nat) : ¬Ends none W k := by
  rintro ⟨st, junk, hst, -⟩
  cases hst

theorem ends_some_iff {st : Pton6} {done junk : List UInt8} {colon : Option Nat} (htmp : st.tmp = done ++ junk)
    (hlen : done.length + junk.length = 16) (htp : st.tp = done.length) (hcolon : st.colonp = colon) (W : List UInt8)
    (k : Option Nat) : Ends (some st) W k ↔ W = done ∧ k = colon := by
  constructor
  · rintro ⟨st', junk', hst, htmp', -, htp', rfl⟩
    cases hst
    exact ⟨(List.append_inj (htmp'.symm.trans htmp) (by omega)).1, hcolon⟩
  · rintro ⟨rfl, rfl⟩
    exact ⟨st, junk, rfl, htmp, hlen, htp, hcolon⟩

/-- The code returns 0, or it ends as `P` says. -/
def Outcome (r : Option Pton6) (P : List UInt8 → Option Nat → Prop) : Prop :=
  (r = none ∨ ∃ W k, Ends r W k) ∧ ∀ W k, Ends r W k ↔ P W k

theorem outcome_none {P : List UInt8 → Option Nat → Prop} (h : ∀ W k, ¬P W k) : Outcome none P :=
  ⟨.inl rfl, fun W k => iff_of_false (not_ends_none W k) (h W k)⟩

theorem Outcome.congr {r : Option Pton6} {P Q : List UInt8 → Option Nat → Prop} (h : Outcome r P)
    (hPQ : ∀ W k, P W k ↔ Q W k) : Outcome r Q := ⟨h.1, fun W k => (h.2 W k).trans (hPQ W k)⟩

theorem outcome_some {st : Pton6} {d j : List UInt8} {c : Option Nat} (htmp : st.tmp = d ++ j)
    (hlen : d.length + j.length = 16) (htp : st.tp = d.length) (hcolon : st.colonp = c) :
    Outcome (some st) fun W k => W = d ∧ k = c :=
  ⟨.inr ⟨d, c, (ends_some_iff htmp hlen htp hcolon _ _).2 ⟨rfl, rfl⟩⟩, ends_some_iff htmp hlen htp hcolon⟩

/-- The loop from `st` on, and the last group. -/
def loopLast (tmp4 : List UInt8) (s : Text) (st : Pton6) : Option (Option Pton6) :=
  (pton6Loop tmp4 s st).bind fun o => match o with
    | none => some none
    | some st => pton6Last st

section
variable {tmp4 : List UInt8} {st : Pton6} {done junk : List UInt8} {colon : Option Nat} {cur s : Text} {ch : Char}

namespace Pton6.Holds

theorem isHex (h : st.Holds done colon cur s junk) : ∀ c ∈ cur, IsHex c := fun c hc =>
  (isHexDigit_iff c).2 (h.reads.digits c hc)

theorem group (h : st.Holds done colon cur s junk) (hne : cur ≠ []) : Group cur st.val := ⟨h.reads, hne, h.short⟩

theorem val_lt (h : st.Holds done colon cur s junk) : st.val < 65536 := by
  have hlt := h.reads.lt fun c d hd => hd.1
  exact hlt.trans_le (Nat.pow_le_pow_right (by decide) h.short)

end Pton6.Holds

theorem Pton6.put_eq (htmp : st.tmp = done ++ junk) (htp : st.tp = done.length) (hval : st.val < 65536)
    (hfit : 2 ≤ junk.length) : st.put = some { st with tmp := done ++ hiLo st.val ++ junk.drop 2, tp := st.tp + 2 } := by
  rw [Pton6.put, hiLo_eq hval, htmp, htp, store_next (by rw [length_hiLo]; exact hfit)]
  rfl

/-- After the last character. -/
theorem pton6Last_ends (h : st.Holds done colon cur [] junk) :
    ∃ r, pton6Last st = some r ∧ Outcome r (Fits done colon cur) := by
  have hlen := h.len
  by_cases hne : cur = []
  · subst hne
    refine ⟨some st, by rw [pton6Last, h.seen]; rfl, (outcome_some h.tmp h.len h.tp h.colonp).congr fun W k => ?_⟩
    constructor
    · rintro ⟨rfl, rfl⟩
      exact ⟨[], none, .done, by simp, by simp, by omega⟩
    · rintro ⟨new, k', hs, rfl, rfl, -⟩
      obtain ⟨rfl, ⟨-, rfl⟩ | ⟨w, hg, -⟩⟩ := (scan_end (by simp)).1 hs
      · exact ⟨by simp, by simp⟩
      · exact absurd rfl hg.2.1
  · have hg := h.group hne
    have hpos : 0 < st.xdigitsSeen := by rw [h.seen]; exact List.length_pos_iff.2 hne
    have hfits : ∀ W k, Fits done colon cur W k ↔ done.length + 2 ≤ 16 ∧ W = done ++ hiLo st.val ∧ k = colon := by
      intro W k
      constructor
      · rintro ⟨new, k', hs, rfl, rfl, hle⟩
        obtain ⟨rfl, ⟨rfl, -⟩ | ⟨w, hg', rfl⟩⟩ := (scan_end h.isHex).1 hs
        · exact absurd rfl hne
        · rw [List.length_append, length_hiLo] at hle
          exact ⟨hle, by rw [hg.unique hg'], by simp⟩
      · rintro ⟨hle, rfl, rfl⟩
        exact ⟨_, none, .group hg, rfl, by simp, by rw [List.length_append, length_hiLo]; exact hle⟩
    by_cases hfit : done.length + 2 ≤ 16
    · refine ⟨some { st with tmp := done ++ hiLo st.val ++ junk.drop 2, tp := st.tp + 2 }, ?_, ?_⟩
      · rw [pton6Last, if_pos hpos, if_neg (by rw [h.tp]; omega), Pton6.put_eq h.tmp h.tp h.val_lt (by omega)]
        rfl
      · refine (outcome_some (d := done ++ hiLo st.val) (j := junk.drop 2) (c := colon) ?_ ?_ ?_ ?_).congr
          fun W k => by rw [hfits, and_iff_right hfit]
        · rfl
        · rw [List.length_append, length_hiLo, List.length_drop]
          omega
        · rw [List.length_append, length_hiLo, h.tp]
        · exact h.colonp
    · refine ⟨none, ?_, outcome_none fun W k hf => hfit ((hfits W k).1 hf).1⟩
      rw [pton6Last, if_pos hpos, if_pos (by rw [h.tp]; omega)]
      rfl

theorem fits_dot {t : Text} (hcur : ∀ c ∈ cur, IsHex c) (W : List UInt8) (k : Option Nat) :
    Fits done colon (cur ++ '.' :: t) W k ↔ done.length + 4 ≤ 16 ∧
      ∃ a, a.length = 4 ∧ dottedText a = cur ++ '.' :: t ∧ W = done ++ a ∧ k = colon := by
  constructor
  · rintro ⟨new, k', hs, rfl, rfl, hle⟩
    obtain ⟨rfl, h4, ht⟩ := (scan_dot hcur).1 hs
    rw [List.length_append, h4] at hle
    exact ⟨hle, new, h4, ht, rfl, by simp⟩
  · rintro ⟨hle, a, h4, ht, rfl, rfl⟩
    exact ⟨a, none, (scan_dot hcur).2 ⟨rfl, h4, ht⟩, rfl, by simp, by rw [List.length_append, h4]; exact hle⟩

theorem fits_colon {t : Text} (W : List UInt8) (k : Option Nat) :
    Fits done colon (':' :: t) W k ↔ colon = none ∧ Fits done (some done.length) t W k := by
  constructor
  · rintro ⟨new, k', hs, rfl, rfl, hle⟩
    obtain ⟨hseen, hnew, rfl⟩ := scan_colon.1 hs
    obtain rfl : colon = none := by simpa using hseen
    exact ⟨rfl, new, none, hnew, rfl, by simp, hle⟩
  · rintro ⟨rfl, new, k', hs, rfl, rfl, hle⟩
    obtain rfl : k' = none := hs.of_seen
    exact ⟨new, some 0, scan_colon.2 ⟨rfl, hs, rfl⟩, rfl, by simp, hle⟩

theorem fits_group {t : Text} {w : Nat} (hg : Group cur w) (W : List UInt8) (k : Option Nat) :
    Fits done colon (cur ++ ':' :: t) W k ↔ t ≠ [] ∧ Fits (done ++ hiLo w) colon t W k := by
  have hcomp : ∀ k' : Option Nat, (k'.map (2 + ·)).map (done.length + ·) = k'.map ((done ++ hiLo w).length + ·) := by
    intro k'
    cases k' with
    | none => rfl
    | some p => simp [Nat.add_assoc]
  constructor
  · rintro ⟨new, k', hs, rfl, rfl, hle⟩
    obtain ⟨hne, w', bs', k'', hg', hrest, rfl, rfl⟩ := (scan_group hg.isHex hg.2.1).1 hs
    obtain rfl := hg.unique hg'
    rw [← List.append_assoc] at hle ⊢
    exact ⟨hne, bs', k'', hrest, rfl, by rw [hcomp], hle⟩
  · rintro ⟨hne, new, k', hs, rfl, rfl, hle⟩
    refine ⟨hiLo w ++ new, k'.map (2 + ·), (scan_group hg.isHex hg.2.1).2 ⟨hne, w, new, k', hg, hs, rfl, rfl⟩, ?_, ?_, hle⟩
    · rw [List.append_assoc]
    · rw [hcomp]

theorem le_of_fits {t : Text} {W : List UInt8} {k : Option Nat} (h : Fits done colon t W k) : done.length ≤ 16 := by
  obtain ⟨new, -, -, rfl, -, hle⟩ := h
  rw [List.length_append] at hle
  omega

/-- From any place in the text on. -/
theorem pton6Loop_ends (htmp4 : tmp4.length = 4) (h : st.Holds done colon cur s junk) :
    ∃ r, loopLast tmp4 s st = some r ∧ Outcome r (Fits done colon (cur ++ s)) := by
  induction s generalizing st done colon cur junk with
  | nil =>
    obtain ⟨r, hr, hends⟩ := pton6Last_ends h
    exact ⟨r, hr, by rwa [List.append_nil]⟩
  | cons ch s ih =>
    have hlen := h.len
    have hnone : (∀ W k, ¬Fits done colon (cur ++ ch :: s) W k) → pton6Loop tmp4 (ch :: s) st = some none →
        ∃ r, loopLast tmp4 (ch :: s) st = some r ∧ Outcome r (Fits done colon (cur ++ ch :: s)) :=
      fun hno hrun => ⟨none, by rw [loopLast, hrun]; rfl, outcome_none hno⟩
    by_cases hhex : 0 ≤ hexDigitValue ch
    · -- a digit of the current group
      obtain ⟨d, hd⟩ := (isHexDigit_iff ch).1 hhex
      by_cases h4 : st.xdigitsSeen = 4
      · refine hnone (fun W k => ?_) (by rw [pton6Loop, if_pos hhex, if_pos h4])
        rintro ⟨new, k', hs, -⟩
        rw [show cur ++ ch :: s = cur ++ [ch] ++ s by simp] at hs
        refine not_scan_long (fun c hc => ?_) ?_ hs
        · rcases List.mem_append.1 hc with hc | hc
          · exact h.isHex c hc
          · obtain rfl := List.mem_singleton.1 hc
            exact hhex
        · have hseen := h.seen
          rw [List.length_append, List.length_singleton]
          omega
      · have hval : st.val <<< 4 ||| (hexDigitValue ch).toNat = 16 * st.val + d := by
          rw [hd.value, Int.toNat_natCast, shift_digit hd.1]
        have hshort : (cur ++ [ch]).length ≤ 4 := by
          have hseen := h.seen
          have hle := h.short
          rw [List.length_append, List.length_singleton]
          omega
        have hreads : Reads HexDigit 16 (cur ++ [ch]) (16 * st.val + d) := h.reads.snoc hd
        have hlt : 16 * st.val + d < 65536 :=
          (hreads.lt fun c d hd => hd.1).trans_le (Nat.pow_le_pow_right (by decide) hshort)
        have hnext : Pton6.Holds { st with val := 16 * st.val + d, xdigitsSeen := st.xdigitsSeen + 1 } done colon
            (cur ++ [ch]) s junk :=
          ⟨h.tmp, h.len, h.tp, h.colonp, by rw [h.curtok]; simp, by simp [h.seen], hshort, hreads⟩
        obtain ⟨r, hr, hends⟩ := ih hnext
        refine ⟨r, ?_, hends.congr fun W k => by rw [List.append_assoc]; rfl⟩
        rw [loopLast, pton6Loop, if_pos hhex, if_neg h4]
        dsimp only
        rw [hval, if_neg (by omega)]
        exact hr
    by_cases hcolon : ch = ':'
    · subst hcolon
      by_cases hcur : cur = []
      · -- the second colon of a `::`
        subst hcur
        have h0 : st.xdigitsSeen = 0 := h.seen
        cases hc : colon with
        | some p =>
          subst hc
          refine hnone (fun W k hf => ?_) ?_
          · obtain ⟨hno, -⟩ := (fits_colon W k).1 hf
            cases hno
          · rw [pton6Loop, if_neg hhex, if_pos rfl]
            dsimp only
            rw [if_pos h0, h.colonp]
            rfl
        | none =>
          subst hc
          have hnext : Pton6.Holds { st with curtok := s, colonp := some st.tp } done (some done.length) [] s junk :=
            ⟨h.tmp, h.len, h.tp, by rw [h.tp], rfl, h0, Nat.zero_le 4, h.reads⟩
          obtain ⟨r, hr, hends⟩ := ih hnext
          refine ⟨r, ?_, hends.congr fun W k => by rw [List.nil_append, List.nil_append, fits_colon, and_iff_right rfl]⟩
          rw [loopLast, pton6Loop, if_neg hhex, if_pos rfl]
          dsimp only
          rw [if_pos h0, h.colonp]
          exact hr
      · -- the colon after a group
        have hg := h.group hcur
        have h0 : st.xdigitsSeen ≠ 0 := by
          rw [h.seen]
          exact fun hz => hcur (List.length_eq_zero_iff.1 hz)
        by_cases hs : s = []
        · refine hnone (fun W k hf => ((fits_group hg W k).1 hf).1 hs) ?_
          rw [pton6Loop, if_neg hhex, if_pos rfl]
          dsimp only
          rw [if_neg h0, if_pos hs]
        by_cases hfit : done.length + 2 ≤ 16
        · have hput : Pton6.put { st with curtok := s } = _ := Pton6.put_eq h.tmp h.tp h.val_lt (by omega)
          have hnext : Pton6.Holds ⟨done ++ hiLo st.val ++ junk.drop 2, st.tp + 2, st.colonp, s, 0, 0⟩ (done ++ hiLo st.val)
              colon [] s (junk.drop 2) :=
            ⟨rfl, by rw [List.length_append, length_hiLo, List.length_drop]; omega,
              by rw [List.length_append, length_hiLo, h.tp], h.colonp, rfl, rfl, Nat.zero_le 4, .nil⟩
          obtain ⟨r, hr, hends⟩ := ih hnext
          refine ⟨r, ?_, hends.congr fun W k => by rw [fits_group hg, and_iff_right hs, List.nil_append]⟩
          rw [loopLast, pton6Loop, if_neg hhex, if_pos rfl]
          dsimp only
          rw [if_neg h0, if_neg hs, if_neg (by rw [h.tp]; omega), hput]
          exact hr
        · refine hnone (fun W k hf => ?_) ?_
          · have hle := le_of_fits ((fits_group hg W k).1 hf).2
            rw [List.length_append, length_hiLo] at hle
            exact hfit hle
          · rw [pton6Loop, if_neg hhex, if_pos rfl]
            dsimp only
            rw [if_neg h0, if_neg hs, if_pos (by rw [h.tp]; omega)]
    by_cases hdot : ch = '.'
    · subst hdot
      by_cases hfit : done.length + 4 ≤ 16
      · have hjunk : junk = junk.take 4 ++ junk.drop 4 := (List.take_append_drop _ _).symm
        have hlen4 : (junk.take 4).length = 4 := by rw [List.length_take]; omega
        have htmp : st.tmp = done ++ junk.take 4 ++ junk.drop 4 := by rw [h.tmp, List.append_assoc, ← hjunk]
        have htest : '.' = '.' ∧ st.tp + 4 ≤ 16 := ⟨rfl, by rw [h.tp]; exact hfit⟩
        rcases inetPton4_run (l := done) (r := junk.drop 4) htmp4 hlen4 st.curtok with ⟨a, ha4, ht, hrun⟩ | ⟨hno, hrun⟩
        · refine ⟨some { st with tmp := done ++ a ++ junk.drop 4, tp := st.tp + 4, xdigitsSeen := 0 }, ?_, ?_⟩
          · rw [loopLast, pton6Loop, if_neg hhex, if_neg hcolon, if_pos htest, htmp, h.tp, hrun]
            simp only [Option.bind_eq_bind, Option.bind_some, pton6Last]
            rfl
          · rw [h.curtok] at ht
            refine (outcome_some (d := done ++ a) (j := junk.drop 4) (c := colon) ?_ ?_ ?_ ?_).congr fun W k => ?_
            · rfl
            · rw [List.length_append, ha4, List.length_drop]
              omega
            · rw [List.length_append, ha4, h.tp]
            · exact h.colonp
            rw [fits_dot h.isHex]
            constructor
            · rintro ⟨rfl, rfl⟩
              exact ⟨hfit, a, ha4, ht, rfl, rfl⟩
            · rintro ⟨-, a', ha4', ht', rfl, rfl⟩
              rw [dottedText_inj (List.ne_nil_of_length_eq_add_one ha4) (List.ne_nil_of_length_eq_add_one ha4')
                (ht.trans ht'.symm)]
              exact ⟨rfl, rfl⟩
        · refine hnone (fun W k hf => ?_) ?_
          · obtain ⟨-, a, ha4, ht, -⟩ := (fits_dot h.isHex W k).1 hf
            exact hno a ha4 (by rw [ht, h.curtok])
          · rw [pton6Loop, if_neg hhex, if_neg hcolon, if_pos htest, htmp, h.tp, hrun]
            rfl
      · refine hnone (fun W k hf => hfit ((fits_dot h.isHex W k).1 hf).1) ?_
        rw [pton6Loop, if_neg hhex, if_neg hcolon, if_neg]
        rw [h.tp]
        exact fun hc => hfit hc.2
    · refine hnone (fun W k => ?_) ?_
      · rintro ⟨new, k', hs, -⟩
        exact not_scan_other h.isHex hhex hcolon hdot hs
      · rw [pton6Loop, if_neg hhex, if_neg hcolon, if_neg fun hc => hdot hc.1]

end

/-! ### The zeros, and the result -/

/-- The function from `pton6Expand` on. -/
def finish (st : Pton6) (dst : List UInt8) : Option (Nat × List UInt8) := do
  let some st ← pton6Expand st | return (0, dst)
  if st.tp ≠ 16 then
    return (0, dst)
  let dst ← store dst 0 st.tmp
  return (1, dst)

theorem pton6From_eq (tmp4 : List UInt8) (s : Text) (st : Pton6) (dst : List UInt8) :
    pton6From tmp4 s st dst = (loopLast tmp4 s st).bind fun o => match o with
      | none => some (0, dst)
      | some st => finish st dst := by
  rw [pton6From, loopLast]
  cases pton6Loop tmp4 s st with
  | none => rfl
  | some o =>
    cases o with
    | none => rfl
    | some st =>
      dsimp only [Option.bind_eq_bind, Option.bind_some]
      cases pton6Last st with
      | none => rfl
      | some o =>
        cases o with
        | none => rfl
        | some st => rfl

section
variable {st : Pton6} {W junk dst : List UInt8} {p : Nat}

theorem pton6Expand_eq (htmp : st.tmp = W ++ junk) (hlen : W.length + junk.length = 16) (htp : st.tp = W.length)
    (hk : st.colonp = some p) (hp : p ≤ W.length) (hne : W.length ≠ 16) :
    pton6Expand st = some (some { st with tmp := widen (W.take p) (W.drop p), tp := 16 }) := by
  have hmoved : (st.tmp.drop p).take (W.length - p) = W.drop p := by
    rw [htmp, List.drop_append_of_le_length hp, List.take_left' (List.length_drop ..)]
  have hpart : st.tmp.take (16 - (W.length - p)) = W.take p ++ (st.tmp.take (16 - (W.length - p))).drop p := by
    have htake : (st.tmp.take (16 - (W.length - p))).take p = W.take p := by
      rw [List.take_take, Nat.min_eq_left (by omega), htmp, List.take_append_of_le_length hp]
    rw [← htake, List.take_append_drop]
  have hmove : store st.tmp (16 - (W.length - p)) (W.drop p) =
      some (W.take p ++ (st.tmp.take (16 - (W.length - p))).drop p ++ W.drop p) := by
    have hlenTmp : st.tmp.length = 16 := by rw [htmp, List.length_append, hlen]
    have hrest : st.tmp.drop (16 - (W.length - p) + (W.drop p).length) = [] :=
      List.drop_of_length_le (by rw [List.length_drop, hlenTmp]; omega)
    rw [store, if_pos (by rw [List.length_drop, hlenTmp]; omega), ← hpart, hrest, List.append_nil]
  have hzeros : store (W.take p ++ (st.tmp.take (16 - (W.length - p))).drop p ++ W.drop p) p
      (List.replicate (16 - (W.length - p) - p) 0) = some (widen (W.take p) (W.drop p)) := by
    have hlenTmp : st.tmp.length = 16 := by rw [htmp, List.length_append, hlen]
    have hstore := store_append (l := W.take p) (m := (st.tmp.take (16 - (W.length - p))).drop p)
      (n := List.replicate (16 - (W.length - p) - p) (0 : UInt8)) (r := W.drop p)
      (by rw [List.length_replicate, List.length_drop, List.length_take, hlenTmp]; omega)
    rw [List.length_take, Nat.min_eq_left hp] at hstore
    rw [hstore, widen, List.length_take, List.length_drop, Nat.min_eq_left hp]
    congr 4
    omega
  rw [pton6Expand, hk]
  dsimp only
  rw [if_neg (by rw [htp]; exact hne), htp, hmoved, hmove]
  dsimp only [Option.bind_eq_bind, Option.bind_some]
  rw [hzeros]
  rfl

/-- Where `W` was written with the `::` at `k`. -/
theorem finish_eq {k : Option Nat} (htmp : st.tmp = W ++ junk) (hlen : W.length + junk.length = 16)
    (htp : st.tp = W.length) (hk : st.colonp = k) (hp : ∀ p ∈ k, p ≤ W.length) (hdst : dst.length = 16) :
    (Complete W k → finish st dst = some (1, finished W k)) ∧ (¬Complete W k → finish st dst = some (0, dst)) := by
  cases k with
  | none =>
    have hexpand : pton6Expand st = some (some st) := by rw [pton6Expand, hk]; rfl
    constructor
    · intro h16
      have h16 : W.length = 16 := h16
      obtain rfl : junk = [] := List.length_eq_zero_iff.1 (by omega)
      rw [List.append_nil] at htmp
      rw [finish, hexpand]
      dsimp only [Option.bind_eq_bind, Option.bind_some]
      rw [if_neg (by omega), store_fill (by rw [htmp, h16, hdst]), htmp]
      rfl
    · intro h16
      have h16 : W.length ≠ 16 := h16
      rw [finish, hexpand]
      dsimp only [Option.bind_eq_bind, Option.bind_some]
      rw [if_pos (by omega)]
      rfl
  | some p =>
    constructor
    · intro hne
      have hlenFin : (widen (W.take p) (W.drop p)).length = 16 := by
        have hle := hp p rfl
        rw [widen, List.length_append, List.length_append, List.length_replicate, List.length_take, List.length_drop]
        omega
      rw [finish, pton6Expand_eq htmp hlen htp hk (hp p rfl) hne]
      dsimp only [Option.bind_eq_bind, Option.bind_some]
      rw [if_neg (by decide), store_fill (hlenFin.trans hdst.symm)]
      rfl
    · intro heq
      have h16 : W.length = 16 := by
        by_contra hne
        exact heq hne
      have hexpand : pton6Expand st = some none := by
        rw [pton6Expand, hk]
        dsimp only
        rw [if_pos (by omega)]
        rfl
      rw [finish, hexpand]
      rfl

/-- The function from the start of the first token on. -/
theorem pton6From_run {tmp4 dst : List UInt8} (htmp4 : tmp4.length = 4) (hdst : dst.length = 16) (t : Text) :
    (∀ W k, Scan false t W k → W.length ≤ 16 → Complete W k →
      pton6From tmp4 t ⟨List.replicate 16 0, 0, none, t, 0, 0⟩ dst = some (1, finished W k)) ∧
    ((∀ W k, Scan false t W k → W.length ≤ 16 → ¬Complete W k) →
      pton6From tmp4 t ⟨List.replicate 16 0, 0, none, t, 0, 0⟩ dst = some (0, dst)) := by
  have hholds : Pton6.Holds ⟨List.replicate 16 0, 0, none, t, 0, 0⟩ [] none [] t (List.replicate 16 0) :=
    ⟨rfl, rfl, rfl, rfl, rfl, rfl, Nat.zero_le 4, .nil⟩
  obtain ⟨r, hr, htotal, hends⟩ := pton6Loop_ends htmp4 hholds
  have hiff : ∀ W k, Ends r W k ↔ Scan false t W k ∧ W.length ≤ 16 := by
    intro W k
    rw [hends, List.nil_append]
    constructor
    · rintro ⟨new, k', hs, rfl, rfl, hle⟩
      exact ⟨by simpa using hs, hle⟩
    · rintro ⟨hs, hle⟩
      exact ⟨W, k, hs, rfl, by simp, hle⟩
  have hle : ∀ {W k}, Scan false t W k → ∀ p ∈ k, p ≤ W.length := by
    intro W k hs p hp
    obtain rfl : k = some p := hp
    obtain ⟨l, rt, bl, br, -, -, rfl, rfl, -⟩ := scan_some_iff.1 hs
    rw [List.length_append]
    omega
  rw [pton6From_eq, hr, Option.bind_some]
  obtain rfl | ⟨W, k, hend⟩ := htotal
  · exact ⟨fun W k hs h16 => absurd ((hiff W k).2 ⟨hs, h16⟩) (not_ends_none W k), fun _ => rfl⟩
  · obtain ⟨hs, h16⟩ := (hiff W k).1 hend
    obtain ⟨st, junk, rfl, htmp, hlen, htp, hk⟩ := hend
    obtain ⟨hyes, hno⟩ := finish_eq htmp hlen htp hk (hle hs) hdst
    refine ⟨fun W' k' hs' h16' hc' => ?_, fun hnone => hno (hnone W k hs h16)⟩
    obtain ⟨rfl, rfl⟩ := (ends_some_iff htmp hlen htp hk W' k').1 ((hiff W' k').2 ⟨hs', h16'⟩)
    exact hyes hc'

end

section
variable {tmp4 dst : List UInt8} {s : Text} {bs : List UInt8}

theorem inetPton6_eq (hne : s ≠ []) :
    inetPton6 tmp4 (if s.head? = some ':' then ':' :: s else s) dst =
      pton6From tmp4 s ⟨List.replicate 16 0, 0, none, s, 0, 0⟩ dst := by
  by_cases hcolon : s.head? = some ':'
  · rw [if_pos hcolon, inetPton6]
    dsimp only
    rw [if_pos rfl, if_pos hcolon]
  · rw [if_neg hcolon]
    cases s with
    | nil => exact absurd rfl hne
    | cons ch rest =>
      rw [inetPton6]
      dsimp only
      rw [if_neg fun hch => hcolon (congrArg some hch)]

theorem inetPton6_denotes (htmp4 : tmp4.length = 4) (hdst : dst.length = 16) (h : Denotes s bs) :
    inetPton6 tmp4 s dst = some (1, bs) := by
  obtain ⟨t, W, k, rfl, hne, hs, h16, hc, rfl⟩ := scan_of_denotes h
  rw [inetPton6_eq hne]
  exact (pton6From_run htmp4 hdst t).1 W k hs h16 hc

theorem inetPton6_rejects (htmp4 : tmp4.length = 4) (hdst : dst.length = 16) (h : ∀ bs, ¬Denotes s bs) :
    inetPton6 tmp4 s dst = some (0, dst) := by
  have hfrom : ∀ t, s = (if t.head? = some ':' then ':' :: t else t) → t ≠ [] → inetPton6 tmp4 s dst = some (0, dst) := by
    intro t ht hne
    rw [ht, inetPton6_eq hne]
    refine (pton6From_run htmp4 hdst t).2 fun W k hs h16 hc => h (finished W k) ?_
    rw [ht]
    exact denotes_of_scan hs h16 hc
  cases s with
  | nil => rfl
  | cons ch rest =>
    by_cases hch : ch = ':'
    · subst hch
      by_cases hrest : rest.head? = some ':'
      · refine hfrom rest (by rw [if_pos hrest]) ?_
        rintro rfl
        cases hrest
      · rw [inetPton6]
        dsimp only
        rw [if_pos rfl, if_neg hrest]
    · refine hfrom (ch :: rest) (by rw [if_neg (by simpa using hch)]) (List.cons_ne_nil _ _)

end

/-- `inet_pton6` accepts a string exactly if it denotes an address, which is then stored in `dst`; for any other string it
returns 0 and `dst` is as before. It stays in its buffers. -/
theorem inetPton6_iff (tmp4 : Vector UInt8 4) (dst : Vector UInt8 16) (s : Text) :
    ∃ r dst', inetPton6 tmp4.toList s dst.toList = some (r, dst') ∧ (r = 1 ↔ ∃ bs, Denotes s bs) ∧
      (∀ bs, Denotes s bs → dst' = bs) ∧ (r ≠ 1 → r = 0 ∧ dst' = dst.toList) := by
  have htmp4 : tmp4.toList.length = 4 := by simp
  have hdst : dst.toList.length = 16 := by simp
  by_cases hex : ∃ bs, Denotes s bs
  · obtain ⟨bs, hbs⟩ := hex
    have hrun := inetPton6_denotes htmp4 hdst hbs
    refine ⟨1, bs, hrun, ⟨fun _ => ⟨bs, hbs⟩, fun _ => rfl⟩, fun bs' hbs' => ?_, fun h => absurd rfl h⟩
    have hrun' := inetPton6_denotes htmp4 hdst hbs'
    exact (Prod.mk.inj (Option.some.inj (hrun.symm.trans hrun'))).2
  · have hrun := inetPton6_rejects htmp4 hdst fun bs hbs => hex ⟨bs, hbs⟩
    exact ⟨0, dst.toList, hrun, ⟨fun h => absurd h (by decide), fun h => absurd h hex⟩, fun bs hbs => absurd ⟨bs, hbs⟩ hex,
      fun _ => ⟨rfl, rfl⟩⟩

end Inet

end Aosl
