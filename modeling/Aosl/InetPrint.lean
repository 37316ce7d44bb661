import Aosl.InetParse

/-!
# `inet_ntop6` and back

The run of zeros that `inet_ntop6` leaves out consists of zeros and is two words long at least (`bestRun_spec`). Whatever
run of zeros that is, the loop writes the text `pieces`, without leaving its buffer of 46 characters (`ntop6Loop_run`),
and this text denotes the address (`ntop6Text_denotes`): so `inet_pton6` reads it back (`ntop6_pton6`).
-/

namespace Aosl
open Lib

namespace Inet

/-! ### Words -/

theorem word_eq (a b : UInt8) : (a.toNat <<< 8) ||| b.toNat = 256 * a.toNat + b.toNat := by
  rw [← Nat.shiftLeft_add_eq_or_of_lt b.toNat_lt, Nat.shiftLeft_eq]
  omega

theorem hiLo_word (a b : UInt8) : hiLo (256 * a.toNat + b.toNat) = [a, b] := by
  have ha := a.toNat_lt
  have hb := b.toNat_lt
  have hhi : (256 * a.toNat + b.toNat) / 256 = a.toNat := by omega
  have hlo : (256 * a.toNat + b.toNat) % 256 = b.toNat := by omega
  rw [hiLo, hhi, hlo, UInt8.ofNat_toNat, UInt8.ofNat_toNat]

theorem wordsOf_spec (n : Nat) (bs : List UInt8) (h : bs.length = 2 * n) :
    (wordsOf bs).flatMap hiLo = bs ∧ (wordsOf bs).length = n ∧ ∀ w ∈ wordsOf bs, w < 65536 := by
  induction n generalizing bs with
  | zero =>
    obtain rfl := List.length_eq_zero_iff.1 h
    exact ⟨rfl, rfl, by simp [wordsOf]⟩
  | succ n ih =>
    match bs, h with
    | a :: b :: bs, h =>
      obtain ⟨hflat, hlen, hlt⟩ := ih bs (by simp only [List.length_cons] at h; omega)
      have ha := a.toNat_lt
      have hb := b.toNat_lt
      rw [wordsOf, word_eq]
      refine ⟨?_, by rw [List.length_cons, hlen], List.forall_mem_cons.2 ⟨by omega, hlt⟩⟩
      rw [List.flatMap_cons, hiLo_word, hflat]
      rfl

theorem hexText_reads (w : Nat) : Reads HexDigit 16 (hexText w) w :=
  reads_toDigits (by decide) (fun d hd => ⟨hd, .inl rfl⟩) w

theorem length_hexText {w : Nat} (h : w < 65536) : (hexText w).length ≤ 4 :=
  (Nat.length_toDigits_le_iff (by decide) (by decide)).2 h

theorem group_hexText {w : Nat} (h : w < 65536) : Group (hexText w) w :=
  ⟨hexText_reads w, Nat.toDigits_ne_nil, length_hexText h⟩

theorem ne_nul_of_isHex {c : Char} (h : IsHex c) : c ≠ nul := by
  rintro rfl
  exact absurd h (by rw [IsHex]; decide)

/-! ### The run of zeros -/

/-- There is no run, or it consists of zeros. -/
def ZeroRun.Zeros (words : List Nat) (r : ZeroRun) : Prop :=
  r.base = -1 ∨ ∃ b l : Nat, r = ⟨b, l⟩ ∧ ∀ k, b ≤ k → k < b + l → words[k]? = some 0

theorem better_zeros {words : List Nat} {best cur : ZeroRun} (hbest : best.Zeros words) (hcur : cur.Zeros words) :
    (better best cur).Zeros words := by
  rw [better]
  split
  · exact hcur
  · exact hbest

/-- The loop before the word number `pre.length`, where the current run ends. -/
theorem findRuns_zeros {pre ws : List Nat} {best cur : ZeroRun} (hbest : best.Zeros (pre ++ ws))
    (hcur : cur.base = -1 ∨ ∃ b l : Nat, cur = ⟨b, l⟩ ∧ b + l = pre.length ∧
      ∀ k, b ≤ k → k < b + l → (pre ++ ws)[k]? = some 0) :
    (findRuns ws pre.length best cur).1.Zeros (pre ++ ws) ∧ (findRuns ws pre.length best cur).2.Zeros (pre ++ ws) := by
  have hcurZeros : cur.Zeros (pre ++ ws) := hcur.imp id fun ⟨b, l, h, _, hz⟩ => ⟨b, l, h, hz⟩
  induction ws generalizing pre best cur with
  | nil => exact ⟨hbest, hcurZeros⟩
  | cons w ws ih =>
    have hlen : ((pre.length : Int) + 1) = ((pre ++ [w]).length : Nat) := by simp
    have hsplit : pre ++ w :: ws = pre ++ [w] ++ ws := by simp
    have hget : (pre ++ w :: ws)[pre.length]? = some w := by simp
    rw [findRuns, hlen]
    rw [hsplit] at hbest hcur hcurZeros hget ⊢
    split
    · next hw =>
      subst hw
      split
      · have hone : ∀ k, pre.length ≤ k → k < pre.length + 1 → (pre ++ [0] ++ ws)[k]? = some 0 := fun k hk hk' => by
          obtain rfl : k = pre.length := by omega
          exact hget
        exact ih hbest (.inr ⟨pre.length, 1, rfl, by simp, hone⟩) (.inr ⟨pre.length, 1, rfl, hone⟩)
      · next hbase =>
        obtain ⟨b, l, rfl, hbl, hz⟩ := hcur.resolve_left hbase
        have hmore : ∀ k, b ≤ k → k < b + (l + 1) → (pre ++ [0] ++ ws)[k]? = some 0 := fun k hk hk' => by
          by_cases hlast : k = pre.length
          · rw [hlast]
            exact hget
          · exact hz k hk (by omega)
        have hrun : (⟨b, l + 1⟩ : ZeroRun) = ⟨b, (l + 1 : Nat)⟩ := rfl
        exact ih hbest (.inr ⟨b, l + 1, hrun, by simp; omega, hmore⟩) (.inr ⟨b, l + 1, hrun, hmore⟩)
    · split
      · exact ih (better_zeros hbest hcurZeros) (.inl rfl) (.inl rfl)
      · next hbase =>
        have hnone : cur.base = -1 := not_not.1 hbase
        exact ih hbest (.inl hnone) (.inl hnone)

theorem bestRun_spec (words : List Nat) : (bestRun words).base = -1 ∨ ∃ b l : Nat, bestRun words = ⟨b, l⟩ ∧ 2 ≤ l ∧
    ∀ k, b ≤ k → k < b + l → words[k]? = some 0 := by
  obtain ⟨hbest, hcur⟩ : (findRuns words ([] : List Nat).length ⟨-1, 0⟩ ⟨-1, 0⟩).1.Zeros ([] ++ words) ∧
      (findRuns words ([] : List Nat).length ⟨-1, 0⟩ ⟨-1, 0⟩).2.Zeros ([] ++ words) := findRuns_zeros (.inl rfl) (.inl rfl)
  rw [List.nil_append, List.length_nil] at hbest hcur
  have hrun : ∀ r : ZeroRun, r.Zeros words → (if r.base ≠ -1 ∧ r.len < 2 then { r with base := -1 } else r).base = -1 ∨
      ∃ b l : Nat, (if r.base ≠ -1 ∧ r.len < 2 then { r with base := -1 } else r) = ⟨b, l⟩ ∧ 2 ≤ l ∧
        ∀ k, b ≤ k → k < b + l → words[k]? = some 0 := by
    rintro r (hnone | ⟨b, l, rfl, hz⟩)
    · exact .inl (by rw [if_neg fun h => h.1 hnone, hnone])
    · by_cases hshort : (l : Int) < 2
      · exact .inl (by rw [if_pos ⟨by simp, hshort⟩])
      · exact .inr ⟨b, l, by rw [if_neg fun h => hshort h.2], by omega, hz⟩
  rw [bestRun]
  dsimp only
  split
  · exact hrun _ (better_zeros hbest hcur)
  · exact hrun _ hbest

/-! ### The text -/

def colonIf (c : Bool) : Text := if c then [':'] else []

theorem length_colonIf (c : Bool) : (colonIf c).length ≤ 1 := by cases c <;> decide

/-- What the loop writes from the word number `i` on. -/
def pieces (src : List UInt8) (words : List Nat) (best : ZeroRun) : List Nat → Nat → Text
  | [], _ => []
  | w :: ws, i =>
    if best.covers i then
      colonIf (best.base = i) ++ pieces src words best ws (i + 1)
    else
      colonIf (i ≠ 0) ++ (if best.embeds words i then dottedText (src.drop 12)
        else hexText w ++ pieces src words best ws (i + 1))

section
variable {src : List UInt8} {words ws : List Nat} {best : ZeroRun} {i : Nat} {w : Nat}

theorem ne_nul_of_mem_colonIf {p : Bool} {c : Char} (h : c ∈ colonIf p) : c ≠ nul := by
  cases p with
  | false => cases h
  | true =>
    obtain rfl := List.mem_singleton.1 h
    decide

theorem ne_nul_of_mem_pieces {c : Char} (h : c ∈ pieces src words best ws i) : c ≠ nul := by
  induction ws generalizing i with
  | nil => cases h
  | cons w ws ih =>
    rw [pieces] at h
    split at h
    · rcases List.mem_append.1 h with h | h
      · exact ne_nul_of_mem_colonIf h
      · exact ih h
    · rcases List.mem_append.1 h with h | h
      · exact ne_nul_of_mem_colonIf h
      · split at h
        · exact ne_nul_of_mem_dottedText h
        · rcases List.mem_append.1 h with h | h
          · exact ne_nul_of_isHex ((isHexDigit_iff c).2 ((hexText_reads w).digits c h))
          · exact ih h

theorem embeds_iff : best.embeds words i = true ↔ i = 6 ∧ best.base = 0 ∧
    (best.len = 6 ∨ best.len = 5 ∧ words[5]? = some 0xffff) := by
  simp [ZeroRun.embeds]

theorem covers_iff : best.covers i = true ↔ best.base ≠ -1 ∧ best.base ≤ i ∧ (i : Int) < best.base + best.len := by
  simp [ZeroRun.covers]

theorem putColon_run {done junk : Text} (c : Bool) (hlen : done.length + junk.length = 46) (hroom : done.length < 46) :
    ∃ junk', putColon c (done ++ junk) done.length = some (done ++ colonIf c ++ junk', (done ++ colonIf c).length) ∧
      (done ++ colonIf c).length + junk'.length = 46 := by
  cases c with
  | false => exact ⟨junk, by simp [putColon, colonIf], by simpa [colonIf] using hlen⟩
  | true =>
    have hstore : store (done ++ junk) done.length [':'] = some (done ++ [':'] ++ junk.drop 1) :=
      store_next (m := [':']) (by rw [List.length_singleton]; omega)
    refine ⟨junk.drop 1, ?_, ?_⟩
    · rw [putColon, if_pos rfl, hstore]
      simp [colonIf]
    · simp only [colonIf, if_true, List.length_append, List.length_singleton, List.length_drop]
      omega

/-- The loop writes `pieces`. Up to the word number `i` it has written less than five characters for each word, so that
the buffer is large enough, also for a dotted quad and for the colon after a run at the end. -/
theorem ntop6Loop_run (words : List Nat) (best : ZeroRun) {tmp4 : Text} {done junk : Text} (htmp4 : tmp4.length = 16) (hsrc : src.length = 16)
    (hws : ∀ w ∈ ws, w < 65536) (hi : i + ws.length = 8) (hlen : done.length + junk.length = 46)
    (hdone : i = 0 ∧ done = [] ∨ 0 < i ∧ done.length + 1 ≤ 5 * i) :
    ∃ junk', ntop6Loop tmp4 src words best ws i (done ++ junk) done.length =
        some (some (done ++ pieces src words best ws i ++ junk', (done ++ pieces src words best ws i).length)) ∧
      (done ++ pieces src words best ws i).length + junk'.length = 46 ∧
      ((done ++ pieces src words best ws i).length ≤ 39 ∨
        (done ++ pieces src words best ws i).length ≤ 45 ∧ best.base + best.len ≠ 8) := by
  induction ws generalizing i done junk with
  | nil =>
    rw [List.length_nil] at hi
    refine ⟨junk, by rw [ntop6Loop, pieces, List.append_nil], by rw [pieces, List.append_nil]; exact hlen, .inl ?_⟩
    rw [pieces, List.append_nil]
    omega
  | cons w ws ih =>
    rw [List.length_cons] at hi
    have hwords : ∀ w ∈ ws, w < 65536 := fun w hw => hws w (List.mem_cons_of_mem _ hw)
    have hle : done.length ≤ 5 * i ∧ (0 < i → done.length + 1 ≤ 5 * i) := by
      rcases hdone with ⟨rfl, rfl⟩ | ⟨-, hdone⟩
      · exact ⟨Nat.zero_le _, fun h => absurd h (Nat.lt_irrefl 0)⟩
      · omega
    rw [ntop6Loop, pieces]
    by_cases hcov : best.covers i = true
    · rw [if_pos hcov, if_pos hcov]
      obtain ⟨junk₁, hcolon, hlen₁⟩ := putColon_run (best.base = i) hlen (by omega)
      have hone := length_colonIf (best.base = i)
      have hdone₁ : (done ++ colonIf (best.base = i)).length + 1 ≤ 5 * (i + 1) := by
        rw [List.length_append]
        omega
      obtain ⟨junk', hrun, htotal, hbound⟩ := ih hwords (by omega) hlen₁ (.inr ⟨Nat.succ_pos i, hdone₁⟩)
      refine ⟨junk', ?_, by simpa only [List.append_assoc] using htotal, by simpa only [List.append_assoc] using hbound⟩
      rw [hcolon]
      dsimp only [Option.bind_eq_bind, Option.bind_some]
      rw [hrun]
      simp only [List.append_assoc]
    · rw [if_neg hcov, if_neg hcov]
      obtain ⟨junk₁, hcolon, hlen₁⟩ := putColon_run (i ≠ 0) hlen (by omega)
      have hdone₁ : (done ++ colonIf (i ≠ 0)).length ≤ 5 * i := by
        by_cases hi0 : i = 0
        · rw [colonIf, if_neg (by simpa using hi0), List.append_nil]
          exact hle.1
        · have hone := length_colonIf (i ≠ 0)
          have hpos := hle.2 (Nat.pos_of_ne_zero hi0)
          rw [List.length_append]
          omega
      rw [hcolon]
      dsimp only [Option.bind_eq_bind, Option.bind_some]
      simp only [← List.append_assoc]
      generalize done ++ colonIf (i ≠ 0) = done₁ at hlen₁ hdone₁ ⊢
      by_cases hemb : best.embeds words i = true
      · rw [if_pos hemb, if_pos hemb]
        obtain ⟨rfl, hbase, hlen56⟩ := embeds_iff.1 hemb
        have h4 : (src.drop 12).length = 4 := by rw [List.length_drop, hsrc]
        have hdot := length_dottedText (src.drop 12)
        rw [h4] at hdot
        have hquad := inetNtop4_eq [] htmp4 h4 (done₁ ++ junk₁) done₁.length (46 - done₁.length)
        have hstore : store (done₁ ++ junk₁) done₁.length (dottedText (src.drop 12) ++ [nul]) =
            some (done₁ ++ (dottedText (src.drop 12) ++ [nul]) ++ junk₁.drop (dottedText (src.drop 12) ++ [nul]).length) :=
          store_next (by rw [List.length_append, List.length_singleton]; omega)
        rw [List.append_nil, if_neg (by omega), hstore] at hquad
        rw [hquad]
        simp only [Option.map_some, Option.bind_some, if_true]
        have hstr : cString ((done₁ ++ (dottedText (src.drop 12) ++ [nul]) ++
            junk₁.drop (dottedText (src.drop 12) ++ [nul]).length).drop done₁.length) = dottedText (src.drop 12) := by
          rw [List.append_assoc, List.drop_left, List.append_assoc]
          exact cString_append (fun c hc => ne_nul_of_mem_dottedText hc) _
        rw [hstr]
        refine ⟨nul :: junk₁.drop (dottedText (src.drop 12) ++ [nul]).length, ?_, ?_, .inr ⟨?_, ?_⟩⟩
        · rw [List.length_append]
          simp
        · simp only [List.length_append, List.length_cons, List.length_drop, List.length_nil]
          omega
        · rw [List.length_append]
          omega
        · omega
      · rw [if_neg hemb, if_neg hemb]
        have hw4 := length_hexText (hws w (by simp))
        have hstore : store (done₁ ++ junk₁) done₁.length (hexText w ++ [nul]) =
            some (done₁ ++ (hexText w ++ [nul]) ++ junk₁.drop (hexText w ++ [nul]).length) :=
          store_next (by rw [List.length_append, List.length_singleton]; omega)
        have hlen₂ : (done₁ ++ hexText w).length + (nul :: junk₁.drop (hexText w ++ [nul]).length).length = 46 := by
          simp only [List.length_append, List.length_cons, List.length_drop, List.length_nil]
          omega
        have hdone₂ : (done₁ ++ hexText w).length + 1 ≤ 5 * (i + 1) := by
          rw [List.length_append]
          omega
        obtain ⟨junk', hrun, htotal, hbound⟩ := ih hwords (by omega) hlen₂ (.inr ⟨Nat.succ_pos i, hdone₂⟩)
        have hcells : done₁ ++ (hexText w ++ [nul]) ++ junk₁.drop (hexText w ++ [nul]).length =
            done₁ ++ hexText w ++ nul :: junk₁.drop (hexText w ++ [nul]).length := by simp
        rw [hstore]
        dsimp only [Option.bind_some]
        rw [hcells, ← List.length_append, hrun]
        exact ⟨junk', by simp only [List.append_assoc], by simpa only [List.append_assoc] using htotal,
          by simpa only [List.append_assoc] using hbound⟩

/-! ### What the text denotes -/

theorem length_flatMap_hiLo (ws : List Nat) : (ws.flatMap hiLo).length = 2 * ws.length := by
  induction ws with
  | nil => rfl
  | cons w ws ih =>
    rw [List.flatMap_cons, List.length_append, ih, length_hiLo, List.length_cons]
    omega

theorem flatMap_hiLo_zeros (l : Nat) : (List.replicate l 0).flatMap hiLo = List.replicate (2 * l) 0 := by
  induction l with
  | zero => rfl
  | succ l ih =>
    rw [List.replicate_succ, List.flatMap_cons, ih, Nat.mul_succ, Nat.add_comm, List.replicate_add]
    rfl

/-- From a word after the run, or without a run from the second word on. -/
theorem pieces_tail (hsrc : src.length = 16) (hi : i ≠ 0) (hne : ws ≠ []) (hcov : ∀ k, i ≤ k → ¬best.covers k = true)
    (hrest : ws.flatMap hiLo = src.drop (2 * i)) (hws : ∀ w ∈ ws, w < 65536) :
    ∃ t, pieces src words best ws i = ':' :: t ∧ Groups true t (ws.flatMap hiLo) := by
  induction ws generalizing i with
  | nil => exact absurd rfl hne
  | cons w ws ih =>
    have hw : Group (hexText w) w := group_hexText (hws w (by simp))
    rw [pieces, if_neg (hcov i (Nat.le_refl i)), colonIf, if_pos (by simpa using hi), List.singleton_append]
    refine ⟨_, rfl, ?_⟩
    by_cases hemb : best.embeds words i = true
    · obtain ⟨rfl, -⟩ := embeds_iff.1 hemb
      rw [if_pos hemb, hrest]
      exact .dotted rfl (by rw [List.length_drop, hsrc])
    · rw [if_neg hemb, List.flatMap_cons]
      by_cases hlast : ws = []
      · subst hlast
        simpa [pieces] using Groups.one hw
      · have hdrop : ws.flatMap hiLo = src.drop (2 * (i + 1)) := by
          rw [Nat.mul_succ, ← List.drop_drop, ← hrest, List.flatMap_cons]
          rfl
        obtain ⟨t, ht, hgs⟩ := ih (Nat.succ_ne_zero i) hlast (fun k hk => hcov k (Nat.le_of_succ_le hk)) hdrop
          fun w hw => hws w (List.mem_cons_of_mem _ hw)
        rw [ht]
        exact .cons hw hgs

theorem pieces_head (rest : List Nat) (hbase : best.base ≠ 0) (hne : ws ≠ [])
    (hcov : ∀ k, k < i + ws.length → ¬best.covers k = true) (hws : ∀ w ∈ ws, w < 65536) :
    ∃ t, pieces src words best (ws ++ rest) i = colonIf (i ≠ 0) ++ (t ++ pieces src words best rest (i + ws.length)) ∧
      Groups false t (ws.flatMap hiLo) := by
  have hemb : ∀ k, ¬best.embeds words k = true := fun k h => hbase (embeds_iff.1 h).2.1
  induction ws generalizing i with
  | nil => exact absurd rfl hne
  | cons w ws ih =>
    have hw : Group (hexText w) w := group_hexText (hws w (by simp))
    rw [List.length_cons] at hcov ⊢
    rw [List.cons_append, pieces, if_neg (hcov i (by omega)), if_neg (hemb i), List.flatMap_cons]
    by_cases hlast : ws = []
    · subst hlast
      exact ⟨hexText w, rfl, by simpa using Groups.one hw⟩
    · obtain ⟨t, ht, hgs⟩ := ih (i := i + 1) hlast (fun k hk => hcov k (by omega)) fun w hw => hws w (List.mem_cons_of_mem _ hw)
      refine ⟨hexText w ++ ':' :: t, ?_, .cons hw hgs⟩
      rw [ht, Nat.add_right_comm i 1, Nat.add_assoc i]
      simp [colonIf]

theorem pieces_inside (n : Nat) (rest : List Nat) (hcov : ∀ k, i ≤ k → k < i + n → best.covers k = true)
    (hbase : best.base < i) : pieces src words best (List.replicate n 0 ++ rest) i = pieces src words best rest (i + n) := by
  induction n generalizing i with
  | zero => rfl
  | succ n ih =>
    have hne : ¬best.base = i := by omega
    rw [List.replicate_succ, List.cons_append, pieces, if_pos (hcov i (Nat.le_refl i) (by omega)), colonIf,
      if_neg (by simpa using hne), List.nil_append, ih (fun k hk hk' => hcov k (by omega) (by omega)) (by omega),
      Nat.add_assoc, Nat.add_comm 1]

theorem pieces_run {l : Nat} (rest : List Nat) (hl : 0 < l) (hcov : ∀ k, i ≤ k → k < i + l → best.covers k = true)
    (hbase : best.base = i) :
    pieces src words best (List.replicate l 0 ++ rest) i = ':' :: pieces src words best rest (i + l) := by
  obtain ⟨n, rfl⟩ := Nat.exists_eq_add_one_of_ne_zero hl.ne'
  rw [List.replicate_succ, List.cons_append, pieces, if_pos (hcov i (Nat.le_refl i) (by omega)), colonIf,
    if_pos (by simpa using hbase), pieces_inside _ _ (fun k hk hk' => hcov k (by omega) (by omega)) (by omega),
    Nat.add_assoc, Nat.add_comm 1]
  rfl

theorem split_run {b l : Nat} (hl : 0 < l) (hz : ∀ k, b ≤ k → k < b + l → words[k]? = some 0) :
    words = words.take b ++ (List.replicate l 0 ++ words.drop (b + l)) ∧ b + l ≤ words.length := by
  obtain ⟨hend, -⟩ := List.getElem?_eq_some_iff.1 (hz (b + l - 1) (by omega) (by omega))
  have hmid : (words.drop b).take l = List.replicate l 0 := by
    refine List.eq_replicate_iff.2 ⟨by rw [List.length_take, List.length_drop]; omega, fun w hw => ?_⟩
    obtain ⟨k, hk⟩ := List.mem_iff_getElem?.1 hw
    rw [List.getElem?_take, List.getElem?_drop] at hk
    split at hk
    · next hkl =>
      rw [hz (b + k) (by omega) (by omega)] at hk
      exact (Option.some.inj hk).symm
    · cases hk
  rw [← hmid, ← List.drop_drop, List.take_append_drop, List.take_append_drop]
  exact ⟨rfl, by omega⟩

/-- Everything that is written before the `NUL`. -/
def ntop6Text (src : List UInt8) : Text :=
  let best := bestRun (wordsOf src)
  pieces src (wordsOf src) best (wordsOf src) 0 ++ colonIf (best.base ≠ -1 ∧ best.base + best.len = 8)

theorem ne_nul_of_mem_ntop6Text {c : Char} (h : c ∈ ntop6Text src) : c ≠ nul := by
  rcases List.mem_append.1 h with h | h
  · exact ne_nul_of_mem_pieces h
  · exact ne_nul_of_mem_colonIf h

theorem ntop6Text_denotes (hsrc : src.length = 16) : Denotes (ntop6Text src) src := by
  obtain ⟨hflat, hlen, hlt⟩ := wordsOf_spec 8 src hsrc
  have hrun := bestRun_spec (wordsOf src)
  rw [ntop6Text]
  generalize bestRun (wordsOf src) = best at hrun ⊢
  generalize wordsOf src = words at hflat hlen hlt hrun ⊢
  rcases hrun with hnone | ⟨b, l, rfl, hl, hz⟩
  · have hcov : ∀ k, ¬best.covers k = true := fun k h => (covers_iff.1 h).1 hnone
    obtain ⟨w, ws, rfl⟩ := List.exists_cons_of_length_eq_add_one hlen
    have hne : ws ≠ [] := by
      rintro rfl
      cases hlen
    have hrest : ws.flatMap hiLo = src.drop (2 * 1) := by
      rw [← hflat, List.flatMap_cons]
      rfl
    obtain ⟨t, ht, hgs⟩ : ∃ t, pieces src (w :: ws) best ws 1 = ':' :: t ∧ Groups true t (ws.flatMap hiLo) :=
      pieces_tail hsrc Nat.one_ne_zero hne (fun k _ => hcov k) hrest fun w hw => hlt w (List.mem_cons_of_mem _ hw)
    have hemb : ¬best.embeds (w :: ws) 0 = true := fun h => by cases (embeds_iff.1 h).1
    have hfull := Groups.cons (group_hexText (hlt w (by simp))) hgs
    rw [← List.flatMap_cons, hflat] at hfull
    rw [pieces, if_neg (hcov 0), if_neg hemb, ht, hnone]
    simpa [colonIf] using Denotes.full hfull hsrc
  · obtain ⟨hsplit, hend⟩ := split_run (by omega) hz
    have hcov : ∀ k, ZeroRun.covers ⟨b, l⟩ k = true ↔ b ≤ k ∧ k < b + l := fun k => by
      rw [covers_iff]
      dsimp only
      omega
    have hA : (words.take b).length = b := by rw [List.length_take]; omega
    have hltA : ∀ w ∈ words.take b, w < 65536 := fun w hw => hlt w (List.mem_of_mem_take hw)
    have hltB : ∀ w ∈ words.drop (b + l), w < 65536 := fun w hw => hlt w (List.mem_of_mem_drop hw)
    have hlenB : (words.drop (b + l)).length = 8 - (b + l) := by rw [List.length_drop, hlen]
    have hrest : (words.drop (b + l)).flatMap hiLo = src.drop (2 * (b + l)) := by
      have htake : ((words.take (b + l)).flatMap hiLo).length = 2 * (b + l) := by
        rw [length_flatMap_hiLo, List.length_take]
        omega
      have happ := congrArg (List.flatMap hiLo) (List.take_append_drop (b + l) words)
      rw [List.flatMap_append, hflat] at happ
      rw [← happ, ← htake, List.drop_left]
    generalize words.take b = A at hsplit hA hltA
    generalize words.drop (b + l) = B at hsplit hltB hlenB hrest
    have hbytes : src = widen (A.flatMap hiLo) (B.flatMap hiLo) := by
      rw [widen, length_flatMap_hiLo, length_flatMap_hiLo, hA, hlenB, ← hflat, hsplit, List.flatMap_append,
        List.flatMap_append, flatMap_hiLo_zeros, List.append_assoc]
      congr 3
      omega
    -- the groups after the run, where there are any
    obtain ⟨r, hr, hOptR⟩ : ∃ r, pieces src words ⟨b, l⟩ B (b + l) ++
        colonIf (decide ((b : Int) ≠ -1 ∧ (b : Int) + l = 8)) = ':' :: r ∧ OptGroups true r (B.flatMap hiLo) := by
      by_cases hB : B = []
      · subst hB
        rw [List.length_nil] at hlenB
        exact ⟨[], by rw [pieces, colonIf, if_pos (by rw [decide_eq_true_eq]; omega)]; rfl, .inl ⟨rfl, rfl⟩⟩
      · have hpos := List.length_pos_iff.2 hB
        obtain ⟨t, ht, hgs⟩ : ∃ t, pieces src words ⟨b, l⟩ B (b + l) = ':' :: t ∧ Groups true t (B.flatMap hiLo) :=
          pieces_tail hsrc (by omega) hB (fun k hk h => by have := (hcov k).1 h; omega) hrest hltB
        exact ⟨t, by rw [ht, colonIf, if_neg (by rw [decide_eq_true_eq]; omega), List.append_nil], .inr hgs⟩
    have hmid : pieces src words ⟨b, l⟩ (List.replicate l 0 ++ B) b = ':' :: pieces src words ⟨b, l⟩ B (b + l) :=
      pieces_run B (by omega) (fun k hk hk' => (hcov k).2 ⟨hk, hk'⟩) rfl
    by_cases hA0 : A = []
    · subst hA0
      obtain rfl : 0 = b := hA
      have helided := Denotes.elided (l := []) (.inl ⟨rfl, rfl⟩) hOptR (by
        rw [length_flatMap_hiLo, hlenB]
        simp only [List.length_nil]
        omega)
      rw [List.flatMap_nil] at hbytes
      rw [← hbytes] at helided
      nth_rewrite 2 [hsplit]
      rw [List.nil_append, hmid, List.cons_append, hr]
      exact helided
    · have hpos := List.length_pos_iff.2 hA0
      have hne : ((b : Nat) : Int) ≠ 0 := by omega
      obtain ⟨t, ht, hgs⟩ : ∃ t, pieces src words ⟨b, l⟩ (A ++ (List.replicate l 0 ++ B)) 0 =
          colonIf ((0 : Nat) ≠ 0) ++ (t ++ pieces src words ⟨b, l⟩ (List.replicate l 0 ++ B) (0 + A.length)) ∧
          Groups false t (A.flatMap hiLo) :=
        pieces_head _ hne hA0 (fun k hk h => by have := (hcov k).1 h; omega) hltA
      have helided := Denotes.elided (.inr hgs) hOptR (by
        rw [length_flatMap_hiLo, length_flatMap_hiLo, hlenB]
        omega)
      rw [← hbytes] at helided
      nth_rewrite 2 [hsplit]
      rw [ht, Nat.zero_add, hA, hmid, List.append_assoc, List.append_assoc, List.cons_append, hr]
      exact helided

/-- The text fits into the 46 characters of the buffer, with its `NUL`. -/
theorem inetNtop6_eq {tmp4 tmp : Text} (htmp4 : tmp4.length = 16) (htmp : tmp.length = 46) (hsrc : src.length = 16) :
    (ntop6Text src).length + 1 ≤ 46 ∧ ∀ (dst : Text) (size : Int), inetNtop6 tmp4 tmp src dst size =
      if size < (ntop6Text src).length + 1 then some (false, dst) else
        (store dst 0 (ntop6Text src ++ [nul])).map (true, ·) := by
  obtain ⟨hflat, hlen, hlt⟩ := wordsOf_spec 8 src hsrc
  have hbuf : ([] : Text).length + tmp.length = 46 := by simpa using htmp
  obtain ⟨junk, hrun, htotal, hbound⟩ := ntop6Loop_run (wordsOf src) (bestRun (wordsOf src)) htmp4 hsrc hlt (by omega) hbuf
    (.inl ⟨rfl, rfl⟩)
  have hone := length_colonIf ((bestRun (wordsOf src)).base ≠ -1 ∧ (bestRun (wordsOf src)).base + (bestRun (wordsOf src)).len = 8)
  simp only [List.nil_append, List.length_nil] at hrun htotal hbound
  obtain ⟨junk₁, hcolon, htotal₁⟩ := putColon_run
    ((bestRun (wordsOf src)).base ≠ -1 ∧ (bestRun (wordsOf src)).base + (bestRun (wordsOf src)).len = 8) htotal (by omega)
  have hfits : (ntop6Text src).length + 1 ≤ 46 := by
    rcases hbound with hbound | ⟨hbound, hend⟩
    · rw [ntop6Text, List.length_append]
      omega
    · rw [ntop6Text, colonIf, if_neg (by simp [hend]), List.append_nil]
      omega
  refine ⟨hfits, fun dst size => ?_⟩
  rw [← ntop6Text] at hcolon htotal₁
  have hstore : store (ntop6Text src ++ junk₁) (ntop6Text src).length [nul] =
      some (ntop6Text src ++ [nul] ++ junk₁.drop 1) := store_next (m := [nul]) (by rw [List.length_singleton]; omega)
  have hstr : cString (ntop6Text src ++ [nul] ++ junk₁.drop 1) = ntop6Text src := by
    rw [List.append_assoc]
    exact cString_append (fun c hc => ne_nul_of_mem_ntop6Text hc) _
  simp only [inetNtop6, hrun, hcolon, hstore, hstr, Option.bind_eq_bind, Option.bind_some]
  split
  · rfl
  · rw [Option.map_eq_bind]
    rfl

end

/-- `inet_ntop6` writes a text of the address that `inet_pton6` reads back, whatever the local arrays and the destination
contain; a destination without room for the text and its `NUL` stays as it is. -/
theorem ntop6_pton6 (a : Vector UInt8 16) : ∃ s : Text, s.length + 1 ≤ 46 ∧ (∀ c ∈ s, c ≠ nul) ∧
    (∀ (tmp4 : Vector Char 16) (tmp : Vector Char 46) (dst : Text) (size : Int),
      (s.length < size → size ≤ dst.length →
        inetNtop6 tmp4.toList tmp.toList a.toList dst size = some (true, s ++ nul :: dst.drop (s.length + 1))) ∧
      (size ≤ s.length → inetNtop6 tmp4.toList tmp.toList a.toList dst size = some (false, dst))) ∧
    ∀ (tmp4 : Vector UInt8 4) (dst : Vector UInt8 16), inetPton6 tmp4.toList s dst.toList = some (1, a.toList) := by
  have hsrc : a.toList.length = 16 := by simp
  have htmp : ∀ n, (List.replicate n nul).length = n := fun _ => List.length_replicate
  have hfits : (ntop6Text a.toList).length + 1 ≤ 46 := (inetNtop6_eq (htmp 16) (htmp 46) hsrc).1
  refine ⟨ntop6Text a.toList, hfits, fun c => ne_nul_of_mem_ntop6Text, fun tmp4 tmp dst size => ?_, fun tmp4 dst => ?_⟩
  · rw [(inetNtop6_eq (by simp) (by simp) hsrc).2]
    constructor
    · intro hroom hsize
      have hstore := store_next (l := []) (r := dst) (m := ntop6Text a.toList ++ [nul]) (by
        rw [List.length_append, List.length_singleton]
        omega)
      rw [List.nil_append, List.length_nil, List.nil_append, List.length_append, List.length_singleton] at hstore
      rw [if_neg (by omega), hstore, List.append_assoc]
      rfl
    · intro hsize
      rw [if_pos (by omega)]
  · exact inetPton6_denotes (by simp) (by simp) (ntop6Text_denotes hsrc)

end Inet

end Aosl
