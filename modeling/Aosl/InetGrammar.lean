import Aosl.InetQuad

/-!
# The texts of IPv6 addresses

`Denotes s bs`: the string `s` is a sequence of hexadecimal groups that denotes the 16 bytes `bs`. `inet_pton6` reads it
from left to right; `Scan seen t bs k` is what it may find in the text `t` from the start of a token on: the bytes `bs` of
the groups, and before which of them the `::` stands (`k`), unless it was seen before. This file is about texts only:
which tokens a text begins with (`scan_cases`), and that a text denotes what is scanned in it (`denotes_iff_scan`).
-/

namespace Aosl
open Lib

namespace Inet

/-! ### Hexadecimal digits -/

/-- `c` is the hexadecimal digit `d`. -/
def HexDigit (c : Char) (d : Nat) : Prop := d < 16 ∧ (c = Nat.digitChar d ∨ c = (Nat.digitChar d).toUpper)

theorem hexDigitValue_digitChar : ∀ d < 16, hexDigitValue (Nat.digitChar d) = d ∧
    hexDigitValue (Nat.digitChar d).toUpper = d := by decide

theorem HexDigit.value {c : Char} {d : Nat} (h : HexDigit c d) : hexDigitValue c = d := by
  obtain ⟨hd, rfl | rfl⟩ := h
  · exact (hexDigitValue_digitChar d hd).1
  · exact (hexDigitValue_digitChar d hd).2

theorem HexDigit.unique {c : Char} {d d' : Nat} (h : HexDigit c d) (h' : HexDigit c d') : d = d' :=
  Int.ofNat_inj.1 (h.value.symm.trans h'.value)

theorem toNat_letter : ∀ d < 16, 10 ≤ d → (Nat.digitChar d).toNat = d + 87 ∧ (Nat.digitChar d).toUpper.toNat = d + 55 := by
  decide

theorem char_le_iff (c c' : Char) : c ≤ c' ↔ c.toNat ≤ c'.toNat := by
  rw [Char.le_def, UInt32.le_iff_toNat_le]
  rfl

theorem isHexDigit_iff (c : Char) : 0 ≤ hexDigitValue c ↔ ∃ d, HexDigit c d := by
  constructor
  · intro h
    by_cases hdec : '0' ≤ c ∧ c ≤ '9'
    · obtain ⟨d, hd, rfl⟩ := (isDecDigit_iff c).1 hdec
      exact ⟨d, by omega, .inl rfl⟩
    by_cases hlow : 'a' ≤ c ∧ c ≤ 'f'
    · rw [char_le_iff, char_le_iff] at hlow
      have h97 : 'a'.toNat = 97 := rfl
      have h102 : 'f'.toNat = 102 := rfl
      refine ⟨c.toNat - 87, by omega, .inl (Char.toNat_inj.1 ?_)⟩
      rw [(toNat_letter _ (by omega) (by omega)).1]
      omega
    by_cases hup : 'A' ≤ c ∧ c ≤ 'F'
    · rw [char_le_iff, char_le_iff] at hup
      have h65 : 'A'.toNat = 65 := rfl
      have h70 : 'F'.toNat = 70 := rfl
      refine ⟨c.toNat - 55, by omega, .inr (Char.toNat_inj.1 ?_)⟩
      rw [(toNat_letter _ (by omega) (by omega)).2]
      omega
    rw [hexDigitValue, if_neg hdec, if_neg hlow, if_neg hup] at h
    exact absurd h (by decide)
  · rintro ⟨d, hd⟩
    rw [hd.value]
    exact Int.natCast_nonneg d

/-- A character that is a hexadecimal digit. -/
def IsHex (c : Char) : Prop := 0 ≤ hexDigitValue c

theorem IsHex.of_decDigit {c : Char} (h : '0' ≤ c ∧ c ≤ '9') : IsHex c := by
  obtain ⟨d, hd, rfl⟩ := (isDecDigit_iff c).1 h
  exact (isHexDigit_iff _).2 ⟨d, by omega, .inl rfl⟩

theorem not_isHex_colon : ¬IsHex ':' := by
  rw [IsHex]
  decide

theorem not_isHex_dot : ¬IsHex '.' := by
  rw [IsHex]
  decide

/-! ### The grammar -/

/-- One to four hexadecimal digits for the number `w`. -/
def Group (g : Text) (w : Nat) : Prop := Reads HexDigit 16 g w ∧ g ≠ [] ∧ g.length ≤ 4

/-- The two bytes of a group. -/
def hiLo (w : Nat) : List UInt8 := [UInt8.ofNat (w / 256), UInt8.ofNat (w % 256)]

@[simp] theorem length_hiLo (w : Nat) : (hiLo w).length = 2 := rfl

/-- Groups with single colons between them; the last may be a dotted quad if `q`. -/
inductive Groups (q : Bool) : Text → List UInt8 → Prop where
  | one {g : Text} {w : Nat} : Group g w → Groups q g (hiLo w)
  | dotted {a : List UInt8} : q = true → a.length = 4 → Groups q (dottedText a) a
  | cons {g t : Text} {w : Nat} {bs : List UInt8} : Group g w → Groups q t bs →
      Groups q (g ++ ':' :: t) (hiLo w ++ bs)

/-- No groups, or such groups. -/
def OptGroups (q : Bool) (t : Text) (bs : List UInt8) : Prop := t = [] ∧ bs = [] ∨ Groups q t bs

/-- The 16 bytes with zeros between `l` and `r`. -/
def widen (l r : List UInt8) : List UInt8 := l ++ List.replicate (16 - (l.length + r.length)) 0 ++ r

/-- An address: eight groups in all, a dotted quad counting as two, or a `::` that stands for one group at least. -/
inductive Denotes : Text → List UInt8 → Prop where
  | full {t : Text} {bs : List UInt8} : Groups true t bs → bs.length = 16 → Denotes t bs
  | elided {l r : Text} {bl br : List UInt8} : OptGroups false l bl → OptGroups true r br →
      bl.length + br.length + 2 ≤ 16 → Denotes (l ++ ':' :: ':' :: r) (widen bl br)

/-! ### Tokens -/

section
variable {g t u r : Text} {w : Nat} {bs : List UInt8} {q : Bool}

theorem Group.isHex (h : Group g w) : ∀ c ∈ g, IsHex c := fun c hc => (isHexDigit_iff c).2 (h.1.digits c hc)

theorem Group.unique {w' : Nat} (h : Group g w) (h' : Group g w') : w = w' :=
  h.1.unique (fun _ _ _ hd hd' => hd.unique hd') h'.1

theorem Groups.head (h : Groups q t bs) : ∃ c t', t = c :: t' ∧ IsHex c := by
  have hgroup : ∀ {g : Text} {w : Nat}, Group g w → ∀ r, ∃ c t', g ++ r = c :: t' ∧ IsHex c := fun {g w} hg r => by
    obtain ⟨c, g', rfl⟩ := List.exists_cons_of_ne_nil hg.2.1
    exact ⟨c, g' ++ r, rfl, hg.isHex c (by simp)⟩
  cases h with
  | one hg =>
    obtain ⟨c, t', ht, hc⟩ := hgroup hg []
    exact ⟨c, t', by rwa [List.append_nil] at ht, hc⟩
  | dotted _ h4 =>
    obtain ⟨a, as, rfl⟩ := List.exists_cons_of_length_eq_add_one h4
    obtain ⟨c, d, hd⟩ := List.exists_cons_of_ne_nil (decText_ne_nil a.toNat)
    refine ⟨c, d ++ dotTail as, by rw [dottedText, hd]; rfl, .of_decDigit (isDecDigit_of_mem (n := a.toNat) ?_)⟩
    rw [hd]
    exact List.mem_cons_self
  | cons hg _ => exact hgroup hg _

theorem Groups.ne_nil (h : Groups q t bs) : t ≠ [] := by
  obtain ⟨c, t', rfl, -⟩ := h.head
  exact List.cons_ne_nil _ _

theorem Groups.mono (h : Groups false t bs) : Groups true t bs := by
  induction h with
  | one hg => exact .one hg
  | dotted hq => cases hq
  | cons hg _ ih => exact .cons hg ih

/-- What may be found in `t` from the start of a token on. -/
inductive Scan : Bool → Text → List UInt8 → Option Nat → Prop where
  | done {seen : Bool} : Scan seen [] [] none
  | group {seen : Bool} {g : Text} {w : Nat} : Group g w → Scan seen g (hiLo w) none
  | dotted {seen : Bool} {a : List UInt8} : a.length = 4 → Scan seen (dottedText a) a none
  | cons {seen : Bool} {g t : Text} {w : Nat} {bs : List UInt8} {k : Option Nat} : Group g w → t ≠ [] →
      Scan seen t bs k → Scan seen (g ++ ':' :: t) (hiLo w ++ bs) (k.map (2 + ·))
  | elide {t : Text} {bs : List UInt8} : Scan true t bs none → Scan false (':' :: t) bs (some 0)

/-- A text whose first run of hexadecimal digits is `u`: what is scanned in it. -/
theorem scan_cases {seen : Bool} {k : Option Nat} (hu : ∀ c ∈ u, IsHex c) (hr : ∀ c ∈ r.head?, ¬IsHex c)
    (h : Scan seen (u ++ r) bs k) :
    (u = [] ∧ r = [] ∧ bs = [] ∧ k = none) ∨
    (∃ w, Group u w ∧ r = [] ∧ bs = hiLo w ∧ k = none) ∨
    (bs.length = 4 ∧ dottedText bs = u ++ r ∧ k = none ∧ r.head? = some '.' ∧ u.length ≤ 3) ∨
    (∃ t w bs' k', r = ':' :: t ∧ Group u w ∧ t ≠ [] ∧ Scan seen t bs' k' ∧ bs = hiLo w ++ bs' ∧
      k = k'.map (2 + ·)) ∨
    (∃ t, u = [] ∧ r = ':' :: t ∧ seen = false ∧ Scan true t bs none ∧ k = some 0) := by
  generalize ht : u ++ r = t at h
  cases h with
  | done =>
    obtain ⟨rfl, rfl⟩ := List.append_eq_nil_iff.1 ht
    exact .inl ⟨rfl, rfl, rfl, rfl⟩
  | group hg =>
    obtain ⟨rfl, rfl⟩ := run_unique hu hg.isHex hr (by simp) (ht.trans (List.append_nil _).symm)
    exact .inr (.inl ⟨_, hg, rfl, rfl, rfl⟩)
  | dotted h4 =>
    obtain ⟨a, b, c, d, rfl⟩ := List.length_eq_four.1 h4
    have htail : ∀ x ∈ (dotTail [b, c, d]).head?, ¬IsHex x := by simpa [dotTail] using not_isHex_dot
    obtain ⟨rfl, rfl⟩ := run_unique hu (fun x hx => IsHex.of_decDigit (isDecDigit_of_mem hx)) hr htail ht
    exact .inr (.inr (.inl ⟨h4, rfl, rfl, rfl, length_decText a⟩))
  | cons hg hne hs =>
    obtain ⟨rfl, rfl⟩ := run_unique hu hg.isHex hr (by simpa using not_isHex_colon) ht
    exact .inr (.inr (.inr (.inl ⟨_, _, _, _, rfl, hg, hne, hs, rfl, rfl⟩)))
  | elide hs =>
    obtain ⟨rfl, rfl⟩ := run_unique (u := []) hu (by simp) hr (by simpa using not_isHex_colon) ht
    exact .inr (.inr (.inr (.inr ⟨_, rfl, rfl, rfl, hs, rfl⟩)))

theorem exists_run (t : Text) : ∃ u r, t = u ++ r ∧ (∀ c ∈ u, IsHex c) ∧ ∀ c ∈ r.head?, ¬IsHex c := by
  induction t with
  | nil => exact ⟨[], [], rfl, by simp, by simp⟩
  | cons c t ih =>
    by_cases hc : IsHex c
    · obtain ⟨u, r, rfl, hu, hr⟩ := ih
      exact ⟨c :: u, r, rfl, List.forall_mem_cons.2 ⟨hc, hu⟩, hr⟩
    · exact ⟨[], c :: t, rfl, by simp, by simpa using hc⟩

theorem not_scan_long {seen : Bool} {k : Option Nat} (hu : ∀ c ∈ u, IsHex c) (h4 : 4 < u.length) :
    ¬Scan seen (u ++ r) bs k := by
  intro h
  obtain ⟨u', r', hur, hu', hr'⟩ := exists_run (u ++ r)
  have hle := (prefix_of_run hu' hu hr' hur.symm).length_le
  rw [hur] at h
  rcases scan_cases hu' hr' h with ⟨rfl, -⟩ | ⟨w, hg, -⟩ | ⟨-, -, -, -, h3⟩ | ⟨t, w, bs', k', -, hg, -⟩ | ⟨t, rfl, -⟩
  · rw [List.length_nil] at hle
    omega
  · have := hg.2.2
    omega
  · omega
  · have := hg.2.2
    omega
  · rw [List.length_nil] at hle
    omega

theorem scan_end {seen : Bool} {k : Option Nat} (hu : ∀ c ∈ u, IsHex c) :
    Scan seen u bs k ↔ k = none ∧ (u = [] ∧ bs = [] ∨ ∃ w, Group u w ∧ bs = hiLo w) := by
  constructor
  · intro h
    rw [← List.append_nil u] at h
    rcases scan_cases hu (by simp) h with ⟨rfl, -, rfl, rfl⟩ | ⟨w, hg, -, rfl, rfl⟩ | ⟨-, -, -, hdot, -⟩ |
      ⟨t, w, bs', k', ht, -⟩ | ⟨t, -, ht, -⟩
    · exact ⟨rfl, .inl ⟨rfl, rfl⟩⟩
    · exact ⟨rfl, .inr ⟨w, hg, rfl⟩⟩
    · cases hdot
    · cases ht
    · cases ht
  · rintro ⟨rfl, ⟨rfl, rfl⟩ | ⟨w, hg, rfl⟩⟩
    · exact .done
    · exact .group hg

theorem scan_group {seen : Bool} {k : Option Nat} (hu : ∀ c ∈ u, IsHex c) (hne : u ≠ []) :
    Scan seen (u ++ ':' :: t) bs k ↔ t ≠ [] ∧ ∃ w bs' k', Group u w ∧ Scan seen t bs' k' ∧ bs = hiLo w ++ bs' ∧
      k = k'.map (2 + ·) := by
  constructor
  · intro h
    rcases scan_cases hu (by simpa using not_isHex_colon) h with ⟨-, ht, -⟩ | ⟨w, -, ht, -⟩ | ⟨-, -, -, hdot, -⟩ |
      ⟨t', w, bs', k', ht, hg, hne', hs, rfl, rfl⟩ | ⟨t', rfl, -⟩
    · cases ht
    · cases ht
    · simp at hdot
    · cases ht
      exact ⟨hne', w, bs', k', hg, hs, rfl, rfl⟩
    · exact absurd rfl hne
  · rintro ⟨hne', w, bs', k', hg, hs, rfl, rfl⟩
    exact .cons hg hne' hs

theorem scan_colon {seen : Bool} {k : Option Nat} :
    Scan seen (':' :: t) bs k ↔ seen = false ∧ Scan true t bs none ∧ k = some 0 := by
  constructor
  · intro h
    rcases scan_cases (u := []) (by simp) (by simpa using not_isHex_colon) h with ⟨-, ht, -⟩ | ⟨w, hg, -⟩ |
      ⟨-, -, -, hdot, -⟩ | ⟨t', w, bs', k', -, hg, -⟩ | ⟨t', -, ht, hseen, hs, hk⟩
    · cases ht
    · exact absurd rfl hg.2.1
    · simp at hdot
    · exact absurd rfl hg.2.1
    · cases ht
      exact ⟨hseen, hs, hk⟩
  · rintro ⟨rfl, hs, rfl⟩
    exact .elide hs

theorem scan_dot {seen : Bool} {k : Option Nat} (hu : ∀ c ∈ u, IsHex c) :
    Scan seen (u ++ '.' :: t) bs k ↔ k = none ∧ bs.length = 4 ∧ dottedText bs = u ++ '.' :: t := by
  constructor
  · intro h
    rcases scan_cases hu (by simpa using not_isHex_dot) h with ⟨-, ht, -⟩ | ⟨w, -, ht, -⟩ | ⟨h4, htext, hk, -⟩ |
      ⟨t', w, bs', k', ht, -⟩ | ⟨t', -, ht, -⟩
    · cases ht
    · cases ht
    · exact ⟨hk, h4, htext⟩
    · cases ht
    · cases ht
  · rintro ⟨rfl, h4, htext⟩
    rw [← htext]
    exact .dotted h4

theorem not_scan_other {seen : Bool} {k : Option Nat} {ch : Char} (hu : ∀ c ∈ u, IsHex c) (hch : ¬IsHex ch)
    (hcolon : ch ≠ ':') (hdot : ch ≠ '.') : ¬Scan seen (u ++ ch :: t) bs k := by
  intro h
  rcases scan_cases hu (by simpa using hch) h with ⟨-, ht, -⟩ | ⟨w, -, ht, -⟩ | ⟨-, -, -, ht, -⟩ |
    ⟨t', w, bs', k', ht, -⟩ | ⟨t', -, ht, -⟩
  · cases ht
  · cases ht
  · exact hdot (by simpa using ht)
  · exact hcolon (List.cons.inj ht).1
  · exact hcolon (List.cons.inj ht).1

/-! ### What is scanned is what is denoted -/

theorem Scan.even {seen : Bool} {k : Option Nat} (h : Scan seen t bs k) : bs.length % 2 = 0 := by
  induction h with
  | done => rfl
  | group => rw [length_hiLo]
  | dotted h4 => rw [h4]
  | cons _ _ _ ih =>
    rw [List.length_append, length_hiLo]
    omega
  | elide _ ih => exact ih

theorem Scan.of_seen {k : Option Nat} (h : Scan true t bs k) : k = none := by
  generalize hseen : true = seen at h
  induction h with
  | done => rfl
  | group => rfl
  | dotted => rfl
  | cons _ _ _ ih => rw [ih hseen, Option.map_none]
  | elide => cases hseen

theorem scan_none_iff {seen : Bool} : Scan seen t bs none ↔ OptGroups true t bs := by
  constructor
  · intro h
    generalize hk : none = k at h
    induction h with
    | done => exact .inl ⟨rfl, rfl⟩
    | group hg => exact .inr (.one hg)
    | dotted h4 => exact .inr (.dotted rfl h4)
    | cons hg hne _ ih =>
      rcases ih (Option.map_eq_none_iff.1 hk.symm).symm with ⟨rfl, -⟩ | hgs
      · exact absurd rfl hne
      · exact .inr (.cons hg hgs)
    | elide => cases hk
  · rintro (⟨rfl, rfl⟩ | h)
    · exact .done
    · induction h with
      | one hg => exact .group hg
      | dotted _ h4 => exact .dotted h4
      | cons hg hgs ih => exact .cons hg hgs.ne_nil ih

/-- With a `::`, the first colon of which may have been read already. -/
theorem scan_some_iff {p : Nat} : Scan false t bs (some p) ↔ ∃ l r bl br, OptGroups false l bl ∧ OptGroups true r br ∧
    bs = bl ++ br ∧ p = bl.length ∧ (l = [] ∧ t = ':' :: r ∨ l ≠ [] ∧ t = l ++ ':' :: ':' :: r) := by
  constructor
  · intro h
    generalize hk : some p = k at h
    generalize hseen : false = seen at h
    induction h generalizing p with
    | done => cases hk
    | group => cases hk
    | dotted => cases hk
    | @cons seen g t w bs k hg hne _ ih =>
      obtain ⟨p', rfl, hp⟩ := Option.map_eq_some_iff.1 hk.symm
      obtain ⟨l, r, bl, br, hl, hr, rfl, rfl, ⟨rfl, rfl⟩ | ⟨hl0, rfl⟩⟩ := ih rfl hseen
      · obtain ⟨-, rfl⟩ | hgs := hl
        · exact ⟨g, r, hiLo w, br, .inr (.one hg), hr, by simp, hp.symm, .inr ⟨hg.2.1, rfl⟩⟩
        · exact absurd rfl hgs.ne_nil
      · obtain ⟨hnil, -⟩ | hgs := hl
        · exact absurd hnil hl0
        · refine ⟨g ++ ':' :: l, r, hiLo w ++ bl, br, .inr (.cons hg hgs), hr, by simp, ?_, .inr ⟨by simp, by simp⟩⟩
          rw [← hp, List.length_append]
          rfl
    | @elide t bs hs _ =>
      obtain rfl := Option.some.inj hk
      exact ⟨[], t, [], bs, .inl ⟨rfl, rfl⟩, scan_none_iff.1 hs, rfl, rfl, .inl ⟨rfl, rfl⟩⟩
  · rintro ⟨l, r, bl, br, hl, hr, rfl, rfl, ⟨rfl, rfl⟩ | ⟨hl0, rfl⟩⟩
    · obtain ⟨-, rfl⟩ | hgs := hl
      · exact .elide (scan_none_iff.2 hr)
      · exact absurd rfl hgs.ne_nil
    · obtain ⟨hnil, -⟩ | hgs := hl
      · exact absurd hnil hl0
      clear hl0
      induction hgs with
      | one hg => exact .cons hg (by simp) (.elide (scan_none_iff.2 hr))
      | dotted hq => cases hq
      | @cons g t w bs hg hgs ih =>
        have hcons := Scan.cons hg (by simp) ih
        rw [List.append_assoc, List.cons_append, List.append_assoc, List.length_append]
        exact hcons

/-- The bytes of an address, of which `W` are written and the `::` is at `k`. -/
def finished (W : List UInt8) : Option Nat → List UInt8
  | none => W
  | some p => widen (W.take p) (W.drop p)

/-- Eight groups, or less and a `::`. -/
def Complete (W : List UInt8) : Option Nat → Prop
  | none => W.length = 16
  | some _ => W.length ≠ 16

/-- A string that does not begin with a colon, or whose first colon is left out. -/
theorem denotes_of_scan {W : List UInt8} {k : Option Nat} (hs : Scan false t W k) (hW : W.length ≤ 16)
    (hc : Complete W k) : Denotes (if t.head? = some ':' then ':' :: t else t) (finished W k) := by
  cases k with
  | none =>
    rcases scan_none_iff.1 hs with ⟨rfl, rfl⟩ | hgs
    · cases hc
    · obtain ⟨c, t', rfl, hhex⟩ := hgs.head
      rw [if_neg]
      · exact .full hgs hc
      · rw [List.head?_cons]
        rintro h
        obtain rfl := Option.some.inj h
        exact not_isHex_colon hhex
  | some p =>
    obtain ⟨l, r, bl, br, hl, hr, rfl, rfl, ht⟩ := scan_some_iff.1 hs
    have heven := hs.even
    have hne : (bl ++ br).length ≠ 16 := hc
    rw [List.length_append] at heven hW hne
    have hdenotes := Denotes.elided hl hr (by omega)
    rw [finished, List.take_left, List.drop_left]
    rcases ht with ⟨rfl, rfl⟩ | ⟨hl0, rfl⟩
    · rw [if_pos List.head?_cons]
      exact hdenotes
    · obtain ⟨hnil, -⟩ | hgs := hl
      · exact absurd hnil hl0
      obtain ⟨c, l', rfl, hhex⟩ := hgs.head
      rw [if_neg]
      · exact hdenotes
      · rw [List.cons_append, List.head?_cons]
        rintro h
        obtain rfl := Option.some.inj h
        exact not_isHex_colon hhex

theorem scan_of_denotes {s : Text} (h : Denotes s bs) : ∃ t W k, s = (if t.head? = some ':' then ':' :: t else t) ∧
    t ≠ [] ∧ Scan false t W k ∧ W.length ≤ 16 ∧ Complete W k ∧ bs = finished W k := by
  have hhead : ∀ {q : Bool} {l : Text} {bl : List UInt8}, Groups q l bl → ∀ r, (l ++ r).head? ≠ some ':' := by
    intro q l bl hgs r hcolon
    obtain ⟨c, l', rfl, hhex⟩ := hgs.head
    obtain rfl := Option.some.inj hcolon
    exact not_isHex_colon hhex
  cases h with
  | full hgs h16 =>
    have hne := hhead hgs []
    rw [List.append_nil] at hne
    exact ⟨s, bs, none, by rw [if_neg hne], hgs.ne_nil, scan_none_iff.2 (.inr hgs), h16.le, h16, rfl⟩
  | @elided l r bl br hl hr hlen =>
    have hfin : widen bl br = finished (bl ++ br) (some bl.length) := by rw [finished, List.take_left, List.drop_left]
    have hW : (bl ++ br).length ≤ 16 := by rw [List.length_append]; omega
    have hc : Complete (bl ++ br) (some bl.length) := by
      show (bl ++ br).length ≠ 16
      rw [List.length_append]
      omega
    by_cases hl0 : l = []
    · subst hl0
      exact ⟨':' :: r, bl ++ br, some bl.length, by simp, by simp,
        scan_some_iff.2 ⟨[], r, bl, br, hl, hr, rfl, rfl, .inl ⟨rfl, rfl⟩⟩, hW, hc, hfin⟩
    · obtain ⟨hnil, -⟩ | hgs := hl
      · exact absurd hnil hl0
      · exact ⟨l ++ ':' :: ':' :: r, bl ++ br, some bl.length, by rw [if_neg (hhead hgs _)], by simp,
          scan_some_iff.2 ⟨l, r, bl, br, .inr hgs, hr, rfl, rfl, .inr ⟨hl0, rfl⟩⟩, hW, hc, hfin⟩

end

end Inet

end Aosl
