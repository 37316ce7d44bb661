import Mathlib.Data.Vector.Basic
import Mathlib.Tactic.Common

/-!
# Addresses as text, `net/inet.c`

`inet_ntop4`, `inet_ntop6`, `inet_pton4` and `inet_pton6`. A string is the list of its characters without the `NUL`; a
buffer is the list of its cells, what a local array contains at first is an argument. An access outside of a buffer
fails (`none`): the theorems about these functions show that there is none.
-/

namespace Aosl

namespace Inet

/-- The characters of a string, or the cells of a buffer of `char`. -/
abbrev Text := List Char

def nul : Char := Char.ofNat 0

/-- `memcpy (buf + i, bs, n)` for the `n` cells `bs`. -/
def store {α : Type} (buf : List α) (i : Nat) (bs : List α) : Option (List α) :=
  if i + bs.length ≤ buf.length then some (buf.take i ++ bs ++ buf.drop (i + bs.length)) else none

/-- The string in a buffer. -/
def cString (buf : Text) : Text := buf.takeWhile (· ≠ nul)

/-- `%u`. -/
def decText (n : Nat) : Text := Nat.toDigits 10 n

/-- `%x`. -/
def hexText (n : Nat) : Text := Nat.toDigits 16 n

/-! ### `inet_ntop` -/

/-- `%u.%u.%u.%u` for the four bytes at `src`. -/
def sprintfQuad (src : List UInt8) : Option Text := do
  let a ← src[0]?
  let b ← src[1]?
  let c ← src[2]?
  let d ← src[3]?
  return decText a.toNat ++ '.' :: (decText b.toNat ++ '.' :: (decText c.toNat ++ '.' :: decText d.toNat))

/-- The result is whether the pointer is not `NULL`, and the buffer `dst`, written from `off` on. -/
def inetNtop4 (tmp : Text) (src : List UInt8) (dst : Text) (off : Nat) (size : Int) : Option (Bool × Text) := do
  let text ← sprintfQuad src
  let tmp ← store tmp 0 (text ++ [nul])
  if size ≤ text.length then
    return (false, dst)
  let dst ← store dst off (cString tmp ++ [nul])
  return (true, dst)

/-- `struct { int base, len; }`. -/
structure ZeroRun where
  base : Int
  len : Int
deriving DecidableEq

/-- `if (best.base == -1 || cur.len > best.len) best = cur`. -/
def better (best cur : ZeroRun) : ZeroRun := if best.base = -1 ∨ best.len < cur.len then cur else best

/-- The loop over `words` that looks for the longest run of zeros; `i` is the index of the first of the words that are
left. -/
def findRuns : List Nat → Int → ZeroRun → ZeroRun → ZeroRun × ZeroRun
  | [], _, best, cur => (best, cur)
  | w :: ws, i, best, cur =>
    if w = 0 then
      if cur.base = -1 then findRuns ws (i + 1) best ⟨i, 1⟩
      else findRuns ws (i + 1) best { cur with len := cur.len + 1 }
    else if cur.base ≠ -1 then findRuns ws (i + 1) (better best cur) { cur with base := -1 }
    else findRuns ws (i + 1) best cur

/-- `best` as the printing loop finds it. -/
def bestRun (words : List Nat) : ZeroRun :=
  let (best, cur) := findRuns words 0 ⟨-1, 0⟩ ⟨-1, 0⟩
  let best := if cur.base ≠ -1 then better best cur else best
  if best.base ≠ -1 ∧ best.len < 2 then { best with base := -1 } else best

/-- `words [i / 2] = (src [i] << 8) | src [i + 1]`. -/
def wordsOf : List UInt8 → List Nat
  | a :: b :: bs => ((a.toNat <<< 8) ||| b.toNat) :: wordsOf bs
  | _ => []

/-- "Are we inside the best run of 0x00's?" -/
def ZeroRun.covers (best : ZeroRun) (i : Nat) : Bool := best.base ≠ -1 ∧ best.base ≤ i ∧ (i : Int) < best.base + best.len

/-- "Is this address an encapsulated IPv4?" -/
def ZeroRun.embeds (best : ZeroRun) (words : List Nat) (i : Nat) : Bool :=
  i = 6 ∧ best.base = 0 ∧ (best.len = 6 ∨ best.len = 5 ∧ words[5]? = some 0xffff)

/-- `if (c) *tp++ = ':'`. -/
def putColon (c : Bool) (tmp : Text) (tp : Nat) : Option (Text × Nat) :=
  if c then (store tmp tp [':']).map (·, tp + 1) else some (tmp, tp)

/-- The printing loop, from the word number `i` on; the inner `none` is `return NULL`. -/
def ntop6Loop (tmp4 : Text) (src : List UInt8) (words : List Nat) (best : ZeroRun) :
    List Nat → Nat → Text → Nat → Option (Option (Text × Nat))
  | [], _, tmp, tp => some (some (tmp, tp))
  | w :: ws, i, tmp, tp =>
    if best.covers i then do
      let (tmp, tp) ← putColon (best.base = i) tmp tp
      ntop6Loop tmp4 src words best ws (i + 1) tmp tp
    else do
      let (tmp, tp) ← putColon (i ≠ 0) tmp tp
      if best.embeds words i then
        let (found, tmp) ← inetNtop4 tmp4 (src.drop 12) tmp tp (46 - tp)
        if found then
          return some (tmp, tp + (cString (tmp.drop tp)).length)
        else
          return none
      else
        let tmp ← store tmp tp (hexText w ++ [nul])
        ntop6Loop tmp4 src words best ws (i + 1) tmp (tp + (hexText w).length)

/-- `tmp4` is the local array of `inet_ntop4`. -/
def inetNtop6 (tmp4 tmp : Text) (src : List UInt8) (dst : Text) (size : Int) : Option (Bool × Text) := do
  let words := wordsOf src
  let best := bestRun words
  match ← ntop6Loop tmp4 src words best words 0 tmp 0 with
  | none => return (false, dst)
  | some (tmp, tp) =>
    let (tmp, tp) ← putColon (best.base ≠ -1 ∧ best.base + best.len = 8) tmp tp
    let tmp ← store tmp tp [nul]
    if size < tp + 1 then
      return (false, dst)
    let dst ← store dst 0 (cString tmp ++ [nul])
    return (true, dst)

/-! ### `inet_pton` -/

/-- The local variables of `inet_pton4`; `tp` as an index of `tmp`. -/
structure Quad where
  sawDigit : Bool
  octets : Nat
  tmp : List UInt8
  tp : Nat

/-- The loop of `inet_pton4`; the inner `none` is `return 0`. -/
def pton4Loop : Text → Quad → Option (Option Quad)
  | [], st => some (some st)
  | ch :: src, st =>
    if '0' ≤ ch ∧ ch ≤ '9' then do
      let cell ← st.tmp[st.tp]?
      let new := cell.toNat * 10 + (ch.toNat - '0'.toNat)
      if st.sawDigit ∧ cell = 0 then
        return none
      if 255 < new then
        return none
      let tmp ← store st.tmp st.tp [UInt8.ofNat new]
      if st.sawDigit then
        pton4Loop src { st with tmp := tmp }
      else if 4 < st.octets + 1 then
        return none
      else
        pton4Loop src { st with tmp := tmp, octets := st.octets + 1, sawDigit := true }
    else if ch = '.' ∧ st.sawDigit then
      if st.octets = 4 then
        some none
      else do
        let tmp ← store st.tmp (st.tp + 1) [0]
        pton4Loop src { st with tmp := tmp, tp := st.tp + 1, sawDigit := false }
    else
      some none

/-- The result of the function and the buffer `dst`, written from `off` on. -/
def inetPton4 (tmp : List UInt8) (src : Text) (dst : List UInt8) (off : Nat) : Option (Nat × List UInt8) := do
  let tmp ← store tmp 0 [0]
  match ← pton4Loop src ⟨false, 0, tmp, 0⟩ with
  | none => return (0, dst)
  | some st =>
    if st.octets < 4 then
      return (0, dst)
    let dst ← store dst off st.tmp
    return (1, dst)

def hexDigitValue (ch : Char) : Int :=
  if '0' ≤ ch ∧ ch ≤ '9' then (ch.toNat : Int) - '0'.toNat
  else if 'a' ≤ ch ∧ ch ≤ 'f' then (ch.toNat : Int) - 'a'.toNat + 10
  else if 'A' ≤ ch ∧ ch ≤ 'F' then (ch.toNat : Int) - 'A'.toNat + 10
  else -1

/-- The local variables of `inet_pton6`; `tp` and `colonp` as indices of `tmp`, `curtok` as the text from there on. -/
structure Pton6 where
  tmp : List UInt8
  tp : Nat
  colonp : Option Nat
  curtok : Text
  xdigitsSeen : Nat
  val : Nat

/-- `*tp++ = (val >> 8) & 0xff; *tp++ = val & 0xff`. -/
def Pton6.put (st : Pton6) : Option Pton6 := do
  let tmp ← store st.tmp st.tp [UInt8.ofNat (st.val >>> 8 &&& 0xff), UInt8.ofNat (st.val &&& 0xff)]
  return { st with tmp := tmp, tp := st.tp + 2 }

/-- The loop of `inet_pton6`; `tmp4` is the local array of `inet_pton4`, the inner `none` is `return 0`. -/
def pton6Loop (tmp4 : List UInt8) : Text → Pton6 → Option (Option Pton6)
  | [], st => some (some st)
  | ch :: src, st =>
    if 0 ≤ hexDigitValue ch then
      if st.xdigitsSeen = 4 then some none
      else
        let val := st.val <<< 4 ||| (hexDigitValue ch).toNat
        if 0xffff < val then some none
        else pton6Loop tmp4 src { st with val := val, xdigitsSeen := st.xdigitsSeen + 1 }
    else if ch = ':' then
      let st := { st with curtok := src }
      if st.xdigitsSeen = 0 then
        if st.colonp.isSome then some none
        else pton6Loop tmp4 src { st with colonp := some st.tp }
      else if src = [] then some none
      else if 16 < st.tp + 2 then some none
      else do
        let st ← st.put
        pton6Loop tmp4 src { st with xdigitsSeen := 0, val := 0 }
    else if ch = '.' ∧ st.tp + 4 ≤ 16 then do
      let (r, tmp) ← inetPton4 tmp4 st.curtok st.tmp st.tp
      if 0 < r then
        return some { st with tmp := tmp, tp := st.tp + 4, xdigitsSeen := 0 }
      else
        return none
    else some none

/-- After the loop: the last group. -/
def pton6Last (st : Pton6) : Option (Option Pton6) := do
  if 0 < st.xdigitsSeen then
    if 16 < st.tp + 2 then
      return none
    return some (← st.put)
  return some st

/-- "Replace :: with zeros." -/
def pton6Expand (st : Pton6) : Option (Option Pton6) := do
  match st.colonp with
  | none => return some st
  | some colonp =>
    if st.tp = 16 then
      return none
    let n := st.tp - colonp
    let tmp ← store st.tmp (16 - n) ((st.tmp.drop colonp).take n)
    let tmp ← store tmp colonp (List.replicate (16 - n - colonp) 0)
    return some { st with tmp := tmp, tp := 16 }

/-- The function from the loop on. -/
def pton6From (tmp4 : List UInt8) (src : Text) (st : Pton6) (dst : List UInt8) : Option (Nat × List UInt8) := do
  let some st ← pton6Loop tmp4 src st | return (0, dst)
  let some st ← pton6Last st | return (0, dst)
  let some st ← pton6Expand st | return (0, dst)
  if st.tp ≠ 16 then
    return (0, dst)
  let dst ← store dst 0 st.tmp
  return (1, dst)

/-- The result of the function and the buffer `dst`. -/
def inetPton6 (tmp4 : List UInt8) (src : Text) (dst : List UInt8) : Option (Nat × List UInt8) :=
  let start (src : Text) := pton6From tmp4 src ⟨List.replicate 16 0, 0, none, src, 0, 0⟩ dst
  match src with
  | [] => some (0, dst)
  | ch :: rest =>
    if ch = ':' then
      if rest.head? = some ':' then start rest else some (0, dst)
    else
      start src

end Inet

end Aosl
