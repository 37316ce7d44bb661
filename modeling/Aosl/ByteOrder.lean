import Aosl.MarshalTrip
import Mathlib.Algebra.Group.Nat.Defs

/-!
# The byte order on the wire

The macros `__encode_int16` and its kin of `lib/marshalling.c` are chosen by the byte order of the host: on a
little-endian host they are `aosl_cpu_to_le16`, on any other `aosl_cpu_to_be16`, and both are the identity where they
are used (`encodeInt_eq`). So a number goes on the wire as it stands in the memory of the host, and what a host writes
is what the other one reads only for numbers and counts that read the same from both ends (`enc_mirror_iff`).
-/

namespace Aosl

/-! ## The conversion macros -/

/-- `aosl___constant_swab16` and its siblings. -/
def swab16 (x : BitVec 16) : BitVec 16 := ((x &&& 0x00ff#16) <<< 8) ||| ((x &&& 0xff00#16) >>> 8)

def swab32 (x : BitVec 32) : BitVec 32 :=
  ((x &&& 0x000000ff#32) <<< 24) ||| ((x &&& 0x0000ff00#32) <<< 8) ||| ((x &&& 0x00ff0000#32) >>> 8) |||
    ((x &&& 0xff000000#32) >>> 24)

def swab64 (x : BitVec 64) : BitVec 64 :=
  ((x &&& 0x00000000000000ff#64) <<< 56) ||| ((x &&& 0x000000000000ff00#64) <<< 40) |||
    ((x &&& 0x0000000000ff0000#64) <<< 24) ||| ((x &&& 0x00000000ff000000#64) <<< 8) |||
    ((x &&& 0x000000ff00000000#64) >>> 8) ||| ((x &&& 0x0000ff0000000000#64) >>> 24) |||
    ((x &&& 0x00ff000000000000#64) >>> 40) ||| ((x &&& 0xff00000000000000#64) >>> 56)

namespace Endian

/-- `aosl__cpu_to_le16`, `aosl__le16_to_cpu` and their siblings, which differ in `swab`. -/
def cpuToLe {w : Nat} (host : Endian) (swab : BitVec w → BitVec w) (x : BitVec w) : BitVec w :=
  match host with
  | little => x
  | big => swab x

/-- `aosl__cpu_to_be16`, `aosl__be16_to_cpu` and their siblings. -/
def cpuToBe {w : Nat} (host : Endian) (swab : BitVec w → BitVec w) (x : BitVec w) : BitVec w :=
  match host with
  | little => swab x
  | big => x

/-- `__encode_int16`, `__decode_int16` and their siblings. -/
def encodeInt {w : Nat} (host : Endian) (swab : BitVec w → BitVec w) (x : BitVec w) : BitVec w :=
  match host with
  | little => host.cpuToLe swab x
  | big => host.cpuToBe swab x

def encodeInt16 (host : Endian) : BitVec 16 → BitVec 16 := host.encodeInt swab16
def encodeInt32 (host : Endian) : BitVec 32 → BitVec 32 := host.encodeInt swab32
def encodeInt64 (host : Endian) : BitVec 64 → BitVec 64 := host.encodeInt swab64

theorem encodeInt_eq {w : Nat} (host : Endian) (swab : BitVec w → BitVec w) (x : BitVec w) :
    host.encodeInt swab x = x := by
  cases host <;> rfl

/-! ## Numbers in memory -/

end Endian

/-- The number of which these are the bytes, the lowest first. -/
def lowFirst : List UInt8 → Nat
  | [] => 0
  | b :: bs => b.toNat + 256 * lowFirst bs

def lowBytes : (n : Nat) → Nat → List UInt8
  | 0, _ => []
  | n + 1, v => UInt8.ofNat v :: lowBytes n (v / 256)

theorem lowBytes_lowFirst (bs : List UInt8) : lowBytes bs.length (lowFirst bs) = bs := by
  induction bs with
  | nil => rfl
  | cons b bs ih =>
    have hb : b.toNat < 256 := b.toNat_lt
    have hdiv : (b.toNat + 256 * lowFirst bs) / 256 = lowFirst bs := by omega
    have hmod : UInt8.ofNat (b.toNat + 256 * lowFirst bs) = b := by
      apply UInt8.toNat_inj.1
      rw [UInt8.toNat_ofNat']
      omega
    rw [List.length_cons, lowFirst, lowBytes, hdiv, hmod, ih]

theorem lowFirst_lt (bs : List UInt8) : lowFirst bs < 256 ^ bs.length := by
  induction bs with
  | nil => exact Nat.one_pos
  | cons b bs ih =>
    have hb : b.toNat < 256 := b.toNat_lt
    rw [lowFirst, List.length_cons, Nat.pow_succ]
    omega

namespace Endian

/-- The number that `bs` is in memory. -/
def load (host : Endian) (w : Nat) (bs : List UInt8) : BitVec w :=
  match host with
  | little => BitVec.ofNat w (lowFirst bs)
  | big => BitVec.ofNat w (lowFirst bs.reverse)

/-- The `n` bytes of a number in memory. -/
def store {w : Nat} (host : Endian) (n : Nat) (x : BitVec w) : List UInt8 :=
  match host with
  | little => lowBytes n x.toNat
  | big => (lowBytes n x.toNat).reverse

theorem store_load (host : Endian) {w n : Nat} {bs : List UInt8} (hn : bs.length = n) (hw : 256 ^ n = 2 ^ w) :
    host.store n (host.load w bs) = bs := by
  subst hn
  cases host with
  | little =>
    have hlt := lowFirst_lt bs
    rw [hw] at hlt
    rw [load, store, BitVec.toNat_ofNat, Nat.mod_eq_of_lt hlt, lowBytes_lowFirst]
  | big =>
    have hlt := lowFirst_lt bs.reverse
    rw [List.length_reverse, hw] at hlt
    have hback := lowBytes_lowFirst bs.reverse
    rw [List.length_reverse] at hback
    rw [load, store, BitVec.toNat_ofNat, Nat.mod_eq_of_lt hlt, hback, List.reverse_reverse]

theorem bytes_eq_store (host : Endian) (v : UInt16) : host.bytes v = host.store 2 (host.encodeInt16 v.toBitVec) := by
  rw [encodeInt16, encodeInt_eq]
  cases host <;> rfl

end Endian

/-- `fn (*(const var_type *)addr)` of `CHECK_AND_ENCODE_BASETYPE`: the bytes of the packet for those in memory. -/
def Scalar.encode (host : Endian) (bs : List UInt8) : Scalar → List UInt8
  | int8 | v4Ipaddr | v6Ipaddr => bs
  | int16 => host.store 2 (host.encodeInt16 (host.load 16 bs))
  | int32 | float => host.store 4 (host.encodeInt32 (host.load 32 bs))
  | int64 | double => host.store 8 (host.encodeInt64 (host.load 64 bs))

theorem Scalar.encode_eq (host : Endian) {k : Scalar} {bs : List UInt8} (h : bs.length = k.size) :
    k.encode host bs = bs := by
  cases k with
  | int8 | v4Ipaddr | v6Ipaddr => rfl
  | int16 | int32 | float | int64 | double =>
    rw [encode]
    first | rw [Endian.encodeInt16] | rw [Endian.encodeInt32] | rw [Endian.encodeInt64]
    rw [Endian.encodeInt_eq]
    exact host.store_load h (by decide)

theorem TypeInfo.marshal_scalar (host : Endian) {k : Scalar} {cells : Cells} {bs : List UInt8}
    (h : Cells.read k.size cells = some bs) (w : Writer) :
    marshal host (scalar k) (.raw cells) w = .ok (k.size, w.encodeBase (k.encode host bs)) := by
  rw [k.encode_eq host (Cells.length_of_read h), marshal, h]
  rfl

/-! ## One value on two hosts -/

/-- The bytes of a number are the other way round on a host of the other kind. -/
def Scalar.isNumber : Scalar → Bool
  | int16 | int32 | int64 | float | double => true
  | int8 | v4Ipaddr | v6Ipaddr => false

/-- The two bytes of a count are equal. -/
def EvenCount (n : Nat) : Prop := Endian.little.bytes (UInt16.ofNat n) = Endian.big.bytes (UInt16.ofNat n)

namespace TypeInfo

mutual

/-- The value that a little-endian host has as `v`, on a big-endian host. -/
def mirror : TypeInfo → Val → Val
  | scalar k, .bytes bs => .bytes (if k.isNumber then bs.reverse else bs)
  | pointer t, .some v => .some (mirror t v)
  | reference t, v => mirror t v
  | struct fs, .list vs => .list (mirrorFields fs vs)
  | fixedArray _ t, .list vs => .list (vs.map (mirror t))
  | varArray _ t, .list vs => .list (vs.map (mirror t))
  | dynamicArray t, .list vs => .list (vs.map (mirror t))
  | _, v => v

def mirrorFields : List TypeInfo → List Val → List Val
  | f :: fs, v :: vs => mirror f v :: mirrorFields fs vs
  | _, vs => vs

end

mutual

/-- Every number and every count of the value reads the same from both ends. -/
def Symmetric : TypeInfo → Val → Prop
  | scalar k, .bytes bs => k.isNumber = true → bs.reverse = bs
  | pointer t, .some v => Symmetric t v
  | reference t, v => Symmetric t v
  | struct fs, .list vs => SymmetricFields fs vs
  | varBytes _, .bytes bs => EvenCount bs.length
  | dynamicBytes, .bytes bs => EvenCount bs.length
  | dynamicString, .bytes bs => EvenCount bs.length
  | fixedArray _ t, .list vs => ∀ v ∈ vs, Symmetric t v
  | varArray _ t, .list vs => EvenCount vs.length ∧ ∀ v ∈ vs, Symmetric t v
  | dynamicArray t, .list vs => EvenCount vs.length ∧ ∀ v ∈ vs, Symmetric t v
  | _, _ => True

def SymmetricFields : List TypeInfo → List Val → Prop
  | f :: fs, v :: vs => Symmetric f v ∧ SymmetricFields fs vs
  | _, _ => True

end

/-- `xs` and `ys` are of one length, and equal if and only if `P` holds. -/
structure Agree (xs ys : List UInt8) (P : Prop) : Prop where
  length_eq : xs.length = ys.length
  eq_iff : xs = ys ↔ P

theorem agree_self (xs : List UInt8) : Agree xs xs True := ⟨rfl, iff_of_true rfl trivial⟩

theorem agree_count (n : Nat) :
    Agree (Endian.little.bytes (UInt16.ofNat n)) (Endian.big.bytes (UInt16.ofNat n)) (EvenCount n) :=
  ⟨by rw [Endian.length_bytes, Endian.length_bytes], Iff.rfl⟩

namespace Agree
variable {xs ys xs' ys' : List UInt8} {P Q : Prop}

theorem append (h : Agree xs ys P) (h' : Agree xs' ys' Q) : Agree (xs ++ xs') (ys ++ ys') (P ∧ Q) := by
  constructor
  · rw [List.length_append, List.length_append, h.length_eq, h'.length_eq]
  · rw [← h.eq_iff, ← h'.eq_iff]
    constructor
    · exact fun heq => List.append_inj heq h.length_eq
    · rintro ⟨rfl, rfl⟩
      rfl

theorem prepend (bs : List UInt8) (h : Agree xs ys P) : Agree (bs ++ xs) (bs ++ ys) P := by
  have hboth := (agree_self bs).append h
  rwa [true_and] at hboth

theorem tail (h : Agree xs ys P) (bs : List UInt8) : Agree (xs ++ bs) (ys ++ bs) P := by
  have hboth := h.append (agree_self bs)
  rwa [and_true] at hboth

theorem flatMap {f g : Val → List UInt8} {m : Val → Val} {R : Val → Prop} (vs : List Val)
    (h : ∀ v, Agree (f v) (g (m v)) (R v)) : Agree (vs.flatMap f) ((vs.map m).flatMap g) (∀ v ∈ vs, R v) := by
  induction vs with
  | nil => exact ⟨rfl, iff_of_true rfl (by simp)⟩
  | cons v vs ih =>
    have hboth := (h v).append ih
    rwa [← List.forall_mem_cons] at hboth

end Agree

theorem agree_scalar (k : Scalar) (bs : List UInt8) :
    Agree bs (if k.isNumber then bs.reverse else bs) (k.isNumber = true → bs.reverse = bs) := by
  cases k.isNumber with
  | false => exact ⟨rfl, iff_of_true rfl (by simp)⟩
  | true =>
    refine ⟨(List.length_reverse ..).symm, ?_⟩
    rw [if_pos rfl]
    exact ⟨fun h _ => h.symm, fun h => (h rfl).symm⟩

mutual

/-- What the two hosts write for a value is of one length, and the same if and only if the value is symmetric. -/
theorem enc_agree : ∀ (t : TypeInfo) (v : Val), Agree (enc .little t v) (enc .big t (mirror t v)) (Symmetric t v)
  | void, v => by simpa only [enc, mirror, Symmetric] using agree_self []
  | scalar k, v => by
    cases v with
    | bytes bs => simpa only [enc, mirror, Symmetric] using agree_scalar k bs
    | null | some _ | list _ => simpa only [enc, mirror, Symmetric] using agree_self []
  | pointer t, v => by
    cases v with
    | some v => simpa only [enc, mirror, Symmetric] using (enc_agree t v).prepend [1]
    | null => simpa only [enc, mirror, Symmetric] using agree_self [0]
    | bytes _ | list _ => simpa only [enc, mirror, Symmetric] using agree_self []
  | reference t, v => by simpa only [enc, mirror, Symmetric] using enc_agree t v
  | string, v => by
    cases v <;> simpa only [enc, mirror, Symmetric] using agree_self _
  | struct fs, v => by
    cases v with
    | list vs => simpa only [enc, mirror, Symmetric] using encFields_agree fs vs
    | null | some _ | bytes _ => simpa only [enc, mirror, Symmetric] using agree_self []
  | fixedBytes n, v => by
    cases v <;> simpa only [enc, mirror, Symmetric] using agree_self _
  | varBytes max, v => by
    cases v with
    | bytes bs => simpa only [enc, mirror, Symmetric] using (agree_count bs.length).tail bs
    | null | some _ | list _ => simpa only [enc, mirror, Symmetric] using agree_self []
  | bytesWithNil max, v => by
    cases v <;> simpa only [enc, mirror, Symmetric] using agree_self _
  | dynamicBytes, v => by
    cases v with
    | bytes bs => simpa only [enc, mirror, Symmetric] using (agree_count bs.length).tail bs
    | null | some _ | list _ => simpa only [enc, mirror, Symmetric] using agree_self []
  | dynamicString, v => by
    cases v with
    | bytes bs => simpa only [enc, mirror, Symmetric] using (agree_count bs.length).tail bs
    | null | some _ | list _ => simpa only [enc, mirror, Symmetric] using agree_self []
  | fixedArray n t, v => by
    cases v with
    | list vs => simpa only [enc, mirror, Symmetric] using Agree.flatMap vs (enc_agree t)
    | null | some _ | bytes _ => simpa only [enc, mirror, Symmetric] using agree_self []
  | varArray max t, v => by
    cases v with
    | list vs =>
      simpa only [enc, mirror, Symmetric, List.length_map] using
        (agree_count vs.length).append (Agree.flatMap vs (enc_agree t))
    | null | some _ | bytes _ => simpa only [enc, mirror, Symmetric] using agree_self []
  | dynamicArray t, v => by
    cases v with
    | list vs =>
      simpa only [enc, mirror, Symmetric, List.length_map] using
        (agree_count vs.length).append (Agree.flatMap vs (enc_agree t))
    | null | some _ | bytes _ => simpa only [enc, mirror, Symmetric] using agree_self []

theorem encFields_agree : ∀ (fs : List TypeInfo) (vs : List Val),
    Agree (encFields .little fs vs) (encFields .big fs (mirrorFields fs vs)) (SymmetricFields fs vs)
  | [], vs => by
    cases vs <;> simpa only [encFields, mirrorFields, SymmetricFields] using agree_self []
  | f :: fs, [] => by simpa only [encFields, mirrorFields, SymmetricFields] using agree_self []
  | f :: fs, v :: vs => by
    simpa only [encFields, mirrorFields, SymmetricFields] using (enc_agree f v).append (encFields_agree fs vs)

end

/-! ## Two hosts -/

/-- A host of the order `e` reads `bs` as the value `v`, whatever follows them. -/
def Reads (e : Endian) (mem : Nat → Bool) (t : TypeInfo) (bs : List UInt8) (v : Val) : Prop :=
  ∀ o₀, Shaped t o₀ →
    Takes (unmarshal e mem t (initTypedObj t o₀)) bs.length bs fun o => value t o = some v

theorem reads_enc (e : Endian) {mem : Nat → Bool} (hmem : ∀ b, mem b = true) {t : TypeInfo} {o : Obj} {v : Val}
    (hv : value t o = some v) : Reads e mem t (enc e t v) v :=
  fun o₀ h₀ => unmarshal_spec e mem hmem t o v hv _ (Shaped.init t o₀ h₀)

theorem marshal_contents (e : Endian) {t : TypeInfo} {o : Obj} {v : Val} (hv : value t o = some v) {c : Chain}
    (hroom : ∀ p ∈ c.next, p.data = [] ∧ 0 < p.tailroom)
    (hshort : ∀ p ∈ c.psb :: c.next, p.data.length + p.tailroom < 0x80000000) :
    ∃ w, aoslMarshal e t o c = .ok ((enc e t v).length, w) ∧ w.contents = c.psb.data ++ enc e t v := by
  obtain ⟨w, hw, hholds⟩ := marshal_spec e t o v hv _ _ _ (Writer.holds_nil hroom hshort)
  exact ⟨w, hw, hholds.data⟩

/-- A little-endian host has the value `v` as the object `o`, a big-endian one has it as `o'`. They put the same bytes
on the wire, and each reads the other's as the value, if and only if the numbers and counts of the value read the same
from both ends. -/
theorem one_format_iff {mem : Nat → Bool} (hmem : ∀ b, mem b = true) {t : TypeInfo} {o o' : Obj} {v : Val}
    (hv : value t o = some v) (hv' : value t o' = some (mirror t v)) (c : Chain)
    (hroom : ∀ p ∈ c.next, p.data = [] ∧ 0 < p.tailroom)
    (hshort : ∀ p ∈ c.psb :: c.next, p.data.length + p.tailroom < 0x80000000) :
    ∃ n n' w w', aoslMarshal .little t o c = .ok (n, w) ∧ aoslMarshal .big t o' c = .ok (n', w') ∧
      ((w.contents = w'.contents ∧ Reads .big mem t (w.contents.drop c.psb.data.length) (mirror t v) ∧
        Reads .little mem t (w'.contents.drop c.psb.data.length) v) ↔ Symmetric t v) := by
  obtain ⟨w, hw, hcont⟩ := marshal_contents .little hv hroom hshort
  obtain ⟨w', hw', hcont'⟩ := marshal_contents .big hv' hroom hshort
  refine ⟨_, _, w, w', hw, hw', ?_⟩
  rw [hcont, hcont', List.drop_left, List.drop_left, List.append_cancel_left_eq, ← (enc_agree t v).eq_iff]
  constructor
  · exact fun h => h.1
  · intro heq
    refine ⟨heq, ?_, ?_⟩
    · rw [heq]
      exact reads_enc .big hmem hv'
    · rw [← heq]
      exact reads_enc .little hmem hv

theorem one_format_iff_five : ∃ n n' w w',
    aoslMarshal .little (scalar .int16) (.raw [some 5, some 5]) ⟨⟨[], 8, none⟩, []⟩ = .ok (n, w) ∧
      aoslMarshal .big (scalar .int16) (.raw [some 5, some 5]) ⟨⟨[], 8, none⟩, []⟩ = .ok (n', w') ∧
      ((w.contents = w'.contents ∧
        Reads .big (fun _ => true) (scalar .int16) (w.contents.drop 0) (.bytes [5, 5]) ∧
        Reads .little (fun _ => true) (scalar .int16) (w'.contents.drop 0) (.bytes [5, 5])) ↔
      Symmetric (scalar .int16) (.bytes [5, 5])) :=
  @one_format_iff (fun _ => true) (fun _ => rfl) (scalar .int16) (.raw [some 5, some 5]) (.raw [some 5, some 5])
    (.bytes [5, 5]) rfl rfl ⟨⟨[], 8, none⟩, []⟩ (by simp) (by simp)

/-- The number 1 in 16 bits. -/
theorem not_one_format : value (scalar .int16) (.raw [some 1, some 0]) = some (.bytes [1, 0]) ∧
    value (scalar .int16) (.raw [some 0, some 1]) = some (mirror (scalar .int16) (.bytes [1, 0])) ∧
    ∃ w w', aoslMarshal .little (scalar .int16) (.raw [some 1, some 0]) ⟨⟨[], 8, none⟩, []⟩ = .ok (2, w) ∧
      aoslMarshal .big (scalar .int16) (.raw [some 0, some 1]) ⟨⟨[], 8, none⟩, []⟩ = .ok (2, w') ∧
      w.contents = [1, 0] ∧ w'.contents = [0, 1] ∧ w.contents ≠ w'.contents :=
  ⟨rfl, rfl, _, _, rfl, rfl, rfl, rfl, by decide⟩

end TypeInfo

end Aosl
