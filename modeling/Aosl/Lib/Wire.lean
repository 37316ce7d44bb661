import Mathlib.Data.List.Basic
import Mathlib.Tactic.Common

/-!
# Numbers in lists of bytes

Numbers of two and of four bytes with the lowest byte first, and blocks whose length is rounded up to a multiple of
four.
-/

namespace Lib

def le16 (n : Nat) : List UInt8 := [UInt8.ofNat n, UInt8.ofNat (n / 256)]

def le32 (n : Nat) : List UInt8 := le16 n ++ le16 (n / 65536)

/-- The number in the first two bytes. -/
def u16 : List UInt8 → Nat
  | a :: b :: _ => a.toNat + 256 * b.toNat
  | _ => 0

/-- The number in the first four bytes. -/
def u32 (bs : List UInt8) : Nat := u16 bs + 65536 * u16 (bs.drop 2)

def align4 (n : Nat) : Nat := (n + 3) / 4 * 4

/-- The bytes with zeros up to the next multiple of four. -/
def padded (bs : List UInt8) : List UInt8 := bs ++ List.replicate (align4 bs.length - bs.length) 0

variable {n : Nat} {bs t : List UInt8}

@[simp] theorem length_le16 (n : Nat) : (le16 n).length = 2 := rfl

@[simp] theorem length_le32 (n : Nat) : (le32 n).length = 4 := rfl

theorem le_align4 (n : Nat) : n ≤ align4 n := by
  unfold align4
  omega

@[simp] theorem length_padded (bs : List UInt8) : (padded bs).length = align4 bs.length := by
  have hle := le_align4 bs.length
  rw [padded, List.length_append, List.length_replicate]
  omega

theorem u16_le16_append (h : n < 65536) : u16 (le16 n ++ t) = n := by
  show (UInt8.ofNat n).toNat + 256 * (UInt8.ofNat (n / 256)).toNat = n
  rw [UInt8.toNat_ofNat', UInt8.toNat_ofNat']
  omega

theorem u32_le32_append (h : n < 4294967296) : u32 (le32 n ++ t) = n := by
  have hlow : u16 (le32 n ++ t) = n % 65536 := by
    have hmod : le16 n = le16 (n % 65536) := by
      simp only [le16, List.cons.injEq, and_true]
      constructor
      · apply UInt8.toNat_inj.1
        rw [UInt8.toNat_ofNat', UInt8.toNat_ofNat']
        omega
      · apply UInt8.toNat_inj.1
        rw [UInt8.toNat_ofNat', UInt8.toNat_ofNat']
        omega
    rw [le32, List.append_assoc, hmod]
    exact u16_le16_append (Nat.mod_lt _ (by decide))
  have hhigh : u16 ((le32 n ++ t).drop 2) = n / 65536 := u16_le16_append (by omega)
  rw [u32, hlow, hhigh]
  omega

theorem u32_append (h : 4 ≤ bs.length) : u32 (bs ++ t) = u32 bs := by
  match bs, h with
  | _ :: _ :: _ :: _ :: _, _ => rfl

end Lib
