import Mathlib.Data.List.Basic
import Mathlib.Tactic.Ring

/-!
# Big-endian byte strings

Fixed-width unsigned integers as byte strings, most significant byte first.
The width is an argument, so one pair of inverse laws serves every wire field.
-/

namespace Torrentina.Core

/-- The `width` low bytes of `n`, most significant first. -/
def toBE : (width n : Nat) → List UInt8
  | 0, _ => []
  | w + 1, n => UInt8.ofNat (n / 256 ^ w) :: toBE w n

/-- The number a byte string denotes, most significant byte first. -/
def ofBE : List UInt8 → Nat
  | [] => 0
  | b :: bs => b.toNat * 256 ^ bs.length + ofBE bs

@[simp] theorem length_toBE (w n : Nat) : (toBE w n).length = w := by
  induction w with
  | zero => rfl
  | succ w ih => simp only [toBE, List.length_cons, ih]

theorem ofBE_lt (bs : List UInt8) : ofBE bs < 256 ^ bs.length := by
  induction bs with
  | nil => simp [ofBE]
  | cons b bs ih =>
    have hb : b.toNat + 1 ≤ 256 := b.toNat_lt
    have hm : (b.toNat + 1) * 256 ^ bs.length ≤ 256 * 256 ^ bs.length :=
      Nat.mul_le_mul_right _ hb
    rw [ofBE, List.length_cons, pow_succ]
    rw [Nat.add_mul] at hm
    omega

/-- Reading back a written number loses exactly its bytes above the width. -/
theorem ofBE_toBE (w n : Nat) : ofBE (toBE w n) = n % 256 ^ w := by
  induction w with
  | zero => simp [toBE, ofBE, Nat.mod_one]
  | succ w ih =>
    rw [toBE, ofBE, length_toBE, ih, pow_succ, Nat.mod_mul]
    have : (UInt8.ofNat (n / 256 ^ w)).toNat = n / 256 ^ w % 256 := by
      rw [UInt8.toNat_ofNat']
    rw [this]
    ring

/-- A number that fits its width survives the round trip. -/
theorem ofBE_toBE_of_lt {w n : Nat} (h : n < 256 ^ w) : ofBE (toBE w n) = n := by
  rw [ofBE_toBE, Nat.mod_eq_of_lt h]

private theorem toBE_add_mul (w n k : Nat) : toBE w (k * 256 ^ w + n) = toBE w n := by
  induction w generalizing k with
  | zero => rfl
  | succ w ih =>
    have hs : k * 256 ^ (w + 1) + n = (k * 256) * 256 ^ w + n := by ring
    rw [toBE, toBE, hs, ih]
    congr 1
    apply UInt8.toNat_inj.mp
    rw [UInt8.toNat_ofNat', UInt8.toNat_ofNat', Nat.add_comm,
      Nat.add_mul_div_right _ _ (Nat.pow_pos (by decide))]
    omega

/-- Writing back the number a byte string denotes recovers every byte. -/
theorem toBE_ofBE (bs : List UInt8) : toBE bs.length (ofBE bs) = bs := by
  induction bs with
  | nil => rfl
  | cons b bs ih =>
    rw [List.length_cons, toBE, ofBE, toBE_add_mul, ih]
    congr 1
    apply UInt8.toNat_inj.mp
    have hb := b.toNat_lt
    rw [UInt8.toNat_ofNat', Nat.add_comm, Nat.add_mul_div_right _ _ (Nat.pow_pos (by decide)),
      Nat.div_eq_of_lt (ofBE_lt bs)]
    omega

end Torrentina.Core
