import Mathlib.Data.List.Basic

/-!
# ASCII decimal numerals

Printing a natural number as ASCII digits and reading an unsigned digit string
back. Reading accepts leading zeros; printing never produces them.
-/

namespace Torrentina.Core

/-- An ASCII digit. -/
def IsDigit (b : UInt8) : Prop := 48 ≤ b.toNat ∧ b.toNat ≤ 57

instance (b : UInt8) : Decidable (IsDigit b) := inferInstanceAs (Decidable (_ ∧ _))

/-- The digits of `n`, most significant first, at least one of them. -/
def decimal (n : Nat) : List UInt8 :=
  if n < 10 then [UInt8.ofNat (48 + n)] else decimal (n / 10) ++ [UInt8.ofNat (48 + n % 10)]

/-- The value of a digit string, continuing from the digits read so far. -/
def digitsValue (acc : Nat) : List UInt8 → Option Nat
  | [] => some acc
  | b :: bs => if IsDigit b then digitsValue (acc * 10 + (b.toNat - 48)) bs else none

/-- The value of a non-empty string of digits. -/
def parseDecimal : List UInt8 → Option Nat
  | [] => none
  | b :: bs => digitsValue 0 (b :: bs)

private theorem toNat_digit {d : Nat} (h : d < 10) : (UInt8.ofNat (48 + d)).toNat = 48 + d := by
  rw [UInt8.toNat_ofNat']
  omega

private theorem isDigit_digit {d : Nat} (h : d < 10) : IsDigit (UInt8.ofNat (48 + d)) := by
  rw [IsDigit, toNat_digit h]
  omega

/-- Every printed byte is a digit. -/
theorem isDigit_of_mem_decimal {n : Nat} {b : UInt8} (h : b ∈ decimal n) : IsDigit b := by
  induction n using decimal.induct with
  | case1 n hn =>
    rw [decimal, if_pos hn, List.mem_singleton] at h
    rw [h]
    exact isDigit_digit hn
  | case2 n hn ih =>
    rw [decimal, if_neg hn, List.mem_append, List.mem_singleton] at h
    rcases h with h | rfl
    · exact ih h
    · exact isDigit_digit (by omega)

theorem decimal_ne_nil (n : Nat) : decimal n ≠ [] := by
  rw [decimal]
  split <;> simp

/-- A numeral begins with a digit. -/
theorem exists_decimal_eq_cons (n : Nat) : ∃ c cs, decimal n = c :: cs ∧ IsDigit c := by
  cases hn : decimal n with
  | nil => exact absurd hn (decimal_ne_nil n)
  | cons c cs => exact ⟨c, cs, rfl, isDigit_of_mem_decimal (hn ▸ List.mem_cons_self)⟩

/-- A delimiter that is no digit does not occur in a numeral. -/
theorem notMem_decimal {c : UInt8} (hc : ¬ IsDigit c) (n : Nat) : c ∉ decimal n :=
  fun hm => hc (isDigit_of_mem_decimal hm)

private theorem digitsValue_append (acc : Nat) (xs ys : List UInt8) :
    digitsValue acc (xs ++ ys) = (digitsValue acc xs).bind fun v => digitsValue v ys := by
  induction xs generalizing acc with
  | nil => rfl
  | cons b bs ih =>
    rw [List.cons_append, digitsValue, digitsValue]
    split
    · exact ih _
    · rfl

private theorem digitsValue_decimal (n : Nat) : digitsValue 0 (decimal n) = some n := by
  induction n using decimal.induct with
  | case1 n hn =>
    rw [decimal, if_pos hn, digitsValue, if_pos (isDigit_digit hn), digitsValue, toNat_digit hn]
    congr 1
    omega
  | case2 n hn ih =>
    have hd : n % 10 < 10 := by omega
    rw [decimal, if_neg hn, digitsValue_append, ih, Option.bind_some, digitsValue,
      if_pos (isDigit_digit hd), digitsValue, toNat_digit hd]
    congr 1
    omega

/-- Reading a printed number gives the number back. -/
theorem parseDecimal_decimal (n : Nat) : parseDecimal (decimal n) = some n := by
  cases h : decimal n with
  | nil => exact absurd h (decimal_ne_nil n)
  | cons b bs => rw [parseDecimal, ← h, digitsValue_decimal]

end Torrentina.Core
