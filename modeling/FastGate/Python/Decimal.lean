/-
# FastGate.Python.Decimal — exact decimal numbers

`decimal.Decimal` as the contract checker uses it: a sign, a coefficient and an exponent.  Numbers are
compared by value and never rounded; the same value has many spellings.
-/
import FastGate.Json.Token
import Mathlib.Algebra.Order.Field.Basic
import Mathlib.Data.Rat.Cast.Order
import Mathlib.Tactic.FieldSimp
import Mathlib.Tactic.NormNum
import Mathlib.Tactic.Ring

namespace FastGate.Python

open FastGate.Json (Number digitsValue)

/-- A finite `Decimal`. -/
structure Decimal where
  negative : Bool
  coefficient : Nat
  exponent : Int
  deriving DecidableEq, Repr

namespace Decimal

/-- `Decimal(value)` for a JSON number literal. -/
def ofNumber (n : Number) : Decimal :=
  ⟨n.negative, digitsValue (n.int ++ n.frac), n.exponent - n.frac.length⟩

/-- `Decimal(value)` for an `int`. -/
def ofNat (n : Nat) : Decimal := ⟨false, n, 0⟩

/-- `Decimal(value)` for a signed `int`. -/
def ofInt (n : Int) : Decimal := ⟨n < 0, n.natAbs, 0⟩

/-- The coefficient with its sign, scaled to a smaller exponent. -/
def scaled (a : Decimal) (exponent : Int) : Int :=
  (if a.negative then -(a.coefficient : Int) else a.coefficient) * 10 ^ (a.exponent - exponent).toNat

/-- `a == b` -/
def eqValue (a b : Decimal) : Bool :=
  a.scaled (min a.exponent b.exponent) == b.scaled (min a.exponent b.exponent)

/-- `a < b` -/
def ltValue (a b : Decimal) : Bool :=
  a.scaled (min a.exponent b.exponent) < b.scaled (min a.exponent b.exponent)

/-- `a == a.to_integral_value()` -/
def isIntegral (a : Decimal) : Bool :=
  0 ≤ a.exponent || a.coefficient % 10 ^ (-a.exponent).toNat == 0

/-! ## Values -/

/-- The number a decimal stands for. -/
def value (a : Decimal) : ℚ :=
  (if a.negative then -(a.coefficient : ℚ) else a.coefficient) * 10 ^ a.exponent

theorem scaled_value (a : Decimal) {e : Int} (he : e ≤ a.exponent) :
    (a.scaled e : ℚ) * 10 ^ e = a.value := by
  have hpow : (10 : ℚ) ^ a.exponent = 10 ^ (a.exponent - e).toNat * 10 ^ e := by
    rw [← zpow_natCast, Int.toNat_of_nonneg (by omega), ← zpow_add₀ (by norm_num), Int.sub_add_cancel]
  rw [value, hpow, ← mul_assoc]
  congr 1
  unfold scaled
  split <;> push_cast <;> rfl

/-- Decimals are equal when their values are, whatever their spelling. -/
theorem eqValue_iff (a b : Decimal) : a.eqValue b = true ↔ a.value = b.value := by
  have hpos : (10 : ℚ) ^ min a.exponent b.exponent ≠ 0 := zpow_ne_zero _ (by norm_num)
  rw [eqValue, beq_iff_eq, ← a.scaled_value (Int.min_le_left _ b.exponent),
    ← b.scaled_value (Int.min_le_right a.exponent _), mul_left_inj' hpos, Int.cast_inj]

theorem ltValue_iff (a b : Decimal) : a.ltValue b = true ↔ a.value < b.value := by
  have hpos : (0 : ℚ) < 10 ^ min a.exponent b.exponent := zpow_pos (by norm_num) _
  rw [ltValue, decide_eq_true_eq, ← a.scaled_value (Int.min_le_left _ b.exponent),
    ← b.scaled_value (Int.min_le_right a.exponent _), mul_lt_mul_iff_left₀ hpos, Int.cast_lt]

theorem digitsValue_append (ds es : List Nat) :
    digitsValue (ds ++ es) = digitsValue ds * 10 ^ es.length + digitsValue es := by
  have hfold : ∀ (es : List Nat) (n : Nat),
      es.foldl (fun n d => 10 * n + d) n = n * 10 ^ es.length + digitsValue es := by
    intro es
    induction es with
    | nil => intro n; simp [digitsValue]
    | cons d es ih =>
      intro n
      have hd := ih (10 * 0 + d)
      rw [digitsValue, List.foldl_cons, List.foldl_cons, ih, hd, List.length_cons, Nat.pow_succ]
      ring
  rw [digitsValue, List.foldl_append, ← digitsValue, hfold]

/-- The number that a literal writes. -/
def literalValue (n : Number) : ℚ :=
  (if n.negative then -1 else 1) * (digitsValue n.int + digitsValue n.frac / 10 ^ n.frac.length) *
    10 ^ n.exponent

/-- Reading a literal is exact. -/
theorem value_ofNumber (n : Number) : (ofNumber n).value = literalValue n := by
  have hpow : (10 : ℚ) ^ (n.exponent - n.frac.length) = 10 ^ n.exponent / 10 ^ n.frac.length := by
    rw [zpow_sub₀ (by norm_num), zpow_natCast]
  have hne : (10 : ℚ) ^ n.frac.length ≠ 0 := pow_ne_zero _ (by norm_num)
  simp only [value, ofNumber, literalValue, digitsValue_append, hpow]
  push_cast
  field_simp
  split <;> ring

@[simp] theorem value_ofNat (n : Nat) : (ofNat n).value = n := by simp [ofNat, value]

@[simp] theorem value_ofInt (n : Int) : (ofInt n).value = n := by
  have habs : ((n.natAbs : ℤ) : ℚ) = if n < 0 then -(n : ℚ) else n := by
    split
    · rw [Int.ofNat_natAbs_of_nonpos (by omega), Int.cast_neg]
    · rw [Int.natAbs_of_nonneg (by omega)]
  rw [Int.cast_natCast] at habs
  simp only [value, ofInt, zpow_zero, mul_one, decide_eq_true_eq, habs]
  split <;> simp

theorem isIntegral_ofInt (n : Int) : (ofInt n).isIntegral = true := rfl

end Decimal

end FastGate.Python
