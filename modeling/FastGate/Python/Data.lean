/-
# FastGate.Python.Data — what a JSON value means

The data model of JSON without its spelling: numbers are rational numbers, and an object is a function
from names to data.  `Value.data` forgets how a value was written down: the order of members and the
exponents of numbers.  Two values mean the same exactly when `data` makes them equal.
-/
import FastGate.Python.Value

namespace FastGate.Python

/-- JSON data. -/
inductive Data where
  | null
  | bool (b : Bool)
  | num (q : ℚ)
  | str (s : Str)
  | arr (xs : List Data)
  | obj (lookup : Str → Option Data)

namespace Value

/-- The data of a value. -/
def data : Value → Data
  | .null => .null
  | .bool b => .bool b
  | .num d => .num d.value
  | .str s => .str s
  | .arr xs => .arr (elements xs)
  | .obj ms => .obj (members ms)
where
  elements : List Value → List Data
    | [] => []
    | x :: xs => x.data :: elements xs
  members : List (Str × Value) → Str → Option Data
    | [], _ => none
    | (k, v) :: ms, key => if k = key then some v.data else members ms key

theorem data_arr (xs : List Value) : data (.arr xs) = .arr (xs.map data) := by
  rw [data]
  congr 1
  induction xs with
  | nil => rfl
  | cons x xs ih => rw [data.elements, ih, List.map_cons]

theorem data_obj (ms : List (Str × Value)) :
    data (.obj ms) = .obj fun key => (Dict.get? ms key).map data := by
  rw [data]
  congr 1
  funext key
  induction ms with
  | nil => rfl
  | cons m ms ih =>
    obtain ⟨k, v⟩ := m
    rw [data.members, ih, Dict.get?_cons]
    split <;> rfl

end Value

/-- Whole numbers are the values without a fraction, however they are spelled. -/
theorem Decimal.isIntegral_iff (d : Decimal) : d.isIntegral = true ↔ ∃ z : ℤ, d.value = z := by
  obtain ⟨negative, coefficient, exponent⟩ := d
  obtain ⟨n, rfl | rfl⟩ := Int.eq_nat_or_neg exponent
  · refine iff_of_true (by simp [isIntegral]) ?_
    refine ⟨(if negative then -(coefficient : ℤ) else coefficient) * 10 ^ n, ?_⟩
    simp only [value, zpow_natCast]
    split <;> push_cast <;> rfl
  · -- below zero the power of ten has to divide the coefficient
    have hpos : (10 : ℚ) ^ n ≠ 0 := pow_ne_zero _ (by norm_num)
    have hvalue : ∀ z : ℤ, value ⟨negative, coefficient, -n⟩ = z ↔
        (coefficient : ℤ) = (if negative then -z else z) * 10 ^ n := by
      intro z
      simp only [value, zpow_neg, zpow_natCast, ← div_eq_mul_inv]
      rw [div_eq_iff hpos]
      cases negative <;> simp only [Bool.false_eq_true, if_true, if_false]
      · exact_mod_cast Iff.rfl
      · rw [neg_mul, ← neg_eq_iff_eq_neg]
        exact_mod_cast Iff.rfl
    have hdvd : isIntegral ⟨negative, coefficient, -n⟩ = true ↔ (10 : ℤ) ^ n ∣ coefficient := by
      rw [isIntegral, Bool.or_eq_true, decide_eq_true_eq, beq_iff_eq, neg_neg, Int.toNat_natCast,
        ← Nat.dvd_iff_mod_eq_zero]
      have hnat : (10 : ℤ) ^ n ∣ coefficient ↔ 10 ^ n ∣ coefficient := by
        exact_mod_cast Int.natCast_dvd_natCast
      rw [hnat]
      refine or_iff_right_of_imp fun h => ?_
      obtain rfl : n = 0 := by simpa using h
      simp
    rw [hdvd]
    simp only [hvalue]
    constructor
    · rintro ⟨z, hz⟩
      refine ⟨if negative then -z else z, ?_⟩
      rw [hz, mul_comm]
      split <;> simp
    · rintro ⟨z, hz⟩
      exact ⟨_, hz.trans (mul_comm _ _)⟩

end FastGate.Python
