/-
# FastGate.CheckContract.NumberKey — one text for every spelling of a number

`number_key` writes the sign, the digits without trailing zeros and the exponent that goes with them.
Two numbers have the same key exactly when they are equal (`numberKey_eq_iff`).
-/
import FastGate.CheckContract.Rules
import Mathlib.Data.List.TakeWhile
import Mathlib.Data.Nat.Digits.Lemmas

open FastGate.Python

namespace FastGate.CheckContract

/-- `str(n)` for a signed integer. -/
def intText (n : Int) : Str := if n < 0 then 0x2D :: decimalText n.natAbs else decimalText n.natAbs

/-- The digits of a coefficient, least significant first, without the zeros at that end. -/
def keptDigits (coefficient : Nat) : List Nat := (Nat.digits 10 coefficient).dropWhile (· == 0)

/-- How many zeros `keptDigits` drops. -/
def poppedZeros (coefficient : Nat) : Nat :=
  (Nat.digits 10 coefficient).length - (keptDigits coefficient).length

/-- `number_key` inside `schema_validation_fingerprint`. -/
def numberKey (d : Decimal) : Str :=
  if d.coefficient = 0 then str "0"
  else
    str (if d.negative then "1" else "0") ++ (0x3A ::
      ((keptDigits d.coefficient).reverse.map (0x30 + ·) ++ (0x3A ::
        intText (d.exponent + poppedZeros d.coefficient))))

/-! ## Digits -/

theorem digits_eq (n : Nat) :
    Nat.digits 10 n = List.replicate (poppedZeros n) 0 ++ keptDigits n := by
  have hsplit := List.takeWhile_append_dropWhile (p := fun d : Nat => d == 0) (l := Nat.digits 10 n)
  have hlength : ((Nat.digits 10 n).takeWhile (fun d => d == 0)).length = poppedZeros n := by
    have h := congrArg List.length hsplit
    rw [List.length_append] at h
    rw [poppedZeros, keptDigits]
    omega
  have hzeros : (Nat.digits 10 n).takeWhile (fun d => d == 0) = List.replicate (poppedZeros n) 0 := by
    rw [List.eq_replicate_iff]
    refine ⟨hlength, fun d hd => ?_⟩
    exact beq_iff_eq.mp (List.mem_takeWhile_imp (p := fun d => d == 0) hd)
  rw [← hzeros]
  exact hsplit.symm

/-- What is left of the coefficient. -/
def keptCoefficient (n : Nat) : Nat := Nat.ofDigits 10 (keptDigits n)

theorem keptCoefficient_mul (n : Nat) : keptCoefficient n * 10 ^ poppedZeros n = n := by
  have h := congrArg (Nat.ofDigits 10) (digits_eq n)
  rw [Nat.ofDigits_digits, Nat.ofDigits_append, List.length_replicate, Nat.ofDigits_replicate_zero,
    Nat.zero_add, Nat.mul_comm] at h
  exact h.symm

theorem keptDigits_ne_nil {n : Nat} (h : n ≠ 0) : keptDigits n ≠ [] := by
  intro hnil
  apply h
  rw [← keptCoefficient_mul n, keptCoefficient, hnil]
  simp

/-- The kept digits are those of what is left. -/
theorem digits_keptCoefficient (n : Nat) : Nat.digits 10 (keptCoefficient n) = keptDigits n := by
  refine Nat.digits_ofDigits 10 (by omega) _ (fun d hd => ?_) fun hne => ?_
  · have hmem : d ∈ Nat.digits 10 n := by
      rw [digits_eq]
      exact List.mem_append_right _ hd
    exact Nat.digits_lt_base (by omega) hmem
  · have hn : n ≠ 0 := by
      rintro rfl
      exact hne rfl
    have hlast := Nat.getLast_digit_ne_zero 10 hn
    have hlist : (Nat.digits 10 n).getLast (Nat.digits_ne_nil_iff_ne_zero.mpr hn) =
        (keptDigits n).getLast hne := by
      simp only [digits_eq n, List.getLast_append_of_ne_nil _ hne]
    rwa [hlist] at hlast

/-- What is left does not end in a zero. -/
theorem keptCoefficient_mod {n : Nat} (h : n ≠ 0) : keptCoefficient n % 10 ≠ 0 := by
  have hne := keptDigits_ne_nil h
  obtain ⟨d, ds, hcons⟩ := List.exists_cons_of_ne_nil hne
  have hhead : (d == 0) = false := by
    have hdrop := List.head_dropWhile_not (fun d : Nat => d == 0) hne
    have hd : (keptDigits n).head hne = d := by simp [hcons]
    rw [← hd]
    simpa [keptDigits] using hdrop
  rw [keptCoefficient, hcons, Nat.ofDigits_cons]
  have hlt : d < 10 := by
    have hmem : d ∈ Nat.digits 10 n := by
      rw [digits_eq, hcons]
      exact List.mem_append_right _ List.mem_cons_self
    exact Nat.digits_lt_base (by omega) hmem
  have hd : d ≠ 0 := by simpa using hhead
  omega

theorem kept_text (n : Nat) (h : n ≠ 0) :
    (keptDigits n).reverse.map (0x30 + ·) = decimalText (keptCoefficient n) := by
  have hne : keptCoefficient n ≠ 0 := fun hzero => keptCoefficient_mod h (by rw [hzero])
  rw [decimalText, if_neg hne, digits_keptCoefficient]

/-! ## Values -/

/-- The value of a number, from what its key writes down. -/
theorem value_kept (d : Decimal) : d.value =
    (if d.negative then -(keptCoefficient d.coefficient : ℚ) else keptCoefficient d.coefficient) *
      10 ^ (d.exponent + poppedZeros d.coefficient) := by
  have hmul : (d.coefficient : ℚ) =
      keptCoefficient d.coefficient * 10 ^ poppedZeros d.coefficient := by
    exact_mod_cast (keptCoefficient_mul d.coefficient).symm
  rw [Decimal.value, zpow_add₀ (by norm_num), zpow_natCast, hmul]
  split <;> ring

/-- Powers of ten cannot be exchanged for digits, once the zeros are gone. -/
theorem kept_unique {m n : Nat} {e f : Int} (hm : m % 10 ≠ 0) (hn : n % 10 ≠ 0)
    (h : (m : ℚ) * 10 ^ e = n * 10 ^ f) : m = n ∧ e = f := by
  have hpos : ∀ k : Int, (10 : ℚ) ^ k ≠ 0 := fun k => zpow_ne_zero k (by norm_num)
  have hstep : ∀ {m n : Nat} {e : Int} {k : Nat}, m % 10 ≠ 0 →
      (m : ℚ) * 10 ^ e = n * 10 ^ (e + k) → m = n ∧ k = 0 := by
    intro m n e k hm h
    rw [zpow_add₀ (by norm_num), zpow_natCast, mul_left_comm, mul_comm, mul_right_inj' (hpos e)] at h
    have hnat : m = n * 10 ^ k := by exact_mod_cast h
    cases k with
    | zero => exact ⟨by rw [hnat, Nat.pow_zero, Nat.mul_one], rfl⟩
    | succ k =>
      rw [Nat.pow_succ, ← Nat.mul_assoc] at hnat
      exact absurd (hnat ▸ Nat.mul_mod_left _ 10) hm
  rcases le_total e f with hle | hle
  · obtain ⟨k, rfl⟩ := Int.le.dest hle
    obtain ⟨rfl, rfl⟩ := hstep hm h
    exact ⟨rfl, by simp⟩
  · obtain ⟨k, rfl⟩ := Int.le.dest hle
    obtain ⟨rfl, rfl⟩ := hstep hn h.symm
    exact ⟨rfl, by simp⟩

theorem value_eq_zero_iff (d : Decimal) : d.value = 0 ↔ d.coefficient = 0 := by
  rw [Decimal.value, mul_eq_zero, or_iff_left (zpow_ne_zero _ (by norm_num))]
  split <;> simp

/-- Equal values have the same sign, the same digits and the same exponent. -/
theorem value_eq_iff_kept {a b : Decimal} (ha : a.coefficient ≠ 0) (hb : b.coefficient ≠ 0) :
    a.value = b.value ↔ a.negative = b.negative ∧
      keptCoefficient a.coefficient = keptCoefficient b.coefficient ∧
      a.exponent + poppedZeros a.coefficient = b.exponent + poppedZeros b.coefficient := by
  rw [value_kept a, value_kept b]
  constructor
  · intro h
    have hsign : a.negative = b.negative := by
      have hpos : ∀ (d : Decimal), d.coefficient ≠ 0 →
          (0 : ℚ) < keptCoefficient d.coefficient *
            10 ^ (d.exponent + poppedZeros d.coefficient) := by
        intro d hd
        have hkept : 0 < keptCoefficient d.coefficient :=
          Nat.pos_of_ne_zero fun hzero => keptCoefficient_mod hd (by rw [hzero])
        exact mul_pos (by exact_mod_cast hkept) (zpow_pos (by norm_num) _)
      have hposa := hpos a ha
      have hposb := hpos b hb
      cases hna : a.negative <;> cases hnb : b.negative <;> rw [hna, hnb] at h <;>
        simp only [Bool.false_eq_true, if_true, if_false] at h ⊢ <;> linarith
    refine ⟨hsign, kept_unique (keptCoefficient_mod ha) (keptCoefficient_mod hb) ?_⟩
    rw [hsign] at h
    cases hnb : b.negative <;> rw [hnb] at h <;>
      simp only [Bool.false_eq_true, if_true, if_false] at h
    · exact h
    · rwa [neg_mul, neg_mul, neg_inj] at h
  · rintro ⟨hsign, hkept, hexponent⟩
    rw [hsign, hkept, hexponent]

/-! ## Texts -/

theorem decimalText_colon (n : Nat) : 0x3A ∉ decimalText n := by
  rw [decimalText]
  split
  · decide
  · intro hmem
    obtain ⟨d, hd, heq⟩ := List.mem_map.mp hmem
    have hlt := Nat.digits_lt_base (b := 10) (by omega) (List.mem_reverse.mp hd)
    omega

theorem decimalText_dash (n : Nat) : 0x2D ∉ decimalText n := by
  rw [decimalText]
  split
  · decide
  · intro hmem
    obtain ⟨d, -, heq⟩ := List.mem_map.mp hmem
    omega

theorem intText_injective : Function.Injective intText := by
  intro m n h
  rw [intText, intText] at h
  split at h <;> split at h
  · have habs := decimalText_injective (List.cons.inj h).2
    omega
  · exact absurd (h ▸ List.mem_cons_self) (decimalText_dash _)
  · exact absurd (h.symm ▸ List.mem_cons_self) (decimalText_dash _)
  · have habs := decimalText_injective h
    omega

/-- A text without the separator ends where the separator stands. -/
theorem append_separator_inj {s t u v : Str} {c : Nat} (hs : c ∉ s) (ht : c ∉ t)
    (h : s ++ c :: u = t ++ c :: v) : s = t ∧ u = v := by
  induction s generalizing t with
  | nil =>
    cases t with
    | nil => exact ⟨rfl, (List.cons.inj h).2⟩
    | cons d ds => exact absurd ((List.cons.inj h).1 ▸ List.mem_cons_self) ht
  | cons d ds ih =>
    cases t with
    | nil => exact absurd ((List.cons.inj h).1 ▸ List.mem_cons_self) hs
    | cons e es =>
      obtain ⟨rfl, hrest⟩ := List.cons.inj h
      obtain ⟨rfl, huv⟩ := ih (fun hmem => hs (List.mem_cons_of_mem _ hmem))
        (fun hmem => ht (List.mem_cons_of_mem _ hmem)) hrest
      exact ⟨rfl, huv⟩

/-- Numbers have the same key exactly when they are equal. -/
theorem numberKey_eq_iff (a b : Decimal) : numberKey a = numberKey b ↔ a.value = b.value := by
  have hzero : ∀ d : Decimal, d.coefficient ≠ 0 → numberKey d ≠ str "0" := by
    intro d hd h
    have hmem : 0x3A ∈ numberKey d := by
      rw [numberKey, if_neg hd]
      exact List.mem_append_right _ List.mem_cons_self
    rw [h] at hmem
    exact absurd hmem (by decide)
  by_cases ha : a.coefficient = 0
  · by_cases hb : b.coefficient = 0
    · rw [numberKey, numberKey, if_pos ha, if_pos hb, (value_eq_zero_iff a).mpr ha,
        (value_eq_zero_iff b).mpr hb]
      exact iff_of_true rfl rfl
    · rw [(value_eq_zero_iff a).mpr ha, numberKey, if_pos ha]
      exact iff_of_false (fun h => hzero b hb h.symm) fun h => hb ((value_eq_zero_iff b).mp h.symm)
  · by_cases hb : b.coefficient = 0
    · rw [(value_eq_zero_iff b).mpr hb, numberKey.eq_def b, if_pos hb, value_eq_zero_iff]
      exact iff_of_false (hzero a ha) ha
    · rw [value_eq_iff_kept ha hb, numberKey, numberKey, if_neg ha, if_neg hb, kept_text _ ha,
        kept_text _ hb]
      constructor
      · intro h
        have hsign : ∀ negative : Bool, 0x3A ∉ str (if negative then "1" else "0") := by decide
        obtain ⟨hsigns, h⟩ := append_separator_inj (hsign _) (hsign _) h
        obtain ⟨hdigits, h⟩ := append_separator_inj (decimalText_colon _) (decimalText_colon _) h
        refine ⟨?_, decimalText_injective hdigits, intText_injective h⟩
        revert hsigns
        cases a.negative <;> cases b.negative <;> decide
      · rintro ⟨hsign, hkept, hexponent⟩
        rw [hsign, hkept, hexponent]

/-- A key is written in ASCII. -/
theorem numberKey_ascii (d : Decimal) : ∀ c ∈ numberKey d, c < 0x80 := by
  have hdecimal : ∀ n, ∀ c ∈ decimalText n, c < 0x80 := by
    intro n c hc
    rw [decimalText] at hc
    split at hc
    · simp at hc; omega
    · obtain ⟨e, he, rfl⟩ := List.mem_map.mp hc
      have hlt := Nat.digits_lt_base (b := 10) (by omega) (List.mem_reverse.mp he)
      omega
  have hint : ∀ n, ∀ c ∈ intText n, c < 0x80 := by
    intro n c hc
    rw [intText] at hc
    split at hc
    · rcases List.mem_cons.mp hc with rfl | hc
      · omega
      · exact hdecimal _ c hc
    · exact hdecimal _ c hc
  have hsign : ∀ negative : Bool, ∀ c ∈ str (if negative then "1" else "0"), c < 0x80 := by decide
  rw [numberKey]
  split
  · decide
  · rename_i hd
    rw [kept_text _ hd]
    simp only [List.forall_mem_append, List.forall_mem_cons]
    exact ⟨hsign _, by omega, hdecimal _, by omega, hint _⟩

end FastGate.CheckContract
