/-
# FastGate.Json.Text — what a string literal says

RFC 8259 escapes name UTF-16 code units, so a literal decodes to a sequence of code points in which a
high surrogate directly followed by a low one stands for a supplementary character and any other
surrogate stands alone.  `decode` is that reading with the treatment of its three kinds of output
left open; `codePoints` keeps lone surrogates as they are, `scalars` replaces them by U+FFFD.

`PairedSurrogates` is the condition under which the difference vanishes
(`codePoints_eq_scalars`).
-/
import FastGate.Json.Doc

namespace FastGate.Json

/-- `0xD800 ≤ unit ≤ 0xDBFF` -/
def isHighSurrogate (unit : UInt16) : Bool := 0xD800 ≤ unit.toNat && unit.toNat ≤ 0xDBFF

/-- `0xDC00 ≤ unit ≤ 0xDFFF` -/
def isLowSurrogate (unit : UInt16) : Bool := 0xDC00 ≤ unit.toNat && unit.toNat ≤ 0xDFFF

/-- The supplementary code point of a surrogate pair. -/
def combine (high low : UInt16) : Nat :=
  0x10000 + (high.toNat - 0xD800) * 0x400 + (low.toNat - 0xDC00)

/-- U+FFFD, which stands in for what cannot be decoded. -/
def replacement : Char := Char.ofNat 0xFFFD

section Decode

variable {α β : Type}

/-- One code unit that is not the start of a pair. -/
def decodeUnit (scalar lone : Nat → List β) (unit : UInt16) : List β :=
  if isHighSurrogate unit || isLowSurrogate unit then lone unit.toNat else scalar unit.toNat

/-- Decode a string literal: symbols that stand for themselves, escapes and pairs as scalar values,
lone surrogates. -/
def decode (unescaped : α → List β) (scalar lone : Nat → List β) : StrLit α → List β
  | [] => []
  | .unescaped a :: is => unescaped a ++ decode unescaped scalar lone is
  | .escaped e :: is => scalar e.value ++ decode unescaped scalar lone is
  | .unicode u :: .unicode v :: is =>
    if isHighSurrogate u && isLowSurrogate v then
      scalar (combine u v) ++ decode unescaped scalar lone is
    else decodeUnit scalar lone u ++ decode unescaped scalar lone (.unicode v :: is)
  | .unicode u :: is => decodeUnit scalar lone u ++ decode unescaped scalar lone is

/-- Every `\u` escape of a surrogate is part of an adjacent high-low pair. -/
def PairedSurrogates : StrLit α → Prop
  | [] => True
  | .unescaped _ :: is => PairedSurrogates is
  | .escaped _ :: is => PairedSurrogates is
  | .unicode u :: .unicode v :: is =>
    if isHighSurrogate u then isLowSurrogate v = true ∧ PairedSurrogates is
    else isLowSurrogate u = false ∧ PairedSurrogates (.unicode v :: is)
  | .unicode u :: is =>
    (isHighSurrogate u = false ∧ isLowSurrogate u = false) ∧ PairedSurrogates is

/-- The code points of a literal, lone surrogates included. -/
def codePoints : StrLit Char → List Nat := decode (fun c => [c.toNat]) (fun n => [n]) (fun n => [n])

/-- The text of a literal, with U+FFFD for every lone surrogate. -/
def scalars : StrLit Char → List Char :=
  decode (fun c => [c]) (fun n => [Char.ofNat n]) (fun _ => [replacement])

/-! ## Scalar values -/

/-- A code point that is no surrogate. -/
def IsScalar (n : Nat) : Prop := n < 0xD800 ∨ 0xDFFF < n ∧ n < 0x110000

instance : DecidablePred IsScalar := fun n =>
  inferInstanceAs (Decidable (n < 0xD800 ∨ 0xDFFF < n ∧ n < 0x110000))

theorem toNat_ofNat {n : Nat} (h : IsScalar n) : (Char.ofNat n).toNat = n := by
  have hv : n.isValidChar := h
  rw [Char.ofNat, dif_pos hv]
  rfl

theorem isScalar_toNat (c : Char) : IsScalar c.toNat := c.valid

theorem isScalar_escape (e : Escape) : IsScalar e.value := by
  cases e <;> simp [IsScalar, Escape.value]

theorem isScalar_combine {u v : UInt16} (hu : isHighSurrogate u = true)
    (hv : isLowSurrogate v = true) : IsScalar (combine u v) := by
  simp only [isHighSurrogate, isLowSurrogate, Bool.and_eq_true, decide_eq_true_eq] at hu hv
  obtain ⟨hu1, hu2⟩ := hu
  obtain ⟨hv1, hv2⟩ := hv
  unfold IsScalar combine
  generalize u.toNat = x at hu1 hu2
  generalize v.toNat = y at hv1 hv2
  omega

theorem isScalar_unit {u : UInt16} (hu : isHighSurrogate u = false)
    (hv : isLowSurrogate u = false) : IsScalar u.toNat := by
  have hlt := u.toNat_lt
  simp only [isHighSurrogate, isLowSurrogate, Bool.and_eq_false_iff, decide_eq_false_iff_not] at hu hv
  simp only [IsScalar]
  omega

theorem decodeUnit_of_not_surrogate {scalar lone : Nat → List β} {u : UInt16}
    (hu : isHighSurrogate u = false) (hv : isLowSurrogate u = false) :
    decodeUnit scalar lone u = scalar u.toNat := by simp [decodeUnit, hu, hv]

/-! ## Pairs and lone surrogates -/

/-- With its surrogates paired, a literal decodes to scalar values only, and to the same ones
whatever is done with lone surrogates. -/
theorem codePoints_eq_scalars {is : StrLit Char} (h : PairedSurrogates is) :
    codePoints is = (scalars is).map Char.toNat := by
  unfold codePoints scalars
  fun_induction PairedSurrogates is with
  | case1 => rfl
  | case2 a is ih => simp [decode, ih h]
  | case3 e is ih => simp [decode, ih h, toNat_ofNat (isScalar_escape e)]
  | case4 u v is hu ih =>
    simp [decode, hu, h.1, ih h.2, toNat_ofNat (isScalar_combine hu h.1)]
  | case5 u v is hu ih =>
    have hu' : isHighSurrogate u = false := by simpa using hu
    simp [decode, hu', ih h.2, decodeUnit_of_not_surrogate hu' h.1,
      toNat_ofNat (isScalar_unit hu' h.1)]
  | case6 u is hne ih =>
    obtain ⟨⟨hu, hv⟩, h⟩ := h
    rw [decode.eq_5 _ _ _ _ _ hne, decode.eq_5 _ _ _ _ _ hne, ih h,
      decodeUnit_of_not_surrogate hu hv, decodeUnit_of_not_surrogate hu hv]
    simp [toNat_ofNat (isScalar_unit hu hv)]

/-- The surrogates of a literal are paired exactly when no code point it decodes to is one. -/
theorem pairedSurrogates_iff (is : StrLit Char) :
    PairedSurrogates is ↔ ∀ n ∈ codePoints is, IsScalar n := by
  constructor
  · intro h n hn
    rw [codePoints_eq_scalars h, List.mem_map] at hn
    obtain ⟨c, -, rfl⟩ := hn
    exact isScalar_toNat c
  · unfold codePoints
    have lone : ∀ {u : UInt16}, (isHighSurrogate u || isLowSurrogate u) = true →
        ¬ IsScalar u.toNat := by
      intro u hu
      simp only [isHighSurrogate, isLowSurrogate, Bool.or_eq_true, Bool.and_eq_true,
        decide_eq_true_eq] at hu
      simp only [IsScalar]
      omega
    fun_induction PairedSurrogates is with
    | case1 => intro _; trivial
    | case2 a is ih => intro h; exact ih fun n hn => h n (by simp [decode, hn])
    | case3 e is ih => intro h; exact ih fun n hn => h n (by simp [decode, hn])
    | case4 u v is hu ih =>
      intro h
      by_cases hv : isLowSurrogate v = true
      · exact ⟨hv, ih fun n hn => h n (by simp [decode, hu, hv, hn])⟩
      · exact absurd (h u.toNat (by simp [decode, hu, hv, decodeUnit])) (lone (by simp [hu]))
    | case5 u v is hu ih =>
      intro h
      have hu' : isHighSurrogate u = false := by simpa using hu
      cases hv : isLowSurrogate u with
      | false => exact ⟨rfl, ih fun n hn => h n (by simp [decode, hu', hn])⟩
      | true => exact absurd (h u.toNat (by simp [decode, hu', hv, decodeUnit])) (lone (by simp [hv]))
    | case6 u is hne ih =>
      intro h
      rw [decode.eq_5 _ _ _ _ _ hne] at h
      cases hs : isHighSurrogate u || isLowSurrogate u with
      | true => exact absurd (h u.toNat (by simp [decodeUnit, hs])) (lone hs)
      | false =>
        rw [Bool.or_eq_false_iff] at hs
        exact ⟨hs, ih fun n hn => h n (List.mem_append_right _ hn)⟩

/-- Code points stay within the code space. -/
theorem codePoints_lt (is : StrLit Char) : ∀ n ∈ codePoints is, n < 0x110000 := by
  have hunit : ∀ (u : UInt16), ∀ n ∈ decodeUnit (fun n => [n]) (fun n => [n]) u, n < 0x110000 := by
    intro u n hn
    have hlt := u.toNat_lt
    have heq : n = u.toNat := by
      unfold decodeUnit at hn
      split at hn <;> exact List.mem_singleton.mp hn
    omega
  have hscalar : ∀ {m : Nat}, IsScalar m → m < 0x110000 := by
    intro m hm
    unfold IsScalar at hm
    omega
  unfold codePoints
  fun_induction decode (fun c : Char => [c.toNat]) (fun n => [n]) (fun n => [n]) is with
  | case1 => simp
  | case2 a is ih =>
    exact List.forall_mem_append.mpr ⟨by simpa using hscalar (isScalar_toNat a), ih⟩
  | case3 e is ih =>
    exact List.forall_mem_append.mpr ⟨by simpa using hscalar (isScalar_escape e), ih⟩
  | case4 u v is huv ih =>
    rw [Bool.and_eq_true] at huv
    exact List.forall_mem_append.mpr ⟨by simpa using hscalar (isScalar_combine huv.1 huv.2), ih⟩
  | case5 u v is huv ih => exact List.forall_mem_append.mpr ⟨hunit u, ih⟩
  | case6 u is hne ih => exact List.forall_mem_append.mpr ⟨hunit u, ih⟩

/-- Paired literals decode to the same code points exactly when they decode to the same text. -/
theorem codePoints_inj {is js : StrLit Char} (hi : PairedSurrogates is) (hj : PairedSurrogates js) :
    codePoints is = codePoints js ↔ scalars is = scalars js := by
  rw [codePoints_eq_scalars hi, codePoints_eq_scalars hj]
  exact List.map_inj_right fun _ _ h => Char.toNat_inj.mp h

end Decode

end FastGate.Json
