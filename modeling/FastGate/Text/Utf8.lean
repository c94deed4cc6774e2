/-
# FastGate.Text.Utf8 — UTF-8 over byte lists

Encoding a list of Unicode scalar values, decoding one rune at a time, and the validity test that a
decoding loop performs.  The per-character facts (`utf8EncodeChar` and `utf8DecodeChar?` invert each
other) come from the core library; this module lifts them to lists of bytes, where the two uses
below need them:

* `valid_iff` — the loop accepts exactly the encodings of scalar lists;
* `encodeChar_ascii` / `encodeChar_high` — one byte below `0x80`, or only bytes from `0x80` on, so a
  scanner that looks for ASCII bytes sees the same ones before and after encoding.
-/
import Mathlib.Data.List.Basic
import Mathlib.Tactic.Common

namespace FastGate.Utf8

/-- A byte sequence: a Go string or `[]byte`, or the contents of a file. -/
abbrev Bytes := List UInt8

/-- UTF-8 encoding of one scalar value. -/
abbrev encodeChar (c : Char) : Bytes := String.utf8EncodeChar c

/-- UTF-8 encoding of a text. -/
def encode (text : List Char) : Bytes := text.flatMap encodeChar

@[simp] theorem encode_nil : encode [] = [] := rfl

@[simp] theorem encode_cons (c : Char) (text : List Char) :
    encode (c :: text) = encodeChar c ++ encode text := rfl

@[simp] theorem encode_append (s t : List Char) : encode (s ++ t) = encode s ++ encode t := by
  simp [encode]

/-- Byte strings are compared by their bytes. -/
instance : LawfulBEq Bytes := inferInstanceAs (LawfulBEq (List UInt8))

/-! ## ASCII and non-ASCII characters -/

theorem encodeChar_ascii {c : Char} (h : c.toNat < 0x80) :
    ∃ b : UInt8, encodeChar c = [b] ∧ b.toNat = c.toNat := by
  have hv : c.val.toNat = c.toNat := rfl
  have hsize : c.utf8Size = 1 := by
    have : c.val ≤ 0x7f := by rw [UInt32.le_iff_toNat_le]; simp; omega
    simp [Char.utf8Size, this]
  refine ⟨c.val.toUInt8, String.utf8EncodeChar_eq_singleton hsize, ?_⟩
  rw [UInt32.toNat_toUInt8]
  omega

/-- Every byte of a multi-byte encoding has its top bit set. -/
theorem encodeChar_high {c : Char} (h : 0x80 ≤ c.toNat) :
    ∀ b ∈ encodeChar c, 0x80 ≤ b.toNat := by
  have hor : ∀ (x y : UInt8), 0x80 ≤ y.toNat → 0x80 ≤ (x ||| y).toNat := by
    intro x y hy
    rw [UInt8.toNat_or]
    exact Nat.le_trans hy Nat.right_le_or
  have hne : c.utf8Size ≠ 1 := by
    have hv : c.val.toNat = c.toNat := rfl
    rw [Ne, Char.utf8Size_eq_one_iff, UInt32.le_iff_toNat_le]
    simp
    omega
  intro b hb
  rcases c.utf8Size_eq with h1 | h2 | h3 | h4
  · exact absurd h1 hne
  · rw [encodeChar, String.utf8EncodeChar_eq_cons_cons h2] at hb
    simp only [List.mem_cons, List.not_mem_nil, or_false] at hb
    rcases hb with rfl | rfl <;> exact hor _ _ (by decide)
  · rw [encodeChar, String.utf8EncodeChar_eq_cons_cons_cons h3] at hb
    simp only [List.mem_cons, List.not_mem_nil, or_false] at hb
    rcases hb with rfl | rfl | rfl <;> exact hor _ _ (by decide)
  · rw [encodeChar, String.utf8EncodeChar_eq_cons_cons_cons_cons h4] at hb
    simp only [List.mem_cons, List.not_mem_nil, or_false] at hb
    rcases hb with rfl | rfl | rfl | rfl <;> exact hor _ _ (by decide)

theorem encodeChar_ne_nil (c : Char) : encodeChar c ≠ [] := String.utf8EncodeChar_ne_nil

/-- A text has no more characters than bytes. -/
theorem length_le_encode (text : List Char) : text.length ≤ (encode text).length := by
  induction text with
  | nil => exact Nat.le_refl _
  | cons c text ih =>
    have hpos := List.length_pos_of_ne_nil (encodeChar_ne_nil c)
    rw [encode_cons, List.length_append, List.length_cons]
    omega

/-! ## Decoding one rune -/

/-- The scalar value encoded at the front of `bytes`, when there is one. -/
def decodeChar? (bytes : Bytes) : Option Char := bytes.toByteArray.utf8DecodeChar? 0

theorem decodeChar?_encodeChar_append (c : Char) (bytes : Bytes) :
    decodeChar? (encodeChar c ++ bytes) = some c := by
  rw [decodeChar?, List.toByteArray_append]
  exact ByteArray.utf8DecodeChar?_utf8EncodeChar_append

@[simp] theorem decodeChar?_nil : decodeChar? [] = none := rfl

/-- A decoded rune is a prefix of the bytes it was decoded from. -/
theorem eq_append_of_decodeChar? {bytes : Bytes} {c : Char} (h : decodeChar? bytes = some c) :
    bytes = encodeChar c ++ bytes.drop c.utf8Size := by
  obtain ⟨l, hl⟩ := ByteArray.exists_of_utf8DecodeChar?_eq_some h
  have happ : bytes = encodeChar c ++ l.data.toList := by
    apply List.toByteArray_inj.mp
    rw [hl, List.toByteArray_append]
    congr 1
    exact ByteArray.ext (by rw [List.data_toByteArray])
  have hlen : (encodeChar c).length = c.utf8Size := String.length_utf8EncodeChar c
  calc bytes = encodeChar c ++ l.data.toList := happ
    _ = encodeChar c ++ (encodeChar c ++ l.data.toList).drop c.utf8Size := by
        rw [← hlen, List.drop_left]
    _ = encodeChar c ++ bytes.drop c.utf8Size := by rw [← happ]

theorem decodeChar?_encode_cons (c : Char) (text : List Char) :
    decodeChar? (encode (c :: text)) = some c := decodeChar?_encodeChar_append c _

theorem drop_encode_cons (c : Char) (text : List Char) :
    (encode (c :: text)).drop c.utf8Size = encode text := by
  rw [encode_cons, ← String.length_utf8EncodeChar c, List.drop_left]

theorem encode_injective : Function.Injective encode := by
  intro s
  induction s with
  | nil =>
    intro t h
    cases t with
    | nil => rfl
    | cons c t =>
      rw [encode_nil, encode_cons] at h
      exact absurd (List.append_eq_nil_iff.mp h.symm).1 (encodeChar_ne_nil c)
  | cons c s ih =>
    intro t h
    cases t with
    | nil =>
      rw [encode_nil, encode_cons] at h
      exact absurd (List.append_eq_nil_iff.mp h).1 (encodeChar_ne_nil c)
    | cons d t =>
      have hcd : c = d := by
        have := congrArg decodeChar? h
        rwa [decodeChar?_encode_cons, decodeChar?_encode_cons, Option.some.injEq] at this
      subst hcd
      have htail := congrArg (List.drop c.utf8Size) h
      rw [drop_encode_cons, drop_encode_cons] at htail
      rw [ih htail]

/-! ## Validity -/

/-- The decoding loop behind `utf8.Valid`; `fuel` bounds the number of runes. -/
def validLoop : Nat → Bytes → Bool
  | 0, bytes => bytes.isEmpty
  | fuel + 1, bytes =>
      bytes.isEmpty || match decodeChar? bytes with
        | some c => validLoop fuel (bytes.drop c.utf8Size)
        | none => false

/-- `utf8.Valid`: the bytes consist entirely of well-formed encodings. -/
def valid (bytes : Bytes) : Bool := validLoop bytes.length bytes

theorem validLoop_encode (text : List Char) :
    ∀ fuel, (encode text).length ≤ fuel → validLoop fuel (encode text) = true := by
  induction text with
  | nil => intro fuel _; cases fuel <;> rfl
  | cons c text ih =>
    intro fuel hfuel
    have hpos := c.utf8Size_pos
    have hlen : (encode (c :: text)).length = c.utf8Size + (encode text).length := by simp
    cases fuel with
    | zero => omega
    | succ fuel =>
      rw [validLoop, decodeChar?_encode_cons]
      simp only [drop_encode_cons]
      rw [ih fuel (by omega), Bool.or_true]

theorem exists_encode_of_validLoop :
    ∀ fuel bytes, validLoop fuel bytes = true → ∃ text, encode text = bytes := by
  intro fuel
  induction fuel with
  | zero =>
    intro bytes h
    exact ⟨[], (List.isEmpty_iff.mp h).symm⟩
  | succ fuel ih =>
    intro bytes h
    rw [validLoop, Bool.or_eq_true] at h
    rcases h with h | h
    · exact ⟨[], (List.isEmpty_iff.mp h).symm⟩
    · cases hd : decodeChar? bytes with
      | none => simp [hd] at h
      | some c =>
        simp only [hd] at h
        obtain ⟨text, htext⟩ := ih _ h
        exact ⟨c :: text, by rw [encode_cons, htext, ← eq_append_of_decodeChar? hd]⟩

/-- The validity loop accepts exactly the encodings of scalar lists. -/
theorem valid_iff (bytes : Bytes) : valid bytes = true ↔ ∃ text, encode text = bytes := by
  constructor
  · exact exists_encode_of_validLoop _ _
  · rintro ⟨text, rfl⟩
    exact validLoop_encode text _ (Nat.le_refl _)

/-! ## Decoding a text -/

/-- The decoding loop behind `bytes.decode`. -/
def decodeLoop : Nat → Bytes → Option (List Char)
  | 0, bytes => if bytes.isEmpty then some [] else none
  | fuel + 1, bytes =>
    if bytes.isEmpty then some []
    else match decodeChar? bytes with
      | some c => (decodeLoop fuel (bytes.drop c.utf8Size)).map (c :: ·)
      | none => none

/-- `raw.decode("utf-8")`, which fails on everything that is no encoding. -/
def decodeText? (bytes : Bytes) : Option (List Char) := decodeLoop bytes.length bytes

theorem decodeLoop_encode (text : List Char) :
    ∀ fuel, (encode text).length ≤ fuel → decodeLoop fuel (encode text) = some text := by
  induction text with
  | nil => intro fuel _; cases fuel <;> rfl
  | cons c text ih =>
    intro fuel hfuel
    have hpos := c.utf8Size_pos
    have hlen : (encode (c :: text)).length = c.utf8Size + (encode text).length := by simp
    have hne : (encode (c :: text)).isEmpty = false := by
      rw [← Bool.not_eq_true, List.isEmpty_iff_length_eq_zero]
      omega
    cases fuel with
    | zero => omega
    | succ fuel =>
      rw [decodeLoop, decodeChar?_encode_cons, hne]
      simp only [drop_encode_cons, ih fuel (by omega)]
      rfl

theorem encode_of_decodeLoop :
    ∀ fuel bytes text, decodeLoop fuel bytes = some text → encode text = bytes := by
  intro fuel
  induction fuel with
  | zero =>
    intro bytes text h
    rw [decodeLoop] at h
    split at h
    · rename_i hnil
      cases h
      exact (List.isEmpty_iff.mp hnil).symm
    · cases h
  | succ fuel ih =>
    intro bytes text h
    rw [decodeLoop] at h
    split at h
    · rename_i hnil
      cases h
      exact (List.isEmpty_iff.mp hnil).symm
    · split at h
      · rename_i c hc
        obtain ⟨rest, hrest, rfl⟩ := Option.map_eq_some_iff.mp h
        rw [encode_cons, ih _ _ hrest]
        exact (eq_append_of_decodeChar? hc).symm
      · cases h

/-- Decoding inverts encoding. -/
theorem decodeText?_eq_some {bytes : Bytes} {text : List Char} :
    decodeText? bytes = some text ↔ encode text = bytes := by
  constructor
  · exact encode_of_decodeLoop _ _ _
  · rintro rfl
    exact decodeLoop_encode text _ (Nat.le_refl _)

end FastGate.Utf8
