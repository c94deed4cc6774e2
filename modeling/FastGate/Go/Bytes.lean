/-
# FastGate.Go.Bytes — `unicode/utf8` and `bytes.TrimSpace`

Go strings and byte slices are `Bytes`.  Decoding a rune never fails: a malformed sequence decodes to
U+FFFD with size 1 and an empty one to U+FFFD with size 0.  `trimSpace` is the documented behaviour of
`bytes.TrimSpace`: cut off leading and trailing white space as defined by Unicode.
-/
import FastGate.Text.Utf8
import FastGate.Json.Text
import Mathlib.Data.List.Induction

open FastGate.Utf8 (Bytes encode encodeChar decodeChar? encodeChar_ascii encodeChar_ne_nil
  decodeChar?_encodeChar_append eq_append_of_decodeChar? decodeChar?_encode_cons drop_encode_cons)
open FastGate.Json (replacement)

namespace FastGate.Go

/-- `utf8.RuneError` -/
def runeError : Char := replacement

/-- `utf8.DecodeRune` and `utf8.DecodeRuneInString`: a rune and its size in bytes. -/
def decodeRune (s : Bytes) : Char × Nat :=
  match decodeChar? s with
  | some c => (c, c.utf8Size)
  | none => (runeError, if s.isEmpty then 0 else 1)

/-- Whether the last `k` bytes are one rune. -/
def endsWithRune (s : Bytes) (k : Nat) : Option (Char × Nat) :=
  match decodeChar? (s.drop (s.length - k)) with
  | some c => if c.utf8Size = k then some (c, k) else none
  | none => none

/-- `utf8.DecodeLastRune` -/
def decodeLastRune (s : Bytes) : Char × Nat :=
  match [1, 2, 3, 4].findSome? (endsWithRune s) with
  | some p => p
  | none => (runeError, if s.isEmpty then 0 else 1)

/-- `unicode.IsSpace` -/
def isSpace (c : Char) : Bool :=
  let n := c.toNat
  (0x09 ≤ n && n ≤ 0x0D) || n == 0x20 || n == 0x85 || n == 0xA0 || n == 0x1680 ||
    (0x2000 ≤ n && n ≤ 0x200A) || n == 0x2028 || n == 0x2029 || n == 0x202F || n == 0x205F ||
    n == 0x3000

/-- Cut off leading white space; the fuel bounds the number of runes. -/
def trimLeft : Nat → Bytes → Bytes
  | 0, s => s
  | fuel + 1, s =>
    let (c, size) := decodeRune s
    if size ≠ 0 ∧ isSpace c then trimLeft fuel (s.drop size) else s

/-- Cut off trailing white space. -/
def trimRight : Nat → Bytes → Bytes
  | 0, s => s
  | fuel + 1, s =>
    let (c, size) := decodeLastRune s
    if size ≠ 0 ∧ isSpace c then trimRight fuel (s.take (s.length - size)) else s

/-- `bytes.TrimSpace` -/
def trimSpace (s : Bytes) : Bytes :=
  let s := trimLeft s.length s
  trimRight s.length s

/-! ## ASCII bytes -/

/-- The rune of an ASCII byte. -/
theorem encodeChar_ofNat {b : UInt8} (h : b.toNat < 0x80) :
    (Char.ofNat b.toNat).toNat = b.toNat ∧ encodeChar (Char.ofNat b.toNat) = [b] := by
  have hc : (Char.ofNat b.toNat).toNat = b.toNat := Json.toNat_ofNat (.inl (by omega))
  obtain ⟨b', hb', hcode⟩ := encodeChar_ascii (c := Char.ofNat b.toNat) (by omega)
  rw [hc] at hcode
  exact ⟨hc, by rw [hb', UInt8.toNat_inj.mp hcode]⟩

theorem decodeChar?_ascii {b : UInt8} (h : b.toNat < 0x80) (s : Bytes) :
    decodeChar? (b :: s) = some (Char.ofNat b.toNat) := by
  have happ := decodeChar?_encodeChar_append (Char.ofNat b.toNat) s
  rwa [(encodeChar_ofNat h).2, List.cons_append, List.nil_append] at happ

theorem utf8Size_ascii {b : UInt8} (h : b.toNat < 0x80) : (Char.ofNat b.toNat).utf8Size = 1 := by
  have hlen := congrArg List.length (encodeChar_ofNat h).2
  rwa [String.length_utf8EncodeChar, List.length_singleton] at hlen

theorem decodeRune_ascii {b : UInt8} (h : b.toNat < 0x80) (s : Bytes) :
    decodeRune (b :: s) = (Char.ofNat b.toNat, 1) := by
  rw [decodeRune, decodeChar?_ascii h]
  simp [utf8Size_ascii h]

theorem decodeLastRune_ascii {b : UInt8} (h : b.toNat < 0x80) (s : Bytes) :
    decodeLastRune (s ++ [b]) = (Char.ofNat b.toNat, 1) := by
  have hend : endsWithRune (s ++ [b]) 1 = some (Char.ofNat b.toNat, 1) := by
    rw [endsWithRune, List.length_append, List.length_singleton, Nat.add_sub_cancel, List.drop_left,
      decodeChar?_ascii h]
    simp [utf8Size_ascii h]
  rw [decodeLastRune, List.findSome?_cons, hend]

/-! ## Decoding valid text -/

theorem decodeRune_encode_cons (c : Char) (text : List Char) :
    decodeRune (encode (c :: text)) = (c, c.utf8Size) := by
  rw [decodeRune, decodeChar?_encode_cons]

/-! ## Trimming ASCII white space -/

/-- An ASCII byte that is white space for Go. -/
def IsAsciiSpace (b : UInt8) : Prop := b.toNat < 0x80 ∧ isSpace (Char.ofNat b.toNat) = true

/-- A visible ASCII byte. -/
def IsGraphic (b : UInt8) : Prop := 0x21 ≤ b.toNat ∧ b.toNat < 0x7F

theorem not_isSpace_of_isGraphic {b : UInt8} (h : IsGraphic b) :
    isSpace (Char.ofNat b.toNat) = false := by
  obtain ⟨hlo, hhi⟩ := h
  have hc := (encodeChar_ofNat (b := b) (by omega)).1
  simp only [isSpace, hc]
  simp
  omega

theorem trimLeft_graphic {b : UInt8} (h : IsGraphic b) (fuel : Nat) (s : Bytes) :
    trimLeft fuel (b :: s) = b :: s := by
  cases fuel with
  | zero => rfl
  | succ fuel =>
    rw [trimLeft, decodeRune_ascii (Nat.lt_trans h.2 (by decide))]
    simp [not_isSpace_of_isGraphic h]

theorem trimRight_graphic {b : UInt8} (h : IsGraphic b) (fuel : Nat) (s : Bytes) :
    trimRight fuel (s ++ [b]) = s ++ [b] := by
  cases fuel with
  | zero => rfl
  | succ fuel =>
    rw [trimRight, decodeLastRune_ascii (Nat.lt_trans h.2 (by decide))]
    simp [not_isSpace_of_isGraphic h]

theorem trimLeft_spaces {w : Bytes} (hw : ∀ b ∈ w, IsAsciiSpace b) {b : UInt8} (hb : IsGraphic b)
    (s : Bytes) : ∀ {fuel}, w.length ≤ fuel → trimLeft fuel (w ++ b :: s) = b :: s := by
  induction w with
  | nil => intro fuel _; exact trimLeft_graphic hb fuel s
  | cons a w ih =>
    intro fuel hfuel
    obtain ⟨ha, hw⟩ := List.forall_mem_cons.mp hw
    cases fuel with
    | zero => simp at hfuel
    | succ fuel =>
      rw [List.cons_append, trimLeft, decodeRune_ascii ha.1]
      simpa [ha.2] using ih hw (Nat.le_of_succ_le_succ hfuel)

theorem trimRight_spaces {w : Bytes} (hw : ∀ b ∈ w, IsAsciiSpace b) {b : UInt8} (hb : IsGraphic b)
    (s : Bytes) : ∀ {fuel}, w.length ≤ fuel → trimRight fuel (s ++ [b] ++ w) = s ++ [b] := by
  induction w using List.reverseRecOn with
  | nil => intro fuel _; rw [List.append_nil]; exact trimRight_graphic hb fuel s
  | append_singleton w a ih =>
    intro fuel hfuel
    rw [List.forall_mem_append, List.forall_mem_singleton] at hw
    cases fuel with
    | zero => simp at hfuel
    | succ fuel =>
      rw [← List.append_assoc, trimRight, decodeLastRune_ascii hw.2.1]
      have hlen : w.length ≤ fuel := by simpa using hfuel
      have htake : (s ++ [b] ++ w ++ [a]).take ((s ++ [b] ++ w ++ [a]).length - 1) = s ++ [b] ++ w := by
        rw [List.length_append, List.length_singleton, Nat.add_sub_cancel, List.take_left]
      simp only [hw.2.2, htake, ih hw.1 hlen]
      rfl

/-- White space around a text that starts and ends with visible ASCII is what `TrimSpace` removes. -/
theorem trimSpace_spaces {w v w' : Bytes} (hw : ∀ b ∈ w, IsAsciiSpace b)
    (hw' : ∀ b ∈ w', IsAsciiSpace b) (hhead : ∃ b, v.head? = some b ∧ IsGraphic b)
    (hlast : ∃ b, v.getLast? = some b ∧ IsGraphic b) : trimSpace (w ++ (v ++ w')) = v := by
  obtain ⟨a, ha, hga⟩ := hhead
  obtain ⟨b, hb, hgb⟩ := hlast
  obtain ⟨s, rfl⟩ := List.getLast?_eq_some_iff.mp hb
  obtain ⟨t, ht⟩ := List.head?_eq_some_iff.mp ha
  have hleft : trimLeft (w ++ (s ++ [b] ++ w')).length (w ++ (s ++ [b] ++ w')) = s ++ [b] ++ w' := by
    rw [ht, List.cons_append]
    exact trimLeft_spaces hw hga _ (by simp)
  rw [trimSpace, hleft]
  exact trimRight_spaces hw' hgb s (by simp; omega)

end FastGate.Go
