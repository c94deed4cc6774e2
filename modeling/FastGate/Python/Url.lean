/-
# FastGate.Python.Url — `urllib.parse.unquote`

A percent sign and two hexadecimal digits stand for one byte of the UTF-8 encoding; what is no encoding
is replaced.  A text may be written in many ways (`Quoted`: every character as it is or by its bytes,
with digits in either case), and `unquote_quoted` says that `unquote` finds it in each of them.
-/
import FastGate.Json.Print
import FastGate.Python.Text
import FastGate.Text.Utf8

open FastGate.Json (hexValue hexDigit hexValue_hexDigit)
open FastGate.Utf8 (Bytes encode encodeChar decodeChar? encodeChar_ascii encodeChar_ne_nil encode_cons
  decodeChar?_encode_cons drop_encode_cons length_le_encode)

namespace FastGate.Python

/-! ## Decoding with replacements -/

/-- Whether a character of more than two bytes can begin with these two. -/
def opensCharacter (first second : UInt8) : Bool :=
  if first = 0xE0 then 0xA0 ≤ second ∧ second ≤ 0xBF
  else if first = 0xED then 0x80 ≤ second ∧ second ≤ 0x9F
  else if first = 0xF0 then 0x90 ≤ second ∧ second ≤ 0xBF
  else if first = 0xF4 then 0x80 ≤ second ∧ second ≤ 0x8F
  else 0xE1 ≤ first ∧ first ≤ 0xF3 ∧ 0x80 ≤ second ∧ second ≤ 0xBF

/-- How many bytes one replacement stands for: those with which a character could have begun. -/
def malformedLength : Bytes → Nat
  | first :: second :: rest =>
    if opensCharacter first second then
      if 0xF0 ≤ first ∧ rest.head?.any fun third => 0x80 ≤ third ∧ third ≤ 0xBF then 3 else 2
    else 1
  | _ => 1

/-- `raw.decode("utf-8", "replace")`; the fuel bounds the number of characters. -/
def decodeReplace : Nat → Bytes → Str
  | 0, _ => []
  | fuel + 1, raw =>
    if raw.isEmpty then []
    else match decodeChar? raw with
      | some c => c.toNat :: decodeReplace fuel (raw.drop c.utf8Size)
      | none => 0xFFFD :: decodeReplace fuel (raw.drop (malformedLength raw))

theorem decodeReplace_encode (text : List Char) {fuel : Nat} (h : text.length ≤ fuel) :
    decodeReplace fuel (encode text) = text.map Char.toNat := by
  induction text generalizing fuel with
  | nil => cases fuel <;> rfl
  | cons c text ih =>
    obtain ⟨fuel, rfl⟩ := Nat.exists_eq_add_of_le' (Nat.lt_of_lt_of_le (Nat.succ_pos _) h)
    have hne : (encode (c :: text)).isEmpty = false := by
      have hlength := length_le_encode (c :: text)
      rw [← Bool.not_eq_true, List.isEmpty_iff_length_eq_zero]
      rw [List.length_cons] at hlength
      omega
    rw [decodeReplace, hne, decodeChar?_encode_cons]
    simp only [drop_encode_cons, ih (Nat.le_of_succ_le_succ h)]
    rfl

/-! ## Unquoting -/

/-- `_hextobyte`, for two characters. -/
def hexByte (high low : Nat) : Option UInt8 :=
  match hexValue high, hexValue low with
  | some h, some l => some (UInt8.ofNat (16 * h + l))
  | _, _ => none

/-- `unquote_to_bytes`, for an ASCII text. -/
def unquoteToBytes : Str → Bytes
  | c :: high :: low :: rest =>
    match if c = 0x25 then hexByte high low else none with
    | some b => b :: unquoteToBytes rest
    | none => UInt8.ofNat c :: unquoteToBytes (high :: low :: rest)
  | c :: cs => UInt8.ofNat c :: unquoteToBytes cs
  | [] => []

/-- A code point of ASCII. -/
def isAscii (c : Nat) : Bool := c < 0x80

/-- The parts of `unquote`: what is no ASCII stays, and every run of ASCII is decoded on its own. -/
def unquoteRuns : Nat → Str → Str
  | 0, _ => []
  | _ + 1, [] => []
  | fuel + 1, c :: cs =>
    if isAscii c then
      let raw := unquoteToBytes ((c :: cs).takeWhile isAscii)
      decodeReplace raw.length raw ++ unquoteRuns fuel ((c :: cs).dropWhile isAscii)
    else c :: unquoteRuns fuel cs

/-- `urllib.parse.unquote` -/
def unquote (s : Str) : Str := if 0x25 ∈ s then unquoteRuns s.length s else s

/-! ## Quoted texts -/

/-- Bytes, each written as a percent sign and two hexadecimal digits. -/
inductive Escaped : Str → Bytes → Prop
  | nil : Escaped [] []
  | cons {high low : Nat} {b : UInt8} {s : Str} {raw : Bytes} :
    hexByte high low = some b → Escaped s raw → Escaped (0x25 :: high :: low :: s) (b :: raw)

/-- A text in which characters may be written by their bytes. -/
inductive Quoted : Str → List Char → Prop
  | nil : Quoted [] []
  | plain {c : Char} {s : Str} {text : List Char} :
    c.toNat ≠ 0x25 → Quoted s text → Quoted (c.toNat :: s) (c :: text)
  | escaped {c : Char} {front s : Str} {text : List Char} :
    Escaped front (encodeChar c) → Quoted s text → Quoted (front ++ s) (c :: text)

theorem unquoteToBytes_plain {c : Nat} (h : c ≠ 0x25) (cs : Str) :
    unquoteToBytes (c :: cs) = UInt8.ofNat c :: unquoteToBytes cs := by
  cases cs with
  | nil => rfl
  | cons high cs =>
    cases cs with
    | nil => rfl
    | cons low rest => rw [unquoteToBytes, if_neg h]

theorem unquoteToBytes_escape {high low : Nat} {b : UInt8} (h : hexByte high low = some b) (rest : Str) :
    unquoteToBytes (0x25 :: high :: low :: rest) = b :: unquoteToBytes rest := by
  rw [unquoteToBytes, if_pos rfl, h]

theorem hexValue_ascii {n v : Nat} (h : hexValue n = some v) : isAscii n = true := by
  unfold hexValue at h
  unfold isAscii
  rw [decide_eq_true_eq]
  split at h
  · omega
  split at h
  · omega
  split at h
  · omega
  · cases h

theorem hexByte_ascii {high low : Nat} {b : UInt8} (h : hexByte high low = some b) :
    isAscii high = true ∧ isAscii low = true := by
  unfold hexByte at h
  split at h
  · rename_i hhigh hlow
    exact ⟨hexValue_ascii hhigh, hexValue_ascii hlow⟩
  · cases h

theorem Escaped.ascii {s : Str} {raw : Bytes} (h : Escaped s raw) : ∀ c ∈ s, isAscii c = true := by
  induction h with
  | nil => exact fun c hc => absurd hc List.not_mem_nil
  | cons hbyte _ ih =>
    obtain ⟨hhigh, hlow⟩ := hexByte_ascii hbyte
    exact List.forall_mem_cons.mpr ⟨rfl, List.forall_mem_cons.mpr ⟨hhigh, List.forall_mem_cons.mpr ⟨hlow, ih⟩⟩⟩

theorem Escaped.unquoteToBytes {s : Str} {raw : Bytes} (h : Escaped s raw) (rest : Str) :
    unquoteToBytes (s ++ rest) = raw ++ unquoteToBytes rest := by
  induction h with
  | nil => rfl
  | cons hbyte _ ih =>
    show Python.unquoteToBytes (0x25 :: _ :: _ :: (_ ++ rest)) = _
    rw [unquoteToBytes_escape hbyte, ih, List.cons_append]

theorem Escaped.percent {s : Str} {raw : Bytes} (h : Escaped s raw) (hraw : raw ≠ []) : ∃ rest, s = 0x25 :: rest := by
  cases h with
  | nil => exact absurd rfl hraw
  | cons _ _ => exact ⟨_, rfl⟩

/-- The first run of ASCII has whole characters in it, and the rest of the text is behind it. -/
theorem Quoted.run {s : Str} {text : List Char} (h : Quoted s text) :
    ∃ first rest, text = first ++ rest ∧ unquoteToBytes (s.takeWhile isAscii) = encode first ∧
      Quoted (s.dropWhile isAscii) rest := by
  induction h with
  | nil => exact ⟨[], [], rfl, rfl, .nil⟩
  | @plain c s text hc hs ih =>
    cases hascii : isAscii c.toNat with
    | false =>
      rw [List.takeWhile_cons_of_neg (by simp [hascii]), List.dropWhile_cons_of_neg (by simp [hascii])]
      exact ⟨[], c :: text, rfl, rfl, .plain hc hs⟩
    | true =>
      obtain ⟨first, rest, rfl, hbytes, hrest⟩ := ih
      obtain ⟨b, hb, hvalue⟩ := encodeChar_ascii (of_decide_eq_true hascii)
      rw [List.takeWhile_cons_of_pos hascii, List.dropWhile_cons_of_pos hascii, unquoteToBytes_plain hc, hbytes]
      refine ⟨c :: first, rest, rfl, ?_, hrest⟩
      have hbyte : UInt8.ofNat c.toNat = b := by rw [← hvalue, UInt8.ofNat_toNat]
      rw [encode_cons, hb, hbyte, List.singleton_append]
  | @escaped c front s text hfront hs ih =>
    obtain ⟨first, rest, rfl, hbytes, hrest⟩ := ih
    rw [List.takeWhile_append_of_pos hfront.ascii, List.dropWhile_append_of_pos hfront.ascii,
      hfront.unquoteToBytes, hbytes]
    exact ⟨c :: first, rest, rfl, rfl, hrest⟩

/-- A text without a percent sign is written as it is. -/
theorem Quoted.eq_self {s : Str} {text : List Char} (h : Quoted s text) (hpercent : 0x25 ∉ s) :
    s = text.map Char.toNat := by
  induction h with
  | nil => rfl
  | plain _ _ ih => rw [List.map_cons, ← ih fun hmem => hpercent (List.mem_cons_of_mem _ hmem)]
  | @escaped c front s text hfront _ _ =>
    obtain ⟨rest, rfl⟩ := hfront.percent (encodeChar_ne_nil c)
    exact absurd (List.mem_append_left s List.mem_cons_self) hpercent

/-- A character that is no ASCII is written as it is. -/
theorem Quoted.high {c : Nat} {cs : Str} {text : List Char} (h : Quoted (c :: cs) text) (hc : isAscii c = false) :
    ∃ first rest, text = first :: rest ∧ first.toNat = c ∧ Quoted cs rest := by
  generalize hs : c :: cs = s at h
  cases h with
  | nil => cases hs
  | @plain first cs' rest _ hrest =>
    obtain ⟨rfl, rfl⟩ := List.cons.inj hs
    exact ⟨first, rest, rfl, rfl, hrest⟩
  | @escaped first front cs' rest hfront hrest =>
    obtain ⟨digits, rfl⟩ := hfront.percent (encodeChar_ne_nil first)
    obtain ⟨rfl, -⟩ := List.cons.inj hs
    cases hc

theorem unquoteRuns_quoted (fuel : Nat) {s : Str} {text : List Char} (hfuel : s.length ≤ fuel) (h : Quoted s text) :
    unquoteRuns fuel s = text.map Char.toNat := by
  induction fuel generalizing s text with
  | zero =>
    obtain rfl := List.eq_nil_of_length_eq_zero (Nat.le_zero.mp hfuel)
    exact h.eq_self List.not_mem_nil
  | succ fuel ih =>
    cases s with
    | nil => exact h.eq_self List.not_mem_nil
    | cons c cs =>
      rw [unquoteRuns]
      split
      · rename_i hascii
        obtain ⟨first, rest, rfl, hbytes, hrest⟩ := h.run
        have hlength : ((c :: cs).dropWhile isAscii).length ≤ fuel := by
          rw [List.dropWhile_cons_of_pos hascii]
          exact (List.length_dropWhile_le _ cs).trans (Nat.le_of_succ_le_succ hfuel)
        dsimp only
        rw [hbytes, ih hlength hrest, decodeReplace_encode first (length_le_encode first), List.map_append]
      · rename_i hascii
        obtain ⟨first, rest, rfl, rfl, hrest⟩ := h.high (Bool.eq_false_of_not_eq_true hascii)
        rw [ih (Nat.le_of_succ_le_succ hfuel) hrest, List.map_cons]

/-- However a text is quoted, `unquote` finds it. -/
theorem unquote_quoted {s : Str} {text : List Char} (h : Quoted s text) : unquote s = text.map Char.toNat := by
  unfold unquote
  split
  · exact unquoteRuns_quoted _ (Nat.le_refl _) h
  · rename_i hpercent
    exact h.eq_self hpercent

/-! ## Quoting -/

/-- A byte as a percent sign and two hexadecimal digits. -/
def escapeByte (b : UInt8) : Str := [0x25, (hexDigit (b.toNat / 16)).toNat, (hexDigit (b.toNat % 16)).toNat]

/-- A text in which the characters of one kind are written as they are, and all others by their bytes. -/
def quote (plain : Char → Bool) (text : List Char) : Str :=
  text.flatMap fun c => if plain c then [c.toNat] else (encodeChar c).flatMap escapeByte

theorem escaped_flatMap (raw : Bytes) : Escaped (raw.flatMap escapeByte) raw := by
  induction raw with
  | nil => exact .nil
  | cons b raw ih =>
    have hlt : b.toNat < 256 := b.toNat_lt
    have hhigh : hexValue (hexDigit (b.toNat / 16)).toNat = some (b.toNat / 16) := hexValue_hexDigit (by omega)
    have hlow : hexValue (hexDigit (b.toNat % 16)).toNat = some (b.toNat % 16) := hexValue_hexDigit (by omega)
    have hvalue : 16 * (b.toNat / 16) + b.toNat % 16 = b.toNat := Nat.div_add_mod _ _
    have hbyte : hexByte (hexDigit (b.toNat / 16)).toNat (hexDigit (b.toNat % 16)).toNat = some b := by
      unfold hexByte
      rw [hhigh, hlow]
      dsimp only
      rw [hvalue, UInt8.ofNat_toNat]
    exact .cons hbyte ih

/-- Every text can be quoted, as long as percent signs are not written as they are. -/
theorem quoted_quote {plain : Char → Bool} (h : ∀ c, plain c = true → c.toNat ≠ 0x25) (text : List Char) :
    Quoted (quote plain text) text := by
  induction text with
  | nil => exact .nil
  | cons c text ih =>
    unfold quote
    rw [List.flatMap_cons]
    split
    · rename_i hplain
      exact .plain (h c hplain) ih
    · exact .escaped (escaped_flatMap _) ih

/-- The characters that `urllib.parse.quote` leaves as they are. -/
def isSafe (c : Char) : Bool := c.isAlphanum || c ∈ ['_', '.', '-', '~', '/']

theorem isSafe_ne (c : Char) (h : isSafe c = true) : c.toNat ≠ 0x25 := by
  intro heq
  obtain rfl : c = '%' := Char.toNat_inj.mp heq
  exact absurd h (by decide)

end FastGate.Python
