/-
# FastGate.Go.Marshal — `json.Marshal` on response structures

The documents the gateway answers with are structures of strings, counters and booleans.  The encoder
walks the bytes of a string with its HTML-safe table; `marshal_print` says that its output is the
compact text of a document, whatever bytes the strings hold.
-/
import FastGate.Go.Bytes
import FastGate.Json.Print

open FastGate.Utf8 (Bytes encode encodeChar encode_cons encode_nil encode_append eq_append_of_decodeChar?
  drop_encode_cons encodeChar_ne_nil length_le_encode)
open FastGate.Json

namespace FastGate.Go

/-! ## Strings -/

/-- `htmlSafeSet` -/
def htmlSafe (n : Nat) : Bool :=
  0x20 ≤ n && n < 0x80 && n != 0x22 && n != 0x5C && n != 0x26 && n != 0x3C && n != 0x3E

/-- The escape of an ASCII character that is not safe. -/
def escapeAscii (n : Nat) : Bytes :=
  match shortEscape? n with
  | some e => [0x5C, UInt8.ofNat e.letter]
  | none => encode ['\\', 'u', '0', '0', hexDigit (n / 16), hexDigit (n % 16)]

/-- The loop of `appendString`; the fuel bounds the number of runes. -/
def appendStringLoop : Nat → Bytes → Bytes
  | 0, _ => []
  | _ + 1, [] => []
  | fuel + 1, b :: src =>
    if b.toNat < 0x80 then
      (if htmlSafe b.toNat then [b] else escapeAscii b.toNat) ++ appendStringLoop fuel src
    else
      let (c, size) := decodeRune (b :: src)
      if c = runeError ∧ size = 1 then
        encode ['\\', 'u', 'f', 'f', 'f', 'd'] ++ appendStringLoop fuel src
      else if c.toNat = 0x2028 ∨ c.toNat = 0x2029 then
        encode ['\\', 'u', '2', '0', '2', hexDigit (c.toNat % 16)] ++
          appendStringLoop fuel ((b :: src).drop size)
      else (b :: src).take size ++ appendStringLoop fuel ((b :: src).drop size)

/-- `appendString`, with HTML escaping. -/
def appendString (src : Bytes) : Bytes := 0x22 :: (appendStringLoop src.length src ++ [0x22])

/-! ## Structures -/

/-- A value handed to the encoder, with the fields of a structure in the order of its declaration and
those that `omitempty` leaves out gone. -/
inductive Marshaled where
  | string (text : Bytes)
  | int64 (n : Int)
  | bool (b : Bool)
  | struct (fields : List (String × Marshaled))

/-- `strconv.AppendInt`, in base 10. -/
def appendInt (n : Int) : Bytes := encode (Number.ofInt n).print

/-- `json.Marshal` -/
def marshal : Marshaled → Bytes
  | .string text => appendString text
  | .int64 n => appendInt n
  | .bool b => encode (if b then "true".toList else "false".toList)
  | .struct [] => encode "\x7b\x7d".toList
  | .struct ((name, value) :: fields) =>
    0x7B :: (appendString (encode name.toList) ++ 0x3A :: (marshal value ++ structFields fields))
where
  /-- The fields after the first, each behind its comma, and the closing brace. -/
  structFields : List (String × Marshaled) → Bytes
    | [] => [0x7D]
    | (name, value) :: fields =>
      0x2C :: (appendString (encode name.toList) ++ 0x3A :: (marshal value ++ structFields fields))

/-! ## The document that is written -/

/-- How the encoder writes a character. -/
def htmlItem (c : Char) : StrItem Char :=
  match shortEscape? c.toNat with
  | some e => .escaped e
  | none =>
    if (c.toNat < 0x80 ∧ htmlSafe c.toNat = false) ∨ c.toNat = 0x2028 ∨ c.toNat = 0x2029 then
      .unicode (UInt16.ofNat c.toNat)
    else .unescaped c

/-- The items the encoder writes for the bytes of a string. -/
def literalLoop : Nat → Bytes → StrLit Char
  | 0, _ => []
  | _ + 1, [] => []
  | fuel + 1, b :: src =>
    let (c, size) := decodeRune (b :: src)
    if c = runeError ∧ size = 1 then .unicode 0xFFFD :: literalLoop fuel src
    else htmlItem c :: literalLoop fuel ((b :: src).drop size)

/-- The string literal the encoder writes for the bytes of a string. -/
def literal (src : Bytes) : StrLit Char := literalLoop src.length src

/-- The document the encoder writes. -/
def Marshaled.document : Marshaled → Doc Char
  | .string text => .str (literal text)
  | .int64 n => .num (.ofInt n)
  | .bool b => .bool b
  | .struct fields => .obj (members fields)
where
  members : List (String × Marshaled) → List (StrLit Char × Doc Char)
    | [] => []
    | (name, value) :: fields => (literal (encode name.toList), value.document) :: members fields

theorem Marshaled.document_struct (fields : List (String × Marshaled)) :
    (Marshaled.struct fields).document =
      .obj (fields.map fun f => (literal (encode f.1.toList), f.2.document)) := by
  rw [document]
  congr 1
  induction fields with
  | nil => rfl
  | cons f fields ih => rw [document.members, ih]; rfl

/-! ## What it reads -/

theorem toNat_unit {n : Nat} (h : n < 0x10000) : (UInt16.ofNat n).toNat = n := by
  rw [UInt16.toNat_ofNat']
  omega

/-- An item stands for the character it was written for. -/
theorem reads_htmlItem (c : Char) : (htmlItem c).Reads c.toNat := by
  unfold htmlItem
  split
  · rename_i e he
    rw [← value_of_shortEscape? he]
    exact .escaped e
  · split
    · rename_i h
      have hlt : c.toNat < 0x10000 := by omega
      have hunit := toNat_unit hlt
      have hreads := StrItem.Reads.unicode (UInt16.ofNat c.toNat) (hunit.symm ▸ isScalar_toNat c)
      rwa [hunit] at hreads
    · exact .unescaped c

theorem printable_htmlItem (c : Char) : (htmlItem c).Printable := by
  unfold htmlItem
  split
  · trivial
  · rename_i he
    split
    · trivial
    · rename_i h
      obtain ⟨hquote, hbackslash⟩ := shortEscape?_eq_none he
      refine ⟨?_, hquote, hbackslash⟩
      by_contra hlt
      refine h (.inl ⟨by omega, ?_⟩)
      simp only [htmlSafe, Bool.and_eq_false_iff, decide_eq_false_iff_not]
      omega

theorem literalLoop_encode (text : List Char) : ∀ {fuel}, text.length ≤ fuel →
    literalLoop fuel (encode text) = text.map htmlItem := by
  induction text with
  | nil =>
    intro fuel _
    cases fuel <;> rfl
  | cons c text ih =>
    intro fuel hfuel
    cases fuel with
    | zero => exact absurd hfuel (by simp)
    | succ fuel =>
      cases hb : encode (c :: text) with
      | nil =>
        rw [encode_cons] at hb
        exact absurd (List.append_eq_nil_iff.mp hb).1 (encodeChar_ne_nil c)
      | cons b src =>
        have hrune := decodeRune_encode_cons c text
        have hdrop := drop_encode_cons c text
        rw [hb] at hrune hdrop
        have hvalid : ¬ (c = runeError ∧ c.utf8Size = 1) := by
          rintro ⟨rfl, h⟩
          exact absurd h (by decide)
        rw [literalLoop, hrune]
        show (if c = runeError ∧ c.utf8Size = 1 then _ else _) = _
        rw [if_neg hvalid, hdrop, ih (Nat.le_of_succ_le_succ hfuel), List.map_cons]

/-- A valid string is written character by character. -/
theorem literal_encode (text : List Char) : literal (encode text) = text.map htmlItem :=
  literalLoop_encode text (length_le_encode text)

/-- A string survives the encoder. -/
theorem literal_text (text : List Char) :
    PairedSurrogates (literal (encode text)) ∧ scalars (literal (encode text)) = text := by
  apply text_of_reads
  rw [literal_encode, List.forall₂_map_left_iff, List.forall₂_map_right_iff, List.forall₂_same]
  exact fun c _ => reads_htmlItem c

/-- Whatever its bytes, a string is written without lone surrogates. -/
theorem paired_literal (src : Bytes) : PairedSurrogates (literal src) := by
  have hloop : ∀ fuel src, ∃ text : List Char,
      List.Forall₂ StrItem.Reads (literalLoop fuel src) (text.map Char.toNat) := by
    intro fuel
    induction fuel with
    | zero => exact fun _ => ⟨[], .nil⟩
    | succ fuel ih =>
      intro src
      cases src with
      | nil => exact ⟨[], .nil⟩
      | cons b src =>
        rw [literalLoop]
        split
        rename_i c size _
        split_ifs
        · obtain ⟨text, htext⟩ := ih src
          exact ⟨runeError :: text, .cons (.unicode 0xFFFD (isScalar_toNat runeError)) htext⟩
        · obtain ⟨text, htext⟩ := ih ((b :: src).drop size)
          exact ⟨c :: text, .cons (reads_htmlItem c) htext⟩
  obtain ⟨text, htext⟩ := hloop src.length src
  exact (text_of_reads htext).1

theorem printable_literalLoop : ∀ fuel src, StrLit.Printable (literalLoop fuel src) := by
  intro fuel
  induction fuel with
  | zero =>
    intro src i hi
    cases hi
  | succ fuel ih =>
    intro src
    cases src with
    | nil =>
      intro i hi
      cases hi
    | cons b src =>
      rw [literalLoop]
      split
      rename_i c size _
      split_ifs
      · exact List.forall_mem_cons.mpr ⟨(trivial : StrItem.Printable (.unicode 0xFFFD)), ih src⟩
      · exact List.forall_mem_cons.mpr ⟨printable_htmlItem c, ih _⟩

/-! ## What it writes -/

theorem encode_ascii {n : Nat} (h : n < 0x80) : encode [Char.ofNat n] = [UInt8.ofNat n] := by
  have hb : (UInt8.ofNat n).toNat = n := by
    rw [UInt8.toNat_ofNat']
    omega
  have henc := (encodeChar_ofNat (b := UInt8.ofNat n) (by omega)).2
  rw [hb] at henc
  rw [encode_cons, henc, encode_nil, List.append_nil]

theorem encode_cons_ascii {n : Nat} (h : n < 0x80) (text : List Char) :
    encode (Char.ofNat n :: text) = UInt8.ofNat n :: encode text := by
  rw [← List.singleton_append, encode_append, encode_ascii h]
  rfl

/-- One byte below 0x80. -/
theorem appendString_ascii {b : UInt8} (h : b.toNat < 0x80) :
    (if htmlSafe b.toNat then [b] else escapeAscii b.toNat) =
      encode (htmlItem (Char.ofNat b.toNat)).print := by
  obtain ⟨hcode, henc⟩ := encodeChar_ofNat h
  unfold htmlItem
  rw [hcode]
  cases he : shortEscape? b.toNat with
  | some e =>
    have hescaped : htmlSafe b.toNat = false := by
      rw [← value_of_shortEscape? he]
      cases e <;> first | rfl | exact absurd (value_of_shortEscape? he) (by
        intro hvalue
        rw [← hvalue] at he
        cases he)
    rw [hescaped, if_neg Bool.false_ne_true, escapeAscii, he]
    cases e <;> rfl
  | none =>
    cases hsafe : htmlSafe b.toNat with
    | true =>
      show [b] = encode (StrItem.print (if _ then _ else _))
      rw [if_neg (by rintro (⟨-, hfalse⟩ | hline | hline) <;> first | cases hfalse | omega)]
      show [b] = encode [Char.ofNat b.toNat]
      rw [encode_cons, henc]
      rfl
    | false =>
      show escapeAscii b.toNat = encode (StrItem.print (if _ then _ else _))
      rw [if_pos (.inl ⟨h, rfl⟩), escapeAscii, he, StrItem.print, hexDigits, toNat_unit (by omega),
        Nat.mod_eq_of_lt (a := b.toNat / 16) (by omega), Nat.div_eq_of_lt (a := b.toNat) (b := 4096) (by omega),
        Nat.div_eq_of_lt (a := b.toNat) (b := 256) (by omega)]
      rfl

/-- A rune of several bytes, copied unless it is one of the two line separators. -/
theorem appendString_high {c : Char} (h : 0x80 ≤ c.toNat) :
    (if c.toNat = 0x2028 ∨ c.toNat = 0x2029 then
      encode ['\\', 'u', '2', '0', '2', hexDigit (c.toNat % 16)] else encodeChar c) =
      encode (htmlItem c).print := by
  have hnone : shortEscape? c.toNat = none := by
    unfold shortEscape?
    repeat rw [if_neg (by omega)]
  unfold htmlItem
  rw [hnone]
  by_cases hline : c.toNat = 0x2028 ∨ c.toNat = 0x2029
  · show _ = encode (StrItem.print (if _ then _ else _))
    rw [if_pos hline, if_pos (.inr hline), StrItem.print, hexDigits, toNat_unit (by omega)]
    rcases hline with hline | hline <;> rw [hline] <;> rfl
  · show _ = encode (StrItem.print (if _ then _ else _))
    rw [if_neg hline, if_neg (by omega)]
    show encodeChar c = encode [c]
    rw [encode_cons, encode_nil, List.append_nil]

/-- A rune that starts with a byte above 0x7F is no ASCII character. -/
theorem high_of_decodeChar? {b : UInt8} {src : Bytes} {c : Char} (hb : ¬ b.toNat < 0x80)
    (h : Utf8.decodeChar? (b :: src) = some c) : 0x80 ≤ c.toNat := by
  by_contra hlow
  obtain ⟨b', hb', hcode⟩ := Utf8.encodeChar_ascii (Nat.not_le.mp hlow)
  have hsplit := eq_append_of_decodeChar? h
  rw [hb', List.cons_append, List.cons.injEq] at hsplit
  rw [hsplit.1] at hb
  omega

theorem appendStringLoop_print : ∀ fuel src,
    appendStringLoop fuel src = encode (literalLoop fuel src).print := by
  intro fuel
  induction fuel with
  | zero => exact fun _ => rfl
  | succ fuel ih =>
    intro src
    cases src with
    | nil => rfl
    | cons b src =>
      by_cases hb : b.toNat < 0x80
      · have hcode := (encodeChar_ofNat hb).1
        have hvalid : ¬ (Char.ofNat b.toNat = runeError ∧ 1 = 1) := by
          rintro ⟨herror, -⟩
          rw [herror] at hcode
          have : runeError.toNat = 0xFFFD := by decide
          omega
        rw [appendStringLoop, if_pos hb, literalLoop, decodeRune_ascii hb]
        show _ = encode (StrLit.print (if Char.ofNat b.toNat = runeError ∧ 1 = 1 then _ else _))
        rw [if_neg hvalid, appendString_ascii hb, ih, StrLit.print_cons, encode_append]
        rfl
      · rw [appendStringLoop, if_neg hb, literalLoop]
        -- a byte that starts no character stands for the replacement character
        cases hd : Utf8.decodeChar? (b :: src) with
        | none =>
          have hrune : decodeRune (b :: src) = (runeError, 1) := by
            rw [decodeRune, hd]
            rfl
          rw [hrune]
          show (if runeError = runeError ∧ 1 = 1 then _ else _) =
            encode (StrLit.print (if runeError = runeError ∧ 1 = 1 then _ else _))
          rw [if_pos ⟨rfl, rfl⟩, if_pos ⟨rfl, rfl⟩, ih, StrLit.print_cons, encode_append]
          rfl
        | some c =>
          have hrune : decodeRune (b :: src) = (c, c.utf8Size) := by rw [decodeRune, hd]
          have htake : (b :: src).take c.utf8Size = encodeChar c := by
            have hsplit := eq_append_of_decodeChar? hd
            rw [hsplit, ← String.length_utf8EncodeChar c, List.take_left]
          have hvalid : ¬ (c = runeError ∧ c.utf8Size = 1) := by
            rintro ⟨rfl, h⟩
            exact absurd h (by decide)
          rw [hrune]
          show (if c = runeError ∧ c.utf8Size = 1 then _ else _) =
            encode (StrLit.print (if c = runeError ∧ c.utf8Size = 1 then _ else _))
          rw [if_neg hvalid, if_neg hvalid, StrLit.print_cons, encode_append,
            ← appendString_high (high_of_decodeChar? hb hd), ← ih, htake]
          split <;> rfl

theorem appendString_print (src : Bytes) :
    appendString src = encode (Token.str (literal src)).print := by
  show 0x22 :: (appendStringLoop src.length src ++ [0x22]) =
    encode (Char.ofNat 0x22 :: ((literal src).print ++ [Char.ofNat 0x22]))
  rw [encode_cons_ascii (by omega), encode_append, encode_ascii (by omega), appendStringLoop_print]
  rfl

/-- Induction over values, with the hypothesis for every field. -/
@[elab_as_elim]
theorem Marshaled.induct {P : Marshaled → Prop} (string : ∀ text, P (.string text))
    (int64 : ∀ n, P (.int64 n)) (bool : ∀ b, P (.bool b))
    (struct : ∀ fields, (∀ f ∈ fields, P f.2) → P (.struct fields)) (v : Marshaled) : P v := by
  refine @Marshaled.rec P (fun fields => ∀ f ∈ fields, P f.2) (fun f => P f.2) string int64 bool struct
    ?_ ?_ ?_ v
  · intro f hf; exact absurd hf List.not_mem_nil
  · intro f fields hf hfields; exact List.forall_mem_cons.mpr ⟨hf, hfields⟩
  · intro _ v hv; exact hv

theorem structFields_print (fields : List (String × Marshaled))
    (h : ∀ f ∈ fields, marshal f.2 = encode f.2.document.print) :
    marshal.structFields fields =
      encode (Doc.printMembers (Marshaled.document.members fields) ++ ['\x7d']) := by
  induction fields with
  | nil => rfl
  | cons f fields ih =>
    obtain ⟨name, value⟩ := f
    obtain ⟨hvalue, hfields⟩ := List.forall_mem_cons.mp h
    have hvalue' : marshal value = encode value.document.print := hvalue
    rw [marshal.structFields, Marshaled.document.members, Doc.printMembers_cons, ih hfields,
      appendString_print, hvalue']
    show _ = encode (Char.ofNat 0x2C :: (_ ++ Char.ofNat 0x3A :: (_ ++ _) ++ _))
    simp only [encode_cons_ascii (show 0x2C < 0x80 by omega), encode_cons_ascii (show 0x3A < 0x80 by omega),
      encode_append, List.append_assoc, List.cons_append]
    rfl

/-- `json.Marshal` writes the compact text of its document. -/
theorem marshal_print (v : Marshaled) : marshal v = encode v.document.print := by
  induction v using Marshaled.induct with
  | string text =>
    rw [marshal, appendString_print]
    show _ = encode (List.flatMap Token.print [Token.str (literal text)])
    rw [List.flatMap_singleton]
  | int64 n =>
    show encode (Number.ofInt n).print = encode (List.flatMap Token.print [Token.num (.ofInt n)])
    rw [List.flatMap_singleton]
    rfl
  | bool b => cases b <;> rfl
  | struct fields ih =>
    cases fields with
    | nil => rfl
    | cons f fields =>
      obtain ⟨name, value⟩ := f
      obtain ⟨hvalue, hfields⟩ := List.forall_mem_cons.mp ih
      have hvalue' : marshal value = encode value.document.print := hvalue
      rw [marshal, Marshaled.document, Marshaled.document.members, Doc.print_obj_cons,
        structFields_print fields hfields, appendString_print, hvalue']
      show _ = encode (Char.ofNat 0x7B :: (_ ++ Char.ofNat 0x3A :: (_ ++ _)))
      simp only [encode_cons_ascii (show 0x7B < 0x80 by omega),
        encode_cons_ascii (show 0x3A < 0x80 by omega), encode_append]
      rfl

/-- What the encoder writes can be printed. -/
theorem printable_document (v : Marshaled) : v.document.Printable := by
  induction v using Marshaled.induct with
  | string text => exact (Doc.printable_str _).mpr (printable_literalLoop _ _)
  | int64 n => exact (Doc.printable_num _).mpr (Number.printable_ofInt n)
  | bool b => exact Doc.printable_bool b
  | struct fields ih =>
    rw [Marshaled.document_struct, Doc.printable_obj, List.forall_mem_map]
    exact fun f hf => ⟨printable_literalLoop _ _, ih f hf⟩

theorem allStrings_document (v : Marshaled) : v.document.AllStrings PairedSurrogates := by
  induction v using Marshaled.induct with
  | string text => exact paired_literal text
  | int64 n => trivial
  | bool b => trivial
  | struct fields ih =>
    rw [Marshaled.document_struct, Doc.allStrings_obj, List.forall_mem_map]
    exact fun f hf => ⟨paired_literal _, ih f hf⟩

/-- The output of the encoder is a JSON text in UTF-8. -/
theorem marshal_text (v : Marshaled) :
    ∃ text, encode text = marshal v ∧ JsonText text v.document :=
  ⟨v.document.print, (marshal_print v).symm, jsonText_print (printable_document v)⟩

end FastGate.Go
