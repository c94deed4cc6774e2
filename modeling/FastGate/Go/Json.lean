/-
# FastGate.Go.Json — strings and tokens of `encoding/json`

`unquote` is the Go string a literal decodes to: UTF-8, with U+FFFD for malformed UTF-8 and for lone
surrogates.  `Decoder.token` and `Decoder.more` are the token stream of a `json.Decoder`, with the
state machine that decides which token may come next.
-/
import FastGate.Go.Bytes
import FastGate.Json.Encode

open FastGate.Utf8 (Bytes encode encodeChar encode_nil encode_cons encode_append encodeChar_ne_nil
  drop_encode_cons)
open FastGate.Json

namespace FastGate.Go

/-! ## Strings -/

/-- Replace every malformed sequence by U+FFFD. -/
def toValidUtf8 : Nat → Bytes → Bytes
  | 0, s => s
  | fuel + 1, s =>
    if s.isEmpty then []
    else encodeChar (decodeRune s).1 ++ toValidUtf8 fuel (s.drop (decodeRune s).2)

/-- The bytes a literal stands for, before malformed sequences are replaced. -/
def unescape : StrLit UInt8 → Bytes :=
  decode (fun b => [b]) (fun n => encodeChar (Char.ofNat n)) (fun _ => encodeChar runeError)

/-- The Go string a literal decodes to. -/
def unquote (items : StrLit UInt8) : Bytes :=
  let s := unescape items
  toValidUtf8 s.length s

theorem toValidUtf8_encode (text : List Char) :
    ∀ {fuel}, text.length ≤ fuel → toValidUtf8 fuel (encode text) = encode text := by
  induction text with
  | nil => intro fuel _; cases fuel <;> rfl
  | cons c text ih =>
    intro fuel hfuel
    cases fuel with
    | zero => simp at hfuel
    | succ fuel =>
      have hne : (encode (c :: text)).isEmpty = false := by
        cases h : encode (c :: text) with
        | nil => exact absurd (List.append_eq_nil_iff.mp h).1 (encodeChar_ne_nil c)
        | cons b bs => rfl
      rw [toValidUtf8, hne, decodeRune_encode_cons]
      simp only [drop_encode_cons, ih (Nat.le_of_succ_le_succ hfuel)]
      rfl

theorem decode_map_unescaped {β : Type} (scalar lone : Nat → List β) (f : UInt8 → List β)
    (bs : Bytes) (is : StrLit UInt8) :
    decode f scalar lone (bs.map .unescaped ++ is) = bs.flatMap f ++ decode f scalar lone is := by
  induction bs with
  | nil => rfl
  | cons b bs ih => simp [decode, ih]

theorem unescape_encode (is : StrLit Char) : unescape (StrLit.encode is) = encode (scalars is) := by
  unfold unescape scalars
  fun_induction decode (fun c : Char => [c]) (fun n => [Char.ofNat n]) (fun _ => [replacement]) is with
  | case1 => rfl
  | case2 c is ih =>
    have henc : StrLit.encode (.unescaped c :: is)
        = (encodeChar c).map .unescaped ++ StrLit.encode is := rfl
    rw [henc, decode_map_unescaped, ih]
    simp
  | case3 e is ih =>
    have henc : StrLit.encode (.escaped e :: is) = .escaped e :: StrLit.encode is := rfl
    rw [henc, decode, ih]
    simp
  | case4 u v is huv ih =>
    have henc : StrLit.encode (.unicode u :: .unicode v :: is)
        = .unicode u :: .unicode v :: StrLit.encode is := rfl
    rw [henc, decode, if_pos huv, ih]
    simp
  | case5 u v is huv ih =>
    have henc : StrLit.encode (.unicode u :: .unicode v :: is)
        = .unicode u :: .unicode v :: StrLit.encode is := rfl
    have htail : StrLit.encode (.unicode v :: is) = .unicode v :: StrLit.encode is := rfl
    rw [henc, decode, if_neg huv, ← htail, ih, encode_append]
    congr 1
    unfold decodeUnit
    split <;> simp [runeError]
  | case6 u is hne ih =>
    have henc : StrLit.encode (.unicode u :: is) = .unicode u :: StrLit.encode is := rfl
    rw [henc, decode.eq_5 _ _ _ _ _ (encode_ne_unicode hne), ih, encode_append]
    congr 1
    unfold decodeUnit
    split <;> simp [runeError]

/-- On valid UTF-8, a literal decodes to its text. -/
theorem unquote_encode (is : StrLit Char) : unquote (StrLit.encode is) = encode (scalars is) := by
  rw [unquote, unescape_encode]
  refine toValidUtf8_encode _ ?_
  induction scalars is with
  | nil => exact Nat.le_refl _
  | cons c cs ih =>
    have hpos := c.utf8Size_pos
    have hlen : (encode (c :: cs)).length = c.utf8Size + (encode cs).length := by simp
    rw [hlen, List.length_cons]
    omega

/-! ## The token stream -/

/-- Where a decoder stands between tokens. -/
inductive TokenState where
  | topValue | arrayStart | arrayValue | arrayComma
  | objectStart | objectKey | objectColon | objectValue | objectComma
  deriving DecidableEq, Repr

/-- `json.Token`: a delimiter or a value.  Numbers are `json.Number` when the decoder was told so. -/
inductive JsonToken where
  | delim (p : Punct)
  | null
  | bool (b : Bool)
  | number (n : Number)
  | float64 (n : Number)
  | string (s : Bytes)
  deriving DecidableEq, Repr

/-- The errors of `Token`: the input is used up, or it breaks the grammar. -/
inductive TokenError where
  | eof | syntaxError
  deriving DecidableEq, Repr

/-- `json.Decoder` over a byte slice: the unread input and the token state. -/
structure Decoder where
  input : Bytes
  tokenState : TokenState
  tokenStack : List TokenState
  numbers : Bool
  deriving Repr

/-- `json.NewDecoder` -/
def newDecoder (raw : Bytes) : Decoder := ⟨raw, .topValue, [], false⟩

namespace Decoder

/-- `UseNumber` -/
def useNumber (d : Decoder) : Decoder := { d with numbers := true }

/-- `tokenValueAllowed` -/
def valueAllowed (d : Decoder) : Bool :=
  match d.tokenState with
  | .topValue | .arrayStart | .arrayValue | .objectValue => true
  | _ => false

/-- The state after a value, `tokenValueEnd`. -/
def afterValue : TokenState → TokenState
  | .arrayStart | .arrayValue => .arrayComma
  | .objectValue => .objectComma
  | state => state

/-- Step over a complete value. -/
def valueEnd (d : Decoder) (rest : Bytes) : Decoder :=
  { d with input := rest, tokenState := afterValue d.tokenState }

/-- Step into an array or object. -/
def push (d : Decoder) (state : TokenState) (rest : Bytes) : Decoder :=
  { d with input := rest, tokenState := state, tokenStack := d.tokenState :: d.tokenStack }

/-- Step out of an array or object, back to the state before it with a value behind it. -/
def pop (d : Decoder) (rest : Bytes) : Decoder :=
  match d.tokenStack with
  | state :: stack => { d with input := rest, tokenState := afterValue state, tokenStack := stack }
  | [] => { d with input := rest }

/-- Skip the separator in front of the next token, where the state asks for one. -/
def skipSeparator (d : Decoder) : Decoder :=
  match next d.input with
  | .token (.punct .nameSeparator) r =>
    if d.tokenState = .objectColon then { d with input := r, tokenState := .objectValue } else d
  | .token (.punct .valueSeparator) r =>
    if d.tokenState = .arrayComma then { d with input := r, tokenState := .arrayValue }
    else if d.tokenState = .objectComma then { d with input := r, tokenState := .objectKey }
    else d
  | _ => d

/-- A scalar where a value may stand. -/
def scalar (d : Decoder) (t : JsonToken) (rest : Bytes) : Except TokenError (JsonToken × Decoder) :=
  if d.valueAllowed then .ok (t, d.valueEnd rest) else .error .syntaxError

/-- The token at the position of the decoder, which must be one that its state allows. -/
def tokenAt (d : Decoder) : Except TokenError (JsonToken × Decoder) :=
  match next d.input with
  | .eof => .error .eof
  | .bad => .error .syntaxError
  | .token (.punct .beginArray) r =>
    if d.valueAllowed then .ok (.delim .beginArray, d.push .arrayStart r) else .error .syntaxError
  | .token (.punct .endArray) r =>
    if d.tokenState = .arrayStart ∨ d.tokenState = .arrayComma then .ok (.delim .endArray, d.pop r)
    else .error .syntaxError
  | .token (.punct .beginObject) r =>
    if d.valueAllowed then .ok (.delim .beginObject, d.push .objectStart r) else .error .syntaxError
  | .token (.punct .endObject) r =>
    if d.tokenState = .objectStart ∨ d.tokenState = .objectComma then .ok (.delim .endObject, d.pop r)
    else .error .syntaxError
  | .token (.punct .nameSeparator) _ => .error .syntaxError
  | .token (.punct .valueSeparator) _ => .error .syntaxError
  | .token (.str items) r =>
    if d.tokenState = .objectStart ∨ d.tokenState = .objectKey then
      .ok (.string (unquote items), { d with input := r, tokenState := .objectColon })
    else d.scalar (.string (unquote items)) r
  | .token .null r => d.scalar .null r
  | .token (.bool b) r => d.scalar (.bool b) r
  | .token (.num n) r => d.scalar (if d.numbers then .number n else .float64 n) r

/-- `Token`: separators are checked and skipped, everything else is returned. -/
def token (d : Decoder) : Except TokenError (JsonToken × Decoder) := d.skipSeparator.tokenAt

/-- `More`: whether another element of the current array or object follows. -/
def more (d : Decoder) : Bool :=
  match skipWs d.input with
  | [] => false
  | b :: _ => b ≠ 0x5D ∧ b ≠ 0x7D

/-! ### What a token does to a decoder -/

/-- The documents of one token, and how a decoder returns them. -/
inductive Scalar (numbers : Bool) : Doc UInt8 → JsonToken → Prop
  | null : Scalar numbers .null .null
  | bool {b : Bool} : Scalar numbers (.bool b) (.bool b)
  | number {n : Number} : numbers = true → Scalar numbers (.num n) (.number n)
  | float64 {n : Number} : numbers = false → Scalar numbers (.num n) (.float64 n)
  | str {items : StrLit UInt8} : Scalar numbers (.str items) (.string (unquote items))

/-- One token at the position of a decoder. -/
inductive Step (d : Decoder) : JsonToken → Decoder → Prop
  | beginArray {r : Bytes} : next d.input = .token (.punct .beginArray) r → d.valueAllowed = true →
      Step d (.delim .beginArray) (d.push .arrayStart r)
  | endArray {r : Bytes} : next d.input = .token (.punct .endArray) r →
      (d.tokenState = .arrayStart ∨ d.tokenState = .arrayComma) →
      Step d (.delim .endArray) (d.pop r)
  | beginObject {r : Bytes} : next d.input = .token (.punct .beginObject) r →
      d.valueAllowed = true → Step d (.delim .beginObject) (d.push .objectStart r)
  | endObject {r : Bytes} : next d.input = .token (.punct .endObject) r →
      (d.tokenState = .objectStart ∨ d.tokenState = .objectComma) →
      Step d (.delim .endObject) (d.pop r)
  | name {r : Bytes} {items : StrLit UInt8} : next d.input = .token (.str items) r →
      (d.tokenState = .objectStart ∨ d.tokenState = .objectKey) →
      Step d (.string (unquote items)) { d with input := r, tokenState := .objectColon }
  | scalar {r : Bytes} {doc : Doc UInt8} {t : JsonToken} : Scalar d.numbers doc t →
      Reads d.input doc.tokens r → d.valueAllowed = true → Step d t (d.valueEnd r)

theorem scalar_ok {d d' : Decoder} {t t' : JsonToken} {r : Bytes}
    (h : d.scalar t r = .ok (t', d')) : d.valueAllowed = true ∧ t' = t ∧ d' = d.valueEnd r := by
  rw [scalar] at h
  split at h
  · rename_i ha
    cases h
    exact ⟨ha, rfl, rfl⟩
  · cases h

theorem step_of_tokenAt {d d' : Decoder} {t : JsonToken} (h : d.tokenAt = .ok (t, d')) :
    Step d t d' := by
  rw [tokenAt] at h
  split at h
  · cases h
  · cases h
  · rename_i r hn
    split at h
    · rename_i ha; cases h; exact .beginArray hn ha
    · cases h
  · rename_i r hn
    split at h
    · rename_i ha; cases h; exact .endArray hn ha
    · cases h
  · rename_i r hn
    split at h
    · rename_i ha; cases h; exact .beginObject hn ha
    · cases h
  · rename_i r hn
    split at h
    · rename_i ha; cases h; exact .endObject hn ha
    · cases h
  · cases h
  · cases h
  · rename_i items r hn
    split at h
    · rename_i ha; cases h; exact .name hn ha
    · obtain ⟨ha, rfl, rfl⟩ := scalar_ok h
      exact .scalar .str (reads_one.mpr hn) ha
  · rename_i r hn
    obtain ⟨ha, rfl, rfl⟩ := scalar_ok h
    exact .scalar .null (reads_one.mpr hn) ha
  · rename_i b r hn
    obtain ⟨ha, rfl, rfl⟩ := scalar_ok h
    exact .scalar .bool (reads_one.mpr hn) ha
  · rename_i n r hn
    obtain ⟨ha, rfl, rfl⟩ := scalar_ok h
    cases hnum : d.numbers with
    | true => exact .scalar (.number hnum) (reads_one.mpr hn) ha
    | false => exact .scalar (.float64 hnum) (reads_one.mpr hn) ha

/-- A decoder that may read a value is not in front of a name. -/
theorem not_name_of_valueAllowed {d : Decoder} (h : d.valueAllowed = true) :
    ¬ (d.tokenState = .objectStart ∨ d.tokenState = .objectKey) := by
  rintro (hs | hs) <;> simp [valueAllowed, hs] at h

theorem tokenAt_of_step {d d' : Decoder} {t : JsonToken} (h : Step d t d') :
    d.tokenAt = .ok (t, d') := by
  cases h with
  | beginArray hn ha => simp only [tokenAt, hn, if_pos ha]
  | endArray hn ha => simp only [tokenAt, hn, if_pos ha]
  | beginObject hn ha => simp only [tokenAt, hn, if_pos ha]
  | endObject hn ha => simp only [tokenAt, hn, if_pos ha]
  | name hn ha => simp only [tokenAt, hn, if_pos ha]
  | scalar hs hr ha =>
    cases hs with
    | null => simp only [tokenAt, reads_one.mp hr, scalar, if_pos ha]
    | bool => simp only [tokenAt, reads_one.mp hr, scalar, if_pos ha]
    | number hnum => simp only [tokenAt, reads_one.mp hr, scalar, if_pos ha, if_pos hnum]
    | float64 hnum => simp [tokenAt, reads_one.mp hr, scalar, if_pos ha, hnum]
    | str =>
      simp only [tokenAt, reads_one.mp hr, scalar, if_pos ha, if_neg (not_name_of_valueAllowed ha)]

theorem scalar_ne_eof (d : Decoder) (t : JsonToken) (r : Bytes) : d.scalar t r ≠ .error .eof := by
  rw [scalar]
  split <;> simp

theorem tokenAt_eof_iff {d : Decoder} : d.tokenAt = .error .eof ↔ next d.input = .eof := by
  cases hn : next d.input with
  | eof => simp [tokenAt, hn]
  | bad => simp [tokenAt, hn]
  | token t r =>
    refine iff_of_false ?_ (by simp)
    cases t with
    | punct p => cases p <;> simp only [tokenAt, hn] <;> first | simp | (split <;> simp)
    | null => simpa only [tokenAt, hn] using scalar_ne_eof _ _ _
    | bool b => simpa only [tokenAt, hn] using scalar_ne_eof _ _ _
    | num n => simpa only [tokenAt, hn] using scalar_ne_eof _ _ _
    | str items =>
      simp only [tokenAt, hn]
      split
      · simp
      · exact scalar_ne_eof _ _ _

theorem token_ok_iff {d d' : Decoder} {t : JsonToken} :
    d.token = .ok (t, d') ↔ Step d.skipSeparator t d' := ⟨step_of_tokenAt, tokenAt_of_step⟩

/-- A separator is skipped only in front of a value or a name. -/
theorem skipSeparator_cases (d : Decoder) :
    d.skipSeparator = d ∨
      (∃ r, next d.input = .token (.punct .nameSeparator) r ∧ d.tokenState = .objectColon ∧
        d.skipSeparator = { d with input := r, tokenState := .objectValue }) ∨
      (∃ r, next d.input = .token (.punct .valueSeparator) r ∧ d.tokenState = .arrayComma ∧
        d.skipSeparator = { d with input := r, tokenState := .arrayValue }) ∨
      (∃ r, next d.input = .token (.punct .valueSeparator) r ∧ d.tokenState = .objectComma ∧
        d.skipSeparator = { d with input := r, tokenState := .objectKey }) := by
  cases hn : next d.input with
  | eof => exact .inl (by simp [skipSeparator, hn])
  | bad => exact .inl (by simp [skipSeparator, hn])
  | token t r =>
    by_cases hname : t = .punct .nameSeparator
    · subst hname
      by_cases hs : d.tokenState = .objectColon
      · exact .inr (.inl ⟨r, rfl, hs, by simp [skipSeparator, hn, hs]⟩)
      · exact .inl (by simp [skipSeparator, hn, hs])
    by_cases hvalue : t = .punct .valueSeparator
    · subst hvalue
      by_cases ha : d.tokenState = .arrayComma
      · exact .inr (.inr (.inl ⟨r, rfl, ha, by simp [skipSeparator, hn, ha]⟩))
      by_cases ho : d.tokenState = .objectComma
      · exact .inr (.inr (.inr ⟨r, rfl, ho, by simp [skipSeparator, hn, ho]⟩))
      · exact .inl (by simp [skipSeparator, hn, ha, ho])
    · refine .inl ?_
      simp only [skipSeparator, hn]
      split
      · rename_i heq; cases heq; exact absurd rfl hname
      · rename_i heq; cases heq; exact absurd rfl hvalue
      · rfl

/-- No separator is skipped where the state asks for none. -/
theorem skipSeparator_of_state {d : Decoder}
    (h : d.tokenState ≠ .objectColon ∧ d.tokenState ≠ .arrayComma ∧ d.tokenState ≠ .objectComma) :
    d.skipSeparator = d := by
  rcases skipSeparator_cases d with hd | ⟨_, _, hs, _⟩ | ⟨_, _, hs, _⟩ | ⟨_, _, hs, _⟩
  · exact hd
  · exact absurd hs h.1
  · exact absurd hs h.2.1
  · exact absurd hs h.2.2

/-- `More` on a decoder whose next token is known. -/
theorem more_of_next {d : Decoder} {t : Token UInt8} {r : Bytes} (h : next d.input = .token t r) :
    d.more = true ↔ t ≠ .punct .endArray ∧ t ≠ .punct .endObject := by
  obtain ⟨w, l, hinput, hw, ht⟩ := next_sound h
  obtain ⟨a, l', rfl, ha⟩ := ht.head
  have hskip : skipWs d.input = a :: (l' ++ r) := by
    rw [hinput, skipWs_append hw, List.cons_append, skipWs_of_not_isWs ha]
  have hcode : ∀ n : UInt8, a = n ↔ code a = n.toNat := fun n => UInt8.toNat_inj.symm
  rw [more, hskip]
  simp only [decide_eq_true_eq, ne_eq, hcode]
  cases ht with
  | @punct _ p hp => cases p <;> simp [hp, Punct.symbol]
  | literalNull hl =>
    have := (List.cons.inj hl).1
    simp [this]
  | literalTrue hl =>
    have := (List.cons.inj hl).1
    simp [this]
  | literalFalse hl =>
    have := (List.cons.inj hl).1
    simp [this]
  | num hnum =>
    obtain ⟨b, s, heq, hb⟩ := hnum.head
    cases heq
    simp
    omega
  | str ho _ _ => simp [ho]

end Decoder

end FastGate.Go
