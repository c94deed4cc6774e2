/-
# FastGate.Json.Encode — one text, two alphabets

A JSON text reads the same as Unicode scalar values and as the bytes of its UTF-8 encoding: every
symbol the grammar names is ASCII, and no byte of a longer encoding is.  `next_encode` says so for
one token and `jsonText_encode` for whole texts, so what one language finds in the bytes of a file
and the other in its decoded characters is the same document.

`decodeString` is the reading of a literal as UTF-8 bytes; `decodeString_encode` compares it with the
reading as scalar values.
-/
import FastGate.Json.Map
import FastGate.Json.Parser
import FastGate.Json.Text
import FastGate.Text.Utf8

open FastGate.Utf8 (Bytes encode encodeChar encode_cons encode_nil encode_append encodeChar_ascii
  encodeChar_high encodeChar_ne_nil)

namespace FastGate.Json

/-! ## Encoding tokens and documents -/

/-- The bytes of one item of a literal, each standing for itself. -/
def StrItem.encode : StrItem Char → StrLit UInt8
  | .unescaped c => (encodeChar c).map .unescaped
  | .escaped e => [.escaped e]
  | .unicode unit => [.unicode unit]

/-- The items of a literal in the bytes of an encoded text. -/
def StrLit.encode (items : StrLit Char) : StrLit UInt8 := items.flatMap StrItem.encode

/-- The document in the bytes of an encoded text. -/
def Doc.encode (d : Doc Char) : Doc UInt8 := d.map StrLit.encode

/-! ## The scanner on encoded texts -/

/-- A character is one byte with its own code, or bytes that no ASCII test notices. -/
theorem encodeChar_cases (c : Char) :
    (∃ b : UInt8, encodeChar c = [b] ∧ code b = code c) ∨
      (0x80 ≤ code c ∧ ∃ (b : UInt8) (bs : Bytes), encodeChar c = b :: bs ∧ 0x80 ≤ code b ∧
        ∀ x ∈ bs, 0x80 ≤ code x) := by
  by_cases h : c.toNat < 0x80
  · obtain ⟨b, hb, hcode⟩ := encodeChar_ascii h
    exact .inl ⟨b, hb, hcode⟩
  · have hhigh := encodeChar_high (Nat.not_lt.mp h)
    cases hb : encodeChar c with
    | nil => exact absurd hb (encodeChar_ne_nil c)
    | cons b bs =>
      rw [hb, List.forall_mem_cons] at hhigh
      exact .inr ⟨Nat.not_lt.mp h, b, bs, rfl, hhigh⟩

section High

variable {α : Type} [Symbol α] {a : α}

theorem isWs_high (h : 0x80 ≤ code a) : isWs a = false := by
  simp only [isWs, Bool.or_eq_false_iff, beq_eq_false_iff_ne]
  omega

theorem digit?_high (h : 0x80 ≤ code a) : digit? (code a) = none := by
  rw [digit?, if_neg (by omega)]

theorem hexValue_high (h : 0x80 ≤ code a) : hexValue (code a) = none := by
  rw [hexValue, if_neg (by omega), if_neg (by omega), if_neg (by omega)]

theorem punct?_high (h : 0x80 ≤ code a) : punct? (code a) = none :=
  punct?_eq_none fun p hp => by cases p <;> simp [Punct.symbol] at hp <;> omega

theorem escape?_high (h : 0x80 ≤ code a) : escape? (code a) = none := by
  cases he : escape? (code a) with
  | none => rfl
  | some e =>
    have := eq_letter_of_escape? he
    cases e <;> simp [Escape.letter] at this <;> omega

end High

theorem isWs_congr {α β : Type} [Symbol α] [Symbol β] {a : α} {b : β} (h : code b = code a) :
    isWs b = isWs a := by simp only [isWs, h]

theorem skipWs_encode (s : List Char) : skipWs (encode s) = encode (skipWs s) := by
  induction s with
  | nil => rfl
  | cons c s ih =>
    rcases encodeChar_cases c with ⟨b, hb, hcode⟩ | ⟨hc, b, bs, hb, hcode, -⟩
    · rw [encode_cons, hb, List.cons_append, List.nil_append, skipWs, skipWs, isWs_congr hcode]
      split
      · exact ih
      · rw [encode_cons, hb, List.cons_append, List.nil_append]
    · rw [skipWs_of_not_isWs (isWs_high hc), encode_cons, hb, List.cons_append,
        skipWs_of_not_isWs (isWs_high hcode)]

theorem stripCodes_encode {ns : List Nat} (hns : ∀ n ∈ ns, n < 0x80) (s : List Char) :
    stripCodes ns (encode s) = (stripCodes ns s).map encode := by
  induction ns generalizing s with
  | nil => rfl
  | cons n ns ih =>
    obtain ⟨hn, hns⟩ := List.forall_mem_cons.mp hns
    cases s with
    | nil => rfl
    | cons c s =>
      rcases encodeChar_cases c with ⟨b, hb, hcode⟩ | ⟨hc, b, bs, hb, hcode, -⟩
      · rw [encode_cons, hb, List.cons_append, List.nil_append, stripCodes, stripCodes, hcode]
        split
        · exact ih hns s
        · rfl
      · rw [encode_cons, hb, List.cons_append, stripCodes, stripCodes, if_neg (by omega),
          if_neg (by omega)]
        rfl

/-- A scanned value and the rest of the text, in bytes. -/
def encodeRest {β : Type} (p : β × List Char) : β × Bytes := (p.1, encode p.2)

theorem scanDigits_encode (s : List Char) : scanDigits (encode s) = encodeRest (scanDigits s) := by
  induction s with
  | nil => rfl
  | cons c s ih =>
    rcases encodeChar_cases c with ⟨b, hb, hcode⟩ | ⟨hc, b, bs, hb, hcode, -⟩
    · rw [encode_cons, hb, List.cons_append, List.nil_append, scanDigits, scanDigits, hcode]
      cases digit? (code c) with
      | some d => simp only [ih, encodeRest]
      | none => simp only [encodeRest, encode_cons, hb, List.cons_append, List.nil_append]
    · rw [scanDigits, digit?_high hc, encode_cons, hb, List.cons_append, scanDigits,
        digit?_high hcode]
      simp only [encodeRest, encode_cons, hb, List.cons_append]

theorem scanDigits1_encode (s : List Char) :
    scanDigits1 (encode s) = (scanDigits1 s).map encodeRest := by
  rw [scanDigits1, scanDigits1, scanDigits_encode]
  cases h : scanDigits s with
  | mk ds r => cases ds <;> rfl

theorem scanInt_encode (s : List Char) : scanInt (encode s) = (scanInt s).map encodeRest := by
  cases s with
  | nil => rfl
  | cons c s =>
    rcases encodeChar_cases c with ⟨b, hb, hcode⟩ | ⟨hc, b, bs, hb, hcode, -⟩
    · rw [encode_cons, hb, List.cons_append, List.nil_append, scanInt, scanInt, hcode]
      cases digit? (code c) with
      | none => rfl
      | some d =>
        cases d with
        | zero => rfl
        | succ d => simp only [scanDigits_encode, Option.map_some, encodeRest]
    · rw [scanInt, digit?_high hc, encode_cons, hb, List.cons_append, scanInt, digit?_high hcode]
      rfl

theorem scanFrac_encode (s : List Char) : scanFrac (encode s) = (scanFrac s).map encodeRest := by
  cases s with
  | nil => rfl
  | cons c s =>
    rcases encodeChar_cases c with ⟨b, hb, hcode⟩ | ⟨hc, b, bs, hb, hcode, -⟩
    · rw [encode_cons, hb, List.cons_append, List.nil_append, scanFrac, scanFrac, hcode]
      split
      · exact scanDigits1_encode s
      · simp only [Option.map_some, encodeRest, encode_cons, hb, List.cons_append, List.nil_append]
    · rw [scanFrac, if_neg (by omega), encode_cons, hb, List.cons_append, scanFrac,
        if_neg (by omega)]
      simp only [Option.map_some, encodeRest, encode_cons, hb, List.cons_append]

theorem scanExpDigits_encode (negative : Bool) (s : List Char) :
    scanExpDigits negative (encode s) = (scanExpDigits negative s).map encodeRest := by
  rw [scanExpDigits, scanExpDigits, scanDigits1_encode]
  cases scanDigits1 s <;> rfl

theorem scanExpSign_encode (s : List Char) :
    scanExpSign (encode s) = (scanExpSign s).map encodeRest := by
  cases s with
  | nil => rfl
  | cons c s =>
    have htail := scanExpDigits_encode false (c :: s)
    rcases encodeChar_cases c with ⟨b, hb, hcode⟩ | ⟨hc, b, bs, hb, hcode, -⟩
    · rw [encode_cons, hb, List.cons_append, List.nil_append] at htail ⊢
      rw [scanExpSign, scanExpSign, hcode]
      split
      · exact scanExpDigits_encode false s
      · split
        · exact scanExpDigits_encode true s
        · exact htail
    · rw [encode_cons, hb, List.cons_append] at htail ⊢
      rw [scanExpSign, if_neg (by omega), if_neg (by omega), scanExpSign, if_neg (by omega),
        if_neg (by omega), htail]

theorem scanExp_encode (s : List Char) : scanExp (encode s) = (scanExp s).map encodeRest := by
  cases s with
  | nil => rfl
  | cons c s =>
    rcases encodeChar_cases c with ⟨b, hb, hcode⟩ | ⟨hc, b, bs, hb, hcode, -⟩
    · rw [encode_cons, hb, List.cons_append, List.nil_append, scanExp, scanExp, hcode]
      split
      · exact scanExpSign_encode s
      · simp only [Option.map_some, encodeRest, encode_cons, hb, List.cons_append, List.nil_append]
    · rw [scanExp, if_neg (by omega), encode_cons, hb, List.cons_append, scanExp,
        if_neg (by omega)]
      simp only [Option.map_some, encodeRest, encode_cons, hb, List.cons_append]

theorem scanMagnitude_encode (negative : Bool) (s : List Char) :
    scanMagnitude negative (encode s) = (scanMagnitude negative s).map encodeRest := by
  rw [scanMagnitude, scanMagnitude, scanInt_encode]
  cases scanInt s with
  | none => rfl
  | some p =>
    simp only [Option.map_some, encodeRest, scanFrac_encode]
    cases scanFrac p.2 with
    | none => rfl
    | some q =>
      simp only [Option.map_some, encodeRest, scanExp_encode]
      cases scanExp q.2 <;> rfl

theorem scanNumber_encode (s : List Char) :
    scanNumber (encode s) = (scanNumber s).map encodeRest := by
  cases s with
  | nil => rfl
  | cons c s =>
    have htail := scanMagnitude_encode false (c :: s)
    rcases encodeChar_cases c with ⟨b, hb, hcode⟩ | ⟨hc, b, bs, hb, hcode, -⟩
    · rw [encode_cons, hb, List.cons_append, List.nil_append] at htail ⊢
      rw [scanNumber, scanNumber, hcode]
      split
      · exact scanMagnitude_encode true s
      · exact htail
    · rw [encode_cons, hb, List.cons_append] at htail ⊢
      rw [scanNumber, if_neg (by omega), scanNumber, if_neg (by omega), htail]

/-! ## String literals -/

section Hex

variable {α : Type} [Symbol α]

/-- The values of a fixed number of hexadecimal digits, and what follows them. -/
def scanHex : Nat → List α → Option (List Nat × List α)
  | 0, s => some ([], s)
  | _ + 1, [] => none
  | n + 1, a :: s =>
    match hexValue (code a), scanHex n s with
    | some x, some (xs, r) => some (x :: xs, r)
    | _, _ => none

/-- A `\u` escape after its `u`, and what follows it. -/
def scanUnit (s : List α) : Option (UInt16 × List α) :=
  match scanHex 4 s with
  | some ([x, y, z, w], r) => some (UInt16.ofNat (4096 * x + 256 * y + 16 * z + w), r)
  | _ => none

/-- An escape after its backslash, and the rest of the literal. -/
def scanEscape : List α → Option (StrLit α × List α)
  | [] => none
  | b :: s =>
    if code b = 0x75 then
      match scanUnit s with
      | some (unit, r) => consItem (.unicode unit) (scanItems r)
      | none => none
    else
      match escape? (code b) with
      | some e => consItem (.escaped e) (scanItems s)
      | none => none

theorem scanUnit_cons (a b c d : α) (s : List α) :
    scanUnit (a :: b :: c :: d :: s) = (hex4 a b c d).map fun unit => (unit, s) := by
  simp only [scanUnit, scanHex, hex4]
  cases hexValue (code a) <;> cases hexValue (code b) <;> cases hexValue (code c) <;>
    cases hexValue (code d) <;> rfl

theorem scanHex_short {n : Nat} : ∀ {s : List α}, s.length < n → scanHex n s = none := by
  induction n with
  | zero => intro s h; exact absurd h (Nat.not_lt_zero _)
  | succ n ih =>
    intro s h
    cases s with
    | nil => rfl
    | cons a s =>
      rw [scanHex, ih (Nat.lt_of_succ_lt_succ h)]
      cases hexValue (code a) <;> rfl

theorem scanHex_length {n : Nat} : ∀ {s : List α} {xs : List Nat} {r : List α},
    scanHex n s = some (xs, r) → r.length ≤ s.length := by
  induction n with
  | zero => intro s xs r h; cases h; exact Nat.le_refl _
  | succ n ih =>
    intro s xs r h
    cases s with
    | nil => cases h
    | cons a s =>
      rw [scanHex] at h
      split at h
      · rename_i x xs' r' hx hr
        cases h
        exact Nat.le_succ_of_le (ih hr)
      · cases h

theorem scanUnit_length {s r : List α} {unit : UInt16} (h : scanUnit s = some (unit, r)) :
    r.length ≤ s.length := by
  rw [scanUnit] at h
  split at h
  · rename_i hx
    cases h
    exact scanHex_length hx
  · cases h

/-- One step of `scanItems`, with the escapes set apart. -/
theorem scanItems_cons (a : α) (s : List α) :
    scanItems (a :: s) =
      if code a = 0x22 then some ([], s)
      else if code a = 0x5C then scanEscape s
      else if code a < 0x20 then none
      else consItem (.unescaped a) (scanItems s) := by
  rw [scanItems.eq_def]
  cases s with
  | nil => rfl
  | cons b s =>
    simp only [scanEscape]
    split
    · rfl
    split
    · split
      · split
        · rw [scanUnit_cons]
          split
          · rename_i hu; rw [hu]; rfl
          · rename_i hu; rw [hu]; rfl
        · rename_i hshort
          have hlen : s.length < 4 := by
            rcases s with _ | ⟨h1, _ | ⟨h2, _ | ⟨h3, _ | ⟨h4, s⟩⟩⟩⟩
            · exact Nat.zero_lt_succ 3
            · exact Nat.lt_of_sub_pos (Nat.zero_lt_succ 2)
            · exact Nat.lt_of_sub_pos (Nat.zero_lt_succ 1)
            · exact Nat.lt_succ_self 3
            · exact absurd rfl (hshort h1 h2 h3 h4 s)
          rw [scanUnit, scanHex_short hlen]
      · rfl
    · rfl

end Hex

theorem scanHex_encode (n : Nat) (s : List Char) :
    scanHex n (encode s) = (scanHex n s).map encodeRest := by
  induction n generalizing s with
  | zero => rfl
  | succ n ih =>
    cases s with
    | nil => rfl
    | cons c s =>
      rcases encodeChar_cases c with ⟨b, hb, hcode⟩ | ⟨hc, b, bs, hb, hcode, -⟩
      · rw [encode_cons, hb, List.cons_append, List.nil_append, scanHex, scanHex, hcode, ih]
        cases hexValue (code c) with
        | none => rfl
        | some x => cases scanHex n s <;> rfl
      · rw [encode_cons, hb, List.cons_append, scanHex, scanHex, hexValue_high hc,
          hexValue_high hcode]
        rfl

theorem scanUnit_encode (s : List Char) : scanUnit (encode s) = (scanUnit s).map encodeRest := by
  rw [scanUnit, scanUnit, scanHex_encode]
  cases h : scanHex 4 s with
  | none => rfl
  | some p =>
    obtain ⟨xs, r⟩ := p
    simp only [Option.map_some, encodeRest]
    split
    · rename_i hx
      cases hx
      rfl
    · rename_i hx
      split
      · rename_i x y z w r' hx'
        cases hx'
        exact absurd rfl (hx x y z w _)
      · rfl

/-- A scanned literal and the rest of the text, in bytes. -/
def encodeItems (p : StrLit Char × List Char) : StrLit UInt8 × Bytes :=
  (StrLit.encode p.1, encode p.2)

theorem scanItems_high {bs : Bytes} (h : ∀ b ∈ bs, 0x80 ≤ code b) (s : Bytes) :
    scanItems (bs ++ s) = (scanItems s).map fun p => (bs.map .unescaped ++ p.1, p.2) := by
  induction bs with
  | nil => simp
  | cons b bs ih =>
    obtain ⟨hb, hbs⟩ := List.forall_mem_cons.mp h
    rw [List.cons_append, scanItems_unescaped (by omega) (by omega) (by omega), ih hbs]
    cases scanItems s <;> rfl

theorem consItem_encode {i : StrItem Char} {j : StrItem UInt8} (hi : i.encode = [j])
    (p : Option (StrLit Char × List Char)) :
    consItem j (p.map encodeItems) = (consItem i p).map encodeItems := by
  cases p with
  | none => rfl
  | some p => simp [consItem, encodeItems, StrLit.encode, hi]

theorem scanItems_encode (s : List Char) :
    scanItems (encode s) = (scanItems s).map encodeItems := by
  induction hn : s.length using Nat.strongRecOn generalizing s with
  | ind n ih =>
    subst hn
    cases s with
    | nil => rfl
    | cons c s =>
      have hs := ih s.length (by simp) s rfl
      -- a character of ASCII is one byte; the bytes of any other are no ASCII, so none is a quote or a backslash
      rcases encodeChar_cases c with ⟨b, hb, hcode⟩ | ⟨hc, b, bs, hb, hcode, hbs⟩
      · rw [encode_cons, hb, List.cons_append, List.nil_append, scanItems_cons, scanItems_cons, hcode]
        split
        · rfl
        split
        · cases s with
          | nil => rfl
          | cons d s =>
            rcases encodeChar_cases d with ⟨e, he, hcode'⟩ | ⟨hd, e, es, he, hcode', -⟩
            · rw [encode_cons, he, List.cons_append, List.nil_append, scanEscape, scanEscape, hcode',
                scanUnit_encode]
              split
              · cases hu : scanUnit s with
                | none => rfl
                | some p =>
                  have hlen := scanUnit_length hu
                  have hp := ih p.2.length (by simp only [List.length_cons]; omega) p.2 rfl
                  simp only [Option.map_some, encodeRest, hp]
                  exact consItem_encode rfl _
              · cases escape? (code d) with
                | none => rfl
                | some e =>
                  simp only [ih s.length (by simp only [List.length_cons]; omega) s rfl]
                  exact consItem_encode rfl _
            · rw [encode_cons, he, List.cons_append, scanEscape, scanEscape, if_neg (by omega),
                if_neg (by omega), escape?_high hd, escape?_high hcode']
              rfl
        split
        · rfl
        · rw [hs]
          exact consItem_encode (by rw [StrItem.encode, hb]; rfl) _
      · have hall : ∀ x ∈ encodeChar c, 0x80 ≤ code x := by
          rw [hb]; exact List.forall_mem_cons.mpr ⟨hcode, hbs⟩
        rw [scanItems_unescaped (by omega) (by omega) (by omega), encode_cons, scanItems_high hall, hs]
        cases scanItems s with
        | none => rfl
        | some p => simp [consItem, encodeItems, StrLit.encode, StrItem.encode]

/-! ## Tokens and documents -/

/-- A scanned token and the rest of the text, in bytes. -/
def encodeToken (p : Token Char × List Char) : Token UInt8 × Bytes :=
  (p.1.map StrLit.encode, encode p.2)

theorem lexToken_encode (s : List Char) : lexToken (encode s) = (lexToken s).map encodeToken := by
  cases s with
  | nil => rfl
  | cons c s =>
    have hnum := scanNumber_encode (c :: s)
    rcases encodeChar_cases c with ⟨b, hb, hcode⟩ | ⟨hc, b, bs, hb, hcode, -⟩
    · rw [encode_cons, hb, List.cons_append, List.nil_append] at hnum ⊢
      rw [lexToken, lexToken, hcode, hnum]
      cases punct? (code c) with
      | some p => rfl
      | none =>
        simp only [scanItems_encode]
        rw [stripCodes_encode (by decide), stripCodes_encode (by decide),
          stripCodes_encode (by decide)]
        split
        · cases scanItems s <;> rfl
        split
        · cases stripCodes [0x75, 0x6C, 0x6C] s <;> rfl
        split
        · cases stripCodes [0x72, 0x75, 0x65] s <;> rfl
        split
        · cases stripCodes [0x61, 0x6C, 0x73, 0x65] s <;> rfl
        · cases scanNumber (c :: s) <;> rfl
    · rw [encode_cons, hb, List.cons_append] at hnum ⊢
      rw [lexToken, lexToken, punct?_high hc, punct?_high hcode, hnum]
      simp only
      iterate 4 rw [if_neg (by omega), if_neg (by omega)]
      cases scanNumber (c :: s) <;> rfl

/-- What a reader finds next, in bytes. -/
def Next.encode : Next Char → Next UInt8
  | .eof => .eof
  | .bad => .bad
  | .token t r => .token (t.map StrLit.encode) (Utf8.encode r)

/-- Reading a token from the bytes of a text is reading it from the text. -/
theorem next_encode (s : List Char) : next (encode s) = (next s).encode := by
  have hlex := lexToken_encode (skipWs s)
  rw [next, next, skipWs_encode]
  cases hs : skipWs s with
  | nil => rfl
  | cons c s =>
    rw [hs] at hlex
    cases he : encode (c :: s) with
    | nil => exact absurd (List.append_eq_nil_iff.mp he).1 (encodeChar_ne_nil c)
    | cons b bs =>
      rw [he] at hlex
      simp only [hlex]
      cases lexToken (c :: s) <;> rfl

theorem lexes_encode {s : List Char} {ts' : List (Token UInt8)} :
    Lexes (encode s) ts' ↔ ∃ ts, Lexes s ts ∧ ts' = ts.map (Token.map StrLit.encode) := by
  constructor
  · intro h
    generalize hb : encode s = bytes at h
    induction h generalizing s with
    | eof h =>
      subst hb
      rw [next_encode] at h
      cases hn : next s with
      | eof => exact ⟨[], .eof hn, rfl⟩
      | bad => rw [hn] at h; cases h
      | token t r => rw [hn] at h; cases h
    | token h _ ih =>
      subst hb
      rw [next_encode] at h
      cases hn : next s with
      | eof => rw [hn] at h; cases h
      | bad => rw [hn] at h; cases h
      | token t r =>
        rw [hn] at h
        cases h
        obtain ⟨ts, hts, rfl⟩ := ih rfl
        exact ⟨t :: ts, .token hn hts, rfl⟩
  · rintro ⟨ts, h, rfl⟩
    induction h with
    | eof h => exact .eof (by rw [next_encode, h]; rfl)
    | token h _ ih => exact .token (by rw [next_encode, h]; rfl) ih

/-- The bytes of a text and the text are JSON texts together, for the same document. -/
theorem jsonText_encode {s : List Char} {d' : Doc UInt8} :
    JsonText (encode s) d' ↔ ∃ d, JsonText s d ∧ d.encode = d' := by
  rw [jsonText_iff_lexes, lexes_encode]
  constructor
  · rintro ⟨ts, hts, htokens⟩
    rw [← List.append_nil d'.tokens] at htokens
    obtain ⟨d, rest, rfl, hd, hrest⟩ := Doc.mapped StrLit.encode d' htokens.symm
    rw [List.map_eq_nil_iff] at hrest
    subst hrest
    rw [List.append_nil, ← jsonText_iff_lexes] at hts
    exact ⟨d, hts, hd⟩
  · rintro ⟨d, hd, rfl⟩
    exact ⟨d.tokens, jsonText_iff_lexes.mp hd, Doc.tokens_map _ d⟩

/-! ## Surrogates -/

theorem pairedSurrogates_unescaped (bs : Bytes) (is : StrLit UInt8) :
    PairedSurrogates (bs.map .unescaped ++ is) ↔ PairedSurrogates is := by
  induction bs with
  | nil => exact Iff.rfl
  | cons b bs ih => rw [List.map_cons, List.cons_append, PairedSurrogates, ih]

/-- The encoded tail of a literal starts with a `\u` escape only if the tail does. -/
theorem encode_ne_unicode {is : StrLit Char} (h : ∀ v js, is ≠ .unicode v :: js) (v : UInt16)
    (js : StrLit UInt8) : StrLit.encode is ≠ .unicode v :: js := by
  cases is with
  | nil => simp [StrLit.encode]
  | cons i is =>
    cases i with
    | unescaped c =>
      cases hc : encodeChar c with
      | nil => exact absurd hc (encodeChar_ne_nil c)
      | cons b bs => simp [StrLit.encode, StrItem.encode, hc]
    | escaped e => simp [StrLit.encode, StrItem.encode]
    | unicode u => exact absurd rfl (h u is)

/-- Encoding touches no escape. -/
theorem pairedSurrogates_encode (is : StrLit Char) :
    PairedSurrogates (StrLit.encode is) ↔ PairedSurrogates is := by
  fun_induction PairedSurrogates is with
  | case1 => exact Iff.rfl
  | case2 c is ih => exact (pairedSurrogates_unescaped (encodeChar c) _).trans ih
  | case3 e is ih => exact ih
  | case4 u v is hu ih =>
    have henc : StrLit.encode (.unicode u :: .unicode v :: is)
        = .unicode u :: .unicode v :: StrLit.encode is := rfl
    rw [henc, PairedSurrogates, if_pos hu, ih]
  | case5 u v is hu ih =>
    have henc : StrLit.encode (.unicode u :: .unicode v :: is)
        = .unicode u :: .unicode v :: StrLit.encode is := rfl
    have htail : StrLit.encode (.unicode v :: is) = .unicode v :: StrLit.encode is := rfl
    rw [henc, PairedSurrogates, if_neg hu, ← htail, ih]
  | case6 u is hne ih =>
    have henc : StrLit.encode (.unicode u :: is) = .unicode u :: StrLit.encode is := rfl
    rw [henc, PairedSurrogates.eq_5 _ _ (encode_ne_unicode hne), ih]

end FastGate.Json
