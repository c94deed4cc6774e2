/-
# FastGate.ModelTurn.Surrogates — the raw escape scanner

`hasValidSurrogateEscapes` looks for `\u` escapes of surrogates in the raw bytes, before any parser
has seen them: it toggles on quotation marks, skips what a backslash escapes, and checks that a high
surrogate is directly followed by a low one.

It can lose track of what is a string on input that is no JSON text.  On a JSON text it cannot, and
there it accepts exactly the documents whose surrogate escapes are paired
(`hasValidSurrogateEscapes_text`).

* `scanFrom` is the loop over what is left of the input instead of an index; `scanFrom_eq` connects the
  two, and there is one lemma for each kind of byte and each kind of item of a literal.
* The second half is about the loop as it is written: `escapeRound` is one round with every read of the
  input checked against its length, and `hasValidSurrogateEscapes_exact` says that no read is out of
  bounds, that the index grows with every round, and that the result is the one above.
-/
import FastGate.Json.Edges
import FastGate.Json.Encode

open FastGate.Utf8 (Bytes)
open FastGate.Json

namespace FastGate.ModelTurn

/-! ## The scanner -/

/-- The digit loop of `decodeHexEscape`. -/
def hexLoop (value : UInt16) : Bytes → UInt16 × Bool
  | [] => (value, true)
  | character :: rest =>
    if 0x30 ≤ character ∧ character ≤ 0x39 then
      hexLoop (value <<< 4 + (character - 0x30).toUInt16) rest
    else if 0x61 ≤ character ∧ character ≤ 0x66 then
      hexLoop (value <<< 4 + ((character - 0x61).toUInt16 + 10)) rest
    else if 0x41 ≤ character ∧ character ≤ 0x46 then
      hexLoop (value <<< 4 + ((character - 0x41).toUInt16 + 10)) rest
    else (0, false)

/-- Four hexadecimal digits from `start` on. -/
def decodeHexEscape (raw : Bytes) (start : Nat) : UInt16 × Bool :=
  if start + 4 > raw.length then (0, false) else hexLoop 0 ((raw.drop start).take 4)

/-- The loop over `index`; the fuel bounds the number of rounds. -/
def escapeLoop (raw : Bytes) : Nat → Nat → Bool → Bool
  | 0, _, _ => true
  | fuel + 1, index, inString =>
    match raw[index]? with
    | none => true
    | some b =>
      if b = 0x22 then escapeLoop raw fuel (index + 1) (!inString)
      else if b = 0x5C then
        if !inString then escapeLoop raw fuel (index + 1) inString
        else
          match raw[index + 1]? with
          | none => false
          | some e =>
            if e ≠ 0x75 then escapeLoop raw fuel (index + 2) inString
            else
              match decodeHexEscape raw (index + 2) with
              | (_, false) => false
              | (unit, true) =>
                if 0xD800 ≤ unit ∧ unit ≤ 0xDBFF then
                  -- here `index` has moved on to the last digit of the escape
                  if index + 5 + 6 ≥ raw.length ∨ raw[index + 6]? ≠ some 0x5C ∨
                      raw[index + 7]? ≠ some 0x75 then false
                  else
                    match decodeHexEscape raw (index + 8) with
                    | (low, lowOk) =>
                      if !lowOk ∨ low < 0xDC00 ∨ low > 0xDFFF then false
                      else escapeLoop raw fuel (index + 12) inString
                else if 0xDC00 ≤ unit ∧ unit ≤ 0xDFFF then false
                else escapeLoop raw fuel (index + 6) inString
      else escapeLoop raw fuel (index + 1) inString

/-- `hasValidSurrogateEscapes`; one step more than there are bytes is always enough. -/
def hasValidSurrogateEscapes (raw : Bytes) : Bool := escapeLoop raw (raw.length + 1) 0 false

/-- More rounds than there are bytes left make no difference. -/
theorem escapeLoop_fuel {raw : Bytes} {fuel : Nat} :
    ∀ {fuel' index : Nat} {inString : Bool}, raw.length < index + fuel → raw.length < index + fuel' →
      escapeLoop raw fuel index inString = escapeLoop raw fuel' index inString := by
  induction fuel with
  | zero =>
    intro fuel' index inString h _
    have hnone : raw[index]? = none := List.getElem?_eq_none (by omega)
    cases fuel' <;> simp [escapeLoop, hnone]
  | succ fuel ih =>
    intro fuel' index inString h h'
    cases fuel' with
    | zero =>
      have hnone : raw[index]? = none := List.getElem?_eq_none (by omega)
      simp [escapeLoop, hnone]
    | succ fuel' =>
      have hstep : ∀ k b, 0 < k →
          escapeLoop raw fuel (index + k) b = escapeLoop raw fuel' (index + k) b :=
        fun k b hk => ih (by omega) (by omega)
      simp only [escapeLoop, hstep _ _ (show 0 < 1 by decide), hstep _ _ (show 0 < 2 by decide),
        hstep _ _ (show 0 < 6 by decide), hstep _ _ (show 0 < 12 by decide)]

/-- The scanner from a position on. -/
def scanFrom (raw : Bytes) (index : Nat) (inString : Bool) : Bool :=
  escapeLoop raw (raw.length + 1) index inString

theorem scanFrom_eq (raw : Bytes) (index : Nat) (inString : Bool) :
    escapeLoop raw raw.length (index + 1) inString = scanFrom raw (index + 1) inString :=
  escapeLoop_fuel (by omega) (by omega)

/-! ## Hexadecimal escapes -/

theorem hexLoop_digit {character : UInt8} {x : Nat} (h : hexValue (code character) = some x)
    (value : UInt16) (rest : Bytes) :
    hexLoop value (character :: rest) = hexLoop (value <<< 4 + UInt16.ofNat x) rest := by
  simp only [hexValue, code] at h
  simp only [hexLoop, UInt8.le_iff_toNat_le, UInt8.reduceToNat]
  have hlt := character.toNat_lt
  -- decimal digits, then the two ranges of letters
  split at h
  · rename_i hd
    cases h
    rw [if_pos hd]
    congr 2
    apply UInt16.toNat_inj.mp
    rw [UInt8.toNat_toUInt16, UInt8.toNat_sub, UInt16.toNat_ofNat']
    simp
    omega
  · rename_i hd
    rw [if_neg hd]
    split at h
    · rename_i hl
      cases h
      rw [if_pos hl]
      congr 2
      apply UInt16.toNat_inj.mp
      rw [UInt16.toNat_add, UInt8.toNat_toUInt16, UInt8.toNat_sub, UInt16.toNat_ofNat']
      simp
      omega
    · rename_i hl
      rw [if_neg hl]
      split at h
      · rename_i hu
        cases h
        rw [if_pos hu]
        congr 2
        apply UInt16.toNat_inj.mp
        rw [UInt16.toNat_add, UInt8.toNat_toUInt16, UInt8.toNat_sub, UInt16.toNat_ofNat']
        simp
        omega
      · cases h

theorem hexLoop_hex4 {h1 h2 h3 h4 : UInt8} {unit : UInt16} (h : hex4 h1 h2 h3 h4 = some unit) :
    hexLoop 0 [h1, h2, h3, h4] = (unit, true) := by
  simp only [hex4] at h
  split at h
  · rename_i x y z w hx hy hz hw
    cases h
    rw [hexLoop_digit hx, hexLoop_digit hy, hexLoop_digit hz, hexLoop_digit hw, hexLoop]
    congr 1
    apply UInt16.toNat_inj.mp
    simp only [UInt16.toNat_add, UInt16.toNat_shiftLeft, UInt16.toNat_ofNat', Nat.shiftLeft_eq]
    simp
    omega
  · cases h

theorem decodeHexEscape_hex4 {raw s : Bytes} {start : Nat} {h1 h2 h3 h4 : UInt8} {unit : UInt16}
    (hdrop : raw.drop start = h1 :: h2 :: h3 :: h4 :: s) (h : hex4 h1 h2 h3 h4 = some unit) :
    decodeHexEscape raw start = (unit, true) := by
  have hlen := congrArg List.length hdrop
  simp only [List.length_drop, List.length_cons] at hlen
  rw [decodeHexEscape, if_neg (by omega), hdrop]
  exact hexLoop_hex4 h

theorem isHighSurrogate_iff (unit : UInt16) :
    isHighSurrogate unit = true ↔ 0xD800 ≤ unit ∧ unit ≤ 0xDBFF := by
  simp [isHighSurrogate, UInt16.le_iff_toNat_le]

theorem isLowSurrogate_iff (unit : UInt16) :
    isLowSurrogate unit = true ↔ 0xDC00 ≤ unit ∧ unit ≤ 0xDFFF := by
  simp [isLowSurrogate, UInt16.le_iff_toNat_le]

/-! ## One step -/

section Step

variable {raw s : Bytes} {index : Nat} {inString : Bool}

theorem getElem?_of_drop {k : Nat} (h : raw.drop index = s) : raw[index + k]? = s[k]? := by
  rw [← h, List.getElem?_drop]

theorem drop_add {l : Bytes} (h : raw.drop index = l ++ s) : raw.drop (index + l.length) = s := by
  rw [← List.drop_drop, h, List.drop_left]

theorem scanFrom_end (h : raw.drop index = []) : scanFrom raw index inString = true := by
  have h0 := getElem?_of_drop (k := 0) h
  rw [scanFrom, escapeLoop]
  simp_all

theorem scanFrom_quote {b : UInt8} (h : raw.drop index = b :: s) (hb : code b = 0x22) :
    scanFrom raw index inString = scanFrom raw (index + 1) (!inString) := by
  have h0 := getElem?_of_drop (k := 0) h
  have hb : b = 0x22 := UInt8.toNat_inj.mp hb
  rw [scanFrom, escapeLoop]
  simp only [Nat.add_zero, List.getElem?_cons_zero] at h0
  simp only [h0, hb, if_true, scanFrom_eq]

/-- Outside of strings only a quotation mark means anything. -/
theorem scanFrom_outside {b : UInt8} (h : raw.drop index = b :: s) (hb : code b ≠ 0x22) :
    scanFrom raw index false = scanFrom raw (index + 1) false := by
  have h0 := getElem?_of_drop (k := 0) h
  have hb : b ≠ 0x22 := fun he => hb (by rw [he]; rfl)
  rw [scanFrom, escapeLoop]
  simp only [Nat.add_zero, List.getElem?_cons_zero] at h0
  simp [h0, hb, scanFrom_eq]

theorem scanFrom_unescaped {b : UInt8} (h : raw.drop index = b :: s) (hb : code b ≠ 0x22)
    (hs : code b ≠ 0x5C) : scanFrom raw index true = scanFrom raw (index + 1) true := by
  have h0 := getElem?_of_drop (k := 0) h
  have hb : b ≠ 0x22 := fun he => hb (by rw [he]; rfl)
  have hs : b ≠ 0x5C := fun he => hs (by rw [he]; rfl)
  rw [scanFrom, escapeLoop]
  simp only [Nat.add_zero, List.getElem?_cons_zero] at h0
  simp [h0, hb, hs, scanFrom_eq]

theorem scanFrom_escaped {b e : UInt8} (h : raw.drop index = b :: e :: s) (hb : code b = 0x5C)
    (he : code e ≠ 0x75) : scanFrom raw index true = scanFrom raw (index + 2) true := by
  have h0 := getElem?_of_drop (k := 0) h
  have h1 := getElem?_of_drop (k := 1) h
  have hb : b = 0x5C := UInt8.toNat_inj.mp hb
  have he : e ≠ 0x75 := fun heq => he (by rw [heq]; rfl)
  rw [scanFrom, escapeLoop]
  simp only [Nat.add_zero, List.getElem?_cons_zero, List.getElem?_cons_succ] at h0 h1
  simp [h0, h1, hb, he, scanFrom_eq]

end Step

section Unicode

variable {raw s : Bytes} {index : Nat} {b u h1 h2 h3 h4 : UInt8} {unit : UInt16}

/-- A `\u` escape in a string, before the surrogates are told apart. -/
theorem scanFrom_unicode (h : raw.drop index = b :: u :: h1 :: h2 :: h3 :: h4 :: s)
    (hb : code b = 0x5C) (hu : code u = 0x75) (hx : hex4 h1 h2 h3 h4 = some unit) :
    scanFrom raw index true =
      if isHighSurrogate unit then
        if index + 5 + 6 ≥ raw.length ∨ raw[index + 6]? ≠ some 0x5C ∨ raw[index + 7]? ≠ some 0x75
        then false
        else
          match decodeHexEscape raw (index + 8) with
          | (low, lowOk) =>
            if !lowOk ∨ low < 0xDC00 ∨ low > 0xDFFF then false else scanFrom raw (index + 12) true
      else if isLowSurrogate unit then false
      else scanFrom raw (index + 6) true := by
  have hget0 := getElem?_of_drop (k := 0) h
  have hget1 := getElem?_of_drop (k := 1) h
  have hdrop : raw.drop (index + 2) = h1 :: h2 :: h3 :: h4 :: s := drop_add (l := [b, u]) h
  have hb : b = 0x5C := UInt8.toNat_inj.mp hb
  have hu : u = 0x75 := UInt8.toNat_inj.mp hu
  rw [scanFrom, escapeLoop]
  simp only [Nat.add_zero, List.getElem?_cons_zero, List.getElem?_cons_succ] at hget0 hget1
  simp only [hget0, hget1, hb, hu, decodeHexEscape_hex4 hdrop hx, isHighSurrogate_iff,
    isLowSurrogate_iff, scanFrom_eq]
  rfl

theorem scanFrom_unicode_plain (h : raw.drop index = b :: u :: h1 :: h2 :: h3 :: h4 :: s)
    (hb : code b = 0x5C) (hu : code u = 0x75) (hx : hex4 h1 h2 h3 h4 = some unit)
    (hhigh : isHighSurrogate unit = false) :
    scanFrom raw index true = (!isLowSurrogate unit && scanFrom raw (index + 6) true) := by
  rw [scanFrom_unicode h hb hu hx, hhigh]
  cases isLowSurrogate unit <;> simp

/-- A high surrogate that no other escape follows. -/
theorem scanFrom_high_alone (h : raw.drop index = b :: u :: h1 :: h2 :: h3 :: h4 :: s)
    (hb : code b = 0x5C) (hu : code u = 0x75) (hx : hex4 h1 h2 h3 h4 = some unit)
    (hhigh : isHighSurrogate unit = true)
    (hs : ∀ b' u' s', s = b' :: u' :: s' → code b' = 0x5C → code u' ≠ 0x75) :
    scanFrom raw index true = false := by
  rw [scanFrom_unicode h hb hu hx, if_pos hhigh]
  have hdrop : raw.drop (index + 6) = s := drop_add (l := [b, u, h1, h2, h3, h4]) h
  have h6 := getElem?_of_drop (k := 0) hdrop
  have h7 := getElem?_of_drop (k := 1) hdrop
  rw [if_pos]
  by_contra hcon
  simp only [not_or, Decidable.not_not] at hcon
  obtain ⟨-, hb', hu'⟩ := hcon
  rw [Nat.add_zero, hb'] at h6
  rw [hu'] at h7
  match s, hs, h6, h7 with
  | b' :: u' :: s', hs, h6, h7 =>
    simp only [List.getElem?_cons_zero, List.getElem?_cons_succ, Option.some.injEq] at h6 h7
    exact hs b' u' s' rfl (by rw [← h6]; rfl) (by rw [← h7]; rfl)

theorem scanFrom_pair {b' u' k1 k2 k3 k4 : UInt8} {low : UInt16}
    (h : raw.drop index = b :: u :: h1 :: h2 :: h3 :: h4 :: b' :: u' :: k1 :: k2 :: k3 :: k4 :: s)
    (hb : code b = 0x5C) (hu : code u = 0x75) (hx : hex4 h1 h2 h3 h4 = some unit)
    (hhigh : isHighSurrogate unit = true) (hb' : code b' = 0x5C) (hu' : code u' = 0x75)
    (hx' : hex4 k1 k2 k3 k4 = some low) :
    scanFrom raw index true = (isLowSurrogate low && scanFrom raw (index + 12) true) := by
  rw [scanFrom_unicode h hb hu hx, if_pos hhigh]
  have hdrop : raw.drop (index + 6) = b' :: u' :: k1 :: k2 :: k3 :: k4 :: s :=
    drop_add (l := [b, u, h1, h2, h3, h4]) h
  have hdrop8 : raw.drop (index + 8) = k1 :: k2 :: k3 :: k4 :: s :=
    drop_add (l := [b, u, h1, h2, h3, h4, b', u']) h
  have h6 := getElem?_of_drop (k := 0) hdrop
  have h7 := getElem?_of_drop (k := 1) hdrop
  have hlen := congrArg List.length hdrop
  have hb' : b' = 0x5C := UInt8.toNat_inj.mp hb'
  have hu' : u' = 0x75 := UInt8.toNat_inj.mp hu'
  simp only [List.length_drop, List.length_cons] at hlen
  simp only [Nat.add_zero, List.getElem?_cons_zero, List.getElem?_cons_succ] at h6 h7
  rw [if_neg (by simp [h6, h7, hb', hu']; omega)]
  simp only [decodeHexEscape_hex4 hdrop8 hx']
  have hlow := isLowSurrogate_iff low
  cases hl : isLowSurrogate low with
  | true =>
    obtain ⟨h1, h2⟩ := hlow.mp hl
    simp [UInt16.not_lt.mpr h1, UInt16.not_lt.mpr h2]
  | false =>
    rw [hl] at hlow
    simp only [Bool.false_eq_true, false_iff, not_and_or, UInt16.not_le] at hlow
    simp [hlow]

end Unicode

/-! ## Literals, tokens and texts -/

/-- Inside a literal the scanner accepts exactly the paired surrogates. -/
theorem scanFrom_items {raw : Bytes} {c : UInt8} {s : Bytes} (hc : code c = 0x22) {l : Bytes}
    {items : StrLit UInt8} (hl : ItemsLexeme l items) :
    ∀ {index stop : Nat}, raw.drop index = l ++ c :: s → stop = index + l.length →
      (scanFrom raw index true = true ↔ PairedSurrogates items ∧ scanFrom raw stop true = true) := by
  fun_induction PairedSurrogates items generalizing l with
  | case1 => rintro index stop h rfl; cases hl; simp
  | case2 a is ih =>
    intro index stop h hstop
    cases hl with
    | cons hi hs =>
      cases hi with
      | unescaped _ hq hb =>
        rw [scanFrom_unescaped h hq hb]
        exact ih hs (drop_add (l := [a]) h) (by simp at hstop ⊢; omega)
  | case3 e is ih =>
    intro index stop h hstop
    cases hl with
    | cons hi hs =>
      cases hi with
      | @escaped b a _ hb ha =>
        have hne : code a ≠ 0x75 := by rw [ha]; cases e <;> decide
        rw [scanFrom_escaped h hb hne]
        exact ih hs (drop_add (l := [b, a]) h) (by simp at hstop ⊢; omega)
  | case4 u v is hu ih =>
    intro index stop h hstop
    cases hl with
    | cons hi hs =>
      cases hi with
      | @unicode b1 u1 a1 a2 a3 a4 _ hb1 hu1 hx1 =>
        cases hs with
        | cons hi hs =>
          cases hi with
          | @unicode b2 u2 c1 c2 c3 c4 _ hb2 hu2 hx2 =>
            rw [scanFrom_pair h hb1 hu1 hx1 hu hb2 hu2 hx2, Bool.and_eq_true, and_assoc]
            exact and_congr_right fun _ => ih hs
              (drop_add (l := [b1, u1, a1, a2, a3, a4, b2, u2, c1, c2, c3, c4]) h)
              (by simp at hstop ⊢; omega)
  | case5 u v is hu ih =>
    intro index stop h hstop
    cases hl with
    | cons hi hs =>
      cases hi with
      | @unicode b1 u1 a1 a2 a3 a4 _ hb1 hu1 hx1 =>
        rw [scanFrom_unicode_plain h hb1 hu1 hx1 (by simpa using hu), Bool.and_eq_true, and_assoc,
          Bool.not_eq_true']
        exact and_congr_right fun _ => ih hs
          (drop_add (l := [b1, u1, a1, a2, a3, a4]) (by simpa using h)) (by simp at hstop ⊢; omega)
  | case6 u is hne ih =>
    intro index stop h hstop
    cases hl with
    | @cons _ ls _ _ hi hs =>
      cases hi with
      | @unicode b1 u1 a1 a2 a3 a4 _ hb1 hu1 hx1 =>
        cases hhigh : isHighSurrogate u with
        | false =>
          rw [scanFrom_unicode_plain h hb1 hu1 hx1 hhigh, Bool.and_eq_true, Bool.not_eq_true',
            and_assoc]
          simp only [true_and]
          exact and_congr_right fun _ => ih hs
            (drop_add (l := [b1, u1, a1, a2, a3, a4]) (by simpa using h)) (by simp at hstop ⊢; omega)
        | true =>
          have hstep : scanFrom raw index true = false := by
            refine scanFrom_high_alone (s := ls ++ c :: s) (by simpa using h) hb1 hu1 hx1 hhigh ?_
            -- what follows is the end of the literal, or an item that is no `\u` escape
            intro b' u' s' heq hb'
            cases hs with
            | nil =>
              cases heq
              rw [hc] at hb'
              exact absurd hb' (by decide)
            | cons hi hs =>
              cases hi with
              | unescaped _ _ hb =>
                simp only [List.cons_append, List.cons.injEq] at heq
                exact absurd (heq.1 ▸ hb') hb
              | @escaped b a e hb ha =>
                simp only [List.cons_append, List.nil_append, List.cons.injEq] at heq
                rw [← heq.2.1, ha]
                cases e <;> decide
              | unicode _ _ _ => exact absurd rfl (hne _ _)
          simp [hstep]

/-- Symbols other than quotation marks, outside of strings. -/
theorem scanFrom_no_quote {raw l s : Bytes} (hl : ∀ b ∈ l, code b ≠ 0x22) :
    ∀ {index : Nat}, raw.drop index = l ++ s →
      scanFrom raw index false = scanFrom raw (index + l.length) false := by
  induction l with
  | nil => intro index _; rfl
  | cons b l ih =>
    intro index h
    obtain ⟨hb, hl⟩ := List.forall_mem_cons.mp hl
    have hdrop : raw.drop (index + 1) = l ++ s := drop_add (l := [b]) h
    rw [scanFrom_outside h hb, ih hl hdrop, List.length_cons, Nat.add_assoc, Nat.add_comm 1]

theorem no_quote_of_isWs {w : Bytes} (hw : w.all isWs = true) : ∀ b ∈ w, code b ≠ 0x22 := by
  intro b hb he
  have hws := List.all_eq_true.mp hw b hb
  simp [isWs, he] at hws

theorem no_quote_of_codes {l : Bytes} {ns : List Nat} (h : l.map code = ns) (hns : 0x22 ∉ ns) :
    ∀ b ∈ l, code b ≠ 0x22 := fun _ hb he => hns (h ▸ he ▸ List.mem_map_of_mem hb)

theorem no_quote_of_digits {l : Bytes} {ds : List Nat} (h : List.Forall₂ DigitSym l ds) :
    ∀ b ∈ l, code b ≠ 0x22 := by
  induction h with
  | nil => simp
  | cons ha _ ih => exact List.forall_mem_cons.mpr ⟨by have := ha.2; omega, ih⟩

theorem no_quote_of_number {l : Bytes} {n : Number} (h : NumberLexeme l n) :
    ∀ b ∈ l, code b ≠ 0x22 := by
  have hint : ∀ {i : Bytes} {ds : List Nat}, IntLexeme i ds → ∀ b ∈ i, code b ≠ 0x22 := by
    intro i ds hi
    cases hi with
    | zero ha => simp [ha]
    | digits hds _ => exact no_quote_of_digits hds
  have hfrac : ∀ {f : Bytes} {ds : List Nat}, FracLexeme f ds → ∀ b ∈ f, code b ≠ 0x22 := by
    intro f ds hf
    cases hf with
    | absent => simp
    | present hp hds => exact List.forall_mem_cons.mpr ⟨by omega, no_quote_of_digits hds⟩
  have hexp : ∀ {e : Bytes} {x : Int}, ExpLexeme e x → ∀ b ∈ e, code b ≠ 0x22 := by
    intro e x he
    cases he with
    | absent => simp
    | unsigned hm hds =>
      exact List.forall_mem_cons.mpr ⟨by rcases hm with h | h <;> omega, no_quote_of_digits hds⟩
    | plus hm hs hds =>
      exact List.forall_mem_cons.mpr ⟨by rcases hm with h | h <;> omega,
        List.forall_mem_cons.mpr ⟨by omega, no_quote_of_digits hds⟩⟩
    | minus hm hs hds =>
      exact List.forall_mem_cons.mpr ⟨by rcases hm with h | h <;> omega,
        List.forall_mem_cons.mpr ⟨by omega, no_quote_of_digits hds⟩⟩
  cases h with
  | unsigned hi hf he =>
    exact List.forall_mem_append.mpr ⟨hint hi, List.forall_mem_append.mpr ⟨hfrac hf, hexp he⟩⟩
  | minus hm hi hf he =>
    exact List.forall_mem_cons.mpr ⟨by omega,
      List.forall_mem_append.mpr ⟨hint hi, List.forall_mem_append.mpr ⟨hfrac hf, hexp he⟩⟩⟩

theorem scanFrom_token {raw l s : Bytes} {t : Token UInt8} (ht : TokenLexeme l t) {index : Nat}
    (h : raw.drop index = l ++ s) :
    scanFrom raw index false = true ↔
      t.AllStrings PairedSurrogates ∧ scanFrom raw (index + l.length) false = true := by
  cases ht with
  | punct ha =>
    rw [scanFrom_no_quote (by rename_i p; cases p <;> simp [ha, Punct.symbol]) h]
    simp [Token.AllStrings]
  | literalNull hl => rw [scanFrom_no_quote (no_quote_of_codes hl (by decide)) h]; simp [Token.AllStrings]
  | literalTrue hl => rw [scanFrom_no_quote (no_quote_of_codes hl (by decide)) h]; simp [Token.AllStrings]
  | literalFalse hl =>
    rw [scanFrom_no_quote (no_quote_of_codes hl (by decide)) h]; simp [Token.AllStrings]
  | num hn => rw [scanFrom_no_quote (no_quote_of_number hn) h]; simp [Token.AllStrings]
  | @str o c l items ho hl hc =>
    have h : raw.drop index = o :: (l ++ c :: s) := by simpa using h
    have hinside : raw.drop (index + 1) = l ++ c :: s := drop_add (l := [o]) h
    have hclose : raw.drop (index + 1 + l.length) = c :: s := drop_add hinside
    rw [scanFrom_quote h ho, Bool.not_false, scanFrom_items hc hl hinside rfl,
      scanFrom_quote hclose hc, Bool.not_true, Token.allStrings_str]
    have hstop : index + 1 + l.length + 1 = index + (o :: (l ++ [c])).length := by simp; omega
    rw [hstop]

theorem scanFrom_spells {raw s : Bytes} {ts : List (Token UInt8)} (h : Spells s ts) :
    ∀ {index : Nat}, raw.drop index = s →
      (scanFrom raw index false = true ↔ ∀ t ∈ ts, t.AllStrings PairedSurrogates) := by
  induction h with
  | nil hw =>
    intro index hdrop
    rw [← List.append_nil (List.drop index raw)] at hdrop
    rw [scanFrom_no_quote (s := []) (no_quote_of_isWs hw) (by simpa using hdrop)]
    rw [scanFrom_end (by simpa using drop_add (s := []) (by simpa using hdrop))]
    simp
  | cons hw ht hs ih =>
    intro index hdrop
    rw [scanFrom_no_quote (no_quote_of_isWs hw) hdrop, scanFrom_token ht (drop_add hdrop),
      ih (drop_add (drop_add hdrop)), List.forall_mem_cons]

/-- On a JSON text the scanner accepts exactly the paired surrogates. -/
theorem hasValidSurrogateEscapes_text {raw : Bytes} {d : Doc UInt8} (h : JsonText raw d) :
    hasValidSurrogateEscapes raw = true ↔ d.AllStrings PairedSurrogates := by
  rw [← Doc.allStrings_tokens]
  exact scanFrom_spells h rfl

/-! ## Reads within the input -/

/-- `raw[i]`, which panics at an index out of range. -/
def readAt (raw : Bytes) (i : Nat) : Except Nat UInt8 :=
  match raw[i]? with
  | some b => .ok b
  | none => .error i

/-- `decodeHexEscape` with the bounds check of its slice. -/
def hexEscapeAt (raw : Bytes) (start : Nat) : Except Nat (UInt16 × Bool) :=
  if start + 4 > raw.length then .ok (0, false)
  else if start + 4 ≤ raw.length then .ok (hexLoop 0 ((raw.drop start).take 4))
  else .error (start + 4)

/-- What one round of the loop comes to: the answer, or the index of the next round. -/
inductive ScanRound where
  | done (answer : Bool)
  | next (index : Nat) (inString : Bool)
  deriving DecidableEq, Repr

/-- One round of `hasValidSurrogateEscapes`, every read with its bounds check. -/
def escapeRound (raw : Bytes) (index : Nat) (inString : Bool) : Except Nat ScanRound := do
  let b ← readAt raw index
  if b = 0x22 then return .next (index + 1) (!inString)
  else if b = 0x5C then
    if !inString then return .next (index + 1) inString
    else if index + 1 ≥ raw.length then return .done false
    else
      let e ← readAt raw (index + 1)
      if e ≠ 0x75 then return .next (index + 2) inString
      else
        let (unit, ok) ← hexEscapeAt raw (index + 2)
        if !ok then return .done false
        else if 0xD800 ≤ unit ∧ unit ≤ 0xDBFF then
          if index + 5 + 6 ≥ raw.length then return .done false
          else
            let backslash ← readAt raw (index + 6)
            if backslash ≠ 0x5C then return .done false
            else
              let letter ← readAt raw (index + 7)
              if letter ≠ 0x75 then return .done false
              else
                let (low, lowOk) ← hexEscapeAt raw (index + 8)
                if !lowOk ∨ low < 0xDC00 ∨ low > 0xDFFF then return .done false
                else return .next (index + 12) inString
        else if 0xDC00 ≤ unit ∧ unit ≤ 0xDFFF then return .done false
        else return .next (index + 6) inString
  else return .next (index + 1) inString

/-- The loop as it runs: rounds while the index is inside the input. -/
inductive Runs (raw : Bytes) : Nat → Bool → Bool → Prop
  | stop {index : Nat} {inString : Bool} : raw.length ≤ index → Runs raw index inString true
  | done {index : Nat} {inString answer : Bool} : index < raw.length →
      escapeRound raw index inString = .ok (.done answer) → Runs raw index inString answer
  | next {index index' : Nat} {inString inString' answer : Bool} : index < raw.length →
      escapeRound raw index inString = .ok (.next index' inString') → Runs raw index' inString' answer →
      Runs raw index inString answer

theorem readAt_ok {raw : Bytes} {i : Nat} (h : i < raw.length) :
    ∃ b, raw[i]? = some b ∧ readAt raw i = .ok b := by
  refine ⟨raw[i], List.getElem?_eq_getElem h, ?_⟩
  rw [readAt, List.getElem?_eq_getElem h]

theorem hexEscapeAt_eq (raw : Bytes) (start : Nat) :
    hexEscapeAt raw start = .ok (decodeHexEscape raw start) := by
  unfold hexEscapeAt decodeHexEscape
  split
  · rfl
  · rw [if_pos (by omega)]

/-- A round inside the input reads inside the input, moves on, and is a round of the loop. -/
theorem escapeRound_ok {raw : Bytes} {index : Nat} {inString : Bool} (h : index < raw.length) :
    ∃ round, escapeRound raw index inString = .ok round ∧ (∀ i s, round = .next i s → index < i) ∧
      ∀ fuel, escapeLoop raw (fuel + 1) index inString =
        match round with
        | .done answer => answer
        | .next i s => escapeLoop raw fuel i s := by
  obtain ⟨b, hb, hread⟩ := readAt_ok h
  -- a round that goes on, and one that answers
  have hnext : ∀ {k : Nat} {s : Bool} {loop : Nat → Bool}, 0 < k →
      (∀ fuel, loop fuel = escapeLoop raw fuel (index + k) s) →
      ∃ round : ScanRound, (Except.ok (.next (index + k) s) : Except Nat ScanRound) = .ok round ∧
        (∀ i s, round = .next i s → index < i) ∧ ∀ fuel, loop fuel =
          match round with
          | .done answer => answer
          | .next i s => escapeLoop raw fuel i s := by
    intro k s loop hk hloop
    refine ⟨_, rfl, ?_, hloop⟩
    intro i s' heq
    cases heq
    omega
  have hdone : ∀ {answer : Bool} {loop : Nat → Bool}, (∀ fuel, loop fuel = answer) →
      ∃ round : ScanRound, (Except.ok (.done answer) : Except Nat ScanRound) = .ok round ∧
        (∀ i s, round = .next i s → index < i) ∧ ∀ fuel, loop fuel =
          match round with
          | .done answer => answer
          | .next i s => escapeLoop raw fuel i s := by
    intro answer loop hloop
    refine ⟨_, rfl, ?_, hloop⟩
    intro i s heq
    cases heq
  unfold escapeRound
  simp only [escapeLoop, hb, hread, bind, Except.bind, pure, Except.pure, hexEscapeAt_eq]
  by_cases hquote : b = 0x22
  · simp only [if_pos hquote]
    exact hnext Nat.zero_lt_one fun _ => rfl
  by_cases hescape : b = 0x5C
  swap
  · simp only [if_neg hquote, if_neg hescape]
    exact hnext Nat.zero_lt_one fun _ => rfl
  simp only [if_neg hquote, if_pos hescape]
  by_cases hstring : (!inString) = true
  · simp only [if_pos hstring]
    exact hnext Nat.zero_lt_one fun _ => rfl
  simp only [if_neg hstring]
  by_cases hend : index + 1 ≥ raw.length
  · rw [if_pos hend, List.getElem?_eq_none hend]
    exact hdone fun _ => rfl
  obtain ⟨e, he, hreadE⟩ := readAt_ok (Nat.lt_of_not_le hend)
  simp only [if_neg hend, he, hreadE]
  by_cases hu : e ≠ 0x75
  · simp only [if_pos hu]
    exact hnext (by decide) fun _ => rfl
  simp only [if_neg hu]
  generalize decodeHexEscape raw (index + 2) = code
  obtain ⟨unit, ok⟩ := code
  cases ok with
  | false => exact hdone fun _ => rfl
  | true =>
    simp only [Bool.not_true, Bool.false_eq_true, if_false]
    by_cases hhigh : 0xD800 ≤ unit ∧ unit ≤ 0xDBFF
    swap
    · simp only [if_neg hhigh]
      by_cases hlow : 0xDC00 ≤ unit ∧ unit ≤ 0xDFFF
      · simp only [if_pos hlow]
        exact hdone fun _ => rfl
      · simp only [if_neg hlow]
        exact hnext (by decide) fun _ => rfl
    simp only [if_pos hhigh]
    by_cases hroom : index + 5 + 6 ≥ raw.length
    · simp only [hroom, true_or, if_true]
      exact hdone fun _ => rfl
    -- the pair ends inside the input, so both of its first bytes do
    obtain ⟨c, hc, hreadC⟩ := readAt_ok (show index + 6 < raw.length by omega)
    obtain ⟨d, hd, hreadD⟩ := readAt_ok (show index + 7 < raw.length by omega)
    simp only [hreadC, hreadD, hc, hd, hroom, false_or, ne_eq, Option.some.injEq]
    by_cases hbackslash : c = 0x5C
    swap
    · simp only [hbackslash, not_false_eq_true, if_true, true_or]
      exact hdone fun _ => rfl
    by_cases hletter : d = 0x75
    swap
    · simp only [hbackslash, hletter, not_true_eq_false, not_false_eq_true, if_false, if_true, or_true]
      exact hdone fun _ => rfl
    simp only [hbackslash, hletter, not_true_eq_false, if_false, or_false]
    generalize decodeHexEscape raw (index + 8) = code
    obtain ⟨low, lowOk⟩ := code
    dsimp only
    split
    · exact hdone fun _ => rfl
    · exact hnext (by decide) fun _ => rfl

/-- The fuel is enough: the loop ends with the answer of `hasValidSurrogateEscapes`. -/
theorem runs_scanFrom (raw : Bytes) (index : Nat) (inString : Bool) :
    Runs raw index inString (scanFrom raw index inString) := by
  by_cases h : raw.length ≤ index
  · rw [scanFrom_end (List.drop_eq_nil_of_le h)]
    exact .stop h
  · obtain ⟨round, hround, hmoves, hloop⟩ := @escapeRound_ok raw index inString (Nat.lt_of_not_le h)
    rw [scanFrom, hloop]
    cases round with
    | done answer => exact .done (Nat.lt_of_not_le h) hround
    | next i s =>
      have hindex := hmoves i s rfl
      have hfuel : escapeLoop raw raw.length i s = scanFrom raw i s :=
        escapeLoop_fuel (by omega) (by omega)
      dsimp only
      rw [hfuel]
      exact .next (Nat.lt_of_not_le h) hround (runs_scanFrom raw i s)
termination_by raw.length - index

/-- The scanner moves on in every round, reads inside the input only, and ends.  On a JSON text its
answer is whether the surrogate escapes are paired. -/
theorem hasValidSurrogateEscapes_exact (raw : Bytes) :
    (∀ index inString, index < raw.length → ∃ round, escapeRound raw index inString = .ok round ∧
      ∀ i s, round = .next i s → index < i) ∧
    Runs raw 0 false (hasValidSurrogateEscapes raw) ∧
    ∀ d : Doc UInt8, JsonText raw d →
      (hasValidSurrogateEscapes raw = true ↔ d.AllStrings PairedSurrogates) := by
  refine ⟨fun index inString h => ?_, runs_scanFrom raw 0 false, fun d => hasValidSurrogateEscapes_text⟩
  obtain ⟨round, hround, hmoves, -⟩ := @escapeRound_ok raw index inString h
  exact ⟨round, hround, hmoves⟩

end FastGate.ModelTurn
