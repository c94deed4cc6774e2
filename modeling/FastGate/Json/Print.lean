/-
# FastGate.Json.Print — documents as compact texts

The text of a document without any whitespace: `Doc.print` writes its tokens one after the other.  A
document says in its literals which characters are escaped and how, so one printer serves every
encoder; `jsonText_print` says that what it writes is a JSON text of the document, and with
`JsonText.unique` of no other.

Only what an encoder writes can be printed: number literals are integers, and an unescaped character
is one that may stand for itself.
-/
import FastGate.Json.Parser
import FastGate.Json.Text
import Mathlib.Data.Nat.Digits.Lemmas

namespace FastGate.Json

/-! ## Printing -/

/-- A hexadecimal digit, in lower case. -/
def hexDigit (n : Nat) : Char := Char.ofNat (if n < 10 then 0x30 + n else 0x57 + n)

/-- The four hexadecimal digits of a code unit. -/
def hexDigits (n : Nat) : List Char :=
  [hexDigit (n / 4096 % 16), hexDigit (n / 256 % 16), hexDigit (n / 16 % 16), hexDigit (n % 16)]

/-- One item of a string literal. -/
def StrItem.print : StrItem Char → List Char
  | .unescaped c => [c]
  | .escaped e => ['\\', Char.ofNat e.letter]
  | .unicode unit => '\\' :: 'u' :: hexDigits unit.toNat

/-- What stands between the quotes of a string literal. -/
def StrLit.print (items : StrLit Char) : List Char := items.flatMap StrItem.print

theorem StrLit.print_cons (i : StrItem Char) (items : StrLit Char) :
    StrLit.print (i :: items) = i.print ++ StrLit.print items := List.flatMap_cons

/-- A decimal digit. -/
def digitChar (d : Nat) : Char := Char.ofNat (0x30 + d)

/-- An integer; what cannot be printed loses its fraction and exponent. -/
def Number.print (n : Number) : List Char :=
  (if n.negative then ['-'] else []) ++ n.int.map digitChar

/-- One token. -/
def Token.print : Token Char → List Char
  | .punct p => [Char.ofNat p.symbol]
  | .null => "null".toList
  | .bool true => "true".toList
  | .bool false => "false".toList
  | .num n => n.print
  | .str items => '"' :: (items.print ++ ['"'])

/-- The compact text of a document. -/
def Doc.print (d : Doc Char) : List Char := d.tokens.flatMap Token.print

/-- The members after the first, each behind its comma. -/
def Doc.printMembers (ms : List (StrLit Char × Doc Char)) : List Char :=
  (tokens.moreMembers ms).flatMap Token.print

theorem Doc.printMembers_cons (name : StrLit Char) (d : Doc Char) (ms : List (StrLit Char × Doc Char)) :
    printMembers ((name, d) :: ms) =
      ',' :: ((Token.str name).print ++ ':' :: (d.print ++ printMembers ms)) := by
  simp only [printMembers, tokens.moreMembers, List.flatMap_cons, List.flatMap_append, print]
  rfl

theorem Doc.print_obj_cons (name : StrLit Char) (d : Doc Char) (ms : List (StrLit Char × Doc Char)) :
    (obj ((name, d) :: ms)).print =
      '\x7b' :: ((Token.str name).print ++ ':' :: (d.print ++ (printMembers ms ++ ['\x7d']))) := by
  simp only [print, tokens, tokens.members, printMembers, List.flatMap_cons, List.flatMap_append,
    List.append_assoc, List.cons_append]
  rfl

/-! ## What can be printed -/

/-- The item is written as it stands. -/
def StrItem.Printable : StrItem Char → Prop
  | .unescaped c => 0x20 ≤ c.toNat ∧ c.toNat ≠ 0x22 ∧ c.toNat ≠ 0x5C
  | .escaped _ | .unicode _ => True

/-- Every item of the literal is written as it stands. -/
def StrLit.Printable (items : StrLit Char) : Prop := ∀ i ∈ items, i.Printable

/-- The number is an integer literal without superfluous zeros. -/
structure Number.Printable (n : Number) : Prop where
  frac : n.frac = []
  exponent : n.exponent = 0
  digits : ∀ d ∈ n.int, d < 10
  int : n.int = [0] ∨ ∃ d ds, n.int = d :: ds ∧ d ≠ 0

/-- The token is written as it stands. -/
def Token.Printable : Token Char → Prop
  | .num n => n.Printable
  | .str items => items.Printable
  | .punct _ | .null | .bool _ => True

@[simp] theorem Token.printable_punct (p : Punct) : (Token.punct p).Printable := trivial

@[simp] theorem Token.printable_bool (b : Bool) : (Token.bool b).Printable := trivial

@[simp] theorem Token.printable_num (n : Number) : (Token.num n).Printable ↔ n.Printable := Iff.rfl

@[simp] theorem Token.printable_str (items : StrLit Char) :
    (Token.str items).Printable ↔ items.Printable := Iff.rfl

/-- Every token of the document is written as it stands. -/
def Doc.Printable (d : Doc Char) : Prop := ∀ t ∈ d.tokens, t.Printable

/-! ## The lexemes of what is printed -/

theorem toNat_ofNat_ascii {n : Nat} (h : n < 0x80) : (Char.ofNat n).toNat = n :=
  toNat_ofNat (.inl (by omega))

theorem hexValue_hexDigit {n : Nat} (h : n < 16) : hexValue (code (hexDigit n)) = some n := by
  have hcode : code (hexDigit n) = if n < 10 then 0x30 + n else 0x57 + n :=
    toNat_ofNat_ascii (by split <;> omega)
  rw [hcode, hexValue]
  by_cases hn : n < 10
  · rw [if_pos hn, if_pos (by omega)]
    congr 1
    omega
  · rw [if_neg hn, if_neg (by omega), if_pos (by omega)]
    congr 1
    omega

theorem hex4_hexDigits (unit : UInt16) :
    hex4 (hexDigit (unit.toNat / 4096 % 16)) (hexDigit (unit.toNat / 256 % 16))
      (hexDigit (unit.toNat / 16 % 16)) (hexDigit (unit.toNat % 16)) = some unit := by
  have hlt := unit.toNat_lt
  rw [hex4, hexValue_hexDigit (Nat.mod_lt _ (by omega)), hexValue_hexDigit (Nat.mod_lt _ (by omega)),
    hexValue_hexDigit (Nat.mod_lt _ (by omega)), hexValue_hexDigit (Nat.mod_lt _ (by omega))]
  show some (UInt16.ofNat _) = some unit
  rw [Option.some.injEq, ← UInt16.toNat_inj, UInt16.toNat_ofNat']
  omega

theorem StrItem.Printable.lexeme {i : StrItem Char} (h : i.Printable) : ItemLexeme i.print i := by
  cases i with
  | unescaped c => exact .unescaped h.1 h.2.1 h.2.2
  | escaped e => exact .escaped rfl (by cases e <;> rfl)
  | unicode unit => exact .unicode rfl rfl (hex4_hexDigits unit)

theorem StrLit.Printable.lexeme {items : StrLit Char} (h : items.Printable) :
    ItemsLexeme items.print items := by
  induction items with
  | nil => exact .nil
  | cons i items ih =>
    obtain ⟨hi, hitems⟩ := List.forall_mem_cons.mp h
    exact .cons hi.lexeme (ih hitems)

theorem digitSym_digitChar {d : Nat} (h : d < 10) : DigitSym (digitChar d) d :=
  ⟨h, toNat_ofNat_ascii (by omega)⟩

theorem digits_lexeme {ds : List Nat} (h : ∀ d ∈ ds, d < 10) :
    List.Forall₂ DigitSym (ds.map digitChar) ds := by
  rw [List.forall₂_map_left_iff, List.forall₂_same]
  exact fun d hd => digitSym_digitChar (h d hd)

theorem Number.Printable.lexeme {n : Number} (h : n.Printable) : NumberLexeme n.print n := by
  obtain ⟨negative, int, frac, exponent⟩ := n
  obtain ⟨rfl, rfl, hdigits, hint⟩ := h
  have hlexeme : IntLexeme (int.map digitChar) int := by
    rcases hint with rfl | ⟨d, ds, rfl, hd⟩
    · exact .zero rfl
    · exact .digits (digits_lexeme hdigits) hd
  have hnumber : ∀ l : List Char, l = l ++ ([] ++ []) := fun l => by simp
  cases negative with
  | false =>
    show NumberLexeme (int.map digitChar) _
    rw [hnumber (int.map digitChar)]
    exact .unsigned hlexeme .absent .absent
  | true =>
    show NumberLexeme ('-' :: int.map digitChar) _
    rw [hnumber (int.map digitChar)]
    exact .minus rfl hlexeme .absent .absent

theorem Token.Printable.lexeme {t : Token Char} (h : t.Printable) : TokenLexeme t.print t := by
  cases t with
  | punct p => exact .punct (by cases p <;> rfl)
  | null => exact .literalNull rfl
  | bool b =>
    cases b with
    | true => exact .literalTrue rfl
    | false => exact .literalFalse rfl
  | num n => exact .num (Number.Printable.lexeme h)
  | str items => exact .str rfl (StrLit.Printable.lexeme h) rfl

theorem spells_print {ts : List (Token Char)} (h : ∀ t ∈ ts, t.Printable) :
    Spells (ts.flatMap Token.print) ts := by
  induction ts with
  | nil => exact .nil rfl
  | cons t ts ih =>
    obtain ⟨ht, hts⟩ := List.forall_mem_cons.mp h
    exact .cons (w := []) rfl ht.lexeme (ih hts)

/-- The printer writes a JSON text of the document. -/
theorem jsonText_print {d : Doc Char} (h : d.Printable) : JsonText d.print d := spells_print h

/-- Different documents are printed differently. -/
theorem print_inj {d d' : Doc Char} (h : d.Printable) (h' : d'.Printable) :
    d.print = d'.print ↔ d = d' := by
  constructor
  · intro heq
    have ht := jsonText_print h
    rw [heq] at ht
    exact ht.unique (jsonText_print h')
  · rintro rfl
    rfl

/-! ## Documents that can be printed -/

@[simp] theorem Doc.printable_bool (b : Bool) : (Doc.bool b).Printable := by
  simp [Doc.Printable, tokens]

@[simp] theorem Doc.printable_num (n : Number) : (Doc.num n).Printable ↔ n.Printable := by
  simp [Doc.Printable, tokens]

@[simp] theorem Doc.printable_str (s : StrLit Char) : (Doc.str s).Printable ↔ s.Printable := by
  simp [Doc.Printable, tokens]

@[simp] theorem Doc.printable_arr (xs : List (Doc Char)) :
    (Doc.arr xs).Printable ↔ ∀ x ∈ xs, x.Printable := by
  have more : ∀ xs : List (Doc Char),
      (∀ t ∈ tokens.moreElements xs, t.Printable) ↔ ∀ x ∈ xs, x.Printable := by
    intro xs
    induction xs with
    | nil => simp [tokens.moreElements]
    | cons x xs ih =>
      simp only [tokens.moreElements, List.forall_mem_cons, List.forall_mem_append, ih, Doc.Printable,
        Token.printable_punct, true_and]
  cases xs with
  | nil => simp [Doc.Printable, tokens, tokens.elements]
  | cons x xs =>
    rw [List.forall_mem_cons, ← more xs]
    simp [Doc.Printable, tokens, tokens.elements, or_imp, forall_and]

@[simp] theorem Doc.printable_obj (ms : List (StrLit Char × Doc Char)) :
    (Doc.obj ms).Printable ↔ ∀ m ∈ ms, m.1.Printable ∧ m.2.Printable := by
  have more : ∀ ms : List (StrLit Char × Doc Char),
      (∀ t ∈ tokens.moreMembers ms, t.Printable) ↔ ∀ m ∈ ms, m.1.Printable ∧ m.2.Printable := by
    intro ms
    induction ms with
    | nil => simp [tokens.moreMembers]
    | cons m ms ih =>
      simp only [tokens.moreMembers, List.forall_mem_cons, List.forall_mem_append, ih, Doc.Printable,
        Token.printable_punct, Token.printable_str, true_and, and_assoc]
  cases ms with
  | nil => simp [Doc.Printable, tokens, tokens.members]
  | cons m ms =>
    rw [List.forall_mem_cons, ← more ms]
    simp [Doc.Printable, tokens, tokens.members, or_imp, forall_and, and_assoc]

/-! ## Literals of texts -/

/-- The two-character escape an encoder writes for a code point, the solidus being written as it
stands. -/
def shortEscape? (n : Nat) : Option Escape :=
  if n = 0x22 then some .quotationMark
  else if n = 0x5C then some .reverseSolidus
  else if n = 0x08 then some .backspace
  else if n = 0x0C then some .formFeed
  else if n = 0x0A then some .lineFeed
  else if n = 0x0D then some .carriageReturn
  else if n = 0x09 then some .tab
  else none

theorem value_of_shortEscape? {n : Nat} {e : Escape} (h : shortEscape? n = some e) : e.value = n := by
  unfold shortEscape? at h
  repeat' split at h
  all_goals first | (injection h with h; subst h; subst n; rfl) | exact absurd h (by simp)

theorem shortEscape?_eq_none {n : Nat} (h : shortEscape? n = none) : n ≠ 0x22 ∧ n ≠ 0x5C := by
  constructor
  · rintro rfl
    cases h
  · rintro rfl
    cases h

/-- The item stands for one code point. -/
inductive StrItem.Reads : StrItem Char → Nat → Prop
  | unescaped (c : Char) : Reads (.unescaped c) c.toNat
  | escaped (e : Escape) : Reads (.escaped e) e.value
  | unicode (unit : UInt16) : IsScalar unit.toNat → Reads (.unicode unit) unit.toNat

/-- An escaped code unit that is no surrogate stands for itself, whatever follows. -/
theorem codePoints_unicode {unit : UInt16} (h : IsScalar unit.toNat) (items : StrLit Char) :
    codePoints (.unicode unit :: items) = unit.toNat :: codePoints items := by
  have hunit : isHighSurrogate unit = false ∧ isLowSurrogate unit = false := by
    simp only [isHighSurrogate, isLowSurrogate, Bool.and_eq_false_iff, decide_eq_false_iff_not]
    unfold IsScalar at h
    omega
  unfold codePoints
  cases items with
  | nil =>
    rw [decode.eq_5 _ _ _ _ _ (by simp), decodeUnit_of_not_surrogate hunit.1 hunit.2]
    rfl
  | cons j items =>
    cases j with
    | unicode v =>
      rw [decode, if_neg (by simp [hunit.1]), decodeUnit_of_not_surrogate hunit.1 hunit.2]
      rfl
    | _ =>
      rw [decode.eq_5 _ _ _ _ _ (by simp), decodeUnit_of_not_surrogate hunit.1 hunit.2]
      rfl

/-- Code points of items that stand for one each. -/
theorem codePoints_of_reads {items : StrLit Char} {ns : List Nat}
    (h : List.Forall₂ StrItem.Reads items ns) : codePoints items = ns := by
  induction h with
  | nil => rfl
  | @cons i n items ns hi h ih =>
    cases hi with
    | unescaped c => rw [codePoints, decode, ← codePoints, ih]; rfl
    | escaped e => rw [codePoints, decode, ← codePoints, ih]; rfl
    | unicode unit hscalar => rw [codePoints_unicode hscalar, ih]

/-- A literal that stands for a text, character by character. -/
theorem text_of_reads {items : StrLit Char} {text : List Char}
    (h : List.Forall₂ StrItem.Reads items (text.map Char.toNat)) :
    PairedSurrogates items ∧ scalars items = text := by
  have hpoints := codePoints_of_reads h
  have hpaired : PairedSurrogates items := by
    rw [pairedSurrogates_iff, hpoints, List.forall_mem_map]
    exact fun c _ => isScalar_toNat c
  refine ⟨hpaired, ?_⟩
  rw [codePoints_eq_scalars hpaired] at hpoints
  exact (List.map_inj_right fun _ _ h => Char.toNat_inj.mp h).mp hpoints

/-! ## Integers -/

/-- The decimal digits of a number, most significant first. -/
def decimalDigits (n : Nat) : List Nat := if n = 0 then [0] else (Nat.digits 10 n).reverse

/-- An integer as a number literal. -/
def Number.ofInt (n : Int) : Number := ⟨n < 0, decimalDigits n.natAbs, [], 0⟩

theorem digitsValue_decimalDigits (n : Nat) : digitsValue (decimalDigits n) = n := by
  rw [decimalDigits]
  split
  · rename_i hn
    rw [hn]
    rfl
  · rw [digitsValue, List.foldl_reverse]
    have hstep : (fun d m => 10 * m + d) = fun d m : ℕ => d + 10 * m := by
      funext d m
      exact Nat.add_comm _ _
    have hfold := Nat.ofDigits_eq_foldr (10 : ℕ) (Nat.digits 10 n)
    rw [Nat.ofDigits_digits] at hfold
    show List.foldr (fun d m => 10 * m + d) 0 (Nat.digits 10 n) = n
    rw [hstep]
    exact hfold.symm

theorem Number.printable_ofInt (n : Int) : (ofInt n).Printable := by
  refine ⟨rfl, rfl, ?_, ?_⟩
  · show ∀ d ∈ decimalDigits n.natAbs, d < 10
    intro d hd
    rw [decimalDigits] at hd
    split at hd
    · rw [List.mem_singleton.mp hd]
      omega
    · exact Nat.digits_lt_base (by omega) (List.mem_reverse.mp hd)
  · show decimalDigits n.natAbs = [0] ∨ ∃ d ds, decimalDigits n.natAbs = d :: ds ∧ d ≠ 0
    rw [decimalDigits]
    split
    · exact .inl rfl
    · rename_i hn
      have hne : Nat.digits 10 n.natAbs ≠ [] := Nat.digits_ne_nil_iff_ne_zero.mpr hn
      refine .inr ⟨(Nat.digits 10 n.natAbs).getLast hne, (Nat.digits 10 n.natAbs).dropLast.reverse, ?_,
        Nat.getLast_digit_ne_zero 10 hn⟩
      rw [List.reverse_eq_cons_iff, List.reverse_reverse, List.dropLast_append_getLast]

end FastGate.Json
