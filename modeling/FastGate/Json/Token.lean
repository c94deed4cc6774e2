/-
# FastGate.Json.Token — the lexical grammar of RFC 8259

Tokens of a JSON text and the symbols that spell them.  The grammar is stated once for every alphabet
whose symbols carry a numeric code, because the programs verified here read the same text in two
ways: as UTF-8 bytes and as Unicode scalar values.

`TokenLexeme l t` transcribes the ABNF of one token.  `Spells s ts` says that `s` is the sequence
`ts` of tokens with insignificant whitespace allowed before, between and after them; RFC 8259 puts
whitespace around every structural character, and every token boundary of a JSON text has one.
-/
import Mathlib.Data.List.Basic
import Mathlib.Data.List.Forall2
import Mathlib.Tactic.Common

namespace FastGate.Json

/-- An alphabet: symbols with a numeric code (a byte value or a code point). -/
class Symbol (α : Type) where
  code : α → Nat

instance : Symbol UInt8 := ⟨UInt8.toNat⟩
instance : Symbol Char := ⟨Char.toNat⟩

export Symbol (code)

/-! ## Tokens -/

/-- The six structural characters. -/
inductive Punct where
  | beginObject | endObject | beginArray | endArray | nameSeparator | valueSeparator
  deriving DecidableEq, Repr

/-- The code of a structural character. -/
def Punct.symbol : Punct → Nat
  | .beginObject => 0x7B
  | .endObject => 0x7D
  | .beginArray => 0x5B
  | .endArray => 0x5D
  | .nameSeparator => 0x3A
  | .valueSeparator => 0x2C

/-- The two-character escapes of a string. -/
inductive Escape where
  | quotationMark | reverseSolidus | solidus | backspace | formFeed | lineFeed | carriageReturn | tab
  deriving DecidableEq, Repr

/-- The code after the backslash. -/
def Escape.letter : Escape → Nat
  | .quotationMark => 0x22
  | .reverseSolidus => 0x5C
  | .solidus => 0x2F
  | .backspace => 0x62
  | .formFeed => 0x66
  | .lineFeed => 0x6E
  | .carriageReturn => 0x72
  | .tab => 0x74

/-- The code point an escape stands for. -/
def Escape.value : Escape → Nat
  | .quotationMark => 0x22
  | .reverseSolidus => 0x5C
  | .solidus => 0x2F
  | .backspace => 0x08
  | .formFeed => 0x0C
  | .lineFeed => 0x0A
  | .carriageReturn => 0x0D
  | .tab => 0x09

/-- One item of a string literal, still undecoded: a symbol that stands for itself, a two-character
escape, or a `\u` escape with the UTF-16 code unit it names. -/
inductive StrItem (α : Type) where
  | unescaped (a : α)
  | escaped (e : Escape)
  | unicode (unit : UInt16)
  deriving DecidableEq, Repr

/-- The contents of a string literal. -/
abbrev StrLit (α : Type) := List (StrItem α)

/-- A number literal: sign, integer digits, fraction digits (none when absent) and exponent (zero
when absent). -/
structure Number where
  negative : Bool
  int : List Nat
  frac : List Nat
  exponent : Int
  deriving DecidableEq, Repr

/-- The tokens of a JSON text; strings keep how they are spelled. -/
inductive Token (α : Type) where
  | punct (p : Punct)
  | null
  | bool (b : Bool)
  | num (n : Number)
  | str (items : StrLit α)
  deriving DecidableEq, Repr

/-! ## Spelling -/

section Spelling

variable {α : Type} [Symbol α]

/-- Insignificant whitespace: space, tab, line feed, carriage return. -/
def isWs (a : α) : Bool :=
  code a == 0x20 || code a == 0x09 || code a == 0x0A || code a == 0x0D

/-- The value of a hexadecimal digit, in either case. -/
def hexValue (n : Nat) : Option Nat :=
  if 0x30 ≤ n ∧ n ≤ 0x39 then some (n - 0x30)
  else if 0x61 ≤ n ∧ n ≤ 0x66 then some (n - 0x61 + 10)
  else if 0x41 ≤ n ∧ n ≤ 0x46 then some (n - 0x41 + 10)
  else none

/-- The code unit spelled by four hexadecimal digits. -/
def hex4 (a b c d : α) : Option UInt16 :=
  match hexValue (code a), hexValue (code b), hexValue (code c), hexValue (code d) with
  | some x, some y, some z, some w => some (UInt16.ofNat (4096 * x + 256 * y + 16 * z + w))
  | _, _, _, _ => none

/-- The symbols of one string item. -/
inductive ItemLexeme : List α → StrItem α → Prop
  | unescaped {a : α} : 0x20 ≤ code a → code a ≠ 0x22 → code a ≠ 0x5C →
      ItemLexeme [a] (.unescaped a)
  | escaped {b a : α} {e : Escape} : code b = 0x5C → code a = e.letter →
      ItemLexeme [b, a] (.escaped e)
  | unicode {b u h1 h2 h3 h4 : α} {unit : UInt16} : code b = 0x5C → code u = 0x75 →
      hex4 h1 h2 h3 h4 = some unit → ItemLexeme [b, u, h1, h2, h3, h4] (.unicode unit)

/-- The symbols between the quotation marks of a string literal. -/
inductive ItemsLexeme : List α → StrLit α → Prop
  | nil : ItemsLexeme [] []
  | cons {l s : List α} {i : StrItem α} {is : StrLit α} :
      ItemLexeme l i → ItemsLexeme s is → ItemsLexeme (l ++ s) (i :: is)

/-- A decimal digit and its value. -/
def DigitSym (a : α) (d : Nat) : Prop := d < 10 ∧ code a = 0x30 + d

/-- The number written by decimal digits, most significant first. -/
def digitsValue (ds : List Nat) : Nat := ds.foldl (fun n d => 10 * n + d) 0

/-- `int = zero / ( digit1-9 *DIGIT )` -/
inductive IntLexeme : List α → List Nat → Prop
  | zero {a : α} : code a = 0x30 → IntLexeme [a] [0]
  | digits {l : List α} {d : Nat} {ds : List Nat} :
      List.Forall₂ DigitSym l (d :: ds) → d ≠ 0 → IntLexeme l (d :: ds)

/-- `[ frac ]` with `frac = decimal-point 1*DIGIT` -/
inductive FracLexeme : List α → List Nat → Prop
  | absent : FracLexeme [] []
  | present {p : α} {l : List α} {d : Nat} {ds : List Nat} :
      code p = 0x2E → List.Forall₂ DigitSym l (d :: ds) → FracLexeme (p :: l) (d :: ds)

/-- `e = %x65 / %x45` -/
def isExpMark (a : α) : Prop := code a = 0x65 ∨ code a = 0x45

/-- `[ exp ]` with `exp = e [ minus / plus ] 1*DIGIT` -/
inductive ExpLexeme : List α → Int → Prop
  | absent : ExpLexeme [] 0
  | unsigned {e : α} {l : List α} {d : Nat} {ds : List Nat} :
      isExpMark e → List.Forall₂ DigitSym l (d :: ds) →
      ExpLexeme (e :: l) (digitsValue (d :: ds))
  | plus {e s : α} {l : List α} {d : Nat} {ds : List Nat} :
      isExpMark e → code s = 0x2B → List.Forall₂ DigitSym l (d :: ds) →
      ExpLexeme (e :: s :: l) (digitsValue (d :: ds))
  | minus {e s : α} {l : List α} {d : Nat} {ds : List Nat} :
      isExpMark e → code s = 0x2D → List.Forall₂ DigitSym l (d :: ds) →
      ExpLexeme (e :: s :: l) (-(digitsValue (d :: ds)))

/-- `number = [ minus ] int [ frac ] [ exp ]` -/
inductive NumberLexeme : List α → Number → Prop
  | unsigned {i f e : List α} {int frac : List Nat} {exponent : Int} :
      IntLexeme i int → FracLexeme f frac → ExpLexeme e exponent →
      NumberLexeme (i ++ (f ++ e)) ⟨false, int, frac, exponent⟩
  | minus {m : α} {i f e : List α} {int frac : List Nat} {exponent : Int} :
      code m = 0x2D → IntLexeme i int → FracLexeme f frac → ExpLexeme e exponent →
      NumberLexeme (m :: (i ++ (f ++ e))) ⟨true, int, frac, exponent⟩

/-- The symbols of one token. -/
inductive TokenLexeme : List α → Token α → Prop
  | punct {a : α} {p : Punct} : code a = p.symbol → TokenLexeme [a] (.punct p)
  | literalNull {l : List α} : l.map code = [0x6E, 0x75, 0x6C, 0x6C] → TokenLexeme l .null
  | literalTrue {l : List α} : l.map code = [0x74, 0x72, 0x75, 0x65] → TokenLexeme l (.bool true)
  | literalFalse {l : List α} : l.map code = [0x66, 0x61, 0x6C, 0x73, 0x65] → TokenLexeme l (.bool false)
  | num {l : List α} {n : Number} : NumberLexeme l n → TokenLexeme l (.num n)
  | str {o c : α} {l : List α} {items : StrLit α} :
      code o = 0x22 → ItemsLexeme l items → code c = 0x22 →
      TokenLexeme (o :: (l ++ [c])) (.str items)

/-- A token sequence with whitespace allowed around every token. -/
inductive Spells : List α → List (Token α) → Prop
  | nil {w : List α} : w.all isWs = true → Spells w []
  | cons {w l s : List α} {t : Token α} {ts : List (Token α)} :
      w.all isWs = true → TokenLexeme l t → Spells s ts → Spells (w ++ (l ++ s)) (t :: ts)

end Spelling

end FastGate.Json
