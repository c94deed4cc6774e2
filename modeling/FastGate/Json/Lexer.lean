/-
# FastGate.Json.Lexer — scanning one token

The scanner a JSON reader runs: skip whitespace, then take the longest token.  `lexToken_sound` and
`lexToken_lexeme` hold it to the lexical grammar of `FastGate.Json.Token`.  Numbers are the only
tokens whose end depends on what follows, so the second theorem asks that a number be followed by
nothing that could extend it (`NumberStop`).

`Lexes s ts` is the functional reading of a whole text, and `lexes_iff_spells` says that it agrees
with the grammar on every token sequence in which a number is followed by punctuation.
-/
import FastGate.Json.Token

namespace FastGate.Json

variable {α : Type} [Symbol α]

/-! ## The scanner -/

/-- Drop leading whitespace. -/
def skipWs : List α → List α
  | [] => []
  | a :: s => if isWs a then skipWs s else a :: s

/-- The structural character with a code. -/
def punct? (n : Nat) : Option Punct :=
  if n = 0x7B then some .beginObject
  else if n = 0x7D then some .endObject
  else if n = 0x5B then some .beginArray
  else if n = 0x5D then some .endArray
  else if n = 0x3A then some .nameSeparator
  else if n = 0x2C then some .valueSeparator
  else none

/-- The two-character escape with a letter. -/
def escape? (n : Nat) : Option Escape :=
  if n = 0x22 then some .quotationMark
  else if n = 0x5C then some .reverseSolidus
  else if n = 0x2F then some .solidus
  else if n = 0x62 then some .backspace
  else if n = 0x66 then some .formFeed
  else if n = 0x6E then some .lineFeed
  else if n = 0x72 then some .carriageReturn
  else if n = 0x74 then some .tab
  else none

/-- Put an item in front of a scanned string literal. -/
def consItem (i : StrItem α) : Option (StrLit α × List α) → Option (StrLit α × List α)
  | some (is, s) => some (i :: is, s)
  | none => none

/-- The contents of a string literal up to its closing quotation mark, and what follows. -/
def scanItems : List α → Option (StrLit α × List α)
  | [] => none
  | a :: s =>
    if code a = 0x22 then some ([], s)
    else if code a = 0x5C then
      match s with
      | [] => none
      | b :: s =>
        if code b = 0x75 then
          match s with
          | h1 :: h2 :: h3 :: h4 :: s =>
            match hex4 h1 h2 h3 h4 with
            | some unit => consItem (.unicode unit) (scanItems s)
            | none => none
          | _ => none
        else
          match escape? (code b) with
          | some e => consItem (.escaped e) (scanItems s)
          | none => none
    else if code a < 0x20 then none
    else consItem (.unescaped a) (scanItems s)

theorem scanItems_quote {a : α} (ha : code a = 0x22) (s : List α) :
    scanItems (a :: s) = some ([], s) := by
  rw [scanItems.eq_def]
  simp [ha]

theorem scanItems_unicode {b u h1 h2 h3 h4 : α} {unit : UInt16} (hb : code b = 0x5C)
    (hu : code u = 0x75) (hx : hex4 h1 h2 h3 h4 = some unit) (s : List α) :
    scanItems (b :: u :: h1 :: h2 :: h3 :: h4 :: s)
      = consItem (.unicode unit) (scanItems s) := by
  rw [scanItems.eq_def]
  simp [hb, hu, hx]

/-- The value of a decimal digit. -/
def digit? (n : Nat) : Option Nat := if 0x30 ≤ n ∧ n ≤ 0x39 then some (n - 0x30) else none

/-- The longest run of decimal digits. -/
def scanDigits : List α → List Nat × List α
  | [] => ([], [])
  | a :: s =>
    match digit? (code a) with
    | some d => (d :: (scanDigits s).1, (scanDigits s).2)
    | none => ([], a :: s)

/-- The integer part of a number: a zero, or digits that begin with no zero. -/
def scanInt : List α → Option (List Nat × List α)
  | [] => none
  | a :: s =>
    match digit? (code a) with
    | none => none
    | some 0 => some ([0], s)
    | some (d + 1) => some ((d + 1) :: (scanDigits s).1, (scanDigits s).2)

/-- At least one digit. -/
def scanDigits1 (s : List α) : Option (List Nat × List α) :=
  match scanDigits s with
  | ([], _) => none
  | (d :: ds, s) => some (d :: ds, s)

/-- The fraction of a number, if there is one. -/
def scanFrac : List α → Option (List Nat × List α)
  | [] => some ([], [])
  | a :: s => if code a = 0x2E then scanDigits1 s else some ([], a :: s)

/-- The digits of an exponent, with the sign already taken. -/
def scanExpDigits (negative : Bool) (s : List α) : Option (Int × List α) :=
  match scanDigits1 s with
  | some (ds, s) => some (if negative then -(digitsValue ds : Int) else digitsValue ds, s)
  | none => none

/-- The sign of an exponent, if there is one, and its digits. -/
def scanExpSign : List α → Option (Int × List α)
  | [] => none
  | a :: s =>
    if code a = 0x2B then scanExpDigits false s
    else if code a = 0x2D then scanExpDigits true s
    else scanExpDigits false (a :: s)

/-- The exponent of a number; zero, if there is none. -/
def scanExp : List α → Option (Int × List α)
  | [] => some (0, [])
  | a :: s => if code a = 0x65 ∨ code a = 0x45 then scanExpSign s else some (0, a :: s)

/-- A number literal without its sign. -/
def scanMagnitude (negative : Bool) (s : List α) : Option (Number × List α) :=
  match scanInt s with
  | none => none
  | some (int, s) =>
    match scanFrac s with
    | none => none
    | some (frac, s) =>
      match scanExp s with
      | none => none
      | some (exponent, s) => some (⟨negative, int, frac, exponent⟩, s)

/-- A number literal. -/
def scanNumber : List α → Option (Number × List α)
  | [] => none
  | a :: s => if code a = 0x2D then scanMagnitude true s else scanMagnitude false (a :: s)

/-- Strip a fixed sequence of codes. -/
def stripCodes : List Nat → List α → Option (List α)
  | [], s => some s
  | _ :: _, [] => none
  | n :: ns, a :: s => if code a = n then stripCodes ns s else none

/-- The token at the front of a text without leading whitespace, and what follows it. -/
def lexToken : List α → Option (Token α × List α)
  | [] => none
  | a :: s =>
    match punct? (code a) with
    | some p => some (.punct p, s)
    | none =>
      if code a = 0x22 then (scanItems s).map fun (items, s) => (.str items, s)
      else if code a = 0x6E then (stripCodes [0x75, 0x6C, 0x6C] s).map fun s => (.null, s)
      else if code a = 0x74 then (stripCodes [0x72, 0x75, 0x65] s).map fun s => (.bool true, s)
      else if code a = 0x66 then
        (stripCodes [0x61, 0x6C, 0x73, 0x65] s).map fun s => (.bool false, s)
      else (scanNumber (a :: s)).map fun (n, s) => (.num n, s)

/-- What a reader finds at its position: the end, something that is no token, or a token. -/
inductive Next (α : Type) where
  | eof
  | bad
  | token (t : Token α) (rest : List α)
  deriving DecidableEq, Repr

/-- Skip whitespace and read one token. -/
def next (s : List α) : Next α :=
  match skipWs s with
  | [] => .eof
  | a :: s =>
    match lexToken (a :: s) with
    | some (t, rest) => .token t rest
    | none => .bad

/-- Reading a whole text yields these tokens. -/
inductive Lexes : List α → List (Token α) → Prop
  | eof {s : List α} : next s = .eof → Lexes s []
  | token {s r : List α} {t : Token α} {ts : List (Token α)} :
      next s = .token t r → Lexes r ts → Lexes s (t :: ts)

/-! ## Small facts about codes -/

@[simp] theorem punct?_symbol (p : Punct) : punct? p.symbol = some p := by cases p <;> rfl

theorem eq_symbol_of_punct? {n : Nat} {p : Punct} (h : punct? n = some p) : n = p.symbol := by
  unfold punct? at h
  repeat' split at h
  all_goals first | (injection h with h; subst h; assumption) | exact absurd h (by simp)

theorem punct?_eq_none {n : Nat} (h : ∀ p : Punct, n ≠ p.symbol) : punct? n = none := by
  cases hp : punct? n with
  | none => rfl
  | some p => exact absurd (eq_symbol_of_punct? hp) (h p)

@[simp] theorem escape?_letter (e : Escape) : escape? e.letter = some e := by cases e <;> rfl

theorem eq_letter_of_escape? {n : Nat} {e : Escape} (h : escape? n = some e) : n = e.letter := by
  unfold escape? at h
  repeat' split at h
  all_goals first | (injection h with h; subst h; assumption) | exact absurd h (by simp)

theorem digit?_eq_some {n d : Nat} : digit? n = some d ↔ d < 10 ∧ n = 0x30 + d := by
  unfold digit?
  split
  · rw [Option.some.injEq]; omega
  · simp; omega

theorem digit?_of_digitSym {a : α} {d : Nat} (h : DigitSym a d) : digit? (code a) = some d :=
  digit?_eq_some.mpr h

/-! ## Whitespace -/

theorem skipWs_split (s : List α) : ∃ w, s = w ++ skipWs s ∧ w.all isWs = true := by
  induction s with
  | nil => exact ⟨[], rfl, rfl⟩
  | cons a s ih =>
    rw [skipWs]
    split
    · next ha =>
      obtain ⟨w, hw, hall⟩ := ih
      exact ⟨a :: w, by rw [List.cons_append, ← hw], by simp [ha, hall]⟩
    · exact ⟨[], rfl, rfl⟩

theorem skipWs_append {w : List α} (hw : w.all isWs = true) (s : List α) :
    skipWs (w ++ s) = skipWs s := by
  induction w with
  | nil => rfl
  | cons a w ih =>
    simp only [List.all_cons, Bool.and_eq_true] at hw
    rw [List.cons_append, skipWs, if_pos hw.1, ih hw.2]

theorem skipWs_of_not_isWs {a : α} {s : List α} (h : isWs a = false) :
    skipWs (a :: s) = a :: s := by
  rw [skipWs, if_neg (by simp [h])]

theorem next_skip {w : List α} (hw : w.all isWs = true) (s : List α) :
    next (w ++ s) = next s := by
  unfold next
  rw [skipWs_append hw]

/-! ## String literals -/

theorem scanItems_unescaped {a : α} (h : 0x20 ≤ code a) (hq : code a ≠ 0x22) (hb : code a ≠ 0x5C)
    (s : List α) : scanItems (a :: s) = consItem (.unescaped a) (scanItems s) := by
  rw [scanItems.eq_def]
  simp [hq, hb, Nat.not_lt.mpr h]

theorem scanItems_escaped {b a : α} {e : Escape} (hb : code b = 0x5C) (ha : code a = e.letter)
    (s : List α) : scanItems (b :: a :: s) = consItem (.escaped e) (scanItems s) := by
  have hu : e.letter ≠ 0x75 := by cases e <;> decide
  rw [scanItems.eq_def]
  simp [hb, ha, hu]

/-- One item is taken off the front, or the literal ends here. -/
theorem scanItems_cases {s : List α} {items : StrLit α} {r : List α}
    (h : scanItems s = some (items, r)) :
    (∃ c, s = c :: r ∧ code c = 0x22 ∧ items = []) ∨
      ∃ l s' i is, s = l ++ s' ∧ l ≠ [] ∧ ItemLexeme l i ∧ items = i :: is ∧
        scanItems s' = some (is, r) := by
  -- the first item is put in front of what is scanned behind it
  have cons : ∀ {l s' : List α} {i : StrItem α}, l ≠ [] → ItemLexeme l i →
      consItem i (scanItems s') = some (items, r) →
      ∃ l' s'' i is, l ++ s' = l' ++ s'' ∧ l' ≠ [] ∧ ItemLexeme l' i ∧ items = i :: is ∧
        scanItems s'' = some (is, r) := by
    intro l s' i hne hi h
    cases hs : scanItems s' with
    | none => simp [hs, consItem] at h
    | some p =>
      obtain ⟨is, r'⟩ := p
      simp only [hs, consItem, Option.some.injEq, Prod.mk.injEq] at h
      obtain ⟨rfl, rfl⟩ := h
      exact ⟨l, s', i, is, rfl, hne, hi, rfl, hs⟩
  rw [scanItems.eq_def] at h
  split at h
  · simp at h
  · next a s =>
    split at h
    · next ha =>
      simp only [Option.some.injEq, Prod.mk.injEq] at h
      obtain ⟨rfl, rfl⟩ := h
      exact .inl ⟨a, rfl, ha, rfl⟩
    · next hq =>
      split at h
      · next ha =>
        split at h
        · simp at h
        · next b s =>
          split at h
          · next hb =>
            split at h
            · next h1 h2 h3 h4 s =>
              split at h
              · next unit hu =>
                exact .inr (cons (l := [a, b, h1, h2, h3, h4]) (by simp) (.unicode ha hb hu) h)
              · simp at h
            · simp at h
          · split at h
            · next e he =>
              exact .inr (cons (l := [a, b]) (by simp)
                (.escaped ha (eq_letter_of_escape? he)) h)
            · simp at h
      · next ha =>
        split at h
        · simp at h
        · next hlt =>
          exact .inr (cons (l := [a]) (by simp) (.unescaped (Nat.not_lt.mp hlt) hq ha) h)

theorem scanItems_sound {s : List α} {items : StrLit α} {r : List α}
    (h : scanItems s = some (items, r)) :
    ∃ l c, s = l ++ c :: r ∧ ItemsLexeme l items ∧ code c = 0x22 := by
  induction items generalizing s with
  | nil =>
    rcases scanItems_cases h with ⟨c, rfl, hc, -⟩ | ⟨_, _, _, _, _, _, _, hnil, _⟩
    · exact ⟨[], c, rfl, .nil, hc⟩
    · exact absurd hnil (by simp)
  | cons i is ih =>
    rcases scanItems_cases h with ⟨_, _, _, hnil⟩ | ⟨l, s', _, _, rfl, _, hi, hcons, hs⟩
    · exact absurd hnil (by simp)
    · obtain ⟨rfl, rfl⟩ := List.cons.inj hcons
      obtain ⟨l', c, rfl, hl', hc⟩ := ih hs
      exact ⟨l ++ l', c, by simp, .cons hi hl', hc⟩

theorem scanItems_lexeme {l : List α} {items : StrLit α} (h : ItemsLexeme l items) {c : α}
    (hc : code c = 0x22) (r : List α) : scanItems (l ++ c :: r) = some (items, r) := by
  induction h with
  | nil => exact scanItems_quote hc r
  | cons hi _ ih =>
    cases hi with
    | unescaped hlo hq hb =>
      simp only [List.cons_append, List.nil_append]
      rw [scanItems_unescaped hlo hq hb, ih, consItem]
    | escaped hb ha =>
      simp only [List.cons_append, List.nil_append]
      rw [scanItems_escaped hb ha, ih, consItem]
    | unicode hb hu hx =>
      simp only [List.cons_append, List.nil_append]
      rw [scanItems_unicode hb hu hx, ih, consItem]

/-! ## Numbers -/

/-- The text goes on with something other than a digit. -/
def NoDigit (s : List α) : Prop := ∀ a ∈ s.head?, digit? (code a) = none

/-- The text goes on with nothing that could extend a number. -/
def NumberStop (s : List α) : Prop :=
  ∀ a ∈ s.head?, digit? (code a) = none ∧ code a ≠ 0x2E ∧ ¬ isExpMark a

theorem NumberStop.noDigit {s : List α} (h : NumberStop s) : NoDigit s := fun a ha => (h a ha).1

theorem noDigit_nil : NoDigit ([] : List α) := by intro a ha; simp at ha

theorem noDigit_cons {a : α} (h : digit? (code a) = none) (s : List α) : NoDigit (a :: s) := by
  intro b hb
  rw [List.head?_cons, Option.mem_some_iff] at hb
  rwa [← hb]

theorem scanDigits_sound : ∀ (s : List α),
    ∃ l, s = l ++ (scanDigits s).2 ∧ List.Forall₂ DigitSym l (scanDigits s).1 ∧
      NoDigit (scanDigits s).2
  | [] => ⟨[], rfl, .nil, noDigit_nil⟩
  | a :: s => by
      rw [scanDigits]
      split
      · next d hd =>
        obtain ⟨l, hl, hds, hstop⟩ := scanDigits_sound s
        exact ⟨a :: l, by rw [List.cons_append, ← hl], .cons (digit?_eq_some.mp hd) hds, hstop⟩
      · next hd => exact ⟨[], rfl, .nil, noDigit_cons hd s⟩

theorem scanDigits_lexeme {l : List α} {ds : List Nat} (h : List.Forall₂ DigitSym l ds)
    {r : List α} (hr : NoDigit r) : scanDigits (l ++ r) = (ds, r) := by
  induction h with
  | nil =>
    cases r with
    | nil => rfl
    | cons a r => simp [scanDigits, hr a rfl]
  | cons ha _ ih => simp [scanDigits, digit?_of_digitSym ha, ih]

theorem scanDigits1_sound {s r : List α} {ds : List Nat} (h : scanDigits1 s = some (ds, r)) :
    ∃ l d ds', s = l ++ r ∧ ds = d :: ds' ∧ List.Forall₂ DigitSym l (d :: ds') := by
  obtain ⟨l, hl, hds, -⟩ := scanDigits_sound s
  rw [scanDigits1] at h
  split at h
  · simp at h
  · next d ds' r' hs =>
    simp only [Option.some.injEq, Prod.mk.injEq] at h
    obtain ⟨rfl, rfl⟩ := h
    rw [hs] at hl hds
    exact ⟨l, d, ds', hl, rfl, hds⟩

theorem scanDigits1_lexeme {l : List α} {d : Nat} {ds : List Nat}
    (h : List.Forall₂ DigitSym l (d :: ds)) {r : List α} (hr : NoDigit r) :
    scanDigits1 (l ++ r) = some (d :: ds, r) := by
  rw [scanDigits1, scanDigits_lexeme h hr]

theorem scanInt_sound {s r : List α} {ds : List Nat} (h : scanInt s = some (ds, r)) :
    ∃ l, s = l ++ r ∧ IntLexeme l ds := by
  cases s with
  | nil => simp [scanInt] at h
  | cons a s =>
    rw [scanInt] at h
    split at h
    · simp at h
    · next hd =>
      simp only [Option.some.injEq, Prod.mk.injEq] at h
      obtain ⟨rfl, rfl⟩ := h
      exact ⟨[a], rfl, .zero (digit?_eq_some.mp hd).2⟩
    · next d hd =>
      simp only [Option.some.injEq, Prod.mk.injEq] at h
      obtain ⟨rfl, rfl⟩ := h
      obtain ⟨l, hl, hds, -⟩ := scanDigits_sound s
      exact ⟨a :: l, by rw [List.cons_append, ← hl],
        .digits (.cons (digit?_eq_some.mp hd) hds) (Nat.succ_ne_zero d)⟩

theorem scanInt_lexeme {l : List α} {ds : List Nat} (h : IntLexeme l ds) {r : List α}
    (hr : NoDigit r) : scanInt (l ++ r) = some (ds, r) := by
  cases h with
  | zero ha =>
    have hd : digit? (code _) = some 0 := digit?_of_digitSym ⟨by omega, ha⟩
    simp [scanInt, hd]
  | @digits _ d ds h hd =>
    cases h with
    | @cons a _ l _ ha hds =>
      obtain ⟨d, rfl⟩ := Nat.exists_eq_succ_of_ne_zero hd
      simp [scanInt, digit?_of_digitSym ha, scanDigits_lexeme hds hr]

theorem scanFrac_sound {s r : List α} {ds : List Nat} (h : scanFrac s = some (ds, r)) :
    ∃ l, s = l ++ r ∧ FracLexeme l ds := by
  cases s with
  | nil =>
    simp only [scanFrac, Option.some.injEq, Prod.mk.injEq] at h
    obtain ⟨rfl, rfl⟩ := h
    exact ⟨[], rfl, .absent⟩
  | cons a s =>
    rw [scanFrac] at h
    split at h
    · next ha =>
      obtain ⟨l, d, ds', rfl, rfl, hds⟩ := scanDigits1_sound h
      exact ⟨a :: l, rfl, .present ha hds⟩
    · simp only [Option.some.injEq, Prod.mk.injEq] at h
      obtain ⟨rfl, rfl⟩ := h
      exact ⟨[], rfl, .absent⟩

theorem scanFrac_lexeme {l : List α} {ds : List Nat} (h : FracLexeme l ds) {r : List α}
    (hr : NoDigit r) (hdot : ∀ a ∈ r.head?, code a ≠ 0x2E) :
    scanFrac (l ++ r) = some (ds, r) := by
  cases h with
  | absent =>
    cases r with
    | nil => rfl
    | cons a r => simp [scanFrac, hdot a rfl]
  | present hp hds => simp [scanFrac, hp, scanDigits1_lexeme hds hr]

theorem scanExp_sound {s r : List α} {x : Int} (h : scanExp s = some (x, r)) :
    ∃ l, s = l ++ r ∧ ExpLexeme l x := by
  -- whatever the sign, at least one digit follows
  have digits : ∀ {negative : Bool} {s : List α},
      scanExpDigits negative s = some (x, r) →
      ∃ l d ds, s = l ++ r ∧ List.Forall₂ DigitSym l (d :: ds) ∧
        x = if negative then -(digitsValue (d :: ds) : Int) else digitsValue (d :: ds) := by
    intro negative s h
    rw [scanExpDigits] at h
    split at h
    · next ds r' hs =>
      simp only [Option.some.injEq, Prod.mk.injEq] at h
      obtain ⟨rfl, rfl⟩ := h
      obtain ⟨l, d, ds', rfl, rfl, hds⟩ := scanDigits1_sound hs
      exact ⟨l, d, ds', rfl, hds, rfl⟩
    · simp at h
  cases s with
  | nil =>
    simp only [scanExp, Option.some.injEq, Prod.mk.injEq] at h
    obtain ⟨rfl, rfl⟩ := h
    exact ⟨[], rfl, .absent⟩
  | cons e s =>
    rw [scanExp] at h
    split at h
    · next he =>
      cases s with
      | nil => simp [scanExpSign] at h
      | cons a s =>
        rw [scanExpSign] at h
        split at h
        · next ha =>
          obtain ⟨l, d, ds, rfl, hds, rfl⟩ := digits h
          exact ⟨e :: a :: l, rfl, .plus he ha hds⟩
        · split at h
          · next ha =>
            obtain ⟨l, d, ds, rfl, hds, rfl⟩ := digits h
            exact ⟨e :: a :: l, rfl, .minus he ha hds⟩
          · obtain ⟨l, d, ds, hl, hds, rfl⟩ := digits h
            exact ⟨e :: l, by rw [hl, List.cons_append], .unsigned he hds⟩
    · simp only [Option.some.injEq, Prod.mk.injEq] at h
      obtain ⟨rfl, rfl⟩ := h
      exact ⟨[], rfl, .absent⟩

theorem scanExp_mark {e : α} (he : isExpMark e) (s : List α) :
    scanExp (e :: s) = scanExpSign s := by
  rw [scanExp]
  exact if_pos he

theorem scanExp_lexeme {l : List α} {x : Int} (h : ExpLexeme l x) {r : List α}
    (hr : NumberStop r) : scanExp (l ++ r) = some (x, r) := by
  cases h with
  | absent =>
    cases r with
    | nil => rfl
    | cons a r =>
      have hmark : ¬ (code a = 0x65 ∨ code a = 0x45) := (hr a rfl).2.2
      simp [scanExp, hmark]
  | unsigned he hds =>
    cases hds with
    | @cons a d l ds ha hds =>
      have h1 : code a ≠ 0x2B := by have := ha.2; omega
      have h2 : code a ≠ 0x2D := by have := ha.2; omega
      have hscan := scanDigits1_lexeme (.cons ha hds) hr.noDigit
      rw [List.cons_append, scanExp_mark he, List.cons_append, scanExpSign, if_neg h1,
        if_neg h2, scanExpDigits, ← List.cons_append, hscan]
      rfl
  | plus he hs hds =>
    rw [List.cons_append, scanExp_mark he, List.cons_append, scanExpSign, if_pos hs,
      scanExpDigits, scanDigits1_lexeme hds hr.noDigit]
    rfl
  | @minus e a l d ds he hs hds =>
    have hs' : code a ≠ 0x2B := by rw [hs]; decide
    rw [List.cons_append, scanExp_mark he, List.cons_append, scanExpSign, if_neg hs',
      if_pos hs, scanExpDigits, scanDigits1_lexeme hds hr.noDigit]
    rfl

/-- An exponent, or what follows a number without one, starts with neither digit nor point. -/
theorem ExpLexeme.stop {l : List α} {x : Int} (h : ExpLexeme l x) {r : List α}
    (hr : NumberStop r) : ∀ a ∈ (l ++ r).head?, digit? (code a) = none ∧ code a ≠ 0x2E := by
  have mark : ∀ e : α, isExpMark e → digit? (code e) = none ∧ code e ≠ 0x2E := by
    rintro e (he | he) <;> rw [he] <;> decide
  intro a ha
  cases h with
  | absent => exact ⟨(hr a ha).1, (hr a ha).2.1⟩
  | unsigned he _ => cases ha; exact mark _ he
  | plus he _ _ => cases ha; exact mark _ he
  | minus he _ _ => cases ha; exact mark _ he

theorem scanMagnitude_sound {negative : Bool} {s r : List α} {n : Number}
    (h : scanMagnitude negative s = some (n, r)) :
    ∃ i f e int frac exponent, s = i ++ (f ++ e) ++ r ∧ n = ⟨negative, int, frac, exponent⟩ ∧
      IntLexeme i int ∧ FracLexeme f frac ∧ ExpLexeme e exponent := by
  rw [scanMagnitude] at h
  split at h
  · simp at h
  · next int s1 h1 =>
    split at h
    · simp at h
    · next frac s2 h2 =>
      split at h
      · simp at h
      · next exponent s3 h3 =>
        simp only [Option.some.injEq, Prod.mk.injEq] at h
        obtain ⟨rfl, rfl⟩ := h
        obtain ⟨i, rfl, hi⟩ := scanInt_sound h1
        obtain ⟨f, rfl, hf⟩ := scanFrac_sound h2
        obtain ⟨e, rfl, he⟩ := scanExp_sound h3
        exact ⟨i, f, e, int, frac, exponent, by simp, rfl, hi, hf, he⟩

theorem scanMagnitude_lexeme (negative : Bool) {i f e : List α} {int frac : List Nat}
    {exponent : Int} (hi : IntLexeme i int) (hf : FracLexeme f frac) (he : ExpLexeme e exponent)
    {r : List α} (hr : NumberStop r) :
    scanMagnitude negative (i ++ (f ++ e) ++ r) = some (⟨negative, int, frac, exponent⟩, r) := by
  have hstop := he.stop hr
  have hint : NoDigit (f ++ (e ++ r)) := by
    cases hf with
    | absent => exact fun a ha => (hstop a ha).1
    | present hp _ => exact noDigit_cons (by rw [hp]; decide) _
  rw [List.append_assoc, List.append_assoc, scanMagnitude, scanInt_lexeme hi hint]
  simp only [scanFrac_lexeme hf (fun a ha => (hstop a ha).1) (fun a ha => (hstop a ha).2),
    scanExp_lexeme he hr]

/-- A number starts with a minus sign or a digit. -/
theorem IntLexeme.head {l : List α} {ds : List Nat} (h : IntLexeme l ds) :
    ∃ a s d, l = a :: s ∧ DigitSym a d := by
  cases h with
  | @zero a ha => exact ⟨a, [], 0, rfl, by omega, ha⟩
  | digits h _ =>
    cases h with
    | cons ha _ => exact ⟨_, _, _, rfl, ha⟩

theorem scanNumber_sound {s r : List α} {n : Number} (h : scanNumber s = some (n, r)) :
    ∃ l, s = l ++ r ∧ NumberLexeme l n := by
  cases s with
  | nil => simp [scanNumber] at h
  | cons a s =>
    rw [scanNumber] at h
    split at h
    · next ha =>
      obtain ⟨i, f, e, int, frac, x, rfl, rfl, hi, hf, he⟩ := scanMagnitude_sound h
      exact ⟨a :: (i ++ (f ++ e)), rfl, .minus ha hi hf he⟩
    · obtain ⟨i, f, e, int, frac, x, hs, rfl, hi, hf, he⟩ := scanMagnitude_sound h
      exact ⟨i ++ (f ++ e), hs, .unsigned hi hf he⟩

theorem scanNumber_lexeme {l : List α} {n : Number} (h : NumberLexeme l n) {r : List α}
    (hr : NumberStop r) : scanNumber (l ++ r) = some (n, r) := by
  cases h with
  | unsigned hi hf he =>
    have hscan := scanMagnitude_lexeme false hi hf he hr
    obtain ⟨a, s, d, rfl, ha⟩ := hi.head
    have hm : code a ≠ 0x2D := by have := ha.2; omega
    simpa only [List.cons_append, scanNumber, if_neg hm] using hscan
  | minus hm hi hf he =>
    rw [List.cons_append, scanNumber, if_pos hm]
    exact scanMagnitude_lexeme true hi hf he hr

/-! ## One token -/

theorem stripCodes_sound : ∀ {ns : List Nat} {s r : List α}, stripCodes ns s = some r →
    ∃ l, s = l ++ r ∧ l.map code = ns
  | [], s, r, h => by
      rw [stripCodes, Option.some.injEq] at h
      exact ⟨[], h, rfl⟩
  | _ :: _, [], _, h => by simp [stripCodes] at h
  | n :: ns, a :: s, r, h => by
      rw [stripCodes] at h
      split at h
      · next ha =>
        obtain ⟨l, rfl, hl⟩ := stripCodes_sound h
        exact ⟨a :: l, rfl, by rw [List.map_cons, ha, hl]⟩
      · simp at h

theorem stripCodes_map (l r : List α) : stripCodes (l.map code) (l ++ r) = some r := by
  induction l with
  | nil => rfl
  | cons a l ih => simp [stripCodes, ih]

theorem lexToken_sound {s r : List α} {t : Token α} (h : lexToken s = some (t, r)) :
    ∃ l, s = l ++ r ∧ TokenLexeme l t := by
  cases s with
  | nil => simp [lexToken] at h
  | cons a s =>
    rw [lexToken] at h
    split at h
    · next p hp =>
      simp only [Option.some.injEq, Prod.mk.injEq] at h
      obtain ⟨rfl, rfl⟩ := h
      exact ⟨[a], rfl, .punct (eq_symbol_of_punct? hp)⟩
    · -- the remaining tokens are told apart by the first symbol
      simp only [Option.map_eq_some_iff, Prod.mk.injEq, Prod.exists, apply_ite (· = some (t, r))] at h
      split at h
      · next ha =>
        obtain ⟨items, _, hs, rfl, rfl⟩ := h
        obtain ⟨l, c, rfl, hl, hc⟩ := scanItems_sound hs
        exact ⟨a :: (l ++ [c]), by simp, .str ha hl hc⟩
      · split at h
        · next ha =>
          obtain ⟨_, hs, rfl, rfl⟩ := h
          obtain ⟨l, rfl, hl⟩ := stripCodes_sound hs
          exact ⟨a :: l, rfl, .literalNull (by rw [List.map_cons, ha, hl])⟩
        · split at h
          · next ha =>
            obtain ⟨_, hs, rfl, rfl⟩ := h
            obtain ⟨l, rfl, hl⟩ := stripCodes_sound hs
            exact ⟨a :: l, rfl, .literalTrue (by rw [List.map_cons, ha, hl])⟩
          · split at h
            · next ha =>
              obtain ⟨_, hs, rfl, rfl⟩ := h
              obtain ⟨l, rfl, hl⟩ := stripCodes_sound hs
              exact ⟨a :: l, rfl, .literalFalse (by rw [List.map_cons, ha, hl])⟩
            · obtain ⟨n, _, hs, rfl, rfl⟩ := h
              obtain ⟨l, hl, hn⟩ := scanNumber_sound hs
              exact ⟨l, hl, .num hn⟩

/-- The first symbol of a number is neither whitespace nor structural, and starts no other token. -/
theorem NumberLexeme.head {l : List α} {n : Number} (h : NumberLexeme l n) :
    ∃ a s, l = a :: s ∧ (code a = 0x2D ∨ 0x30 ≤ code a ∧ code a ≤ 0x39) := by
  cases h with
  | unsigned hi _ _ =>
    obtain ⟨a, s, d, rfl, hd, ha⟩ := hi.head
    exact ⟨a, _, List.cons_append, .inr (by omega)⟩
  | minus hm _ _ _ => exact ⟨_, _, rfl, .inl hm⟩

theorem cons_of_map_code {l : List α} {n : Nat} {ns : List Nat} (h : l.map code = n :: ns) :
    ∃ a s, l = a :: s ∧ code a = n ∧ s.map code = ns := by
  cases l with
  | nil => simp at h
  | cons a s =>
    rw [List.map_cons, List.cons.injEq] at h
    exact ⟨a, s, rfl, h⟩

theorem lexToken_lexeme {l : List α} {t : Token α} (h : TokenLexeme l t) {r : List α}
    (hr : ∀ n, t = .num n → NumberStop r) : lexToken (l ++ r) = some (t, r) := by
  cases h with
  | punct ha =>
    simp [lexToken, ha]
  | literalNull hl =>
    obtain ⟨a, s, rfl, ha, hs⟩ := cons_of_map_code hl
    have hp : punct? (code a) = none := by rw [ha]; rfl
    simp only [List.cons_append, lexToken, hp]
    simp [ha, ← hs, stripCodes_map]
  | literalTrue hl =>
    obtain ⟨a, s, rfl, ha, hs⟩ := cons_of_map_code hl
    have hp : punct? (code a) = none := by rw [ha]; rfl
    simp only [List.cons_append, lexToken, hp]
    simp [ha, ← hs, stripCodes_map]
  | literalFalse hl =>
    obtain ⟨a, s, rfl, ha, hs⟩ := cons_of_map_code hl
    have hp : punct? (code a) = none := by rw [ha]; rfl
    simp only [List.cons_append, lexToken, hp]
    simp [ha, ← hs, stripCodes_map]
  | num hn =>
    have hscan := scanNumber_lexeme hn (hr _ rfl)
    obtain ⟨a, s, rfl, ha⟩ := hn.head
    have hp : punct? (code a) = none :=
      punct?_eq_none fun p => by cases p <;> simp only [Punct.symbol] <;> omega
    have h1 : code a ≠ 0x22 ∧ code a ≠ 0x6E ∧ code a ≠ 0x74 ∧ code a ≠ 0x66 := by omega
    rw [List.cons_append] at hscan ⊢
    simp [lexToken, hp, h1, hscan]
  | @str o c l items ho hl hc =>
    have hp : punct? (code o) = none := by rw [ho]; rfl
    simp only [List.cons_append, List.append_assoc, List.nil_append, lexToken, hp]
    simp [ho, scanItems_lexeme hl hc]

/-- A token starts with a symbol that is not whitespace. -/
theorem TokenLexeme.head {l : List α} {t : Token α} (h : TokenLexeme l t) :
    ∃ a s, l = a :: s ∧ isWs a = false := by
  cases h with
  | @punct a p ha => exact ⟨a, [], rfl, by cases p <;> simp [isWs, ha, Punct.symbol]⟩
  | literalNull hl =>
    obtain ⟨a, s, rfl, ha, -⟩ := cons_of_map_code hl
    exact ⟨a, s, rfl, by simp [isWs, ha]⟩
  | literalTrue hl =>
    obtain ⟨a, s, rfl, ha, -⟩ := cons_of_map_code hl
    exact ⟨a, s, rfl, by simp [isWs, ha]⟩
  | literalFalse hl =>
    obtain ⟨a, s, rfl, ha, -⟩ := cons_of_map_code hl
    exact ⟨a, s, rfl, by simp [isWs, ha]⟩
  | num hn =>
    obtain ⟨a, s, rfl, ha⟩ := hn.head
    refine ⟨a, s, rfl, ?_⟩
    simp only [isWs, Bool.or_eq_false_iff, beq_eq_false_iff_ne]
    omega
  | str ho _ _ => exact ⟨_, _, rfl, by simp [isWs, ho]⟩

/-! ## Reading through whitespace -/

theorem next_lexeme {w l : List α} {t : Token α} (hw : w.all isWs = true) (h : TokenLexeme l t)
    {r : List α} (hr : ∀ n, t = .num n → NumberStop r) : next (w ++ (l ++ r)) = .token t r := by
  have hlex := lexToken_lexeme h hr
  obtain ⟨a, s, rfl, ha⟩ := h.head
  rw [List.cons_append] at hlex
  rw [next_skip hw, next, List.cons_append, skipWs_of_not_isWs ha]
  simp only [hlex]

theorem next_sound {s r : List α} {t : Token α} (h : next s = .token t r) :
    ∃ w l, s = w ++ (l ++ r) ∧ w.all isWs = true ∧ TokenLexeme l t := by
  obtain ⟨w, hs, hw⟩ := skipWs_split s
  rw [next] at h
  split at h
  · simp at h
  · next a s' hskip =>
    split at h
    · next t' r' hlex =>
      simp only [Next.token.injEq] at h
      obtain ⟨rfl, rfl⟩ := h
      obtain ⟨l, hl, ht⟩ := lexToken_sound hlex
      exact ⟨w, l, by rw [← hl, ← hskip, ← hs], hw, ht⟩
    · simp at h

theorem next_eof {s : List α} : next s = .eof ↔ s.all isWs = true := by
  constructor
  · intro h
    obtain ⟨w, hs, hw⟩ := skipWs_split s
    rw [next] at h
    split at h
    · next hskip => rw [hs, hskip, List.append_nil, hw]
    · split at h <;> simp at h
  · intro h
    rw [← List.append_nil s, next_skip h]
    rfl

/-- Every token takes at least one symbol. -/
theorem length_lt_of_next {s r : List α} {t : Token α} (h : next s = .token t r) :
    r.length < s.length := by
  obtain ⟨w, l, rfl, -, ht⟩ := next_sound h
  obtain ⟨a, l, rfl, -⟩ := ht.head
  simp only [List.length_append, List.length_cons]
  omega

/-! ## Whole texts -/

/-- Every number is followed by a structural character or by the end. -/
def Delimited : List (Token α) → Prop
  | [] => True
  | t :: ts => (∀ n, t = .num n → ∀ t' ∈ ts.head?, ∃ p, t' = .punct p) ∧ Delimited ts

theorem Lexes.spells {s : List α} {ts : List (Token α)} (h : Lexes s ts) : Spells s ts := by
  induction h with
  | eof h => exact .nil (next_eof.mp h)
  | token h _ ih =>
    obtain ⟨w, l, rfl, hw, ht⟩ := next_sound h
    exact .cons hw ht ih

theorem numberStop_of_ws {a : α} (h : isWs a = true) (s : List α) : NumberStop (a :: s) := by
  intro b hb
  rw [List.head?_cons, Option.mem_some_iff] at hb
  subst hb
  simp only [isWs, Bool.or_eq_true, beq_iff_eq] at h
  rcases h with ((h | h) | h) | h <;> simp [isExpMark, h, digit?]

theorem numberStop_of_spells {s : List α} {ts : List (Token α)} (h : Spells s ts)
    (hts : ∀ t ∈ ts.head?, ∃ p, t = .punct p) : NumberStop s := by
  cases h with
  | nil hw =>
    cases s with
    | nil => intro a ha; simp at ha
    | cons a w =>
      simp only [List.all_cons, Bool.and_eq_true] at hw
      exact numberStop_of_ws hw.1 w
  | @cons w l s t ts hw ht _ =>
    cases w with
    | cons a w =>
      simp only [List.all_cons, Bool.and_eq_true] at hw
      exact numberStop_of_ws hw.1 _
    | nil =>
      obtain ⟨p, rfl⟩ := hts t rfl
      cases ht with
      | @punct a _ ha =>
        intro b hb
        simp only [List.nil_append, List.cons_append, List.head?_cons, Option.mem_some_iff] at hb
        subst hb
        rw [ha]
        cases p <;> simp [isExpMark, ha, digit?, Punct.symbol]

/-- Reading a text yields the tokens it spells, when every number in them is delimited. -/
theorem lexes_iff_spells {s : List α} {ts : List (Token α)} (hts : Delimited ts) :
    Lexes s ts ↔ Spells s ts := by
  refine ⟨Lexes.spells, fun h => ?_⟩
  induction h with
  | nil hw => exact .eof (next_eof.mpr hw)
  | cons hw ht hs ih =>
    have hstop := fun n hn => numberStop_of_spells hs (hts.1 n hn)
    exact .token (next_lexeme hw ht hstop) (ih hts.2)

theorem Lexes.length_le {s : List α} {ts : List (Token α)} (h : Lexes s ts) :
    ts.length ≤ s.length := by
  induction h with
  | eof _ => exact Nat.zero_le _
  | token h _ ih =>
    have := length_lt_of_next h
    rw [List.length_cons]
    omega

theorem Lexes.unique {s : List α} {ts us : List (Token α)} (h : Lexes s ts) (h' : Lexes s us) :
    ts = us := by
  induction h generalizing us with
  | eof h =>
    cases h' with
    | eof _ => rfl
    | token h' _ => rw [h] at h'; cases h'
  | token h _ ih =>
    cases h' with
    | eof h' => rw [h] at h'; cases h'
    | token h' hs =>
      rw [h] at h'
      cases h'
      rw [ih hs]

end FastGate.Json
