/-
# FastGate.Json.Doc — JSON documents

The syntax tree of a JSON text, with its string literals still escaped and its numbers still written
out, and the token sequence each tree stands for.  `JsonText s d` is the grammar of RFC 8259: `s`
spells the tokens of `d`.

The rest of the module is the vocabulary of a strict parse profile over such trees: nesting depth,
decoded strings, member names that are distinct after decoding, and surrogate escapes that come in
pairs.
-/
import FastGate.Json.Lexer
import FastGate.Text.Utf8

namespace FastGate.Json

/-- A JSON document over an alphabet. -/
inductive Doc (α : Type) where
  | null
  | bool (b : Bool)
  | num (n : Number)
  | str (s : StrLit α)
  | arr (xs : List (Doc α))
  | obj (ms : List (StrLit α × Doc α))
  deriving Repr

namespace Doc

variable {α β : Type}

/-- Induction over documents, with the hypothesis for every element and every member value. -/
@[elab_as_elim]
theorem induct {P : Doc α → Prop} (null : P .null) (bool : ∀ b, P (.bool b))
    (num : ∀ n, P (.num n)) (str : ∀ s, P (.str s))
    (arr : ∀ xs, (∀ x ∈ xs, P x) → P (.arr xs))
    (obj : ∀ ms, (∀ m ∈ ms, P m.2) → P (.obj ms)) (d : Doc α) : P d := by
  refine @Doc.rec α P (fun xs => ∀ x ∈ xs, P x) (fun ms => ∀ m ∈ ms, P m.2) (fun m => P m.2)
    null bool num str arr obj ?_ ?_ ?_ ?_ ?_ d
  · intro x hx; exact absurd hx List.not_mem_nil
  · intro x xs hx hxs; exact List.forall_mem_cons.mpr ⟨hx, hxs⟩
  · intro m hm; exact absurd hm List.not_mem_nil
  · intro m ms hm hms; exact List.forall_mem_cons.mpr ⟨hm, hms⟩
  · intro _ d hd; exact hd

/-! ## Tokens -/

/-- The tokens of a document. -/
def tokens : Doc α → List (Token α)
  | .null => [.null]
  | .bool b => [.bool b]
  | .num n => [.num n]
  | .str s => [.str s]
  | .arr xs => .punct .beginArray :: (elements xs ++ [.punct .endArray])
  | .obj ms => .punct .beginObject :: (members ms ++ [.punct .endObject])
where
  /-- Elements separated by commas. -/
  elements : List (Doc α) → List (Token α)
    | [] => []
    | x :: xs => x.tokens ++ moreElements xs
  /-- The elements after the first, each behind its comma. -/
  moreElements : List (Doc α) → List (Token α)
    | [] => []
    | x :: xs => .punct .valueSeparator :: (x.tokens ++ moreElements xs)
  /-- Members separated by commas. -/
  members : List (StrLit α × Doc α) → List (Token α)
    | [] => []
    | (k, d) :: ms => .str k :: .punct .nameSeparator :: (d.tokens ++ moreMembers ms)
  /-- The members after the first, each behind its comma. -/
  moreMembers : List (StrLit α × Doc α) → List (Token α)
    | [] => []
    | (k, d) :: ms => .punct .valueSeparator :: .str k :: .punct .nameSeparator ::
        (d.tokens ++ moreMembers ms)

theorem tokens_ne_nil (d : Doc α) : d.tokens ≠ [] := by cases d <;> simp [tokens]

/-! ## Properties of every part -/

/-- `P` holds of every string literal of the document, member names included. -/
def AllStrings (P : StrLit α → Prop) : Doc α → Prop
  | .null | .bool _ | .num _ => True
  | .str s => P s
  | .arr xs => elements xs
  | .obj ms => members ms
where
  elements : List (Doc α) → Prop
    | [] => True
    | x :: xs => x.AllStrings P ∧ elements xs
  members : List (StrLit α × Doc α) → Prop
    | [] => True
    | (k, d) :: ms => (P k ∧ d.AllStrings P) ∧ members ms

/-- `P` holds of every number literal of the document. -/
def AllNumbers (P : Number → Prop) : Doc α → Prop
  | .null | .bool _ | .str _ => True
  | .num n => P n
  | .arr xs => elements xs
  | .obj ms => members ms
where
  elements : List (Doc α) → Prop
    | [] => True
    | x :: xs => x.AllNumbers P ∧ elements xs
  members : List (StrLit α × Doc α) → Prop
    | [] => True
    | (_, d) :: ms => d.AllNumbers P ∧ members ms

/-- No object of the document has two members whose names read the same under `name`. -/
def UniqueNames (name : StrLit α → β) : Doc α → Prop
  | .null | .bool _ | .num _ | .str _ => True
  | .arr xs => elements xs
  | .obj ms => (ms.map fun m => name m.1).Nodup ∧ members ms
where
  elements : List (Doc α) → Prop
    | [] => True
    | x :: xs => x.UniqueNames name ∧ elements xs
  members : List (StrLit α × Doc α) → Prop
    | [] => True
    | (_, d) :: ms => d.UniqueNames name ∧ members ms

/-- The greatest number of objects and arrays open at one point. -/
def depth : Doc α → Nat
  | .null | .bool _ | .num _ | .str _ => 0
  | .arr xs => 1 + elements xs
  | .obj ms => 1 + members ms
where
  elements : List (Doc α) → Nat
    | [] => 0
    | x :: xs => max x.depth (elements xs)
  members : List (StrLit α × Doc α) → Nat
    | [] => 0
    | (_, d) :: ms => max d.depth (members ms)

@[simp] theorem allStrings_arr {P : StrLit α → Prop} (xs : List (Doc α)) :
    (arr xs).AllStrings P ↔ ∀ x ∈ xs, x.AllStrings P := by
  show AllStrings.elements P xs ↔ _
  induction xs with
  | nil => exact iff_of_true trivial (List.forall_mem_nil _)
  | cons x xs ih =>
    show x.AllStrings P ∧ AllStrings.elements P xs ↔ _
    rw [ih, List.forall_mem_cons]

@[simp] theorem allStrings_obj {P : StrLit α → Prop} (ms : List (StrLit α × Doc α)) :
    (obj ms).AllStrings P ↔ ∀ m ∈ ms, P m.1 ∧ m.2.AllStrings P := by
  show AllStrings.members P ms ↔ _
  induction ms with
  | nil => exact iff_of_true trivial (List.forall_mem_nil _)
  | cons m ms ih =>
    show (P m.1 ∧ m.2.AllStrings P) ∧ AllStrings.members P ms ↔ _
    rw [ih, List.forall_mem_cons]

@[simp] theorem allNumbers_arr {P : Number → Prop} (xs : List (Doc α)) :
    (arr xs).AllNumbers P ↔ ∀ x ∈ xs, x.AllNumbers P := by
  show AllNumbers.elements P xs ↔ _
  induction xs with
  | nil => exact iff_of_true trivial (List.forall_mem_nil _)
  | cons x xs ih =>
    show x.AllNumbers P ∧ AllNumbers.elements P xs ↔ _
    rw [ih, List.forall_mem_cons]

@[simp] theorem allNumbers_obj {P : Number → Prop} (ms : List (StrLit α × Doc α)) :
    (obj ms).AllNumbers P ↔ ∀ m ∈ ms, m.2.AllNumbers P := by
  show AllNumbers.members P ms ↔ _
  induction ms with
  | nil => exact iff_of_true trivial (List.forall_mem_nil _)
  | cons m ms ih =>
    show m.2.AllNumbers P ∧ AllNumbers.members P ms ↔ _
    rw [ih, List.forall_mem_cons]

theorem allNumbers_mono {P Q : Number → Prop} (hPQ : ∀ n, P n → Q n) {d : Doc α}
    (h : d.AllNumbers P) : d.AllNumbers Q := by
  induction d using Doc.induct with
  | null => trivial
  | bool b => trivial
  | num n => exact hPQ n h
  | str s => trivial
  | arr xs ih =>
    rw [allNumbers_arr] at h ⊢
    exact fun x hx => ih x hx (h x hx)
  | obj ms ih =>
    rw [allNumbers_obj] at h ⊢
    exact fun m hm => ih m hm (h m hm)

theorem allNumbers_of_forall {P : Number → Prop} (h : ∀ n, P n) (d : Doc α) : d.AllNumbers P := by
  induction d using Doc.induct with
  | null => trivial
  | bool b => trivial
  | num n => exact h n
  | str s => trivial
  | arr xs ih => exact (allNumbers_arr xs).mpr ih
  | obj ms ih => exact (allNumbers_obj ms).mpr ih

@[simp] theorem uniqueNames_arr {name : StrLit α → β} (xs : List (Doc α)) :
    (arr xs).UniqueNames name ↔ ∀ x ∈ xs, x.UniqueNames name := by
  show UniqueNames.elements name xs ↔ _
  induction xs with
  | nil => exact iff_of_true trivial (List.forall_mem_nil _)
  | cons x xs ih =>
    show x.UniqueNames name ∧ UniqueNames.elements name xs ↔ _
    rw [ih, List.forall_mem_cons]

@[simp] theorem uniqueNames_obj {name : StrLit α → β} (ms : List (StrLit α × Doc α)) :
    (obj ms).UniqueNames name ↔
      (ms.map fun m => name m.1).Nodup ∧ ∀ m ∈ ms, m.2.UniqueNames name := by
  have hall : UniqueNames.members name ms ↔ ∀ m ∈ ms, m.2.UniqueNames name := by
    induction ms with
    | nil => exact iff_of_true trivial (List.forall_mem_nil _)
    | cons m ms ih =>
      show m.2.UniqueNames name ∧ UniqueNames.members name ms ↔ _
      rw [ih, List.forall_mem_cons]
  rw [← hall]
  exact Iff.rfl

@[simp] theorem depth_arr_le {n : Nat} (xs : List (Doc α)) :
    (arr xs).depth ≤ n + 1 ↔ ∀ x ∈ xs, x.depth ≤ n := by
  have hall : depth.elements xs ≤ n ↔ ∀ x ∈ xs, x.depth ≤ n := by
    induction xs with
    | nil => exact iff_of_true (Nat.zero_le n) (List.forall_mem_nil _)
    | cons x xs ih =>
      show max x.depth (depth.elements xs) ≤ n ↔ _
      rw [Nat.max_le, ih, List.forall_mem_cons]
  show 1 + depth.elements xs ≤ n + 1 ↔ _
  rw [Nat.add_comm, Nat.add_le_add_iff_right, hall]

@[simp] theorem depth_obj_le {n : Nat} (ms : List (StrLit α × Doc α)) :
    (obj ms).depth ≤ n + 1 ↔ ∀ m ∈ ms, m.2.depth ≤ n := by
  have hall : depth.members ms ≤ n ↔ ∀ m ∈ ms, m.2.depth ≤ n := by
    induction ms with
    | nil => exact iff_of_true (Nat.zero_le n) (List.forall_mem_nil _)
    | cons m ms ih =>
      show max m.2.depth (depth.members ms) ≤ n ↔ _
      rw [Nat.max_le, ih, List.forall_mem_cons]
  show 1 + depth.members ms ≤ n + 1 ↔ _
  rw [Nat.add_comm, Nat.add_le_add_iff_right, hall]

theorem depth_arr_pos (xs : List (Doc α)) : 0 < (arr xs).depth := Nat.add_pos_left Nat.one_pos _

theorem depth_obj_pos (ms : List (StrLit α × Doc α)) : 0 < (obj ms).depth := Nat.add_pos_left Nat.one_pos _

end Doc

/-! ## Literals of tokens -/

section Literals

variable {α : Type} {P : StrLit α → Prop}

/-- `P` holds of the literal that a token is, if it is one. -/
def Token.AllStrings (P : StrLit α → Prop) (t : Token α) : Prop := ∀ s, t = .str s → P s

@[simp] theorem Token.allStrings_str (s : StrLit α) : (Token.str s).AllStrings P ↔ P s := by
  simp [Token.AllStrings]

@[simp] theorem Token.allStrings_punct (p : Punct) : (Token.punct p).AllStrings P := by
  simp [Token.AllStrings]

/-- The literals of a document are the ones among its tokens. -/
theorem Doc.allStrings_tokens (d : Doc α) : (∀ t ∈ d.tokens, t.AllStrings P) ↔ d.AllStrings P := by
  induction d using Doc.induct with
  | null => simp [tokens, AllStrings, Token.AllStrings]
  | bool b => simp [tokens, AllStrings, Token.AllStrings]
  | num n => simp [tokens, AllStrings, Token.AllStrings]
  | str s => simp [tokens, AllStrings]
  | arr xs ih =>
    have more : ∀ xs : List (Doc α),
        (∀ x ∈ xs, ((∀ t ∈ x.tokens, t.AllStrings P) ↔ x.AllStrings P)) →
        ((∀ t ∈ tokens.moreElements xs, t.AllStrings P) ↔ ∀ x ∈ xs, x.AllStrings P) := by
      intro xs hxs
      induction xs with
      | nil => simp [tokens.moreElements]
      | cons x xs ihxs =>
        obtain ⟨hx, hxs⟩ := List.forall_mem_cons.mp hxs
        simp only [tokens.moreElements, List.forall_mem_cons, List.forall_mem_append, hx, ihxs hxs,
          Token.allStrings_punct, true_and]
    cases xs with
    | nil => simp [tokens, tokens.elements]
    | cons x xs =>
      obtain ⟨hx, hxs⟩ := List.forall_mem_cons.mp ih
      rw [allStrings_arr, List.forall_mem_cons, ← more xs hxs, ← hx]
      simp only [tokens, tokens.elements, List.forall_mem_cons, List.forall_mem_append,
        List.not_mem_nil, false_implies, implies_true, Token.allStrings_punct, true_and, and_true]
  | obj ms ih =>
    have more : ∀ ms : List (StrLit α × Doc α),
        (∀ m ∈ ms, ((∀ t ∈ m.2.tokens, t.AllStrings P) ↔ m.2.AllStrings P)) →
        ((∀ t ∈ tokens.moreMembers ms, t.AllStrings P) ↔
          ∀ m ∈ ms, P m.1 ∧ m.2.AllStrings P) := by
      intro ms hms
      induction ms with
      | nil => simp [tokens.moreMembers]
      | cons m ms ihms =>
        obtain ⟨hm, hms⟩ := List.forall_mem_cons.mp hms
        simp only [tokens.moreMembers, List.forall_mem_cons, List.forall_mem_append, hm, ihms hms,
          Token.allStrings_punct, Token.allStrings_str, true_and, and_assoc]
    cases ms with
    | nil => simp [tokens, tokens.members]
    | cons m ms =>
      obtain ⟨hm, hms⟩ := List.forall_mem_cons.mp ih
      rw [allStrings_obj, List.forall_mem_cons, ← more ms hms, ← hm]
      simp only [tokens, tokens.members, List.forall_mem_cons, List.forall_mem_append,
        List.not_mem_nil, false_implies, implies_true, List.cons_append, Token.allStrings_punct,
        Token.allStrings_str, true_and, and_true, and_assoc]

end Literals

/-! ## JSON texts -/

/-- RFC 8259: `s` is a JSON text for `d`, a value with whitespace around its tokens. -/
def JsonText {α : Type} [Symbol α] (s : List α) (d : Doc α) : Prop := Spells s d.tokens

section Delimited

variable {α : Type}

/-- The continuation after a value: the end, or a structural character. -/
def Continues (ts : List (Token α)) : Prop := ∀ t ∈ ts.head?, ∃ p, t = Token.punct p

theorem continues_nil : Continues ([] : List (Token α)) := by intro t ht; simp at ht

theorem continues_punct (p : Punct) (ts : List (Token α)) : Continues (.punct p :: ts) := by
  intro t ht
  rw [List.head?_cons, Option.mem_some_iff] at ht
  exact ⟨p, ht.symm⟩

theorem delimited_punct {p : Punct} {ts : List (Token α)} (h : Delimited ts) :
    Delimited (.punct p :: ts) := ⟨by simp, h⟩

theorem delimited_str {s : StrLit α} {ts : List (Token α)} (h : Delimited ts) :
    Delimited (.str s :: ts) := ⟨by simp, h⟩

theorem Doc.delimited_append (d : Doc α) :
    ∀ {ts : List (Token α)}, Delimited ts → Continues ts → Delimited (d.tokens ++ ts) := by
  induction d using Doc.induct with
  | null => intro ts h _; exact ⟨by simp, h⟩
  | bool b => intro ts h _; exact ⟨by simp, h⟩
  | num n => intro ts h hc; exact ⟨fun _ _ => hc, h⟩
  | str s => intro ts h _; exact ⟨by simp, h⟩
  | arr xs ih =>
    -- from the back: what follows an element is delimited already
    have more : ∀ (xs : List (Doc α)) {ts : List (Token α)},
        (∀ x ∈ xs, ∀ {ts}, Delimited ts → Continues ts → Delimited (x.tokens ++ ts)) →
        Delimited ts → Continues ts →
        Delimited (tokens.moreElements xs ++ ts) ∧ Continues (tokens.moreElements xs ++ ts) := by
      intro xs
      induction xs with
      | nil => intro ts _ h hc; exact ⟨h, hc⟩
      | cons x xs ihx =>
        intro ts hx h hc
        obtain ⟨h1, h2⟩ := ihx (fun y hy => hx y (List.mem_cons_of_mem _ hy)) h hc
        have h3 := hx x List.mem_cons_self h1 h2
        simp only [tokens.moreElements, List.cons_append, List.append_assoc]
        exact ⟨delimited_punct h3, continues_punct _ _⟩
    intro ts h _
    have hend : Delimited (Token.punct .endArray :: ts) := delimited_punct h
    simp only [tokens, List.cons_append, List.append_assoc, List.nil_append]
    cases xs with
    | nil => exact delimited_punct hend
    | cons x xs =>
      obtain ⟨h1, h2⟩ := more xs (fun y hy => ih y (List.mem_cons_of_mem _ hy)) hend
        (continues_punct _ _)
      simp only [tokens.elements, List.append_assoc]
      exact delimited_punct (ih x List.mem_cons_self h1 h2)
  | obj ms ih =>
    have more : ∀ (ms : List (StrLit α × Doc α)) {ts : List (Token α)},
        (∀ m ∈ ms, ∀ {ts}, Delimited ts → Continues ts → Delimited (m.2.tokens ++ ts)) →
        Delimited ts → Continues ts →
        Delimited (tokens.moreMembers ms ++ ts) ∧ Continues (tokens.moreMembers ms ++ ts) := by
      intro ms
      induction ms with
      | nil => intro ts _ h hc; exact ⟨h, hc⟩
      | cons m ms ihm =>
        intro ts hm h hc
        obtain ⟨h1, h2⟩ := ihm (fun y hy => hm y (List.mem_cons_of_mem _ hy)) h hc
        have h3 := hm m List.mem_cons_self h1 h2
        simp only [tokens.moreMembers, List.cons_append, List.append_assoc]
        exact ⟨delimited_punct (delimited_str (delimited_punct h3)), continues_punct _ _⟩
    intro ts h _
    have hend : Delimited (Token.punct .endObject :: ts) := delimited_punct h
    simp only [tokens, List.cons_append, List.append_assoc, List.nil_append]
    cases ms with
    | nil => exact delimited_punct hend
    | cons m ms =>
      obtain ⟨h1, h2⟩ := more ms (fun y hy => ih y (List.mem_cons_of_mem _ hy)) hend
        (continues_punct _ _)
      simp only [tokens.members, List.cons_append, List.append_assoc]
      exact delimited_punct (delimited_str (delimited_punct (ih m List.mem_cons_self h1 h2)))

/-- Reading a JSON text yields exactly the tokens of its document. -/
theorem jsonText_iff_lexes [Symbol α] {s : List α} {d : Doc α} :
    JsonText s d ↔ Lexes s d.tokens := by
  have h : Delimited (d.tokens ++ []) := d.delimited_append trivial continues_nil
  rw [List.append_nil] at h
  exact (lexes_iff_spells h).symm

end Delimited

end FastGate.Json
