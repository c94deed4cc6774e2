/-
# FastGate.Python.Dumps — `json.dumps` with ASCII output

The compact ASCII text of nested lists, strings and booleans.  Different trees have different texts
(`dumps_inj`), as long as their strings have no surrogates: an escaped pair of surrogates is the same
text as the character it stands for.
-/
import FastGate.Json.Print
import FastGate.Python.Value

open FastGate.Json

namespace FastGate.Python

/-- Lists, strings and booleans. -/
inductive Jsonable where
  | str (s : Str)
  | bool (b : Bool)
  | list (xs : List Jsonable)
  deriving Repr

namespace Jsonable

@[elab_as_elim]
theorem induct {P : Jsonable → Prop} (str : ∀ s, P (.str s)) (bool : ∀ b, P (.bool b))
    (list : ∀ xs, (∀ x ∈ xs, P x) → P (.list xs)) (t : Jsonable) : P t := by
  refine @Jsonable.rec P (fun xs => ∀ x ∈ xs, P x) str bool list ?_ ?_ t
  · intro x hx; exact absurd hx List.not_mem_nil
  · intro x xs hx hxs; exact List.forall_mem_cons.mpr ⟨hx, hxs⟩

/-- Every string consists of scalar values. -/
def Scalar : Jsonable → Prop
  | .str s => ∀ c ∈ s, IsScalar c
  | .bool _ => True
  | .list xs => elements xs
where
  elements : List Jsonable → Prop
    | [] => True
    | x :: xs => x.Scalar ∧ elements xs

@[simp] theorem scalar_list (xs : List Jsonable) : (list xs).Scalar ↔ ∀ x ∈ xs, x.Scalar := by
  rw [Scalar]
  induction xs with
  | nil => simp [Scalar.elements]
  | cons x xs ih => simp [Scalar.elements, ih]

end Jsonable

/-! ## Strings -/

/-- A character above U+FFFF, as a pair of surrogates. -/
def surrogatePair (c : Nat) : StrLit Char :=
  [.unicode (UInt16.ofNat (0xD800 + (c - 0x10000) / 0x400)),
    .unicode (UInt16.ofNat (0xDC00 + (c - 0x10000) % 0x400))]

/-- One character of an ASCII string literal. -/
def asciiItems (c : Nat) : StrLit Char :=
  match shortEscape? c with
  | some e => [.escaped e]
  | none =>
    if 0x20 ≤ c ∧ c ≤ 0x7E then [.unescaped (Char.ofNat c)]
    else if c < 0x10000 then [.unicode (UInt16.ofNat c)]
    else surrogatePair c

/-- `json.encoder.py_encode_basestring_ascii`, between the quotation marks. -/
def asciiLiteral (s : Str) : StrLit Char := s.flatMap asciiItems

/-- `json.dumps(tree, ensure_ascii=True, separators=(",", ":"))`, as a document. -/
def Jsonable.doc : Jsonable → Doc Char
  | .str s => .str (asciiLiteral s)
  | .bool b => .bool b
  | .list xs => .arr (elements xs)
where
  elements : List Jsonable → List (Doc Char)
    | [] => []
    | x :: xs => x.doc :: elements xs

/-- `json.dumps` with `ensure_ascii` and compact separators. -/
def dumps (t : Jsonable) : List Char := t.doc.print

theorem Jsonable.doc_list (xs : List Jsonable) : (list xs).doc = .arr (xs.map doc) := by
  rw [doc]
  congr 1
  induction xs with
  | nil => rfl
  | cons x xs ih => rw [doc.elements, ih, List.map_cons]

theorem asciiItems_printable (c : Nat) : StrLit.Printable (asciiItems c) := by
  rw [asciiItems]
  split
  · simp [StrLit.Printable, StrItem.Printable]
  · rename_i hshort
    obtain ⟨hquote, hslash⟩ := shortEscape?_eq_none hshort
    split
    · rename_i hascii
      have hchar := toNat_ofNat_ascii (show c < 0x80 by omega)
      simpa [StrLit.Printable, StrItem.Printable, hchar] using ⟨hascii.1, hquote, hslash⟩
    · split <;> simp [StrLit.Printable, StrItem.Printable, surrogatePair]

theorem asciiLiteral_printable (s : Str) : StrLit.Printable (asciiLiteral s) := by
  intro i hi
  obtain ⟨c, -, hi⟩ := List.mem_flatMap.mp hi
  exact asciiItems_printable c i hi

theorem Jsonable.doc_printable (t : Jsonable) : t.doc.Printable := by
  induction t using Jsonable.induct with
  | str s => rw [doc, Doc.printable_str]; exact asciiLiteral_printable s
  | bool b => exact Doc.printable_bool b
  | list xs ih =>
    rw [doc_list, Doc.printable_arr, List.forall_mem_map]
    exact ih

/-- A pair of surrogates stands for the character it was made from. -/
theorem codePoints_pair {c : Nat} (h : IsScalar c) (hc : ¬ c < 0x10000) {high low : UInt16}
    (hhigh : high.toNat = 0xD800 + (c - 0x10000) / 0x400)
    (hlow : low.toNat = 0xDC00 + (c - 0x10000) % 0x400) (items : StrLit Char) :
    codePoints ([.unicode high, .unicode low] ++ items) = c :: codePoints items := by
  obtain ⟨d, rfl⟩ := Nat.exists_eq_add_of_le (Nat.le_of_not_lt hc)
  rw [Nat.add_sub_cancel_left] at hhigh hlow
  have hpair : (isHighSurrogate high && isLowSurrogate low) = true := by
    unfold IsScalar at h
    simp only [isHighSurrogate, isLowSurrogate, hhigh, hlow, Bool.and_eq_true, decide_eq_true_eq]
    omega
  have hcombine : combine high low = 0x10000 + d := by
    unfold combine
    omega
  rw [List.cons_append, List.singleton_append, codePoints, decode, if_pos hpair, hcombine]
  rfl

/-- Reading one written character back. -/
theorem codePoints_asciiItems {c : Nat} (h : IsScalar c) (items : StrLit Char) :
    codePoints (asciiItems c ++ items) = c :: codePoints items := by
  rw [asciiItems]
  split
  · rename_i e he
    rw [← value_of_shortEscape? he]
    rfl
  · split
    · rename_i hascii
      rw [List.singleton_append, codePoints, decode, toNat_ofNat h]
      rfl
    · split
      · rename_i hunit
        have hvalue : (UInt16.ofNat c).toNat = c := by
          rw [UInt16.toNat_ofNat']
          exact Nat.mod_eq_of_lt hunit
        have hscalar : IsScalar (UInt16.ofNat c).toNat := by rwa [hvalue]
        rw [List.singleton_append, codePoints_unicode hscalar, hvalue]
      · rename_i hsupplementary
        have hhigh : (UInt16.ofNat (0xD800 + (c - 0x10000) / 0x400)).toNat =
            0xD800 + (c - 0x10000) / 0x400 := by
          unfold IsScalar at h
          rw [UInt16.toNat_ofNat']
          omega
        have hlow : (UInt16.ofNat (0xDC00 + (c - 0x10000) % 0x400)).toNat =
            0xDC00 + (c - 0x10000) % 0x400 := by
          rw [UInt16.toNat_ofNat']
          omega
        exact codePoints_pair h hsupplementary hhigh hlow items

/-- The literal stands for the string. -/
theorem codePoints_asciiLiteral {s : Str} (h : ∀ c ∈ s, IsScalar c) : codePoints (asciiLiteral s) = s := by
  induction s with
  | nil => rfl
  | cons c s ih =>
    obtain ⟨hc, hs⟩ := List.forall_mem_cons.mp h
    rw [asciiLiteral, List.flatMap_cons, codePoints_asciiItems hc, ← asciiLiteral, ih hs]

theorem Jsonable.doc_inj {t : Jsonable} : ∀ {u : Jsonable}, t.Scalar → u.Scalar → (t.doc = u.doc ↔ t = u) := by
  induction t using Jsonable.induct with
  | str s =>
    intro u ht hu
    cases u with
    | str s' =>
      rw [doc, doc, Doc.str.injEq, Jsonable.str.injEq]
      refine ⟨fun h => ?_, fun h => congrArg asciiLiteral h⟩
      rw [← codePoints_asciiLiteral ht, h, codePoints_asciiLiteral hu]
    | bool b => simp [doc]
    | list ys => simp [doc]
  | bool b => intro u _ _; cases u <;> simp [doc]
  | list xs ih =>
    intro u ht hu
    cases u with
    | list ys =>
      rw [scalar_list] at ht hu
      rw [doc_list, doc_list, Doc.arr.injEq, Jsonable.list.injEq]
      induction xs generalizing ys with
      | nil => cases ys <;> simp
      | cons x xs ihxs =>
        cases ys with
        | nil => simp
        | cons y ys =>
          obtain ⟨hx, hxs⟩ := List.forall_mem_cons.mp ht
          obtain ⟨hy, hys⟩ := List.forall_mem_cons.mp hu
          obtain ⟨ihx, ihrest⟩ := List.forall_mem_cons.mp ih
          rw [List.map_cons, List.map_cons, List.cons.injEq, List.cons.injEq, ihx hx hy,
            ihxs ihrest hxs ys hys]
    | str s => simp [doc]
    | bool b => simp [doc]

/-- Different trees have different texts. -/
theorem dumps_inj {t u : Jsonable} (ht : t.Scalar) (hu : u.Scalar) : dumps t = dumps u ↔ t = u := by
  rw [dumps, dumps, print_inj t.doc_printable u.doc_printable, Jsonable.doc_inj ht hu]

end FastGate.Python
