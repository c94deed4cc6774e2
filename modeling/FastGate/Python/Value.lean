/-
# FastGate.Python.Value — JSON values as Python holds them

The values `json.loads` builds with the hooks of the contract checker: a string is its code points,
lone surrogates included, a number is an exact decimal, and an object is a dictionary in insertion
order.

`Value.ofDoc` is the value of a document.  Dictionaries have distinct keys (`Value.Keyed`), which is
what makes a lookup and a membership test talk about the same entry.
-/
import FastGate.Json.Text
import FastGate.Python.Decimal
import Mathlib.Data.Nat.Digits.Defs

open FastGate.Json

namespace FastGate.Python

/-- A Python `str`: its code points. -/
abbrev Str := List Nat

/-- Strings are compared by their code points. -/
instance : LawfulBEq Str := inferInstanceAs (LawfulBEq (List Nat))

/-- A string literal of the source. -/
def str (s : String) : Str := s.toList.map Char.toNat

/-- `str(n)`, of a natural number. -/
def decimalText (n : Nat) : Str :=
  if n = 0 then [0x30] else (Nat.digits 10 n).reverse.map (0x30 + ·)

theorem map_toNat_inj {s t : List Char} : s.map Char.toNat = t.map Char.toNat ↔ s = t :=
  List.map_inj_right fun _ _ h => Char.toNat_inj.mp h

theorem str_injective : Function.Injective str := fun _ _ h =>
  String.toList_inj.mp (map_toNat_inj.mp h)

/-- A dictionary's entries, in insertion order. -/
abbrev Dict (α : Type) := List (Str × α)

namespace Dict

variable {α β : Type}

/-- `d.get(key)` -/
def get? (d : Dict α) (key : Str) : Option α := (d.find? fun entry => entry.1 == key).map (·.2)

/-- `key in d` -/
def has (d : Dict α) (key : Str) : Bool := d.any fun entry => entry.1 == key

/-- The keys of a dictionary, in insertion order. -/
def keys (d : Dict α) : List Str := d.map (·.1)

@[simp] theorem get?_nil (key : Str) : get? ([] : Dict α) key = none := rfl

theorem get?_cons (k : Str) (v : α) (d : Dict α) (key : Str) :
    get? ((k, v) :: d) key = if k = key then some v else get? d key := by
  by_cases h : k = key <;> simp [get?, h]

theorem has_iff {d : Dict α} {key : Str} : d.has key = true ↔ key ∈ d.keys := by
  simp only [has, keys, List.any_eq_true, beq_iff_eq, List.mem_map]

theorem has_iff_get? {d : Dict α} {key : Str} : d.has key = true ↔ ∃ v, d.get? key = some v := by
  induction d with
  | nil => simp [has]
  | cons entry d ih =>
    obtain ⟨k, v⟩ := entry
    rw [get?_cons]
    split
    · rename_i h
      simp [has, h]
    · rename_i h
      rw [← ih]
      simp [has, h]

theorem get?_eq_none {d : Dict α} {key : Str} : d.get? key = none ↔ key ∉ d.keys := by
  rw [← has_iff, has_iff_get?, Option.eq_none_iff_forall_ne_some, not_exists]

theorem mem_of_get? {d : Dict α} {key : Str} {v : α} (h : d.get? key = some v) : (key, v) ∈ d := by
  induction d with
  | nil => cases h
  | cons entry d ih =>
    obtain ⟨k, w⟩ := entry
    rw [get?_cons] at h
    split at h
    · rename_i hk
      cases h
      subst hk
      exact List.mem_cons_self
    · exact List.mem_cons_of_mem _ (ih h)

/-- With distinct keys every entry is found. -/
theorem get?_of_mem {d : Dict α} (hd : d.keys.Nodup) {key : Str} {v : α} (h : (key, v) ∈ d) :
    d.get? key = some v := by
  induction d with
  | nil => cases h
  | cons entry d ih =>
    obtain ⟨k, w⟩ := entry
    obtain ⟨hk, hd⟩ := List.nodup_cons.mp hd
    rw [get?_cons]
    rcases List.mem_cons.mp h with heq | hmem
    · cases heq
      exact if_pos rfl
    · rw [if_neg, ih hd hmem]
      rintro rfl
      exact hk (List.mem_map_of_mem (f := (·.1)) hmem)

theorem keys_map (d : Dict α) (f : α → β) : keys (d.map fun entry => (entry.1, f entry.2)) = d.keys := by
  rw [keys, List.map_map, keys]
  rfl

theorem get?_map (d : Dict α) (f : α → β) (key : Str) :
    get? (d.map fun entry => (entry.1, f entry.2)) key = (d.get? key).map f := by
  induction d with
  | nil => rfl
  | cons entry d ih =>
    obtain ⟨k, v⟩ := entry
    rw [List.map_cons, get?_cons, get?_cons, ih]
    split <;> rfl

end Dict

/-- A JSON value. -/
inductive Value where
  | null
  | bool (b : Bool)
  | num (d : Decimal)
  | str (s : Str)
  | arr (xs : List Value)
  | obj (ms : List (Str × Value))
  deriving Repr

namespace Value

/-- Induction over values, with the hypothesis for every element and every member. -/
@[elab_as_elim]
theorem induct {P : Value → Prop} (null : P .null) (bool : ∀ b, P (.bool b)) (num : ∀ d, P (.num d))
    (str : ∀ s, P (.str s)) (arr : ∀ xs, (∀ x ∈ xs, P x) → P (.arr xs))
    (obj : ∀ ms, (∀ m ∈ ms, P m.2) → P (.obj ms)) (v : Value) : P v := by
  refine @Value.rec P (fun xs => ∀ x ∈ xs, P x) (fun ms => ∀ m ∈ ms, P m.2) (fun m => P m.2)
    null bool num str arr obj ?_ ?_ ?_ ?_ ?_ v
  · intro x hx; exact absurd hx List.not_mem_nil
  · intro x xs hx hxs; exact List.forall_mem_cons.mpr ⟨hx, hxs⟩
  · intro m hm; exact absurd hm List.not_mem_nil
  · intro m ms hm hms; exact List.forall_mem_cons.mpr ⟨hm, hms⟩
  · intro _ v hv; exact hv

/-- The dictionary of an object; any other value has no entries. -/
def dict : Value → Dict Value
  | .obj ms => ms
  | _ => []

/-- `value.get(key)` -/
def get? (v : Value) (key : String) : Option Value := v.dict.get? (Python.str key)

/-- `key in value` -/
def has (v : Value) (key : String) : Bool := v.dict.has (Python.str key)

/-- `value == s` for a string literal `s`. -/
def eqStr (v : Value) (s : String) : Bool :=
  match v with
  | .str t => t == Python.str s
  | _ => false

theorem eqStr_iff {v : Value} {s : String} : v.eqStr s = true ↔ v = .str (Python.str s) := by
  cases v <;> simp [eqStr]

/-- A string is equal to one literal only. -/
theorem eqStr_str (s t : String) : (Value.str (Python.str s)).eqStr t = decide (s = t) := by
  rw [eqStr, Bool.eq_iff_iff, beq_iff_eq, decide_eq_true_eq, str_injective.eq_iff]

/-- Every dictionary inside the value has distinct keys. -/
def Keyed : Value → Prop
  | .null | .bool _ | .num _ | .str _ => True
  | .arr xs => elements xs
  | .obj ms => (Dict.keys ms).Nodup ∧ members ms
where
  elements : List Value → Prop
    | [] => True
    | x :: xs => x.Keyed ∧ elements xs
  members : List (Str × Value) → Prop
    | [] => True
    | (_, v) :: ms => v.Keyed ∧ members ms

@[simp] theorem keyed_arr (xs : List Value) : (arr xs).Keyed ↔ ∀ x ∈ xs, x.Keyed := by
  rw [Keyed]
  induction xs with
  | nil => simp [Keyed.elements]
  | cons x xs ih => simp [Keyed.elements, ih]

@[simp] theorem keyed_obj (ms : List (Str × Value)) :
    (obj ms).Keyed ↔ (Dict.keys ms).Nodup ∧ ∀ m ∈ ms, m.2.Keyed := by
  have hall : Keyed.members ms ↔ ∀ m ∈ ms, m.2.Keyed := by
    induction ms with
    | nil => exact iff_of_true trivial (List.forall_mem_nil _)
    | cons m ms ih =>
      show m.2.Keyed ∧ Keyed.members ms ↔ _
      rw [ih, List.forall_mem_cons]
  show (Dict.keys ms).Nodup ∧ Keyed.members ms ↔ _
  rw [hall]

/-- Whether keys are distinct can be computed. -/
def decidableKeyed : (v : Value) → Decidable v.Keyed
  | .null | .bool _ | .num _ | .str _ => .isTrue trivial
  | .arr xs => elements xs
  | .obj ms => @instDecidableAnd _ _ inferInstance (members ms)
where
  elements : (xs : List Value) → Decidable (Keyed.elements xs)
    | [] => .isTrue trivial
    | x :: xs => @instDecidableAnd _ _ (decidableKeyed x) (elements xs)
  members : (ms : List (Str × Value)) → Decidable (Keyed.members ms)
    | [] => .isTrue trivial
    | (_, v) :: ms => @instDecidableAnd _ _ (decidableKeyed v) (members ms)

instance : DecidablePred Keyed := decidableKeyed

/-- The value of a document. -/
def ofDoc : Doc Char → Value
  | .null => .null
  | .bool b => .bool b
  | .num n => .num (.ofNumber n)
  | .str s => .str (codePoints s)
  | .arr xs => .arr (elements xs)
  | .obj ms => .obj (members ms)
where
  elements : List (Doc Char) → List Value
    | [] => []
    | x :: xs => ofDoc x :: elements xs
  members : List (StrLit Char × Doc Char) → List (Str × Value)
    | [] => []
    | (k, d) :: ms => (codePoints k, ofDoc d) :: members ms

@[simp] theorem ofDoc_arr (xs : List (Doc Char)) : ofDoc (.arr xs) = .arr (xs.map ofDoc) := by
  show Value.arr (ofDoc.elements xs) = _
  congr 1
  induction xs with
  | nil => rfl
  | cons x xs ih =>
    show ofDoc x :: ofDoc.elements xs = _
    rw [ih, List.map_cons]

@[simp] theorem ofDoc_obj (ms : List (StrLit Char × Doc Char)) :
    ofDoc (.obj ms) = .obj (ms.map fun m => (codePoints m.1, ofDoc m.2)) := by
  show Value.obj (ofDoc.members ms) = _
  congr 1
  induction ms with
  | nil => rfl
  | cons m ms ih =>
    show (codePoints m.1, ofDoc m.2) :: ofDoc.members ms = _
    rw [ih, List.map_cons]

/-! ## Strings and nesting -/

/-- `P` holds of every string of the value, keys included. -/
def AllStrs (P : Str → Prop) : Value → Prop
  | .null | .bool _ | .num _ => True
  | .str s => P s
  | .arr xs => elements xs
  | .obj ms => members ms
where
  elements : List Value → Prop
    | [] => True
    | x :: xs => x.AllStrs P ∧ elements xs
  members : List (Str × Value) → Prop
    | [] => True
    | (k, v) :: ms => (P k ∧ v.AllStrs P) ∧ members ms

/-- How deep values are nested inside the value. -/
def nesting : Value → Nat
  | .null | .bool _ | .num _ | .str _ => 0
  | .arr xs => elements xs
  | .obj ms => members ms
where
  elements : List Value → Nat
    | [] => 0
    | x :: xs => max (x.nesting + 1) (elements xs)
  members : List (Str × Value) → Nat
    | [] => 0
    | (_, v) :: ms => max (v.nesting + 1) (members ms)

@[simp] theorem allStrs_arr {P : Str → Prop} (xs : List Value) :
    (arr xs).AllStrs P ↔ ∀ x ∈ xs, x.AllStrs P := by
  show AllStrs.elements P xs ↔ _
  induction xs with
  | nil => exact iff_of_true trivial (List.forall_mem_nil _)
  | cons x xs ih =>
    show x.AllStrs P ∧ AllStrs.elements P xs ↔ _
    rw [ih, List.forall_mem_cons]

@[simp] theorem allStrs_obj {P : Str → Prop} (ms : List (Str × Value)) :
    (obj ms).AllStrs P ↔ ∀ m ∈ ms, P m.1 ∧ m.2.AllStrs P := by
  show AllStrs.members P ms ↔ _
  induction ms with
  | nil => exact iff_of_true trivial (List.forall_mem_nil _)
  | cons m ms ih =>
    show (P m.1 ∧ m.2.AllStrs P) ∧ AllStrs.members P ms ↔ _
    rw [ih, List.forall_mem_cons]

theorem nesting_arr_le {n : Nat} (xs : List Value) :
    (arr xs).nesting ≤ n ↔ ∀ x ∈ xs, x.nesting + 1 ≤ n := by
  show nesting.elements xs ≤ n ↔ _
  induction xs with
  | nil => exact iff_of_true (Nat.zero_le n) (List.forall_mem_nil _)
  | cons x xs ih =>
    show max (x.nesting + 1) (nesting.elements xs) ≤ n ↔ _
    rw [Nat.max_le, ih, List.forall_mem_cons]

theorem nesting_obj_le {n : Nat} (ms : List (Str × Value)) :
    (obj ms).nesting ≤ n ↔ ∀ m ∈ ms, m.2.nesting + 1 ≤ n := by
  show nesting.members ms ≤ n ↔ _
  induction ms with
  | nil => exact iff_of_true (Nat.zero_le n) (List.forall_mem_nil _)
  | cons m ms ih =>
    show max (m.2.nesting + 1) (nesting.members ms) ≤ n ↔ _
    rw [Nat.max_le, ih, List.forall_mem_cons]

theorem allStrs_ofDoc {P : Str → Prop} (doc : Doc Char) :
    (ofDoc doc).AllStrs P ↔ doc.AllStrings fun s => P (codePoints s) := by
  induction doc using Doc.induct with
  | null => exact Iff.rfl
  | bool b => exact Iff.rfl
  | num n => exact Iff.rfl
  | str s => exact Iff.rfl
  | arr xs ih =>
    rw [ofDoc_arr, allStrs_arr, List.forall_mem_map, Doc.allStrings_arr]
    exact forall₂_congr ih
  | obj ms ih =>
    rw [ofDoc_obj, allStrs_obj, List.forall_mem_map, Doc.allStrings_obj]
    exact forall₂_congr fun m hm => and_congr_right' (ih m hm)

/-- A document without repeated names has a value. -/
theorem keyed_ofDoc {doc : Doc Char} (h : doc.UniqueNames codePoints) : (ofDoc doc).Keyed := by
  induction doc using Doc.induct with
  | null => trivial
  | bool b => trivial
  | num n => trivial
  | str s => trivial
  | arr xs ih =>
    rw [Doc.uniqueNames_arr] at h
    rw [ofDoc_arr, keyed_arr, List.forall_mem_map]
    exact fun x hx => ih x hx (h x hx)
  | obj ms ih =>
    rw [Doc.uniqueNames_obj] at h
    rw [ofDoc_obj, keyed_obj, List.forall_mem_map, Dict.keys, List.map_map]
    exact ⟨h.1, fun m hm => ih m hm (h.2 m hm)⟩

end Value

end FastGate.Python
