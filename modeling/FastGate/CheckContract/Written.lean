/-
# FastGate.CheckContract.Written — files that hold a given value

`written v` is a file that spells a value in compact ASCII, and `strict_json` loads it as that value
(`strictJson_written`).  So there is a file for every value whose numbers are natural, and statements
about loaded documents are never empty.
-/
import FastGate.CheckContract.Schemas
import FastGate.CheckContract.StrictJson
import FastGate.Python.Dumps

open FastGate.Json FastGate.Python
open FastGate.Utf8 (Bytes encode)

namespace FastGate.CheckContract

/-- Distinct keys, scalar strings and natural numbers all through the value. -/
def writable : Value → Bool
  | .null | .bool _ => true
  | .num d => d = .ofNat d.coefficient
  | .str s => s.all fun c => IsScalar c
  | .arr xs => elements xs
  | .obj ms => (Dict.keys ms).Nodup && members ms
where
  elements : List Value → Bool
    | [] => true
    | x :: xs => writable x && elements xs
  members : List (Str × Value) → Bool
    | [] => true
    | (k, v) :: ms => ((k.all fun c => IsScalar c) && writable v) && members ms

/-- The document of a value. -/
def writeDoc : Value → Doc Char
  | .null => .null
  | .bool b => .bool b
  | .num d => .num (Number.ofInt d.coefficient)
  | .str s => .str (asciiLiteral s)
  | .arr xs => .arr (elements xs)
  | .obj ms => .obj (members ms)
where
  elements : List Value → List (Doc Char)
    | [] => []
    | x :: xs => writeDoc x :: elements xs
  members : List (Str × Value) → List (StrLit Char × Doc Char)
    | [] => []
    | (k, v) :: ms => (asciiLiteral k, writeDoc v) :: members ms

/-- A file that spells the value. -/
def written (v : Value) : Bytes := encode (writeDoc v).print

theorem writable_arr (xs : List Value) : writable (.arr xs) = true ↔ ∀ x ∈ xs, writable x = true := by
  show writable.elements xs = true ↔ _
  induction xs with
  | nil => exact iff_of_true rfl (List.forall_mem_nil _)
  | cons x xs ih =>
    show (writable x && writable.elements xs) = true ↔ _
    rw [Bool.and_eq_true, ih, List.forall_mem_cons]

theorem writable_obj (ms : List (Str × Value)) : writable (.obj ms) = true ↔ (Dict.keys ms).Nodup ∧
    ∀ m ∈ ms, (∀ c ∈ m.1, IsScalar c) ∧ writable m.2 = true := by
  have hmembers : writable.members ms = true ↔
      ∀ m ∈ ms, (∀ c ∈ m.1, IsScalar c) ∧ writable m.2 = true := by
    induction ms with
    | nil => exact iff_of_true rfl (List.forall_mem_nil _)
    | cons m ms ih =>
      show ((m.1.all fun c => IsScalar c) && writable m.2 && writable.members ms) = true ↔ _
      rw [Bool.and_eq_true, Bool.and_eq_true, ih, List.forall_mem_cons, List.all_eq_true]
      simp only [decide_eq_true_eq]
  show (decide (Dict.keys ms).Nodup && writable.members ms) = true ↔ _
  rw [Bool.and_eq_true, hmembers, decide_eq_true_eq]

theorem writeDoc_arr (xs : List Value) : writeDoc (.arr xs) = .arr (xs.map writeDoc) := by
  show Doc.arr (writeDoc.elements xs) = _
  congr 1
  induction xs with
  | nil => rfl
  | cons x xs ih =>
    show writeDoc x :: writeDoc.elements xs = _
    rw [ih, List.map_cons]

theorem writeDoc_obj (ms : List (Str × Value)) :
    writeDoc (.obj ms) = .obj (ms.map fun m => (asciiLiteral m.1, writeDoc m.2)) := by
  show Doc.obj (writeDoc.members ms) = _
  congr 1
  induction ms with
  | nil => rfl
  | cons m ms ih =>
    show (asciiLiteral m.1, writeDoc m.2) :: writeDoc.members ms = _
    rw [ih, List.map_cons]

theorem writeDoc_printable (v : Value) : (writeDoc v).Printable := by
  induction v using Value.induct with
  | null => simp [writeDoc, Doc.Printable, Doc.tokens, Token.Printable]
  | bool b => exact Doc.printable_bool b
  | num d => rw [writeDoc, Doc.printable_num]; exact Number.printable_ofInt _
  | str s => rw [writeDoc, Doc.printable_str]; exact asciiLiteral_printable s
  | arr xs ih => rw [writeDoc_arr, Doc.printable_arr, List.forall_mem_map]; exact ih
  | obj ms ih =>
    rw [writeDoc_obj, Doc.printable_obj, List.forall_mem_map]
    exact fun m hm => ⟨asciiLiteral_printable m.1, ih m hm⟩

/-- The document stands for the value. -/
theorem ofDoc_writeDoc {v : Value} (h : writable v = true) : Value.ofDoc (writeDoc v) = v := by
  induction v using Value.induct with
  | null => rfl
  | bool b => rfl
  | num d =>
    rw [writable, decide_eq_true_eq] at h
    rw [writeDoc, Value.ofDoc, h]
    simp only [Decimal.ofNumber, Number.ofInt, digitsValue_decimalDigits, Decimal.ofNat, List.append_nil,
      List.length_nil, Int.natAbs_natCast, Nat.cast_zero, Int.sub_zero, Value.num.injEq,
      Decimal.mk.injEq, and_true]
    exact decide_eq_false (by omega)
  | str s =>
    simp only [writable, List.all_eq_true, decide_eq_true_eq] at h
    rw [writeDoc, Value.ofDoc, codePoints_asciiLiteral h]
  | arr xs ih =>
    rw [writable_arr] at h
    rw [writeDoc_arr, Value.ofDoc_arr, List.map_map]
    congr 1
    conv_rhs => rw [← List.map_id xs]
    exact List.map_congr_left fun x hx => ih x hx (h x hx)
  | obj ms ih =>
    rw [writable_obj] at h
    rw [writeDoc_obj, Value.ofDoc_obj, List.map_map]
    congr 1
    conv_rhs => rw [← List.map_id ms]
    refine List.map_congr_left fun m hm => ?_
    show (codePoints (asciiLiteral m.1), Value.ofDoc (writeDoc m.2)) = m
    rw [codePoints_asciiLiteral (h.2 m hm).1, ih m hm (h.2 m hm).2]

theorem writeDoc_names {v : Value} (h : writable v = true) : (writeDoc v).UniqueNames codePoints := by
  induction v using Value.induct with
  | arr xs ih =>
    rw [writable_arr] at h
    rw [writeDoc_arr, Doc.uniqueNames_arr, List.forall_mem_map]
    exact fun x hx => ih x hx (h x hx)
  | obj ms ih =>
    rw [writable_obj] at h
    rw [writeDoc_obj, Doc.uniqueNames_obj, List.forall_mem_map, List.map_map]
    refine ⟨?_, fun m hm => ih m hm (h.2 m hm).2⟩
    have hkeys : ms.map ((fun m => codePoints m.1) ∘ fun m : Str × Value =>
        (asciiLiteral m.1, writeDoc m.2)) = Dict.keys ms :=
      List.map_congr_left fun m hm => codePoints_asciiLiteral (h.2 m hm).1
    rw [hkeys]
    exact h.1
  | _ => trivial

theorem writeDoc_scalar {v : Value} (h : writable v = true) :
    (writeDoc v).AllStrings fun s => ∀ n ∈ codePoints s, IsScalar n := by
  induction v using Value.induct with
  | str s =>
    simp only [writable, List.all_eq_true, decide_eq_true_eq] at h
    show ∀ n ∈ codePoints (asciiLiteral s), IsScalar n
    rwa [codePoints_asciiLiteral h]
  | arr xs ih =>
    rw [writable_arr] at h
    rw [writeDoc_arr, Doc.allStrings_arr, List.forall_mem_map]
    exact fun x hx => ih x hx (h x hx)
  | obj ms ih =>
    rw [writable_obj] at h
    rw [writeDoc_obj, Doc.allStrings_obj, List.forall_mem_map]
    refine fun m hm => ⟨?_, ih m hm (h.2 m hm).2⟩
    rw [codePoints_asciiLiteral (h.2 m hm).1]
    exact (h.2 m hm).1
  | _ => trivial

/-- What is written is loaded again. -/
theorem strictJson_written {rt : Runtime} (hlimit : maxNestingDepth < rt.recursionLimit)
    (hrange : ∀ n, rt.exactRange n = true) {v : Value} (h : writable v = true)
    (hnesting : (writeDoc v).nesting ≤ maxNestingDepth) (hsize : (written v).length ≤ maxJSONBytes) :
    strictJson rt (some (written v)) = .ok v := by
  have hload := strictJson_print hlimit (writeDoc_printable v) (writeDoc_names h) (writeDoc_scalar h) hsize
    ⟨by rwa [Nat.zero_add], Doc.allNumbers_of_forall hrange _⟩
  rwa [ofDoc_writeDoc h] at hload

/-! ## Files of the committed schemas -/

/-- Their files are within the limits. -/
theorem committed_limits : ∀ schema ∈ [requestSchema, successSchema, failureSchema],
    (writeDoc schema).nesting ≤ maxNestingDepth ∧ (written schema).length ≤ maxJSONBytes := by
  decide +kernel

section Committed

variable {rt : Runtime} (hlimit : maxNestingDepth < rt.recursionLimit)
  (hrange : ∀ n, rt.exactRange n = true)

include hlimit hrange

theorem strictJson_requestSchema : strictJson rt (some (written requestSchema)) = .ok requestSchema :=
  have hlimits := committed_limits _ (.head _)
  strictJson_written hlimit hrange (by decide) hlimits.1 hlimits.2

theorem strictJson_successSchema : strictJson rt (some (written successSchema)) = .ok successSchema :=
  have hlimits := committed_limits _ (.tail _ (.head _))
  strictJson_written hlimit hrange (by decide) hlimits.1 hlimits.2

theorem strictJson_failureSchema : strictJson rt (some (written failureSchema)) = .ok failureSchema :=
  have hlimits := committed_limits _ (.tail _ (.tail _ (.head _)))
  strictJson_written hlimit hrange (by decide) hlimits.1 hlimits.2

end Committed

end FastGate.CheckContract
