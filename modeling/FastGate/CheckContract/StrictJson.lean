/-
# FastGate.CheckContract.StrictJson — loading bounded strict JSON

`strict_json` reads a file, decodes it, parses it with hooks that refuse repeated names and inexact
numbers, and walks the result for lone surrogates.  Its failures have two classes: a document that
breaks the protocol's parse profile, and an artifact the checker declines to judge.

`strictJson_outcome` tells the classes apart.  A normative document ends in a value or, outside the
guards, in an artifact failure; whatever is within the guards ends in a value or in a document
failure.  Both halves rest on the same two facts: what the parser can fail for (`parseText_fault`),
and what the walk over the pending values can fail for (`scalarsLoop_error`).
-/
import FastGate.CheckContract.SchemaIssues
import FastGate.Json.Faults
import FastGate.Json.Print

open FastGate.Json FastGate.Python
open FastGate.Utf8 (Bytes encode decodeText? decodeText?_eq_some)

namespace FastGate.CheckContract

/-- `MAX_JSON_BYTES` -/
def maxJSONBytes : Nat := 1000000

/-- `JSONDocumentError`, and its subclass `JSONArtifactError`. -/
inductive JSONError where
  | document (message : Str)
  | artifact (message : Str)
  deriving DecidableEq, Repr

namespace JSONError

/-- The file cannot be opened or read. -/
def unreadable : JSONError := artifact (str "unable to read JSON document")

/-- There is one byte more than may be read. -/
def tooLarge : JSONError := artifact (str "JSON document exceeds the checker size limit")

/-- The bytes are no text. -/
def notUtf8 : JSONError := document (str "JSON document is not UTF-8")

/-- Raised by `unique_object`. -/
def duplicateKey : JSONError := document (str "JSON document contains a duplicate object key")

/-- Raised by `exact_decimal`. -/
def inexactNumber : JSONError := artifact (str "JSON number exceeds the checker exact-number range")

/-- Raised by the parser at its recursion limit and by the walk at the nesting limit. -/
def tooDeep : JSONError := artifact (str "JSON document exceeds the checker nesting limit")

/-- Raised by `require_unicode_scalars`. -/
def loneSurrogate : JSONError := document (str "JSON document contains a lone Unicode surrogate")

/-- Raised where the parser stops: by `reject_constant` at a constant that JSON does not have, and else by the
`except` clause for `JSONDecodeError`. -/
def invalidSyntax (position : Option (Nat × Nat)) : JSONError :=
  document (match position with
    | some (line, column) =>
      str "invalid JSON syntax at line " ++ decimalText line ++ str ", column " ++ decimalText column
    | none => str "JSON document contains a non-finite number")

end JSONError

/-! ## The hooks of the parser -/

/-- `unique_object`, from the dictionary built so far. -/
def uniqueObject : List (Str × Value) → Dict Value → Except JSONError Value
  | [], result => .ok (.obj result)
  | (key, value) :: pairs, result =>
    if result.has key then .error .duplicateKey else uniqueObject pairs (result ++ [(key, value)])

/-- `exact_decimal` -/
def exactDecimal (rt : Runtime) (n : Number) : Except JSONError Value :=
  if rt.exactRange n then .ok (.num (.ofNumber n)) else .error .inexactNumber

/-- `json.loads` with its hooks, and with what the `except` clauses around it make of its errors. -/
def strictHooks (rt : Runtime) (text : List Char) : Hooks Char Str Value JSONError where
  syntaxError := .invalidSyntax (rt.errorPosition text)
  enter n := if n > rt.recursionLimit then .error .tooDeep else .ok ()
  name := codePoints
  null := .null
  bool := .bool
  num := exactDecimal rt
  str s := .str (codePoints s)
  arr := .arr
  obj pairs := uniqueObject pairs []

/-! ## The walk for lone surrogates -/

/-- `0xD800 <= ord(character) <= 0xDFFF` -/
def isSurrogate (character : Nat) : Bool := 0xD800 ≤ character && character ≤ 0xDFFF

/-- What is pushed for a container.  The entry that is popped next stands first. -/
def pushed (value : Value) (depth : Nat) : List (Value × Nat) :=
  match value with
  | .arr xs => (xs.map fun item => (item, depth + 1)).reverse
  | .obj ms =>
    (ms.map fun m => (m.2, depth + 1)).reverse ++ (ms.map fun m => (.str m.1, depth)).reverse
  | _ => []

/-- The loop of `require_unicode_scalars`; `fuel` bounds the number of entries that are popped. -/
def scalarsLoop : Nat → List (Value × Nat) → Except JSONError Unit
  | 0, _ => .ok ()
  | _, [] => .ok ()
  | fuel + 1, (value, depth) :: pending =>
    if depth > maxNestingDepth then .error .tooDeep
    else match value with
      | .str s => if s.any isSurrogate then .error .loneSurrogate else scalarsLoop fuel pending
      | value => scalarsLoop fuel (pushed value depth ++ pending)

/-- How many entries a value puts on the list of pending ones, itself included. -/
def entries : Value → Nat
  | .null | .bool _ | .num _ | .str _ => 1
  | .arr xs => 1 + elements xs
  | .obj ms => 1 + members ms
where
  elements : List Value → Nat
    | [] => 0
    | x :: xs => entries x + elements xs
  members : List (Str × Value) → Nat
    | [] => 0
    | (_, v) :: ms => 1 + entries v + members ms

/-- `require_unicode_scalars` -/
def requireUnicodeScalars (document : Value) : Except JSONError Unit :=
  scalarsLoop (entries document) [(document, 0)]

/-- `strict_json`, from the contents of the file or the failure to read it. -/
def strictJson (rt : Runtime) (file : Option Bytes) : Except JSONError Value :=
  match file with
  | none => .error .unreadable
  | some contents =>
    let raw := contents.take (maxJSONBytes + 1)
    if raw.length > maxJSONBytes then .error .tooLarge
    else match decodeText? raw with
      | none => .error .notUtf8
      | some text => do
        let document ← parseText (strictHooks rt text) text
        requireUnicodeScalars document
        return document

/-! ## What the walk finds -/

/-- A string of scalar values. -/
def ScalarStr (s : Str) : Prop := s.any isSurrogate = false

/-- What one entry makes of the walk: it is nested too deep, it is a string with a surrogate, or it is
replaced by what it contains. -/
theorem scalarsLoop_cases (fuel depth : Nat) (value : Value) (pending : List (Value × Nat)) :
    (¬ depth ≤ maxNestingDepth ∧
      scalarsLoop (fuel + 1) ((value, depth) :: pending) = .error .tooDeep) ∨
    (depth ≤ maxNestingDepth ∧ (∃ s, value = .str s ∧ ¬ ScalarStr s) ∧
      scalarsLoop (fuel + 1) ((value, depth) :: pending) = .error .loneSurrogate) ∨
    (depth ≤ maxNestingDepth ∧ (∀ s, value = .str s → ScalarStr s) ∧
      scalarsLoop (fuel + 1) ((value, depth) :: pending) =
        scalarsLoop fuel (pushed value depth ++ pending)) := by
  by_cases hdepth : depth ≤ maxNestingDepth
  · refine .inr ?_
    cases value with
    | str s =>
      cases hs : s.any isSurrogate with
      | true =>
        refine .inl ⟨hdepth, ⟨s, rfl, by simp [ScalarStr, hs]⟩, ?_⟩
        simp only [scalarsLoop, if_neg (Nat.not_lt.mpr hdepth), hs, if_true]
      | false =>
        refine .inr ⟨hdepth, fun t ht => by cases ht; exact hs, ?_⟩
        simp only [scalarsLoop, if_neg (Nat.not_lt.mpr hdepth), hs, pushed]
        rfl
    | _ => exact .inr ⟨hdepth, by simp, by simp [scalarsLoop, hdepth]⟩
  · refine .inl ⟨hdepth, ?_⟩
    cases value <;> exact if_pos (Nat.lt_of_not_le hdepth)

/-- What is nested in a value is nested in what is pushed for it. -/
theorem add_nesting_le {depth : Nat} (value : Value) :
    depth + value.nesting ≤ maxNestingDepth ↔ depth ≤ maxNestingDepth ∧
      ∀ p ∈ pushed value depth, p.2 + p.1.nesting ≤ maxNestingDepth := by
  have split : ∀ {n : Nat}, depth + n ≤ maxNestingDepth ↔
      depth ≤ maxNestingDepth ∧ n ≤ maxNestingDepth - depth := by omega
  rw [split]
  refine and_congr_right fun hdepth => ?_
  cases value with
  | arr xs =>
    rw [Value.nesting_arr_le, pushed]
    simp only [List.mem_reverse, List.forall_mem_map]
    exact forall₂_congr fun x _ => by omega
  | obj ms =>
    rw [Value.nesting_obj_le, pushed]
    simp only [List.forall_mem_append, List.mem_reverse, List.forall_mem_map, Value.nesting]
    constructor
    · intro h
      exact ⟨fun m hm => by have := h m hm; omega, fun m _ => hdepth⟩
    · rintro ⟨h, -⟩ m hm
      have := h m hm
      omega
  | _ => simp [Value.nesting, pushed]

theorem allStrs_iff_pushed {P : Str → Prop} (value : Value) (depth : Nat) :
    value.AllStrs P ↔ (∀ s, value = .str s → P s) ∧ ∀ p ∈ pushed value depth, p.1.AllStrs P := by
  cases value with
  | arr xs => simp [pushed]
  | obj ms =>
    rw [Value.allStrs_obj, pushed]
    simp only [List.forall_mem_append, List.mem_reverse, List.forall_mem_map, Value.AllStrs,
      reduceCtorEq, false_implies, implies_true, true_and]
    rw [and_comm, ← forall₂_and]
  | str s => simp [pushed, Value.AllStrs]
  | _ => simp [pushed, Value.AllStrs]

/-- The entries of all pending values. -/
def allEntries (pending : List (Value × Nat)) : Nat := (pending.map fun p => entries p.1).sum

theorem entries_eq (value : Value) (depth : Nat) :
    entries value = 1 + allEntries (pushed value depth) := by
  cases value with
  | arr xs =>
    rw [entries, pushed, allEntries, List.map_reverse, List.sum_reverse, List.map_map]
    congr 1
    induction xs with
    | nil => rfl
    | cons x xs ih => rw [entries.elements, ih, List.map_cons, List.sum_cons]; rfl
  | obj ms =>
    rw [entries, pushed, allEntries, List.map_append, List.sum_append, List.map_reverse,
      List.map_reverse, List.sum_reverse, List.sum_reverse, List.map_map, List.map_map]
    congr 1
    induction ms with
    | nil => rfl
    | cons m ms ih =>
      rw [entries.members, ih]
      simp only [List.map_cons, List.sum_cons, Function.comp_apply, entries]
      omega
  | _ => rfl

theorem scalarsLoop_ok_iff : ∀ {fuel : Nat} {pending : List (Value × Nat)},
    allEntries pending ≤ fuel → (scalarsLoop fuel pending = .ok () ↔
      ∀ p ∈ pending, p.2 + p.1.nesting ≤ maxNestingDepth ∧ p.1.AllStrs ScalarStr) := by
  intro fuel
  induction fuel with
  | zero =>
    intro pending hfuel
    cases pending with
    | nil => simp [scalarsLoop]
    | cons p pending =>
      obtain ⟨value, depth⟩ := p
      rw [allEntries, List.map_cons, List.sum_cons, entries_eq value depth] at hfuel
      omega
  | succ fuel ih =>
    intro pending hfuel
    cases pending with
    | nil => simp [scalarsLoop]
    | cons p pending =>
      obtain ⟨value, depth⟩ := p
      rw [allEntries, List.map_cons, List.sum_cons, entries_eq value depth] at hfuel
      rw [List.forall_mem_cons, add_nesting_le, allStrs_iff_pushed value depth]
      rcases scalarsLoop_cases fuel depth value pending with
        ⟨hdepth, h⟩ | ⟨-, ⟨s, hs, hlone⟩, h⟩ | ⟨hdepth, hstr, h⟩
      · rw [h]
        exact iff_of_false (by simp) fun hall => hdepth hall.1.1.1
      · rw [h]
        exact iff_of_false (by simp) fun hall => hlone (hall.1.2.1 s hs)
      · rw [h, ih, List.forall_mem_append, forall₂_and]
        · simp only [hdepth, true_and]
          tauto
        · rw [allEntries, List.map_append, List.sum_append]
          simp only [allEntries] at hfuel
          omega

/-- The walk fails for a value that is nested too deep or for a surrogate that it found. -/
theorem scalarsLoop_error : ∀ {fuel : Nat} {pending : List (Value × Nat)} {e : JSONError},
    scalarsLoop fuel pending = .error e →
      (e = .tooDeep ∧ ∃ p ∈ pending, ¬ p.2 + p.1.nesting ≤ maxNestingDepth) ∨
        (e = .loneSurrogate ∧ ∃ p ∈ pending, ¬ p.1.AllStrs ScalarStr) := by
  intro fuel
  induction fuel with
  | zero => intro pending e h; cases h
  | succ fuel ih =>
    intro pending e h
    cases pending with
    | nil => cases h
    | cons p pending =>
      obtain ⟨value, depth⟩ := p
      rcases scalarsLoop_cases fuel depth value pending with
        ⟨hdepth, hstep⟩ | ⟨-, ⟨s, hs, hlone⟩, hstep⟩ | ⟨-, -, hstep⟩
      · rw [hstep] at h
        cases h
        exact .inl ⟨rfl, _, List.mem_cons_self, fun hle => hdepth (Nat.le_of_add_right_le hle)⟩
      · rw [hstep] at h
        cases h
        exact .inr ⟨rfl, _, List.mem_cons_self, by rw [hs]; exact hlone⟩
      · rw [hstep] at h
        simp only [List.exists_mem_cons_iff, add_nesting_le value, allStrs_iff_pushed value depth]
        rcases ih h with ⟨rfl, p, hp, hdeep⟩ | ⟨rfl, p, hp, hlone⟩
        · refine .inl ⟨rfl, ?_⟩
          rcases List.mem_append.mp hp with hp | hp
          · exact .inl fun hall => hdeep (hall.2 p hp)
          · exact .inr ⟨p, hp, hdeep⟩
        · refine .inr ⟨rfl, ?_⟩
          rcases List.mem_append.mp hp with hp | hp
          · exact .inl fun hall => hlone (hall.2 p hp)
          · exact .inr ⟨p, hp, hlone⟩

/-! ## What the hooks accept -/

theorem keys_append {α : Type} (d e : Dict α) : Dict.keys (d ++ e) = d.keys ++ e.keys := List.map_append

theorem nodup_keys_nil {α : Type} : (Dict.keys ([] : Dict α)).Nodup := List.nodup_nil

/-- An object is refused for a key that it repeats, and for nothing else. -/
theorem uniqueObject_eq (pairs : List (Str × Value)) : ∀ {result : Dict Value}, result.keys.Nodup →
    uniqueObject pairs result =
      if (Dict.keys (result ++ pairs)).Nodup then .ok (.obj (result ++ pairs))
      else .error .duplicateKey := by
  induction pairs with
  | nil => intro result h; simp [uniqueObject, h]
  | cons pair pairs ih =>
    obtain ⟨key, value⟩ := pair
    intro result h
    rw [uniqueObject]
    split
    · rename_i hkey
      rw [if_neg]
      intro hnodup
      rw [keys_append] at hnodup
      exact List.disjoint_of_nodup_append hnodup (Dict.has_iff.mp hkey) List.mem_cons_self
    · rename_i hkey
      have hnew : (Dict.keys (result ++ [(key, value)])).Nodup := by
        rw [keys_append]
        exact List.nodup_append'.mpr ⟨h, List.nodup_singleton key, by
          simpa [Dict.keys] using fun hmem => hkey (Dict.has_iff.mpr hmem)⟩
      rw [ih hnew, List.append_assoc, List.singleton_append]

/-- What is evaluated has distinct names, and its value is that of the document. -/
theorem ofDoc_of_eval {rt : Runtime} {text : List Char} (doc : Doc Char) : ∀ {depth : Nat} {v : Value},
    doc.eval (strictHooks rt text) depth = .ok v → doc.UniqueNames codePoints ∧ v = Value.ofDoc doc := by
  induction doc using Doc.induct with
  | null => intro depth v h; cases h; exact ⟨trivial, rfl⟩
  | bool b => intro depth v h; cases h; exact ⟨trivial, rfl⟩
  | num n =>
    intro depth v h
    simp only [Doc.eval, strictHooks, exactDecimal] at h
    split at h
    · cases h
      exact ⟨trivial, rfl⟩
    · cases h
  | str s => intro depth v h; cases h; exact ⟨trivial, rfl⟩
  | arr xs ih =>
    have elements : ∀ {depth vs}, Doc.eval.elements (strictHooks rt text) depth xs = .ok vs →
        (∀ x ∈ xs, x.UniqueNames codePoints) ∧ vs = xs.map Value.ofDoc := by
      intro depth vs h
      induction xs generalizing vs with
      | nil => cases h; simp
      | cons x xs ihxs =>
        obtain ⟨v, hv, h⟩ := bind_ok_iff.mp h
        obtain ⟨vs, hvs, h⟩ := bind_ok_iff.mp h
        cases h
        obtain ⟨hx, rfl⟩ := ih x List.mem_cons_self hv
        obtain ⟨hxs, rfl⟩ := ihxs (fun y hy => ih y (List.mem_cons_of_mem _ hy)) hvs
        exact ⟨List.forall_mem_cons.mpr ⟨hx, hxs⟩, rfl⟩
    intro depth v h
    obtain ⟨-, -, h⟩ := bind_ok_iff.mp h
    obtain ⟨vs, hvs, h⟩ := bind_ok_iff.mp h
    cases h
    obtain ⟨hxs, rfl⟩ := elements hvs
    exact ⟨(Doc.uniqueNames_arr xs).mpr hxs, (Value.ofDoc_arr xs).symm⟩
  | obj ms ih =>
    have members : ∀ {depth vs}, Doc.eval.members (strictHooks rt text) depth ms = .ok vs →
        (∀ m ∈ ms, m.2.UniqueNames codePoints) ∧
          vs = ms.map fun m => (codePoints m.1, Value.ofDoc m.2) := by
      intro depth vs h
      induction ms generalizing vs with
      | nil => cases h; simp
      | cons m ms ihms =>
        obtain ⟨v, hv, h⟩ := bind_ok_iff.mp h
        obtain ⟨vs, hvs, h⟩ := bind_ok_iff.mp h
        cases h
        obtain ⟨hm, rfl⟩ := ih m List.mem_cons_self hv
        obtain ⟨hms, rfl⟩ := ihms (fun y hy => ih y (List.mem_cons_of_mem _ hy)) hvs
        exact ⟨List.forall_mem_cons.mpr ⟨hm, hms⟩, rfl⟩
    intro depth v h
    obtain ⟨-, -, h⟩ := bind_ok_iff.mp h
    obtain ⟨vs, hvs, h⟩ := bind_ok_iff.mp h
    obtain ⟨hms, rfl⟩ := members hvs
    have hobj : uniqueObject (ms.map fun m => (codePoints m.1, Value.ofDoc m.2)) [] = .ok v := h
    -- the members are collected only when no name is repeated
    rw [uniqueObject_eq _ nodup_keys_nil, List.nil_append] at hobj
    split at hobj
    · rename_i hnodup
      cases hobj
      rw [Dict.keys, List.map_map] at hnodup
      exact ⟨(Doc.uniqueNames_obj ms).mpr ⟨hnodup, hms⟩, (Value.ofDoc_obj ms).symm⟩
    · cases hobj

/-- With distinct names nothing but an artifact failure stands between a document and its value. -/
theorem artifact_of_eval {rt : Runtime} {text : List Char} (doc : Doc Char) :
    ∀ {depth : Nat} {e : JSONError}, doc.UniqueNames codePoints →
      doc.eval (strictHooks rt text) depth = .error e → ∃ message, e = .artifact message := by
  -- what is raised on entering an array or an object is an artifact failure
  have enter : ∀ {n : Nat} {e : JSONError}, (strictHooks rt text).enter n = .error e →
      ∃ message, e = .artifact message := by
    intro n e h
    simp only [strictHooks] at h
    split at h
    · exact ⟨_, (Except.error.inj h).symm⟩
    · cases h
  induction doc using Doc.induct with
  | null => intro depth e _ h; cases h
  | bool b => intro depth e _ h; cases h
  | num n =>
    intro depth e _ h
    simp only [Doc.eval, strictHooks, exactDecimal] at h
    split at h
    · cases h
    · exact ⟨_, (Except.error.inj h).symm⟩
  | str s => intro depth e _ h; cases h
  | arr xs ih =>
    have elements : ∀ {depth e}, (∀ x ∈ xs, x.UniqueNames codePoints) →
        Doc.eval.elements (strictHooks rt text) depth xs = .error e →
          ∃ message, e = .artifact message := by
      intro depth e hunique h
      induction xs with
      | nil => cases h
      | cons x xs ihxs =>
        obtain ⟨hx, hxs⟩ := List.forall_mem_cons.mp hunique
        rcases bind_error_iff.mp h with h | ⟨_, _, h⟩
        · exact ih x List.mem_cons_self hx h
        rcases bind_error_iff.mp h with h | ⟨_, _, h⟩
        · exact ihxs (fun y hy => @ih y (List.mem_cons_of_mem _ hy)) hxs h
        · cases h
    intro depth e hunique h
    rcases bind_error_iff.mp h with h | ⟨_, _, h⟩
    · exact enter h
    rcases bind_error_iff.mp h with h | ⟨_, _, h⟩
    · exact elements ((Doc.uniqueNames_arr xs).mp hunique) h
    · cases h
  | obj ms ih =>
    have members : ∀ {depth e}, (∀ m ∈ ms, m.2.UniqueNames codePoints) →
        Doc.eval.members (strictHooks rt text) depth ms = .error e →
          ∃ message, e = .artifact message := by
      intro depth e hunique h
      induction ms with
      | nil => cases h
      | cons m ms ihms =>
        obtain ⟨hm, hms⟩ := List.forall_mem_cons.mp hunique
        rcases bind_error_iff.mp h with h | ⟨_, _, h⟩
        · exact ih m List.mem_cons_self hm h
        rcases bind_error_iff.mp h with h | ⟨_, _, h⟩
        · exact ihms (fun y hy => @ih y (List.mem_cons_of_mem _ hy)) hms h
        · cases h
    intro depth e hunique h
    obtain ⟨hnodup, hms⟩ := (Doc.uniqueNames_obj ms).mp hunique
    rcases bind_error_iff.mp h with h | ⟨_, _, h⟩
    · exact enter h
    rcases bind_error_iff.mp h with h | ⟨vs, hvs, h⟩
    · exact members hms h
    -- the names are distinct, so collecting the members does not fail
    have hkeys : (Dict.keys vs).Nodup := by
      rw [Dict.keys, Doc.names_of_eval _ hvs]
      exact hnodup
    replace h : uniqueObject vs [] = .error e := h
    rw [uniqueObject_eq _ nodup_keys_nil, List.nil_append, if_pos hkeys] at h
    cases h

/-! ## The two classes of failure -/

/-- The normative parse profile: UTF-8 for a JSON text with distinct names after decoding and nothing
but Unicode scalar values in its strings. -/
def NormativeDocument (raw : Bytes) (doc : Doc Char) : Prop :=
  ∃ text, encode text = raw ∧ JsonText text doc ∧ doc.UniqueNames codePoints ∧
    doc.AllStrings fun s => ∀ n ∈ codePoints s, IsScalar n

/-- What the checker undertakes to judge: a limited size, and as far as the text can be read at all,
limited nesting and numbers in the exact range. -/
structure WithinGuards (rt : Runtime) (raw : Bytes) : Prop where
  size : raw.length ≤ maxJSONBytes
  readable : GuardedText maxNestingDepth (fun n => rt.exactRange n = true) 0 raw

theorem scalarStr_codePoints (s : StrLit Char) :
    ScalarStr (codePoints s) ↔ ∀ n ∈ codePoints s, IsScalar n := by
  rw [ScalarStr, List.any_eq_false]
  refine forall₂_congr fun n hn => ?_
  have hlt := codePoints_lt s n hn
  simp only [isSurrogate, IsScalar, Bool.and_eq_true, decide_eq_true_eq]
  omega

theorem scalar_ofDoc (doc : Doc Char) : (Value.ofDoc doc).AllStrs ScalarStr ↔
    doc.AllStrings fun s => ∀ n ∈ codePoints s, IsScalar n := by
  rw [Value.allStrs_ofDoc]
  simp only [scalarStr_codePoints]

theorem nesting_ofDoc_le (doc : Doc Char) : ∀ {n : Nat},
    (Value.ofDoc doc).nesting ≤ n ↔ doc.nesting ≤ n := by
  induction doc using Doc.induct with
  | null => intro n; exact Iff.rfl
  | bool b => intro n; exact Iff.rfl
  | num m => intro n; exact Iff.rfl
  | str s => intro n; exact Iff.rfl
  | arr xs ih =>
    intro n
    rw [Value.ofDoc_arr, Value.nesting_arr_le, Doc.nesting_arr_le, List.forall_mem_map]
    refine forall₂_congr fun x hx => ?_
    cases n with
    | zero => simp
    | succ n => rw [Nat.add_le_add_iff_right, Nat.add_le_add_iff_right, ih x hx]
  | obj ms ih =>
    intro n
    rw [Value.ofDoc_obj, Value.nesting_obj_le, Doc.nesting_obj_le, List.forall_mem_map]
    refine forall₂_congr fun m hm => ?_
    cases n with
    | zero => simp
    | succ n => rw [Nat.add_le_add_iff_right, Nat.add_le_add_iff_right, ih m hm]

/-- The walk passes a document that is not nested too deep and has nothing but scalar strings. -/
theorem requireUnicodeScalars_ok_iff (doc : Doc Char) :
    requireUnicodeScalars (Value.ofDoc doc) = .ok () ↔ doc.nesting ≤ maxNestingDepth ∧
      doc.AllStrings fun s => ∀ n ∈ codePoints s, IsScalar n := by
  rw [requireUnicodeScalars, scalarsLoop_ok_iff (by simp [allEntries]), List.forall_mem_singleton,
    Nat.zero_add, nesting_ofDoc_le, scalar_ofDoc]

theorem requireUnicodeScalars_error {doc : Doc Char} {e : JSONError}
    (h : requireUnicodeScalars (Value.ofDoc doc) = .error e) :
    (e = .tooDeep ∧ ¬ doc.nesting ≤ maxNestingDepth) ∨
      (e = .loneSurrogate ∧ ¬ doc.AllStrings fun s => ∀ n ∈ codePoints s, IsScalar n) := by
  rcases scalarsLoop_error h with ⟨rfl, p, hp, hdeep⟩ | ⟨rfl, p, hp, hlone⟩
  · cases List.mem_singleton.mp hp
    rw [Nat.zero_add, nesting_ofDoc_le] at hdeep
    exact .inl ⟨rfl, hdeep⟩
  · cases List.mem_singleton.mp hp
    rw [scalar_ofDoc] at hlone
    exact .inr ⟨rfl, hlone⟩

theorem strictJson_large (rt : Runtime) {raw : Bytes} (h : ¬ raw.length ≤ maxJSONBytes) :
    strictJson rt (some raw) = .error .tooLarge := by
  rw [strictJson]
  exact if_pos (by rw [List.length_take]; omega)

theorem strictJson_decoded (rt : Runtime) {raw : Bytes} (h : raw.length ≤ maxJSONBytes) :
    strictJson rt (some raw) = match decodeText? raw with
      | none => .error .notUtf8
      | some text => do
        let document ← parseText (strictHooks rt text) text
        requireUnicodeScalars document
        return document := by
  have htake : raw.take (maxJSONBytes + 1) = raw := List.take_of_length_le (Nat.le_succ_of_le h)
  simp only [strictJson, htake, if_neg (Nat.not_lt.mpr h)]

section Outcome

variable {rt : Runtime} {raw : Bytes}

/-- Within the guards, the hooks accept numbers and nesting, so the parser fails for syntax or for a
repeated name only. -/
theorem document_of_parse {text : List Char} (hlimit : maxNestingDepth < rt.recursionLimit)
    (h : WithinGuards rt (encode text)) {e : JSONError}
    (he : parseText (strictHooks rt text) text = .error e) : ∃ message, e = .document message := by
  have hnum : ∀ m, rt.exactRange m = true → ∃ v, (strictHooks rt text).num m = .ok v :=
    fun m hm => ⟨_, if_pos hm⟩
  have henter : ∀ m, m ≤ maxNestingDepth + 1 → (strictHooks rt text).enter m = .ok () :=
    fun m hm => if_neg (by omega)
  rcases parseText_fault _ hnum henter h.readable.of_encode he with rfl | ⟨ms, hms⟩
  · exact ⟨_, rfl⟩
  · replace hms : uniqueObject ms [] = .error e := hms
    rw [uniqueObject_eq _ nodup_keys_nil] at hms
    split at hms
    · cases hms
    · exact ⟨_, (Except.error.inj hms).symm⟩

/-- Where the guards let a normative document through, its value comes out. -/
theorem strictJson_ok {doc : Doc Char} (hlimit : maxNestingDepth < rt.recursionLimit)
    (hdoc : NormativeDocument raw doc) (hraw : WithinGuards rt raw) :
    strictJson rt (some raw) = .ok (Value.ofDoc doc) := by
  obtain ⟨text, rfl, htext, hnames, hscalar⟩ := hdoc
  have hguarded := (guardedText_iff (jsonText_encode.mpr ⟨doc, htext, rfl⟩)).mp hraw.readable
  rw [Doc.guardedAt_encode] at hguarded
  have hparse : parseText (strictHooks rt text) text = .ok (Value.ofDoc doc) := by
    cases hresult : parseText (strictHooks rt text) text with
    | error e =>
      -- a failure would be of both classes
      obtain ⟨_, rfl⟩ := document_of_parse hlimit hraw hresult
      rw [parseText_of_jsonText _ htext] at hresult
      obtain ⟨_, h⟩ := artifact_of_eval doc hnames hresult
      cases h
    | ok v =>
      rw [parseText_of_jsonText _ htext] at hresult
      rw [(ofDoc_of_eval doc hresult).2]
  have hwalk := (requireUnicodeScalars_ok_iff doc).mpr ⟨by have := hguarded.1; omega, hscalar⟩
  rw [strictJson_decoded rt hraw.size, decodeText?_eq_some.mpr rfl]
  simp only [hparse, bind, Except.bind, hwalk]
  rfl

/-- What is loaded is a normative document. -/
theorem normative_of_strictJson {v : Value} (hsize : raw.length ≤ maxJSONBytes)
    (h : strictJson rt (some raw) = .ok v) :
    ∃ doc, NormativeDocument raw doc ∧ v = Value.ofDoc doc := by
  rw [strictJson_decoded rt hsize] at h
  split at h
  · cases h
  · rename_i text hdecode
    obtain ⟨document, hparse, h⟩ := bind_ok_iff.mp h
    obtain ⟨_, hwalk, h⟩ := bind_ok_iff.mp h
    cases h
    obtain ⟨doc, htext, heval⟩ := jsonText_of_parseText _ hparse
    obtain ⟨hnames, rfl⟩ := ofDoc_of_eval doc heval
    have hscalar := ((requireUnicodeScalars_ok_iff doc).mp hwalk).2
    exact ⟨doc, ⟨text, decodeText?_eq_some.mp hdecode, htext, hnames, hscalar⟩, rfl⟩

/-- A normative document outside the guards is declined as an artifact. -/
theorem strictJson_artifact {doc : Doc Char} (hdoc : NormativeDocument raw doc)
    (hraw : ¬ WithinGuards rt raw) : ∃ message, strictJson rt (some raw) = .error (.artifact message) := by
  by_cases hsize : raw.length ≤ maxJSONBytes
  swap
  · exact ⟨_, strictJson_large rt hsize⟩
  obtain ⟨text, rfl, htext, hnames, hscalar⟩ := hdoc
  rw [strictJson_decoded rt hsize, decodeText?_eq_some.mpr rfl]
  simp only [parseText_of_jsonText _ htext]
  cases heval : doc.eval (strictHooks rt text) 0 with
  | error e =>
    obtain ⟨message, rfl⟩ := artifact_of_eval doc hnames heval
    exact ⟨message, rfl⟩
  | ok v =>
    obtain ⟨-, rfl⟩ := ofDoc_of_eval doc heval
    have hnumbers : doc.AllNumbers fun n => rt.exactRange n = true := by
      refine Doc.allNumbers_mono (fun n hn => ?_) (doc.allNumbers_of_eval _ heval)
      obtain ⟨v, hv⟩ := hn
      by_contra hrange
      have herror : (strictHooks rt text).num n = .error .inexactNumber := if_neg hrange
      rw [herror] at hv
      cases hv
    -- the size and the numbers are within the guards, so it is the nesting that is not
    have hdeep : ¬ doc.nesting ≤ maxNestingDepth := by
      intro hnesting
      refine hraw ⟨hsize, (guardedText_iff (jsonText_encode.mpr ⟨doc, htext, rfl⟩)).mpr ?_⟩
      exact doc.guardedAt_encode.mpr ⟨by omega, hnumbers⟩
    cases hwalk : requireUnicodeScalars (Value.ofDoc doc) with
    | ok _ => exact absurd ((requireUnicodeScalars_ok_iff doc).mp hwalk).1 hdeep
    | error e =>
      rcases requireUnicodeScalars_error hwalk with ⟨rfl, -⟩ | ⟨-, hlone⟩
      · exact ⟨_, by simp only [bind, Except.bind, hwalk]; rfl⟩
      · exact absurd hscalar hlone

/-- A normative document is loaded, or declined as an artifact. -/
theorem strictJson_normative {doc : Doc Char} (hdoc : NormativeDocument raw doc) :
    strictJson rt (some raw) = .ok (Value.ofDoc doc) ∨
      ∃ message, strictJson rt (some raw) = .error (.artifact message) := by
  by_cases hsize : raw.length ≤ maxJSONBytes
  swap
  · exact .inr ⟨_, strictJson_large rt hsize⟩
  obtain ⟨text, rfl, htext, hnames, hscalar⟩ := hdoc
  rw [strictJson_decoded rt hsize, decodeText?_eq_some.mpr rfl]
  simp only [parseText_of_jsonText _ htext]
  cases heval : doc.eval (strictHooks rt text) 0 with
  | error e =>
    obtain ⟨message, rfl⟩ := artifact_of_eval doc hnames heval
    exact .inr ⟨message, rfl⟩
  | ok v =>
    obtain ⟨-, rfl⟩ := ofDoc_of_eval doc heval
    cases hwalk : requireUnicodeScalars (Value.ofDoc doc) with
    | ok _ => exact .inl (by simp only [bind, Except.bind, hwalk]; rfl)
    | error e =>
      rcases requireUnicodeScalars_error hwalk with ⟨rfl, -⟩ | ⟨-, hlone⟩
      · exact .inr ⟨_, by simp only [bind, Except.bind, hwalk]; rfl⟩
      · exact absurd hscalar hlone

/-- A document failure is never the failure of a guard: what fails so is no normative document. -/
theorem not_normative_of_document {message : Str}
    (h : strictJson rt (some raw) = .error (.document message)) (doc : Doc Char) :
    ¬ NormativeDocument raw doc := by
  intro hdoc
  rcases strictJson_normative hdoc with hok | ⟨_, hartifact⟩
  · rw [hok] at h
    cases h
  · rw [hartifact] at h
    cases h

/-- Within the guards, whatever is no normative document fails as a document. -/
theorem strictJson_document (hlimit : maxNestingDepth < rt.recursionLimit)
    (hraw : WithinGuards rt raw) (hdoc : ∀ doc, ¬ NormativeDocument raw doc) :
    ∃ message, strictJson rt (some raw) = .error (.document message) := by
  rw [strictJson_decoded rt hraw.size]
  split
  · exact ⟨_, rfl⟩
  rename_i text hdecode
  obtain rfl := decodeText?_eq_some.mp hdecode
  cases hparse : parseText (strictHooks rt text) text with
  | error e =>
    obtain ⟨message, rfl⟩ := document_of_parse hlimit hraw hparse
    exact ⟨message, rfl⟩
  | ok v =>
    obtain ⟨doc, htext, heval⟩ := jsonText_of_parseText _ hparse
    obtain ⟨hnames, rfl⟩ := ofDoc_of_eval doc heval
    have hguarded := (guardedText_iff (jsonText_encode.mpr ⟨doc, htext, rfl⟩)).mp hraw.readable
    rw [Doc.guardedAt_encode] at hguarded
    cases hwalk : requireUnicodeScalars (Value.ofDoc doc) with
    | ok _ =>
      have hscalar := ((requireUnicodeScalars_ok_iff doc).mp hwalk).2
      exact absurd ⟨text, rfl, htext, hnames, hscalar⟩ (hdoc doc)
    | error e =>
      rcases requireUnicodeScalars_error hwalk with ⟨-, hdeep⟩ | ⟨rfl, -⟩
      · exact absurd (by have := hguarded.1; omega) hdeep
      · exact ⟨_, by simp only [bind, Except.bind, hwalk]; rfl⟩

end Outcome

/-- The classes of failure stay apart as long as the parser recurses for every document within the
nesting guard: a normative document outside the guards is an artifact failure, a text within the
guards that is no normative document is a document failure and not its subclass, and a normative
document within them is loaded with the exact value of every number. -/
theorem strictJson_outcome (rt : Runtime) (raw : Bytes) (hlimit : maxNestingDepth < rt.recursionLimit) :
    (∀ doc, NormativeDocument raw doc → ¬ WithinGuards rt raw →
      ∃ message, strictJson rt (some raw) = .error (.artifact message)) ∧
    (WithinGuards rt raw → (∀ doc, ¬ NormativeDocument raw doc) →
      ∃ message, strictJson rt (some raw) = .error (.document message)) ∧
    (∀ doc, NormativeDocument raw doc → WithinGuards rt raw →
      strictJson rt (some raw) = .ok (Value.ofDoc doc) ∧
        doc.AllNumbers fun n => (Decimal.ofNumber n).value = Decimal.literalValue n) := by
  refine ⟨fun doc => strictJson_artifact, strictJson_document hlimit, fun doc hdoc hraw => ?_⟩
  exact ⟨strictJson_ok hlimit hdoc hraw, doc.allNumbers_of_forall Decimal.value_ofNumber⟩

/-- What an encoder prints is read back. -/
theorem strictJson_print {doc : Doc Char} (hlimit : maxNestingDepth < rt.recursionLimit)
    (hprintable : doc.Printable) (hnames : doc.UniqueNames codePoints)
    (hscalar : doc.AllStrings fun s => ∀ n ∈ codePoints s, IsScalar n)
    (hsize : (encode doc.print).length ≤ maxJSONBytes)
    (hguards : doc.GuardedAt maxNestingDepth (fun n => rt.exactRange n = true) 0) :
    strictJson rt (some (encode doc.print)) = .ok (Value.ofDoc doc) := by
  have htext := jsonText_print hprintable
  refine strictJson_ok hlimit ⟨_, rfl, htext, hnames, hscalar⟩ ⟨hsize, ?_⟩
  rw [guardedText_iff (jsonText_encode.mpr ⟨doc, htext, rfl⟩), Doc.guardedAt_encode]
  exact hguards

/-- Loading keeps keys distinct and admits no surrogates. -/
theorem loaded_of_strictJson {file : Option Bytes} {v : Value} (h : strictJson rt file = .ok v) :
    v.Keyed ∧ v.AllStrs fun s => ∀ c ∈ s, IsScalar c := by
  cases file with
  | none => cases h
  | some raw =>
    by_cases hsize : raw.length ≤ maxJSONBytes
    · obtain ⟨doc, ⟨_, -, -, hnames, hscalar⟩, rfl⟩ := normative_of_strictJson hsize h
      exact ⟨Value.keyed_ofDoc hnames, (Value.allStrs_ofDoc doc).mpr hscalar⟩
    · rw [strictJson_large rt hsize] at h
      cases h

/-- A number with an exponent, read exactly. -/
theorem strictJson_outcome_sample :
    strictJson default (some (encode "1e2".toList)) = .ok (.num ⟨false, 1, 2⟩) := by
  have hone : DigitSym '1' 1 := ⟨by decide, rfl⟩
  have htwo : DigitSym '2' 2 := ⟨by decide, rfl⟩
  have hnumber : NumberLexeme (['1'] ++ ([] ++ ['e', '2'])) ⟨false, [1], [], 2⟩ :=
    .unsigned (.digits (.cons hone .nil) (by decide)) .absent (.unsigned (.inl rfl) (.cons htwo .nil))
  have htext : JsonText "1e2".toList (.num ⟨false, [1], [], 2⟩) :=
    .cons (w := []) rfl (.num hnumber) (.nil (w := []) rfl)
  have hguards : WithinGuards default (encode "1e2".toList) :=
    ⟨by decide, (guardedText_iff (jsonText_encode.mpr ⟨_, htext, rfl⟩)).mpr ⟨by decide, rfl⟩⟩
  exact ((strictJson_outcome default _ (by decide)).2.2 _ ⟨_, rfl, htext, trivial, trivial⟩ hguards).1

end FastGate.CheckContract
