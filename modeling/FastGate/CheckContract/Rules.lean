/-
# FastGate.CheckContract.Rules — the rules of JSON Schema

The meaning of a schema, for the keywords of the profile and without reference to the checker: each
keyword is a rule about the values of one kind (`Rule.Holds`), a schema node applies to the values that a
JSON pointer leads to (`At`), and an instance is valid when no rule is broken anywhere (`Valid`).

Patterns are regular expressions with a semantics of their own (`Text.Regex`), numbers are compared as
rational numbers, and values by what they mean (`Python.Data`).  Lengths are numbers of code points.

`pointer` writes a list of reference tokens as the validator does.  It is injective
(`pointer_injective`), so that two violations with the same keyword and the same text are about the same
value.
-/
import FastGate.CheckContract.SchemaIssues
import FastGate.Python.Data
import FastGate.Text.Regex

open FastGate.Python FastGate.Text

namespace FastGate.CheckContract

/-! ## The audited patterns -/

/-- The ranges of `[A-Za-z0-9]`. -/
def alphaNumericRanges : List (Nat × Nat) := [(0x41, 0x5A), (0x61, 0x7A), (0x30, 0x39)]

/-- `^[A-Za-z0-9][A-Za-z0-9._:-]*(?![\s\S])` -/
def identifierRegex : Regex :=
  Regex.anchored (.seq (.oneOf alphaNumericRanges)
    (.star (.oneOf (alphaNumericRanges ++ [(0x2E, 0x2E), (0x5F, 0x5F), (0x3A, 0x3A), (0x2D, 0x2D)]))))

/-- `^[^\u0000-\u001F\u007F-\u009F\u2028\u2029]+(?![\s\S])` -/
def controlSafeRegex : Regex :=
  Regex.anchored (.plus (.noneOf [(0x00, 0x1F), (0x7F, 0x9F), (0x2028, 0x2028), (0x2029, 0x2029)]))

/-- The regular expression of a pattern. -/
def patternRegexes : Dict Regex :=
  [(identifierPattern, identifierRegex), (controlSafePattern, controlSafeRegex)]

/-! ## Rules -/

/-- The rules a value can break. -/
inductive Rule where
  | type
  | enum
  | const
  | required
  | additionalProperties
  | minItems
  | maxItems
  | minLength
  | maxLength
  | pattern
  | minimum
  | maximum
  deriving DecidableEq, Repr

/-- The keyword of a rule. -/
def Rule.keyword : Rule → String
  | .type => "type"
  | .enum => "enum"
  | .const => "const"
  | .required => "required"
  | .additionalProperties => "additionalProperties"
  | .minItems => "minItems"
  | .maxItems => "maxItems"
  | .minLength => "minLength"
  | .maxLength => "maxLength"
  | .pattern => "pattern"
  | .minimum => "minimum"
  | .maximum => "maximum"

/-- The types of JSON Schema.  An integer is a number without a fraction, and a boolean is no number. -/
def HasType (name : String) : Value → Prop
  | .obj _ => name = "object"
  | .arr _ => name = "array"
  | .str _ => name = "string"
  | .num d => name = "number" ∨ name = "integer" ∧ ∃ z : ℤ, d.value = z
  | .bool _ => name = "boolean"
  | .null => name = "null"

/-- The value keeps the rule of the schema node.  A rule about one kind of value says nothing about
the others. -/
def Rule.Holds (node value : Value) : Rule → Prop
  | .type => ∀ name, node.get? "type" = some (.str (str name)) → HasType name value
  | .enum => ∀ items, node.get? "enum" = some (.arr items) → ∃ item ∈ items, value.data = item.data
  | .const => ∀ c, node.get? "const" = some c → value.data = c.data
  | .required => ∀ names ms, node.get? "required" = some (.arr names) → value = .obj ms →
      ∀ name, .str name ∈ names → name ∈ Dict.keys ms
  | .additionalProperties => ∀ ms, node.get? "additionalProperties" = some (.bool false) →
      value = .obj ms → ∀ name ∈ Dict.keys ms, name ∈ Dict.keys (propertiesOf node)
  | .minItems => ∀ bound xs, node.get? "minItems" = some (.num bound) → value = .arr xs →
      bound.value ≤ xs.length
  | .maxItems => ∀ bound xs, node.get? "maxItems" = some (.num bound) → value = .arr xs →
      (xs.length : ℚ) ≤ bound.value
  | .minLength => ∀ bound s, node.get? "minLength" = some (.num bound) → value = .str s →
      bound.value ≤ s.length
  | .maxLength => ∀ bound s, node.get? "maxLength" = some (.num bound) → value = .str s →
      (s.length : ℚ) ≤ bound.value
  | .pattern => ∀ p r s, node.get? "pattern" = some (.str p) → patternRegexes.get? p = some r →
      value = .str s → r.Found s
  | .minimum => ∀ bound d, node.get? "minimum" = some (.num bound) → value = .num d →
      bound.value ≤ d.value
  | .maximum => ∀ bound d, node.get? "maximum" = some (.num bound) → value = .num d →
      d.value ≤ bound.value

/-! ## Where the rules apply -/

/-- `At value node tokens v n`: the tokens lead from the value to `v`, and from the schema node to the
node `n` that applies to it. -/
inductive At : Value → Value → List Str → Value → Value → Prop
  | here {value node : Value} : At value node [] value node
  | member {ms : List (Str × Value)} {node child property v n : Value} {name : Str}
      {tokens : List Str} : (name, child) ∈ ms → (propertiesOf node).get? name = some property →
      At child property tokens v n → At (.obj ms) node (name :: tokens) v n
  | element {xs : List Value} {node item items v n : Value} {index : Nat} {tokens : List Str} :
      xs[index]? = some item → node.get? "items" = some items → At item items tokens v n →
      At (.arr xs) node (decimalText index :: tokens) v n

/-- An instance is valid when no rule is broken anywhere. -/
def Valid (value schema : Value) : Prop :=
  ∀ tokens v n, At value schema tokens v n → ∀ rule : Rule, rule.Holds n v

/-- The JSON pointer of a sequence of tokens. -/
def pointer (tokens : List Str) : Str := tokens.flatMap fun token => 0x2F :: pointerEscape token

/-- A rule that is broken at a place where it is looked at: below a value of the wrong type, and next to
one, no other rule is. -/
def Broken (value schema : Value) (tokens : List Str) (rule : Rule) : Prop :=
  ∃ v n, At value schema tokens v n ∧ ¬ rule.Holds n v ∧ (rule ≠ .type → Rule.type.Holds n v)

/-! ## Pointers -/

theorem pointerJoin_pointer (path token : Str) (tokens : List Str) :
    pointerJoin path token ++ pointer tokens = path ++ pointer (token :: tokens) := by
  rw [pointerJoin, pointer, pointer, List.flatMap_cons, List.append_assoc]

theorem pointerEscape_slash (token : Str) : 0x2F ∉ pointerEscape token := by
  rw [pointerEscape, List.mem_flatMap]
  rintro ⟨c, -, hc⟩
  split at hc
  · simp at hc
  · split at hc
    · simp at hc
    · rename_i hslash
      exact hslash (List.mem_singleton.mp hc).symm

theorem pointerEscape_injective : Function.Injective pointerEscape := by
  intro s t h
  induction s generalizing t with
  | nil =>
    cases t with
    | nil => rfl
    | cons d ds =>
      rw [pointerEscape, pointerEscape, List.flatMap_nil, List.flatMap_cons] at h
      split at h <;> [skip; split at h] <;> cases h
  | cons c cs ih =>
    cases t with
    | nil =>
      rw [pointerEscape, pointerEscape, List.flatMap_nil, List.flatMap_cons] at h
      split at h <;> [skip; split at h] <;> cases h
    | cons d ds =>
      rw [pointerEscape, pointerEscape, List.flatMap_cons, List.flatMap_cons, ← pointerEscape,
        ← pointerEscape] at h
      have hboth : c = d ∧ pointerEscape cs = pointerEscape ds := by
        by_cases hc : c = 0x7E <;> by_cases hc' : c = 0x2F <;> by_cases hd : d = 0x7E <;>
          by_cases hd' : d = 0x2F <;> simp_all
      rw [hboth.1, ih hboth.2]

/-- A pointer starts with a slash, or is empty. -/
theorem pointer_head (tokens : List Str) : pointer tokens = [] ∨ ∃ rest, pointer tokens = 0x2F :: rest := by
  cases tokens with
  | nil => exact .inl rfl
  | cons token tokens => exact .inr ⟨_, rfl⟩

/-- A text without slashes ends where the next slash stands. -/
theorem append_pointer_inj {s t : Str} (hs : 0x2F ∉ s) (ht : 0x2F ∉ t) {ps qs : List Str}
    (h : s ++ pointer ps = t ++ pointer qs) : s = t ∧ pointer ps = pointer qs := by
  induction s generalizing t with
  | nil =>
    cases t with
    | nil => exact ⟨rfl, h⟩
    | cons d ds =>
      exfalso
      rcases pointer_head ps with hnil | ⟨rest, hrest⟩
      · rw [hnil] at h; cases h
      · rw [hrest] at h
        cases h
        exact ht List.mem_cons_self
  | cons c cs ih =>
    cases t with
    | nil =>
      exfalso
      rcases pointer_head qs with hnil | ⟨rest, hrest⟩
      · rw [hnil] at h; cases h
      · rw [hrest] at h
        cases h
        exact hs List.mem_cons_self
    | cons d ds =>
      rw [List.cons_append, List.cons_append, List.cons.injEq] at h
      obtain ⟨rfl, h⟩ := h
      obtain ⟨rfl, hrest⟩ := ih (fun hmem => hs (List.mem_cons_of_mem _ hmem))
        (fun hmem => ht (List.mem_cons_of_mem _ hmem)) h
      exact ⟨rfl, hrest⟩

/-- The pointer tells the tokens. -/
theorem pointer_injective : Function.Injective pointer := by
  intro ps qs h
  induction ps generalizing qs with
  | nil =>
    cases qs with
    | nil => rfl
    | cons q qs => cases h
  | cons p ps ih =>
    cases qs with
    | nil => cases h
    | cons q qs =>
      rw [pointer, pointer, List.flatMap_cons, List.flatMap_cons, List.cons_append, List.cons_append,
        List.cons.injEq] at h
      obtain ⟨htoken, htokens⟩ :=
        append_pointer_inj (pointerEscape_slash p) (pointerEscape_slash q) h.2
      rw [pointerEscape_injective htoken, ih htokens]

theorem decimalText_injective : Function.Injective decimalText := by
  intro m n h
  have hzero : ∀ k, decimalText k = [0x30] → k = 0 := by
    intro k hk
    by_contra hne
    rw [decimalText, if_neg hne] at hk
    have hdigits : (Nat.digits 10 k).reverse = [0] :=
      List.map_injective_iff.mpr (fun _ _ => Nat.add_left_cancel) hk
    rw [List.reverse_eq_iff] at hdigits
    apply hne
    rw [← Nat.ofDigits_digits 10 k, hdigits]
    rfl
  by_cases hm : m = 0
  · subst hm
    exact (hzero n h.symm).symm
  · by_cases hn : n = 0
    · subst hn
      exact hzero m h
    · rw [decimalText, decimalText, if_neg hm, if_neg hn] at h
      have hreverse := List.map_injective_iff.mpr (fun _ _ => Nat.add_left_cancel) h
      exact Nat.digits_inj_iff.mp (List.reverse_injective hreverse)

/-- A pointer leads to one value and one node. -/
theorem At.unique {value node v n v' n' : Value} {tokens : List Str} (hkeyed : value.Keyed)
    (h : At value node tokens v n) (h' : At value node tokens v' n') : v = v' ∧ n = n' := by
  induction h with
  | here =>
    cases h' with
    | here => exact ⟨rfl, rfl⟩
  | member hmem hproperty _ ih =>
    cases h' with
    | member hmem' hproperty' hat =>
      obtain ⟨hnodup, hmembers⟩ := (Value.keyed_obj _).mp hkeyed
      have hchild := (Dict.get?_of_mem hnodup hmem).symm.trans (Dict.get?_of_mem hnodup hmem')
      cases hchild
      cases hproperty.symm.trans hproperty'
      exact ih (hmembers _ hmem) hat
  | @element xs node item items v n index tokens hitem hitems _ ih =>
    generalize hindex : decimalText index = token at h'
    cases h' with
    | element hitem' hitems' hat =>
      cases decimalText_injective hindex
      cases hitem.symm.trans hitem'
      cases hitems.symm.trans hitems'
      exact ih ((Value.keyed_arr _).mp hkeyed _ (List.mem_of_getElem? hitem)) hat

end FastGate.CheckContract
