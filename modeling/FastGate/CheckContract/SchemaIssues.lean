/-
# FastGate.CheckContract.SchemaIssues — the schema profile

`schema_issues` checks that a schema keeps to the closed profile the rest of the checker relies on.
It collects at most 50 messages; `schemaIssues_nil_iff` says what an empty list means: `Profile`, a
condition on every schema node and on what it must not combine.

The checks of a node are small functions from the list of issues to the list of issues, one for each
group of messages of the source, in its order.  What they read of a node (`propertiesOf`, `requiredOf`,
`schemaTypeOf`) is empty where the source replaces a value of the wrong type.

Each check has a lemma `reports_…` that says when it adds nothing, in the form of `Reports`: as long as
there is room in the list, nothing is added exactly if the condition holds.  `reports_walkSchema` puts
them together by induction on the nesting limit, and a run that starts with the empty list has room for
its first issue, which is all that the main result needs.

That none of these reads can raise in Python is shown in `CheckContract.Raising`.
-/
import FastGate.CheckContract.Validate
import FastGate.Python.Runtime
import Mathlib.Data.List.Lex
import Mathlib.Data.List.Sort

open FastGate.Python

namespace FastGate.CheckContract

/-- `SCHEMA_URI`, the dialect that every root declares. -/
def schemaUri : String := "https://json-schema.org/draft/2020-12/schema"

/-- `MAX_NESTING_DEPTH`, for documents and for schemas. -/
def maxNestingDepth : Nat := 128

/-- `MAX_ENUM_ITEMS`, which keeps the pairwise comparison of an enumeration small. -/
def maxEnumItems : Nat := 64

/-- `MAX_ERRORS`, the number of issues and of contract errors that are kept. -/
def maxErrors : Nat := 50

/-- `MAX_PATH_LENGTH`, for the path in an issue and for paths in the manifest. -/
def maxPathLength : Nat := 240

/-- `SUPPORTED_KEYWORDS`: the closed profile, whatever the node. -/
def supportedKeywords : List String :=
  ["$schema", "$id", "title", "description", "type", "properties", "required",
    "additionalProperties", "items", "minItems", "maxItems", "minLength", "maxLength",
    "minimum", "maximum", "enum", "const", "pattern"]

/-- `JSON_TYPES` -/
def jsonTypes : List String := ["object", "array", "string", "integer", "number", "boolean", "null"]

/-- Keywords, the types they belong to, and the name of the group. -/
def keywordGroups : List (List String × List String × String) :=
  [(["properties", "required", "additionalProperties"], ["object"], "object"),
    (["items", "minItems", "maxItems"], ["array"], "array"),
    (["minLength", "maxLength", "pattern"], ["string"], "string"),
    (["minimum", "maximum"], ["integer", "number"], "numeric")]

/-! ## Single checks -/

section Checks

variable (rt : Runtime)

/-- `add` inside `schema_issues`. -/
def addIssue (issues : List Str) (path message : Str) : List Str :=
  let boundedPath :=
    if path.length > maxPathLength then path.take (maxPathLength - 3) ++ str "..." else path
  addCapped maxErrors issues ((str "at " ++ rt.repr boundedPath ++ str ": " ++ message).take 500)

/-- `if condition: add(path, message)` -/
def issueIf (condition : Bool) (path message : Str) (issues : List Str) : List Str :=
  if condition then addIssue rt issues path message else issues

/-- `natural(node.get(keyword))`: an integral number, written however it is, that is not negative. -/
def natural : Option Value → Bool
  | some (.num d) => d.isIntegral && !d.ltValue (.ofNat 0)
  | _ => false

/-- `number(node.get(keyword))`; what is loaded has no other numbers than finite decimals. -/
def isNumber : Option Value → Bool
  | some (.num _) => true
  | _ => false

/-- `a > b` for two values that are known to be numbers. -/
def exceeds : Option Value → Option Value → Bool
  | some (.num a), some (.num b) => b.ltValue a
  | _, _ => false

/-- `isinstance(node.get(keyword), str)` -/
def isString : Option Value → Bool
  | some (.str _) => true
  | _ => false

/-- `node.get("type") == name` -/
def typeIs (node : Value) (name : String) : Bool :=
  match node.get? "type" with
  | some t => t.eqStr name
  | none => false

/-- `isinstance(schema_type, str) and schema_type in JSON_TYPES` -/
def validType (node : Value) : Bool := jsonTypes.any fun name => typeIs node name

/-- The keys that are no keywords, in sorted order. -/
def unsupportedKeywords (node : Value) : List Str :=
  List.insertionSort (· ≤ ·) (node.dict.keys.filter fun key => !(supportedKeywords.map str).contains key)

/-- Keywords outside the profile, one issue for each. -/
def checkKeywords (node : Value) (path : Str) (issues : List Str) : List Str :=
  (unsupportedKeywords node).foldl
    (fun issues key => addIssue rt issues path (str "unsupported keyword " ++ rt.repr key)) issues

/-- `$schema` and `$id`, which the root must have and no other node may. -/
def checkIdentity (root : Bool) (node : Value) (path : Str) (issues : List Str) : List Str :=
  if root then
    let issues := issueIf rt (!((node.get? "$schema").any fun v => v.eqStr schemaUri)) path
      (str "$schema must be " ++ rt.repr (str schemaUri)) issues
    issueIf rt (!((node.get? "$id").any fun v => v matches .str (_ :: _))) path
      (str "$id must be a non-empty string") issues
  else
    issueIf rt (node.has "$schema" || node.has "$id") path
      (str "$schema and $id are root-only in this profile") issues

/-- `title` and `description` -/
def checkAnnotations (node : Value) (path : Str) (issues : List Str) : List Str :=
  ["title", "description"].foldl
    (fun issues keyword => issueIf rt (node.has keyword && !isString (node.get? keyword)) path
      (str (keyword ++ " must be a string")) issues) issues

/-- Keywords that do not go with the type of the node, one issue for each group. -/
def checkGroups (node : Value) (path : Str) (issues : List Str) : List Str :=
  keywordGroups.foldl
    (fun issues group =>
      issueIf rt ((group.1.any fun keyword => node.has keyword) &&
          !(group.2.1.any fun name => typeIs node name)) path
        (str (group.2.2 ++ " keywords do not match type")) issues) issues

/-- `bounds` inside `schema_issues`. -/
def checkLimits (low high : String) (node : Value) (path : Str) (issues : List Str) : List Str :=
  let issues := [low, high].foldl
    (fun issues keyword => issueIf rt (node.has keyword && !natural (node.get? keyword)) path
      (str (keyword ++ " must be a non-negative integer")) issues) issues
  issueIf rt (natural (node.get? low) && natural (node.get? high) &&
      exceeds (node.get? low) (node.get? high)) path
    (str (low ++ " must not exceed " ++ high)) issues

/-- `properties`, or no entries when it is no dictionary. -/
def propertiesOf (node : Value) : Dict Value :=
  match node.get? "properties" with
  | some (.obj properties) => properties
  | _ => []

/-- A list of strings. -/
def stringItems : List Value → Option (List Str)
  | [] => some []
  | .str s :: xs => (stringItems xs).map (s :: ·)
  | _ :: _ => none

/-- `required` as a list of strings. -/
def requiredOf (node : Value) : Option (List Str) :=
  match node.get? "required" with
  | some (.arr items) => stringItems items
  | _ => none

/-- The checks of an object schema before its properties are walked. -/
def checkObject (node : Value) (path : Str) (issues : List Str) : List Str :=
  let issues := issueIf rt (!((node.get? "properties").any fun v => v matches .obj _)) path
    (str "object schemas require a properties object") issues
  let issues :=
    match requiredOf node with
    | none => addIssue rt issues path (str "object schemas require a required string array")
    | some required => issueIf rt (!decide required.Nodup) path (str "required entries must be unique") issues
  issueIf rt (!((node.get? "additionalProperties").any fun v => v matches .bool false)) path
    (str "object schemas require additionalProperties to be false") issues

/-- The check of an object schema after its properties. -/
def checkRequiredNames (node : Value) (path : Str) (issues : List Str) : List Str :=
  issueIf rt (((requiredOf node).getD []).any fun name => !(propertiesOf node).has name) path
    (str "every required entry must name a property") issues

/-- `pattern`, which must be one of the audited texts. -/
def checkPatternKeyword (node : Value) (path : Str) (issues : List Str) : List Str :=
  match node.get? "pattern" with
  | none => issues
  | some (.str pattern) =>
    issueIf rt (!auditedPatternMatchers.has pattern) path
      (str "pattern must be an audited language-neutral expression") issues
  | some _ => addIssue rt issues path (str "pattern must be a string")

/-- `minimum` and `maximum` -/
def checkRange (node : Value) (path : Str) (issues : List Str) : List Str :=
  let issues := ["minimum", "maximum"].foldl
    (fun issues keyword => issueIf rt (node.has keyword && !isNumber (node.get? keyword)) path
      (str (keyword ++ " must be a finite number")) issues) issues
  issueIf rt (exceeds (node.get? "minimum") (node.get? "maximum")) path
    (str "minimum must not exceed maximum") issues

/-- Two entries of the list are equal. -/
def hasEqualPair : List Value → Bool
  | [] => false
  | a :: items => (items.any fun b => jsonEqual a b) || hasEqualPair items

/-- `node.get("type")` -/
def schemaTypeOf (node : Value) : Value := (node.get? "type").getD .null

/-- `enum`, of which the first fault only is reported. -/
def checkEnumKeyword (node : Value) (path : Str) (issues : List Str) : List Str :=
  match node.get? "enum" with
  | none => issues
  | some (.arr (first :: rest)) =>
    if (first :: rest).length > maxEnumItems then
      addIssue rt issues path (str s!"enum must contain at most {maxEnumItems} entries")
    else if hasEqualPair (first :: rest) then
      addIssue rt issues path (str "enum entries must be unique")
    else
      issueIf rt (validType node && (first :: rest).any fun item => !matchesType item (schemaTypeOf node))
        path (str "enum entries must match type") issues
  | some _ => addIssue rt issues path (str "enum must be a non-empty array")

/-- `const`, and `const` beside `enum`. -/
def checkConstKeyword (node : Value) (path : Str) (issues : List Str) : List Str :=
  let issues := issueIf rt (validType node && (node.get? "const").any fun v =>
      !matchesType v (schemaTypeOf node)) path (str "const must match type") issues
  issueIf rt (node.has "enum" && node.has "const") path
    (str "enum and const must not be combined in this profile") issues

/-! ## The walk -/

/-- `walk` inside `schema_issues`; the first argument counts down from the nesting limit. -/
def walkSchema : Nat → Bool → Value → Str → List Str → List Str
  | 0, _, _, path, issues => addIssue rt issues path (str "schema exceeds the checker nesting limit")
  | remaining + 1, root, node, path, issues =>
    match node with
    | .obj _ =>
      let issues := checkKeywords rt node path issues
      let issues := checkIdentity rt root node path issues
      let issues := checkAnnotations rt node path issues
      let issues := issueIf rt (!validType node) path
        (str "type must be one supported JSON type string") issues
      let issues := checkGroups rt node path issues
      let issues :=
        if typeIs node "object" then
          let issues := checkObject rt node path issues
          let issues := (propertiesOf node).foldl
            (fun issues entry => walkSchema remaining false entry.2 (pointerJoin path entry.1) issues) issues
          checkRequiredNames rt node path issues
        else if typeIs node "array" then
          let issues :=
            match node.get? "items" with
            | none => addIssue rt issues path (str "array schemas require items")
            | some items => walkSchema remaining false items (pointerJoin path (str "items")) issues
          checkLimits rt "minItems" "maxItems" node path issues
        else if typeIs node "string" then
          let issues := checkLimits rt "minLength" "maxLength" node path issues
          checkPatternKeyword rt node path issues
        else if typeIs node "integer" || typeIs node "number" then checkRange rt node path issues
        else issues
      let issues := checkEnumKeyword rt node path issues
      checkConstKeyword rt node path issues
    | _ => addIssue rt issues path (str "a schema node must be an object")

/-- `schema_issues`: what keeps a schema out of the profile, at most fifty issues. -/
def schemaIssues (schema : Value) : List Str := walkSchema rt (maxNestingDepth + 1) true schema [] []

end Checks


/-! ## The profile -/

/-- A lower and an upper bound that are natural numbers in order, where present. -/
structure LimitsOk (low high : String) (node : Value) : Prop where
  naturals : ∀ keyword ∈ [low, high], node.has keyword = true → natural (node.get? keyword) = true
  ordered : natural (node.get? low) = true → natural (node.get? high) = true →
    exceeds (node.get? low) (node.get? high) = false

/-- The identity keywords: both at the root, neither below it. -/
def IdentityOk (root : Bool) (node : Value) : Prop :=
  if root then node.get? "$schema" = some (.str (str schemaUri)) ∧
    ∃ c cs, node.get? "$id" = some (.str (c :: cs))
  else node.has "$schema" = false ∧ node.has "$id" = false

/-- An object schema names its properties, requires some of them and allows no others. -/
structure ObjectOk (node : Value) : Prop where
  properties : ∃ properties, node.get? "properties" = some (.obj properties)
  required : ∃ required, requiredOf node = some required ∧ required.Nodup ∧
    ∀ name ∈ required, (propertiesOf node).has name = true
  closed : node.get? "additionalProperties" = some (.bool false)

/-- An enumeration is a short list of distinct values of the node's type, where it has one. -/
structure EnumOk (node : Value) (items : List Value) : Prop where
  nonempty : items ≠ []
  length_le : items.length ≤ maxEnumItems
  distinct : hasEqualPair items = false
  typed : validType node = true → ∀ item ∈ items, matchesType item (schemaTypeOf node) = true

/-- What the profile asks of one node, its subschemas apart. -/
structure NodeOk (root : Bool) (node : Value) : Prop where
  object : ∃ ms, node = .obj ms
  keywords : ∀ key ∈ node.dict.keys, key ∈ supportedKeywords.map str
  identity : IdentityOk root node
  annotations : ∀ keyword ∈ ["title", "description"], node.has keyword = true →
    isString (node.get? keyword) = true
  type : validType node = true
  groups : ∀ group ∈ keywordGroups, (∃ keyword ∈ group.1, node.has keyword = true) →
    ∃ name ∈ group.2.1, typeIs node name = true
  objectKind : typeIs node "object" = true → ObjectOk node
  arrayKind : typeIs node "array" = true →
    (∃ items, node.get? "items" = some items) ∧ LimitsOk "minItems" "maxItems" node
  stringKind : typeIs node "string" = true → LimitsOk "minLength" "maxLength" node ∧
    ∀ v, node.get? "pattern" = some v → ∃ p, v = .str p ∧ auditedPatternMatchers.has p = true
  numericKind : typeIs node "integer" = true ∨ typeIs node "number" = true →
    (∀ keyword ∈ ["minimum", "maximum"], node.has keyword = true →
      isNumber (node.get? keyword) = true) ∧
    exceeds (node.get? "minimum") (node.get? "maximum") = false
  enum : ∀ v, node.get? "enum" = some v → ∃ items, v = .arr items ∧ EnumOk node items
  const : validType node = true →
    ∀ v, node.get? "const" = some v → matchesType v (schemaTypeOf node) = true
  exclusive : ¬ (node.has "enum" = true ∧ node.has "const" = true)

/-- The subschemas of a node. -/
def subschemas (node : Value) : List Value :=
  if typeIs node "object" then (propertiesOf node).map (·.2)
  else if typeIs node "array" then (node.get? "items").toList
  else []

/-- A schema of the closed profile, with at most `remaining` levels of nodes. -/
def Profile : Nat → Bool → Value → Prop
  | 0, _, _ => False
  | remaining + 1, root, node =>
    NodeOk root node ∧ ∀ child ∈ subschemas node, Profile remaining false child

/-! ## What the checks report -/

section Reports

variable (rt : Runtime) {node : Value} {path : Str} {issues : List Str}

theorem reports_issueIf (condition : Bool) (message : Str) :
    Reports maxErrors issues (issueIf rt condition path message issues) (condition = false) := by
  cases condition with
  | true => exact Reports.fail (by simp) _
  | false => exact Reports.pass rfl

theorem reports_addIssue {P : Prop} (hP : ¬ P) (message : Str) :
    Reports maxErrors issues (addIssue rt issues path message) P := Reports.fail hP _

theorem reports_keywords : Reports maxErrors issues (checkKeywords rt node path issues)
    (∀ key ∈ node.dict.keys, key ∈ supportedKeywords.map str) := by
  have hloop : Reports maxErrors issues (checkKeywords rt node path issues)
      (∀ key ∈ unsupportedKeywords node, False) :=
    Reports.foldl (fun key _ log => reports_addIssue rt not_false _) issues
  refine hloop.congr ?_
  have hmem : ∀ key, key ∈ unsupportedKeywords node ↔
      key ∈ node.dict.keys ∧ key ∉ supportedKeywords.map str := by
    intro key
    rw [unsupportedKeywords, List.mem_insertionSort, List.mem_filter, Bool.not_eq_true',
      ← Bool.not_eq_true, List.contains_iff_mem]
  simp only [hmem]
  exact ⟨fun h key hkey => not_not.mp fun hno => h key ⟨hkey, hno⟩, fun h key hkey => hkey.2 (h key hkey.1)⟩

theorem reports_identity (root : Bool) : Reports maxErrors issues
    (checkIdentity rt root node path issues) (IdentityOk root node) := by
  cases root with
  | true =>
    refine ((reports_issueIf rt _ _).trans (reports_issueIf rt _ _)).congr ?_
    rw [IdentityOk, if_pos rfl, Bool.not_eq_false', Bool.not_eq_false', Option.any_eq_true,
      Option.any_eq_true]
    refine and_congr ?_ ?_
    · simp only [Value.eqStr_iff]
      exact ⟨fun ⟨v, hv, heq⟩ => heq ▸ hv, fun h => ⟨_, h, rfl⟩⟩
    · constructor
      · rintro ⟨v, hv, hmatch⟩
        split at hmatch
        · exact ⟨_, _, hv⟩
        · cases hmatch
      · rintro ⟨c, cs, hid⟩
        exact ⟨_, hid, rfl⟩
  | false =>
    refine (reports_issueIf rt _ _).congr ?_
    rw [IdentityOk, Bool.or_eq_false_iff]
    exact Iff.rfl

/-- A check that is made for every keyword of a list. -/
theorem reports_eachKeyword (keywords : List String) (check : Option Value → Bool)
    (message : String → Str) :
    Reports maxErrors issues (keywords.foldl (fun issues keyword =>
      issueIf rt (node.has keyword && !check (node.get? keyword)) path (message keyword) issues) issues)
      (∀ keyword ∈ keywords, node.has keyword = true → check (node.get? keyword) = true) := by
  have hloop : Reports maxErrors issues (keywords.foldl (fun issues keyword =>
      issueIf rt (node.has keyword && !check (node.get? keyword)) path (message keyword) issues) issues)
      (∀ keyword ∈ keywords, (node.has keyword && !check (node.get? keyword)) = false) := by
    refine Reports.foldl ?_ issues
    exact fun keyword _ log => reports_issueIf rt _ _
  refine hloop.congr ?_
  simp only [Bool.and_eq_false_imp, Bool.not_eq_false']

theorem reports_groups : Reports maxErrors issues (checkGroups rt node path issues)
    (∀ group ∈ keywordGroups, (∃ keyword ∈ group.1, node.has keyword = true) →
      ∃ name ∈ group.2.1, typeIs node name = true) := by
  have hloop : Reports maxErrors issues (checkGroups rt node path issues)
      (∀ group ∈ keywordGroups, ((group.1.any fun keyword => node.has keyword) &&
        !(group.2.1.any fun name => typeIs node name)) = false) := by
    refine Reports.foldl ?_ issues
    exact fun group _ log => reports_issueIf rt _ _
  refine hloop.congr ?_
  simp only [Bool.and_eq_false_imp, Bool.not_eq_false', List.any_eq_true]

theorem reports_limits (low high : String) : Reports maxErrors issues
    (checkLimits rt low high node path issues) (LimitsOk low high node) := by
  refine ((reports_eachKeyword rt [low, high] natural _).trans (reports_issueIf rt _ _)).congr ?_
  constructor
  · rintro ⟨hnat, hord⟩
    exact ⟨hnat, fun hl hh => by simpa [hl, hh] using hord⟩
  · rintro ⟨hnat, hord⟩
    refine ⟨hnat, ?_⟩
    cases hl : natural (node.get? low) with
    | false => rfl
    | true =>
      cases hh : natural (node.get? high) with
      | false => rfl
      | true => exact hord hl hh

theorem reports_object : Reports maxErrors issues (checkObject rt node path issues)
    (((∃ properties, node.get? "properties" = some (.obj properties)) ∧
      (∃ required, requiredOf node = some required ∧ required.Nodup)) ∧
      node.get? "additionalProperties" = some (.bool false)) := by
  have hproperties : ∀ log, Reports maxErrors log (issueIf rt
      (!((node.get? "properties").any fun v => v matches .obj _)) path
      (str "object schemas require a properties object") log)
      (∃ properties, node.get? "properties" = some (.obj properties)) := by
    refine fun log => (reports_issueIf rt _ _).congr ?_
    rw [Bool.not_eq_false', Option.any_eq_true]
    constructor
    · rintro ⟨v, hv, hmatch⟩
      split at hmatch
      · exact ⟨_, hv⟩
      · cases hmatch
    · rintro ⟨properties, hproperties⟩
      exact ⟨_, hproperties, rfl⟩
  have hrequired : ∀ log, Reports maxErrors log
      (match requiredOf node with
        | none => addIssue rt log path (str "object schemas require a required string array")
        | some required =>
          issueIf rt (!decide required.Nodup) path (str "required entries must be unique") log)
      (∃ required, requiredOf node = some required ∧ required.Nodup) := by
    intro log
    cases requiredOf node with
    | none => exact reports_addIssue rt (by simp) _
    | some required =>
      refine (reports_issueIf rt _ _).congr ?_
      rw [Bool.not_eq_false', decide_eq_true_eq]
      simp
  have hclosed : ∀ log, Reports maxErrors log (issueIf rt
      (!((node.get? "additionalProperties").any fun v => v matches .bool false)) path
      (str "object schemas require additionalProperties to be false") log)
      (node.get? "additionalProperties" = some (.bool false)) := by
    refine fun log => (reports_issueIf rt _ _).congr ?_
    rw [Bool.not_eq_false', Option.any_eq_true]
    constructor
    · rintro ⟨v, hv, hmatch⟩
      split at hmatch
      · exact hv
      · cases hmatch
    · intro hclosed
      exact ⟨_, hclosed, rfl⟩
  exact ((hproperties _).trans (hrequired _)).trans (hclosed _)

theorem reports_requiredNames : Reports maxErrors issues (checkRequiredNames rt node path issues)
    (∀ required, requiredOf node = some required →
      ∀ name ∈ required, (propertiesOf node).has name = true) := by
  refine (reports_issueIf rt _ _).congr ?_
  cases requiredOf node with
  | none => simp
  | some required => simp

theorem reports_pattern : Reports maxErrors issues (checkPatternKeyword rt node path issues)
    (∀ v, node.get? "pattern" = some v →
      ∃ p, v = .str p ∧ auditedPatternMatchers.has p = true) := by
  rw [checkPatternKeyword]
  split
  · rename_i hnone
    exact Reports.pass fun v hv => by rw [hnone] at hv; cases hv
  · rename_i p hp
    refine (reports_issueIf rt _ _).congr ?_
    rw [hp, Bool.not_eq_false']
    constructor
    · intro haudited v hv
      exact ⟨p, (Option.some.inj hv).symm, haudited⟩
    · intro h
      obtain ⟨p', hp', haudited⟩ := h _ rfl
      rw [Value.str.injEq] at hp'
      rwa [hp']
  · rename_i v hno hv
    refine reports_addIssue rt (fun h => ?_) _
    obtain ⟨p, rfl, -⟩ := h v hv
    exact hno p rfl

theorem reports_range : Reports maxErrors issues (checkRange rt node path issues)
    ((∀ keyword ∈ ["minimum", "maximum"], node.has keyword = true →
      isNumber (node.get? keyword) = true) ∧
      exceeds (node.get? "minimum") (node.get? "maximum") = false) :=
  (reports_eachKeyword rt ["minimum", "maximum"] isNumber _).trans (reports_issueIf rt _ _)

theorem reports_enum : Reports maxErrors issues (checkEnumKeyword rt node path issues)
    (∀ v, node.get? "enum" = some v → ∃ items, v = .arr items ∧ EnumOk node items) := by
  -- the keyword has one value
  have hone : ∀ {v : Value}, node.get? "enum" = some v →
      ((∀ v, node.get? "enum" = some v → ∃ items, v = .arr items ∧ EnumOk node items) ↔
        ∃ items, v = .arr items ∧ EnumOk node items) := by
    intro v hv
    rw [hv]
    exact ⟨fun h => h v rfl, fun h w hw => Option.some.inj hw ▸ h⟩
  rw [checkEnumKeyword]
  split
  · rename_i hnone
    exact Reports.pass fun v hv => by rw [hnone] at hv; cases hv
  · rename_i first rest henum
    rw [hone henum]
    split
    · rename_i hlong
      refine reports_addIssue rt ?_ _
      rintro ⟨items, hitems, hok⟩
      cases hitems
      exact absurd hok.length_le (Nat.not_le.mpr hlong)
    split
    · rename_i hpair
      refine reports_addIssue rt ?_ _
      rintro ⟨items, hitems, hok⟩
      cases hitems
      rw [hok.distinct] at hpair
      cases hpair
    · rename_i hlong hpair
      refine (reports_issueIf rt _ _).congr ?_
      rw [Bool.and_eq_false_imp, ← Bool.not_eq_true]
      simp only [List.any_eq_true, Bool.not_eq_true', not_exists, not_and, Bool.not_eq_false]
      constructor
      · intro htyped
        exact ⟨_, rfl, List.cons_ne_nil _ _, Nat.not_lt.mp hlong, Bool.not_eq_true _ ▸ hpair, htyped⟩
      · rintro ⟨items, hitems, hok⟩
        cases hitems
        exact hok.typed
  · rename_i v hnone henum hv
    rw [hone hv]
    refine reports_addIssue rt ?_ _
    rintro ⟨items, rfl, hok⟩
    cases items with
    | nil => exact hok.nonempty rfl
    | cons first rest => exact henum first rest rfl

theorem reports_const : Reports maxErrors issues (checkConstKeyword rt node path issues)
    ((validType node = true →
      ∀ v, node.get? "const" = some v → matchesType v (schemaTypeOf node) = true) ∧
      ¬ (node.has "enum" = true ∧ node.has "const" = true)) := by
  refine ((reports_issueIf rt _ _).trans (reports_issueIf rt _ _)).congr ?_
  refine and_congr ?_ ?_
  · rw [Bool.and_eq_false_imp, ← Bool.not_eq_true]
    simp only [Option.any_eq_true, Bool.not_eq_true', not_exists, not_and, Bool.not_eq_false]
  · rw [← Bool.not_eq_true, Bool.and_eq_true]

theorem typeIs_iff {name : String} :
    typeIs node name = true ↔ node.get? "type" = some (.str (str name)) := by
  rw [typeIs]
  cases node.get? "type" with
  | none => simp
  | some t => simp [Value.eqStr_iff]

/-- A node has one type. -/
theorem typeIs_other {name : String} (h : typeIs node name = true) (other : String)
    (hne : name ≠ other) :
    typeIs node other = false := by
  rw [typeIs_iff] at h
  rw [typeIs, h]
  dsimp only
  rw [Value.eqStr_str, decide_eq_false hne]

/-- What the checks between the keyword groups and the enumeration ask, by the type of the node. -/
def KindOk (remaining : Nat) (node : Value) : Prop :=
  (typeIs node "object" = true → ObjectOk node) ∧
    (typeIs node "array" = true →
      (∃ items, node.get? "items" = some items) ∧ LimitsOk "minItems" "maxItems" node) ∧
    (typeIs node "string" = true → LimitsOk "minLength" "maxLength" node ∧
      ∀ v, node.get? "pattern" = some v → ∃ p, v = .str p ∧ auditedPatternMatchers.has p = true) ∧
    (typeIs node "integer" = true ∨ typeIs node "number" = true →
      (∀ keyword ∈ ["minimum", "maximum"], node.has keyword = true →
        isNumber (node.get? keyword) = true) ∧
      exceeds (node.get? "minimum") (node.get? "maximum") = false) ∧
    ∀ child ∈ subschemas node, Profile remaining false child

theorem objectOk_iff : ObjectOk node ↔
    ((((∃ properties, node.get? "properties" = some (.obj properties)) ∧
      (∃ required, requiredOf node = some required ∧ required.Nodup)) ∧
      node.get? "additionalProperties" = some (.bool false)) ∧
      ∀ required, requiredOf node = some required →
        ∀ name ∈ required, (propertiesOf node).has name = true) := by
  constructor
  · rintro ⟨hproperties, ⟨required, hrequired, hnodup, hnames⟩, hclosed⟩
    refine ⟨⟨⟨hproperties, required, hrequired, hnodup⟩, hclosed⟩, fun other hother => ?_⟩
    rw [hrequired] at hother
    exact Option.some.inj hother ▸ hnames
  · rintro ⟨⟨⟨hproperties, required, hrequired, hnodup⟩, hclosed⟩, hnames⟩
    exact ⟨hproperties, ⟨required, hrequired, hnodup, hnames required hrequired⟩, hclosed⟩

/-- The part of the walk that depends on the type of the node. -/
theorem reports_kind {remaining : Nat}
    (ih : ∀ {root : Bool} {node : Value} {path : Str} {issues : List Str},
      Reports maxErrors issues (walkSchema rt remaining root node path issues)
        (Profile remaining root node)) :
    Reports maxErrors issues
      (if typeIs node "object" then
        checkRequiredNames rt node path ((propertiesOf node).foldl
          (fun issues entry => walkSchema rt remaining false entry.2 (pointerJoin path entry.1) issues)
          (checkObject rt node path issues))
      else if typeIs node "array" then
        checkLimits rt "minItems" "maxItems" node path
          (match node.get? "items" with
            | none => addIssue rt issues path (str "array schemas require items")
            | some items => walkSchema rt remaining false items (pointerJoin path (str "items")) issues)
      else if typeIs node "string" then
        checkPatternKeyword rt node path (checkLimits rt "minLength" "maxLength" node path issues)
      else if typeIs node "integer" || typeIs node "number" then checkRange rt node path issues
      else issues)
      (KindOk remaining node) := by
  split
  · -- objects: their own checks, the properties in turn, and then the names of `required`
    rename_i hobject
    have hloop : ∀ log, Reports maxErrors log ((propertiesOf node).foldl
        (fun issues entry => walkSchema rt remaining false entry.2 (pointerJoin path entry.1) issues) log)
        (∀ entry ∈ propertiesOf node, Profile remaining false entry.2) := by
      intro log
      refine Reports.foldl ?_ log
      exact fun entry _ log => ih
    refine (((reports_object rt).trans (hloop _)).trans (reports_requiredNames rt)).congr ?_
    have harray := typeIs_other hobject "array" (by decide)
    have hstring := typeIs_other hobject "string" (by decide)
    have hinteger := typeIs_other hobject "integer" (by decide)
    have hnumber := typeIs_other hobject "number" (by decide)
    simp only [KindOk, objectOk_iff, subschemas, hobject, harray, hstring, hinteger, hnumber, if_true,
      List.forall_mem_map, Bool.false_eq_true, false_implies, or_self, true_and, true_implies]
    rw [and_right_comm]
  split
  · -- arrays: the schema of the items, if there is one, and then the limits
    rename_i hobject harray
    have hitems : Reports maxErrors issues
        (match node.get? "items" with
          | none => addIssue rt issues path (str "array schemas require items")
          | some items => walkSchema rt remaining false items (pointerJoin path (str "items")) issues)
        ((∃ items, node.get? "items" = some items) ∧
          ∀ child ∈ (node.get? "items").toList, Profile remaining false child) := by
      cases node.get? "items" with
      | none => exact reports_addIssue rt (by simp) _
      | some items => exact ih.congr (by simp)
    refine (hitems.trans (reports_limits rt "minItems" "maxItems")).congr ?_
    have hstring := typeIs_other harray "string" (by decide)
    have hinteger := typeIs_other harray "integer" (by decide)
    have hnumber := typeIs_other harray "number" (by decide)
    simp only [KindOk, subschemas, hobject, harray, hstring, hinteger, hnumber, if_true, if_false,
      Bool.false_eq_true, false_implies, or_self, true_and, true_implies]
    rw [and_right_comm]
  rename_i hobject harray
  -- no other kind has a schema inside
  have hchildren : subschemas node = [] := by rw [subschemas, if_neg hobject, if_neg harray]
  rw [Bool.not_eq_true] at hobject harray
  split
  · rename_i hstring
    refine ((reports_limits rt "minLength" "maxLength").trans (reports_pattern rt)).congr ?_
    have hinteger := typeIs_other hstring "integer" (by decide)
    have hnumber := typeIs_other hstring "number" (by decide)
    simp only [KindOk, hchildren, hobject, harray, hstring, hinteger, hnumber, List.not_mem_nil,
      Bool.false_eq_true, false_implies, implies_true, or_self, true_and, true_implies, and_true]
  rename_i hstring
  rw [Bool.not_eq_true] at hstring
  split
  · rename_i hnumeric
    rw [Bool.or_eq_true] at hnumeric
    refine (reports_range rt).congr ?_
    simp only [KindOk, hchildren, hobject, harray, hstring, hnumeric, List.not_mem_nil,
      Bool.false_eq_true, false_implies, implies_true, true_and, true_implies, and_true]
  · rename_i hnumeric
    rw [Bool.or_eq_true] at hnumeric
    refine Reports.pass ?_
    simp only [KindOk, hchildren, hobject, harray, hstring, hnumeric, List.not_mem_nil,
      Bool.false_eq_true, false_implies, implies_true, and_self]

theorem reports_walkSchema (remaining : Nat) : ∀ {root : Bool} {node : Value} {path : Str}
    {issues : List Str}, Reports maxErrors issues (walkSchema rt remaining root node path issues)
      (Profile remaining root node) := by
  induction remaining with
  | zero => exact reports_addIssue rt not_false _
  | succ remaining ih =>
    intro root node path issues
    cases node with
    | obj ms =>
      refine Reports.congr ?_ (((((((reports_keywords rt).trans (reports_identity rt root)).trans
        (reports_eachKeyword rt ["title", "description"] isString _)).trans
        (reports_issueIf rt _ _)).trans (reports_groups rt)).trans (reports_kind rt ih)).trans
        (reports_enum rt) |>.trans (reports_const rt))
      rw [Bool.not_eq_false']
      constructor
      · rintro ⟨⟨⟨⟨⟨⟨⟨hkeywords, hidentity⟩, hannotations⟩, htype⟩, hgroups⟩,
          hobject, harray, hstring, hnumeric, hchildren⟩, henum⟩, hconst, hexclusive⟩
        exact ⟨⟨⟨ms, rfl⟩, hkeywords, hidentity, hannotations, htype, hgroups, hobject, harray, hstring,
          hnumeric, henum, hconst, hexclusive⟩, hchildren⟩
      · rintro ⟨hnode, hchildren⟩
        exact ⟨⟨⟨⟨⟨⟨⟨hnode.keywords, hnode.identity⟩, hnode.annotations⟩, hnode.type⟩, hnode.groups⟩,
          hnode.objectKind, hnode.arrayKind, hnode.stringKind, hnode.numericKind, hchildren⟩, hnode.enum⟩,
          hnode.const, hnode.exclusive⟩
    | _ =>
      refine reports_addIssue rt (fun hprofile => ?_) _
      obtain ⟨ms, hms⟩ := hprofile.1.object
      cases hms

/-- A schema has no issues exactly when it keeps the profile. -/
theorem schemaIssues_nil_iff (schema : Value) :
    schemaIssues rt schema = [] ↔ Profile (maxNestingDepth + 1) true schema :=
  (reports_walkSchema rt _).eq_nil_iff (by decide)

end Reports

end FastGate.CheckContract
