/-
# FastGate.CheckContract.Validate — checking an instance against a schema

`validate_instance` walks an instance and a schema node together and collects at most 25 violations.
A schema is a JSON value like any other: reading a keyword that is absent or of the wrong type raises,
as it does in Python, and so do hashing a list, iterating over a number and comparing what is no number
(`PyError`).

* Values are compared with `jsonEqual`, types with `matchesType`; a boolean is no number for either.
* Patterns are looked up among the two that are audited.  Each is anchored at both ends, so its search is
  a test of the whole text.
* The walk branches on the kind of the value where the source branches on the type: once the type
  matches, the two agree.  A `None` also matches a type that is no string, which is why that branch
  hashes the type.

What the walk decides is said in `CheckContract.Conforms` for schemas of the profile, on which it never
raises.
-/
import FastGate.Python.Capped
import FastGate.Python.Value
import Mathlib.Data.List.Infix

open FastGate.Python

namespace FastGate.CheckContract

/-- `MAX_VIOLATIONS` -/
def maxViolations : Nat := 25

/-- One instance-validation failure. -/
structure Violation where
  keyword : Str
  instancePath : Str
  deriving DecidableEq, Repr

/-- What a Python expression may raise on values of the wrong shape. -/
inductive PyError where
  | keyError
  | typeError
  deriving DecidableEq, Repr

/-! ## Values -/

/-- `matches_type`: what is none of the six other types is compared with `None`. -/
def matchesType (value schemaType : Value) : Bool :=
  if schemaType.eqStr "object" then value matches .obj _
  else if schemaType.eqStr "array" then value matches .arr _
  else if schemaType.eqStr "string" then value matches .str _
  else if schemaType.eqStr "integer" then
    match value with
    | .num d => d.isIntegral
    | _ => false
  else if schemaType.eqStr "number" then value matches .num _
  else if schemaType.eqStr "boolean" then value matches .bool _
  else value matches .null

/-- `json_equal`: booleans are no numbers, numbers compare by value, objects as mappings. -/
def jsonEqual : Value → Value → Bool
  | .bool a, .bool b => a == b
  | .num a, .num b => a.eqValue b
  | .arr xs, .arr ys => xs.length == ys.length && elements xs ys
  | .obj ms, .obj ns =>
    ((Dict.keys ms).all fun key => Dict.has ns key) && ((Dict.keys ns).all fun key => Dict.has ms key) &&
      members ms ns
  | .str a, .str b => a == b
  | .null, .null => true
  | _, _ => false
where
  elements : List Value → List Value → Bool
    | x :: xs, y :: ys => jsonEqual x y && elements xs ys
    | _, _ => true
  members : List (Str × Value) → Dict Value → Bool
    | [], _ => true
    | (key, v) :: ms, ns =>
      (match Dict.get? ns key with
        | some w => jsonEqual v w
        | none => false) && members ms ns

/-- `token.replace("~", "~0").replace("/", "~1")` -/
def pointerEscape (token : Str) : Str :=
  token.flatMap fun c => if c = 0x7E then [0x7E, 0x30] else if c = 0x2F then [0x7E, 0x31] else [c]

/-- `pointer_join` -/
def pointerJoin (base token : Str) : Str := base ++ 0x2F :: pointerEscape token

/-! ## Patterns -/

/-- The pattern of identifiers, as the schemas spell it. -/
def identifierPattern : Str := str "^[A-Za-z0-9][A-Za-z0-9._:-]*(?![\\s\\S])"

/-- The pattern of texts without controls and line separators, as the schemas spell it. -/
def controlSafePattern : Str := str "^[^\\u0000-\\u001F\\u007F-\\u009F\\u2028\\u2029]+(?![\\s\\S])"

/-- `[A-Za-z0-9]` -/
def inAlphaNumeric (c : Nat) : Bool :=
  (0x41 ≤ c && c ≤ 0x5A) || (0x61 ≤ c && c ≤ 0x7A) || (0x30 ≤ c && c ≤ 0x39)

/-- `[A-Za-z0-9._:-]` -/
def inIdentifier (c : Nat) : Bool :=
  inAlphaNumeric c || c == 0x2E || c == 0x5F || c == 0x3A || c == 0x2D

/-- `[\u0000-\u001F\u007F-\u009F\u2028\u2029]` -/
def inUnsafe (c : Nat) : Bool :=
  c ≤ 0x1F || (0x7F ≤ c && c ≤ 0x9F) || c == 0x2028 || c == 0x2029

/-- A search for the identifier pattern.  It is anchored at the start, and the lookahead lets the
repetition end nowhere but at the end of the text. -/
def searchIdentifier : Str → Bool
  | [] => false
  | c :: cs => inAlphaNumeric c && cs.all inIdentifier

/-- A search for the control-safe pattern, anchored at both ends in the same way. -/
def searchControlSafe : Str → Bool
  | [] => false
  | c :: cs => (c :: cs).all fun x => !inUnsafe x

/-- `AUDITED_PATTERN_MATCHERS`: the only patterns that are ever matched, each with its search. -/
def auditedPatternMatchers : Dict (Str → Bool) :=
  [(identifierPattern, searchIdentifier), (controlSafePattern, searchControlSafe)]

/-! ## Reading a schema node -/

/-- `node[key]` -/
def getItem (node : Value) (key : String) : Except PyError Value :=
  match node with
  | .obj ms =>
    match Dict.get? ms (str key) with
    | some v => .ok v
    | none => .error .keyError
  | _ => .error .typeError

/-- The values of `for x in value`. -/
def iterate : Value → Except PyError (List Value)
  | .arr xs => .ok xs
  | .obj ms => .ok ((Dict.keys ms).map .str)
  | .str s => .ok (s.map fun c => .str [c])
  | _ => .error .typeError

/-- `hash(value)`, which lists and dictionaries refuse. -/
def hash : Value → Except PyError Unit
  | .arr _ | .obj _ => .error .typeError
  | _ => .ok ()

/-- `name in dictionary` for a name of any type; lists and dictionaries cannot be hashed. -/
def inDict (name : Value) (dictionary : Dict Value) : Except PyError Bool :=
  match name with
  | .str s => .ok (dictionary.has s)
  | .arr _ | .obj _ => .error .typeError
  | _ => .ok false

/-- `name in container` for a string. -/
def contains (container : Value) (name : Str) : Except PyError Bool :=
  match container with
  | .obj ms => .ok (Dict.has ms name)
  | .arr xs => .ok (xs.any fun x => match x with
      | .str s => s == name
      | _ => false)
  | .str s => .ok (decide (name <:+: s))
  | _ => .error .typeError

/-- `properties[name]` -/
def propertyItem (properties : Value) (name : Str) : Except PyError Value :=
  match properties with
  | .obj ms =>
    match Dict.get? ms name with
    | some v => .ok v
    | none => .error .keyError
  | _ => .error .typeError

/-- A number for a comparison; booleans are the integers 0 and 1. -/
def asNumber : Value → Except PyError Decimal
  | .num d => .ok d
  | .bool b => .ok (Decimal.ofNat b.toNat)
  | _ => .error .typeError

/-! ## The walk -/

/-- `add` inside `validate_instance`. -/
def addViolation (violations : List Violation) (keyword : String) (path : Str) : List Violation :=
  addCapped maxViolations violations ⟨str keyword, path⟩

/-- `if keyword in node and fails(): add(keyword, path)` for a comparison of a number with a bound. -/
def checkBound (keyword : String) (fails : Decimal → Bool) (node : Value) (path : Str)
    (violations : List Violation) : Except PyError (List Violation) :=
  if node.has keyword then do
    let bound ← getItem node keyword
    let bound ← asNumber bound
    return if fails bound then addViolation violations keyword path else violations
  else .ok violations

/-- A lower and an upper bound on a number. -/
def checkBounds (low high : String) (n : Decimal) (node : Value) (path : Str)
    (violations : List Violation) : Except PyError (List Violation) := do
  let violations ← checkBound low (fun bound => n.ltValue bound) node path violations
  checkBound high (fun bound => bound.ltValue n) node path violations

/-- `enum`: one of the items is equal to the value. -/
def checkEnum (value node : Value) (path : Str) (violations : List Violation) :
    Except PyError (List Violation) :=
  if node.has "enum" then do
    let enum ← getItem node "enum"
    let items ← iterate enum
    return if items.any fun item => jsonEqual value item then violations
      else addViolation violations "enum" path
  else .ok violations

/-- `const` -/
def checkConst (value node : Value) (path : Str) (violations : List Violation) :
    Except PyError (List Violation) :=
  if node.has "const" then do
    let const ← getItem node "const"
    return if jsonEqual value const then violations else addViolation violations "const" path
  else .ok violations

/-- The loop over the required names. -/
def checkRequired (members : Dict Value) (path : Str) :
    List Value → List Violation → Except PyError (List Violation)
  | [], violations => .ok violations
  | name :: names, violations => do
    let present ← inDict name members
    checkRequired members path names
      (if present then violations else addViolation violations "required" path)

/-- `pattern`; one that is not audited matches nothing. -/
def checkPattern (value : Str) (node : Value) (path : Str) (violations : List Violation) :
    Except PyError (List Violation) :=
  if node.has "pattern" then do
    let pattern ← getItem node "pattern"
    match pattern with
    | .str p =>
      match Dict.get? auditedPatternMatchers p with
      | some matcher =>
        return if matcher value then violations else addViolation violations "pattern" path
      | none => return addViolation violations "pattern" path
    | .arr _ | .obj _ => .error .typeError
    | _ => return addViolation violations "pattern" path
  else .ok violations

/-- `walk` inside `validate_instance`. -/
def walk (value node : Value) (path : Str) (violations : List Violation) :
    Except PyError (List Violation) :=
  if maxViolations ≤ violations.length then .ok violations
  else do
    let schemaType ← getItem node "type"
    if !matchesType value schemaType then
      return addViolation violations "type" path
    let violations ← checkEnum value node path violations
    let violations ← checkConst value node path violations
    match value with
    | .obj ms =>
      let properties ← getItem node "properties"
      let required ← getItem node "required"
      let names ← iterate required
      let violations ← checkRequired ms path names violations
      members ms properties path violations
    | .arr xs =>
      let violations ← checkBounds "minItems" "maxItems" (.ofNat xs.length) node path violations
      elements xs node path 0 violations
    | .str s =>
      let violations ← checkBounds "minLength" "maxLength" (.ofNat s.length) node path violations
      checkPattern s node path violations
    | .num d => checkBounds "minimum" "maximum" d node path violations
    | _ =>
      -- `schema_type in {"integer", "number"}`: a `None` may have met a type that is no string
      hash schemaType
      return violations
where
  members : List (Str × Value) → Value → Str → List Violation → Except PyError (List Violation)
    | [], _, _, violations => .ok violations
    | (name, child) :: ms, properties, path, violations => do
      let known ← contains properties name
      if known then
        let property ← propertyItem properties name
        let violations ← walk child property (pointerJoin path name) violations
        members ms properties path violations
      else members ms properties path (addViolation violations "additionalProperties" path)
  elements : List Value → Value → Str → Nat → List Violation → Except PyError (List Violation)
    | [], _, _, _, violations => .ok violations
    | item :: xs, node, path, index, violations => do
      let itemNode ← getItem node "items"
      let violations ← walk item itemNode (pointerJoin path (decimalText index)) violations
      elements xs node path (index + 1) violations

/-- `validate_instance` -/
def validateInstance (instance_ schema : Value) : Except PyError (List Violation) :=
  walk instance_ schema [] []

end FastGate.CheckContract
