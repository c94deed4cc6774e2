/-
# FastGate.CheckContract.Contract — the manifest and its fixtures

`check_contract`: the manifest names a fixture for every case, a valid one has to pass its schema, and
an invalid one has to fail for the declared reason.  A case is checked in stages, and a stage that cannot
go on ends the case; `checkCase` returns what the case adds to the sets that are kept across cases,
with its errors.

* A case has the four fields that are required and no others than the six that are allowed; its name is a
  slug that no other case has.
* Its schema is one of the canonical ones and loaded, its fixture a file below the directory of its
  verdict that no other case names.
* The document of an invalid case may fail to load, which is the violation `json` at the root, or break
  rules of its schema; `judge` looks for the declared one among the violations that were returned.

Behind the cases come the fixtures that no case names and the schemas without a valid or an invalid case.
The errors of the whole check are cut to fifty, and each of them to 500 characters.
-/
import FastGate.CheckContract.Canonical

open FastGate.Python
open FastGate.Utf8 (Bytes)

namespace FastGate.CheckContract

/-! ## Texts -/

/-- `[a-z0-9]` -/
def isSlug (c : Nat) : Bool := (0x61 ≤ c && c ≤ 0x7A) || (0x30 ≤ c && c ≤ 0x39)

/-- `CASE_NAME.fullmatch(name)`: `[a-z0-9](?:[a-z0-9-]{0,78}[a-z0-9])?` -/
def isCaseName (name : Str) : Bool :=
  name.length ≤ 80 && name.all (fun c => isSlug c || c == 0x2D) && name.head?.any isSlug &&
    name.getLast?.any isSlug

/-- `JSON_POINTER.fullmatch(text)`: `(?:/(?:[^~/]|~[01])*)*` -/
def isPointer : Str → Bool
  | [] => true
  | c :: cs => c == 0x2F && rest cs
where
  rest : Str → Bool
    | [] => true
    | [c] => c != 0x7E
    | c :: d :: cs => if c = 0x7E then (d == 0x30 || d == 0x31) && rest cs else rest (d :: cs)

/-! ## One case -/

/-- What is kept across cases: the names, the fixture paths, and for each schema the outcomes seen. -/
structure Seen where
  names : List Str
  fixtures : List Path
  coverage : List (Path × Bool)
  deriving DecidableEq

/-- Before the first case. -/
def Seen.empty : Seen := ⟨[], [], []⟩

/-- `isinstance(case, dict) and required <= set(case) and set(case) <= allowed` -/
def hasCaseFields (item : Value) : Bool :=
  (item matches .obj _) && (["name", "schema", "fixture", "valid"].all fun field => item.has field) &&
    item.dict.keys.all fun key =>
      key ∈ ["name", "schema", "fixture", "valid", "meaning", "expected"].map str

/-- The label a name gives to a case, and the names with it. -/
def checkName (label : Str) (name : Value) (names : List Str) : Str × List Str × List Str :=
  match name with
  | .str text =>
    if isCaseName text then
      (text, names ++ [text], if text ∈ names then [text ++ str ": duplicate case name"] else [])
    else (label, names, [label ++ str ": name must be a bounded lowercase slug"])
  | _ => (label, names, [label ++ str ": name must be a bounded lowercase slug"])

/-- What is reported of the optional `meaning` of a case. -/
def checkMeaning (label : Str) (item : Value) : List Str :=
  match item.get? "meaning" with
  | none | some (.str (_ :: _)) => []
  | some _ => [label ++ str ": meaning must be a non-empty string when present"]

/-- The violation that a case expects. -/
def readExpected (label : Str) (valid : Bool) (item : Value) : Option Violation × List Str :=
  if valid then
    (none, if item.has "expected" then [label ++ str ": valid cases must omit expected"] else [])
  else
    match item.get? "expected" with
    | some (.obj expected) =>
      match Dict.get? expected (str "keyword"), Dict.get? expected (str "instance_path") with
      | some keyword, some instancePath =>
        if (Dict.keys expected).all fun key => key ∈ ["keyword", "instance_path"].map str then
          match keyword, instancePath with
          | .str keyword, .str instancePath =>
            if keyword ∈ (supportedKeywords ++ ["json"]).map str ∧ isPointer instancePath = true then
              (some ⟨keyword, instancePath⟩, [])
            else (none, [label ++ str ": expected keyword or instance_path is invalid"])
          | _, _ => (none, [label ++ str ": expected keyword or instance_path is invalid"])
        else (none, [label ++ str ": invalid cases require strict expected metadata"])
      | _, _ => (none, [label ++ str ": invalid cases require strict expected metadata"])
    | _ => (none, [label ++ str ": invalid cases require strict expected metadata"])

section Case

variable (rt : Runtime)

/-- `keyword at 'instance_path'` -/
def describe (violation : Violation) : Str :=
  violation.keyword ++ str " at " ++ rt.repr violation.instancePath

/-- What the outcome of the validation means for the case. -/
def judge (label : Str) (valid : Bool) (expected : Option Violation) (violations : List Violation) :
    List Str :=
  match valid, violations with
  | true, [] => []
  | true, first :: _ => [label ++ str ": expected valid but failed " ++ describe rt first]
  | false, [] => [label ++ str ": expected invalid but was accepted"]
  | false, first :: others =>
    match expected with
    | none => []
    | some violation =>
      if violation ∈ first :: others then []
      else [label ++ str ": intended rule mismatch; observed " ++ describe rt first]

/-- The classification of a fixture. -/
def checkFixture (label : Str) (valid : Bool) (expected : Option Violation) (fixture : Option Bytes)
    (schema : Value) : Except PyError (List Str) :=
  match strictJson rt fixture with
  | .error (.artifact message) => .ok [label ++ str ": fixture " ++ message]
  | .error (.document _) => .ok (judge rt label valid expected [⟨str "json", []⟩])
  | .ok document => do
    let violations ← validateInstance document schema
    return judge rt label valid expected violations

/-- `fixtures/valid` or `fixtures/invalid` -/
def fixtureDirectory (valid : Bool) : Path := path ["fixtures", if valid then "valid" else "invalid"]

/-- The message of a path that was not accepted. -/
def pathErrors (label : Str) (what : String) : Except Str Path → List Str
  | .ok _ => []
  | .error message => [label ++ str ": " ++ str what ++ str " " ++ message]

/-- The rest of a round, once both paths are resolved. -/
def checkResolved (tree : Tree) (schemas : Schemas) (seen : Seen) (label : Str) (valid : Bool)
    (expected : Option Violation) (errors : List Str) (schemaPath fixturePath : Path) :
    Except PyError (Seen × List Str) :=
  if schemaPath ∉ canonicalSchemas.map (·.path) then
    .ok (seen, errors ++ [label ++ str ": schema must be one of the three canonical schemas"])
  else
    let errors := errors ++
      if fixturePath ∈ seen.fixtures then [label ++ str ": duplicate fixture path"] else []
    let seen := { seen with
      fixtures := seen.fixtures ++ [fixturePath]
      coverage := seen.coverage ++ [(schemaPath, valid)] }
    match schemas.get schemaPath with
    | none => .ok (seen, errors)
    | some schema => do
      let verdict ← checkFixture rt label valid expected (tree.read fixturePath) schema
      return (seen, errors ++ verdict)

/-- One round of the loop of `check_contract`. -/
def checkCase (tree : Tree) (schemas : Schemas) (seen : Seen) (index : Nat) (item : Value) :
    Except PyError (Seen × List Str) :=
  let label := str "case[" ++ decimalText index ++ str "]"
  if !hasCaseFields item then .ok (seen, [label ++ str ": case fields are missing or unsupported"])
  else
    let (label, names, nameErrors) := checkName label ((item.get? "name").getD .null) seen.names
    let seen := { seen with names := names }
    match item.get? "valid" with
    | some (.bool valid) =>
      let (expected, expectedErrors) := readExpected label valid item
      let schemaPath := safeFile tree ((item.get? "schema").getD .null) (path ["schema"])
      let fixturePath := safeFile tree ((item.get? "fixture").getD .null) (fixtureDirectory valid)
      let errors := nameErrors ++ checkMeaning label item ++ expectedErrors ++
        pathErrors label "schema" schemaPath ++ pathErrors label "fixture" fixturePath
      match schemaPath, fixturePath with
      | .ok schemaPath, .ok fixturePath =>
        checkResolved rt tree schemas seen label valid expected errors schemaPath fixturePath
      | _, _ => .ok (seen, errors)
    | _ => .ok (seen, nameErrors ++ [label ++ str ": valid must be boolean"])

/-- The loop over the cases. -/
def checkCases (tree : Tree) (schemas : Schemas) :
    Seen → Nat → List Value → Except PyError (Seen × List Str)
  | seen, _, [] => .ok (seen, [])
  | seen, index, item :: items => do
    let (seen, errors) ← checkCase rt tree schemas seen index item
    let (seen, others) ← checkCases tree schemas seen (index + 1) items
    return (seen, errors ++ others)

/-! ## The whole check -/

/-- Where the manifest of the cases is, below the contract. -/
def casesPath : Path := path ["fixtures", "cases.json"]

/-- Files below `fixtures` that no case names. -/
def orphanErrors (tree : Tree) (seen : Seen) : List Str :=
  (sortedBy id ((tree.walk (path ["fixtures"])).filter fun p => p ≠ casesPath ∧ p ∉ seen.fixtures)).map
    fun orphan => str "contract fixtures: orphaned file " ++ rt.repr (asPosix orphan)

/-- Schemas without a valid or without an invalid case. -/
def coverageErrors (seen : Seen) : List Str :=
  canonicalSchemas.flatMap fun c =>
    (if (c.path, true) ∈ seen.coverage then []
      else [str "contract cases: " ++ asPosix c.path ++ str " requires at least one valid fixture"]) ++
    (if (c.path, false) ∈ seen.coverage then []
      else [str "contract cases: " ++ asPosix c.path ++ str " requires at least one invalid fixture"])

/-- `isinstance(manifest, dict) and set(manifest) == {"version", "cases"}` -/
def hasManifestFields (manifest : Value) : Bool :=
  (manifest matches .obj _) && manifest.has "version" && manifest.has "cases" &&
    manifest.dict.keys.all fun key => key ∈ ["version", "cases"].map str

/-- `check_contract`: what is reported of a tree.  An exception of the instance validator is passed on. -/
def checkContract (tree : Tree) : Except PyError (List Str) :=
  match strictJson rt (tree.read casesPath) with
  | .error error => .ok [str "contract cases: " ++ error.message]
  | .ok manifest =>
    if !hasManifestFields manifest then
      .ok [str "contract cases: root must contain only version and cases"]
    else
      let versionErrors := if (manifest.get? "version").any (fun version => version.eqStr "v1") then []
        else [str "contract cases: version must be v1"]
      match manifest.get? "cases" with
      | some (.arr (first :: others)) => do
        let (schemas, schemaErrors) := loadCanonicalSchemas rt tree
        let (seen, caseErrors) ← checkCases rt tree schemas .empty 0 (first :: others)
        let errors := versionErrors ++ schemaErrors ++ caseErrors ++ orphanErrors rt tree seen ++
          coverageErrors seen
        return (errors.take maxErrors).map fun message => message.take 500
      | _ => .ok (versionErrors ++ [str "contract cases: cases must be a non-empty array"])

end Case

end FastGate.CheckContract
