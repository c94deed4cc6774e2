/-
# FastGate.CheckContract.Canonical — the three frozen schemas

`load_canonical_schemas`: the schema directory holds the three canonical files and no others, each is a
schema without issues, and each has its frozen fingerprint and identity.  The functions of this module
return the messages that their originals append to the list of errors, in the same order.

* `loadSchema` is one round of the loop; what it loads is kept even when its fingerprint is wrong, and
  `none` is kept for a schema with issues.
* `checkCanonicalSchemaInvariants` and `checkSchemaParity` compare the loaded schemas with what is fixed
  for them and with each other.  They read keywords without looking first, which is safe for schemas
  without issues (`CheckContract.Licensed`).
* `loaded_of_no_errors`, `frozen_of_no_errors` and `walk_of_no_errors` say what follows for the tree when
  nothing was reported.
-/
import FastGate.CheckContract.Fingerprint
import FastGate.CheckContract.Tree

open FastGate.Python

namespace FastGate.CheckContract

/-- What is fixed for one canonical schema: `CANONICAL_SCHEMA_METADATA`, `CANONICAL_REQUIRED_FIELDS`,
`CANONICAL_ROOT_FIELDS` and `V1_SCHEMA_VALIDATION_FINGERPRINTS` under one of their common keys. -/
structure CanonicalSchema where
  path : Path
  id : String
  kind : String
  requiredFields : List String
  rootFields : List String
  fingerprint : String
  deriving DecidableEq

/-- The entries under the key of the request schema. -/
def requestCanonical : CanonicalSchema where
  path := path ["schema", "request.schema.json"]
  id := "urn:fastgate:model-turn:v1:request"
  kind := "model_turn.request"
  requiredFields := ["version", "kind", "request_id", "model_alias", "conversation", "instructions",
    "required_capabilities"]
  rootFields := ["version", "kind", "request_id", "model_alias", "conversation", "instructions",
    "required_capabilities"]
  fingerprint := "e08098dd1c8ef35c63b177720145caeb927304added8ec5b9e993c49bbcd0fb9"

/-- The entries under the key of the success schema. -/
def successCanonical : CanonicalSchema where
  path := path ["schema", "success.schema.json"]
  id := "urn:fastgate:model-turn:v1:success"
  kind := "model_turn.completed"
  requiredFields := ["version", "kind", "request_id", "output_text"]
  rootFields := ["version", "kind", "request_id", "output_text", "usage"]
  fingerprint := "31d2b6f7892a4b67c7122bace115d2614535f1e3745a4f3905d27f7c164d73f1"

/-- The entries under the key of the failure schema. -/
def failureCanonical : CanonicalSchema where
  path := path ["schema", "failure.schema.json"]
  id := "urn:fastgate:model-turn:v1:failure"
  kind := "model_turn.failed"
  requiredFields := ["version", "kind", "request_id", "error"]
  rootFields := ["version", "kind", "request_id", "error", "usage"]
  fingerprint := "1be52b33e19688e818175dc8ae4e336be9fb6ba56e5f0d7885864d6913856686"

/-- `CANONICAL_SCHEMAS` -/
def canonicalSchemas : List CanonicalSchema := [requestCanonical, successCanonical, failureCanonical]

/-- The schemas loaded so far; `none` stands for one with issues. -/
abbrev Schemas := List (Path × Option Value)

/-- `schemas.get(path)` -/
def Schemas.get (schemas : Schemas) (p : Path) : Option Value :=
  ((schemas.find? fun entry => entry.1 == p).map (·.2)).join

/-- `str(error)` -/
def JSONError.message : JSONError → Str
  | .document message | .artifact message => message

/-- The start of a message about a schema. -/
def CanonicalSchema.label (c : CanonicalSchema) : Str := str "schema " ++ asPosix c.path

section Load

variable (rt : Runtime) (tree : Tree)

/-- One round of the loop of `load_canonical_schemas`. -/
def loadSchema (c : CanonicalSchema) : Schemas × List Str :=
  match safeFile tree (.str (asPosix c.path)) (path ["schema"]) with
  | .error pathError => ([], [c.label ++ str ": " ++ pathError])
  | .ok p =>
    match strictJson rt (tree.read p) with
    | .error error => ([(p, none)], [c.label ++ str ": " ++ error.message])
    | .ok loaded =>
      let issues := schemaIssues rt loaded
      ([(p, if issues = [] then some loaded else none)], issues.map fun issue => c.label ++ str " " ++ issue)

/-- `unexpected file`, for what the schema directory holds besides the canonical files. -/
def unexpectedSchemas : List Str :=
  (sortedBy id ((tree.walk (path ["schema"])).filter fun p => p ∉ canonicalSchemas.map (·.path))).map
    fun unexpected => str "contract schemas: unexpected file " ++ rt.repr (asPosix unexpected)

/-- A string, where the value is one. -/
def stringOf : Value → Option Str
  | .str s => some s
  | _ => none

/-- `set(value) == set(fields)` for a list of strings. -/
def sameNames (names : List Str) (fields : List String) : Bool :=
  (names.all fun name => name ∈ fields.map str) && (fields.map str).all fun field => field ∈ names

/-- The rule of one framing field. -/
def fieldIssues (c : CanonicalSchema) (properties : Dict Value) (required : List Value)
    (field expectedConst : String) : List Str :=
  (if required.any fun name => name.eqStr field then []
    else [c.label ++ str ": " ++ str field ++ str " must be required"]) ++
  (if (Dict.get? properties (str field)).any fun rule =>
      (rule.get? "type").any (fun t => t.eqStr "string") &&
        (rule.get? "const").any (fun v => v.eqStr expectedConst) then []
    else [c.label ++ str ": " ++ str field ++ str " must have type 'string' and const " ++
      rt.repr (str expectedConst)])

/-- The readable framing rules of one schema. -/
def framingIssues (c : CanonicalSchema) (schema : Value) : List Str :=
  match schema.get? "type", schema.get? "required", schema.get? "properties" with
  | some (.str type), some (.arr required), some (.obj properties) =>
    if type = str "object" then
      (if sameNames (Dict.keys properties) c.rootFields then []
        else [c.label ++ str ": canonical root property names must remain exact"]) ++
      (if (stringItems required).any fun names => sameNames names c.requiredFields then []
        else [c.label ++ str ": canonical root required fields must remain exact"]) ++
      fieldIssues rt c properties required "version" "v1" ++
      fieldIssues rt c properties required "kind" c.kind
    else [c.label ++ str ": canonical root must be an object with properties and required"]
  | _, _, _ => [c.label ++ str ": canonical root must be an object with properties and required"]

/-- Identity, fingerprint and framing of one schema. -/
def invariantIssues (c : CanonicalSchema) (schema : Value) : List Str :=
  (if (schema.get? "$id").any fun id => id.eqStr c.id then []
    else [c.label ++ str ": $id must be " ++ rt.repr (str c.id)]) ++
  (if schemaValidationFingerprint rt schema = str c.fingerprint then []
    else [c.label ++ str ": validation rules must match the frozen v1 contract"]) ++
  framingIssues rt c schema

/-- `check_canonical_schema_invariants`.  Nothing is checked unless all three schemas are there. -/
def checkCanonicalSchemaInvariants (schemas : Schemas) : List Str :=
  match canonicalSchemas.mapM fun c => (schemas.get c.path).map fun schema => (c, schema) with
  | none => []
  | some loaded =>
    (if (loaded.map fun entry => ((entry.2.get? "$id").map stringOf).join).Nodup then []
      else [str "contract schemas: canonical $id values must be unique"]) ++
    loaded.flatMap fun entry => invariantIssues rt entry.1 entry.2

/-- `nested`: JSON `null` and what is absent are both `None`. -/
def nested (schema : Value) : List String → Option Value
  | [] => some schema
  | key :: keys =>
    match schema.get? key with
    | none | some .null => none
    | some value => nested value keys

/-- `require_equal` -/
def requireEqual (label : String) : List (Option Value) → List Str
  | [] => []
  | first :: others =>
    if (first :: others).all fun value => value.isNone then []
    else if (first :: others).any (fun value => value.isNone) ||
        !(first.any fun value => others.all fun other => other.any fun other => jsonEqual value other) then
      [str "contract schemas: " ++ str label ++ str " rules must remain identical"]
    else []

/-- `check_schema_parity` -/
def checkSchemaParity (schemas : Schemas) : List Str :=
  match schemas.get requestCanonical.path, schemas.get successCanonical.path,
      schemas.get failureCanonical.path with
  | some request, some success, some failure =>
    requireEqual "request_id" ([request, success, failure].map fun schema =>
      nested schema ["properties", "request_id"]) ++
    requireEqual "request_id and model_alias"
      [nested request ["properties", "request_id"], nested request ["properties", "model_alias"]] ++
    requireEqual "usage" [nested success ["properties", "usage"], nested failure ["properties", "usage"]] ++
    requireEqual "control-safe pattern"
      [nested request ["properties", "instructions", "items", "properties", "source", "pattern"],
        nested failure ["properties", "error", "properties", "message", "pattern"]]
  | _, _, _ => []

/-- `load_canonical_schemas`: the schemas, and the errors on the way. -/
def loadCanonicalSchemas : Schemas × List Str :=
  let rounds := canonicalSchemas.map (loadSchema rt tree)
  let schemas := rounds.flatMap (·.1)
  (schemas, rounds.flatMap (·.2) ++ unexpectedSchemas rt tree ++ checkCanonicalSchemaInvariants rt schemas ++
    checkSchemaParity schemas)

/-! ## What is left when there are no errors -/

variable {rt tree}

theorem pathParts_canonical : ∀ c ∈ canonicalSchemas, pathParts (asPosix c.path) = c.path := by
  decide

/-- A file that is there, loads and has no issues passes its round. -/
theorem loadSchema_of {c : CanonicalSchema} {v : Value}
    (hsafe : safeFile tree (.str (asPosix c.path)) (path ["schema"]) = .ok c.path)
    (hload : strictJson rt (tree.read c.path) = .ok v) (hissues : schemaIssues rt v = []) :
    loadSchema rt tree c = ([(c.path, some v)], []) := by
  unfold loadSchema
  rw [hsafe]
  dsimp only
  rw [hload]
  dsimp only
  rw [hissues]
  rfl

/-- A round without errors loads its schema. -/
theorem loadSchema_ok {c : CanonicalSchema} (hc : c ∈ canonicalSchemas) (h : (loadSchema rt tree c).2 = []) :
    ∃ v, c.path ∈ tree.paths ∧ strictJson rt (tree.read c.path) = .ok v ∧ schemaIssues rt v = [] ∧
      (loadSchema rt tree c).1 = [(c.path, some v)] := by
  unfold loadSchema at h ⊢
  split at h
  · cases h
  · rename_i p hsafe
    obtain ⟨raw, heq, hp, -, -, hmem⟩ := safeFile_ok hsafe
    cases heq
    rw [pathParts_canonical c hc] at hp
    subst hp
    split at h
    · cases h
    · rename_i v hload
      have hissues : schemaIssues rt v = [] := List.map_eq_nil_iff.mp h
      refine ⟨v, hmem, hload, hissues, ?_⟩
      show ([(c.path, if schemaIssues rt v = [] then some v else none)] : Schemas) = _
      rw [if_pos hissues]

/-- The three schemas of a run without errors. -/
structure Loaded (rt : Runtime) (tree : Tree) (schemas : Schemas) (c : CanonicalSchema) (v : Value) :
    Prop where
  file : c.path ∈ tree.paths
  load : strictJson rt (tree.read c.path) = .ok v
  issues : schemaIssues rt v = []
  get : schemas.get c.path = some v

theorem loaded_of_no_errors (h : (loadCanonicalSchemas rt tree).2 = []) :
    ∀ c ∈ canonicalSchemas, ∃ v, Loaded rt tree (loadCanonicalSchemas rt tree).1 c v := by
  have hrounds : ∀ c ∈ canonicalSchemas, (loadSchema rt tree c).2 = [] := by
    simp only [loadCanonicalSchemas, List.append_eq_nil_iff, List.flatMap_eq_nil_iff,
      List.forall_mem_map] at h
    exact h.1.1.1
  obtain ⟨request, hrequest, lrequest, irequest, erequest⟩ :=
    loadSchema_ok (by simp [canonicalSchemas]) (hrounds requestCanonical (by simp [canonicalSchemas]))
  obtain ⟨success, hsuccess, lsuccess, isuccess, esuccess⟩ :=
    loadSchema_ok (by simp [canonicalSchemas]) (hrounds successCanonical (by simp [canonicalSchemas]))
  obtain ⟨failure, hfailure, lfailure, ifailure, efailure⟩ :=
    loadSchema_ok (by simp [canonicalSchemas]) (hrounds failureCanonical (by simp [canonicalSchemas]))
  have hschemas : (loadCanonicalSchemas rt tree).1 = [(requestCanonical.path, some request),
      (successCanonical.path, some success), (failureCanonical.path, some failure)] := by
    simp [loadCanonicalSchemas, canonicalSchemas, erequest, esuccess, efailure]
  intro c hc
  rw [hschemas]
  simp only [canonicalSchemas, List.mem_cons, List.not_mem_nil, or_false] at hc
  rcases hc with rfl | rfl | rfl
  · exact ⟨request, hrequest, lrequest, irequest, rfl⟩
  · exact ⟨success, hsuccess, lsuccess, isuccess, rfl⟩
  · exact ⟨failure, hfailure, lfailure, ifailure, rfl⟩

/-- Without errors every schema has its frozen fingerprint and identity. -/
theorem frozen_of_no_errors (h : (loadCanonicalSchemas rt tree).2 = []) {c : CanonicalSchema} {v : Value}
    (hc : c ∈ canonicalSchemas) (hv : Loaded rt tree (loadCanonicalSchemas rt tree).1 c v) :
    schemaValidationFingerprint rt v = str c.fingerprint ∧ v.get? "$id" = some (.str (str c.id)) := by
  have hinvariants : checkCanonicalSchemaInvariants rt (loadCanonicalSchemas rt tree).1 = [] := by
    have h' := h
    rw [loadCanonicalSchemas] at h'
    dsimp only at h'
    simp only [List.append_eq_nil_iff] at h'
    exact h'.1.2
  have hall := loaded_of_no_errors h
  generalize (loadCanonicalSchemas rt tree).1 = schemas at *
  obtain ⟨request, hrequest⟩ := hall requestCanonical (by simp [canonicalSchemas])
  obtain ⟨success, hsuccess⟩ := hall successCanonical (by simp [canonicalSchemas])
  obtain ⟨failure, hfailure⟩ := hall failureCanonical (by simp [canonicalSchemas])
  -- all three schemas are loaded, so the issues of each are on the list
  have hissues : invariantIssues rt c v = [] := by
    simp only [checkCanonicalSchemaInvariants, canonicalSchemas, List.mapM_cons, List.mapM_nil,
      hrequest.get, hsuccess.get, hfailure.get, Option.map_some, Option.bind_eq_bind, Option.bind_some,
      Option.pure_def, List.append_eq_nil_iff, List.flatMap_eq_nil_iff] at hinvariants
    refine hinvariants.2 (c, v) ?_
    simp only [canonicalSchemas, List.mem_cons, List.not_mem_nil, or_false] at hc
    rcases hc with rfl | rfl | rfl
    · rw [Option.some.inj (hv.get.symm.trans hrequest.get)]
      simp
    · rw [Option.some.inj (hv.get.symm.trans hsuccess.get)]
      simp
    · rw [Option.some.inj (hv.get.symm.trans hfailure.get)]
      simp
  rw [invariantIssues, List.append_eq_nil_iff, List.append_eq_nil_iff] at hissues
  obtain ⟨⟨hid, hfingerprint⟩, -⟩ := hissues
  constructor
  · by_contra hne
    rw [if_neg hne] at hfingerprint
    cases hfingerprint
  · split at hid
    · rename_i hany
      obtain ⟨id, hget, heq⟩ := Option.any_eq_true _ _ |>.mp hany
      rw [hget, Value.eqStr_iff.mp heq]
    · cases hid

/-- Without errors the schema directory holds the canonical files and no others. -/
theorem walk_of_no_errors (h : (loadCanonicalSchemas rt tree).2 = []) :
    ∀ p ∈ tree.walk (path ["schema"]), p ∈ canonicalSchemas.map (·.path) := by
  have hunexpected : unexpectedSchemas rt tree = [] := by
    rw [loadCanonicalSchemas] at h
    dsimp only at h
    simp only [List.append_eq_nil_iff] at h
    exact h.1.1.2
  rw [unexpectedSchemas, List.map_eq_nil_iff] at hunexpected
  intro p hp
  by_contra hno
  have hmem : p ∈ sortedBy id ((tree.walk (path ["schema"])).filter fun p =>
      p ∉ canonicalSchemas.map (·.path)) := by
    rw [(sortedBy_perm _ _).mem_iff, List.mem_filter, decide_eq_true_eq]
    exact ⟨hp, hno⟩
  rw [hunexpected] at hmem
  cases hmem

end Load

end FastGate.CheckContract
