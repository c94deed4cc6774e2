/-
# FastGate.CheckContract.Licensed — what an empty list of issues is good for

`schema_validation_fingerprint`, `check_canonical_schema_invariants`, `check_schema_parity` and
`validate_instance` read keywords without looking first.  They are modelled here with the exceptions
that Python raises for a missing key or a value of the wrong type.

On a document that `schema_issues` finds nothing wrong with none of them is raised, and what comes out
is what the functions without exceptions compute; on any document `schema_issues` itself raises none
(`schemaIssues_licenses`).  `Licensed` is the license: the three schemas are of the profile, or they
are absent because they had issues.

For each function there is one lemma that its model with exceptions returns what the one without
returns (`schemaValidationFingerprint_eq`, `checkCanonicalSchemaInvariants_eq`, `checkSchemaParity_eq`).
The last step, `loadCanonicalSchemas_schemasOf`, says that the loop that loads the schemas hands on
exactly the licensed ones.
-/
import FastGate.CheckContract.Canonical
import FastGate.CheckContract.Raising

open FastGate.Json FastGate.Python

namespace FastGate.CheckContract.Raising

/-! ## The fingerprint -/

/-- `encode(value, schema_node=True)`.  `sorted(child)` with `child[name]` is taken to raise for whatever
is no dictionary; what is unordered is iterated over. -/
def encodeNode : Value → Except PyError Jsonable
  | .obj ms => do
    let encoded ← members ms
    return encodeEntries encoded
  | v => return encode v
where
  members : List (Str × Value) → Except PyError (Dict Jsonable)
    | [] => return []
    | (key, child) :: ms =>
      if key ∈ schemaAnnotations then members ms
      else do
        let encoded ← (
          if key = str "properties" then properties child
          else if key = str "items" then encodeNode child
          else if key ∈ schemaUnorderedArrays then unordered child
          else pure (encode child))
        let rest ← members ms
        return (key, encoded) :: rest
  properties : Value → Except PyError Jsonable
    | .obj ps => do
      let encoded ← nodes ps
      return encodeEntries encoded
    | _ => .error .typeError
  nodes : List (Str × Value) → Except PyError (Dict Jsonable)
    | [] => return []
    | (name, child) :: ps => do
      let encoded ← encodeNode child
      let rest ← nodes ps
      return (name, encoded) :: rest
  unordered (child : Value) : Except PyError Jsonable := do
    let xs ← iterate child
    return tagged "array" (.list (sortItems (xs.map encode)))

/-- `schema_validation_fingerprint`, with the exceptions that a child of the wrong shape raises. -/
def schemaValidationFingerprint (rt : Runtime) (schema : Value) : Except PyError Str := do
  let encoded ← encodeNode schema
  return rt.sha256 (Utf8.encode (dumps encoded))

/-! ## The invariants of the canonical schemas -/

section Invariants

variable (rt : Runtime)

/-- `set(values) == fields` -/
def sameSet (values : List Value) (fields : List String) : Except PyError Bool := do
  let kept ← setOf values
  return (kept.all fun v => fields.any fun field => v.eqStr field) &&
    fields.all fun field => kept.any fun v => v.eqStr field

/-- The rule of one framing field. -/
def fieldIssues (c : CanonicalSchema) (properties required : Value) (field expectedConst : String) :
    Except PyError (List Str) := do
  let rule ← dictGet properties field
  let names ← iterate required
  let wrong ← pure (!isDict rule) <||> (do
      let type ← dictGet rule "type"
      return !type.eqStr "string") <||> do
    let const ← dictGet rule "const"
    return !const.eqStr expectedConst
  return (if names.any fun name => name.eqStr field then []
      else [c.label ++ str ": " ++ str field ++ str " must be required"]) ++
    if wrong then
      [c.label ++ str ": " ++ str field ++ str " must have type 'string' and const " ++
        rt.repr (str expectedConst)]
    else []

/-- The readable framing rules of one schema. -/
def framingIssues (c : CanonicalSchema) (schema : Value) : Except PyError (List Str) := do
  let required ← dictGet schema "required"
  let properties ← dictGet schema "properties"
  let type ← dictGet schema "type"
  if !type.eqStr "object" || !isList required || !isDict properties then
    return [c.label ++ str ": canonical root must be an object with properties and required"]
  else
    let names ← iterate properties
    let sameRoot ← sameSet names c.rootFields
    let names ← iterate required
    let sameRequired ← sameSet names c.requiredFields
    let version ← fieldIssues rt c properties required "version" "v1"
    let kind ← fieldIssues rt c properties required "kind" c.kind
    return (if sameRoot then [] else [c.label ++ str ": canonical root property names must remain exact"]) ++
      (if sameRequired then []
        else [c.label ++ str ": canonical root required fields must remain exact"]) ++ version ++ kind

/-- Identity, fingerprint and framing of one schema. -/
def invariantIssues (c : CanonicalSchema) (schema : Value) : Except PyError (List Str) := do
  let id ← getItem schema "$id"
  let fingerprint ← schemaValidationFingerprint rt schema
  let framing ← framingIssues rt c schema
  return (if id.eqStr c.id then [] else [c.label ++ str ": $id must be " ++ rt.repr (str c.id)]) ++
    (if fingerprint = str c.fingerprint then []
      else [c.label ++ str ": validation rules must match the frozen v1 contract"]) ++ framing

/-- `check_canonical_schema_invariants`.  Nothing is checked unless all three schemas are dictionaries. -/
def checkCanonicalSchemaInvariants (schemas : Schemas) : Except PyError (List Str) :=
  match canonicalSchemas.mapM fun c => ((schemas.get c.path).filter isDict).map fun schema =>
      (c, schema) with
  | none => return []
  | some loaded => do
    let actualIds ← loaded.mapM fun entry => getItem entry.2 "$id"
    let distinct ← setOf actualIds
    let issues ← loaded.mapM fun entry => invariantIssues rt entry.1 entry.2
    return (if distinct.length = actualIds.length then []
      else [str "contract schemas: canonical $id values must be unique"]) ++ issues.flatten

end Invariants

/-! ## Parity -/

/-- `nested`; what is absent is `None`. -/
def nested (schema : Value) : List String → Except PyError Value
  | [] => return schema
  | key :: keys =>
    if isDict schema then do
      let value ← dictGet schema key
      nested value keys
    else return .null

/-- `value is None` -/
def isNone (value : Value) : Bool := value matches .null

/-- `require_equal` -/
def requireEqual (label : String) : List Value → Except PyError (List Str)
  | [] => return []
  | first :: others =>
    if (first :: others).all isNone then return []
    else do
      let differ ← pure ((first :: others).any isNone) <||> do
        let same ← others.allM (jsonEqual first)
        return !same
      return if differ then
          [str "contract schemas: " ++ str label ++ str " rules must remain identical"]
        else []

/-- `check_schema_parity` -/
def checkSchemaParity (schemas : Schemas) : Except PyError (List Str) :=
  match (schemas.get requestCanonical.path).filter isDict,
      (schemas.get successCanonical.path).filter isDict,
      (schemas.get failureCanonical.path).filter isDict with
  | some request, some success, some failure => do
    let ids ← [request, success, failure].mapM fun schema => nested schema ["properties", "request_id"]
    let requestIds ← requireEqual "request_id" ids
    let requestId ← nested request ["properties", "request_id"]
    let modelAlias ← nested request ["properties", "model_alias"]
    let aliases ← requireEqual "request_id and model_alias" [requestId, modelAlias]
    let successUsage ← nested success ["properties", "usage"]
    let failureUsage ← nested failure ["properties", "usage"]
    let usage ← requireEqual "usage" [successUsage, failureUsage]
    let source ← nested request
      ["properties", "instructions", "items", "properties", "source", "pattern"]
    let message ← nested failure ["properties", "error", "properties", "message", "pattern"]
    let patterns ← requireEqual "control-safe pattern" [source, message]
    return requestIds ++ aliases ++ usage ++ patterns
  | _, _, _ => return []

/-! ## A node of the profile -/

section Node

variable {remaining : Nat} {root : Bool} {node : Value}

/-- A node has only keywords of its type. -/
theorem typeIs_of_keyword (h : NodeOk root node) {keywords types : List String} {label : String}
    (hgroup : (keywords, types, label) ∈ keywordGroups) {keyword : String} (hkeyword : keyword ∈ keywords)
    {v : Value} (hget : node.get? keyword = some v) : ∃ name ∈ types, typeIs node name = true :=
  h.groups _ hgroup ⟨keyword, hkeyword, has_iff_get?.mpr ⟨v, hget⟩⟩

/-- What is read as the properties is a dictionary of schema nodes. -/
theorem properties_of_profile (h : Profile (remaining + 1) root node) {v : Value}
    (hget : node.get? "properties" = some v) :
    ∃ ps, v = .obj ps ∧ ∀ p ∈ ps, Profile remaining false p.2 := by
  obtain ⟨hnode, hchildren⟩ := h
  obtain ⟨name, hname, htype⟩ := typeIs_of_keyword hnode
    (show (["properties", "required", "additionalProperties"], ["object"], "object") ∈ keywordGroups by
      simp [keywordGroups]) (by simp) hget
  obtain rfl := List.mem_singleton.mp hname
  obtain ⟨ps, hps⟩ := (hnode.objectKind htype).properties
  obtain rfl : v = .obj ps := Option.some.inj (hget.symm.trans hps)
  refine ⟨ps, rfl, fun p hp => hchildren p.2 ?_⟩
  have hentries : propertiesOf node = ps := by rw [propertiesOf, hps]
  rw [subschemas, if_pos htype, hentries]
  exact List.mem_map_of_mem hp

theorem items_of_profile (h : Profile (remaining + 1) root node) {v : Value}
    (hget : node.get? "items" = some v) : Profile remaining false v := by
  obtain ⟨hnode, hchildren⟩ := h
  obtain ⟨name, hname, htype⟩ := typeIs_of_keyword hnode
    (show (["items", "minItems", "maxItems"], ["array"], "array") ∈ keywordGroups by
      simp [keywordGroups]) (by simp) hget
  obtain rfl := List.mem_singleton.mp hname
  exact hchildren v (mem_subschemas_items htype hget)

/-- What is read without an order is a list. -/
theorem unordered_of_profile (h : NodeOk root node) {keyword : String} {v : Value}
    (hkeyword : str keyword ∈ schemaUnorderedArrays) (hget : node.get? keyword = some v) :
    ∃ xs, v = .arr xs := by
  have hcases : keyword = "required" ∨ keyword = "enum" := by
    simpa [schemaUnorderedArrays, str_injective.eq_iff] using hkeyword
  rcases hcases with rfl | rfl
  · obtain ⟨name, hname, htype⟩ := typeIs_of_keyword h
      (show (["properties", "required", "additionalProperties"], ["object"], "object") ∈ keywordGroups by
        simp [keywordGroups]) (by simp) hget
    obtain rfl := List.mem_singleton.mp hname
    obtain ⟨names, hnames, -⟩ := (h.objectKind htype).required
    exact ⟨_, Option.some.inj (hget.symm.trans (required_of hnames))⟩
  · obtain ⟨xs, hxs, -⟩ := h.enum v hget
    exact ⟨xs, hxs⟩

theorem encodeNode_nodes {ps : List (Str × Value)}
    (h : ∀ p ∈ ps, encodeNode p.2 = pure (CheckContract.encodeNode p.2)) :
    encodeNode.nodes ps = pure (CheckContract.encodeNode.nodes ps) := by
  induction ps with
  | nil => rfl
  | cons p ps ih =>
    obtain ⟨hp, hps⟩ := List.forall_mem_cons.mp h
    rw [encodeNode.nodes, CheckContract.encodeNode.nodes, hp, pure_bind, ih hps]
    rfl

/-- Members are encoded when each of them is. -/
theorem encodeNode_members {ms : List (Str × Value)}
    (hproperties : ∀ child, (str "properties", child) ∈ ms →
      encodeNode.properties child = pure (CheckContract.encodeNode.properties child))
    (hitems : ∀ child, (str "items", child) ∈ ms →
      encodeNode child = pure (CheckContract.encodeNode child))
    (hunordered : ∀ key child, (key, child) ∈ ms → key ∈ schemaUnorderedArrays →
      encodeNode.unordered child = pure (CheckContract.encodeNode.unordered child)) :
    encodeNode.members ms = pure (CheckContract.encodeNode.members ms) := by
  induction ms with
  | nil => rfl
  | cons m ms ih =>
    obtain ⟨key, child⟩ := m
    have hrest := ih (fun child hmem => hproperties child (List.mem_cons_of_mem _ hmem))
      (fun child hmem => hitems child (List.mem_cons_of_mem _ hmem))
      (fun key child hmem => hunordered key child (List.mem_cons_of_mem _ hmem))
    rw [encodeNode.members, CheckContract.encodeNode.members]
    split
    · exact hrest
    · have hchild : (if key = str "properties" then encodeNode.properties child
          else if key = str "items" then encodeNode child
          else if key ∈ schemaUnorderedArrays then encodeNode.unordered child
          else pure (encode child)) = (pure (encodeChild key child) : Except PyError Jsonable) := by
        unfold encodeChild
        split
        · rename_i hkey
          exact hproperties child (hkey ▸ List.mem_cons_self)
        · split
          · rename_i hkey
            exact hitems child (hkey ▸ List.mem_cons_self)
          · split
            · rename_i hkey
              exact hunordered key child List.mem_cons_self hkey
            · rfl
      rw [hchild, pure_bind, hrest, pure_bind]
      rfl

/-- A schema of the profile is encoded without raising. -/
theorem encodeNode_eq (remaining : Nat) : ∀ {root : Bool} {node : Value}, Profile remaining root node →
    node.Keyed → encodeNode node = pure (CheckContract.encodeNode node) := by
  induction remaining with
  | zero => exact fun h => h.elim
  | succ remaining ih =>
    intro root node h hkeyed
    obtain ⟨ms, rfl⟩ := h.1.object
    obtain ⟨hnodup, hmembers⟩ := (Value.keyed_obj ms).mp hkeyed
    have hget : ∀ {key : String} {child : Value}, (str key, child) ∈ ms →
        (Value.obj ms).get? key = some child := Dict.get?_of_mem hnodup
    have hencoded : encodeNode.members ms = pure (CheckContract.encodeNode.members ms) := by
      apply encodeNode_members
      · intro child hmem
        obtain ⟨ps, rfl, hps⟩ := properties_of_profile h (hget hmem)
        have hkeyedPs := ((Value.keyed_obj ps).mp (hmembers _ hmem)).2
        rw [encodeNode.properties, encodeNode_nodes fun p hp => ih (hps p hp) (hkeyedPs p hp)]
        rfl
      · exact fun child hmem => ih (items_of_profile h (hget hmem)) (hmembers _ hmem)
      · intro key child hmem hkey
        have hname : ∃ keyword, key = str keyword := by
          simp only [schemaUnorderedArrays, List.mem_cons, List.not_mem_nil, or_false] at hkey
          rcases hkey with rfl | rfl <;> exact ⟨_, rfl⟩
        obtain ⟨keyword, rfl⟩ := hname
        obtain ⟨xs, rfl⟩ := unordered_of_profile h.1 hkey (hget hmem)
        rw [CheckContract.encodeNode.unordered, encode_items]
        rfl
    rw [encodeNode, hencoded]
    rfl

end Node

/-! ## A document without issues -/

/-- A document on which the later functions run. -/
structure Licensed (schema : Value) : Prop where
  profile : Profile (maxNestingDepth + 1) true schema
  keyed : schema.Keyed

section Licensed

variable (rt : Runtime) {schema : Value}

theorem Licensed.isDict (h : Licensed schema) : isDict schema = true := by
  obtain ⟨ms, rfl⟩ := h.profile.1.object
  rfl

theorem schemaValidationFingerprint_eq (h : Licensed schema) :
    schemaValidationFingerprint rt schema = pure (CheckContract.schemaValidationFingerprint rt schema) := by
  rw [schemaValidationFingerprint, encodeNode_eq _ h.profile h.keyed]
  rfl

theorem mapM_of {ε α β : Type} {xs : List α} {f : α → Except ε β} {g : α → β}
    (h : ∀ x ∈ xs, f x = pure (g x)) : xs.mapM f = pure (xs.map g) := by
  induction xs with
  | nil => rfl
  | cons x xs ih =>
    obtain ⟨hx, hxs⟩ := List.forall_mem_cons.mp h
    rw [List.mapM_cons, hx, ih hxs]
    rfl

/-- Names that are collected in a set are compared as a set. -/
theorem sameSet_strs (names : List Str) (fields : List String) :
    sameSet (names.map .str) fields = pure (sameNames names fields) := by
  unfold sameSet
  rw [setOf_strs, pure_bind]
  have hkept : ((names.dedup.map Value.str).all fun v => fields.any fun field => v.eqStr field) =
      names.all fun name => name ∈ fields.map str := by
    rw [Bool.eq_iff_iff, List.all_map, List.all_eq_true, List.all_eq_true]
    simp only [List.mem_dedup, Function.comp_apply, List.any_eq_true, Value.eqStr_iff, Value.str.injEq,
      decide_eq_true_eq, List.mem_map, @eq_comm Str]
  have hfields : (fields.all fun field => (names.dedup.map Value.str).any fun v => v.eqStr field) =
      (fields.map str).all fun field => field ∈ names := by
    rw [Bool.eq_iff_iff, List.all_map, List.all_eq_true, List.all_eq_true]
    simp only [List.any_map, List.any_eq_true, Function.comp_apply, List.mem_dedup, Value.eqStr_iff,
      Value.str.injEq, decide_eq_true_eq, exists_eq_right]
  rw [hkept, hfields]
  rfl

theorem eqStr_getD (x : Option Value) (s : String) :
    (x.getD .null).eqStr s = x.any fun v => v.eqStr s := by
  cases x <;> rfl

theorem fieldIssues_eq (c : CanonicalSchema) (properties : List (Str × Value)) (names : List Value)
    (field expectedConst : String) :
    fieldIssues rt c (.obj properties) (.arr names) field expectedConst =
      pure (CheckContract.fieldIssues rt c properties names field expectedConst) := by
  have hnames : iterate (.arr names) = pure names := rfl
  have hrule : ∀ rule : Value, (pure (!Raising.isDict rule) <||> (do
        let type ← dictGet rule "type"
        return !type.eqStr "string") <||> do
      let const ← dictGet rule "const"
      return !const.eqStr expectedConst : Except PyError Bool) =
      pure (!((rule.get? "type").any (fun t => t.eqStr "string") &&
        (rule.get? "const").any fun v => v.eqStr expectedConst)) := by
    intro rule
    cases rule with
    | obj ms =>
      rw [dictGet_obj, dictGet_obj, pure_bind, pure_bind, eqStr_getD, eqStr_getD]
      rw [orM_of fun _ => orM_of fun _ => rfl, Bool.not_and]
      rfl
    | _ => rfl
  unfold fieldIssues CheckContract.fieldIssues
  rw [dictGet_obj, pure_bind, hnames, pure_bind, hrule, pure_bind]
  have hwrong : ∀ (b : Bool) (message : List Str),
      (if (!b) = true then message else []) = if b = true then [] else message := by
    intro b message
    cases b <;> rfl
  rw [hwrong]
  have habsent : ∀ x : Option Value,
      (((x.getD .null).get? "type").any (fun t => t.eqStr "string") &&
        ((x.getD .null).get? "const").any fun v => v.eqStr expectedConst) =
      x.any fun rule => (rule.get? "type").any (fun t => t.eqStr "string") &&
        (rule.get? "const").any fun v => v.eqStr expectedConst := by
    intro x
    cases x <;> rfl
  rw [habsent]
  rfl

theorem stringItems_strs (names : List Str) : stringItems (names.map .str) = some names := by
  induction names with
  | nil => rfl
  | cons name names ih => rw [List.map_cons, stringItems, ih]; rfl

/-- The framing rules of an object with the keywords of one. -/
theorem framingIssues_of {ms : List (Str × Value)} (c : CanonicalSchema) {names : List Str}
    {ps : List (Str × Value)} (htype : (Value.obj ms).get? "type" = some (.str (str "object")))
    (hrequired : (Value.obj ms).get? "required" = some (.arr (names.map .str)))
    (hproperties : (Value.obj ms).get? "properties" = some (.obj ps)) :
    framingIssues rt c (.obj ms) = pure (CheckContract.framingIssues rt c (.obj ms)) := by
  have hframed : (!(Value.str (str "object")).eqStr "object" || !isList (.arr (names.map .str)) ||
      !Raising.isDict (.obj ps)) = false := rfl
  have hkeys : iterate (.obj ps) = pure ((Dict.keys ps).map .str) := rfl
  have hnames : iterate (.arr (names.map .str)) = pure (names.map .str) := rfl
  unfold framingIssues CheckContract.framingIssues
  rw [dictGet_obj, pure_bind, dictGet_obj, pure_bind, dictGet_obj, pure_bind, htype, hrequired,
    hproperties, Option.getD_some, Option.getD_some, Option.getD_some, hframed,
    if_neg Bool.false_ne_true, hkeys, pure_bind, sameSet_strs, pure_bind, hnames, pure_bind, sameSet_strs,
    pure_bind, fieldIssues_eq, pure_bind, fieldIssues_eq, pure_bind]
  dsimp only
  rw [if_pos rfl, stringItems_strs]
  rfl

/-- The framing rules read the lists and dictionaries that the profile promises. -/
theorem framingIssues_eq (h : Licensed schema) (c : CanonicalSchema) :
    framingIssues rt c schema = pure (CheckContract.framingIssues rt c schema) := by
  obtain ⟨hnode, -⟩ := h.profile
  obtain ⟨ms, rfl⟩ := hnode.object
  by_cases hobject : typeIs (.obj ms) "object" = true
  · obtain ⟨names, hnames, -⟩ := (hnode.objectKind hobject).required
    obtain ⟨ps, hps⟩ := (hnode.objectKind hobject).properties
    exact framingIssues_of rt c (typeIs_iff.mp hobject) (required_of hnames) hps
  · -- nothing is read from the keywords of another type
    rw [Bool.not_eq_true] at hobject
    unfold framingIssues CheckContract.framingIssues
    rw [dictGet_obj, pure_bind, dictGet_obj, pure_bind, dictGet_obj, pure_bind]
    have htype : (((Value.obj ms).get? "type").getD .null).eqStr "object" = false := by
      rw [← hobject]
      exact typeIs_eq (.obj ms) "object"
    rw [htype, Bool.not_false, Bool.true_or, Bool.true_or, if_pos rfl]
    split
    · rename_i type required properties heq hrequired hproperties
      rw [if_neg]
      rintro rfl
      rw [typeIs_iff.mpr heq] at hobject
      cases hobject
    · rfl

theorem invariantIssues_eq (h : Licensed schema) (c : CanonicalSchema) :
    invariantIssues rt c schema = pure (CheckContract.invariantIssues rt c schema) := by
  obtain ⟨id, ids, hid⟩ := h.profile.1.identity.2
  obtain ⟨ms, rfl⟩ := h.profile.1.object
  unfold invariantIssues CheckContract.invariantIssues
  rw [getItem_of hid, schemaValidationFingerprint_eq rt h, framingIssues_eq rt h, hid]
  rfl

/-- The entries of a set of schemas that were loaded without issues. -/
theorem mem_of_loaded {schemas : Schemas} : ∀ {cs : List CanonicalSchema}
    {loaded : List (CanonicalSchema × Value)},
    (cs.mapM fun c => (schemas.get c.path).map fun schema => (c, schema)) = some loaded →
    ∀ entry ∈ loaded, entry.1 ∈ cs ∧ schemas.get entry.1.path = some entry.2 := by
  intro cs
  induction cs with
  | nil =>
    intro loaded h entry hentry
    cases h
    cases hentry
  | cons c cs ih =>
    intro loaded h entry hentry
    rw [List.mapM_cons] at h
    obtain ⟨first, hfirst, hmore⟩ := Option.bind_eq_some_iff.mp h
    obtain ⟨rest, hrest, hcons⟩ := Option.bind_eq_some_iff.mp hmore
    obtain ⟨schema, hschema, rfl⟩ := Option.map_eq_some_iff.mp hfirst
    cases hcons
    rcases List.mem_cons.mp hentry with rfl | hmem
    · exact ⟨List.mem_cons_self, hschema⟩
    · obtain ⟨hc, hget⟩ := ih hrest entry hmem
      exact ⟨List.mem_cons_of_mem _ hc, hget⟩

/-- The identities are strings, so that they can be collected in a set. -/
theorem ids_of_licensed {loaded : List (CanonicalSchema × Value)}
    (h : ∀ entry ∈ loaded, Licensed entry.2) : ∃ names : List Str,
      (loaded.mapM fun entry => getItem entry.2 "$id") = pure (names.map .str) ∧
      (loaded.map fun entry => ((entry.2.get? "$id").map stringOf).join) = names.map some := by
  induction loaded with
  | nil => exact ⟨[], rfl, rfl⟩
  | cons entry loaded ih =>
    obtain ⟨hentry, hloaded⟩ := List.forall_mem_cons.mp h
    obtain ⟨names, hids, hstrings⟩ := ih hloaded
    obtain ⟨c, cs, hid⟩ := hentry.profile.1.identity.2
    obtain ⟨ms, hms⟩ := hentry.profile.1.object
    have hget : getItem entry.2 "$id" = pure (.str (c :: cs)) := by
      rw [hms] at hid ⊢
      exact getItem_of hid
    refine ⟨(c :: cs) :: names, ?_, ?_⟩
    · rw [List.mapM_cons, hget, hids]
      rfl
    · rw [List.map_cons, hstrings, hid]
      rfl

/-- What was loaded without issues is a dictionary. -/
theorem filter_isDict {schemas : Schemas}
    (h : ∀ c ∈ canonicalSchemas, ∀ schema, schemas.get c.path = some schema → Licensed schema)
    {c : CanonicalSchema} (hc : c ∈ canonicalSchemas) :
    (schemas.get c.path).filter Raising.isDict = schemas.get c.path := by
  cases hget : schemas.get c.path with
  | none => rfl
  | some schema => rw [Option.filter_some, if_pos (h c hc schema hget).isDict]

theorem checkCanonicalSchemaInvariants_eq {schemas : Schemas}
    (h : ∀ c ∈ canonicalSchemas, ∀ schema, schemas.get c.path = some schema → Licensed schema) :
    checkCanonicalSchemaInvariants rt schemas =
      pure (CheckContract.checkCanonicalSchemaInvariants rt schemas) := by
  unfold checkCanonicalSchemaInvariants CheckContract.checkCanonicalSchemaInvariants
  have hfilter : ∀ c ∈ canonicalSchemas, (schemas.get c.path).filter Raising.isDict = schemas.get c.path :=
    fun c hc => filter_isDict h hc
  have hload : (canonicalSchemas.mapM fun c => ((schemas.get c.path).filter Raising.isDict).map
        fun schema => (c, schema)) =
      canonicalSchemas.mapM fun c => (schemas.get c.path).map fun schema => (c, schema) := by
    unfold canonicalSchemas at hfilter ⊢
    simp only [List.forall_mem_cons] at hfilter
    simp only [List.mapM_cons, List.mapM_nil, hfilter.1, hfilter.2.1, hfilter.2.2.1]
  rw [hload]
  cases hloaded : canonicalSchemas.mapM fun c => (schemas.get c.path).map fun schema => (c, schema) with
  | none => rfl
  | some loaded =>
    have hlicensed : ∀ entry ∈ loaded, Licensed entry.2 := by
      intro entry hentry
      obtain ⟨hc, hget⟩ := mem_of_loaded hloaded entry hentry
      exact h _ hc _ hget
    obtain ⟨names, hids, hstrings⟩ := ids_of_licensed hlicensed
    have hdistinct : (names.dedup.map Value.str).length = (names.map Value.str).length ↔
        (names.map some).Nodup := by
      rw [List.length_map, List.length_map, eq_comm, length_setOf_strs,
        List.nodup_map_iff (Option.some_injective Str)]
    have hissues : (loaded.mapM fun entry => invariantIssues rt entry.1 entry.2) =
        pure (loaded.map fun entry => CheckContract.invariantIssues rt entry.1 entry.2) :=
      mapM_of fun entry hentry => invariantIssues_eq rt (hlicensed entry hentry) entry.1
    dsimp only
    rw [hids, pure_bind, setOf_strs, pure_bind, hissues, pure_bind, hstrings, List.flatMap_def]
    simp only [hdistinct]

end Licensed

/-! ## Values side by side -/

theorem nested_eq (schema : Value) (keys : List String) :
    nested schema keys = pure ((CheckContract.nested schema keys).getD .null) := by
  induction keys generalizing schema with
  | nil => rfl
  | cons key keys ih =>
    have hnull : nested .null keys = pure .null := by cases keys <;> rfl
    cases schema with
    | obj ms =>
      have hdict : isDict (.obj ms) = true := rfl
      rw [nested, if_pos hdict, dictGet_obj, pure_bind, CheckContract.nested]
      cases (Value.obj ms).get? key with
      | none => exact hnull
      | some value =>
        cases value with
        | null => exact hnull
        | _ => exact ih _
    | _ => rfl

/-- JSON `null` and what is absent are told apart nowhere. -/
theorem nested_ne_null {schema : Value} (h : schema ≠ .null) (keys : List String) :
    CheckContract.nested schema keys ≠ some .null := by
  induction keys generalizing schema with
  | nil => exact fun heq => h (Option.some.inj heq)
  | cons key keys ih =>
    unfold CheckContract.nested
    split
    · exact fun heq => by cases heq
    · exact fun heq => by cases heq
    · rename_i value hvalue hget
      exact ih hvalue

theorem isNone_getD {x : Option Value} (h : x ≠ some .null) : isNone (x.getD .null) = x.isNone := by
  cases x with
  | none => rfl
  | some value =>
    cases value with
    | null => exact absurd rfl h
    | _ => rfl

theorem allM_of {ε α : Type} {xs : List α} {f : α → Except ε Bool} {p : α → Bool}
    (h : ∀ x ∈ xs, f x = pure (p x)) : xs.allM f = pure (xs.all p) := by
  induction xs with
  | nil => rfl
  | cons x xs ih =>
    obtain ⟨hx, hxs⟩ := List.forall_mem_cons.mp h
    rw [List.allM, hx, List.all_cons, pure_bind]
    cases p x with
    | true => exact ih hxs
    | false => rfl

/-- Tests that agree on the items of a list agree on the list. -/
theorem all_of_mem {α : Type} {xs : List α} {p q : α → Bool} (h : ∀ x ∈ xs, p x = q x) :
    xs.all p = xs.all q := by
  rw [Bool.eq_iff_iff, List.all_eq_true, List.all_eq_true]
  exact forall₂_congr fun x hx => by rw [h x hx]

/-- `json_equal` compares whatever is there. -/
theorem requireEqual_eq (label : String) (values : List (Option Value))
    (h : ∀ x ∈ values, x ≠ some .null) :
    requireEqual label (values.map fun x => x.getD .null) =
      pure (CheckContract.requireEqual label values) := by
  cases values with
  | nil => rfl
  | cons first others =>
    have hnone : ∀ x ∈ first :: others, isNone (x.getD .null) = x.isNone := fun x hx => isNone_getD (h x hx)
    have hall : ((first :: others).map fun x => x.getD .null).all isNone =
        (first :: others).all fun x => x.isNone := by
      rw [List.all_map]
      exact all_of_mem hnone
    have hany : ((first :: others).map fun x => x.getD .null).any isNone =
        (first :: others).any fun x => x.isNone := by
      rw [List.any_map, List.any_eq_not_all_not, List.any_eq_not_all_not]
      exact congrArg (!·) (all_of_mem fun x hx => congrArg (!·) (hnone x hx))
    rw [List.map_cons] at hall hany ⊢
    unfold requireEqual CheckContract.requireEqual
    dsimp only
    rw [hall, hany]
    split
    · rfl
    · -- values are compared only when none is missing
      have hdiffer : (pure ((first :: others).any fun x => x.isNone) <||> do
          let same ← (others.map fun x => x.getD .null).allM (jsonEqual (first.getD .null))
          return !same : Except PyError Bool) =
          pure (((first :: others).any fun x => x.isNone) || !(first.any fun value =>
            others.all fun other => other.any fun other => CheckContract.jsonEqual value other)) := by
        refine orM_of fun hpresent => ?_
        rw [allM_of fun x _ => jsonEqual_eq _ x, pure_bind, List.all_map]
        have hsome : ∀ x ∈ first :: others, ∃ value, x = some value := by
          intro x hx
          rw [List.any_eq_false] at hpresent
          exact Option.ne_none_iff_exists'.mp fun heq => hpresent x hx (by rw [heq]; rfl)
        obtain ⟨⟨value, rfl⟩, hothers⟩ := List.forall_mem_cons.mp hsome
        refine congrArg (fun b : Bool => pure !b) (all_of_mem fun x hx => ?_)
        obtain ⟨other, rfl⟩ := hothers x hx
        rfl
      rw [hdiffer]
      rfl

section Parity

variable {schemas : Schemas}

theorem checkSchemaParity_eq
    (h : ∀ c ∈ canonicalSchemas, ∀ schema, schemas.get c.path = some schema → Licensed schema) :
    checkSchemaParity schemas = pure (CheckContract.checkSchemaParity schemas) := by
  unfold checkSchemaParity CheckContract.checkSchemaParity
  rw [filter_isDict h (by simp [canonicalSchemas]), filter_isDict h (by simp [canonicalSchemas]),
    filter_isDict h (by simp [canonicalSchemas])]
  cases hrequest : schemas.get requestCanonical.path with
  | none => rfl
  | some request =>
    cases hsuccess : schemas.get successCanonical.path with
    | none => rfl
    | some success =>
      cases hfailure : schemas.get failureCanonical.path with
      | none => rfl
      | some failure =>
        have hne : ∀ {schema : Value}, Licensed schema → schema ≠ .null := by
          rintro schema hschema rfl
          exact absurd hschema.isDict Bool.false_ne_true
        have hrequest := nested_ne_null (hne (h _ (by simp [canonicalSchemas]) _ hrequest))
        have hsuccess := nested_ne_null (hne (h _ (by simp [canonicalSchemas]) _ hsuccess))
        have hfailure := nested_ne_null (hne (h _ (by simp [canonicalSchemas]) _ hfailure))
        have hpair : ∀ (label : String) {x y : Option Value}, x ≠ some .null → y ≠ some .null →
            requireEqual label [x.getD .null, y.getD .null] =
              pure (CheckContract.requireEqual label [x, y]) := by
          intro label x y hx hy
          refine requireEqual_eq label [x, y] ?_
          exact List.forall_mem_cons.mpr ⟨hx, List.forall_mem_singleton.mpr hy⟩
        have hids : requireEqual "request_id" ([request, success, failure].map fun schema =>
              (CheckContract.nested schema ["properties", "request_id"]).getD .null) =
            pure (CheckContract.requireEqual "request_id" ([request, success, failure].map fun schema =>
              CheckContract.nested schema ["properties", "request_id"])) := by
          refine requireEqual_eq "request_id" [_, _, _] ?_
          exact List.forall_mem_cons.mpr ⟨hrequest _, List.forall_mem_cons.mpr
            ⟨hsuccess _, List.forall_mem_singleton.mpr (hfailure _)⟩⟩
        dsimp only
        rw [mapM_of fun schema _ => nested_eq schema _]
        simp only [pure_bind, nested_eq, hids, hpair _ (hrequest _) (hrequest _),
          hpair _ (hsuccess _) (hfailure _), hpair _ (hrequest _) (hfailure _)]

end Parity

/-! ## Three documents -/

/-- What `load_canonical_schemas` keeps of three documents: those without issues. -/
def schemasOf (rt : Runtime) (documents : CanonicalSchema → Value) : Except PyError Schemas :=
  canonicalSchemas.mapM fun c => do
    let issues ← schemaIssues rt (documents c)
    return (c.path, if issues = [] then some (documents c) else none)

theorem licensed_of (rt : Runtime) {schema : Value} (hload : Loads rt schema)
    (hissues : schemaIssues rt schema = pure []) : Licensed schema := by
  rw [schemaIssues_eq] at hissues
  exact ⟨(schemaIssues_nil_iff rt schema).mp (Except.ok.inj hissues), hload.keyed⟩

theorem schemasOf_eq (rt : Runtime) (documents : CanonicalSchema → Value) :
    schemasOf rt documents = pure (canonicalSchemas.map fun c =>
      (c.path, if CheckContract.schemaIssues rt (documents c) = [] then some (documents c) else none)) := by
  refine mapM_of fun c _ => ?_
  rw [schemaIssues_eq]
  rfl

/-- The loop of `load_canonical_schemas` keeps these entries when its three files are there and load. -/
theorem loadCanonicalSchemas_schemasOf {rt : Runtime} {tree : Tree} {documents : CanonicalSchema → Value}
    (hsafe : ∀ c ∈ canonicalSchemas, safeFile tree (.str (asPosix c.path)) (path ["schema"]) = .ok c.path)
    (hload : ∀ c ∈ canonicalSchemas, strictJson rt (tree.read c.path) = .ok (documents c)) :
    schemasOf rt documents = pure (loadCanonicalSchemas rt tree).1 := by
  have hround : ∀ c ∈ canonicalSchemas, (loadSchema rt tree c).1 =
      [(c.path, if CheckContract.schemaIssues rt (documents c) = [] then some (documents c) else none)] := by
    intro c hc
    unfold loadSchema
    rw [hsafe c hc]
    dsimp only
    rw [hload c hc]
  rw [schemasOf_eq, loadCanonicalSchemas]
  simp only [canonicalSchemas, List.forall_mem_cons] at hround
  simp only [canonicalSchemas, List.map_cons, List.map_nil, List.flatMap_cons, List.flatMap_nil, hround.1,
    hround.2.1, hround.2.2.1]
  rfl

/-- An entry that is kept is a document without issues. -/
theorem licensed_of_schemasOf {rt : Runtime} {documents : CanonicalSchema → Value} {schemas : Schemas}
    (hload : ∀ c ∈ canonicalSchemas, Loads rt (documents c)) (h : schemasOf rt documents = .ok schemas) :
    ∀ c ∈ canonicalSchemas, ∀ schema, schemas.get c.path = some schema → Licensed schema := by
  obtain rfl := Except.ok.inj ((schemasOf_eq rt documents).symm.trans h)
  have hget : ∀ c ∈ canonicalSchemas, Schemas.get (canonicalSchemas.map fun c =>
      (c.path, if CheckContract.schemaIssues rt (documents c) = [] then some (documents c) else none))
      c.path =
      if CheckContract.schemaIssues rt (documents c) = [] then some (documents c) else none := by
    intro c hc
    simp only [canonicalSchemas, List.mem_cons, List.not_mem_nil, or_false] at hc
    rcases hc with rfl | rfl | rfl <;> rfl
  intro c hc schema hschema
  rw [hget c hc] at hschema
  split at hschema
  · rename_i hissues
    obtain rfl := Option.some.inj hschema
    refine licensed_of rt (hload c hc) ?_
    rw [schemaIssues_eq, hissues]
  · cases hschema

/-- `schema_issues` raises on nothing and reports at most fifty issues.  Whatever the three documents
are, the checks of the set raise nothing, and neither do the fingerprint and the validation of any
instance for a document without issues. -/
theorem schemaIssues_licenses (rt : Runtime) (documents : CanonicalSchema → Value)
    (hload : ∀ c ∈ canonicalSchemas, Loads rt (documents c)) :
    (∀ v : Value, ∃ issues, schemaIssues rt v = .ok issues ∧ issues.length ≤ maxErrors) ∧
      (∀ c ∈ canonicalSchemas, schemaIssues rt (documents c) = .ok [] →
        (∃ fingerprint, schemaValidationFingerprint rt (documents c) = .ok fingerprint) ∧
          ∀ value, Loads rt value →
            ∃ violations, validateInstance value (documents c) = .ok violations) ∧
      ∃ schemas, schemasOf rt documents = .ok schemas ∧
        (∃ errors, checkCanonicalSchemaInvariants rt schemas = .ok errors) ∧
        ∃ errors, checkSchemaParity schemas = .ok errors := by
  refine ⟨fun v => ⟨_, schemaIssues_eq rt v, schemaIssues_length_le rt v⟩, ?_,
    _, schemasOf_eq rt documents, ?_⟩
  · intro c hc hissues
    have hlicensed := licensed_of rt (hload c hc) hissues
    refine ⟨⟨_, schemaValidationFingerprint_eq rt hlicensed⟩, fun value hvalue => ?_⟩
    have hnil := (schemaIssues_nil_iff rt _).mpr hlicensed.profile
    obtain ⟨violations, hviolations, -⟩ :=
      validateInstance_exact rt hnil hlicensed.keyed hvalue.keyed
    exact ⟨violations, hviolations⟩
  · have hentries := licensed_of_schemasOf hload (schemasOf_eq rt documents)
    exact ⟨⟨_, checkCanonicalSchemaInvariants_eq rt hentries⟩, _, checkSchemaParity_eq hentries⟩

/-- A schema, a document that is no object, and one whose type is no string. -/
def mixedDocuments (c : CanonicalSchema) : Value :=
  if c = requestCanonical then flagSchema
  else if c = successCanonical then .null
  else .obj [(str "type", .arr [])]

theorem schemaIssues_licenses_sample :
    ((∃ fingerprint, schemaValidationFingerprint default flagSchema = .ok fingerprint) ∧
      ∃ violations, validateInstance (.bool true) flagSchema = .ok violations) ∧
    ∃ schemas, schemasOf default mixedDocuments = .ok schemas ∧
      (∃ errors, checkCanonicalSchemaInvariants default schemas = .ok errors) ∧
      ∃ errors, checkSchemaParity schemas = .ok errors := by
  have hloads : ∀ {v : Value}, writable v = true → (writeDoc v).nesting ≤ maxNestingDepth →
      (written v).length ≤ maxJSONBytes → Loads default v := fun h hnesting hsize =>
    ⟨some (written _), strictJson_written (by decide) (fun _ => rfl) h hnesting hsize⟩
  obtain ⟨-, hdocuments, hset⟩ := schemaIssues_licenses default mixedDocuments (by
    simp only [canonicalSchemas, List.forall_mem_cons]
    exact ⟨hloads (by decide) (by decide +kernel) (by decide +kernel),
      hloads (by decide) (by decide) (by decide), hloads (by decide) (by decide) (by decide),
      fun c hc => absurd hc List.not_mem_nil⟩)
  obtain ⟨hfingerprint, hvalidate⟩ := hdocuments requestCanonical (by simp [canonicalSchemas]) (by
    rw [schemaIssues_eq]
    exact congrArg Except.ok (by decide))
  exact ⟨⟨hfingerprint, hvalidate (.bool true) (hloads (by decide) (by decide) (by decide))⟩, hset⟩

end FastGate.CheckContract.Raising
