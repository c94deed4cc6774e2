/-
# FastGate.CheckContract.Schemas — the committed v1 schemas

The three schema files of `gateway/contracts/model-turn/v1/schema` as the values they load to, put
together from the kinds of nodes they use.  Each kind has one lemma that says which values conform to
it (`conforms_constNode`, `conforms_patternNode`, `conforms_objectNode` and so on), so that nothing
about a particular schema has to unfold the keywords of its nodes again.

`Annotates` are the keywords that may stand in front of an object schema without changing what it
accepts; only the roots have any.

`requestSchema_profile`, `successSchema_profile` and `failureSchema_profile`: the committed schemas
have no issues.  With `validateInstance_nil_iff` the lemmas about `Conforms` then are lemmas about what
the checker says of a fixture.
-/
import FastGate.CheckContract.Conforms

open FastGate.Python

namespace FastGate.CheckContract

/-! ## Nodes -/

/-- A string of a schema. -/
def text (s : String) : Value := .str (str s)

/-- A bound of a schema. -/
def natNode (n : Nat) : Value := .num (.ofNat n)

/-- An object with its members in the order of the file. -/
def object (ms : List (String × Value)) : Value := .obj (ms.map fun m => (str m.1, m.2))

/-- The one string that is allowed. -/
def constNode (value : String) : Value := object [("type", text "string"), ("const", text value)]

/-- One of some strings. -/
def enumNode (values : List String) : Value :=
  object [("type", text "string"), ("enum", .arr (values.map text))]

/-- A text that is neither empty nor too long. -/
def textNode (maximum : Nat) : Value :=
  object [("type", text "string"), ("minLength", natNode 1), ("maxLength", natNode maximum)]

/-- Such a text that matches an audited pattern, too. -/
def patternNode (maximum : Nat) (pattern : Str) : Value :=
  object [("type", text "string"), ("minLength", natNode 1), ("maxLength", natNode maximum),
    ("pattern", .str pattern)]

/-- A count of tokens: what a double represents exactly. -/
def tokensNode : Value :=
  object [("type", text "integer"), ("minimum", natNode 0), ("maximum", natNode 9007199254740991)]

/-- A flag. -/
def booleanNode : Value := object [("type", text "boolean")]

/-- A list of so many items of one kind. -/
def arrayNode (minimum maximum : Nat) (items : Value) : Value :=
  object [("type", text "array"), ("minItems", natNode minimum), ("maxItems", natNode maximum),
    ("items", items)]

/-- A closed object; the head is empty but at the root. -/
def objectNode (head : List (String × Value)) (required : List String)
    (properties : List (String × Value)) : Value :=
  object (head ++ [("type", text "object"), ("additionalProperties", .bool false),
    ("required", .arr (required.map text)), ("properties", object properties)])

/-- The keywords of the root that say nothing about instances. -/
def rootHead (id title description : String) : List (String × Value) :=
  [("$schema", text schemaUri), ("$id", text id), ("title", text title),
    ("description", text description)]

/-! ## The files -/

/-- `request.schema.json` -/
def requestSchema : Value :=
  objectNode
    (rootHead "urn:fastgate:model-turn:v1:request" "FastGate model-turn v1 request"
      "Strict non-streaming FastGate-owned model-turn request shape.")
    ["version", "kind", "request_id", "model_alias", "conversation", "instructions",
      "required_capabilities"]
    [("version", constNode "v1"),
      ("kind", constNode "model_turn.request"),
      ("request_id", patternNode 128 identifierPattern),
      ("model_alias", patternNode 128 identifierPattern),
      ("conversation", arrayNode 1 64 (objectNode [] ["role", "content"]
        [("role", enumNode ["user", "assistant"]), ("content", textNode 65536)])),
      ("instructions", arrayNode 0 32 (objectNode [] ["source", "content"]
        [("source", patternNode 256 controlSafePattern), ("content", textNode 65536)])),
      ("required_capabilities", arrayNode 0 1 (enumNode ["tool_calls"]))]

/-- The usage that completed and failed results may report. -/
def usageNode : Value :=
  objectNode [] ["input_tokens", "output_tokens"]
    [("input_tokens", tokensNode), ("output_tokens", tokensNode)]

/-- `success.schema.json` -/
def successSchema : Value :=
  objectNode
    (rootHead "urn:fastgate:model-turn:v1:success" "FastGate model-turn v1 completed result"
      "Strict non-streaming successful FastGate model-turn result shape.")
    ["version", "kind", "request_id", "output_text"]
    [("version", constNode "v1"),
      ("kind", constNode "model_turn.completed"),
      ("request_id", patternNode 128 identifierPattern),
      ("output_text", textNode 65536),
      ("usage", usageNode)]

/-- `failure.schema.json` -/
def failureSchema : Value :=
  objectNode
    (rootHead "urn:fastgate:model-turn:v1:failure" "FastGate model-turn v1 failed result"
      "Strict non-streaming normalized FastGate model-turn failure shape.")
    ["version", "kind", "request_id", "error"]
    [("version", constNode "v1"),
      ("kind", constNode "model_turn.failed"),
      ("request_id", patternNode 128 identifierPattern),
      ("error", objectNode [] ["code", "message", "retryable"]
        [("code", enumNode ["invalid_request", "authentication_failed", "rate_limited",
            "request_rejected", "unsupported_capability", "unavailable", "invalid_response",
            "unsupported_upstream_output", "internal_error"]),
          ("message", patternNode 1024 controlSafePattern),
          ("retryable", booleanNode)]),
      ("usage", usageNode)]

/-! ## Looking up keywords -/

@[simp] theorem get?_object_nil (key : String) : (object []).get? key = none := rfl

@[simp] theorem get?_object_cons (k : String) (v : Value) (ms : List (String × Value)) (key : String) :
    (object ((k, v) :: ms)).get? key = if k = key then some v else (object ms).get? key := by
  rw [Value.get?, object, Value.dict, List.map_cons, Dict.get?_cons]
  simp only [str_injective.eq_iff]
  rfl

theorem get?_object_append (ms ns : List (String × Value)) (key : String) :
    (object (ms ++ ns)).get? key = ((object ms).get? key).or ((object ns).get? key) := by
  induction ms with
  | nil => rfl
  | cons m ms ih =>
    obtain ⟨k, v⟩ := m
    rw [List.cons_append, get?_object_cons, get?_object_cons, ih]
    split <;> rfl

/-- The members of a schema object, as a dictionary of its properties. -/
theorem propertiesOf_object {ms properties : List (String × Value)}
    (h : (object ms).get? "properties" = some (object properties)) :
    propertiesOf (object ms) = properties.map fun m => (str m.1, m.2) := by
  rw [propertiesOf, h]
  rfl

/-! ## What the kinds of nodes accept -/

section Nodes

variable {v : Value}

theorem enumMeets_absent {node : Value} (h : node.get? "enum" = none) : EnumMeets v node := by
  intro items hitems
  rw [h] at hitems
  cases hitems

theorem constMeets_absent {node : Value} (h : node.get? "const" = none) : ConstMeets v node := by
  intro c hc
  rw [h] at hc
  cases hc

theorem boundMeets_absent {keyword : String} {fails : Decimal → Bool} {node : Value}
    (h : node.get? keyword = none) : BoundMeets keyword fails node := by
  intro bound hbound
  rw [h] at hbound
  cases hbound

theorem boundMeets_iff {keyword : String} {fails : Decimal → Bool} {node : Value} {n : Nat}
    (h : node.get? keyword = some (natNode n)) :
    BoundMeets keyword fails node ↔ fails (.ofNat n) = false := by
  rw [BoundMeets, h]
  exact ⟨fun hall => hall _ rfl, fun hn bound hbound => by cases hbound; exact hn⟩

theorem ltValue_ofNat (m n : Nat) : (Decimal.ofNat m).ltValue (.ofNat n) = false ↔ n ≤ m := by
  rw [← Bool.not_eq_true, Decimal.ltValue_iff, Decimal.value_ofNat, Decimal.value_ofNat, Nat.cast_lt,
    Nat.not_lt]

/-- The bounds on a length, as the committed schemas write them. -/
theorem boundsMeet_iff {low high : String} {node : Value} {minimum maximum n : Nat}
    (hlow : node.get? low = some (natNode minimum)) (hhigh : node.get? high = some (natNode maximum)) :
    BoundsMeet low high (.ofNat n) node ↔ minimum ≤ n ∧ n ≤ maximum := by
  rw [BoundsMeet, boundMeets_iff hlow, boundMeets_iff hhigh, ltValue_ofNat, ltValue_ofNat]

theorem patternMeets_absent {s : Str} {node : Value} (h : node.get? "pattern" = none) :
    PatternMeets s node := by
  intro p matcher hp
  rw [h] at hp
  cases hp

theorem patternMeets_iff {s p : Str} {node : Value} {matcher : Str → Bool}
    (h : node.get? "pattern" = some (.str p)) (hp : auditedPatternMatchers.get? p = some matcher) :
    PatternMeets s node ↔ matcher s = true := by
  rw [PatternMeets, h]
  constructor
  · exact fun hall => hall p matcher rfl hp
  · intro hm p' matcher' hp' hmatcher'
    cases hp'
    rw [hp] at hmatcher'
    exact Option.some.inj hmatcher' ▸ hm

/-- The value a schema node of type string is asked about is a string. -/
theorem matchesType_string : matchesType v (text "string") = true ↔ ∃ s, v = .str s := by
  cases v <;> simp [matchesType, text, Value.eqStr_str]

theorem matchesType_array : matchesType v (text "array") = true ↔ ∃ xs, v = .arr xs := by
  cases v <;> simp [matchesType, text, Value.eqStr_str]

theorem matchesType_object : matchesType v (text "object") = true ↔ ∃ ms, v = .obj ms := by
  cases v <;> simp [matchesType, text, Value.eqStr_str]

theorem matchesType_boolean : matchesType v (text "boolean") = true ↔ ∃ b, v = .bool b := by
  cases v <;> simp [matchesType, text, Value.eqStr_str]

theorem matchesType_integer :
    matchesType v (text "integer") = true ↔ ∃ d, v = .num d ∧ d.isIntegral = true := by
  cases v <;> simp [matchesType, text, Value.eqStr_str]

theorem jsonEqual_text {s : String} : jsonEqual v (text s) = true ↔ v = text s := by
  cases v <;> simp [jsonEqual, text]

theorem conforms_constNode {s : String} : Conforms v (constNode s) ↔ v = text s := by
  have htype : (constNode s).get? "type" = some (text "string") := by simp [constNode]
  have hconst : (constNode s).get? "const" = some (text s) := by simp [constNode]
  have hmeets : ConstMeets v (constNode s) ↔ v = text s := by
    rw [ConstMeets, hconst, ← jsonEqual_text]
    exact ⟨fun h => h _ rfl, fun h c hc => Option.some.inj hc ▸ h⟩
  rw [Conforms.eq_def, schemaTypeOf_of htype, hmeets]
  constructor
  · exact fun h => h.2.2.1
  · rintro rfl
    refine ⟨matchesType_string.mpr ⟨_, rfl⟩, enumMeets_absent (by simp [constNode]), rfl, ⟨?_, ?_⟩, ?_⟩
    · exact boundMeets_absent (by simp [constNode])
    · exact boundMeets_absent (by simp [constNode])
    · exact patternMeets_absent (by simp [constNode])

theorem conforms_enumNode {values : List String} :
    Conforms v (enumNode values) ↔ ∃ s ∈ values, v = text s := by
  have htype : (enumNode values).get? "type" = some (text "string") := by simp [enumNode]
  have henum : (enumNode values).get? "enum" = some (.arr (values.map text)) := by simp [enumNode]
  have hmeets : EnumMeets v (enumNode values) ↔ ∃ s ∈ values, v = text s := by
    rw [EnumMeets, henum]
    constructor
    · intro h
      obtain ⟨item, hitem, heq⟩ := h _ rfl
      obtain ⟨s, hs, rfl⟩ := List.mem_map.mp hitem
      exact ⟨s, hs, jsonEqual_text.mp heq⟩
    · rintro ⟨s, hs, rfl⟩ items hitems
      cases hitems
      exact ⟨text s, List.mem_map_of_mem hs, jsonEqual_text.mpr rfl⟩
  rw [Conforms.eq_def, schemaTypeOf_of htype, hmeets]
  constructor
  · exact fun h => h.2.1
  · rintro ⟨s, hs, rfl⟩
    refine ⟨matchesType_string.mpr ⟨_, rfl⟩, ⟨s, hs, rfl⟩, constMeets_absent (by simp [enumNode]),
      ⟨?_, ?_⟩, ?_⟩
    · exact boundMeets_absent (by simp [enumNode])
    · exact boundMeets_absent (by simp [enumNode])
    · exact patternMeets_absent (by simp [enumNode])

/-- A string node that has no enumeration and no constant. -/
theorem conforms_string {node : Value} (htype : node.get? "type" = some (text "string"))
    (henum : node.get? "enum" = none) (hconst : node.get? "const" = none) :
    Conforms v node ↔ ∃ s, v = .str s ∧
      BoundsMeet "minLength" "maxLength" (.ofNat s.length) node ∧ PatternMeets s node := by
  rw [Conforms.eq_def, schemaTypeOf_of htype, matchesType_string]
  constructor
  · rintro ⟨⟨s, rfl⟩, -, -, h⟩
    exact ⟨s, rfl, h⟩
  · rintro ⟨s, rfl, h⟩
    exact ⟨⟨s, rfl⟩, enumMeets_absent henum, constMeets_absent hconst, h⟩

theorem conforms_textNode {maximum : Nat} :
    Conforms v (textNode maximum) ↔ ∃ s, v = .str s ∧ 1 ≤ s.length ∧ s.length ≤ maximum := by
  rw [conforms_string (by simp [textNode]) (by simp [textNode]) (by simp [textNode])]
  refine exists_congr fun s => and_congr_right fun _ => ?_
  have hbounds : BoundsMeet "minLength" "maxLength" (.ofNat s.length) (textNode maximum) ↔
      1 ≤ s.length ∧ s.length ≤ maximum := boundsMeet_iff (by simp [textNode]) (by simp [textNode])
  rw [hbounds]
  exact and_iff_left (patternMeets_absent (by simp [textNode]))

theorem conforms_patternNode {maximum : Nat} {pattern : Str} {matcher : Str → Bool}
    (hp : auditedPatternMatchers.get? pattern = some matcher) :
    Conforms v (patternNode maximum pattern) ↔
      ∃ s, v = .str s ∧ (1 ≤ s.length ∧ s.length ≤ maximum) ∧ matcher s = true := by
  rw [conforms_string (by simp [patternNode]) (by simp [patternNode]) (by simp [patternNode])]
  refine exists_congr fun s => and_congr_right fun _ => ?_
  have hbounds : BoundsMeet "minLength" "maxLength" (.ofNat s.length) (patternNode maximum pattern) ↔
      1 ≤ s.length ∧ s.length ≤ maximum :=
    boundsMeet_iff (by simp [patternNode]) (by simp [patternNode])
  rw [hbounds, patternMeets_iff (by simp [patternNode]) hp]

theorem conforms_arrayNode {minimum maximum : Nat} {items : Value} :
    Conforms v (arrayNode minimum maximum items) ↔
      ∃ xs, v = .arr xs ∧ (minimum ≤ xs.length ∧ xs.length ≤ maximum) ∧ ∀ x ∈ xs, Conforms x items := by
  have htype : (arrayNode minimum maximum items).get? "type" = some (text "array") := by simp [arrayNode]
  have hitems : (arrayNode minimum maximum items).get? "items" = some items := by simp [arrayNode]
  have hbounds : ∀ n, BoundsMeet "minItems" "maxItems" (.ofNat n) (arrayNode minimum maximum items) ↔
      minimum ≤ n ∧ n ≤ maximum := fun n => boundsMeet_iff (by simp [arrayNode]) (by simp [arrayNode])
  rw [Conforms.eq_def, schemaTypeOf_of htype, matchesType_array]
  constructor
  · rintro ⟨⟨xs, rfl⟩, -, -, hlen, hxs⟩
    exact ⟨xs, rfl, (hbounds _).mp hlen, fun x hx => conforms_elements.mp hxs x hx items hitems⟩
  · rintro ⟨xs, rfl, hlen, hxs⟩
    refine ⟨⟨xs, rfl⟩, enumMeets_absent (by simp [arrayNode]), constMeets_absent (by simp [arrayNode]),
      (hbounds _).mpr hlen, conforms_elements.mpr fun x hx other hother => ?_⟩
    rw [hitems] at hother
    exact Option.some.inj hother ▸ hxs x hx

theorem conforms_booleanNode : Conforms v booleanNode ↔ ∃ b, v = .bool b := by
  have htype : booleanNode.get? "type" = some (text "boolean") := by simp [booleanNode]
  rw [Conforms.eq_def, schemaTypeOf_of htype, matchesType_boolean]
  constructor
  · exact fun h => h.1
  · rintro ⟨b, rfl⟩
    exact ⟨⟨b, rfl⟩, enumMeets_absent (by simp [booleanNode]), constMeets_absent (by simp [booleanNode]),
      trivial⟩

/-- A token count is an integer between zero and the greatest safe integer of a double. -/
theorem conforms_tokensNode : Conforms v tokensNode ↔ ∃ d, v = .num d ∧ d.isIntegral = true ∧
    d.ltValue (.ofNat 0) = false ∧ (Decimal.ofNat 9007199254740991).ltValue d = false := by
  have htype : tokensNode.get? "type" = some (text "integer") := by simp [tokensNode]
  have hbounds : ∀ d, BoundsMeet "minimum" "maximum" d tokensNode ↔
      d.ltValue (.ofNat 0) = false ∧ (Decimal.ofNat 9007199254740991).ltValue d = false := fun d =>
    and_congr (boundMeets_iff (by simp [tokensNode])) (boundMeets_iff (by simp [tokensNode]))
  rw [Conforms.eq_def, schemaTypeOf_of htype, matchesType_integer]
  constructor
  · rintro ⟨⟨d, rfl, hint⟩, -, -, h⟩
    exact ⟨d, rfl, hint, (hbounds d).mp h⟩
  · rintro ⟨d, rfl, hint, h⟩
    exact ⟨⟨d, rfl, hint⟩, enumMeets_absent (by simp [tokensNode]),
      constMeets_absent (by simp [tokensNode]), (hbounds d).mpr h⟩

/-- The leading keywords of a node carry no rule. -/
def Annotates (head : List (String × Value)) : Prop :=
  ∀ key ∈ ["type", "enum", "const", "required", "properties"], (object head).get? key = none

theorem annotates_nil : Annotates [] := fun _ _ => rfl

theorem annotates_rootHead (id title description : String) :
    Annotates (rootHead id title description) := by
  simp [Annotates, rootHead]

theorem stringItems_text (names : List String) :
    stringItems (names.map text) = some (names.map str) := by
  induction names with
  | nil => rfl
  | cons name names ih => rw [List.map_cons, text, stringItems, ih]; rfl

/-- A closed object node: every required name is there, and every member is a known property and
conforms to it. -/
theorem conforms_objectNode {head properties : List (String × Value)} {required : List String}
    (hhead : Annotates head) :
    Conforms v (objectNode head required properties) ↔
      ∃ ms, v = .obj ms ∧ (∀ name ∈ required, Dict.has ms (str name) = true) ∧
        ∀ m ∈ ms, ∃ property, Dict.get? (properties.map fun p => (str p.1, p.2)) m.1 = some property ∧
          Conforms m.2 property := by
  -- none of these keywords is an annotation
  have hget : ∀ key ∈ ["type", "enum", "const", "required", "properties"],
      (objectNode head required properties).get? key =
        (object [("type", text "object"), ("additionalProperties", .bool false),
          ("required", .arr (required.map text)), ("properties", object properties)]).get? key := by
    intro key hkey
    rw [objectNode, get?_object_append, hhead key hkey, Option.none_or]
  have htype := (hget "type" (by simp)).trans (by simp : _ = some (text "object"))
  have henum := (hget "enum" (by simp)).trans (by simp : _ = none)
  have hconst := (hget "const" (by simp)).trans (by simp : _ = none)
  have hrequired := (hget "required" (by simp)).trans (by simp : _ = some (.arr (required.map text)))
  have hproperties := (hget "properties" (by simp)).trans (by simp : _ = some (object properties))
  have hnames : requiredOf (objectNode head required properties) = some (required.map str) := by
    rw [requiredOf, hrequired]
    exact stringItems_text required
  rw [Conforms.eq_def, schemaTypeOf_of htype, matchesType_object]
  constructor
  · rintro ⟨⟨ms, rfl⟩, -, -, hreq, hms⟩
    refine ⟨ms, rfl, fun name hname => ?_, fun m hm => ?_⟩
    · rw [RequiredMeets, hnames, Option.getD_some, List.forall_mem_map] at hreq
      exact hreq name hname
    · obtain ⟨property, hproperty, hconf⟩ := conforms_members.mp hms m hm
      rw [objectNode, propertiesOf_object hproperties] at hproperty
      exact ⟨property, hproperty, hconf⟩
  · rintro ⟨ms, rfl, hreq, hms⟩
    refine ⟨⟨ms, rfl⟩, enumMeets_absent henum, constMeets_absent hconst, ?_,
      conforms_members.mpr fun m hm => ?_⟩
    · rw [RequiredMeets, hnames, Option.getD_some, List.forall_mem_map]
      exact hreq
    · obtain ⟨property, hproperty, hconf⟩ := hms m hm
      exact ⟨property, by rw [objectNode, propertiesOf_object hproperties]; exact hproperty, hconf⟩

end Nodes

/-! ## The committed schemas keep the profile -/

/-- The checks find nothing to object to in any of them. -/
theorem committed_issues :
    ∀ schema ∈ [requestSchema, successSchema, failureSchema], schemaIssues default schema = [] := by
  decide +kernel

theorem requestSchema_profile : Profile (maxNestingDepth + 1) true requestSchema :=
  (schemaIssues_nil_iff default _).mp (committed_issues _ (.head _))

theorem successSchema_profile : Profile (maxNestingDepth + 1) true successSchema :=
  (schemaIssues_nil_iff default _).mp (committed_issues _ (.tail _ (.head _)))

theorem failureSchema_profile : Profile (maxNestingDepth + 1) true failureSchema :=
  (schemaIssues_nil_iff default _).mp (committed_issues _ (.tail _ (.tail _ (.head _))))

end FastGate.CheckContract
