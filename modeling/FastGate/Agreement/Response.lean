/-
# FastGate.Agreement.Response — responses against the committed schemas

What a client reads in the bodies the gateway writes.  `completedValue` and `failedValue` are the
values the two kinds of response documents stand for; the encoder's output is a strict document of
that value (`says_completed`, `says_failed`), and the success and failure schemas accept it exactly when
its parts are in range (`conforms_completedValue`, `conforms_failedValue`).

`Says body value` is what a body has to do with a value: the body is a strict document, and the value is
what `strict_json` makes of it.  It holds of whatever `json.Marshal` writes for a structure whose names
are distinct (`says_marshal`), so the strings in it may hold any bytes.

The failure bodies of `modelturn` are not marshaled but put together from constants.  Their identifier
is plain ASCII (`identifier_plain`), which the encoder leaves as it is (`marshal_plain`), and so the two
ways of writing a failure give the same bytes (`correlatedFailureBody_eq_marshal`).
-/
import FastGate.Agreement.Request
import FastGate.ModelTurnHttp.Presentation

open FastGate.Utf8 (Bytes encode encode_cons encode_nil)
open FastGate.Json
open FastGate.Python
open FastGate.Go (Marshaled marshal literal literal_text marshal_text allStrings_document)
open FastGate.Provider
open FastGate.ModelTurn
open FastGate.ModelTurnHttp
open FastGate.CheckContract

namespace FastGate.Agreement

/-! ## Marshaled structures as values -/

section Marshaled

variable {fields : List (String × Marshaled)}

theorem codePoints_literal (text : List Char) : codePoints (literal (encode text)) = text.map Char.toNat := by
  obtain ⟨hpaired, hscalars⟩ := literal_text text
  rw [codePoints_eq_scalars hpaired, hscalars]

theorem ofDoc_string (text : List Char) :
    Value.ofDoc (Marshaled.string (encode text)).document = .str (text.map Char.toNat) :=
  congrArg Value.str (codePoints_literal text)

theorem ofNumber_ofInt (n : Int) : Decimal.ofNumber (.ofInt n) = .ofInt n := by
  show (⟨n < 0, digitsValue (decimalDigits n.natAbs ++ []), 0 - 0⟩ : Decimal) = _
  rw [List.append_nil, digitsValue_decimalDigits]
  rfl

theorem ofDoc_int64 (n : Int) : Value.ofDoc (Marshaled.int64 n).document = .num (.ofInt n) :=
  congrArg Value.num (ofNumber_ofInt n)

theorem ofDoc_struct (fields : List (String × Marshaled)) :
    Value.ofDoc (Marshaled.struct fields).document =
      object (fields.map fun f => (f.1, .ofDoc f.2.document)) := by
  rw [Marshaled.document_struct, Value.ofDoc_obj, object, List.map_map, List.map_map]
  congr 1
  exact List.map_congr_left fun f _ => by
    show (codePoints (literal (encode f.1.toList)), _) = (f.1.toList.map Char.toNat, _)
    rw [codePoints_literal]

theorem uniqueNames_struct (fields : List (String × Marshaled)) :
    (Marshaled.struct fields).document.UniqueNames codePoints ↔
      (fields.map (·.1)).Nodup ∧ ∀ f ∈ fields, f.2.document.UniqueNames codePoints := by
  have hnames : (fields.map fun f => codePoints (literal (encode f.1.toList))) =
      (fields.map (·.1)).map str := by
    rw [List.map_map]
    exact List.map_congr_left fun f _ => codePoints_literal f.1.toList
  rw [Marshaled.document_struct, Doc.uniqueNames_obj, List.forall_mem_map, List.map_map]
  refine and_congr_left fun _ => ?_
  show (fields.map fun f => codePoints (literal (encode f.1.toList))).Nodup ↔ _
  rw [hnames, List.nodup_map_iff str_injective]

theorem depth_struct_le {n : Nat} (fields : List (String × Marshaled)) :
    (Marshaled.struct fields).document.depth ≤ n + 1 ↔ ∀ f ∈ fields, f.2.document.depth ≤ n := by
  rw [Marshaled.document_struct, Doc.depth_obj_le, List.forall_mem_map]

/-- The encoder's output is a strict document where the structure's field names are distinct and its
nesting is bounded. -/
theorem strictDocument_marshal {v : Marshaled} (hnames : v.document.UniqueNames codePoints)
    (hdepth : v.document.depth ≤ maxJsonContainerDepth) : StrictDocument (marshal v) v.document := by
  obtain ⟨text, htext, hjson⟩ := marshal_text v
  exact ⟨text, htext, hjson, hnames, allStrings_document v, hdepth⟩

/-- A structure against a closed object node. -/
theorem conforms_struct {head properties : List (String × Value)} {required : List String}
    (hhead : Annotates head) {members : List (String × Value)} :
    Conforms (object members) (objectNode head required properties) ↔
      (∀ name ∈ required, name ∈ members.map (·.1)) ∧
        ∀ m ∈ members, ∃ property, (object properties).get? m.1 = some property ∧
          Conforms m.2 property := by
  have hhas : ∀ name : String,
      Dict.has (members.map fun m => (str m.1, m.2)) (str name) = true ↔ name ∈ members.map (·.1) := by
    intro name
    rw [Dict.has_iff, Dict.keys, List.map_map, List.mem_map, List.mem_map]
    exact exists_congr fun m => and_congr_right fun _ => str_injective.eq_iff
  rw [conforms_objectNode hhead, object]
  constructor
  · rintro ⟨ms, hms, hrequired, hall⟩
    cases hms
    refine ⟨fun name hname => (hhas name).mp (hrequired name hname), fun m hm => ?_⟩
    exact hall _ (List.mem_map_of_mem hm)
  · rintro ⟨hrequired, hall⟩
    refine ⟨_, rfl, fun name hname => (hhas name).mpr (hrequired name hname), ?_⟩
    exact List.forall_mem_map.mpr hall

end Marshaled

/-! ## The values of the responses -/

/-- The counters of a response, as the JSON object that the schemas ask for. -/
def usageValue (usage : Usage) : Value :=
  object [("input_tokens", .num (.ofInt usage.inputTokens)),
    ("output_tokens", .num (.ofInt usage.outputTokens))]

/-- The member `usage`, which is there only when usage was observed. -/
def usageMember (usage : Option Usage) : List (String × Value) :=
  usage.toList.map fun usage => ("usage", usageValue usage)

/-- A completed result. -/
def completedValue (requestId outputText : List Char) (usage : Option Usage) : Value :=
  object
    (("version", text "v1") :: ("kind", text "model_turn.completed") ::
      ("request_id", .str (requestId.map Char.toNat)) ::
      ("output_text", .str (outputText.map Char.toNat)) :: usageMember usage)

/-- A failed result. -/
def failedValue (requestId code message : List Char) (retryable : Bool) (usage : Option Usage) : Value :=
  object
    (("version", text "v1") :: ("kind", text "model_turn.failed") ::
      ("request_id", .str (requestId.map Char.toNat)) ::
      ("error", object [("code", .str (code.map Char.toNat)), ("message", .str (message.map Char.toNat)),
        ("retryable", .bool retryable)]) ::
      usageMember usage)

/-- The body is a strict document of a value. -/
def Says (body : Bytes) (value : Value) : Prop :=
  ∃ doc, StrictDocument body doc ∧ Value.ofDoc doc = value

theorem says_valid {body : Bytes} {value : Value} (h : Says body value) :
    validateStrictDocument body = true := by
  obtain ⟨doc, hdoc, -⟩ := h
  exact validate_of_strictDocument hdoc

/-! ## The schemas on these values -/

theorem conforms_tokens (n : Int) :
    Conforms (.num (.ofInt n)) tokensNode ↔ 0 ≤ n ∧ n ≤ maxUsageTokens := by
  have hlow : (Decimal.ofInt n).ltValue (.ofNat 0) = false ↔ 0 ≤ n := by
    rw [← Bool.not_eq_true, Decimal.ltValue_iff, Decimal.value_ofInt, Decimal.value_ofNat, not_lt]
    norm_cast
  have hhigh : (Decimal.ofNat 9007199254740991).ltValue (.ofInt n) = false ↔ n ≤ maxUsageTokens := by
    rw [← Bool.not_eq_true, Decimal.ltValue_iff, Decimal.value_ofInt, Decimal.value_ofNat, not_lt]
    show (n : ℚ) ≤ ((9007199254740991 : ℕ) : ℚ) ↔ n ≤ 9007199254740991
    norm_cast
  rw [conforms_tokensNode]
  constructor
  · rintro ⟨d, hd, -, h0, h1⟩
    cases hd
    exact ⟨hlow.mp h0, hhigh.mp h1⟩
  · rintro ⟨h0, h1⟩
    exact ⟨_, rfl, Decimal.isIntegral_ofInt n, hlow.mpr h0, hhigh.mpr h1⟩

theorem conforms_usageValue (usage : Usage) : Conforms (usageValue usage) usageNode ↔ usage.Valid := by
  refine Iff.trans (conforms_struct annotates_nil) ?_
  have hfields : Conforms (.num (.ofInt usage.inputTokens)) tokensNode ∧
      Conforms (.num (.ofInt usage.outputTokens)) tokensNode ↔ usage.Valid := by
    rw [conforms_tokens, conforms_tokens]
    exact ⟨fun ⟨⟨h1, h2⟩, h3, h4⟩ => ⟨h1, h2, h3, h4⟩, fun ⟨h1, h2, h3, h4⟩ => ⟨⟨h1, h2⟩, h3, h4⟩⟩
  rw [← hfields]
  simp

theorem conforms_identifierText (t : List Char) :
    Conforms (.str (t.map Char.toNat)) (patternNode 128 identifierPattern) ↔ IsIdentifier t := by
  rw [conforms_patternNode (by rfl), ← searchIdentifier_iff]
  simp only [Value.str.injEq, exists_eq_left', List.length_map]

theorem conforms_content {maximum : Nat} (t : List Char) :
    Conforms (.str (t.map Char.toNat)) (textNode maximum) ↔ IsContent maximum t := by
  rw [conforms_textNode, IsContent]
  simp only [Value.str.injEq, exists_eq_left', List.length_map]

theorem conforms_constText (s : String) : Conforms (text s) (constNode s) := conforms_constNode.mpr rfl

/-- The success schema accepts a completed result whose parts are in range. -/
theorem conforms_completedValue (requestId outputText : List Char) (usage : Option Usage) :
    Conforms (completedValue requestId outputText usage) successSchema ↔
      IsIdentifier requestId ∧ IsContent 65536 outputText ∧ ∀ u ∈ usage, u.Valid := by
  refine Iff.trans (conforms_struct (annotates_rootHead _ _ _)) ?_
  cases usage with
  | none =>
    simp [usageMember, conforms_constText, conforms_identifierText, conforms_content]
  | some u =>
    simp [usageMember, conforms_constText, conforms_identifierText, conforms_content, conforms_usageValue]

/-- A text a failure message may be. -/
def IsMessageText (message : List Char) : Prop :=
  (1 ≤ message.length ∧ message.length ≤ 1024) ∧ searchControlSafe (message.map Char.toNat) = true

instance (message : List Char) : Decidable (IsMessageText message) := inferInstanceAs (Decidable (_ ∧ _))

/-- The codes that the failure schema enumerates: those of the gateway and those of its providers. -/
def failureCodeNames : List String :=
  ["invalid_request", "authentication_failed", "rate_limited", "request_rejected",
    "unsupported_capability", "unavailable", "invalid_response", "unsupported_upstream_output",
    "internal_error"]

/-- The failure schema accepts a failed result with a known code whose parts are in range. -/
theorem conforms_failedValue {requestId message : List Char} {code : String} (retryable : Bool)
    {usage : Option Usage} (hid : IsIdentifier requestId) (hcode : code ∈ failureCodeNames)
    (hmessage : IsMessageText message) (husage : ∀ u ∈ usage, u.Valid) :
    Conforms (failedValue requestId code.toList message retryable usage) failureSchema := by
  have hcodeNode : Conforms (.str (code.toList.map Char.toNat)) (enumNode failureCodeNames) :=
    conforms_enumNode.mpr ⟨code, hcode, rfl⟩
  have hmessageNode : Conforms (.str (message.map Char.toNat)) (patternNode 1024 controlSafePattern) := by
    refine (conforms_patternNode (by rfl)).mpr ⟨_, rfl, ?_⟩
    rw [List.length_map]
    exact hmessage
  have herror : Conforms
      (object [("code", .str (code.toList.map Char.toNat)), ("message", .str (message.map Char.toNat)),
        ("retryable", .bool retryable)])
      (objectNode [] ["code", "message", "retryable"]
        [("code", enumNode failureCodeNames), ("message", patternNode 1024 controlSafePattern),
          ("retryable", booleanNode)]) := by
    refine (conforms_struct annotates_nil).mpr ?_
    simp [hcodeNode, hmessageNode, conforms_booleanNode]
  refine (conforms_struct (annotates_rootHead _ _ _)).mpr ?_
  cases usage with
  | none =>
    simp [usageMember, conforms_constText, conforms_identifierText, hid]
    exact herror
  | some u =>
    simp [usageMember, conforms_constText, conforms_identifierText, hid, conforms_usageValue,
      husage u rfl]
    exact herror

/-! ## The bodies -/

theorem says_marshal {v : Marshaled} {value : Value} (hnames : v.document.UniqueNames codePoints)
    (hdepth : v.document.depth ≤ maxJsonContainerDepth) (hvalue : Value.ofDoc v.document = value) :
    Says (marshal v) value :=
  ⟨v.document, strictDocument_marshal hnames hdepth, hvalue⟩

theorem ofDoc_usage (usage : UsageResponse) :
    Value.ofDoc usage.marshaled.document = usageValue ⟨usage.inputTokens, usage.outputTokens⟩ := by
  rw [UsageResponse.marshaled, ofDoc_struct]
  simp only [List.map_cons, List.map_nil, ofDoc_int64]
  rfl

/-- What a response observed of the usage. -/
def observed (usage : Usage) (hasUsage : Bool) : Option Usage := if hasUsage then some usage else none

theorem usageField_value (usage : Usage) (hasUsage : Bool) :
    ((usageField (prepareUsage usage hasUsage)).map fun f => (f.1, Value.ofDoc f.2.document)) =
      usageMember (observed usage hasUsage) := by
  cases hasUsage with
  | false => rfl
  | true =>
    show [("usage", Value.ofDoc (UsageResponse.mk _ _).marshaled.document)] = _
    rw [ofDoc_usage]
    rfl

/-- A flat structure is strict. -/
theorem flat_strict {fields : List (String × Marshaled)} (hnodup : (fields.map (·.1)).Nodup)
    (hflat : ∀ f ∈ fields, f.2.document.UniqueNames codePoints ∧ f.2.document.depth ≤ 0) :
    (Marshaled.struct fields).document.UniqueNames codePoints ∧
      (Marshaled.struct fields).document.depth ≤ 1 :=
  ⟨(uniqueNames_struct _).mpr ⟨hnodup, fun f hf => (hflat f hf).1⟩,
    (depth_struct_le _).mpr fun f hf => (hflat f hf).2⟩

theorem usage_strict (usage : UsageResponse) : usage.marshaled.document.UniqueNames codePoints ∧
    usage.marshaled.document.depth ≤ 1 :=
  flat_strict (by decide : ["input_tokens", "output_tokens"].Nodup)
    (by simp [Marshaled.document, Doc.UniqueNames, Doc.depth])

theorem error_strict (error : FailedResponseError) : error.marshaled.document.UniqueNames codePoints ∧
    error.marshaled.document.depth ≤ 1 :=
  flat_strict (by decide : ["code", "message", "retryable"].Nodup)
    (by simp [Marshaled.document, Doc.UniqueNames, Doc.depth])

/-- The optional usage behind other fields disturbs neither the distinctness of names nor the depth. -/
theorem says_withUsage (fields : List (String × Marshaled)) (usage : Option UsageResponse) {value : Value}
    (hnodup : (fields.map (·.1)).Nodup) (husage : "usage" ∉ fields.map (·.1))
    (hfields : ∀ f ∈ fields, f.2.document.UniqueNames codePoints ∧ f.2.document.depth ≤ 1)
    (hvalue : Value.ofDoc (Marshaled.struct (fields ++ usageField usage)).document = value) :
    Says (marshal (.struct (fields ++ usageField usage))) value := by
  have hall : ∀ f ∈ fields ++ usageField usage,
      f.2.document.UniqueNames codePoints ∧ f.2.document.depth ≤ 1 := by
    intro f hf
    rcases List.mem_append.mp hf with hf | hf
    · exact hfields f hf
    · cases usage with
      | none => cases hf
      | some u =>
        rw [List.mem_singleton.mp hf]
        exact usage_strict u
  have hnames : ((fields ++ usageField usage).map (·.1)).Nodup := by
    cases usage with
    | none => rwa [usageField, List.append_nil]
    | some u =>
      rw [List.map_append, List.nodup_append]
      refine ⟨hnodup, by simp [usageField], fun a ha b hb heq => ?_⟩
      rw [heq, List.mem_singleton.mp hb] at ha
      exact husage ha
  exact says_marshal ((uniqueNames_struct _).mpr ⟨hnames, fun f hf => (hall f hf).1⟩)
    (((depth_struct_le _).mpr fun f hf => (hall f hf).2).trans (by decide : 2 ≤ maxJsonContainerDepth)) hvalue

theorem says_completed (requestId outputText : List Char) (usage : Usage) (hasUsage : Bool) :
    Says (marshal (completedResponse (encode requestId) ⟨encode outputText, usage, hasUsage⟩).marshaled)
      (completedValue requestId outputText (observed usage hasUsage)) := by
  refine says_withUsage
    [("version", .string modelTurnVersion), ("kind", .string completedKind),
      ("request_id", .string (encode requestId)), ("output_text", .string (encode outputText))]
    (prepareUsage usage hasUsage) (by decide : ["version", "kind", "request_id", "output_text"].Nodup)
    (by decide : "usage" ∉ ["version", "kind", "request_id", "output_text"]) ?_ ?_
  · simp [Marshaled.document, Doc.UniqueNames, Doc.depth]
  · rw [ofDoc_struct, List.map_append, usageField_value]
    simp only [List.map_cons, List.map_nil, modelTurnVersion, completedKind, goString, ofDoc_string]
    rfl

theorem says_failed (requestId code message : List Char) (retryable : Bool) (usage : Usage)
    (hasUsage : Bool) :
    Says (marshal (failedResponse (encode requestId) (encode message)
        ⟨encode code, retryable, usage, hasUsage⟩).marshaled)
      (failedValue requestId code message retryable (observed usage hasUsage)) := by
  refine says_withUsage
    [("version", .string modelTurnVersion), ("kind", .string failedKind),
      ("request_id", .string (encode requestId)),
      ("error", (FailedResponseError.mk (encode code) (encode message) retryable).marshaled)]
    (prepareUsage usage hasUsage) (by decide : ["version", "kind", "request_id", "error"].Nodup)
    (by decide : "usage" ∉ ["version", "kind", "request_id", "error"]) ?_ ?_
  · simp [Marshaled.document, Doc.UniqueNames, Doc.depth, error_strict]
  · rw [ofDoc_struct, List.map_append, usageField_value]
    simp only [List.map_cons, List.map_nil, modelTurnVersion, failedKind, goString, ofDoc_string,
      FailedResponseError.marshaled, ofDoc_struct]
    rfl

/-! ## Two encoders of a failure -/

/-- The encoder leaves the character as it is. -/
def IsPlain (c : Char) : Prop := Go.htmlItem c = .unescaped c

instance (c : Char) : Decidable (IsPlain c) := inferInstanceAs (Decidable (_ = _))

/-- The encoder leaves the whole text as it is. -/
def PlainText (s : List Char) : Prop := ∀ c ∈ s, IsPlain c

instance (s : List Char) : Decidable (PlainText s) :=
  decidable_of_iff (s.all fun c => decide (IsPlain c)) (by simp [PlainText])

theorem appendString_plain {s : List Char} (h : PlainText s) :
    Go.appendString (encode s) = encode ('"' :: (s ++ ['"'])) := by
  have hliteral : literal (encode s) = s.map .unescaped := by
    rw [Go.literal_encode]
    exact List.map_congr_left h
  have hprint : ∀ s : List Char, StrLit.print (s.map .unescaped) = s := by
    intro s
    induction s with
    | nil => rfl
    | cons c s ih => rw [List.map_cons, StrLit.print_cons, ih]; rfl
  rw [Go.appendString_print, Token.print, hliteral, hprint]

/-- An identifier has no character that JSON or HTML would escape. -/
theorem identifier_plain {t : List Char} (h : IsIdentifier t) : PlainText t := by
  have hplain : ∀ c : Char, IsIdentifierChar c → IsPlain c := by
    intro c hc
    unfold IsIdentifierChar IsAlphaNumeric at hc
    have hnone : shortEscape? c.toNat = none := by
      unfold shortEscape?
      repeat rw [if_neg (by omega)]
    have hsafe : Go.htmlSafe c.toNat = true := by
      simp only [Go.htmlSafe, Bool.and_eq_true, decide_eq_true_eq, bne_iff_ne]
      omega
    rw [IsPlain, Go.htmlItem, hnone]
    exact if_neg (by simp only [hsafe, Bool.true_eq_false, and_false, false_or]; omega)
  obtain ⟨c, cs, rfl, -, hc, hcs⟩ := h
  exact List.forall_mem_cons.mpr ⟨hplain c (.inl hc), fun x hx => hplain x (hcs x hx)⟩

/-- The message of an admission failure. -/
def admissionMessage (code : Bytes) : Bytes :=
  if code = ModelTurn.invalidRequestCode then invalidRequestMessage
  else if code = ModelTurn.unsupportedCapabilityCode then unsupportedCapabilityMessage
  else internalErrorMessage

/-- The structure the other encoder writes for the same failure. -/
def admissionResponse (requestId code : Bytes) : FailedResponse :=
  ⟨modelTurnVersion, failedKind, requestId, ⟨code, admissionMessage code, false⟩, none⟩

/-- A failure without usage whose strings need no escaping is written by splicing them in. -/
theorem marshal_plain {t code message : List Char} (ht : PlainText t) (hcode : PlainText code)
    (hmessage : PlainText message) :
    marshal (FailedResponse.mk modelTurnVersion failedKind (encode t)
        ⟨encode code, encode message, false⟩ none).marshaled =
      goString "\x7b\"version\":\"v1\",\"kind\":\"model_turn.failed\",\"request_id\":\"" ++
        encode t ++ goString "\",\"error\":\x7b\"code\":\"" ++ encode code ++
        goString "\",\"message\":\"" ++ encode message ++ goString "\",\"retryable\":false\x7d\x7d" := by
  have hquote : ∀ s : List Char, encode ('"' :: (s ++ ['"'])) = 0x22 :: (encode s ++ [0x22]) := by
    intro s
    rw [encode_cons, Utf8.encode_append]
    rfl
  -- the fixed text between the spliced strings, as the encoder writes it
  have hhead : 0x7B :: (Go.appendString (encode "version".toList) ++ 0x3A ::
      (Go.appendString modelTurnVersion ++ 0x2C :: (Go.appendString (encode "kind".toList) ++ 0x3A ::
      (Go.appendString failedKind ++ 0x2C :: (Go.appendString (encode "request_id".toList) ++
      [0x3A, 0x22]))))) =
      goString "\x7b\"version\":\"v1\",\"kind\":\"model_turn.failed\",\"request_id\":\"" := by
    decide
  have hcodeHead : 0x22 :: 0x2C :: (Go.appendString (encode "error".toList) ++ 0x3A :: 0x7B ::
      (Go.appendString (encode "code".toList) ++ [0x3A, 0x22])) =
      goString "\",\"error\":\x7b\"code\":\"" := by decide
  have hmessageHead : 0x22 :: 0x2C :: (Go.appendString (encode "message".toList) ++ [0x3A, 0x22]) =
      goString "\",\"message\":\"" := by decide
  have htail : 0x22 :: 0x2C :: (Go.appendString (encode "retryable".toList) ++ 0x3A ::
      (encode "false".toList ++ [0x7D, 0x7D])) = goString "\",\"retryable\":false\x7d\x7d" := by
    decide
  rw [← hhead, ← hcodeHead, ← hmessageHead, ← htail]
  simp only [FailedResponse.marshaled, FailedResponseError.marshaled, usageField, marshal,
    marshal.structFields, appendString_plain ht, appendString_plain hcode, appendString_plain hmessage,
    hquote, List.append_assoc, List.cons_append, List.nil_append, Bool.false_eq_true, if_false]

/-- Splicing an identifier into the fixed text is what the encoder does. -/
theorem correlatedFailureBody_eq_marshal {t : List Char} (ht : IsIdentifier t) {code : Bytes}
    (hcode : code = ModelTurn.invalidRequestCode ∨ code = ModelTurn.unsupportedCapabilityCode ∨
      code = ModelTurn.internalErrorCode) :
    correlatedFailureBody (encode t) code = marshal (admissionResponse (encode t) code).marshaled := by
  have hid := identifier_plain ht
  rcases hcode with rfl | rfl | rfl
  · exact (marshal_plain hid (by decide : PlainText "invalid_request".toList)
      (by decide : PlainText "The request is invalid.".toList)).symm
  · exact (marshal_plain hid (by decide : PlainText "unsupported_capability".toList)
      (by decide : PlainText "The required capability is not supported.".toList)).symm
  · exact (marshal_plain hid (by decide : PlainText "internal_error".toList)
      (by decide : PlainText "The request could not be processed.".toList)).symm

end FastGate.Agreement
