/-
# FastGate.ModelTurn.Executor — admission and one provider invocation

`execute` reads a whole body, admits one request and invokes the provider at most once.  An execution
is modelled with the calls it makes to its invoker, so that what reaches the provider can be stated
whatever the invoker does, panics included.

* `Delivers` and `DeliversDocument` say what a reader hands over, `Correlated` that the document has a
  usable identifier.  Each of them is unique for a body, so they can be used like functions.
* `execute_uncorrelated` and `execute_correlated` are the specification that the results of
  `Agreement.Execution` are read off: the document a body delivers decides everything.
* `execute_ne_internal`: that the provider port refuses a request that was admitted cannot happen, so an
  internal failure always comes from what an invoker returned.
* `validScalarText_validateText`: the two checks of a text, in this package and behind the provider port,
  agree for every minimum and maximum.  They count the runes, but let an empty text pass a negative
  maximum.
-/
import FastGate.ModelTurn.Body
import FastGate.ModelTurn.Decode
import FastGate.ModelTurn.Outcome

open FastGate.Utf8 (Bytes encode)
open FastGate.Json
open FastGate.Go
open FastGate.Provider

namespace FastGate.ModelTurn

/-- What an invocation returns, with the caller's context as it stands when it does. -/
structure Return where
  result : Result
  err : Option GoError
  ctx : Context

/-- `provider.Invoker`; it may panic. -/
abbrev Invoker := Context → Request → Completion String Return

/-- What follows a call that returns; a panic goes on. -/
def andThen {ε α β : Type} (f : α → β) : Completion ε α → Completion ε β
  | .returned value => .returned (f value)
  | .panicked v => .panicked v

/-- The calls an execution makes to its invoker, and how it ends. -/
structure Execution where
  calls : List (Context × Request)
  completion : Completion String (Except String Outcome)

/-- An execution that ends without an invocation. -/
def Execution.settled (outcome : Except String Outcome) : Execution := ⟨[], .returned outcome⟩

/-- The outcome of an invocation that returned. -/
def judge (requestId : Bytes) (r : Return) : Outcome :=
  match validateInvocation (some r.ctx) r.result r.err with
  | some _ => newInternalFailure requestId
  | none => newProviderOutcome requestId r.result r.err

/-- `executeAdmitted`: one invocation, and the judgement of what it returned. -/
def executeAdmitted (invoker : Invoker) (ctx : Context) (request : WireRequest) : Execution :=
  match mapProviderRequest request with
  | none => .settled (.ok (newInternalFailure request.requestId))
  | some providerRequest =>
    ⟨[(ctx, providerRequest)],
      andThen (fun r => .ok (judge request.requestId r)) (invoker ctx providerRequest)⟩

/-- `Execute` -/
def execute {σ : Type} (invoker : Invoker) (ctx : Option Context) (body : Option (Reader σ × σ)) :
    Execution :=
  match ctx with
  | none => .settled (.error "model-turn context is required")
  | some ctx =>
    match body with
    | none => .settled (.error "model-turn body reader is required")
    | some (reader, s) =>
      match readRequestBody reader s with
      | .error _ => .settled (.ok newUncorrelatedFailure)
      | .ok raw =>
        if !validateStrictDocument raw then .settled (.ok newUncorrelatedFailure)
        else
          match decodeObject raw with
          | none => .settled (.ok newUncorrelatedFailure)
          | some root =>
            match safeRequestId root with
            | none => .settled (.ok newUncorrelatedFailure)
            | some requestId =>
              match decodeWireRequest root with
              | none => .settled (.ok (newInvalidRequestFailure requestId))
              | some request =>
                if request.requiredCapabilities.length ≠ 0 then
                  .settled (.ok (newUnsupportedCapabilityFailure requestId))
                else if request.modelAlias ≠ supportedAlias then
                  .settled (.ok (newInvalidRequestFailure requestId))
                else executeAdmitted invoker ctx request

/-! ## What a body says -/

section Bodies

variable {σ : Type} {reader : Reader σ} {s : σ} {doc : Doc Char}

/-- The reader delivers the body: it reaches the end of file within the limits. -/
def Delivers (reader : Reader σ) (s : σ) (body : Bytes) : Prop :=
  ∃ trace, Trace reader s 0 trace ∧ Delivery trace body

/-- The reader delivers a strict document. -/
def DeliversDocument (reader : Reader σ) (s : σ) (doc : Doc Char) : Prop :=
  ∃ body, Delivers reader s body ∧ StrictDocument body doc

/-- The body is a strict document with an object at its root, whose `request_id` is an identifier. -/
def Correlated (reader : Reader σ) (s : σ) (doc : Doc Char) (requestId : List Char) : Prop :=
  DeliversDocument reader s doc ∧ doc.textAt? "request_id" = some requestId ∧ IsIdentifier requestId

theorem StrictDocument.unique {raw : Bytes} {doc doc' : Doc Char} (h : StrictDocument raw doc)
    (h' : StrictDocument raw doc') : doc = doc' := by
  obtain ⟨text, rfl, htext, -⟩ := h
  obtain ⟨text', heq, htext', -⟩ := h'
  rw [Utf8.encode_injective heq] at htext'
  exact htext.unique htext'

/-- A body is one document at most. -/
theorem DeliversDocument.unique {doc' : Doc Char} (h : DeliversDocument reader s doc)
    (h' : DeliversDocument reader s doc') : doc = doc' := by
  obtain ⟨body, hbody, hdoc⟩ := h
  obtain ⟨body', hbody', hdoc'⟩ := h'
  have hread := (readRequestBody_ok_iff reader s).mpr hbody
  rw [(readRequestBody_ok_iff reader s).mpr hbody'] at hread
  cases hread
  exact hdoc.unique hdoc'

/-! ## The steps of an execution -/

section Steps

variable {invoker : Invoker} {ctx : Context} {requestId : List Char}

/-- A body that is no strict document, or none at all. -/
theorem execute_undelivered (h : ∀ doc, ¬ DeliversDocument reader s doc) :
    execute invoker (some ctx) (some (reader, s)) = .settled (.ok newUncorrelatedFailure) := by
  rw [execute]
  split
  · rfl
  · rename_i raw hread
    have hbody := (readRequestBody_ok_iff reader s).mp hread
    rw [if_pos]
    cases hvalid : validateStrictDocument raw with
    | false => rfl
    | true =>
      obtain ⟨doc, hdoc⟩ := strictDocument_of_validate hvalid
      exact absurd ⟨raw, hbody, hdoc⟩ (h doc)

/-- Behind the strict document check only the document matters. -/
theorem execute_delivered (invoker : Invoker) (ctx : Context) (h : DeliversDocument reader s doc) :
    ∃ raw, StrictDocument raw doc ∧ execute invoker (some ctx) (some (reader, s)) =
      match decodeObject raw with
      | none => .settled (.ok newUncorrelatedFailure)
      | some root =>
        match safeRequestId root with
        | none => .settled (.ok newUncorrelatedFailure)
        | some requestId =>
          match decodeWireRequest root with
          | none => .settled (.ok (newInvalidRequestFailure requestId))
          | some request =>
            if request.requiredCapabilities.length ≠ 0 then
              .settled (.ok (newUnsupportedCapabilityFailure requestId))
            else if request.modelAlias ≠ supportedAlias then
              .settled (.ok (newInvalidRequestFailure requestId))
            else executeAdmitted invoker ctx request := by
  obtain ⟨raw, hbody, hdoc⟩ := h
  refine ⟨raw, hdoc, ?_⟩
  rw [execute]
  simp only [(readRequestBody_ok_iff reader s).mpr hbody, validate_of_strictDocument hdoc, Bool.not_true,
    Bool.false_eq_true, if_false]

/-- The identifier of a document's root, read from its raw members. -/
theorem safeRequestId_text {root : RawObject} {ms : List (StrLit Char × Doc Char)}
    (h : RawMembers root ms) (requestId : Bytes) :
    safeRequestId root = some requestId ↔
      ∃ t, (Doc.obj ms).textAt? "request_id" = some t ∧ IsIdentifier t ∧ requestId = encode t := by
  rw [safeRequestId, decodeString_rawField h]
  cases (Doc.obj ms).textAt? "request_id" with
  | none => simp
  | some t =>
    simp only [Option.map_some, Option.some.injEq, exists_eq_left']
    split
    · rename_i hvalid
      rw [validIdentifier_iff] at hvalid
      simp only [Option.some.injEq, hvalid, true_and, eq_comm]
    · rename_i hvalid
      rw [validIdentifier_iff] at hvalid
      simp [hvalid]

theorem execute_uncorrelated (h : DeliversDocument reader s doc)
    (hid : ∀ t, doc.textAt? "request_id" = some t → ¬ IsIdentifier t) :
    execute invoker (some ctx) (some (reader, s)) = .settled (.ok newUncorrelatedFailure) := by
  obtain ⟨raw, hdoc, hrun⟩ := execute_delivered invoker ctx h
  rw [hrun]
  cases hroot : decodeObject raw with
  | none => rfl
  | some root =>
    obtain ⟨ms, rfl, hmembers⟩ := rootMembers hdoc hroot
    cases hsafe : safeRequestId root with
    | none => simp only [hsafe]
    | some requestId =>
      obtain ⟨t, ht, hvalid, -⟩ := (safeRequestId_text hmembers requestId).mp hsafe
      exact absurd hvalid (hid t ht)

/-- With an identifier, the decoder's verdict on the document decides. -/
theorem execute_correlated (invoker : Invoker) (ctx : Context)
    (h : Correlated reader s doc requestId) :
    (¬ IsRequest doc → execute invoker (some ctx) (some (reader, s)) =
      .settled (.ok (newInvalidRequestFailure (encode requestId)))) ∧
    (IsRequest doc → execute invoker (some ctx) (some (reader, s)) =
      if (documentRequest doc).requiredCapabilities.length ≠ 0 then
        .settled (.ok (newUnsupportedCapabilityFailure (encode requestId)))
      else if (documentRequest doc).modelAlias ≠ supportedAlias then
        .settled (.ok (newInvalidRequestFailure (encode requestId)))
      else executeAdmitted invoker ctx (documentRequest doc)) := by
  obtain ⟨hdelivers, htext, hvalid⟩ := h
  obtain ⟨raw, hdoc, hrun⟩ := execute_delivered invoker ctx hdelivers
  have hroot := decodeObject_strict hdoc
  cases doc with
  | obj ms =>
    obtain ⟨root, hroot, hmembers⟩ := hroot
    obtain ⟨-, -, -, hprofile⟩ := hdoc
    have hsafe := (safeRequestId_text hmembers _).mpr ⟨requestId, htext, hvalid, rfl⟩
    have hdecode := decodeWireRequest_text hmembers (clean_of_profile hprofile).scalarNames
    simp only [hrun, hroot, hsafe]
    constructor
    · intro hno
      cases hrequest : decodeWireRequest root with
      | none => rfl
      | some request => exact absurd ((hdecode request).mp hrequest).1 hno
    · intro hyes
      rw [(hdecode _).mpr ⟨hyes, rfl⟩]
  | _ => cases htext

/-- A request without capabilities for the supported alias reaches the invoker, once. -/
theorem executeAdmitted_text (h : IsRequest doc) (hcapabilities : documentCapabilities doc = []) :
    executeAdmitted invoker ctx (documentRequest doc) =
      ⟨[(ctx, providerRequest doc)],
        andThen (fun r => .ok (judge (documentText "request_id" doc) r))
          (invoker ctx (providerRequest doc))⟩ := by
  rw [executeAdmitted, mapProviderRequest_text h hcapabilities]
  rfl

end Steps

/-! ## What a request asks for -/

theorem IsRequest.correlated (h : IsRequest doc) (hdelivers : DeliversDocument reader s doc) :
    ∃ t, Correlated reader s doc t := by
  obtain ⟨t, ht, hid⟩ := h.requestId
  exact ⟨t, hdelivers, ht, hid⟩

theorem Correlated.unique {doc' : Doc Char} {t t' : List Char} (h : Correlated reader s doc t)
    (h' : Correlated reader s doc' t') : doc = doc' ∧ t = t' := by
  obtain ⟨hdoc, ht, -⟩ := h
  obtain ⟨hdoc', ht', -⟩ := h'
  obtain rfl := hdoc.unique hdoc'
  exact ⟨rfl, Option.some.inj (ht.symm.trans ht')⟩

theorem IsRequest.capabilities_iff (h : IsRequest doc) :
    (documentRequest doc).requiredCapabilities.length ≠ 0 ↔
      doc.elementsAt? "required_capabilities" ≠ some [] := by
  obtain ⟨xs, hxs, -⟩ := h.capabilities
  rw [documentRequest, documentCapabilities, hxs, Option.getD_some, List.length_map, ne_eq, ne_eq,
    List.length_eq_zero_iff, Option.some.injEq]

theorem IsRequest.alias_iff (h : IsRequest doc) :
    (documentRequest doc).modelAlias ≠ supportedAlias ↔
      doc.textAt? "model_alias" ≠ some "learning-text".toList := by
  obtain ⟨t, ht, -⟩ := h.modelAlias
  simp only [documentRequest, documentText_of ht, ht, supportedAlias, ne_eq, goString_eq_iff,
    Option.some.injEq]

end Bodies

/-! ## What was decoded is never refused -/

/-- Every element of a decoded list was decoded from something. -/
theorem exists_of_decodeAll {α : Type} {decode : RawMessage → Option α} {raws : List RawMessage} :
    ∀ {values : List α}, decodeAll decode raws = some values →
      values.length = raws.length ∧ ∀ value ∈ values, ∃ raw, decode raw = some value := by
  induction raws with
  | nil =>
    intro values h
    cases h
    exact ⟨rfl, fun _ h => absurd h List.not_mem_nil⟩
  | cons raw raws ih =>
    intro values h
    rw [decodeAll] at h
    split at h
    · cases h
    rename_i value hvalue
    split at h
    · cases h
    rename_i others hothers
    cases h
    obtain ⟨hlength, hall⟩ := ih hothers
    exact ⟨by rw [List.length_cons, List.length_cons, hlength],
      List.forall_mem_cons.mpr ⟨⟨raw, hvalue⟩, hall⟩⟩

theorem isText_of_validScalarText {text : Bytes} {maximum : Nat} {rejectControls : Bool}
    (h : validScalarText text 1 maximum rejectControls = true) : IsText 1 maximum rejectControls text :=
  validateText_none_iff.mp ((validScalarText_iff "" text 1 maximum rejectControls).mp h)

/-- A message that was decoded is one a provider may be given. -/
theorem decodeWireMessage_valid {raw : RawMessage} {message : Message}
    (h : decodeWireMessage raw = some message) : message.Valid := by
  unfold decodeWireMessage at h
  split at h
  · cases h
  split at h
  · cases h
  split at h
  · rename_i role content _ _
    split at h
    · cases h
    rename_i hchecks
    cases h
    rw [not_or, Bool.not_eq_true', Bool.not_eq_false] at hchecks
    obtain ⟨-, hcontent⟩ := hchecks
    refine ⟨?_, isText_of_validScalarText hcontent⟩
    dsimp only
    split
    · exact .inr rfl
    · exact .inl rfl
  · cases h

theorem decodeWireInstruction_valid {raw : RawMessage} {instruction : Instruction}
    (h : decodeWireInstruction raw = some instruction) : instruction.Valid := by
  unfold decodeWireInstruction at h
  split at h
  · cases h
  split at h
  · cases h
  split at h
  · rename_i source content _ _
    split at h
    · cases h
    rename_i hchecks
    cases h
    rw [not_or, Bool.not_eq_true', Bool.not_eq_true', Bool.not_eq_false, Bool.not_eq_false] at hchecks
    obtain ⟨hsource, hcontent⟩ := hchecks
    exact ⟨isText_of_validScalarText hsource, isText_of_validScalarText hcontent⟩
  · cases h

/-- What the decoder has checked of a request, whatever map it was given. -/
theorem decodeWireRequest_valid {root : RawObject} {request : WireRequest}
    (h : decodeWireRequest root = some request) :
    (1 ≤ request.conversation.length ∧ request.conversation.length ≤ maxConversationMessages ∧
      request.instructions.length ≤ maxInstructions) ∧
    (∀ message ∈ request.conversation, message.Valid) ∧
      ∀ instruction ∈ request.instructions, instruction.Valid := by
  unfold decodeWireRequest at h
  split at h
  · cases h
  split at h
  · rename_i version kind requestId modelAlias _ _ _ _
    split at h
    · cases h
    split at h
    · cases h
    rename_i conversationRaw _
    split at h
    · cases h
    rename_i hcount
    split at h
    · cases h
    rename_i conversation hconversation
    split at h
    · cases h
    rename_i instructionsRaw _
    split at h
    · cases h
    rename_i hinstructionCount
    split at h
    · cases h
    rename_i instructions hinstructions
    split at h
    · cases h
    split at h
    · cases h
    split at h
    · cases h
    cases h
    -- what is decoded has as many entries as the array, and each of them was checked
    obtain ⟨hlength, hmessages⟩ := exists_of_decodeAll hconversation
    obtain ⟨hlength', hblocks⟩ := exists_of_decodeAll hinstructions
    refine ⟨by dsimp only; omega, fun message hm => ?_, fun instruction hi => ?_⟩
    · obtain ⟨raw, hraw⟩ := hmessages message hm
      exact decodeWireMessage_valid hraw
    · obtain ⟨raw, hraw⟩ := hblocks instruction hi
      exact decodeWireInstruction_valid hraw
  · cases h

/-- The provider refuses no request that was decoded without capabilities. -/
theorem mapProviderRequest_decoded {root : RawObject} {request : WireRequest}
    (h : decodeWireRequest root = some request) (hcapabilities : request.requiredCapabilities = []) :
    ∃ p, mapProviderRequest request = some p := by
  obtain ⟨⟨hpos, hle, hinstructions⟩, hmessages, hblocks⟩ := decodeWireRequest_valid h
  have hvalid : (⟨request.conversation, request.instructions, []⟩ : Request).Valid :=
    ⟨hpos, hle, hinstructions, Nat.zero_le _, hmessages, hblocks, fun _ h => absurd h List.not_mem_nil⟩
  have hnew := newRequest_ok hvalid
  have hcount : ¬ (request.conversation.length < 1 ∨
      request.conversation.length > maxConversationMessages ∨
      request.instructions.length > maxInstructions ∨ request.requiredCapabilities.length ≠ 0) := by
    rw [hcapabilities, List.length_nil]
    omega
  dsimp only at hnew
  exact ⟨_, by rw [mapProviderRequest, if_neg hcount, hnew]⟩

/-- Nothing that is executed ends in an internal failure before the invoker is called. -/
theorem execute_ne_internal {σ : Type} (invoker : Invoker) (ctx : Option Context)
    (body : Option (Reader σ × σ)) (requestId : Bytes) :
    execute invoker ctx body ≠ .settled (.ok (newInternalFailure requestId)) := by
  have hother : ∀ {outcome : Outcome}, outcome.kind ≠ .internalFailure →
      Execution.settled (.ok outcome) ≠ .settled (.ok (newInternalFailure requestId)) := by
    intro outcome hkind heq
    injection heq with _ heq
    injection heq with heq
    injection heq with heq
    exact hkind (congrArg Outcome.kind heq)
  unfold execute
  split
  · intro heq
    injection heq with _ heq
    injection heq with heq
    cases heq
  split
  · intro heq
    injection heq with _ heq
    injection heq with heq
    cases heq
  split
  · exact hother (by decide)
  split
  · exact hother (by decide)
  split
  · exact hother (by decide)
  split
  · exact hother (by decide)
  split
  · exact hother (by simp [newInvalidRequestFailure, newFailure])
  rename_i request hdecode
  split
  · exact hother (by simp [newUnsupportedCapabilityFailure, newFailure])
  rename_i hcapabilities
  split
  · exact hother (by simp [newInvalidRequestFailure, newFailure])
  · -- the request is mapped, so the invoker is called
    rw [ne_eq, Decidable.not_not, List.length_eq_zero_iff] at hcapabilities
    obtain ⟨p, hp⟩ := mapProviderRequest_decoded hdecode hcapabilities
    rw [executeAdmitted, hp]
    intro heq
    injection heq with hcalls _
    cases hcalls

/-- The two text checks are one check, so the provider refuses nothing that was admitted.  An empty text
passes even a negative `maximum`, since only what has a character is compared with it. -/
theorem validScalarText_validateText :
    (∀ (field : String) (text : Bytes) (minimum maximum : Int) (rejectControls : Bool),
      (validScalarText text minimum maximum rejectControls = true ↔
        validateText field minimum maximum rejectControls text = none) ∧
      (validScalarText text minimum maximum rejectControls = true ↔
        ∃ cs : List Char, encode cs = text ∧ minimum ≤ cs.length ∧ (cs = [] ∨ cs.length ≤ maximum) ∧
          (rejectControls = true → ∀ c ∈ cs, ¬ IsUnsafe c))) ∧
    (∀ (root : RawObject) (request : WireRequest), decodeWireRequest root = some request →
      request.requiredCapabilities = [] → ∃ p, mapProviderRequest request = some p) ∧
    ∀ (σ : Type) (invoker : Invoker) (ctx : Option Context) (body : Option (Reader σ × σ))
      (requestId : Bytes), execute invoker ctx body ≠ .settled (.ok (newInternalFailure requestId)) := by
  refine ⟨fun field text minimum maximum rejectControls => ?_, fun _ _ => mapProviderRequest_decoded,
    fun _ => execute_ne_internal⟩
  have hsame := validScalarText_iff field text minimum maximum rejectControls
  refine ⟨hsame, ?_⟩
  rw [hsame, validateText_none_iff_encode]
  simp only [← isControlOrSeparator_iff, Bool.not_eq_true]

/-- An empty text and a negative bound. -/
theorem validScalarText_negative :
    validScalarText [] 0 (-1) false = true ∧ validateText "text" 0 (-1) false [] = none ∧
      ¬ ∃ cs : List Char, encode cs = [] ∧ (0 : Int) ≤ cs.length ∧ (cs.length : Int) ≤ -1 ∧
        (false = true → ∀ c ∈ cs, ¬ IsUnsafe c) := by
  refine ⟨rfl, rfl, ?_⟩
  rintro ⟨cs, -, hmin, hmax, -⟩
  omega

end FastGate.ModelTurn
