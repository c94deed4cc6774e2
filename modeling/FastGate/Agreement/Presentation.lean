/-
# FastGate.Agreement.Presentation — what a client of the gateway reads

The results about responses, from the values that providers return to the bytes that clients read.

* `admissionFailure_body`: the failure body that `modelturn` puts together by hand is the one that
  `encoding/json` would write, and the failure schema accepts it.
* `provider_wire`: results and failures survive the wire.  The constructors of the provider port accept
  what the schemas accept, and the body of a response says the identifier, the text or the code, the
  flag, and the usage when there is one.
* `serveHTTP_presentation`: a request that passes the transport gets exactly one response, which
  answers it under the committed schemas; the only exception is a provider that returns no result but
  the error with which the caller's context has ended, for which nothing is written.

`Answers` and `Written` are the vocabulary of the last one.  They speak of values and schemas; that the
two tables of codes, here and in `modelturn`, fit together is part of what is proved.
-/
import FastGate.Agreement.Execution
import FastGate.Agreement.Response
import FastGate.ModelTurnHttp.Handler

open FastGate.Utf8 (Bytes encode)
open FastGate.Json
open FastGate.Python
open FastGate.Go (marshal)
open FastGate.Provider
open FastGate.ModelTurn
open FastGate.ModelTurnHttp
open FastGate.CheckContract

namespace FastGate.Agreement

/-- The value satisfies the committed success schema. -/
def SuccessValid (value : Value) : Prop := validateInstance value successSchema = .ok []

/-- The value satisfies the committed failure schema. -/
def FailureValid (value : Value) : Prop := validateInstance value failureSchema = .ok []

theorem successValid_completed (t outputText : List Char) (usage : Option Usage) :
    SuccessValid (completedValue t outputText usage) ↔
      IsIdentifier t ∧ IsContent 65536 outputText ∧ ∀ u ∈ usage, u.Valid :=
  (validateInstance_nil_iff successSchema_profile _).trans (conforms_completedValue t outputText usage)

theorem failureValid_failed {t message : List Char} {code : String} (retryable : Bool)
    {usage : Option Usage} (ht : IsIdentifier t) (hcode : code ∈ failureCodeNames)
    (hmessage : IsMessageText message) (husage : ∀ u ∈ usage, u.Valid) :
    FailureValid (failedValue t code.toList message retryable usage) :=
  (validateInstance_nil_iff failureSchema_profile _).mpr
    (conforms_failedValue retryable ht hcode hmessage husage)

/-! ## Admission failures -/

/-- The codes of the failures the gateway itself reports, with their messages. -/
theorem admission_cases {code : Bytes}
    (h : code = ModelTurn.invalidRequestCode ∨ code = ModelTurn.unsupportedCapabilityCode ∨
      code = ModelTurn.internalErrorCode) :
    ∃ (name : String) (message : List Char), code = goString name ∧ name ∈ failureCodeNames ∧
      admissionMessage code = encode message ∧ IsMessageText message := by
  rcases h with rfl | rfl | rfl
  · exact ⟨"invalid_request", "The request is invalid.".toList, rfl, by decide, rfl, by decide⟩
  · exact ⟨"unsupported_capability", "The required capability is not supported.".toList, rfl, by decide,
      rfl, by decide⟩
  · exact ⟨"internal_error", "The request could not be processed.".toList, rfl, by decide, rfl, by decide⟩

/-- What a correlated failure body says. -/
theorem says_correlatedFailureBody {t : List Char} (ht : IsIdentifier t) {name : String}
    {message : List Char} {code : Bytes} (hname : code = goString name)
    (hmessage : admissionMessage code = encode message)
    (hcode : code = ModelTurn.invalidRequestCode ∨ code = ModelTurn.unsupportedCapabilityCode ∨
      code = ModelTurn.internalErrorCode) :
    Says (correlatedFailureBody (encode t) code) (failedValue t name.toList message false none) := by
  have hsays := says_failed t name.toList message false Usage.zero false
  rw [correlatedFailureBody_eq_marshal ht hcode, admissionResponse, hmessage, hname]
  exact hsays

/-- The two encoders of an admission failure write the same bytes, a strict document of the failure that
satisfies the committed schema. -/
theorem admissionFailure_body {id code : Bytes} (hid : validIdentifier id = true)
    (hcode : code ∈ [ModelTurn.invalidRequestCode, ModelTurn.unsupportedCapabilityCode,
      ModelTurn.internalErrorCode]) :
    correlatedFailureBody id code =
        marshal (FailedResponse.mk modelTurnVersion failedKind id ⟨code, admissionMessage code, false⟩
          none).marshaled ∧
      validateStrictDocument (correlatedFailureBody id code) = true ∧
      ∃ t name message, encode t = id ∧ encode name = code ∧ encode message = admissionMessage code ∧
        Says (correlatedFailureBody id code) (failedValue t name message false none) ∧
        FailureValid (failedValue t name message false none) := by
  obtain ⟨t, rfl, ht⟩ := exists_of_validIdentifier hid
  have hcases : code = ModelTurn.invalidRequestCode ∨ code = ModelTurn.unsupportedCapabilityCode ∨
      code = ModelTurn.internalErrorCode := by simpa using hcode
  obtain ⟨name, message, hname, hmem, hmessage, htext⟩ := admission_cases hcases
  have hsays := says_correlatedFailureBody ht hname hmessage hcases
  refine ⟨correlatedFailureBody_eq_marshal ht hcases, says_valid hsays, ?_⟩
  exact ⟨t, name.toList, message, rfl, hname.symm, hmessage.symm, hsays,
    failureValid_failed false ht hmem htext (by simp)⟩

theorem admissionFailure_body_sample :
    validateStrictDocument (correlatedFailureBody (goString "r1") ModelTurn.internalErrorCode) = true :=
  (admissionFailure_body (by decide : validIdentifier (goString "r1") = true) (by decide)).2.1

/-! ## Provider results and failures -/

theorem observed_getD (usage : Option Usage) : observed (usage.getD Usage.zero) usage.isSome = usage := by
  cases usage <;> rfl

theorem usage_valid_iff {usage : Option Usage} :
    (usage.isSome = true → (usage.getD Usage.zero).Valid) ↔ ∀ u ∈ usage, u.Valid := by
  cases usage <;> simp

theorem isText_encode (text : List Char) :
    IsText 1 maxOutputTextRunes false (encode text) ↔ IsContent 65536 text := by
  constructor
  · rintro ⟨cs, hcs, hmin, hmax, -⟩
    rw [Utf8.encode_injective hcs] at hmin hmax
    exact ⟨hmin, hmax⟩
  · rintro ⟨hmin, hmax⟩
    exact ⟨text, rfl, hmin, hmax, fun h => absurd h Bool.false_ne_true⟩

/-- The response to a valid result. -/
theorem prepareCompletedResponse_valid {t : List Char} (ht : IsIdentifier t) {result : Result}
    (h : result.Valid) : ∃ text body, encode text = result.outputText ∧
      prepareCompletedResponse (encode t) result = ⟨200, jsonMediaType, body, []⟩ ∧
      Says body (completedValue t text (observed result.usage result.hasUsage)) ∧
      SuccessValid (completedValue t text (observed result.usage result.hasUsage)) := by
  obtain ⟨outputText, usage, hasUsage⟩ := result
  obtain ⟨text, rfl, hmin, hmax, -⟩ := h.output
  refine ⟨text, _, rfl, rfl, says_completed t text usage hasUsage, ?_⟩
  refine (successValid_completed t text _).mpr ⟨ht, ⟨hmin, hmax⟩, ?_⟩
  have husage := h.usage
  cases hasUsage with
  | false => simp [observed]
  | true =>
    intro u hu
    cases hu
    exact husage rfl

/-- Every code an adapter may return has a name of the schema, a status and a safe message. -/
theorem presentation_cases {code : Bytes} (h : code ∈ failureCodes) :
    ∃ (name : String) (message : List Char) (status : Nat), code = goString name ∧
      name ∈ failureCodeNames ∧ providerFailurePresentation code = some (status, encode message) ∧
      IsMessageText message := by
  have hcases : code = failureAuthenticationFailed ∨ code = failureRateLimited ∨
      code = failureRequestRejected ∨ code = failureUnavailable ∨ code = failureInvalidResponse ∨
      code = failureUnsupportedUpstreamOutput ∨ code = failureInternal := by
    simpa [failureCodes] using h
  rcases hcases with rfl | rfl | rfl | rfl | rfl | rfl | rfl
  · exact ⟨"authentication_failed", "FastGate could not authenticate to the upstream.".toList, 502, rfl,
      by decide, rfl, by decide⟩
  · exact ⟨"rate_limited", "The upstream rate limit was reached.".toList, 429, rfl, by decide, by decide,
      by decide⟩
  · exact ⟨"request_rejected", "The upstream rejected the request.".toList, 422, rfl, by decide,
      by decide, by decide⟩
  · exact ⟨"unavailable", "The upstream is unavailable.".toList, 503, rfl, by decide, by decide, by decide⟩
  · exact ⟨"invalid_response", "The upstream returned an invalid response.".toList, 502, rfl, by decide,
      by decide, by decide⟩
  · exact ⟨"unsupported_upstream_output",
      "The upstream returned output that model-turn v1 does not support.".toList, 502, rfl, by decide,
      by decide, by decide⟩
  · exact ⟨"internal_error", "The request could not be processed.".toList, 500, rfl, by decide,
      by decide, by decide⟩

/-- The response to a valid failure. -/
theorem prepareProviderFailureResponse_valid {t : List Char} (ht : IsIdentifier t) {failure : Failure}
    (h : failure.Valid) : ∃ (name : String) (message : List Char) (status : Nat) (body : Bytes),
      failure.code = goString name ∧
      providerFailurePresentation failure.code = some (status, encode message) ∧
      prepareProviderFailureResponse (encode t) failure = ⟨status, jsonMediaType, body, []⟩ ∧
      Says body (failedValue t name.toList message failure.retryable
        (observed failure.usage failure.hasUsage)) ∧
      FailureValid (failedValue t name.toList message failure.retryable
        (observed failure.usage failure.hasUsage)) := by
  obtain ⟨code, retryable, usage, hasUsage⟩ := failure
  obtain ⟨name, message, status, hname, hmem, hpresentation, htext⟩ := presentation_cases h.code
  have husage := h.usage
  cases hname
  refine ⟨name, message, status, _, rfl, hpresentation, ?_,
    says_failed t name.toList message retryable usage hasUsage, ?_⟩
  · rw [prepareProviderFailureResponse]
    simp only [hpresentation]
    rfl
  · refine failureValid_failed retryable ht hmem htext ?_
    cases hasUsage with
    | false => simp [observed]
    | true =>
      intro u hu
      cases hu
      exact husage rfl

/-- Results and failures survive the wire: the constructors accept what the schemas accept, and the
body of a response is a strict document that says the identifier, the text or the code, the flag and
the usage, when there is one. -/
theorem provider_wire :
    (∀ (t text : List Char) (usage : Option Usage), IsIdentifier t →
      ((∃ result, newResult (encode text) usage = .ok result) ↔
        SuccessValid (completedValue t text usage))) ∧
    (∀ (t : List Char) (outputText : Bytes) (usage : Option Usage) (result : Result), IsIdentifier t →
      newResult outputText usage = .ok result →
      ∃ text body, encode text = outputText ∧
        prepareCompletedResponse (encode t) result = ⟨200, jsonMediaType, body, []⟩ ∧
        validateStrictDocument body = true ∧ Says body (completedValue t text usage) ∧
        SuccessValid (completedValue t text usage)) ∧
    (∀ (t : List Char) (code : Bytes) (retryable : Bool) (usage : Option Usage) (failure : Failure),
      IsIdentifier t → newFailure code retryable usage = .ok failure →
      ∃ name message status body, encode name = code ∧
        providerFailurePresentation code = some (status, encode message) ∧
        prepareProviderFailureResponse (encode t) failure = ⟨status, jsonMediaType, body, []⟩ ∧
        validateStrictDocument body = true ∧ Says body (failedValue t name message retryable usage) ∧
        FailureValid (failedValue t name message retryable usage)) := by
  refine ⟨fun t text usage ht => ?_, fun t outputText usage result ht hresult => ?_,
    fun t code retryable usage failure ht hfailure => ?_⟩
  · rw [successValid_completed, ← isText_encode]
    simp only [newResult_ok_iff, exists_eq_left, ht, true_and]
    exact ⟨fun h => ⟨h.output, usage_valid_iff.mp h.usage⟩, fun h => ⟨h.1, usage_valid_iff.mpr h.2⟩⟩
  · obtain ⟨rfl, hvalid⟩ := newResult_ok_iff.mp hresult
    obtain ⟨text, body, htext, hresponse, hsays, hschema⟩ := prepareCompletedResponse_valid ht hvalid
    rw [observed_getD] at hsays hschema
    exact ⟨text, body, htext, hresponse, says_valid hsays, hsays, hschema⟩
  · obtain ⟨rfl, hvalid⟩ := newFailure_ok_iff.mp hfailure
    obtain ⟨name, message, status, body, hname, hpresentation, hresponse, hsays, hschema⟩ :=
      prepareProviderFailureResponse_valid ht hvalid
    rw [observed_getD] at hsays hschema
    exact ⟨name.toList, message, status, body, hname.symm, hpresentation, hresponse, says_valid hsays, hsays,
      hschema⟩

/-- A result with usage and a failure without: the bodies say them. -/
theorem provider_wire_sample :
    (∃ body, prepareCompletedResponse (goString "r") ⟨goString "hello", ⟨3, 5⟩, true⟩ =
        ⟨200, jsonMediaType, body, []⟩ ∧ Says body (completedValue "r".toList "hello".toList (some ⟨3, 5⟩))) ∧
      ∃ message body, prepareProviderFailureResponse (goString "r")
          ⟨failureRateLimited, true, Usage.zero, false⟩ = ⟨429, jsonMediaType, body, []⟩ ∧
        Says body (failedValue "r".toList "rate_limited".toList message true none) := by
  obtain ⟨-, hresults, hfailures⟩ := provider_wire
  have hidentifier : IsIdentifier "r".toList := ⟨'r', [], rfl, by decide, .inr (.inl (by decide)), nofun⟩
  constructor
  · obtain ⟨text, body, htext, hresponse, -, hsays, -⟩ :=
      hresults "r".toList (goString "hello") (some ⟨3, 5⟩) _ hidentifier rfl
    obtain rfl := Utf8.encode_injective htext
    exact ⟨body, hresponse, hsays⟩
  · obtain ⟨name, message, status, body, hname, hpresentation, hresponse, -, hsays, -⟩ :=
      hfailures "r".toList failureRateLimited true none _ hidentifier rfl
    obtain rfl := Utf8.encode_injective hname
    obtain ⟨rfl, -⟩ := Prod.mk.inj (Option.some.inj hpresentation)
    exact ⟨message, body, hresponse, hsays⟩

/-! ## One response for each request -/

section Serving

variable {σ : Type}

/-- An invoker that returns, under a context whose error does not change. -/
def returning (answer : Context → Request → Result × Option GoError) : Invoker := fun ctx request =>
  .returned ⟨(answer ctx request).1, (answer ctx request).2, ctx⟩

variable (answer : Context → Request → Result × Option GoError) (ctx : Context) (reader : Reader σ) (s : σ)

/-- The body is admitted, and the provider returns no result but the error with which the caller's
context has ended. -/
def Aborts : Prop :=
  ∃ doc, Admitted reader s doc ∧ (answer ctx (providerRequest doc)).1 = Result.zero ∧
    ∃ err, (answer ctx (providerRequest doc)).2 = some err ∧ (err = .canceled ∨ err = .deadlineExceeded) ∧
      ctx.err = some err

/-- The status of a failure code in the tables of the presentation. -/
def codeStatus (code : Bytes) : Option Nat :=
  (admissionFailureStatus code).or ((providerFailurePresentation code).map (·.1))

/-- A JSON document that carries the identifier and satisfies a committed schema, under its status. -/
inductive Answers (t : List Char) : Nat → Bytes → Prop
  | completed {body : Bytes} {value : Value} : Says body value →
      value.get? "request_id" = some (.str (t.map Char.toNat)) → SuccessValid value → Answers t 200 body
  | failed {body : Bytes} {value error : Value} {code : List Char} {status : Nat} : Says body value →
      value.get? "request_id" = some (.str (t.map Char.toNat)) → FailureValid value →
      value.get? "error" = some error → error.get? "code" = some (.str (code.map Char.toNat)) →
      codeStatus (encode code) = some status → Answers t status body

/-- One header, one status and one body: the fixed plain text for a body without identifier, and for
every other a document that answers it. -/
def Written (writes : List WriterCall) : Prop :=
  ∃ fields status body, writes = [.header fields, .writeHeader status, .write body] ∧
    (((∀ doc t, ¬ Correlated reader s doc t) ∧ (goString "Content-Type", textMediaType) ∈ fields ∧
        status = 400 ∧ body = goString "invalid request\n") ∨
      ∃ doc t, Correlated reader s doc t ∧ (goString "Content-Type", jsonMediaType) ∈ fields ∧
        Answers t status body)

/-- The fixed response to a provider return that is none of the alternatives. -/
def internalErrorWrites (t : List Char) : List WriterCall :=
  writePreparedResponse
    ⟨500, jsonMediaType, correlatedFailureBody (encode t) ModelTurn.internalErrorCode, []⟩

/-- How a request that passes the transport is presented. -/
structure Presents (served : Served) : Prop where
  exactlyOne :
    (Aborts answer ctx reader s ∧ served.writes = [] ∧ served.completion = .panicked .errAbortHandler) ∨
      (¬ Aborts answer ctx reader s ∧ Written reader s served.writes ∧ served.completion = .returned ())
  noFallback : .write internalServerErrorBody ∉ served.writes
  refused : ∀ doc t, Correlated reader s doc t → Admitted reader s doc →
    ¬ Alternative ctx (answer ctx (providerRequest doc)).1 (answer ctx (providerRequest doc)).2 →
    served.writes = internalErrorWrites t

variable {answer ctx reader s}

theorem mem_responseFields (response : PreparedResponse) :
    (goString "Content-Type", response.mediaType) ∈ responseFields response := by
  simp [responseFields]

/-- A correlated JSON response is well written. -/
theorem written_answer {doc : Doc Char} {t : List Char} (ht : Correlated reader s doc t) {status : Nat}
    {body : Bytes} (h : Answers t status body) :
    Written reader s (writePreparedResponse ⟨status, jsonMediaType, body, []⟩) :=
  ⟨_, _, _, rfl, .inr ⟨doc, t, ht, mem_responseFields ⟨status, jsonMediaType, body, []⟩, h⟩⟩

theorem Answers.says {t : List Char} {status : Nat} {body : Bytes} (h : Answers t status body) :
    ∃ value, Says body value := by
  cases h with
  | completed hsays _ _ => exact ⟨_, hsays⟩
  | failed hsays _ _ _ _ _ => exact ⟨_, hsays⟩

/-- The plain text of the fallback is never written. -/
theorem Written.noFallback {writes : List WriterCall} (h : Written reader s writes) :
    .write internalServerErrorBody ∉ writes := by
  obtain ⟨fields, status, body, rfl, hbody⟩ := h
  intro hmem
  have heq : internalServerErrorBody = body := by simpa using hmem
  rcases hbody with ⟨-, -, -, htext⟩ | ⟨doc, t, -, -, hanswers⟩
  · exact absurd (heq.trans htext) (by decide)
  · obtain ⟨value, hsays⟩ := hanswers.says
    have hvalid := says_valid (heq ▸ hsays)
    exact absurd hvalid (by decide)

/-- A correlated failure body answers its request. -/
theorem answers_correlatedFailureBody {t : List Char} (ht : IsIdentifier t) {code : Bytes} {status : Nat}
    (hcode : code = ModelTurn.invalidRequestCode ∨ code = ModelTurn.unsupportedCapabilityCode ∨
      code = ModelTurn.internalErrorCode) (hstatus : admissionFailureStatus code = some status) :
    Answers t status (correlatedFailureBody (encode t) code) := by
  obtain ⟨name, message, hname, hmem, hmessage, htext⟩ := admission_cases hcode
  refine .failed (says_correlatedFailureBody ht hname hmessage hcode) (by simp [failedValue])
    (failureValid_failed false ht hmem htext (by simp)) (by simp [failedValue]; rfl) (by simp; rfl) ?_
  show codeStatus (goString name) = some status
  rw [codeStatus, ← hname, hstatus, Option.some_or]

theorem answers_completed {t : List Char} (ht : IsIdentifier t) {result : Result} (h : result.Valid) :
    ∃ body, prepareCompletedResponse (encode t) result = ⟨200, jsonMediaType, body, []⟩ ∧
      Answers t 200 body := by
  obtain ⟨text, body, -, hresponse, hsays, hschema⟩ := prepareCompletedResponse_valid ht h
  exact ⟨body, hresponse, .completed hsays (by simp [completedValue]) hschema⟩

/-- The two tables have one code in common, with one status. -/
theorem codeStatus_of_presentation {code message : Bytes} {status : Nat} (h : code ∈ failureCodes)
    (hpresentation : providerFailurePresentation code = some (status, message)) :
    codeStatus code = some status := by
  have htables : ∀ code ∈ failureCodes,
      codeStatus code = (providerFailurePresentation code).map (·.1) := by decide
  rw [htables code h, hpresentation]
  rfl

theorem answers_failed {t : List Char} (ht : IsIdentifier t) {failure : Failure} (h : failure.Valid) :
    ∃ status body, prepareProviderFailureResponse (encode t) failure = ⟨status, jsonMediaType, body, []⟩ ∧
      Answers t status body := by
  obtain ⟨name, message, status, body, hname, hpresentation, hresponse, hsays, hschema⟩ :=
    prepareProviderFailureResponse_valid ht h
  refine ⟨status, body, hresponse, .failed hsays (by simp [failedValue]) hschema
    (by simp [failedValue]; rfl) (by simp; rfl) ?_⟩
  show codeStatus (goString name) = some status
  rw [← hname]
  exact codeStatus_of_presentation h.code hpresentation

/-! ## What an outcome is presented as -/

theorem encode_identifier_ne_nil {t : List Char} (ht : IsIdentifier t) : encode t ≠ [] := by
  obtain ⟨c, cs, rfl, -⟩ := ht
  intro h
  exact Utf8.encodeChar_ne_nil c (List.append_eq_nil_iff.mp h).1

section Outcomes

variable {outcome : Outcome} {t : List Char} {code : Bytes} {result : Result} {err : Option GoError}

theorem prepareOutcome_uncorrelated (h : outcome.Shows .uncorrelated) :
    prepareOutcome (.ok outcome) = .returned ⟨400, textMediaType, uncorrelatedFailureBody, []⟩ := by
  obtain ⟨hid, hcode, hbody, hprovider⟩ := h
  simp only [prepareOutcome, hid, hcode, hbody, hprovider]
  rfl

theorem prepareOutcome_admission (h : outcome.Shows (.admission (encode t) code)) (ht : IsIdentifier t) :
    ∃ status, admissionFailureStatus code = some status ∧ prepareOutcome (.ok outcome) =
      .returned ⟨status, jsonMediaType, correlatedFailureBody (encode t) code, []⟩ := by
  obtain ⟨hallowed, hid, hcode, hbody, hprovider⟩ := h
  have hstatus : ∃ status, admissionFailureStatus code = some status := by
    rcases hallowed with rfl | rfl
    · exact ⟨400, by decide⟩
    · exact ⟨422, by decide⟩
  obtain ⟨status, hstatus⟩ := hstatus
  refine ⟨status, hstatus, ?_⟩
  simp only [prepareOutcome, hid, hcode, hbody, hprovider, hstatus, encode_identifier_ne_nil ht, if_false]
  rfl

theorem prepareOutcome_provider (h : outcome.Shows (.provider (encode t) result err)) (ht : IsIdentifier t) :
    prepareOutcome (.ok outcome) = prepareProviderOutcome (encode t) result err := by
  obtain ⟨hid, hcode, hbody, hprovider⟩ := h
  simp only [prepareOutcome, hid, hcode, hbody, hprovider, encode_identifier_ne_nil ht, if_false]

theorem prepareOutcome_internal (h : outcome.Shows (.internal (encode t))) (ht : IsIdentifier t) :
    prepareOutcome (.ok outcome) =
      .returned ⟨500, jsonMediaType, correlatedFailureBody (encode t) ModelTurn.internalErrorCode, []⟩ := by
  obtain ⟨hid, hcode, hbody, hprovider⟩ := h
  have hstatus : admissionFailureStatus ModelTurn.internalErrorCode = some 500 := by decide
  simp only [prepareOutcome, hid, hcode, hbody, hprovider, hstatus, encode_identifier_ne_nil ht, if_false]
  rfl

end Outcomes

/-- Behind the transport, the outcome of the execution is what is presented. -/
theorem serveHTTP_passed {parseMediaType : MediaTypeParser} {request : HttpRequest σ} {invoker : Invoker}
    (hpass : transportRejection parseMediaType (some request) = none)
    (hbody : request.body = some (reader, s)) {calls : List (Context × Request)} {outcome : Outcome}
    (hrun : execute invoker (some request.context) (some (reader, s)) =
      ⟨calls, .returned (.ok outcome)⟩) :
    serveHTTP parseMediaType invoker (some request) = .of calls (prepareOutcome (.ok outcome)) := by
  unfold serveHTTP
  rw [hpass]
  simp only [hbody, hrun]

/-- A response in place of an abort. -/
theorem presents_written {served : Served} (haborts : ¬ Aborts answer ctx reader s)
    (hwritten : Written reader s served.writes) (hcompletion : served.completion = .returned ())
    (hrefused : ∀ doc t, Correlated reader s doc t → Admitted reader s doc →
      ¬ Alternative ctx (answer ctx (providerRequest doc)).1 (answer ctx (providerRequest doc)).2 →
      served.writes = internalErrorWrites t) : Presents answer ctx reader s served :=
  ⟨.inr ⟨haborts, hwritten, hcompletion⟩, hwritten.noFallback, hrefused⟩

/-- A settled execution is answered without the provider. -/
theorem presents_settled {report : Report} {outcome : Outcome}
    (hdecides : Decides reader s (returning answer) ctx report) (hshows : outcome.Shows report)
    (hnone : ∀ doc, ¬ Admitted reader s doc) :
    Presents answer ctx reader s (.of [] (prepareOutcome (.ok outcome))) := by
  have haborts : ¬ Aborts answer ctx reader s := fun ⟨doc, hdoc, _⟩ => hnone doc hdoc
  have hadmission : ∀ {doc : Doc Char} {t : List Char} {code : Bytes}, Correlated reader s doc t →
      outcome.Shows (.admission (encode t) code) →
      Presents answer ctx reader s (.of [] (prepareOutcome (.ok outcome))) := by
    intro doc t code ht hshows
    obtain ⟨status, hstatus, hprepared⟩ := prepareOutcome_admission hshows ht.2.2
    have hcode : code = ModelTurn.invalidRequestCode ∨ code = ModelTurn.unsupportedCapabilityCode ∨
        code = ModelTurn.internalErrorCode := hshows.1.imp_right .inl
    rw [hprepared]
    exact presents_written haborts
      (written_answer ht (answers_correlatedFailureBody ht.2.2 hcode hstatus)) rfl
      fun doc _ _ hdoc _ => absurd hdoc (hnone doc)
  cases hdecides with
  | uncorrelated huncorrelated =>
    rw [prepareOutcome_uncorrelated hshows]
    refine presents_written haborts ⟨_, _, _, rfl, .inl ⟨huncorrelated, ?_, rfl, rfl⟩⟩ rfl
      fun doc _ _ hdoc _ => absurd hdoc (hnone doc)
    exact mem_responseFields ⟨400, textMediaType, uncorrelatedFailureBody, []⟩
  | invalid ht _ => exact hadmission ht hshows
  | unsupported ht _ _ => exact hadmission ht hshows
  | otherAlias ht _ _ _ => exact hadmission ht hshows
  | provider _ hadmitted _ _ => exact absurd hadmitted (hnone _)
  | internal _ hadmitted _ _ => exact absurd hadmitted (hnone _)

/-- An admitted request is answered with what the provider returned, if that is an alternative. -/
theorem presents_judged {calls : List (Context × Request)} {doc : Doc Char} {t : List Char}
    (ht : Correlated reader s doc t) (hadmitted : Admitted reader s doc) :
    Presents answer ctx reader s (.of calls (prepareOutcome (.ok (judge (encode t)
      ⟨(answer ctx (providerRequest doc)).1, (answer ctx (providerRequest doc)).2, ctx⟩)))) := by
  have hsame : ∀ other t', Correlated reader s other t' → other = doc ∧ t' = t :=
    fun other t' h => h.unique ht
  have haborts : Aborts answer ctx reader s → (answer ctx (providerRequest doc)).1 = Result.zero ∧
      ∃ err, (answer ctx (providerRequest doc)).2 = some err ∧
        (err = .canceled ∨ err = .deadlineExceeded) ∧ ctx.err = some err := by
    rintro ⟨other, hother, hresult, herr⟩
    obtain rfl := hadmitted.document.unique hother.document
    exact ⟨hresult, herr⟩
  have hvalidate := validateInvocation_none_iff ctx (answer ctx (providerRequest doc)).1
    (answer ctx (providerRequest doc)).2
  generalize hresult : (answer ctx (providerRequest doc)).1 = result at haborts hvalidate ⊢
  generalize herr : (answer ctx (providerRequest doc)).2 = err at haborts hvalidate ⊢
  rw [judge]
  cases hverdict : validateInvocation (some ctx) result err with
  | some message =>
    -- no alternative: the fixed internal failure
    have hrefused : ¬ Alternative ctx result err := by
      rw [← hvalidate, hverdict]
      simp
    have hno : ¬ Aborts answer ctx reader s := by
      intro h
      obtain ⟨hzero, e, he, hcause, hctx⟩ := haborts h
      apply hrefused
      rw [hzero, he]
      rcases hcause with rfl | rfl
      · exact .canceled hctx
      · exact .deadlineExceeded hctx
    rw [prepareOutcome_internal (shows_internal _) ht.2.2]
    refine presents_written hno (written_answer ht
      (answers_correlatedFailureBody ht.2.2 (.inr (.inr rfl)) (by decide))) rfl ?_
    intro other t' hother _ _
    rw [(hsame other t' hother).2]
    rfl
  | none =>
    have halternative := hvalidate.mp hverdict
    have hrefused : ∀ writes : List WriterCall, ∀ other t', Correlated reader s other t' →
        Admitted reader s other →
        ¬ Alternative ctx (answer ctx (providerRequest other)).1 (answer ctx (providerRequest other)).2 →
        writes = internalErrorWrites t' := by
      intro writes other t' hother _ hno
      rw [(hsame other t' hother).1, hresult, herr] at hno
      exact absurd halternative hno
    show Presents answer ctx reader s
      (.of calls (prepareOutcome (.ok (newProviderOutcome (encode t) result err))))
    rw [prepareOutcome_provider (shows_provider _ _ _) ht.2.2]
    cases halternative with
    | completed hvalid =>
      obtain ⟨body, hresponse, hanswers⟩ := answers_completed ht.2.2 hvalid
      rw [prepareProviderOutcome, hresponse]
      refine presents_written ?_ (written_answer ht hanswers) rfl (hrefused _)
      intro h
      obtain ⟨-, e, he, -, -⟩ := haborts h
      cases he
    | failed hvalid =>
      obtain ⟨status, body, hresponse, hanswers⟩ := answers_failed ht.2.2 hvalid
      rw [prepareProviderOutcome]
      simp only [reduceCtorEq, or_self, if_false, hresponse]
      refine presents_written ?_ (written_answer ht hanswers) rfl (hrefused _)
      intro h
      obtain ⟨-, e, he, hcause, -⟩ := haborts h
      cases he
      rcases hcause with hcause | hcause <;> cases hcause
    | canceled hctx =>
      refine ⟨.inl ⟨⟨doc, hadmitted, hresult, .canceled, herr, .inl rfl, hctx⟩, rfl, rfl⟩, ?_, hrefused _⟩
      exact List.not_mem_nil
    | deadlineExceeded hctx =>
      refine ⟨.inl ⟨⟨doc, hadmitted, hresult, .deadlineExceeded, herr, .inr rfl, hctx⟩, rfl, rfl⟩, ?_,
        hrefused _⟩
      exact List.not_mem_nil

/-- A request that passes the transport is answered once: with the fixed plain text where its body has
no identifier, and otherwise with a document that carries the identifier and satisfies a committed
schema.  Only when the provider reports that the caller's context has ended is there no response and
the connection aborted.  A provider return that is no alternative selects the fixed internal failure. -/
theorem serveHTTP_presentation (parseMediaType : MediaTypeParser) {request : HttpRequest σ}
    (hpass : transportRejection parseMediaType (some request) = none)
    (hbody : request.body = some (reader, s)) :
    Presents answer request.context reader s
      (serveHTTP parseMediaType (returning answer) (some request)) := by
  rcases execute_cases (returning answer) request.context reader s with
    ⟨report, outcome, hrun, hdecides, hshows, hnone⟩ | ⟨doc, t, ht, hadmitted, hrun⟩
  · rw [serveHTTP_passed hpass hbody hrun]
    exact presents_settled hdecides hshows hnone
  · rw [serveHTTP_passed hpass hbody hrun]
    exact presents_judged ht hadmitted

end Serving

/-- The sample request as it arrives over HTTP. -/
def sampleHttpRequest : HttpRequest Bool where
  requestURI := modelTurnPath
  url := some ⟨modelTurnPath, [], [], false, [], [], []⟩
  method := methodPost
  header := [(goString "Content-Type", [jsonMediaType])]
  trailer := []
  context := ⟨none⟩
  body := some (wholeReader sampleRequest, false)

theorem serveHTTP_presentation_sample :
    Presents (fun _ _ => (⟨goString "hello", Usage.zero, false⟩, none)) ⟨none⟩ (wholeReader sampleRequest)
      false
      (serveHTTP (fun value => some (value, []))
        (returning fun _ _ => (⟨goString "hello", Usage.zero, false⟩, none)) (some sampleHttpRequest)) := by
  have hpass : transportRejection (fun value => some (value, [])) (some sampleHttpRequest) = none := by
    decide
  exact serveHTTP_presentation _ hpass rfl

end FastGate.Agreement
