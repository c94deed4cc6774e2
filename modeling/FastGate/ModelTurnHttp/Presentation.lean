/-
# FastGate.ModelTurnHttp.Presentation — outcomes as responses

Every outcome of an execution is turned into one prepared response, or into the panic that makes the
server abort the connection.  The two code tables here are independent of the ones in `Provider` and
`Outcome`; a code one of them lacks would be answered with the plain text of
`internalServerErrorBody`.  `exists_presentation` says that none is lacking.

* The failures of the gateway bring their bodies along; only their status is looked up.
* A provider's result or failure is marshaled from a structure with the tags of the source.  Its strings
  come from outside and may hold any bytes; `Go.Marshal` says what the encoder makes of them.
* `context.Canceled` and `context.DeadlineExceeded` abort the handler: the client is gone, or is to see
  that there is no answer.

What the responses say to a client is in `Agreement.Presentation`.
-/
import FastGate.Go.Marshal
import FastGate.ModelTurn.Outcome

open FastGate.Utf8 (Bytes)
open FastGate.Go (Marshaled marshal)
open FastGate.Provider
open FastGate.ModelTurn (Outcome)

namespace FastGate.ModelTurnHttp

/-- The media type of every response to a request with an identifier. -/
def jsonMediaType : Bytes := goString "application/json"

/-- The media type of the fixed texts. -/
def textMediaType : Bytes := goString "text/plain; charset=utf-8"

/-- The version that every document declares. -/
def modelTurnVersion : Bytes := goString "v1"

/-- The kind of a completed result. -/
def completedKind : Bytes := goString "model_turn.completed"

/-- The kind of a failed result. -/
def failedKind : Bytes := goString "model_turn.failed"

/-- The body when no document can be prepared. -/
def internalServerErrorBody : Bytes := goString "internal server error\n"

/-- `invalid_request`, as the handler spells it. -/
def invalidRequestCode : Bytes := goString "invalid_request"

/-- `unsupported_capability`, as the handler spells it. -/
def unsupportedCapabilityCode : Bytes := goString "unsupported_capability"

/-- `internal_error`, as the handler spells it. -/
def internalErrorCode : Bytes := goString "internal_error"

/-- A response before it is written; `allowMethod` is empty but for status 405. -/
structure PreparedResponse where
  status : Nat
  mediaType : Bytes
  body : Bytes
  allowMethod : Bytes
  deriving DecidableEq, Repr

/-! ## Documents -/

/-- The counters of a response. -/
structure UsageResponse where
  inputTokens : Int
  outputTokens : Int

/-- The document of a completed result. -/
structure CompletedResponse where
  version : Bytes
  kind : Bytes
  requestID : Bytes
  outputText : Bytes
  usage : Option UsageResponse

/-- The error of a failed result. -/
structure FailedResponseError where
  code : Bytes
  message : Bytes
  retryable : Bool

/-- The document of a failed result. -/
structure FailedResponse where
  version : Bytes
  kind : Bytes
  requestID : Bytes
  error : FailedResponseError
  usage : Option UsageResponse

/-- The fields of the structure under their tags. -/
def UsageResponse.marshaled (usage : UsageResponse) : Marshaled :=
  .struct [("input_tokens", .int64 usage.inputTokens), ("output_tokens", .int64 usage.outputTokens)]

/-- `usage,omitempty` -/
def usageField : Option UsageResponse → List (String × Marshaled)
  | none => []
  | some usage => [("usage", usage.marshaled)]

/-- The fields of the structure under their tags, in order. -/
def CompletedResponse.marshaled (document : CompletedResponse) : Marshaled :=
  .struct
    (("version", .string document.version) :: ("kind", .string document.kind) ::
      ("request_id", .string document.requestID) :: ("output_text", .string document.outputText) ::
      usageField document.usage)

/-- The fields of the structure under their tags. -/
def FailedResponseError.marshaled (error : FailedResponseError) : Marshaled :=
  .struct [("code", .string error.code), ("message", .string error.message),
    ("retryable", .bool error.retryable)]

/-- The fields of the structure under their tags, in order. -/
def FailedResponse.marshaled (document : FailedResponse) : Marshaled :=
  .struct
    (("version", .string document.version) :: ("kind", .string document.kind) ::
      ("request_id", .string document.requestID) :: ("error", document.error.marshaled) ::
      usageField document.usage)

/-! ## Preparing a response -/

/-- `prepareBytesResponse` -/
def prepareBytesResponse (status : Nat) (mediaType body : Bytes) : PreparedResponse :=
  ⟨status, mediaType, body, []⟩

/-- `prepareTextResponse`; only a refused method names the one that is allowed. -/
def prepareTextResponse (status : Nat) (body allowMethod : Bytes) : PreparedResponse :=
  { prepareBytesResponse status textMediaType body with allowMethod := allowMethod }

/-- `prepareInternalResponse` -/
def prepareInternalResponse : PreparedResponse := prepareTextResponse 500 internalServerErrorBody []

/-- `prepareJSONResponse`: a document that could not be marshaled is replaced by the fixed text. -/
def prepareJSONResponse (status : Nat) (body : Bytes) (marshalErr : Option GoError) : PreparedResponse :=
  if marshalErr ≠ none then prepareInternalResponse
  else prepareBytesResponse status jsonMediaType body

/-- `prepareUsage`: usage that was not observed is left out. -/
def prepareUsage (usage : Usage) (present : Bool) : Option UsageResponse :=
  if !present then none else some ⟨usage.inputTokens, usage.outputTokens⟩

/-- The status of a failure of the gateway. -/
def admissionFailureStatus (code : Bytes) : Option Nat :=
  if code = invalidRequestCode then some 400
  else if code = unsupportedCapabilityCode then some 422
  else if code = internalErrorCode then some 500
  else none

/-- The status and the message of a provider failure code. -/
def providerFailurePresentation (code : Bytes) : Option (Nat × Bytes) :=
  if code = failureAuthenticationFailed then
    some (502, goString "FastGate could not authenticate to the upstream.")
  else if code = failureRateLimited then some (429, goString "The upstream rate limit was reached.")
  else if code = failureRequestRejected then some (422, goString "The upstream rejected the request.")
  else if code = failureUnavailable then some (503, goString "The upstream is unavailable.")
  else if code = failureInvalidResponse then
    some (502, goString "The upstream returned an invalid response.")
  else if code = failureUnsupportedUpstreamOutput then
    some (502, goString "The upstream returned output that model-turn v1 does not support.")
  else if code = failureInternal then some (500, goString "The request could not be processed.")
  else none

/-- The document of a result. -/
def completedResponse (requestID : Bytes) (result : Result) : CompletedResponse :=
  ⟨modelTurnVersion, completedKind, requestID, result.outputText,
    prepareUsage result.usage result.hasUsage⟩

/-- Strings, integers and booleans always marshal, so there is no error to pass on. -/
def prepareCompletedResponse (requestID : Bytes) (result : Result) : PreparedResponse :=
  prepareJSONResponse 200 (marshal (completedResponse requestID result).marshaled) none

/-- The document of a failure; the message is the one of its code. -/
def failedResponse (requestID message : Bytes) (failure : Failure) : FailedResponse :=
  ⟨modelTurnVersion, failedKind, requestID, ⟨failure.code, message, failure.retryable⟩,
    prepareUsage failure.usage failure.hasUsage⟩

/-- `prepareProviderFailureResponse`; a code without a presentation is an internal error. -/
def prepareProviderFailureResponse (requestID : Bytes) (failure : Failure) : PreparedResponse :=
  match providerFailurePresentation failure.code with
  | none => prepareInternalResponse
  | some (status, message) =>
    prepareJSONResponse status (marshal (failedResponse requestID message failure).marshaled) none

/-- What makes a handler panic: `http.ErrAbortHandler`, a panic of the invoker, a request that is a nil
pointer. -/
inductive HandlerPanic where
  | errAbortHandler
  | invoker (value : String)
  | nilRequest
  deriving DecidableEq, Repr

/-- `prepareProviderOutcome`: an ended context aborts the handler, and an error that is no failure is an
internal error. -/
def prepareProviderOutcome (requestID : Bytes) (result : Result) (providerErr : Option GoError) :
    Completion HandlerPanic PreparedResponse :=
  match providerErr with
  | none => .returned (prepareCompletedResponse requestID result)
  | some err =>
    if err = .canceled ∨ err = .deadlineExceeded then .panicked .errAbortHandler
    else
      match err with
      | .failure (some failure) => .returned (prepareProviderFailureResponse requestID failure)
      | _ => .returned prepareInternalResponse

/-- `prepareOutcome`: an outcome is presented by the accessors that answer, and a combination of them that
no outcome has is an internal error. -/
def prepareOutcome (outcome : Except String Outcome) : Completion HandlerPanic PreparedResponse :=
  match outcome with
  | .error _ => .returned prepareInternalResponse
  | .ok outcome =>
    match outcome.failureBody, outcome.requestID, outcome.failureCode?, outcome.providerOutcome with
    | some failureBody, none, none, none =>
      .returned (prepareBytesResponse 400 textMediaType failureBody)
    | some failureBody, some requestID, some failureCode, none =>
      match admissionFailureStatus failureCode with
      | none => .returned prepareInternalResponse
      | some status =>
        if requestID = [] then .returned prepareInternalResponse
        else .returned (prepareBytesResponse status jsonMediaType failureBody)
    | none, some requestID, none, some (result, providerErr) =>
      if requestID = [] then .returned prepareInternalResponse
      else prepareProviderOutcome requestID result providerErr
    | _, _, _, _ => .returned prepareInternalResponse

/-! ## The tables -/

/-- Every code an adapter may return has a presentation. -/
theorem exists_presentation {code : Bytes} (h : code ∈ failureCodes) :
    ∃ status message, providerFailurePresentation code = some (status, message) := by
  rw [← Option.isSome_iff_exists.trans Prod.exists]
  revert code
  decide

end FastGate.ModelTurnHttp
