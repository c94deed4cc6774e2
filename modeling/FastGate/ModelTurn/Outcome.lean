/-
# FastGate.ModelTurn.Outcome — the closed result of an execution

An outcome is one of four alternatives: an uncorrelated failure, a correlated admission failure, a
validated provider outcome, a correlated internal failure.  Callers see it through four accessors
only; `Outcome.Shows` says what they show of each alternative, and every outcome a constructor
builds shows exactly one (`Outcome.Shows.unique`).

The zero value of an outcome is none of the four: every accessor refuses it, and the handler answers it
with an internal error.

`correlatedFailureBody` writes the failure document from constants around the identifier and the code.
The identifier is written as it is, which is right because only valid identifiers get there
(`Agreement.Response`).  The codes and messages here are those of the gateway; providers have their own
table in `ModelTurnHttp.Presentation`.
-/
import FastGate.Provider.Provider

open FastGate.Utf8 (Bytes)
open FastGate.Provider

namespace FastGate.ModelTurn

/-- The answer to a body without a usable identifier. -/
def uncorrelatedFailureBody : Bytes := goString "invalid request\n"

/-- The code of a request that is no v1 request. -/
def invalidRequestCode : Bytes := goString "invalid_request"

/-- The code of a request that asks for what the gateway cannot do. -/
def unsupportedCapabilityCode : Bytes := goString "unsupported_capability"

/-- The code of a failure inside the gateway. -/
def internalErrorCode : Bytes := goString "internal_error"

/-- The message to `invalid_request`. -/
def invalidRequestMessage : Bytes := goString "The request is invalid."

/-- The message to `unsupported_capability`. -/
def unsupportedCapabilityMessage : Bytes := goString "The required capability is not supported."

/-- The message to every other code. -/
def internalErrorMessage : Bytes := goString "The request could not be processed."

/-- `outcomeKind`; the zero value of an `Outcome` has none of the four. -/
inductive OutcomeKind where
  | zero
  | uncorrelatedFailure
  | admissionFailure
  | provider
  | internalFailure
  deriving DecidableEq, Repr

/-- What became of a request; which fields count depends on the kind. -/
structure Outcome where
  kind : OutcomeKind
  requestId : Bytes
  failureCode : Bytes
  result : Result
  providerError : Option GoError
  deriving DecidableEq, Repr

/-- `Outcome{}` -/
def Outcome.zero : Outcome := ⟨.zero, [], [], Result.zero, none⟩

/-- `correlatedFailureBody`; the identifier needs no escaping. -/
def correlatedFailureBody (requestId code : Bytes) : Bytes :=
  let message :=
    if code = invalidRequestCode then invalidRequestMessage
    else if code = unsupportedCapabilityCode then unsupportedCapabilityMessage
    else internalErrorMessage
  goString "\x7b\"version\":\"v1\",\"kind\":\"model_turn.failed\",\"request_id\":\"" ++ requestId ++
    goString "\",\"error\":\x7b\"code\":\"" ++ code ++ goString "\",\"message\":\"" ++ message ++
    goString "\",\"retryable\":false\x7d\x7d"

/-! ## Accessors -/

namespace Outcome

/-- `RequestID` -/
def requestID (outcome : Outcome) : Option Bytes :=
  match outcome.kind with
  | .admissionFailure | .provider | .internalFailure => some outcome.requestId
  | _ => none

/-- `FailureBody` -/
def failureBody (outcome : Outcome) : Option Bytes :=
  match outcome.kind with
  | .uncorrelatedFailure => some uncorrelatedFailureBody
  | .admissionFailure | .internalFailure =>
    some (correlatedFailureBody outcome.requestId outcome.failureCode)
  | _ => none

/-- `FailureCode` -/
def failureCode? (outcome : Outcome) : Option Bytes :=
  match outcome.kind with
  | .admissionFailure | .internalFailure => some outcome.failureCode
  | _ => none

/-- `ProviderOutcome` -/
def providerOutcome (outcome : Outcome) : Option (Result × Option GoError) :=
  if outcome.kind ≠ .provider then none else some (outcome.result, outcome.providerError)

end Outcome

/-! ## Constructors -/

/-- The outcome of a body without a usable identifier. -/
def newUncorrelatedFailure : Outcome := { Outcome.zero with kind := .uncorrelatedFailure }

/-- A failure of the gateway that the client can match with its request. -/
def newFailure (kind : OutcomeKind) (requestId code : Bytes) : Outcome :=
  { Outcome.zero with kind := kind, requestId := requestId, failureCode := code }

/-- The outcome of a request that is no v1 request. -/
def newInvalidRequestFailure (requestId : Bytes) : Outcome :=
  newFailure .admissionFailure requestId invalidRequestCode

/-- The outcome of a request that asks for tools. -/
def newUnsupportedCapabilityFailure (requestId : Bytes) : Outcome :=
  newFailure .admissionFailure requestId unsupportedCapabilityCode

/-- The outcome of a request on which the gateway itself failed. -/
def newInternalFailure (requestId : Bytes) : Outcome :=
  newFailure .internalFailure requestId internalErrorCode

/-- The outcome of an invocation, with what the provider returned. -/
def newProviderOutcome (requestId : Bytes) (result : Result) (err : Option GoError) : Outcome :=
  { Outcome.zero with
    kind := .provider
    requestId := requestId
    result := result
    providerError := err }

/-! ## What an outcome reports -/

/-- The four alternatives, with what they carry. -/
inductive Report where
  | uncorrelated
  | admission (requestId code : Bytes)
  | provider (requestId : Bytes) (result : Result) (err : Option GoError)
  | internal (requestId : Bytes)
  deriving DecidableEq, Repr

/-- The outcome shows this alternative, and nothing else, through its accessors. -/
def Outcome.Shows (outcome : Outcome) : Report → Prop
  | .uncorrelated =>
    outcome.requestID = none ∧ outcome.failureCode? = none ∧
      outcome.failureBody = some uncorrelatedFailureBody ∧ outcome.providerOutcome = none
  | .admission requestId code =>
    (code = invalidRequestCode ∨ code = unsupportedCapabilityCode) ∧
      outcome.requestID = some requestId ∧ outcome.failureCode? = some code ∧
      outcome.failureBody = some (correlatedFailureBody requestId code) ∧
      outcome.providerOutcome = none
  | .provider requestId result err =>
    outcome.requestID = some requestId ∧ outcome.failureCode? = none ∧
      outcome.failureBody = none ∧ outcome.providerOutcome = some (result, err)
  | .internal requestId =>
    outcome.requestID = some requestId ∧ outcome.failureCode? = some internalErrorCode ∧
      outcome.failureBody = some (correlatedFailureBody requestId internalErrorCode) ∧
      outcome.providerOutcome = none

theorem shows_uncorrelated : newUncorrelatedFailure.Shows .uncorrelated := ⟨rfl, rfl, rfl, rfl⟩

theorem shows_invalidRequest (requestId : Bytes) :
    (newInvalidRequestFailure requestId).Shows (.admission requestId invalidRequestCode) :=
  ⟨.inl rfl, rfl, rfl, rfl, rfl⟩

theorem shows_unsupportedCapability (requestId : Bytes) :
    (newUnsupportedCapabilityFailure requestId).Shows (.admission requestId unsupportedCapabilityCode) :=
  ⟨.inr rfl, rfl, rfl, rfl, rfl⟩

theorem shows_provider (requestId : Bytes) (result : Result) (err : Option GoError) :
    (newProviderOutcome requestId result err).Shows (.provider requestId result err) :=
  ⟨rfl, rfl, rfl, rfl⟩

theorem shows_internal (requestId : Bytes) :
    (newInternalFailure requestId).Shows (.internal requestId) := ⟨rfl, rfl, rfl, rfl⟩

theorem internalErrorCode_ne {code : Bytes}
    (h : code = invalidRequestCode ∨ code = unsupportedCapabilityCode) : internalErrorCode ≠ code := by
  rcases h with rfl | rfl <;> decide

/-- The accessors tell the alternatives apart. -/
theorem Outcome.Shows.unique {outcome : Outcome} {a b : Report} (ha : outcome.Shows a)
    (hb : outcome.Shows b) : a = b := by
  cases a with
  | uncorrelated =>
    obtain ⟨hid, -, -, -⟩ := ha
    cases b with
    | uncorrelated => rfl
    | admission requestId code => cases hid.symm.trans hb.2.1
    | provider requestId result err => cases hid.symm.trans hb.1
    | internal requestId => cases hid.symm.trans hb.1
  | admission requestId code =>
    obtain ⟨hallowed, hid, hcode, -, -⟩ := ha
    cases b with
    | uncorrelated => cases hid.symm.trans hb.1
    | admission requestId' code' =>
      cases hid.symm.trans hb.2.1
      cases hcode.symm.trans hb.2.2.1
      rfl
    | provider requestId' result err => cases hcode.symm.trans hb.2.1
    | internal requestId' =>
      exact absurd (Option.some.inj (hb.2.1.symm.trans hcode)) (internalErrorCode_ne hallowed)
  | provider requestId result err =>
    obtain ⟨hid, hcode, -, hprovider⟩ := ha
    cases b with
    | uncorrelated => cases hid.symm.trans hb.1
    | admission requestId' code' => cases hcode.symm.trans hb.2.2.1
    | provider requestId' result' err' =>
      cases hid.symm.trans hb.1
      cases hprovider.symm.trans hb.2.2.2
      rfl
    | internal requestId' => cases hcode.symm.trans hb.2.1
  | internal requestId =>
    obtain ⟨hid, hcode, -, -⟩ := ha
    cases b with
    | uncorrelated => cases hid.symm.trans hb.1
    | admission requestId' code' =>
      exact absurd (Option.some.inj (hcode.symm.trans hb.2.2.1)) (internalErrorCode_ne hb.1)
    | provider requestId' result err => cases hcode.symm.trans hb.2.1
    | internal requestId' =>
      cases hid.symm.trans hb.1
      rfl

end FastGate.ModelTurn
