/-
# FastGate.Agreement.Execution — what an execution does with a body

The results about `execute`, with the schema's verdict in place of the decoder's.  A body is whatever
its reader delivers, in any chunks; the provider is any invoker, one that panics included.

* `execute_dispatch`: the provider is invoked exactly for the bodies that are admitted (a strict
  document that the request schema accepts, with the alias that is served and without capabilities),
  and then once, with what the document says.
* `execute_outcome`: every other body is answered without the provider, and by exactly one of the
  alternatives of an outcome.  `Classifies` says by which.
* `execute_cases` is what both are read off: an execution is settled before the provider, or it is the
  judgement of one return (`Decides`).

The gateway decides with its hand-written decoder, the statements with `validate_instance` on the
committed schema; `decodeWireRequest_iff_validateInstance` stands between the two.
-/
import FastGate.Agreement.Request
import FastGate.ModelTurn.Executor

open FastGate.Utf8 (Bytes encode)
open FastGate.Json
open FastGate.Python (Value)
open FastGate.Provider
open FastGate.ModelTurn
open FastGate.CheckContract (validateInstance requestSchema)

namespace FastGate.Agreement

variable {σ : Type} {reader : Reader σ} {s : σ} {invoker : Invoker} {ctx : Context} {doc : Doc Char}

/-- The document satisfies the committed v1 request schema. -/
def SchemaValid (doc : Doc Char) : Prop := validateInstance (.ofDoc doc) requestSchema = .ok []

theorem schemaValid_iff (h : DeliversDocument reader s doc) :
    SchemaValid doc ↔ IsRequest doc := by
  obtain ⟨body, -, text, -, -, hprofile⟩ := h
  exact validateInstance_request hprofile

/-- The body is a request that is dispatched. -/
structure Admitted (reader : Reader σ) (s : σ) (doc : Doc Char) : Prop where
  document : DeliversDocument reader s doc
  schema : SchemaValid doc
  capabilities : doc.elementsAt? "required_capabilities" = some []
  modelAlias : doc.textAt? "model_alias" = some "learning-text".toList

/-! ## The decision -/

/-- What is reported about a body, in the order in which it is decided. -/
inductive Decides (reader : Reader σ) (s : σ) (invoker : Invoker) (ctx : Context) : Report → Prop
  | uncorrelated : (∀ doc t, ¬ Correlated reader s doc t) → Decides reader s invoker ctx .uncorrelated
  | invalid {doc : Doc Char} {t : List Char} : Correlated reader s doc t → ¬ SchemaValid doc →
      Decides reader s invoker ctx (.admission (encode t) invalidRequestCode)
  | unsupported {doc : Doc Char} {t : List Char} : Correlated reader s doc t → SchemaValid doc →
      doc.elementsAt? "required_capabilities" ≠ some [] →
      Decides reader s invoker ctx (.admission (encode t) unsupportedCapabilityCode)
  | otherAlias {doc : Doc Char} {t : List Char} : Correlated reader s doc t → SchemaValid doc →
      doc.elementsAt? "required_capabilities" = some [] →
      doc.textAt? "model_alias" ≠ some "learning-text".toList →
      Decides reader s invoker ctx (.admission (encode t) invalidRequestCode)
  | provider {doc : Doc Char} {t : List Char} {r : Return} : Correlated reader s doc t →
      Admitted reader s doc → invoker ctx (providerRequest doc) = .returned r →
      validateInvocation (some r.ctx) r.result r.err = none →
      Decides reader s invoker ctx (.provider (encode t) r.result r.err)
  | internal {doc : Doc Char} {t : List Char} {r : Return} : Correlated reader s doc t →
      Admitted reader s doc → invoker ctx (providerRequest doc) = .returned r →
      validateInvocation (some r.ctx) r.result r.err ≠ none →
      Decides reader s invoker ctx (.internal (encode t))

/-- The three ways an execution with an identifier goes on. -/
theorem execute_request (invoker : Invoker) (ctx : Context) {t : List Char}
    (h : Correlated reader s doc t) (hvalid : SchemaValid doc) :
    (doc.elementsAt? "required_capabilities" ≠ some [] →
      execute invoker (some ctx) (some (reader, s)) =
        .settled (.ok (newUnsupportedCapabilityFailure (encode t)))) ∧
    (doc.elementsAt? "required_capabilities" = some [] →
      doc.textAt? "model_alias" ≠ some "learning-text".toList →
      execute invoker (some ctx) (some (reader, s)) =
        .settled (.ok (newInvalidRequestFailure (encode t)))) ∧
    (Admitted reader s doc → execute invoker (some ctx) (some (reader, s)) =
      ⟨[(ctx, providerRequest doc)],
        andThen (fun r => .ok (judge (encode t) r)) (invoker ctx (providerRequest doc))⟩) := by
  have hrequest := (schemaValid_iff h.1).mp hvalid
  have hrun := (execute_correlated invoker ctx h).2 hrequest
  rw [hrun]
  refine ⟨fun hcaps => ?_, fun hcaps halias => ?_, fun hadmitted => ?_⟩
  · rw [if_pos (hrequest.capabilities_iff.mpr hcaps)]
  · rw [if_neg (fun h => hrequest.capabilities_iff.mp h hcaps), if_pos (hrequest.alias_iff.mpr halias)]
  · have hnone : documentCapabilities doc = [] := by
      rw [documentCapabilities, hadmitted.capabilities]
      rfl
    rw [if_neg (fun h => hrequest.capabilities_iff.mp h hadmitted.capabilities),
      if_neg (fun h => hrequest.alias_iff.mp h hadmitted.modelAlias),
      executeAdmitted_text hrequest hnone, documentText_of h.2.1]

/-- An execution settles what it reports without an invocation, or it is admitted and the invoker's
answer decides. -/
theorem execute_cases (invoker : Invoker) (ctx : Context) (reader : Reader σ) (s : σ) :
    (∃ report outcome, execute invoker (some ctx) (some (reader, s)) = .settled (.ok outcome) ∧
      Decides reader s invoker ctx report ∧ outcome.Shows report ∧ ∀ doc, ¬ Admitted reader s doc) ∨
    ∃ doc t, Correlated reader s doc t ∧ Admitted reader s doc ∧
      execute invoker (some ctx) (some (reader, s)) =
        ⟨[(ctx, providerRequest doc)],
          andThen (fun r => .ok (judge (encode t) r)) (invoker ctx (providerRequest doc))⟩ := by
  by_cases hcorrelated : ∃ doc t, Correlated reader s doc t
  · obtain ⟨doc, t, ht⟩ := hcorrelated
    by_cases hschema : SchemaValid doc
    · obtain ⟨hunsupported, halias, hadmit⟩ := execute_request invoker ctx ht hschema
      by_cases hcaps : doc.elementsAt? "required_capabilities" = some []
      · by_cases hmodel : doc.textAt? "model_alias" = some "learning-text".toList
        · have hadmitted : Admitted reader s doc := ⟨ht.1, hschema, hcaps, hmodel⟩
          exact .inr ⟨doc, t, ht, hadmitted, hadmit hadmitted⟩
        · refine .inl ⟨_, _, halias hcaps hmodel, .otherAlias ht hschema hcaps hmodel,
            shows_invalidRequest _, fun other hother => ?_⟩
          obtain rfl := ht.1.unique hother.document
          exact hmodel hother.modelAlias
      · refine .inl ⟨_, _, hunsupported hcaps, .unsupported ht hschema hcaps,
          shows_unsupportedCapability _, fun other hother => ?_⟩
        obtain rfl := ht.1.unique hother.document
        exact hcaps hother.capabilities
    · have hno : ¬ IsRequest doc := fun h => hschema ((schemaValid_iff ht.1).mpr h)
      refine .inl ⟨_, _, (execute_correlated invoker ctx ht).1 hno, .invalid ht hschema, shows_invalidRequest _,
        fun other hother => ?_⟩
      obtain rfl := ht.1.unique hother.document
      exact hschema hother.schema
  · have hnone : ∀ doc t, ¬ Correlated reader s doc t := fun doc t h => hcorrelated ⟨doc, t, h⟩
    have hsettled : execute invoker (some ctx) (some (reader, s)) =
        .settled (.ok newUncorrelatedFailure) := by
      -- no document is delivered, or the document has no usable identifier
      by_cases hdelivers : ∃ doc, DeliversDocument reader s doc
      · obtain ⟨doc, hdoc⟩ := hdelivers
        exact execute_uncorrelated hdoc fun t ht hvalid => hnone doc t ⟨hdoc, ht, hvalid⟩
      · exact execute_undelivered fun doc hdoc => hdelivers ⟨doc, hdoc⟩
    refine .inl ⟨_, _, hsettled, .uncorrelated hnone, shows_uncorrelated, fun doc hdoc => ?_⟩
    obtain ⟨t, ht⟩ := ((schemaValid_iff hdoc.document).mp hdoc.schema).correlated hdoc.document
    exact hnone doc t ht

/-! ## Dispatch -/

/-- An admitted body reaches the invoker exactly once, with the conversation and the instructions of
its document in their order and as they are; no other body reaches it at all. -/
theorem execute_dispatch (invoker : Invoker) (ctx : Context) (reader : Reader σ) (s : σ) :
    (∀ doc, Admitted reader s doc →
      (execute invoker (some ctx) (some (reader, s))).calls =
        [(ctx, ⟨documentConversation doc, documentInstructions doc, []⟩)]) ∧
      ((∀ doc, ¬ Admitted reader s doc) →
        (execute invoker (some ctx) (some (reader, s))).calls = []) := by
  rcases execute_cases invoker ctx reader s with
    ⟨report, outcome, hrun, -, -, hnone⟩ | ⟨doc, t, -, hadmitted, hrun⟩
  · rw [hrun]
    exact ⟨fun doc hdoc => absurd hdoc (hnone doc), fun _ => rfl⟩
  · rw [hrun]
    refine ⟨fun other hother => ?_, fun hnone => absurd hadmitted (hnone doc)⟩
    obtain rfl := hadmitted.document.unique hother.document
    rfl

/-- A reader that returns a whole body at once, with the end of file. -/
def wholeReader (body : Bytes) : Reader Bool where
  read finished offered :=
    if finished then (⟨List.replicate offered 0, 0, some .eof⟩, true)
    else
      (⟨(body ++ List.replicate offered 0).take offered, ((min body.length offered : Nat) : Int), some .eof⟩,
        true)
  length_buffer finished offered := by cases finished <;> simp

theorem wholeReader_delivers {body : Bytes} (h : body.length ≤ readBufferBytes) :
    Delivers (wholeReader body) false body := by
  have hsize : offeredSize 0 = readBufferBytes := by decide
  refine ⟨_, .cons .nil, ?_⟩
  rw [hsize]
  simp only [wholeReader, Bool.false_eq_true, if_false, Nat.min_eq_left h]
  refine ⟨⟨[], _, rfl, rfl, by simp⟩, ?_, ?_, ?_, ?_⟩
  · simp only [List.mem_singleton, forall_eq]
    simp
    omega
  · simp [ReadResult.delivered, List.take_take, Nat.min_eq_left h]
  · unfold maxRequestBodyBytes
    unfold readBufferBytes at h
    omega
  · intro before run after heq hrun
    cases run with
    | nil => decide
    | cons result run =>
      obtain ⟨-, herr⟩ := hrun result List.mem_cons_self
      have hmem : result ∈ before ++ (result :: run ++ after) := by simp
      rw [← heq, List.mem_singleton] at hmem
      rw [hmem] at herr
      cases herr

/-- The sample request is dispatched, with its one message. -/
theorem execute_dispatch_sample :
    (execute (fun _ _ => .panicked "no provider") (some ⟨none⟩)
        (some (wholeReader sampleRequest, false))).calls =
      [(⟨none⟩, ⟨[⟨messageRoleUser, goString "hi"⟩], [], []⟩)] := by
  obtain ⟨doc, hdoc⟩ := strictDocument_of_validate sampleRequest_strict
  obtain ⟨root, hroot, hrequest⟩ := Option.bind_eq_some_iff.mp sampleRequest_decodes
  obtain ⟨ms, rfl, hmembers⟩ := rootMembers hdoc hroot
  have hdelivers : DeliversDocument (wholeReader sampleRequest) false (.obj ms) :=
    ⟨sampleRequest, wholeReader_delivers (by decide +kernel), hdoc⟩
  obtain ⟨_, -, -, hprofile⟩ := hdoc
  obtain ⟨hvalid, heq⟩ := (decodeWireRequest_text hmembers (clean_of_profile hprofile).scalarNames _).mp
    hrequest
  have hadmitted : Admitted (wholeReader sampleRequest) false (.obj ms) := by
    refine ⟨hdelivers, (schemaValid_iff hdelivers).mpr hvalid, ?_, ?_⟩
    · exact not_not.mp fun h => hvalid.capabilities_iff.mpr h (by rw [← heq]; rfl)
    · exact not_not.mp fun h => hvalid.alias_iff.mpr h (by rw [← heq])
  rw [(execute_dispatch _ _ _ _).1 _ hadmitted]
  rw [documentRequest, WireRequest.mk.injEq] at heq
  rw [← heq.2.2.1, ← heq.2.2.2.1]

/-! ## Outcomes -/

/-- The outcome of an invocation that returned. -/
theorem decides_judge {t : List Char} {r : Return} (ht : Correlated reader s doc t)
    (hadmitted : Admitted reader s doc) (hr : invoker ctx (providerRequest doc) = .returned r) :
    ∃ report, Decides reader s invoker ctx report ∧ (judge (encode t) r).Shows report := by
  rw [judge]
  split
  · rename_i message hmessage
    exact ⟨_, .internal ht hadmitted hr (by rw [hmessage]; simp), shows_internal _⟩
  · rename_i haccepted
    exact ⟨_, .provider ht hadmitted hr haccepted, shows_provider _ _ _⟩

/-- What is decided is what the outcome of the execution shows. -/
theorem shows_of_decides {report : Report} {outcome : Outcome}
    (hrun : (execute invoker (some ctx) (some (reader, s))).completion = .returned (.ok outcome))
    (h : Decides reader s invoker ctx report) : outcome.Shows report := by
  -- what is settled without the invoker is the outcome
  have hsettled : ∀ {other : Outcome}, execute invoker (some ctx) (some (reader, s)) = .settled (.ok other) →
      outcome = other := by
    intro other hother
    rw [hother] at hrun
    cases hrun
    rfl
  -- of an admitted request it is the judgement of what the invoker returned
  have hjudged : ∀ {doc : Doc Char} {t : List Char} {r : Return}, Correlated reader s doc t →
      Admitted reader s doc → invoker ctx (providerRequest doc) = .returned r →
      outcome = judge (encode t) r := by
    intro doc t r ht hadmitted hr
    rw [(execute_request invoker ctx ht hadmitted.schema).2.2 hadmitted, hr] at hrun
    cases hrun
    rfl
  cases h with
  | uncorrelated hnone =>
    rcases execute_cases invoker ctx reader s with
      ⟨report, other, hother, hdecides, hshows, -⟩ | ⟨doc, t, ht, -, -⟩
    · rw [hsettled hother]
      cases hdecides with
      | uncorrelated _ => exact hshows
      | invalid ht _ => exact absurd ht (hnone _ _)
      | unsupported ht _ _ => exact absurd ht (hnone _ _)
      | otherAlias ht _ _ _ => exact absurd ht (hnone _ _)
      | provider ht _ _ _ => exact absurd ht (hnone _ _)
      | internal ht _ _ _ => exact absurd ht (hnone _ _)
    · exact absurd ht (hnone doc t)
  | invalid ht hschema =>
    rw [hsettled ((execute_correlated invoker ctx ht).1 fun h => hschema ((schemaValid_iff ht.1).mpr h))]
    exact shows_invalidRequest _
  | unsupported ht hschema hcaps =>
    rw [hsettled ((execute_request invoker ctx ht hschema).1 hcaps)]
    exact shows_unsupportedCapability _
  | otherAlias ht hschema hcaps halias =>
    rw [hsettled ((execute_request invoker ctx ht hschema).2.1 hcaps halias)]
    exact shows_invalidRequest _
  | provider ht hadmitted hr haccepted =>
    rw [hjudged ht hadmitted hr, judge, haccepted]
    exact shows_provider _ _ _
  | internal ht hadmitted hr hrefused =>
    obtain ⟨message, hmessage⟩ := Option.ne_none_iff_exists'.mp hrefused
    rw [hjudged ht hadmitted hr, judge, hmessage]
    exact shows_internal _

/-- How an outcome classifies a body. -/
structure Classifies (reader : Reader σ) (s : σ) (invoker : Invoker) (ctx : Context)
    (outcome : Outcome) : Prop where
  correlated : (∃ requestId, outcome.requestID = some requestId) ↔ ∃ doc t, Correlated reader s doc t
  requestID : ∀ doc t, Correlated reader s doc t → outcome.requestID = some (encode t)
  decided : ∀ report, Decides reader s invoker ctx report → outcome.Shows report
  exactlyOne : ∃! report, outcome.Shows report

/-- An outcome has an identifier exactly when the body is a strict document with a valid `request_id`,
and it is that one; the class of the outcome is decided in the order of `Decides`, and the accessors
report exactly one alternative.  Only an invoker that panics leaves no outcome. -/
theorem execute_outcome (invoker : Invoker) (ctx : Context) (reader : Reader σ) (s : σ) :
    (∃ outcome, (execute invoker (some ctx) (some (reader, s))).completion = .returned (.ok outcome) ∧
      Classifies reader s invoker ctx outcome) ∨
    ∃ doc v, Admitted reader s doc ∧ invoker ctx (providerRequest doc) = .panicked v ∧
      (execute invoker (some ctx) (some (reader, s))).completion = .panicked v := by
  -- an outcome that shows what is decided is classified
  have hclassifies : ∀ {report : Report} {outcome : Outcome},
      (execute invoker (some ctx) (some (reader, s))).completion = .returned (.ok outcome) →
      Decides reader s invoker ctx report → outcome.Shows report →
      Classifies reader s invoker ctx outcome := by
    intro report outcome hrun hdecides hshows
    have hone : ∃! report, outcome.Shows report := ⟨report, hshows, fun _ h => h.unique hshows⟩
    have hid : (∃ doc t, Correlated reader s doc t ∧ outcome.requestID = some (encode t)) ∨
        (outcome.requestID = none ∧ ∀ doc t, ¬ Correlated reader s doc t) := by
      cases hdecides with
      | uncorrelated hnone => exact .inr ⟨hshows.1, hnone⟩
      | invalid ht _ => exact .inl ⟨_, _, ht, hshows.2.1⟩
      | unsupported ht _ _ => exact .inl ⟨_, _, ht, hshows.2.1⟩
      | otherAlias ht _ _ _ => exact .inl ⟨_, _, ht, hshows.2.1⟩
      | provider ht _ _ _ => exact .inl ⟨_, _, ht, hshows.1⟩
      | internal ht _ _ _ => exact .inl ⟨_, _, ht, hshows.1⟩
    rcases hid with ⟨doc, t, ht, hid⟩ | ⟨hid, hnone⟩
    · refine ⟨iff_of_true ⟨_, hid⟩ ⟨doc, t, ht⟩, fun doc' t' ht' => ?_,
        fun _ h => shows_of_decides hrun h, hone⟩
      rw [hid, (ht.unique ht').2]
    · refine ⟨iff_of_false ?_ fun ⟨doc, t, ht⟩ => hnone doc t ht, fun doc t ht => absurd ht (hnone doc t),
        fun _ h => shows_of_decides hrun h, hone⟩
      rintro ⟨requestId, hsome⟩
      cases hid.symm.trans hsome
  rcases execute_cases invoker ctx reader s with
    ⟨report, outcome, hrun, hdecides, hshows, -⟩ | ⟨doc, t, ht, hadmitted, hrun⟩
  · have hcompletion : (execute invoker (some ctx) (some (reader, s))).completion =
        .returned (.ok outcome) := by rw [hrun]; rfl
    exact .inl ⟨outcome, hcompletion, hclassifies hcompletion hdecides hshows⟩
  · cases hr : invoker ctx (providerRequest doc) with
    | returned r =>
      have hcompletion : (execute invoker (some ctx) (some (reader, s))).completion =
          .returned (.ok (judge (encode t) r)) := by rw [hrun, hr]; rfl
      obtain ⟨report, hdecides, hshows⟩ := decides_judge ht hadmitted hr
      exact .inl ⟨_, hcompletion, hclassifies hcompletion hdecides hshows⟩
    | panicked v => exact .inr ⟨doc, v, hadmitted, hr, by rw [hrun, hr]; rfl⟩

end FastGate.Agreement
