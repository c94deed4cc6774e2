/-
# FastGate.Agreement.Session — serving clients from a script

The handler over the fake provider, one request after the other: the provider has one owner, and its
state is what the requests so far have left.  Every panic of a handler is recovered by the server, so a
session goes on behind it.

* `Dispatches`, `Refused`, `Fulfilled` and `Panicked` say what can become of one request, from the bytes
  of its body to the calls on its response writer.
* `serveOver_cases` is the step: what one request does in each state of the script.
* `session_course` is the run, by induction over the requests from any state without a violation;
  behind a violation nothing is answered any more (`session_violated`).
* `session_answered` is the law of a whole session: the script is used up from its start, one exchange
  for each request that dispatches, until the first one that it does not expect.

The context of a request may end at any time while the provider answers; the requests themselves are
served in the order in which they arrive.
-/
import FastGate.Agreement.Presentation
import FastGate.Provider.Fake

open FastGate.Utf8 (Bytes encode)
open FastGate.Json
open FastGate.Provider
open FastGate.ModelTurn
open FastGate.ModelTurnHttp

namespace FastGate.Agreement

/-! ## The gateway over the script -/

/-- A request, and how its context stands when the provider has returned. -/
structure Arrival (σ : Type) where
  request : HttpRequest σ
  later : Context

/-- The fake provider as the invoker of one request. -/
def scripted (fake : Fake) (later : Context) : Invoker := fun ctx actual =>
  andThen (fun returned => ⟨returned.1, returned.2, later⟩) (fake.invoke (some ctx) actual).1

section Session

variable {σ : Type} (parseMediaType : MediaTypeParser)

/-- Serving one request; the provider is left as the invocations leave it. -/
def serveOver (fake : Fake) (arrival : Arrival σ) : Served × Fake :=
  let served := serveHTTP parseMediaType (scripted fake arrival.later) (some arrival.request)
  (served, (fake.run (served.invocations.map fun (ctx, actual) => .invoke (some ctx) actual)).2)

/-- A session: the requests are served one after the other, each by the provider that the one before it
left. -/
def session (fake : Fake) : List (Arrival σ) → List Served × Fake
  | [] => ([], fake)
  | arrival :: arrivals =>
    let (served, fake) := serveOver parseMediaType fake arrival
    let (later, fake) := session fake arrivals
    (served :: later, fake)

/-! ## What a session is for -/

/-- The request passes the transport with a document that is dispatched. -/
def Dispatches (arrival : Arrival σ) (doc : Doc Char) (t : List Char) : Prop :=
  transportRejection parseMediaType (some arrival.request) = none ∧
    ∃ reader s, arrival.request.body = some (reader, s) ∧ Correlated reader s doc t ∧
      Admitted reader s doc

/-- The request is answered without the provider, whichever it is. -/
structure Refused (arrival : Arrival σ) (served : Served) : Prop where
  undispatched : ∀ doc t, ¬ Dispatches parseMediaType arrival doc t
  invocations : served.invocations = []
  anyInvoker : ∀ invoker, serveHTTP parseMediaType invoker (some arrival.request) = served

/-- The client reads the outcome that the exchange scripts, under its own identifier. -/
inductive Delivered (exchange : Exchange) (t : List Char) : List WriterCall → Prop
  | completed {text : List Char} {body : Bytes} : exchange.outcome = outcomeResult →
      exchange.result.outputText = encode text →
      Says body (completedValue t text (observed exchange.result.usage exchange.result.hasUsage)) →
      Delivered exchange t (writePreparedResponse ⟨200, jsonMediaType, body, []⟩)
  | failed {failure : Failure} {name message : List Char} {status : Nat} {body : Bytes} :
      exchange.outcome = outcomeFailure → exchange.failure = some failure → failure.code = encode name →
      providerFailurePresentation failure.code = some (status, encode message) →
      Says body (failedValue t name message failure.retryable (observed failure.usage failure.hasUsage)) →
      Delivered exchange t (writePreparedResponse ⟨status, jsonMediaType, body, []⟩)

/-- The request is the one that the exchange expects, and its client is answered from the exchange. -/
def Fulfilled (exchange : Exchange) (arrival : Arrival σ) (served : Served) : Prop :=
  ∃ doc t, Dispatches parseMediaType arrival doc t ∧ providerRequest doc = exchange.expected ∧
    served.invocations = [(arrival.request.context, exchange.expected)] ∧
    Delivered exchange t served.writes ∧ served.completion = .returned ()

/-- The request reaches a provider that panics: no response is written. -/
def Panicked (violation : String) (arrival : Arrival σ) (served : Served) : Prop :=
  ∃ doc t, Dispatches parseMediaType arrival doc t ∧
    served = ⟨[(arrival.request.context, providerRequest doc)], [], .panicked (.invoker violation)⟩

/-- The exchanges are used up in their order, one by each request that is dispatched. -/
inductive Answered : List Exchange → List (Arrival σ) → List Served → Prop
  | nil : Answered [] [] []
  | refused {script : List Exchange} {arrival : Arrival σ} {arrivals : List (Arrival σ)}
      {served : Served} {rest : List Served} : Refused parseMediaType arrival served →
      Answered script arrivals rest → Answered script (arrival :: arrivals) (served :: rest)
  | fulfilled {exchange : Exchange} {script : List Exchange} {arrival : Arrival σ}
      {arrivals : List (Arrival σ)} {served : Served} {rest : List Served} :
      Fulfilled parseMediaType exchange arrival served →
      Answered script arrivals rest → Answered (exchange :: script) (arrival :: arrivals) (served :: rest)

/-- The first of some requests is dispatched and is not the one that the script expects next. -/
def Violates (script : List Exchange) (arrivals : List (Arrival σ)) : Prop :=
  ∃ arrival ∈ arrivals.head?, ∃ doc t, Dispatches parseMediaType arrival doc t ∧
    script.head?.map (·.expected) ≠ some (providerRequest doc)

/-! ## One request -/

/-- A body that is not dispatched is answered in the same way over every invoker. -/
theorem execute_settled {ctx : Context} {reader : Reader σ} {s : σ} (hnone : ∀ doc, ¬ Admitted reader s doc) :
    ∃ outcome, ∀ invoker, execute invoker (some ctx) (some (reader, s)) = .settled (.ok outcome) := by
  by_cases hcorrelated : ∃ doc t, Correlated reader s doc t
  · obtain ⟨doc, t, ht⟩ := hcorrelated
    by_cases hschema : SchemaValid doc
    · by_cases hcaps : doc.elementsAt? "required_capabilities" = some []
      · refine ⟨_, fun invoker => (execute_request invoker ctx ht hschema).2.1 hcaps fun halias => ?_⟩
        exact hnone doc ⟨ht.1, hschema, hcaps, halias⟩
      · exact ⟨_, fun invoker => (execute_request invoker ctx ht hschema).1 hcaps⟩
    · have hno : ¬ IsRequest doc := fun h => hschema ((schemaValid_iff ht.1).mpr h)
      exact ⟨_, fun invoker => (execute_correlated invoker ctx ht).1 hno⟩
  · refine ⟨newUncorrelatedFailure, fun invoker => ?_⟩
    by_cases hdelivers : ∃ doc, DeliversDocument reader s doc
    · obtain ⟨doc, hdoc⟩ := hdelivers
      exact execute_uncorrelated hdoc fun t ht hvalid => hcorrelated ⟨doc, t, hdoc, ht, hvalid⟩
    · exact execute_undelivered fun doc hdoc => hdelivers ⟨doc, hdoc⟩

/-- A request that is not dispatched never meets the provider. -/
theorem refused_of_undispatched {arrival : Arrival σ} (h : ∀ doc t, ¬ Dispatches parseMediaType arrival doc t)
    (invoker : Invoker) :
    Refused parseMediaType arrival (serveHTTP parseMediaType invoker (some arrival.request)) := by
  have hsettled : ∃ served : Served, served.invocations = [] ∧
      ∀ invoker, serveHTTP parseMediaType invoker (some arrival.request) = served := by
    unfold serveHTTP
    cases hpass : transportRejection parseMediaType (some arrival.request) with
    | some response => exact ⟨_, rfl, fun invoker => rfl⟩
    | none =>
      dsimp only
      cases hbody : arrival.request.body with
      | none =>
        exact ⟨.of [] (prepareOutcome (.error "model-turn body reader is required")), rfl, fun invoker => rfl⟩
      | some body =>
        obtain ⟨reader, s⟩ := body
        have hnone : ∀ doc, ¬ Admitted reader s doc := by
          intro doc hdoc
          obtain ⟨t, ht⟩ := ((schemaValid_iff hdoc.document).mp hdoc.schema).correlated hdoc.document
          exact h doc t ⟨hpass, reader, s, hbody, ht, hdoc⟩
        obtain ⟨outcome, hrun⟩ := @execute_settled σ arrival.request.context reader s hnone
        refine ⟨.of [] (prepareOutcome (.ok outcome)), ?_, fun invoker => ?_⟩
        · cases prepareOutcome (.ok outcome) <;> rfl
        · rw [hrun]
          rfl
  obtain ⟨served, hinvocations, hany⟩ := hsettled
  rw [hany]
  exact ⟨h, hinvocations, hany⟩

/-- What a valid exchange scripts is what the client reads. -/
theorem delivered_of_scripts {exchange : Exchange} (hvalid : exchange.validate = none) {t : List Char}
    (ht : IsIdentifier t) {result : Result} {err : Option GoError} (hscripts : exchange.Scripts result err)
    (later : Context) : ∃ response,
      prepareOutcome (.ok (judge (encode t) ⟨result, err, later⟩)) = .returned response ∧
        Delivered exchange t (writePreparedResponse response) := by
  have halternative := exchange.scripts_alternative hvalid hscripts later
  rw [judge, (validateInvocation_none_iff later result err).mpr halternative]
  show ∃ response, prepareOutcome (.ok (newProviderOutcome (encode t) result err)) = _ ∧ _
  rw [prepareOutcome_provider (shows_provider _ _ _) ht]
  rcases hscripts with ⟨houtcome, rfl, rfl⟩ | ⟨houtcome, rfl, rfl⟩
  · have hresult : exchange.result.Valid := by
      generalize exchange.result = result at halternative
      cases halternative
      assumption
    obtain ⟨text, body, htext, hresponse, hsays, -⟩ := prepareCompletedResponse_valid ht hresult
    exact ⟨_, congrArg Completion.returned hresponse, .completed houtcome htext.symm hsays⟩
  · cases hfailure : exchange.failure with
    | none =>
      rw [hfailure] at halternative
      cases halternative
    | some failure =>
      rw [hfailure] at halternative
      cases halternative with
      | failed hvalid =>
        obtain ⟨name, message, status, body, hname, hpresentation, hresponse, hsays, -⟩ :=
          prepareProviderFailureResponse_valid ht hvalid
        exact ⟨_, congrArg Completion.returned hresponse,
          .failed houtcome hfailure hname hpresentation hsays⟩

/-- A dispatched request is answered with what the invoker returns, or panics with it. -/
theorem serveHTTP_dispatched {arrival : Arrival σ} {doc : Doc Char} {t : List Char}
    (h : Dispatches parseMediaType arrival doc t) (invoker : Invoker) :
    serveHTTP parseMediaType invoker (some arrival.request) =
      match invoker arrival.request.context (providerRequest doc) with
      | .panicked v => ⟨[(arrival.request.context, providerRequest doc)], [], .panicked (.invoker v)⟩
      | .returned r => .of [(arrival.request.context, providerRequest doc)]
          (prepareOutcome (.ok (judge (encode t) r))) := by
  obtain ⟨hpass, reader, s, hbody, ht, hadmitted⟩ := h
  unfold serveHTTP
  rw [hpass]
  dsimp only
  rw [hbody, (execute_request invoker arrival.request.context ht hadmitted.schema).2.2 hadmitted]
  cases invoker arrival.request.context (providerRequest doc) with
  | panicked v => rfl
  | returned r => rfl

/-- One invocation, and what is left of the provider behind it. -/
theorem run_singleton (fake : Fake) (ctx : Option Context) (actual : Request) :
    (fake.run [.invoke ctx actual]).2 = (fake.invoke ctx actual).2 := by
  rcases hinvoke : fake.invoke ctx actual with ⟨completion, fake'⟩
  cases completion with
  | returned r => simp only [Fake.run, Fake.step, hinvoke]
  | panicked v => simp only [Fake.run, Fake.step, hinvoke]

/-- The script goes on where it is, as long as nothing was violated. -/
theorem invoke_expected {fake : Fake} (hnone : fake.violation = none) {exchange : Exchange}
    (hnext : fake.exchanges[fake.next]? = some exchange) (ctx : Context) :
    ∃ returned fake', fake.invoke (some ctx) exchange.expected = (.returned returned, fake') := by
  have hsame : firstRequestMismatch exchange.expected exchange.expected = "" :=
    (firstRequestMismatch_empty_iff _ _).mpr rfl
  unfold Fake.invoke
  rw [hnone]
  dsimp only
  rw [hnext]
  dsimp only
  rw [hsame, if_neg (not_not.mpr rfl)]
  split
  · exact ⟨_, _, rfl⟩
  · exact ⟨_, _, rfl⟩

/-- What one request does: nothing to the provider if it is refused, one exchange of the script if it is
the one that is expected, and a violation if it is not, or if there has been one. -/
theorem serveOver_cases {fake : Fake} (hvalid : ∀ exchange ∈ fake.exchanges, exchange.validate = none)
    (arrival : Arrival σ) :
    let served := (serveOver parseMediaType fake arrival).1
    let fake' := (serveOver parseMediaType fake arrival).2
    (Refused parseMediaType arrival served ∧ fake' = fake) ∨
      (∃ exchange, fake.violation = none ∧ fake.exchanges[fake.next]? = some exchange ∧
        Fulfilled parseMediaType exchange arrival served ∧ fake' = { fake with next := fake.next + 1 }) ∨
      ∃ v, Panicked parseMediaType v arrival served ∧ fake' = { fake with violation := some v } ∧
        (∀ w, fake.violation = some w → v = w) ∧
        (fake.violation = none → Violates parseMediaType (fake.exchanges.drop fake.next) [arrival]) := by
  unfold serveOver
  dsimp only
  -- a request that reaches the provider is answered from the script or ends in a panic
  by_cases hdispatches : ∃ doc t, Dispatches parseMediaType arrival doc t
  · obtain ⟨doc, t, h⟩ := hdispatches
    have hserved := serveHTTP_dispatched parseMediaType h (scripted fake arrival.later)
    have hscripted : scripted fake arrival.later arrival.request.context (providerRequest doc) =
        andThen (fun returned => ⟨returned.1, returned.2, arrival.later⟩)
          (fake.invoke (some arrival.request.context) (providerRequest doc)).1 := rfl
    have hleft := run_singleton fake (some arrival.request.context) (providerRequest doc)
    rcases hinvoke : fake.invoke (some arrival.request.context) (providerRequest doc) with ⟨completion, fake'⟩
    rw [hinvoke] at hscripted hleft
    rw [hscripted] at hserved
    right
    cases completion with
    | returned r =>
      left
      obtain ⟨result, err⟩ := r
      obtain ⟨hnone, rfl, c, exchange, -, hexchange, hrequest, hscripts⟩ := Fake.invoke_returned hvalid hinvoke
      obtain ⟨hpass, reader, s, hbody, ht, hadmitted⟩ := id h
      obtain ⟨response, hresponse, hdelivered⟩ := delivered_of_scripts
        (hvalid exchange (List.mem_of_getElem? hexchange)) ht.2.2 hscripts arrival.later
      have hof : serveHTTP parseMediaType (scripted fake arrival.later) (some arrival.request) =
          .of [(arrival.request.context, providerRequest doc)] (.returned response) := by
        rw [hserved, ← hresponse]
        rfl
      rw [hof]
      refine ⟨exchange, hnone, hexchange, ⟨doc, t, h, hrequest, ?_, hdelivered, rfl⟩, hleft⟩
      rw [← hrequest]
      rfl
    | panicked v =>
      right
      obtain ⟨rfl, hfirst⟩ := Fake.invoke_panicked hinvoke
      have hof : serveHTTP parseMediaType (scripted fake arrival.later) (some arrival.request) =
          ⟨[(arrival.request.context, providerRequest doc)], [], .panicked (.invoker v)⟩ := hserved
      rw [hof]
      -- had the script expected the request, the provider would have returned
      refine ⟨v, ⟨doc, t, h, rfl⟩, hleft, hfirst, fun hnone => ⟨arrival, rfl, doc, t, h, fun hexpected => ?_⟩⟩
      rw [List.head?_drop, Option.map_eq_some_iff] at hexpected
      obtain ⟨exchange, hnext, hrequest⟩ := hexpected
      obtain ⟨returned, fake', hreturned⟩ := invoke_expected hnone hnext arrival.request.context
      rw [hrequest, hinvoke] at hreturned
      cases hreturned
  · left
    have hrefused := refused_of_undispatched parseMediaType
      (fun doc t h => hdispatches ⟨doc, t, h⟩) (scripted fake arrival.later)
    refine ⟨hrefused, ?_⟩
    rw [hrefused.invocations]
    rfl

/-! ## A whole session -/

/-- Behind a violation nobody is answered by the provider, and its state stays. -/
theorem session_violated {fake : Fake} (hvalid : ∀ exchange ∈ fake.exchanges, exchange.validate = none)
    {v : String} (hviolation : fake.violation = some v) (arrivals : List (Arrival σ)) :
    List.Forall₂ (fun arrival served => Refused parseMediaType arrival served ∨
        Panicked parseMediaType v arrival served) arrivals (session parseMediaType fake arrivals).1 ∧
      (session parseMediaType fake arrivals).2 = fake := by
  induction arrivals with
  | nil => exact ⟨.nil, rfl⟩
  | cons arrival arrivals ih =>
    unfold session
    dsimp only
    rcases serveOver_cases parseMediaType hvalid arrival with
      ⟨hrefused, hsame⟩ | ⟨exchange, hnone, -⟩ | ⟨w, hpanicked, hleft, hfirst, -⟩
    · rw [hsame]
      exact ⟨.cons (.inl hrefused) ih.1, ih.2⟩
    · rw [hviolation] at hnone
      cases hnone
    · obtain rfl := hfirst v hviolation
      rw [← hviolation] at hleft
      rw [hleft]
      exact ⟨.cons (.inr hpanicked) ih.1, ih.2⟩

/-- The course of a session from a script without violation.  The induction is on the requests; the part
of the script that is used up grows with each that is fulfilled. -/
theorem session_course {fake : Fake} (hvalid : ∀ exchange ∈ fake.exchanges, exchange.validate = none)
    (hnone : fake.violation = none) (arrivals : List (Arrival σ)) :
    ∃ answered rest before after servedBefore servedAfter violation,
      fake.exchanges.drop fake.next = answered ++ rest ∧ arrivals = before ++ after ∧
      (session parseMediaType fake arrivals).1 = servedBefore ++ servedAfter ∧
      Answered parseMediaType answered before servedBefore ∧
      (after = [] ∧ violation = none ∨ violation.isSome ∧ Violates parseMediaType rest after) ∧
      List.Forall₂ (fun arrival served => Refused parseMediaType arrival served ∨
        ∃ v, violation = some v ∧ Panicked parseMediaType v arrival served) after servedAfter ∧
      (session parseMediaType fake arrivals).2 =
        ⟨fake.exchanges, fake.next + answered.length, violation⟩ := by
  induction arrivals generalizing fake with
  | nil =>
    refine ⟨[], _, [], [], [], [], none, rfl, rfl, rfl, .nil, .inl ⟨rfl, rfl⟩, .nil, ?_⟩
    rw [← hnone]
    rfl
  | cons arrival arrivals ih =>
    unfold session
    dsimp only
    rcases serveOver_cases parseMediaType hvalid arrival with
      ⟨hrefused, hsame⟩ | ⟨exchange, -, hnext, hfulfilled, hleft⟩ | ⟨v, hpanicked, hleft, -, hviolates⟩
    · obtain ⟨answered, rest, before, after, servedBefore, servedAfter, violation, hscript, harrivals,
        hserved, hanswered, hend, hafter, hstate⟩ := ih hvalid hnone
      rw [hsame]
      refine ⟨answered, rest, arrival :: before, after, _ :: servedBefore, servedAfter, violation, hscript,
        ?_, ?_, .refused hrefused hanswered, hend, hafter, hstate⟩
      · rw [harrivals, List.cons_append]
      · rw [hserved, List.cons_append]
    · rw [hleft]
      obtain ⟨answered, rest, before, after, servedBefore, servedAfter, violation, hscript, harrivals,
        hserved, hanswered, hend, hafter, hstate⟩ := @ih { fake with next := fake.next + 1 } hvalid hnone
      obtain ⟨hlt, hexchange⟩ := List.getElem?_eq_some_iff.mp hnext
      refine ⟨exchange :: answered, rest, arrival :: before, after, _ :: servedBefore, servedAfter, violation,
        ?_, ?_, ?_, .fulfilled hfulfilled hanswered, hend, hafter, ?_⟩
      · rw [List.drop_eq_getElem_cons hlt, hexchange, List.cons_append, ← hscript]
      · rw [harrivals, List.cons_append]
      · rw [hserved, List.cons_append]
      · rw [hstate, List.length_cons, Nat.add_comm answered.length, Nat.add_assoc]
    -- the first violation ends the fulfilled part, and stays
    · rw [hleft]
      obtain ⟨hafter, hstate⟩ :=
        @session_violated σ parseMediaType { fake with violation := some v } hvalid v rfl arrivals
      obtain ⟨first, hfirst, hdispatches⟩ := hviolates hnone
      refine ⟨[], _, [], arrival :: arrivals, [], _, some v, rfl, rfl, rfl, .nil,
        .inr ⟨rfl, first, hfirst, hdispatches⟩, ?_, hstate⟩
      refine .cons (.inr ⟨v, rfl, hpanicked⟩) (hafter.imp fun _ _ h => ?_)
      exact h.imp_right fun hpanicked => ⟨v, rfl, hpanicked⟩

theorem newFake_ok {script : List Exchange} {fake : Fake} (h : newFake script = .ok fake) :
    fake = ⟨script, 0, none⟩ := by
  unfold newFake at h
  split at h
  · cases h
  split at h
  · cases h
  · cases h
    rfl

/-- A violation or an exchange that is left keeps the provider from verifying. -/
theorem verifyComplete_split {answered rest : List Exchange} {violation : Option String} :
    (Fake.mk (answered ++ rest) answered.length violation).verifyComplete = none ↔
      violation = none ∧ rest = [] := by
  unfold Fake.verifyComplete
  cases violation with
  | some v => exact iff_of_false (by simp) (by simp)
  | none =>
    dsimp only
    rw [List.length_append]
    split
    · rename_i hlt
      refine iff_of_false (by simp) fun h => ?_
      rw [h.2, List.length_nil] at hlt
      omega
    · rename_i hge
      refine iff_of_true rfl ⟨rfl, List.eq_nil_of_length_eq_zero ?_⟩
      omega

end Session

/-! ## A small session -/

/-- A script of one exchange. -/
def sampleScript : List Exchange :=
  [⟨⟨[⟨messageRoleUser, goString "hi"⟩], [], []⟩, ⟨goString "hello", Usage.zero, false⟩, none, outcomeResult⟩]

/-- The sample request, whose context ends while the provider answers. -/
def sampleArrival : Arrival Bool := ⟨sampleHttpRequest, ⟨some .canceled⟩⟩

/-- The sample request is the one that the script expects. -/
theorem sample_dispatches : ∃ doc t, Dispatches (fun value => some (value, [])) sampleArrival doc t ∧
    providerRequest doc = ⟨[⟨messageRoleUser, goString "hi"⟩], [], []⟩ := by
  obtain ⟨doc, hdoc⟩ := strictDocument_of_validate sampleRequest_strict
  obtain ⟨root, hroot, hrequest⟩ := Option.bind_eq_some_iff.mp sampleRequest_decodes
  obtain ⟨ms, rfl, hmembers⟩ := rootMembers hdoc hroot
  have hdelivers : DeliversDocument (wholeReader sampleRequest) false (.obj ms) :=
    ⟨sampleRequest, wholeReader_delivers (by decide +kernel), hdoc⟩
  obtain ⟨_, -, -, hprofile⟩ := hdoc
  obtain ⟨hvalid, heq⟩ := (decodeWireRequest_text hmembers (clean_of_profile hprofile).scalarNames _).mp
    hrequest
  have hadmitted : Admitted (wholeReader sampleRequest) false (.obj ms) := by
    refine ⟨hdelivers, (schemaValid_iff hdelivers).mpr hvalid, ?_, ?_⟩
    · exact not_not.mp fun h => hvalid.capabilities_iff.mpr h (by rw [← heq]; rfl)
    · exact not_not.mp fun h => hvalid.alias_iff.mpr h (by rw [← heq])
  obtain ⟨t, ht⟩ := hvalid.correlated hdelivers
  refine ⟨.obj ms, t, ⟨by decide, _, _, rfl, ht, hadmitted⟩, ?_⟩
  rw [documentRequest, WireRequest.mk.injEq] at heq
  rw [providerRequest, ← heq.2.2.1, ← heq.2.2.2.1]

end FastGate.Agreement
