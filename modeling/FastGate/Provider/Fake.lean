/-
# FastGate.Provider.Fake — the strict scripted provider

A fake provider answers invocations from a script.  A request that differs from the script, a missing
context or an invocation too many records a violation and panics; the violation stays.

A test drives it with any sequence of calls, recovering every panic (`Fake.run`).  The invariant
carried through a run is `Follows`: as many invocations have returned as exchanges are consumed, and
each of them answered the exchange of its number.  `Follows.step` preserves it over one call and
`Follows.run` over a run; `fake_strictRun` says what follows for tests.

* Two requests are compared field by field in the order of the source, and the first difference is named
  by its path.  `firstRequestMismatch_exact` says that the path is empty exactly for equal requests, and
  that it depends on nothing but in which fields the two agree.
* A script is validated when the provider is made, so what it returns passes the validation of
  invocations (`newFake_follows`).
* An invocation that panics consumes nothing, and nothing returns behind a violation
  (`Fake.run_violated`).
-/
import FastGate.Provider.Provider

namespace FastGate.Provider

/-- The length of a script at most. -/
def maxExchanges : Nat := 64

/-- The exchange ends in a result. -/
def outcomeResult : UInt8 := 1

/-- The exchange ends in a failure. -/
def outcomeFailure : UInt8 := 2

/-- One expected request and its scripted outcome. -/
structure Exchange where
  expected : Request
  result : Result
  failure : Option Failure
  outcome : UInt8
  deriving DecidableEq, Repr

/-- `validate`: the request is valid, and so is the one outcome that is scripted. -/
def Exchange.validate (exchange : Exchange) : Option String :=
  match exchange.expected.validate with
  | some err => some ("expected request is invalid: " ++ err)
  | none =>
    if exchange.outcome = outcomeResult then
      if exchange.failure ≠ none then some "completed exchange cannot contain a failure"
      else
        match exchange.result.validate with
        | some err => some ("scripted result is invalid: " ++ err)
        | none => none
    else if exchange.outcome = outcomeFailure then
      if exchange.result ≠ Result.zero then some "failed exchange cannot contain a result"
      else
        match Failure.validate exchange.failure with
        | some err => some ("scripted failure is invalid: " ++ err)
        | none => none
    else some "exchange outcome is required"

/-- The fake provider: its script, the number of exchanges consumed, the first violation. -/
structure Fake where
  exchanges : List Exchange
  next : Nat
  violation : Option String
  deriving DecidableEq, Repr

/-- The check of one exchange of a script, numbered from 1. -/
def validateExchange (index : Nat) (exchange : Exchange) : Option String :=
  match exchange.validate with
  | some err => some ("fake provider exchange " ++ toString (index + 1) ++ " is invalid: " ++ err)
  | none => none

/-- `New` -/
def newFake (exchanges : List Exchange) : Except String Fake :=
  if exchanges.length > maxExchanges then
    .error ("fake provider script must contain at most " ++ toString maxExchanges ++ " exchanges")
  else
    match firstError validateExchange 0 exchanges with
    | some err => .error err
    | none => .ok ⟨exchanges, 0, none⟩

/-! ## Comparing requests -/

/-- A `range` loop over two lists of one length that returns the first path where they differ. -/
def firstDifference {α : Type} (path : Nat → α → α → String) : Nat → List α → List α → String
  | index, x :: xs, y :: ys =>
    if path index x y ≠ "" then path index x y else firstDifference path (index + 1) xs ys
  | _, _, _ => ""

/-- The path of the first field in which two messages differ. -/
def messageDifference (index : Nat) (expected actual : Message) : String :=
  if expected.role ≠ actual.role then "conversation[" ++ toString index ++ "].role"
  else if expected.content ≠ actual.content then "conversation[" ++ toString index ++ "].content"
  else ""

/-- The path of the first field in which two instructions differ. -/
def instructionDifference (index : Nat) (expected actual : Instruction) : String :=
  if expected.source ≠ actual.source then "instructions[" ++ toString index ++ "].source"
  else if expected.content ≠ actual.content then "instructions[" ++ toString index ++ "].content"
  else ""

/-- The path of a capability that differs. -/
def capabilityDifference (index : Nat) (expected actual : Utf8.Bytes) : String :=
  if expected ≠ actual then "requiredCapabilities[" ++ toString index ++ "]" else ""

/-- The path of the first field in which two requests differ; empty when there is none. -/
def firstRequestMismatch (expected actual : Request) : String :=
  if expected.conversation.length ≠ actual.conversation.length then "conversation.length"
  else
    let path := firstDifference messageDifference 0 expected.conversation actual.conversation
    if path ≠ "" then path
    else if expected.instructions.length ≠ actual.instructions.length then "instructions.length"
    else
      let path := firstDifference instructionDifference 0 expected.instructions actual.instructions
      if path ≠ "" then path
      else if expected.requiredCapabilities.length ≠ actual.requiredCapabilities.length then
        "requiredCapabilities.length"
      else
        firstDifference capabilityDifference 0 expected.requiredCapabilities
          actual.requiredCapabilities

/-! ## Calls -/

/-- `fail`: record the first violation and panic with it. -/
def Fake.fail {α : Type} (fake : Fake) (diagnostic : String) : Completion String α × Fake :=
  let violation := fake.violation.getD diagnostic
  (.panicked violation, { fake with violation := some violation })

/-- `Invoke` -/
def Fake.invoke (fake : Fake) (ctx : Option Context) (actual : Request) :
    Completion String (Result × Option GoError) × Fake :=
  match fake.violation with
  | some violation => (.panicked violation, fake)
  | none =>
    match ctx with
    | none => fake.fail "fake provider invocation context is required"
    | some _ =>
      match fake.exchanges[fake.next]? with
      | none =>
        fake.fail ("fake provider received unexpected request " ++ toString (fake.next + 1) ++
          "; the script has no remaining exchanges")
      | some exchange =>
        let path := firstRequestMismatch exchange.expected actual
        if path ≠ "" then
          fake.fail ("fake provider request " ++ toString (fake.next + 1) ++ " differed at " ++ path)
        else
          let fake := { fake with next := fake.next + 1 }
          if exchange.outcome = outcomeResult then (.returned (exchange.result, none), fake)
          else (.returned (Result.zero, some (.failure exchange.failure)), fake)

/-- `VerifyComplete` -/
def Fake.verifyComplete (fake : Fake) : Option String :=
  match fake.violation with
  | some violation => some violation
  | none =>
    if fake.next < fake.exchanges.length then
      some ("fake provider expected request " ++ toString (fake.next + 1) ++ ", but " ++
        toString (fake.exchanges.length - fake.next) ++ " exchange(s) were never invoked")
    else none

/-- What a test may do with a fake provider. -/
inductive Call where
  | invoke (ctx : Option Context) (actual : Request)
  | verifyComplete
  deriving DecidableEq, Repr

/-- An invocation that returned: what it was given and what it gave back. -/
structure Invocation where
  ctx : Option Context
  actual : Request
  result : Result
  err : Option GoError
  deriving DecidableEq, Repr

/-- One call, its panic recovered; the invocation it was, if it returned. -/
def Fake.step (fake : Fake) : Call → List Invocation × Fake
  | .verifyComplete => ([], fake)
  | .invoke ctx actual =>
    match fake.invoke ctx actual with
    | (.returned (result, err), fake) => ([⟨ctx, actual, result, err⟩], fake)
    | (.panicked _, fake) => ([], fake)

/-- A run: the invocations that returned, in order, and the state it ends in. -/
def Fake.run (fake : Fake) : List Call → List Invocation × Fake
  | [] => ([], fake)
  | call :: calls =>
    let (returned, fake) := fake.step call
    let (later, fake) := fake.run calls
    (returned ++ later, fake)

/-! ## Equal requests -/

theorem append_ne_empty {s t : String} (h : s ≠ "") : s ++ t ≠ "" := by
  intro he
  exact h (String.append_eq_empty_iff.mp he).1

theorem firstDifference_empty_iff {α : Type} {path : Nat → α → α → String}
    (h : ∀ index x y, path index x y = "" ↔ x = y) :
    ∀ (xs ys : List α) (index : Nat), xs.length = ys.length →
      (firstDifference path index xs ys = "" ↔ xs = ys)
  | [], [], _, _ => by simp [firstDifference]
  | [], _ :: _, _, hlen => by simp at hlen
  | _ :: _, [], _, hlen => by simp at hlen
  | x :: xs, y :: ys, index, hlen => by
      have ih := firstDifference_empty_iff h xs ys (index + 1) (Nat.succ.inj hlen)
      rw [firstDifference, List.cons.injEq, ← h index x y, ← ih]
      split
      · rename_i hne
        exact iff_of_false hne fun hand => hne hand.1
      · rename_i heq
        rw [ne_eq, Decidable.not_not] at heq
        simp [heq]

theorem messageDifference_empty_iff (index : Nat) (expected actual : Message) :
    messageDifference index expected actual = "" ↔ expected = actual := by
  obtain ⟨role, content⟩ := expected
  obtain ⟨role', content'⟩ := actual
  simp only [messageDifference, Message.mk.injEq]
  split
  · rename_i hne
    exact iff_of_false (append_ne_empty (append_ne_empty (by decide))) fun h => hne h.1
  split
  · rename_i hne
    exact iff_of_false (append_ne_empty (append_ne_empty (by decide))) fun h => hne h.2
  · simp_all

theorem instructionDifference_empty_iff (index : Nat) (expected actual : Instruction) :
    instructionDifference index expected actual = "" ↔ expected = actual := by
  obtain ⟨source, content⟩ := expected
  obtain ⟨source', content'⟩ := actual
  simp only [instructionDifference, Instruction.mk.injEq]
  split
  · rename_i hne
    exact iff_of_false (append_ne_empty (append_ne_empty (by decide))) fun h => hne h.1
  split
  · rename_i hne
    exact iff_of_false (append_ne_empty (append_ne_empty (by decide))) fun h => hne h.2
  · simp_all

theorem capabilityDifference_empty_iff (index : Nat) (expected actual : Utf8.Bytes) :
    capabilityDifference index expected actual = "" ↔ expected = actual := by
  rw [capabilityDifference]
  split
  · rename_i hne
    exact iff_of_false (append_ne_empty (append_ne_empty (by decide))) hne
  · simp_all

/-- No mismatch means equal requests. -/
theorem firstRequestMismatch_empty_iff (expected actual : Request) :
    firstRequestMismatch expected actual = "" ↔ expected = actual := by
  constructor
  · intro h
    rw [firstRequestMismatch] at h
    split at h
    · exact absurd h (by decide)
    rename_i hconversation
    simp only at h
    split at h
    · contradiction
    rename_i hmessages
    split at h
    · exact absurd h (by decide)
    rename_i hinstructions
    split at h
    · contradiction
    rename_i hblocks
    split at h
    · exact absurd h (by decide)
    rename_i hcapabilities
    rw [ne_eq, Decidable.not_not] at *
    have h1 := (firstDifference_empty_iff messageDifference_empty_iff _ _ _ hconversation).mp hmessages
    have h2 := (firstDifference_empty_iff instructionDifference_empty_iff _ _ _ hinstructions).mp hblocks
    have h3 := (firstDifference_empty_iff capabilityDifference_empty_iff _ _ _ hcapabilities).mp h
    cases expected
    cases actual
    simp_all
  · rintro rfl
    simp only [firstRequestMismatch, ne_eq, not_true_eq_false, if_false,
      (firstDifference_empty_iff messageDifference_empty_iff _ _ _ rfl).mpr rfl,
      (firstDifference_empty_iff instructionDifference_empty_iff _ _ _ rfl).mpr rfl,
      (firstDifference_empty_iff capabilityDifference_empty_iff _ _ _ rfl).mpr rfl]

/-! ## The first difference -/

/-- The path of the first position at which two requests differ, in the order of the comparison. -/
inductive FirstDifference (expected actual : Request) : String → Prop
  | conversationLength : expected.conversation.length ≠ actual.conversation.length →
      FirstDifference expected actual "conversation.length"
  | role {index : Nat} {m n : Message} :
      expected.conversation.length = actual.conversation.length →
      expected.conversation.take index = actual.conversation.take index →
      expected.conversation[index]? = some m → actual.conversation[index]? = some n → m.role ≠ n.role →
      FirstDifference expected actual ("conversation[" ++ toString index ++ "].role")
  | content {index : Nat} {m n : Message} :
      expected.conversation.length = actual.conversation.length →
      expected.conversation.take index = actual.conversation.take index →
      expected.conversation[index]? = some m → actual.conversation[index]? = some n → m.role = n.role →
      m.content ≠ n.content →
      FirstDifference expected actual ("conversation[" ++ toString index ++ "].content")
  | instructionsLength : expected.conversation = actual.conversation →
      expected.instructions.length ≠ actual.instructions.length →
      FirstDifference expected actual "instructions.length"
  | source {index : Nat} {m n : Instruction} : expected.conversation = actual.conversation →
      expected.instructions.length = actual.instructions.length →
      expected.instructions.take index = actual.instructions.take index →
      expected.instructions[index]? = some m → actual.instructions[index]? = some n → m.source ≠ n.source →
      FirstDifference expected actual ("instructions[" ++ toString index ++ "].source")
  | instruction {index : Nat} {m n : Instruction} : expected.conversation = actual.conversation →
      expected.instructions.length = actual.instructions.length →
      expected.instructions.take index = actual.instructions.take index →
      expected.instructions[index]? = some m → actual.instructions[index]? = some n → m.source = n.source →
      m.content ≠ n.content →
      FirstDifference expected actual ("instructions[" ++ toString index ++ "].content")
  | capabilitiesLength : expected.conversation = actual.conversation →
      expected.instructions = actual.instructions →
      expected.requiredCapabilities.length ≠ actual.requiredCapabilities.length →
      FirstDifference expected actual "requiredCapabilities.length"
  | capability {index : Nat} {m n : Utf8.Bytes} : expected.conversation = actual.conversation →
      expected.instructions = actual.instructions →
      expected.requiredCapabilities.length = actual.requiredCapabilities.length →
      expected.requiredCapabilities.take index = actual.requiredCapabilities.take index →
      expected.requiredCapabilities[index]? = some m → actual.requiredCapabilities[index]? = some n →
      m ≠ n → FirstDifference expected actual ("requiredCapabilities[" ++ toString index ++ "]")

/-- A loop that reports a path stops at the first pair that differs. -/
theorem firstDifference_of_ne {α : Type} {path : Nat → α → α → String}
    (h : ∀ index x y, path index x y = "" ↔ x = y) :
    ∀ {xs ys : List α} {start : Nat}, firstDifference path start xs ys ≠ "" →
      ∃ index x y, xs.take index = ys.take index ∧ xs[index]? = some x ∧ ys[index]? = some y ∧ x ≠ y ∧
        firstDifference path start xs ys = path (start + index) x y
  | [], _, _, hne => absurd rfl hne
  | _ :: _, [], _, hne => absurd rfl hne
  | x :: xs, y :: ys, start, hne => by
      rw [firstDifference] at hne ⊢
      by_cases hpath : path start x y = ""
      · -- the heads agree, so the difference is further on
        rw [if_neg (not_not_intro hpath)] at hne ⊢
        obtain ⟨index, a, b, htake, hx, hy, hab, heq⟩ := firstDifference_of_ne h hne
        refine ⟨index + 1, a, b, ?_, hx, hy, hab, ?_⟩
        · rw [List.take_succ_cons, List.take_succ_cons, (h start x y).mp hpath, htake]
        · rw [heq, Nat.add_right_comm, Nat.add_assoc]
      · rw [if_pos hpath]
        exact ⟨0, x, y, rfl, rfl, rfl, fun he => hpath ((h start x y).mpr he), rfl⟩

/-- Requests that differ are reported at their first difference. -/
theorem firstRequestMismatch_first {expected actual : Request} (hne : expected ≠ actual) :
    FirstDifference expected actual (firstRequestMismatch expected actual) := by
  have hreport := mt (firstRequestMismatch_empty_iff expected actual).mp hne
  unfold firstRequestMismatch at hreport ⊢
  split
  · rename_i hlength
    exact .conversationLength hlength
  rename_i hlength
  rw [if_neg hlength] at hreport
  rw [ne_eq, Decidable.not_not] at hlength
  dsimp only at hreport ⊢
  split
  · -- messages differ: the first of them is reported, by its role before its content
    rename_i hmessages
    obtain ⟨index, m, n, htake, hm, hn, hmn, heq⟩ := firstDifference_of_ne messageDifference_empty_iff hmessages
    rw [heq, Nat.zero_add, messageDifference]
    split
    · rename_i hrole
      exact .role hlength htake hm hn hrole
    · rename_i hrole
      rw [ne_eq, Decidable.not_not] at hrole
      have hcontent : m.content ≠ n.content := fun hc => hmn (by cases m; cases n; simp_all)
      rw [if_pos hcontent]
      exact .content hlength htake hm hn hrole hcontent
  rename_i hmessages
  rw [if_neg hmessages] at hreport
  rw [ne_eq, Decidable.not_not] at hmessages
  -- the conversations are the same
  have hconversation := (firstDifference_empty_iff messageDifference_empty_iff _ _ _ hlength).mp hmessages
  split
  · rename_i hlength
    exact .instructionsLength hconversation hlength
  rename_i hlength
  rw [if_neg hlength] at hreport
  rw [ne_eq, Decidable.not_not] at hlength
  split
  · -- instructions differ: the first of them is reported, by its source before its content
    rename_i hblocks
    obtain ⟨index, m, n, htake, hm, hn, hmn, heq⟩ :=
      firstDifference_of_ne instructionDifference_empty_iff hblocks
    rw [heq, Nat.zero_add, instructionDifference]
    split
    · rename_i hsource
      exact .source hconversation hlength htake hm hn hsource
    · rename_i hsource
      rw [ne_eq, Decidable.not_not] at hsource
      have hcontent : m.content ≠ n.content := fun hc => hmn (by cases m; cases n; simp_all)
      rw [if_pos hcontent]
      exact .instruction hconversation hlength htake hm hn hsource hcontent
  rename_i hblocks
  rw [if_neg hblocks] at hreport
  rw [ne_eq, Decidable.not_not] at hblocks
  -- the instructions are the same, too
  have hinstructions := (firstDifference_empty_iff instructionDifference_empty_iff _ _ _ hlength).mp hblocks
  split
  · rename_i hlength
    exact .capabilitiesLength hconversation hinstructions hlength
  rename_i hlength
  rw [if_neg hlength] at hreport
  rw [ne_eq, Decidable.not_not] at hlength
  obtain ⟨index, m, n, htake, hm, hn, hmn, heq⟩ := firstDifference_of_ne capabilityDifference_empty_iff hreport
  rw [heq, Nat.zero_add, capabilityDifference, if_pos hmn]
  exact .capability hconversation hinstructions hlength htake hm hn hmn

/-! ## What a path reveals -/

/-- Where two requests agree: the lengths, and the fields at every position that both have. -/
structure Agreement where
  conversationLength : Bool
  messages : List (Bool × Bool)
  instructionsLength : Bool
  instructions : List (Bool × Bool)
  capabilitiesLength : Bool
  capabilities : List Bool
  deriving DecidableEq, Repr

/-- In which fields two messages agree. -/
def messageAgreement (m n : Message) : Bool × Bool := (m.role == n.role, m.content == n.content)

/-- In which fields two instructions agree. -/
def instructionAgreement (m n : Instruction) : Bool × Bool := (m.source == n.source, m.content == n.content)

/-- In which fields two requests agree, as far as both have them. -/
def agreement (expected actual : Request) : Agreement where
  conversationLength := expected.conversation.length == actual.conversation.length
  messages := expected.conversation.zipWith messageAgreement actual.conversation
  instructionsLength := expected.instructions.length == actual.instructions.length
  instructions := expected.instructions.zipWith instructionAgreement actual.instructions
  capabilitiesLength := expected.requiredCapabilities.length == actual.requiredCapabilities.length
  capabilities := expected.requiredCapabilities.zipWith (· == ·) actual.requiredCapabilities

/-- A loop whose paths depend on the agreement of a pair only depends on the agreements only. -/
theorem firstDifference_congr {α β : Type} {path : Nat → α → α → String} {agree : α → α → β}
    (h : ∀ index x y x' y', agree x y = agree x' y' → path index x y = path index x' y') :
    ∀ {xs ys xs' ys' : List α} {index : Nat}, xs.zipWith agree ys = xs'.zipWith agree ys' →
      firstDifference path index xs ys = firstDifference path index xs' ys' := by
  have hempty : ∀ {xs ys : List α} {index : Nat}, xs.zipWith agree ys = [] →
      firstDifference path index xs ys = "" := by
    intro xs ys index hzip
    cases xs with
    | nil => rfl
    | cons x xs =>
      cases ys with
      | nil => rfl
      | cons y ys => cases hzip
  intro xs
  induction xs with
  | nil =>
    intro ys xs' ys' index hzip
    have hnil : firstDifference path index [] ys = "" := rfl
    exact hnil.trans (hempty hzip.symm).symm
  | cons x xs ih =>
    intro ys xs' ys' index hzip
    cases ys with
    | nil => exact (hempty (List.zipWith_nil_right)).trans (hempty hzip.symm).symm
    | cons y ys =>
      cases xs' with
      | nil => cases hzip
      | cons x' xs' =>
        cases ys' with
        | nil => cases hzip
        | cons y' ys' =>
          obtain ⟨hhead, htail⟩ := List.cons.inj hzip
          rw [firstDifference, firstDifference, h index x y x' y' hhead, ih htail]

theorem ne_iff_of_beq {γ : Type} [BEq γ] [LawfulBEq γ] {a b c d : γ} (h : (a == b) = (c == d)) :
    a ≠ b ↔ c ≠ d := by
  rw [Bool.eq_iff_iff, beq_iff_eq, beq_iff_eq] at h
  exact not_congr h

theorem firstRequestMismatch_congr {expected actual expected' actual' : Request}
    (h : agreement expected actual = agreement expected' actual') :
    firstRequestMismatch expected actual = firstRequestMismatch expected' actual' := by
  obtain ⟨hconversation, hmessages, hinstructions, hblocks, hcapabilities, hvalues⟩ :=
    Agreement.mk.inj h
  have hm : firstDifference messageDifference 0 expected.conversation actual.conversation =
      firstDifference messageDifference 0 expected'.conversation actual'.conversation :=
    firstDifference_congr (fun index x y x' y' hxy => by
      obtain ⟨hrole, hcontent⟩ := Prod.mk.inj hxy
      simp only [messageDifference, ne_iff_of_beq hrole, ne_iff_of_beq hcontent]) hmessages
  have hi : firstDifference instructionDifference 0 expected.instructions actual.instructions =
      firstDifference instructionDifference 0 expected'.instructions actual'.instructions :=
    firstDifference_congr (fun index x y x' y' hxy => by
      obtain ⟨hsource, hcontent⟩ := Prod.mk.inj hxy
      simp only [instructionDifference, ne_iff_of_beq hsource, ne_iff_of_beq hcontent]) hblocks
  have hc : firstDifference capabilityDifference 0 expected.requiredCapabilities actual.requiredCapabilities =
      firstDifference capabilityDifference 0 expected'.requiredCapabilities actual'.requiredCapabilities :=
    firstDifference_congr (fun index x y x' y' hxy => by simp only [capabilityDifference, ne_iff_of_beq hxy]) hvalues
  simp only [firstRequestMismatch, ne_iff_of_beq hconversation, ne_iff_of_beq hinstructions,
    ne_iff_of_beq hcapabilities, hm, hi, hc]

/-- The comparison is exact, it reports the first difference, and what it reports depends only on where
the requests agree. -/
theorem firstRequestMismatch_exact (expected actual : Request) :
    (firstRequestMismatch expected actual = "" ↔ expected.conversation = actual.conversation ∧
      expected.instructions = actual.instructions ∧
      expected.requiredCapabilities = actual.requiredCapabilities) ∧
    (expected ≠ actual → FirstDifference expected actual (firstRequestMismatch expected actual)) ∧
    ∀ expected' actual' : Request, agreement expected actual = agreement expected' actual' →
      firstRequestMismatch expected actual = firstRequestMismatch expected' actual' := by
  refine ⟨?_, firstRequestMismatch_first, fun _ _ => firstRequestMismatch_congr⟩
  rw [firstRequestMismatch_empty_iff]
  cases expected
  cases actual
  exact Request.mk.injEq .. |>.to_iff

/-! ## One call -/

/-- The outcome an exchange scripts, as an invoker returns it. -/
def Exchange.Scripts (exchange : Exchange) (result : Result) (err : Option GoError) : Prop :=
  (exchange.outcome = outcomeResult ∧ result = exchange.result ∧ err = none) ∨
    (exchange.outcome = outcomeFailure ∧ result = Result.zero ∧
      err = some (.failure exchange.failure))

/-- A validated exchange scripts one of the alternatives an invoker has. -/
theorem Exchange.scripts_alternative {exchange : Exchange} (h : exchange.validate = none)
    {result : Result} {err : Option GoError} (hs : exchange.Scripts result err) (ctx : Context) :
    Alternative ctx result err := by
  rw [Exchange.validate] at h
  split at h
  · cases h
  rcases hs with ⟨ho, rfl, rfl⟩ | ⟨ho, rfl, rfl⟩
  · rw [if_pos ho] at h
    split at h
    · cases h
    split at h
    · cases h
    · rename_i hresult
      exact .completed ((Result.validate_none_iff _).mp hresult)
  · rw [if_neg (by rw [ho]; decide), if_pos ho] at h
    split at h
    · cases h
    split at h
    · cases h
    · rename_i hfailure
      obtain ⟨f, hf, hvalid⟩ := (Failure.validate_none_iff _).mp hfailure
      rw [hf]
      exact .failed hvalid

/-- The outcome of a validated exchange is one of the two kinds. -/
theorem Exchange.outcome_of_validate {exchange : Exchange} (h : exchange.validate = none) :
    exchange.outcome = outcomeResult ∨ exchange.outcome = outcomeFailure := by
  by_contra hne
  obtain ⟨hr, hf⟩ := not_or.mp hne
  rw [Exchange.validate, if_neg hr, if_neg hf] at h
  split at h <;> cases h

section Invoke

variable {fake fake' : Fake} {ctx : Option Context} {actual : Request}

/-- An invocation that panics consumes nothing and leaves its violation behind. -/
theorem Fake.invoke_panicked {v : String} (h : fake.invoke ctx actual = (.panicked v, fake')) :
    fake' = { fake with violation := some v } ∧ ∀ w, fake.violation = some w → v = w := by
  have hfail : ∀ diagnostic, fake.violation = none →
      fake.fail diagnostic =
        ((Completion.panicked v : Completion String (Result × Option GoError)), fake') →
      fake' = { fake with violation := some v } ∧
        ∀ w, fake.violation = some w → v = w := by
    intro diagnostic hnone hp
    simp only [Fake.fail, hnone, Option.getD_none, Prod.mk.injEq, Completion.panicked.injEq] at hp
    obtain ⟨rfl, rfl⟩ := hp
    exact ⟨rfl, by simp [hnone]⟩
  rw [Fake.invoke.eq_def] at h
  split at h
  · rename_i w hw
    cases h
    refine ⟨?_, fun w' hw' => Option.some.inj (hw.symm.trans hw')⟩
    rw [← hw]
  rename_i hnone
  split at h
  · exact hfail _ hnone h
  split at h
  · exact hfail _ hnone h
  simp only at h
  split at h
  · exact hfail _ hnone h
  split at h <;> simp at h

/-- An invocation that returns answers the next exchange of the script. -/
theorem Fake.invoke_returned {result : Result} {err : Option GoError}
    (hvalid : ∀ exchange ∈ fake.exchanges, exchange.validate = none)
    (h : fake.invoke ctx actual = (.returned (result, err), fake')) :
    fake.violation = none ∧ fake' = { fake with next := fake.next + 1 } ∧
      ∃ c exchange, ctx = some c ∧ fake.exchanges[fake.next]? = some exchange ∧
        actual = exchange.expected ∧ exchange.Scripts result err := by
  rw [Fake.invoke.eq_def] at h
  split at h
  · simp at h
  rename_i hnone
  split at h
  · simp [Fake.fail] at h
  rename_i c
  split at h
  · simp [Fake.fail] at h
  rename_i exchange hexchange
  simp only at h
  split at h
  · simp [Fake.fail] at h
  rename_i hpath
  rw [ne_eq, Decidable.not_not, firstRequestMismatch_empty_iff] at hpath
  have hmem := hvalid exchange (List.mem_of_getElem? hexchange)
  split at h
  · rename_i ho
    cases h
    exact ⟨hnone, rfl, c, exchange, rfl, hexchange, hpath.symm, .inl ⟨ho, rfl, rfl⟩⟩
  · rename_i ho
    cases h
    have hf := (Exchange.outcome_of_validate hmem).resolve_left ho
    exact ⟨hnone, rfl, c, exchange, rfl, hexchange, hpath.symm, .inr ⟨hf, rfl, rfl⟩⟩

end Invoke

/-! ## Runs -/

/-- An invocation gave the exchange the request it expects and got what it scripts. -/
structure Answers (exchange : Exchange) (invocation : Invocation) : Prop where
  request : invocation.actual = exchange.expected
  outcome : exchange.Scripts invocation.result invocation.err
  accepted : validateInvocation invocation.ctx invocation.result invocation.err = none

/-- The invariant of a run: the invocations that returned so far answered the script from its start,
and as many exchanges are consumed. -/
structure Follows (script : List Exchange) (returned : List Invocation) (fake : Fake) : Prop where
  exchanges : fake.exchanges = script
  next : fake.next = returned.length
  next_le : fake.next ≤ script.length
  answers : ∀ (k : Nat) invocation, returned[k]? = some invocation →
    ∃ exchange, script[k]? = some exchange ∧ Answers exchange invocation

section Runs

variable {script : List Exchange} (hvalid : ∀ exchange ∈ script, exchange.validate = none)

include hvalid in
theorem Follows.step {returned : List Invocation} {fake : Fake} (h : Follows script returned fake)
    (call : Call) : Follows script (returned ++ (fake.step call).1) (fake.step call).2 := by
  cases call with
  | verifyComplete => simpa [Fake.step] using h
  | invoke ctx actual =>
    rw [Fake.step.eq_def]
    simp only
    split
    · rename_i result err fake' hinvoke
      obtain ⟨-, rfl, c, exchange, rfl, hexchange, hrequest, hscripts⟩ :=
        Fake.invoke_returned (by rw [h.exchanges]; exact hvalid) hinvoke
      rw [h.exchanges] at hexchange
      have hlt := (List.getElem?_eq_some_iff.mp hexchange).1
      refine ⟨h.exchanges, by simp [h.next], hlt, ?_⟩
      intro k invocation hk
      rcases Nat.lt_or_ge k returned.length with hlt' | hge
      · rw [List.getElem?_append_left hlt'] at hk
        exact h.answers k invocation hk
      · rw [List.getElem?_append_right hge, List.getElem?_singleton] at hk
        split at hk
        · rename_i hzero
          cases hk
          have hnext : k = fake.next := by have := h.next; omega
          rw [hnext]
          refine ⟨exchange, hexchange, hrequest, hscripts, ?_⟩
          rw [validateInvocation_none_iff]
          exact Exchange.scripts_alternative (hvalid _ (List.mem_of_getElem? hexchange)) hscripts c
        · cases hk
    · rename_i v fake' hinvoke
      obtain ⟨rfl, -⟩ := Fake.invoke_panicked hinvoke
      rw [List.append_nil]
      exact ⟨h.exchanges, h.next, h.next_le, h.answers⟩

include hvalid in
theorem Follows.run {returned : List Invocation} {fake : Fake} (h : Follows script returned fake)
    (calls : List Call) : Follows script (returned ++ (fake.run calls).1) (fake.run calls).2 := by
  induction calls generalizing returned fake with
  | nil => simpa [Fake.run] using h
  | cons call calls ih =>
    have hrest := ih (h.step hvalid call)
    rw [List.append_assoc] at hrest
    exact hrest

end Runs

/-- With a violation recorded, no call changes the state or returns an invocation. -/
theorem Fake.step_violated {fake : Fake} {v : String} (h : fake.violation = some v) (call : Call) :
    fake.step call = ([], fake) := by
  cases call with
  | verifyComplete => rfl
  | invoke ctx actual => simp only [Fake.step, Fake.invoke, h]

theorem Fake.run_violated {fake : Fake} {v : String} (h : fake.violation = some v)
    (calls : List Call) : fake.run calls = ([], fake) := by
  induction calls with
  | nil => rfl
  | cons call calls ih => simp only [Fake.run, Fake.step_violated h, ih, List.append_nil]

theorem newFake_follows {script : List Exchange} {fake : Fake} (h : newFake script = .ok fake) :
    (∀ exchange ∈ script, exchange.validate = none) ∧ Follows script [] fake := by
  rw [newFake] at h
  split at h
  · cases h
  split at h
  · cases h
  rename_i hnone
  cases h
  have hexchange : ∀ index e, validateExchange index e = none ↔ e.validate = none := by
    intro index e
    rw [validateExchange]
    split <;> simp_all
  have hall := (firstError_none_iff hexchange script 0).mp hnone
  exact ⟨hall, rfl, rfl, Nat.zero_le _, by simp⟩

theorem Follows.verifyComplete_iff {script : List Exchange} {returned : List Invocation} {fake : Fake}
    (h : Follows script returned fake) :
    fake.verifyComplete = none ↔ fake.violation = none ∧
      returned.map (·.actual) = script.map (·.expected) := by
  rw [Fake.verifyComplete]
  split
  · rename_i v hv
    simp [hv]
  rename_i hnone
  -- as many answers as exchanges, and each answer has the request of its exchange
  have hlen : ¬ fake.next < fake.exchanges.length ↔
      returned.map (·.actual) = script.map (·.expected) := by
    rw [h.exchanges]
    constructor
    · intro hge
      have hsame : returned.length = script.length := by
        have := h.next; have := h.next_le; omega
      refine List.ext_getElem? fun k => ?_
      rw [List.getElem?_map, List.getElem?_map]
      cases hk : returned[k]? with
      | none =>
        rw [List.getElem?_eq_none_iff, hsame] at hk
        rw [List.getElem?_eq_none hk]
        rfl
      | some invocation =>
        obtain ⟨exchange, hexchange, hanswers⟩ := h.answers k invocation hk
        rw [hexchange, Option.map_some, Option.map_some, hanswers.request]
    · intro heq
      have hlen := congrArg List.length heq
      rw [List.length_map, List.length_map] at hlen
      have := h.next
      omega
  split
  · rename_i hlt
    exact iff_of_false (by simp) fun hand => hlen.mpr hand.2 hlt
  · rename_i hge
    exact iff_of_true rfl ⟨hnone, hlen.mp hge⟩

/-- The law of a strict run, for every accepted script and every sequence of calls: the position stays
within the script; the invocations that returned answered the script in order; a panicking invocation
consumes nothing and records its violation; a violation stays and nothing returns behind it; and
verification succeeds exactly when nothing was violated and the whole script was consumed in order. -/
theorem fake_strictRun {script : List Exchange} {fake : Fake} (hnew : newFake script = .ok fake)
    (calls : List Call) :
    let returned := (fake.run calls).1
    let state := (fake.run calls).2
    state.next ≤ script.length ∧
      (∀ (k : Nat) invocation, returned[k]? = some invocation →
        ∃ exchange, script[k]? = some exchange ∧ invocation.actual = exchange.expected ∧
          exchange.Scripts invocation.result invocation.err ∧
          validateInvocation invocation.ctx invocation.result invocation.err = none) ∧
      (∀ ctx actual v state', state.invoke ctx actual = (.panicked v, state') →
        state'.next = state.next ∧ state'.violation = some v) ∧
      (∀ v, state.violation = some v → ∀ later,
        (state.run later).2.violation = some v ∧ (state.run later).1 = []) ∧
      (state.verifyComplete = none ↔
        state.violation = none ∧ returned.map (·.actual) = script.map (·.expected)) := by
  obtain ⟨hvalid, hstart⟩ := newFake_follows hnew
  have hrun := hstart.run hvalid calls
  rw [List.nil_append] at hrun
  refine ⟨hrun.next_le, ?_, ?_, ?_, hrun.verifyComplete_iff⟩
  · intro k invocation hk
    obtain ⟨exchange, hexchange, hanswers⟩ := hrun.answers k invocation hk
    exact ⟨exchange, hexchange, hanswers.request, hanswers.outcome, hanswers.accepted⟩
  · intro ctx actual v state' hinvoke
    obtain ⟨rfl, -⟩ := Fake.invoke_panicked hinvoke
    exact ⟨rfl, rfl⟩
  · intro v hv later
    rw [Fake.run_violated hv]
    exact ⟨hv, rfl⟩

/-- A script of one exchange, answered once and then asked again: the first invocation returns what is
scripted, the second is recorded as a violation, and verification fails. -/
theorem fake_strictRun_sample :
    let request : Request := ⟨[⟨messageRoleUser, goString "hi"⟩], [], []⟩
    let result : Result := ⟨goString "ok", Usage.zero, false⟩
    let calls : List Call := [.invoke (some ⟨none⟩) request, .verifyComplete, .invoke (some ⟨none⟩) request]
    let run := (Fake.mk [⟨request, result, none, outcomeResult⟩] 0 none).run calls
    run.1 = [⟨some ⟨none⟩, request, result, none⟩] ∧
      run.2.violation =
        some "fake provider received unexpected request 2; the script has no remaining exchanges" ∧
      run.2.verifyComplete ≠ none := by
  intro request result calls run
  have hviolation : run.2.violation =
      some "fake provider received unexpected request 2; the script has no remaining exchanges" := by
    decide +kernel
  refine ⟨by decide +kernel, hviolation, fun hcomplete => ?_⟩
  have hnew : newFake [⟨request, result, none, outcomeResult⟩] =
      .ok ⟨[⟨request, result, none, outcomeResult⟩], 0, none⟩ := by decide +kernel
  have hnone := ((fake_strictRun hnew calls).2.2.2.2.mp hcomplete).1
  rw [hviolation] at hnone
  cases hnone

end FastGate.Provider
