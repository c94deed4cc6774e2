/-
# FastGate.Provider.Provider — the provider-neutral boundary

Requests, results and failures as they cross the provider port, and the checks each of them has to
pass.  Go strings are bytes; an `error` is `Option GoError` with `none` for nil, and a check returns
the text of its error.  `validateInvocation` holds an invoker to its result/error alternatives.

* Texts are counted in runes, with bounds that may be any integers; the loop stops at the first byte that
  is no UTF-8, at the first rune too many and at the first one that is not allowed, whichever comes first.
* A request is checked for its cardinalities before anything of it is looked at, then field by field; the
  error names the first field that is wrong, with its index.
* `IsText` are the bytes of a text of Unicode scalar values.  The lemmas at the end say what the checks
  accept in these terms (`newRequest_ok`, `newResult_ok_iff`, `newFailure_ok_iff`).

Contexts are values whose error does not change while they are looked at.
-/
import FastGate.Go.Bytes

open FastGate.Utf8 (Bytes encode encode_cons decodeChar? eq_append_of_decodeChar? drop_encode_cons
  encodeChar_ne_nil decodeChar?_encode_cons length_le_encode)
open FastGate.Go (decodeRune runeError decodeRune_encode_cons)

namespace FastGate.Provider

/-- The bytes of a Go string constant. -/
def goString (s : String) : Bytes := encode s.toList

/-- The number of messages at most. -/
def maxConversationMessages : Nat := 64

/-- The number of instructions at most. -/
def maxInstructions : Nat := 32

/-- The number of capabilities at most; there is only one to name. -/
def maxRequiredCapabilities : Nat := 1

/-- The length of a message at most. -/
def maxMessageTextRunes : Nat := 65536

/-- The length of the source of an instruction at most. -/
def maxInstructionSourceRunes : Nat := 256

/-- The length of an instruction at most. -/
def maxInstructionTextRunes : Nat := 65536

/-- The length of an output at most. -/
def maxOutputTextRunes : Nat := 65536

/-- The largest counter: up to 2^53 - 1 a double is exact. -/
def maxUsageTokens : Int := 9007199254740991

/-! ## Text -/

/-- The characters an instruction source must not contain. -/
def isControlOrSeparator (character : Char) : Bool :=
  character.toNat ≤ 0x1F || (0x7F ≤ character.toNat && character.toNat ≤ 0x9F) ||
    character.toNat == 0x2028 || character.toNat == 0x2029

section ValidateText

variable (field : String) (minimum maximum : Int) (rejectControls : Bool)

/-- The text of the error about the number of runes. -/
def countError : String :=
  field ++ " must contain between " ++ toString minimum ++ " and " ++ toString maximum ++
    " Unicode scalar values"

/-- The loop of `validateText`; the fuel bounds the number of runes. -/
def validateTextLoop : Nat → Bytes → Nat → Option String
  | 0, _, length => if length < minimum then some (countError field minimum maximum) else none
  | fuel + 1, text, length =>
    if text.isEmpty then
      if length < minimum then some (countError field minimum maximum) else none
    else
      let (character, size) := decodeRune text
      if character = runeError ∧ size = 1 then some (field ++ " must be valid UTF-8")
      else if length + 1 > maximum then some (countError field minimum maximum)
      else if rejectControls && isControlOrSeparator character then
        some (field ++ " must not contain controls or line separators")
      else validateTextLoop fuel (text.drop size) (length + 1)

/-- `validateText`: valid UTF-8 with so many runes, without controls if they are rejected. -/
def validateText (text : Bytes) : Option String :=
  validateTextLoop field minimum maximum rejectControls text.length text 0

end ValidateText

/-! ## Requests -/

/-- One message of a conversation. -/
structure Message where
  role : Bytes
  content : Bytes
  deriving DecidableEq, Repr

/-- One instruction and where it comes from. -/
structure Instruction where
  source : Bytes
  content : Bytes
  deriving DecidableEq, Repr

/-- The role of the client. -/
def messageRoleUser : Bytes := goString "user"

/-- The role of the model. -/
def messageRoleAssistant : Bytes := goString "assistant"

/-- The only capability there is. -/
def capabilityToolCalls : Bytes := goString "tool_calls"

/-- Provider-facing input for one admitted model turn. -/
structure Request where
  conversation : List Message
  instructions : List Instruction
  requiredCapabilities : List Bytes
  deriving DecidableEq, Repr

/-- `validateRequestCardinalities`, which is checked before anything is copied. -/
def validateRequestCardinalities (conversation instructions requiredCapabilities : Nat) :
    Option String :=
  if conversation < 1 ∨ conversation > maxConversationMessages then
    some ("conversation must contain between 1 and " ++ toString maxConversationMessages ++
      " messages")
  else if instructions > maxInstructions then
    some ("instructions must contain at most " ++ toString maxInstructions ++ " blocks")
  else if requiredCapabilities > maxRequiredCapabilities then
    some ("required capabilities must contain at most " ++ toString maxRequiredCapabilities ++
      " value")
  else none

/-- The checks of one message. -/
def validateMessage (index : Nat) (message : Message) : Option String :=
  let field := "conversation[" ++ toString index ++ "]"
  if message.role ≠ messageRoleUser ∧ message.role ≠ messageRoleAssistant then
    some (field ++ ".role is unsupported")
  else validateText (field ++ ".content") 1 maxMessageTextRunes false message.content

/-- The checks of one instruction. -/
def validateInstruction (index : Nat) (instruction : Instruction) : Option String :=
  let field := "instructions[" ++ toString index ++ "]"
  match validateText (field ++ ".source") 1 maxInstructionSourceRunes true instruction.source with
  | some err => some err
  | none => validateText (field ++ ".content") 1 maxInstructionTextRunes false instruction.content

/-- The check of one capability. -/
def validateCapability (index : Nat) (capability : Bytes) : Option String :=
  if capability ≠ capabilityToolCalls then
    some ("required capabilities[" ++ toString index ++ "] is unsupported")
  else none

/-- A `range` loop that returns the first error. -/
def firstError {α : Type} (check : Nat → α → Option String) : Nat → List α → Option String
  | _, [] => none
  | index, x :: xs =>
    match check index x with
    | some err => some err
    | none => firstError check (index + 1) xs

/-- `Request.Validate`: the first error in the order of the fields. -/
def Request.validate (request : Request) : Option String :=
  match validateRequestCardinalities request.conversation.length request.instructions.length
      request.requiredCapabilities.length with
  | some err => some err
  | none =>
    match firstError validateMessage 0 request.conversation with
    | some err => some err
    | none =>
      match firstError validateInstruction 0 request.instructions with
      | some err => some err
      | none => firstError validateCapability 0 request.requiredCapabilities

/-- `NewRequest` -/
def newRequest (conversation : List Message) (instructions : List Instruction)
    (requiredCapabilities : List Bytes) : Except String Request :=
  match validateRequestCardinalities conversation.length instructions.length
      requiredCapabilities.length with
  | some err => .error err
  | none =>
    let request : Request := ⟨conversation, instructions, requiredCapabilities⟩
    match request.validate with
    | some err => .error err
    | none => .ok request

/-! ## Results and failures -/

/-- The counters a provider may report. -/
structure Usage where
  inputTokens : Int
  outputTokens : Int
  deriving DecidableEq, Repr

/-- `Usage{}` -/
def Usage.zero : Usage := ⟨0, 0⟩

/-- `validateUsage` -/
def validateUsage (usage : Usage) : Option String :=
  if usage.inputTokens < 0 ∨ usage.inputTokens > maxUsageTokens then
    some ("input token usage must be between 0 and " ++ toString maxUsageTokens)
  else if usage.outputTokens < 0 ∨ usage.outputTokens > maxUsageTokens then
    some ("output token usage must be between 0 and " ++ toString maxUsageTokens)
  else none

/-- One provider completion; its usage is read only when `hasUsage` is set. -/
structure Result where
  outputText : Bytes
  usage : Usage
  hasUsage : Bool
  deriving DecidableEq, Repr

/-- `Result{}` -/
def Result.zero : Result := ⟨[], Usage.zero, false⟩

/-- `Result.Validate`; a usage that is not there is not checked. -/
def Result.validate (result : Result) : Option String :=
  match validateText "output text" 1 maxOutputTextRunes false result.outputText with
  | some err => some err
  | none => if result.hasUsage then validateUsage result.usage else none

/-- `NewResult`; an absent usage is a nil pointer. -/
def newResult (outputText : Bytes) (usage : Option Usage) : Except String Result :=
  let result : Result := ⟨outputText, usage.getD Usage.zero, usage.isSome⟩
  match result.validate with
  | some err => .error err
  | none => .ok result

/-- The result is `Result{}`. -/
def Result.isZero (result : Result) : Bool :=
  result.outputText = [] && result.usage = Usage.zero && !result.hasUsage

/-- The gateway has no access to the upstream. -/
def failureAuthenticationFailed : Bytes := goString "authentication_failed"

/-- The upstream asks to wait. -/
def failureRateLimited : Bytes := goString "rate_limited"

/-- The upstream does not take the request. -/
def failureRequestRejected : Bytes := goString "request_rejected"

/-- The upstream cannot be reached. -/
def failureUnavailable : Bytes := goString "unavailable"

/-- The upstream answers with what is no answer. -/
def failureInvalidResponse : Bytes := goString "invalid_response"

/-- The upstream answers with what model-turn v1 has no place for. -/
def failureUnsupportedUpstreamOutput : Bytes := goString "unsupported_upstream_output"

/-- The adapter itself failed. -/
def failureInternal : Bytes := goString "internal_error"

/-- The failure codes an adapter may return. -/
def failureCodes : List Bytes :=
  [failureAuthenticationFailed, failureRateLimited, failureRequestRejected, failureUnavailable,
    failureInvalidResponse, failureUnsupportedUpstreamOutput, failureInternal]

/-- One normalized provider failure; its usage is read only when `hasUsage` is set. -/
structure Failure where
  code : Bytes
  retryable : Bool
  usage : Usage
  hasUsage : Bool
  deriving DecidableEq, Repr

/-- `(*Failure).Validate`; the receiver may be a nil pointer. -/
def Failure.validate : Option Failure → Option String
  | none => some "provider failure is required"
  | some failure =>
    if failure.code ∉ failureCodes then some "provider failure code is unsupported"
    else if failure.hasUsage then validateUsage failure.usage else none

/-- `NewFailure` -/
def newFailure (code : Bytes) (retryable : Bool) (usage : Option Usage) : Except String Failure :=
  let failure : Failure := ⟨code, retryable, usage.getD Usage.zero, usage.isSome⟩
  match Failure.validate (some failure) with
  | some err => .error err
  | none => .ok failure

/-! ## Errors and contexts -/

/-- The values of type `error` that the gateway tells apart.  A `*Failure` in an `error` may be a nil
pointer; every other error, wrapped ones included, is `other`. -/
inductive GoError where
  | eof
  | canceled
  | deadlineExceeded
  | failure (f : Option Failure)
  | other (text : String)
  deriving DecidableEq, Repr

/-- A `context.Context` whose `Err` returns the same value on every call. -/
structure Context where
  err : Option GoError
  deriving DecidableEq, Repr

/-- How a call ends: it returns, or it panics with a value. -/
inductive Completion (ε α : Type) where
  | returned (value : α)
  | panicked (value : ε)
  deriving DecidableEq, Repr

/-- `ValidateInvocation` -/
def validateInvocation (ctx : Option Context) (result : Result) (err : Option GoError) :
    Option String :=
  match ctx with
  | none => some "provider invocation context is required"
  | some ctx =>
    match err with
    | none => result.validate
    | some err =>
      if !result.isZero then some "provider invocation cannot return a result and an error"
      else if err = .canceled ∨ err = .deadlineExceeded then
        if ctx.err ≠ some err then
          some "provider invocation context termination does not match caller context"
        else none
      else
        match err with
        | .failure failure => Failure.validate failure
        | _ =>
          some ("provider invocation error must be a direct normalized failure or context " ++
            "termination")

/-! ## What the checks accept -/

/-- Text with a bounded number of scalar values, without control characters where they are refused. -/
def IsText (minimum maximum : Nat) (rejectControls : Bool) (text : Bytes) : Prop :=
  ∃ cs : List Char, encode cs = text ∧ minimum ≤ cs.length ∧ cs.length ≤ maximum ∧
    (rejectControls = true → ∀ c ∈ cs, isControlOrSeparator c = false)

theorem isEmpty_encode_cons (c : Char) (cs : List Char) : (encode (c :: cs)).isEmpty = false := by
  cases h : encode (c :: cs) with
  | nil => exact absurd (List.append_eq_nil_iff.mp h).1 (encodeChar_ne_nil c)
  | cons b bs => rfl

/-- A replacement rune of size 1 stands for a malformed sequence, never for a decoded character. -/
theorem decodeRune_valid (c : Char) : ¬ (c = runeError ∧ c.utf8Size = 1) := by
  rintro ⟨rfl, h⟩
  exact absurd h (by decide)

/-- A rune that is not malformed is the first character of the text. -/
theorem decodeRune_split {text : Bytes} (hne : text.isEmpty = false)
    (h : ¬ ((decodeRune text).1 = runeError ∧ (decodeRune text).2 = 1)) :
    text = Utf8.encodeChar (decodeRune text).1 ++ text.drop (decodeRune text).2 := by
  unfold decodeRune at h ⊢
  cases hd : decodeChar? text with
  | none => simp [hd, hne] at h
  | some c => exact eq_append_of_decodeChar? hd

section TextLoop

variable {field : String} {minimum maximum : Int} {rejectControls : Bool}

theorem validateTextLoop_encode (cs : List Char) :
    ∀ (fuel length : Nat), cs.length ≤ fuel →
      (validateTextLoop field minimum maximum rejectControls fuel (encode cs) length = none ↔
        minimum ≤ length + cs.length ∧ (cs = [] ∨ length + cs.length ≤ maximum) ∧
          (rejectControls = true → ∀ c ∈ cs, isControlOrSeparator c = false)) := by
  induction cs with
  | nil => intro fuel length _; cases fuel <;> simp [validateTextLoop]
  | cons c cs ih =>
    intro fuel length hfuel
    cases fuel with
    | zero => simp at hfuel
    | succ fuel =>
      rw [validateTextLoop, isEmpty_encode_cons, decodeRune_encode_cons]
      simp only [Bool.false_eq_true, if_false, decodeRune_valid, drop_encode_cons, List.length_cons,
        List.forall_mem_cons, reduceCtorEq, false_or]
      have hrest := ih fuel (length + 1) (Nat.le_of_succ_le_succ hfuel)
      split
      · simp; omega
      split
      · rename_i hcontrol
        rw [Bool.and_eq_true] at hcontrol
        simp [hcontrol]
      · rename_i hmax hcontrol
        rw [hrest]
        rw [Int.natCast_add, Int.natCast_add, Int.natCast_one]
        -- behind the last character nothing is compared any more
        have hlast : (cs = [] ∨ (length : Int) + 1 + cs.length ≤ maximum) ↔
            (length : Int) + (cs.length + 1) ≤ maximum := by
          constructor
          · rintro (rfl | h)
            · simp; omega
            · omega
          · intro h; right; omega
        have hc : rejectControls = true → isControlOrSeparator c = false := by
          intro hr
          simpa [hr] using hcontrol
        rw [hlast]
        constructor
        · rintro ⟨h1, h2, h3⟩
          exact ⟨by omega, h2, fun hr => ⟨hc hr, h3 hr⟩⟩
        · rintro ⟨h1, h2, h3⟩
          exact ⟨by omega, h2, fun hr => (h3 hr).2⟩

theorem exists_encode_of_validateTextLoop :
    ∀ {fuel length : Nat} {text : Bytes}, text.length ≤ fuel →
      validateTextLoop field minimum maximum rejectControls fuel text length = none →
      ∃ cs, encode cs = text := by
  intro fuel
  induction fuel with
  | zero =>
    intro length text hfuel _
    exact ⟨[], (List.length_eq_zero_iff.mp (Nat.le_zero.mp hfuel)).symm⟩
  | succ fuel ih =>
    intro length text hfuel h
    rw [validateTextLoop] at h
    split at h
    · rename_i hempty
      exact ⟨[], (List.isEmpty_iff.mp hempty).symm⟩
    rename_i hempty
    simp only at h
    split at h
    · cases h
    rename_i hvalid
    split at h
    · cases h
    split at h
    · cases h
    have hsplit := decodeRune_split (by simpa using hempty) hvalid
    have hpos := List.length_pos_of_ne_nil (encodeChar_ne_nil (decodeRune text).1)
    have hlen := congrArg List.length hsplit
    rw [List.length_append] at hlen
    obtain ⟨cs, hcs⟩ := ih (by omega) h
    exact ⟨(decodeRune text).1 :: cs, by rw [encode_cons, hcs, ← hsplit]⟩

end TextLoop

/-- `validateText` accepts text of at least `minimum` characters.  An empty text never reaches the
comparison with `maximum`. -/
theorem validateText_none_iff_encode {field : String} {minimum maximum : Int} {rejectControls : Bool}
    {text : Bytes} :
    validateText field minimum maximum rejectControls text = none ↔
      ∃ cs : List Char, encode cs = text ∧ minimum ≤ cs.length ∧ (cs = [] ∨ cs.length ≤ maximum) ∧
        (rejectControls = true → ∀ c ∈ cs, isControlOrSeparator c = false) := by
  have hloop : ∀ cs : List Char, validateText field minimum maximum rejectControls (encode cs) = none ↔
      minimum ≤ cs.length ∧ (cs = [] ∨ cs.length ≤ maximum) ∧
        (rejectControls = true → ∀ c ∈ cs, isControlOrSeparator c = false) := by
    intro cs
    rw [validateText, validateTextLoop_encode cs _ _ (length_le_encode cs), Int.natCast_zero, Int.zero_add]
  constructor
  · intro h
    obtain ⟨cs, rfl⟩ := exists_encode_of_validateTextLoop (Nat.le_refl _) h
    exact ⟨cs, rfl, (hloop cs).mp h⟩
  · rintro ⟨cs, rfl, h⟩
    exact (hloop cs).mpr h

/-- `validateText` accepts bounded text, whatever field it is asked about. -/
theorem validateText_none_iff {field : String} {maximum : Nat} {rejectControls : Bool} {text : Bytes} :
    validateText field 1 maximum rejectControls text = none ↔ IsText 1 maximum rejectControls text := by
  rw [validateText_none_iff_encode, IsText]
  apply exists_congr
  intro cs
  have hmax : 1 ≤ cs.length → (cs = [] ∨ (cs.length : Int) ≤ maximum ↔ cs.length ≤ maximum) := by
    intro hmin
    rw [Int.ofNat_le]
    exact or_iff_right fun hnil => by rw [hnil] at hmin; cases hmin
  refine and_congr_right fun _ => ?_
  rw [show ((1 : Int) ≤ cs.length ↔ 1 ≤ cs.length) by omega]
  exact and_congr_right fun hmin => and_congr_left fun _ => hmax hmin

theorem firstError_none_iff {α : Type} {check : Nat → α → Option String} {P : α → Prop}
    (h : ∀ index x, check index x = none ↔ P x) (xs : List α) :
    ∀ index, firstError check index xs = none ↔ ∀ x ∈ xs, P x := by
  induction xs with
  | nil => intro index; simp [firstError]
  | cons x xs ih =>
    intro index
    rw [firstError, List.forall_mem_cons, ← h index x, ← ih (index + 1)]
    cases check index x <;> simp

/-- A message a provider may be given. -/
structure Message.Valid (message : Message) : Prop where
  role : message.role = messageRoleUser ∨ message.role = messageRoleAssistant
  content : IsText 1 maxMessageTextRunes false message.content

/-- An instruction a provider may be given. -/
structure Instruction.Valid (instruction : Instruction) : Prop where
  source : IsText 1 maxInstructionSourceRunes true instruction.source
  content : IsText 1 maxInstructionTextRunes false instruction.content

/-- A request a provider may be given. -/
structure Request.Valid (request : Request) : Prop where
  conversation_pos : 1 ≤ request.conversation.length
  conversation_le : request.conversation.length ≤ maxConversationMessages
  instructions_le : request.instructions.length ≤ maxInstructions
  capabilities_le : request.requiredCapabilities.length ≤ maxRequiredCapabilities
  messages : ∀ message ∈ request.conversation, message.Valid
  instructions : ∀ instruction ∈ request.instructions, instruction.Valid
  capabilities : ∀ capability ∈ request.requiredCapabilities, capability = capabilityToolCalls

theorem validateMessage_none_iff (index : Nat) (message : Message) :
    validateMessage index message = none ↔ message.Valid := by
  rw [validateMessage]
  split
  · rename_i h
    refine iff_of_false (by simp) fun hvalid => ?_
    exact hvalid.role.elim h.1 h.2
  · rename_i h
    rw [validateText_none_iff]
    exact ⟨fun hc => ⟨by by_contra hne; exact h (not_or.mp hne), hc⟩, fun hvalid => hvalid.content⟩

theorem validateInstruction_none_iff (index : Nat) (instruction : Instruction) :
    validateInstruction index instruction = none ↔ instruction.Valid := by
  constructor
  · intro h
    rw [validateInstruction] at h
    split at h
    · cases h
    · rename_i hsource
      exact ⟨validateText_none_iff.mp hsource,
        validateText_none_iff.mp h⟩
  · intro h
    rw [validateInstruction, validateText_none_iff.mpr h.source]
    exact validateText_none_iff.mpr h.content

theorem validateRequestCardinalities_none_iff (c i r : Nat) :
    validateRequestCardinalities c i r = none ↔
      1 ≤ c ∧ c ≤ maxConversationMessages ∧ i ≤ maxInstructions ∧ r ≤ maxRequiredCapabilities := by
  rw [validateRequestCardinalities]
  split
  · simp; omega
  split
  · simp; omega
  split
  · simp; omega
  · simp; omega

theorem Request.validate_none_iff (request : Request) :
    request.validate = none ↔ request.Valid := by
  have hcard := validateRequestCardinalities_none_iff request.conversation.length
    request.instructions.length request.requiredCapabilities.length
  have hmessages := firstError_none_iff validateMessage_none_iff request.conversation 0
  have hinstructions := firstError_none_iff validateInstruction_none_iff request.instructions 0
  have hcapability : ∀ index c, validateCapability index c = none ↔ c = capabilityToolCalls := by
    intro index c
    rw [validateCapability]
    split <;> simp_all
  have hcapabilities := firstError_none_iff hcapability request.requiredCapabilities 0
  constructor
  · intro h
    rw [Request.validate] at h
    split at h
    · cases h
    rename_i h1
    split at h
    · cases h
    rename_i h2
    split at h
    · cases h
    rename_i h3
    obtain ⟨hc1, hc2, hi, hr⟩ := hcard.mp h1
    exact ⟨hc1, hc2, hi, hr, hmessages.mp h2, hinstructions.mp h3, hcapabilities.mp h⟩
  · intro h
    rw [Request.validate, hcard.mpr ⟨h.conversation_pos, h.conversation_le, h.instructions_le,
      h.capabilities_le⟩, hmessages.mpr h.messages, hinstructions.mpr h.instructions,
      hcapabilities.mpr h.capabilities]

theorem newRequest_ok {request : Request} (h : request.Valid) :
    newRequest request.conversation request.instructions request.requiredCapabilities = .ok request := by
  have hcard := (validateRequestCardinalities_none_iff _ _ _).mpr ⟨h.conversation_pos,
    h.conversation_le, h.instructions_le, h.capabilities_le⟩
  rw [newRequest, hcard]
  simp only [request.validate_none_iff.mpr h]

/-- A token count that fits the wire format. -/
structure Usage.Valid (usage : Usage) : Prop where
  input_nonneg : 0 ≤ usage.inputTokens
  input_le : usage.inputTokens ≤ maxUsageTokens
  output_nonneg : 0 ≤ usage.outputTokens
  output_le : usage.outputTokens ≤ maxUsageTokens

theorem validateUsage_none_iff (usage : Usage) : validateUsage usage = none ↔ usage.Valid := by
  rw [validateUsage]
  split
  · rename_i h
    refine iff_of_false (by simp) fun hv => ?_
    have h1 := hv.input_nonneg
    have h2 := hv.input_le
    omega
  split
  · rename_i h
    refine iff_of_false (by simp) fun hv => ?_
    have h1 := hv.output_nonneg
    have h2 := hv.output_le
    omega
  · exact iff_of_true rfl ⟨by omega, by omega, by omega, by omega⟩

/-- A completion an invoker may return. -/
structure Result.Valid (result : Result) : Prop where
  output : IsText 1 maxOutputTextRunes false result.outputText
  usage : result.hasUsage = true → result.usage.Valid

theorem Result.validate_none_iff (result : Result) : result.validate = none ↔ result.Valid := by
  have htext : validateText "output text" 1 maxOutputTextRunes false result.outputText = none ↔
      IsText 1 maxOutputTextRunes false result.outputText := validateText_none_iff
  constructor
  · intro h
    rw [Result.validate] at h
    split at h
    · cases h
    rename_i h1
    refine ⟨htext.mp h1, fun hu => ?_⟩
    rw [if_pos hu] at h
    exact (validateUsage_none_iff _).mp h
  · intro h
    rw [Result.validate, htext.mpr h.output]
    simp only
    split
    · rename_i hu
      exact (validateUsage_none_iff _).mpr (h.usage hu)
    · rfl

/-- A failure an invoker may return. -/
structure Failure.Valid (failure : Failure) : Prop where
  code : failure.code ∈ failureCodes
  usage : failure.hasUsage = true → failure.usage.Valid

theorem Failure.validate_none_iff (failure : Option Failure) :
    Failure.validate failure = none ↔ ∃ f, failure = some f ∧ f.Valid := by
  cases failure with
  | none => simp [Failure.validate]
  | some f =>
    simp only [Failure.validate, Option.some.injEq, exists_eq_left']
    split
    · rename_i h
      exact iff_of_false (by simp) fun hv => h hv.code
    rename_i h
    rw [Decidable.not_not] at h
    split
    · rename_i hu
      rw [validateUsage_none_iff]
      exact ⟨fun hv => ⟨h, fun _ => hv⟩, fun hv => hv.usage hu⟩
    · rename_i hu
      exact iff_of_true rfl ⟨h, fun hu' => absurd hu' hu⟩

theorem newResult_ok_iff {outputText : Bytes} {usage : Option Usage} {result : Result} :
    newResult outputText usage = .ok result ↔
      result = ⟨outputText, usage.getD Usage.zero, usage.isSome⟩ ∧ result.Valid := by
  rw [newResult]
  split
  · rename_i err herr
    refine iff_of_false (by simp) ?_
    rintro ⟨rfl, hvalid⟩
    rw [(Result.validate_none_iff _).mpr hvalid] at herr
    cases herr
  · rename_i hnone
    rw [Except.ok.injEq, eq_comm]
    exact ⟨fun h => ⟨h, h ▸ (Result.validate_none_iff _).mp hnone⟩, fun h => h.1⟩

theorem newFailure_ok_iff {code : Bytes} {retryable : Bool} {usage : Option Usage} {failure : Failure} :
    newFailure code retryable usage = .ok failure ↔
      failure = ⟨code, retryable, usage.getD Usage.zero, usage.isSome⟩ ∧ failure.Valid := by
  have hvalidate : ∀ f : Failure, Failure.validate (some f) = none ↔ f.Valid := by
    intro f
    rw [Failure.validate_none_iff]
    exact ⟨fun ⟨g, hg, hvalid⟩ => by cases hg; exact hvalid, fun h => ⟨f, rfl, h⟩⟩
  rw [newFailure]
  split
  · rename_i err herr
    refine iff_of_false (by simp) ?_
    rintro ⟨rfl, hvalid⟩
    rw [(hvalidate _).mpr hvalid] at herr
    cases herr
  · rename_i hnone
    rw [Except.ok.injEq, eq_comm]
    exact ⟨fun h => ⟨h, h ▸ (hvalidate _).mp hnone⟩, fun h => h.1⟩

theorem Result.isZero_iff (result : Result) : result.isZero = true ↔ result = Result.zero := by
  obtain ⟨text, usage, hasUsage⟩ := result
  cases hasUsage <;> simp [Result.isZero, Result.zero]

/-- The result/error alternatives of an invoker under a context. -/
inductive Alternative (ctx : Context) : Result → Option GoError → Prop
  | completed {result : Result} : result.Valid → Alternative ctx result none
  | failed {failure : Failure} : failure.Valid →
      Alternative ctx Result.zero (some (.failure (some failure)))
  | canceled : ctx.err = some .canceled → Alternative ctx Result.zero (some .canceled)
  | deadlineExceeded : ctx.err = some .deadlineExceeded →
      Alternative ctx Result.zero (some .deadlineExceeded)

/-- `validateInvocation` accepts exactly the alternatives. -/
theorem validateInvocation_none_iff (ctx : Context) (result : Result) (err : Option GoError) :
    validateInvocation (some ctx) result err = none ↔ Alternative ctx result err := by
  cases err with
  | none =>
    rw [validateInvocation]
    exact (Result.validate_none_iff result).trans
      ⟨fun h => .completed h, fun h => by cases h; assumption⟩
  | some err =>
    rw [validateInvocation.eq_def]
    simp only [Bool.not_eq_true']
    split
    · rename_i hzero
      refine iff_of_false (by simp) fun h => ?_
      have hne : result ≠ Result.zero := fun he => by
        rw [(Result.isZero_iff result).mpr he] at hzero
        cases hzero
      cases h <;> exact hne rfl
    rename_i hzero
    rw [Bool.not_eq_false, Result.isZero_iff] at hzero
    -- with an error the result has to be the zero value
    subst hzero
    cases err with
    | eof => exact iff_of_false (by simp) fun h => by cases h
    | other text => exact iff_of_false (by simp) fun h => by cases h
    | canceled =>
      by_cases h : ctx.err = some .canceled
      · simpa [h] using Alternative.canceled h
      · simp only [true_or, if_true, ne_eq, h, not_false_eq_true, reduceCtorEq, false_iff]
        intro hv
        cases hv
        contradiction
    | deadlineExceeded =>
      by_cases h : ctx.err = some .deadlineExceeded
      · simpa [h] using Alternative.deadlineExceeded h
      · simp only [or_true, if_true, ne_eq, h, not_false_eq_true, reduceCtorEq, false_iff]
        intro hv
        cases hv
        contradiction
    | failure f =>
      simp only [reduceCtorEq, or_self, if_false, Failure.validate_none_iff]
      constructor
      · rintro ⟨f, rfl, hf⟩
        exact .failed hf
      · intro h
        cases h
        exact ⟨_, rfl, by assumption⟩

end FastGate.Provider
