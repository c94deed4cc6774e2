/-
# FastGate.ModelTurn.Request — decoding the wire request

The hand-written decoder of a model-turn request, from the raw members of the root object to the
provider request.  Every function decodes one raw message; what it accepts and returns on the parts of
a document is the subject of `FastGate.ModelTurn.Decode`.

* `decodeObject`, `decodeArray` and `decodeString` look at the first byte that is no white space before
  they call `json.Unmarshal`, so that `null` is refused where Go would accept it.
* An object is taken only with exactly the fields that are expected; a raw object is a map, so repeated
  names have been merged by then.  The strict profile has refused them before.
* The checks of a text count runes and stop at the first one that is not allowed.
-/
import FastGate.Go.Unmarshal
import FastGate.ModelTurn.Wire

open FastGate.Utf8 (Bytes)
open FastGate.Go
open FastGate.Provider

namespace FastGate.ModelTurn

/-- The only model alias that is served. -/
def supportedAlias : Bytes := goString "learning-text"

/-- The only capability that a request may name. -/
def toolCallsCapability : Bytes := goString "tool_calls"

/-- The length of an identifier at most. -/
def maxIdentifierBytes : Nat := 128

/-! ## Raw messages -/

/-- `decodeObject`: the members of a raw object, and nothing for any other value. -/
def decodeObject (raw : Bytes) : Option RawObject :=
  match trimSpace raw with
  | [] => none
  | b :: rest =>
    if b ≠ 0x7B then none
    else
      match unmarshalObject (b :: rest) with
      | some (some object) => some object
      | _ => none

/-- `decodeArray`: the elements of a raw array, and nothing for any other value. -/
def decodeArray (raw : Bytes) : Option (List RawMessage) :=
  match trimSpace raw with
  | [] => none
  | b :: rest =>
    if b ≠ 0x5B then none
    else
      match unmarshalArray (b :: rest) with
      | some (some values) => some values
      | _ => none

/-- `decodeString`: the text of a raw string, and nothing for any other value. -/
def decodeString (raw : Bytes) : Option Bytes :=
  match trimSpace raw with
  | [] => none
  | b :: rest => if b ≠ 0x22 then none else unmarshalString (b :: rest)

/-- `root[name]`; a name that is absent reads as an empty raw message. -/
def rawField (object : RawObject) (name : String) : RawMessage :=
  (object.lookup (goString name)).getD []

/-- `hasExactFields`: as many members as names, and each name among them. -/
def hasExactFields (object : RawObject) (fields : List String) : Bool :=
  if object.keys.length ≠ fields.length then false
  else fields.all fun field => goString field ∈ object

/-! ## Text -/

/-- `[A-Za-z0-9]`, what an identifier begins with. -/
def isAsciiAlphaNumeric (character : UInt8) : Bool :=
  (0x41 ≤ character && character ≤ 0x5A) || (0x61 ≤ character && character ≤ 0x7A) ||
    (0x30 ≤ character && character ≤ 0x39)

/-- What may follow the first character of an identifier. -/
def isIdentifierByte (character : UInt8) : Bool :=
  isAsciiAlphaNumeric character || character == 0x2E || character == 0x5F || character == 0x3A ||
    character == 0x2D

/-- `validIdentifier` -/
def validIdentifier : Bytes → Bool
  | [] => false
  | first :: rest =>
    if (first :: rest).length > maxIdentifierBytes ∨ !isAsciiAlphaNumeric first then false
    else rest.all isIdentifierByte

/-- The characters that an instruction source must not contain. -/
def isUnsafeSourceCharacter (character : Char) : Bool :=
  character.toNat ≤ 0x1F || (0x7F ≤ character.toNat && character.toNat ≤ 0x9F) ||
    character.toNat == 0x2028 || character.toNat == 0x2029

/-- The loop of `validScalarText`; the fuel bounds the number of runes. -/
def validScalarTextLoop (minimum maximum : Int) (rejectControls : Bool) :
    Nat → Bytes → Nat → Bool
  | 0, _, length => length ≥ minimum
  | fuel + 1, text, length =>
    if text.isEmpty then length ≥ minimum
    else
      let (character, size) := decodeRune text
      if character = runeError ∧ size = 1 then false
      else if length + 1 > maximum ∨ (rejectControls && isUnsafeSourceCharacter character) then false
      else validScalarTextLoop minimum maximum rejectControls fuel (text.drop size) (length + 1)

/-- `validScalarText`: valid UTF-8 with so many runes, without controls if they are rejected. -/
def validScalarText (text : Bytes) (minimum maximum : Int) (rejectControls : Bool) : Bool :=
  validScalarTextLoop minimum maximum rejectControls text.length text 0

/-! ## The request -/

/-- A request as it was decoded, with the fields that are not passed to the provider. -/
structure WireRequest where
  requestId : Bytes
  modelAlias : Bytes
  conversation : List Message
  instructions : List Instruction
  requiredCapabilities : List Bytes
  deriving DecidableEq, Repr

/-- `safeRequestID`: the identifier of a request, whatever else is wrong with it. -/
def safeRequestId (root : RawObject) : Option Bytes :=
  match decodeString (rawField root "request_id") with
  | some requestId => if validIdentifier requestId then some requestId else none
  | none => none

/-- `decodeWireMessage` -/
def decodeWireMessage (raw : RawMessage) : Option Message :=
  match decodeObject raw with
  | none => none
  | some object =>
    if !hasExactFields object ["role", "content"] then none
    else
      match decodeString (rawField object "role"), decodeString (rawField object "content") with
      | some role, some content =>
        if (role ≠ goString "user" ∧ role ≠ goString "assistant") ∨
            !validScalarText content 1 maxMessageTextRunes false then none
        else
          let providerRole :=
            if role = goString "assistant" then messageRoleAssistant else messageRoleUser
          some ⟨providerRole, content⟩
      | _, _ => none

/-- `decodeWireInstruction` -/
def decodeWireInstruction (raw : RawMessage) : Option Instruction :=
  match decodeObject raw with
  | none => none
  | some object =>
    if !hasExactFields object ["source", "content"] then none
    else
      match decodeString (rawField object "source"), decodeString (rawField object "content") with
      | some source, some content =>
        if !validScalarText source 1 maxInstructionSourceRunes true ∨
            !validScalarText content 1 maxInstructionTextRunes false then none
        else some ⟨source, content⟩
      | _, _ => none

/-- `decodeWireCapability` -/
def decodeWireCapability (raw : RawMessage) : Option Bytes :=
  match decodeString raw with
  | some capability => if capability ≠ toolCallsCapability then none else some capability
  | none => none

/-- A loop that decodes every element and stops at the first that is refused. -/
def decodeAll {α : Type} (decode : RawMessage → Option α) : List RawMessage → Option (List α)
  | [] => some []
  | raw :: raws =>
    match decode raw with
    | none => none
    | some value =>
      match decodeAll decode raws with
      | none => none
      | some values => some (value :: values)

/-- `decodeWireRequest`: the fields one after the other, each with its own bounds. -/
def decodeWireRequest (root : RawObject) : Option WireRequest :=
  if !hasExactFields root requestFields then none
  else
    match decodeString (rawField root "version"), decodeString (rawField root "kind"),
        decodeString (rawField root "request_id"), decodeString (rawField root "model_alias") with
    | some version, some kind, some requestId, some modelAlias =>
      if version ≠ goString "v1" ∨ kind ≠ goString "model_turn.request" ∨
          !validIdentifier requestId ∨ !validIdentifier modelAlias then none
      else
        match decodeArray (rawField root "conversation") with
        | none => none
        | some conversationRaw =>
          if conversationRaw.length < 1 ∨ conversationRaw.length > maxConversationMessages then none
          else
            match decodeAll decodeWireMessage conversationRaw with
            | none => none
            | some conversation =>
              match decodeArray (rawField root "instructions") with
              | none => none
              | some instructionsRaw =>
                if instructionsRaw.length > maxInstructions then none
                else
                  match decodeAll decodeWireInstruction instructionsRaw with
                  | none => none
                  | some instructions =>
                    match decodeArray (rawField root "required_capabilities") with
                    | none => none
                    | some capabilitiesRaw =>
                      if capabilitiesRaw.length > maxRequiredCapabilities then none
                      else
                        match decodeAll decodeWireCapability capabilitiesRaw with
                        | none => none
                        | some capabilities =>
                          some ⟨requestId, modelAlias, conversation, instructions, capabilities⟩
    | _, _, _, _ => none

/-- `mapProviderRequest`; its error carries nothing. -/
def mapProviderRequest (request : WireRequest) : Option Request :=
  if request.conversation.length < 1 ∨ request.conversation.length > maxConversationMessages ∨
      request.instructions.length > maxInstructions ∨ request.requiredCapabilities.length ≠ 0 then
    none
  else
    match newRequest request.conversation request.instructions [] with
    | .error _ => none
    | .ok providerRequest => some providerRequest

end FastGate.ModelTurn
