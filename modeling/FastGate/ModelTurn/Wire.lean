/-
# FastGate.ModelTurn.Wire — the request as a document

The v1 request in the terms of the wire format: which members a document must have, what each of them
must be, and what the request says.  Nothing here decodes anything; the Go decoder and the Python
schema check are both compared with `IsRequest`.

* `HasFields` asks for exactly the given members, in any order.  `TextAt` and `ElementsAt` are conditions
  on the string or on the elements under a name.
* Texts are lists of Unicode scalar values: a string with a lone surrogate has none, so it is no text of
  a request, whatever a decoder makes of it.
* `documentConversation`, `documentInstructions` and `documentCapabilities` are what a request says, in
  the form in which the provider receives it.
-/
import FastGate.Json.Text
import Mathlib.Data.List.Nodup
import FastGate.Provider.Provider

open FastGate.Utf8 (Bytes encode)
open FastGate.Json
open FastGate.Provider

namespace FastGate.Json.Doc

/-! ## Looking into a document -/

/-- The text of a string. -/
def text? : Doc Char → Option (List Char)
  | .str s => some (scalars s)
  | _ => none

/-- The elements of an array. -/
def elements? : Doc Char → Option (List (Doc Char))
  | .arr xs => some xs
  | _ => none

/-- The members of an object. -/
def members? : Doc Char → Option (List (StrLit Char × Doc Char))
  | .obj ms => some ms
  | _ => none

/-- The member of an object whose name reads `name`. -/
def member? (name : String) (doc : Doc Char) : Option (Doc Char) :=
  doc.members?.bind fun ms => (ms.find? fun kd => scalars kd.1 = name.toList).map (·.2)

/-- With distinct names, a member is found under its name. -/
theorem member?_obj {ms : List (StrLit Char × Doc Char)} (h : (ms.map fun kd => scalars kd.1).Nodup)
    {name : String} {d : Doc Char} :
    (obj ms).member? name = some d ↔ ∃ kd ∈ ms, scalars kd.1 = name.toList ∧ kd.2 = d := by
  rw [member?, members?, Option.bind_some, Option.map_eq_some_iff]
  constructor
  · rintro ⟨kd, hfind, hd⟩
    exact ⟨kd, List.mem_of_find?_eq_some hfind, by simpa using List.find?_some hfind, hd⟩
  · rintro ⟨kd, hkd, hname, hd⟩
    cases hfind : ms.find? fun kd => scalars kd.1 = name.toList with
    | none => exact absurd hname (by simpa using List.find?_eq_none.mp hfind kd hkd)
    | some other =>
      have hother : scalars other.1 = name.toList := by simpa using List.find?_some hfind
      have heq := List.inj_on_of_nodup_map h (List.mem_of_find?_eq_some hfind) hkd
        (hother.trans hname.symm)
      exact ⟨other, rfl, heq ▸ hd⟩

/-- The text of a string member. -/
def textAt? (name : String) (doc : Doc Char) : Option (List Char) := (doc.member? name).bind text?

/-- The elements of an array member. -/
def elementsAt? (name : String) (doc : Doc Char) : Option (List (Doc Char)) :=
  (doc.member? name).bind elements?

/-- The object has exactly the members `fields`. -/
def HasFields (fields : List String) (doc : Doc Char) : Prop :=
  ∃ ms, doc.members? = some ms ∧ (∀ kd ∈ ms, ∃ field ∈ fields, scalars kd.1 = field.toList) ∧
    ∀ field ∈ fields, ∃ kd ∈ ms, scalars kd.1 = field.toList

/-- The member `name` is a string whose text satisfies `P`. -/
def TextAt (name : String) (P : List Char → Prop) (doc : Doc Char) : Prop :=
  ∃ text, doc.textAt? name = some text ∧ P text

/-- The member `name` is an array whose elements satisfy `P` together. -/
def ElementsAt (name : String) (P : List (Doc Char) → Prop) (doc : Doc Char) : Prop :=
  ∃ xs, doc.elementsAt? name = some xs ∧ P xs

end FastGate.Json.Doc

namespace FastGate.ModelTurn

/-! ## The shape of a request -/

/-- Letters and digits of ASCII. -/
def IsAlphaNumeric (c : Char) : Prop :=
  (0x41 ≤ c.toNat ∧ c.toNat ≤ 0x5A) ∨ (0x61 ≤ c.toNat ∧ c.toNat ≤ 0x7A) ∨
    (0x30 ≤ c.toNat ∧ c.toNat ≤ 0x39)

/-- What may follow the first character of an identifier: letters, digits and `.`, `_`, `:`, `-`. -/
def IsIdentifierChar (c : Char) : Prop :=
  IsAlphaNumeric c ∨ c.toNat = 0x2E ∨ c.toNat = 0x5F ∨ c.toNat = 0x3A ∨ c.toNat = 0x2D

/-- An identifier: 1 to 128 characters of ASCII. -/
def IsIdentifier (text : List Char) : Prop :=
  ∃ c cs, text = c :: cs ∧ text.length ≤ 128 ∧ IsAlphaNumeric c ∧ ∀ x ∈ cs, IsIdentifierChar x

/-- A text of 1 to `maximum` scalar values. -/
def IsContent (maximum : Nat) (text : List Char) : Prop := 1 ≤ text.length ∧ text.length ≤ maximum

/-- Control characters and the two Unicode line separators. -/
def IsUnsafe (c : Char) : Prop :=
  c.toNat ≤ 0x1F ∨ (0x7F ≤ c.toNat ∧ c.toNat ≤ 0x9F) ∨ c.toNat = 0x2028 ∨ c.toNat = 0x2029

/-- The name of an instruction's source. -/
def IsSource (text : List Char) : Prop := IsContent 256 text ∧ ∀ c ∈ text, ¬ IsUnsafe c

/-- A message of the conversation. -/
structure IsMessage (doc : Doc Char) : Prop where
  fields : doc.HasFields ["role", "content"]
  role : doc.TextAt "role" fun text => text = "user".toList ∨ text = "assistant".toList
  content : doc.TextAt "content" (IsContent 65536)

/-- An instruction. -/
structure IsInstruction (doc : Doc Char) : Prop where
  fields : doc.HasFields ["source", "content"]
  source : doc.TextAt "source" IsSource
  content : doc.TextAt "content" (IsContent 65536)

/-- A required capability. -/
def IsCapability (doc : Doc Char) : Prop := doc.text? = some "tool_calls".toList

/-- The members of a v1 request, all of which are required. -/
def requestFields : List String :=
  ["version", "kind", "request_id", "model_alias", "conversation", "instructions",
    "required_capabilities"]

/-- A v1 request. -/
structure IsRequest (doc : Doc Char) : Prop where
  fields : doc.HasFields requestFields
  version : doc.TextAt "version" fun text => text = "v1".toList
  kind : doc.TextAt "kind" fun text => text = "model_turn.request".toList
  requestId : doc.TextAt "request_id" IsIdentifier
  modelAlias : doc.TextAt "model_alias" IsIdentifier
  conversation : doc.ElementsAt "conversation" fun xs =>
    1 ≤ xs.length ∧ xs.length ≤ 64 ∧ ∀ x ∈ xs, IsMessage x
  instructions : doc.ElementsAt "instructions" fun xs => xs.length ≤ 32 ∧ ∀ x ∈ xs, IsInstruction x
  capabilities : doc.ElementsAt "required_capabilities" fun xs =>
    xs.length ≤ 1 ∧ ∀ x ∈ xs, IsCapability x

/-! ## What a request says -/

/-- The text of a string member as a Go string. -/
def documentText (name : String) (doc : Doc Char) : Bytes := encode ((doc.textAt? name).getD [])

/-- The provider-facing message that a document says. -/
def documentMessage (doc : Doc Char) : Message :=
  ⟨documentText "role" doc, documentText "content" doc⟩

/-- The provider-facing instruction that a document says. -/
def documentInstruction (doc : Doc Char) : Instruction :=
  ⟨documentText "source" doc, documentText "content" doc⟩

/-- The messages of a request, in the order of the document. -/
def documentConversation (doc : Doc Char) : List Message :=
  ((doc.elementsAt? "conversation").getD []).map documentMessage

/-- The instructions of a request, in the order of the document. -/
def documentInstructions (doc : Doc Char) : List Instruction :=
  ((doc.elementsAt? "instructions").getD []).map documentInstruction

/-- The required capabilities of a request. -/
def documentCapabilities (doc : Doc Char) : List Bytes :=
  ((doc.elementsAt? "required_capabilities").getD []).map fun x => encode (x.text?.getD [])

end FastGate.ModelTurn
