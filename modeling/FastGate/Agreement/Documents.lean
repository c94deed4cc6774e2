/-
# FastGate.Agreement.Documents — two strict parsers

The gateway validates a request body before it decodes it, the contract checker loads its fixtures
with `strict_json`.  One looks for lone surrogates among the escapes of the bytes and for repeated
names while it walks the tokens; the other has its parser build dictionaries and walks the decoded
strings afterwards.  If they disagreed, a fixture could pass the checker and be refused by the
gateway, or the other way round.

Both come down to the parse profile of the document, `StrictProfile` there and `NormativeDocument`
here:

* `strictDocument_iff` puts the two profiles side by side: what is left between them is the bound on
  open containers, of which the gateway allows sixteen.
* `strictJson_iff_validateStrictDocument` is the comparison of the two programs: within this bound and
  the guards under which the checker does not decline to judge, one loads a document exactly when the
  other admits it.

Nothing about the shape of a request is said here; that is `Agreement.Request`.
-/
import FastGate.CheckContract.StrictJson
import FastGate.ModelTurn.Parse

open FastGate.Utf8 (Bytes encode)
open FastGate.Json
open FastGate.Python
open FastGate.ModelTurn
open FastGate.CheckContract

namespace FastGate.Agreement

/-- The strict parse profile is the normative one and a bound on the open containers. -/
theorem strictDocument_iff {raw : Bytes} {doc : Doc Char} :
    StrictDocument raw doc ↔ NormativeDocument raw doc ∧ doc.depth ≤ maxJsonContainerDepth := by
  have hscalar : doc.AllStrings PairedSurrogates ↔
      doc.AllStrings fun s => ∀ n ∈ codePoints s, IsScalar n := by
    rw [show PairedSurrogates = _ from funext fun s => propext (pairedSurrogates_iff s)]
  constructor
  · rintro ⟨text, hraw, htext, hnames, hpaired, hdepth⟩
    exact ⟨⟨text, hraw, htext, hnames, hscalar.mp hpaired⟩, hdepth⟩
  · rintro ⟨⟨text, hraw, htext, hnames, hstrings⟩, hdepth⟩
    exact ⟨text, hraw, htext, hnames, hscalar.mpr hstrings, hdepth⟩

/-- `strict_json` loads a file exactly when `validateStrictDocument` accepts its bytes.  The bounds on
containers and numbers are asked of JSON texts only: nothing else is accepted on either side. -/
theorem strictJson_iff_validateStrictDocument (rt : Runtime) (raw : Bytes)
    (hlimit : maxNestingDepth < rt.recursionLimit) (hsize : raw.length ≤ 1000000)
    (hdoc : ∀ doc : Doc UInt8, JsonText raw doc →
      doc.depth ≤ 16 ∧ doc.AllNumbers fun n => rt.exactRange n = true) :
    (∃ v, strictJson rt (some raw) = .ok v) ↔ validateStrictDocument raw = true := by
  constructor
  · rintro ⟨v, hv⟩
    obtain ⟨doc, hnormative, -⟩ := normative_of_strictJson hsize hv
    obtain ⟨text, rfl, htext, -⟩ := id hnormative
    have hdepth := (hdoc _ (jsonText_encode.mpr ⟨doc, htext, rfl⟩)).1
    rw [Doc.encode, Doc.depth_map] at hdepth
    exact validate_of_strictDocument (strictDocument_iff.mpr ⟨hnormative, hdepth⟩)
  · intro h
    obtain ⟨doc, hstrict⟩ := strictDocument_of_validate h
    obtain ⟨hnormative, -⟩ := strictDocument_iff.mp hstrict
    obtain ⟨text, rfl, htext, -⟩ := id hnormative
    have hbytes := jsonText_encode.mpr ⟨doc, htext, rfl⟩
    obtain ⟨hdepth, hnumbers⟩ := hdoc _ hbytes
    -- sixteen open containers are far from the nesting guard
    have hnesting : doc.encode.nesting ≤ maxNestingDepth := by
      have hle := doc.encode.nesting_le_depth
      unfold maxNestingDepth
      omega
    have hguards : WithinGuards rt (encode text) :=
      ⟨hsize, (guardedText_iff hbytes).mpr ⟨by rwa [Nat.zero_add], hnumbers⟩⟩
    exact ⟨_, strictJson_ok hlimit hnormative hguards⟩

/-- Two members whose names differ in their escapes only. -/
def repeatedName : Bytes := encode "\x7b\"a\":1,\"\\u0061\":2\x7d".toList

theorem strictJson_iff_validateStrictDocument_sample :
    ¬ ∃ v, strictJson default (some repeatedName) = .ok v := by
  have hdoc : ∀ doc : Doc UInt8, JsonText repeatedName doc →
      doc.depth ≤ 16 ∧ doc.AllNumbers fun n => (default : Runtime).exactRange n = true := by
    intro doc htext
    have hparse := parseText_of_jsonText docHooks htext
    rw [Doc.eval_docHooks] at hparse
    have hcheck : (parseText docHooks repeatedName).toOption.all (fun d => d.depth ≤ 16) = true := by
      decide +kernel
    rw [hparse] at hcheck
    exact ⟨of_decide_eq_true hcheck, doc.allNumbers_of_forall fun _ => rfl⟩
  rw [strictJson_iff_validateStrictDocument default repeatedName (by decide) (by decide +kernel) hdoc]
  decide +kernel

end FastGate.Agreement
