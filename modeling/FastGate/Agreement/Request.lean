/-
# FastGate.Agreement.Request — two implementations of the request contract

The gateway decodes a request by hand, from raw messages and bytes; the contract checker interprets
the committed request schema over code points.  The two were written against the same prose and share
no code: one counts runes of UTF-8 and compares bytes, the other searches with regular expressions and
compares decimals.

Both accept the documents of shape `IsRequest`, the decoder by `decodeWireRequest_text` and the schema
by `conforms_requestSchema`, so they accept the same documents
(`decodeWireRequest_iff_validateInstance`).

The way there goes through the kinds of nodes that the schema is put together from: one lemma for each
kind (`conforms_identifier`, `conforms_message` and so on) says which documents conform to it, in the
words of the wire format.  The lemmas about searches connect the regular expressions with the character
classes of identifiers and sources.
-/
import FastGate.CheckContract.Schemas
import FastGate.ModelTurn.Decode

open FastGate.Utf8 (Bytes encode)
open FastGate.Json
open FastGate.Python
open FastGate.Go (RawObject)
open FastGate.Provider (goString messageRoleUser)
open FastGate.ModelTurn
open FastGate.CheckContract

namespace FastGate.Agreement

/-! ## Documents as values -/

theorem ofDoc_eq_str {doc : Doc Char} (h : Clean doc) {s : Str} :
    Value.ofDoc doc = .str s ↔ ∃ t, doc.text? = some t ∧ s = t.map Char.toNat := by
  cases doc with
  | str is =>
    have hs : codePoints is = (scalars is).map Char.toNat := codePoints_eq_scalars h.surrogates
    rw [Value.ofDoc, Value.str.injEq, hs, eq_comm]
    constructor
    · exact fun h => ⟨_, rfl, h⟩
    · rintro ⟨t, ht, h⟩
      cases ht
      exact h
  | _ => simp [Value.ofDoc, Doc.text?]

theorem ofDoc_eq_arr {doc : Doc Char} {vs : List Value} :
    Value.ofDoc doc = .arr vs ↔ ∃ xs, doc = .arr xs ∧ vs = xs.map Value.ofDoc := by
  cases doc with
  | arr xs => simp [eq_comm]
  | _ => simp [Value.ofDoc]

theorem ofDoc_eq_obj {doc : Doc Char} {vs : List (Str × Value)} :
    Value.ofDoc doc = .obj vs ↔
      ∃ ms, doc = .obj ms ∧ vs = ms.map fun m => (codePoints m.1, Value.ofDoc m.2) := by
  cases doc with
  | obj ms => simp [eq_comm]
  | _ => simp [Value.ofDoc]

/-! ## Nodes of the request schema -/

section Nodes

variable {doc : Doc Char}

theorem conforms_text (h : Clean doc) {maximum : Nat} :
    Conforms (.ofDoc doc) (textNode maximum) ↔ ∃ t, doc.text? = some t ∧ IsContent maximum t := by
  rw [conforms_textNode]
  simp only [ofDoc_eq_str h, IsContent]
  constructor
  · rintro ⟨s, ⟨t, ht, rfl⟩, hmin, hmax⟩
    rw [List.length_map] at hmin hmax
    exact ⟨t, ht, hmin, hmax⟩
  · rintro ⟨t, ht, hmin, hmax⟩
    exact ⟨_, ⟨t, ht, rfl⟩, by rwa [List.length_map], by rwa [List.length_map]⟩

theorem ofDoc_eq_text (h : Clean doc) {s : String} :
    Value.ofDoc doc = text s ↔ doc.text? = some s.toList := by
  rw [text, ofDoc_eq_str h]
  constructor
  · rintro ⟨t, ht, hs⟩
    rw [ht, map_toNat_inj.mp hs]
  · exact fun ht => ⟨_, ht, rfl⟩

theorem inAlphaNumeric_iff (c : Char) : inAlphaNumeric c.toNat = true ↔ IsAlphaNumeric c := by
  simp [inAlphaNumeric, IsAlphaNumeric, or_assoc]

theorem inIdentifier_iff (c : Char) : inIdentifier c.toNat = true ↔ IsIdentifierChar c := by
  simp [inIdentifier, IsIdentifierChar, inAlphaNumeric_iff, or_assoc]

theorem inUnsafe_iff (c : Char) : inUnsafe c.toNat = true ↔ IsUnsafe c := by
  simp [inUnsafe, IsUnsafe, or_assoc]

theorem searchIdentifier_iff (t : List Char) :
    (1 ≤ t.length ∧ t.length ≤ 128) ∧ searchIdentifier (t.map Char.toNat) = true ↔ IsIdentifier t := by
  cases t with
  | nil => simp [searchIdentifier, IsIdentifier]
  | cons c cs =>
    simp only [List.map_cons, searchIdentifier, Bool.and_eq_true, inAlphaNumeric_iff, List.all_map,
      List.all_eq_true, Function.comp_apply, inIdentifier_iff, IsIdentifier]
    constructor
    · rintro ⟨⟨-, hlen⟩, hc, hcs⟩
      exact ⟨c, cs, rfl, hlen, hc, hcs⟩
    · rintro ⟨c', cs', heq, hlen, hc, hcs⟩
      cases heq
      exact ⟨⟨by simp, hlen⟩, hc, hcs⟩

theorem searchControlSafe_iff (t : List Char) :
    (1 ≤ t.length ∧ t.length ≤ 256) ∧ searchControlSafe (t.map Char.toNat) = true ↔ IsSource t := by
  cases t with
  | nil => simp [searchControlSafe, IsSource, IsContent]
  | cons c cs =>
    rw [IsSource, IsContent, List.map_cons, searchControlSafe, ← List.map_cons, List.all_map,
      List.all_eq_true]
    simp only [Function.comp_apply, Bool.not_eq_true', ← Bool.not_eq_true, inUnsafe_iff]

theorem conforms_pattern (h : Clean doc) {maximum : Nat} {pattern : Str} {matcher : Str → Bool}
    (hp : auditedPatternMatchers.get? pattern = some matcher) {P : List Char → Prop}
    (hP : ∀ t : List Char, (1 ≤ t.length ∧ t.length ≤ maximum) ∧ matcher (t.map Char.toNat) = true ↔ P t) :
    Conforms (.ofDoc doc) (patternNode maximum pattern) ↔ ∃ t, doc.text? = some t ∧ P t := by
  rw [conforms_patternNode hp]
  simp only [ofDoc_eq_str h]
  constructor
  · rintro ⟨s, ⟨t, ht, rfl⟩, hlen, hm⟩
    rw [List.length_map] at hlen
    exact ⟨t, ht, (hP t).mp ⟨hlen, hm⟩⟩
  · rintro ⟨t, ht, hPt⟩
    obtain ⟨hlen, hm⟩ := (hP t).mpr hPt
    exact ⟨_, ⟨t, ht, rfl⟩, by rwa [List.length_map], hm⟩

theorem conforms_array {minimum maximum : Nat} {items : Value} {P : Doc Char → Prop}
    (h : Clean doc) (hP : ∀ x, Clean x → (Conforms (.ofDoc x) items ↔ P x)) :
    Conforms (.ofDoc doc) (arrayNode minimum maximum items) ↔
      ∃ xs, doc.elements? = some xs ∧ (minimum ≤ xs.length ∧ xs.length ≤ maximum) ∧ ∀ x ∈ xs, P x := by
  rw [conforms_arrayNode]
  simp only [ofDoc_eq_arr]
  constructor
  · rintro ⟨vs, ⟨xs, rfl, rfl⟩, hlen, hall⟩
    rw [List.length_map] at hlen
    exact ⟨xs, rfl, hlen, fun x hx => (hP x (h.element hx)).mp (hall _ (List.mem_map_of_mem hx))⟩
  · rintro ⟨xs, hxs, hlen, hall⟩
    cases doc with
    | arr ys =>
      cases hxs
      refine ⟨_, ⟨xs, rfl, rfl⟩, by rwa [List.length_map], List.forall_mem_map.mpr fun x hx => ?_⟩
      exact (hP x (h.element hx)).mpr (hall x hx)
    | _ => cases hxs

/-- A closed object whose properties are all required: the members are its fields, and each of them
conforms to its own node. -/
theorem conforms_object {head properties : List (String × Value)} {required : List String}
    (hhead : Annotates head) (hrequired : properties.map (·.1) = required) (hnodup : required.Nodup)
    (h : Clean doc) :
    Conforms (.ofDoc doc) (objectNode head required properties) ↔
      doc.HasFields required ∧
        ∀ p ∈ properties, ∃ d, doc.member? p.1 = some d ∧ Conforms (.ofDoc d) p.2 := by
  subst hrequired
  rw [conforms_objectNode hhead]
  have hkeys : Dict.keys (properties.map fun p => (str p.1, p.2)) = (properties.map (·.1)).map str := by
    simp [Dict.keys, List.map_map, Function.comp_def]
  have hnodupKeys : (Dict.keys (properties.map fun p => (str p.1, p.2))).Nodup :=
    hkeys ▸ hnodup.map str_injective
  have hproperty : ∀ p ∈ properties, Dict.get? (properties.map fun p => (str p.1, p.2)) (str p.1) = some p.2 :=
    fun p hp => Dict.get?_of_mem hnodupKeys (List.mem_map.mpr ⟨p, hp, rfl⟩)
  constructor
  · rintro ⟨vs, hobj, hreq, hall⟩
    obtain ⟨ms, rfl, rfl⟩ := ofDoc_eq_obj.mp hobj
    -- in a clean document a name is spelled with scalar values only
    have hname : ∀ kd ∈ ms, ∀ name : String, codePoints kd.1 = str name ↔ scalars kd.1 = name.toList :=
      fun kd hkd name => by rw [h.name hkd, str, map_toNat_inj]
    -- every property is required, so there is a member for it
    have hfound : ∀ p ∈ properties, ∃ kd ∈ ms, scalars kd.1 = p.1.toList := by
      intro p hp
      have hhas := Dict.has_iff.mp (hreq p.1 (List.mem_map_of_mem hp))
      simp only [Dict.keys, List.map_map, List.mem_map, Function.comp_apply] at hhas
      obtain ⟨kd, hkd, hkey⟩ := hhas
      exact ⟨kd, hkd, (hname kd hkd p.1).mp hkey⟩
    -- the object is closed, so there is a property for every member
    have hmember : ∀ kd ∈ ms, ∃ p ∈ properties, scalars kd.1 = p.1.toList ∧ Conforms (.ofDoc kd.2) p.2 := by
      intro kd hkd
      obtain ⟨property, hget, hconf⟩ :=
        hall _ (List.mem_map.mpr ⟨kd, hkd, rfl⟩)
      obtain ⟨p, hp, heq⟩ := List.mem_map.mp (Dict.mem_of_get? hget)
      simp only [Prod.mk.injEq] at heq
      exact ⟨p, hp, (hname kd hkd p.1).mp heq.1.symm, heq.2 ▸ hconf⟩
    refine ⟨⟨ms, rfl, fun kd hkd => ?_, List.forall_mem_map.mpr hfound⟩, fun p hp => ?_⟩
    · obtain ⟨p, hp, hscalars, -⟩ := hmember kd hkd
      exact ⟨p.1, List.mem_map_of_mem hp, hscalars⟩
    · obtain ⟨kd, hkd, hscalars⟩ := hfound p hp
      obtain ⟨q, hq, hqname, hconf⟩ := hmember kd hkd
      have hsame : q = p := List.inj_on_of_nodup_map hnodup hq hp
        (String.toList_inj.mp (hqname.symm.trans hscalars))
      exact ⟨kd.2, (Doc.member?_obj (names_nodup h.scalarNames)).mpr ⟨kd, hkd, hscalars, rfl⟩, hsame ▸ hconf⟩
  · rintro ⟨⟨ms, hms, hclosed, hfields⟩, hall⟩
    cases doc with
    | obj ms' =>
      cases hms
      have hname : ∀ kd ∈ ms, ∀ name : String, codePoints kd.1 = str name ↔ scalars kd.1 = name.toList :=
        fun kd hkd name => by rw [h.name hkd, str, map_toNat_inj]
      refine ⟨_, ofDoc_eq_obj.mpr ⟨ms, rfl, rfl⟩, fun name hmem => ?_, List.forall_mem_map.mpr fun kd hkd => ?_⟩
      · obtain ⟨kd, hkd, hscalars⟩ := hfields name hmem
        rw [Dict.has_iff, Dict.keys, List.map_map, List.mem_map]
        exact ⟨kd, hkd, (hname kd hkd name).mpr hscalars⟩
      · obtain ⟨field, hfield, hscalars⟩ := hclosed kd hkd
        obtain ⟨p, hp, rfl⟩ := List.mem_map.mp hfield
        obtain ⟨d, hd, hconf⟩ := hall p hp
        rw [(Doc.member?_obj (names_nodup h.scalarNames)).mpr ⟨kd, hkd, hscalars, rfl⟩] at hd
        rw [(hname kd hkd p.1).mpr hscalars]
        exact ⟨p.2, hproperty p hp, Option.some.inj hd ▸ hconf⟩
    | _ => cases hms

/-- A string member that conforms to its node. -/
theorem textAt_iff (h : Clean doc) {name : String} {node : Value} {P : List Char → Prop}
    (hP : ∀ d, Clean d → (Conforms (.ofDoc d) node ↔ ∃ t, d.text? = some t ∧ P t)) :
    (∃ d, doc.member? name = some d ∧ Conforms (.ofDoc d) node) ↔ doc.TextAt name P := by
  rw [Doc.TextAt, Doc.textAt?]
  constructor
  · rintro ⟨d, hd, hconf⟩
    obtain ⟨t, ht, hPt⟩ := (hP d (h.member? hd)).mp hconf
    exact ⟨t, by rw [hd]; exact ht, hPt⟩
  · rintro ⟨t, ht, hPt⟩
    obtain ⟨d, hd, ht⟩ := Option.bind_eq_some_iff.mp ht
    exact ⟨d, hd, (hP d (h.member? hd)).mpr ⟨t, ht, hPt⟩⟩

/-- An array member that conforms to its node. -/
theorem elementsAt_iff (h : Clean doc) {name : String} {node : Value} {P : List (Doc Char) → Prop}
    (hP : ∀ d, Clean d → (Conforms (.ofDoc d) node ↔ ∃ xs, d.elements? = some xs ∧ P xs)) :
    (∃ d, doc.member? name = some d ∧ Conforms (.ofDoc d) node) ↔ doc.ElementsAt name P := by
  rw [Doc.ElementsAt, Doc.elementsAt?]
  constructor
  · rintro ⟨d, hd, hconf⟩
    obtain ⟨xs, hxs, hPxs⟩ := (hP d (h.member? hd)).mp hconf
    exact ⟨xs, by rw [hd]; exact hxs, hPxs⟩
  · rintro ⟨xs, hxs, hPxs⟩
    obtain ⟨d, hd, hxs⟩ := Option.bind_eq_some_iff.mp hxs
    exact ⟨d, hd, (hP d (h.member? hd)).mpr ⟨xs, hxs, hPxs⟩⟩

theorem conforms_const (h : Clean doc) {s : String} :
    Conforms (.ofDoc doc) (constNode s) ↔ ∃ t, doc.text? = some t ∧ t = s.toList := by
  rw [conforms_constNode, ofDoc_eq_text h]
  simp

theorem conforms_identifier (h : Clean doc) : Conforms (.ofDoc doc) (patternNode 128 identifierPattern) ↔
    ∃ t, doc.text? = some t ∧ IsIdentifier t :=
  conforms_pattern h (by rfl) searchIdentifier_iff

end Nodes

/-! ## The request schema -/

section Request

variable {doc : Doc Char}

theorem conforms_message (h : Clean doc) :
    Conforms (.ofDoc doc) (objectNode [] ["role", "content"]
      [("role", enumNode ["user", "assistant"]), ("content", textNode 65536)]) ↔ IsMessage doc := by
  have hrole : ∀ d, Clean d → (Conforms (.ofDoc d) (enumNode ["user", "assistant"]) ↔
      ∃ t, d.text? = some t ∧ (t = "user".toList ∨ t = "assistant".toList)) := by
    intro d hd
    simp only [conforms_enumNode, ofDoc_eq_text hd, List.mem_cons, List.not_mem_nil, or_false]
    constructor
    · rintro ⟨s, rfl | rfl, ht⟩
      · exact ⟨_, ht, .inl rfl⟩
      · exact ⟨_, ht, .inr rfl⟩
    · rintro ⟨t, ht, rfl | rfl⟩
      · exact ⟨_, .inl rfl, ht⟩
      · exact ⟨_, .inr rfl, ht⟩
  refine Iff.trans (conforms_object annotates_nil rfl (by decide) h) ?_
  rw [List.forall_mem_cons, List.forall_mem_singleton, textAt_iff h hrole,
    textAt_iff h fun d hd => conforms_text hd]
  exact ⟨fun ⟨hfields, hr, hc⟩ => ⟨hfields, hr, hc⟩, fun ⟨hfields, hr, hc⟩ => ⟨hfields, hr, hc⟩⟩

theorem conforms_instruction (h : Clean doc) :
    Conforms (.ofDoc doc) (objectNode [] ["source", "content"]
      [("source", patternNode 256 controlSafePattern), ("content", textNode 65536)]) ↔
      IsInstruction doc := by
  have hsource : ∀ d, Clean d → (Conforms (.ofDoc d) (patternNode 256 controlSafePattern) ↔
      ∃ t, d.text? = some t ∧ IsSource t) := fun d hd => conforms_pattern hd (by rfl) searchControlSafe_iff
  refine Iff.trans (conforms_object annotates_nil rfl (by decide) h) ?_
  rw [List.forall_mem_cons, List.forall_mem_singleton, textAt_iff h hsource,
    textAt_iff h fun d hd => conforms_text hd]
  exact ⟨fun ⟨hfields, hs, hc⟩ => ⟨hfields, hs, hc⟩, fun ⟨hfields, hs, hc⟩ => ⟨hfields, hs, hc⟩⟩

theorem conforms_capability (h : Clean doc) :
    Conforms (.ofDoc doc) (enumNode ["tool_calls"]) ↔ IsCapability doc := by
  simp only [conforms_enumNode, ofDoc_eq_text h, List.mem_singleton, exists_eq_left, IsCapability]

/-- The committed request schema says of a document of the strict profile that it is a request. -/
theorem conforms_requestSchema (h : Clean doc) :
    Conforms (.ofDoc doc) requestSchema ↔ IsRequest doc := by
  refine Iff.trans (conforms_object (annotates_rootHead _ _ _) rfl (by decide) h) ?_
  simp only [List.forall_mem_cons, List.not_mem_nil, false_implies, implies_true, and_true]
  rw [textAt_iff h fun d hd => conforms_const hd, textAt_iff h fun d hd => conforms_const hd,
    textAt_iff h fun d hd => conforms_identifier hd, textAt_iff h fun d hd => conforms_identifier hd,
    elementsAt_iff h fun d hd => conforms_array hd fun x hx => conforms_message hx,
    elementsAt_iff h fun d hd => conforms_array hd fun x hx => conforms_instruction hx,
    elementsAt_iff h fun d hd => conforms_array hd fun x hx => conforms_capability hx]
  constructor
  · rintro ⟨hfields, hversion, hkind, hid, halias, ⟨cs, hcs, ⟨hcmin, hcmax⟩, hcall⟩,
      ⟨is, his, ⟨-, himax⟩, hiall⟩, ⟨ps, hps, ⟨-, hpmax⟩, hpall⟩⟩
    exact ⟨hfields, hversion, hkind, hid, halias, ⟨cs, hcs, hcmin, hcmax, hcall⟩, ⟨is, his, himax, hiall⟩,
      ⟨ps, hps, hpmax, hpall⟩⟩
  · rintro ⟨hfields, hversion, hkind, hid, halias, ⟨cs, hcs, hcmin, hcmax, hcall⟩, ⟨is, his, himax, hiall⟩,
      ⟨ps, hps, hpmax, hpall⟩⟩
    exact ⟨hfields, hversion, hkind, hid, halias, ⟨cs, hcs, ⟨hcmin, hcmax⟩, hcall⟩,
      ⟨is, his, ⟨Nat.zero_le _, himax⟩, hiall⟩, ⟨ps, hps, ⟨Nat.zero_le _, hpmax⟩, hpall⟩⟩

/-- A strict document satisfies the committed request schema exactly when it is a request. -/
theorem validateInstance_request (h : StrictProfile doc) :
    validateInstance (.ofDoc doc) requestSchema = .ok [] ↔ IsRequest doc :=
  (validateInstance_nil_iff requestSchema_profile _).trans (conforms_requestSchema (clean_of_profile h))

end Request

/-! ## Agreement -/

/-- On the members of a strict document whose root is an object, the gateway's decoder succeeds
exactly when the contract checker finds no violation of the committed request schema. -/
theorem decodeWireRequest_iff_validateInstance {raw : Bytes} {ms : List (StrLit Char × Doc Char)}
    (h : StrictDocument raw (.obj ms)) {root : RawObject} (hroot : decodeObject raw = some root) :
    (∃ request, decodeWireRequest root = some request) ↔
      validateInstance (.ofDoc (.obj ms)) requestSchema = .ok [] := by
  obtain ⟨_, hms, hmembers⟩ := rootMembers h hroot
  cases hms
  obtain ⟨text, -, -, hprofile⟩ := h
  rw [validateInstance_request hprofile]
  have hdecode := decodeWireRequest_text hmembers (clean_of_profile hprofile).scalarNames
  constructor
  · rintro ⟨request, hrequest⟩
    exact ((hdecode request).mp hrequest).1
  · intro hrequest
    exact ⟨_, (hdecode _).mpr ⟨hrequest, rfl⟩⟩

/-- A short request without instructions. -/
def sampleRequest : Bytes := goString
  ("\x7b\"version\":\"v1\",\"kind\":\"model_turn.request\",\"request_id\":\"r1\",\"model_alias\":" ++
    "\"learning-text\",\"conversation\":[\x7b\"role\":\"user\",\"content\":\"hi\"\x7d]," ++
    "\"instructions\":[],\"required_capabilities\":[]\x7d")

theorem sampleRequest_strict : validateStrictDocument sampleRequest = true := by decide +kernel

theorem sampleRequest_decodes : (decodeObject sampleRequest).bind decodeWireRequest =
    some ⟨goString "r1", supportedAlias, [⟨messageRoleUser, goString "hi"⟩], [], []⟩ := by
  decide +kernel

theorem decodeWireRequest_iff_validateInstance_sample :
    ∃ ms root, StrictDocument sampleRequest (.obj ms) ∧ decodeObject sampleRequest = some root ∧
      ((∃ request, decodeWireRequest root = some request) ↔
        validateInstance (.ofDoc (.obj ms)) requestSchema = .ok []) := by
  obtain ⟨doc, hdoc⟩ := strictDocument_of_validate sampleRequest_strict
  obtain ⟨root, hroot, -⟩ := Option.bind_eq_some_iff.mp sampleRequest_decodes
  obtain ⟨ms, rfl, -⟩ := rootMembers hdoc hroot
  exact ⟨ms, root, hdoc, hroot, decodeWireRequest_iff_validateInstance hdoc hroot⟩

end FastGate.Agreement
