/-
# FastGate.CheckContract.Frozen — one meaning, one verdict

Schema nodes with the same meaning have the same rules (`Rule.holds_of_meaning`), and pointers lead to
nodes with the same meaning again (`At.of_meaning`).  So schemas with the same meaning have the same
valid instances (`valid_of_meaning`), and schemas with the same fingerprint validate the same instances
(`schemaValidationFingerprint_exact`), as long as the hash tells their canonical texts apart.

The hash is a parameter.  That it does not confuse the two texts at hand is a hypothesis of the second
part only; that equal texts are equal meanings needs no hash.

`jsonEqual_equivalence` is the same for plain values: `json_equal` is an equivalence on what is loaded,
it keeps booleans and numbers apart although Python's `==` does not, and it is the equality of the
encodings that go into the hashed text.
-/
import FastGate.CheckContract.Exact
import FastGate.CheckContract.Fingerprint
import FastGate.CheckContract.Written

open FastGate.Json FastGate.Python

namespace FastGate.CheckContract

/-! ## Members of nodes with the same meaning -/

section Same

variable {n n' : Value}

/-- A member of one node is matched by a member of the other. -/
theorem get?_of_meaning (h : meaning n = meaning n') {key : String} (hkey : str key ∉ schemaAnnotations)
    {x' : Value} (hx : n'.get? key = some x') :
    ∃ x, n.get? key = some x ∧ meaningChild (str key) x = meaningChild (str key) x' := by
  cases n' with
  | obj ns =>
    cases n with
    | obj ms =>
      rw [meaning, meaning, Meaning.node.injEq, funext_iff] at h
      have hlookup := h (str key)
      rw [meaning_members, meaning_members, if_neg hkey, if_neg hkey] at hlookup
      rw [Value.get?, Value.dict] at hx
      rw [hx] at hlookup
      exact Option.map_eq_some_iff.mp hlookup
    | _ => simp [meaning] at h
  | _ => cases hx

/-- What follows a keyword is a plain value, unless the keyword has subschemas or an unordered array. -/
theorem data_of_meaning (h : meaning n = meaning n') {key : String}
    (hkey : str key ∉ schemaAnnotations ++ schemaUnorderedArrays ++ [str "properties", str "items"])
    {x' : Value} (hx : n'.get? key = some x') : ∃ x, n.get? key = some x ∧ x.data = x'.data := by
  simp only [List.mem_append, List.mem_cons, List.not_mem_nil, or_false, not_or] at hkey
  obtain ⟨⟨hannotated, hunordered⟩, hproperties, hitems⟩ := hkey
  obtain ⟨x, hget, hmeaning⟩ := get?_of_meaning h hannotated hx
  refine ⟨x, hget, ?_⟩
  rwa [meaningChild, meaningChild, if_neg hproperties, if_neg hitems, if_neg hunordered,
    if_neg hproperties, if_neg hitems, if_neg hunordered, Meaning.plain.injEq] at hmeaning

/-- The items of an unordered array, in any order. -/
theorem unordered_of_meaning (h : meaning n = meaning n') {key : String} (hkey : key ∈ ["required", "enum"])
    {xs' : List Value} (hx : n'.get? key = some (.arr xs')) :
    ∃ xs, n.get? key = some (.arr xs) ∧ ∀ d, d ∈ xs.map Value.data ↔ d ∈ xs'.map Value.data := by
  have hkeys : str key ∉ schemaAnnotations ∧ str key ∈ schemaUnorderedArrays ∧
      str key ≠ str "properties" ∧ str key ≠ str "items" := by
    simp only [List.mem_cons, List.not_mem_nil, or_false] at hkey
    rcases hkey with rfl | rfl <;> decide
  obtain ⟨hannotated, hunordered, hproperties, hitems⟩ := hkeys
  obtain ⟨x, hget, hmeaning⟩ := get?_of_meaning h hannotated hx
  rw [meaningChild, meaningChild, if_neg hproperties, if_neg hitems, if_pos hunordered,
    if_neg hproperties, if_neg hitems, if_pos hunordered] at hmeaning
  cases x with
  | arr xs =>
    rw [meaning.unordered, meaning.unordered, Meaning.unordered.injEq, Multiset.coe_eq_coe] at hmeaning
    exact ⟨xs, hget, fun d => hmeaning.mem_iff⟩
  | _ => simp [meaning.unordered] at hmeaning

/-- The properties have the same names, and schemas with the same meaning. -/
theorem properties_of_meaning (h : meaning n = meaning n') (name : Str) :
    ((propertiesOf n).get? name).map meaning = ((propertiesOf n').get? name).map meaning := by
  have hstep : ∀ {n n' : Value}, meaning n = meaning n' → ∀ {ps' : Dict Value},
      n'.get? "properties" = some (.obj ps') → ∃ ps, n.get? "properties" = some (.obj ps) ∧
        (Dict.get? ps name).map meaning = (Dict.get? ps' name).map meaning := by
    intro n n' h ps' hps
    obtain ⟨x, hget, hmeaning⟩ := get?_of_meaning h (by decide) hps
    rw [meaningChild, meaningChild, if_pos rfl, if_pos rfl] at hmeaning
    cases x with
    | obj ps =>
      rw [meaning.properties, meaning.properties, Meaning.properties.injEq, funext_iff] at hmeaning
      have hname := hmeaning name
      rw [meaning_nodes, meaning_nodes] at hname
      exact ⟨ps, hget, hname⟩
    | _ => simp [meaning.properties] at hmeaning
  by_cases hobj : ∃ ps, n'.get? "properties" = some (.obj ps)
  · obtain ⟨ps', hps'⟩ := hobj
    obtain ⟨ps, hps, heq⟩ := hstep h hps'
    simp only [propertiesOf, hps, hps', heq]
  · by_cases hobj' : ∃ ps, n.get? "properties" = some (.obj ps)
    · obtain ⟨ps, hps⟩ := hobj'
      obtain ⟨ps', hps', -⟩ := hstep h.symm hps
      exact absurd ⟨ps', hps'⟩ hobj
    · have hnone : ∀ {n : Value}, (¬ ∃ ps, n.get? "properties" = some (.obj ps)) →
          propertiesOf n = [] := by
        intro n hn
        rw [propertiesOf]
        split
        · rename_i ps hps
          exact absurd ⟨ps, hps⟩ hn
        · rfl
      rw [hnone hobj, hnone hobj']

theorem eq_str_of_data {v : Value} {s : Str} (h : v.data = (Value.str s).data) : v = .str s := by
  cases v <;> simp [Value.data] at h
  rw [h]

/-! ## Rules -/

/-- Nodes with the same meaning have the same rules. -/
theorem Rule.holds_of_meaning (h : meaning n = meaning n') {value : Value} (rule : Rule)
    (hrule : rule.Holds n value) : rule.Holds n' value := by
  -- a bound keeps its value, however it is spelled
  have hnum : ∀ {key : String} {bound : Decimal}, str key ∉
      schemaAnnotations ++ schemaUnorderedArrays ++ [str "properties", str "items"] →
      n'.get? key = some (.num bound) → ∃ b, n.get? key = some (.num b) ∧ b.value = bound.value := by
    intro key bound hkey hget
    obtain ⟨x, hx, hdata⟩ := data_of_meaning h hkey hget
    cases x <;> simp [Value.data] at hdata
    exact ⟨_, hx, hdata⟩
  have hstr : ∀ {key : String} {s : Str}, str key ∉
      schemaAnnotations ++ schemaUnorderedArrays ++ [str "properties", str "items"] →
      n'.get? key = some (.str s) → n.get? key = some (.str s) := by
    intro key s hkey hget
    obtain ⟨x, hx, hdata⟩ := data_of_meaning h hkey hget
    rw [hx, eq_str_of_data hdata]
  -- every rule reads only what the meaning of the node keeps
  cases rule with
  | type => exact fun name hname => hrule name (hstr (by decide) hname)
  | enum =>
    intro items hitems
    obtain ⟨xs, hxs, hdata⟩ := unordered_of_meaning h (by simp) hitems
    obtain ⟨item, hitem, heq⟩ := hrule xs hxs
    obtain ⟨item', hitem', heq'⟩ := List.mem_map.mp ((hdata _).mp (List.mem_map_of_mem hitem))
    exact ⟨item', hitem', heq.trans heq'.symm⟩
  | const =>
    intro c hc
    obtain ⟨x, hx, hdata⟩ := data_of_meaning h (by decide) hc
    exact (hrule x hx).trans hdata
  | required =>
    intro names ms hnames hms name hname
    obtain ⟨xs, hxs, hdata⟩ := unordered_of_meaning h (by simp) hnames
    obtain ⟨x, hx, heq⟩ := List.mem_map.mp ((hdata _).mpr (List.mem_map_of_mem hname))
    exact hrule xs ms hxs hms name (eq_str_of_data heq ▸ hx)
  | additionalProperties =>
    intro ms hclosed hms name hname
    obtain ⟨x, hx, hdata⟩ := data_of_meaning h (by decide) hclosed
    have hx : n.get? "additionalProperties" = some (.bool false) := by
      cases x <;> simp [Value.data] at hdata
      rw [hx, hdata]
    have hmem := hrule ms hx hms name hname
    rw [← Dict.has_iff, Dict.has_iff_get?] at hmem ⊢
    obtain ⟨property, hproperty⟩ := hmem
    have hsame := properties_of_meaning h name
    rw [hproperty] at hsame
    obtain ⟨property', hproperty', -⟩ := Option.map_eq_some_iff.mp hsame.symm
    exact ⟨property', hproperty'⟩
  | pattern => exact fun p r s hp hr hs => hrule p r s (hstr (by decide) hp) hr hs
  | minItems =>
    intro bound xs hbound hxs
    obtain ⟨b, hb, hvalue⟩ := hnum (by decide) hbound
    exact hvalue ▸ hrule b xs hb hxs
  | maxItems =>
    intro bound xs hbound hxs
    obtain ⟨b, hb, hvalue⟩ := hnum (by decide) hbound
    exact hvalue ▸ hrule b xs hb hxs
  | minLength =>
    intro bound s hbound hs
    obtain ⟨b, hb, hvalue⟩ := hnum (by decide) hbound
    exact hvalue ▸ hrule b s hb hs
  | maxLength =>
    intro bound s hbound hs
    obtain ⟨b, hb, hvalue⟩ := hnum (by decide) hbound
    exact hvalue ▸ hrule b s hb hs
  | minimum =>
    intro bound d hbound hd
    obtain ⟨b, hb, hvalue⟩ := hnum (by decide) hbound
    exact hvalue ▸ hrule b d hb hd
  | maximum =>
    intro bound d hbound hd
    obtain ⟨b, hb, hvalue⟩ := hnum (by decide) hbound
    exact hvalue ▸ hrule b d hb hd

/-- A pointer that leads to a node of one schema leads to a node of the other with the same meaning. -/
theorem At.of_meaning {value v m : Value} {tokens : List Str} (hat : At value n tokens v m) :
    ∀ {n' : Value}, meaning n = meaning n' → ∃ m', At value n' tokens v m' ∧ meaning m = meaning m' := by
  induction hat with
  | here => exact fun {n'} h => ⟨n', .here, h⟩
  | @member ms node child property v m name tokens hmem hproperty _ ih =>
    intro n' h
    have hsame := properties_of_meaning h name
    rw [hproperty] at hsame
    obtain ⟨property', hproperty', heq⟩ := Option.map_eq_some_iff.mp hsame.symm
    obtain ⟨m', hat', hm'⟩ := ih heq.symm
    exact ⟨m', .member hmem hproperty' hat', hm'⟩
  | element hitem hitems _ ih =>
    intro n' h
    obtain ⟨items', hitems', heq⟩ := get?_of_meaning h.symm (by decide) hitems
    obtain ⟨m', hat', hm'⟩ := ih heq.symm
    exact ⟨m', .element hitem hitems' hat', hm'⟩

/-- Schemas with the same meaning have the same valid instances. -/
theorem valid_of_meaning (h : meaning n = meaning n') {value : Value} (hvalid : Valid value n) :
    Valid value n' := by
  intro tokens v m hat rule
  obtain ⟨m', hat', hm'⟩ := hat.of_meaning h.symm
  exact Rule.holds_of_meaning hm'.symm rule (hvalid tokens v m' hat' rule)

end Same

/-! ## One notion of equality -/

/-- A value that `strict_json` returns for some file. -/
def Loads (rt : Runtime) (v : Value) : Prop := ∃ file, strictJson rt file = .ok v

theorem Loads.keyed {rt : Runtime} {v : Value} (h : Loads rt v) : v.Keyed := by
  obtain ⟨file, hfile⟩ := h
  exact (loaded_of_strictJson hfile).1

/-- `json_equal` is an equivalence on loaded values.  It keeps booleans and numbers apart, compares
numbers by what they are worth, and it is the equality of the encodings that are hashed. -/
theorem jsonEqual_equivalence (rt : Runtime) {a b c : Value} (ha : Loads rt a) (hb : Loads rt b)
    (hc : Loads rt c) :
    jsonEqual a a = true ∧ jsonEqual a b = jsonEqual b a ∧
      (jsonEqual a b = true → jsonEqual b c = true → jsonEqual a c = true) ∧
      (∀ p d, jsonEqual (.bool p) (.num d) = false ∧ jsonEqual (.num d) (.bool p) = false) ∧
      (∀ d e, jsonEqual (.num d) (.num e) = true ↔ d.value = e.value) ∧
      (jsonEqual a b = true ↔ encode a = encode b) := by
  have hiff : ∀ {v w : Value}, Loads rt v → Loads rt w → (jsonEqual v w = true ↔ v.data = w.data) :=
    fun hv hw => jsonEqual_iff_data _ hv.keyed hw.keyed
  refine ⟨(hiff ha ha).mpr rfl, ?_, fun hab hbc => ?_, fun p d => ⟨rfl, rfl⟩, fun d e => ?_, ?_⟩
  · rw [Bool.eq_iff_iff, hiff ha hb, hiff hb ha]
    exact eq_comm
  · have hdata := ((hiff ha hb).mp hab).trans ((hiff hb hc).mp hbc)
    exact (hiff ha hc).mpr hdata
  · show d.eqValue e = true ↔ _
    exact Decimal.eqValue_iff d e
  · rw [hiff ha hb, encode_eq_iff a ha.keyed hb.keyed]

/-- A number, a boolean and a string. -/
theorem jsonEqual_equivalence_sample :
    let a : Value := natNode 1
    let b : Value := .bool true
    let c : Value := text "1"
    jsonEqual a a = true ∧ jsonEqual a b = jsonEqual b a ∧
      (jsonEqual a b = true → jsonEqual b c = true → jsonEqual a c = true) ∧
      (∀ p d, jsonEqual (.bool p) (.num d) = false ∧ jsonEqual (.num d) (.bool p) = false) ∧
      (∀ d e, jsonEqual (.num d) (.num e) = true ↔ d.value = e.value) ∧
      (jsonEqual a b = true ↔ encode a = encode b) := by
  have hloads : ∀ {v : Value}, writable v = true → (writeDoc v).nesting ≤ maxNestingDepth →
      (written v).length ≤ maxJSONBytes → Loads default v := fun h hnesting hsize =>
    ⟨some (written _), strictJson_written (by decide) (fun _ => rfl) h hnesting hsize⟩
  exact jsonEqual_equivalence default (hloads (by decide) (by decide) (by decide))
    (hloads (by decide) (by decide) (by decide)) (hloads (by decide) (by decide) (by decide))

/-! ## Fingerprints -/

/-- For schemas without issues the hashed text locks the meaning and nothing else, and schemas with
equal fingerprints accept the same instances unless the hash confuses their texts. -/
theorem schemaValidationFingerprint_exact (rt : Runtime) {file file' : Option Utf8.Bytes} {s t : Value}
    (hs : strictJson rt file = .ok s) (ht : strictJson rt file' = .ok t)
    (issuesS : schemaIssues rt s = []) (issuesT : schemaIssues rt t = []) :
    (canonicalText s = canonicalText t ↔ meaning s = meaning t) ∧
      ((rt.sha256 (Utf8.encode (canonicalText s)) = rt.sha256 (Utf8.encode (canonicalText t)) →
          Utf8.encode (canonicalText s) = Utf8.encode (canonicalText t)) →
        schemaValidationFingerprint rt s = schemaValidationFingerprint rt t →
        ∀ value : Value, value.Keyed → ∃ violations violations',
          validateInstance value s = .ok violations ∧ validateInstance value t = .ok violations' ∧
            (violations = [] ↔ violations' = [])) := by
  obtain ⟨hkeyedS, hscalarS⟩ := loaded_of_strictJson hs
  obtain ⟨hkeyedT, hscalarT⟩ := loaded_of_strictJson ht
  have htexts := canonicalText_eq_iff hkeyedS hkeyedT hscalarS hscalarT
  refine ⟨htexts, fun hcollision hfingerprints value hvalue => ?_⟩
  have hmeaning := htexts.mp (Utf8.encode_injective (hcollision hfingerprints))
  obtain ⟨violations, hviolations, hnil, -⟩ := validateInstance_exact rt issuesS hkeyedS hvalue
  obtain ⟨violations', hviolations', hnil', -⟩ := validateInstance_exact rt issuesT hkeyedT hvalue
  refine ⟨violations, violations', hviolations, hviolations', ?_⟩
  rw [hnil, hnil']
  exact ⟨valid_of_meaning hmeaning, valid_of_meaning hmeaning.symm⟩

/-- A schema, and the same one in another order and with a title. -/
def flagSchema : Value :=
  .obj [(str "$schema", .str (str schemaUri)), (str "$id", .str (str "flag")),
    (str "type", .str (str "boolean"))]

/-- The members of `flagSchema` in another order, with an annotation. -/
def titledFlagSchema : Value :=
  .obj [(str "type", .str (str "boolean")), (str "title", .str (str "A flag")),
    (str "$id", .str (str "flag")), (str "$schema", .str (str schemaUri))]

/-- A runtime whose hash forgets nothing. -/
def exactRuntime : Runtime := { (default : Runtime) with sha256 := fun bytes => bytes.map UInt8.toNat }

/-- The order of the members and the title do not matter. -/
theorem schemaValidationFingerprint_exact_sample :
    (canonicalText flagSchema = canonicalText titledFlagSchema ↔
      meaning flagSchema = meaning titledFlagSchema) ∧
    ∀ value : Value, value.Keyed → ∃ violations violations',
      validateInstance value flagSchema = .ok violations ∧
        validateInstance value titledFlagSchema = .ok violations' ∧
          (violations = [] ↔ violations' = []) := by
  have htexts : canonicalText flagSchema = canonicalText titledFlagSchema := by
    decide
  have hloads : ∀ {v : Value}, writable v = true → (writeDoc v).nesting ≤ maxNestingDepth →
      (written v).length ≤ maxJSONBytes → strictJson exactRuntime (some (written v)) = .ok v :=
    fun h hnesting hsize => strictJson_written (by decide) (fun _ => rfl) h hnesting hsize
  have hflag : strictJson exactRuntime (some (written flagSchema)) = .ok flagSchema :=
    hloads (by decide) (by decide +kernel) (by decide)
  have htitled : strictJson exactRuntime (some (written titledFlagSchema)) = .ok titledFlagSchema :=
    hloads (by decide) (by decide +kernel) (by decide)
  obtain ⟨hiff, hverdict⟩ := schemaValidationFingerprint_exact exactRuntime hflag htitled (by decide)
    (by decide +kernel)
  exact ⟨hiff, hverdict (fun _ => congrArg Utf8.encode htexts)
    (congrArg (fun text => exactRuntime.sha256 (Utf8.encode text)) htexts)⟩

end FastGate.CheckContract
