/-
# FastGate.CheckContract.Masking — the intended rule among others

An invalid case passes when the violation it declares is one of those that `validate_instance` returns.
It returns the first 25, so a rule that is broken after 25 others counts as not broken:
`checkCase_mismatch_iff` says when a case that declares a broken rule is reported as a mismatch.

* `InvalidCase` is a case that is in order up to its verdict: its name, its paths and its declared
  violation are as they should be.  `checkCase_of_invalidCase` says that it gets as far as its fixture.
* `judge_mismatch_iff` is the judgement alone: no mismatch is reported exactly if the declared violation
  is among those that were returned.
* `crowdedDocument` breaks the rule its case declares and is reported all the same, since 25 violations
  come before it.
-/
import FastGate.CheckContract.Pointer
import FastGate.CheckContract.Written

open FastGate.Python

namespace FastGate.CheckContract

/-! ## Cases that declare a rule -/

/-- An invalid case that names a canonical schema, a fixture, and the violation it is meant to show. -/
structure InvalidCase (tree : Tree) (item : Value) (schemaPath fixturePath : Path)
    (declared : Violation) : Prop where
  fields : hasCaseFields item = true
  valid : item.get? "valid" = some (.bool false)
  schema : safeFile tree ((item.get? "schema").getD .null) (path ["schema"]) = .ok schemaPath
  canonical : schemaPath ∈ canonicalSchemas.map (·.path)
  fixture : safeFile tree ((item.get? "fixture").getD .null) (fixtureDirectory false) = .ok fixturePath
  expected : ∃ e, item.get? "expected" = some (.obj e) ∧
    Dict.get? e (str "keyword") = some (.str declared.keyword) ∧
    Dict.get? e (str "instance_path") = some (.str declared.instancePath) ∧
    ∀ key ∈ Dict.keys e, key ∈ ["keyword", "instance_path"].map str

/-- The label of the messages about a case. -/
def caseLabel (seen : Seen) (index : Nat) (item : Value) : Str :=
  (checkName (str "case[" ++ decimalText index ++ str "]") ((item.get? "name").getD .null) seen.names).1

/-- The message reports a mismatch. -/
def IsMismatch (label message : Str) : Prop :=
  ∃ observed, message = label ++ str ": intended rule mismatch; observed " ++ observed

theorem not_isMismatch {label : Str} {said : String}
    (h : ¬ str ": intended rule mismatch; observed " <+: str said) :
    ¬ IsMismatch label (label ++ str said) := by
  rintro ⟨observed, heq⟩
  rw [List.append_assoc] at heq
  exact h ⟨observed, (List.append_cancel_left heq).symm⟩

section Declared

variable {rt : Runtime} {tree : Tree} {schemas : Schemas} {item : Value} {schemaPath fixturePath : Path}

theorem readExpected_of_rule {tokens : List Str} {rule : Rule}
    (h : InvalidCase tree item schemaPath fixturePath ⟨str rule.keyword, pointer tokens⟩) (label : Str) :
    readExpected label false item = (some ⟨str rule.keyword, pointer tokens⟩, []) := by
  obtain ⟨e, he, hkeyword, hpath, hkeys⟩ := h.expected
  have hall : ((Dict.keys e).all fun key => key ∈ ["keyword", "instance_path"].map str) = true :=
    List.all_eq_true.mpr fun key hkey => decide_eq_true (hkeys key hkey)
  have hsupported : str rule.keyword ∈ (supportedKeywords ++ ["json"]).map str :=
    List.mem_map_of_mem (List.mem_append_left _ (keyword_supported rule))
  unfold readExpected
  rw [if_neg Bool.false_ne_true, he]
  dsimp only
  rw [hkeyword, hpath]
  dsimp only
  rw [if_pos hall, if_pos ⟨hsupported, isPointer_pointer tokens⟩]

/-- Neither the name nor the meaning of a case leads to a mismatch. -/
theorem checkName_not_mismatch (label : Str) (name : Value) (names : List Str) :
    ∀ e ∈ (checkName label name names).2.2, ¬ IsMismatch (checkName label name names).1 e := by
  unfold checkName
  split
  · split
    · dsimp only
      split
      · exact List.forall_mem_singleton.mpr (not_isMismatch (by decide))
      · exact List.forall_mem_nil _
    · exact List.forall_mem_singleton.mpr (not_isMismatch (by decide))
  · exact List.forall_mem_singleton.mpr (not_isMismatch (by decide))

theorem checkMeaning_not_mismatch (label : Str) (item : Value) :
    ∀ e ∈ checkMeaning label item, ¬ IsMismatch label e := by
  unfold checkMeaning
  split
  · exact List.forall_mem_nil _
  · exact List.forall_mem_nil _
  · exact List.forall_mem_singleton.mpr (not_isMismatch (by decide))

/-- A case that declares a rule is classified by `checkFixture`, and nothing before that reports a
mismatch. -/
theorem checkCase_of_invalidCase {tokens : List Str} {rule : Rule} {schema : Value} {verdict : List Str}
    (h : InvalidCase tree item schemaPath fixturePath ⟨str rule.keyword, pointer tokens⟩)
    (hschema : schemas.get schemaPath = some schema) (seen : Seen) (index : Nat)
    (hverdict : checkFixture rt (caseLabel seen index item) false
      (some ⟨str rule.keyword, pointer tokens⟩) (tree.read fixturePath) schema = .ok verdict) :
    ∃ seen' errors, checkCase rt tree schemas seen index item = .ok (seen', errors ++ verdict) ∧
      ∀ e ∈ errors, ¬ IsMismatch (caseLabel seen index item) e := by
  rw [caseLabel] at hverdict
  have hname := checkName_not_mismatch (str "case[" ++ decimalText index ++ str "]")
    ((item.get? "name").getD .null) seen.names
  unfold checkCase caseLabel
  dsimp only
  rw [h.fields, h.valid, h.schema]
  generalize checkName (str "case[" ++ decimalText index ++ str "]")
    ((item.get? "name").getD .null) seen.names = named at hverdict hname ⊢
  obtain ⟨label, names, nameErrors⟩ := named
  dsimp only at hverdict hname ⊢
  rw [Bool.not_true, if_neg Bool.false_ne_true, readExpected_of_rule h, h.fixture]
  dsimp only [pathErrors]
  unfold checkResolved
  rw [if_neg (not_not_intro h.canonical)]
  dsimp only
  rw [hschema]
  dsimp only
  rw [hverdict]
  refine ⟨_, _, rfl, ?_⟩
  simp only [List.append_nil, List.forall_mem_append]
  refine ⟨⟨hname, checkMeaning_not_mismatch label item⟩, ?_⟩
  split
  · exact List.forall_mem_singleton.mpr (not_isMismatch (by decide))
  · exact List.forall_mem_nil _

/-- The classification of a fixture with a violation: a mismatch when the declared one is not among
those that were returned. -/
theorem judge_mismatch_iff (label : Str) {declared : Violation} {violations : List Violation}
    (h : violations ≠ []) :
    (∀ e ∈ judge rt label false (some declared) violations, ¬ IsMismatch label e) ↔
      declared ∈ violations := by
  cases violations with
  | nil => exact absurd rfl h
  | cons first others =>
    rw [judge]
    split
    · rename_i hmem
      exact iff_of_true (List.forall_mem_nil _) hmem
    · rename_i hno
      exact iff_of_false (fun hall => hall _ (List.mem_singleton_self _) ⟨_, rfl⟩) hno

/-- A case that declares a rule its fixture breaks is not reported as a mismatch exactly when fewer than
25 violations of the fixture come before that one, in the order in which the validator finds them. -/
theorem checkCase_mismatch_iff {tokens : List Str} {rule : Rule} {schema document : Value}
    (hcase : InvalidCase tree item schemaPath fixturePath ⟨str rule.keyword, pointer tokens⟩)
    (hschema : schemas.get schemaPath = some schema)
    (hschemaLoad : strictJson rt (tree.read schemaPath) = .ok schema)
    (hissues : schemaIssues rt schema = [])
    (hload : strictJson rt (tree.read fixturePath) = .ok document)
    (hbroken : Broken document schema tokens rule) (seen : Seen) (index : Nat) :
    ∃ seen' errors, checkCase rt tree schemas seen index item = .ok (seen', errors) ∧
      ((∀ e ∈ errors, ¬ IsMismatch (caseLabel seen index item) e) ↔
        (violationsAt document schema []).idxOf ⟨str rule.keyword, pointer tokens⟩ < maxViolations) := by
  obtain ⟨hkeyed, -⟩ := loaded_of_strictJson hschemaLoad
  obtain ⟨hkeyedDocument, -⟩ := loaded_of_strictJson hload
  have hprofile := (schemaIssues_nil_iff rt schema).mp hissues
  have hmem : ⟨str rule.keyword, pointer tokens⟩ ∈ violationsAt document schema [] :=
    (mem_violationsAt_iff document hprofile hkeyed hkeyedDocument).mpr ⟨tokens, rule, hbroken, rfl⟩
  have hfirst : (violationsAt document schema []).take maxViolations ≠ [] := by
    rw [Ne, List.take_eq_nil_iff, not_or]
    exact ⟨by decide, List.ne_nil_of_mem hmem⟩
  -- the fixture is judged by the violations up to the cap
  have hverdict : checkFixture rt (caseLabel seen index item) false
      (some ⟨str rule.keyword, pointer tokens⟩) (tree.read fixturePath) schema =
        .ok (judge rt (caseLabel seen index item) false (some ⟨str rule.keyword, pointer tokens⟩)
          ((violationsAt document schema []).take maxViolations)) := by
    unfold checkFixture
    rw [hload]
    dsimp only
    rw [validateInstance_eq hprofile]
    rfl
  obtain ⟨seen', errors, hrun, herrors⟩ := checkCase_of_invalidCase hcase hschema seen index hverdict
  refine ⟨seen', _, hrun, ?_⟩
  rw [List.forall_mem_append, judge_mismatch_iff _ hfirst, List.mem_take_iff_idxOf_lt hmem]
  exact and_iff_right herrors

end Declared

/-! ## A fixture with one wrong version -/

/-- The case whose fixture has the wrong version. -/
def versionCase : Value :=
  object [("name", text "wrong-version"), ("schema", text "schema/request.schema.json"),
    ("fixture", text "fixtures/invalid/version.json"), ("valid", .bool false),
    ("expected", object [("keyword", text "const"), ("instance_path", text "/version")])]

/-- Where the only fixture is. -/
def versionFixture : Path := path ["fixtures", "invalid", "version.json"]

/-- The request schema, and the document as a fixture. -/
def versionTree (document : Value) : Tree where
  files := [(requestCanonical.path, written requestSchema), (versionFixture, written document)]
  distinct := by
    show [requestCanonical.path, versionFixture].Nodup
    decide
  leaves := by
    show ∀ p ∈ [requestCanonical.path, versionFixture], ∀ q ∈ [requestCanonical.path, versionFixture],
      p <+: q → p = q
    decide

/-- What is loaded when only the request schema is there. -/
def versionSchemas : Schemas := [(requestCanonical.path, some requestSchema)]

/-- `repr` of a text without quotes. -/
def quotingRuntime : Runtime := { (default : Runtime) with repr := fun s => str "'" ++ s ++ str "'" }

theorem versionCase_invalid (document : Value) :
    InvalidCase (versionTree document) versionCase requestCanonical.path versionFixture
      ⟨str "const", pointer [str "version"]⟩ where
  fields := by decide
  valid := rfl
  schema := rfl
  canonical := by decide
  fixture := rfl
  expected := ⟨_, rfl, rfl, rfl, by decide⟩

/-- A request with another version breaks the `const` rule. -/
theorem broken_version {ms : Dict Value} (h : Dict.get? ms (str "version") = some (text "v2")) :
    Broken (.obj ms) requestSchema [str "version"] .const := by
  have hdata : (text "v2").data ≠ (text "v1").data := by
    rw [text, text, Value.data, Value.data, Ne, Data.str.injEq]
    decide
  refine ⟨text "v2", constNode "v1", .member (Dict.mem_of_get? h) rfl .here, fun hconst => ?_, fun _ => ?_⟩
  · exact hdata (hconst _ rfl)
  · intro name hname
    rw [constNode, get?_object_cons, if_pos rfl, text, Option.some.injEq, Value.str.injEq,
      str_injective.eq_iff] at hname
    exact hname.symm

/-- The other version, and nothing else. -/
def versionDocument : Value := object [("version", text "v2")]

/-- The six missing members come before the version, which is still reported: there is no mismatch. -/
theorem checkCase_mismatch_iff_sample : ∃ seen errors,
    checkCase quotingRuntime (versionTree versionDocument) versionSchemas .empty 0 versionCase =
      .ok (seen, errors) ∧ ∀ e ∈ errors, ¬ IsMismatch (caseLabel .empty 0 versionCase) e := by
  have hload : strictJson quotingRuntime ((versionTree versionDocument).read versionFixture) =
      .ok versionDocument :=
    strictJson_written (by decide) (fun _ => rfl) (by decide) (by decide)
      (by decide)
  have hschema : strictJson quotingRuntime ((versionTree versionDocument).read requestCanonical.path) =
      .ok requestSchema := strictJson_requestSchema (by decide) fun _ => rfl
  have hissues : schemaIssues quotingRuntime requestSchema = [] :=
    (schemaIssues_nil_iff _ _).mpr requestSchema_profile
  have hlisted : (violationsAt versionDocument requestSchema []).idxOf
      ⟨str Rule.const.keyword, pointer [str "version"]⟩ < maxViolations := by
    have hreported : validateInstance versionDocument requestSchema =
        .ok (List.replicate 6 ⟨str "required", []⟩ ++ [⟨str "const", str "/version"⟩]) := by decide +kernel
    rw [validateInstance_eq requestSchema_profile, Except.ok.injEq] at hreported
    have hmem : ⟨str Rule.const.keyword, pointer [str "version"]⟩ ∈
        (violationsAt versionDocument requestSchema []).take maxViolations := by
      rw [hreported]
      exact List.mem_append_right _ (.head _)
    exact (List.mem_take_iff_idxOf_lt (List.mem_of_mem_take hmem)).mp hmem
  have hget : versionSchemas.get requestCanonical.path = some requestSchema := rfl
  have hbroken : Broken versionDocument requestSchema [str "version"] .const := broken_version rfl
  obtain ⟨seen, errors, hcase, hmismatch⟩ := checkCase_mismatch_iff (versionCase_invalid _) hget hschema
    hissues hload hbroken .empty 0
  exact ⟨seen, errors, hcase, hmismatch.mpr hlisted⟩

/-- Nineteen unknown members before the version: with the six missing ones, 25 violations. -/
def crowdedDocument : Value :=
  object (("abcdefghijklmnopqrs".toList.map fun c => (c.toString, .null)) ++ [("version", text "v2")])

/-- The version is wrong and the case says so, but it is reported as a mismatch. -/
theorem crowded_mismatch :
    InvalidCase (versionTree crowdedDocument) versionCase requestCanonical.path versionFixture
      ⟨str Rule.const.keyword, pointer [str "version"]⟩ ∧
    strictJson quotingRuntime ((versionTree crowdedDocument).read requestCanonical.path) =
      .ok requestSchema ∧ schemaIssues quotingRuntime requestSchema = [] ∧
    strictJson quotingRuntime ((versionTree crowdedDocument).read versionFixture) = .ok crowdedDocument ∧
    Broken crowdedDocument requestSchema [str "version"] .const ∧
    ∃ seen, checkCase quotingRuntime (versionTree crowdedDocument) versionSchemas .empty 0 versionCase =
      .ok (seen, [str "wrong-version: intended rule mismatch; observed required at ''"]) := by
  have hload : strictJson quotingRuntime ((versionTree crowdedDocument).read versionFixture) =
      .ok crowdedDocument :=
    strictJson_written (by decide) (fun _ => rfl) (by decide +kernel) (by decide +kernel)
      (by decide +kernel)
  have hschema : strictJson quotingRuntime ((versionTree crowdedDocument).read requestCanonical.path) =
      .ok requestSchema := strictJson_requestSchema (by decide) fun _ => rfl
  have hrun : checkCase quotingRuntime (versionTree crowdedDocument) versionSchemas .empty 0 versionCase =
      .ok (⟨[str "wrong-version"], [versionFixture], [(requestCanonical.path, false)]⟩,
        [str "wrong-version: intended rule mismatch; observed required at ''"]) := by
    decide +kernel
  exact ⟨versionCase_invalid _, hschema, (schemaIssues_nil_iff _ _).mpr requestSchema_profile, hload,
    broken_version rfl, _, hrun⟩

end FastGate.CheckContract
