/-
# FastGate.CheckContract.Sound — what an empty list of errors means

Every stage of a case either goes on or has recorded an error, so a run without errors went through all
of them for every case (`checkCases_ok`).  From this follows what `check_contract` promises about the
tree (`checkContract_sound`):

* the schema directory holds the three canonical files and nothing else, each without issues and with
  its frozen fingerprint;
* every file below the fixtures belongs to exactly one case, and every case to one file in the directory
  of its verdict;
* every valid fixture is a document that its schema accepts, and every invalid one exhibits the
  violation that its case declares;
* every schema has a valid and an invalid case.

`Sound` is the list of these.  `CaseOk` is what one case without errors has gone through, and `Seen.add`
what it leaves behind; the loop over the cases is an induction over the two.

The sample at the end is a small contract that passes, so the theorem is not about nothing.
-/
import FastGate.CheckContract.Contract
import FastGate.CheckContract.Exact
import FastGate.CheckContract.Written

open FastGate.Json FastGate.Python
open FastGate.Utf8 (Bytes)

namespace FastGate.CheckContract

/-! ## Cases -/

/-- A case of the manifest. -/
structure ManifestCase where
  name : Str
  schema : Path
  fixture : Path
  valid : Bool
  expected : Option Violation

/-- The value spells the case.  Exactly the invalid cases expect a violation. -/
structure ManifestCase.Reads (item : Value) (c : ManifestCase) : Prop where
  name : item.get? "name" = some (.str c.name)
  schema : item.get? "schema" = some (.str (asPosix c.schema))
  fixture : item.get? "fixture" = some (.str (asPosix c.fixture))
  valid : item.get? "valid" = some (.bool c.valid)
  expected : c.valid = false → ∃ violation expected, c.expected = some violation ∧
    item.get? "expected" = some expected ∧ expected.get? "keyword" = some (.str violation.keyword) ∧
    expected.get? "instance_path" = some (.str violation.instancePath)

/-- A fixture shows a violation: as a normative parse failure, or by a rule that is broken at the
pointer. -/
inductive Exhibits (rt : Runtime) (raw : Bytes) (schema : Value) : Violation → Prop
  | json (message : Str) : strictJson rt (some raw) = .error (.document message) →
      (∀ doc, ¬ NormativeDocument raw doc) → Exhibits rt raw schema ⟨str "json", []⟩
  | rule (document : Value) (tokens : List Str) (rule : Rule) :
      strictJson rt (some raw) = .ok document → Broken document schema tokens rule →
      Exhibits rt raw schema ⟨str rule.keyword, pointer tokens⟩

section Stages

variable {rt : Runtime} {tree : Tree} {schemas : Schemas} {label : Str}

theorem checkName_ok {name : Value} {names : List Str} (h : (checkName label name names).2.2 = []) :
    ∃ text, name = .str text ∧ text ∉ names ∧
      checkName label name names = (text, names ++ [text], []) := by
  unfold checkName at h ⊢
  split at h
  · rename_i text
    split at h
    · rename_i hslug
      split at h
      · cases h
      · rename_i hnew
        exact ⟨text, rfl, hnew, by simp [hslug, hnew]⟩
    · cases h
  · cases h

theorem readExpected_ok {item : Value} (h : (readExpected label false item).2 = []) :
    ∃ violation expected, (readExpected label false item).1 = some violation ∧
      item.get? "expected" = some expected ∧ expected.get? "keyword" = some (.str violation.keyword) ∧
      expected.get? "instance_path" = some (.str violation.instancePath) := by
  unfold readExpected at h ⊢
  rw [if_neg Bool.false_ne_true] at h ⊢
  split at h
  · rename_i expected hexpected
    split at h
    · rename_i keyword instancePath hkeyword hpath
      split at h
      · rename_i hkeys
        split at h
        · rename_i keyword instancePath
          split at h
          · rename_i hvalid
            refine ⟨⟨keyword, instancePath⟩, .obj expected, ?_, hexpected, hkeyword, hpath⟩
            rw [if_pos hkeys, if_pos hvalid]
          · cases h
        · cases h
      · cases h
    · cases h
  · cases h

/-- A case that adds no errors. -/
structure CaseOk (rt : Runtime) (tree : Tree) (schemas : Schemas) (item : Value) (c : ManifestCase) :
    Prop where
  reads : c.Reads item
  schema : c.schema ∈ canonicalSchemas.map (·.path)
  directory : fixtureDirectory c.valid <+: c.fixture
  file : c.fixture ∈ tree.paths
  verdict : ∃ label schema, schemas.get c.schema = some schema ∧
    checkFixture rt label c.valid c.expected (tree.read c.fixture) schema = .ok []

/-- What a case leaves behind for the cases after it. -/
def Seen.add (seen : Seen) (c : ManifestCase) : Seen :=
  ⟨seen.names ++ [c.name], seen.fixtures ++ [c.fixture], seen.coverage ++ [(c.schema, c.valid)]⟩

theorem checkResolved_ok {seen seen' : Seen} {valid : Bool} {expected : Option Violation}
    {errors : List Str} {schemaPath fixturePath : Path}
    (hschemas : ∀ c ∈ canonicalSchemas, ∃ v, schemas.get c.path = some v)
    (h : checkResolved rt tree schemas seen label valid expected errors schemaPath fixturePath =
      .ok (seen', [])) :
    errors = [] ∧ schemaPath ∈ canonicalSchemas.map (·.path) ∧ fixturePath ∉ seen.fixtures ∧
      seen' = ⟨seen.names, seen.fixtures ++ [fixturePath], seen.coverage ++ [(schemaPath, valid)]⟩ ∧
      ∃ schema, schemas.get schemaPath = some schema ∧
        checkFixture rt label valid expected (tree.read fixturePath) schema = .ok [] := by
  unfold checkResolved at h
  split at h
  · simp at h
  rename_i hcanonical
  rw [not_not] at hcanonical
  obtain ⟨c, hc, hpath⟩ := List.mem_map.mp hcanonical
  obtain ⟨schema, hschema⟩ := hschemas c hc
  rw [hpath] at hschema
  simp only [hschema] at h
  obtain ⟨verdict, hverdict, h⟩ := bind_ok_iff.mp h
  simp only [pure, Except.pure, Except.ok.injEq, Prod.mk.injEq, List.append_eq_nil_iff] at h
  obtain ⟨hseen, ⟨herrors, hnew⟩, rfl⟩ := h
  refine ⟨herrors, hcanonical, fun hmem => ?_, hseen.symm, schema, hschema, hverdict⟩
  rw [if_pos hmem] at hnew
  cases hnew

/-- A case without errors went through every stage, once its schema was loaded. -/
theorem checkCase_ok {seen seen' : Seen} {index : Nat} {item : Value}
    (hschemas : ∀ c ∈ canonicalSchemas, ∃ v, schemas.get c.path = some v)
    (h : checkCase rt tree schemas seen index item = .ok (seen', [])) :
    ∃ c, CaseOk rt tree schemas item c ∧ c.name ∉ seen.names ∧ c.fixture ∉ seen.fixtures ∧
      seen' = seen.add c := by
  unfold checkCase at h
  dsimp only at h
  split at h
  · cases h
  -- the results of the stages get names before their errors are taken apart
  generalize hname : checkName (str "case[" ++ decimalText index ++ str "]")
    ((item.get? "name").getD .null) seen.names = named at h
  obtain ⟨label, names, nameErrors⟩ := named
  dsimp only at h
  split at h
  swap
  · -- the flag is no boolean
    simp at h
  rename_i valid hvalid
  generalize hexpected : readExpected label valid item = expectation at h
  obtain ⟨expected, expectedErrors⟩ := expectation
  generalize hschemaPath : safeFile tree ((item.get? "schema").getD .null) (path ["schema"]) = schemaPath
    at h
  generalize hfixturePath : safeFile tree ((item.get? "fixture").getD .null) (fixtureDirectory valid) =
    fixturePath at h
  cases schemaPath with
  | error message => simp [pathErrors] at h
  | ok schemaPath =>
    cases fixturePath with
    | error message => simp [pathErrors] at h
    | ok fixturePath =>
      -- both paths are safe, so the stages behind them were reached
      obtain ⟨herrors, hcanonical, hfixture, rfl, schema, hschema, hverdict⟩ :=
        checkResolved_ok hschemas h
      simp only [List.append_eq_nil_iff] at herrors
      obtain ⟨⟨⟨⟨rfl, -⟩, rfl⟩, -⟩, -⟩ := herrors
      have hok := checkName_ok (congrArg (·.2.2) hname)
      obtain ⟨text, htext, hnew, heq⟩ := hok
      cases hname.symm.trans heq
      obtain ⟨raw, hraw, -, hposix, -, -⟩ := safeFile_ok hschemaPath
      obtain ⟨raw', hraw', -, hposix', hunder, hfile⟩ := safeFile_ok hfixturePath
      have hget : ∀ {key : String} {s : Str}, (item.get? key).getD .null = .str s →
          item.get? key = some (.str s) := by
        intro key s hkey
        cases hitem : item.get? key with
        | none => rw [hitem] at hkey; cases hkey
        | some v => rw [hitem] at hkey; rw [← hkey]; rfl
      refine ⟨⟨label, schemaPath, fixturePath, valid, expected⟩,
        ⟨⟨hget htext, ?_, ?_, hvalid, ?_⟩, hcanonical, hunder, hfile, label, schema, hschema, hverdict⟩,
        hnew, hfixture, rfl⟩
      · rw [hposix]
        exact hget hraw
      · rw [hposix']
        exact hget hraw'
      · -- an invalid case declares the violation that it expects
        rintro rfl
        obtain ⟨violation, e, hviolation, hrest⟩ := readExpected_ok (congrArg (·.2) hexpected)
        rw [hexpected] at hviolation
        exact ⟨violation, e, hviolation, hrest⟩

/-- A run of cases without errors: the names and the fixtures are all different. -/
theorem checkCases_ok (hschemas : ∀ c ∈ canonicalSchemas, ∃ v, schemas.get c.path = some v)
    {items : List Value} : ∀ {seen seen' : Seen} {index : Nat},
      checkCases rt tree schemas seen index items = .ok (seen', []) →
        ∃ cases : List ManifestCase, List.Forall₂ (CaseOk rt tree schemas) items cases ∧
          seen' = cases.foldl Seen.add seen ∧
          (seen.names.Nodup → seen'.names.Nodup) ∧ (seen.fixtures.Nodup → seen'.fixtures.Nodup) := by
  induction items with
  | nil =>
    intro seen seen' index h
    cases h
    exact ⟨[], .nil, rfl, id, id⟩
  | cons item items ih =>
    intro seen seen' index h
    obtain ⟨⟨middle, errors⟩, hfirst, h⟩ := bind_ok_iff.mp h
    obtain ⟨⟨last, others⟩, hrest, h⟩ := bind_ok_iff.mp h
    simp only [pure, Except.pure, Except.ok.injEq, Prod.mk.injEq, List.append_eq_nil_iff] at h
    obtain ⟨rfl, rfl, rfl⟩ := h
    obtain ⟨c, hc, hname, hfixture, rfl⟩ := checkCase_ok hschemas hfirst
    obtain ⟨cases, hcases, rfl, hnames, hfixtures⟩ := ih hrest
    have hconcat : ∀ {α : Type} {l : List α} {a : α}, a ∉ l → l.Nodup → (l ++ [a]).Nodup :=
      fun ha hl => List.nodup_append.mpr ⟨hl, List.nodup_singleton _, fun x hx y hy heq => by
        rw [List.mem_singleton.mp hy] at heq
        exact ha (heq ▸ hx)⟩
    exact ⟨c :: cases, .cons hc hcases, rfl, fun h => hnames (hconcat hname h),
      fun h => hfixtures (hconcat hfixture h)⟩

theorem foldl_add (cases : List ManifestCase) (seen : Seen) :
    cases.foldl Seen.add seen = ⟨seen.names ++ cases.map (·.name), seen.fixtures ++ cases.map (·.fixture),
      seen.coverage ++ cases.map fun c => (c.schema, c.valid)⟩ := by
  induction cases generalizing seen with
  | nil => simp
  | cons c cases ih => rw [List.foldl_cons, ih]; simp [Seen.add]

/-! ## Fixtures -/

section Fixtures

variable {schema : Value} {raw : Bytes} (hissues : schemaIssues rt schema = []) (hkeyed : schema.Keyed)

include hissues hkeyed in
/-- A valid case passes when its fixture is loaded and valid. -/
theorem checkFixture_valid {expected : Option Violation}
    (h : checkFixture rt label true expected (some raw) schema = .ok []) :
    ∃ document, strictJson rt (some raw) = .ok document ∧ Valid document schema := by
  unfold checkFixture at h
  split at h
  · cases h
  · cases h
  · rename_i document hload
    obtain ⟨violations, hviolations, hnil, -⟩ :=
      validateInstance_exact rt hissues hkeyed (loaded_of_strictJson hload).1
    rw [hviolations] at h
    refine ⟨document, hload, hnil.mp ?_⟩
    cases violations with
    | nil => rfl
    | cons first others => cases h

include hissues hkeyed in
/-- An invalid case passes when its fixture shows the declared violation. -/
theorem checkFixture_invalid {violation : Violation}
    (h : checkFixture rt label false (some violation) (some raw) schema = .ok []) :
    Exhibits rt raw schema violation := by
  have hmem : ∀ {violations : List Violation},
      judge rt label false (some violation) violations = [] → violation ∈ violations := by
    intro violations hjudge
    cases violations with
    | nil => cases hjudge
    | cons first others =>
      rw [judge] at hjudge
      split at hjudge
      · assumption
      · cases hjudge
  unfold checkFixture at h
  split at h
  · cases h
  · rename_i message hload
    have hv := List.mem_singleton.mp (hmem (Except.ok.inj h))
    rw [hv]
    exact .json message hload (not_normative_of_document hload)
  · rename_i document hload
    obtain ⟨violations, hviolations, -, hbroken, -⟩ :=
      validateInstance_exact rt hissues hkeyed (loaded_of_strictJson hload).1
    rw [hviolations] at h
    obtain ⟨tokens, rule, hrule, hv⟩ := hbroken violation (hmem (Except.ok.inj h))
    rw [hv]
    exact .rule document tokens rule hload hrule

end Fixtures

end Stages

/-! ## The tree -/

/-- What `check_contract` promises about a tree and the cases of its manifest. -/
structure Sound (rt : Runtime) (tree : Tree) (cases : List ManifestCase) : Prop where
  /-- The schema directory holds the canonical files and no others. -/
  schemaFiles : ∀ p, p ∈ tree.walk (path ["schema"]) ↔ p ∈ canonicalSchemas.map (·.path)
  /-- Each is loaded, has no issues, and has its frozen fingerprint and identity. -/
  schemas : ∀ c ∈ canonicalSchemas, ∃ v, strictJson rt (tree.read c.path) = .ok v ∧
    schemaIssues rt v = [] ∧ schemaValidationFingerprint rt v = str c.fingerprint ∧
    v.get? "$id" = some (.str (str c.id))
  /-- The manifest is the list of the cases. -/
  manifest : ∃ m items, strictJson rt (tree.read casesPath) = .ok m ∧
    m.get? "cases" = some (.arr items) ∧ List.Forall₂ ManifestCase.Reads items cases
  /-- Every file below `fixtures` is the fixture of exactly one case. -/
  fixtures : ∀ p ∈ tree.walk (path ["fixtures"]), p ≠ casesPath → (cases.map (·.fixture)).count p = 1
  /-- Every case names a file below the directory of its flag. -/
  located : ∀ c ∈ cases, c.fixture ∈ tree.walk (fixtureDirectory c.valid)
  names : (cases.map (·.name)).Nodup
  /-- Valid fixtures pass the schema of their case. -/
  valid : ∀ c ∈ cases, c.valid = true → ∃ raw schema document, tree.read c.fixture = some raw ∧
    strictJson rt (tree.read c.schema) = .ok schema ∧ strictJson rt (some raw) = .ok document ∧
    Valid document schema
  /-- Invalid fixtures show the violation that their case declares. -/
  invalid : ∀ c ∈ cases, c.valid = false → ∃ raw schema violation, tree.read c.fixture = some raw ∧
    strictJson rt (tree.read c.schema) = .ok schema ∧ c.expected = some violation ∧
    Exhibits rt raw schema violation
  /-- Every case names a canonical schema, and every schema has cases of both kinds. -/
  coverage : (∀ c ∈ cases, c.schema ∈ canonicalSchemas.map (·.path)) ∧
    ∀ s ∈ canonicalSchemas, ∀ valid, ∃ c ∈ cases, c.schema = s.path ∧ c.valid = valid

/-- A run without errors, taken apart. -/
theorem checkContract_ok {rt : Runtime} {tree : Tree} (h : checkContract rt tree = .ok []) :
    ∃ manifest items seen, strictJson rt (tree.read casesPath) = .ok manifest ∧
      manifest.get? "cases" = some (.arr items) ∧ (loadCanonicalSchemas rt tree).2 = [] ∧
      checkCases rt tree (loadCanonicalSchemas rt tree).1 .empty 0 items = .ok (seen, []) ∧
      orphanErrors rt tree seen = [] ∧ coverageErrors seen = [] := by
  unfold checkContract at h
  split at h
  · cases h
  rename_i manifest hmanifest
  split at h
  · cases h
  dsimp only at h
  split at h
  · rename_i first others hcases
    obtain ⟨⟨seen, caseErrors⟩, hrun, h⟩ := bind_ok_iff.mp h
    dsimp only at h
    simp only [pure, Except.pure, Except.ok.injEq, List.map_eq_nil_iff, List.take_eq_nil_iff,
      List.append_eq_nil_iff] at h
    obtain ⟨⟨⟨⟨-, hschemas⟩, rfl⟩, horphans⟩, hcoverage⟩ := h.resolve_left (by decide)
    exact ⟨manifest, first :: others, seen, hmanifest, hcases, hschemas, hrun, horphans, hcoverage⟩
  · simp at h

/-- When no stage has an error, neither has the run. -/
theorem checkContract_of {rt : Runtime} {tree : Tree} {manifest first : Value} {others : List Value}
    {schemas : Schemas} {seen : Seen} (hmanifest : strictJson rt (tree.read casesPath) = .ok manifest)
    (hfields : hasManifestFields manifest = true)
    (hversion : manifest.get? "version" = some (.str (str "v1")))
    (hcases : manifest.get? "cases" = some (.arr (first :: others)))
    (hschemas : loadCanonicalSchemas rt tree = (schemas, []))
    (hrun : checkCases rt tree schemas .empty 0 (first :: others) = .ok (seen, []))
    (horphans : orphanErrors rt tree seen = []) (hcoverage : coverageErrors seen = []) :
    checkContract rt tree = .ok [] := by
  unfold checkContract
  rw [hmanifest]
  dsimp only
  rw [hfields, hversion, hcases, hschemas]
  dsimp only
  rw [hrun]
  simp [bind, Except.bind, pure, Except.pure, horphans, hcoverage, Value.eqStr]

/-- No file below `fixtures` is left without a case. -/
theorem fixture_of_no_orphans {rt : Runtime} {tree : Tree} {seen : Seen}
    (h : orphanErrors rt tree seen = []) {p : Path} (hp : p ∈ tree.walk (path ["fixtures"]))
    (hcases : p ≠ casesPath) : p ∈ seen.fixtures := by
  by_contra hno
  have hmem : p ∈ sortedBy id ((tree.walk (path ["fixtures"])).filter fun p =>
      p ≠ casesPath ∧ p ∉ seen.fixtures) := by
    rw [(sortedBy_perm _ _).mem_iff, List.mem_filter, decide_eq_true_eq]
    exact ⟨hp, hcases, hno⟩
  rw [orphanErrors, List.map_eq_nil_iff] at h
  rw [h] at hmem
  cases hmem

theorem coverage_of_no_errors {seen : Seen} (h : coverageErrors seen = []) {s : CanonicalSchema}
    (hs : s ∈ canonicalSchemas) (valid : Bool) : (s.path, valid) ∈ seen.coverage := by
  rw [coverageErrors, List.flatMap_eq_nil_iff] at h
  have hpair := h s hs
  rw [List.append_eq_nil_iff] at hpair
  obtain ⟨htrue, hfalse⟩ := hpair
  cases valid with
  | true =>
    by_contra hno
    rw [if_neg hno] at htrue
    cases htrue
  | false =>
    by_contra hno
    rw [if_neg hno] at hfalse
    cases hfalse

theorem exists_of_forall₂ {α β : Type} {R : α → β → Prop} {xs : List α} {ys : List β}
    (h : List.Forall₂ R xs ys) : ∀ y ∈ ys, ∃ x, R x y := by
  induction h with
  | nil => exact fun y hy => absurd hy List.not_mem_nil
  | cons hxy _ ih => exact List.forall_mem_cons.mpr ⟨⟨_, hxy⟩, ih⟩

/-- A tree for which `check_contract` finds no errors keeps everything the check is for. -/
theorem checkContract_sound (rt : Runtime) (tree : Tree) (h : checkContract rt tree = .ok []) :
    ∃ cases, Sound rt tree cases := by
  obtain ⟨manifest, items, seen, hmanifest, hitems, hschemas, hrun, horphans, hcoverage⟩ :=
    checkContract_ok h
  have hloaded := loaded_of_no_errors hschemas
  obtain ⟨cases, hcases, rfl, hnames, hfixtures⟩ :=
    checkCases_ok (fun c hc => (hloaded c hc).imp fun _ hv => hv.get) hrun
  have hnames := hnames List.nodup_nil
  have hfixtures := hfixtures List.nodup_nil
  simp only [foldl_add, Seen.empty, List.nil_append] at hnames hfixtures horphans hcoverage
  have hall := exists_of_forall₂ hcases
  have hcovered : ∀ s ∈ canonicalSchemas, ∀ valid, ∃ c ∈ cases, c.schema = s.path ∧ c.valid = valid := by
    intro s hs valid
    obtain ⟨c, hc, heq⟩ := List.mem_map.mp (coverage_of_no_errors hcoverage hs valid)
    obtain ⟨hpath, hflag⟩ := Prod.mk.inj heq
    exact ⟨c, hc, hpath, hflag⟩
  -- the schema of a case
  have hschema : ∀ c ∈ cases, ∃ schema, schemaIssues rt schema = [] ∧ schema.Keyed ∧
      strictJson rt (tree.read c.schema) = .ok schema ∧ ∃ label raw, tree.read c.fixture = some raw ∧
        checkFixture rt label c.valid c.expected (some raw) schema = .ok [] := by
    intro c hc
    obtain ⟨item, hok⟩ := hall c hc
    obtain ⟨label, schema, hget, hverdict⟩ := hok.verdict
    obtain ⟨s, hs, hpath⟩ := List.mem_map.mp hok.schema
    obtain ⟨v, hv⟩ := hloaded s hs
    have hvget := hv.get
    rw [hpath, hget] at hvget
    cases hvget
    have hload := hv.load
    rw [hpath] at hload
    obtain ⟨raw, hraw⟩ := Tree.exists_read hok.file
    rw [hraw] at hverdict
    exact ⟨schema, hv.issues, (loaded_of_strictJson hload).1, hload, label, raw, hraw, hverdict⟩
  refine ⟨cases, ⟨fun p => ⟨walk_of_no_errors hschemas p, fun hp => ?_⟩, fun c hc => ?_, ?_,
    fun p hp hne => ?_, fun c hc => ?_, hnames, fun c hc hvalid => ?_, fun c hc hinvalid => ?_,
    fun c hc => ?_, hcovered⟩⟩
  · obtain ⟨c, hc, rfl⟩ := List.mem_map.mp hp
    obtain ⟨v, hv⟩ := hloaded c hc
    have hunder : ∀ c ∈ canonicalSchemas, path ["schema"] <+: c.path ∧ path ["schema"] ≠ c.path := by
      decide
    exact Tree.mem_walk.mpr ⟨hv.file, hunder c hc⟩
  · obtain ⟨v, hv⟩ := hloaded c hc
    exact ⟨v, hv.load, hv.issues, frozen_of_no_errors hschemas hc hv⟩
  · refine ⟨manifest, items, hmanifest, hitems, ?_⟩
    exact hcases.imp fun _ _ hok => hok.reads
  · exact List.count_eq_one_of_mem hfixtures (fixture_of_no_orphans horphans hp hne)
  · obtain ⟨item, hok⟩ := hall c hc
    refine Tree.mem_walk.mpr ⟨hok.file, hok.directory, fun heq => ?_⟩
    -- the directory cannot be a file, since another case with this flag has its fixture below it
    have hother : ∃ s ∈ canonicalSchemas, s.path ≠ c.schema := by
      by_cases h : c.schema = requestCanonical.path
      · exact ⟨successCanonical, by simp [canonicalSchemas], by rw [h]; decide⟩
      · exact ⟨requestCanonical, by simp [canonicalSchemas], Ne.symm h⟩
    obtain ⟨s, hs, hne⟩ := hother
    obtain ⟨c', hc', hschema', hvalid'⟩ := hcovered s hs c.valid
    obtain ⟨item', hok'⟩ := hall c' hc'
    have hdirectory := hok'.directory
    rw [hvalid', heq] at hdirectory
    have hfixture := tree.leaves _ hok.file _ hok'.file hdirectory
    have hsame := List.inj_on_of_nodup_map hfixtures hc hc' hfixture
    rw [hsame, hschema'] at hne
    exact hne rfl
  · obtain ⟨schema, hissues, hkeyed, hload, label, raw, hraw, hverdict⟩ := hschema c hc
    rw [hvalid] at hverdict
    obtain ⟨document, hdocument, hpass⟩ := checkFixture_valid hissues hkeyed hverdict
    exact ⟨raw, schema, document, hraw, hload, hdocument, hpass⟩
  · obtain ⟨schema, hissues, hkeyed, hload, label, raw, hraw, hverdict⟩ := hschema c hc
    obtain ⟨item, hok⟩ := hall c hc
    obtain ⟨violation, -, hexpected, -⟩ := hok.reads.expected hinvalid
    rw [hinvalid, hexpected] at hverdict
    exact ⟨raw, schema, violation, hraw, hload, hexpected, checkFixture_invalid hissues hkeyed hverdict⟩
  · obtain ⟨item, hok⟩ := hall c hc
    exact hok.schema

/-! ## A tree without errors -/

/-- Where a sample fixture lies. -/
def sampleFixture (valid : Bool) (name : String) : Path := fixtureDirectory valid ++ path [name]

/-- An entry of the sample manifest. -/
def sampleCase (name : String) (c : CanonicalSchema) (valid : Bool) (fixture : String)
    (expected : List (String × Value)) : Value :=
  object ([("name", text name), ("schema", .str (asPosix c.path)),
    ("fixture", .str (asPosix (sampleFixture valid fixture))), ("valid", .bool valid)] ++ expected)

/-- The member that declares the violation an invalid case expects. -/
def sampleExpected (keyword instancePath : String) : List (String × Value) :=
  [("expected", object [("keyword", text keyword), ("instance_path", text instancePath)])]

/-- A valid and an invalid case for each schema, the last one with a fixture that is no JSON. -/
def sampleCases : List Value :=
  [sampleCase "request" requestCanonical true "request.json" [],
    sampleCase "completed" successCanonical true "completed.json" [],
    sampleCase "failed" failureCanonical true "failed.json" [],
    sampleCase "missing-fields" requestCanonical false "empty.json" (sampleExpected "required" ""),
    sampleCase "wrong-type" successCanonical false "array.json" (sampleExpected "type" ""),
    sampleCase "malformed" failureCanonical false "malformed.json" (sampleExpected "json" "")]

/-- The manifest of these cases. -/
def sampleManifest : Value := object [("version", text "v1"), ("cases", .arr sampleCases)]

/-- A smallest valid request. -/
def sampleRequest : Value :=
  object [("version", text "v1"), ("kind", text "model_turn.request"), ("request_id", text "r"),
    ("model_alias", text "m"),
    ("conversation", .arr [object [("role", text "user"), ("content", text "Hi")]]),
    ("instructions", .arr []), ("required_capabilities", .arr [])]

/-- A smallest valid completed result. -/
def sampleSuccess : Value :=
  object [("version", text "v1"), ("kind", text "model_turn.completed"), ("request_id", text "r"),
    ("output_text", text "Hi")]

/-- A smallest valid failed result. -/
def sampleFailure : Value :=
  object [("version", text "v1"), ("kind", text "model_turn.failed"), ("request_id", text "r"),
    ("error", object [("code", text "unavailable"), ("message", text "Busy"), ("retryable", .bool true)])]

/-- A tree of the committed schemas with one valid and one invalid fixture for each. -/
def sampleTree : Tree where
  files :=
    [(requestCanonical.path, written requestSchema), (successCanonical.path, written successSchema),
      (failureCanonical.path, written failureSchema), (casesPath, written sampleManifest),
      (sampleFixture true "request.json", written sampleRequest),
      (sampleFixture true "completed.json", written sampleSuccess),
      (sampleFixture true "failed.json", written sampleFailure),
      (sampleFixture false "empty.json", written (object [])),
      (sampleFixture false "array.json", written (.arr [])),
      (sampleFixture false "malformed.json", [0x7B])]
  distinct := by decide
  leaves := by decide

/-- A hash that tells the three schemas apart by the length of their canonical texts. -/
def sampleRuntime : Runtime :=
  { (default : Runtime) with
    sha256 := fun bytes => str (if bytes.length = 2405 then requestCanonical.fingerprint
      else if bytes.length = 1313 then successCanonical.fingerprint else failureCanonical.fingerprint) }

/-- What is loaded from the tree. -/
def sampleSchemas : Schemas :=
  [(requestCanonical.path, some requestSchema), (successCanonical.path, some successSchema),
    (failureCanonical.path, some failureSchema)]

/-- What the cases of the sample leave behind. -/
def sampleSeen : Seen where
  names := ["request", "completed", "failed", "missing-fields", "wrong-type", "malformed"].map str
  fixtures := [sampleFixture true "request.json", sampleFixture true "completed.json",
    sampleFixture true "failed.json", sampleFixture false "empty.json",
    sampleFixture false "array.json", sampleFixture false "malformed.json"]
  coverage := [(requestCanonical.path, true), (successCanonical.path, true),
    (failureCanonical.path, true), (requestCanonical.path, false), (successCanonical.path, false),
    (failureCanonical.path, false)]

theorem loadCanonicalSchemas_sample :
    loadCanonicalSchemas sampleRuntime sampleTree = (sampleSchemas, []) := by
  have hrequest : loadSchema sampleRuntime sampleTree requestCanonical = ([(_, some requestSchema)], []) :=
    loadSchema_of rfl (strictJson_requestSchema (by decide) fun _ => rfl)
      ((schemaIssues_nil_iff _ _).mpr requestSchema_profile)
  have hsuccess : loadSchema sampleRuntime sampleTree successCanonical = ([(_, some successSchema)], []) :=
    loadSchema_of rfl (strictJson_successSchema (by decide) fun _ => rfl)
      ((schemaIssues_nil_iff _ _).mpr successSchema_profile)
  have hfailure : loadSchema sampleRuntime sampleTree failureCanonical = ([(_, some failureSchema)], []) :=
    loadSchema_of rfl (strictJson_failureSchema (by decide) fun _ => rfl)
      ((schemaIssues_nil_iff _ _).mpr failureSchema_profile)
  have hunexpected : unexpectedSchemas sampleRuntime sampleTree = [] := by decide
  have hinvariants : checkCanonicalSchemaInvariants sampleRuntime sampleSchemas = [] := by decide +kernel
  have hparity : checkSchemaParity sampleSchemas = [] := by decide
  have hrounds : canonicalSchemas.map (loadSchema sampleRuntime sampleTree) =
      sampleSchemas.map fun entry => ([entry], []) := by
    simp only [canonicalSchemas, sampleSchemas, List.map_cons, List.map_nil, hrequest, hsuccess, hfailure]
  rw [loadCanonicalSchemas, hrounds, hunexpected]
  show (sampleSchemas, [] ++ [] ++ checkCanonicalSchemaInvariants sampleRuntime sampleSchemas ++
    checkSchemaParity sampleSchemas) = _
  rw [hinvariants, hparity]
  rfl

theorem checkContract_sample : checkContract sampleRuntime sampleTree = .ok [] := by
  have hmanifest : strictJson sampleRuntime (sampleTree.read casesPath) = .ok sampleManifest :=
    strictJson_written (by decide) (fun _ => rfl) (by decide) (by decide) (by decide +kernel)
  have hcases : checkCases sampleRuntime sampleTree sampleSchemas .empty 0 sampleCases =
      .ok (sampleSeen, []) := by
    decide +kernel
  have horphans : orphanErrors sampleRuntime sampleTree sampleSeen = [] := by decide
  have hcoverage : coverageErrors sampleSeen = [] := by decide
  exact checkContract_of hmanifest (by decide) rfl rfl loadCanonicalSchemas_sample hcases horphans hcoverage

/-- Two cases for each of the committed schemas. -/
theorem checkContract_sound_sample : ∃ cases, Sound sampleRuntime sampleTree cases :=
  checkContract_sound _ _ checkContract_sample

end FastGate.CheckContract
