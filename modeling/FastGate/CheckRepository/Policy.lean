/-
# FastGate.CheckRepository.Policy — the Go toolchain of the CI workflow

`check_ci_go_policy` of `scripts/check_repository.py`.  The check looks at the steps that the scanner
returns; the results here are about the steps that the workflow was written with.

* `ProvisionedJobs` is what the policy is for: one setup-go step, pinned to a commit and configured from
  `go.mod`, with the policy check before it and the verification of the version and the gate behind it,
  all in one job and none of them anywhere else.
* `checkCiGoPolicy_iff`: for a workflow whose steps the scanner reads as they are written, nothing is
  reported exactly when it is provisioned.  Positions in the text stand for the order of the steps, and
  the position of a `steps:` key for the job (`placeBlocks_sorted`, `placeBlocks_block`).
* `checkCiGoPolicy_flush`: jobs with their dashes in the column of the key change nothing that is
  reported, whatever they do.
* `checkCiGoPolicy_sound_iff`: so a workflow that is accepted is provisioned unless its visible jobs
  alone are and a hidden step counts for the policy, as in `checkCiGoPolicy_release`.

YAML allows both columns for the dashes; the workflow of this repository indents them.
-/
import FastGate.CheckRepository.Recovery
import Mathlib.Data.List.Dedup
import Mathlib.Data.List.Sort

open FastGate.Lines FastGate.Python

namespace FastGate.CheckRepository

/-! ## The check -/

/-- `IMMUTABLE_ACTION_REF.fullmatch(reference)` -/
def immutableActionRef (reference : Str) : Bool :=
  reference.length = 40 && reference.all fun c => (0x30 ≤ c ∧ c ≤ 0x39) ∨ (0x61 ≤ c ∧ c ≤ 0x66)

/-- The action that sets Go up, up to its reference. -/
def setupGo : Str := str "actions/setup-go@"

/-- The static policy: this very check, which is to run before Go is set up. -/
def policyScript : Str := str "python3 scripts/check_repository.py"

/-- The canonical gate. -/
def gateScript : Str := str "./scripts/check"

/-- `EXPECTED_GOVERSION_SCRIPTS`: the version that Go reports, and its comparison with the one of `go.mod`. -/
def expectedGoversionScripts : List Str := [
  str "GOTOOLCHAIN=local go env GOVERSION",
  [lineFeed].intercalate [
    str "expected_version=\"$(awk '$1 == \"go\" \x7b print \"go\" $2 \x7d' go.mod)\"",
    str "actual_version=\"$(GOTOOLCHAIN=local go env GOVERSION)\"",
    str "if [[ \"$actual_version\" != \"$expected_version\" ]]; then",
    str "  echo \"Expected $expected_version from go.mod, got $actual_version\" >&2",
    str "  exit 1",
    str "fi"]]

/-- The steps that use the setup-go action, each with the reference it is used at. -/
def setupSteps (steps : List WorkflowStep) : List (WorkflowStep × Str) :=
  steps.filterMap fun step =>
    let uses := (Dict.get? step.fields (str "uses")).getD []
    if setupGo <+: uses then some (step, uses.drop setupGo.length) else none

/-- The steps without an `if` that run one of some scripts. -/
def stepsRunning (scripts : List Str) (steps : List WorkflowStep) : List WorkflowStep :=
  steps.filter fun step => !Dict.has step.fields (str "if") && step.runScript.any (· ∈ scripts)

/-- `if found: errors.append(message)` -/
def report (found : Bool) (message : String) : List Str := if found then [str message] else []

/-- What is checked of the only setup-go step. -/
def setupErrors : List (WorkflowStep × Str) → List Str
  | [(step, _)] =>
    report (Dict.has step.fields (str "if")) "CI setup-go step must be unconditional" ++
    report (Dict.get? step.withFields (str "go-version-file") ≠ some (str "go.mod"))
      "CI setup-go must read go-version-file from go.mod" ++
    report (Dict.has step.withFields (str "go-version"))
      "CI must not repeat a separate go-version literal" ++
    report (lower ((Dict.get? step.withFields (str "cache")).getD []) ≠ str "false")
      "CI setup-go caching must be disabled for the dependency-free module"
  | _ => []

/-- The position of the only step, or -1. -/
def positionOf : List WorkflowStep → Int
  | [step] => step.position
  | _ => -1

/-- What is reported of the steps of a workflow, in the order of the source. -/
def ciGoErrors (steps : List WorkflowStep) : List Str :=
  let setup := setupSteps steps
  let preflight := stepsRunning [policyScript] steps
  let version := stepsRunning expectedGoversionScripts steps
  let gate := stepsRunning [gateScript] steps
  let setupPosition := positionOf (setup.map (·.1))
  report (setup.length ≠ 1) "CI must contain exactly one actions/setup-go invocation" ++
  report (setup = [] || setup.any fun found => !immutableActionRef found.2)
    "CI setup-go action must use a 40-character commit SHA" ++
  setupErrors setup ++
  report (preflight.length ≠ 1) "CI must contain exactly one unconditional static policy run step" ++
  report (version.length ≠ 1) "CI must contain exactly one unconditional GOVERSION verification step" ++
  report (gate.length ≠ 1) "CI must contain exactly one unconditional canonical gate run step" ++
  report
    (match preflight, setup, version, gate with
    | [a], [(b, _)], [c], [d] => [a.stepsBlock, b.stepsBlock, c.stepsBlock, d.stepsBlock].dedup.length ≠ 1
    | _, _, _, _ => false)
    "CI policy, setup-go, GOVERSION, and gate steps must share one steps block" ++
  report
    (positionOf preflight < 0 ∨ setupPosition < 0 ∨ positionOf version < 0 ∨ positionOf gate < 0 ∨
      ¬ (positionOf preflight < setupPosition ∧ setupPosition < positionOf version ∧
        positionOf version < positionOf gate))
    ("CI static policy, setup-go, GOVERSION verification, and canonical gate stages " ++
      "are out of order")

/-- `check_ci_go_policy`, for the text of the workflow if it can be read. -/
def checkCiGoPolicy : Option Str → Except Str (List Str)
  | none => .ok []
  | some workflow => (workflowSteps workflow).map ciGoErrors

/-! ## What it finds -/

theorem report_eq_nil {found : Bool} {message : String} : report found message = [] ↔ found = false := by
  cases found with
  | false => exact iff_of_true rfl rfl
  | true => exact iff_of_false (List.cons_ne_nil _ _) Bool.noConfusion

/-- What the check asks of the step that sets Go up. -/
structure SetsUpGo (step : WorkflowStep) (reference : Str) : Prop where
  immutable : immutableActionRef reference = true
  unconditional : Dict.has step.fields (str "if") = false
  versionFile : Dict.get? step.withFields (str "go-version-file") = some (str "go.mod")
  noVersion : Dict.has step.withFields (str "go-version") = false
  cache : lower ((Dict.get? step.withFields (str "cache")).getD []) = str "false"

/-- A set of four numbers has one element. -/
theorem dedup_length_eq_one {a b c d : Nat} :
    [a, b, c, d].dedup.length = 1 ↔ a = b ∧ b = c ∧ c = d := by
  constructor
  · intro h
    obtain ⟨x, hx⟩ := List.length_eq_one_iff.mp h
    have hall : ∀ y ∈ [a, b, c, d], y = x := by
      intro y hy
      rw [← List.mem_dedup, hx] at hy
      exact List.mem_singleton.mp hy
    have ha := hall a (.head _)
    have hb := hall b (.tail _ (.head _))
    have hc := hall c (.tail _ (.tail _ (.head _)))
    have hd := hall d (.tail _ (.tail _ (.tail _ (.head _))))
    omega
  · rintro ⟨rfl, rfl, rfl⟩
    simp

/-- Nothing is reported exactly when there is one step of each kind, all in one block and in order. -/
theorem ciGoErrors_eq_nil (steps : List WorkflowStep) : ciGoErrors steps = [] ↔
    ∃ preflight setup reference version gate,
      stepsRunning [policyScript] steps = [preflight] ∧ setupSteps steps = [(setup, reference)] ∧
      stepsRunning expectedGoversionScripts steps = [version] ∧ stepsRunning [gateScript] steps = [gate] ∧
      SetsUpGo setup reference ∧
      (preflight.stepsBlock = setup.stepsBlock ∧ setup.stepsBlock = version.stepsBlock ∧
        version.stepsBlock = gate.stepsBlock) ∧
      preflight.position < setup.position ∧ setup.position < version.position ∧
      version.position < gate.position := by
  unfold ciGoErrors
  dsimp only
  simp only [List.append_eq_nil_iff, report_eq_nil, decide_eq_false_iff_not, ne_eq, not_not]
  constructor
  · rintro ⟨⟨⟨⟨⟨⟨⟨hsetup, hreference⟩, herrors⟩, hpreflight⟩, hversion⟩, hgate⟩, hblock⟩, horder⟩
    obtain ⟨⟨setup, reference⟩, hsetup⟩ := List.length_eq_one_iff.mp hsetup
    obtain ⟨preflight, hpreflight⟩ := List.length_eq_one_iff.mp hpreflight
    obtain ⟨version, hversion⟩ := List.length_eq_one_iff.mp hversion
    obtain ⟨gate, hgate⟩ := List.length_eq_one_iff.mp hgate
    rw [hsetup] at hreference herrors
    rw [hpreflight, hsetup, hversion, hgate] at hblock horder
    refine ⟨preflight, setup, reference, version, gate, hpreflight, hsetup, hversion, hgate, ?_, ?_, ?_⟩
    · -- the four checks of the setup step
      rw [setupErrors, List.append_eq_nil_iff, List.append_eq_nil_iff, List.append_eq_nil_iff, report_eq_nil,
        report_eq_nil, report_eq_nil, report_eq_nil, decide_eq_false_iff_not, decide_eq_false_iff_not,
        not_not, not_not] at herrors
      obtain ⟨⟨⟨hif, hfile⟩, hversion⟩, hcache⟩ := herrors
      refine ⟨?_, hif, hfile, hversion, hcache⟩
      simpa using hreference
    · exact dedup_length_eq_one.mp (not_not.mp (of_decide_eq_false hblock))
    · simp only [List.map_cons, List.map_nil, positionOf] at horder
      omega
  · rintro ⟨preflight, setup, reference, version, gate, hpreflight, hsetup, hversion, hgate, hsets, hblock, horder⟩
    rw [hpreflight, hsetup, hversion, hgate]
    refine ⟨⟨⟨⟨⟨⟨⟨rfl, ?_⟩, ?_⟩, rfl⟩, rfl⟩, rfl⟩,
      decide_eq_false (not_not.mpr (dedup_length_eq_one.mpr hblock))⟩, ?_⟩
    · simp [hsets.immutable]
    · rw [setupErrors, hsets.unconditional, hsets.versionFile, hsets.noVersion, hsets.cache]
      simp [report]
    · simp only [List.map_cons, List.map_nil, positionOf]
      omega

/-! ## What the workflow says -/

namespace Step

variable (step : Step)

/-- The value of a key of the step, as the scanner gives it. -/
def value? (name : Str) : Option Str := (step.content? name).map Content.value

/-- The entries of the step's `with:`. -/
def inputs : Dict Str := (step.content? (str "with")).elim [] Content.nested

/-- The step uses the setup-go action. -/
def UsesSetupGo : Bool := (step.value? (str "uses")).any (setupGo <+: ·)

/-- The step runs one of some scripts whatever happens. -/
def Runs (scripts : List Str) : Bool :=
  (step.content? (str "if")).isNone && ((step.content? (str "run")).map Content.script).any (· ∈ scripts)

/-- The step sets up the Go version of `go.mod`, from an immutable action and without its cache. -/
structure Pinned : Prop where
  immutable : ∃ reference, step.value? (str "uses") = some (setupGo ++ reference) ∧
    immutableActionRef reference = true
  unconditional : step.content? (str "if") = none
  versionFile : Dict.get? step.inputs (str "go-version-file") = some (str "go.mod")
  noVersion : Dict.get? step.inputs (str "go-version") = none
  cache : ∃ value, Dict.get? step.inputs (str "cache") = some value ∧ lower value = str "false"

end Step

/-- In one job, and nowhere else among the jobs, the policy check, the only setup-go step, a verification of
the Go version and the gate stand in this order. -/
def ProvisionedJobs (jobs : List (List Step)) : Prop :=
  ∃ job ∈ jobs, ∃ preflight setup version gate,
    [preflight, setup, version, gate].Sublist job ∧
    jobs.flatten.filter (·.Runs [policyScript]) = [preflight] ∧
    jobs.flatten.filter (·.UsesSetupGo) = [setup] ∧
    jobs.flatten.filter (·.Runs expectedGoversionScripts) = [version] ∧
    jobs.flatten.filter (·.Runs [gateScript]) = [gate] ∧ setup.Pinned

/-- The workflow is provisioned: all its jobs are looked at, those that the scanner cannot see included. -/
def Workflow.Provisioned (workflow : Workflow) : Prop := ProvisionedJobs workflow.jobs

/-! ## The steps of a workflow in the order of their positions -/

theorem placeSteps_step (dash stepsBlock position : Nat) (steps : List Step) :
    (placeSteps dash stepsBlock position steps).map (·.step) = steps := by
  induction steps generalizing position with
  | nil => rfl
  | cons step steps ih => rw [placeSteps, List.map_cons, ih]

theorem Workflow.placed_step (workflow : Workflow) : workflow.placed.map (·.step) = workflow.seen.flatten := by
  unfold Workflow.placed Workflow.seen
  generalize 0 = position
  induction workflow.blocks generalizing position with
  | nil => rfl
  | cons block blocks ih =>
    rw [List.map_cons, List.flatten_cons, placeBlocks, List.map_append, ih]
    exact congrArg (· ++ _) (placeSteps_step _ _ _ _)

/-- The steps that can be seen take no more room than all steps. -/
theorem StepsBlock.length_seen (block : StepsBlock) : (unlines (block.seen.flatMap (Step.lines block.dash))).length ≤
    (unlines (block.steps.flatMap (Step.lines block.dash))).length := by
  unfold StepsBlock.seen
  split
  · exact Nat.le_refl _
  · exact Nat.zero_le _

/-- Every step of a block is behind the `steps:` key, and begins before the block ends. -/
theorem placeSteps_bounds {dash stepsBlock position : Nat} {steps : List Step} {placed : Placed}
    (h : placed ∈ placeSteps dash stepsBlock position steps) : placed.stepsBlock = stepsBlock ∧
      position ≤ placed.position ∧
      placed.position < position + (unlines (steps.flatMap (Step.lines dash))).length := by
  induction steps generalizing position with
  | nil => exact absurd h List.not_mem_nil
  | cons step steps ih =>
    have hpos : 0 < (unlines (step.lines dash)).length := by
      unfold Step.lines
      rw [unlines, List.flatMap_cons, List.length_append, lineOf, List.length_append]
      exact Nat.add_pos_left (Nat.add_pos_right _ Nat.one_pos) _
    rw [List.flatMap_cons, unlines_append, List.length_append]
    rcases List.mem_cons.mp h with rfl | h
    · refine ⟨rfl, Nat.le_refl _, ?_⟩
      dsimp only
      omega
    · obtain ⟨hblock, hle, hlt⟩ := ih h
      exact ⟨hblock, by omega, by omega⟩

theorem placeSteps_sorted (dash stepsBlock position : Nat) (steps : List Step) :
    (placeSteps dash stepsBlock position steps).Pairwise fun a b => a.position < b.position := by
  induction steps generalizing position with
  | nil => exact .nil
  | cons step steps ih =>
    refine .cons (fun placed hplaced => ?_) (ih _)
    have hpos : 0 < (unlines (step.lines dash)).length := by
      unfold Step.lines
      rw [unlines, List.flatMap_cons, List.length_append, lineOf, List.length_append]
      exact Nat.add_pos_left (Nat.add_pos_right _ Nat.one_pos) _
    have hle := (placeSteps_bounds hplaced).2.1
    dsimp only
    omega

theorem StepsBlock.length_lines (block : StepsBlock) : (unlines block.lines).length =
    (unlines (passageLines block.lead)).length + ((lineOf block.header).length +
      (unlines (block.steps.flatMap (Step.lines block.dash))).length) := by
  have hcons : unlines (block.header :: block.steps.flatMap (Step.lines block.dash)) =
      lineOf block.header ++ unlines (block.steps.flatMap (Step.lines block.dash)) := List.flatMap_cons
  unfold StepsBlock.lines
  rw [unlines_append, hcons, List.length_append, List.length_append]

/-- The key of a later block, and so each of its steps, is behind all that is above the block. -/
theorem placeBlocks_bounds {position : Nat} {blocks : List StepsBlock} {placed : Placed}
    (h : placed ∈ placeBlocks position blocks) :
    position ≤ placed.stepsBlock ∧ placed.stepsBlock < placed.position := by
  induction blocks generalizing position with
  | nil => exact absurd h List.not_mem_nil
  | cons block blocks ih =>
    rw [placeBlocks, List.mem_append] at h
    rcases h with h | h
    · obtain ⟨hblock, hle, -⟩ := placeSteps_bounds h
      have hheader : 0 < (lineOf block.header).length := by
        rw [lineOf, List.length_append]
        exact Nat.add_pos_right _ Nat.one_pos
      rw [hblock]
      omega
    · obtain ⟨hle, hlt⟩ := ih h
      exact ⟨by omega, hlt⟩

theorem placeBlocks_sorted (position : Nat) (blocks : List StepsBlock) :
    (placeBlocks position blocks).Pairwise fun a b => a.position < b.position := by
  induction blocks generalizing position with
  | nil => exact .nil
  | cons block blocks ih =>
    rw [placeBlocks, List.pairwise_append]
    refine ⟨placeSteps_sorted _ _ _ _, ih _, fun a ha b hb => ?_⟩
    have hlt := (placeSteps_bounds ha).2.2
    have hle := placeBlocks_bounds hb
    have hseen := block.length_seen
    rw [block.length_lines] at hle
    omega

/-- Steps of one `steps:` key are steps of one block. -/
theorem placeBlocks_block {position stepsBlock : Nat} {blocks : List StepsBlock} {chosen : List Placed}
    (hchosen : chosen ≠ []) (h : chosen.Sublist (placeBlocks position blocks))
    (hsame : ∀ placed ∈ chosen, placed.stepsBlock = stepsBlock) :
    ∃ block ∈ blocks, ∃ start, chosen.Sublist (placeSteps block.dash stepsBlock start block.seen) := by
  induction blocks generalizing position with
  | nil => exact absurd (List.sublist_nil.mp h) hchosen
  | cons block blocks ih =>
    have hall : chosen.filter (·.stepsBlock = stepsBlock) = chosen :=
      List.filter_eq_self.mpr fun placed hplaced => decide_eq_true (hsame placed hplaced)
    rw [placeBlocks] at h
    have hfilter := h.filter (·.stepsBlock = stepsBlock)
    rw [hall, List.filter_append] at hfilter
    by_cases hheader : position + (unlines (passageLines block.lead)).length = stepsBlock
    · -- the key is that of this block, and the blocks below have theirs further down
      have hlater : (placeBlocks (position + (unlines block.lines).length) blocks).filter
          (·.stepsBlock = stepsBlock) = [] := by
        refine List.filter_eq_nil_iff.mpr fun placed hplaced => ?_
        have hle := (placeBlocks_bounds hplaced).1
        have hlength := block.length_lines
        have hpos : 0 < (lineOf block.header).length := by
          rw [lineOf, List.length_append]
          exact Nat.add_pos_right _ Nat.one_pos
        rw [decide_eq_true_eq]
        omega
      rw [hlater, List.append_nil, hheader] at hfilter
      exact ⟨block, .head _, _, hfilter.trans List.filter_sublist⟩
    · -- the key is that of a block below, so no step of this one is chosen
      have hearlier : (placeSteps block.dash (position + (unlines (passageLines block.lead)).length)
          (position + (unlines (passageLines block.lead)).length + (lineOf block.header).length) block.seen).filter
            (·.stepsBlock = stepsBlock) = [] := by
        refine List.filter_eq_nil_iff.mpr fun placed hplaced => ?_
        rw [(placeSteps_bounds hplaced).1, decide_eq_true_eq]
        exact hheader
      rw [hearlier, List.nil_append] at hfilter
      obtain ⟨found, hmem, hsub⟩ := ih (hfilter.trans List.filter_sublist)
      exact ⟨found, .tail _ hmem, hsub⟩

/-- The steps of a block that can be seen are among those of the workflow. -/
theorem block_placeBlocks {blocks : List StepsBlock} {block : StepsBlock} (h : block ∈ blocks)
    (position : Nat) : ∃ stepsBlock start,
      (placeSteps block.dash stepsBlock start block.seen).Sublist (placeBlocks position blocks) := by
  induction blocks generalizing position with
  | nil => exact absurd h List.not_mem_nil
  | cons first blocks ih =>
    rw [placeBlocks]
    rcases List.mem_cons.mp h with rfl | h
    · exact ⟨_, _, List.sublist_append_left _ _⟩
    · obtain ⟨stepsBlock, start, hsub⟩ := ih h (position + (unlines first.lines).length)
      exact ⟨stepsBlock, start, hsub.trans (List.sublist_append_right _ _)⟩

/-! ## What is read of the steps -/

section Read

variable (step : Step) (position stepsBlock : Nat) (name : Str)

theorem get?_fields : Dict.get? (step.read position stepsBlock).fields name = step.value? name := by
  unfold Step.read Step.value? Step.content?
  dsimp only
  induction step.entries with
  | nil => rfl
  | cons entry entries ih =>
    rw [List.map_cons, Dict.get?_cons, ih]
    by_cases hname : entry.key.text = name
    · rw [List.find?_cons_of_pos (by simp [hname]), if_pos hname]
      rfl
    · rw [List.find?_cons_of_neg (by simp [hname]), if_neg hname]

theorem has_fields : Dict.has (step.read position stepsBlock).fields name = (step.content? name).isSome := by
  rw [Bool.eq_iff_iff, Dict.has_iff_get?, get?_fields, ← Option.isSome_iff_exists, Step.value?,
    Option.isSome_map]

end Read

theorem stepsRunning_read (scripts : List Str) (places : List Placed) :
    stepsRunning scripts (places.map Placed.read) = (places.filter (·.step.Runs scripts)).map Placed.read := by
  unfold stepsRunning
  rw [List.filter_map]
  refine congrArg (List.map Placed.read) (List.filter_congr fun placed _ => ?_)
  show (!Dict.has placed.read.fields (str "if") && placed.read.runScript.any (· ∈ scripts)) = _
  unfold Placed.read Step.Runs
  rw [has_fields, Option.not_isSome]
  rfl

theorem setupSteps_read (places : List Placed) : setupSteps (places.map Placed.read) =
    (places.filter (·.step.UsesSetupGo)).map fun placed =>
      (placed.read, ((placed.step.value? (str "uses")).getD []).drop setupGo.length) := by
  unfold setupSteps
  induction places with
  | nil => rfl
  | cons placed places ih =>
    have hget : Dict.get? placed.read.fields (str "uses") = placed.step.value? (str "uses") := get?_fields ..
    rw [List.map_cons, List.filterMap_cons, List.filter_cons, ih]
    dsimp only
    rw [hget]
    cases huses : placed.step.value? (str "uses") with
    | none =>
      have hkind : placed.step.UsesSetupGo = false := by rw [Step.UsesSetupGo, huses, Option.any_none]
      rw [hkind]
      rfl
    | some uses =>
      have hkind : placed.step.UsesSetupGo = decide (setupGo <+: uses) := by
        rw [Step.UsesSetupGo, huses, Option.any_some]
      rw [Option.getD_some, hkind]
      by_cases hprefix : setupGo <+: uses
      · rw [if_pos hprefix, if_pos (decide_eq_true hprefix), List.map_cons, huses]
        rfl
      · rw [if_neg hprefix, if_neg (by simpa using hprefix)]

/-- What is checked of the setup-go step is that it is pinned. -/
theorem setsUpGo_read {placed : Placed} (h : placed.step.UsesSetupGo = true) :
    SetsUpGo placed.read (((placed.step.value? (str "uses")).getD []).drop setupGo.length) ↔
      placed.step.Pinned := by
  obtain ⟨uses, huses, hprefix⟩ := (Option.any_eq_true _ _).mp h
  obtain ⟨reference, rfl⟩ := of_decide_eq_true hprefix
  have hif : Dict.has placed.read.fields (str "if") = (placed.step.content? (str "if")).isSome := has_fields ..
  have hinputs : placed.read.withFields = placed.step.inputs := rfl
  rw [huses, Option.getD_some, List.drop_left]
  constructor
  · rintro ⟨himmutable, hunconditional, hversionFile, hnoVersion, hcache⟩
    rw [hinputs] at hversionFile hnoVersion hcache
    refine ⟨⟨reference, huses, himmutable⟩, ?_, hversionFile, ?_, ?_⟩
    · rwa [hif, Option.isSome_eq_false_iff, Option.isNone_iff_eq_none] at hunconditional
    · rw [Dict.get?_eq_none, ← Dict.has_iff, hnoVersion]
      exact Bool.false_ne_true
    · cases hget : Dict.get? placed.step.inputs (str "cache") with
      | none =>
        rw [hget] at hcache
        cases hcache
      | some value =>
        rw [hget] at hcache
        exact ⟨value, rfl, hcache⟩
  · rintro ⟨⟨found, hfound, himmutable⟩, hunconditional, hversionFile, hnoVersion, value, hvalue, hcache⟩
    rw [huses, Option.some_inj, List.append_cancel_left_eq] at hfound
    refine ⟨hfound ▸ himmutable, ?_, hversionFile, ?_, ?_⟩
    · rw [hif, hunconditional]
      rfl
    · rw [hinputs, ← Bool.not_eq_true, Dict.has_iff, ← Dict.get?_eq_none]
      exact hnoVersion
    · rw [hinputs, hvalue]
      exact hcache

/-! ## The policy -/

/-- Steps of a workflow that are in the order of their positions are in its order. -/
theorem placed_sublist {workflow : Workflow} {chosen : List Placed} (hmem : ∀ placed ∈ chosen, placed ∈ workflow.placed)
    (hsorted : chosen.Pairwise fun a b => a.position < b.position) : chosen.Sublist workflow.placed := by
  have hantisymm : Std.Antisymm fun a b : Placed => a.position < b.position :=
    ⟨fun a b hab hba => absurd (hab.trans hba) (Nat.lt_irrefl _)⟩
  have hnodup : chosen.Nodup := hsorted.imp fun hlt heq => absurd (heq ▸ hlt) (Nat.lt_irrefl _)
  exact List.sublist_of_subperm_of_pairwise (List.subperm_of_subset hnodup hmem) hsorted
    (placeBlocks_sorted 0 workflow.blocks)

/-- A list of steps with one of a kind, wherever the text has it. -/
theorem filter_placed {workflow : Workflow} {kind : Step → Bool} {step : Step} :
    workflow.seen.flatten.filter kind = [step] ↔
      ∃ placed, workflow.placed.filter (fun placed => kind placed.step) = [placed] ∧ placed.step = step := by
  rw [← workflow.placed_step, List.filter_map]
  constructor
  · intro h
    obtain ⟨placed, rest, hfilter, hstep, hrest⟩ := List.map_eq_cons_iff.mp h
    rw [List.map_eq_nil_iff] at hrest
    exact ⟨placed, by rw [← hrest]; exact hfilter, hstep⟩
  · rintro ⟨placed, hfilter, rfl⟩
    exact congrArg (List.map (·.step)) hfilter

theorem forall_mem_four {α : Type} {P : α → Prop} {a b c d : α} :
    (∀ x ∈ [a, b, c, d], P x) ↔ P a ∧ P b ∧ P c ∧ P d := by simp

theorem sorted_four {a b c d : Placed} : ([a, b, c, d].Pairwise fun x y => x.position < y.position) ↔
    a.position < b.position ∧ b.position < c.position ∧ c.position < d.position := by
  simp
  omega

theorem mem_of_filter {places : List Placed} {kind : Placed → Bool} {placed : Placed}
    (h : places.filter kind = [placed]) : placed ∈ places ∧ kind placed = true := by
  have hmem : placed ∈ places.filter kind := by
    rw [h]
    exact .head _
  exact List.mem_filter.mp hmem

/-- Of the steps that can be seen nothing is reported exactly when the jobs they make are provisioned. -/
theorem ciGoErrors_placed (workflow : Workflow) :
    ciGoErrors (workflow.placed.map Placed.read) = [] ↔ ProvisionedJobs workflow.seen := by
  rw [ciGoErrors_eq_nil]
  simp only [stepsRunning_read, setupSteps_read]
  constructor
  · rintro ⟨preflight, setup, reference, version, gate, hpreflight, hsetup, hversion, hgate, hsets, hblock, horder⟩
    obtain ⟨a, hfilterA, rfl⟩ := List.map_eq_singleton_iff.mp hpreflight
    obtain ⟨b, hfilterB, hsetupRead⟩ := List.map_eq_singleton_iff.mp hsetup
    obtain ⟨rfl, rfl⟩ := Prod.mk.inj hsetupRead
    obtain ⟨c, hfilterC, rfl⟩ := List.map_eq_singleton_iff.mp hversion
    obtain ⟨d, hfilterD, rfl⟩ := List.map_eq_singleton_iff.mp hgate
    -- the positions put the four steps in order, and one block holds them all
    have hmem : ∀ placed ∈ [a, b, c, d], placed ∈ workflow.placed :=
      forall_mem_four.mpr ⟨(mem_of_filter hfilterA).1, (mem_of_filter hfilterB).1,
        (mem_of_filter hfilterC).1, (mem_of_filter hfilterD).1⟩
    have hsorted : [a, b, c, d].Pairwise fun x y => x.position < y.position := sorted_four.mpr horder
    have hsame : ∀ placed ∈ [a, b, c, d], placed.stepsBlock = a.stepsBlock := by
      obtain ⟨hab, hbc, hcd⟩ := hblock
      exact forall_mem_four.mpr ⟨rfl, hab.symm, (hab.trans hbc).symm, ((hab.trans hbc).trans hcd).symm⟩
    obtain ⟨block, hblockMem, start, hsub⟩ := placeBlocks_block (List.cons_ne_nil _ _)
      (placed_sublist hmem hsorted) hsame
    have hsubSteps := hsub.map (·.step)
    rw [placeSteps_step] at hsubSteps
    exact ⟨block.seen, List.mem_map_of_mem hblockMem, a.step, b.step, c.step, d.step, hsubSteps, filter_placed.mpr ⟨a, hfilterA, rfl⟩,
      filter_placed.mpr ⟨b, hfilterB, rfl⟩, filter_placed.mpr ⟨c, hfilterC, rfl⟩,
      filter_placed.mpr ⟨d, hfilterD, rfl⟩, (setsUpGo_read (mem_of_filter hfilterB).2).mp hsets⟩
  · rintro ⟨job, hjob, preflight, setup, version, gate, hsub, hpreflight, hsetup, hversion, hgate, hpinned⟩
    obtain ⟨block, hblockMem, rfl⟩ := List.mem_map.mp hjob
    obtain ⟨a, hfilterA, hstepA⟩ := filter_placed.mp hpreflight
    obtain ⟨b, hfilterB, hstepB⟩ := filter_placed.mp hsetup
    obtain ⟨c, hfilterC, hstepC⟩ := filter_placed.mp hversion
    obtain ⟨d, hfilterD, hstepD⟩ := filter_placed.mp hgate
    obtain ⟨stepsBlock, start, hplaced⟩ := block_placeBlocks hblockMem 0
    rw [← placeSteps_step block.dash stepsBlock start block.seen] at hsub
    obtain ⟨chosen, hchosen, hmap⟩ := List.sublist_map_iff.mp hsub
    -- a step of a kind that the workflow has once is the one that was found
    have hunique : ∀ (kind : Step → Bool) {found placed : Placed}, placed ∈ chosen →
        workflow.placed.filter (fun placed => kind placed.step) = [found] → placed.step = found.step →
          placed = found := by
      intro kind found placed hmem hfilter hstep
      have hfound := mem_of_filter hfilter
      have hboth : placed ∈ workflow.placed.filter (fun placed => kind placed.step) := by
        refine List.mem_filter.mpr ⟨hplaced.subset (hchosen.subset hmem), ?_⟩
        rw [hstep]
        exact hfound.2
      rw [hfilter] at hboth
      exact List.mem_singleton.mp hboth
    obtain ⟨a', rest, rfl, hmapA, hrest⟩ := List.map_eq_cons_iff.mp hmap.symm
    obtain ⟨b', rest, rfl, hmapB, hrest⟩ := List.map_eq_cons_iff.mp hrest
    obtain ⟨c', rest, rfl, hmapC, hrest⟩ := List.map_eq_cons_iff.mp hrest
    obtain ⟨d', rest, rfl, hmapD, hrest⟩ := List.map_eq_cons_iff.mp hrest
    rw [List.map_eq_nil_iff.mp hrest] at hchosen hunique
    have hA := hunique (·.Runs [policyScript]) (.head _) hfilterA (hmapA.trans hstepA.symm)
    have hB := hunique (·.UsesSetupGo) (.tail _ (.head _)) hfilterB (hmapB.trans hstepB.symm)
    have hC := hunique (·.Runs expectedGoversionScripts) (.tail _ (.tail _ (.head _))) hfilterC (hmapC.trans hstepC.symm)
    have hD := hunique (·.Runs [gateScript]) (.tail _ (.tail _ (.tail _ (.head _)))) hfilterD (hmapD.trans hstepD.symm)
    subst hA hB hC hD
    have hsorted := (placeSteps_sorted block.dash stepsBlock start block.seen).sublist hchosen
    have hsame : ∀ placed ∈ [a', b', c', d'], placed.stepsBlock = stepsBlock := fun placed hmem =>
      (placeSteps_bounds (hchosen.subset hmem)).1
    rw [sorted_four] at hsorted
    rw [forall_mem_four] at hsame
    rw [hfilterA, hfilterB, hfilterC, hfilterD]
    refine ⟨_, _, _, _, _, rfl, rfl, rfl, rfl, ?_, ⟨?_, ?_, ?_⟩, hsorted⟩
    · refine (setsUpGo_read (mem_of_filter hfilterB).2).mpr ?_
      rw [hstepB]
      exact hpinned
    · exact hsame.1.trans hsame.2.1.symm
    · exact hsame.2.1.trans hsame.2.2.1.symm
    · exact hsame.2.2.1.trans hsame.2.2.2.symm

/-- Of a workflow with aligned steps, the check judges the jobs that can be seen. -/
theorem checkCiGoPolicy_seen (workflow : Workflow) (haligned : ∀ step ∈ workflow.seen.flatten, step.Aligned) :
    checkCiGoPolicy (some workflow.text) = .ok [] ↔ ProvisionedJobs workflow.seen := by
  have hplaced : ∀ placed ∈ workflow.placed, placed.step.Aligned := fun placed hmem =>
    haligned _ (workflow.placed_step ▸ List.mem_map_of_mem hmem)
  obtain ⟨found, hscan, hfound⟩ := scanBlocks_recovered 0 workflow.blocks
  have hread := (recovered_exact_iff hfound).mpr hplaced
  rw [checkCiGoPolicy, workflowSteps_scan, hscan, hread, Except.map, Except.ok.injEq]
  exact ciGoErrors_placed workflow

/-- With dashes that are deeper than their keys, every step can be seen. -/
theorem Workflow.seen_eq_jobs {workflow : Workflow} (hindented : ∀ block ∈ workflow.blocks, block.indented = true) :
    workflow.seen = workflow.jobs :=
  List.map_congr_left fun block hblock => if_pos (hindented block hblock)

/-- **An accepted workflow is provisioned, and a provisioned one is accepted.**  For every workflow whose
steps the scanner reads as they are written, the check reports nothing exactly when the workflow has one
pinned setup-go step and, in the same block and in this order, one policy check before it and one
verification of the version and one gate behind it. -/
theorem checkCiGoPolicy_iff (workflow : Workflow) (hindented : ∀ block ∈ workflow.blocks, block.indented = true)
    (haligned : ∀ step ∈ workflow.jobs.flatten, step.Aligned) :
    checkCiGoPolicy (some workflow.text) = .ok [] ↔ workflow.Provisioned := by
  have hseen := Workflow.seen_eq_jobs hindented
  rw [Workflow.Provisioned, ← hseen]
  exact checkCiGoPolicy_seen workflow (hseen ▸ haligned)

/-- **Dashes in the column of the key hide a job.**  Jobs that are added below the others with their dashes in
the column of their `steps:` keys change nothing that is reported: no second setup-go action, unconditional
gate or unpinned reference in them is ever seen. -/
theorem checkCiGoPolicy_flush (workflow more : Workflow) (hidden : List StepsBlock)
    (hmore : more.blocks = workflow.blocks ++ hidden) (hflush : ∀ block ∈ hidden, block.indented = false) :
    checkCiGoPolicy (some more.text) = checkCiGoPolicy (some workflow.text) := by
  rw [checkCiGoPolicy, checkCiGoPolicy, workflowSteps_flush hmore hflush]

/-! ## What the policy cannot see -/

/-- The step is of a kind that the policy counts. -/
def Step.Staged (step : Step) : Bool :=
  step.UsesSetupGo || step.Runs [policyScript] || step.Runs expectedGoversionScripts || step.Runs [gateScript]

/-- The steps that cannot be seen: their dashes are in the column of their key. -/
def Workflow.hidden (workflow : Workflow) : List Step :=
  (workflow.blocks.filter fun block => !block.indented).flatMap (·.steps)

/-- Every step can be seen, or it is hidden. -/
theorem Workflow.perm_jobs (workflow : Workflow) :
    workflow.jobs.flatten.Perm (workflow.seen.flatten ++ workflow.hidden) := by
  unfold Workflow.jobs Workflow.seen Workflow.hidden
  induction workflow.blocks with
  | nil => exact .nil
  | cons block blocks ih =>
    rw [List.map_cons, List.map_cons, List.flatten_cons, List.flatten_cons, List.filter_cons]
    unfold StepsBlock.seen
    cases block.indented with
    | true =>
      rw [if_pos rfl, if_neg (by simp), List.append_assoc]
      exact ih.append_left _
    | false =>
      rw [if_neg Bool.false_ne_true, if_pos (by simp), List.flatMap_cons, List.nil_append]
      exact (ih.append_left _).trans (List.perm_append_comm_assoc _ _ _)

/-- Of a kind that can be seen once, there is one step in the workflow exactly if none is hidden. -/
theorem filter_jobs {workflow : Workflow} {kind : Step → Bool} {step : Step}
    (hseen : workflow.seen.flatten.filter kind = [step]) :
    (∃ other, workflow.jobs.flatten.filter kind = [other]) ↔ ∀ hidden ∈ workflow.hidden, kind hidden = false := by
  have hperm := workflow.perm_jobs.filter kind
  rw [List.filter_append, hseen] at hperm
  have hlength := hperm.length_eq
  rw [List.length_append, List.length_singleton] at hlength
  rw [← List.length_eq_one_iff, hlength]
  simp only [Nat.add_eq_left, List.length_eq_zero_iff, List.filter_eq_nil_iff, Bool.not_eq_true]

/-- That step is the one that can be seen. -/
theorem filter_jobs_eq {workflow : Workflow} {kind : Step → Bool} {step : Step}
    (hseen : workflow.seen.flatten.filter kind = [step]) (hhidden : ∀ hidden ∈ workflow.hidden, kind hidden = false) :
    workflow.jobs.flatten.filter kind = [step] := by
  have hnone : workflow.hidden.filter kind = [] :=
    List.filter_eq_nil_iff.mpr fun hidden hmem => by simp [hhidden hidden hmem]
  have hperm := workflow.perm_jobs.filter kind
  rw [List.filter_append, hseen, hnone, List.append_nil] at hperm
  exact List.perm_singleton.mp hperm

theorem staged_iff {workflow : Workflow} : (∀ step ∈ workflow.hidden, step.Staged = false) ↔
    (∀ step ∈ workflow.hidden, step.Runs [policyScript] = false) ∧
      (∀ step ∈ workflow.hidden, step.UsesSetupGo = false) ∧
      (∀ step ∈ workflow.hidden, step.Runs expectedGoversionScripts = false) ∧
      ∀ step ∈ workflow.hidden, step.Runs [gateScript] = false := by
  simp only [Step.Staged, Bool.or_eq_false_iff, ← forall_and]
  refine forall_congr' fun step => forall_congr' fun _ => ?_
  tauto

/-- When the jobs that can be seen are provisioned, the workflow is if nothing that counts is hidden. -/
theorem provisioned_iff {workflow : Workflow} (hseen : ProvisionedJobs workflow.seen) :
    workflow.Provisioned ↔ ∀ step ∈ workflow.hidden, step.Staged = false := by
  obtain ⟨job, hjob, preflight, setup, version, gate, hsub, hpreflight, hsetup, hversion, hgate, hpinned⟩ := hseen
  rw [staged_iff]
  constructor
  · rintro ⟨-, -, preflight', setup', version', gate', -, hpreflight', hsetup', hversion', hgate', -⟩
    exact ⟨(filter_jobs hpreflight).mp ⟨_, hpreflight'⟩, (filter_jobs hsetup).mp ⟨_, hsetup'⟩,
      (filter_jobs hversion).mp ⟨_, hversion'⟩, (filter_jobs hgate).mp ⟨_, hgate'⟩⟩
  · rintro ⟨hnoPreflight, hnoSetup, hnoVersion, hnoGate⟩
    obtain ⟨block, hblock, rfl⟩ := List.mem_map.mp hjob
    have hindented : block.seen.Sublist block.steps := by
      unfold StepsBlock.seen
      split
      · exact List.Sublist.refl _
      · exact List.nil_sublist _
    exact ⟨block.steps, List.mem_map_of_mem hblock, preflight, setup, version, gate, hsub.trans hindented,
      filter_jobs_eq hpreflight hnoPreflight, filter_jobs_eq hsetup hnoSetup, filter_jobs_eq hversion hnoVersion,
      filter_jobs_eq hgate hnoGate, hpinned⟩

/-- **When an accepted workflow is provisioned.**  A workflow with aligned steps that is accepted is
provisioned, unless its visible jobs alone are and one of the hidden steps counts for the policy. -/
theorem checkCiGoPolicy_sound_iff (workflow : Workflow) (haligned : ∀ step ∈ workflow.jobs.flatten, step.Aligned) :
    (checkCiGoPolicy (some workflow.text) = .ok [] → workflow.Provisioned) ↔
      (ProvisionedJobs workflow.seen → ∀ step ∈ workflow.hidden, step.Staged = false) := by
  have hseen : ∀ step ∈ workflow.seen.flatten, step.Aligned := fun step hstep =>
    haligned step (workflow.perm_jobs.mem_iff.mpr (List.mem_append_left _ hstep))
  rw [checkCiGoPolicy_seen workflow hseen]
  exact forall_congr' provisioned_iff

/-! ## A small workflow -/

section Sample

/-- `uses` -/
def usesKey : Key := ⟨str "uses", by decide, by decide⟩

/-- `with` -/
def withKey : Key := ⟨str "with", by decide, by decide⟩

/-- `go-version-file` -/
def versionFileKey : Key := ⟨str "go-version-file", by decide, by decide⟩

/-- `cache` -/
def cacheKey : Key := ⟨str "cache", by decide, by decide⟩

/-- A step with one key. -/
def runStep (script : Scalar) : Step := ⟨0, ⟨runKey, .scalar script, []⟩, [], List.nodup_singleton _⟩

/-- A setup-go step that is pinned to a commit. -/
def setupStep : Step where
  gap := 0
  first := ⟨usesKey, .scalar (.plainText (str "actions/setup-go@924ae3a1cded613372ab5595356fb5720e22ba16")
    (by decide) (by decide) (by decide) (by decide) (by decide)), []⟩
  rest := [⟨withKey, .mapping 1 [
    (versionFileKey, .plainText (str "go.mod") (by decide) (by decide) (by decide) (by decide) (by decide)),
    (cacheKey, falseText)] (by decide), []⟩]
  distinct := by decide

/-- The four steps that the policy asks for, in one job. -/
def sampleBlock : StepsBlock where
  lead := [.line (str "name: Check") (by decide), .line (str "on: push") (by decide)]
  indent := 0
  ended := trivial
  deeper := 2
  steps := [
    runStep (.plainText policyScript (by decide) (by decide) (by decide) (by decide) (by decide)), setupStep,
    runStep (.plainText (str "GOTOOLCHAIN=local go env GOVERSION")
      (by decide) (by decide) (by decide) (by decide) (by decide)),
    runStep (.plainText gateScript (by decide) (by decide) (by decide) (by decide) (by decide))]

/-- A workflow with this job only. -/
def sampleWorkflow : Workflow := ⟨[sampleBlock], [], trivial, ⟨nofun, nofun⟩, trivial⟩

theorem aligned_sample : ∀ step ∈ sampleWorkflow.jobs.flatten, step.Aligned :=
  forall_mem_four.mpr ⟨.inl rfl, .inr ⟨rfl, rfl⟩, .inl rfl, .inl rfl⟩

theorem indented_sample : ∀ block ∈ sampleWorkflow.blocks, block.indented = true := by decide

theorem checkCiGoPolicy_iff_sample : sampleWorkflow.Provisioned :=
  (checkCiGoPolicy_iff sampleWorkflow indented_sample aligned_sample).mp (by decide +kernel)

/-- A job that sets Go up from a movable tag, with its dashes in the column of the key. -/
def releaseBlock : StepsBlock where
  lead := [.line (str "release:") (by decide)]
  indent := 0
  ended := trivial
  deeper := 0
  steps := [⟨0, ⟨usesKey, .scalar (.plainText (str "actions/setup-go@v5")
    (by decide) (by decide) (by decide) (by decide) (by decide)), []⟩, [], List.nodup_singleton _⟩]

theorem closed_sample : Closed [sampleBlock] releaseBlock.lines := by
  refine ⟨⟨?_, ?_⟩, trivial⟩ <;> decide

/-- Both jobs. -/
def releaseWorkflow : Workflow := ⟨[sampleBlock, releaseBlock], [], trivial, closed_sample.1, ⟨nofun, nofun⟩, trivial⟩

theorem checkCiGoPolicy_flush_sample : checkCiGoPolicy (some releaseWorkflow.text) = .ok [] := by
  rw [checkCiGoPolicy_flush sampleWorkflow releaseWorkflow [releaseBlock] rfl (by decide)]
  decide +kernel

theorem checkCiGoPolicy_sound_iff_sample :
    checkCiGoPolicy (some sampleWorkflow.text) = .ok [] ∧ sampleWorkflow.Provisioned := by
  have haccepted : checkCiGoPolicy (some sampleWorkflow.text) = .ok [] := by decide +kernel
  have hsound := (checkCiGoPolicy_sound_iff sampleWorkflow aligned_sample).mpr fun _ => nofun
  exact ⟨haccepted, hsound haccepted⟩

/-- The second setup-go step is not seen. -/
theorem checkCiGoPolicy_release : checkCiGoPolicy (some releaseWorkflow.text) = .ok [] ∧
    ¬ releaseWorkflow.Provisioned := by
  refine ⟨by decide +kernel, ?_⟩
  rintro ⟨-, -, -, setup, -, -, -, -, hsetup, -⟩
  have htwice : (releaseWorkflow.jobs.flatten.filter (·.UsesSetupGo)).length = 2 := by decide +kernel
  rw [hsetup] at htwice
  cases htwice

end Sample

end FastGate.CheckRepository
