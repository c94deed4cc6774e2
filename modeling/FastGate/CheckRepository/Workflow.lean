/-
# FastGate.CheckRepository.Workflow — the steps of a CI workflow

`workflow_steps` of `scripts/check_repository.py`, a scanner of block-style YAML by indentation.  A
first pass hides the lines of block scalars; a second one looks for `steps:` keys, cuts the lines below
each into items at the dashes, and reads the direct keys of every item.

The lists of raw lines, structure lines and positions of the source are one list of `Line`s here, and a
range of indices is a list of consecutive lines.  The regular expressions are functions on lines:
`keyValue`, `stepsKey`, `stepStart` and `mappingKey` return the groups of a match.  A line that is hidden
keeps its raw text, which is what scripts are read from.

The three notions of indentation are kept as the source has them: that of a line, that of a dash, and
the column two behind a dash, in which alone the keys of a step are looked for.  An item whose first line
is no key behind a dash raises; `workflow_steps` cannot make one.
-/
import FastGate.Python.Lines

open FastGate.Lines FastGate.Python

namespace FastGate.CheckRepository

/-! ## The patterns -/

/-- `[A-Za-z0-9_-]` -/
def isKeyChar (c : Nat) : Bool :=
  (0x41 ≤ c ∧ c ≤ 0x5A) ∨ (0x61 ≤ c ∧ c ≤ 0x7A) ∨ (0x30 ≤ c ∧ c ≤ 0x39) ∨ c = 0x5F ∨ c = 0x2D

/-- `[0-9+-]` -/
def inBlockHeader (c : Nat) : Bool := (0x30 ≤ c ∧ c ≤ 0x39) ∨ c = 0x2B ∨ c = 0x2D

/-- `\s*(?:#.*)?$` at the start of what is left of a line. -/
def commentOrEnd (s : Str) : Bool :=
  match lstrip s with
  | [] => true
  | c :: _ => c = 0x23

/-- `\s*[|>][0-9+-]*\s*(?:#.*)?$` at the start of what is left of a line. -/
def blockIndicator (s : Str) : Bool :=
  match lstrip s with
  | [] => false
  | c :: cs => (c = 0x7C ∨ c = 0x3E) && commentOrEnd (cs.dropWhile inBlockHeader)

/-- A search for `WORKFLOW_BLOCK_SCALAR`. -/
def opensBlock (line : Str) : Bool :=
  match line with
  | [] => false
  | c :: cs => (c = 0x3A && blockIndicator cs) || opensBlock cs

/-- `WORKFLOW_BLOCK_SCALAR_VALUE.fullmatch(value)` -/
def blockScalarValue (value : Str) : Bool :=
  match value with
  | [] => false
  | c :: cs => (c = 0x7C ∨ c = 0x3E) && cs.all inBlockHeader

/-- `(?P<key>[A-Za-z0-9_-]+):\s*(?P<value>.*)$` at the start of what is left of a line. -/
def keyValue (s : Str) : Option (Str × Str) :=
  match s.dropWhile isKeyChar with
  | 0x3A :: rest =>
    if s.takeWhile isKeyChar = [] then none else some (s.takeWhile isKeyChar, lstrip rest)
  | _ => none

/-- `WORKFLOW_STEPS_KEY.match(line)`: the indentation. -/
def stepsKey (line : Str) : Option Nat :=
  let rest := line.dropWhile (· = 0x20)
  if str "steps:" <+: rest ∧ commentOrEnd (rest.drop (str "steps:").length) then some (indentOf line)
  else none

/-- `WORKFLOW_STEP_START.match(line)`: the indentation, the key and the value. -/
def stepStart (line : Str) : Option (Nat × Str × Str) :=
  match line.dropWhile (· = 0x20) with
  | 0x2D :: rest =>
    if rest.head?.any isSpace then (keyValue (lstrip rest)).map fun entry => (indentOf line, entry) else none
  | _ => none

/-- `WORKFLOW_MAPPING_KEY.match(line)`: the indentation, the key and the value. -/
def mappingKey (line : Str) : Option (Nat × Str × Str) :=
  if indentOf line = 0 then none
  else (keyValue (line.dropWhile (· = 0x20))).map fun entry => (indentOf line, entry)

/-- `yaml_scalar` -/
def yamlScalar (rawValue : Str) : Str :=
  let value := strip rawValue
  let value := if (cutAt (str " #") value).isSome then rstrip (cutBefore (str " #") value) else value
  if 2 ≤ value.length ∧ value.head? = value.getLast? ∧ (value.head? = some 0x22 ∨ value.head? = some 0x27) then
    value.tail.dropLast
  else value

/-! ## Lines -/

/-- A line of the workflow: where it begins, its text, and what is left of it outside block scalars. -/
structure Line where
  position : Nat
  raw : Str
  shown : Str
  deriving DecidableEq, Repr

/-- The structure line without its end. -/
def Line.text (line : Line) : Str := rstripNewlines line.shown

/-- The first loop of `workflow_steps`. -/
def structureLines : Option Nat → Nat → List Str → List Line
  | _, _, [] => []
  | blockIndent, position, rawLine :: rest =>
    let line := rstripNewlines rawLine
    if blockIndent.any fun indent => strip line = [] || indent < indentOf line then
      ⟨position, rawLine, if rawLine.getLast? = some lineFeed then [lineFeed] else []⟩ ::
        structureLines blockIndent (position + rawLine.length) rest
    else
      ⟨position, rawLine, rawLine⟩ ::
        structureLines (if opensBlock line then some (indentOf line) else none)
          (position + rawLine.length) rest

/-- Blank, or a comment. -/
def ignorable (line : Str) : Bool :=
  match strip line with
  | [] => true
  | c :: _ => c = 0x23

/-! ## One step -/

/-- One structurally identified step. -/
structure WorkflowStep where
  position : Nat
  stepsBlock : Nat
  fields : Dict Str
  withFields : Dict Str
  runScript : Option Str
  deriving DecidableEq, Repr

/-- `dictionary[key] = value` -/
def assign {α : Type} (dictionary : Dict α) (key : Str) (value : α) : Dict α :=
  if dictionary.has key then dictionary.map fun entry => if entry.1 = key then (key, value) else entry
  else dictionary ++ [(key, value)]

/-- The loop over the direct fields; each is remembered with the lines that follow it. -/
def readFields (fieldIndent : Nat) : List Line → Dict (Str × List Line) → Dict (Str × List Line)
  | [], found => found
  | line :: rest, found =>
    match mappingKey line.text with
    | some (indent, key, value) =>
      readFields fieldIndent rest
        (if indent = fieldIndent then assign found key (yamlScalar value, rest) else found)
    | none => readFields fieldIndent rest found

/-- The loop over the lines below `with:`. -/
def readWith (fieldIndent : Nat) : Option Nat → List Line → Dict Str → Dict Str
  | _, [], found => found
  | nestedIndent, line :: rest, found =>
    if ignorable line.text then readWith fieldIndent nestedIndent rest found
    else if indentOf line.text ≤ fieldIndent then found
    else
      match mappingKey line.text with
      | none => readWith fieldIndent nestedIndent rest found
      | some (indent, key, value) =>
        let nested := nestedIndent.getD indent
        readWith fieldIndent (some nested) rest
          (if indent = nested then assign found key (yamlScalar value) else found)

/-- The body of a block scalar below `run:`. -/
def bodyLines (fieldIndent : Nat) (lines : List Line) : List Str :=
  (lines.takeWhile fun line => strip (rstripNewlines line.raw) = [] ||
    fieldIndent < indentOf (rstripNewlines line.raw)).map (·.raw)

/-- `parse_workflow_step`, for the lines of one item. -/
def parseWorkflowStep (stepsBlock : Nat) : List Line → Except Str WorkflowStep
  | [] => .error (str "workflow step does not begin with a mapping key")
  | first :: rest =>
    match stepStart first.text with
    | none => .error (str "workflow step does not begin with a mapping key")
    | some (itemIndent, key, value) =>
      let fieldIndent := itemIndent + 2
      let found := readFields fieldIndent rest [(key, yamlScalar value, rest)]
      .ok {
        position := first.position
        stepsBlock := stepsBlock
        fields := found.map fun entry => (entry.1, entry.2.1)
        withFields :=
          match Dict.get? found (str "with") with
          | none => []
          | some (_, below) => readWith fieldIndent none below []
        runScript :=
          (Dict.get? found (str "run")).map fun run =>
            if blockScalarValue run.1 then strip (dedent (bodyLines fieldIndent run.2).flatten) else run.1 }

/-! ## All steps -/

/-- The lines below a `steps:` key, up to the first one that is not deeper. -/
def linesBelow (stepsIndent : Nat) (lines : List Line) : List Line :=
  lines.takeWhile fun line => ignorable line.text || stepsIndent < indentOf line.text

/-- The indentation of a dash, where the line starts an item. -/
def dashIndent (line : Line) : Option Nat :=
  if ignorable line.text then none else (stepStart line.text).map (·.1)

/-- The lines from each start on, up to the next one. -/
def splitItems (starts : Line → Bool) : List Line → List (List Line)
  | [] => []
  | line :: rest =>
    if starts line then (line :: rest.takeWhile fun next => !starts next) :: splitItems starts rest
    else splitItems starts rest

/-- The items below a `steps:` key: the first dash fixes the indentation of all of them. -/
def stepItems (stepsIndent : Nat) (lines : List Line) : List (List Line) :=
  let block := linesBelow stepsIndent lines
  match block.findSome? dashIndent with
  | none => []
  | some itemIndent => splitItems (fun line => dashIndent line = some itemIndent) block

/-- The second loop of `workflow_steps`. -/
def stepsOf : List Line → Except Str (List WorkflowStep)
  | [] => .ok []
  | header :: rest => do
    let found ← match stepsKey header.text with
      | none => pure []
      | some stepsIndent => (stepItems stepsIndent rest).mapM (parseWorkflowStep header.position)
    let later ← stepsOf rest
    return found ++ later

/-- `workflow_steps` -/
def workflowSteps (workflow : Str) : Except Str (List WorkflowStep) :=
  stepsOf (structureLines none 0 (splitlinesKeepends workflow))

end FastGate.CheckRepository
