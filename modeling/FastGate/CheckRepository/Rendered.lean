/-
# FastGate.CheckRepository.Rendered — the steps that a workflow was written with

Block-style YAML from the writer's side.  A `Workflow` holds the steps of every `steps:` key with the
layout they are written in: how deep the dashes stand, how many spaces follow a dash, how much deeper
than its key a nested mapping or a block scalar is, and where blank lines are.  What stands above a key
and below the last job is a list of passages, lines and block scalars that are none of a step's.

* A `Scalar` is one line for `str.splitlines`, without white space at its ends, without quotes, and not
  to be mistaken for the header of a block scalar; one blank sets a comment apart from it.
* The line of a `steps:` key holds nothing else, and its first step follows directly.
* Comments between the lines of a step are not written, and neither are flow style, anchors or documents
  of more than one mapping.

`Step.read` is the step as the scanner is to return it, `Step.Aligned` says that its keys are where the
scanner looks for them, and `Recovered` what the scanner is to make of each step.  The lemmas about the
values behind the keys come first: whatever is written, `yaml_scalar` finds the value again.
-/
import FastGate.CheckRepository.Scanner

open FastGate.Lines FastGate.Python

namespace FastGate.CheckRepository

/-! ## What is written -/

/-- A value on the line of its key, perhaps with a comment behind it. -/
structure Scalar where
  text : Str
  comment : Option Str
  oneLine : OneLine text ∧ ∀ c ∈ comment, OneLine c
  stripped : strip text = text
  plain : text.head? ≠ some 0x22 ∧ text.head? ≠ some 0x27 ∧ text.head? ≠ some 0x23
  uncommented : cutAt (str " #") text = none
  commented : comment ≠ none → text ≠ []
  opensNone : opensBlock (0x3A :: 0x20 :: (text ++ comment.elim [] (str " #" ++ ·))) = false

/-- The value and the comment behind it, which one blank sets apart. -/
def Scalar.shown (value : Scalar) : Str := value.text ++ value.comment.elim [] (str " #" ++ ·)

/-- What stands behind a key.  A nested part is `deeper + 1` columns deeper than the key. -/
inductive Content where
  | scalar (value : Scalar)
  | mapping (deeper : Nat) (entries : List (Key × Scalar)) (distinct : (entries.map (·.1.text)).Nodup)
  | block (header : Str) (isHeader : blockScalarValue header = true) (deeper : Nat) (body : List Str)
      (oneLine : ∀ line ∈ body, OneLine line)

/-- An entry of a step, and the blank lines below it. -/
structure Entry where
  key : Key
  content : Content
  blanks : List Nat

/-- A step: `gap` is the number of spaces between the dash and the first key, less one. -/
structure Step where
  gap : Nat
  first : Entry
  rest : List Entry
  distinct : ((first :: rest).map (·.key.text)).Nodup

/-- All entries, the one on the line of the dash first. -/
def Step.entries (step : Step) : List Entry := step.first :: step.rest

/-! ## How it is written -/

/-- What stands on the line of the key. -/
def Content.onLine : Content → Str
  | .scalar value => 0x20 :: value.shown
  | .mapping .. => []
  | .block header .. => 0x20 :: header

/-- The lines below the key. -/
def Content.below (column : Nat) : Content → List Str
  | .scalar _ => []
  | .mapping deeper entries _ =>
    entries.map fun entry => spaces (column + 1 + deeper) ++ entry.1.entry (0x20 :: entry.2.shown)
  | .block _ _ deeper body _ => body.map (spaces (column + 1 + deeper) ++ ·)

/-- What stands below the line of the key, which is in the given column. -/
def Entry.below (column : Nat) (entry : Entry) : List Str :=
  entry.content.below column ++ entry.blanks.map spaces

/-- The lines of an entry that does not stand behind a dash. -/
def Entry.lines (column : Nat) (entry : Entry) : List Str :=
  (spaces column ++ entry.key.entry entry.content.onLine) :: entry.below column

/-- The column of the keys of a step whose dash is in the given column. -/
def Step.column (dash : Nat) (step : Step) : Nat := dash + 2 + step.gap

/-- The lines of a step whose dash is in the given column. -/
def Step.lines (dash : Nat) (step : Step) : List Str :=
  (spaces dash ++ step.first.key.item step.gap step.first.content.onLine) ::
    (step.first.below (step.column dash) ++ step.rest.flatMap (Entry.lines (step.column dash)))

/-! ## What is to be read -/

/-- The value that is read behind the key. -/
def Content.value : Content → Str
  | .scalar value => value.text
  | .mapping .. => []
  | .block header .. => header

/-- The entries of a nested mapping. -/
def Content.nested : Content → Dict Str
  | .mapping _ entries _ => entries.map fun entry => (entry.1.text, entry.2.text)
  | _ => []

/-- The script that a `run` with this content runs. -/
def Content.script : Content → Str
  | .scalar value => value.text
  | .mapping .. => []
  | .block _ _ _ body _ => strip (dedent (unlines body))

/-- The content that the step has under a name. -/
def Step.content? (step : Step) (name : Str) : Option Content :=
  (step.entries.find? (·.key.text = name)).map (·.content)

/-- The step as the scanner is to return it. -/
def Step.read (step : Step) (position stepsBlock : Nat) : WorkflowStep where
  position := position
  stepsBlock := stepsBlock
  fields := step.entries.map fun entry => (entry.key.text, entry.content.value)
  withFields := (step.content? (str "with")).elim [] Content.nested
  runScript := (step.content? (str "run")).map Content.script

/-- The content is a block scalar. -/
def Content.isBlock : Content → Bool
  | .block .. => true
  | _ => false

/-- The keys of the step are where the scanner looks for them: there is one key only, or a single space
follows the dash and the line of the dash opens no block scalar. -/
def Step.Aligned (step : Step) : Prop :=
  step.rest = [] ∨ (step.gap = 0 ∧ step.first.content.isBlock = false)

/-! ## Workflows -/

/-- Lines of which the first that is neither blank nor a comment is no deeper than a column. -/
def Outdents (column : Nat) (lines : List Str) : Prop :=
  ∀ line ∈ lines.find? fun line => !ignorable line, indentOf line ≤ column

instance (column : Nat) (lines : List Str) : Decidable (Outdents column lines) :=
  inferInstanceAs (Decidable (∀ line ∈ _, _))

/-- A line that is none of a step's, as far as the scanner is concerned. -/
def Quiet (line : Str) : Prop := OneLine line ∧ opensBlock line = false ∧ stepsKey line = none

instance (line : Str) : Decidable (Quiet line) := inferInstanceAs (Decidable (_ ∧ _))

/-- What stands above a `steps:` key and below the last job: a line, or a key with a block scalar. -/
inductive Passage where
  | line (text : Str) (quiet : Quiet text)
  | block (opener : Str) (shown : OneLine opener ∧ ignorable opener = false) (opens : opensBlock opener = true)
      (noSteps : stepsKey opener = none) (body : List Str)
      (deep : ∀ line ∈ body, OneLine line ∧ (strip line = [] ∨ indentOf opener < indentOf line))

/-- The lines of a passage, as they are written. -/
def Passage.lines : Passage → List Str
  | .line text _ => [text]
  | .block opener _ _ _ body _ => opener :: body

/-- The lines of some passages. -/
def passageLines (passages : List Passage) : List Str := passages.flatMap Passage.lines

/-- Every block scalar among some passages has ended before what follows it. -/
def Ended : List Passage → List Str → Prop
  | [], _ => True
  | .line _ _ :: passages, follow => Ended passages follow
  | .block opener _ _ _ _ _ :: passages, follow =>
    Outdents (indentOf opener) (passageLines passages ++ follow) ∧ Ended passages follow

/-- The line of a `steps:` key. -/
def stepsHeader (indent : Nat) : Str := spaces indent ++ str "steps:"

/-- A `steps:` key with what is above it, and its steps with their dashes `deeper` columns deeper. -/
structure StepsBlock where
  lead : List Passage
  indent : Nat
  ended : Ended lead [stepsHeader indent]
  deeper : Nat
  steps : List Step

namespace StepsBlock

/-- The column of the dashes. -/
def dash (block : StepsBlock) : Nat := block.indent + block.deeper

/-- The dashes are deeper than the key.  YAML allows them in its column, too. -/
def indented (block : StepsBlock) : Bool := 0 < block.deeper

/-- The steps that the scanner can see: none, if the first dash ends the block. -/
def seen (block : StepsBlock) : List Step := if block.indented then block.steps else []

/-- The line of the key. -/
def header (block : StepsBlock) : Str := stepsHeader block.indent

/-- The lines of the block, from those above its key on. -/
def lines (block : StepsBlock) : List Str :=
  passageLines block.lead ++ block.header :: block.steps.flatMap (Step.lines block.dash)

end StepsBlock

/-- What follows ends a block of steps. -/
def Closes (indent : Nat) (follow : List Str) : Prop :=
  (∀ line ∈ follow.head?, strip line ≠ [] ∧ indentOf line ≤ indent) ∧ Outdents indent follow

/-- The lines of some blocks and of what is below them. -/
def written : List StepsBlock → List Str → List Str
  | [], tail => tail
  | block :: blocks, tail => block.lines ++ written blocks tail

/-- Each block ends before the next one begins. -/
def Closed : List StepsBlock → List Str → Prop
  | [], _ => True
  | block :: blocks, tail => Closes block.indent (written blocks tail) ∧ Closed blocks tail

/-- A workflow: the `steps:` keys of its jobs with all that is above each, and what is below the last. -/
structure Workflow where
  blocks : List StepsBlock
  tail : List Passage
  ended : Ended tail []
  closed : Closed blocks (passageLines tail)

/-- The text of a workflow. -/
def Workflow.text (workflow : Workflow) : Str := unlines (written workflow.blocks (passageLines workflow.tail))

/-! ## Where it is read -/

/-- The step, where the text has it. -/
structure Placed where
  position : Nat
  stepsBlock : Nat
  step : Step

/-- What the scanner makes of a step: it is found where it is, and read as it was written if the scanner
looks in the right places.  If not, every key but the first is lost. -/
def Recovered (placed : Placed) (found : WorkflowStep) : Prop :=
  found.position = placed.position ∧ found.stepsBlock = placed.stepsBlock ∧
    (placed.step.Aligned → found = placed.step.read placed.position placed.stepsBlock) ∧
    (¬ placed.step.Aligned →
      found.fields = [(placed.step.first.key.text, placed.step.first.content.value)])

/-- The steps of a block, each where its first line begins. -/
def placeSteps (dash stepsBlock : Nat) : Nat → List Step → List Placed
  | _, [] => []
  | position, step :: steps => ⟨position, stepsBlock, step⟩ ::
      placeSteps dash stepsBlock (position + (unlines (step.lines dash)).length) steps

/-- The steps that can be seen, each where its first line begins and with where its `steps:` key is. -/
def placeBlocks : Nat → List StepsBlock → List Placed
  | _, [] => []
  | position, block :: blocks =>
    let header := position + (unlines (passageLines block.lead)).length
    placeSteps block.dash header (header + (lineOf block.header).length) block.seen ++
      placeBlocks (position + (unlines block.lines).length) blocks

/-- The steps of a workflow that can be seen. -/
def Workflow.placed (workflow : Workflow) : List Placed := placeBlocks 0 workflow.blocks

/-- The steps of each `steps:` key. -/
def Workflow.jobs (workflow : Workflow) : List (List Step) := workflow.blocks.map (·.steps)

/-- The steps of each `steps:` key that can be seen. -/
def Workflow.seen (workflow : Workflow) : List (List Step) := workflow.blocks.map (·.seen)

/-! ## Values on the line of their key -/

/-- The first comment sign is the one behind the value. -/
theorem cutAt_comment {text : Str} (h : cutAt (str " #") text = none) (comment : Str) :
    cutAt (str " #") (text ++ 0x20 :: 0x23 :: comment) = some (text, comment) := by
  induction text with
  | nil =>
    have hstart : str " #" <+: 0x20 :: 0x23 :: comment := List.prefix_append (str " #") comment
    rw [List.nil_append, cutAt, if_pos hstart]
    rfl
  | cons c cs ih =>
    rw [cutAt] at h
    split at h
    · cases h
    · rename_i hno
      have hstart : ¬ str " #" <+: c :: cs ++ 0x20 :: 0x23 :: comment := by
        rintro hprefix
        obtain ⟨rfl, hnext⟩ := List.cons_prefix_cons.mp hprefix
        cases cs with
        | nil => exact absurd (List.cons_prefix_cons.mp hnext).1 (by decide)
        | cons d ds =>
          obtain ⟨rfl, -⟩ := List.cons_prefix_cons.mp hnext
          exact hno (List.prefix_append (str " #") ds)
      rw [List.cons_append] at hstart ⊢
      rw [cutAt, if_neg hstart, ih (Option.map_eq_none_iff.mp h)]
      rfl

/-- A value in quotes would start with one. -/
theorem not_quoted {value : Str} (h : value.head? ≠ some 0x22 ∧ value.head? ≠ some 0x27) :
    ¬ (2 ≤ value.length ∧ value.head? = value.getLast? ∧
      (value.head? = some 0x22 ∨ value.head? = some 0x27)) :=
  fun hquoted => hquoted.2.2.elim h.1 h.2

theorem yamlScalar_plain {value : Str} (hstrip : strip value = value) (hcut : cutAt (str " #") value = none)
    (hquote : value.head? ≠ some 0x22 ∧ value.head? ≠ some 0x27) : yamlScalar value = value := by
  unfold yamlScalar
  dsimp only
  rw [hstrip, hcut, Option.isSome_none, if_neg Bool.false_ne_true, if_neg (not_quoted hquote)]

theorem Scalar.flush_text (value : Scalar) (h : value.text ≠ []) : Flush value.text := by
  obtain ⟨c, cs, htext⟩ := List.exists_cons_of_ne_nil h
  refine ⟨c, cs, htext, ?_⟩
  have hleft := (strip_eq_self value.stripped).1
  rw [htext] at hleft
  rw [← Bool.not_eq_true]
  intro hspace
  unfold lstrip at hleft
  rw [List.dropWhile_cons_of_pos hspace] at hleft
  have hlength := (List.dropWhile_suffix isSpace : cs.dropWhile isSpace <:+ cs).length_le
  rw [hleft, List.length_cons] at hlength
  omega

theorem Scalar.yamlScalar_shown (value : Scalar) : yamlScalar (lstrip (0x20 :: value.shown)) = value.text := by
  obtain ⟨hleft, hright⟩ := strip_eq_self value.stripped
  have hspace : lstrip (0x20 :: value.shown) = lstrip value.shown := rfl
  rw [hspace]
  unfold Scalar.shown
  cases hcomment : value.comment with
  | none =>
    rw [Option.elim_none, List.append_nil, hleft]
    exact yamlScalar_plain value.stripped value.uncommented ⟨value.plain.1, value.plain.2.1⟩
  | some comment =>
    have hne : value.text ≠ [] := value.commented (by rw [hcomment]; exact nofun)
    -- a value with a comment is not empty, and nothing is stripped at its front
    have hfront : ∀ behind : Str, lstrip (value.text ++ behind) = value.text ++ behind := by
      intro behind
      obtain ⟨c, cs, htext, hc⟩ := value.flush_text hne
      exact Flush.lstrip ⟨c, cs ++ behind, by rw [htext]; rfl, hc⟩
    have hstrip : strip (value.text ++ 0x20 :: 0x23 :: comment) =
        value.text ++ 0x20 :: 0x23 :: rstrip comment := by
      have hsign := rstrip_append (c := 0x23) rfl (value.text ++ [0x20]) comment
      rw [List.append_assoc, List.append_assoc] at hsign
      unfold strip
      rw [hfront]
      exact hsign
    show yamlScalar (lstrip (value.text ++ 0x20 :: 0x23 :: comment)) = value.text
    have hcut := cutAt_comment value.uncommented (rstrip comment)
    have hbefore : cutBefore (str " #") (value.text ++ 0x20 :: 0x23 :: rstrip comment) = value.text := by
      unfold cutBefore
      rw [hcut]
    unfold yamlScalar
    dsimp only
    rw [hfront, hstrip, hbefore, hcut, Option.isSome_some, if_pos rfl, hright,
      if_neg (not_quoted ⟨value.plain.1, value.plain.2.1⟩)]

/-- The header of a block scalar has neither white space nor quotes. -/
theorem header_chars {header : Str} (h : blockScalarValue header = true) :
    ∃ c cs, header = c :: cs ∧ (c = 0x7C ∨ c = 0x3E) ∧ ∀ d ∈ cs, inBlockHeader d = true := by
  unfold blockScalarValue at h
  split at h
  · cases h
  · rename_i c cs
    rw [Bool.and_eq_true, decide_eq_true_eq, List.all_eq_true] at h
    exact ⟨c, cs, rfl, h.1, h.2⟩

theorem inBlockHeader_range {c : Nat} (h : inBlockHeader c = true) :
    c = 0x2B ∨ c = 0x2D ∨ (0x30 ≤ c ∧ c ≤ 0x39) := by
  rw [inBlockHeader, decide_eq_true_eq] at h
  omega

theorem header_solid {header : Str} (h : blockScalarValue header = true) :
    ∀ c ∈ header, isSpace c = false ∧ isLineBoundary c = false ∧ c ≠ 0x20 := by
  obtain ⟨c, cs, rfl, hc, hcs⟩ := header_chars h
  have hsolid : ∀ d, (d = 0x7C ∨ d = 0x3E ∨ inBlockHeader d = true) →
      isSpace d = false ∧ isLineBoundary d = false ∧ d ≠ 0x20 := by
    intro d hd
    have hrange : d = 0x7C ∨ d = 0x3E ∨ d = 0x2B ∨ d = 0x2D ∨ (0x30 ≤ d ∧ d ≤ 0x39) :=
      hd.imp_right fun hd => hd.imp_right inBlockHeader_range
    rw [isSpace, isLineBoundary, decide_eq_false_iff_not, decide_eq_false_iff_not]
    omega
  rw [List.forall_mem_cons]
  exact ⟨hsolid c (hc.imp_right .inl), fun d hd => hsolid d (.inr (.inr (hcs d hd)))⟩

theorem yamlScalar_header {header : Str} (h : blockScalarValue header = true) :
    yamlScalar (lstrip (0x20 :: header)) = header := by
  have hsolid := header_solid h
  have hstrip : strip header = header := strip_solid fun c hc => (hsolid c hc).1
  have hcut : cutAt (str " #") header = none := by
    rw [Option.eq_none_iff_forall_ne_some]
    rintro ⟨before, after⟩ hcut
    refine (hsolid 0x20 ?_).2.2 rfl
    rw [cutAt_sound hcut]
    exact List.mem_append_left _ (List.mem_append_right _ (.head _))
  have hspace : lstrip (0x20 :: header) = lstrip header := rfl
  rw [hspace, (strip_eq_self hstrip).1]
  refine yamlScalar_plain hstrip hcut ?_
  obtain ⟨c, cs, rfl, hc, -⟩ := header_chars h
  rw [List.head?_cons, ne_eq, ne_eq, Option.some_inj, Option.some_inj]
  omega

/-- A block scalar is opened by its header, whatever comment is behind it. -/
theorem opensBlock_header {header tail : Str} (h : blockScalarValue header = true)
    (htail : tail = [] ∨ ∃ comment, tail = str " #" ++ comment) :
    opensBlock (0x3A :: 0x20 :: (header ++ tail)) = true := by
  obtain ⟨c, cs, rfl, hc, hcs⟩ := header_chars h
  have hrest : commentOrEnd ((cs ++ tail).dropWhile inBlockHeader) = true := by
    rw [List.dropWhile_append_of_pos hcs]
    rcases htail with rfl | ⟨comment, rfl⟩
    · rfl
    · rfl
  have hindicator : blockIndicator (0x20 :: (c :: cs ++ tail)) = true := by
    have hflush : Flush (c :: (cs ++ tail)) := by
      refine ⟨c, cs ++ tail, rfl, ?_⟩
      rcases hc with rfl | rfl
      · rfl
      · rfl
    have hstripped : lstrip (0x20 :: (c :: cs ++ tail)) = c :: (cs ++ tail) := hflush.lstrip
    unfold blockIndicator
    rw [hstripped]
    show (decide (c = 0x7C ∨ c = 0x3E) && commentOrEnd ((cs ++ tail).dropWhile inBlockHeader)) = true
    rw [hrest, decide_eq_true hc]
    rfl
  unfold opensBlock
  rw [hindicator]
  rfl

theorem Scalar.not_header (value : Scalar) : blockScalarValue value.text = false := by
  rw [← Bool.not_eq_true]
  intro h
  have hopens : opensBlock (0x3A :: 0x20 :: (value.text ++ value.comment.elim [] (str " #" ++ ·))) = true := by
    refine opensBlock_header h ?_
    cases value.comment with
    | none => exact .inl rfl
    | some comment => exact .inr ⟨comment, rfl⟩
  rw [value.opensNone] at hopens
  cases hopens

theorem Scalar.oneLine_shown (value : Scalar) : OneLine (0x20 :: value.shown) := by
  have hshown : OneLine value.shown := by
    refine value.oneLine.1.append ?_
    cases hcomment : value.comment with
    | none => exact fun c hc => absurd hc List.not_mem_nil
    | some comment => exact OneLine.append (by decide) (value.oneLine.2 comment hcomment)
  intro c hc
  rcases List.mem_cons.mp hc with rfl | hc
  · rfl
  · exact hshown c hc

namespace Content

variable (content : Content)

theorem yamlScalar_onLine : yamlScalar (lstrip content.onLine) = content.value := by
  cases content with
  | scalar value => exact value.yamlScalar_shown
  | mapping deeper entries distinct => rfl
  | block header isHeader deeper body oneLine => exact yamlScalar_header isHeader

theorem opensBlock_onLine : opensBlock (0x3A :: content.onLine) = content.isBlock := by
  cases content with
  | scalar value => exact value.opensNone
  | mapping deeper entries distinct => rfl
  | block header isHeader deeper body oneLine =>
    have h := opensBlock_header isHeader (.inl rfl)
    rwa [List.append_nil] at h

theorem blockScalarValue_value : blockScalarValue content.value = content.isBlock := by
  cases content with
  | scalar value => exact value.not_header
  | mapping deeper entries distinct => rfl
  | block header isHeader deeper body oneLine => exact isHeader

theorem oneLine_onLine : OneLine content.onLine := by
  cases content with
  | scalar value => exact value.oneLine_shown
  | mapping deeper entries distinct => exact fun c hc => absurd hc List.not_mem_nil
  | block header isHeader deeper body oneLine =>
    intro c hc
    rcases List.mem_cons.mp hc with rfl | hc
    · rfl
    · exact (header_solid isHeader c hc).2.1

end Content

end FastGate.CheckRepository
