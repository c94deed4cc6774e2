/-
# FastGate.CheckRepository.Recovery — the scanner finds the steps that were written

The lines of the steps of a block fall into items (`mapM_steps`), a block ends where the next one begins
(`halts_written`), and so the scanner goes through a workflow block by block, whatever is written above,
between and below them (`workflowSteps_scan`).

* `workflowSteps_text`: it returns the steps in order, each with its position and that of its key, and
  every step is `Recovered`: read as it was written if its keys are where the scanner looks, and with its
  first key only if not.
* `workflowSteps_exact_iff`: so it returns exactly the steps that were written if and only if all of them
  are aligned.  `workflowSteps_guarded` is a step that is not: its script stands on the line of the dash
  and hides the condition below it.
* `workflowSteps_flush`: a block whose dashes stand in the column of its key has no steps for the
  scanner, since the first dash ends it.

The text above a key and below the last job may hold block scalars of its own.  `Ready` is the state of
the first pass between two passages: no block scalar is open, or the next line closes it.
-/
import FastGate.CheckRepository.Reading

open FastGate.Lines FastGate.Python

namespace FastGate.CheckRepository

/-! ## The steps of one block -/

/-- Every line of a step is on its own, and as deep as the dash unless it is blank. -/
theorem Step.deep (dash : Nat) (step : Step) : ∀ line ∈ step.lines dash,
    OneLine line ∧ (strip line = [] ∨ dash ≤ indentOf line) := by
  have hcolumn : dash ≤ step.column dash := by
    unfold Step.column
    omega
  unfold Step.lines
  rw [List.forall_mem_cons, List.forall_mem_append]
  refine ⟨⟨?_, .inr ?_⟩, fun line hline => ?_, fun line hline => ?_⟩
  · exact (oneLine_spaces _).append (step.first.key.oneLine_item _ step.first.content.oneLine_onLine)
  · rw [(step.first.key.flush_item _ _).indentOf_spaces]
  · obtain ⟨honeLine, hdeep⟩ := step.first.deep (step.column dash) line (List.mem_cons_of_mem _ hline)
    exact ⟨honeLine, hdeep.imp_right hcolumn.trans⟩
  · obtain ⟨entry, -, hentry⟩ := List.mem_flatMap.mp hline
    obtain ⟨honeLine, hdeep⟩ := entry.deep (step.column dash) line hentry
    exact ⟨honeLine, hdeep.imp_right hcolumn.trans⟩

section Steps

variable {dash : Nat}

theorem Key.head_item (key : Key) (gap : Nat) (value : Str) : (key.item gap value).head? ≠ some 0x23 := nofun

theorem dashIndent_item {line : Line} {key : Key} {gap : Nat} {value : Str}
    (h : Shows line (spaces dash ++ key.item gap value)) : dashIndent line = some dash := by
  unfold dashIndent
  rw [h.1, ignorable_flush (key.flush_item gap value), decide_eq_false (key.head_item gap value),
    if_neg Bool.false_ne_true, stepStart_item]
  rfl

/-- A step with the lines of the steps below it. -/
theorem lay_steps {block : Option Nat} (step : Step) (steps : List Step) (position : Nat) :
    lay block position ((step :: steps).flatMap (Step.lines dash)) = lay block position (step.lines dash) ++
      lay ((step.lines dash).foldl blockBelow block) (position + (unlines (step.lines dash)).length)
        (steps.flatMap (Step.lines dash)) := by
  rw [List.flatMap_cons, lay_append]

theorem Settled.step {block : Option Nat} (h : Settled dash block) (step : Step) :
    Settled dash ((step.lines dash).foldl blockBelow block) :=
  foldl_settled h fun line hline => (step.deep dash line hline).2

/-- No `steps:` key is found among the lines of steps, and they end what is deeper than the dash. -/
theorem stepsOf_steps {block : Option Nat} (hsettled : Settled dash block) (steps : List Step)
    (position : Nat) {follow : List Line} (hfollow : Halts dash follow) :
    stepsOf (lay block position (steps.flatMap (Step.lines dash)) ++ follow) = stepsOf follow ∧
      Halts dash (lay block position (steps.flatMap (Step.lines dash)) ++ follow) := by
  induction steps generalizing block position with
  | nil => exact ⟨rfl, hfollow⟩
  | cons step steps ih =>
    obtain ⟨first, inner, hlay, hfirst, hinner, -⟩ := parse_step hsettled step position
    obtain ⟨hskip, hhalts⟩ := ih (hsettled.step step) (position + (unlines (step.lines dash)).length)
    rw [lay_steps, hlay, List.append_assoc, List.cons_append]
    refine ⟨?_, halts_shows (step.first.key.flush_item _ _) (step.first.key.head_item _ _) hfirst _⟩
    have hkey : stepsKey first.text = none := by rw [hfirst.1, stepsKey_item]
    rw [stepsOf_skip hkey, stepsOf_inner hinner (hhalts.mono (Nat.le_succ dash)), hskip]

/-- The lines of steps fall into items, one for each step. -/
theorem mapM_steps {block : Option Nat} (hsettled : Settled dash block) (steps : List Step)
    (position stepsBlock : Nat) :
    ∃ found, (splitItems (fun line => dashIndent line = some dash)
        (lay block position (steps.flatMap (Step.lines dash)))).mapM (parseWorkflowStep stepsBlock) =
          .ok found ∧ List.Forall₂ Recovered (placeSteps dash stepsBlock position steps) found := by
  induction steps generalizing block position with
  | nil => exact ⟨[], rfl, .nil⟩
  | cons step steps ih =>
    obtain ⟨first, inner, hlay, hfirst, hinner, hparse⟩ := parse_step hsettled step position
    obtain ⟨founds, hmap, hall⟩ := ih (hsettled.step step) (position + (unlines (step.lines dash)).length)
    have hstarts : (decide (dashIndent first = some dash)) = true := decide_eq_true (dashIndent_item hfirst)
    have hinside : ∀ line ∈ inner, (decide (dashIndent line = some dash)) = false := by
      intro line hline
      rw [(hinner line hline).1]
      exact decide_eq_false nofun
    -- the item ends where the next step begins
    have hbehind : (lay ((step.lines dash).foldl blockBelow block)
        (position + (unlines (step.lines dash)).length) (steps.flatMap (Step.lines dash))).takeWhile
          (fun next => !decide (dashIndent next = some dash)) = [] := by
      cases steps with
      | nil => rfl
      | cons next others =>
        obtain ⟨line, lines, hnext, hline, -⟩ := parse_step (hsettled.step step) next
          (position + (unlines (step.lines dash)).length)
        rw [lay_steps, hnext, List.cons_append]
        refine List.takeWhile_cons_of_neg ?_
        rw [decide_eq_true (dashIndent_item hline)]
        exact Bool.false_ne_true
    obtain ⟨found, hparsed, hrecovered⟩ := hparse stepsBlock
    refine ⟨found :: founds, ?_, .cons hrecovered hall⟩
    rw [lay_steps, hlay, List.cons_append, splitItems_item hstarts hinside, hbehind, List.append_nil,
      List.mapM_cons, hparsed, hmap]
    rfl

end Steps

/-! ## Whole workflows -/

theorem ignorable_blank {line : Str} (h : strip line = []) : ignorable line = true := by
  unfold ignorable
  rw [h]

theorem header_flush : Flush (str "steps:") ∧ (str "steps:").head? ≠ some 0x23 :=
  ⟨⟨_, _, rfl, rfl⟩, by decide⟩

namespace StepsBlock

variable (block : StepsBlock)

theorem ignorable_header : ignorable block.header = false := by
  unfold header stepsHeader
  rw [ignorable_flush header_flush.1]
  rfl

theorem indentOf_header : indentOf block.header = block.indent := header_flush.1.indentOf_spaces _

theorem oneLine_header : OneLine block.header := (oneLine_spaces _).append (by decide)

theorem stepsKey_header : stepsKey block.header = some block.indent := by
  unfold stepsKey
  dsimp only
  rw [indentOf_header]
  unfold header stepsHeader
  rw [header_flush.1.dropWhile_spaces, if_pos ⟨List.prefix_refl _, rfl⟩]

theorem opensBlock_header : opensBlock block.header = false := by
  unfold header stepsHeader
  rw [opensBlock_append (spaces_ne_colon _)]
  rfl

end StepsBlock

/-- A block scalar that is still open ends with the next line that is neither blank nor a comment. -/
def Ready (block : Option Nat) (lines : List Str) : Prop :=
  block = none ∨ ∃ column, Settled column block ∧ Outdents column lines

theorem Ready.shown {block : Option Nat} {line : Str} {lines : List Str} (h : Ready block (line :: lines))
    (hignorable : ignorable line = false) : hides block line = false := by
  rcases h with rfl | ⟨column, hsettled, hfirst⟩
  · rfl
  · have hle : indentOf line ≤ column := by
      apply hfirst
      rw [List.find?_cons_of_pos (by simp [hignorable])]
      rfl
    refine hides_settled hsettled (fun hblank => ?_) hle
    rw [ignorable_blank hblank] at hignorable
    cases hignorable

theorem Ready.next {block : Option Nat} {line : Str} {lines : List Str} (h : Ready block (line :: lines))
    (hquiet : opensBlock line = false) : Ready (blockBelow block line) lines := by
  unfold blockBelow
  rw [hquiet, if_neg Bool.false_ne_true]
  cases hhides : hides block line with
  | false => exact .inl rfl
  | true =>
    rw [if_pos rfl]
    have hignorable : ignorable line = true := by
      rw [← Bool.not_eq_false]
      intro hfalse
      rw [h.shown hfalse] at hhides
      cases hhides
    refine h.imp_right fun ⟨column, hsettled, hfirst⟩ => ⟨column, hsettled, ?_⟩
    unfold Outdents at hfirst
    rwa [List.find?_cons_of_neg (by simp [hignorable])] at hfirst

/-- Nothing is found in the body of a block scalar. -/
theorem stepsOf_hidden {lines : List Line} (h : ∀ line ∈ lines, line.text = []) (follow : List Line) :
    stepsOf (lines ++ follow) = stepsOf follow := by
  induction lines with
  | nil => rfl
  | cons line lines ih =>
    obtain ⟨hline, hlines⟩ := List.forall_mem_cons.mp h
    have hkey : stepsKey line.text = none := by
      rw [hline]
      rfl
    rw [List.cons_append, stepsOf_skip hkey, ih hlines]

/-- No `steps:` key is found among passages, hidden or not. -/
theorem stepsOf_passages {block : Option Nat} {passages : List Passage} {rest : List Str}
    (hended : Ended passages rest) (h : Ready block (passageLines passages ++ rest)) (position : Nat) :
    Ready ((passageLines passages).foldl blockBelow block) rest ∧
      ∀ follow, stepsOf (lay block position (passageLines passages) ++ follow) = stepsOf follow := by
  induction passages generalizing block position with
  | nil => exact ⟨h, fun follow => rfl⟩
  | cons passage passages ih =>
    have hlines : passageLines (passage :: passages) = passage.lines ++ passageLines passages := List.flatMap_cons
    rw [hlines, List.append_assoc] at h
    rw [hlines, List.foldl_append, lay_append]
    cases passage with
    | line text quiet =>
      obtain ⟨honeLine, hopens, hkey⟩ := quiet
      obtain ⟨hready, hskip⟩ := ih hended (h.next hopens) (position + (unlines [text]).length)
      refine ⟨hready, fun follow => ?_⟩
      have hnone : stepsKey (layLine block position text).text = none := by
        rw [layLine_text honeLine]
        split
        · rfl
        · exact hkey
      rw [List.append_assoc]
      exact (stepsOf_skip hnone _).trans (hskip follow)
    | block opener shown opens noSteps body deep =>
      obtain ⟨houtdents, hended⟩ := hended
      have hshown := h.shown shown.2
      -- the opener is shown, and what is deeper is hidden behind it
      have hbelow : blockBelow block opener = some (indentOf opener) := by
        unfold blockBelow
        rw [hshown, if_neg Bool.false_ne_true, if_pos opens]
      have hhides : ∀ line ∈ body, hides (some (indentOf opener)) line = true := by
        intro line hline
        show (decide (strip line = []) || decide (indentOf opener < indentOf line)) = true
        rw [Bool.or_eq_true, decide_eq_true_eq, decide_eq_true_eq]
        exact (deep line hline).2
      obtain ⟨hfold, htexts⟩ := lay_hidden hhides (position + (lineOf opener).length)
      have hsettled : Settled (indentOf opener) (some (indentOf opener)) := fun indent hindent =>
        (Option.some.inj hindent).le
      obtain ⟨hready, hskip⟩ := ih hended (.inr ⟨indentOf opener, hsettled, houtdents⟩)
        (position + (unlines (opener :: body)).length)
      have hopen : (opener :: body).foldl blockBelow block = some (indentOf opener) := by
        rw [List.foldl_cons, hbelow, hfold]
      have hnone : stepsKey (layLine block position opener).text = none := by
        rw [layLine_text shown.1, hshown, if_neg Bool.false_ne_true, noSteps]
      unfold Passage.lines
      dsimp only
      rw [hopen]
      refine ⟨hready, fun follow => ?_⟩
      rw [List.append_assoc, lay, hbelow, List.cons_append, stepsOf_skip hnone, stepsOf_hidden htexts, hskip]

theorem oneLine_passages (passages : List Passage) : ∀ line ∈ passageLines passages, OneLine line := by
  intro line hline
  obtain ⟨passage, -, hmem⟩ := List.mem_flatMap.mp hline
  cases passage with
  | line text quiet =>
    rw [List.mem_singleton.mp hmem]
    exact quiet.1
  | block opener shown opens noSteps body deep =>
    rcases List.mem_cons.mp hmem with rfl | hmem
    · exact shown.1
    · exact (deep line hmem).1

/-- Blank lines and comments at the head of some passages open no block scalar. -/
theorem opensBlock_passages (passages : List Passage) {rest : List Str}
    (hrest : ∀ line ∈ rest.head?, ignorable line = false) :
    ∀ line ∈ (passageLines passages ++ rest).takeWhile ignorable, opensBlock line = false := by
  induction passages with
  | nil =>
    cases rest with
    | nil => exact fun line hline => absurd hline List.not_mem_nil
    | cons line rest =>
      have hnil : (line :: rest).takeWhile ignorable = [] := List.takeWhile_cons_of_neg (by simp [hrest line rfl])
      show ∀ next ∈ (line :: rest).takeWhile ignorable, _
      rw [hnil]
      exact fun next hnext => absurd hnext List.not_mem_nil
  | cons passage passages ih =>
    cases passage with
    | line text quiet =>
      show ∀ next ∈ (text :: (passageLines passages ++ rest)).takeWhile ignorable, _
      rw [List.takeWhile_cons]
      split
      · exact List.forall_mem_cons.mpr ⟨quiet.2.1, ih⟩
      · exact fun next hnext => absurd hnext List.not_mem_nil
    | block opener shown opens noSteps body deep =>
      have hnil : (opener :: (body ++ passageLines passages ++ rest)).takeWhile ignorable = [] :=
        List.takeWhile_cons_of_neg (by simp [shown.2])
      show ∀ next ∈ (opener :: (body ++ passageLines passages ++ rest)).takeWhile ignorable, _
      rw [hnil]
      exact fun next hnext => absurd hnext List.not_mem_nil

/-- The first line that is neither blank nor a comment is shown, and not deeper. -/
theorem shown_lay {column : Nat} {block : Option Nat} {lines : List Str} (honeLine : ∀ line ∈ lines, OneLine line)
    (hquiet : ∀ line ∈ lines.takeWhile ignorable, opensBlock line = false) (h : Ready block lines)
    (hfirst : Outdents column lines) (position : Nat) :
    ∀ line ∈ (lay block position lines).find? fun line => !ignorable line.text, indentOf line.text ≤ column := by
  induction lines generalizing block position with
  | nil => exact nofun
  | cons line lines ih =>
    obtain ⟨hline, hlines⟩ := List.forall_mem_cons.mp honeLine
    unfold Outdents at hfirst
    rw [lay]
    -- what the first pass hides is empty, so it is passed over like a blank line
    cases hignorable : ignorable line with
    | true =>
      rw [List.takeWhile_cons_of_pos hignorable] at hquiet
      obtain ⟨hopens, hquiet⟩ := List.forall_mem_cons.mp hquiet
      have htext : ignorable (layLine block position line).text = true := by
        rw [layLine_text hline]
        split
        · rfl
        · exact hignorable
      rw [List.find?_cons_of_neg (by simp [hignorable])] at hfirst
      rw [List.find?_cons_of_neg (by simp [htext])]
      exact ih hlines hquiet (h.next hopens) hfirst _
    | false =>
      have htext : (layLine block position line).text = line := by
        rw [layLine_text hline, h.shown hignorable, if_neg Bool.false_ne_true]
      intro next hnext
      rw [List.find?_cons_of_pos (by simp [htext, hignorable])] at hnext
      cases hnext
      rw [htext]
      apply hfirst
      rw [List.find?_cons_of_pos (by simp [hignorable])]
      rfl

theorem mem_lay_text {block : Option Nat} {position : Nat} {lines : List Str}
    (honeLine : ∀ line ∈ lines, OneLine line) {line : Line} (h : line ∈ lay block position lines) :
    line.text = [] ∨ line.text ∈ lines := by
  induction lines generalizing block position with
  | nil => exact absurd h List.not_mem_nil
  | cons text lines ih =>
    obtain ⟨htext, hlines⟩ := List.forall_mem_cons.mp honeLine
    rw [lay, List.mem_cons] at h
    rcases h with rfl | h
    · rw [layLine_text htext]
      split
      · exact .inl rfl
      · exact .inr (.head _)
    · exact (ih hlines h).imp_right (List.mem_cons_of_mem _)

theorem written_cons (block : StepsBlock) (blocks : List StepsBlock) (tail : List Str) :
    written (block :: blocks) tail = passageLines block.lead ++ (block.header ::
      (block.steps.flatMap (Step.lines block.dash) ++ written blocks tail)) := List.append_assoc ..

theorem oneLine_written (blocks : List StepsBlock) (tail : List Passage) :
    ∀ line ∈ written blocks (passageLines tail), OneLine line := by
  induction blocks with
  | nil => exact oneLine_passages tail
  | cons block blocks ih =>
    rw [written_cons, List.forall_mem_append, List.forall_mem_cons, List.forall_mem_append]
    refine ⟨oneLine_passages block.lead, block.oneLine_header, fun line hline => ?_, ih⟩
    obtain ⟨step, -, hstep⟩ := List.mem_flatMap.mp hline
    exact (step.deep block.dash line hstep).1

/-- Lines that close a block end it in the first pass, too. -/
theorem halts_written {column : Nat} {block : Option Nat} {blocks : List StepsBlock} {tail : List Passage}
    (hready : Ready block (written blocks (passageLines tail)))
    (hcloses : Closes column (written blocks (passageLines tail))) (position : Nat) :
    Halts column (lay block position (written blocks (passageLines tail))) := by
  have honeLine := oneLine_written blocks tail
  constructor
  · refine shown_lay honeLine ?_ hready hcloses.2 position
    cases blocks with
    | nil =>
      have hquiet : ∀ line ∈ (passageLines tail ++ []).takeWhile ignorable, opensBlock line = false :=
        opensBlock_passages tail fun line hline => absurd hline (Option.not_mem_none line)
      rwa [List.append_nil] at hquiet
    | cons next blocks =>
      rw [written_cons]
      refine opensBlock_passages next.lead fun line hline => ?_
      cases hline
      exact next.ignorable_header
  · intro line hline
    cases hwritten : written blocks (passageLines tail) with
    | nil =>
      rw [hwritten] at hline
      cases hline
    | cons text lines =>
      rw [hwritten] at hline hcloses honeLine
      cases hline
      rw [layLine_raw (honeLine text (.head _))]
      exact hcloses.1 text rfl

/-! ## The steps below a key -/

/-- Lines behind the items are read with the last of them. -/
theorem mapM_splitItems {β : Type} {starts : Line → Bool} {parse : List Line → Except Str β} {extra : List Line}
    (hextra : ∀ line ∈ extra, starts line = false) {lines : List Line}
    (hparse : ∀ first ∈ lines, starts first = true → ∀ rest, parse (first :: (rest ++ extra)) = parse (first :: rest)) :
    (splitItems starts (lines ++ extra)).mapM parse = (splitItems starts lines).mapM parse := by
  induction lines with
  | nil =>
    have hskip := splitItems_skip hextra []
    rw [List.append_nil] at hskip
    rw [List.nil_append, hskip, splitItems]
  | cons line lines ih =>
    obtain ⟨hline, hlines⟩ := List.forall_mem_cons.mp hparse
    rw [List.cons_append, splitItems, splitItems]
    cases hstarts : starts line with
    | false =>
      rw [if_neg Bool.false_ne_true, if_neg Bool.false_ne_true, ih hlines]
    | true =>
      have hbehind : extra.takeWhile (fun next => !starts next) = extra :=
        List.takeWhile_eq_self_iff.mpr fun next hnext => by rw [hextra next hnext]; rfl
      rw [if_pos rfl, if_pos rfl, List.mapM_cons, List.mapM_cons, ih hlines, List.takeWhile_append, hbehind]
      split
      · rename_i hwhole
        rw [hline hstarts, (List.takeWhile_prefix _).eq_of_length hwhole]
      · rfl

/-- A dash is where its line begins. -/
theorem dashIndent_some {line : Line} {column : Nat} (h : dashIndent line = some column) :
    ignorable line.text = false ∧ column = indentOf line.text ∧
      ∃ entry, stepStart line.text = some (column, entry) := by
  unfold dashIndent at h
  split at h
  · cases h
  · rename_i hignorable
    obtain ⟨⟨found, entry⟩, hstart, rfl⟩ := Option.map_eq_some_iff.mp h
    refine ⟨Bool.not_eq_true _ ▸ hignorable, ?_, entry, hstart⟩
    unfold stepStart at hstart
    split at hstart
    · split at hstart
      · obtain ⟨value, -, heq⟩ := Option.map_eq_some_iff.mp hstart
        exact (Prod.mk.inj heq).1.symm
      · cases hstart
    · cases hstart

/-- The lines of the steps of a block. -/
def StepsBlock.layout (block : StepsBlock) (position : Nat) : List Line :=
  lay none position (block.steps.flatMap (Step.lines block.dash))

/-- What the scanner makes of the steps of a block: the same, whatever follows them. -/
def StepsBlock.scan (block : StepsBlock) (header : Nat) : Except Str (List WorkflowStep) :=
  (stepItems block.indent (block.layout (header + (lineOf block.header).length))).mapM (parseWorkflowStep header)

/-- Dashes in the column of the key end its block at once. -/
theorem stepItems_flush {block : StepsBlock} (hflush : block.indented = false) (position : Nat)
    {follow : List Line} (hfollow : Halts block.indent follow) :
    stepItems block.indent (block.layout position ++ follow) = [] := by
  have hdash : block.dash = block.indent := by
    have hdeeper := of_decide_eq_false hflush
    unfold StepsBlock.dash
    omega
  obtain ⟨-, hhalts⟩ := stepsOf_steps (settled_none block.dash) block.steps position (hdash ▸ hfollow)
  unfold StepsBlock.layout
  rw [hdash] at hhalts ⊢
  exact @stepItems_inner _ [] _ (fun line hline => absurd hline List.not_mem_nil) hhalts

/-- The lines of steps with deeper dashes are all below the key. -/
theorem layout_below {block : StepsBlock} (hindented : block.indented = true) (position : Nat) :
    ∀ line ∈ block.layout position, ignorable line.text = true ∨ block.indent < indentOf line.text := by
  have hdash : block.indent < block.dash := Nat.lt_add_of_pos_right (of_decide_eq_true hindented)
  have hdeep : ∀ line ∈ block.steps.flatMap (Step.lines block.dash),
      OneLine line ∧ (strip line = [] ∨ block.dash ≤ indentOf line) := by
    intro line hline
    obtain ⟨step, -, hstep⟩ := List.mem_flatMap.mp hline
    exact step.deep block.dash line hstep
  intro line hline
  rcases mem_lay_text (fun line hline => (hdeep line hline).1) hline with hnil | hmem
  · rw [hnil]
    exact .inl rfl
  · exact (hdeep _ hmem).2.imp ignorable_blank hdash.trans_le

/-- What the scanner finds below a key depends on the steps only. -/
theorem stepItems_follow (block : StepsBlock) (position stepsBlock : Nat) {follow : List Line}
    (hfollow : Halts block.indent follow) :
    (stepItems block.indent (block.layout position ++ follow)).mapM (parseWorkflowStep stepsBlock) =
      (stepItems block.indent (block.layout position)).mapM (parseWorkflowStep stepsBlock) := by
  cases hindented : block.indented with
  | false =>
    have halone := stepItems_flush hindented position (halts_nil _)
    rw [List.append_nil] at halone
    rw [stepItems_flush hindented position hfollow, halone]
  | true =>
    have hbelow := layout_below hindented position
    have htake : ∀ line ∈ block.layout position,
        (ignorable line.text || decide (block.indent < indentOf line.text)) = true := fun line hline => by
      rw [Bool.or_eq_true, decide_eq_true_eq]
      exact hbelow line hline
    have hwhole : linesBelow block.indent (block.layout position ++ follow) =
        block.layout position ++ linesBelow block.indent follow := List.takeWhile_append_of_pos htake
    have halone : linesBelow block.indent (block.layout position) = block.layout position :=
      List.takeWhile_eq_self_iff.mpr htake
    -- behind the steps only lines without meaning are left below the key
    have hignorable := linesBelow_halts hfollow
    have hnone : (linesBelow block.indent follow).findSome? dashIndent = none := by
      rw [List.findSome?_eq_none_iff]
      exact fun line hline => if_pos (hignorable line hline)
    unfold stepItems
    dsimp only
    rw [hwhole, halone, List.findSome?_append, hnone, Option.or_none]
    cases (block.layout position).findSome? dashIndent with
    | none => rfl
    | some column =>
      refine mapM_splitItems (fun line hline => ?_) fun first hfirst hstarts rest => ?_
      · rw [show dashIndent line = none from if_pos (hignorable line hline)]
        exact decide_eq_false nofun
      · obtain ⟨hshown, hcolumn, entry, hstart⟩ := dashIndent_some (of_decide_eq_true hstarts)
        refine parse_extra hignorable hstart (hfollow.below.mono ?_) stepsBlock rest
        rcases hbelow first hfirst with h | h
        · rw [hshown] at h
          cases h
        · exact (hcolumn ▸ h.le).trans (Nat.le_add_right _ _)

/-- The items below a `steps:` key are its steps, if their dashes are deeper. -/
theorem scan_steps (block : StepsBlock) (header : Nat) :
    ∃ found, block.scan header = .ok found ∧
      List.Forall₂ Recovered
        (placeSteps block.dash header (header + (lineOf block.header).length) block.seen) found := by
  unfold StepsBlock.scan StepsBlock.seen
  cases hindented : block.indented with
  | false =>
    -- the first dash ends the block
    have halone := stepItems_flush hindented (header + (lineOf block.header).length) (halts_nil _)
    rw [List.append_nil] at halone
    rw [halone, if_neg Bool.false_ne_true]
    exact ⟨[], rfl, .nil⟩
  | true =>
    have hbelow := layout_below hindented (header + (lineOf block.header).length)
    -- all the lines of the steps are below the key
    have halone : linesBelow block.indent (block.layout (header + (lineOf block.header).length)) =
        block.layout (header + (lineOf block.header).length) :=
      List.takeWhile_eq_self_iff.mpr fun line hline => by
        rw [Bool.or_eq_true, decide_eq_true_eq]
        exact hbelow line hline
    obtain ⟨found, hmap, hfound⟩ := mapM_steps (settled_none block.dash) block.steps
      (header + (lineOf block.header).length) header
    rw [if_pos rfl]
    unfold stepItems
    dsimp only
    rw [halone]
    unfold StepsBlock.layout
    cases hsteps : block.steps with
    | nil => exact ⟨[], rfl, .nil⟩
    | cons step steps =>
      obtain ⟨first, inner, hlay, hfirst, -⟩ := parse_step (settled_none block.dash) step
        (header + (lineOf block.header).length)
      have hsome : (lay none (header + (lineOf block.header).length)
          ((step :: steps).flatMap (Step.lines block.dash))).findSome? dashIndent = some block.dash := by
        rw [lay_steps, hlay, List.cons_append, List.findSome?_cons, dashIndent_item hfirst]
      rw [hsteps] at hmap hfound
      rw [hsome]
      exact ⟨found, hmap, hfound⟩

/-! ## The steps of a workflow -/

/-- What the scanner makes of some blocks, one after the other. -/
def scanBlocks : Nat → List StepsBlock → Except Str (List WorkflowStep)
  | _, [] => .ok []
  | position, block :: blocks => do
    let found ← block.scan (position + (unlines (passageLines block.lead)).length)
    let later ← scanBlocks (position + (unlines block.lines).length) blocks
    return found ++ later

theorem scanBlocks_recovered (position : Nat) (blocks : List StepsBlock) :
    ∃ found, scanBlocks position blocks = .ok found ∧ List.Forall₂ Recovered (placeBlocks position blocks) found := by
  induction blocks generalizing position with
  | nil => exact ⟨[], rfl, .nil⟩
  | cons block blocks ih =>
    obtain ⟨found, hscan, hfound⟩ := scan_steps block (position + (unlines (passageLines block.lead)).length)
    obtain ⟨later, hlater, hrest⟩ := ih (position + (unlines block.lines).length)
    refine ⟨found ++ later, ?_, List.rel_append hfound hrest⟩
    rw [scanBlocks, hscan, hlater]
    rfl

/-- What is above a key has ended where the key stands, whatever is below it. -/
theorem Ended.append {passages : List Passage} {line : Str} (h : Ended passages [line]) (hline : ignorable line = false)
    (follow : List Str) : Ended passages (line :: follow) := by
  induction passages with
  | nil => trivial
  | cons passage passages ih =>
    cases passage with
    | line text quiet => exact ih h
    | block opener shown opens noSteps body deep =>
      refine ⟨?_, ih h.2⟩
      have houtdents := h.1
      unfold Outdents at houtdents ⊢
      rw [List.find?_append, List.find?_cons_of_pos (by simp [hline])] at houtdents ⊢
      exact houtdents

/-- The steps of the blocks are found one block after the other, and nothing below them. -/
theorem stepsOf_written {blocks : List StepsBlock} {tail : List Passage} (hended : Ended tail [])
    (hclosed : Closed blocks (passageLines tail)) {block : Option Nat}
    (hready : Ready block (written blocks (passageLines tail))) (position : Nat) :
    stepsOf (lay block position (written blocks (passageLines tail))) = scanBlocks position blocks := by
  induction blocks generalizing block position with
  | nil =>
    unfold written at hready ⊢
    rw [← List.append_nil (passageLines tail)] at hready
    have hskip := (stepsOf_passages hended hready position).2 []
    rwa [List.append_nil] at hskip
  | cons next blocks ih =>
    have hdash : next.indent ≤ next.dash := Nat.le_add_right _ _
    have hlines := written_cons next blocks (passageLines tail)
    rw [hlines] at hready
    have hended' : Ended next.lead (next.header ::
        (next.steps.flatMap (Step.lines next.dash) ++ written blocks (passageLines tail))) :=
      Ended.append next.ended next.ignorable_header _
    obtain ⟨hheader, hskip⟩ := stepsOf_passages hended' hready position
    have hshown := hheader.shown next.ignorable_header
    have hbelow := blockBelow_shown hshown next.opensBlock_header
    have hsettled : Settled next.dash
        ((next.steps.flatMap (Step.lines next.dash)).foldl blockBelow none) := by
      refine foldl_settled (settled_none _) fun line hline => ?_
      obtain ⟨step, -, hstep⟩ := List.mem_flatMap.mp hline
      exact (step.deep next.dash line hstep).2
    have hready' : Ready ((next.steps.flatMap (Step.lines next.dash)).foldl blockBelow none)
        (written blocks (passageLines tail)) := .inr ⟨next.indent, hsettled.mono hdash, hclosed.1.2⟩
    -- where the `steps:` key is, and where its steps begin and end
    obtain ⟨header, hheaderAt⟩ : ∃ header, header = position + (unlines (passageLines next.lead)).length :=
      ⟨_, rfl⟩
    obtain ⟨start, hstart⟩ : ∃ start, start = header + (lineOf next.header).length := ⟨_, rfl⟩
    obtain ⟨stop, hstop⟩ : ∃ stop, stop = start +
        (unlines (next.steps.flatMap (Step.lines next.dash))).length := ⟨_, rfl⟩
    have hlength : position + (unlines next.lines).length = stop := by
      have hcons : unlines (next.header :: next.steps.flatMap (Step.lines next.dash)) =
          lineOf next.header ++ unlines (next.steps.flatMap (Step.lines next.dash)) := List.flatMap_cons
      unfold StepsBlock.lines
      rw [unlines_append, hcons, List.length_append, List.length_append]
      omega
    have hfollow := halts_written hready' hclosed.1 stop
    have htext : (layLine ((passageLines next.lead).foldl blockBelow block) header next.header).text = next.header := by
      rw [layLine_text next.oneLine_header, hshown]
      rfl
    have hkey : stepsKey (layLine ((passageLines next.lead).foldl blockBelow block) header next.header).text =
        some next.indent := by rw [htext, next.stepsKey_header]
    have hfound := stepItems_follow next start header hfollow
    have hnone := (stepsOf_steps (settled_none _) next.steps start (hfollow.mono hdash)).1
    rw [ih hclosed.2 hready' stop] at hnone
    rw [hlines, lay_append, hskip, ← hheaderAt, lay, hbelow, lay_append, ← hstart, ← hstop, stepsOf, hkey,
      scanBlocks, hlength, ← hheaderAt]
    show (do
      let found ← (stepItems next.indent (next.layout start ++ _)).mapM (parseWorkflowStep header)
      let later ← stepsOf (lay none start (next.steps.flatMap (Step.lines next.dash)) ++ _)
      return found ++ later) = _
    rw [hfound, hnone, hstart]
    rfl

/-- A workflow is scanned block by block, whatever is written below the last one. -/
theorem workflowSteps_scan (workflow : Workflow) : workflowSteps workflow.text = scanBlocks 0 workflow.blocks := by
  unfold Workflow.text
  rw [workflowSteps_unlines (oneLine_written workflow.blocks workflow.tail)]
  exact stepsOf_written workflow.ended workflow.closed (.inl rfl) 0

/-- The step as the scanner is to return it from there. -/
def Placed.read (placed : Placed) : WorkflowStep := placed.step.read placed.position placed.stepsBlock

theorem Step.length_fields (step : Step) (position stepsBlock : Nat) :
    (step.read position stepsBlock).fields.length = step.rest.length + 1 := List.length_map _

theorem recovered_exact_iff {places : List Placed} {found : List WorkflowStep}
    (h : List.Forall₂ Recovered places found) :
    found = places.map Placed.read ↔ ∀ placed ∈ places, placed.step.Aligned := by
  induction h with
  | nil => exact iff_of_true rfl fun placed h => absurd h List.not_mem_nil
  | @cons placed step places found hrecovered _ ih =>
    obtain ⟨-, -, hyes, hno⟩ := hrecovered
    rw [List.map_cons, List.cons.injEq, ih, List.forall_mem_cons]
    refine and_congr_left fun _ => ⟨fun heq => ?_, hyes⟩
    by_contra hnot
    have hlength : step.fields.length = placed.step.rest.length + 1 := by
      rw [heq, Placed.read, Step.length_fields]
    rw [hno hnot] at hlength
    have hrest : placed.step.rest = [] := List.eq_nil_of_length_eq_zero (Nat.succ.inj hlength).symm
    exact hnot (.inl hrest)

/-- The scanner returns the steps that were written exactly when all of them are aligned. -/
theorem workflowSteps_exact_iff (workflow : Workflow) :
    workflowSteps workflow.text = .ok (workflow.placed.map Placed.read) ↔
      ∀ placed ∈ workflow.placed, placed.step.Aligned := by
  obtain ⟨found, hscan, hfound⟩ := scanBlocks_recovered 0 workflow.blocks
  rw [workflowSteps_scan, hscan, Except.ok.injEq]
  exact recovered_exact_iff hfound

section Sample

/-- `run` -/
def runKey : Key := ⟨str "run", by decide, by decide⟩

/-- `if` -/
def ifKey : Key := ⟨str "if", by decide, by decide⟩

/-- A value without a comment. -/
def Scalar.plainText (text : Str) (oneLine : OneLine text) (stripped : strip text = text)
    (plain : text.head? ≠ some 0x22 ∧ text.head? ≠ some 0x27 ∧ text.head? ≠ some 0x23)
    (uncommented : cutAt (str " #") text = none)
    (opensNone : opensBlock (0x3A :: 0x20 :: text) = false) : Scalar :=
  ⟨text, none, ⟨oneLine, nofun⟩, stripped, plain, uncommented, fun h => absurd rfl h, by
    rwa [Option.elim_none, List.append_nil]⟩

/-- `false` -/
def falseText : Scalar :=
  .plainText (str "false") (by decide) (by decide) (by decide) (by decide) (by decide)

/-- A step that is switched off below its script. -/
def guardedStep : Step where
  gap := 0
  first := ⟨runKey, .block (str "|") rfl 1 [str "./scripts/check"] (by decide), []⟩
  rest := [⟨ifKey, .scalar falseText, []⟩]
  distinct := by decide

/-- A workflow with this step only. -/
def guardedWorkflow : Workflow := ⟨[⟨[], 0, trivial, 2, [guardedStep]⟩], [], trivial, ⟨nofun, nofun⟩, trivial⟩

/-- The script stands on the line of the dash and hides the condition: it is as if the step had none. -/
theorem workflowSteps_guarded :
    (workflowSteps guardedWorkflow.text).map (List.map (·.fields)) = .ok [[(str "run", str "|")]] ∧
      workflowSteps guardedWorkflow.text ≠ .ok (guardedWorkflow.placed.map Placed.read) := by
  decide +kernel

end Sample

/-! ## Dashes in the column of the key -/

/-- YAML allows them, but the scanner takes the first dash for the end of the block. -/
theorem StepsBlock.scan_flush {block : StepsBlock} (h : block.indented = false) (header : Nat) :
    block.scan header = .ok [] := by
  have hitems := stepItems_flush h (header + (lineOf block.header).length) (halts_nil _)
  rw [List.append_nil] at hitems
  unfold StepsBlock.scan
  rw [hitems]
  rfl

theorem scanBlocks_flush {hidden : List StepsBlock} (h : ∀ block ∈ hidden, block.indented = false) (position : Nat) :
    scanBlocks position hidden = .ok [] := by
  induction hidden generalizing position with
  | nil => rfl
  | cons block hidden ih =>
    obtain ⟨hblock, hhidden⟩ := List.forall_mem_cons.mp h
    rw [scanBlocks, StepsBlock.scan_flush hblock, ih hhidden]
    rfl

theorem scanBlocks_append (blocks : List StepsBlock) {hidden : List StepsBlock}
    (h : ∀ block ∈ hidden, block.indented = false) (position : Nat) :
    scanBlocks position (blocks ++ hidden) = scanBlocks position blocks := by
  induction blocks generalizing position with
  | nil => exact scanBlocks_flush h position
  | cons block blocks ih => rw [List.cons_append, scanBlocks, scanBlocks, ih]

/-- Jobs that are written with their dashes in the column of their keys are not seen at all. -/
theorem workflowSteps_flush {workflow more : Workflow} {hidden : List StepsBlock}
    (hmore : more.blocks = workflow.blocks ++ hidden) (h : ∀ block ∈ hidden, block.indented = false) :
    workflowSteps more.text = workflowSteps workflow.text := by
  rw [workflowSteps_scan, workflowSteps_scan, hmore, scanBlocks_append _ h]

end FastGate.CheckRepository
