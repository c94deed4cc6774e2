/-
# FastGate.CheckRepository.Reading — how the scanner reads the lines of one step

From the lines below a key, over the entries of a step, to the step as a whole.  `Reads` says what the
loops of `parse_workflow_step` make of the lines below a key, whatever follows them; `parse_step` says
that the lines of a step make one item, and what is read from it.

* `reads_scalar`, `reads_mapping` and `reads_block` are the three kinds of content: a value on the line
  of its key, a nested mapping, and a block scalar whose lines are hidden from the other loops.
* `Found` is what the loop over the direct keys finds in the lines of a step; its keys are distinct, so
  the dictionary of the source is the list of the entries.
* If the keys of a step are not where the scanner looks for them, the loop finds the first one only.  The
  two cases of `parse_step` are those of `Step.Aligned`.
* Lines that follow the last step of a block may be read along with it; the lemmas of the last section
  say that they change nothing (`parse_extra`).
-/
import FastGate.CheckRepository.Rendered

open FastGate.Lines FastGate.Python

namespace FastGate.CheckRepository

/-! ## The lines below a key -/

theorem blank_spaces (n : Nat) : strip (spaces n) = [] ∧ ignorable (spaces n) = true := by
  have hstrip : strip (spaces n) = [] := by
    have h := strip_spaces n []
    rwa [List.append_nil] at h
  refine ⟨hstrip, ?_⟩
  unfold ignorable
  rw [hstrip]

theorem lineFeed_not_mem {s : Str} (h : OneLine s) : lineFeed ∉ s := by
  intro hmem
  have hboundary := h _ hmem
  cases hboundary

theorem mem_lay_raw {block : Option Nat} {position : Nat} {lines : List Str} {line : Line}
    (h : line ∈ lay block position lines) : ∃ text ∈ lines, line.raw = lineOf text := by
  have hraw := List.mem_map_of_mem (f := (·.raw)) h
  rw [lay_raws] at hraw
  obtain ⟨text, htext, heq⟩ := List.mem_map.mp hraw
  exact ⟨text, htext, heq.symm⟩

theorem fresh_key {α : Type} {found : Dict α} {key : Str} {keys : List Str}
    (h : (found.keys ++ key :: keys).Nodup) : key ∉ found.keys := by
  intro hmem
  rw [List.nodup_append] at h
  exact h.2.2 _ hmem _ (.head _) rfl

theorem nodup_keys_next {α : Type} {found : Dict α} {key : Str} {keys : List Str}
    (h : (found.keys ++ key :: keys).Nodup) (value : α) :
    (Dict.keys (found ++ [(key, value)]) ++ keys).Nodup := by
  rw [Dict.keys, List.map_append, List.append_assoc]
  exact h

/-- The loop over a mapping collects its entries. -/
theorem readWith_entries {fieldIndent column : Nat} (hdeep : fieldIndent < column)
    {entries : List (Key × Scalar)} {lines : List Line} {nested : Option Nat}
    (hnested : nested = none ∨ nested = some column)
    (hlines : lines.map (·.text) =
      entries.map fun entry => spaces column ++ entry.1.entry (0x20 :: entry.2.shown))
    {found : Dict Str} (hkeys : (found.keys ++ entries.map (·.1.text)).Nodup) (rest : List Line) :
    ∃ nested', readWith fieldIndent nested (lines ++ rest) found =
      readWith fieldIndent nested' rest
        (found ++ entries.map fun entry => (entry.1.text, entry.2.text)) := by
  induction entries generalizing lines nested found with
  | nil =>
    rw [List.map_nil, List.map_eq_nil_iff] at hlines
    rw [hlines]
    exact ⟨nested, by rw [List.map_nil, List.append_nil]; rfl⟩
  | cons entry entries ih =>
    obtain ⟨line, lines, rfl, htext, hlines⟩ := List.map_eq_cons_iff.mp hlines
    have hflush := entry.1.flush_entry (0x20 :: entry.2.shown)
    have hignorable : ignorable line.text = false := by
      rw [htext, ignorable_flush hflush]
      obtain ⟨c, cs, hkey, hc⟩ := entry.1.exists_cons
      rw [Key.entry, hkey]
      refine decide_eq_false ?_
      rintro ⟨⟩
      cases hc
    have hindent : indentOf line.text = column := by rw [htext, hflush.indentOf_spaces]
    have hkey : mappingKey line.text = some (column, entry.1.text, lstrip (0x20 :: entry.2.shown)) := by
      rw [htext, mappingKey_entry, if_neg (by omega)]
    -- the first entry fixes the column; the others are in it already
    have hget : nested.getD column = column := by
      rcases hnested with rfl | rfl
      · rfl
      · rfl
    obtain ⟨nested', hrest⟩ := ih (.inr rfl) hlines (nodup_keys_next hkeys entry.2.text)
    refine ⟨nested', ?_⟩
    rw [List.cons_append, readWith, hignorable, if_neg Bool.false_ne_true, hindent, if_neg (by omega), hkey]
    dsimp only
    rw [hget, if_pos rfl, assign_new (fresh_key hkeys), entry.2.yamlScalar_shown, hrest, List.append_assoc]
    rfl

/-- The loops over a step find the content of a key in the lines below it. -/
structure Reads (column : Nat) (content : Content) (lines : List Line) : Prop where
  inner : ∀ line ∈ lines, Inner (column + 1) line
  nested : ∀ {fieldIndent : Nat} {follow : List Line}, fieldIndent ≤ column → Halts fieldIndent follow →
    readWith fieldIndent none (lines ++ follow) [] = content.nested
  script : content.isBlock = true → ∀ {fieldIndent : Nat} {follow : List Line}, fieldIndent ≤ column →
    Halts fieldIndent follow →
      strip (dedent (bodyLines fieldIndent (lines ++ follow)).flatten) = content.script

theorem blanks_shown (blanks : List Nat) :
    ∀ line ∈ blanks.map spaces, OneLine line ∧ opensBlock line = false := by
  rw [List.forall_mem_map]
  exact fun n _ => ⟨oneLine_spaces n, opensBlock_blank (blank_spaces n).1⟩

theorem lay_blanks (blanks : List Nat) (position : Nat) :
    ∀ line ∈ lay none position (blanks.map spaces), ignorable line.text = true := by
  intro line hline
  have htext := List.mem_map_of_mem (f := (·.text)) hline
  rw [(lay_shown (blanks_shown blanks) position).2] at htext
  obtain ⟨n, -, hn⟩ := List.mem_map.mp htext
  rw [← hn]
  exact (blank_spaces n).2

theorem reads_scalar (column : Nat) (value : Scalar) (blanks : List Nat) (position : Nat) :
    Reads column (.scalar value) (lay none position (blanks.map spaces)) where
  inner line hline := inner_ignorable (lay_blanks blanks position line hline) _
  nested _ hfollow := by
    rw [readWith_skip (lay_blanks blanks position), readWith_halts hfollow]
    rfl
  script := nofun

theorem mapping_shown (column : Nat) (entries : List (Key × Scalar)) :
    ∀ line ∈ entries.map fun entry => spaces column ++ entry.1.entry (0x20 :: entry.2.shown),
      OneLine line ∧ opensBlock line = false := by
  rw [List.forall_mem_map]
  intro entry _
  refine ⟨(oneLine_spaces _).append (entry.1.oneLine_entry _ entry.2.oneLine_shown), ?_⟩
  rw [opensBlock_entry]
  exact entry.2.opensNone

theorem reads_mapping (column deeper : Nat) (entries : List (Key × Scalar))
    (distinct : (entries.map (·.1.text)).Nodup) (blanks : List Nat) (position : Nat) :
    Reads column (.mapping deeper entries distinct) (lay none position
      ((Content.mapping deeper entries distinct).below column ++ blanks.map spaces)) := by
  have hshown := mapping_shown (column + 1 + deeper) entries
  obtain ⟨hfold, htexts⟩ := lay_shown hshown position
  unfold Content.below
  rw [lay_append, hfold]
  refine ⟨fun line hline => ?_, fun {fieldIndent follow} hle hfollow => ?_, nofun⟩
  · rcases List.mem_append.mp hline with hline | hline
    · have htext := List.mem_map_of_mem (f := (·.text)) hline
      rw [htexts] at htext
      obtain ⟨entry, -, hentry⟩ := List.mem_map.mp htext
      rw [Inner, ← hentry, (entry.1.flush_entry _).indentOf_spaces]
      refine ⟨?_, .inr (Nat.le_add_right _ _)⟩
      unfold dashIndent
      rw [← hentry, stepStart_entry]
      exact ite_self _
    · exact inner_ignorable (lay_blanks blanks _ line hline) _
  · have hkeys : (Dict.keys ([] : Dict Str) ++ entries.map (·.1.text)).Nodup := distinct
    obtain ⟨nested', hread⟩ := readWith_entries (by omega : fieldIndent < column + 1 + deeper) (.inl rfl)
      htexts hkeys (lay none _ (blanks.map spaces) ++ follow)
    rw [List.append_assoc, hread, readWith_skip (lay_blanks blanks _), readWith_halts hfollow]
    rfl

/-- The body of a block scalar is hidden, and read as it is written. -/
theorem reads_block {column indent : Nat} (hindent : indent ≤ column) (header : Str)
    (isHeader : blockScalarValue header = true) (deeper : Nat) (body : List Str)
    (oneLine : ∀ line ∈ body, OneLine line) (blanks : List Nat) (position : Nat) :
    let content := Content.block header isHeader deeper body oneLine
    let below := content.below column ++ blanks.map spaces
    below.foldl blockBelow (some indent) = some indent ∧
      Reads column content (lay (some indent) position below) := by
  have hdeep : ∀ line ∈ body.map (spaces (column + 1 + deeper) ++ ·) ++ blanks.map spaces,
      OneLine line ∧ (strip line = [] ∨ column < indentOf line) := by
    rw [List.forall_mem_append, List.forall_mem_map, List.forall_mem_map]
    refine ⟨fun line hline => ⟨(oneLine_spaces _).append (oneLine line hline), .inr ?_⟩,
      fun n _ => ⟨oneLine_spaces n, .inl (blank_spaces n).1⟩⟩
    rw [indentOf_spaces]
    omega
  have hhides : ∀ line ∈ body.map (spaces (column + 1 + deeper) ++ ·) ++ blanks.map spaces,
      hides (some indent) line = true := by
    intro line hline
    show (decide (strip line = []) || decide (indent < indentOf line)) = true
    rw [Bool.or_eq_true, decide_eq_true_eq, decide_eq_true_eq]
    exact (hdeep line hline).2.imp_right hindent.trans_lt
  obtain ⟨hfold, htexts⟩ := lay_hidden hhides position
  have hignorable : ∀ line ∈ lay (some indent) position
      (body.map (spaces (column + 1 + deeper) ++ ·) ++ blanks.map spaces), ignorable line.text = true := by
    intro line hline
    rw [htexts line hline]
    rfl
  refine ⟨hfold, fun line hline => inner_ignorable (hignorable line hline) _,
    fun hle hfollow => ?_, fun _ {fieldIndent follow} hle hfollow => ?_⟩
  -- the first pass has emptied the text of these lines: a mapping is not found in them
  · exact (readWith_skip hignorable _ _).trans (readWith_halts hfollow _ _)
  -- the script is joined from the lines as they stand in the file
  · have hraws : ∀ line ∈ lay (some indent) position
        (body.map (spaces (column + 1 + deeper) ++ ·) ++ blanks.map spaces),
        strip (rstripNewlines line.raw) = [] ∨ fieldIndent < indentOf (rstripNewlines line.raw) := by
      intro line hline
      obtain ⟨text, htext, hraw⟩ := mem_lay_raw hline
      obtain ⟨honeLine, hblank⟩ := hdeep text htext
      rw [hraw, rstripNewlines_lineOf honeLine]
      exact hblank.imp_right hle.trans_lt
    have hbody : ∀ line ∈ body, lineFeed ∉ line := fun line hline => lineFeed_not_mem (oneLine line hline)
    have hindented : ∀ line ∈ body.map (spaces (column + 1 + deeper) ++ ·), lineFeed ∉ line := by
      rw [List.forall_mem_map]
      exact fun line hline => lineFeed_not_mem ((oneLine_spaces _).append (oneLine line hline))
    have hblanks : ∀ line ∈ blanks.map spaces, lineFeed ∉ line ∧ line.all isBlank = true := by
      rw [List.forall_mem_map]
      refine fun n _ => ⟨lineFeed_not_mem (oneLine_spaces n), ?_⟩
      have h := all_isBlank_spaces n []
      rwa [List.append_nil] at h
    show strip (dedent (bodyLines fieldIndent (lay (some indent) position
      (body.map (spaces (column + 1 + deeper) ++ ·) ++ blanks.map spaces) ++ follow)).flatten) =
        strip (dedent (unlines body))
    rw [bodyLines_append hraws hfollow, lay_raws]
    show strip (dedent (unlines _)) = _
    rw [strip_dedent_append hindented hblanks, dedent_indent _ hbody]

/-- What is open below the line of a key whose line is indented to `indent`. -/
def Content.opened (indent : Nat) (content : Content) : Option Nat :=
  if content.isBlock then some indent else none

theorem reads_below {column indent : Nat} (hindent : indent ≤ column) (entry : Entry) (position : Nat) :
    (entry.below column).foldl blockBelow (entry.content.opened indent) = entry.content.opened indent ∧
      Reads column entry.content
        (lay (entry.content.opened indent) position (entry.below column)) := by
  obtain ⟨key, content, blanks⟩ := entry
  cases content with
  | scalar value => exact ⟨(lay_shown (blanks_shown blanks) position).1, reads_scalar column value blanks position⟩
  | mapping deeper entries distinct =>
    refine ⟨?_, reads_mapping column deeper entries distinct blanks position⟩
    refine (lay_shown ?_ position).1
    exact List.forall_mem_append.mpr ⟨mapping_shown _ entries, blanks_shown blanks⟩
  | block header isHeader deeper body oneLine =>
    exact reads_block hindent header isHeader deeper body oneLine blanks position

/-! ## The entries of a step -/

/-- Every line of an entry is on its own, and as deep as the key unless it is blank. -/
theorem Entry.deep (column : Nat) (entry : Entry) : ∀ line ∈ entry.lines column,
    OneLine line ∧ (strip line = [] ∨ column ≤ indentOf line) := by
  have hblanks : ∀ line ∈ entry.blanks.map spaces, OneLine line ∧ (strip line = [] ∨ column ≤ indentOf line) := by
    rw [List.forall_mem_map]
    exact fun n _ => ⟨oneLine_spaces n, .inl (blank_spaces n).1⟩
  unfold Entry.lines Entry.below
  rw [List.forall_mem_cons, List.forall_mem_append]
  refine ⟨⟨?_, .inr ?_⟩, ?_, hblanks⟩
  · exact (oneLine_spaces _).append (entry.key.oneLine_entry _ entry.content.oneLine_onLine)
  · rw [(entry.key.flush_entry _).indentOf_spaces]
  · cases entry.content with
    | scalar value => exact fun line hline => absurd hline List.not_mem_nil
    | mapping deeper entries distinct =>
      intro line hline
      refine ⟨(mapping_shown _ entries line hline).1, .inr ?_⟩
      obtain ⟨nested, -, rfl⟩ := List.mem_map.mp hline
      rw [(nested.1.flush_entry _).indentOf_spaces]
      omega
    | block header isHeader deeper body oneLine =>
      unfold Content.below
      rw [List.forall_mem_map]
      intro line hline
      refine ⟨(oneLine_spaces _).append (oneLine line hline), .inr ?_⟩
      rw [indentOf_spaces]
      omega

/-- A line of the writer that is shown as it is. -/
def Shows (line : Line) (text : Str) : Prop := line.text = text ∧ rstripNewlines line.raw = text

theorem shows_layLine {block : Option Nat} {text : Str} (honeLine : OneLine text)
    (hshown : hides block text = false) (position : Nat) : Shows (layLine block position text) text := by
  refine ⟨?_, layLine_raw honeLine block position⟩
  rw [layLine_text honeLine, hshown]
  rfl

/-- A line that is shown, and is no comment, ends what is deeper. -/
theorem halts_shows {column : Nat} {line : Line} {s : Str} (hflush : Flush s) (hhead : s.head? ≠ some 0x23)
    (hline : Shows line (spaces column ++ s)) (follow : List Line) : Halts column (line :: follow) := by
  have hignorable : ignorable line.text = false := by
    rw [hline.1, ignorable_flush hflush]
    exact decide_eq_false hhead
  refine ⟨fun next hnext => ?_, fun next hnext => ?_⟩
  · rw [List.find?_cons_of_pos (by simp [hignorable])] at hnext
    cases hnext
    rw [hline.1, hflush.indentOf_spaces]
  · cases hnext
    obtain ⟨c, cs, hstrip, -⟩ := hflush.strip_spaces column
    rw [hline.2, hflush.indentOf_spaces, hstrip]
    exact ⟨List.cons_ne_nil _ _, Nat.le_refl _⟩

theorem Key.head_entry (key : Key) (value : Str) : (key.entry value).head? ≠ some 0x23 := by
  obtain ⟨c, cs, htext, hc⟩ := key.exists_cons
  rw [Key.entry, htext]
  rintro ⟨⟩
  cases hc

theorem lay_entry {column : Nat} {block : Option Nat} (hsettled : Settled column block) (entry : Entry)
    (position : Nat) : ∃ line below, lay block position (entry.lines column) = line :: below ∧
      Shows line (spaces column ++ entry.key.entry entry.content.onLine) ∧
      Reads column entry.content below ∧
      Settled column ((entry.lines column).foldl blockBelow block) := by
  have hflush := entry.key.flush_entry entry.content.onLine
  have honeLine := (entry.deep column _ (.head _)).1
  obtain ⟨c, cs, hstrip, -⟩ := hflush.strip_spaces column
  have hshown : hides block (spaces column ++ entry.key.entry entry.content.onLine) = false :=
    hides_settled hsettled (by rw [hstrip]; exact List.cons_ne_nil _ _) (hflush.indentOf_spaces column).le
  have hopened : blockBelow block (spaces column ++ entry.key.entry entry.content.onLine) =
      entry.content.opened column := by
    unfold blockBelow Content.opened
    rw [hshown, if_neg Bool.false_ne_true, opensBlock_entry, entry.content.opensBlock_onLine,
      hflush.indentOf_spaces]
  have hlay : lay block position (entry.lines column) =
      layLine block position (spaces column ++ entry.key.entry entry.content.onLine) ::
        lay (entry.content.opened column)
          (position + (lineOf (spaces column ++ entry.key.entry entry.content.onLine)).length)
          (entry.below column) := by
    unfold Entry.lines
    rw [lay, hopened]
  exact ⟨_, _, hlay, shows_layLine honeLine hshown position, (reads_below (Nat.le_refl _) entry _).2,
    foldl_settled hsettled fun line hline => (entry.deep column line hline).2⟩

/-- What the loop over the direct fields remembers of an entry. -/
def Found (fieldIndent : Nat) (entry : Entry) (found : Str × Str × List Line) : Prop :=
  found.1 = entry.key.text ∧ found.2.1 = entry.content.value ∧
    readWith fieldIndent none found.2.2 [] = entry.content.nested ∧
    (entry.content.isBlock = true →
      strip (dedent (bodyLines fieldIndent found.2.2).flatten) = entry.content.script)

theorem readFields_inner {fieldIndent column : Nat} (hdeep : fieldIndent < column) {lines : List Line}
    (h : ∀ line ∈ lines, Inner column line) (rest : List Line) (found : Dict (Str × List Line)) :
    readFields fieldIndent (lines ++ rest) found = readFields fieldIndent rest found := by
  refine readFields_skip (fun line hline key hkey => ?_) rest found
  have hle := (h line hline).mappingKey hkey
  omega

theorem readFields_ignorable {fieldIndent : Nat} {lines : List Line}
    (h : ∀ line ∈ lines, ignorable line.text = true) (found : Dict (Str × List Line)) :
    readFields fieldIndent lines found = found := by
  have hskip := readFields_inner (Nat.lt_succ_self fieldIndent)
    (fun line hline => inner_ignorable (h line hline) _) [] found
  rwa [List.append_nil] at hskip

/-- The loop over the direct fields remembers every entry in the column it looks at. -/
theorem readFields_entries {column : Nat} (hcolumn : column ≠ 0) {block : Option Nat}
    (hsettled : Settled column block)
    {entries : List Entry} (position : Nat) {found : Dict (Str × List Line)}
    (hkeys : (found.keys ++ entries.map (·.key.text)).Nodup) :
    ∃ dictionary,
      readFields column (lay block position (entries.flatMap (Entry.lines column))) found = found ++ dictionary ∧
      List.Forall₂ (Found column) entries dictionary ∧
      Halts column (lay block position (entries.flatMap (Entry.lines column))) := by
  induction entries generalizing block position found with
  | nil =>
    refine ⟨[], ?_, .nil, halts_nil column⟩
    rw [List.append_nil]
    rfl
  | cons entry entries ih =>
    obtain ⟨line, below, hlay, hline, hreads, hsettled'⟩ := lay_entry hsettled entry position
    have hlines : lay block position ((entry :: entries).flatMap (Entry.lines column)) =
        line :: below ++ lay ((entry.lines column).foldl blockBelow block)
          (position + (unlines (entry.lines column)).length) (entries.flatMap (Entry.lines column)) := by
      rw [List.flatMap_cons, lay_append, hlay]
    have hkey : mappingKey line.text = some (column, entry.key.text, lstrip entry.content.onLine) := by
      rw [hline.1, mappingKey_entry, if_neg hcolumn]
    have hrest := fun (found' : Dict (Str × List Line)) hkeys' =>
      @ih _ hsettled' (position + (unlines (entry.lines column)).length) found' hkeys'
    -- what a field remembers runs to the end of the step, over the fields behind it
    generalize lay ((entry.lines column).foldl blockBelow block)
      (position + (unlines (entry.lines column)).length) (entries.flatMap (Entry.lines column)) = rest
      at hlines hrest
    obtain ⟨dictionary, hread, hfound, hhalts⟩ :=
      hrest _ (nodup_keys_next hkeys (entry.content.value, below ++ rest))
    refine ⟨(entry.key.text, entry.content.value, below ++ rest) :: dictionary, ?_,
      .cons ⟨rfl, rfl, ?_, ?_⟩ hfound, ?_⟩
    rotate_left
    · exact hreads.nested (Nat.le_refl _) hhalts
    · exact fun hblock => hreads.script hblock (Nat.le_refl _) hhalts
    · rw [hlines, List.cons_append]
      exact halts_shows (entry.key.flush_entry _) (entry.key.head_entry _) hline _
    · rw [hlines, List.cons_append, readFields_entry hkey (fresh_key hkeys),
        readFields_inner (Nat.lt_succ_self column) hreads.inner, entry.content.yamlScalar_onLine, hread,
        List.append_assoc]
      rfl

theorem inner_entries {column : Nat} {block : Option Nat} (hsettled : Settled column block)
    (entries : List Entry) (position : Nat) :
    ∀ line ∈ lay block position (entries.flatMap (Entry.lines column)), Inner column line := by
  induction entries generalizing block position with
  | nil => exact fun line hline => absurd hline List.not_mem_nil
  | cons entry entries ih =>
    obtain ⟨line, below, hlay, hline, hreads, hsettled'⟩ := lay_entry hsettled entry position
    have hindent := (entry.key.flush_entry entry.content.onLine).indentOf_spaces column
    rw [List.flatMap_cons, lay_append, hlay, List.forall_mem_append, List.forall_mem_cons]
    refine ⟨⟨⟨?_, .inr ?_⟩, fun next hnext => (hreads.inner next hnext).mono (Nat.le_succ _)⟩, ih hsettled' _⟩
    · unfold dashIndent
      rw [hline.1, stepStart_entry]
      exact ite_self _
    · rw [hline.1, hindent]

/-! ## One step -/

/-- The lines of a step as the first pass leaves them.  A block scalar behind the dash hides all of the
others; without one they are read as entries in the column of the first key. -/
theorem lay_step {dash : Nat} {block : Option Nat} (hsettled : Settled dash block) (step : Step)
    (position : Nat) : ∃ first below others, lay block position (step.lines dash) = first :: (below ++ others) ∧
      first.position = position ∧
      Shows first (spaces dash ++ step.first.key.item step.gap step.first.content.onLine) ∧
      Reads (step.column dash) step.first.content below ∧
      (∀ line ∈ others, Inner (step.column dash) line) ∧ (step.rest = [] → others = []) ∧
      if step.first.content.isBlock then ∀ line ∈ others, ignorable line.text = true
      else ∃ next, others = lay none next (step.rest.flatMap (Entry.lines (step.column dash))) := by
  have hflush := step.first.key.flush_item step.gap step.first.content.onLine
  have hcolumn : dash < step.column dash := by
    unfold Step.column
    omega
  have honeLine : OneLine (spaces dash ++ step.first.key.item step.gap step.first.content.onLine) :=
    (oneLine_spaces _).append (step.first.key.oneLine_item _ step.first.content.oneLine_onLine)
  obtain ⟨c, cs, hstrip, -⟩ := hflush.strip_spaces dash
  have hshown : hides block (spaces dash ++ step.first.key.item step.gap step.first.content.onLine) = false :=
    hides_settled hsettled (by rw [hstrip]; exact List.cons_ne_nil _ _) (hflush.indentOf_spaces dash).le
  have hopened : blockBelow block (spaces dash ++ step.first.key.item step.gap step.first.content.onLine) =
      step.first.content.opened dash := by
    unfold blockBelow Content.opened
    rw [hshown, if_neg Bool.false_ne_true, opensBlock_item, step.first.content.opensBlock_onLine,
      hflush.indentOf_spaces]
  obtain ⟨start, hstart⟩ : ∃ start, start = position +
      (lineOf (spaces dash ++ step.first.key.item step.gap step.first.content.onLine)).length := ⟨_, rfl⟩
  obtain ⟨hfold, hreads⟩ := reads_below hcolumn.le step.first start
  obtain ⟨next, hnext⟩ : ∃ next, next = start + (unlines (step.first.below (step.column dash))).length :=
    ⟨_, rfl⟩
  have hlay : lay block position (step.lines dash) =
      layLine block position (spaces dash ++ step.first.key.item step.gap step.first.content.onLine) ::
        (lay (step.first.content.opened dash) start (step.first.below (step.column dash)) ++
          lay (step.first.content.opened dash) next
            (step.rest.flatMap (Entry.lines (step.column dash)))) := by
    unfold Step.lines
    rw [lay, hopened, lay_append, hfold, hnext, hstart]
  have hnil : step.rest = [] → lay (step.first.content.opened dash) next
      (step.rest.flatMap (Entry.lines (step.column dash))) = [] := by
    intro hrest
    rw [hrest]
    rfl
  refine ⟨_, _, _, hlay, rfl, shows_layLine honeLine hshown position, hreads, ?_⟩
  cases hblock : step.first.content.isBlock with
  | false =>
    -- nothing is open: the other fields are in the column of the first
    have hnone : step.first.content.opened dash = none := by
      unfold Content.opened
      rw [hblock, if_neg Bool.false_ne_true]
    rw [hnone] at hnil ⊢
    rw [if_neg Bool.false_ne_true]
    exact ⟨inner_entries (settled_none _) step.rest next, hnil, next, rfl⟩
  | true =>
    -- the block is as deep as the dash, and the other fields are deeper
    have hsome : step.first.content.opened dash = some dash := by
      unfold Content.opened
      rw [hblock, if_pos rfl]
    have hhides : ∀ line ∈ step.rest.flatMap (Entry.lines (step.column dash)),
        hides (some dash) line = true := by
      intro line hline
      obtain ⟨entry, -, hline⟩ := List.mem_flatMap.mp hline
      show (decide (strip line = []) || decide (dash < indentOf line)) = true
      rw [Bool.or_eq_true, decide_eq_true_eq, decide_eq_true_eq]
      exact (entry.deep _ line hline).2.imp_right hcolumn.trans_le
    have hignorable : ∀ line ∈ lay (some dash) next (step.rest.flatMap (Entry.lines (step.column dash))),
        ignorable line.text = true := by
      intro line hline
      rw [(lay_hidden hhides next).2 line hline]
      rfl
    rw [hsome] at hnil ⊢
    rw [if_pos rfl]
    exact ⟨fun line hline => inner_ignorable (hignorable line hline) _, hnil, hignorable⟩

theorem fields_found {fieldIndent : Nat} {entries : List Entry} {dictionary : Dict (Str × List Line)}
    (h : List.Forall₂ (Found fieldIndent) entries dictionary) :
    dictionary.map (fun found => (found.1, found.2.1)) =
      entries.map fun entry => (entry.key.text, entry.content.value) := by
  induction h with
  | nil => rfl
  | cons hfound _ ih =>
    rw [List.map_cons, List.map_cons, ih, hfound.1, hfound.2.1]

/-- A lookup finds the entry with the key, or there is none. -/
theorem get?_found {fieldIndent : Nat} {entries : List Entry} {dictionary : Dict (Str × List Line)}
    (h : List.Forall₂ (Found fieldIndent) entries dictionary) (name : Str) :
    match (entries.find? (·.key.text = name)).map (·.content) with
    | none => Dict.get? dictionary name = none
    | some content => ∃ value below, Dict.get? dictionary name = some (value, below) ∧
        value = content.value ∧ readWith fieldIndent none below [] = content.nested ∧
        (content.isBlock = true → strip (dedent (bodyLines fieldIndent below).flatten) = content.script) := by
  induction h with
  | nil => rfl
  | @cons entry found entries dictionary hfound _ ih =>
    obtain ⟨key, value, below⟩ := found
    obtain ⟨hkey, hrest⟩ := hfound
    rw [Dict.get?_cons]
    by_cases hname : entry.key.text = name
    · rw [List.find?_cons_of_pos (by simp [hname]), if_pos (hkey.trans hname)]
      exact ⟨value, below, rfl, hrest⟩
    · have hother : ¬ key = name := fun heq => hname (hkey.symm.trans heq)
      rw [List.find?_cons_of_neg (by simp [hname]), if_neg hother]
      exact ih

theorem Content.script_scalar {content : Content} (h : content.isBlock = false) :
    content.value = content.script := by
  cases content with
  | scalar value => rfl
  | mapping deeper entries distinct => rfl
  | block header isHeader deeper body oneLine => cases h

/-- A step is read from what the loop over its direct fields remembers. -/
theorem parse_found {fieldIndent stepsBlock : Nat} {step : Step} {first : Line} {rest : List Line}
    {dictionary : Dict (Str × List Line)}
    (hstart : stepStart first.text = some (fieldIndent, step.first.key.text, lstrip step.first.content.onLine))
    (hread : readFields (fieldIndent + 2) rest [(step.first.key.text, step.first.content.value, rest)] =
      dictionary)
    (hfound : List.Forall₂ (Found (fieldIndent + 2)) step.entries dictionary) :
    parseWorkflowStep stepsBlock (first :: rest) = .ok (step.read first.position stepsBlock) := by
  have hwith := get?_found hfound (str "with")
  have hrun := get?_found hfound (str "run")
  rw [parseWorkflowStep, hstart]
  dsimp only
  rw [step.first.content.yamlScalar_onLine, hread, fields_found hfound]
  unfold Step.read Step.content?
  -- the inputs of the action and the script are looked up among the keys
  congr 2
  · cases hcontent : (step.entries.find? (·.key.text = str "with")).map (·.content) with
    | none =>
      rw [hcontent] at hwith
      rw [hwith]
      rfl
    | some content =>
      rw [hcontent] at hwith
      obtain ⟨value, below, hget, -, hnested, -⟩ := hwith
      rw [hget]
      exact hnested
  · cases hcontent : (step.entries.find? (·.key.text = str "run")).map (·.content) with
    | none =>
      rw [hcontent] at hrun
      rw [hrun]
      rfl
    | some content =>
      rw [hcontent] at hrun
      obtain ⟨value, below, hget, rfl, -, hscript⟩ := hrun
      rw [hget, Option.map_some, Option.map_some, content.blockScalarValue_value]
      cases hblock : content.isBlock with
      | true => rw [if_pos rfl, hscript hblock]
      | false => rw [if_neg Bool.false_ne_true, Content.script_scalar hblock]

/-- Whatever the loop over the direct fields remembers, these are the fields of the step. -/
theorem parse_fields {fieldIndent : Nat} {key value : Str} {first : Line}
    (hstart : stepStart first.text = some (fieldIndent, key, value)) (stepsBlock : Nat) (rest : List Line) :
    ∃ found, parseWorkflowStep stepsBlock (first :: rest) = .ok found ∧ found.position = first.position ∧
      found.stepsBlock = stepsBlock ∧ found.fields =
        (readFields (fieldIndent + 2) rest [(key, yamlScalar value, rest)]).map fun entry =>
          (entry.1, entry.2.1) := by
  rw [parseWorkflowStep, hstart]
  exact ⟨_, rfl, rfl, rfl, rfl⟩

/-- The lines of a step make an item, and the item is read as it was written, or loses its keys. -/
theorem parse_step {dash : Nat} {block : Option Nat} (hsettled : Settled dash block) (step : Step)
    (position : Nat) : ∃ first inner, lay block position (step.lines dash) = first :: inner ∧
      Shows first (spaces dash ++ step.first.key.item step.gap step.first.content.onLine) ∧
      (∀ line ∈ inner, Inner (dash + 1) line) ∧
      ∀ stepsBlock : Nat, ∃ found, parseWorkflowStep stepsBlock (first :: inner) = .ok found ∧
        Recovered ⟨position, stepsBlock, step⟩ found := by
  obtain ⟨first, below, others, hlay, hposition, hfirst, hreads, hinner, hnil, hothers⟩ :=
    lay_step hsettled step position
  have hcolumn : dash + 2 ≤ step.column dash := Nat.le_add_right _ _
  have hstart : stepStart first.text =
      some (dash, step.first.key.text, lstrip step.first.content.onLine) := by
    rw [hfirst.1, stepStart_item]
  refine ⟨first, below ++ others, hlay, hfirst, ?_, fun stepsBlock => ?_⟩
  · refine List.forall_mem_append.mpr ⟨fun line hline => ?_, fun line hline => ?_⟩
    · exact (hreads.inner line hline).mono (by omega)
    · exact (hinner line hline).mono (by omega)
  by_cases haligned : step.Aligned
  · have hread : ∃ dictionary, readFields (dash + 2) (below ++ others)
        [(step.first.key.text, step.first.content.value, below ++ others)] = dictionary ∧
        List.Forall₂ (Found (dash + 2)) step.entries dictionary := by
      rw [readFields_inner (Nat.lt_succ_of_le hcolumn) hreads.inner]
      rcases haligned with hrest | ⟨hgap, hblock⟩
      · -- one key: nothing else is read
        rw [hnil hrest]
        unfold Step.entries
        rw [hrest]
        exact ⟨_, rfl, .cons ⟨rfl, rfl, hreads.nested hcolumn (halts_nil _),
          fun hblock => hreads.script hblock hcolumn (halts_nil _)⟩ .nil⟩
      · -- the other keys are two columns right of the dash
        rw [hblock, if_neg Bool.false_ne_true] at hothers
        obtain ⟨next, rfl⟩ := hothers
        have htwo : step.column dash = dash + 2 := by
          unfold Step.column
          rw [hgap, Nat.add_zero]
        rw [htwo] at hreads ⊢
        have hkeys : ∀ value : Str × List Line,
            (Dict.keys [(step.first.key.text, value)] ++ step.rest.map (·.key.text)).Nodup :=
          fun value => step.distinct
        obtain ⟨dictionary, hread, hfound, hhalts⟩ := readFields_entries (Nat.succ_ne_zero _)
          (settled_none (dash + 2)) next (hkeys (step.first.content.value,
            below ++ lay none next (step.rest.flatMap (Entry.lines (dash + 2)))))
        refine ⟨_, hread, .cons ⟨rfl, rfl, hreads.nested (Nat.le_refl _) hhalts, fun hblock => ?_⟩ hfound⟩
        exact hreads.script hblock (Nat.le_refl _) hhalts
    obtain ⟨dictionary, hread, hfound⟩ := hread
    refine ⟨_, parse_found hstart hread hfound, ?_⟩
    rw [hposition]
    exact ⟨rfl, rfl, fun _ => rfl, fun hnot => absurd haligned hnot⟩
  · obtain ⟨found, hparse, hfoundPosition, hstepsBlock, hfields⟩ :=
      parse_fields hstart stepsBlock (below ++ others)
    refine ⟨found, hparse, hfoundPosition.trans hposition, hstepsBlock,
      fun hyes => absurd hyes haligned, fun _ => ?_⟩
    rw [Step.Aligned, not_or, not_and] at haligned
    rw [hfields, step.first.content.yamlScalar_onLine,
      readFields_inner (Nat.lt_succ_of_le hcolumn) hreads.inner]
    have hlost : ∀ found : Dict (Str × List Line), readFields (dash + 2) others found = found := by
      intro found
      cases hblock : step.first.content.isBlock with
      | true =>
        rw [hblock, if_pos rfl] at hothers
        exact readFields_ignorable hothers found
      | false =>
        have hgap : step.gap ≠ 0 := fun hzero => haligned.2 hzero hblock
        have hright : dash + 2 < step.column dash := by
          unfold Step.column
          omega
        have hskip := readFields_inner hright hinner [] found
        rwa [List.append_nil] at hskip
    rw [hlost]
    rfl

/-! ## What follows a step -/

section Extra

variable {extra : List Line} (hignorable : ∀ line ∈ extra, ignorable line.text = true)

/-- A field is remembered with more lines behind it. -/
def extend (extra : List Line) (entry : Str × Str × List Line) : Str × Str × List Line :=
  (entry.1, entry.2.1, entry.2.2 ++ extra)

theorem assign_extend (found : Dict (Str × List Line)) (key value : Str) (rest : List Line) :
    assign (found.map (extend extra)) key (value, rest ++ extra) =
      (assign found key (value, rest)).map (extend extra) := by
  have hhas : Dict.has (found.map (extend extra)) key = Dict.has found key := by
    unfold Dict.has
    rw [List.any_map]
    rfl
  unfold assign
  rw [hhas]
  cases Dict.has found key with
  | false =>
    rw [if_neg Bool.false_ne_true, if_neg Bool.false_ne_true, List.map_append]
    rfl
  | true =>
    rw [if_pos rfl, if_pos rfl, List.map_map, List.map_map]
    refine List.map_congr_left fun entry _ => ?_
    show (if entry.1 = key then _ else extend extra entry) = extend extra (if entry.1 = key then _ else entry)
    split
    · rfl
    · rfl

theorem get?_extend (found : Dict (Str × List Line)) (name : Str) :
    Dict.get? (found.map (extend extra)) name =
      (Dict.get? found name).map fun entry => (entry.1, entry.2 ++ extra) := by
  induction found with
  | nil => rfl
  | cons entry found ih =>
    obtain ⟨key, value, below⟩ := entry
    rw [List.map_cons, extend, Dict.get?_cons, Dict.get?_cons, ih]
    split
    · rfl
    · rfl

include hignorable

/-- The loop over the direct fields passes over what follows. -/
theorem readFields_extra {fieldIndent : Nat} (lines : List Line) (found : Dict (Str × List Line)) :
    readFields fieldIndent (lines ++ extra) (found.map (extend extra)) =
      (readFields fieldIndent lines found).map (extend extra) := by
  induction lines generalizing found with
  | nil => exact readFields_ignorable hignorable _
  | cons line lines ih =>
    rw [List.cons_append, readFields, readFields]
    cases mappingKey line.text with
    | none => exact ih found
    | some entry =>
      dsimp only
      rw [← ih]
      congr 1
      split
      · exact assign_extend found _ _ lines
      · rfl

theorem readWith_extra {fieldIndent : Nat} (nested : Option Nat) (lines : List Line) (found : Dict Str) :
    readWith fieldIndent nested (lines ++ extra) found = readWith fieldIndent nested lines found := by
  induction lines generalizing nested found with
  | nil =>
    have hskip : readWith fieldIndent nested (extra ++ []) found = readWith fieldIndent nested [] found :=
      readWith_skip hignorable [] found
    rwa [List.append_nil] at hskip
  | cons line lines ih =>
    rw [List.cons_append, readWith, readWith]
    split
    · exact ih nested found
    · split
      · rfl
      · cases mappingKey line.text with
        | none => exact ih nested found
        | some entry => exact ih _ _

/-- What ends an item, and is passed over itself, does not change what is read of the item. -/
theorem parse_extra {dash : Nat} {entry : Str × Str} {first : Line} (hstart : stepStart first.text = some (dash, entry))
    (hhalts : Halts (dash + 2) extra) (stepsBlock : Nat) (rest : List Line) :
    parseWorkflowStep stepsBlock (first :: (rest ++ extra)) = parseWorkflowStep stepsBlock (first :: rest) := by
  have hbody : ∀ lines, bodyLines (dash + 2) (lines ++ extra) = bodyLines (dash + 2) lines := by
    intro lines
    unfold bodyLines
    rw [List.takeWhile_append, takeWhile_halts hhalts]
    split
    · rename_i hwhole
      rw [List.append_nil, (List.takeWhile_prefix _).eq_of_length hwhole]
    · rfl
  have hfields := @readFields_extra extra hignorable (dash + 2) rest [(entry.1, yamlScalar entry.2, rest)]
  rw [parseWorkflowStep, parseWorkflowStep, hstart]
  dsimp only
  rw [show [(entry.1, yamlScalar entry.2, rest ++ extra)] = [(entry.1, yamlScalar entry.2, rest)].map (extend extra)
    from rfl, hfields, get?_extend, get?_extend, List.map_map]
  congr 2
  · cases Dict.get? (readFields (dash + 2) rest [(entry.1, yamlScalar entry.2, rest)]) (str "with") with
    | none => rfl
    | some found => exact readWith_extra hignorable none found.2 []
  · rw [Option.map_map]
    refine Option.map_congr fun run _ => ?_
    show (if blockScalarValue run.1 then strip (dedent (bodyLines (dash + 2) (run.2 ++ extra)).flatten) else run.1) = _
    rw [hbody]

end Extra

end FastGate.CheckRepository
