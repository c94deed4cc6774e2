/-
# FastGate.CheckRepository.Scanner — what the workflow scanner reads on a laid-out line

One lemma for each pattern and each of the two shapes a line of a step has: `key: value` behind some
spaces, and the same behind a dash.  Then one lemma for each loop of the scanner: how the first pass
goes over a text that is put together of parts, and which lines the other loops pass over.

* `lay` is the first pass over the lines of a text, from a given position and with a given block scalar
  open; it is taken apart where the text is (`lay_append`), and `blockBelow` is what it knows below a
  line.
* `Settled column block` says that whatever block scalar is open began at that column or deeper, so that
  a line that is no deeper ends it.
* `Inner column line` is a line that is deeper than a column and no item of it; `Halts column lines` are
  lines of which the first stops the loops.  Between the two, every loop of the scanner goes through the
  lines of a step and stops behind them.
-/
import FastGate.CheckRepository.Workflow

open FastGate.Lines FastGate.Python

namespace FastGate.CheckRepository

/-! ## Keys -/

/-- A key of a mapping. -/
structure Key where
  text : Str
  ne_nil : text ≠ []
  chars : ∀ c ∈ text, isKeyChar c = true

/-- `key:` and what stands behind it. -/
def Key.entry (key : Key) (value : Str) : Str := key.text ++ 0x3A :: value

theorem isKeyChar_range {c : Nat} (h : isKeyChar c = true) :
    c = 0x2D ∨ (0x30 ≤ c ∧ c ≤ 0x39) ∨ (0x41 ≤ c ∧ c ≤ 0x7A) := by
  rw [isKeyChar, decide_eq_true_eq] at h
  omega

theorem isSpace_keyChar {c : Nat} (h : isKeyChar c = true) : isSpace c = false := by
  have hrange := isKeyChar_range h
  rw [isSpace, decide_eq_false_iff_not]
  omega

theorem isLineBoundary_keyChar {c : Nat} (h : isKeyChar c = true) : isLineBoundary c = false := by
  have hrange := isKeyChar_range h
  rw [isLineBoundary, decide_eq_false_iff_not]
  omega

namespace Key

variable (key : Key) (value : Str)

theorem exists_cons : ∃ c cs, key.text = c :: cs ∧ isKeyChar c = true := by
  obtain ⟨c, cs, htext⟩ := List.exists_cons_of_ne_nil key.ne_nil
  exact ⟨c, cs, htext, key.chars c (by rw [htext]; exact List.mem_cons_self)⟩

theorem flush_entry : Flush (key.entry value) := by
  obtain ⟨c, cs, htext, hc⟩ := key.exists_cons
  exact ⟨c, cs ++ 0x3A :: value, by rw [entry, htext]; rfl, isSpace_keyChar hc⟩

theorem oneLine_entry (h : OneLine value) : OneLine (key.entry value) := by
  refine OneLine.append (fun c hc => isLineBoundary_keyChar (key.chars c hc)) fun c hc => ?_
  rcases List.mem_cons.mp hc with rfl | hc
  · rfl
  · exact h c hc

theorem takeWhile_entry : (key.entry value).takeWhile isKeyChar = key.text := by
  rw [entry, List.takeWhile_append_of_pos key.chars, List.takeWhile_cons_of_neg (by decide), List.append_nil]

theorem dropWhile_entry : (key.entry value).dropWhile isKeyChar = 0x3A :: value := by
  rw [entry, List.dropWhile_append_of_pos key.chars, List.dropWhile_cons_of_neg (by decide)]

theorem keyValue_entry : keyValue (key.entry value) = some (key.text, lstrip value) := by
  unfold keyValue
  rw [dropWhile_entry, takeWhile_entry]
  exact if_neg key.ne_nil

end Key

/-- An item of a sequence that starts with an entry. -/
def Key.item (key : Key) (gap : Nat) (value : Str) : Str := 0x2D :: (spaces (gap + 1) ++ key.entry value)

theorem Key.flush_item (key : Key) (gap : Nat) (value : Str) : Flush (key.item gap value) := ⟨_, _, rfl, rfl⟩

theorem Key.oneLine_item (key : Key) (gap : Nat) {value : Str} (h : OneLine value) :
    OneLine (key.item gap value) := by
  intro c hc
  rcases List.mem_cons.mp hc with rfl | hc
  · rfl
  · exact (oneLine_spaces (gap + 1)).append (key.oneLine_entry value h) c hc

/-! ## The patterns -/

section Patterns

variable (key : Key) (column gap : Nat) (value : Str)

theorem mappingKey_entry :
    mappingKey (spaces column ++ key.entry value) =
      if column = 0 then none else some (column, key.text, lstrip value) := by
  unfold mappingKey
  rw [(key.flush_entry value).indentOf_spaces, (key.flush_entry value).dropWhile_spaces,
    key.keyValue_entry]
  rfl

theorem stepStart_item :
    stepStart (spaces column ++ key.item gap value) = some (column, key.text, lstrip value) := by
  have hgap : ((spaces (gap + 1) ++ key.entry value).head?.any isSpace) = true := rfl
  have hentry : lstrip (spaces (gap + 1) ++ key.entry value) = key.entry value := by
    rw [lstrip_spaces, (key.flush_entry value).lstrip]
  unfold stepStart
  rw [(key.flush_item gap value).dropWhile_spaces]
  show (if ((spaces (gap + 1) ++ key.entry value).head?.any isSpace) = true then
    (keyValue (lstrip (spaces (gap + 1) ++ key.entry value))).map fun entry =>
      (indentOf (spaces column ++ key.item gap value), entry) else none) = _
  rw [if_pos hgap, hentry, key.keyValue_entry, (key.flush_item gap value).indentOf_spaces]
  rfl

/-- A key may begin with a dash, but no space follows it. -/
theorem stepStart_entry : stepStart (spaces column ++ key.entry value) = none := by
  obtain ⟨c, cs, htext, hc⟩ := key.exists_cons
  unfold stepStart
  rw [(key.flush_entry value).dropWhile_spaces]
  split
  · rename_i rest heq
    rw [Key.entry, htext] at heq
    obtain ⟨-, rfl⟩ := List.cons.inj heq
    have hnext : ((cs ++ 0x3A :: value).head?.any isSpace) = false := by
      cases cs with
      | nil => rfl
      | cons d ds =>
        have hd : isKeyChar d = true := key.chars d (by rw [htext]; exact .tail _ (.head _))
        exact isSpace_keyChar hd
    refine if_neg ?_
    rw [← List.append_eq] at hnext
    rw [hnext]
    exact Bool.false_ne_true
  · rfl

theorem stepsKey_item : stepsKey (spaces column ++ key.item gap value) = none := by
  unfold stepsKey
  rw [(key.flush_item gap value).dropWhile_spaces]
  refine if_neg fun h => ?_
  exact absurd (List.cons_prefix_cons.mp h.1).1 (by decide)

/-- A block scalar is opened behind the key, or further right. -/
theorem opensBlock_append {front : Str} (h : ∀ c ∈ front, c ≠ 0x3A) (s : Str) :
    opensBlock (front ++ s) = opensBlock s := by
  induction front with
  | nil => rfl
  | cons c cs ih =>
    obtain ⟨hc, hcs⟩ := List.forall_mem_cons.mp h
    rw [List.cons_append, opensBlock, ih hcs]
    simp [hc]

theorem spaces_ne_colon (n : Nat) : ∀ c ∈ spaces n, c ≠ 0x3A := by
  intro c hc
  rw [List.eq_of_mem_replicate hc]
  decide

theorem opensBlock_entry :
    opensBlock (spaces column ++ key.entry value) = opensBlock (0x3A :: value) := by
  have hkey : ∀ c ∈ key.text, c ≠ 0x3A := by
    rintro c hc rfl
    exact absurd (key.chars _ hc) (by decide)
  rw [opensBlock_append (spaces_ne_colon column), Key.entry, opensBlock_append hkey]

theorem opensBlock_item :
    opensBlock (spaces column ++ key.item gap value) = opensBlock (0x3A :: value) := by
  have hdash : ∀ c ∈ [0x2D], c ≠ 0x3A := by decide
  rw [opensBlock_append (spaces_ne_colon column), Key.item, ← List.singleton_append,
    opensBlock_append hdash]
  exact opensBlock_entry key (gap + 1) value

end Patterns

theorem ignorable_flush {s : Str} (h : Flush s) (column : Nat) :
    ignorable (spaces column ++ s) = decide (s.head? = some 0x23) := by
  obtain ⟨c, cs, hstrip, hhead⟩ := h.strip_spaces column
  unfold ignorable
  rw [hstrip, hhead]
  exact decide_eq_decide.mpr (Option.some_inj.symm)

/-- What is matched as an entry is nothing that the scanner passes over. -/
theorem keyValue_flush {s : Str} {entry : Str × Str} (h : keyValue s = some entry) :
    Flush s ∧ s.head? ≠ some 0x23 := by
  have hkey : s.takeWhile isKeyChar ≠ [] := by
    intro hnil
    unfold keyValue at h
    split at h
    · rw [if_pos hnil] at h
      cases h
    · cases h
  cases s with
  | nil => exact absurd rfl hkey
  | cons c cs =>
    have hc : isKeyChar c = true := by
      by_contra hc
      exact hkey (List.takeWhile_cons_of_neg hc)
    refine ⟨⟨c, cs, rfl, isSpace_keyChar hc⟩, ?_⟩
    rintro ⟨⟩
    cases hc

theorem spaces_dropWhile (line : Str) : line = spaces (indentOf line) ++ line.dropWhile (· = 0x20) := by
  have hspaces : line.takeWhile (· = 0x20) = spaces (indentOf line) := by
    refine List.eq_replicate_iff.mpr ⟨rfl, fun c hc => ?_⟩
    have hspace := List.mem_takeWhile_imp (p := fun c => decide (c = 0x20)) hc
    exact of_decide_eq_true hspace
  conv_lhs => rw [← List.takeWhile_append_dropWhile (p := (· = 0x20)) (l := line), hspaces]

theorem mappingKey_some {line : Str} {found : Nat × Str × Str} (h : mappingKey line = some found) :
    found.1 = indentOf line ∧ ignorable line = false := by
  unfold mappingKey at h
  split at h
  · cases h
  · obtain ⟨entry, hentry, rfl⟩ := Option.map_eq_some_iff.mp h
    obtain ⟨hflush, hhead⟩ := keyValue_flush hentry
    refine ⟨rfl, ?_⟩
    rw [spaces_dropWhile line, ignorable_flush hflush]
    exact decide_eq_false hhead

/-! ## The first pass -/

/-- The line belongs to the block scalar above it. -/
def hides (block : Option Nat) (line : Str) : Bool :=
  block.any fun indent => strip line = [] || indent < indentOf line

/-- The block scalar that is open below a line. -/
def blockBelow (block : Option Nat) (line : Str) : Option Nat :=
  if hides block line then block else if opensBlock line then some (indentOf line) else none

theorem blockBelow_shown {block : Option Nat} {line : Str} (h : hides block line = false)
    (hopens : opensBlock line = false) : blockBelow block line = none := by
  unfold blockBelow
  rw [h, hopens, if_neg Bool.false_ne_true, if_neg Bool.false_ne_true]

/-- A line at its place, hidden or not. -/
def layLine (block : Option Nat) (position : Nat) (line : Str) : Line :=
  ⟨position, lineOf line, if hides block line then [lineFeed] else lineOf line⟩

/-- Lines one below the other. -/
def lay : Option Nat → Nat → List Str → List Line
  | _, _, [] => []
  | block, position, line :: rest =>
    layLine block position line :: lay (blockBelow block line) (position + (lineOf line).length) rest

theorem structureLines_lineOf {lines : List Str} (h : ∀ line ∈ lines, OneLine line) (block : Option Nat)
    (position : Nat) : structureLines block position (lines.map lineOf) = lay block position lines := by
  induction lines generalizing block position with
  | nil => rfl
  | cons line lines ih =>
    obtain ⟨hline, hlines⟩ := List.forall_mem_cons.mp h
    have hlast : (lineOf line).getLast? = some lineFeed := List.getLast?_concat
    rw [List.map_cons, structureLines, rstripNewlines_lineOf hline, hlast, if_pos rfl]
    show (if hides block line = true then _ else _) = _
    unfold lay layLine blockBelow
    split <;> rw [ih hlines]

theorem workflowSteps_unlines {lines : List Str} (h : ∀ line ∈ lines, OneLine line) :
    workflowSteps (unlines lines) = stepsOf (lay none 0 lines) := by
  unfold workflowSteps
  rw [splitlinesKeepends_unlines h, structureLines_lineOf h]

theorem lay_append (block : Option Nat) (position : Nat) (above below : List Str) :
    lay block position (above ++ below) = lay block position above ++
      lay (above.foldl blockBelow block) (position + (unlines above).length) below := by
  induction above generalizing block position with
  | nil => rfl
  | cons line above ih =>
    have hlength : (unlines (line :: above)).length = (lineOf line).length + (unlines above).length := by
      rw [unlines, List.flatMap_cons, List.length_append]
      rfl
    rw [List.cons_append, lay, ih, hlength, ← Nat.add_assoc]
    rfl

theorem layLine_raw {line : Str} (h : OneLine line) (block : Option Nat) (position : Nat) :
    rstripNewlines (layLine block position line).raw = line := rstripNewlines_lineOf h

theorem layLine_text {line : Str} (h : OneLine line) (block : Option Nat) (position : Nat) :
    (layLine block position line).text = if hides block line then [] else line := by
  unfold layLine Line.text
  split
  · rfl
  · exact rstripNewlines_lineOf h

theorem lay_raws (block : Option Nat) (position : Nat) (lines : List Str) :
    (lay block position lines).map (·.raw) = lines.map lineOf := by
  induction lines generalizing block position with
  | nil => rfl
  | cons line lines ih => rw [lay, List.map_cons, ih]; rfl

/-- Lines of an open block scalar are hidden. -/
theorem lay_hidden {indent : Nat} {lines : List Str} (h : ∀ line ∈ lines, hides (some indent) line = true)
    (position : Nat) : lines.foldl blockBelow (some indent) = some indent ∧
      ∀ line ∈ lay (some indent) position lines, line.text = [] := by
  induction lines generalizing position with
  | nil => exact ⟨rfl, fun line hline => absurd hline List.not_mem_nil⟩
  | cons line lines ih =>
    obtain ⟨hline, hlines⟩ := List.forall_mem_cons.mp h
    have hstays : blockBelow (some indent) line = some indent := if_pos hline
    rw [List.foldl_cons, lay, hstays, List.forall_mem_cons]
    obtain ⟨hfold, htexts⟩ := ih hlines (position + (lineOf line).length)
    refine ⟨hfold, ?_, htexts⟩
    unfold layLine Line.text
    rw [if_pos hline]
    rfl

/-- Lines that open no block scalar are shown where none is open. -/
theorem lay_shown {lines : List Str} (h : ∀ line ∈ lines, OneLine line ∧ opensBlock line = false)
    (position : Nat) : lines.foldl blockBelow none = none ∧
      (lay none position lines).map (·.text) = lines := by
  induction lines generalizing position with
  | nil => exact ⟨rfl, rfl⟩
  | cons line lines ih =>
    obtain ⟨hline, hlines⟩ := List.forall_mem_cons.mp h
    have hnone : blockBelow none line = none := blockBelow_shown rfl hline.2
    rw [List.foldl_cons, lay, hnone, List.map_cons, layLine_text hline.1]
    obtain ⟨hfold, htexts⟩ := ih hlines (position + (lineOf line).length)
    rw [htexts]
    exact ⟨hfold, rfl⟩

/-! ## Where a block scalar is open -/

/-- The block scalar that is open, if there is one, belongs to a line that is as deep as the column. -/
def Settled (column : Nat) (block : Option Nat) : Prop := ∀ indent ∈ block, column ≤ indent

theorem Settled.mono {column deeper : Nat} {block : Option Nat} (h : Settled deeper block)
    (hle : column ≤ deeper) : Settled column block := fun indent hindent => hle.trans (h indent hindent)

theorem settled_none (column : Nat) : Settled column none := fun _ h => by cases h

/-- A line that is not deeper is shown. -/
theorem hides_settled {column : Nat} {block : Option Nat} (h : Settled column block) {line : Str}
    (hblank : strip line ≠ []) (hindent : indentOf line ≤ column) : hides block line = false := by
  cases block with
  | none => rfl
  | some indent =>
    have hle := h indent rfl
    show (decide (strip line = []) || decide (indent < indentOf line)) = false
    rw [decide_eq_false hblank, decide_eq_false (by omega), Bool.or_false]

theorem opensBlock_colon {line : Str} (h : opensBlock line = true) : 0x3A ∈ line := by
  induction line with
  | nil => cases h
  | cons c cs ih =>
    rw [opensBlock, Bool.or_eq_true, Bool.and_eq_true, decide_eq_true_eq] at h
    rcases h with ⟨rfl, -⟩ | h
    · exact .head _
    · exact .tail _ (ih h)

theorem opensBlock_blank {line : Str} (h : strip line = []) : opensBlock line = false := by
  rw [← Bool.not_eq_true]
  intro hopens
  exact absurd (strip_eq_nil h _ (opensBlock_colon hopens)) (by decide)

theorem blockBelow_settled {column : Nat} {block : Option Nat} (h : Settled column block) {line : Str}
    (hline : strip line = [] ∨ column ≤ indentOf line) : Settled column (blockBelow block line) := by
  unfold blockBelow
  split
  · exact h
  · split
    · rename_i hopens
      rcases hline with hblank | hdeep
      · rw [opensBlock_blank hblank] at hopens
        cases hopens
      · rintro indent ⟨⟩
        exact hdeep
    · exact settled_none column

theorem foldl_settled {column : Nat} {block : Option Nat} (h : Settled column block) {lines : List Str}
    (hlines : ∀ line ∈ lines, strip line = [] ∨ column ≤ indentOf line) :
    Settled column (lines.foldl blockBelow block) := by
  induction lines generalizing block with
  | nil => exact h
  | cons line lines ih =>
    obtain ⟨hline, hlines⟩ := List.forall_mem_cons.mp hlines
    exact ih (blockBelow_settled h hline) hlines

/-! ## Lines inside of an item -/

/-- No dash of an item, and shown at the column or deeper, if it is shown at all. -/
def Inner (column : Nat) (line : Line) : Prop :=
  dashIndent line = none ∧ (ignorable line.text = true ∨ column ≤ indentOf line.text)

theorem inner_ignorable {line : Line} (h : ignorable line.text = true) (column : Nat) : Inner column line :=
  ⟨if_pos h, .inl h⟩

theorem Inner.mono {column deeper : Nat} {line : Line} (h : Inner deeper line) (hle : column ≤ deeper) :
    Inner column line := ⟨h.1, h.2.imp_right hle.trans⟩

theorem Inner.mappingKey {column : Nat} {line : Line} (h : Inner column line) {found : Nat × Str × Str}
    (hfound : mappingKey line.text = some found) : column ≤ found.1 := by
  obtain ⟨hindent, hshown⟩ := mappingKey_some hfound
  rw [hindent]
  refine h.2.resolve_left ?_
  rw [hshown]
  exact Bool.false_ne_true

theorem stepsKey_some {line : Str} {indent : Nat} (h : stepsKey line = some indent) :
    indent = indentOf line ∧ ignorable line = false := by
  unfold stepsKey at h
  dsimp only at h
  split at h
  · rename_i hsteps
    refine ⟨(Option.some.inj h).symm, ?_⟩
    obtain ⟨rest, hrest⟩ := hsteps.1
    have hflush : Flush (line.dropWhile (· = 0x20)) := by
      rw [← hrest]
      exact ⟨_, _, rfl, rfl⟩
    rw [spaces_dropWhile line, ignorable_flush hflush, ← hrest]
    rfl
  · cases h

theorem Inner.stepsKey {column : Nat} {line : Line} (h : Inner column line) {indent : Nat}
    (hfound : stepsKey line.text = some indent) : column ≤ indent := by
  obtain ⟨hindent, hshown⟩ := stepsKey_some hfound
  rw [hindent]
  refine h.2.resolve_left ?_
  rw [hshown]
  exact Bool.false_ne_true

/-- What follows ends whatever is deeper than the column: its first line that is neither blank nor a
comment is not deeper, and neither is its first line at all. -/
structure Halts (column : Nat) (follow : List Line) : Prop where
  shown : ∀ line ∈ follow.find? fun line => !ignorable line.text, indentOf line.text ≤ column
  raw : ∀ line ∈ follow.head?, strip (rstripNewlines line.raw) ≠ [] ∧
    indentOf (rstripNewlines line.raw) ≤ column

theorem Halts.mono {column deeper : Nat} {follow : List Line} (h : Halts column follow)
    (hle : column ≤ deeper) : Halts deeper follow :=
  ⟨fun line hline => (h.shown line hline).trans hle,
    fun line hline => ⟨(h.raw line hline).1, (h.raw line hline).2.trans hle⟩⟩

theorem halts_nil (column : Nat) : Halts column [] where
  shown := nofun
  raw := nofun

/-! ## The loops over the lines of a step -/

theorem readFields_skip {fieldIndent : Nat} {lines : List Line}
    (h : ∀ line ∈ lines, ∀ found, mappingKey line.text = some found → found.1 ≠ fieldIndent)
    (rest : List Line) (found : Dict (Str × List Line)) :
    readFields fieldIndent (lines ++ rest) found = readFields fieldIndent rest found := by
  induction lines with
  | nil => rfl
  | cons line lines ih =>
    obtain ⟨hline, hlines⟩ := List.forall_mem_cons.mp h
    rw [List.cons_append, readFields]
    split
    · rename_i indent key value hkey
      rw [if_neg (hline _ hkey), ih hlines]
    · exact ih hlines

theorem assign_new {α : Type} {found : Dict α} {key : Str} (h : key ∉ found.keys) (value : α) :
    assign found key value = found ++ [(key, value)] := by
  unfold assign
  rw [if_neg (by rwa [Dict.has_iff])]

theorem readFields_entry {fieldIndent : Nat} {line : Line} {key value : Str}
    (h : mappingKey line.text = some (fieldIndent, key, value)) {found : Dict (Str × List Line)}
    (hnew : key ∉ found.keys) (rest : List Line) :
    readFields fieldIndent (line :: rest) found =
      readFields fieldIndent rest (found ++ [(key, yamlScalar value, rest)]) := by
  rw [readFields, h]
  dsimp only
  rw [if_pos rfl, assign_new hnew]

theorem readWith_skip {fieldIndent : Nat} {nested : Option Nat} {lines : List Line}
    (h : ∀ line ∈ lines, ignorable line.text = true) (rest : List Line) (found : Dict Str) :
    readWith fieldIndent nested (lines ++ rest) found = readWith fieldIndent nested rest found := by
  induction lines with
  | nil => rfl
  | cons line lines ih =>
    obtain ⟨hline, hlines⟩ := List.forall_mem_cons.mp h
    rw [List.cons_append, readWith, if_pos hline, ih hlines]

theorem readWith_halts {fieldIndent : Nat} {follow : List Line} (h : Halts fieldIndent follow)
    (nested : Option Nat) (found : Dict Str) : readWith fieldIndent nested follow found = found := by
  have hshown := h.shown
  clear h
  induction follow with
  | nil => rfl
  | cons line follow ih =>
    rw [readWith]
    cases hignorable : ignorable line.text with
    | true =>
      rw [if_pos rfl]
      refine ih fun next hnext => hshown next ?_
      rw [List.find?_cons_of_neg (by simp [hignorable])]
      exact hnext
    | false =>
      have hle : indentOf line.text ≤ fieldIndent := by
        apply hshown
        rw [List.find?_cons_of_pos (by simp [hignorable])]
        rfl
      rw [if_neg Bool.false_ne_true, if_pos hle]

/-- The body of a block scalar does not go on behind its end. -/
theorem takeWhile_halts {fieldIndent : Nat} {follow : List Line} (h : Halts fieldIndent follow) :
    follow.takeWhile (fun line => strip (rstripNewlines line.raw) = [] ||
      fieldIndent < indentOf (rstripNewlines line.raw)) = [] := by
  cases follow with
  | nil => rfl
  | cons line follow =>
    obtain ⟨hblank, hle⟩ := h.raw line rfl
    refine List.takeWhile_cons_of_neg ?_
    rw [decide_eq_false hblank, decide_eq_false (by omega)]
    exact Bool.false_ne_true

theorem bodyLines_append {fieldIndent : Nat} {lines : List Line}
    (h : ∀ line ∈ lines, strip (rstripNewlines line.raw) = [] ∨
      fieldIndent < indentOf (rstripNewlines line.raw)) {follow : List Line}
    (hfollow : Halts fieldIndent follow) :
    bodyLines fieldIndent (lines ++ follow) = lines.map (·.raw) := by
  unfold bodyLines
  rw [List.takeWhile_append_of_pos, takeWhile_halts hfollow, List.append_nil]
  intro line hline
  rw [Bool.or_eq_true, decide_eq_true_eq, decide_eq_true_eq]
  exact h line hline

/-! ## The loops over the lines below a key -/

theorem linesBelow_halts {column : Nat} {follow : List Line} (h : Halts column follow) :
    ∀ line ∈ linesBelow column follow, ignorable line.text = true := by
  have hshown := h.shown
  clear h
  unfold linesBelow
  induction follow with
  | nil => exact fun line hline => absurd hline List.not_mem_nil
  | cons line follow ih =>
    cases hignorable : ignorable line.text with
    | true =>
      rw [List.takeWhile_cons_of_pos (by simp [hignorable]), List.forall_mem_cons]
      refine ⟨hignorable, ih fun next hnext => hshown next ?_⟩
      rw [List.find?_cons_of_neg (by simp [hignorable])]
      exact hnext
    | false =>
      have hle : indentOf line.text ≤ column := by
        apply hshown
        rw [List.find?_cons_of_pos (by simp [hignorable])]
        rfl
      rw [List.takeWhile_cons_of_neg (by simp [hignorable, hle])]
      exact fun line hline => absurd hline List.not_mem_nil

/-- Below a key with no item there are no steps. -/
theorem Halts.below {column : Nat} {follow : List Line} (h : Halts column follow) :
    Halts column (linesBelow column follow) := by
  refine ⟨fun line hline => ?_, fun line hline => h.raw line ?_⟩
  · have hshown := List.find?_some hline
    rw [linesBelow_halts h line (List.mem_of_find?_eq_some hline)] at hshown
    cases hshown
  · cases follow with
    | nil => cases hline
    | cons first follow =>
      unfold linesBelow at hline
      rw [List.takeWhile_cons] at hline
      split at hline
      · exact hline
      · cases hline

theorem stepItems_inner {column : Nat} {lines follow : List Line}
    (hlines : ∀ line ∈ lines, dashIndent line = none) (hfollow : Halts column follow) :
    stepItems column (lines ++ follow) = [] := by
  have hnone : (linesBelow column (lines ++ follow)).findSome? dashIndent = none := by
    rw [List.findSome?_eq_none_iff]
    intro line hline
    unfold linesBelow at hline
    rw [List.takeWhile_append] at hline
    split at hline
    · rcases List.mem_append.mp hline with hline | hline
      · exact hlines line hline
      · exact if_pos (linesBelow_halts hfollow line hline)
    · exact hlines line (List.takeWhile_prefix _ |>.subset hline)
  unfold stepItems
  dsimp only
  rw [hnone]

theorem stepsOf_skip {line : Line} (h : stepsKey line.text = none) (rest : List Line) :
    stepsOf (line :: rest) = stepsOf rest := by
  rw [stepsOf, h]
  cases stepsOf rest <;> rfl

/-- No step is found at the lines inside of an item. -/
theorem stepsOf_inner {column : Nat} {lines follow : List Line} (hlines : ∀ line ∈ lines, Inner column line)
    (hfollow : Halts column follow) : stepsOf (lines ++ follow) = stepsOf follow := by
  induction lines with
  | nil => rfl
  | cons line lines ih =>
    obtain ⟨hline, hlines⟩ := List.forall_mem_cons.mp hlines
    rw [List.cons_append]
    cases hkey : stepsKey line.text with
    | none => rw [stepsOf_skip hkey, ih hlines]
    | some indent =>
      have hitems := stepItems_inner (fun next hnext => (hlines next hnext).1)
        (hfollow.mono (hline.stepsKey hkey))
      rw [stepsOf, hkey]
      dsimp only
      rw [hitems, ih hlines]
      cases stepsOf follow <;> rfl

theorem splitItems_skip {starts : Line → Bool} {lines : List Line} (h : ∀ line ∈ lines, starts line = false)
    (rest : List Line) : splitItems starts (lines ++ rest) = splitItems starts rest := by
  induction lines with
  | nil => rfl
  | cons line lines ih =>
    obtain ⟨hline, hlines⟩ := List.forall_mem_cons.mp h
    rw [List.cons_append, splitItems, hline, if_neg Bool.false_ne_true, ih hlines]

/-- An item goes from its dash to the next one. -/
theorem splitItems_item {starts : Line → Bool} {first : Line} (hfirst : starts first = true)
    {lines : List Line} (h : ∀ line ∈ lines, starts line = false) (rest : List Line) :
    splitItems starts (first :: (lines ++ rest)) =
      (first :: (lines ++ rest.takeWhile fun next => !starts next)) :: splitItems starts rest := by
  have hinner : ∀ line ∈ lines, (!starts line) = true := fun line hline => by rw [h line hline]; rfl
  rw [splitItems, if_pos hfirst, List.takeWhile_append_of_pos hinner, splitItems_skip h]

end FastGate.CheckRepository
