/-
# FastGate.CheckRepository.Learning — stories and their lessons

`check_learning_metadata` of `scripts/check_repository.py`.  It indexes two directories by the unit in
the file names and compares the documents of each unit.  `isDigit` is the `\d` of the patterns, which
in a Python string is every decimal digit of Unicode.

* `checkLearningMetadata_iff` says which directories it accepts (`Coherent`): no two files of one unit,
  the same units on both sides, and for every unit a story and a lesson that match (`Matched`).
* A document that is no UTF-8 is passed over here, since `check_text_hygiene` reports it: nothing is asked
  of its unit (`Acceptable`), and the lesson is not even opened when the story is no text.
* The teach-back questions are read from what `section_body` returns, so a deeper heading of that name
  counts as one (`Sections`).
* `checkLearningMetadata_perm`: it does not matter in which order the directories are listed.

Dictionaries keep their entries in the order of insertion; `metadataFiles_index` says what the index of
a directory is without going through the loop.
-/
import FastGate.CheckRepository.Files
import FastGate.CheckRepository.Sections
import FastGate.Python.Sorted

open FastGate.Python
open FastGate.Utf8 (Bytes decodeText?)

namespace FastGate.CheckRepository

/-! ## The check -/

/-- A file of a directory, with its content unless it cannot be read. -/
structure Document where
  name : Str
  content : Option Bytes
  deriving DecidableEq

/-- `STORY_FILENAME` and `LESSON_FILENAME`, with the group they capture in upper case. -/
def unitOf (isDigit : Nat → Bool) (name : Str) : Option Str :=
  let number := (name.drop 5).take 3
  let tail := name.drop 9
  if str "icgt-" <+: name ∧ number.length = 3 ∧ number.all isDigit ∧ name[8]? = some 0x2D ∧
      str ".md" <:+ tail ∧ 3 < tail.length ∧ lineFeed ∉ tail then
    some (str "ICGT-" ++ number)
  else none

/-- The error for a unit that has been indexed. -/
def duplicateUnit (directory : Path) (kind unit first second : Str) : Str :=
  str "duplicate " ++ kind ++ str " ID: " ++ unit ++ str ": " ++ Path.relative (directory ++ [first]) ++
    str ", " ++ Path.relative (directory ++ [second])

/-- One file of the loop of `metadata_files`. -/
def indexFile (isDigit : Nat → Bool) (directory : Path) (kind : Str)
    (found : List Str × Dict Document) (document : Document) : List Str × Dict Document :=
  match unitOf isDigit document.name with
  | none => found
  | some unit =>
    match Dict.get? found.2 unit with
    | some first => (found.1 ++ [duplicateUnit directory kind unit first.name document.name], found.2)
    | none => (found.1, found.2 ++ [(unit, document)])

/-- `metadata_files`: the errors and the index of a directory.  The names that `glob` leaves out have no
unit. -/
def metadataFiles (isDigit : Nat → Bool) (directory : Path) (kind : Str) (documents : List Document) :
    List Str × Dict Document :=
  (sortedBy (·.name) documents).foldl (indexFile isDigit directory kind) ([], [])

/-- `path.read_text(encoding="utf-8")`, of content that has been read; none if it is no UTF-8. -/
def readText (raw : Bytes) : Option Str := (decodeText? raw).map fun text => universalNewlines (text.map Char.toNat)

/-- The group of `^{label}(.+)$`, in the first line of the text that it matches. -/
def fieldOf (label text : Str) : Option Str :=
  (text.splitOn lineFeed).findSome? fun line =>
    if label <+: line ∧ line ≠ label then some (line.drop label.length) else none

/-- The group of `LESSON_UNIT`. -/
def lessonUnit (isDigit : Nat → Bool) (text : Str) : Option Str :=
  let label := str "- **Unit:** "
  (text.splitOn lineFeed).findSome? fun line =>
    let number := line.drop (label.length + 5)
    if label ++ str "ICGT-" <+: line ∧ number.length = 3 ∧ number.all isDigit then
      some (line.drop label.length)
    else none

/-- `EXPECTED_LESSON_STATUS.get(status)` -/
def expectedLessonStatus (status : Str) : Option Str :=
  Dict.get? [(str "Planned", str "Planned"), (str "In progress", str "Implementation companion"),
    (str "Blocked", str "Implementation companion - blocked"),
    (str "Done", str "Verified against implementation")] status

/-- The number that a line begins with, before a full stop and a space. -/
def questionNumber (isDigit : Nat → Bool) : Str → Option Str
  | [] => none
  | c :: cs =>
    if (0x31 ≤ c ∧ c ≤ 0x39) ∧ str ". " <+: cs.dropWhile isDigit then some (c :: cs.takeWhile isDigit) else none

/-- `re.findall(r"^([1-9]\d*)\. ", text, re.MULTILINE)` -/
def questionNumbers (isDigit : Nat → Bool) (text : Str) : List Str :=
  (text.splitOn lineFeed).filterMap (questionNumber isDigit)

/-- What a story must contain for its review. -/
def storyLabels : List Str :=
  [str "- **Lesson:**", str "- **Review priority:**", str "## Human review checkpoint",
    str "- **Production path:**", str "- **Failure/test path:**", str "- **Invariant:**", str "- **Deferred:**"]

/-- What a lesson must contain for its review. -/
def lessonLabels : List Str :=
  [str "- **Story:**", str "- **Review priority:**", str "## Personal code review map",
    str "## Teach-back questions"]

/-- What a status line of a story begins with. -/
def storyStatusLabel : Str := str "- **Status:** "

/-- What a status line of a lesson begins with. -/
def lessonStatusLabel : Str := str "- **Lesson status:** "

/-- The heading below which a lesson has its questions. -/
def teachBack : Str := str "Teach-back questions"

/-- What is reported of the statuses of a story and its lesson. -/
def statusErrors (unit storyRelative lessonRelative : Str) (storyStatus lessonStatus : Option Str) : List Str :=
  (if storyStatus = none then [str "story status missing: " ++ storyRelative] else []) ++
  (if lessonStatus = none then [str "lesson status missing: " ++ lessonRelative] else []) ++
  match storyStatus, lessonStatus with
  | some storyStatus, some lessonStatus =>
    match expectedLessonStatus storyStatus with
    | none => [str "unsupported story status: " ++ storyRelative ++ str ": " ++ storyStatus]
    | some expected =>
      if lessonStatus ≠ expected then
        [str "story/lesson status mismatch: " ++ unit ++ str ": " ++ storyStatus ++ str " requires " ++ expected]
      else []
  | _, _ => []

/-- One report for each label that does not occur in the text. -/
def missingLabels (kind relative text : Str) (labels : List Str) : List Str :=
  (labels.filter fun label => ¬ label <:+: text).map fun label =>
    kind ++ str " review metadata missing: " ++ relative ++ str ": " ++ label

/-- What is reported of a story and its lesson. -/
def unitErrors (isDigit : Nat → Bool) (unit storyRelative lessonRelative storyText lessonText : Str) : List Str :=
  statusErrors unit storyRelative lessonRelative (fieldOf storyStatusLabel storyText)
    (fieldOf lessonStatusLabel lessonText) ++
  (if lessonUnit isDigit lessonText ≠ some unit then
    [str "lesson unit metadata mismatch: " ++ lessonRelative ++ str ": expected " ++ unit] else []) ++
  missingLabels (str "story") storyRelative storyText storyLabels ++
  missingLabels (str "lesson") lessonRelative lessonText lessonLabels ++
  if questionNumbers isDigit (sectionBody lessonText teachBack) ≠ [str "1", str "2", str "3"] then
    [str "lesson must contain exactly three teach-back questions: " ++ lessonRelative] else []

/-- `ROOT / "user-stories"` -/
def storiesPath : Path := [str "user-stories"]

/-- `ROOT / "docs" / "lessons"` -/
def lessonsPath : Path := [str "docs", str "lessons"]

/-- The documents of one unit, unless one that is read cannot be.  The lesson is not read below a story
that is no UTF-8. -/
def checkUnit (isDigit : Nat → Bool) (unit : Str) (story lesson : Document) : Option (List Str) :=
  match story.content with
  | none => none
  | some storyRaw =>
    match readText storyRaw with
    | none => some []
    | some storyText =>
      match lesson.content with
      | none => none
      | some lessonRaw =>
        match readText lessonRaw with
        | none => some []
        | some lessonText =>
          some (unitErrors isDigit unit (Path.relative (storiesPath ++ [story.name]))
            (Path.relative (lessonsPath ++ [lesson.name])) storyText lessonText)

/-- The entries of an index whose units another index does not have. -/
def unmatched (index other : Dict Document) : Dict Document :=
  (Dict.sorted index).filter fun entry => !Dict.has other entry.1

/-- The stories and lessons of the units that both indexes have. -/
def paired (stories lessons : Dict Document) : List (Str × Document × Document) :=
  (Dict.sorted stories).filterMap fun entry =>
    (Dict.get? lessons entry.1).map fun lesson => (entry.1, entry.2, lesson)

/-- `check_learning_metadata`: the errors, unless a document cannot be read. -/
def checkLearningMetadata (isDigit : Nat → Bool) (storyDocuments lessonDocuments : List Document) :
    Option (List Str) :=
  let stories := metadataFiles isDigit storiesPath (str "story") storyDocuments
  let lessons := metadataFiles isDigit lessonsPath (str "lesson") lessonDocuments
  ((paired stories.2 lessons.2).mapM fun (unit, story, lesson) => checkUnit isDigit unit story lesson).map
    fun errors => stories.1 ++ lessons.1 ++
      (unmatched stories.2 lessons.2).keys.map (str "story has no matching lesson: " ++ ·) ++
      (unmatched lessons.2 stories.2).keys.map (str "lesson has no matching story: " ++ ·) ++
      List.flatten errors

/-! ## What a document says -/

/-- The first line of the text that says something of a kind says this. -/
def FirstLine (R : Str → Str → Prop) (text value : Str) : Prop :=
  ∃ above line below, text.splitOn lineFeed = above ++ line :: below ∧ R line value ∧
    ∀ other ∈ above, ∀ value, ¬ R other value

theorem findSome?_line {R : Str → Str → Prop} {f : Str → Option Str}
    (hf : ∀ line value, f line = some value ↔ R line value) {text value : Str} :
    (text.splitOn lineFeed).findSome? f = some value ↔ FirstLine R text value := by
  unfold FirstLine
  rw [List.findSome?_eq_some_iff]
  refine exists_congr fun above => exists_congr fun line => exists_congr fun below =>
    and_congr_right fun _ => and_congr (hf line value) (forall₂_congr fun other _ => ?_)
  rw [Option.eq_none_iff_forall_ne_some]
  exact forall_congr' fun value => not_congr (hf other value)

/-- The line goes on behind the label. -/
def Field (label line value : Str) : Prop := value ≠ [] ∧ line = label ++ value

theorem fieldOf_eq_some {label text value : Str} :
    fieldOf label text = some value ↔ FirstLine (Field label) text value := by
  refine findSome?_line fun line value => ⟨fun h => ?_, ?_⟩
  · split at h
    · rename_i hline
      obtain ⟨⟨other, rfl⟩, hne⟩ := hline
      rw [List.drop_left, Option.some_inj] at h
      subst h
      exact ⟨fun hnil => hne (by rw [hnil, List.append_nil]), rfl⟩
    · cases h
  · rintro ⟨hne, rfl⟩
    rw [if_pos ⟨List.prefix_append _ _, fun heq => hne (List.append_right_eq_self.mp heq)⟩, List.drop_left]

section Digits

variable (isDigit : Nat → Bool)

/-- Three digits behind the prefix of the units. -/
def IsUnit (unit : Str) : Prop :=
  ∃ number : Str, unit = str "ICGT-" ++ number ∧ number.length = 3 ∧ ∀ d ∈ number, isDigit d = true

/-- The line gives a unit. -/
def UnitLine (line unit : Str) : Prop := line = str "- **Unit:** " ++ unit ∧ IsUnit isDigit unit

theorem lessonUnit_eq_some {text unit : Str} :
    lessonUnit isDigit text = some unit ↔ FirstLine (UnitLine isDigit) text unit := by
  have hnumber : ∀ number : Str, (str "- **Unit:** " ++ str "ICGT-" ++ number).drop
      ((str "- **Unit:** ").length + 5) = number := fun number => List.drop_left' rfl
  refine findSome?_line fun line unit => ?_
  dsimp only
  rw [Option.ite_none_right_eq_some, Option.some_inj]
  constructor
  · rintro ⟨⟨⟨number, rfl⟩, hlength, hdigits⟩, rfl⟩
    rw [hnumber] at hlength hdigits
    rw [List.append_assoc, List.drop_left]
    exact ⟨rfl, number, rfl, hlength, List.all_eq_true.mp hdigits⟩
  · rintro ⟨rfl, number, rfl, hlength, hdigits⟩
    rw [← List.append_assoc, hnumber, List.append_assoc, List.drop_left, ← List.append_assoc]
    exact ⟨⟨List.prefix_append _ _, hlength, List.all_eq_true.mpr hdigits⟩, rfl⟩

/-- The line begins with a number and a full stop. -/
def Numbered (line number : Str) : Prop :=
  ∃ (c : Nat) (digits rest : Str), number = c :: digits ∧ line = number ++ (str ". " ++ rest) ∧
    (0x31 ≤ c ∧ c ≤ 0x39) ∧ ∀ d ∈ digits, isDigit d = true

variable {isDigit}

/-- The digits of a number end at the full stop. -/
theorem questionNumber_eq_some (hstop : isDigit 0x2E = false) {line number : Str} :
    questionNumber isDigit line = some number ↔ Numbered isDigit line number := by
  cases line with
  | nil =>
    refine iff_of_false nofun ?_
    rintro ⟨c, digits, rest, rfl, hline, -⟩
    cases hline
  | cons c cs =>
    unfold questionNumber
    rw [Option.ite_none_right_eq_some, Option.some_inj]
    constructor
    · rintro ⟨⟨hfirst, rest, hrest⟩, rfl⟩
      refine ⟨c, cs.takeWhile isDigit, rest, rfl, ?_, hfirst, fun d hd => List.mem_takeWhile_imp hd⟩
      rw [hrest, List.cons_append, List.takeWhile_append_dropWhile]
    · rintro ⟨c', digits, rest, rfl, hline, hfirst, hdigits⟩
      obtain ⟨rfl, rfl⟩ := List.cons.inj hline
      have hend : ¬ isDigit 0x2E = true := by
        rw [hstop]
        exact Bool.false_ne_true
      have htake : (digits ++ (str ". " ++ rest)).takeWhile isDigit = digits := by
        have hnone : (str ". " ++ rest).takeWhile isDigit = [] := List.takeWhile_cons_of_neg hend
        rw [List.takeWhile_append_of_pos hdigits, hnone, List.append_nil]
      have hdrop : (digits ++ (str ". " ++ rest)).dropWhile isDigit = str ". " ++ rest := by
        rw [List.dropWhile_append_of_pos hdigits]
        exact List.dropWhile_cons_of_neg hend
      have hprefix : str ". " <+: (digits ++ (str ". " ++ rest)).dropWhile isDigit := by
        rw [hdrop]
        exact List.prefix_append _ _
      exact ⟨⟨hfirst, hprefix⟩, congrArg (c :: ·) htake⟩

/-! ## Documents that belong together -/

variable (isDigit)

/-- Three lines are numbered, from one to three. -/
def ThreeQuestions (body : Str) : Prop :=
  ∃ a first b second c third d,
    body.splitOn lineFeed = a ++ first :: (b ++ second :: (c ++ third :: d)) ∧
    str "1. " <+: first ∧ str "2. " <+: second ∧ str "3. " <+: third ∧
    ∀ line ∈ a ++ b ++ c ++ d, ∀ number, ¬ Numbered isDigit line number

/-- A story and its lesson agree, and both have what a reviewer needs. -/
structure Matched (unit storyText lessonText : Str) : Prop where
  status : ∃ storyStatus lessonStatus, FirstLine (Field storyStatusLabel) storyText storyStatus ∧
    FirstLine (Field lessonStatusLabel) lessonText lessonStatus ∧
    expectedLessonStatus storyStatus = some lessonStatus
  unit : FirstLine (UnitLine isDigit) lessonText unit
  storyLabels : ∀ label ∈ storyLabels, label <:+: storyText
  lessonLabels : ∀ label ∈ lessonLabels, label <:+: lessonText
  questions : ThreeQuestions isDigit (sectionBody lessonText teachBack)

variable {isDigit}

theorem numbered_digit (hstop : isDigit 0x2E = false) {line number : Str} {digit : Nat} (hnumber : number = [digit])
    (hdigit : 0x31 ≤ digit ∧ digit ≤ 0x39) :
    questionNumber isDigit line = some number ↔ digit :: str ". " <+: line := by
  subst hnumber
  rw [questionNumber_eq_some hstop]
  constructor
  · rintro ⟨c, digits, rest, hdigits, rfl, -, -⟩
    exact ⟨rest, rfl⟩
  · rintro ⟨rest, rfl⟩
    exact ⟨digit, [], rest, rfl, rfl, hdigit, fun d hd => absurd hd List.not_mem_nil⟩

theorem questionNumbers_iff (hstop : isDigit 0x2E = false) (body : Str) :
    questionNumbers isDigit body = [str "1", str "2", str "3"] ↔ ThreeQuestions isDigit body := by
  have hone : ∀ line, questionNumber isDigit line = some (str "1") ↔ str "1. " <+: line := fun line =>
    numbered_digit hstop rfl (by decide)
  have htwo : ∀ line, questionNumber isDigit line = some (str "2") ↔ str "2. " <+: line := fun line =>
    numbered_digit hstop rfl (by decide)
  have hthree : ∀ line, questionNumber isDigit line = some (str "3") ↔ str "3. " <+: line := fun line =>
    numbered_digit hstop rfl (by decide)
  have hnone : ∀ line, questionNumber isDigit line = none ↔ ∀ number, ¬ Numbered isDigit line number := by
    intro line
    rw [Option.eq_none_iff_forall_ne_some]
    exact forall_congr' fun number => not_congr (questionNumber_eq_some hstop)
  unfold questionNumbers ThreeQuestions
  constructor
  · intro h
    obtain ⟨a, first, rest, hlines, ha, hfirst, h⟩ := List.filterMap_eq_cons_iff.mp h
    obtain ⟨b, second, rest, rfl, hb, hsecond, h⟩ := List.filterMap_eq_cons_iff.mp h
    obtain ⟨c, third, d, rfl, hc, hthird, h⟩ := List.filterMap_eq_cons_iff.mp h
    refine ⟨a, first, b, second, c, third, d, hlines, (hone first).mp hfirst, (htwo second).mp hsecond,
      (hthree third).mp hthird, fun line hline => (hnone line).mp ?_⟩
    rw [List.mem_append, List.mem_append, List.mem_append] at hline
    rcases hline with ((hline | hline) | hline) | hline
    · exact ha line hline
    · exact hb line hline
    · exact hc line hline
    · exact List.filterMap_eq_nil_iff.mp h line hline
  · rintro ⟨a, first, b, second, c, third, d, hlines, hfirst, hsecond, hthird, hothers⟩
    rw [hlines]
    have hquiet : ∀ lines : List Str, (∀ line ∈ lines, line ∈ a ++ b ++ c ++ d) →
        lines.filterMap (questionNumber isDigit) = [] := fun lines hsub =>
      List.filterMap_eq_nil_iff.mpr fun line hline => (hnone line).mpr (hothers line (hsub line hline))
    rw [List.filterMap_append, List.filterMap_cons_some ((hone first).mpr hfirst), List.filterMap_append,
      List.filterMap_cons_some ((htwo second).mpr hsecond), List.filterMap_append,
      List.filterMap_cons_some ((hthree third).mpr hthird), hquiet a fun line h => by simp [h],
      hquiet b fun line h => by simp [h], hquiet c fun line h => by simp [h], hquiet d fun line h => by simp [h]]
    rfl

/-- Nothing is reported of the statuses exactly when the lesson has the one that the story requires. -/
theorem statusErrors_eq_nil {unit storyRelative lessonRelative : Str} {storyStatus lessonStatus : Option Str} :
    statusErrors unit storyRelative lessonRelative storyStatus lessonStatus = [] ↔
      ∃ status expected, storyStatus = some status ∧ lessonStatus = some expected ∧
        expectedLessonStatus status = some expected := by
  unfold statusErrors
  cases storyStatus with
  | none => exact iff_of_false (by simp) (by simp)
  | some status =>
    cases lessonStatus with
    | none => exact iff_of_false (by simp) (by simp)
    | some found =>
      rw [if_neg (Option.some_ne_none _), if_neg (Option.some_ne_none _)]
      dsimp only
      cases hexpected : expectedLessonStatus status with
      | none => exact iff_of_false (by simp) (by simp [hexpected])
      | some expected =>
        dsimp only
        split
        · rename_i hne
          exact iff_of_false (by simp) (by simp [hexpected, Ne.symm hne])
        · rename_i heq
          rw [ne_eq, not_not] at heq
          exact iff_of_true rfl ⟨status, found, rfl, rfl, by rw [hexpected, heq]⟩

theorem missingLabels_eq_nil {kind relative text : Str} {labels : List Str} :
    missingLabels kind relative text labels = [] ↔ ∀ label ∈ labels, label <:+: text := by
  unfold missingLabels
  rw [List.map_eq_nil_iff, List.filter_eq_nil_iff]
  simp

/-- Nothing is reported of a story and a lesson that belong together, and of no others. -/
theorem unitErrors_eq_nil (hstop : isDigit 0x2E = false) {unit storyRelative lessonRelative storyText lessonText : Str} :
    unitErrors isDigit unit storyRelative lessonRelative storyText lessonText = [] ↔
      Matched isDigit unit storyText lessonText := by
  unfold unitErrors
  rw [List.append_eq_nil_iff, List.append_eq_nil_iff, List.append_eq_nil_iff, List.append_eq_nil_iff,
    statusErrors_eq_nil, missingLabels_eq_nil, missingLabels_eq_nil, ite_message_eq_nil, ite_message_eq_nil,
    not_not, not_not,
    lessonUnit_eq_some, questionNumbers_iff hstop]
  constructor
  · rintro ⟨⟨⟨⟨⟨status, expected, hstory, hlesson, hexpected⟩, hunit⟩, hstoryLabels⟩, hlessonLabels⟩, hquestions⟩
    exact ⟨⟨status, expected, fieldOf_eq_some.mp hstory, fieldOf_eq_some.mp hlesson, hexpected⟩, hunit,
      hstoryLabels, hlessonLabels, hquestions⟩
  · rintro ⟨⟨status, expected, hstory, hlesson, hexpected⟩, hunit, hstoryLabels, hlessonLabels, hquestions⟩
    exact ⟨⟨⟨⟨⟨status, expected, fieldOf_eq_some.mpr hstory, fieldOf_eq_some.mpr hlesson, hexpected⟩, hunit⟩,
      hstoryLabels⟩, hlessonLabels⟩, hquestions⟩

/-! ## The index of a directory -/

variable (isDigit)

/-- The files of a directory that have a unit, by their units. -/
def entries (documents : List Document) : Dict Document :=
  documents.filterMap fun document => (unitOf isDigit document.name).map fun unit => (unit, document)

variable {isDigit}

theorem mem_entries {documents : List Document} {unit : Str} {document : Document} :
    (unit, document) ∈ entries isDigit documents ↔
      document ∈ documents ∧ unitOf isDigit document.name = some unit := by
  unfold entries
  rw [List.mem_filterMap]
  constructor
  · rintro ⟨other, hother, h⟩
    obtain ⟨unit', hunit, heq⟩ := Option.map_eq_some_iff.mp h
    obtain ⟨rfl, rfl⟩ := Prod.mk.inj heq
    exact ⟨hother, hunit⟩
  · rintro ⟨hdocument, hunit⟩
    exact ⟨document, hdocument, by rw [hunit, Option.map_some]⟩

theorem entries_cons_none {document : Document} (h : unitOf isDigit document.name = none) (documents : List Document) :
    entries isDigit (document :: documents) = entries isDigit documents := by
  simp only [entries, List.filterMap_cons, h, Option.map_none]

theorem entries_cons_some {document : Document} {unit : Str} (h : unitOf isDigit document.name = some unit)
    (documents : List Document) :
    entries isDigit (document :: documents) = (unit, document) :: entries isDigit documents := by
  simp only [entries, List.filterMap_cons, h, Option.map_some]

/-- What the loop makes of one file: nothing if it has no unit, an entry if its unit is new, and an error
if it is not. -/
theorem indexFile_cases (directory : Path) (kind : Str) (found : List Str × Dict Document) (document : Document) :
    (unitOf isDigit document.name = none ∧ indexFile isDigit directory kind found document = found) ∨
      (∃ unit, unitOf isDigit document.name = some unit ∧ unit ∉ found.2.keys ∧
        indexFile isDigit directory kind found document = (found.1, found.2 ++ [(unit, document)])) ∨
      ∃ unit error, unitOf isDigit document.name = some unit ∧ unit ∈ found.2.keys ∧
        indexFile isDigit directory kind found document = (found.1 ++ [error], found.2) := by
  cases hunit : unitOf isDigit document.name with
  | none =>
    left
    exact ⟨rfl, by simp only [indexFile, hunit]⟩
  | some unit =>
    right
    cases hget : Dict.get? found.2 unit with
    | none =>
      left
      exact ⟨unit, rfl, Dict.get?_eq_none.mp hget, by simp only [indexFile, hunit, hget]⟩
    | some first =>
      right
      refine ⟨unit, duplicateUnit directory kind unit first.name document.name, rfl,
        List.mem_map_of_mem (Dict.mem_of_get? hget), ?_⟩
      simp only [indexFile, hunit, hget]

/-- What the loop makes of the files that are left: an error if a unit occurs twice, and else one entry
for each. -/
theorem foldl_indexFile (directory : Path) (kind : Str) (documents : List Document)
    (found : List Str × Dict Document) (hfound : found.2.keys.Nodup) :
    ((documents.foldl (indexFile isDigit directory kind) found).1 = [] ↔
      found.1 = [] ∧ (found.2 ++ entries isDigit documents).keys.Nodup) ∧
    ((found.2 ++ entries isDigit documents).keys.Nodup →
      (documents.foldl (indexFile isDigit directory kind) found).2 = found.2 ++ entries isDigit documents) := by
  induction documents generalizing found with
  | nil =>
    have hnil : found.2 ++ entries isDigit [] = found.2 := List.append_nil _
    rw [hnil]
    exact ⟨(and_iff_left hfound).symm, fun _ => rfl⟩
  | cons document documents ih =>
    rw [List.foldl_cons]
    rcases indexFile_cases directory kind found document with
      ⟨hunit, hindex⟩ | ⟨unit, hunit, hnew, hindex⟩ | ⟨unit, error, hunit, hold, hindex⟩
    · rw [entries_cons_none hunit, hindex]
      exact ih found hfound
    · have hkeys : Dict.keys (found.2 ++ [(unit, document)]) = found.2.keys ++ [unit] := List.map_append
      have hnext : (Dict.keys (found.2 ++ [(unit, document)])).Nodup := by
        rw [hkeys, ← List.concat_eq_append]
        exact List.Nodup.concat hnew hfound
      rw [entries_cons_some hunit, hindex, List.append_cons _ _ (entries isDigit documents)]
      exact ih _ hnext
    -- the error stays, and the unit is there twice
    · have htwice : ¬ (found.2 ++ entries isDigit (document :: documents)).keys.Nodup := by
        intro hnodup
        rw [entries_cons_some hunit, Dict.keys, List.map_append] at hnodup
        exact List.disjoint_of_nodup_append hnodup hold List.mem_cons_self
      rw [hindex]
      refine ⟨iff_of_false (fun h => ?_) fun h => htwice h.2, fun h => absurd h htwice⟩
      have hnil := ((ih (found.1 ++ [error], found.2) hfound).1.mp h).1
      exact List.append_ne_nil_of_right_ne_nil _ (List.cons_ne_nil _ _) hnil

/-- The order in which the files are taken does not change what is indexed. -/
theorem keys_entries_sortedBy (isDigit : Nat → Bool) (documents : List Document) :
    (entries isDigit (sortedBy (·.name) documents)).keys.Nodup ↔ (entries isDigit documents).keys.Nodup :=
  (((sortedBy_perm _ documents).filterMap _).map _).nodup_iff

/-- A directory is indexed without an error exactly when no two files have the same unit. -/
theorem metadataFiles_errors {directory : Path} {kind : Str} {documents : List Document} :
    (metadataFiles isDigit directory kind documents).1 = [] ↔ (entries isDigit documents).keys.Nodup := by
  rw [← keys_entries_sortedBy]
  exact (foldl_indexFile directory kind _ ([], []) List.nodup_nil).1.trans (and_iff_right rfl)

/-- The index of a directory of different units has its files by their units. -/
theorem metadataFiles_index (directory : Path) (kind : Str) {documents : List Document}
    (hunique : (entries isDigit documents).keys.Nodup) :
    (metadataFiles isDigit directory kind documents).2.keys.Nodup ∧
    (∀ unit, unit ∈ (metadataFiles isDigit directory kind documents).2.keys ↔
      unit ∈ (entries isDigit documents).keys) ∧
    ∀ unit document, (unit, document) ∈ (metadataFiles isDigit directory kind documents).2 ↔
      document ∈ documents ∧ unitOf isDigit document.name = some unit := by
  have hindex : (metadataFiles isDigit directory kind documents).2 = entries isDigit (sortedBy (·.name) documents) :=
    (foldl_indexFile directory kind _ ([], []) List.nodup_nil).2 ((keys_entries_sortedBy isDigit documents).mpr hunique)
  have hperm : (entries isDigit (sortedBy (·.name) documents)).Perm (entries isDigit documents) :=
    (sortedBy_perm _ documents).filterMap _
  rw [hindex]
  refine ⟨(hperm.map _).nodup_iff.mpr hunique, fun unit => (hperm.map _).mem_iff, fun unit document => ?_⟩
  exact hperm.mem_iff.trans mem_entries

/-! ## What the check accepts -/

variable (isDigit)

/-- The story can be read, the lesson can if the story is text, and the two match if both are. -/
def Acceptable (unit : Str) (story lesson : Document) : Prop :=
  ∃ storyRaw, story.content = some storyRaw ∧ ∀ storyText, readText storyRaw = some storyText →
    ∃ lessonRaw, lesson.content = some lessonRaw ∧ ∀ lessonText, readText lessonRaw = some lessonText →
      Matched isDigit unit storyText lessonText

/-- Every unit of one directory has one file in each, and the two belong together. -/
structure Coherent (stories lessons : List Document) : Prop where
  uniqueStories : (entries isDigit stories).keys.Nodup
  uniqueLessons : (entries isDigit lessons).keys.Nodup
  sameUnits : ∀ unit, unit ∈ (entries isDigit stories).keys ↔ unit ∈ (entries isDigit lessons).keys
  matched : ∀ story ∈ stories, ∀ lesson ∈ lessons, ∀ unit, unitOf isDigit story.name = some unit →
    unitOf isDigit lesson.name = some unit → Acceptable isDigit unit story lesson

variable {isDigit}

theorem checkUnit_eq_nil (hstop : isDigit 0x2E = false) {unit : Str} {story lesson : Document} :
    checkUnit isDigit unit story lesson = some [] ↔ Acceptable isDigit unit story lesson := by
  unfold checkUnit Acceptable
  cases story.content with
  | none => exact iff_of_false nofun fun ⟨_, h, _⟩ => nomatch h
  | some storyRaw =>
    simp only [Option.some.injEq, exists_eq_left']
    cases readText storyRaw with
    | none => exact iff_of_true rfl nofun
    | some storyText =>
      simp only [Option.some.injEq, forall_eq']
      cases lesson.content with
      | none => exact iff_of_false nofun fun ⟨_, h, _⟩ => nomatch h
      | some lessonRaw =>
        simp only [Option.some.injEq, exists_eq_left']
        cases readText lessonRaw with
        | none => exact iff_of_true rfl nofun
        | some lessonText =>
          simp only [Option.some.injEq, forall_eq']
          exact unitErrors_eq_nil hstop

/-- Nothing is collected when every part yields nothing. -/
theorem mapM_flatten_eq_nil {α β : Type} {f : α → Option (List β)} {xs : List α} :
    (xs.mapM f).map List.flatten = some [] ↔ ∀ x ∈ xs, f x = some [] := by
  induction xs with
  | nil => exact iff_of_true rfl nofun
  | cons x xs ih =>
    rw [List.forall_mem_cons, ← ih, List.mapM_cons]
    cases f x with
    | none => exact iff_of_false nofun fun h => nomatch h.1
    | some ys =>
      cases xs.mapM f with
      | none => exact iff_of_false nofun fun h => nomatch h.2
      | some yss =>
        show some (ys ++ yss.flatten) = some [] ↔ some ys = some [] ∧ some yss.flatten = some []
        rw [Option.some_inj, Option.some_inj, Option.some_inj, List.append_eq_nil_iff]

theorem unmatched_eq_nil {index other : Dict Document} {report : Str → Str} :
    (unmatched index other).keys.map report = [] ↔ ∀ unit ∈ index.keys, unit ∈ other.keys := by
  unfold unmatched
  rw [List.map_eq_nil_iff, Dict.keys, List.map_eq_nil_iff, List.filter_eq_nil_iff]
  constructor
  · intro h unit hunit
    obtain ⟨entry, hentry, rfl⟩ := List.mem_map.mp hunit
    have hhas := h entry ((sortedBy_perm _ index).mem_iff.mpr hentry)
    rw [Bool.not_eq_true', Bool.not_eq_false] at hhas
    exact Dict.has_iff.mp hhas
  · intro h entry hentry
    have hkey : entry.1 ∈ index.keys := List.mem_map_of_mem ((sortedBy_perm _ index).mem_iff.mp hentry)
    rw [Bool.not_eq_true', Bool.not_eq_false]
    exact Dict.has_iff.mpr (h entry.1 hkey)

theorem mem_paired {stories lessons : Dict Document} {unit : Str} {story lesson : Document} :
    (unit, story, lesson) ∈ paired stories lessons ↔ (unit, story) ∈ stories ∧ lessons.get? unit = some lesson := by
  unfold paired
  rw [List.mem_filterMap]
  constructor
  · rintro ⟨⟨unit', story'⟩, hentry, h⟩
    obtain ⟨lesson', hlesson, heq⟩ := Option.map_eq_some_iff.mp h
    cases heq
    exact ⟨(sortedBy_perm _ stories).mem_iff.mp hentry, hlesson⟩
  · rintro ⟨hstory, hlesson⟩
    exact ⟨(unit, story), (sortedBy_perm _ stories).mem_iff.mpr hstory, by rw [hlesson, Option.map_some]⟩

theorem map_append_eq_nil {α : Type} {errors : Option (List (List α))} {ahead : List α} :
    (errors.map fun errors => ahead ++ errors.flatten) = some [] ↔
      ahead = [] ∧ errors.map List.flatten = some [] := by
  cases errors with
  | none => exact iff_of_false nofun fun h => nomatch h.2
  | some errors =>
    rw [Option.map_some, Option.map_some, Option.some_inj, Option.some_inj, List.append_eq_nil_iff]

/-- The check reads everything it needs and reports nothing exactly when stories and lessons cohere. -/
theorem checkLearningMetadata_iff (hstop : isDigit 0x2E = false) (stories lessons : List Document) :
    checkLearningMetadata isDigit stories lessons = some [] ↔ Coherent isDigit stories lessons := by
  unfold checkLearningMetadata
  dsimp only
  rw [map_append_eq_nil, mapM_flatten_eq_nil, List.append_eq_nil_iff, List.append_eq_nil_iff,
    List.append_eq_nil_iff, unmatched_eq_nil, unmatched_eq_nil, metadataFiles_errors, metadataFiles_errors]
  constructor
  · rintro ⟨⟨⟨⟨hstories, hlessons⟩, hthere⟩, hback⟩, hunits⟩
    obtain ⟨-, hstoryKeys, hstory⟩ := metadataFiles_index storiesPath (str "story") hstories
    obtain ⟨hnodup, hlessonKeys, hlesson⟩ := metadataFiles_index lessonsPath (str "lesson") hlessons
    refine ⟨hstories, hlessons, fun unit => ⟨fun h => ?_, fun h => ?_⟩, ?_⟩
    · exact (hlessonKeys unit).mp (hthere unit ((hstoryKeys unit).mpr h))
    · exact (hstoryKeys unit).mp (hback unit ((hlessonKeys unit).mpr h))
    · intro story hstoryMem lesson hlessonMem unit hstoryUnit hlessonUnit
      have hfirst := (hstory unit story).mpr ⟨hstoryMem, hstoryUnit⟩
      have hsecond := (hlesson unit lesson).mpr ⟨hlessonMem, hlessonUnit⟩
      have hpair := mem_paired.mpr ⟨hfirst, Dict.get?_of_mem hnodup hsecond⟩
      exact (checkUnit_eq_nil hstop).mp (hunits _ hpair)
  · rintro ⟨hstories, hlessons, hsame, hmatched⟩
    obtain ⟨-, hstoryKeys, hstory⟩ := metadataFiles_index storiesPath (str "story") hstories
    obtain ⟨-, hlessonKeys, hlesson⟩ := metadataFiles_index lessonsPath (str "lesson") hlessons
    refine ⟨⟨⟨⟨hstories, hlessons⟩, fun unit h => ?_⟩, fun unit h => ?_⟩, ?_⟩
    · exact (hlessonKeys unit).mpr ((hsame unit).mp ((hstoryKeys unit).mp h))
    · exact (hstoryKeys unit).mpr ((hsame unit).mpr ((hlessonKeys unit).mp h))
    · rintro ⟨unit, story, lesson⟩ hpair
      obtain ⟨hfirst, hsecond⟩ := mem_paired.mp hpair
      obtain ⟨hstoryMem, hstoryUnit⟩ := (hstory unit story).mp hfirst
      obtain ⟨hlessonMem, hlessonUnit⟩ := (hlesson unit lesson).mp (Dict.mem_of_get? hsecond)
      exact (checkUnit_eq_nil hstop).mpr (hmatched story hstoryMem lesson hlessonMem unit hstoryUnit hlessonUnit)

/-- A text as it is stored, if it is ASCII. -/
def storedText (text : String) : Option Bytes := some ((str text).map UInt8.ofNat)

/-- A story with all its labels. -/
def plannedStory : Document where
  name := str "icgt-001-x.md"
  content := storedText "- **Status:** Planned
- **Lesson:** - **Review priority:** ## Human review checkpoint
- **Production path:** - **Failure/test path:** - **Invariant:** - **Deferred:**
"

/-- Its lesson. -/
def plannedLesson : Document where
  name := str "icgt-001-y.md"
  content := storedText "- **Unit:** ICGT-001
- **Lesson status:** Planned
- **Story:** - **Review priority:** ## Personal code review map
## Teach-back questions
1. a
2. b
text
3. c
"

theorem checkLearningMetadata_iff_sample :
    Coherent (fun c => 0x30 ≤ c ∧ c ≤ 0x39) [plannedStory] [plannedLesson] ∧ ¬ Coherent (fun c => 0x30 ≤ c ∧ c ≤ 0x39) [plannedStory] [] :=
  ⟨(checkLearningMetadata_iff rfl _ _).mp (by decide +kernel),
    fun h => absurd ((checkLearningMetadata_iff rfl _ _).mpr h) (by decide +kernel)⟩

/-- The check does not depend on the order in which the files of a directory are listed. -/
theorem checkLearningMetadata_perm {stories stories' lessons lessons' : List Document}
    (hstories : (stories.map (·.name)).Nodup) (hlessons : (lessons.map (·.name)).Nodup)
    (hstoriesPerm : stories.Perm stories') (hlessonsPerm : lessons.Perm lessons') :
    checkLearningMetadata isDigit stories lessons = checkLearningMetadata isDigit stories' lessons' := by
  have hsorted : ∀ {documents documents' : List Document}, (documents.map (·.name)).Nodup →
      documents.Perm documents' → sortedBy (·.name) documents = sortedBy (·.name) documents' :=
    fun hnames hperm => (sortedBy_eq_iff fun a ha b hb => List.inj_on_of_nodup_map hnames ha hb).mpr hperm
  unfold checkLearningMetadata metadataFiles
  rw [hsorted hstories hstoriesPerm, hsorted hlessons hlessonsPerm]

end Digits

end FastGate.CheckRepository
