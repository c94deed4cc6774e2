/-
# FastGate.Python.Lines — lines with their ends, and indentation

`str.splitlines(keepends=True)`, the number of spaces a line begins with, and `textwrap.dedent`.
Indenting a text does not change what `dedent` makes of it (`dedent_indent`).
-/
import FastGate.Python.Text
import FastGate.Text.Lines

open FastGate.Lines

namespace FastGate.Python

/-! ## Lines that keep their ends -/

/-- `s.splitlines(keepends=True)` -/
def splitlinesKeepends : Str → List Str
  | [] => []
  | 0x0D :: 0x0A :: cs => [0x0D, 0x0A] :: splitlinesKeepends cs
  | c :: cs => if isLineBoundary c then [c] :: splitlinesKeepends cs else consLine c (splitlinesKeepends cs)

/-- `s.rstrip("\r\n")` -/
def rstripNewlines (s : Str) : Str := s.rdropWhile fun c => c = 0x0D ∨ c = lineFeed

/-- A text without an end of line in it. -/
def OneLine (s : Str) : Prop := ∀ c ∈ s, isLineBoundary c = false

instance (s : Str) : Decidable (OneLine s) := inferInstanceAs (Decidable (∀ c ∈ s, _))

/-- A line of a text, with the line feed that ends it. -/
def lineOf (s : Str) : Str := s ++ [lineFeed]

/-- The text of some lines. -/
def unlines (lines : List Str) : Str := lines.flatMap lineOf

theorem splitlinesKeepends_cons {c : Nat} {cs : Str} (h : c ≠ 0x0D) :
    splitlinesKeepends (c :: cs) =
      if isLineBoundary c then [c] :: splitlinesKeepends cs else consLine c (splitlinesKeepends cs) := by
  rw [splitlinesKeepends.eq_3]
  rintro more rfl rfl
  exact h rfl

/-- The first line is cut off at its line feed. -/
theorem splitlinesKeepends_lineOf {s : Str} (h : OneLine s) (rest : Str) :
    splitlinesKeepends (lineOf s ++ rest) = lineOf s :: splitlinesKeepends rest := by
  induction s with
  | nil => exact splitlinesKeepends_cons (by decide)
  | cons c cs ih =>
    obtain ⟨hc, hcs⟩ := List.forall_mem_cons.mp h
    have hreturn : c ≠ 0x0D := by
      rintro rfl
      cases hc
    show splitlinesKeepends (c :: (lineOf cs ++ rest)) = _
    rw [splitlinesKeepends_cons hreturn, if_neg (by simp [hc]), ih hcs]
    rfl

/-- The lines of a text are the ones it was made of. -/
theorem splitlinesKeepends_unlines {lines : List Str} (h : ∀ l ∈ lines, OneLine l) :
    splitlinesKeepends (unlines lines) = lines.map lineOf := by
  induction lines with
  | nil => rfl
  | cons l lines ih =>
    obtain ⟨hl, hlines⟩ := List.forall_mem_cons.mp h
    rw [unlines, List.flatMap_cons, splitlinesKeepends_lineOf hl, List.map_cons]
    exact congrArg _ (ih hlines)

theorem splitlines_unlines {lines : List Str} (h : ∀ l ∈ lines, OneLine l) : splitlines (unlines lines) = lines := by
  induction lines with
  | nil => rfl
  | cons line lines ih =>
    obtain ⟨hline, hlines⟩ := List.forall_mem_cons.mp h
    have hfeed : splitlines (lineFeed :: unlines lines) = [] :: lines := by
      rw [splitlines_cons (fun hpair => absurd hpair.1 (by decide)), if_pos (by decide), ih hlines]
    have htext : unlines (line :: lines) = line ++ lineFeed :: unlines lines := by simp [unlines, lineOf]
    rw [htext]
    by_cases hnil : line = []
    · rw [hnil]
      exact hfeed
    · rw [splitlines_append hline hnil, hfeed]
      dsimp only
      rw [List.append_nil]

/-- A text without carriage returns is read as it is. -/
theorem universalNewlines_eq_self {s : Str} (h : 0x0D ∉ s) : universalNewlines s = s := by
  induction s with
  | nil => rfl
  | cons c cs ih =>
    have hc : c ≠ 0x0D := fun heq => h (heq ▸ List.mem_cons_self)
    have hpair : ∀ more, c = 0x0D → cs = 0x0A :: more → False := fun _ heq _ => hc heq
    rw [universalNewlines.eq_3 c cs hpair, if_neg hc, ih fun hmem => h (List.mem_cons_of_mem _ hmem)]

theorem universalNewlines_unlines {lines : List Str} (h : ∀ l ∈ lines, OneLine l) :
    universalNewlines (unlines lines) = unlines lines := by
  apply universalNewlines_eq_self
  intro hmem
  obtain ⟨line, hline, hreturn⟩ := List.mem_flatMap.mp hmem
  rcases List.mem_append.mp hreturn with hinside | hend
  · exact absurd (h line hline _ hinside) (by decide)
  · exact absurd (List.mem_singleton.mp hend) (by decide)

theorem unlines_append (above below : List Str) : unlines (above ++ below) = unlines above ++ unlines below :=
  List.flatMap_append

theorem OneLine.append {s t : Str} (hs : OneLine s) (ht : OneLine t) : OneLine (s ++ t) := by
  intro c hc
  rcases List.mem_append.mp hc with h | h
  · exact hs c h
  · exact ht c h

theorem rstripNewlines_lineOf {s : Str} (h : OneLine s) : rstripNewlines (lineOf s) = s := by
  unfold rstripNewlines lineOf
  rw [List.rdropWhile_concat_pos _ _ _ (by simp)]
  refine List.rdropWhile_eq_self_iff.mpr fun hne => ?_
  have hlast := h _ (List.getLast_mem hne)
  rw [decide_eq_true_eq]
  rintro (heq | heq) <;> rw [heq] at hlast <;> cases hlast

/-- `s.lower()`, where it is compared to an ASCII text without a `k` or an `i`: only ASCII letters have
such lower-case forms. -/
def lower (s : Str) : Str := s.map fun c => if 0x41 ≤ c ∧ c ≤ 0x5A then c + 0x20 else c

/-! ## Indentation -/

/-- `len(s) - len(s.lstrip(" "))` -/
def indentOf (s : Str) : Nat := (s.takeWhile (· = 0x20)).length

/-- So many blanks. -/
def spaces (n : Nat) : Str := List.replicate n 0x20

theorem oneLine_spaces (n : Nat) : OneLine (spaces n) := by
  intro c hc
  rw [List.eq_of_mem_replicate hc]
  rfl

theorem takeWhile_spaces (n : Nat) (s : Str) :
    (spaces n ++ s).takeWhile (· = 0x20) = spaces n ++ s.takeWhile (· = 0x20) := by
  refine List.takeWhile_append_of_pos fun c hc => ?_
  rw [List.eq_of_mem_replicate hc]
  rfl

theorem indentOf_spaces (n : Nat) (s : Str) : indentOf (spaces n ++ s) = n + indentOf s := by
  unfold indentOf
  rw [takeWhile_spaces, List.length_append, spaces, List.length_replicate]

theorem dropWhile_spaces (n : Nat) (s : Str) :
    (spaces n ++ s).dropWhile (· = 0x20) = s.dropWhile (· = 0x20) := by
  refine List.dropWhile_append_of_pos fun c hc => ?_
  rw [List.eq_of_mem_replicate hc]
  rfl

theorem lstrip_spaces (n : Nat) (s : Str) : lstrip (spaces n ++ s) = lstrip s := by
  refine List.dropWhile_append_of_pos fun c hc => ?_
  rw [List.eq_of_mem_replicate hc]
  rfl

theorem strip_spaces (n : Nat) (s : Str) : strip (spaces n ++ s) = strip s := by
  unfold strip
  rw [lstrip_spaces]

theorem rstrip_cons {c : Nat} (h : isSpace c = false) (cs : Str) : rstrip (c :: cs) = c :: rstrip cs := by
  unfold rstrip List.rdropWhile
  rw [List.reverse_cons, List.dropWhile_append]
  cases hrest : cs.reverse.dropWhile isSpace with
  | nil =>
    rw [if_pos List.isEmpty_nil, List.dropWhile_cons_of_neg (by simp [h])]
    rfl
  | cons d ds =>
    rw [if_neg (by simp), List.reverse_append]
    rfl

theorem strip_eq_nil {s : Str} (h : strip s = []) : ∀ c ∈ s, isSpace c = true := by
  intro c hc
  by_contra hspace
  rw [Bool.not_eq_true] at hspace
  have hfirst : lstrip s ≠ [] := by
    intro hnil
    have hall := List.dropWhile_eq_nil_iff.mp hnil c hc
    rw [hspace] at hall
    cases hall
  obtain ⟨d, ds, hds⟩ := List.exists_cons_of_ne_nil hfirst
  have hd : isSpace d = false := by
    have hhead := List.head?_dropWhile_not isSpace s
    have hdropped : s.dropWhile isSpace = d :: ds := hds
    rwa [hdropped] at hhead
  unfold strip at h
  rw [hds, rstrip_cons hd] at h
  cases h

theorem rstrip_append {c : Nat} (h : isSpace c = false) (front cs : Str) :
    rstrip (front ++ c :: cs) = front ++ c :: rstrip cs := by
  induction front with
  | nil => exact rstrip_cons h cs
  | cons d front ih =>
    unfold rstrip at ih ⊢
    rw [List.cons_append, List.rdropWhile, List.reverse_cons, List.dropWhile_append]
    rw [List.rdropWhile] at ih
    have hne : ((front ++ c :: cs).reverse.dropWhile isSpace).isEmpty = false := by
      rw [← Bool.not_eq_true, List.isEmpty_iff]
      intro hnil
      rw [hnil] at ih
      simp at ih
    rw [hne, if_neg Bool.false_ne_true, List.reverse_append, ih]
    rfl

/-- A text that nothing can be stripped from. -/
theorem strip_eq_self {s : Str} (h : strip s = s) : lstrip s = s ∧ rstrip s = s := by
  have hleft : lstrip s = s := by
    have hsuffix : lstrip s <:+ s := List.dropWhile_suffix _
    refine hsuffix.eq_of_length (Nat.le_antisymm hsuffix.length_le ?_)
    calc s.length = (strip s).length := by rw [h]
      _ ≤ (lstrip s).length := (List.rdropWhile_prefix _ _).length_le
  refine ⟨hleft, ?_⟩
  unfold strip at h
  rwa [hleft] at h

theorem strip_solid {s : Str} (h : ∀ c ∈ s, isSpace c = false) : strip s = s := by
  have hleft : lstrip s = s := by
    cases s with
    | nil => rfl
    | cons c cs => exact List.dropWhile_cons_of_neg (by rw [h c (.head _)]; exact Bool.false_ne_true)
  unfold strip
  rw [hleft]
  refine List.rdropWhile_eq_self_iff.mpr fun hne => ?_
  rw [h _ (List.getLast_mem hne)]
  exact Bool.false_ne_true

theorem strip_concat {c : Nat} (h : isSpace c = true) (s : Str) : strip (s ++ [c]) = strip s := by
  unfold strip lstrip
  rw [List.dropWhile_append]
  split
  · rename_i hempty
    rw [List.isEmpty_iff.mp hempty, List.dropWhile_cons_of_pos h]
    rfl
  · exact List.rdropWhile_concat_pos _ _ _ h

/-- The text begins with something to read. -/
def Flush (s : Str) : Prop := ∃ c cs, s = c :: cs ∧ isSpace c = false

section Flush

variable {s : Str} (h : Flush s)

include h

theorem Flush.lstrip : lstrip s = s := by
  obtain ⟨c, cs, rfl, hc⟩ := h
  exact List.dropWhile_cons_of_neg (by simp [hc])

theorem Flush.strip_spaces (n : Nat) : ∃ c cs, strip (spaces n ++ s) = c :: cs ∧ s.head? = some c := by
  obtain ⟨c, cs, rfl, hc⟩ := h
  refine ⟨c, rstrip cs, ?_, rfl⟩
  rw [Python.strip_spaces]
  unfold strip
  rw [Flush.lstrip ⟨c, cs, rfl, hc⟩, rstrip_cons hc]

theorem Flush.not_space : s.dropWhile (· = 0x20) = s ∧ indentOf s = 0 := by
  obtain ⟨c, cs, rfl, hc⟩ := h
  have hspace : ¬ decide (c = 0x20) = true := by
    rw [decide_eq_true_eq]
    rintro rfl
    cases hc
  refine ⟨List.dropWhile_cons_of_neg hspace, ?_⟩
  unfold indentOf
  simp only [List.takeWhile_cons, hspace, Bool.false_eq_true, if_false, List.length_nil]

theorem Flush.dropWhile_spaces (n : Nat) : (spaces n ++ s).dropWhile (· = 0x20) = s := by
  rw [Python.dropWhile_spaces, h.not_space.1]

theorem Flush.indentOf_spaces (n : Nat) : indentOf (spaces n ++ s) = n := by
  rw [Python.indentOf_spaces, h.not_space.2, Nat.add_zero]

end Flush

/-- A blank or a tab. -/
def isBlank (c : Nat) : Bool := c = 0x20 ∨ c = 0x09

/-- The longest common prefix of two texts. -/
def commonPrefix : Str → Str → Str
  | c :: cs, d :: ds => if c = d then c :: commonPrefix cs ds else []
  | _, _ => []

/-- The indentation that all of the lines begin with. -/
def margin : List Str → Str
  | [] => []
  | [line] => line.takeWhile isBlank
  | line :: lines => commonPrefix (line.takeWhile isBlank) (margin lines)

/-- A line of blanks becomes empty. -/
def emptyBlank (line : Str) : Str := if line.all isBlank then [] else line

/-- A line without the margin, where it begins with it. -/
def cutMargin (front line : Str) : Str := if front <+: line then line.drop front.length else line

/-- The lines without their margin. -/
def dedentLines (lines : List Str) : List Str :=
  let kept := lines.map emptyBlank
  kept.map (cutMargin (margin (kept.filter (· ≠ []))))

/-- `textwrap.dedent(text)` -/
def dedent (text : Str) : Str := [lineFeed].intercalate (dedentLines (text.splitOn lineFeed))

theorem commonPrefix_append (front s t : Str) :
    commonPrefix (front ++ s) (front ++ t) = front ++ commonPrefix s t := by
  induction front with
  | nil => rfl
  | cons c cs ih =>
    rw [List.cons_append, List.cons_append, commonPrefix, if_pos rfl, ih]
    rfl

theorem all_isBlank_spaces (n : Nat) (s : Str) : (spaces n ++ s).all isBlank = s.all isBlank := by
  have hspaces : (spaces n).all isBlank = true := by
    rw [List.all_eq_true]
    intro c hc
    rw [List.eq_of_mem_replicate hc]
    rfl
  rw [List.all_append, hspaces, Bool.true_and]

theorem takeWhile_isBlank_spaces (n : Nat) (s : Str) :
    (spaces n ++ s).takeWhile isBlank = spaces n ++ s.takeWhile isBlank := by
  refine List.takeWhile_append_of_pos fun c hc => ?_
  rw [List.eq_of_mem_replicate hc]
  rfl

theorem margin_cons_cons (line next : Str) (more : List Str) :
    margin (line :: next :: more) = commonPrefix (line.takeWhile isBlank) (margin (next :: more)) := rfl

theorem margin_spaces (n : Nat) {lines : List Str} (h : lines ≠ []) :
    margin (lines.map (spaces n ++ ·)) = spaces n ++ margin lines := by
  induction lines with
  | nil => exact absurd rfl h
  | cons line lines ih =>
    cases lines with
    | nil => exact takeWhile_isBlank_spaces n line
    | cons next more =>
      have hrest := ih (List.cons_ne_nil _ _)
      rw [List.map_cons] at hrest
      rw [List.map_cons, List.map_cons, margin_cons_cons, hrest, takeWhile_isBlank_spaces,
        commonPrefix_append, margin_cons_cons]

theorem splitOn_unlines {lines : List Str} (h : ∀ l ∈ lines, lineFeed ∉ l) :
    (unlines lines).splitOn lineFeed = lines ++ [[]] := by
  induction lines with
  | nil => rfl
  | cons l lines ih =>
    obtain ⟨hl, hlines⟩ := List.forall_mem_cons.mp h
    show (lineOf l ++ unlines lines).splitOn lineFeed = _
    rw [lineOf, List.append_assoc, List.singleton_append, List.splitOn_append_cons_self_of_not_mem hl,
      ih hlines]
    rfl

theorem cutMargin_nil (front : Str) : cutMargin front [] = [] := by
  unfold cutMargin
  split
  · exact List.drop_nil
  · rfl

/-- The margin is deeper by the indentation, and so is every line that begins with it. -/
theorem cutMargin_spaces (n : Nat) {front line : Str} (h : front <+: line) :
    cutMargin (spaces n ++ front) (spaces n ++ line) = cutMargin front line := by
  have hspaces : spaces n ++ front <+: spaces n ++ line := (List.prefix_append_right_inj _).mpr h
  unfold cutMargin
  rw [if_pos h, if_pos hspaces, List.length_append, List.drop_append,
    List.drop_eq_nil_of_le (Nat.le_add_right _ _), List.nil_append, Nat.add_sub_cancel_left]

theorem commonPrefix_front (s t : Str) : commonPrefix s t <+: s ∧ commonPrefix s t <+: t := by
  induction s generalizing t with
  | nil => exact ⟨List.nil_prefix, List.nil_prefix⟩
  | cons c cs ih =>
    cases t with
    | nil => exact ⟨List.nil_prefix, List.nil_prefix⟩
    | cons d ds =>
      unfold commonPrefix
      split
      · rename_i heq
        rw [heq, List.cons_prefix_cons, List.cons_prefix_cons]
        exact ⟨⟨rfl, (ih ds).1⟩, rfl, (ih ds).2⟩
      · exact ⟨List.nil_prefix, List.nil_prefix⟩

/-- Every line begins with the margin. -/
theorem margin_front {lines : List Str} : ∀ line ∈ lines, margin lines <+: line := by
  induction lines with
  | nil => exact fun line h => absurd h List.not_mem_nil
  | cons first lines ih =>
    intro line hline
    cases lines with
    | nil =>
      rw [List.mem_singleton.mp hline]
      exact List.takeWhile_prefix _
    | cons next more =>
      rw [margin_cons_cons]
      obtain ⟨hleft, hright⟩ := commonPrefix_front (first.takeWhile isBlank) (margin (next :: more))
      rcases List.mem_cons.mp hline with rfl | hline
      · exact hleft.trans (List.takeWhile_prefix _)
      · exact hright.trans (ih line hline)

/-- A line that keeps its text is indented, a blank one stays empty. -/
theorem emptyBlank_spaces (n : Nat) (line : Str) :
    emptyBlank (spaces n ++ line) = if emptyBlank line = [] then [] else spaces n ++ emptyBlank line := by
  unfold emptyBlank
  rw [all_isBlank_spaces]
  cases hblank : line.all isBlank with
  | true => rfl
  | false =>
    have hne : line ≠ [] := by
      rintro rfl
      cases hblank
    rw [if_neg Bool.false_ne_true, if_neg Bool.false_ne_true, if_neg hne]

theorem dedentLines_spaces (n : Nat) (lines : List Str) :
    dedentLines (lines.map (spaces n ++ ·) ++ [[]]) = dedentLines (lines ++ [[]]) := by
  have hkept : (lines.map (spaces n ++ ·) ++ [[]]).map emptyBlank =
      ((lines ++ [[]]).map emptyBlank).map fun line => if line = [] then [] else spaces n ++ line := by
    rw [List.map_append, List.map_map, List.map_append, List.map_append, List.map_map]
    exact congrArg (· ++ _) (List.map_congr_left fun line _ => emptyBlank_spaces n line)
  unfold dedentLines
  rw [hkept]
  generalize (lines ++ [[]]).map emptyBlank = kept
  have hfilter : (kept.map fun line => if line = [] then [] else spaces n ++ line).filter (· ≠ []) =
      (kept.filter (· ≠ [])).map (spaces n ++ ·) := by
    induction kept with
    | nil => rfl
    | cons line kept ih =>
      rw [List.map_cons]
      by_cases hne : line = []
      · rw [if_pos hne, List.filter_cons_of_neg (by simp), List.filter_cons_of_neg (by simp [hne]), ih]
      · rw [if_neg hne, List.filter_cons_of_pos (by simp [hne]), List.filter_cons_of_pos (by simp [hne]), ih,
          List.map_cons]
  dsimp only
  rw [hfilter, List.map_map]
  refine List.map_congr_left fun line hline => ?_
  show cutMargin _ (if line = [] then [] else spaces n ++ line) = _
  by_cases hne : line = []
  · rw [if_pos hne, hne, cutMargin_nil, cutMargin_nil]
  · have hmem : line ∈ kept.filter (· ≠ []) := by
      rw [List.mem_filter]
      exact ⟨hline, decide_eq_true hne⟩
    rw [if_neg hne, margin_spaces n (List.ne_nil_of_mem hmem), cutMargin_spaces n (margin_front line hmem)]

/-- A text that is indented as a whole is dedented to the same. -/
theorem dedent_indent (n : Nat) {lines : List Str} (h : ∀ l ∈ lines, lineFeed ∉ l) :
    dedent (unlines (lines.map (spaces n ++ ·))) = dedent (unlines lines) := by
  have hindented : ∀ l ∈ lines.map (spaces n ++ ·), lineFeed ∉ l := by
    rw [List.forall_mem_map]
    intro l hl hmem
    rcases List.mem_append.mp hmem with hspace | hrest
    · exact absurd (List.eq_of_mem_replicate hspace) (by decide)
    · exact h l hl hrest
  unfold dedent
  rw [splitOn_unlines hindented, splitOn_unlines h, dedentLines_spaces]

theorem intercalate_concat_nil (sep : Str) {pieces : List Str} (h : pieces ≠ []) :
    sep.intercalate (pieces ++ [[]]) = sep.intercalate pieces ++ sep := by
  induction pieces with
  | nil => exact absurd rfl h
  | cons piece pieces ih =>
    cases pieces with
    | nil => simp [List.intercalate_cons_cons]
    | cons next more =>
      have hrest := ih (List.cons_ne_nil _ _)
      rw [List.cons_append] at hrest
      rw [List.cons_append, List.cons_append, List.intercalate_cons_cons, hrest,
        List.intercalate_cons_cons, List.append_assoc, List.append_assoc, List.append_assoc]

/-- Blank lines at the end are stripped. -/
theorem strip_dedent_append {lines blanks : List Str} (hlines : ∀ l ∈ lines, lineFeed ∉ l)
    (hblanks : ∀ l ∈ blanks, lineFeed ∉ l ∧ l.all isBlank = true) :
    strip (dedent (unlines (lines ++ blanks))) = strip (dedent (unlines lines)) := by
  have hall : ∀ l ∈ lines ++ blanks, lineFeed ∉ l := by
    intro l hl
    exact (List.mem_append.mp hl).elim (hlines l) fun hl => (hblanks l hl).1
  have hempty : blanks.map emptyBlank = List.replicate blanks.length [] := by
    refine List.eq_replicate_iff.mpr ⟨List.length_map _, List.forall_mem_map.mpr fun l hl => ?_⟩
    exact if_pos (hblanks l hl).2
  unfold dedent
  rw [splitOn_unlines hall, splitOn_unlines hlines]
  -- an empty line has no margin, so it stays as it is
  have hkept : ∀ count : Nat, dedentLines (lines ++ List.replicate (count + 1) []) =
      dedentLines lines ++ List.replicate (count + 1) [] := by
    intro count
    have hnone : (List.replicate (count + 1) ([] : Str)).filter (· ≠ []) = [] := by
      rw [List.filter_eq_nil_iff]
      intro l hl
      rw [List.eq_of_mem_replicate hl]
      decide
    have hsame : (List.replicate (count + 1) ([] : Str)).map emptyBlank = List.replicate (count + 1) [] :=
      List.map_replicate
    unfold dedentLines
    dsimp only
    rw [List.map_append, hsame, List.filter_append, hnone, List.append_nil, List.map_append,
      List.map_replicate, cutMargin_nil]
  -- blank lines are emptied first
  have hfold : dedentLines (lines ++ blanks ++ [[]]) =
      dedentLines (lines ++ List.replicate (blanks.length + 1) []) := by
    have hmap : (lines ++ blanks ++ [[]]).map emptyBlank =
        (lines ++ List.replicate (blanks.length + 1) []).map emptyBlank := by
      rw [List.map_append, List.map_append, hempty, List.map_append, List.map_replicate,
        List.append_assoc, List.replicate_succ']
      rfl
    unfold dedentLines
    rw [hmap]
  have hone := hkept 0
  rw [List.replicate_one] at hone
  rw [hfold, hkept, hone]
  generalize dedentLines lines = kept
  -- each of them is one more line feed at the end, which is stripped
  induction blanks.length with
  | zero => rfl
  | succ count ih =>
    have hne : kept ++ List.replicate (count + 1) [] ≠ [] := by simp
    have hlast : [lineFeed].intercalate (kept ++ List.replicate (count + 1 + 1) []) =
        [lineFeed].intercalate (kept ++ List.replicate (count + 1) []) ++ [lineFeed] := by
      rw [List.replicate_succ', ← List.append_assoc]
      exact intercalate_concat_nil _ hne
    rw [hlast, strip_concat (by decide), ih]

end FastGate.Python
