/-
# FastGate.CheckRepository.Sections — one section of a Markdown text

`section_body` of `scripts/check_repository.py`: the text between a second-level heading and the next
one, cut with two substring splits.  The docstring of the function promises "one second-level Markdown
section body, or an empty string".

* `sectionLines` says which lines the section has: those strictly between the first line that is the
  heading and the next line that starts a section.  `sectionText` is their text.
* `SectionReadable` are the texts of which the two splits find these lines: the first place where the
  heading is found, with the line feed behind it, is a line of its own, and the next line starts no other
  section.  `sectionBody_of_readable` proves that this is enough.
* `sectionBody_heading` is the converse where the heading is found on a line of its own.  Elsewhere (in a
  deeper heading, say, or at the end of another line) what is returned is cut from the wrong place, as in
  `sectionBody_deeper`.

The cuts themselves are those of `Text.Lines`, for any separator and any word.
-/
import FastGate.Python.Text
import FastGate.Text.Lines

open FastGate.Python FastGate.Lines

namespace FastGate.CheckRepository

/-- `## {heading}` -/
def headingLine (heading : Str) : Str := str "## " ++ heading

/-- `section_body` -/
def sectionBody (text heading : Str) : Str :=
  match cutAt (headingLine heading ++ [lineFeed]) text with
  | none => []
  | some (_, body) => cutBefore (str "\n## ") body

/-! ## The lines of a section -/

/-- The lines after the first heading line, up to the next line that starts a section. -/
def sectionLines (text heading : Str) : List Str :=
  ((text.splitOn lineFeed).dropWhile fun line => line ≠ headingLine heading).tail.takeWhile
    fun line => ¬ str "## " <+: line

/-- The text of those lines. -/
def sectionText (text heading : Str) : Str := [lineFeed].intercalate (sectionLines text heading)

/-- What precedes the start of a line. -/
def StartsLine (before : Str) : Prop := before = [] ∨ ∃ earlier, before = earlier ++ [lineFeed]

theorem lineFeed_not_mem_start : lineFeed ∉ str "## " := by decide

theorem lineFeed_not_mem_headingLine {heading : Str} :
    lineFeed ∉ headingLine heading ↔ lineFeed ∉ heading := by
  rw [headingLine, List.mem_append, not_or, and_iff_right lineFeed_not_mem_start]

/-- A line that is followed by another one is an occurrence of the line and its line feed. -/
theorem occurrence_of_line {text line next : Str} {ahead others : List Str}
    (h : text.splitOn lineFeed = ahead ++ line :: next :: others) :
    ∃ before after, text = before ++ (line ++ [lineFeed]) ++ after ∧
      before = ahead.flatMap (fun l => l ++ [lineFeed]) := by
  refine ⟨_, [lineFeed].intercalate (next :: others), ?_, rfl⟩
  rw [← intercalate_line, ← h, List.intercalate_splitOn]

/-- A section has no lines when its heading never stands before a line feed. -/
theorem sectionLines_absent {text heading : Str}
    (h : cutAt (headingLine heading ++ [lineFeed]) text = none) : sectionLines text heading = [] := by
  unfold sectionLines
  cases hdrop : (text.splitOn lineFeed).dropWhile (fun line => line ≠ headingLine heading) with
  | nil => rfl
  | cons line rest =>
    cases rest with
    | nil => rfl
    | cons next others =>
      have hline : line = headingLine heading := by
        have hhead := List.head?_dropWhile_not (fun line => decide (line ≠ headingLine heading))
          (text.splitOn lineFeed)
        rw [hdrop] at hhead
        simpa using hhead
      have hlines : text.splitOn lineFeed =
          (text.splitOn lineFeed).takeWhile (fun line => line ≠ headingLine heading) ++
            line :: next :: others := by
        rw [← hdrop, List.takeWhile_append_dropWhile]
      obtain ⟨before, after, htext, -⟩ := occurrence_of_line hlines
      rw [hline] at htext
      exact absurd htext (cutAt_eq_none h before after)

/-- No line of a text that ends before the first occurrence of the heading line is that line. -/
theorem not_heading_before {text heading earlier body : Str}
    (hcut : cutAt (headingLine heading ++ [lineFeed]) text = some (earlier ++ [lineFeed], body)) :
    ∀ line ∈ earlier.splitOn lineFeed, line ≠ headingLine heading := by
  rintro line hline rfl
  obtain ⟨ahead, others, hsplit⟩ := List.append_of_mem hline
  have hearlier : earlier ++ [lineFeed] =
      ahead.flatMap (fun l => l ++ [lineFeed]) ++ (headingLine heading ++ [lineFeed]) ++
        others.flatMap (fun l => l ++ [lineFeed]) := by
    rw [← flatMap_splitOn, hsplit, List.flatMap_append, List.flatMap_cons]
    simp only [List.append_assoc]
  have htext := cutAt_sound hcut
  rw [hearlier] at htext
  simp only [List.append_assoc] at htext
  have hfirst := cutAt_first hcut (by simpa only [List.append_assoc] using htext)
  rw [hearlier] at hfirst
  simp only [List.length_append, List.length_singleton] at hfirst
  omega

/-- Below a heading line, the section is what follows up to the next line that starts one. -/
theorem sectionLines_heading {text heading before body : Str}
    (hcut : cutAt (headingLine heading ++ [lineFeed]) text = some (before, body))
    (hstart : StartsLine before) (hheading : lineFeed ∉ heading) :
    sectionLines text heading =
      (body.splitOn lineFeed).takeWhile fun line => ¬ str "## " <+: line := by
  have hline : lineFeed ∉ headingLine heading := lineFeed_not_mem_headingLine.mpr hheading
  have hbelow : (headingLine heading ++ lineFeed :: body).splitOn lineFeed =
      headingLine heading :: body.splitOn lineFeed := List.splitOn_append_cons_self_of_not_mem hline _
  have hdrop : (headingLine heading :: body.splitOn lineFeed).dropWhile
      (fun line => decide (line ≠ headingLine heading)) =
        headingLine heading :: body.splitOn lineFeed :=
    List.dropWhile_cons_of_neg (by simp)
  have htext := cutAt_sound hcut
  unfold sectionLines
  rcases hstart with rfl | ⟨earlier, rfl⟩
  · rw [htext, List.nil_append, List.append_assoc, List.singleton_append, hbelow, hdrop, List.tail_cons]
  · have hlines : text.splitOn lineFeed =
        earlier.splitOn lineFeed ++ (headingLine heading :: body.splitOn lineFeed) := by
      rw [htext, List.append_assoc, List.append_assoc, List.append_assoc, List.singleton_append,
        List.singleton_append, List.splitOn_append_cons_self, hbelow]
    have hpass : ∀ line ∈ earlier.splitOn lineFeed, decide (line ≠ headingLine heading) = true :=
      fun line hmem => decide_eq_true (not_heading_before hcut line hmem)
    rw [hlines, List.dropWhile_append_of_pos hpass, hdrop, List.tail_cons]

/-! ## Where the cut is the section -/

/-- The heading, with the line feed behind it, stands first on a line of its own, and no other section
starts right below; or it is nowhere in the text. -/
def SectionReadable (text heading : Str) : Prop :=
  ∀ before body, cutAt (headingLine heading ++ [lineFeed]) text = some (before, body) →
    StartsLine before ∧ lineFeed ∉ heading ∧ ¬ str "## " <+: body

/-- Right below its heading line, a section is cut correctly unless another one starts there. -/
theorem sectionBody_heading {text heading before body : Str}
    (hcut : cutAt (headingLine heading ++ [lineFeed]) text = some (before, body))
    (hstart : StartsLine before) (hheading : lineFeed ∉ heading) :
    cutBefore (str "\n## ") body = sectionText text heading ↔ ¬ str "## " <+: body := by
  have hword : str "\n## " = lineFeed :: str "## " := rfl
  obtain ⟨first, rest, hlines⟩ := exists_lines lineFeed body
  have hfirst := prefix_first lineFeed_not_mem_start hlines
  unfold sectionText
  rw [sectionLines_heading hcut hstart hheading, hword, cutBefore_lines lineFeed_not_mem_start body hlines,
    hlines, ← hfirst]
  by_cases hnext : str "## " <+: first
  · rw [List.takeWhile_cons_of_neg (by simpa using hnext)]
    refine iff_of_false (fun h => ?_) (not_not_intro hnext)
    have hne : first ≠ [] := by
      rintro rfl
      exact absurd (List.prefix_nil.mp hnext) (by decide)
    exact intercalate_ne_nil hne _ h
  · rw [List.takeWhile_cons_of_pos (by simpa using hnext)]
    exact iff_of_true rfl hnext

/-- A text without the heading has no section, and none is returned. -/
theorem sectionBody_absent {text heading : Str} (hcut : cutAt (headingLine heading ++ [lineFeed]) text = none) :
    sectionBody text heading = sectionText text heading := by
  have hempty : sectionText text heading = [] := by
    rw [sectionText, sectionLines_absent hcut]
    rfl
  rw [hempty]
  unfold sectionBody
  rw [hcut]

/-- The section of a readable text is returned. -/
theorem sectionBody_of_readable {text heading : Str} (h : SectionReadable text heading) :
    sectionBody text heading = sectionText text heading := by
  cases hcut : cutAt (headingLine heading ++ [lineFeed]) text with
  | none => exact sectionBody_absent hcut
  | some parts =>
    obtain ⟨before, body⟩ := parts
    obtain ⟨hstart, hheading, hnext⟩ := h before body hcut
    have hbody := (sectionBody_heading hcut hstart hheading).mpr hnext
    unfold sectionBody
    rw [hcut]
    exact hbody

/-- **`section_body` returns the section of every readable text.**  Where the heading is first found on a
line of its own, it returns the section of no other text. -/
theorem sectionBody_readable (text heading : Str) :
    (SectionReadable text heading → sectionBody text heading = sectionText text heading) ∧
    ∀ before body, cutAt (headingLine heading ++ [lineFeed]) text = some (before, body) →
      StartsLine before → lineFeed ∉ heading →
        (sectionBody text heading = sectionText text heading ↔ SectionReadable text heading) := by
  refine ⟨sectionBody_of_readable, fun before body hcut hstart hheading => ⟨fun h => ?_, sectionBody_of_readable⟩⟩
  unfold sectionBody at h
  rw [hcut] at h
  have hnext := (sectionBody_heading hcut hstart hheading).mp h
  intro before' body' hcut'
  obtain ⟨rfl, rfl⟩ := Prod.mk.inj (Option.some.inj (hcut'.symm.trans hcut))
  exact ⟨hstart, hheading, hnext⟩

/-- A deeper heading is read as the section's own. -/
theorem sectionBody_deeper :
    sectionBody (str "### Teach-back questions\n1. Why?\n") (str "Teach-back questions") =
        str "1. Why?\n" ∧
      sectionText (str "### Teach-back questions\n1. Why?\n") (str "Teach-back questions") = [] := by
  decide

end FastGate.CheckRepository
