/-
# FastGate.Text.Lines — occurrences in a text, and its lines

Two views of a text: as a sequence in which a word occurs, and as the lines between the separators.
`cutAt` finds the first occurrence of a word; `cutBefore_lines` says what is left of a text that is cut
where a line with a given start begins.
-/
import Mathlib.Data.List.Infix
import Mathlib.Data.List.TakeWhile

namespace FastGate.Lines

variable {α : Type} [DecidableEq α]

/-! ## Occurrences -/

/-- What stands before and after the first occurrence of a word. -/
def cutAt (word : List α) : List α → Option (List α × List α)
  | [] => if word = [] then some ([], []) else none
  | c :: cs =>
    if word <+: c :: cs then some ([], (c :: cs).drop word.length)
    else (cutAt word cs).map fun parts => (c :: parts.1, parts.2)

/-- The text up to the first occurrence of a word, or all of it. -/
def cutBefore (word s : List α) : List α :=
  match cutAt word s with
  | none => s
  | some (before, _) => before

theorem cutAt_sound {word : List α} : ∀ {s before after : List α},
    cutAt word s = some (before, after) → s = before ++ word ++ after
  | [], before, after, h => by
      rw [cutAt] at h
      split at h
      · rename_i hword
        cases h
        rw [hword]
        rfl
      · cases h
  | c :: cs, before, after, h => by
      rw [cutAt] at h
      split at h
      · rename_i hprefix
        cases h
        obtain ⟨rest, hrest⟩ := hprefix
        rw [← hrest, List.drop_left]
        rfl
      · obtain ⟨⟨before', after'⟩, hrec, heq⟩ := Option.map_eq_some_iff.mp h
        cases heq
        rw [cutAt_sound hrec]
        rfl

/-- No occurrence starts before the one that is found. -/
theorem cutAt_first {word : List α} : ∀ {s before after before' after' : List α},
    cutAt word s = some (before, after) → s = before' ++ word ++ after' → before.length ≤ before'.length
  | [], before, after, before', after', h, _ => by
      rw [cutAt] at h
      split at h
      · cases h
        exact Nat.zero_le _
      · cases h
  | c :: cs, before, after, before', after', h, hs => by
      rw [cutAt] at h
      split at h
      · cases h
        exact Nat.zero_le _
      · rename_i hno
        obtain ⟨⟨first, rest⟩, hrec, heq⟩ := Option.map_eq_some_iff.mp h
        cases heq
        cases before' with
        | nil => exact absurd ⟨after', hs.symm⟩ hno
        | cons d ds =>
          have htail : cs = ds ++ word ++ after' := (List.cons.inj hs).2
          exact Nat.succ_le_succ (cutAt_first hrec htail)

theorem cutAt_eq_none {word : List α} : ∀ {s : List α}, cutAt word s = none →
    ∀ before after, s ≠ before ++ word ++ after
  | [], h, before, after, hs => by
      rw [cutAt] at h
      split at h
      · cases h
      · rename_i hword
        simp only [List.nil_eq, List.append_eq_nil_iff] at hs
        exact hword hs.1.2
  | c :: cs, h, before, after, hs => by
      rw [cutAt] at h
      split at h
      · cases h
      · rename_i hno
        cases before with
        | nil => exact hno ⟨after, hs.symm⟩
        | cons d ds => exact cutAt_eq_none (Option.map_eq_none_iff.mp h) ds after (List.cons.inj hs).2

theorem cutBefore_nil {word : List α} : cutBefore word [] = [] := by
  unfold cutBefore cutAt
  split_ifs <;> rfl

theorem cutBefore_cons (word : List α) (c : α) (cs : List α) :
    cutBefore word (c :: cs) = if word <+: c :: cs then [] else c :: cutBefore word cs := by
  unfold cutBefore
  rw [cutAt]
  split_ifs
  · rfl
  · cases cutAt word cs <;> rfl

/-! ## Lines -/

section Lines

variable {newline : α}

theorem splitOn_cons_self (s : List α) : (newline :: s).splitOn newline = [] :: s.splitOn newline := by
  rw [List.splitOn_cons_eq_if_modifyHead, if_pos (beq_self_eq_true newline)]

theorem splitOn_cons_ne {c : α} (h : c ≠ newline) (s : List α) :
    (c :: s).splitOn newline = (s.splitOn newline).modifyHead (c :: ·) := by
  rw [List.splitOn_cons_eq_if_modifyHead, if_neg (by simpa using h)]

/-- A text has a first line. -/
theorem exists_lines (newline : α) (s : List α) : ∃ first rest, s.splitOn newline = first :: rest :=
  List.exists_cons_of_ne_nil (List.splitOn_ne_nil newline s)

/-- A word without separators starts a text exactly when it starts its first line. -/
theorem prefix_first {word s first : List α} {rest : List (List α)} (hword : newline ∉ word)
    (h : s.splitOn newline = first :: rest) : word <+: first ↔ word <+: s := by
  induction word generalizing s first with
  | nil => exact iff_of_true List.nil_prefix List.nil_prefix
  | cons w ws ih =>
    rw [List.mem_cons, not_or] at hword
    cases s with
    | nil =>
      cases h
      exact Iff.rfl
    | cons c cs =>
      by_cases hc : c = newline
      · subst hc
        rw [splitOn_cons_self] at h
        cases h
        rw [List.cons_prefix_cons]
        exact iff_of_false (by simp) fun hand => hword.1 hand.1.symm
      · obtain ⟨first', rest', hlines⟩ := exists_lines newline cs
        rw [splitOn_cons_ne hc, hlines, List.modifyHead_cons] at h
        cases h
        rw [List.cons_prefix_cons, List.cons_prefix_cons, ih hword.2 hlines]

/-- A text that is cut where a later line starts with a word keeps the lines before that one. -/
theorem cutBefore_lines {word : List α} (hword : newline ∉ word) (s : List α) {first : List α}
    {rest : List (List α)} (h : s.splitOn newline = first :: rest) :
    cutBefore (newline :: word) s =
      [newline].intercalate (first :: rest.takeWhile fun line => ¬ word <+: line) := by
  induction s generalizing first rest with
  | nil =>
    cases h
    exact cutBefore_nil
  | cons c cs ih =>
    obtain ⟨first', rest', hlines⟩ := exists_lines newline cs
    rw [cutBefore_cons]
    by_cases hc : c = newline
    · subst hc
      rw [splitOn_cons_self, hlines] at h
      cases h
      -- the word is found here if the next line starts with it
      have hstart : c :: word <+: c :: cs ↔ word <+: first' := by
        rw [List.cons_prefix_cons, and_iff_right rfl, prefix_first hword hlines]
      by_cases hline : word <+: first'
      · rw [if_pos (hstart.mpr hline), List.takeWhile_cons_of_neg (by simpa using hline)]
        rfl
      · rw [if_neg fun hand => hline (hstart.mp hand), ih hlines,
          List.takeWhile_cons_of_pos (by simpa using hline), List.intercalate_cons_cons]
        rfl
    · rw [splitOn_cons_ne hc, hlines, List.modifyHead_cons] at h
      cases h
      have hstart : ¬ newline :: word <+: c :: cs :=
        fun hand => hc (List.cons_prefix_cons.mp hand).1.symm
      rw [if_neg hstart, ih hlines]
      cases rest.takeWhile fun line => ¬ word <+: line with
      | nil => rfl
      | cons line others => rfl

/-- Every line ends with a separator once the last one has its own. -/
theorem flatMap_splitOn (s : List α) :
    (s.splitOn newline).flatMap (fun line => line ++ [newline]) = s ++ [newline] := by
  induction s with
  | nil => rfl
  | cons c cs ih =>
    by_cases hc : c = newline
    · rw [hc, splitOn_cons_self, List.flatMap_cons, ih]
      rfl
    · obtain ⟨first, rest, hlines⟩ := exists_lines newline cs
      rw [hlines, List.flatMap_cons] at ih
      rw [splitOn_cons_ne hc, hlines, List.modifyHead_cons, List.flatMap_cons, List.cons_append,
        List.cons_append, ih]
      rfl

omit [DecidableEq α] in
/-- A line that is not the last one ends with a separator. -/
theorem intercalate_line (ahead : List (List α)) (line next : List α) (others : List (List α)) :
    [newline].intercalate (ahead ++ line :: next :: others) =
      ahead.flatMap (fun l => l ++ [newline]) ++ (line ++ [newline]) ++
        [newline].intercalate (next :: others) := by
  induction ahead with
  | nil => simp only [List.nil_append, List.flatMap_nil, List.intercalate_cons_cons]
  | cons l ls ih =>
    have hne : ls ++ line :: next :: others ≠ [] := by simp
    obtain ⟨first, rest, hrest⟩ := List.exists_cons_of_ne_nil hne
    rw [List.cons_append, hrest, List.intercalate_cons_cons, ← hrest, ih, List.flatMap_cons]
    simp only [List.append_assoc]

omit [DecidableEq α] in
theorem intercalate_ne_nil {line : List α} (h : line ≠ []) (rest : List (List α)) :
    [newline].intercalate (line :: rest) ≠ [] := by
  cases rest with
  | nil => rwa [List.intercalate_singleton]
  | cons next others =>
    rw [List.intercalate_cons_cons]
    simp

end Lines

end FastGate.Lines
