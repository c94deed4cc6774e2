/-
# FastGate.Python.Text — the text methods of Python strings

`str.isspace`, the `strip` family, `str.splitlines` and the universal newlines of a file that is read
as text.  `commonLines` cuts a text at its line feeds only; `splitlines_commonLines` says that
`splitlines` cuts each of these lines on its own.
-/
import FastGate.Python.Value
import Mathlib.Data.List.DropRight

namespace FastGate.Python

/-- A line feed. -/
def lineFeed : Nat := 0x0A

/-! ## White space -/

/-- `c.isspace()` -/
def isSpace (c : Nat) : Bool :=
  (0x09 ≤ c ∧ c ≤ 0x0D) ∨ (0x1C ≤ c ∧ c ≤ 0x20) ∨ c = 0x85 ∨ c = 0xA0 ∨ c = 0x1680 ∨
    (0x2000 ≤ c ∧ c ≤ 0x200A) ∨ c = 0x2028 ∨ c = 0x2029 ∨ c = 0x202F ∨ c = 0x205F ∨ c = 0x3000

/-- `s.lstrip()` -/
def lstrip (s : Str) : Str := s.dropWhile isSpace

/-- `s.rstrip()` -/
def rstrip (s : Str) : Str := s.rdropWhile isSpace

/-- `s.strip()` -/
def strip (s : Str) : Str := rstrip (lstrip s)

/-! ## Lines -/

/-- A character at which `splitlines` ends a line. -/
def isLineBoundary (c : Nat) : Bool :=
  (0x0A ≤ c ∧ c ≤ 0x0D) ∨ (0x1C ≤ c ∧ c ≤ 0x1E) ∨ c = 0x85 ∨ c = 0x2028 ∨ c = 0x2029

/-- A character goes to the front of the first line. -/
def consLine (c : Nat) : List Str → List Str
  | [] => [[c]]
  | line :: lines => (c :: line) :: lines

/-- `s.splitlines()` -/
def splitlines : Str → List Str
  | [] => []
  | 0x0D :: 0x0A :: cs => [] :: splitlines cs
  | c :: cs => if isLineBoundary c then [] :: splitlines cs else consLine c (splitlines cs)

/-- What `read_text` makes of the line endings of a file. -/
def universalNewlines : Str → Str
  | [] => []
  | 0x0D :: 0x0A :: cs => lineFeed :: universalNewlines cs
  | c :: cs => (if c = 0x0D then lineFeed else c) :: universalNewlines cs

/-- The lines of a text, each with the line feed that ends it. -/
def commonLines : Str → List Str
  | [] => []
  | c :: cs => if c = lineFeed then [c] :: commonLines cs else consLine c (commonLines cs)

theorem consLine_ne_nil (c : Nat) (lines : List Str) : consLine c lines ≠ [] := by
  cases lines <;> exact List.cons_ne_nil _ _

theorem commonLines_cons_ne {c : Nat} (h : c ≠ lineFeed) (cs : Str) :
    commonLines (c :: cs) = consLine c (commonLines cs) := by
  rw [commonLines, if_neg h]

/-- The first line begins where the text begins. -/
theorem commonLines_first {s line : Str} {rest : List Str} (h : commonLines s = line :: rest) :
    ∃ c cs, s = c :: cs ∧ ∃ more, line = c :: more := by
  cases s with
  | nil => cases h
  | cons c cs =>
    refine ⟨c, cs, rfl, ?_⟩
    rw [commonLines] at h
    split at h
    · cases h
      exact ⟨[], rfl⟩
    · cases hlines : commonLines cs with
      | nil =>
        rw [hlines] at h
        cases h
        exact ⟨[], rfl⟩
      | cons first others =>
        rw [hlines] at h
        cases h
        exact ⟨first, rfl⟩

theorem splitlines_cons {c : Nat} {cs : Str} (h : ¬ (c = 0x0D ∧ ∃ more, cs = lineFeed :: more)) :
    splitlines (c :: cs) = if isLineBoundary c then [] :: splitlines cs else consLine c (splitlines cs) := by
  rw [splitlines.eq_3]
  rintro more rfl rfl
  exact h ⟨rfl, more, rfl⟩

theorem splitlines_ne_nil (c : Nat) (cs : Str) : splitlines (c :: cs) ≠ [] := by
  by_cases h : c = 0x0D ∧ ∃ more, cs = lineFeed :: more
  · obtain ⟨rfl, more, rfl⟩ := h
    exact List.cons_ne_nil _ _
  · rw [splitlines_cons h]
    split_ifs
    · exact List.cons_ne_nil _ _
    · exact consLine_ne_nil _ _

/-- `splitlines` cuts every line on its own. -/
theorem splitlines_commonLines (s : Str) : splitlines s = (commonLines s).flatMap splitlines := by
  fun_induction splitlines s with
  | case1 => rfl
  | case2 cs ih =>
    -- a carriage return with a line feed behind it ends one line for both
    rw [commonLines_cons_ne (by decide)]
    show _ = (consLine 0x0D ([lineFeed] :: commonLines cs)).flatMap splitlines
    rw [consLine, List.flatMap_cons, ← ih]
    rfl
  | case3 c cs hpair hboundary ih =>
    -- only a line feed ends the outer line; every other boundary cuts inside of it
    by_cases hc : c = lineFeed
    · rw [commonLines, if_pos hc, List.flatMap_cons, ← ih, hc]
      rfl
    · rw [commonLines_cons_ne hc]
      cases hlines : commonLines cs with
      | nil =>
        have halone : ¬ (c = 0x0D ∧ ∃ more, ([] : Str) = lineFeed :: more) := by simp
        rw [ih, hlines, consLine, List.flatMap_singleton, splitlines_cons halone, if_pos hboundary]
        rfl
      | cons line rest =>
        have hinner : ¬ (c = 0x0D ∧ ∃ more, line = lineFeed :: more) := by
          rintro ⟨rfl, more, rfl⟩
          obtain ⟨d, ds, rfl, more', hline⟩ := commonLines_first hlines
          cases hline
          exact hpair ds rfl rfl
        rw [ih, hlines, consLine, List.flatMap_cons, List.flatMap_cons, splitlines_cons hinner,
          if_pos hboundary]
        rfl
  | case4 c cs hpair hboundary ih =>
    have hc : c ≠ lineFeed := by
      rintro rfl
      exact hboundary rfl
    rw [commonLines_cons_ne hc]
    have hinner : ∀ line : Str, ¬ (c = 0x0D ∧ ∃ more, line = lineFeed :: more) := by
      rintro line ⟨rfl, -⟩
      exact hboundary rfl
    cases hlines : commonLines cs with
    | nil =>
      rw [ih, hlines, consLine, List.flatMap_singleton, splitlines_cons (hinner _), if_neg hboundary]
      rfl
    | cons line rest =>
      obtain ⟨d, ds, -, more, rfl⟩ := commonLines_first hlines
      rw [ih, hlines, consLine, List.flatMap_cons, List.flatMap_cons, splitlines_cons (hinner _),
        if_neg hboundary]
      obtain ⟨first, others, hfirst⟩ := List.exists_cons_of_ne_nil (splitlines_ne_nil d more)
      rw [hfirst]
      rfl

/-- Characters that end no line stay at the front of the first piece. -/
theorem splitlines_append {a : Str} (ha : ∀ c ∈ a, isLineBoundary c = false) (hne : a ≠ []) (s : Str) :
    splitlines (a ++ s) = match splitlines s with
      | [] => [a]
      | piece :: pieces => (a ++ piece) :: pieces := by
  induction a with
  | nil => exact absurd rfl hne
  | cons c cs ih =>
    obtain ⟨hc, hcs⟩ := List.forall_mem_cons.mp ha
    have hpair : ¬ (c = 0x0D ∧ ∃ more, cs ++ s = lineFeed :: more) := by
      rintro ⟨rfl, -⟩
      cases hc
    rw [List.cons_append, splitlines_cons hpair, if_neg (by simp [hc])]
    by_cases hnil : cs = []
    · rw [hnil, List.nil_append]
      cases splitlines s <;> rfl
    · rw [ih hcs hnil]
      cases splitlines s <;> rfl

/-- A line without boundaries before its end is one piece. -/
theorem splitlines_line {a : Str} (ha : ∀ c ∈ a, isLineBoundary c = false) (hne : a ≠ []) :
    splitlines a = [a] ∧ splitlines (a ++ [lineFeed]) = [a] := by
  constructor
  · have h := splitlines_append ha hne []
    rwa [List.append_nil] at h
  · rw [splitlines_append ha hne]
    show [a ++ []] = [a]
    rw [List.append_nil]

theorem mem_consLine {c : Nat} {lines : List Str} {line : Str} (h : line ∈ consLine c lines) :
    (∃ rest, line = c :: rest ∧ (rest = [] ∨ rest ∈ lines)) ∨ line ∈ lines := by
  cases lines with
  | nil =>
    rw [consLine, List.mem_singleton] at h
    exact .inl ⟨[], h, .inl rfl⟩
  | cons first rest =>
    rw [consLine, List.mem_cons] at h
    rcases h with h | h
    · exact .inl ⟨first, h, .inr List.mem_cons_self⟩
    · exact .inr (List.mem_cons_of_mem _ h)

/-- The pieces of a text are made of its characters. -/
theorem mem_of_mem_splitlines {s piece : Str} {c : Nat} (h : piece ∈ splitlines s) (hc : c ∈ piece) :
    c ∈ s := by
  fun_induction splitlines s generalizing piece with
  | case1 => exact absurd h List.not_mem_nil
  | case2 cs ih =>
    rcases List.mem_cons.mp h with rfl | h
    · exact absurd hc List.not_mem_nil
    · exact List.mem_cons_of_mem _ (List.mem_cons_of_mem _ (ih h hc))
  | case3 d cs _ _ ih =>
    rcases List.mem_cons.mp h with rfl | h
    · exact absurd hc List.not_mem_nil
    · exact List.mem_cons_of_mem _ (ih h hc)
  | case4 d cs _ _ ih =>
    rcases mem_consLine h with ⟨rest, rfl, hrest⟩ | h
    · rcases List.mem_cons.mp hc with rfl | hc
      · exact List.mem_cons_self
      · rcases hrest with rfl | hrest
        · exact absurd hc List.not_mem_nil
        · exact List.mem_cons_of_mem _ (ih hrest hc)
    · exact List.mem_cons_of_mem _ (ih h hc)

/-- A line feed ends the line it is on. -/
theorem commonLines_shape {s line : Str} (h : line ∈ commonLines s) :
    ∃ body, lineFeed ∉ body ∧ (line = body ∨ line = body ++ [lineFeed]) := by
  induction s generalizing line with
  | nil => exact absurd h List.not_mem_nil
  | cons c cs ih =>
    by_cases hc : c = lineFeed
    · rw [commonLines, if_pos hc, List.mem_cons] at h
      rcases h with rfl | h
      · exact ⟨[], List.not_mem_nil, .inr (by rw [hc]; rfl)⟩
      · exact ih h
    · rw [commonLines_cons_ne hc] at h
      have hfront : ∀ {body : Str}, lineFeed ∉ body → lineFeed ∉ c :: body := fun hbody hmem =>
        (List.mem_cons.mp hmem).elim (fun heq => hc heq.symm) hbody
      rcases mem_consLine h with ⟨rest, rfl, rfl | hrest⟩ | h
      · exact ⟨[c], hfront List.not_mem_nil, .inl rfl⟩
      · obtain ⟨body, hbody, rfl | rfl⟩ := ih hrest
        · exact ⟨c :: rest, hfront hbody, .inl rfl⟩
        · exact ⟨c :: body, hfront hbody, .inr rfl⟩
      · exact ih h

end FastGate.Python
