/-
# FastGate.Text.Regex — regular expressions with anchors

Regular expressions over code points: character classes, sequences, repetition, the start of the text
and a negative lookahead.  An expression matches a stretch of text between what stands before it and
what stands after it; a search finds a stretch anywhere.

An expression that is anchored at both ends is found exactly when it matches the whole text
(`found_anchored`).
-/
import Mathlib.Data.List.Basic

namespace FastGate.Text

/-- A regular expression.  A class is given by the ranges of its code points. -/
inductive Regex where
  | startOfText
  | oneOf (ranges : List (Nat × Nat))
  | noneOf (ranges : List (Nat × Nat))
  | seq (r s : Regex)
  | star (r : Regex)
  | notAhead (r : Regex)
  deriving DecidableEq, Repr

namespace Regex

/-- The code point lies in one of the ranges. -/
def InRanges (ranges : List (Nat × Nat)) (c : Nat) : Prop := ∃ r ∈ ranges, r.1 ≤ c ∧ c ≤ r.2

instance (ranges : List (Nat × Nat)) (c : Nat) : Decidable (InRanges ranges c) :=
  inferInstanceAs (Decidable (∃ r ∈ ranges, r.1 ≤ c ∧ c ≤ r.2))

/-- Any number of stretches, one after the other. -/
inductive Repeats (M : List Nat → List Nat → List Nat → Prop) :
    List Nat → List Nat → List Nat → Prop
  | done {before after : List Nat} : Repeats M before [] after
  | more {before first rest after : List Nat} : M before first (rest ++ after) →
      Repeats M (before ++ first) rest after → Repeats M before (first ++ rest) after

/-- `Matches r before text after`: the expression matches `text`, which stands between `before` and
`after`. -/
def Matches : Regex → List Nat → List Nat → List Nat → Prop
  | .startOfText, before, text, _ => before = [] ∧ text = []
  | .oneOf ranges, _, text, _ => ∃ c, text = [c] ∧ InRanges ranges c
  | .noneOf ranges, _, text, _ => ∃ c, text = [c] ∧ ¬ InRanges ranges c
  | .seq r s, before, text, after => ∃ first rest, text = first ++ rest ∧
      Matches r before first (rest ++ after) ∧ Matches s (before ++ first) rest after
  | .star r, before, text, after => Repeats (Matches r) before text after
  | .notAhead r, before, text, after =>
    text = [] ∧ ¬ ∃ ahead rest, after = ahead ++ rest ∧ Matches r before ahead rest

/-- A search finds the expression somewhere in the text. -/
def Found (r : Regex) (text : List Nat) : Prop :=
  ∃ before middle after, text = before ++ (middle ++ after) ∧ r.Matches before middle after

/-- One or more times. -/
def plus (r : Regex) : Regex := .seq r (.star r)

/-- No character follows: `(?![\s\S])`. -/
def endOfText : Regex := .notAhead (.noneOf [])

/-- Between the start and the end of the text. -/
def anchored (r : Regex) : Regex := .seq .startOfText (.seq r endOfText)

variable {before text after : List Nat} {P : Nat → Prop}

theorem matches_endOfText : endOfText.Matches before text after ↔ text = [] ∧ after = [] := by
  show (text = [] ∧ ¬ _) ↔ _
  refine and_congr_right fun _ => ?_
  cases after with
  | nil =>
    refine iff_of_true ?_ rfl
    rintro ⟨ahead, rest, hnil, c, rfl, -⟩
    cases hnil
  | cons c cs =>
    refine iff_of_false (fun h => h ⟨[c], cs, rfl, c, rfl, ?_⟩) (List.cons_ne_nil _ _)
    rintro ⟨r, hr, -⟩
    cases hr

/-- A repeated class takes any stretch of its characters. -/
theorem repeats_class {M : List Nat → List Nat → List Nat → Prop}
    (hM : ∀ before text after, M before text after ↔ ∃ c, text = [c] ∧ P c) :
    Repeats M before text after ↔ ∀ c ∈ text, P c := by
  constructor
  · intro h
    induction h with
    | done => exact fun c hc => absurd hc List.not_mem_nil
    | more hfirst _ ih =>
      obtain ⟨c, rfl, hc⟩ := (hM _ _ _).mp hfirst
      exact List.forall_mem_cons.mpr ⟨hc, ih⟩
  · intro h
    induction text generalizing before with
    | nil => exact .done
    | cons c cs ih =>
      obtain ⟨hc, hcs⟩ := List.forall_mem_cons.mp h
      exact Repeats.more ((hM before [c] (cs ++ after)).mpr ⟨c, rfl, hc⟩) (ih hcs)

/-- A character of one class, then any stretch of another. -/
theorem matches_class_star {r s : Regex} {Q : Nat → Prop}
    (hr : ∀ before text after, r.Matches before text after ↔ ∃ c, text = [c] ∧ P c)
    (hs : ∀ before text after, s.Matches before text after ↔ ∃ c, text = [c] ∧ Q c) :
    (Regex.seq r (.star s)).Matches before text after ↔
      ∃ c cs, text = c :: cs ∧ P c ∧ ∀ x ∈ cs, Q x := by
  constructor
  · rintro ⟨first, rest, rfl, hfirst, hrest⟩
    obtain ⟨c, rfl, hc⟩ := (hr _ _ _).mp hfirst
    exact ⟨c, rest, rfl, hc, (repeats_class hs).mp hrest⟩
  · rintro ⟨c, cs, rfl, hc, hcs⟩
    exact ⟨[c], cs, rfl, (hr _ _ _).mpr ⟨c, rfl, hc⟩, (repeats_class hs).mpr hcs⟩

/-- Between the two anchors there is only the whole text. -/
theorem found_anchored (r : Regex) (text : List Nat) :
    (anchored r).Found text ↔ r.Matches [] text [] := by
  constructor
  · rintro ⟨before, middle, after, htext, first, rest, rfl, ⟨rfl, rfl⟩, whole, last, rfl, hr, hlast⟩
    obtain ⟨rfl, rfl⟩ := matches_endOfText.mp hlast
    simpa [htext] using hr
  · intro hr
    refine ⟨[], text, [], by simp, [], text, rfl, ⟨rfl, rfl⟩, text, [], by simp, by simpa using hr, ?_⟩
    exact matches_endOfText.mpr ⟨rfl, rfl⟩

end Regex

end FastGate.Text
