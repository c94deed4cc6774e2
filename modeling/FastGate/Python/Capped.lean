/-
# FastGate.Python.Capped — error lists with a limit

Checkers that walk a tree, append what they find to one list and stop appending at a limit.  Such a
list is empty exactly when nothing was wrong: `Reports limit before after P` is the invariant from
which that follows, for one check and for any sequence of them.  `Appends limit f new` tells the list
itself: it is the sequence of everything there is to find, cut off at the limit.
-/
import Mathlib.Data.List.Basic

namespace FastGate.Python

variable {α β : Type}

/-- Append an entry unless the list is full. -/
def addCapped (limit : Nat) (log : List α) (entry : α) : List α :=
  if log.length < limit then log ++ [entry] else log

/-- `after` continues `before`; as long as there was room, it adds nothing exactly when `P` holds. -/
def Reports (limit : Nat) (before after : List α) (P : Prop) : Prop :=
  ∃ new, after = before ++ new ∧ (before.length < limit → (new = [] ↔ P))

namespace Reports

variable {limit : Nat} {before between after : List α} {P Q : Prop}

/-- A check that passes leaves the list alone. -/
theorem pass (hP : P) : Reports limit before before P :=
  ⟨[], (List.append_nil before).symm, fun _ => iff_of_true rfl hP⟩

/-- A full list stays as it is. -/
theorem full (h : limit ≤ before.length) : Reports limit before before P :=
  ⟨[], (List.append_nil before).symm, fun hroom => absurd hroom (Nat.not_lt.mpr h)⟩

/-- A check that fails adds an entry. -/
theorem fail (hP : ¬ P) (entry : α) : Reports limit before (addCapped limit before entry) P := by
  rw [addCapped]
  split
  · exact ⟨[entry], rfl, fun _ => iff_of_false (List.cons_ne_nil _ _) hP⟩
  · rename_i hfull
    exact full (Nat.not_lt.mp hfull)

theorem congr (hPQ : P ↔ Q) (h : Reports limit before after P) : Reports limit before after Q := by
  obtain ⟨new, hafter, hnew⟩ := h
  exact ⟨new, hafter, fun hroom => (hnew hroom).trans hPQ⟩

/-- Two checks, one after the other. -/
theorem trans (hP : Reports limit before between P) (hQ : Reports limit between after Q) :
    Reports limit before after (P ∧ Q) := by
  obtain ⟨new, rfl, hnew⟩ := hP
  obtain ⟨more, rfl, hmore⟩ := hQ
  refine ⟨new ++ more, List.append_assoc _ _ _, fun hroom => ?_⟩
  rw [List.append_eq_nil_iff, ← hnew hroom]
  refine and_congr_right fun hnil => ?_
  subst hnil
  exact hmore (by simpa using hroom)

/-- A loop of checks. -/
theorem foldl {f : List α → β → List α} {P : β → Prop} {xs : List β}
    (h : ∀ x ∈ xs, ∀ log, Reports limit log (f log x) (P x)) (log : List α) :
    Reports limit log (xs.foldl f log) (∀ x ∈ xs, P x) := by
  induction xs generalizing log with
  | nil => exact pass fun x hx => absurd hx List.not_mem_nil
  | cons x xs ih =>
    have hx := h x List.mem_cons_self log
    have hxs := ih (fun y hy => h y (List.mem_cons_of_mem _ hy)) (f log x)
    exact (hx.trans hxs).congr List.forall_mem_cons.symm

/-- A run that starts with the empty list ends with it exactly when nothing was wrong. -/
theorem eq_nil_iff (hlimit : 0 < limit) (h : Reports limit [] after P) : after = [] ↔ P := by
  obtain ⟨new, rfl, hnew⟩ := h
  exact hnew hlimit

end Reports

/-! ## The limit -/

/-- A list within the limit is continued by one within the limit. -/
def Within (limit : Nat) (before after : List α) : Prop := before.length ≤ limit → after.length ≤ limit

namespace Within

variable {limit : Nat} {before between after : List α}

theorem refl (log : List α) : Within limit log log := id

theorem add (log : List α) (entry : α) : Within limit log (addCapped limit log entry) := by
  intro hlog
  unfold addCapped
  split
  · rename_i hroom
    rw [List.length_append]
    exact hroom
  · exact hlog

theorem trans (h : Within limit before between) (h' : Within limit between after) :
    Within limit before after := fun hlog => h' (h hlog)

theorem foldl {f : List α → β → List α} {xs : List β} (h : ∀ x ∈ xs, ∀ log, Within limit log (f log x))
    (log : List α) : Within limit log (xs.foldl f log) := by
  induction xs generalizing log with
  | nil => exact refl log
  | cons x xs ih =>
    have hx := h x List.mem_cons_self log
    exact hx.trans (ih (fun y hy => h y (List.mem_cons_of_mem _ hy)) (f log x))

end Within

/-! ## The whole sequence

For one list that is filled to its limit a run can be told exactly: it is the run without a limit, cut
off.  `Appends limit f new` says so of a step that finds `new`. -/

/-- The step never raises, and appends `new` as far as there is room. -/
def Appends {ε : Type} (limit : Nat) (f : List α → Except ε (List α)) (new : List α) : Prop :=
  ∀ log, log.length ≤ limit → f log = .ok ((log ++ new).take limit)

namespace Appends

variable {ε : Type} {limit : Nat} {f g : List α → Except ε (List α)} {new more : List α}

theorem pass : Appends limit (fun log => (.ok log : Except ε (List α))) [] := by
  intro log hlog
  rw [List.append_nil, List.take_of_length_le hlog]

theorem add (entry : α) :
    Appends limit (fun log => (.ok (addCapped limit log entry) : Except ε (List α))) [entry] := by
  intro log hlog
  show Except.ok (if log.length < limit then log ++ [entry] else log) = .ok _
  split
  · rename_i hroom
    rw [List.take_of_length_le (by rw [List.length_append]; exact hroom)]
  · rename_i hfull
    rw [List.take_append_of_le_length (Nat.not_lt.mp hfull), List.take_of_length_le hlog]

/-- One step after the other. -/
theorem bind (hf : Appends limit f new) (hg : Appends limit g more) :
    Appends limit (fun log => f log >>= g) (new ++ more) := by
  intro log hlog
  show (f log >>= g) = _
  rw [hf log hlog]
  show g _ = _
  rw [hg _ (List.length_take_le _ _), ← List.append_assoc]
  by_cases hroom : (log ++ new).length ≤ limit
  · rw [List.take_of_length_le hroom]
  · have hfull : limit ≤ (log ++ new).length := Nat.le_of_not_le hroom
    rw [List.take_append_of_le_length hfull, List.take_append_of_le_length, List.take_take, Nat.min_self]
    exact Nat.le_of_eq (by rw [List.length_take, Nat.min_eq_left hfull])

/-- A step that is skipped when the list is full. -/
theorem skip (hf : Appends limit f new) :
    Appends limit (fun log => if limit ≤ log.length then .ok log else f log) new := by
  intro log hlog
  show (if limit ≤ log.length then .ok log else f log) = _
  split
  · rename_i hfull
    rw [List.take_append_of_le_length hfull, List.take_of_length_le hlog]
  · exact hf log hlog

theorem of_eq (h : ∀ log, f log = g log) (hg : Appends limit g new) : Appends limit f new :=
  fun log hlog => (h log).trans (hg log hlog)

theorem congr (h : new = more) (hf : Appends limit f new) : Appends limit f more := h ▸ hf

/-- A run from the empty list. -/
theorem run (hf : Appends limit f new) : f [] = .ok (new.take limit) := hf [] (Nat.zero_le _)

end Appends

end FastGate.Python
