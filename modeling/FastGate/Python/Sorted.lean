/-
# FastGate.Python.Sorted — sorting by a key

`sorted` with a key function.  A sorted list forgets nothing but the order of what it sorts, as long as
different items have different keys; for a dictionary this means that the sorted entries tell what each
key maps to, and no more.
-/
import FastGate.Python.Value
import Mathlib.Data.List.Lex
import Mathlib.Data.List.Sort

namespace FastGate.Python

variable {α κ : Type} [LinearOrder κ]

/-- `sorted(xs, key=key)` -/
def sortedBy (key : α → κ) (xs : List α) : List α := xs.insertionSort fun a b => key a ≤ key b

theorem sortedBy_perm (key : α → κ) (xs : List α) : (sortedBy key xs).Perm xs :=
  List.perm_insertionSort _ xs

theorem pairwise_sortedBy (key : α → κ) (xs : List α) :
    (sortedBy key xs).Pairwise fun a b => key a ≤ key b := by
  have htotal : Std.Total fun a b : α => key a ≤ key b := ⟨fun a b => le_total (key a) (key b)⟩
  have htrans : IsTrans α fun a b => key a ≤ key b := ⟨fun _ _ _ => le_trans⟩
  exact List.pairwise_insertionSort _ xs

/-- Sorting tells two lists apart exactly when one is no rearrangement of the other. -/
theorem sortedBy_eq_iff {key : α → κ} {xs ys : List α}
    (hkey : ∀ a ∈ xs, ∀ b ∈ xs, key a = key b → a = b) :
    sortedBy key xs = sortedBy key ys ↔ xs.Perm ys := by
  constructor
  · intro h
    exact ((sortedBy_perm key xs).symm.trans (h ▸ List.Perm.refl _)).trans (sortedBy_perm key ys)
  · intro hperm
    refine List.Perm.eq_of_pairwise ?_ (pairwise_sortedBy key xs) (pairwise_sortedBy key ys)
      ((sortedBy_perm key xs).trans (hperm.trans (sortedBy_perm key ys).symm))
    intro a b ha hb hab hba
    have ha := (sortedBy_perm key xs).mem_iff.mp ha
    have hb := hperm.mem_iff.mpr ((sortedBy_perm key ys).mem_iff.mp hb)
    exact hkey a ha b hb (le_antisymm hab hba)

namespace Dict

/-- `[(key, d[key]) for key in sorted(d)]` -/
def sorted (d : Dict α) : Dict α := sortedBy (·.1) d

theorem mem_iff_get? {d : Dict α} (hd : d.keys.Nodup) {key : Str} {v : α} :
    (key, v) ∈ d ↔ d.get? key = some v := ⟨get?_of_mem hd, mem_of_get?⟩

/-- Dictionaries are rearrangements of each other when every key maps to the same. -/
theorem perm_iff {d e : Dict α} (hd : d.keys.Nodup) (he : e.keys.Nodup) :
    d.Perm e ↔ ∀ key, d.get? key = e.get? key := by
  rw [List.perm_ext_iff_of_nodup hd.of_map he.of_map]
  constructor
  · intro h key
    refine Option.ext fun v => ?_
    rw [← mem_iff_get? hd, ← mem_iff_get? he, h]
  · rintro h ⟨key, v⟩
    rw [mem_iff_get? hd, mem_iff_get? he, h]

theorem sorted_eq_iff {d e : Dict α} (hd : d.keys.Nodup) (he : e.keys.Nodup) :
    d.sorted = e.sorted ↔ ∀ key, d.get? key = e.get? key := by
  rw [← perm_iff hd he]
  refine sortedBy_eq_iff ?_
  rintro ⟨key, v⟩ hv ⟨key', w⟩ hw rfl
  rw [mem_iff_get? hd] at hv hw
  rw [Option.some.inj (hv.symm.trans hw)]

end Dict

end FastGate.Python
