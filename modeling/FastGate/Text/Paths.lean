/-
# FastGate.Text.Paths — going through a path

A path is a list of parts, one of which leads up to the parent; the parent of the outermost folder is
that folder itself.  `resolve` goes through a path from a folder, and `pathTo` is a path from one folder
to another: up to what the two share and down from there.
-/
import Mathlib.Data.List.DropRight

namespace FastGate.Paths

variable {α : Type*} [DecidableEq α] (up : α)

/-- Where one part leads. -/
def enter (here : List α) (part : α) : List α := if part = up then here.dropLast else here ++ [part]

/-- Where a path leads from a folder. -/
def resolve (here path : List α) : List α := path.foldl (enter up) here

@[simp] theorem resolve_nil (here : List α) : resolve up here [] = here := rfl

theorem resolve_cons (here : List α) (part : α) (path : List α) :
    resolve up here (part :: path) = resolve up (enter up here part) path := rfl

/-- Paths are followed one after the other. -/
theorem resolve_append (here path more : List α) :
    resolve up here (path ++ more) = resolve up (resolve up here path) more := List.foldl_append

variable {up}

theorem resolve_down {path : List α} (h : up ∉ path) (here : List α) : resolve up here path = here ++ path := by
  induction path generalizing here with
  | nil => exact (List.append_nil here).symm
  | cons part path ih =>
    have hne : part ≠ up := fun heq => h (List.mem_cons.mpr (Or.inl heq.symm))
    have hpart : enter up here part = here ++ [part] := if_neg hne
    rw [resolve_cons, hpart, ih fun hmem => h (List.mem_cons_of_mem _ hmem), List.append_assoc,
      List.singleton_append]

theorem resolve_up (n : Nat) (here : List α) : resolve up here (List.replicate n up) = here.rdrop n := by
  induction n generalizing here with
  | zero => exact (List.rdrop_zero here).symm
  | succ n ih =>
    have hparent : enter up here up = here.dropLast := if_pos rfl
    rw [List.replicate_succ, resolve_cons, hparent, ih, List.rdrop, List.rdrop, List.length_dropLast,
      List.dropLast_eq_take, List.take_take]
    congr 1
    omega

/-- No folder above a folder is left when the path goes up no further than that. -/
theorem resolve_below (root here path : List α) {n : Nat} (hn : n ≤ here.length) (hdown : up ∉ path) :
    resolve up (root ++ here) (List.replicate n up ++ path) = root ++ (here.rdrop n ++ path) := by
  have hlength : (root ++ here).length - n = root.length + (here.length - n) := by
    rw [List.length_append]
    omega
  rw [resolve_append, resolve_up, resolve_down hdown, List.rdrop, hlength, List.take_length_add_append,
    List.append_assoc, List.rdrop]

/-! ## From one folder to another -/

/-- How many folders two paths go through together. -/
def shared : List α → List α → Nat
  | a :: as, b :: bs => if a = b then shared as bs + 1 else 0
  | _, _ => 0

theorem shared_le (here there : List α) : shared here there ≤ here.length := by
  fun_induction shared here there with
  | case1 a as bs ih => exact Nat.succ_le_succ ih
  | case2 => exact Nat.zero_le _
  | case3 => exact Nat.zero_le _

theorem take_shared (here there : List α) :
    here.take (shared here there) = there.take (shared here there) := by
  fun_induction shared here there with
  | case1 a as bs ih => rw [List.take_succ_cons, List.take_succ_cons, ih]
  | case2 => rfl
  | case3 => rfl

variable (up)

/-- How a path goes from one folder to another. -/
def pathTo (here there : List α) : List α :=
  List.replicate (here.length - shared here there) up ++ there.drop (shared here there)

variable {up}

/-- The path from a folder to another leads there, wherever the two lie. -/
theorem resolve_pathTo (root here : List α) {there : List α} (h : up ∉ there) :
    resolve up (root ++ here) (pathTo up here there) = root ++ there := by
  have hlength : here.length - (here.length - shared here there) = shared here there :=
    Nat.sub_sub_self (shared_le here there)
  have hdown : up ∉ there.drop (shared here there) := fun hmem => h (List.mem_of_mem_drop hmem)
  rw [pathTo, resolve_below root here _ (Nat.sub_le _ _) hdown, List.rdrop, hlength, take_shared,
    List.take_append_drop]

end FastGate.Paths
