/-
# FastGate.CheckContract.Tree — the files of the contract

The contract directory as a finite map from paths to contents: regular files only, no symlinks, and
unchanged while the checker runs.  A path is the list of its components, relative to the directory.
-/
import FastGate.CheckContract.StrictJson

open FastGate.Python
open FastGate.Utf8 (Bytes)

namespace FastGate.CheckContract

/-- A relative `Path`, by its parts. -/
abbrev Path := List Str

/-- Paths are compared by their parts. -/
instance : LawfulBEq Path := inferInstanceAs (LawfulBEq (List (List Nat)))

/-- A path from its literal. -/
def path (parts : List String) : Path := parts.map str

/-- The regular files below the contract directory.  No path occurs twice, and a file is no directory
for another one. -/
structure Tree where
  files : List (Path × Bytes)
  distinct : (files.map (·.1)).Nodup
  leaves : ∀ p ∈ files.map (·.1), ∀ q ∈ files.map (·.1), p <+: q → p = q

namespace Tree

/-- The paths of the files. -/
def paths (tree : Tree) : List Path := tree.files.map (·.1)

/-- `path.open("rb")`: the contents of a file, if there is one. -/
def read (tree : Tree) (p : Path) : Option Bytes := (tree.files.find? fun file => file.1 == p).map (·.2)

/-- `path.is_file()` -/
def isFile (tree : Tree) (p : Path) : Bool := p ∈ tree.paths

/-- `os.walk(root)`: the files below a directory. -/
def walk (tree : Tree) (root : Path) : List Path := tree.paths.filter fun p => root <+: p ∧ root ≠ p

theorem mem_walk {tree : Tree} {root p : Path} :
    p ∈ tree.walk root ↔ p ∈ tree.paths ∧ root <+: p ∧ root ≠ p := by
  rw [walk, List.mem_filter, decide_eq_true_eq]

theorem exists_read {tree : Tree} {p : Path} (h : p ∈ tree.paths) : ∃ raw, tree.read p = some raw := by
  obtain ⟨file, hfile, rfl⟩ := List.mem_map.mp h
  rw [read]
  cases hfind : tree.files.find? fun other => other.1 == file.1 with
  | none => exact absurd (List.find?_eq_none.mp hfind file hfile) (by simp)
  | some other => exact ⟨other.2, rfl⟩

end Tree

/-! ## Paths of the manifest -/

/-- The parts of `Path(raw)`: empty parts and single dots disappear. -/
def pathParts (raw : Str) : Path := (raw.splitOn 0x2F).filter fun part => part ≠ [] ∧ part ≠ str "."

/-- `path.is_absolute()` for the path that `raw` spells. -/
def isAbsolute (raw : Str) : Bool := raw.head? == some 0x2F

/-- `path.as_posix()` of a relative path. -/
def asPosix (parts : Path) : Str := if parts = [] then str "." else [0x2F].intercalate parts

/-- `safe_file`, for a tree without symlinks.  A path with a component that is too long for the file system
leads to nothing here; `Path.is_symlink` raises an `OSError` for it. -/
def safeFile (tree : Tree) (rawPath : Value) (under : Path) : Except Str Path :=
  match rawPath with
  | .str raw =>
    if raw = [] ∨ raw.length > maxPathLength then
      .error (str "path must be a bounded non-empty string")
    else
      let relative := pathParts raw
      if isAbsolute raw = true ∨ asPosix relative ≠ raw ∨ str ".." ∈ relative then
        .error (str "path must be a normalized contract-relative path")
      else if ¬ under <+: relative then .error (str "path must be under " ++ asPosix under)
      else if ¬ tree.isFile relative then .error (str "path must name an existing regular file")
      else .ok relative
  | _ => .error (str "path must be a bounded non-empty string")

/-- A path that is accepted is spelled the only way it can be, and it leads to a file. -/
theorem safeFile_ok {tree : Tree} {rawPath : Value} {under p : Path}
    (h : safeFile tree rawPath under = .ok p) :
    ∃ raw, rawPath = .str raw ∧ pathParts raw = p ∧ asPosix p = raw ∧ under <+: p ∧ p ∈ tree.paths := by
  unfold safeFile at h
  split at h
  · rename_i raw
    split at h
    · cases h
    dsimp only at h
    split at h
    · cases h
    rename_i hnormal
    split at h
    · cases h
    rename_i hunder
    split at h
    · cases h
    rename_i hfile
    cases h
    simp only [not_or, not_not] at hnormal hunder
    exact ⟨raw, rfl, rfl, hnormal.2.1, hunder, by simpa [Tree.isFile] using hfile⟩
  · cases h

end FastGate.CheckContract
