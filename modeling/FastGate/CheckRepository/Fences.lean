/-
# FastGate.CheckRepository.Fences — the lines whose links are checked

`iter_markdown_links` of `scripts/check_repository.py`: one bit says whether the scan is inside a
fenced code block, and every line that looks like a fence flips it.  Over it stand the backtick fences
of CommonMark, whose blocks remember how long their opening fence is.  The scan sees the lines outside
the blocks exactly when the flips that are no fences come in pairs (`linesScanned_iff`).

* Python cuts a text at more characters than CommonMark does: a line may consist of several pieces, and
  the bit may flip in the middle of it.  A `Place` is one piece of one line; every line that the scan
  reads is at a place (`Place.exists_before`), and whether it is scanned decides about its links
  (`Place.iterMarkdownLinks_eq`).
* `strays` counts the pieces that look like a fence on lines that are none.  A fence flips the bit
  exactly once (`countP_isFence`), so bit and block differ by the parity of the strays
  (`inFenceAfter_lines`).
* `linesScanned_nested`: a longer fence around a shorter one, as documents about Markdown have it, leaves
  the bit set for the rest of the file.
-/
import FastGate.Python.Text
import Mathlib.Data.Nat.Bits

open FastGate.Python

namespace FastGate.CheckRepository

/-! ## The scan -/

/-- `MARKDOWN_LINK` at the start of a text: the group it captures and what follows the match. -/
def markdownLink (s : Str) : Option (Str × Str) :=
  let opened := if s.head? = some 0x21 then s.tail else s
  match opened with
  | 0x5B :: label =>
    match label.dropWhile (· ≠ 0x5D) with
    | 0x5D :: 0x28 :: rest =>
      let target := rest.takeWhile (· ≠ 0x29)
      match rest.dropWhile (· ≠ 0x29) with
      | 0x29 :: after => if target = [] then none else some (target, after)
      | _ => none
    | _ => none
  | _ => none

/-- `match.group(1).strip()` over `MARKDOWN_LINK.finditer(line)`. -/
def markdownLinks (line : Str) : List Str :=
  go line.length line
where
  /-- The matches that begin in the rest of the line, which the counter is long enough to scan. -/
  go : Nat → Str → List Str
    | 0, _ => []
    | _ + 1, [] => []
    | count + 1, c :: cs =>
      match markdownLink (c :: cs) with
      | some (target, after) => strip target :: go count after
      | none => go count cs

/-- `line.lstrip().startswith("```")` -/
def fenceLooking (line : Str) : Bool := (str "```").isPrefixOf (lstrip line)

/-- The loop of `iter_markdown_links`, from a line on. -/
def scanLines (lineNumber : Nat) (inFence : Bool) : List Str → List (Nat × Str)
  | [] => []
  | line :: lines =>
    if fenceLooking line then scanLines (lineNumber + 1) (!inFence) lines
    else if inFence then scanLines (lineNumber + 1) inFence lines
    else (markdownLinks line).map (fun target => (lineNumber, target)) ++
      scanLines (lineNumber + 1) inFence lines

/-- `iter_markdown_links`, for a file with the given text. -/
def iterMarkdownLinks (content : Str) : List (Nat × Str) :=
  scanLines 1 false (splitlines (universalNewlines content))

/-- `in_fence` after some lines. -/
def inFenceAfter (inFence : Bool) : List Str → Bool
  | [] => inFence
  | line :: lines => inFenceAfter (if fenceLooking line then !inFence else inFence) lines

/-- The loop reaches `links.extend` at a line. -/
def scanned (before : List Str) (line : Str) : Bool := !fenceLooking line && !inFenceAfter false before

theorem scanLines_append (n : Nat) (inFence : Bool) (before lines : List Str) :
    scanLines n inFence (before ++ lines) =
      scanLines n inFence before ++ scanLines (n + before.length) (inFenceAfter inFence before) lines := by
  induction before generalizing n inFence with
  | nil => rfl
  | cons line rest ih =>
    have hnumber : n + 1 + rest.length = n + (line :: rest).length := by
      rw [List.length_cons]
      omega
    simp only [List.cons_append, scanLines, inFenceAfter]
    split_ifs
    · rw [ih, hnumber]
    · rw [ih, hnumber]
    · rw [ih, hnumber, List.append_assoc]

/-- The links of a file are those of its scanned lines. -/
theorem iterMarkdownLinks_line {content line : Str} {before after : List Str}
    (h : splitlines (universalNewlines content) = before ++ line :: after) :
    iterMarkdownLinks content = scanLines 1 false before ++
      ((if scanned before line then
          (markdownLinks line).map fun target => (before.length + 1, target) else []) ++
        scanLines (before.length + 2) (inFenceAfter false (before ++ [line])) after) := by
  have hlast : ∀ (b : Bool) (lines : List Str), inFenceAfter b (lines ++ [line]) =
      if fenceLooking line then !inFenceAfter b lines else inFenceAfter b lines := by
    intro b lines
    induction lines generalizing b with
    | nil => rfl
    | cons first rest ih => exact ih _
  rw [iterMarkdownLinks, h, scanLines_append, hlast, Nat.add_comm 1]
  unfold scanned
  rw [scanLines]
  cases fenceLooking line <;> cases inFenceAfter false before <;> rfl

/-! ## Fenced code blocks -/

/-- A backtick. -/
def backtick : Nat := 0x60

/-- The spaces a line is indented with. -/
def indent (line : Str) : Str := line.takeWhile (· = 0x20)

/-- The backticks after the indentation. -/
def run (line : Str) : Str := (line.dropWhile (· = 0x20)).takeWhile (· = backtick)

/-- What follows the backticks: the info string, with the end of the line. -/
def info (line : Str) : Str := (line.dropWhile (· = 0x20)).dropWhile (· = backtick)

/-- An opening code fence. -/
def opensFence (line : Str) : Bool :=
  (indent line).length ≤ 3 ∧ 3 ≤ (run line).length ∧ backtick ∉ info line

/-- A closing code fence of a block that a fence of a given length opened. -/
def closesFence (length : Nat) (line : Str) : Bool :=
  (indent line).length ≤ 3 ∧ length ≤ (run line).length ∧
    ∀ c ∈ info line, c = 0x20 ∨ c = 0x09 ∨ c = lineFeed

/-- The line is a fence, where `block` is the length of the fence that opened the current block. -/
def isFence (block : Option Nat) (line : Str) : Bool :=
  match block with
  | none => opensFence line
  | some length => closesFence length line

/-- The block after a line. -/
def blockAfter (block : Option Nat) (line : Str) : Option Nat :=
  match block with
  | none => if opensFence line then some (run line).length else none
  | some length => if closesFence length line then none else some length

/-- The block in which the line after some lines stands. -/
def blockAt (ahead : List Str) : Option Nat := ahead.foldl blockAfter none

/-- The line is neither a fence nor inside a block. -/
def outsideFences (block : Option Nat) (line : Str) : Bool := block.isNone && !isFence block line

theorem line_parts (line : Str) : line = indent line ++ (run line ++ info line) := by
  unfold indent run info
  rw [List.takeWhile_append_dropWhile, List.takeWhile_append_dropWhile]

theorem mem_indent {line : Str} {c : Nat} (h : c ∈ indent line) : c = 0x20 := by
  have hc := List.mem_takeWhile_imp h
  exact of_decide_eq_true hc

theorem mem_run {line : Str} {c : Nat} (h : c ∈ run line) : c = backtick := by
  have hc := List.mem_takeWhile_imp h
  exact of_decide_eq_true hc

/-- The blocks that are open were opened by three backticks or more. -/
theorem blockAfter_length {block : Option Nat} {line : Str} (h : ∀ n ∈ block, 3 ≤ n) :
    ∀ n ∈ blockAfter block line, 3 ≤ n := by
  intro n hn
  cases block with
  | none =>
    have hn : n ∈ if opensFence line then some (run line).length else none := hn
    split at hn
    · rename_i hopens
      unfold opensFence at hopens
      cases hn
      exact (of_decide_eq_true hopens).2.1
    · cases hn
  | some opened =>
    have hn : n ∈ if closesFence opened line then none else some opened := hn
    split at hn
    · cases hn
    · cases hn
      exact h n rfl

/-- A fence opens or closes a block, another line does neither. -/
theorem blockAfter_isSome (block : Option Nat) (line : Str) :
    (blockAfter block line).isSome = (block.isSome ^^ isFence block line) := by
  cases block with
  | none =>
    show (if opensFence line then some (run line).length else none).isSome = (false ^^ opensFence line)
    cases opensFence line <;> rfl
  | some length =>
    show (if closesFence length line then none else some length).isSome =
      (true ^^ closesFence length line)
    cases closesFence length line <;> rfl

/-- A fence has its backticks, and neither of its kinds has one after them. -/
theorem isFence_shape {block : Option Nat} {line : Str} (hblock : ∀ n ∈ block, 3 ≤ n)
    (h : isFence block line = true) : 3 ≤ (run line).length ∧ backtick ∉ info line := by
  cases block with
  | none =>
    have h : opensFence line = true := h
    unfold opensFence at h
    exact (of_decide_eq_true h).2
  | some length =>
    have h : closesFence length line = true := h
    unfold closesFence at h
    obtain ⟨-, hrun, hinfo⟩ := of_decide_eq_true h
    refine ⟨Nat.le_trans (hblock length rfl) hrun, fun hmem => ?_⟩
    have hblank := hinfo backtick hmem
    revert hblank
    decide

/-! ## What the scan makes of a fence -/

theorem fenceLooking_backtick {piece : Str} (h : fenceLooking piece = true) : backtick ∈ piece := by
  have hprefix : str "```" <+: lstrip piece := List.isPrefixOf_iff_prefix.mp h
  have hmem : backtick ∈ lstrip piece := hprefix.subset (by decide)
  exact (List.dropWhile_sublist _).subset hmem

/-- Spaces and at least three backticks look like a fence. -/
theorem fenceLooking_front {spaces ticks : Str} (hspaces : ∀ c ∈ spaces, c = 0x20)
    (hticks : ∀ c ∈ ticks, c = backtick) (hlength : 3 ≤ ticks.length) (rest : Str) :
    fenceLooking (spaces ++ ticks ++ rest) = true := by
  obtain ⟨more, hmore⟩ : ∃ more, ticks = str "```" ++ more := by
    refine ⟨List.replicate (ticks.length - 3) backtick, ?_⟩
    have hthree : str "```" = List.replicate 3 backtick := rfl
    rw [hthree, List.replicate_append_replicate]
    refine List.eq_replicate_iff.mpr ⟨?_, hticks⟩
    omega
  unfold fenceLooking lstrip
  have hspace : ∀ c ∈ spaces, isSpace c = true := fun c hc => by
    rw [hspaces c hc]
    rfl
  rw [List.append_assoc, List.dropWhile_append_of_pos hspace, hmore, List.append_assoc]
  have hstop : (str "```" ++ (more ++ rest)).dropWhile isSpace = str "```" ++ (more ++ rest) :=
    List.dropWhile_cons_of_neg (by decide)
  rw [hstop]
  exact List.isPrefixOf_iff_prefix.mpr (List.prefix_append _ _)

/-- A closing fence is one piece. -/
theorem closesFence_piece {content line : Str} (hline : line ∈ commonLines content) {length : Nat}
    (hrun : 3 ≤ (run line).length) (h : closesFence length line = true) :
    ∃ piece, splitlines line = [piece] := by
  unfold closesFence at h
  obtain ⟨-, -, hinfo⟩ := of_decide_eq_true h
  -- a closing fence is made of spaces, backticks and blanks
  have hchars : ∀ c ∈ line, c ≠ lineFeed → isLineBoundary c = false := by
    intro c hc hfeed
    rw [line_parts line] at hc
    rcases List.mem_append.mp hc with hc | hc
    · rw [mem_indent hc]
      rfl
    · rcases List.mem_append.mp hc with hc | hc
      · rw [mem_run hc]
        rfl
      · rcases hinfo c hc with rfl | rfl | rfl
        · rfl
        · rfl
        · exact absurd rfl hfeed
  obtain ⟨body, hbody, hshape⟩ := commonLines_shape hline
  have hne : body ≠ [] := by
    rintro rfl
    rcases hshape with rfl | rfl <;> exact absurd hrun (by decide)
  have hplain : ∀ c ∈ body, isLineBoundary c = false := by
    intro c hc
    have hfeed : c ≠ lineFeed := fun heq => hbody (heq ▸ hc)
    refine hchars c ?_ hfeed
    rcases hshape with rfl | rfl
    · exact hc
    · exact List.mem_append_left _ hc
  refine ⟨body, ?_⟩
  rcases hshape with rfl | rfl
  · exact (splitlines_line hplain hne).1
  · exact (splitlines_line hplain hne).2

/-- The first piece of a fence looks like one, the others do not; a closing fence is one piece. -/
theorem isFence_pieces {content line : Str} (hline : line ∈ commonLines content) {block : Option Nat}
    (hblock : ∀ n ∈ block, 3 ≤ n) (h : isFence block line = true) :
    ∃ piece pieces, splitlines line = piece :: pieces ∧ fenceLooking piece = true ∧
      (∀ q ∈ pieces, fenceLooking q = false) ∧ (block.isSome = true → pieces = []) := by
  obtain ⟨hrun, hinfo⟩ := isFence_shape hblock h
  have hne : indent line ++ run line ≠ [] := by
    intro hnil
    rw [(List.append_eq_nil_iff.mp hnil).2] at hrun
    exact absurd hrun (by decide)
  -- no line boundary stands in the indentation or the run, so the first piece starts with both
  have hfront : ∀ c ∈ indent line ++ run line, isLineBoundary c = false := by
    intro c hc
    rcases List.mem_append.mp hc with hc | hc
    · rw [mem_indent hc]
      rfl
    · rw [mem_run hc]
      rfl
  have hparts : splitlines line = splitlines (indent line ++ run line ++ info line) := by
    rw [List.append_assoc, ← line_parts]
  rw [splitlines_append hfront hne] at hparts
  have hlooks := fenceLooking_front (fun c (hc : c ∈ indent line) => mem_indent hc) (fun c => mem_run) hrun
  have hclose : block.isSome = true → ∃ piece, splitlines line = [piece] := by
    intro hsome
    obtain ⟨length, rfl⟩ := Option.isSome_iff_exists.mp hsome
    exact closesFence_piece hline hrun h
  cases hpieces : splitlines (info line) with
  | nil =>
    rw [hpieces] at hparts
    refine ⟨_, [], hparts, ?_, fun q hq => absurd hq List.not_mem_nil, fun _ => rfl⟩
    have hlooks := hlooks []
    rwa [List.append_nil] at hlooks
  | cons piece pieces =>
    rw [hpieces] at hparts
    refine ⟨_, pieces, hparts, hlooks piece, fun q hq => ?_, fun hsome => ?_⟩
    · -- a later piece that looks like a fence would put a backtick into the info string
      refine Bool.eq_false_iff.mpr fun hq' => hinfo ?_
      have hmem : q ∈ splitlines (info line) := by
        rw [hpieces]
        exact List.mem_cons_of_mem _ hq
      exact mem_of_mem_splitlines hmem (fenceLooking_backtick hq')
    · obtain ⟨only, honly⟩ := hclose hsome
      rw [honly] at hparts
      exact (List.cons.inj hparts).2.symm

/-! ## Fence-looking lines against fences -/

/-- A piece of a line of a file, as `splitlines` cuts it, and what stands before it. -/
structure Place (content : Str) where
  ahead : List Str
  line : Str
  behind : List Str
  first : List Str
  piece : Str
  last : List Str
  lines : commonLines (universalNewlines content) = ahead ++ line :: behind
  pieces : splitlines line = first ++ piece :: last

namespace Place

variable {content : Str}

/-- The pieces that are read before. -/
def before (p : Place content) : List Str := p.ahead.flatMap splitlines ++ p.first

/-- The pieces that are read behind. -/
def after (p : Place content) : List Str := p.last ++ p.behind.flatMap splitlines

theorem splitlines_eq (p : Place content) :
    splitlines (universalNewlines content) = p.before ++ p.piece :: p.after := by
  rw [splitlines_commonLines, p.lines, List.flatMap_append, List.flatMap_cons, p.pieces, before, after,
    List.append_assoc, List.append_assoc, List.cons_append]

/-- A piece of a text that is cut twice is a piece of one of its parts. -/
theorem exists_flatMap {α β : Type} {f : α → List β} {xs : List α} {before after : List β} {b : β}
    (h : xs.flatMap f = before ++ b :: after) : ∃ ahead x behind first last,
      xs = ahead ++ x :: behind ∧ f x = first ++ b :: last ∧ before = ahead.flatMap f ++ first := by
  induction xs generalizing before with
  | nil => exact absurd h.symm (List.append_ne_nil_of_right_ne_nil _ (List.cons_ne_nil _ _))
  | cons x xs ih =>
    rw [List.flatMap_cons] at h
    rcases List.append_eq_append_iff.mp h with ⟨rest, rfl, hrest⟩ | ⟨rest, hx, hrest⟩
    · obtain ⟨ahead, y, behind, first, last, rfl, hy, rfl⟩ := ih hrest
      exact ⟨x :: ahead, y, behind, first, last, rfl, hy, (List.append_assoc _ _ _).symm⟩
    · cases rest with
      | nil =>
        rw [List.append_nil] at hx
        obtain ⟨ahead, y, behind, first, last, rfl, hy, hnil⟩ := @ih [] hrest.symm
        refine ⟨x :: ahead, y, behind, first, last, rfl, hy, ?_⟩
        rw [List.flatMap_cons, List.append_assoc, ← hnil, List.append_nil, hx]
      | cons c rest =>
        obtain ⟨rfl, -⟩ := List.cons.inj hrest
        exact ⟨[], x, xs, before, rest, rfl, hx, rfl⟩

/-- Every line that the scan reads is at a place. -/
theorem exists_before {before after : List Str} {piece : Str}
    (h : splitlines (universalNewlines content) = before ++ piece :: after) :
    ∃ p : Place content, p.before = before ∧ p.piece = piece := by
  rw [splitlines_commonLines] at h
  obtain ⟨ahead, line, behind, first, last, hlines, hpieces, rfl⟩ := exists_flatMap h
  exact ⟨⟨ahead, line, behind, first, piece, last, hlines, hpieces⟩, rfl, rfl⟩

/-- The links of a file are those before a place, those of its piece if it is scanned, and those behind. -/
theorem iterMarkdownLinks_eq (p : Place content) : iterMarkdownLinks content =
    scanLines 1 false p.before ++
      ((if scanned p.before p.piece then
          (markdownLinks p.piece).map fun target => (p.before.length + 1, target) else []) ++
        scanLines (p.before.length + 2) (inFenceAfter false (p.before ++ [p.piece])) p.after) :=
  iterMarkdownLinks_line p.splitlines_eq

end Place

/-- The scan reads exactly the lines outside fenced code blocks. -/
def LinesScanned (content : Str) : Prop :=
  ∀ p : Place content, scanned p.before p.piece = outsideFences (blockAt p.ahead) p.line

/-- The pieces that look like a fence and stand on lines that are none. -/
def strays (block : Option Nat) : List Str → Nat
  | [] => 0
  | line :: lines =>
    (if isFence block line then 0 else (splitlines line).countP fenceLooking) +
      strays (blockAfter block line) lines

/-- The strays before a piece. -/
def Place.strays {content : Str} (p : Place content) : Nat :=
  CheckRepository.strays none p.ahead +
    if isFence (blockAt p.ahead) p.line then 0 else p.first.countP fenceLooking

/-- Nothing outside the blocks looks like a fence, and strays come in pairs with nothing between. -/
def StraysPaired (content : Str) : Prop :=
  ∀ p : Place content,
    if fenceLooking p.piece then outsideFences (blockAt p.ahead) p.line = false else Even p.strays

/-! ## One bit against the blocks -/

/-- Every piece that looks like a fence flips the bit. -/
theorem inFenceAfter_bodd (inFence : Bool) (pieces : List Str) :
    inFenceAfter inFence pieces = (inFence ^^ (pieces.countP fenceLooking).bodd) := by
  induction pieces generalizing inFence with
  | nil => simp [inFenceAfter]
  | cons piece pieces ih =>
    rw [inFenceAfter, ih, List.countP_cons]
    cases fenceLooking piece
    · rfl
    · simp

theorem inFenceAfter_append (inFence : Bool) (first last : List Str) :
    inFenceAfter inFence (first ++ last) = inFenceAfter (inFenceAfter inFence first) last := by
  induction first generalizing inFence with
  | nil => rfl
  | cons piece pieces ih => exact ih _

/-- A fence flips the bit once. -/
theorem countP_isFence {content line : Str} (hline : line ∈ commonLines content) {block : Option Nat}
    (hblock : ∀ n ∈ block, 3 ≤ n) (h : isFence block line = true) :
    (splitlines line).countP fenceLooking = 1 := by
  obtain ⟨piece, pieces, hpieces, hpiece, hothers, -⟩ := isFence_pieces hline hblock h
  have hzero : pieces.countP fenceLooking = 0 :=
    List.countP_eq_zero.mpr fun q hq => by rw [hothers q hq]; exact Bool.false_ne_true
  rw [hpieces, List.countP_cons, hzero, if_pos hpiece]

/-- The fences of a line go from the bit to the block, the strays stay with the bit. -/
theorem xor_line : ∀ inFence block fence later strays strays' : Bool,
    ((inFence ^^ (fence ^^ strays)) ^^ ((block ^^ fence) ^^ (later ^^ strays'))) =
      (inFence ^^ (block ^^ (later ^^ (strays ^^ strays')))) := by
  decide

/-- The flips of a line are its fence and its strays. -/
theorem bodd_line {content line : Str} (hline : line ∈ commonLines content) {block : Option Nat}
    (hblock : ∀ n ∈ block, 3 ≤ n) :
    ((splitlines line).countP fenceLooking).bodd = (isFence block line ^^
      (if isFence block line then 0 else (splitlines line).countP fenceLooking).bodd) := by
  cases hfence : isFence block line with
  | true =>
    rw [countP_isFence hline hblock hfence]
    rfl
  | false => exact (Bool.false_xor _).symm

/-- The bit says whether a block is open, up to the parity of the strays. -/
theorem inFenceAfter_lines {content : Str} {lines : List Str} (hlines : lines ⊆ commonLines content)
    {block : Option Nat} (hblock : ∀ n ∈ block, 3 ≤ n) (inFence : Bool) :
    inFenceAfter inFence (lines.flatMap splitlines) =
      (inFence ^^ (block.isSome ^^ ((lines.foldl blockAfter block).isSome ^^ (strays block lines).bodd))) ∧
    ∀ n ∈ lines.foldl blockAfter block, 3 ≤ n := by
  induction lines generalizing block inFence with
  | nil =>
    refine ⟨?_, hblock⟩
    simp only [List.flatMap_nil, inFenceAfter, List.foldl_nil, strays, Nat.bodd_zero, Bool.xor_false,
      Bool.xor_self]
  | cons line lines ih =>
    obtain ⟨hline, hlines⟩ := List.cons_subset.mp hlines
    have hnext : ∀ n ∈ blockAfter block line, 3 ≤ n := blockAfter_length hblock
    obtain ⟨hbit, hlength⟩ := ih hlines hnext
      (inFence ^^ ((splitlines line).countP fenceLooking).bodd)
    refine ⟨?_, hlength⟩
    rw [List.flatMap_cons, inFenceAfter_append, inFenceAfter_bodd inFence, hbit, blockAfter_isSome,
      bodd_line hline hblock, xor_line, strays, Nat.bodd_add, List.foldl_cons]

theorem even_iff_bodd (n : Nat) : Even n ↔ n.bodd = false := by
  rw [Nat.even_iff, Nat.mod_two_of_bodd]
  cases n.bodd <;> decide

/-- The bit at a piece of a line. -/
theorem inFenceAfter_place {content : Str} (p : Place content) :
    inFenceAfter false p.before = (((blockAt p.ahead).isSome ^^ (strays none p.ahead).bodd) ^^
      (p.first.countP fenceLooking).bodd) ∧ ∀ n ∈ blockAt p.ahead, 3 ≤ n := by
  have hahead : p.ahead ⊆ commonLines (universalNewlines content) := by
    rw [p.lines]
    exact List.subset_append_left _ _
  have hnone : ∀ n ∈ (none : Option Nat), 3 ≤ n := fun n hn => by cases hn
  obtain ⟨hbit, hblock⟩ := inFenceAfter_lines hahead hnone false
  refine ⟨?_, hblock⟩
  unfold Place.before
  rw [inFenceAfter_append, inFenceAfter_bodd, hbit, Option.isSome_none, Bool.false_xor, Bool.false_xor]
  rfl

/-- On a fence, a piece that does not look like one stands behind the fence that opens a block. -/
theorem isFence_place {content : Str} (p : Place content) (hblock : ∀ n ∈ blockAt p.ahead, 3 ≤ n)
    (hpiece : fenceLooking p.piece = false) (hfence : isFence (blockAt p.ahead) p.line = true) :
    p.first.countP fenceLooking = 1 ∧ (blockAt p.ahead).isSome = false := by
  have hline : p.line ∈ commonLines (universalNewlines content) := by
    rw [p.lines]
    exact List.mem_append_right _ List.mem_cons_self
  obtain ⟨piece, pieces, hpieces, hlooks, hothers, hclose⟩ := isFence_pieces hline hblock hfence
  have hsplit := hpieces.symm.trans p.pieces
  cases hfirst : p.first with
  | nil =>
    rw [hfirst, List.nil_append] at hsplit
    rw [(List.cons.inj hsplit).1, hpiece] at hlooks
    cases hlooks
  | cons q qs =>
    rw [hfirst, List.cons_append] at hsplit
    obtain ⟨rfl, hrest⟩ := List.cons.inj hsplit
    constructor
    · have hzero : qs.countP fenceLooking = 0 := List.countP_eq_zero.mpr fun x hx => by
        rw [hothers x (hrest ▸ List.mem_append_left _ hx)]
        exact Bool.false_ne_true
      rw [List.countP_cons, hzero, if_pos hlooks]
    · refine Bool.eq_false_iff.mpr fun hsome => ?_
      rw [hclose hsome] at hrest
      exact absurd hrest.symm (by simp)

/-- At one place, the scan is right exactly when the place meets the condition. -/
theorem scanned_place {content : Str} (p : Place content) :
    scanned p.before p.piece = outsideFences (blockAt p.ahead) p.line ↔
      if fenceLooking p.piece then outsideFences (blockAt p.ahead) p.line = false
      else Even p.strays := by
  obtain ⟨hbit, hblock⟩ := inFenceAfter_place p
  unfold scanned
  cases hpiece : fenceLooking p.piece with
  | true =>
    rw [if_pos rfl]
    exact eq_comm
  | false =>
    rw [if_neg Bool.false_ne_true, even_iff_bodd, hbit]
    unfold Place.strays outsideFences
    cases hfence : isFence (blockAt p.ahead) p.line with
    | true =>
      obtain ⟨hcount, hnone⟩ := isFence_place p hblock hpiece hfence
      rw [hcount, hnone, if_pos rfl, Nat.add_zero]
      cases (strays none p.ahead).bodd <;> simp
    | false =>
      rw [if_neg Bool.false_ne_true, Nat.bodd_add, ← Option.not_isSome]
      cases (blockAt p.ahead).isSome <;> cases (strays none p.ahead).bodd <;>
        cases (p.first.countP fenceLooking).bodd <;> decide

/-- **The scan reads the lines outside the blocks exactly when the strays are paired.** -/
theorem linesScanned_iff (content : Str) : LinesScanned content ↔ StraysPaired content :=
  forall_congr' scanned_place

/-- A longer fence around a shorter one leaves the bit set behind it, and a link there is not seen. -/
theorem linesScanned_nested :
    iterMarkdownLinks (str "````\n```\n````\n[x](missing.md)\n") = [] ∧
      ¬ LinesScanned (str "````\n```\n````\n[x](missing.md)\n") := by
  refine ⟨by decide, fun h => ?_⟩
  have hplace := h {
    ahead := [str "````\n", str "```\n", str "````\n"], line := str "[x](missing.md)\n", behind := []
    first := [], piece := str "[x](missing.md)", last := []
    lines := by decide, pieces := by decide +kernel }
  revert hplace
  decide

end FastGate.CheckRepository
