/-
# FastGate.CheckRepository.Links — the links of a document

`check_markdown_links` of `scripts/check_repository.py`, on a working tree without symbolic links: the
links that `iter_markdown_links` finds, less those that lead away, are followed to the files they name.
A `Checkout` says of every path whether something is there, or that the file system raises.

A document is written down from its blocks, and its links from what they lead to:

* a `FileReference` is a text that decodes to a path, spelled in any of the ways `unquote` understands,
  with a query or a fragment behind it; an address that leads away is kept as it is;
* a `Link` adds a label, a title, blanks and angle brackets, or the mark of an image;
* a `Block` is a line of such links and plain pieces, or a fenced block.  Plain pieces have no opening
  bracket, labels no closing one and targets no closing parenthesis, which is where the pattern of the
  checker and CommonMark part.

`checkMarkdownLinks_document` says that the check finds again what was written: it reports the links
that lead out of the repository or to nothing, in order and with their line numbers, and raises exactly
when following one of them does.  `Link.errors_pathTo` adds that a link that is written as the way from
its document to a file is passed exactly when the file is there.
-/
import FastGate.CheckContract.Tree
import FastGate.CheckRepository.Fences
import FastGate.CheckRepository.Files
import FastGate.Python.Url
import FastGate.Text.Paths

open FastGate.Python
open FastGate.CheckContract (pathParts isAbsolute)
open FastGate.Paths (resolve pathTo resolve_pathTo)

namespace FastGate.CheckRepository

/-! ## The check -/

/-- A working tree without symbolic links: the directory it is in, and what `path.exists()` answers of the
paths below it.  It raises, and there is no answer, where the file system refuses to look: at a part of
more than 255 bytes, say, or below a folder that may not be searched. -/
structure Checkout where
  root : Path
  present : Path → Option Bool

/-- `markdown_destination` -/
def markdownDestination (rawTarget : Str) : Str :=
  match strip rawTarget with
  | 0x3C :: rest =>
    if 0x3E ∈ rest then rest.takeWhile (· ≠ 0x3E) else (0x3C :: rest).takeWhile fun c => !isSpace c
  | stripped => stripped.takeWhile fun c => !isSpace c

/-- How the targets that are not followed begin. -/
def schemes : List Str := [str "#", str "http://", str "https://", str "mailto:"]

/-- The part that leads to the parent. -/
def parent : Str := str ".."

/-- `path.parent / file_target`, resolved from the root of the file system. -/
def destinationOf (checkout : Checkout) (path : Path) (fileTarget : Str) : Path :=
  resolve parent (if isAbsolute fileTarget then [] else checkout.root ++ path.dropLast) (pathParts fileTarget)

/-- What is reported of a link that leads to a place; none if it cannot be looked at. -/
def linkErrors (checkout : Checkout) (path : Path) (lineNumber : Nat) (target : Str) (destination : Path) :
    Option (List Str) :=
  let place := path.relative ++ str ":" ++ decimalText lineNumber ++ str ": " ++ target
  if ¬ checkout.root <+: destination then some [str "link escapes repository: " ++ place]
  else
    (checkout.present (destination.drop checkout.root.length)).map fun found =>
      if found then [] else [str "broken local link: " ++ place]

/-- One link of the loop of `check_markdown_links`.  A path with a null character raises. -/
def checkLink (checkout : Checkout) (path : Path) (link : Nat × Str) : Option (List Str) :=
  let target := markdownDestination link.2
  if target = [] ∨ schemes.any (· <+: target) then some []
  else
    let fileTarget := unquote ((target.takeWhile (· ≠ 0x23)).takeWhile (· ≠ 0x3F))
    if fileTarget = [] then some []
    else if 0 ∈ fileTarget then none
    else linkErrors checkout path link.1 target (destinationOf checkout path fileTarget)

/-- `check_markdown_links`, for a file with the given text. -/
def checkMarkdownLinks (checkout : Checkout) (path : Path) (content : Str) : Option (List Str) :=
  ((iterMarkdownLinks content).mapM (checkLink checkout path)).map List.flatten

/-! ## Documents -/

/-- A path, as it is written in a link: the text it stands for, that text with any of its characters
written by their bytes, and the query or fragment behind it. -/
structure FileReference where
  text : List Char
  quoted : Str
  suffix : Str
  written : Quoted quoted text
  unended : 0x23 ∉ quoted ∧ 0x3F ∉ quoted
  behind : ∀ c ∈ suffix.head?, c = 0x23 ∨ c = 0x3F
  named : quoted ++ suffix ≠ []
  follow : ∀ scheme ∈ schemes, ¬ scheme <+: quoted ++ suffix

/-- The path that is meant. -/
def FileReference.target (reference : FileReference) : Str := reference.text.map Char.toNat

/-- What a link leads to. -/
inductive Destination where
  | away (text : Str) (scheme : ∃ scheme ∈ schemes, scheme <+: text)
  | file (reference : FileReference)

/-- A destination as it is written. -/
def Destination.text : Destination → Str
  | .away text _ => text
  | .file reference => reference.quoted ++ reference.suffix

/-- Whether the end of a destination can be seen. -/
def Delimited (angle : Bool) (destination title : Str) : Prop :=
  if angle then 0x3E ∉ destination
  else (∀ c ∈ destination, isSpace c = false) ∧ destination.head? ≠ some 0x3C ∧ ∀ c ∈ title.head?, isSpace c = true

/-- What stands between the brackets of a link. -/
def linkTarget (blanks : Str) (angle : Bool) (destination title : Str) : Str :=
  blanks ++ ((if angle then 0x3C :: (destination ++ [0x3E]) else destination) ++ title)

/-- A link or an image. -/
structure Link where
  image : Bool
  label : Str
  blanks : Str
  angle : Bool
  destination : Destination
  title : Str
  label_closed : 0x5D ∉ label
  blank : ∀ c ∈ blanks, isSpace c = true
  delimited : Delimited angle destination.text title
  closed : 0x29 ∉ linkTarget blanks angle destination.text title

namespace Link

variable (link : Link)

/-- What stands between the parentheses of the link. -/
def target : Str := linkTarget link.blanks link.angle link.destination.text link.title

/-- The link without the mark of an image. -/
def bracketed : Str := 0x5B :: (link.label ++ 0x5D :: 0x28 :: (link.target ++ [0x29]))

/-- The link as it is written. -/
def text : Str := if link.image then 0x21 :: link.bracketed else link.bracketed

end Link

/-- A piece of a line. -/
inductive Piece where
  | plain (text : Str) (unopened : 0x5B ∉ text)
  | link (link : Link)

namespace Piece

/-- The piece as it is written. -/
def text : Piece → Str
  | .plain text _ => text
  | .link l => l.text

/-- The link that the piece is, if it is one. -/
def link? : Piece → Option Link
  | .plain _ _ => none
  | .link l => some l

end Piece

/-- The text of a line. -/
def lineText (pieces : List Piece) : Str := pieces.flatMap Piece.text

/-- A line of prose, or a fenced block: a fence, lines of code that do not look like one, and the next
fence. -/
inductive Block where
  | line (pieces : List Piece) (oneLine : OneLine (lineText pieces)) (prose : fenceLooking (lineText pieces) = false)
  | fence (opening : Str) (body : List Str) (closing : Str)
    (marks : (OneLine opening ∧ fenceLooking opening = true) ∧ OneLine closing ∧ fenceLooking closing = true)
    (code : ∀ line ∈ body, OneLine line ∧ fenceLooking line = false)

namespace Block

/-- The lines of a block. -/
def lines : Block → List Str
  | .line pieces _ _ => [lineText pieces]
  | .fence opening body closing _ _ => opening :: (body ++ [closing])

/-- The links that are no code. -/
def links : Block → List Link
  | .line pieces _ _ => pieces.filterMap Piece.link?
  | .fence _ _ _ _ _ => []

end Block

/-- The links of some blocks, with the numbers of their lines. -/
def documentLinks (lineNumber : Nat) : List Block → List (Nat × Link)
  | [] => []
  | block :: blocks =>
    block.links.map (fun link => (lineNumber, link)) ++ documentLinks (lineNumber + block.lines.length) blocks

/-- The text of a document. -/
def documentText (blocks : List Block) : Str := unlines (blocks.flatMap Block.lines)

/-- What there is to report of a link: nothing if it leads away or names no path, and else whether its path
leads out of the repository or to nothing.  A path with a null character, or one that cannot be looked at,
raises. -/
def Link.errors (checkout : Checkout) (path : Path) (lineNumber : Nat) (link : Link) : Option (List Str) :=
  match link.destination with
  | .away _ _ => some []
  | .file reference =>
    if reference.target = [] then some []
    else if 0 ∈ reference.target then none
    else linkErrors checkout path lineNumber link.destination.text (destinationOf checkout path reference.target)

/-! ## What a link names -/

section Spelled

variable {path : Path} (hne : path ≠ []) (hproper : ∀ part ∈ path, part ≠ [] ∧ part ≠ str "." ∧ 0x2F ∉ part)

include hne hproper

theorem spelled_ne_nil : [0x2F].intercalate path ≠ [] := by
  obtain ⟨first, rest, hpath⟩ := List.exists_cons_of_ne_nil hne
  have hfirst := (hproper first (by rw [hpath]; exact List.mem_cons_self)).1
  intro hnil
  have hsplit := List.splitOn_intercalate 0x2F (fun part hpart => (hproper part hpart).2.2) hne
  rw [hnil, hpath] at hsplit
  exact hfirst (List.cons.inj hsplit).1.symm

theorem pathParts_spelled : pathParts ([0x2F].intercalate path) = path := by
  unfold pathParts
  rw [List.splitOn_intercalate 0x2F (fun part hpart => (hproper part hpart).2.2) hne, List.filter_eq_self]
  exact fun part hpart => decide_eq_true ⟨(hproper part hpart).1, (hproper part hpart).2.1⟩

theorem relative_spelled : isAbsolute ([0x2F].intercalate path) = false := by
  obtain ⟨first, rest, hpath⟩ := List.exists_cons_of_ne_nil hne
  have hfirst := hproper first (by rw [hpath]; exact List.mem_cons_self)
  obtain ⟨c, cs, rfl⟩ := List.exists_cons_of_ne_nil hfirst.1
  have hc : c ≠ 0x2F := fun heq => hfirst.2.2 (heq ▸ List.mem_cons_self)
  have hhead : ([0x2F].intercalate path).head? = some c := by
    rw [hpath]
    cases rest <;> rfl
  unfold isAbsolute
  rw [hhead]
  exact beq_eq_false_iff_ne.mpr fun heq => hc (Option.some.inj heq)

end Spelled

namespace FileReference

variable (reference : FileReference)

theorem decoded : unquote reference.quoted = reference.target := unquote_quoted reference.written

/-- What is in front of the query and the fragment. -/
theorem takeWhile_written :
    ((reference.quoted ++ reference.suffix).takeWhile (· ≠ 0x23)).takeWhile (· ≠ 0x3F) = reference.quoted := by
  have hfragment : ∀ c ∈ reference.quoted, decide (c ≠ 0x23) = true := fun c hc =>
    decide_eq_true fun heq => reference.unended.1 (heq ▸ hc)
  have hquery : ∀ c ∈ reference.quoted, decide (c ≠ 0x3F) = true := fun c hc =>
    decide_eq_true fun heq => reference.unended.2 (heq ▸ hc)
  have hbehind : (reference.suffix.takeWhile (· ≠ 0x23)).takeWhile (· ≠ 0x3F) = [] := by
    have hends := reference.behind
    cases hsuffix : reference.suffix with
    | nil => rfl
    | cons c cs =>
      rw [hsuffix] at hends
      rcases hends c rfl with rfl | rfl
      · rfl
      · rfl
  rw [List.takeWhile_append_of_pos hfragment, List.takeWhile_append_of_pos hquery, hbehind, List.append_nil]

end FileReference

theorem Destination.text_ne_nil (destination : Destination) : destination.text ≠ [] := by
  cases destination with
  | away text scheme =>
    obtain ⟨scheme, hscheme, hprefix⟩ := scheme
    have hne : ∀ scheme ∈ schemes, scheme ≠ [] := by decide
    exact fun hnil => hne scheme hscheme (List.prefix_nil.mp (hnil ▸ hprefix))
  | file reference => exact reference.named

theorem Link.target_ne_nil (link : Link) : link.target ≠ [] := by
  unfold Link.target linkTarget
  refine List.append_ne_nil_of_right_ne_nil _ (List.append_ne_nil_of_left_ne_nil ?_ _)
  split
  · exact List.cons_ne_nil _ _
  · exact link.destination.text_ne_nil

/-! ## Finding the links of a line -/

theorem takeWhile_ne {c : Nat} {front : Str} (h : c ∉ front) (rest : Str) :
    (front ++ c :: rest).takeWhile (· ≠ c) = front ∧ (front ++ c :: rest).dropWhile (· ≠ c) = c :: rest := by
  have hfront : ∀ d ∈ front, decide (d ≠ c) = true := fun d hd => decide_eq_true fun heq => h (heq ▸ hd)
  rw [List.takeWhile_append_of_pos hfront, List.dropWhile_append_of_pos hfront]
  simp

theorem markdownLink_bracketed (link : Link) (rest : Str) :
    markdownLink (link.bracketed ++ rest) = some (link.target, rest) := by
  obtain ⟨-, hlabel⟩ := takeWhile_ne link.label_closed (0x28 :: (link.target ++ 0x29 :: rest))
  obtain ⟨htake, hdrop⟩ := @takeWhile_ne 0x29 link.target link.closed rest
  have htext : link.bracketed ++ rest = 0x5B :: (link.label ++ 0x5D :: 0x28 :: (link.target ++ 0x29 :: rest)) := by
    simp [Link.bracketed]
  rw [htext]
  unfold markdownLink
  simp only [List.head?_cons, Option.some.injEq, Nat.reduceEqDiff, if_false, hlabel, hdrop, htake,
    if_neg link.target_ne_nil]

theorem markdownLink_text (link : Link) (rest : Str) :
    markdownLink (link.text ++ rest) = some (link.target, rest) := by
  rw [← markdownLink_bracketed link rest]
  unfold Link.text
  split
  · rfl
  · rfl

/-- No link begins in front of a bracket, but for the mark of an image. -/
theorem markdownLink_plain {c : Nat} {cs : Str} (hc : c ≠ 0x5B) (hcs : c = 0x21 → cs.head? ≠ some 0x5B) :
    markdownLink (c :: cs) = none := by
  unfold markdownLink
  by_cases hmark : c = 0x21
  · subst hmark
    simp only [List.head?_cons, if_true, List.tail_cons]
    split
    · exact absurd rfl (hcs rfl)
    · rfl
  · simp only [List.head?_cons, Option.some.injEq, if_neg hmark]
    split
    · rename_i heq
      exact absurd (List.cons.inj heq).1 hc
    · rfl

theorem go_cons (count c : Nat) (cs : Str) : markdownLinks.go (count + 1) (c :: cs) =
    match markdownLink (c :: cs) with
    | some (target, after) => strip target :: markdownLinks.go count after
    | none => markdownLinks.go count cs := rfl

/-- The scan passes over a text without an opening bracket. -/
theorem go_plain {text : Str} (h : 0x5B ∉ text) (rest : Str) {count : Nat} (hcount : (text ++ rest).length ≤ count) :
    ∃ left, rest.length ≤ left ∧ markdownLinks.go count (text ++ rest) = markdownLinks.go left rest := by
  induction text generalizing count with
  | nil => exact ⟨count, hcount, rfl⟩
  | cons c cs ih =>
    obtain ⟨count, rfl⟩ := Nat.exists_eq_add_of_le' (Nat.lt_of_lt_of_le (Nat.succ_pos _) hcount)
    have hc : c ≠ 0x5B := fun heq => h (heq ▸ List.mem_cons_self)
    have hcs : 0x5B ∉ cs := fun hmem => h (List.mem_cons_of_mem _ hmem)
    have hleft : (cs ++ rest).length ≤ count := Nat.le_of_succ_le_succ hcount
    rw [List.cons_append, go_cons]
    by_cases hmark : c = 0x21 → (cs ++ rest).head? ≠ some 0x5B
    · rw [markdownLink_plain hc hmark]
      exact ih hcs hleft
    · -- the last character is taken for the mark of an image
      rw [Classical.not_imp, not_not] at hmark
      obtain ⟨rfl, hhead⟩ := hmark
      have hnil : cs = [] := by
        cases cs with
        | nil => rfl
        | cons d ds => exact absurd (Option.some.inj hhead ▸ List.mem_cons_self) hcs
      subst hnil
      obtain ⟨rest, rfl⟩ : ∃ more, rest = 0x5B :: more := ⟨_, List.eq_cons_of_mem_head? hhead⟩
      have hsame : markdownLink (0x21 :: 0x5B :: rest) = markdownLink (0x5B :: rest) := rfl
      rw [List.nil_append] at hleft ⊢
      rw [hsame]
      cases hlink : markdownLink (0x5B :: rest) with
      | none => exact ⟨count, hleft, rfl⟩
      | some found =>
        refine ⟨count + 1, Nat.le_succ_of_le hleft, ?_⟩
        rw [go_cons, hlink]

/-- **The links of a line are the ones that were written.** -/
theorem go_lineText (pieces : List Piece) {count : Nat} (hcount : (lineText pieces).length ≤ count) :
    markdownLinks.go count (lineText pieces) = (pieces.filterMap Piece.link?).map fun link => strip link.target := by
  induction pieces generalizing count with
  | nil => cases count <;> rfl
  | cons piece pieces ih =>
    have htext : lineText (piece :: pieces) = piece.text ++ lineText pieces := List.flatMap_cons
    rw [htext] at hcount ⊢
    cases piece with
    | plain text unopened =>
      obtain ⟨left, hleft, hgo⟩ := go_plain unopened (lineText pieces) hcount
      rw [show (Piece.plain text unopened).text = text from rfl, hgo]
      exact ih hleft
    | link link =>
      have hne : link.text ≠ [] := by
        unfold Link.text
        split <;> exact List.cons_ne_nil _ _
      obtain ⟨c, cs, hcs⟩ := List.exists_cons_of_ne_nil hne
      have hlink := markdownLink_text link (lineText pieces)
      show markdownLinks.go count (link.text ++ lineText pieces) = _
      have hlength : (link.text ++ lineText pieces).length ≤ count := hcount
      rw [hcs] at hlink hlength ⊢
      obtain ⟨count, rfl⟩ := Nat.exists_eq_add_of_le' (Nat.lt_of_lt_of_le (Nat.succ_pos _) hlength)
      rw [List.cons_append] at hlink ⊢
      rw [go_cons, hlink]
      dsimp only
      have hrest : (lineText pieces).length ≤ count := by
        rw [List.cons_append, List.length_cons, List.length_append] at hlength
        omega
      rw [ih hrest]
      rfl

/-! ## Following a link -/

/-- The blanks around a target are stripped as far as its destination. -/
theorem strip_around {blanks body title : Str} (hblanks : ∀ c ∈ blanks, isSpace c = true) (hne : body ≠ [])
    (hfirst : ∀ c ∈ body.head?, isSpace c = false) (hlast : ∀ c ∈ body.getLast?, isSpace c = false) :
    strip (blanks ++ (body ++ title)) = body ++ rstrip title := by
  have hleft : lstrip (blanks ++ (body ++ title)) = body ++ title := by
    obtain ⟨c, cs, rfl⟩ := List.exists_cons_of_ne_nil hne
    unfold lstrip
    rw [List.dropWhile_append_of_pos hblanks]
    apply List.dropWhile_cons_of_neg
    rw [hfirst c rfl]
    exact Bool.false_ne_true
  have hright : rstrip (body ++ title) = body ++ rstrip title := by
    have hend := hlast _ (List.getLast?_eq_some_getLast hne)
    rw [← List.dropLast_append_getLast hne, List.append_assoc, List.singleton_append, rstrip_append hend,
      List.append_assoc, List.singleton_append]
  unfold strip
  rw [hleft, hright]

/-- A destination as it stands in a target, between its brackets if it has them. -/
def Link.body (link : Link) : Str :=
  if link.angle then 0x3C :: (link.destination.text ++ [0x3E]) else link.destination.text

theorem Link.body_ends (link : Link) : link.body ≠ [] ∧ (∀ c ∈ link.body.head?, isSpace c = false) ∧
    ∀ c ∈ link.body.getLast?, isSpace c = false := by
  have hdelimited := link.delimited
  unfold Link.body
  unfold Delimited at hdelimited
  split
  · refine ⟨List.cons_ne_nil _ _, fun c hc => ?_, fun c hc => ?_⟩
    · obtain rfl := Option.mem_some_iff.mp hc
      rfl
    · rw [← List.cons_append, List.getLast?_concat] at hc
      obtain rfl := Option.mem_some_iff.mp hc
      rfl
  · rename_i hangle
    rw [if_neg hangle] at hdelimited
    exact ⟨link.destination.text_ne_nil, fun c hc => hdelimited.1 c (List.mem_of_mem_head? hc),
      fun c hc => hdelimited.1 c (List.mem_of_mem_getLast? hc)⟩

/-- What the scan finds in a link. -/
def Link.found (link : Link) : Str := strip link.target

theorem Link.strip_found (link : Link) : strip link.found = link.body ++ rstrip link.title := by
  obtain ⟨hne, hfirst, hlast⟩ := link.body_ends
  have hfound : link.found = link.body ++ rstrip link.title := strip_around link.blank hne hfirst hlast
  have hagain := @strip_around [] link.body (rstrip link.title) (fun c hc => absurd hc List.not_mem_nil) hne hfirst
    hlast
  rw [hfound]
  rw [List.nil_append] at hagain
  rw [hagain]
  exact congrArg _ (List.rdropWhile_idempotent _ _)

/-- The destination is found in the target of a link. -/
theorem markdownDestination_found (link : Link) : markdownDestination link.found = link.destination.text := by
  have hdelimited := link.delimited
  unfold markdownDestination
  rw [link.strip_found]
  unfold Link.body
  unfold Delimited at hdelimited
  cases hangle : link.angle with
  | true =>
    rw [hangle, if_pos rfl] at hdelimited
    have htext : 0x3C :: (link.destination.text ++ [0x3E]) ++ rstrip link.title =
        0x3C :: (link.destination.text ++ 0x3E :: rstrip link.title) := by simp
    rw [if_pos rfl, htext]
    show (if 0x3E ∈ link.destination.text ++ 0x3E :: rstrip link.title then _ else _) = _
    rw [if_pos (List.mem_append_right _ List.mem_cons_self)]
    exact (takeWhile_ne hdelimited _).1
  | false =>
    rw [hangle, if_neg Bool.false_ne_true] at hdelimited
    obtain ⟨hsolid, hopen, htitle⟩ := hdelimited
    rw [if_neg Bool.false_ne_true]
    -- the first word is the destination, for what follows it starts with white space
    have hword : (link.destination.text ++ rstrip link.title).takeWhile (fun c => !isSpace c) =
        link.destination.text := by
      have hbehind : (rstrip link.title).takeWhile (fun c => !isSpace c) = [] := by
        have hprefix : rstrip link.title <+: link.title := List.rdropWhile_prefix _ _
        cases hrest : rstrip link.title with
        | nil => rfl
        | cons c cs =>
          rw [hrest] at hprefix
          obtain ⟨more, hmore⟩ := hprefix
          have hspace := htitle c (by rw [← hmore]; rfl)
          exact List.takeWhile_cons_of_neg (by simp [hspace])
      rw [List.takeWhile_append_of_pos fun c hc => by rw [hsolid c hc]; rfl, hbehind, List.append_nil]
    split
    -- a destination without brackets does not start like one with them
    · rename_i rest heq
      obtain ⟨c, cs, hcs⟩ := List.exists_cons_of_ne_nil link.destination.text_ne_nil
      rw [hcs] at heq hopen
      obtain ⟨rfl, -⟩ := List.cons.inj heq
      exact absurd rfl hopen
    · exact hword

/-- A link is followed to where it leads. -/
theorem checkLink_found (checkout : Checkout) (path : Path) (lineNumber : Nat) (link : Link) :
    checkLink checkout path (lineNumber, link.found) = link.errors checkout path lineNumber := by
  unfold checkLink Link.errors
  dsimp only
  rw [markdownDestination_found]
  have hne := link.destination.text_ne_nil
  cases hdestination : link.destination with
  | away text scheme =>
    obtain ⟨scheme, hscheme, hprefix⟩ := scheme
    have haway : schemes.any (· <+: text) = true := List.any_eq_true.mpr ⟨scheme, hscheme, decide_eq_true hprefix⟩
    exact if_pos (Or.inr haway)
  | file reference =>
    rw [hdestination] at hne
    have hfollow : ¬ schemes.any (· <+: reference.quoted ++ reference.suffix) = true := by
      rw [List.any_eq_true]
      rintro ⟨scheme, hscheme, hprefix⟩
      exact reference.follow scheme hscheme (of_decide_eq_true hprefix)
    have htext : (Destination.file reference).text = reference.quoted ++ reference.suffix := rfl
    rw [htext] at hne ⊢
    rw [if_neg (not_or.mpr ⟨hne, hfollow⟩), reference.takeWhile_written, reference.decoded]

/-- A link that is written as the way from its document to a file is passed exactly when the file is
there. -/
theorem Link.errors_pathTo (checkout : Checkout) (path there : Path) (lineNumber : Nat) {link : Link}
    {reference : FileReference} (hlink : link.destination = .file reference) (hthere : parent ∉ there)
    (hne : pathTo parent path.dropLast there ≠ [])
    (hproper : ∀ part ∈ pathTo parent path.dropLast there, part ≠ [] ∧ part ≠ str "." ∧ 0x2F ∉ part)
    (hspelled : reference.target = [0x2F].intercalate (pathTo parent path.dropLast there))
    (hnull : 0 ∉ reference.target) :
    link.errors checkout path lineNumber = some [] ↔ checkout.present there = some true := by
  have hdestination : destinationOf checkout path reference.target = checkout.root ++ there := by
    rw [destinationOf, hspelled, relative_spelled hne hproper, if_neg Bool.false_ne_true,
      pathParts_spelled hne hproper, resolve_pathTo checkout.root path.dropLast hthere]
  unfold Link.errors linkErrors
  rw [hlink]
  dsimp only
  rw [if_neg (hspelled ▸ spelled_ne_nil hne hproper), if_neg hnull, hdestination,
    if_neg (not_not_intro (List.prefix_append _ _)), List.drop_left]
  cases checkout.present there with
  | none => exact iff_of_false (fun h => by cases h) fun h => by cases h
  | some found =>
    cases found with
    | false => exact iff_of_false (fun h => by cases h) fun h => by cases h
    | true => exact iff_of_true rfl rfl

/-! ## Documents -/

/-- Nothing is found between two fences. -/
theorem scanLines_code {body : List Str} (hcode : ∀ line ∈ body, fenceLooking line = false) (lineNumber : Nat)
    (rest : List Str) :
    scanLines lineNumber true (body ++ rest) = scanLines (lineNumber + body.length) true rest := by
  induction body generalizing lineNumber with
  | nil => rfl
  | cons line body ih =>
    obtain ⟨hline, hbody⟩ := List.forall_mem_cons.mp hcode
    rw [List.cons_append, scanLines, hline, if_neg Bool.false_ne_true, if_pos rfl, ih hbody, List.length_cons]
    congr 1
    omega

/-- The scan finds the links of a block, and is outside of every fence behind it. -/
theorem scanLines_block (lineNumber : Nat) (block : Block) (rest : List Str) :
    scanLines lineNumber false (block.lines ++ rest) =
      block.links.map (fun link => (lineNumber, link.found)) ++ scanLines (lineNumber + block.lines.length) false rest := by
  cases block with
  | line pieces oneLine prose =>
    show scanLines lineNumber false (lineText pieces :: rest) = _
    have hlinks : markdownLinks (lineText pieces) = (pieces.filterMap Piece.link?).map Link.found :=
      go_lineText pieces (Nat.le_refl _)
    rw [scanLines, prose, if_neg Bool.false_ne_true, if_neg Bool.false_ne_true, hlinks, List.map_map]
    rfl
  | fence opening body closing marks code =>
    obtain ⟨⟨-, hopening⟩, -, hclosing⟩ := marks
    show scanLines lineNumber false (opening :: (body ++ [closing] ++ rest)) = _
    rw [scanLines, if_pos hopening, List.append_assoc]
    show scanLines (lineNumber + 1) true (body ++ ([closing] ++ rest)) = _
    rw [scanLines_code (fun line hline => (code line hline).2), List.singleton_append, scanLines,
      if_pos hclosing]
    show scanLines _ false rest = scanLines _ false rest
    congr 1
    simp [Block.lines]
    omega

theorem scanLines_blocks (lineNumber : Nat) (blocks : List Block) :
    scanLines lineNumber false (blocks.flatMap Block.lines) =
      (documentLinks lineNumber blocks).map fun entry => (entry.1, entry.2.found) := by
  induction blocks generalizing lineNumber with
  | nil => rfl
  | cons block blocks ih =>
    rw [List.flatMap_cons, scanLines_block, ih, documentLinks, List.map_append, List.map_map]
    rfl

theorem Block.oneLine_lines (block : Block) : ∀ line ∈ block.lines, OneLine line := by
  cases block with
  | line pieces oneLine prose => exact List.forall_mem_singleton.mpr oneLine
  | fence opening body closing marks code =>
    obtain ⟨⟨hopening, -⟩, hclosing, -⟩ := marks
    refine List.forall_mem_cons.mpr ⟨hopening, List.forall_mem_append.mpr ⟨?_, ?_⟩⟩
    · exact fun line hline => (code line hline).1
    · exact List.forall_mem_singleton.mpr hclosing

/-- The scan finds the links of a document, with their lines. -/
theorem iterMarkdownLinks_document (blocks : List Block) : iterMarkdownLinks (documentText blocks) =
    (documentLinks 1 blocks).map fun entry => (entry.1, entry.2.found) := by
  have hlines : ∀ line ∈ blocks.flatMap Block.lines, OneLine line := by
    intro line hline
    obtain ⟨block, -, hmem⟩ := List.mem_flatMap.mp hline
    exact block.oneLine_lines line hmem
  unfold iterMarkdownLinks documentText
  rw [universalNewlines_unlines hlines, splitlines_unlines hlines]
  exact scanLines_blocks 1 blocks

section Sample

/-- A file with a space in its name, written by its byte, and a place in it. -/
def spacedReference : FileReference where
  text := "../docs/a b.md".toList
  quoted := quote isSafe "../docs/a b.md".toList
  suffix := str "#top"
  written := quoted_quote isSafe_ne _
  unended := by decide
  behind := by decide
  named := by decide
  follow := by decide

/-- A link to a path, without a title or brackets. -/
def plainLink (reference : FileReference)
    (solid : ∀ c ∈ reference.quoted ++ reference.suffix, isSpace c = false)
    (open_ : (reference.quoted ++ reference.suffix).head? ≠ some 0x3C)
    (closed : 0x29 ∉ reference.quoted ++ reference.suffix) : Link where
  image := false
  label := str "notes"
  blanks := []
  angle := false
  destination := .file reference
  title := []
  label_closed := by decide
  blank := fun c hc => absurd hc List.not_mem_nil
  delimited := ⟨solid, open_, fun c hc => absurd hc (Option.not_mem_none c)⟩
  closed := by
    unfold linkTarget Destination.text
    rwa [List.nil_append, if_neg Bool.false_ne_true, List.append_nil]

/-- A link to it, with a title. -/
def spacedLink : Link where
  image := false
  label := str "notes"
  blanks := []
  angle := false
  destination := .file spacedReference
  title := str " \"Notes\""
  label_closed := by decide
  blank := by decide
  delimited := ⟨by decide, by decide, by decide⟩
  closed := by decide

/-- A path to nothing. -/
def missingReference : FileReference where
  text := "c.md".toList
  quoted := str "c.md"
  suffix := []
  written := .plain (by decide) (.plain (by decide) (.plain (by decide) (.plain (by decide) .nil)))
  unended := by decide
  behind := by decide
  named := by decide
  follow := by decide

/-- A link to that file. -/
def missingLink : Link := plainLink missingReference (by decide) (by decide) (by decide)

/-- Two lines of prose around a block of code. -/
def sampleDocument : List Block := [
  .line [.plain (str "See ") (by decide), .link spacedLink, .plain (str ".") (by decide)] (by decide) (by decide),
  .fence (str "```sh") [str "[code](c.md)"] (str "```") (by decide) (by decide),
  .line [.link missingLink] (by decide) (by decide)]

/-- A working tree with one file. -/
def sampleCheckout : Checkout where
  root := [str "srv", str "checkout"]
  present := fun path => some (path = [str "docs", str "a b.md"])

example : documentText sampleDocument =
    str "See [notes](../docs/a%20b.md#top \"Notes\").\n```sh\n[code](c.md)\n```\n[notes](c.md)\n" := by decide

end Sample

end FastGate.CheckRepository
