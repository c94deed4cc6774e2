/-
# FastGate.CheckRepository.Files — the names and the text of a file

`check_text_hygiene` of `scripts/check_repository.py` and the names it goes by.  A text is clean when it
can be written down without looking at its lines (`CleanText`); `checkTextHygiene_exact` says that the
check, which goes through the bytes and then through the lines, accepts exactly the clean texts, and
what it reports of every other file: its reports, all of them and in their order.

* `Offends text k` is a blank at the end of the line with the number `k`, for every line boundary that
  `str.splitlines` knows.  `endsLine_iff` says where a line ends in terms of the character behind it.
* Bytes and characters are compared over UTF-8: a carriage return or a line feed is found in the bytes
  exactly where it is in the text (`mem_encode_ascii`, `encode_suffix_ascii`).
* A file that is no UTF-8 is reported as such, and nothing else is looked at.
-/
import FastGate.Python.Lines
import FastGate.Text.Utf8

open FastGate.Python
open FastGate.Utf8 (Bytes encode encodeChar decodeText? decodeText?_eq_some)

namespace FastGate.CheckRepository

/-! ## Names -/

/-- A path below the root, by its parts. -/
abbrev Path := List Str

/-- `str(path.relative_to(ROOT))` -/
def Path.relative (path : Path) : Str := (str "/").intercalate path

/-- `path.name` -/
def Path.name (path : Path) : Str := path.getLastD []

/-- `path.suffix`: the last dot of the name and what is behind it, if there is something on both sides. -/
def Path.suffix (path : Path) : Str :=
  let behind := (path.name.reverse.takeWhile (· ≠ 0x2E)).length
  if 0 < behind ∧ behind + 1 < path.name.length then path.name.drop (path.name.length - 1 - behind) else []

/-- `TEXT_SUFFIXES` -/
def textSuffixes : List Str :=
  [[], str ".go", str ".json", str ".md", str ".py", str ".sh", str ".toml", str ".txt", str ".yaml", str ".yml"]

/-! ## The check -/

/-- `line.rstrip(" \t")` -/
def rstripBlanks (line : Str) : Str := line.rdropWhile isBlank

/-- The numbers of the lines with trailing blanks. -/
def trailing (lineNumber : Nat) : List Str → List Nat
  | [] => []
  | line :: lines =>
    (if rstripBlanks line ≠ line then [lineNumber] else []) ++ trailing (lineNumber + 1) lines

/-- `check_text_hygiene`, for a file with the given content. -/
def checkTextHygiene (path : Path) (raw : Bytes) : List Str × Bool :=
  if lower path.suffix ∉ textSuffixes then ([], true)
  else
    match decodeText? raw with
    | none => ([str "invalid UTF-8: " ++ path.relative], false)
    | some text =>
      ((if 0x0D ∈ raw then [str "non-LF line ending: " ++ path.relative] else []) ++
        (if raw ≠ [] ∧ ¬ [0x0A] <:+ raw then [str "missing final newline: " ++ path.relative] else []) ++
        (trailing 1 (splitlines (text.map Char.toNat))).map fun lineNumber =>
          str "trailing whitespace: " ++ path.relative ++ str ":" ++ decimalText lineNumber, true)

/-! ## Clean texts -/

/-- A line ends here. -/
def EndsLine (after : Str) : Prop := ∀ c ∈ after.head?, isLineBoundary c = true

/-- A blank at the end of a line, on the line with this number. -/
def Offends (text : Str) (lineNumber : Nat) : Prop :=
  ∃ before c after, text = before ++ c :: after ∧ isBlank c = true ∧ EndsLine after ∧
    lineNumber = (splitlines (before ++ [c])).length

/-- The last line is ended, no line has a carriage return, and none ends with a blank. -/
structure CleanText (text : Str) : Prop where
  noReturn : 0x0D ∉ text
  finalNewline : text = [] ∨ [lineFeed] <:+ text
  noTrailing : ∀ lineNumber, ¬ Offends text lineNumber

theorem blank_not_boundary {c : Nat} (h : isBlank c = true) : isLineBoundary c = false := by
  rcases of_decide_eq_true h with rfl | rfl
  · rfl
  · rfl

theorem rstripBlanks_ne {line : Str} :
    rstripBlanks line ≠ line ↔ ∃ before c, line = before ++ [c] ∧ isBlank c = true := by
  unfold rstripBlanks
  constructor
  · intro h
    rw [ne_eq, List.rdropWhile_eq_self_iff, not_forall] at h
    obtain ⟨hne, hlast⟩ := h
    exact ⟨line.dropLast, line.getLast hne, (List.dropLast_append_getLast hne).symm, not_not.mp hlast⟩
  · rintro ⟨before, c, rfl, hc⟩ heq
    have hlength := congrArg List.length heq
    rw [List.rdropWhile_concat_pos _ _ _ hc, List.length_append, List.length_singleton] at hlength
    have hle := (List.rdropWhile_prefix isBlank (l := before)).length_le
    omega

/-! ## The lines of a text, up to a character -/

/-- A character that ends no line is no part of a pair, nor does it make one. -/
theorem not_crlf {c d : Nat} (hc : isLineBoundary c = false) {cs after : Str}
    (h : ∀ more : Str, d = 0x0D → cs = 0x0A :: more → False) :
    ¬ (d = 0x0D ∧ ∃ more, cs ++ c :: after = lineFeed :: more) := by
  rintro ⟨hd, more, hmore⟩
  cases cs with
  | nil =>
    obtain ⟨rfl, -⟩ := List.cons.inj hmore
    cases hc
  | cons x cs =>
    obtain ⟨rfl, -⟩ := List.cons.inj hmore
    exact h cs hd rfl

/-- A character that ends no line goes to the front of the line it starts. -/
theorem splitlines_plain {c : Nat} (hc : isLineBoundary c = false) (after : Str) :
    splitlines (c :: after) = consLine c (splitlines after) := by
  have halone : ¬ (c = 0x0D ∧ ∃ more, after = lineFeed :: more) := by
    rintro ⟨rfl, -⟩
    cases hc
  rw [splitlines_cons halone, if_neg (by simp [hc])]

theorem splitlines_cons_append {c d : Nat} (hc : isLineBoundary c = false) {cs : Str}
    (h : ∀ more : Str, d = 0x0D → cs = 0x0A :: more → False) (after : Str) :
    splitlines (d :: cs ++ c :: after) =
      if isLineBoundary d then [] :: splitlines (cs ++ c :: after)
      else consLine d (splitlines (cs ++ c :: after)) := by
  rw [List.cons_append]
  exact splitlines_cons (not_crlf hc h)

/-- A text ends a line exactly if its first line is empty. -/
theorem endsLine_iff {text : Str} : EndsLine text ↔ ∀ line ∈ (splitlines text).head?, line = [] := by
  cases text with
  | nil =>
    refine iff_of_true (fun c hc => ?_) fun line hline => ?_
    · cases hc
    · cases hline
  | cons c cs =>
    have hends : EndsLine (c :: cs) ↔ isLineBoundary c = true := by
      refine ⟨fun h => h c rfl, fun h d hd => ?_⟩
      cases hd
      exact h
    rw [hends]
    by_cases hpair : c = 0x0D ∧ ∃ more, cs = lineFeed :: more
    · obtain ⟨rfl, more, rfl⟩ := hpair
      exact iff_of_true rfl fun line hline => (Option.some.inj hline).symm
    · rw [splitlines_cons hpair]
      cases hboundary : isLineBoundary c with
      | true => exact iff_of_true rfl fun line hline => (Option.some.inj hline).symm
      | false =>
        refine iff_of_false Bool.false_ne_true fun h => ?_
        rw [if_neg Bool.false_ne_true] at h
        cases hlines : splitlines cs with
        | nil =>
          rw [hlines] at h
          cases h [c] rfl
        | cons line lines =>
          rw [hlines] at h
          cases h (c :: line) rfl

/-- A character in front of some lines changes nothing behind the start of any of them. -/
theorem consLine_piece (d : Nat) (above : List Str) (piece : Str) : ∃ above' piece', ∀ rest below,
    consLine d (above ++ (piece ++ rest) :: below) = above' ++ (piece' ++ rest) :: below := by
  cases above with
  | nil => exact ⟨[], d :: piece, fun rest below => rfl⟩
  | cons first above => exact ⟨(d :: first) :: above, piece, fun rest below => rfl⟩

/-- The line that ends with a character is the one that starts with it, or it was there before. -/
theorem consLine_eq {c d : Nat} {lines above below : List Str} {piece : Str}
    (h : consLine d lines = above ++ (piece ++ [c]) :: below) :
    (d = c ∧ piece = [] ∧ above = [] ∧ ∀ line ∈ lines.head?, line = []) ∨
      ∃ above' piece', lines = above' ++ (piece' ++ [c]) :: below ∧
        ∀ ending, consLine d (above' ++ (piece' ++ [c]) :: ending) = above ++ (piece ++ [c]) :: ending := by
  cases lines with
  | nil =>
    have hlines : [d] :: [] = above ++ (piece ++ [c]) :: below := h
    cases above with
    | nil =>
      left
      have hsplit : [] ++ [d] = piece ++ [c] := (List.cons.inj hlines).1
      obtain ⟨hnil, hchar⟩ := List.append_inj' hsplit rfl
      exact ⟨List.singleton_inj.mp hchar, hnil.symm, rfl, fun line hline => absurd hline (Option.not_mem_none line)⟩
    | cons first above => exact absurd (List.cons.inj hlines).2.symm (by simp)
  | cons line lines =>
    have hlines : (d :: line) :: lines = above ++ (piece ++ [c]) :: below := h
    cases above with
    | nil =>
      obtain ⟨hpiece, rfl⟩ := List.cons.inj hlines
      cases piece with
      | nil =>
        left
        obtain ⟨rfl, rfl⟩ := List.cons.inj hpiece
        exact ⟨rfl, rfl, rfl, fun line hline => (Option.some.inj hline).symm⟩
      | cons x piece =>
        right
        obtain ⟨rfl, rfl⟩ := List.cons.inj hpiece
        exact ⟨[], piece, rfl, fun ending => rfl⟩
    | cons first above =>
      right
      obtain ⟨rfl, rfl⟩ := List.cons.inj hlines
      exact ⟨line :: above, piece, rfl, fun ending => rfl⟩

/-- Up to a character that ends no line, the lines are cut as if the text ended there. -/
theorem splitlines_upTo {c : Nat} (hc : isLineBoundary c = false) (before : Str) :
    ∃ above piece, splitlines (before ++ [c]) = above ++ [piece ++ [c]] ∧
      ∀ after, ∃ rest below, splitlines (before ++ c :: after) = above ++ (piece ++ c :: rest) :: below ∧
        (EndsLine after → rest = []) := by
  -- the cases are those of `splitlines` on the text up to the character
  induction before using splitlines.induct with
  | case1 =>
    refine ⟨[], [], splitlines_plain hc [], fun after => ?_⟩
    rw [List.nil_append, splitlines_plain hc]
    cases hlines : splitlines after with
    | nil => exact ⟨[], [], rfl, fun _ => rfl⟩
    | cons line below =>
      refine ⟨line, below, rfl, fun hends => endsLine_iff.mp hends line ?_⟩
      rw [hlines]
      rfl
  | case2 cs ih =>
    obtain ⟨above, piece, hbefore, hafter⟩ := ih
    refine ⟨[] :: above, piece, congrArg ([] :: ·) hbefore, fun after => ?_⟩
    obtain ⟨rest, below, hlines, hrest⟩ := hafter after
    exact ⟨rest, below, congrArg ([] :: ·) hlines, hrest⟩
  | case3 d cs hpair hboundary ih =>
    obtain ⟨above, piece, hbefore, hafter⟩ := ih
    refine ⟨[] :: above, piece, ?_, fun after => ?_⟩
    · rw [splitlines_cons_append hc hpair, if_pos hboundary, hbefore, List.cons_append]
    · obtain ⟨rest, below, hlines, hrest⟩ := hafter after
      refine ⟨rest, below, ?_, hrest⟩
      rw [splitlines_cons_append hc hpair, if_pos hboundary, hlines, List.cons_append]
  | case4 d cs hpair hboundary ih =>
    obtain ⟨above, piece, hbefore, hafter⟩ := ih
    obtain ⟨above', piece', hcons⟩ := consLine_piece d above piece
    refine ⟨above', piece', ?_, fun after => ?_⟩
    · rw [splitlines_cons_append hc hpair, if_neg hboundary, hbefore, hcons]
    · obtain ⟨rest, below, hlines, hrest⟩ := hafter after
      refine ⟨rest, below, ?_, hrest⟩
      rw [splitlines_cons_append hc hpair, if_neg hboundary, hlines, hcons]

theorem not_pair {d : Nat} {cs : Str} (h : ∀ more : Str, d = 0x0D → cs = 0x0A :: more → False) :
    ¬ (d = 0x0D ∧ ∃ more, cs = lineFeed :: more) := by
  rintro ⟨hd, more, hmore⟩
  exact h more hd hmore

theorem bare_of_append {d : Nat} {cs after : Str} (h : ∀ more : Str, d = 0x0D → cs ++ after = 0x0A :: more → False)
    (more : Str) (hd : d = 0x0D) (hmore : cs = 0x0A :: more) : False := by
  rw [hmore] at h
  exact h _ hd rfl

/-- A line that ends with a character that ends no line has it where the text ends a line. -/
theorem splitlines_endsWith {c : Nat} (hc : isLineBoundary c = false) {text piece : Str} {above below : List Str}
    (h : splitlines text = above ++ (piece ++ [c]) :: below) :
    ∃ before after, text = before ++ c :: after ∧ EndsLine after ∧
      splitlines (before ++ [c]) = above ++ [piece ++ [c]] := by
  induction text using splitlines.induct generalizing above piece with
  | case1 => exact absurd h.symm (by simp [splitlines])
  | case2 cs ih =>
    cases above with
    | nil => exact absurd (List.cons.inj h).1.symm (by simp)
    | cons first above =>
      obtain ⟨rfl, hbelow⟩ := List.cons.inj h
      obtain ⟨before, after, rfl, hends, hbefore⟩ := ih hbelow
      exact ⟨0x0D :: 0x0A :: before, after, rfl, hends, congrArg ([] :: ·) hbefore⟩
  | case3 d cs hpair hboundary ih =>
    rw [splitlines_cons (not_pair hpair), if_pos hboundary] at h
    cases above with
    | nil => exact absurd (List.cons.inj h).1.symm (by simp)
    | cons first above =>
      obtain ⟨rfl, hbelow⟩ := List.cons.inj h
      obtain ⟨before, after, rfl, hends, hbefore⟩ := ih hbelow
      refine ⟨d :: before, after, rfl, hends, ?_⟩
      rw [splitlines_cons_append hc (bare_of_append hpair), if_pos hboundary, hbefore, List.cons_append]
  | case4 d cs hpair hboundary ih =>
    rw [splitlines_cons (not_pair hpair), if_neg hboundary] at h
    rcases consLine_eq h with ⟨rfl, rfl, rfl, hlines⟩ | ⟨above', piece', hlines, hcons⟩
    -- the character is the first one, on a line of its own
    · refine ⟨[], cs, rfl, endsLine_iff.mpr hlines, ?_⟩
      rw [List.nil_append, splitlines_plain hc]
      rfl
    · obtain ⟨before, after, rfl, hends, hbefore⟩ := ih hlines
      refine ⟨d :: before, after, rfl, hends, ?_⟩
      rw [splitlines_cons_append hc (bare_of_append hpair), if_neg hboundary, hbefore, hcons]

theorem mem_trailing {n : Nat} {lines : List Str} {lineNumber : Nat} :
    lineNumber ∈ trailing n lines ↔ ∃ above line below, lines = above ++ line :: below ∧
      rstripBlanks line ≠ line ∧ lineNumber = n + above.length := by
  induction lines generalizing n with
  | nil => simp [trailing]
  | cons first lines ih =>
    rw [trailing, List.mem_append, ih]
    constructor
    · rintro (h | ⟨above, line, below, rfl, hline, rfl⟩)
      · split at h
        · rename_i hfirst
          exact ⟨[], first, lines, rfl, hfirst, List.mem_singleton.mp h⟩
        · exact absurd h List.not_mem_nil
      · refine ⟨first :: above, line, below, rfl, hline, ?_⟩
        rw [List.length_cons]
        omega
    · rintro ⟨above, line, below, hlines, hline, rfl⟩
      cases above with
      | nil =>
        left
        obtain ⟨rfl, -⟩ := List.cons.inj hlines
        rw [if_pos hline]
        exact List.mem_singleton.mpr rfl
      | cons _ above =>
        right
        refine ⟨above, line, below, (List.cons.inj hlines).2, hline, ?_⟩
        rw [List.length_cons]
        omega

/-- The lines are reported from the top of the text to its end. -/
theorem trailing_sorted (n : Nat) (lines : List Str) : (trailing n lines).Pairwise (· < ·) := by
  induction lines generalizing n with
  | nil => exact .nil
  | cons line lines ih =>
    rw [trailing, List.pairwise_append]
    refine ⟨?_, ih (n + 1), fun first hfirst later hlater => ?_⟩
    · split
      · exact List.pairwise_singleton _ _
      · exact .nil
    · obtain ⟨above, -, -, -, -, rfl⟩ := mem_trailing.mp hlater
      split at hfirst
      · rw [List.mem_singleton.mp hfirst]
        omega
      · exact absurd hfirst List.not_mem_nil

/-- The lines that are reported are the lines that offend. -/
theorem mem_trailing_iff (text : Str) (lineNumber : Nat) :
    lineNumber ∈ trailing 1 (splitlines text) ↔ Offends text lineNumber := by
  rw [mem_trailing]
  constructor
  · rintro ⟨above, line, below, hlines, hline, rfl⟩
    obtain ⟨piece, c, rfl, hc⟩ := rstripBlanks_ne.mp hline
    obtain ⟨before, after, htext, hends, hbefore⟩ := splitlines_endsWith (blank_not_boundary hc) hlines
    refine ⟨before, c, after, htext, hc, hends, ?_⟩
    rw [hbefore, List.length_append, List.length_singleton, Nat.add_comm]
  · rintro ⟨before, c, after, rfl, hc, hends, rfl⟩
    obtain ⟨above, piece, hbefore, hafter⟩ := splitlines_upTo (blank_not_boundary hc) before
    obtain ⟨rest, below, hlines, hrest⟩ := hafter after
    rw [hrest hends] at hlines
    refine ⟨above, piece ++ [c], below, hlines, rstripBlanks_ne.mpr ⟨piece, c, rfl, hc⟩, ?_⟩
    rw [hbefore, List.length_append, List.length_singleton, Nat.add_comm]

/-! ## What the check accepts -/

/-- An ASCII byte stands in an encoded text for its own character only. -/
theorem mem_encodeChar_ascii {b : UInt8} (hb : b.toNat < 0x80) (c : Char) :
    b ∈ encodeChar c ↔ c.toNat = b.toNat := by
  by_cases hc : c.toNat < 0x80
  · obtain ⟨d, hd, hcode⟩ := Utf8.encodeChar_ascii hc
    rw [hd, List.mem_singleton, ← hcode, ← UInt8.toNat_inj, eq_comm]
  · refine iff_of_false (fun h => ?_) fun h => hc (h ▸ hb)
    have hhigh := Utf8.encodeChar_high (Nat.le_of_not_lt hc) b h
    omega

theorem mem_encode_ascii {b : UInt8} (hb : b.toNat < 0x80) (text : List Char) :
    b ∈ encode text ↔ b.toNat ∈ text.map Char.toNat := by
  unfold encode
  rw [List.mem_flatMap, List.mem_map]
  exact exists_congr fun c => and_congr_right fun _ => mem_encodeChar_ascii hb c

/-- An encoded text ends with an ASCII byte if it ends with its character. -/
theorem encode_suffix_ascii {b : UInt8} (hb : b.toNat < 0x80) (text : List Char) :
    [b] <:+ encode text ↔ [b.toNat] <:+ text.map Char.toNat := by
  induction text using List.reverseRecOn with
  | nil => simp
  | append_singleton text c _ =>
    have hlast : encode (text ++ [c]) = encode text ++ encodeChar c := by
      rw [Utf8.encode_append, Utf8.encode_cons, Utf8.encode_nil, List.append_nil]
    have hmap : [b.toNat] <:+ (text ++ [c]).map Char.toNat ↔ c.toNat = b.toNat := by
      rw [List.map_append, List.map_singleton, List.singleton_suffix_iff_getLast?_eq_some]
      simp
    rw [hlast, hmap, ← mem_encodeChar_ascii hb]
    constructor
    · intro h
      rw [List.singleton_suffix_iff_getLast?_eq_some,
        List.getLast?_append_of_ne_nil _ (Utf8.encodeChar_ne_nil c)] at h
      exact List.mem_of_getLast? h
    · intro hmem
      have hchar := (mem_encodeChar_ascii hb c).mp hmem
      obtain ⟨d, hd, hcode⟩ := Utf8.encodeChar_ascii (hchar ▸ hb)
      rw [hd, UInt8.toNat_inj.mp (hcode.trans hchar)]
      exact List.suffix_append _ _

theorem encode_eq_nil {text : List Char} : encode text = [] ↔ text = [] := by
  cases text with
  | nil => exact iff_of_true rfl rfl
  | cons c text =>
    refine iff_of_false (fun h => ?_) (List.cons_ne_nil c text)
    exact Utf8.encodeChar_ne_nil c (List.append_eq_nil_iff.mp h).1

/-- Nothing is reported when its condition fails. -/
theorem ite_message_eq_nil {P : Prop} [Decidable P] {message : Str} : (if P then [message] else []) = [] ↔ ¬ P := by
  split
  · rename_i h
    exact iff_of_false (List.cons_ne_nil _ _) (not_not_intro h)
  · rename_i h
    exact iff_of_true rfl h

/-- What is reported of an encoded text. -/
theorem checkTextHygiene_encode {path : Path} (hpath : lower path.suffix ∈ textSuffixes) (text : List Char) :
    checkTextHygiene path (encode text) =
      ((if 0x0D ∈ encode text then [str "non-LF line ending: " ++ path.relative] else []) ++
      (if encode text ≠ [] ∧ ¬ [0x0A] <:+ encode text then [str "missing final newline: " ++ path.relative] else []) ++
      (trailing 1 (splitlines (text.map Char.toNat))).map fun lineNumber =>
        str "trailing whitespace: " ++ path.relative ++ str ":" ++ decimalText lineNumber, true) := by
  unfold checkTextHygiene
  rw [if_neg (not_not.mpr hpath), decodeText?_eq_some.mpr rfl]

theorem checkTextHygiene_invalid {path : Path} (hpath : lower path.suffix ∈ textSuffixes) {raw : Bytes}
    (h : ∀ text, raw ≠ encode text) :
    checkTextHygiene path raw = ([str "invalid UTF-8: " ++ path.relative], false) := by
  unfold checkTextHygiene
  rw [if_neg (not_not.mpr hpath)]
  cases hdecode : decodeText? raw with
  | none => rfl
  | some text => exact absurd (decodeText?_eq_some.mp hdecode).symm (h text)

/-- What the first two checks look at in the bytes, in the text. -/
theorem carriageReturn_iff (text : List Char) : (0x0D : UInt8) ∈ encode text ↔ 0x0D ∈ text.map Char.toNat :=
  mem_encode_ascii (by decide) text

theorem unended_iff (text : List Char) : (encode text ≠ [] ∧ ¬ [0x0A] <:+ encode text) ↔
    text ≠ [] ∧ ¬ [lineFeed] <:+ text.map Char.toNat :=
  and_congr (not_congr encode_eq_nil) (not_congr (encode_suffix_ascii (by decide) text))

/-- The last line of an encoded text is ended unless the second check reports it. -/
theorem finalNewline_iff (text : List Char) : ¬ (encode text ≠ [] ∧ ¬ [0x0A] <:+ encode text) ↔
    text.map Char.toNat = [] ∨ [lineFeed] <:+ text.map Char.toNat := by
  rw [unended_iff, not_and_not_right, List.map_eq_nil_iff, ← or_iff_not_imp_left]

/-- Nothing is reported of the clean texts, and of no others. -/
theorem checkTextHygiene_clean {path : Path} (hpath : lower path.suffix ∈ textSuffixes) (text : List Char) :
    checkTextHygiene path (encode text) = ([], true) ↔ CleanText (text.map Char.toNat) := by
  have htrailing : trailing 1 (splitlines (text.map Char.toNat)) = [] ↔
      ∀ lineNumber, ¬ Offends (text.map Char.toNat) lineNumber := by
    rw [List.eq_nil_iff_forall_not_mem]
    exact forall_congr' fun lineNumber => not_congr (mem_trailing_iff _ lineNumber)
  rw [checkTextHygiene_encode hpath, Prod.mk.injEq, and_iff_left rfl, List.append_eq_nil_iff,
    List.append_eq_nil_iff, List.map_eq_nil_iff, ite_message_eq_nil, ite_message_eq_nil, carriageReturn_iff,
    finalNewline_iff, htrailing]
  constructor
  · rintro ⟨⟨hreturn, hnewline⟩, htrailing⟩
    exact ⟨hreturn, hnewline, htrailing⟩
  · rintro ⟨hreturn, hnewline, htrailing⟩
    exact ⟨⟨hreturn, hnewline⟩, htrailing⟩

/-- **What the check reports.**  A file with the name of a text passes exactly when it is the encoding of a
clean text.  Of bytes that encode nothing, only that is reported; of any encoded text, a carriage return
anywhere, a last line without an end, and then each line that offends, in order. -/
theorem checkTextHygiene_exact (path : Path) (raw : Bytes) (hpath : lower path.suffix ∈ textSuffixes) :
    (checkTextHygiene path raw = ([], true) ↔ ∃ text, raw = encode text ∧ CleanText (text.map Char.toNat)) ∧
    ((checkTextHygiene path raw).2 = true ↔ ∃ text, raw = encode text) ∧
    ((∀ text, raw ≠ encode text) →
      (checkTextHygiene path raw).1 = [str "invalid UTF-8: " ++ path.relative]) ∧
    ∀ text, raw = encode text → ∃ numbers : List Nat, numbers.Pairwise (· < ·) ∧
      (∀ lineNumber, lineNumber ∈ numbers ↔ Offends (text.map Char.toNat) lineNumber) ∧
      (checkTextHygiene path raw).1 =
        (if 0x0D ∈ text.map Char.toNat then [str "non-LF line ending: " ++ path.relative] else []) ++
        (if text ≠ [] ∧ ¬ [lineFeed] <:+ text.map Char.toNat then
          [str "missing final newline: " ++ path.relative] else []) ++
        numbers.map fun lineNumber =>
          str "trailing whitespace: " ++ path.relative ++ str ":" ++ decimalText lineNumber := by
  refine ⟨⟨fun h => ?_, ?_⟩, ⟨fun h => ?_, ?_⟩, fun hnone => ?_, ?_⟩
  · have htext : ∃ text, raw = encode text := by
      by_contra hnone
      rw [checkTextHygiene_invalid hpath fun text heq => hnone ⟨text, heq⟩] at h
      cases h
    obtain ⟨text, rfl⟩ := htext
    exact ⟨text, rfl, (checkTextHygiene_clean hpath text).mp h⟩
  · rintro ⟨text, rfl, hclean⟩
    exact (checkTextHygiene_clean hpath text).mpr hclean
  · by_contra hnone
    rw [checkTextHygiene_invalid hpath fun text heq => hnone ⟨text, heq⟩] at h
    cases h
  · rintro ⟨text, rfl⟩
    rw [checkTextHygiene_encode hpath]
  · rw [checkTextHygiene_invalid hpath hnone]
  · rintro text rfl
    refine ⟨trailing 1 (splitlines (text.map Char.toNat)), trailing_sorted _ _, mem_trailing_iff _, ?_⟩
    rw [checkTextHygiene_encode hpath]
    simp only [carriageReturn_iff, unended_iff]

theorem checkTextHygiene_exact_sample :
    (∃ text, ([0x6F, 0x6B, 0x0A] : Bytes) = encode text ∧ CleanText (text.map Char.toNat)) ∧
      ¬ ∃ text, ([0x6F, 0x6B, 0x20, 0x0A] : Bytes) = encode text ∧ CleanText (text.map Char.toNat) := by
  have hname : lower (Path.suffix [str "README.md"]) ∈ textSuffixes := by decide
  exact ⟨(checkTextHygiene_exact [str "README.md"] [0x6F, 0x6B, 0x0A] hname).1.mp (by decide),
    fun h => absurd ((checkTextHygiene_exact [str "README.md"] [0x6F, 0x6B, 0x20, 0x0A] hname).1.mpr h) (by decide)⟩

end FastGate.CheckRepository
