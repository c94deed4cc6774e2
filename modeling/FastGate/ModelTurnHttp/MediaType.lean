/-
# FastGate.ModelTurnHttp.MediaType — the media types that are accepted

The profile of `acceptsJSONMediaType`: `application/json`, alone or with the charset UTF-8.  The values
that are accepted are those of the profile where any Unicode white space stands for optional white
space and U+0130 for an `i` of the media type, as the parser of the standard library reads them
(`acceptsJSONMediaType_iff`).

* `Profile` is stated over two notions, of optional white space and of the spellings of the media type.
  With HTTP's own it is the profile that is meant; with those of the library it is what is accepted.
* Before the library is asked, the function counts semicolons and looks at the name of a parameter.  This
  is what keeps out a second parameter, one without a value, and the extended notation with an asterisk.
* With blanks and tabs for white space, a value of the profile is ASCII (`profile_ascii`).  Values that
  hold U+00A0 or U+0130 are accepted although they are outside of it (`acceptsJSONMediaType_unicode`).

`LowerCase` is what is assumed of the case tables of Go.
-/
import FastGate.Go.Mime
import FastGate.ModelTurnHttp.Gate

open FastGate.Utf8 (Bytes encode)
open FastGate.Go (LowerCase White Stops Ends IsGraphic trimSpace toLower runes isSpace isTokenChar
  parseMediaType)
open FastGate.Provider

namespace FastGate.ModelTurnHttp

/-! ## The profile -/

/-- Spaces and tabs. -/
def Ows (w : Bytes) : Prop := ∀ b ∈ w, b = 0x20 ∨ b = 0x09

/-- The values of the profile, over a notion of optional white space and the spellings of the media
type. -/
inductive Profile (ws spelled : Bytes → Prop) : Bytes → Prop
  | bare {w type w' : Bytes} : ws w → spelled type → ws w' → Profile ws spelled (w ++ (type ++ w'))
  | charset {w type w' a name b c value d : Bytes} : ws w → spelled type → ws w' → ws a → ws b → ws c →
      ws d → SameLetters name (goString "charset") →
      (SameLetters value (goString "utf-8") ∨ SameLetters value (goString "\"utf-8\"")) →
      Profile ws spelled
        ((w ++ (type ++ w')) ++ 0x3B :: (a ++ (name ++ (b ++ 0x3D :: (c ++ (value ++ d))))))

/-- A rune as a letter of a media type. -/
def letter (c : Char) : Nat := if c.toNat = 0x130 then 0x69 else lowerAscii c.toNat

/-- The spellings of the media type that the standard library puts into lower case. -/
def Spelled (type : Bytes) : Prop :=
  ∃ cs : List Char, type = encode cs ∧ cs.map letter = jsonMediaType.map UInt8.toNat

/-! ## The media type -/

theorem lowerAscii_idem (n : Nat) : lowerAscii (lowerAscii n) = lowerAscii n := by
  unfold lowerAscii
  split_ifs <;> omega

theorem jsonMediaType_lower : jsonMediaType.map (fun b => lowerAscii b.toNat) = jsonMediaType.map UInt8.toNat := by
  decide

theorem jsonMediaType_codes : ∀ n ∈ jsonMediaType.map UInt8.toNat, n < 0x80 ∧ n ≠ 0x6B := by
  decide

section MediaType

variable {unicode : LowerCase}

/-- A rune that becomes a letter of the media type is one of its spellings. -/
theorem letter_of_lower {c : Char} (h : (unicode.toLower c).toNat < 0x80)
    (hk : lowerAscii (unicode.toLower c).toNat ≠ 0x6B) :
    letter c = lowerAscii (unicode.toLower c).toNat := by
  unfold letter
  by_cases hascii : c.toNat < 0x80
  · have hlower : (unicode.toLower c).toNat = lowerAscii c.toNat := unicode.ascii c hascii
    rw [if_neg (by omega), hlower, lowerAscii_idem]
  · rcases unicode.high c (Nat.le_of_not_lt hascii) h with hdotted | hkelvin
    · rw [if_pos hdotted, unicode.dottedI c hdotted]
      rfl
    · rw [unicode.kelvin c hkelvin] at hk
      exact absurd rfl hk

/-- A spelling of a letter becomes that letter. -/
theorem lower_of_letter {c : Char} (h : letter c < 0x80) : (unicode.toLower c).toNat = letter c := by
  unfold letter at h ⊢
  split at h
  · rename_i hdotted
    rw [if_pos hdotted, unicode.dottedI c hdotted]
  · rename_i hdotted
    rw [if_neg hdotted]
    refine unicode.ascii c ?_
    unfold lowerAscii at h
    split at h <;> omega

/-- The letters of a spelling, and what it becomes. -/
theorem map_lower_spelled {cs : List Char} (h : cs.map letter = jsonMediaType.map UInt8.toNat) :
    cs.map unicode.toLower = jsonMediaType.map fun b => Char.ofNat b.toNat := by
  have hcodes : (cs.map unicode.toLower).map Char.toNat = jsonMediaType.map UInt8.toNat := by
    rw [← h, List.map_map]
    refine List.map_congr_left fun c hc => lower_of_letter ?_
    exact (jsonMediaType_codes _ (h ▸ List.mem_map_of_mem hc)).1
  have hchars : (jsonMediaType.map fun b => Char.ofNat b.toNat).map Char.toNat =
      jsonMediaType.map UInt8.toNat := by
    rw [List.map_map]
    refine List.map_congr_left fun b hb => ?_
    exact (Go.encodeChar_ofNat (jsonMediaType_codes _ (List.mem_map_of_mem hb)).1).1
  exact (List.map_inj_right fun _ _ => Char.toNat_inj.mp).mp (hcodes.trans hchars.symm)

theorem lower_white {cs : List Char} (h : ∀ c ∈ cs, isSpace c = true) :
    White (encode (cs.map unicode.toLower)) := by
  refine ⟨_, rfl, fun c hc => ?_⟩
  obtain ⟨d, hd, rfl⟩ := List.mem_map.mp hc
  rw [unicode.space]
  exact h d hd

/-- The media types that are accepted: a spelling of `application/json` between white space. -/
theorem mediaType_iff (base : Bytes) :
    (Go.checkMediaTypeDisposition (trimSpace (toLower unicode base)) = true ∧
      equalFold (trimSpace (toLower unicode base)) jsonMediaType = true) ↔
    ∃ w type w', White w ∧ Spelled type ∧ White w' ∧ base = w ++ (type ++ w') := by
  constructor
  · rintro ⟨hcheck, hfold⟩
    obtain ⟨w, w', hw, hw', hlower⟩ := Go.trimSpace_sound (toLower unicode base)
    generalize trimSpace (toLower unicode base) = m at hcheck hfold hlower
    have hascii := Go.checkMediaTypeDisposition_ascii hcheck
    have hjson : ∀ b ∈ jsonMediaType, b.toNat < 0x80 := fun b hb =>
      (jsonMediaType_codes _ (List.mem_map_of_mem hb)).1
    have hsame : SameLetters m jsonMediaType := (equalFold_iff hjson (.inl hascii)).mp hfold
    obtain ⟨ws, rfl, hws⟩ := hw
    obtain ⟨ws', rfl, hws'⟩ := hw'
    have hm := Go.encode_map_ascii hascii
    rw [← hm, ← Utf8.encode_append, ← Utf8.encode_append, toLower] at hlower
    obtain ⟨l₁, l₂, hruns, hl₁, hl₂⟩ := List.map_eq_append_iff.mp (Utf8.encode_injective hlower)
    obtain ⟨l₃, l₄, rfl, hl₃, hl₄⟩ := List.map_eq_append_iff.mp hl₂
    have hlow : ∀ c ∈ l₃, (unicode.toLower c).toNat < 0x80 := by
      intro c hc
      have hmem : unicode.toLower c ∈ m.map fun b => Char.ofNat b.toNat := by
        rw [← hl₃]
        exact List.mem_map_of_mem hc
      obtain ⟨b, hb, hcode⟩ := List.mem_map.mp hmem
      rw [← hcode, (Go.encodeChar_ofNat (hascii b hb)).1]
      exact hascii b hb
    have hletters : l₃.map (fun c => lowerAscii (unicode.toLower c).toNat) =
        jsonMediaType.map UInt8.toNat := by
      have hmap : l₃.map (fun c => lowerAscii (unicode.toLower c).toNat) =
          (l₃.map unicode.toLower).map fun c => lowerAscii c.toNat := by
        rw [List.map_map]
        rfl
      rw [hmap, hl₃, List.map_map, ← jsonMediaType_lower, ← hsame]
      refine List.map_congr_left fun b hb => ?_
      show lowerAscii (Char.ofNat b.toNat).toNat = lowerAscii b.toNat
      rw [(Go.encodeChar_ofNat (hascii b hb)).1]
    have hspelled : l₃.map letter = jsonMediaType.map UInt8.toNat := by
      rw [← hletters]
      refine List.map_congr_left fun c hc => letter_of_lower (hlow c hc) ?_
      have hmem : lowerAscii (unicode.toLower c).toNat ∈ jsonMediaType.map UInt8.toNat := by
        rw [← hletters]
        exact List.mem_map_of_mem hc
      exact (jsonMediaType_codes _ hmem).2
    -- a malformed sequence is a rune that is neither white space nor a letter
    have hspace : ∀ {cs ws : List Char}, cs.map unicode.toLower = ws → (∀ c ∈ ws, isSpace c = true) →
        ∀ c ∈ cs, isSpace c = true := by
      rintro cs ws rfl hws c hc
      rw [← unicode.space c]
      exact hws _ (List.mem_map_of_mem hc)
    have hvalid : Go.runeError ∉ runes base := by
      rw [hruns, List.mem_append, List.mem_append]
      rintro (herror | herror | herror)
      · exact absurd (hspace hl₁ hws _ herror) (by decide)
      · rcases unicode.high _ (by decide) (hlow _ herror) with h | h <;> exact absurd h (by decide)
      · exact absurd (hspace hl₄ hws' _ herror) (by decide)
    refine ⟨encode l₁, encode l₃, encode l₄, ⟨l₁, rfl, hspace hl₁ hws⟩, ⟨l₃, rfl, hspelled⟩,
      ⟨l₄, rfl, hspace hl₄ hws'⟩, ?_⟩
    rw [← Utf8.encode_append, ← Utf8.encode_append, ← hruns, Go.encode_runes hvalid]
  · rintro ⟨w, type, w', ⟨ws, rfl, hws⟩, ⟨cs, rfl, hcs⟩, ⟨ws', rfl, hws'⟩, rfl⟩
    have hjson : encode (cs.map unicode.toLower) = jsonMediaType := by
      rw [map_lower_spelled hcs]
      exact Go.encode_map_ascii fun b hb => (jsonMediaType_codes _ (List.mem_map_of_mem hb)).1
    have htrim : trimSpace (toLower unicode (encode ws ++ (encode cs ++ encode ws'))) = jsonMediaType := by
      rw [← Utf8.encode_append, ← Utf8.encode_append, toLower, Go.runes_encode, List.map_append,
        List.map_append, Utf8.encode_append, Utf8.encode_append, hjson]
      refine Go.trimSpace_white (lower_white hws) (lower_white hws') (by decide) ?_ ?_
      · unfold Stops
        decide +kernel
      · unfold Ends
        decide +kernel
    rw [htrim]
    decide

end MediaType

/-! ## The parameter -/

section Parameter

variable {unicode : LowerCase}

theorem toNat_lowerByte (b : UInt8) : (Go.lowerByte b).toNat = lowerAscii b.toNat := Go.toNat_lowerByte b

/-- Letters that agree up to case are token characters together. -/
theorem isTokenChar_lower (b : UInt8) : isTokenChar (Go.lowerByte b) = isTokenChar b := by
  have hall : ∀ n < 256, isTokenChar (Go.lowerByte (UInt8.ofNat n)) = isTokenChar (UInt8.ofNat n) := by
    decide +kernel
  have hb := hall b.toNat b.toNat_lt
  rwa [UInt8.ofNat_toNat] at hb

theorem sameLetters_iff {s t : Bytes} : SameLetters s t ↔ s.map Go.lowerByte = t.map Go.lowerByte := by
  have hmap : ∀ s : Bytes, s.map (fun b => lowerAscii b.toNat) = (s.map Go.lowerByte).map UInt8.toNat := by
    intro s
    rw [List.map_map]
    exact List.map_congr_left fun b _ => (toNat_lowerByte b).symm
  unfold SameLetters
  rw [hmap, hmap, List.map_inj_right fun _ _ h => UInt8.toNat_inj.mp h]

/-- A text with the letters of a token is a token. -/
theorem token_of_sameLetters {s t : Bytes} (h : SameLetters s t) (ht : ∀ b ∈ t, isTokenChar b = true) :
    ∀ b ∈ s, isTokenChar b = true := by
  intro b hb
  rw [sameLetters_iff] at h
  have hmem : Go.lowerByte b ∈ t.map Go.lowerByte := by
    rw [← h]
    exact List.mem_map_of_mem hb
  obtain ⟨c, hc, heq⟩ := List.mem_map.mp hmem
  rw [← isTokenChar_lower, ← heq, isTokenChar_lower]
  exact ht c hc

theorem sameLetters_ne_nil {s t : Bytes} (h : SameLetters s t) (ht : t ≠ []) : s ≠ [] := by
  rintro rfl
  exact ht (List.map_eq_nil_iff.mp h.symm)

/-- What a parameter says, behind its semicolon. -/
def CharsetParam (raw : Bytes) : Prop :=
  ∃ a name b c value d, White a ∧ White b ∧ White c ∧ White d ∧ SameLetters name (goString "charset") ∧
    (SameLetters value (goString "utf-8") ∨ SameLetters value (goString "\"utf-8\"")) ∧
    raw = a ++ (name ++ (b ++ 0x3D :: (c ++ (value ++ d))))

theorem charset_token : ∀ b ∈ goString "charset", isTokenChar b = true :=
  List.all_eq_true.mp (by decide)

theorem charset_ascii : ∀ b ∈ goString "charset", b.toNat < 0x80 := fun b hb =>
  Nat.lt_trans (Go.isTokenChar_graphic (charset_token b hb)).2 (by decide)

theorem utf8_token : ∀ b ∈ goString "utf-8", isTokenChar b = true := List.all_eq_true.mp (by decide)

theorem utf8_foldsAlone : ∀ b ∈ goString "utf-8", FoldsAlone b := by
  unfold FoldsAlone
  decide +kernel

/-- A token between white space is what `TrimSpace` leaves. -/
theorem trimSpace_token {w name w' : Bytes} (hw : White w) (hw' : White w') (hne : name ≠ [])
    (hname : ∀ b ∈ name, isTokenChar b = true) : trimSpace (w ++ (name ++ w')) = name := by
  refine Go.trimSpace_white hw hw' hne (fun b hb => ?_) fun b hb => ?_
  · exact Go.isTokenChar_graphic (hname b (List.mem_of_mem_head? hb))
  · exact Go.isTokenChar_graphic (hname b (List.mem_of_mem_getLast? hb))

/-- The text in front of the equals sign. -/
theorem cut_equals {a name b tail : Bytes} (ha : White a) (hb : White b)
    (hname : ∀ x ∈ name, isTokenChar x = true) :
    cut (a ++ (name ++ (b ++ 0x3D :: tail))) 0x3D = (a ++ (name ++ b), tail, true) := by
  have hplain : ∀ x ∈ a ++ (name ++ b), decide (x ≠ 0x3D) = true := by
    intro x hx
    rw [decide_eq_true_eq]
    rintro rfl
    have hgraphic : IsGraphic 0x3D := by decide
    rcases List.mem_append.mp hx with hx | hx
    · exact ha.not_isGraphic hx hgraphic
    · rcases List.mem_append.mp hx with hx | hx
      · exact absurd (hname _ hx) (by decide)
      · exact hb.not_isGraphic hx hgraphic
  have hsplit : a ++ (name ++ (b ++ 0x3D :: tail)) = a ++ (name ++ b) ++ 0x3D :: tail := by
    simp only [List.append_assoc]
  unfold cut
  rw [hsplit, List.dropWhile_append_of_pos hplain, List.dropWhile_cons_of_neg (by simp),
    List.takeWhile_append_of_pos hplain, List.takeWhile_cons_of_neg (by simp), List.append_nil]

theorem lowerByte_quote {b : UInt8} : Go.lowerByte b = 0x22 ↔ b = 0x22 := by
  constructor
  · intro h
    have hcode := congrArg UInt8.toNat h
    rw [toNat_lowerByte] at hcode
    have hquote : (0x22 : UInt8).toNat = 0x22 := rfl
    apply UInt8.toNat_inj.mp
    rw [hquote] at hcode ⊢
    unfold lowerAscii at hcode
    split at hcode <;> omega
  · rintro rfl
    rfl

/-- A quoted text up to case. -/
theorem sameLetters_quoted {value : Bytes} :
    SameLetters value (goString "\"utf-8\"") ↔
      ∃ inner, value = 0x22 :: (inner ++ [0x22]) ∧ SameLetters inner (goString "utf-8") := by
  have hquoted : (goString "\"utf-8\"").map Go.lowerByte =
      0x22 :: ((goString "utf-8").map Go.lowerByte ++ [0x22]) := by decide
  rw [sameLetters_iff, hquoted]
  constructor
  · intro h
    obtain ⟨q, rest, rfl, hq, hrest⟩ := List.map_eq_cons_iff.mp h
    obtain ⟨inner, last, rfl, hinner, hlast⟩ := List.map_eq_append_iff.mp hrest
    obtain ⟨q', nothing, rfl, hq', hnothing⟩ := List.map_eq_cons_iff.mp hlast
    rw [List.map_eq_nil_iff] at hnothing
    rw [lowerByte_quote.mp hq, lowerByte_quote.mp hq', hnothing]
    exact ⟨inner, rfl, sameLetters_iff.mpr hinner⟩
  · rintro ⟨inner, rfl, hinner⟩
    rw [List.map_cons, List.map_append, sameLetters_iff.mp hinner]
    rfl

/-- The check of the raw parameter name. -/
def rawNameCharset (raw : Bytes) : Bool :=
  (cut raw 0x3D).2.2 && equalFold (trimSpace (cut raw 0x3D).1) (goString "charset")

/-- The check of the parsed parameters. -/
def onlyUtf8 (parameters : List (Bytes × Bytes)) : Bool :=
  match parameters with
  | [(name, value)] => equalFold name (goString "charset") && equalFold value (goString "utf-8")
  | _ => false

theorem charset_lower {name : Bytes} (h : SameLetters name (goString "charset")) :
    toLower unicode name = goString "charset" := by
  have hname := token_of_sameLetters h charset_token
  rw [Go.toLower_ascii unicode fun b hb =>
    Nat.lt_trans (Go.isTokenChar_graphic (hname b hb)).2 (by decide), sameLetters_iff.mp h]
  decide

/-- A parameter that is written as the profile asks is accepted. -/
theorem charsetParam_accepted {raw : Bytes} (h : CharsetParam raw)
    (stitch : List (Bytes × Bytes) → List (Bytes × Bytes) → List (Bytes × Bytes)) (hraw : 0x3B ∉ raw) :
    rawNameCharset raw = true ∧ ∃ params starred,
      Go.paramLoop unicode (raw.length + 2) (0x3B :: raw) [] [] = some (params, starred) ∧
      onlyUtf8 (if starred = [] then params else stitch starred params) = true := by
  obtain ⟨a, name, b, c, value, d, ha, hb, hc, hd, hname, hvalue, rfl⟩ := h
  have htoken := token_of_sameLetters hname charset_token
  have hne := sameLetters_ne_nil hname (by decide)
  constructor
  · have hfold : equalFold name (goString "charset") = true := by
      refine (equalFold_iff charset_ascii (.inl fun x hx => ?_)).mpr hname
      exact Nat.lt_trans (Go.isTokenChar_graphic (htoken x hx)).2 (by decide)
    rw [rawNameCharset, cut_equals ha hb htoken]
    simp only [trimSpace_token ha hb hne htoken, hfold, Bool.and_self]
  · obtain ⟨inner, hconsume, hstops, hinner⟩ : ∃ inner,
        Go.consumeValue (value ++ d) = (inner, d) ∧ Stops (value ++ d) ∧
          SameLetters inner (goString "utf-8") := by
      -- a token is read up to the white space behind it, a quoted value up to its quote
      rcases hvalue with hvalue | hvalue
      · have hplain := token_of_sameLetters hvalue utf8_token
        have hfilled := sameLetters_ne_nil hvalue (by decide)
        obtain ⟨x, value, rfl⟩ := List.exists_cons_of_ne_nil hfilled
        refine ⟨_, Go.consumeValue_token hfilled hplain ?_, ?_, hvalue⟩
        · have hend := Go.EndsToken.white hd (s := []) fun b hb => by cases hb
          rwa [List.append_nil] at hend
        · exact Stops.cons (Go.isTokenChar_graphic (hplain x List.mem_cons_self)) _
      · obtain ⟨inner, rfl, hinner⟩ := sameLetters_quoted.mp hvalue
        have hplain := token_of_sameLetters hinner utf8_token
        refine ⟨inner, ?_, Stops.cons (by decide) _, hinner⟩
        rw [List.cons_append, List.append_assoc]
        exact Go.consumeValue_quoted hplain d
    have hread := @Go.consumeMediaParam_written unicode _ _ _ _ _
      ⟨[], a, b, c, White.nil, ha, hb, hc, rfl⟩ hne htoken hstops hconsume
      (sameLetters_ne_nil hinner (by decide))
    rw [charset_lower hname] at hread
    refine ⟨[(goString "charset", inner)], [], ?_, ?_⟩
    · refine (Go.paramLoop_one hraw).mpr (.inr ⟨_, _, _, hread, hd, ?_⟩)
      rw [if_neg (by decide)]
    · have hfold : equalFold inner (goString "utf-8") = true :=
        (equalFold_iff (fun b hb => (utf8_foldsAlone b hb).1) (.inr utf8_foldsAlone)).mpr hinner
      rw [if_pos rfl, onlyUtf8, hfold, Bool.and_true]
      decide

/-- A parameter that is accepted is written as the profile asks. -/
theorem accepted_charsetParam {raw : Bytes} {params starred : List (Bytes × Bytes)}
    {stitch : List (Bytes × Bytes) → List (Bytes × Bytes) → List (Bytes × Bytes)} (hraw : 0x3B ∉ raw)
    (hname : rawNameCharset raw = true)
    (hloop : Go.paramLoop unicode (raw.length + 2) (0x3B :: raw) [] [] = some (params, starred))
    (honly : onlyUtf8 (if starred = [] then params else stitch starred params) = true) :
    CharsetParam raw := by
  rcases (Go.paramLoop_one hraw).mp hloop with ⟨-, -, hresult⟩ | ⟨key, value, rest, hread, hrest, hresult⟩
  · cases hresult
    cases honly
  · obtain ⟨name, tail, htoken, hne, rfl, hconsume, hwritten⟩ := Go.consumeMediaParam_sound hread
    obtain ⟨a, b, c, ha, hb, hc, rfl⟩ := hwritten.cons
    rw [rawNameCharset, cut_equals ha hb htoken] at hname
    simp only [trimSpace_token ha hb hne htoken, Bool.true_and] at hname
    have hsame : SameLetters name (goString "charset") :=
      (equalFold_iff charset_ascii (.inl fun x hx =>
        Nat.lt_trans (Go.isTokenChar_graphic (htoken x hx)).2 (by decide))).mp hname
    rw [charset_lower hsame, if_neg (by decide)] at hresult
    cases hresult
    rw [if_pos rfl, onlyUtf8, Bool.and_eq_true] at honly
    have hutf8 : SameLetters value (goString "utf-8") :=
      (equalFold_iff (fun b hb => (utf8_foldsAlone b hb).1) (.inr utf8_foldsAlone)).mp honly.2
    rcases Go.consumeValue_sound hconsume (sameLetters_ne_nil hutf8 (by decide))
      (token_of_sameLetters hutf8 utf8_token) with rfl | rfl
    · exact ⟨a, name, b, c, value, rest, ha, hb, hc, hrest, hsame, .inl hutf8, rfl⟩
    · refine ⟨a, name, b, c, 0x22 :: (value ++ [0x22]), rest, ha, hb, hc, hrest, hsame, .inr ?_, ?_⟩
      · exact sameLetters_quoted.mpr ⟨value, rfl, hutf8⟩
      · rw [List.cons_append, List.append_assoc]
        rfl

end Parameter

/-! ## The whole value -/

section Values

variable {unicode : LowerCase}
  {stitch : List (Bytes × Bytes) → List (Bytes × Bytes) → List (Bytes × Bytes)}

/-- The media type in lower case, as the parser compares it. -/
def JsonBase (unicode : LowerCase) (base : Bytes) : Prop :=
  Go.checkMediaTypeDisposition (trimSpace (toLower unicode base)) = true ∧
    equalFold (trimSpace (toLower unicode base)) jsonMediaType = true

theorem takeWhile_semicolon {base : Bytes} (h : 0x3B ∉ base) (rest : Bytes) :
    (base ++ 0x3B :: rest).takeWhile (· ≠ 0x3B) = base ∧
      (base ++ 0x3B :: rest).dropWhile (· ≠ 0x3B) = 0x3B :: rest := by
  have hplain : ∀ x ∈ base, decide (x ≠ 0x3B) = true := fun x hx => by
    rw [decide_eq_true_eq]
    rintro rfl
    exact h hx
  rw [List.takeWhile_append_of_pos hplain, List.takeWhile_cons_of_neg (by simp), List.append_nil,
    List.dropWhile_append_of_pos hplain, List.dropWhile_cons_of_neg (by simp)]
  exact ⟨rfl, rfl⟩

/-- A value is accepted when it passes the check of its semicolons and of the raw name, and what the
parser makes of it is the media type with its parameters. -/
theorem accepts_iff (parser : MediaTypeParser) (value : Bytes) :
    acceptsJSONMediaType parser value = true ↔
      value.count 0x3B ≤ 1 ∧ (value.count 0x3B = 1 → rawNameCharset (cut value 0x3B).2.1 = true) ∧
        ∃ mediaType parameters, parser value = some (mediaType, parameters) ∧
          equalFold mediaType jsonMediaType = true ∧
          if value.count 0x3B = 0 then parameters = [] else onlyUtf8 parameters = true := by
  unfold acceptsJSONMediaType
  by_cases hmany : value.count 0x3B > 1
  · simp only [hmany, if_true]
    refine iff_of_false Bool.false_ne_true fun h => ?_
    omega
  · -- the raw name is looked at only when there is a semicolon
    have hname : (decide (value.count 0x3B = 1) && (!(cut (cut value 0x3B).2.1 0x3D).2.2 ||
        !equalFold (trimSpace (cut (cut value 0x3B).2.1 0x3D).1) (goString "charset"))) = true ↔
        ¬ (value.count 0x3B = 1 → rawNameCharset (cut value 0x3B).2.1 = true) := by
      unfold rawNameCharset
      rw [Classical.not_imp, Bool.and_eq_true, decide_eq_true_eq, Bool.not_eq_true, ← Bool.not_and,
        Bool.not_eq_true']
    simp only [hmany, if_false]
    by_cases hraw : value.count 0x3B = 1 → rawNameCharset (cut value 0x3B).2.1 = true
    · rw [if_neg fun h => hname.mp h hraw]
      rw [and_iff_right (Nat.le_of_not_lt hmany), and_iff_right hraw]
      cases parser value with
      | none => simp
      | some parsed =>
        obtain ⟨mediaType, parameters⟩ := parsed
        -- the parser has one answer
        have hone : (∃ m ps, some (mediaType, parameters) = some (m, ps) ∧
            equalFold m jsonMediaType = true ∧
            if value.count 0x3B = 0 then ps = [] else onlyUtf8 ps = true) ↔
            equalFold mediaType jsonMediaType = true ∧
              if value.count 0x3B = 0 then parameters = [] else onlyUtf8 parameters = true := by
          constructor
          · rintro ⟨_, _, heq, h⟩
            cases heq
            exact h
          · exact fun h => ⟨mediaType, parameters, rfl, h⟩
        rw [hone]
        show (if (!equalFold mediaType jsonMediaType) = true then false
          else if value.count 0x3B = 0 then decide (parameters.length = 0) else onlyUtf8 parameters) =
            true ↔ _
        cases equalFold mediaType jsonMediaType with
        | false => simp
        | true =>
          rw [Bool.not_true, and_iff_right rfl, if_neg Bool.false_ne_true]
          by_cases hzero : value.count 0x3B = 0
          · simp [hzero]
          · rw [if_neg hzero, if_neg hzero]
    · rw [if_pos (hname.mpr hraw)]
      exact iff_of_false Bool.false_ne_true fun h => hraw h.2.1

/-- Without a semicolon, the media type decides. -/
theorem accepts_bare {value : Bytes} (h : 0x3B ∉ value) :
    acceptsJSONMediaType (parseMediaType unicode stitch) value = true ↔ JsonBase unicode value := by
  have hcount : value.count 0x3B = 0 := List.count_eq_zero.mpr h
  have hbase : value.takeWhile (· ≠ 0x3B) = value := by
    refine List.takeWhile_eq_self_iff.mpr fun x hx => ?_
    rw [decide_eq_true_eq]
    rintro rfl
    exact h hx
  have hloop : Go.paramLoop unicode 1 [] [] [] = some ([], []) :=
    (Go.paramLoop_end List.not_mem_nil 0 [] []).1 White.nil
  rw [accepts_iff, hcount]
  simp only [Go.parseMediaType_eq_some hbase List.drop_length, List.length_nil, hloop]
  constructor
  · rintro ⟨-, -, mediaType, parameters, ⟨hcheck, params, starred, -, heq⟩, hfold, -⟩
    rw [(Prod.mk.inj heq).1] at hfold
    exact ⟨hcheck, hfold⟩
  · rintro ⟨hcheck, hfold⟩
    refine ⟨by decide, fun hone => absurd hone (by decide), _, _, ⟨hcheck, [], [], rfl, rfl⟩, hfold, ?_⟩
    rw [if_pos trivial, if_pos rfl]

/-- With one semicolon, the media type, the raw name and the parameters decide. -/
theorem accepts_param {base raw : Bytes} (hbase : 0x3B ∉ base) (hraw : 0x3B ∉ raw) :
    acceptsJSONMediaType (parseMediaType unicode stitch) (base ++ 0x3B :: raw) = true ↔
      JsonBase unicode base ∧ rawNameCharset raw = true ∧ ∃ params starred,
        Go.paramLoop unicode (raw.length + 2) (0x3B :: raw) [] [] = some (params, starred) ∧
        onlyUtf8 (if starred = [] then params else stitch starred params) = true := by
  have hcount : (base ++ 0x3B :: raw).count 0x3B = 1 := by
    rw [List.count_append, List.count_cons_self, List.count_eq_zero.mpr hbase, List.count_eq_zero.mpr hraw]
  obtain ⟨htake, hdrop⟩ := takeWhile_semicolon hbase raw
  have hcut : (cut (base ++ 0x3B :: raw) 0x3B).2.1 = raw := by
    unfold cut
    rw [hdrop]
  rw [accepts_iff, hcount, hcut]
  simp only [Go.parseMediaType_eq_some htake (List.drop_left), List.length_cons]
  constructor
  · rintro ⟨-, hname, mediaType, parameters, ⟨hcheck, params, starred, hloop, heq⟩, hfold, honly⟩
    obtain ⟨rfl, rfl⟩ := Prod.mk.inj heq
    rw [if_neg (by decide)] at honly
    exact ⟨⟨hcheck, hfold⟩, hname trivial, params, starred, hloop, honly⟩
  · rintro ⟨⟨hcheck, hfold⟩, hname, params, starred, hloop, honly⟩
    refine ⟨Nat.le_refl 1, fun _ => hname, _, _, ⟨hcheck, params, starred, hloop, rfl⟩, hfold, ?_⟩
    rw [if_neg (by decide)]
    exact honly

theorem white_no_semicolon {w : Bytes} (hw : White w) : 0x3B ∉ w := fun h =>
  hw.not_isGraphic h (by decide)

theorem token_no_semicolon {t : Bytes} (ht : ∀ b ∈ t, isTokenChar b = true) : 0x3B ∉ t := fun h =>
  absurd (ht _ h) (by decide)

/-- The spellings of the media type have no semicolon. -/
theorem Spelled.no_semicolon {type : Bytes} (h : Spelled type) : 0x3B ∉ type := by
  obtain ⟨cs, rfl, hcs⟩ := h
  intro hmem
  obtain ⟨c, hc, hbyte⟩ := List.mem_flatMap.mp hmem
  have hletter : letter c ∈ jsonMediaType.map UInt8.toNat := hcs ▸ List.mem_map_of_mem hc
  by_cases hascii : c.toNat < 0x80
  · obtain ⟨b, hb, hcode⟩ := Utf8.encodeChar_ascii hascii
    rw [hb, List.mem_singleton] at hbyte
    have hcode : c.toNat = 0x3B := by
      rw [← hcode, ← hbyte]
      rfl
    unfold letter at hletter
    rw [hcode] at hletter
    revert hletter
    decide
  · have hhigh := Utf8.encodeChar_high (Nat.le_of_not_lt hascii) _ hbyte
    exact absurd hhigh (by decide)

/-- What stands in front of the parameter has no semicolon. -/
theorem base_no_semicolon {w type w' : Bytes} (hw : White w) (htype : Spelled type) (hw' : White w') :
    0x3B ∉ w ++ (type ++ w') := by
  simp only [List.mem_append, not_or]
  exact ⟨white_no_semicolon hw, htype.no_semicolon, white_no_semicolon hw'⟩

/-- A parameter has no second semicolon. -/
theorem CharsetParam.no_semicolon {raw : Bytes} (h : CharsetParam raw) : 0x3B ∉ raw := by
  obtain ⟨a, name, b, c, value, d, ha, hb, hc, hd, hname, hvalue, rfl⟩ := h
  have hvalue : 0x3B ∉ value := by
    rcases hvalue with hvalue | hvalue
    · exact token_no_semicolon (token_of_sameLetters hvalue utf8_token)
    · obtain ⟨inner, rfl, hinner⟩ := sameLetters_quoted.mp hvalue
      have htoken := token_no_semicolon (token_of_sameLetters hinner utf8_token)
      simpa using htoken
  have hname := token_no_semicolon (token_of_sameLetters hname charset_token)
  simp only [List.mem_append, List.mem_cons, not_or]
  exact ⟨white_no_semicolon ha, hname, white_no_semicolon hb, by decide, white_no_semicolon hc, hvalue, white_no_semicolon hd⟩

/-- A value with two semicolons or more is refused. -/
theorem accepts_count {parser : MediaTypeParser} {value : Bytes}
    (h : acceptsJSONMediaType parser value = true) :
    0x3B ∉ value ∨ ∃ base raw, value = base ++ 0x3B :: raw ∧ 0x3B ∉ base ∧ 0x3B ∉ raw := by
  obtain ⟨hcount, -⟩ := (accepts_iff parser value).mp h
  by_cases hmem : 0x3B ∈ value
  · obtain ⟨base, raw, rfl, hbase⟩ := List.eq_append_cons_of_mem hmem
    refine .inr ⟨base, raw, rfl, hbase, fun hraw => ?_⟩
    rw [List.count_append, List.count_cons_self] at hcount
    have hpos := List.count_pos_iff.mpr hraw
    omega
  · exact .inl hmem

/-- **The accepted media types**: those of the profile, as the parser of the standard library reads
white space and letters. -/
theorem acceptsJSONMediaType_iff (unicode : LowerCase)
    (stitch : List (Bytes × Bytes) → List (Bytes × Bytes) → List (Bytes × Bytes)) (value : Bytes) :
    acceptsJSONMediaType (parseMediaType unicode stitch) value = true ↔ Profile White Spelled value := by
  constructor
  · intro h
    rcases accepts_count h with hbare | ⟨base, raw, rfl, hbase, hraw⟩
    · obtain ⟨w, type, w', hw, htype, hw', rfl⟩ := (mediaType_iff _).mp ((accepts_bare hbare).mp h)
      exact .bare hw htype hw'
    · obtain ⟨hjson, hname, params, starred, hloop, honly⟩ := (accepts_param hbase hraw).mp h
      obtain ⟨w, type, w', hw, htype, hw', rfl⟩ := (mediaType_iff _).mp hjson
      obtain ⟨a, name, b, c, value, d, ha, hb, hc, hd, hcharset, hvalue, rfl⟩ :=
        accepted_charsetParam hraw hname hloop honly
      exact .charset hw htype hw' ha hb hc hd hcharset hvalue
  · intro h
    cases h with
    | bare hw htype hw' =>
      exact (accepts_bare (base_no_semicolon hw htype hw')).mpr
        ((mediaType_iff _).mpr ⟨_, _, _, hw, htype, hw', rfl⟩)
    | charset hw htype hw' ha hb hc hd hname hvalue =>
      have hparam : CharsetParam _ := ⟨_, _, _, _, _, _, ha, hb, hc, hd, hname, hvalue, rfl⟩
      obtain ⟨hcheck, params, starred, hloop, honly⟩ :=
        charsetParam_accepted hparam stitch hparam.no_semicolon
      exact (accepts_param (base_no_semicolon hw htype hw') hparam.no_semicolon).mpr
        ⟨(mediaType_iff _).mpr ⟨_, _, _, hw, htype, hw', rfl⟩, hcheck, params, starred, hloop, honly⟩

end Values

/-! ## Spaces and tabs alone -/

/-- The case of ASCII letters and of the two other runes that become ASCII. -/
def asciiLower (c : Char) : Char :=
  if c.toNat = 0x130 then 'i' else if c.toNat = 0x212A then 'k' else Char.ofNat (lowerAscii c.toNat)

theorem toNat_asciiLower (c : Char) : (asciiLower c).toNat =
    if c.toNat = 0x130 then 0x69 else if c.toNat = 0x212A then 0x6B else lowerAscii c.toNat := by
  unfold asciiLower
  split_ifs
  · rfl
  · rfl
  · unfold lowerAscii
    split
    · exact Json.toNat_ofNat (.inl (by omega))
    · rw [Char.ofNat_toNat]

theorem asciiLower_ascii (c : Char) (hc : c.toNat < 0x80) : (asciiLower c).toNat =
    if 0x41 ≤ c.toNat ∧ c.toNat ≤ 0x5A then c.toNat + 0x20 else c.toNat := by
  rw [toNat_asciiLower, if_neg (by omega), if_neg (by omega)]
  rfl

theorem asciiLower_dottedI (c : Char) (hc : c.toNat = 0x130) : (asciiLower c).toNat = 0x69 := by
  rw [toNat_asciiLower, if_pos hc]

theorem asciiLower_kelvin (c : Char) (hc : c.toNat = 0x212A) : (asciiLower c).toNat = 0x6B := by
  rw [toNat_asciiLower, if_neg (by omega), if_pos hc]

/-- No other rune becomes ASCII. -/
theorem asciiLower_high (c : Char) (hc : 0x80 ≤ c.toNat) (hlow : (asciiLower c).toNat < 0x80) :
    c.toNat = 0x130 ∨ c.toNat = 0x212A := by
  rw [toNat_asciiLower] at hlow
  by_contra h
  rw [not_or] at h
  rw [if_neg h.1, if_neg h.2, lowerAscii_high hc] at hlow
  omega

theorem asciiLower_space (c : Char) : isSpace (asciiLower c) = isSpace c := by
  rw [Bool.eq_iff_iff]
  simp only [isSpace, toNat_asciiLower, lowerAscii, Bool.or_eq_true, Bool.and_eq_true,
    decide_eq_true_eq, beq_iff_eq]
  split_ifs <;> omega

/-- The case mapping that changes ASCII letters only. -/
def asciiCase : LowerCase where
  toLower := asciiLower
  ascii := asciiLower_ascii
  dottedI := asciiLower_dottedI
  kelvin := asciiLower_kelvin
  high := asciiLower_high
  space := asciiLower_space

theorem ascii_of_sameLetters {s t : Bytes} (h : SameLetters s t) (ht : ∀ b ∈ t, b.toNat < 0x80) :
    ∀ b ∈ s, b.toNat < 0x80 := by
  intro b hb
  have hmem : lowerAscii b.toNat ∈ t.map fun b => lowerAscii b.toNat := by
    rw [← h]
    exact List.mem_map_of_mem hb
  obtain ⟨c, hc, heq⟩ := List.mem_map.mp hmem
  have hlow := lowerAscii_low (ht c hc)
  by_contra hhigh
  rw [heq, lowerAscii_high (Nat.le_of_not_lt hhigh)] at hlow
  exact hhigh hlow

/-- With spaces and tabs for white space, the profile is ASCII. -/
theorem profile_ascii {value : Bytes} (h : Profile Ows (fun type => SameLetters type jsonMediaType) value) :
    ∀ b ∈ value, b.toNat < 0x80 := by
  have hows : ∀ {w : Bytes}, Ows w → ∀ b ∈ w, b.toNat < 0x80 := by
    intro w hw b hb
    rcases hw b hb with rfl | rfl <;> decide
  have htype : ∀ {type : Bytes}, SameLetters type jsonMediaType → ∀ b ∈ type, b.toNat < 0x80 :=
    fun h => ascii_of_sameLetters h fun b hb =>
      (jsonMediaType_codes _ (List.mem_map_of_mem hb)).1
  cases h with
  | bare hw htyp hw' =>
    simp only [List.forall_mem_append]
    exact ⟨hows hw, htype htyp, hows hw'⟩
  | charset hw htyp hw' ha hb hc hd hname hvalue =>
    have hname := ascii_of_sameLetters hname charset_ascii
    have hvalue := hvalue.elim (fun h => ascii_of_sameLetters h fun b hb => (utf8_foldsAlone b hb).1)
      fun h => ascii_of_sameLetters h (by decide +kernel)
    simp only [List.forall_mem_append, List.forall_mem_cons]
    exact ⟨⟨hows hw, htype htyp, hows hw'⟩, by decide, hows ha, hname, hows hb, by decide, hows hc,
      hvalue, hows hd⟩

/-- A no-break space behind the media type, and a dotted capital I in it, are accepted. -/
theorem acceptsJSONMediaType_unicode :
    (acceptsJSONMediaType (parseMediaType asciiCase fun _ params => params)
        (goString "application/json\u00A0") = true ∧
      ¬ Profile Ows (fun type => SameLetters type jsonMediaType) (goString "application/json\u00A0")) ∧
    acceptsJSONMediaType (parseMediaType asciiCase fun _ params => params)
        (goString "appl\u0130cation/json") = true ∧
      ¬ Profile Ows (fun type => SameLetters type jsonMediaType) (goString "appl\u0130cation/json") := by
  refine ⟨⟨by decide, fun h => ?_⟩, by decide +kernel, fun h => ?_⟩
  · exact absurd (profile_ascii h 0xC2 (by decide)) (by decide)
  · exact absurd (profile_ascii h 0xC4 (by decide)) (by decide)

end FastGate.ModelTurnHttp
