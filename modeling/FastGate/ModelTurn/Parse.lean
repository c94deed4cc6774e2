/-
# FastGate.ModelTurn.Parse — strict JSON documents

`validateStrictDocument` admits a body as JSON: valid UTF-8, paired surrogate escapes, and a walk over
the token stream that refuses repeated names and deep nesting.  The three passes see different views
of the same bytes; `validateStrictDocument_iff` says what they amount to together, in terms of the
document the bytes are a text for.

* The token stream of `encoding/json` accepts more than JSON texts: it is a state machine that says which
  token may come next, and `More` looks one byte ahead.  `InArray`, `InObject` and `AtValue` are its states
  between the tokens of a container.
* `Walked` is what a successful walk has consumed: a value, and the bytes behind it.  `walkSound` shows
  that it consumes nothing else, by induction on the fuel; `walksOver` that it gets over every document
  that is admissible, by induction on the document.
* Names are compared after decoding.  Go decodes a lone surrogate to U+FFFD, so different names could
  become equal; the second pass has excluded that (`unquote_eq_iff`).
-/
import FastGate.Go.Json
import FastGate.ModelTurn.Surrogates

open FastGate.Utf8 (Bytes encode valid valid_iff encode_injective)
open FastGate.Json
open FastGate.Go

namespace FastGate.ModelTurn

/-- The number of containers that may be open at once. -/
def maxJsonContainerDepth : Nat := 16

mutual

/-- Walk over one value; `none` refuses the document.  The fuel bounds the number of calls. -/
def walkJsonValue : Nat → Decoder → Nat → Option Decoder
  | 0, _, _ => none
  | fuel + 1, decoder, depth =>
    match decoder.token with
    | .error _ => none
    | .ok (.null, decoder) => some decoder
    | .ok (.bool _, decoder) => some decoder
    | .ok (.string _, decoder) => some decoder
    | .ok (.number _, decoder) => some decoder
    | .ok (.float64 _, _) => none
    | .ok (.delim delimiter, decoder) =>
      if delimiter ≠ .beginObject ∧ delimiter ≠ .beginArray then none
      else if depth + 1 > maxJsonContainerDepth then none
      else
        let inside :=
          if delimiter = .beginObject then walkMembers fuel decoder (depth + 1) []
          else walkElements fuel decoder (depth + 1)
        match inside with
        | none => none
        | some decoder =>
          match decoder.token with
          | .error _ => none
          | .ok (closing, decoder) =>
            let want := if delimiter = .beginArray then Punct.endArray else Punct.endObject
            if closing = .delim want then some decoder else none

/-- The loop over the members of an object, with the names seen so far. -/
def walkMembers : Nat → Decoder → Nat → List Bytes → Option Decoder
  | 0, _, _, _ => none
  | fuel + 1, decoder, depth, names =>
    if decoder.more then
      match decoder.token with
      | .ok (.string name, decoder) =>
        if name ∈ names then none
        else
          match walkJsonValue fuel decoder depth with
          | none => none
          | some decoder => walkMembers fuel decoder depth (name :: names)
      | _ => none
    else some decoder

/-- The loop over the elements of an array. -/
def walkElements : Nat → Decoder → Nat → Option Decoder
  | 0, _, _ => none
  | fuel + 1, decoder, depth =>
    if decoder.more then
      match walkJsonValue fuel decoder depth with
      | none => none
      | some decoder => walkElements fuel decoder depth
    else some decoder

end

/-- `validateStrictDocument`: the bytes are one document of the strict profile. -/
def validateStrictDocument (raw : Bytes) : Bool :=
  if !valid raw || !hasValidSurrogateEscapes raw then false
  else
    match walkJsonValue (raw.length + 1) (newDecoder raw).useNumber 0 with
    | none => false
    | some decoder =>
      match decoder.token with
      | .error .eof => true
      | _ => false

/-! ## The walk accepts documents -/

/-- What the walk asks of a value at a depth. -/
structure Admissible (depth : Nat) (doc : Doc UInt8) : Prop where
  names : doc.UniqueNames unquote
  depth_le : doc.depth ≤ maxJsonContainerDepth - depth

theorem admissible_arr {depth : Nat} {xs : List (Doc UInt8)} :
    Admissible depth (.arr xs) ↔
      depth + 1 ≤ maxJsonContainerDepth ∧ ∀ x ∈ xs, Admissible (depth + 1) x := by
  have hpos := Doc.depth_arr_pos xs
  constructor
  · rintro ⟨hnames, hdepth⟩
    have hlt : depth + 1 ≤ maxJsonContainerDepth := by omega
    obtain ⟨n, hn⟩ := Nat.exists_eq_add_of_le hlt
    rw [show maxJsonContainerDepth - depth = n + 1 by omega, Doc.depth_arr_le] at hdepth
    exact ⟨hlt, fun x hx => ⟨(Doc.uniqueNames_arr xs).mp hnames x hx, by
      have := hdepth x hx; omega⟩⟩
  · rintro ⟨hlt, hall⟩
    refine ⟨(Doc.uniqueNames_arr xs).mpr fun x hx => (hall x hx).names, ?_⟩
    obtain ⟨n, hn⟩ := Nat.exists_eq_add_of_le hlt
    rw [show maxJsonContainerDepth - depth = n + 1 by omega, Doc.depth_arr_le]
    exact fun x hx => by have := (hall x hx).depth_le; omega

theorem admissible_obj {depth : Nat} {ms : List (StrLit UInt8 × Doc UInt8)} :
    Admissible depth (.obj ms) ↔
      depth + 1 ≤ maxJsonContainerDepth ∧ (ms.map fun m => unquote m.1).Nodup ∧
        ∀ m ∈ ms, Admissible (depth + 1) m.2 := by
  have hpos := Doc.depth_obj_pos ms
  constructor
  · rintro ⟨hnames, hdepth⟩
    rw [Doc.uniqueNames_obj] at hnames
    have hlt : depth + 1 ≤ maxJsonContainerDepth := by omega
    obtain ⟨n, hn⟩ := Nat.exists_eq_add_of_le hlt
    rw [show maxJsonContainerDepth - depth = n + 1 by omega, Doc.depth_obj_le] at hdepth
    exact ⟨hlt, hnames.1, fun m hm => ⟨hnames.2 m hm, by have := hdepth m hm; omega⟩⟩
  · rintro ⟨hlt, hnodup, hall⟩
    refine ⟨(Doc.uniqueNames_obj ms).mpr ⟨hnodup, fun m hm => (hall m hm).names⟩, ?_⟩
    obtain ⟨n, hn⟩ := Nat.exists_eq_add_of_le hlt
    rw [show maxJsonContainerDepth - depth = n + 1 by omega, Doc.depth_obj_le]
    exact fun m hm => by have := (hall m hm).depth_le; omega

/-- The tokens of the elements that are still ahead, from the bracket or from behind an element. -/
def elementsAhead (d : Decoder) (xs : List (Doc UInt8)) : List (Token UInt8) :=
  if d.tokenState = .arrayStart then Doc.tokens.elements xs else Doc.tokens.moreElements xs

/-- The tokens of the members that are still ahead. -/
def membersAhead (d : Decoder) (ms : List (StrLit UInt8 × Doc UInt8)) : List (Token UInt8) :=
  if d.tokenState = .objectStart then Doc.tokens.members ms else Doc.tokens.moreMembers ms

/-- A decoder between the elements of an array. -/
def InArray (d : Decoder) : Prop := d.tokenState = .arrayStart ∨ d.tokenState = .arrayComma

/-- A decoder between the members of an object. -/
def InObject (d : Decoder) : Prop := d.tokenState = .objectStart ∨ d.tokenState = .objectComma

section Ahead

variable {d : Decoder} {r : Bytes}

/-- In front of the next element the decoder may read a value, with the separator skipped. -/
theorem reads_element (h : InArray d) {x : Doc UInt8} {xs : List (Doc UInt8)}
    (hr : Reads d.input (elementsAhead d (x :: xs) ++ [.punct .endArray]) r) :
    ∃ m, Reads d.skipSeparator.input x.tokens m ∧ d.skipSeparator.valueAllowed = true ∧
      (d.skipSeparator.valueEnd m).tokenState = .arrayComma ∧
      d.skipSeparator.tokenStack = d.tokenStack ∧ d.skipSeparator.numbers = d.numbers ∧
      Reads m (Doc.tokens.moreElements xs ++ [.punct .endArray]) r ∧ d.more = true := by
  rcases h with h | h
  · rw [elementsAhead, if_pos h, Doc.tokens.elements, List.append_assoc] at hr
    obtain ⟨m, hm, hr⟩ := (reads_append _).mp hr
    have hskip : d.skipSeparator = d := Decoder.skipSeparator_of_state (by simp [h])
    rw [hskip]
    refine ⟨m, hm, by simp [Decoder.valueAllowed, h],
      by simp [Decoder.valueEnd, Decoder.afterValue, h], rfl, rfl, hr, ?_⟩
    cases x <;> obtain ⟨_, hn, -⟩ := reads_cons.mp hm <;>
      exact (Decoder.more_of_next hn).mpr ⟨by simp, by simp⟩
  · rw [elementsAhead, if_neg (by simp [h]), Doc.tokens.moreElements, List.cons_append,
      List.append_assoc] at hr
    obtain ⟨r0, hn, hr⟩ := reads_cons.mp hr
    obtain ⟨m, hm, hr⟩ := (reads_append _).mp hr
    have hskip : d.skipSeparator = { d with input := r0, tokenState := .arrayValue } := by
      simp [Decoder.skipSeparator, hn, h]
    rw [hskip]
    exact ⟨m, hm, rfl, rfl, rfl, rfl, hr, (Decoder.more_of_next hn).mpr ⟨by simp, by simp⟩⟩

/-- Behind the last element the closing bracket ends the loop. -/
theorem reads_no_element (hr : Reads d.input (elementsAhead d [] ++ [.punct .endArray]) r) :
    next d.input = .token (.punct .endArray) r ∧ d.more = false := by
  have hnil : elementsAhead d [] = [] := by
    rw [elementsAhead]
    split <;> rfl
  rw [hnil, List.nil_append, reads_one] at hr
  refine ⟨hr, ?_⟩
  rw [Bool.eq_false_iff, Ne, Decoder.more_of_next hr]
  simp

/-- In front of the next member the decoder is about to read its name. -/
theorem reads_member (h : InObject d) {k : StrLit UInt8} {x : Doc UInt8}
    {ms : List (StrLit UInt8 × Doc UInt8)}
    (hr : Reads d.input (membersAhead d ((k, x) :: ms) ++ [.punct .endObject]) r) :
    ∃ r1 r2 m, next d.skipSeparator.input = .token (.str k) r1 ∧
      (d.skipSeparator.tokenState = .objectStart ∨ d.skipSeparator.tokenState = .objectKey) ∧
      next r1 = .token (.punct .nameSeparator) r2 ∧ Reads r2 x.tokens m ∧
      d.skipSeparator.tokenStack = d.tokenStack ∧ d.skipSeparator.numbers = d.numbers ∧
      Reads m (Doc.tokens.moreMembers ms ++ [.punct .endObject]) r ∧ d.more = true := by
  rcases h with h | h
  · rw [membersAhead, if_pos h, Doc.tokens.members, List.cons_append, List.cons_append,
      List.append_assoc] at hr
    obtain ⟨r1, hn1, hr⟩ := reads_cons.mp hr
    obtain ⟨r2, hn2, hr⟩ := reads_cons.mp hr
    obtain ⟨m, hm, hr⟩ := (reads_append _).mp hr
    have hskip : d.skipSeparator = d := Decoder.skipSeparator_of_state (by simp [h])
    rw [hskip]
    exact ⟨r1, r2, m, hn1, .inl h, hn2, hm, rfl, rfl, hr,
      (Decoder.more_of_next hn1).mpr ⟨by simp, by simp⟩⟩
  · rw [membersAhead, if_neg (by simp [h]), Doc.tokens.moreMembers, List.cons_append,
      List.cons_append, List.cons_append, List.append_assoc] at hr
    obtain ⟨r0, hn0, hr⟩ := reads_cons.mp hr
    obtain ⟨r1, hn1, hr⟩ := reads_cons.mp hr
    obtain ⟨r2, hn2, hr⟩ := reads_cons.mp hr
    obtain ⟨m, hm, hr⟩ := (reads_append _).mp hr
    have hskip : d.skipSeparator = { d with input := r0, tokenState := .objectKey } := by
      simp [Decoder.skipSeparator, hn0, h]
    rw [hskip]
    exact ⟨r1, r2, m, hn1, .inr rfl, hn2, hm, rfl, rfl, hr,
      (Decoder.more_of_next hn0).mpr ⟨by simp, by simp⟩⟩

theorem reads_no_member (hr : Reads d.input (membersAhead d [] ++ [.punct .endObject]) r) :
    next d.input = .token (.punct .endObject) r ∧ d.more = false := by
  have hnil : membersAhead d [] = [] := by
    rw [membersAhead]
    split <;> rfl
  rw [hnil, List.nil_append, reads_one] at hr
  refine ⟨hr, ?_⟩
  rw [Bool.eq_false_iff, Ne, Decoder.more_of_next hr]
  simp

end Ahead

theorem skipSeparator_frame (d : Decoder) :
    d.skipSeparator.tokenStack = d.tokenStack ∧ d.skipSeparator.numbers = d.numbers := by
  rcases Decoder.skipSeparator_cases d with h | ⟨_, _, _, h⟩ | ⟨_, _, _, h⟩ | ⟨_, _, _, h⟩ <;>
    rw [h] <;> exact ⟨rfl, rfl⟩

/-- The walk steps over an admissible value it is in front of. -/
def WalksOver (depth : Nat) (doc : Doc UInt8) : Prop :=
  ∀ (fuel : Nat) {d : Decoder} {r : Bytes}, d.numbers = true → Admissible depth doc →
    d.skipSeparator.valueAllowed = true → Reads d.skipSeparator.input doc.tokens r →
    doc.tokens.length < fuel → walkJsonValue fuel d depth = some (d.skipSeparator.valueEnd r)

theorem walkElements_of_reads {depth : Nat} {xs : List (Doc UInt8)}
    (hxs : ∀ x ∈ xs, WalksOver depth x ∧ Admissible depth x) :
    ∀ (fuel : Nat) {d : Decoder} {r : Bytes}, d.numbers = true → InArray d →
      Reads d.input (elementsAhead d xs ++ [.punct .endArray]) r →
      (elementsAhead d xs).length + 1 < fuel →
      ∃ d', walkElements fuel d depth = some d' ∧ InArray d' ∧
        next d'.input = .token (.punct .endArray) r ∧ d'.tokenStack = d.tokenStack ∧
        d'.numbers = true := by
  induction xs with
  | nil =>
    intro fuel d r hnum hin hr hfuel
    obtain ⟨fuel, rfl⟩ := Nat.exists_eq_succ_of_ne_zero (Nat.ne_of_gt (Nat.zero_lt_of_lt hfuel))
    obtain ⟨hn, hmore⟩ := reads_no_element hr
    exact ⟨d, by rw [walkElements, hmore]; rfl, hin, hn, rfl, hnum⟩
  | cons x xs ih =>
    intro fuel d r hnum hin hr hfuel
    obtain ⟨fuel, rfl⟩ := Nat.exists_eq_succ_of_ne_zero (Nat.ne_of_gt (Nat.zero_lt_of_lt hfuel))
    obtain ⟨hx, hxs⟩ := List.forall_mem_cons.mp hxs
    have hlen : x.tokens.length + (Doc.tokens.moreElements xs).length
        ≤ (elementsAhead d (x :: xs)).length := by
      rw [elementsAhead]
      split <;> simp [Doc.tokens.elements, Doc.tokens.moreElements]
    have hpos := List.length_pos_of_ne_nil x.tokens_ne_nil
    obtain ⟨m, hm, hallowed, hstate, hstack, hnumbers, hr, hmore⟩ := reads_element hin hr
    have hwalk := hx.1 fuel hnum hx.2 hallowed hm (by omega)
    -- behind the element the decoder stands between elements again
    have hahead : elementsAhead (d.skipSeparator.valueEnd m) xs = Doc.tokens.moreElements xs := by
      rw [elementsAhead, if_neg (by simp [hstate])]
    obtain ⟨d', hd', hin', hn', hstack', hnum'⟩ := ih hxs fuel
      (d := d.skipSeparator.valueEnd m) (r := r) (hnumbers.trans hnum) (.inr hstate)
      (by rw [hahead]; exact hr) (by rw [hahead]; omega)
    refine ⟨d', ?_, hin', hn', hstack'.trans hstack, hnum'⟩
    rw [walkElements, hmore, hwalk]
    exact hd'

theorem walkMembers_of_reads {depth : Nat} {ms : List (StrLit UInt8 × Doc UInt8)}
    (hms : ∀ m ∈ ms, WalksOver depth m.2 ∧ Admissible depth m.2) :
    ∀ (fuel : Nat) (names : List Bytes) {d : Decoder} {r : Bytes}, d.numbers = true → InObject d →
      Reads d.input (membersAhead d ms ++ [.punct .endObject]) r →
      (ms.map fun m => unquote m.1).Nodup → (∀ m ∈ ms, unquote m.1 ∉ names) →
      (membersAhead d ms).length + 1 < fuel →
      ∃ d', walkMembers fuel d depth names = some d' ∧ InObject d' ∧
        next d'.input = .token (.punct .endObject) r ∧ d'.tokenStack = d.tokenStack ∧
        d'.numbers = true := by
  induction ms with
  | nil =>
    intro fuel names d r hnum hin hr _ _ hfuel
    obtain ⟨fuel, rfl⟩ := Nat.exists_eq_succ_of_ne_zero (Nat.ne_of_gt (Nat.zero_lt_of_lt hfuel))
    obtain ⟨hn, hmore⟩ := reads_no_member hr
    exact ⟨d, by rw [walkMembers, hmore]; rfl, hin, hn, rfl, hnum⟩
  | cons kx ms ih =>
    obtain ⟨k, x⟩ := kx
    intro fuel names d r hnum hin hr hnodup hnew hfuel
    obtain ⟨fuel, rfl⟩ := Nat.exists_eq_succ_of_ne_zero (Nat.ne_of_gt (Nat.zero_lt_of_lt hfuel))
    obtain ⟨hx, hms⟩ := List.forall_mem_cons.mp hms
    have hx : WalksOver depth x ∧ Admissible depth x := hx
    obtain ⟨hk, hnew⟩ := List.forall_mem_cons.mp hnew
    rw [List.map_cons, List.nodup_cons] at hnodup
    have hnew' : ∀ m ∈ ms, unquote m.1 ∉ unquote k :: names := by
      intro m hm hmem
      rcases List.mem_cons.mp hmem with heq | hmem
      · exact hnodup.1 (heq ▸ List.mem_map_of_mem hm)
      · exact hnew m hm hmem
    have hlen : 2 + x.tokens.length + (Doc.tokens.moreMembers ms).length
        ≤ (membersAhead d ((k, x) :: ms)).length := by
      rw [membersAhead]
      split <;> simp [Doc.tokens.members, Doc.tokens.moreMembers] <;> omega
    obtain ⟨r1, r2, m, hn1, hstate, hn2, hm, hstack, hnumbers, hr, hmore⟩ := reads_member hin hr
    have hname := Decoder.token_ok_iff.mpr (Decoder.Step.name hn1 hstate)
    -- behind the name a colon has to be skipped in front of the value
    generalize hd1 : ({ d.skipSeparator with input := r1, tokenState := .objectColon } : Decoder)
      = d1 at hname
    have hskip1 : d1.skipSeparator = { d1 with input := r2, tokenState := .objectValue } := by
      subst hd1
      simp [Decoder.skipSeparator, hn2]
    have hnum1 : d1.numbers = true := by subst hd1; exact hnumbers.trans hnum
    have hwalk := hx.1 fuel (d := d1) hnum1 hx.2 (by rw [hskip1]; rfl)
      (by rw [hskip1]; exact hm) (by omega)
    have hahead : membersAhead (d1.skipSeparator.valueEnd m) ms = Doc.tokens.moreMembers ms := by
      rw [membersAhead, if_neg]
      simp [hskip1, Decoder.valueEnd, Decoder.afterValue]
    obtain ⟨d', hd', hin', hn', hstack', hnum'⟩ := ih hms fuel (unquote k :: names)
      (d := d1.skipSeparator.valueEnd m) (r := r)
      (by rw [hskip1]; exact hnum1)
      (.inr (by simp [hskip1, Decoder.valueEnd, Decoder.afterValue]))
      (by rw [hahead]; exact hr) hnodup.2 hnew' (by rw [hahead]; omega)
    refine ⟨d', ?_, hin', hn', ?_, hnum'⟩
    · rw [walkMembers, hmore, hname]
      simp only [if_true, hk, if_false, hwalk, hd']
    · rw [hstack', hskip1, ← hd1]
      exact hstack

/-- Stepping out of a container is stepping over it. -/
theorem pop_eq_valueEnd {d d' : Decoder} {r : Bytes} (hstack : d'.tokenStack = d.tokenState :: d.tokenStack)
    (hnum : d'.numbers = d.numbers) : d'.pop r = d.valueEnd r := by
  simp only [Decoder.pop, hstack, Decoder.valueEnd, hnum]

theorem walksOver (doc : Doc UInt8) : ∀ depth, WalksOver depth doc := by
  induction doc using Doc.induct with
  | null =>
    intro depth fuel d r hnum _ hallowed hr hfuel
    obtain ⟨fuel, rfl⟩ := Nat.exists_eq_succ_of_ne_zero (Nat.ne_of_gt (Nat.zero_lt_of_lt hfuel))
    rw [walkJsonValue, Decoder.token_ok_iff.mpr (.scalar .null hr hallowed)]
  | bool b =>
    intro depth fuel d r hnum _ hallowed hr hfuel
    obtain ⟨fuel, rfl⟩ := Nat.exists_eq_succ_of_ne_zero (Nat.ne_of_gt (Nat.zero_lt_of_lt hfuel))
    rw [walkJsonValue, Decoder.token_ok_iff.mpr (.scalar .bool hr hallowed)]
  | num n =>
    intro depth fuel d r hnum _ hallowed hr hfuel
    obtain ⟨fuel, rfl⟩ := Nat.exists_eq_succ_of_ne_zero (Nat.ne_of_gt (Nat.zero_lt_of_lt hfuel))
    have hnum' : d.skipSeparator.numbers = true := (skipSeparator_frame d).2.trans hnum
    rw [walkJsonValue, Decoder.token_ok_iff.mpr (.scalar (.number hnum') hr hallowed)]
  | str items =>
    intro depth fuel d r hnum _ hallowed hr hfuel
    obtain ⟨fuel, rfl⟩ := Nat.exists_eq_succ_of_ne_zero (Nat.ne_of_gt (Nat.zero_lt_of_lt hfuel))
    rw [walkJsonValue, Decoder.token_ok_iff.mpr (.scalar .str hr hallowed)]
  | arr xs ih =>
    intro depth fuel d r hnum hadm hallowed hr hfuel
    obtain ⟨fuel, rfl⟩ := Nat.exists_eq_succ_of_ne_zero (Nat.ne_of_gt (Nat.zero_lt_of_lt hfuel))
    obtain ⟨hlt, hadm⟩ := admissible_arr.mp hadm
    simp only [Doc.tokens, List.length_cons, List.length_append, List.length_nil] at hr hfuel
    obtain ⟨r0, hn, hr⟩ := reads_cons.mp hr
    have hopen := Decoder.token_ok_iff.mpr (Decoder.Step.beginArray hn hallowed)
    -- the loop goes over the elements and stops in front of the bracket
    obtain ⟨d', hd', hin, hn', hstack, hnum'⟩ := walkElements_of_reads
      (fun x hx => ⟨ih x hx (depth + 1), hadm x hx⟩) fuel
      (d := d.skipSeparator.push .arrayStart r0) (r := r)
      ((skipSeparator_frame d).2.trans hnum) (.inl rfl)
      (by simpa [elementsAhead, Decoder.push] using hr)
      (by simp only [elementsAhead, Decoder.push, if_true]; omega)
    have hskip : d'.skipSeparator = d' := by simp [Decoder.skipSeparator, hn']
    have hclose : d'.token = .ok (.delim .endArray, d'.pop r) :=
      Decoder.token_ok_iff.mpr (by rw [hskip]; exact .endArray hn' hin)
    rw [walkJsonValue, hopen]
    simp only [if_neg (Nat.not_lt.mpr hlt), hd']
    simp only [hclose, ne_eq, not_true_eq_false, and_false, if_false, reduceCtorEq, if_true, Option.some.injEq]
    exact pop_eq_valueEnd hstack (hnum'.trans ((skipSeparator_frame d).2.trans hnum).symm)
  | obj ms ih =>
    intro depth fuel d r hnum hadm hallowed hr hfuel
    obtain ⟨fuel, rfl⟩ := Nat.exists_eq_succ_of_ne_zero (Nat.ne_of_gt (Nat.zero_lt_of_lt hfuel))
    obtain ⟨hlt, hnodup, hadm⟩ := admissible_obj.mp hadm
    simp only [Doc.tokens, List.length_cons, List.length_append, List.length_nil] at hr hfuel
    obtain ⟨r0, hn, hr⟩ := reads_cons.mp hr
    have hopen := Decoder.token_ok_iff.mpr (Decoder.Step.beginObject hn hallowed)
    -- the loop goes over the members and stops in front of the brace
    obtain ⟨d', hd', hin, hn', hstack, hnum'⟩ := walkMembers_of_reads
      (fun m hm => ⟨ih m hm (depth + 1), hadm m hm⟩) fuel []
      (d := d.skipSeparator.push .objectStart r0) (r := r)
      ((skipSeparator_frame d).2.trans hnum) (.inl rfl)
      (by simpa [membersAhead, Decoder.push] using hr) hnodup (by simp)
      (by simp only [membersAhead, Decoder.push, if_true]; omega)
    have hskip : d'.skipSeparator = d' := by simp [Decoder.skipSeparator, hn']
    have hclose : d'.token = .ok (.delim .endObject, d'.pop r) :=
      Decoder.token_ok_iff.mpr (by rw [hskip]; exact .endObject hn' hin)
    rw [walkJsonValue, hopen]
    simp only [if_neg (Nat.not_lt.mpr hlt), hd']
    simp only [hclose, ne_eq, not_true_eq_false, false_and, if_false, reduceCtorEq, if_true, Option.some.injEq]
    exact pop_eq_valueEnd hstack (hnum'.trans ((skipSeparator_frame d).2.trans hnum).symm)

/-! ## The walk accepts nothing else -/

section Back

variable {d d' : Decoder}

/-- A closing bracket is returned only if it is what comes next. -/
theorem close_array (h : d.token = .ok (.delim .endArray, d')) :
    ∃ r, next d.input = .token (.punct .endArray) r ∧ d' = d.pop r := by
  cases Decoder.token_ok_iff.mp h with
  | endArray hn hs =>
    rcases Decoder.skipSeparator_cases d with he | ⟨_, _, _, he⟩ | ⟨_, _, _, he⟩ | ⟨_, _, _, he⟩ <;>
      rw [he] at hn hs ⊢
    · exact ⟨_, hn, rfl⟩
    all_goals simp at hs
  | scalar hs _ _ => cases hs

theorem close_object (h : d.token = .ok (.delim .endObject, d')) :
    ∃ r, next d.input = .token (.punct .endObject) r ∧ d' = d.pop r := by
  cases Decoder.token_ok_iff.mp h with
  | endObject hn hs =>
    rcases Decoder.skipSeparator_cases d with he | ⟨_, _, _, he⟩ | ⟨_, _, _, he⟩ | ⟨_, _, _, he⟩ <;>
      rw [he] at hn hs ⊢
    · exact ⟨_, hn, rfl⟩
    all_goals simp at hs
  | scalar hs _ _ => cases hs

/-- A value read between the elements of an array is the next element. -/
theorem ahead_of_element (h : InArray d) (hallowed : d.skipSeparator.valueAllowed = true)
    {x : Doc UInt8} {m : Bytes} (hm : Reads d.skipSeparator.input x.tokens m) :
    (d.skipSeparator.valueEnd m).tokenState = .arrayComma ∧
      ∀ {xs : List (Doc UInt8)} {r : Bytes}, Reads m (Doc.tokens.moreElements xs ++ [.punct .endArray]) r →
        Reads d.input (elementsAhead d (x :: xs) ++ [.punct .endArray]) r := by
  rcases h with h | h
  · have hskip : d.skipSeparator = d := Decoder.skipSeparator_of_state (by simp [h])
    rw [hskip] at hm ⊢
    refine ⟨by simp [Decoder.valueEnd, Decoder.afterValue, h], fun {xs r} hr => ?_⟩
    rw [elementsAhead, if_pos h, Doc.tokens.elements, List.append_assoc]
    exact (reads_append _).mpr ⟨m, hm, hr⟩
  · rcases Decoder.skipSeparator_cases d with he | ⟨_, _, hs, _⟩ | ⟨_, hn, _, he⟩ | ⟨_, _, hs, _⟩
    · rw [he] at hallowed
      simp [Decoder.valueAllowed, h] at hallowed
    · rw [h] at hs; cases hs
    · rw [he] at hm ⊢
      refine ⟨rfl, fun {xs r} hr => ?_⟩
      rw [elementsAhead, if_neg (by simp [h]), Doc.tokens.moreElements, List.cons_append,
        List.append_assoc]
      exact .cons hn ((reads_append _).mpr ⟨m, hm, hr⟩)
    · rw [h] at hs; cases hs

/-- A string read between the members of an object is the next name. -/
theorem ahead_of_name (h : InObject d) {name : Bytes} (ht : d.token = .ok (.string name, d')) :
    ∃ k r1, unquote k = name ∧
      d' = { d.skipSeparator with input := r1, tokenState := .objectColon } ∧
      ∀ {x : Doc UInt8} {ms : List (StrLit UInt8 × Doc UInt8)} {r2 m r : Bytes},
        next r1 = .token (.punct .nameSeparator) r2 → Reads r2 x.tokens m →
        Reads m (Doc.tokens.moreMembers ms ++ [.punct .endObject]) r →
        Reads d.input (membersAhead d ((k, x) :: ms) ++ [.punct .endObject]) r := by
  -- between the members only a name is allowed
  have hnot : d.skipSeparator.valueAllowed = false := by
    rcases Decoder.skipSeparator_cases d with he | ⟨_, _, hs, _⟩ | ⟨_, _, hs, _⟩ | ⟨_, _, _, he⟩
    · rw [he]
      rcases h with h | h <;> simp [Decoder.valueAllowed, h]
    · rcases h with h | h <;> rw [h] at hs <;> cases hs
    · rcases h with h | h <;> rw [h] at hs <;> cases hs
    · rw [he]; rfl
  cases Decoder.token_ok_iff.mp ht with
  | scalar _ _ hallowed => rw [hnot] at hallowed; cases hallowed
  | @name r1 k hn hs =>
    refine ⟨k, r1, rfl, rfl, ?_⟩
    intro x ms r2 m r hn2 hm hr
    have hall : Reads d.skipSeparator.input
        (.str k :: .punct .nameSeparator :: (x.tokens ++ (Doc.tokens.moreMembers ms ++
          [.punct .endObject]))) r := .cons hn (.cons hn2 ((reads_append _).mpr ⟨m, hm, hr⟩))
    rcases h with h | h
    · rw [Decoder.skipSeparator_of_state (by simp [h])] at hall
      rwa [membersAhead, if_pos h, Doc.tokens.members, List.cons_append, List.cons_append,
        List.append_assoc]
    · rcases Decoder.skipSeparator_cases d with he | ⟨_, _, hs', _⟩ | ⟨_, _, hs', _⟩ | ⟨_, hn0, _, he⟩
      · rw [he, h] at hs
        simp at hs
      · rw [h] at hs'; cases hs'
      · rw [h] at hs'; cases hs'
      · rw [he] at hall
        rw [membersAhead, if_neg (by simp [h]), Doc.tokens.moreMembers, List.cons_append,
          List.cons_append, List.cons_append, List.append_assoc]
        exact .cons hn0 hall

/-- A value read behind a name stands behind a colon. -/
theorem ahead_of_value (h : d.tokenState = .objectColon)
    (hallowed : d.skipSeparator.valueAllowed = true) :
    ∃ r, next d.input = .token (.punct .nameSeparator) r ∧
      d.skipSeparator = { d with input := r, tokenState := .objectValue } := by
  rcases Decoder.skipSeparator_cases d with he | ⟨r, hn, _, he⟩ | ⟨_, _, hs, _⟩ | ⟨_, _, hs, _⟩
  · rw [he] at hallowed
    simp [Decoder.valueAllowed, h] at hallowed
  · exact ⟨r, hn, he⟩
  · rw [h] at hs; cases hs
  · rw [h] at hs; cases hs

end Back

/-- The decoder is not in front of a name. -/
def AtValue (d : Decoder) : Prop :=
  ¬ (d.skipSeparator.tokenState = .objectStart ∨ d.skipSeparator.tokenState = .objectKey)

theorem InArray.atValue {d : Decoder} (h : InArray d) : AtValue d := by
  rcases Decoder.skipSeparator_cases d with he | ⟨_, _, hs, _⟩ | ⟨_, _, _, he⟩ | ⟨_, _, hs, _⟩
  · rw [AtValue, he]
    rcases h with h | h <;> simp [h]
  · rcases h with h | h <;> rw [h] at hs <;> cases hs
  · rw [AtValue, he]
    simp
  · rcases h with h | h <;> rw [h] at hs <;> cases hs

theorem atValue_of_colon {d : Decoder} (h : d.tokenState = .objectColon) : AtValue d := by
  rcases Decoder.skipSeparator_cases d with he | ⟨_, _, _, he⟩ | ⟨_, _, hs, _⟩ | ⟨_, _, hs, _⟩
  · rw [AtValue, he]
    simp [h]
  · rw [AtValue, he]
    simp
  · rw [h] at hs; cases hs
  · rw [h] at hs; cases hs

/-- What a successful walk over one value says. -/
def Walked (d d' : Decoder) (depth : Nat) : Prop :=
  ∃ (doc : Doc UInt8) (r : Bytes), d.skipSeparator.valueAllowed = true ∧
    Reads d.skipSeparator.input doc.tokens r ∧ d' = d.skipSeparator.valueEnd r ∧
    Admissible depth doc

/-- A walk that succeeds has stepped over admissible documents. -/
structure WalkSound (fuel : Nat) : Prop where
  value : ∀ {depth d d'}, walkJsonValue fuel d depth = some d' → d.numbers = true → AtValue d →
    Walked d d' depth
  elements : ∀ {depth d d'}, walkElements fuel d depth = some d' → d.numbers = true → InArray d →
    ∃ xs : List (Doc UInt8), d'.tokenStack = d.tokenStack ∧ d'.numbers = true ∧
      (∀ x ∈ xs, Admissible depth x) ∧ ∀ {r}, next d'.input = .token (.punct .endArray) r →
        Reads d.input (elementsAhead d xs ++ [.punct .endArray]) r
  members : ∀ {depth names d d'}, walkMembers fuel d depth names = some d' → d.numbers = true →
    InObject d →
    ∃ ms : List (StrLit UInt8 × Doc UInt8), d'.tokenStack = d.tokenStack ∧ d'.numbers = true ∧
      (ms.map fun m => unquote m.1).Nodup ∧ (∀ m ∈ ms, unquote m.1 ∉ names) ∧
      (∀ m ∈ ms, Admissible depth m.2) ∧ ∀ {r}, next d'.input = .token (.punct .endObject) r →
        Reads d.input (membersAhead d ms ++ [.punct .endObject]) r

theorem admissible_scalar {numbers : Bool} {doc : Doc UInt8} {t : JsonToken} {depth : Nat}
    (h : Decoder.Scalar numbers doc t) : Admissible depth doc := by
  cases h <;> exact ⟨trivial, Nat.zero_le _⟩

/-- A value token other than a delimiter. -/
theorem walked_scalar {d d' : Decoder} {t : JsonToken} {depth : Nat} (hat : AtValue d)
    (h : d.token = .ok (t, d')) (ht : ∀ p, t ≠ .delim p) : Walked d d' depth := by
  cases Decoder.token_ok_iff.mp h with
  | beginArray _ _ => exact absurd rfl (ht _)
  | endArray _ _ => exact absurd rfl (ht _)
  | beginObject _ _ => exact absurd rfl (ht _)
  | endObject _ _ => exact absurd rfl (ht _)
  | name _ hs => exact absurd hs hat
  | @scalar r doc _ hs hr hallowed => exact ⟨doc, r, hallowed, hr, rfl, admissible_scalar hs⟩

/-- The walk over an array, once the loop over its elements is known to be sound. -/
theorem walked_array {d d1 d2 d3 : Decoder} {depth fuel : Nat} (ih : WalkSound fuel)
    (hnum : d.numbers = true) (hopen : d.token = .ok (.delim .beginArray, d1))
    (hlt : ¬ depth + 1 > maxJsonContainerDepth) (hloop : walkElements fuel d1 (depth + 1) = some d2)
    (hclose : d2.token = .ok (.delim .endArray, d3)) : Walked d d3 depth := by
  have hframe := skipSeparator_frame d
  cases Decoder.token_ok_iff.mp hopen with
  | scalar hs _ _ => cases hs
  | @beginArray r0 hn hallowed =>
    obtain ⟨xs, hstack, hnum2, hadm, hreads⟩ := ih.elements hloop (hframe.2.trans hnum) (.inl rfl)
    obtain ⟨r, hend, rfl⟩ := close_array hclose
    refine ⟨.arr xs, r, hallowed, ?_, ?_, admissible_arr.mpr ⟨Nat.not_lt.mp hlt, hadm⟩⟩
    · have hall := hreads hend
      simp only [elementsAhead, Decoder.push, if_true] at hall
      exact .cons hn hall
    · exact pop_eq_valueEnd hstack (hnum2.trans (hframe.2.trans hnum).symm)

theorem walked_object {d d1 d2 d3 : Decoder} {depth fuel : Nat} (ih : WalkSound fuel)
    (hnum : d.numbers = true) (hopen : d.token = .ok (.delim .beginObject, d1))
    (hlt : ¬ depth + 1 > maxJsonContainerDepth)
    (hloop : walkMembers fuel d1 (depth + 1) [] = some d2)
    (hclose : d2.token = .ok (.delim .endObject, d3)) : Walked d d3 depth := by
  have hframe := skipSeparator_frame d
  cases Decoder.token_ok_iff.mp hopen with
  | scalar hs _ _ => cases hs
  | @beginObject r0 hn hallowed =>
    obtain ⟨ms, hstack, hnum2, hnodup, -, hadm, hreads⟩ :=
      ih.members hloop (hframe.2.trans hnum) (.inl rfl)
    obtain ⟨r, hend, rfl⟩ := close_object hclose
    refine ⟨.obj ms, r, hallowed, ?_, ?_, admissible_obj.mpr ⟨Nat.not_lt.mp hlt, hnodup, hadm⟩⟩
    · have hall := hreads hend
      simp only [membersAhead, Decoder.push, if_true] at hall
      exact .cons hn hall
    · exact pop_eq_valueEnd hstack (hnum2.trans (hframe.2.trans hnum).symm)

theorem walkSound (fuel : Nat) : WalkSound fuel := by
  induction fuel with
  | zero =>
    exact ⟨fun h => by simp [walkJsonValue] at h, fun h => by simp [walkElements] at h,
      fun h => by simp [walkMembers] at h⟩
  | succ fuel ih =>
    refine ⟨?_, ?_, ?_⟩
    · -- a value: its first token says which document it is
      intro depth d d' h hnum hat
      rw [walkJsonValue] at h
      split at h
      · cases h
      · rename_i ht; cases h; exact walked_scalar hat ht (by simp)
      · rename_i ht; cases h; exact walked_scalar hat ht (by simp)
      · rename_i ht; cases h; exact walked_scalar hat ht (by simp)
      · rename_i ht; cases h; exact walked_scalar hat ht (by simp)
      · cases h
      · rename_i p d1 hopen
        split at h
        · cases h
        rename_i hp
        split at h
        · cases h
        rename_i hlt
        by_cases harr : p = .beginArray
        · subst harr
          simp only [reduceCtorEq, if_false, if_true] at h
          split at h
          · cases h
          rename_i d2 hloop
          split at h
          · cases h
          rename_i closing d3 hclose
          split at h
          · rename_i hc
            cases h
            exact walked_array ih hnum hopen hlt hloop (hc ▸ hclose)
          · cases h
        · have hobj : p = .beginObject := by
            by_contra hne
            exact hp ⟨hne, harr⟩
          subst hobj
          simp only [reduceCtorEq, if_false, if_true] at h
          split at h
          · cases h
          rename_i d2 hloop
          split at h
          · cases h
          rename_i closing d3 hclose
          split at h
          · rename_i hc
            cases h
            exact walked_object ih hnum hopen hlt hloop (hc ▸ hclose)
          · cases h
    · -- elements: a value and the elements behind it, or none where the array ends
      intro depth d d' h hnum hin
      rw [walkElements] at h
      split at h
      · split at h
        · cases h
        rename_i d1 hwalk
        obtain ⟨x, m, hallowed, hm, rfl, hx⟩ := ih.value hwalk hnum hin.atValue
        have hstate := (ahead_of_element hin hallowed hm).1
        obtain ⟨xs, hstack, hnum', hadm, hreads⟩ := ih.elements h
          ((skipSeparator_frame d).2.trans hnum) (.inr hstate)
        refine ⟨x :: xs, hstack.trans (skipSeparator_frame d).1, hnum',
          List.forall_mem_cons.mpr ⟨hx, hadm⟩, fun {r} hend => ?_⟩
        have hr := hreads hend
        rw [elementsAhead, if_neg (by simp [hstate])] at hr
        exact (ahead_of_element hin hallowed hm).2 hr
      · cases h
        refine ⟨[], rfl, hnum, by simp, fun {r} hend => ?_⟩
        have hnil : elementsAhead d [] = [] := by
          rw [elementsAhead]
          split <;> rfl
        rw [hnil]
        exact reads_one.mpr hend
    · -- members: the names so far are handed on, so a name that is repeated is refused
      intro depth names d d' h hnum hin
      rw [walkMembers] at h
      split at h
      · split at h
        · rename_i name d1 ht
          split at h
          · cases h
          rename_i hfresh
          split at h
          · cases h
          rename_i d2 hwalk
          obtain ⟨k, r1, rfl, rfl, hahead⟩ := ahead_of_name hin ht
          obtain ⟨x, m, hallowed, hm, rfl, hx⟩ := ih.value hwalk ((skipSeparator_frame d).2.trans hnum)
            (atValue_of_colon rfl)
          obtain ⟨r2, hn2, hskip⟩ := ahead_of_value rfl hallowed
          rw [hskip] at hm h
          obtain ⟨ms, hstack, hnum', hnodup, hnew, hadm, hreads⟩ := ih.members h
            ((skipSeparator_frame d).2.trans hnum) (.inr rfl)
          refine ⟨(k, x) :: ms, hstack.trans (skipSeparator_frame d).1, hnum', ?_, ?_,
            List.forall_mem_cons.mpr ⟨hx, hadm⟩, fun {r} hend => ?_⟩
          · rw [List.map_cons, List.nodup_cons]
            refine ⟨fun hmem => ?_, hnodup⟩
            obtain ⟨m', hm', heq⟩ := List.mem_map.mp hmem
            exact hnew m' hm' (heq ▸ List.mem_cons_self)
          · exact List.forall_mem_cons.mpr ⟨hfresh, fun m' hm' hmem =>
              hnew m' hm' (List.mem_cons_of_mem _ hmem)⟩
          · have hr := hreads hend
            rw [membersAhead, if_neg (by simp [Decoder.valueEnd, Decoder.afterValue])] at hr
            exact hahead hn2 hm hr
        · cases h
      · cases h
        refine ⟨[], rfl, hnum, by simp, by simp, by simp, fun {r} hend => ?_⟩
        have hnil : membersAhead d [] = [] := by
          rw [membersAhead]
          split <;> rfl
        rw [hnil]
        exact reads_one.mpr hend

/-! ## Strict documents -/

/-- The walk and the check for the end of the input accept the JSON texts of admissible documents. -/
theorem walk_text_iff (raw : Bytes) :
    (∃ d, walkJsonValue (raw.length + 1) (newDecoder raw).useNumber 0 = some d ∧
      d.token = .error .eof) ↔ ∃ doc, JsonText raw doc ∧ Admissible 0 doc := by
  have hskip : (newDecoder raw).useNumber.skipSeparator = (newDecoder raw).useNumber :=
    Decoder.skipSeparator_of_state (by simp [Decoder.useNumber, newDecoder])
  have hend : ∀ r, ((newDecoder raw).useNumber.valueEnd r).token = .error .eof ↔
      next r = .eof := by
    intro r
    have hstate : ((newDecoder raw).useNumber.valueEnd r).tokenState = .topValue := rfl
    rw [Decoder.token, Decoder.skipSeparator_of_state (by simp [hstate])]
    exact Decoder.tokenAt_eof_iff
  constructor
  · rintro ⟨d, hwalk, heof⟩
    obtain ⟨doc, r, -, hr, rfl, hadm⟩ := (walkSound _).value hwalk rfl (by
      rw [AtValue, hskip]
      simp [Decoder.useNumber, newDecoder])
    rw [hskip] at hr heof
    exact ⟨doc, jsonText_iff_lexes.mpr (lexes_iff_reads.mpr ⟨r, hr, (hend r).mp heof⟩), hadm⟩
  · rintro ⟨doc, htext, hadm⟩
    obtain ⟨r, hr, heof⟩ := lexes_iff_reads.mp (jsonText_iff_lexes.mp htext)
    have hlen := hr.length_le
    refine ⟨_, walksOver doc 0 _ rfl hadm (by rw [hskip]; rfl) (by rw [hskip]; exact hr) (by omega), ?_⟩
    rw [hskip]
    exact (hend r).mpr heof

/-- The strict parse profile of a document: names that are distinct after decoding, paired surrogate
escapes, bounded nesting. -/
structure StrictProfile (doc : Doc Char) : Prop where
  names : doc.UniqueNames codePoints
  surrogates : doc.AllStrings PairedSurrogates
  depth_le : doc.depth ≤ maxJsonContainerDepth

/-- `raw` is UTF-8 for a JSON text of `doc`, and `doc` keeps the strict parse profile. -/
def StrictDocument (raw : Bytes) (doc : Doc Char) : Prop :=
  ∃ text, encode text = raw ∧ JsonText text doc ∧ StrictProfile doc

/-- Names that decode to the same bytes decode to the same code points. -/
theorem unquote_eq_iff {s t : StrLit Char} (hs : PairedSurrogates s) (ht : PairedSurrogates t) :
    unquote (StrLit.encode s) = unquote (StrLit.encode t) ↔ codePoints s = codePoints t := by
  rw [unquote_encode, unquote_encode, encode_injective.eq_iff, codePoints_inj hs ht]

theorem admissible_encode {doc : Doc Char} (hs : doc.AllStrings PairedSurrogates) :
    Admissible 0 doc.encode ↔ doc.UniqueNames codePoints ∧ doc.depth ≤ maxJsonContainerDepth := by
  have hnames : doc.encode.UniqueNames unquote ↔ doc.UniqueNames codePoints := by
    rw [Doc.encode, Doc.uniqueNames_map]
    exact Doc.uniqueNames_congr (fun s t => unquote_eq_iff) hs
  have hdepth : doc.encode.depth = doc.depth := Doc.depth_map _ doc
  constructor
  · rintro ⟨h1, h2⟩
    exact ⟨hnames.mp h1, by omega⟩
  · rintro ⟨h1, h2⟩
    exact ⟨hnames.mpr h1, by omega⟩

theorem surrogates_encode {text : List Char} {doc : Doc Char} (h : JsonText text doc) :
    hasValidSurrogateEscapes (encode text) = true ↔ doc.AllStrings PairedSurrogates := by
  rw [hasValidSurrogateEscapes_text (jsonText_encode.mpr ⟨doc, h, rfl⟩), Doc.encode,
    Doc.allStrings_map]
  simp only [pairedSurrogates_encode]

theorem strictDocument_of_validate {raw : Bytes} (h : validateStrictDocument raw = true) :
    ∃ doc, StrictDocument raw doc := by
  rw [validateStrictDocument] at h
  split at h
  · cases h
  rename_i hpre
  rw [Bool.or_eq_true, Bool.not_eq_true', Bool.not_eq_true', not_or, Bool.not_eq_false,
    Bool.not_eq_false, valid_iff] at hpre
  obtain ⟨⟨text, rfl⟩, hsurr⟩ := hpre
  have hwalk : ∃ d, walkJsonValue ((encode text).length + 1) (newDecoder (encode text)).useNumber 0
      = some d ∧ d.token = .error .eof := by
    split at h
    · cases h
    · rename_i d hd
      split at h
      · rename_i heof
        exact ⟨d, hd, heof⟩
      · cases h
  obtain ⟨doc', htext', hadm⟩ := (walk_text_iff _).mp hwalk
  obtain ⟨doc, htext, rfl⟩ := jsonText_encode.mp htext'
  have hpaired := (surrogates_encode htext).mp hsurr
  obtain ⟨hnames, hdepth⟩ := (admissible_encode hpaired).mp hadm
  exact ⟨doc, text, rfl, htext, hnames, hpaired, hdepth⟩

theorem validate_of_strictDocument {raw : Bytes} {doc : Doc Char} (h : StrictDocument raw doc) :
    validateStrictDocument raw = true := by
  obtain ⟨text, rfl, htext, hnames, hpaired, hdepth⟩ := h
  obtain ⟨d, hd, heof⟩ := (walk_text_iff (encode text)).mpr
    ⟨doc.encode, jsonText_encode.mpr ⟨doc, htext, rfl⟩, (admissible_encode hpaired).mpr ⟨hnames, hdepth⟩⟩
  have hvalid := (valid_iff (encode text)).mpr ⟨text, rfl⟩
  have hsurr := (surrogates_encode htext).mpr hpaired
  simp only [validateStrictDocument, hvalid, hsurr, hd, heof, Bool.not_true, Bool.or_self,
    Bool.false_eq_true, if_false]

/-- `validateStrictDocument` accepts exactly the strict parse profile: valid UTF-8 for one JSON value
with whitespace around it, no two members of an object whose names decode alike, every escape of a
surrogate part of an adjacent pair, and at most 16 containers open at any point. -/
theorem validateStrictDocument_iff (raw : Bytes) :
    validateStrictDocument raw = true ↔
      ∃ (text : List Char) (doc : Doc Char), encode text = raw ∧ JsonText text doc ∧
        doc.UniqueNames codePoints ∧ doc.AllStrings PairedSurrogates ∧ doc.depth ≤ 16 := by
  constructor
  · intro h
    obtain ⟨doc, text, hraw, htext, hnames, hpaired, hdepth⟩ := strictDocument_of_validate h
    exact ⟨text, doc, hraw, htext, hnames, hpaired, hdepth⟩
  · rintro ⟨text, doc, hraw, htext, hnames, hpaired, hdepth⟩
    exact validate_of_strictDocument ⟨text, hraw, htext, hnames, hpaired, hdepth⟩

end FastGate.ModelTurn
