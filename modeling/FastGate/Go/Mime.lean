/-
# FastGate.Go.Mime — `mime.ParseMediaType`

The parser of media types of the standard library, function by function.  Parameters whose name has an
asterisk are kept apart, as the library keeps them; how it stitches them together afterwards is a
parameter, since none of the values it is given here reaches that step.
-/
import FastGate.Go.Strings
import Mathlib.Data.List.TakeWhile

open FastGate.Utf8 (Bytes encode)

namespace FastGate.Go

/-- `isTSpecial` -/
def isTSpecial (b : UInt8) : Bool := (encode "()<>@,;:\\\"/[]?=".toList).contains b

/-- `isTokenChar` -/
def isTokenChar (b : UInt8) : Bool := 0x20 < b.toNat && b.toNat < 0x7F && !isTSpecial b

/-- `consumeToken` -/
def consumeToken (v : Bytes) : Bytes × Bytes := (v.takeWhile isTokenChar, v.dropWhile isTokenChar)

/-- The loop of `consumeValue` behind the opening quote, or none where it finds no end. -/
def quotedLoop : Bytes → Option (Bytes × Bytes)
  | [] => none
  | r :: v =>
    if r = 0x22 then some ([], v)
    else if r = 0x5C then
      match v with
      | [] => none
      | b :: rest =>
        if isTSpecial b then (quotedLoop rest).map fun (value, rest) => (b :: value, rest)
        else (quotedLoop (b :: rest)).map fun (value, rest) => (r :: value, rest)
    else if r = 0x0D || r = 0x0A then none
    else (quotedLoop v).map fun (value, rest) => (r :: value, rest)

/-- `consumeValue` -/
def consumeValue (v : Bytes) : Bytes × Bytes :=
  match v with
  | [] => ([], [])
  | b :: rest =>
    if b ≠ 0x22 then consumeToken (b :: rest)
    else
      match quotedLoop rest with
      | some found => found
      | none => ([], b :: rest)

/-- `strings.TrimLeftFunc(s, unicode.IsSpace)` -/
def trimLeftSpace (s : Bytes) : Bytes := trimLeft s.length s

/-- `strings.CutPrefix` at one byte. -/
def cutPrefix (s : Bytes) (b : UInt8) : Option Bytes :=
  match s with
  | [] => none
  | c :: rest => if c = b then some rest else none

section Parser

variable (unicode : LowerCase)

/-- `consumeMediaParam`: a name, a value and the rest, or none where the name it returns is empty. -/
def consumeMediaParam (v : Bytes) : Option (Bytes × Bytes × Bytes) :=
  match cutPrefix (trimLeftSpace v) 0x3B with
  | none => none
  | some rest =>
    let (token, rest) := consumeToken (trimLeftSpace rest)
    let param := toLower unicode token
    if param = [] then none
    else
      match cutPrefix (trimLeftSpace rest) 0x3D with
      | none => none
      | some rest =>
        let rest := trimLeftSpace rest
        let (value, rest2) := consumeValue rest
        if value = [] && rest2 = rest then none else some (param, value, rest2)

/-- `pmap[key] = value`, or none where the key has another value already. -/
def setParam (pmap : List (Bytes × Bytes)) (key value : Bytes) : Option (List (Bytes × Bytes)) :=
  match pmap.find? fun entry => entry.1 == key with
  | none => some (pmap ++ [(key, value)])
  | some entry => if entry.2 ≠ value then none else some pmap

/-- The loop of `ParseMediaType`: the parameters, and those with an asterisk in their name.  Every round
consumes a byte, so the fuel is not exhausted. -/
def paramLoop : Nat → Bytes → List (Bytes × Bytes) → List (Bytes × Bytes) →
    Option (List (Bytes × Bytes) × List (Bytes × Bytes))
  | 0, _, _, _ => none
  | fuel + 1, v, params, starred =>
    let v := trimLeftSpace v
    if v = [] then some (params, starred)
    else
      match consumeMediaParam unicode v with
      | none => if trimSpace v = [0x3B] then some (params, starred) else none
      | some (key, value, rest) =>
        if key.contains 0x2A then
          (setParam starred key value).bind fun starred => paramLoop fuel rest params starred
        else (setParam params key value).bind fun params => paramLoop fuel rest params starred

/-- `checkMediaTypeDisposition`, true where it finds no error. -/
def checkMediaTypeDisposition (s : Bytes) : Bool :=
  let (typ, rest) := consumeToken s
  if typ = [] then false
  else
    match rest with
    | [] => true
    | b :: rest =>
      if b ≠ 0x2F then false
      else
        let (subtype, rest) := consumeToken rest
        subtype ≠ [] && rest = []

/-- `mime.ParseMediaType`, none where it reports an error. -/
def parseMediaType (stitch : List (Bytes × Bytes) → List (Bytes × Bytes) → List (Bytes × Bytes))
    (v : Bytes) : Option (Bytes × List (Bytes × Bytes)) :=
  let base := v.takeWhile (· ≠ 0x3B)
  let mediaType := trimSpace (toLower unicode base)
  if !checkMediaTypeDisposition mediaType then none
  else
    let v := v.drop base.length
    match paramLoop unicode (v.length + 1) v [] [] with
    | none => none
    | some (params, starred) =>
      some (mediaType, if starred = [] then params else stitch starred params)

end Parser

/-! ## Tokens and values -/

theorem isTokenChar_graphic {b : UInt8} (h : isTokenChar b = true) : IsGraphic b := by
  unfold isTokenChar at h
  simp only [Bool.and_eq_true, decide_eq_true_eq] at h
  exact ⟨by omega, h.1.2⟩

theorem isTokenChar_not_special {b : UInt8} (h : isTokenChar b = true) : isTSpecial b = false := by
  unfold isTokenChar at h
  simpa using (Bool.and_eq_true_iff.mp h).2

theorem White.not_token {w : Bytes} (hw : White w) {b : UInt8} (hb : b ∈ w) : isTokenChar b = false :=
  Bool.eq_false_iff.mpr fun h => hw.not_isGraphic hb (isTokenChar_graphic h)

theorem cutPrefix_eq_some {s rest : Bytes} {b : UInt8} : cutPrefix s b = some rest ↔ s = b :: rest := by
  unfold cutPrefix
  cases s with
  | nil => simp
  | cons c s =>
    simp only [List.cons.injEq]
    split
    · rename_i hc
      simp [hc]
    · rename_i hc
      simp [hc]

/-- What follows a token does not continue it. -/
def EndsToken (s : Bytes) : Prop := ∀ b, s.head? = some b → isTokenChar b = false

theorem EndsToken.cons {b : UInt8} (h : isTokenChar b = false) (s : Bytes) : EndsToken (b :: s) := by
  rintro a ha
  cases ha
  exact h

theorem EndsToken.white {w s : Bytes} (hw : White w) (hs : EndsToken s) : EndsToken (w ++ s) := by
  intro b hb
  cases w with
  | nil => exact hs b hb
  | cons a w =>
    cases hb
    exact hw.not_token List.mem_cons_self

theorem consumeToken_append {t r : Bytes} (ht : ∀ b ∈ t, isTokenChar b = true) (hr : EndsToken r) :
    consumeToken (t ++ r) = (t, r) := by
  unfold consumeToken
  rw [List.takeWhile_append_of_pos ht, List.dropWhile_append_of_pos ht]
  cases r with
  | nil => rw [List.takeWhile_nil, List.append_nil, List.dropWhile_nil]
  | cons b r =>
    have hb : ¬ isTokenChar b = true := by
      rw [hr b rfl]
      exact Bool.false_ne_true
    rw [List.takeWhile_cons_of_neg hb, List.append_nil, List.dropWhile_cons_of_neg hb]

theorem consumeToken_sound (v : Bytes) :
    v = (consumeToken v).1 ++ (consumeToken v).2 ∧ ∀ b ∈ (consumeToken v).1, isTokenChar b = true :=
  ⟨List.takeWhile_append_dropWhile.symm, fun _ hb => List.mem_takeWhile_imp hb⟩

/-- A quoted text without special characters was written as it is. -/
theorem quotedLoop_sound {v value rest : Bytes} (h : quotedLoop v = some (value, rest))
    (hvalue : ∀ b ∈ value, isTSpecial b = false) : v = value ++ 0x22 :: rest := by
  fun_induction quotedLoop v generalizing value rest with
  | case1 => cases h
  | case2 v =>
    cases h
    rfl
  | case3 => cases h
  | case4 b tail hb _ ih =>
    obtain ⟨⟨value', rest'⟩, hrec, heq⟩ := Option.map_eq_some_iff.mp h
    cases heq
    have hspecial := hvalue b List.mem_cons_self
    rw [hb] at hspecial
    cases hspecial
  | case5 b tail _ _ ih =>
    obtain ⟨⟨value', rest'⟩, hrec, heq⟩ := Option.map_eq_some_iff.mp h
    cases heq
    exact absurd (hvalue 0x5C List.mem_cons_self) (by decide)
  | case6 => cases h
  | case7 r v _ _ _ ih =>
    obtain ⟨⟨value', rest'⟩, hrec, heq⟩ := Option.map_eq_some_iff.mp h
    cases heq
    rw [ih hrec fun b hb => hvalue b (List.mem_cons_of_mem _ hb)]
    rfl

/-- A quoted token is read up to its closing quote. -/
theorem quotedLoop_token {value : Bytes} (hvalue : ∀ b ∈ value, isTokenChar b = true) (rest : Bytes) :
    quotedLoop (value ++ 0x22 :: rest) = some (value, rest) := by
  induction value with
  | nil =>
    rw [List.nil_append, quotedLoop.eq_def]
    exact if_pos rfl
  | cons b value ih =>
    obtain ⟨hb, hvalue⟩ := List.forall_mem_cons.mp hvalue
    have hplain : b ≠ 0x22 ∧ b ≠ 0x5C ∧ ¬ (b = 0x0D || b = 0x0A) = true := by
      refine ⟨?_, ?_, ?_⟩
      · rintro rfl
        exact absurd hb (by decide)
      · rintro rfl
        exact absurd hb (by decide)
      · rw [Bool.or_eq_true, decide_eq_true_eq, decide_eq_true_eq]
        rintro (rfl | rfl) <;> exact absurd hb (by decide)
    rw [List.cons_append, quotedLoop.eq_def]
    simp only
    rw [if_neg hplain.1, if_neg hplain.2.1, if_neg hplain.2.2, ih hvalue]
    rfl

/-- A value that is a token stands as a token, or between quotes. -/
theorem consumeValue_sound {v value rest : Bytes} (h : consumeValue v = (value, rest))
    (hne : value ≠ []) (hvalue : ∀ b ∈ value, isTokenChar b = true) :
    v = value ++ rest ∨ v = 0x22 :: (value ++ 0x22 :: rest) := by
  unfold consumeValue at h
  split at h
  · cases h
    exact absurd rfl hne
  · rename_i b tail
    split at h
    · left
      have hsound := (consumeToken_sound (b :: tail)).1
      rwa [h] at hsound
    · rename_i hquote
      split at h
      · rename_i found hfound
        cases h
        right
        rw [not_not.mp hquote, quotedLoop_sound hfound fun b hb => isTokenChar_not_special (hvalue b hb)]
      · cases h
        exact absurd rfl hne

theorem consumeValue_token {value rest : Bytes} (hne : value ≠ [])
    (hvalue : ∀ b ∈ value, isTokenChar b = true) (hrest : EndsToken rest) :
    consumeValue (value ++ rest) = (value, rest) := by
  obtain ⟨b, value', rfl⟩ := List.exists_cons_of_ne_nil hne
  have hb : b ≠ 0x22 := by
    rintro rfl
    exact absurd (hvalue 0x22 List.mem_cons_self) (by decide)
  rw [List.cons_append, consumeValue, if_pos hb, ← List.cons_append]
  exact consumeToken_append hvalue hrest

theorem consumeValue_quoted {value : Bytes} (hvalue : ∀ b ∈ value, isTokenChar b = true) (rest : Bytes) :
    consumeValue (0x22 :: (value ++ 0x22 :: rest)) = (value, rest) := by
  rw [consumeValue, if_neg (by simp), quotedLoop_token hvalue]

/-- A media type without errors is ASCII. -/
theorem checkMediaTypeDisposition_ascii {s : Bytes} (h : checkMediaTypeDisposition s = true) :
    ∀ b ∈ s, b.toNat < 0x80 := by
  have hlow : ∀ {b : UInt8}, isTokenChar b = true → b.toNat < 0x80 := fun hb =>
    Nat.lt_trans (isTokenChar_graphic hb).2 (by decide)
  obtain ⟨hsplit, htoken⟩ := consumeToken_sound s
  unfold checkMediaTypeDisposition at h
  simp only at h
  split at h
  · cases h
  split at h
  · rename_i hrest
    rw [hrest, List.append_nil] at hsplit
    rw [hsplit]
    exact fun b hb => hlow (htoken b hb)
  · rename_i b rest hrest
    split at h
    · cases h
    rename_i hslash
    rw [Bool.and_eq_true, decide_eq_true_eq, decide_eq_true_eq] at h
    obtain ⟨hsplit', htoken'⟩ := consumeToken_sound rest
    rw [h.2, List.append_nil] at hsplit'
    rw [hsplit, hrest, not_not.mp hslash]
    intro x hx
    rcases List.mem_append.mp hx with hx | hx
    · exact hlow (htoken x hx)
    · rcases List.mem_cons.mp hx with rfl | hx
      · decide
      · exact hlow (htoken' x (hsplit' ▸ hx))

/-! ## One parameter -/

section OneParameter

variable {unicode : LowerCase}

/-- A parameter as it is written: white space around the semicolon, the name and the equals sign, and
then the value with what follows it. -/
def Written (v name tail : Bytes) : Prop :=
  ∃ a b c d, White a ∧ White b ∧ White c ∧ White d ∧
    v = a ++ 0x3B :: (b ++ (name ++ (c ++ 0x3D :: (d ++ tail))))

theorem trimLeftSpace_sound (s : Bytes) : ∃ w, White w ∧ s = w ++ trimLeftSpace s := trimLeft_sound _ s

theorem trimLeftSpace_white {w s : Bytes} (hw : White w) (hs : Stops s) : trimLeftSpace (w ++ s) = s :=
  trimLeft_white hw hs (by rw [List.length_append]; omega)

/-- The parameter that is read was written. -/
theorem consumeMediaParam_sound {v key value rest : Bytes}
    (h : consumeMediaParam unicode v = some (key, value, rest)) :
    ∃ name tail, (∀ b ∈ name, isTokenChar b = true) ∧ name ≠ [] ∧ key = toLower unicode name ∧
      consumeValue tail = (value, rest) ∧ Written v name tail := by
  obtain ⟨a, ha, hv⟩ := trimLeftSpace_sound v
  unfold consumeMediaParam at h
  split at h
  · cases h
  rename_i rest₁ hsemicolon
  rw [cutPrefix_eq_some] at hsemicolon
  obtain ⟨b, hb, hrest₁⟩ := trimLeftSpace_sound rest₁
  obtain ⟨htoken, hname⟩ := consumeToken_sound (trimLeftSpace rest₁)
  simp only at h
  split at h
  · cases h
  rename_i hparam
  split at h
  · cases h
  rename_i rest₂ hequals
  rw [cutPrefix_eq_some] at hequals
  obtain ⟨c, hc, hrest⟩ := trimLeftSpace_sound (consumeToken (trimLeftSpace rest₁)).2
  obtain ⟨d, hd, hrest₂⟩ := trimLeftSpace_sound rest₂
  split at h
  · cases h
  cases h
  have hne : (consumeToken (trimLeftSpace rest₁)).1 ≠ [] := by
    intro hnil
    rw [hnil] at hparam
    exact hparam rfl
  refine ⟨_, trimLeftSpace rest₂, hname, hne, rfl, rfl, a, b, c, d, ha, hb, hc, hd, ?_⟩
  rw [← hrest₂, ← hequals, ← hrest, ← htoken, ← hrest₁, ← hsemicolon]
  exact hv

/-- A parameter that is written is read. -/
theorem consumeMediaParam_written {v name tail value rest : Bytes} (h : Written v name tail)
    (hne : name ≠ []) (hname : ∀ b ∈ name, isTokenChar b = true) (htail : Stops tail)
    (hvalue : consumeValue tail = (value, rest)) (hvalue' : value ≠ []) :
    consumeMediaParam unicode v = some (toLower unicode name, value, rest) := by
  obtain ⟨a, b, c, d, ha, hb, hc, hd, rfl⟩ := h
  have hsemicolon : trimLeftSpace (a ++ 0x3B :: (b ++ (name ++ (c ++ 0x3D :: (d ++ tail))))) =
      0x3B :: (b ++ (name ++ (c ++ 0x3D :: (d ++ tail)))) :=
    trimLeftSpace_white ha (Stops.cons (by decide) _)
  obtain ⟨n, name', rfl⟩ := List.exists_cons_of_ne_nil hne
  have hstart : trimLeftSpace (b ++ (n :: name' ++ (c ++ 0x3D :: (d ++ tail)))) =
      n :: name' ++ (c ++ 0x3D :: (d ++ tail)) :=
    trimLeftSpace_white hb (Stops.cons (isTokenChar_graphic (hname n List.mem_cons_self)) _)
  have htoken : consumeToken (n :: name' ++ (c ++ 0x3D :: (d ++ tail))) =
      (n :: name', c ++ 0x3D :: (d ++ tail)) :=
    consumeToken_append hname (EndsToken.white hc (EndsToken.cons (by decide) _))
  have hequals : trimLeftSpace (c ++ 0x3D :: (d ++ tail)) = 0x3D :: (d ++ tail) :=
    trimLeftSpace_white hc (Stops.cons (by decide) _)
  have hlower : toLower unicode (n :: name') ≠ [] := by
    have hascii : ∀ b ∈ n :: name', b.toNat < 0x80 := fun b hb =>
      Nat.lt_trans (isTokenChar_graphic (hname b hb)).2 (by decide)
    rw [toLower_ascii unicode hascii]
    exact List.cons_ne_nil _ _
  unfold consumeMediaParam
  rw [hsemicolon, cutPrefix_eq_some.mpr rfl]
  simp only [hstart, htoken]
  rw [if_neg hlower, hequals, cutPrefix_eq_some.mpr rfl]
  simp only [trimLeftSpace_white hd htail, hvalue]
  rw [if_neg (by simp [hvalue'])]

/-- Without a semicolon there is no parameter. -/
theorem consumeMediaParam_none {v : Bytes} (h : 0x3B ∉ v) : consumeMediaParam unicode v = none := by
  cases hread : consumeMediaParam unicode v with
  | none => rfl
  | some found =>
    obtain ⟨key, value, rest⟩ := found
    obtain ⟨name, tail, -, -, -, -, a, b, c, d, -, -, -, -, rfl⟩ := consumeMediaParam_sound hread
    exact absurd (List.mem_append_right _ List.mem_cons_self) h

theorem quotedLoop_rest {v value rest : Bytes} (h : quotedLoop v = some (value, rest)) : rest ⊆ v := by
  fun_induction quotedLoop v generalizing value rest with
  | case1 => cases h
  | case2 v =>
    cases h
    exact List.subset_cons_self _ _
  | case3 => cases h
  | case4 b tail _ _ ih =>
    obtain ⟨⟨value', rest'⟩, hrec, heq⟩ := Option.map_eq_some_iff.mp h
    cases heq
    exact List.subset_cons_of_subset _ (List.subset_cons_of_subset _ (ih hrec))
  | case5 b tail _ _ ih =>
    obtain ⟨⟨value', rest'⟩, hrec, heq⟩ := Option.map_eq_some_iff.mp h
    cases heq
    exact List.subset_cons_of_subset _ (ih hrec)
  | case6 => cases h
  | case7 r v _ _ _ ih =>
    obtain ⟨⟨value', rest'⟩, hrec, heq⟩ := Option.map_eq_some_iff.mp h
    cases heq
    exact List.subset_cons_of_subset _ (ih hrec)

/-- What follows a value is part of what it was read from. -/
theorem consumeValue_rest {v value rest : Bytes} (h : consumeValue v = (value, rest)) : rest ⊆ v := by
  unfold consumeValue at h
  split at h
  · cases h
    exact List.Subset.refl _
  · rename_i b tail
    split at h
    · cases h
      exact (List.dropWhile_sublist _).subset
    · split at h
      · rename_i found hfound
        cases h
        exact List.subset_cons_of_subset _ (quotedLoop_rest hfound)
      · cases h
        exact List.Subset.refl _

/-- A text without semicolons ends the loop when it is white space, and otherwise is an error. -/
theorem paramLoop_end {v : Bytes} (hv : 0x3B ∉ v) (fuel : Nat) (params starred : List (Bytes × Bytes)) :
    (White v → paramLoop unicode (fuel + 1) v params starred = some (params, starred)) ∧
      (¬ White v → paramLoop unicode (fuel + 1) v params starred = none) := by
  have hwhite : trimLeftSpace v = [] ↔ White v := trimLeft_eq_nil
  constructor
  · intro h
    rw [paramLoop]
    exact if_pos (hwhite.mpr h)
  · intro h
    obtain ⟨w, -, hw⟩ := trimLeftSpace_sound v
    have htrim : 0x3B ∉ trimLeftSpace v := fun hmem => hv (hw ▸ List.mem_append_right _ hmem)
    have halone : trimSpace (trimLeftSpace v) ≠ [0x3B] := by
      intro heq
      obtain ⟨w, w', -, -, hsound⟩ := trimSpace_sound (trimLeftSpace v)
      rw [heq] at hsound
      rw [hsound] at htrim
      exact htrim (List.mem_append_right _ List.mem_cons_self)
    rw [paramLoop]
    rw [if_neg fun heq => h (hwhite.mp heq), consumeMediaParam_none htrim]
    exact if_neg halone

/-- The first round, at a semicolon. -/
theorem paramLoop_semicolon (fuel : Nat) (raw : Bytes) :
    paramLoop unicode (fuel + 1) (0x3B :: raw) [] [] =
      match consumeMediaParam unicode (0x3B :: raw) with
      | none => if trimSpace (0x3B :: raw) = [0x3B] then some ([], []) else none
      | some (key, value, rest) =>
        if key.contains 0x2A then paramLoop unicode fuel rest [] [(key, value)]
        else paramLoop unicode fuel rest [(key, value)] [] := by
  have hstart : trimLeftSpace (0x3B :: raw) = 0x3B :: raw :=
    trimLeftSpace_white White.nil (Stops.cons (by decide) raw)
  rw [paramLoop]
  simp only [hstart]
  rw [if_neg (List.cons_ne_nil _ _)]
  rfl

/-- The semicolon in front is that of the parameter. -/
theorem Written.cons {raw name tail : Bytes} (h : Written (0x3B :: raw) name tail) :
    ∃ b c d, White b ∧ White c ∧ White d ∧ raw = b ++ (name ++ (c ++ 0x3D :: (d ++ tail))) := by
  obtain ⟨a, b, c, d, ha, hb, hc, hd, heq⟩ := h
  cases a with
  | nil => exact ⟨b, c, d, hb, hc, hd, (List.cons.inj heq).2⟩
  | cons x a =>
    have hx := (List.cons.inj heq).1
    exact absurd (by decide : IsGraphic 0x3B) (ha.not_isGraphic (hx ▸ List.mem_cons_self))

/-- What the loop makes of a text with one semicolon, at its start. -/
theorem paramLoop_one {raw : Bytes} (hraw : 0x3B ∉ raw) {fuel : Nat}
    {result : List (Bytes × Bytes) × List (Bytes × Bytes)} :
    paramLoop unicode (fuel + 2) (0x3B :: raw) [] [] = some result ↔
      (consumeMediaParam unicode (0x3B :: raw) = none ∧ trimSpace (0x3B :: raw) = [0x3B] ∧
        result = ([], [])) ∨
      ∃ key value rest, consumeMediaParam unicode (0x3B :: raw) = some (key, value, rest) ∧ White rest ∧
        result = if key.contains 0x2A then ([], [(key, value)]) else ([(key, value)], []) := by
  rw [paramLoop_semicolon]
  cases hread : consumeMediaParam unicode (0x3B :: raw) with
  | none =>
    simp only [true_and, reduceCtorEq, false_and, exists_false, or_false]
    split_ifs with hsemicolon
    · simp only [hsemicolon, true_and, Option.some.injEq]
      exact eq_comm
    · simp [hsemicolon]
  | some found =>
    obtain ⟨key, value, rest⟩ := found
    -- what is left has no semicolon, so the loop ends with it
    have hrest : 0x3B ∉ rest := by
      obtain ⟨name, tail, -, -, -, hvalue, hwritten⟩ := consumeMediaParam_sound hread
      obtain ⟨b, c, d, -, -, -, heq⟩ := hwritten.cons
      intro hmem
      refine hraw ?_
      have htail := consumeValue_rest hvalue hmem
      rw [heq]
      simp only [List.mem_append, List.mem_cons]
      exact .inr (.inr (.inr (.inr (.inr htail))))
    have hend := @paramLoop_end unicode _ hrest fuel
    simp only [reduceCtorEq, false_and, false_or, Option.some.injEq, Prod.mk.injEq]
    by_cases hwhite : White rest
    · rw [(hend _ _).1 hwhite, (hend _ _).1 hwhite]
      constructor
      · intro h
        refine ⟨key, value, rest, ⟨rfl, rfl, rfl⟩, hwhite, ?_⟩
        split_ifs at h ⊢ <;> exact (Option.some.inj h).symm
      · rintro ⟨_, _, _, ⟨rfl, rfl, rfl⟩, -, rfl⟩
        split_ifs <;> rfl
    · rw [(hend _ _).2 hwhite, (hend _ _).2 hwhite]
      refine iff_of_false (by simp) ?_
      rintro ⟨_, _, _, ⟨rfl, rfl, rfl⟩, h, -⟩
      exact hwhite h

end OneParameter

/-- A media type that is parsed: its base in lower case, and the parameters of the loop. -/
theorem parseMediaType_eq_some {unicode : LowerCase}
    {stitch : List (Bytes × Bytes) → List (Bytes × Bytes) → List (Bytes × Bytes)} {v base rest : Bytes}
    (hbase : v.takeWhile (· ≠ 0x3B) = base) (hrest : v.drop base.length = rest)
    {parsed : Bytes × List (Bytes × Bytes)} :
    parseMediaType unicode stitch v = some parsed ↔
      checkMediaTypeDisposition (trimSpace (toLower unicode base)) = true ∧
        ∃ params starred, paramLoop unicode (rest.length + 1) rest [] [] = some (params, starred) ∧
          parsed = (trimSpace (toLower unicode base),
            if starred = [] then params else stitch starred params) := by
  unfold parseMediaType
  simp only [hbase, hrest]
  cases checkMediaTypeDisposition (trimSpace (toLower unicode base)) with
  | false => simp
  | true =>
    rw [Bool.not_true, if_neg Bool.false_ne_true]
    cases paramLoop unicode (rest.length + 1) rest [] [] with
    | none => simp
    | some found =>
      obtain ⟨params, starred⟩ := found
      simp only [true_and, Option.some.injEq, Prod.mk.injEq]
      constructor
      · rintro rfl
        exact ⟨params, starred, ⟨rfl, rfl⟩, rfl⟩
      · rintro ⟨_, _, ⟨rfl, rfl⟩, rfl⟩
        rfl

end FastGate.Go
