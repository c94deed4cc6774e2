/-
# FastGate.CheckContract.Pointer — where a violation is

A violation carries its place as a JSON pointer, put together by `pointer_join`.  Here the pointer is
read the way RFC 6901 says, and leads back to the value whose rule is broken (`violation_resolves`).
Different places of an instance have different pointers, and every pointer is one that a case of the
manifest can declare.

* `pointer_join` escapes tildes and slashes in one pass of two replacements; reading takes them back in
  the other order (`unescapeToken_pointerEscape`).  Swapped, `~01` would come out as a slash.
* A `Step` is a member or an element, `locate` follows a list of steps, and `placePointer` is its pointer.
  A token alone does not say whether it names a member or an element; the value it is read against
  does (`stepInto_token`).
* `placePointer_inj`: at an instance with distinct keys the pointer determines the place.
-/
import FastGate.CheckContract.Contract
import FastGate.CheckContract.Exact

open FastGate.Python

namespace FastGate.CheckContract

/-! ## Reading a pointer -/

/-- `text.replace(old, new)` for an `old` of two different code points. -/
def replacePair (first second new : Nat) : Str → Str
  | c :: d :: cs =>
    if c = first ∧ d = second then new :: replacePair first second new cs
    else c :: replacePair first second new (d :: cs)
  | s => s

/-- A reference token without its escapes: `~1` becomes a slash first, then `~0` a tilde. -/
def unescapeToken (token : Str) : Str := replacePair 0x7E 0x30 0x7E (replacePair 0x7E 0x31 0x2F token)

/-- `[0-9]`, the digits of an array index. -/
def isDigit (c : Nat) : Bool := 0x30 ≤ c && c ≤ 0x39

/-- The index of an array element: a decimal number without leading zeros. -/
def arrayIndex? (token : Str) : Option Nat :=
  if token = [0x30] ∨ token.all isDigit = true ∧ token ≠ [] ∧ token.head? ≠ some 0x30 then
    some (Nat.ofDigits 10 (token.reverse.map (· - 0x30)))
  else none

/-- One reference token. -/
def stepInto (token : Str) : Value → Option Value
  | .obj ms => Dict.get? ms token
  | .arr xs => (arrayIndex? token).bind fun index => xs[index]?
  | _ => none

/-- The reference tokens are followed from left to right, each from the value before it. -/
def evaluate : List Str → Value → Option Value
  | [], v => some v
  | token :: tokens, v => (stepInto token v).bind (evaluate tokens)

/-- The value that a JSON pointer leads to. -/
def resolve (text : Str) (v : Value) : Option Value :=
  if isPointer text = true then
    evaluate (((text.splitOn 0x2F).tail).map unescapeToken) v
  else none

/-! ## Escapes -/

theorem replacePair_cons_ne {first second new c : Nat} (h : c ≠ first) (s : Str) :
    replacePair first second new (c :: s) = c :: replacePair first second new s := by
  cases s with
  | nil => rfl
  | cons d ds => rw [replacePair, if_neg fun hcd => h hcd.1]

theorem replacePair_pair {first second new : Nat} (s : Str) :
    replacePair first second new (first :: second :: s) = new :: replacePair first second new s := by
  rw [replacePair, if_pos ⟨rfl, rfl⟩]

theorem replacePair_other {first second new d : Nat} (hd : d ≠ second) (hne : d ≠ first) (s : Str) :
    replacePair first second new (first :: d :: s) = first :: d :: replacePair first second new s := by
  rw [replacePair, if_neg fun hcd => hd hcd.2, replacePair_cons_ne hne]

/-- `token.replace("~", "~0")` -/
def escapeTildes (token : Str) : Str := token.flatMap fun c => if c = 0x7E then [0x7E, 0x30] else [c]

/-- The escapes of `pointer_join` are two replacements, tildes first. -/
theorem pointerEscape_eq_replace (token : Str) :
    pointerEscape token = (escapeTildes token).flatMap fun c => if c = 0x2F then [0x7E, 0x31] else [c] := by
  rw [pointerEscape, escapeTildes, List.flatMap_assoc]
  apply List.flatMap_congr
  intro c _
  split
  · rfl
  · simp

theorem replacePair_pointerEscape (token : Str) :
    replacePair 0x7E 0x31 0x2F (pointerEscape token) = escapeTildes token := by
  induction token with
  | nil => rfl
  | cons c cs ih =>
    rw [pointerEscape, List.flatMap_cons, ← pointerEscape, escapeTildes, List.flatMap_cons, ← escapeTildes]
    by_cases htilde : c = 0x7E
    · rw [if_pos htilde, if_pos htilde]
      show replacePair _ _ _ (0x7E :: 0x30 :: pointerEscape cs) = _
      rw [replacePair_other (by decide) (by decide), ih]
      rfl
    · by_cases hslash : c = 0x2F
      · rw [if_neg htilde, if_pos hslash, if_neg htilde, hslash]
        show replacePair _ _ _ (0x7E :: 0x31 :: pointerEscape cs) = _
        rw [replacePair_pair, ih]
        rfl
      · rw [if_neg htilde, if_neg hslash, if_neg htilde]
        show replacePair _ _ _ (c :: pointerEscape cs) = _
        rw [replacePair_cons_ne htilde, ih]
        rfl

theorem replacePair_escapeTildes (token : Str) :
    replacePair 0x7E 0x30 0x7E (escapeTildes token) = token := by
  induction token with
  | nil => rfl
  | cons c cs ih =>
    rw [escapeTildes, List.flatMap_cons, ← escapeTildes]
    by_cases htilde : c = 0x7E
    · rw [if_pos htilde]
      show replacePair _ _ _ (0x7E :: 0x30 :: escapeTildes cs) = _
      rw [replacePair_pair, ih, htilde]
    · rw [if_neg htilde]
      show replacePair _ _ _ (c :: escapeTildes cs) = _
      rw [replacePair_cons_ne htilde, ih]

/-- Reading undoes the two replacements of `pointer_join`, in the opposite order. -/
theorem unescapeToken_pointerEscape (token : Str) : unescapeToken (pointerEscape token) = token := by
  rw [unescapeToken, replacePair_pointerEscape, replacePair_escapeTildes]

/-! ## Indices -/

theorem arrayIndex?_decimalText (n : Nat) : arrayIndex? (decimalText n) = some n := by
  by_cases hn : n = 0
  · subst hn
    rfl
  rw [decimalText, if_neg hn]
  have hne : Nat.digits 10 n ≠ [] := Nat.digits_ne_nil_iff_ne_zero.mpr hn
  have hdigits : ((Nat.digits 10 n).reverse.map (0x30 + ·)).all isDigit = true := by
    rw [List.all_eq_true, List.forall_mem_map]
    intro d hd
    have hlt := Nat.digits_lt_base (by decide : 1 < 10) (List.mem_reverse.mp hd)
    rw [isDigit, Bool.and_eq_true, decide_eq_true_eq, decide_eq_true_eq]
    omega
  -- the first digit of the text is the last one of `digits`
  have hhead : ((Nat.digits 10 n).reverse.map (0x30 + ·)).head? ≠ some 0x30 := by
    rw [List.head?_map, List.head?_reverse, List.getLast?_eq_some_getLast hne, Option.map_some, Ne,
      Option.some.injEq]
    have hlast := Nat.getLast_digit_ne_zero 10 hn
    omega
  have hvalue : (((Nat.digits 10 n).reverse.map (0x30 + ·)).reverse.map (· - 0x30)) = Nat.digits 10 n := by
    rw [← List.map_reverse, List.reverse_reverse, List.map_map]
    conv_rhs => rw [← List.map_id (Nat.digits 10 n)]
    apply List.map_congr_left
    intro d _
    show 0x30 + d - 0x30 = d
    omega
  rw [arrayIndex?, if_pos (.inr ⟨hdigits, by rwa [Ne, List.map_eq_nil_iff, List.reverse_eq_nil_iff], hhead⟩), hvalue, Nat.ofDigits_digits]

/-! ## Pointers that a case can declare -/

theorem rest_cons {c : Nat} {s : Str} (hc : c ≠ 0x7E) (hs : isPointer.rest s = true) :
    isPointer.rest (c :: s) = true := by
  cases s with
  | nil => rw [isPointer.rest]; exact bne_iff_ne.mpr hc
  | cons d ds => rw [isPointer.rest, if_neg hc]; exact hs

theorem rest_pointerEscape (token : Str) {s : Str} (hs : isPointer.rest s = true) :
    isPointer.rest (pointerEscape token ++ s) = true := by
  induction token with
  | nil => exact hs
  | cons c cs ih =>
    rw [pointerEscape, List.flatMap_cons, ← pointerEscape, List.append_assoc]
    split
    · simpa [isPointer.rest] using ih
    · split
      · simpa [isPointer.rest] using ih
      · rename_i htilde _
        exact rest_cons htilde ih

theorem rest_pointer (tokens : List Str) : isPointer.rest (pointer tokens) = true := by
  induction tokens with
  | nil => rfl
  | cons token tokens ih =>
    rw [pointer, List.flatMap_cons, ← pointer, List.cons_append]
    exact rest_cons (by decide) (rest_pointerEscape token ih)

/-- Every pointer that the validator reports is one that a case can declare. -/
theorem isPointer_pointer (tokens : List Str) : isPointer (pointer tokens) = true := by
  cases tokens with
  | nil => rfl
  | cons token tokens =>
    rw [pointer, List.flatMap_cons, ← pointer, List.cons_append, isPointer]
    exact rest_pointerEscape token (rest_pointer tokens)

theorem keyword_supported (rule : Rule) : rule.keyword ∈ supportedKeywords := by
  cases rule <;> decide


/-! ## Places -/

/-- A step from a container to one of its children. -/
inductive Step where
  | member (name : Str)
  | element (index : Nat)
  deriving DecidableEq, Repr

namespace Step

/-- What `pointer_join` appends for the step, before the escapes. -/
def token : Step → Str
  | member name => name
  | element index => decimalText index

/-- The member or the element that the step names. -/
def child : Step → Value → Option Value
  | member name, .obj ms => Dict.get? ms name
  | element index, .arr xs => xs[index]?
  | _, _ => none

theorem stepInto_token {step : Step} {v w : Value} (h : step.child v = some w) :
    stepInto step.token v = some w := by
  cases step with
  | member name =>
    cases v with
    | obj ms => exact h
    | _ => cases h
  | element index =>
    cases v with
    | arr xs =>
      rw [token, stepInto, arrayIndex?_decimalText]
      exact h
    | _ => cases h

/-- In one container, steps with the same token are the same step. -/
theorem eq_of_token {p q : Step} {v a b : Value} (hp : p.child v = some a) (hq : q.child v = some b)
    (h : p.token = q.token) : p = q := by
  cases v with
  | obj ms =>
    cases p with
    | member name =>
      cases q with
      | member other => exact congrArg member h
      | element index => cases hq
    | element index => cases hp
  | arr xs =>
    cases p with
    | member name => cases hp
    | element index =>
      cases q with
      | member name => cases hq
      | element other => exact congrArg element (decimalText_injective h)
  | _ => cases p <;> cases hp

end Step

/-- The value at a place of an instance. -/
def locate : List Step → Value → Option Value
  | [], v => some v
  | step :: steps, v => (step.child v).bind (locate steps)

/-- The pointer to a place. -/
def placePointer (place : List Step) : Str := pointer (place.map Step.token)

theorem evaluate_locate {place : List Step} : ∀ {v w : Value}, locate place v = some w →
    evaluate (place.map Step.token) v = some w := by
  induction place with
  | nil => exact id
  | cons step steps ih =>
    intro v w h
    obtain ⟨child, hchild, hrest⟩ := Option.bind_eq_some_iff.mp h
    rw [List.map_cons, evaluate, Step.stepInto_token hchild]
    exact ih hrest

theorem pointer_tokens (tokens : List Str) :
    ((pointer tokens).splitOn 0x2F).tail.map unescapeToken = tokens := by
  have hcons : ∀ tokens : List Str, pointer tokens =
      [0x2F].intercalate ([] :: tokens.map pointerEscape) := by
    intro tokens
    induction tokens with
    | nil => rfl
    | cons token tokens ih =>
      rw [pointer, List.flatMap_cons, ← pointer, ih, List.map_cons, List.intercalate_cons_cons]
      cases tokens with
      | nil => simp
      | cons other others => simp [List.intercalate_cons_cons]
  rw [hcons, List.splitOn_intercalate _ _ (by simp)]
  · show (tokens.map pointerEscape).map unescapeToken = tokens
    rw [List.map_map]
    conv_rhs => rw [← List.map_id tokens]
    exact List.map_congr_left fun token _ => unescapeToken_pointerEscape token
  · intro token htoken
    rcases List.mem_cons.mp htoken with rfl | hmem
    · exact List.not_mem_nil
    · obtain ⟨original, -, rfl⟩ := List.mem_map.mp hmem
      exact pointerEscape_slash original

/-- The pointer to a place leads to the value at that place. -/
theorem resolve_placePointer {place : List Step} {v w : Value} (h : locate place v = some w) :
    resolve (placePointer place) v = some w := by
  rw [resolve, placePointer, if_pos (isPointer_pointer _), pointer_tokens]
  exact evaluate_locate h

/-- Different places of an instance have different pointers. -/
theorem placePointer_inj {p q : List Step} {v a b : Value} (hp : locate p v = some a)
    (hq : locate q v = some b) (h : placePointer p = placePointer q) : p = q := by
  have htokens := pointer_injective h
  clear h
  induction p generalizing q v with
  | nil =>
    cases q with
    | nil => rfl
    | cons step steps => cases htokens
  | cons step steps ih =>
    cases q with
    | nil => cases htokens
    | cons other others =>
      obtain ⟨htoken, hrest⟩ := List.cons.inj htokens
      obtain ⟨child, hchild, hsteps⟩ := Option.bind_eq_some_iff.mp hp
      obtain ⟨child', hchild', hothers⟩ := Option.bind_eq_some_iff.mp hq
      have hstep := Step.eq_of_token hchild hchild' htoken
      subst hstep
      cases hchild.symm.trans hchild'
      rw [ih hsteps hothers hrest]

/-- What the validator reaches has a place, and its tokens are the steps to it. -/
theorem At.place {value node v n : Value} {tokens : List Str} (hkeyed : value.Keyed)
    (h : At value node tokens v n) :
    ∃ place : List Step, place.map Step.token = tokens ∧ locate place value = some v := by
  induction h with
  | here => exact ⟨[], rfl, rfl⟩
  | @member ms node child property v n name tokens hmem hproperty _ ih =>
    obtain ⟨hnodup, hmembers⟩ := (Value.keyed_obj _).mp hkeyed
    obtain ⟨place, htokens, hplace⟩ := ih (hmembers _ hmem)
    refine ⟨.member name :: place, by rw [List.map_cons, htokens, Step.token], ?_⟩
    show (Dict.get? ms name).bind _ = _
    rw [Dict.get?_of_mem hnodup hmem]
    exact hplace
  | @element xs node item items v n index tokens hitem hitems _ ih =>
    obtain ⟨place, htokens, hplace⟩ := ih ((Value.keyed_arr _).mp hkeyed _ (List.mem_of_getElem? hitem))
    refine ⟨.element index :: place, by rw [List.map_cons, htokens, Step.token], ?_⟩
    show (xs[index]?).bind _ = _
    rw [hitem]
    exact hplace

/-! ## Violations -/

/-- Every violation points at the value whose rule is broken, and a case of the manifest can declare it.
Different places of the instance have different pointers. -/
theorem violation_resolves (rt : Runtime) {schema value : Value} (hissues : schemaIssues rt schema = [])
    (hschema : schema.Keyed) (hvalue : value.Keyed) :
    (∃ violations, validateInstance value schema = .ok violations ∧ ∀ x ∈ violations,
      ∃ (place : List Step) (v n : Value) (rule : Rule),
        x = ⟨str rule.keyword, placePointer place⟩ ∧ locate place value = some v ∧
          At value schema (place.map Step.token) v n ∧ ¬ rule.Holds n v ∧
          resolve x.instancePath value = some v ∧
          x.keyword ∈ (supportedKeywords ++ ["json"]).map str ∧ isPointer x.instancePath = true) ∧
    ∀ (p q : List Step) (a b : Value), locate p value = some a → locate q value = some b →
      placePointer p = placePointer q → p = q := by
  obtain ⟨violations, hviolations, -, hbroken, -⟩ := validateInstance_exact rt hissues hschema hvalue
  refine ⟨⟨violations, hviolations, fun x hx => ?_⟩, fun p q a b hp hq => placePointer_inj hp hq⟩
  obtain ⟨tokens, rule, ⟨v, n, hat, hrule, -⟩, rfl⟩ := hbroken x hx
  obtain ⟨place, rfl, hplace⟩ := hat.place hvalue
  refine ⟨place, v, n, rule, rfl, hplace, hat, hrule, resolve_placePointer hplace, ?_, ?_⟩
  · apply List.mem_map_of_mem
    exact List.mem_append_left _ (keyword_supported rule)
  · exact isPointer_pointer _

/-- A closed object whose only member has a name that a pointer must escape. -/
def ratioSchema : Value :=
  .obj [(str "$schema", .str (str schemaUri)), (str "$id", .str (str "ratio")),
    (str "type", .str (str "object")),
    (str "properties", .obj [(str "in/out", .obj [(str "type", .str (str "integer")),
      (str "minimum", .num (.ofNat 1))])]),
    (str "required", .arr [.str (str "in/out")]), (str "additionalProperties", .bool false)]

/-- The member is too small.  Its pointer is escaped, and leads back to it. -/
theorem violation_resolves_sample :
    let value : Value := .obj [(str "in/out", .num (.ofNat 0))]
    validateInstance value ratioSchema = .ok [⟨str "minimum", str "/in~1out"⟩] ∧
      ∃ (v n : Value) (rule : Rule), str rule.keyword = str "minimum" ∧ ¬ rule.Holds n v ∧
        resolve (str "/in~1out") value = some v := by
  intro value
  have hreported : validateInstance value ratioSchema = .ok [⟨str "minimum", str "/in~1out"⟩] := by
    decide +kernel
  obtain ⟨⟨violations, hviolations, hresolves⟩, -⟩ :=
    @violation_resolves default ratioSchema value (by decide) (by decide +kernel) (by decide +kernel)
  rw [hreported] at hviolations
  cases hviolations
  obtain ⟨place, v, n, rule, hrule, -, -, hbroken, hresolve, -⟩ := hresolves _ (.head _)
  exact ⟨hreported, v, n, rule, (congrArg Violation.keyword hrule).symm, hbroken, hresolve⟩

end FastGate.CheckContract
