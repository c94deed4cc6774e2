/-
# FastGate.CheckContract.Conforms — what a schema says about a value

`Conforms value node` reads the keywords of a schema node as conditions on a value, without paths,
violations or limits; `violationsAt value node path` lists the conditions that fail, in depth-first
order.  For schemas of the profile `validate_instance` never raises, and it returns the first 25
entries of that list (`validateInstance_eq`), so none exactly when the instance conforms
(`validateInstance_nil_iff`).

The walk keeps one list of violations and stops appending when it is full, even in the middle of a
loop.  `Appends` of `Python.Capped` is the invariant for this: a check appends its own entries as far as
there is room, whatever the list held before.  There is one such lemma for each check
(`appends_checkEnum`, `appends_checkBounds` and so on), one for the loops over members and elements, and
`appends_walk` puts them together by induction over the instance.

That a keyword is there and of the right type when it is read comes from the profile: each of the lemmas
takes what it needs of `NodeOk`.
-/
import FastGate.CheckContract.SchemaIssues

open FastGate.Python

namespace FastGate.CheckContract

/-! ## Conditions -/

/-- The value is one of the enumerated ones. -/
def EnumMeets (value node : Value) : Prop :=
  ∀ items, node.get? "enum" = some (.arr items) → ∃ item ∈ items, jsonEqual value item = true

/-- The value is the constant. -/
def ConstMeets (value node : Value) : Prop :=
  ∀ c, node.get? "const" = some c → jsonEqual value c = true

/-- A numeric keyword does not fail. -/
def BoundMeets (keyword : String) (fails : Decimal → Bool) (node : Value) : Prop :=
  ∀ bound, node.get? keyword = some (.num bound) → fails bound = false

/-- The number lies between two bounds. -/
def BoundsMeet (low high : String) (n : Decimal) (node : Value) : Prop :=
  BoundMeets low (fun bound => n.ltValue bound) node ∧ BoundMeets high (fun bound => bound.ltValue n) node

/-- The text matches the pattern. -/
def PatternMeets (value : Str) (node : Value) : Prop :=
  ∀ p matcher, node.get? "pattern" = some (.str p) → auditedPatternMatchers.get? p = some matcher →
    matcher value = true

/-- Every required name is a member. -/
def RequiredMeets (ms : Dict Value) (node : Value) : Prop :=
  ∀ name ∈ (requiredOf node).getD [], ms.has name = true

/-- The value satisfies every keyword of the schema node. -/
def Conforms (value node : Value) : Prop :=
  matchesType value (schemaTypeOf node) = true ∧ EnumMeets value node ∧ ConstMeets value node ∧
    match value with
    | .obj ms => RequiredMeets ms node ∧ members ms node
    | .arr xs => BoundsMeet "minItems" "maxItems" (.ofNat xs.length) node ∧ elements xs node
    | .str s => BoundsMeet "minLength" "maxLength" (.ofNat s.length) node ∧ PatternMeets s node
    | .num d => BoundsMeet "minimum" "maximum" d node
    | _ => True
where
  members : List (Str × Value) → Value → Prop
    | [], _ => True
    | (name, child) :: ms, node =>
      (∃ property, (propertiesOf node).get? name = some property ∧ Conforms child property) ∧
        members ms node
  elements : List Value → Value → Prop
    | [], _ => True
    | item :: xs, node =>
      (∀ items, node.get? "items" = some items → Conforms item items) ∧ elements xs node

theorem conforms_members {ms : List (Str × Value)} {node : Value} :
    Conforms.members ms node ↔ ∀ m ∈ ms, ∃ property,
      (propertiesOf node).get? m.1 = some property ∧ Conforms m.2 property := by
  induction ms with
  | nil => simp [Conforms.members]
  | cons m ms ih => rw [Conforms.members, ih, List.forall_mem_cons]

theorem conforms_elements {xs : List Value} {node : Value} :
    Conforms.elements xs node ↔
      ∀ x ∈ xs, ∀ items, node.get? "items" = some items → Conforms x items := by
  induction xs with
  | nil => simp [Conforms.elements]
  | cons x xs ih => rw [Conforms.elements, ih, List.forall_mem_cons]

/-! ## What fails -/

open Classical in
/-- The entry for a condition that is not met. -/
noncomputable def report (P : Prop) (keyword : String) (path : Str) : List Violation :=
  if P then [] else [⟨str keyword, path⟩]

/-- The entries for two bounds. -/
noncomputable def reportBounds (low high : String) (n : Decimal) (node : Value) (path : Str) :
    List Violation :=
  report (BoundMeets low (fun bound => n.ltValue bound) node) low path ++
    report (BoundMeets high (fun bound => bound.ltValue n) node) high path

/-- Everything that is wrong with the value, in the order of the walk.  A value of the wrong type is
not looked into. -/
noncomputable def violationsAt (value node : Value) (path : Str) : List Violation :=
  if matchesType value (schemaTypeOf node) = true then
    report (EnumMeets value node) "enum" path ++ (report (ConstMeets value node) "const" path ++
      match value with
      | .obj ms => ((requiredOf node).getD []).flatMap
          (fun name => report (Dict.has ms name = true) "required" path) ++ members ms node path
      | .arr xs =>
        reportBounds "minItems" "maxItems" (.ofNat xs.length) node path ++ elements xs node path 0
      | .str s =>
        reportBounds "minLength" "maxLength" (.ofNat s.length) node path ++
          report (PatternMeets s node) "pattern" path
      | .num d => reportBounds "minimum" "maximum" d node path
      | _ => [])
  else [⟨str "type", path⟩]
where
  members : List (Str × Value) → Value → Str → List Violation
    | [], _, _ => []
    | (name, child) :: ms, node, path =>
      (match (propertiesOf node).get? name with
        | some property => violationsAt child property (pointerJoin path name)
        | none => [⟨str "additionalProperties", path⟩]) ++ members ms node path
  elements : List Value → Value → Str → Nat → List Violation
    | [], _, _, _ => []
    | item :: xs, node, path, index =>
      (match node.get? "items" with
        | some items => violationsAt item items (pointerJoin path (decimalText index))
        | none => []) ++ elements xs node path (index + 1)

theorem report_pass {P : Prop} (h : P) (keyword : String) (path : Str) : report P keyword path = [] :=
  if_pos h

theorem report_fail {P : Prop} (h : ¬ P) (keyword : String) (path : Str) :
    report P keyword path = [⟨str keyword, path⟩] := if_neg h

theorem report_nil_iff {P : Prop} {keyword : String} {path : Str} : report P keyword path = [] ↔ P := by
  by_cases h : P
  · exact iff_of_true (report_pass h _ _) h
  · rw [report_fail h]
    exact iff_of_false (List.cons_ne_nil _ _) h

theorem reportBounds_nil_iff {low high : String} {n : Decimal} {node : Value} {path : Str} :
    reportBounds low high n node path = [] ↔ BoundsMeet low high n node := by
  rw [reportBounds, List.append_eq_nil_iff, report_nil_iff, report_nil_iff, BoundsMeet]

/-- Nothing is wrong with a value that conforms, and with no other. -/
theorem violationsAt_nil_iff (value : Value) : ∀ {node : Value} {path : Str},
    violationsAt value node path = [] ↔ Conforms value node := by
  -- the checks that a value of any type goes through come first
  have front : ∀ {value node : Value} {path : Str} {rest : List Violation} {P : Prop},
      (rest = [] ↔ P) → ((if matchesType value (schemaTypeOf node) = true then
        report (EnumMeets value node) "enum" path ++
          (report (ConstMeets value node) "const" path ++ rest)
        else [⟨str "type", path⟩]) = [] ↔ matchesType value (schemaTypeOf node) = true ∧
          EnumMeets value node ∧ ConstMeets value node ∧ P) := by
    intro value node path rest P hrest
    split
    · rename_i hmatch
      rw [List.append_eq_nil_iff, List.append_eq_nil_iff, report_nil_iff, report_nil_iff, hrest,
        and_iff_right hmatch]
    · rename_i hmatch
      exact iff_of_false (List.cons_ne_nil _ _) fun h => hmatch h.1
  induction value using Value.induct with
  | null => intro node path; rw [violationsAt.eq_def, Conforms.eq_def]; exact front (by simp)
  | bool b => intro node path; rw [violationsAt.eq_def, Conforms.eq_def]; exact front (by simp)
  | num d =>
    intro node path
    rw [violationsAt.eq_def, Conforms.eq_def]
    exact front reportBounds_nil_iff
  | str s =>
    intro node path
    rw [violationsAt.eq_def, Conforms.eq_def]
    exact front (by rw [List.append_eq_nil_iff, reportBounds_nil_iff, report_nil_iff])
  | arr xs ih =>
    have elements : ∀ {node path} (index : Nat), violationsAt.elements xs node path index = [] ↔
        Conforms.elements xs node := by
      intro node path index
      induction xs generalizing index with
      | nil => exact iff_of_true rfl trivial
      | cons x xs ihxs =>
        obtain ⟨hx, hxs⟩ := List.forall_mem_cons.mp ih
        rw [violationsAt.elements, Conforms.elements, List.append_eq_nil_iff, ihxs hxs]
        refine and_congr_left fun _ => ?_
        cases node.get? "items" with
        | none => simp
        | some items => simpa using hx
    intro node path
    rw [violationsAt.eq_def, Conforms.eq_def]
    exact front (by rw [List.append_eq_nil_iff, reportBounds_nil_iff, elements])
  | obj ms ih =>
    have members : ∀ {node path}, violationsAt.members ms node path = [] ↔ Conforms.members ms node := by
      intro node path
      induction ms with
      | nil => exact iff_of_true rfl trivial
      | cons m ms ihms =>
        obtain ⟨name, child⟩ := m
        obtain ⟨hm, hms⟩ := List.forall_mem_cons.mp ih
        rw [violationsAt.members, Conforms.members, List.append_eq_nil_iff, ihms hms]
        refine and_congr_left fun _ => ?_
        cases (propertiesOf node).get? name with
        | none => simp
        | some property => simpa using hm
    intro node path
    rw [violationsAt.eq_def, Conforms.eq_def]
    refine front ?_
    rw [List.append_eq_nil_iff, members, List.flatMap_eq_nil_iff]
    simp only [report_nil_iff, RequiredMeets]

/-! ## Reading a node of the profile -/

section Node

variable {root : Bool} {node : Value}

theorem getItem_of {ms : List (Str × Value)} {key : String} {v : Value}
    (h : (Value.obj ms).get? key = some v) : getItem (.obj ms) key = .ok v := by
  rw [Value.get?, Value.dict] at h
  rw [getItem, h]

theorem has_iff_get? {key : String} : node.has key = true ↔ ∃ v, node.get? key = some v :=
  Dict.has_iff_get?

theorem get?_of_has_false {key : String} (h : node.has key = false) : node.get? key = none := by
  rw [Option.eq_none_iff_forall_ne_some]
  intro v hv
  rw [has_iff_get?.mpr ⟨v, hv⟩] at h
  cases h

/-- The type of a node, by name. -/
theorem type_of_valid (h : validType node = true) :
    ∃ name ∈ jsonTypes, node.get? "type" = some (.str (str name)) := by
  obtain ⟨name, hname, htype⟩ := List.any_eq_true.mp h
  exact ⟨name, hname, typeIs_iff.mp htype⟩

theorem schemaTypeOf_of {v : Value} (h : node.get? "type" = some v) : schemaTypeOf node = v := by
  rw [schemaTypeOf, h, Option.getD_some]

/-- The kind of a value of the node's type tells the type. -/
theorem typeIs_of_matches (hvalid : validType node = true) {value : Value}
    (h : matchesType value (schemaTypeOf node) = true) :
    match value with
    | .obj _ => typeIs node "object" = true
    | .arr _ => typeIs node "array" = true
    | .str _ => typeIs node "string" = true
    | .num _ => typeIs node "integer" = true ∨ typeIs node "number" = true
    | _ => True := by
  obtain ⟨name, hname, htype⟩ := type_of_valid hvalid
  rw [schemaTypeOf_of htype] at h
  simp only [jsonTypes, List.mem_cons, List.not_mem_nil, or_false] at hname
  have hcases : ∀ other, typeIs node other = decide (name = other) := by
    intro other
    rw [typeIs, htype]
    exact Value.eqStr_str name other
  rcases hname with rfl | rfl | rfl | rfl | rfl | rfl | rfl <;> cases value <;>
    simp [matchesType, Value.eqStr_str, hcases] at h ⊢

end Node

/-! ## The checks of the walk -/

section Checks

variable {root : Bool} {ms : List (Str × Value)} {path : Str}

/-- A check by its condition. -/
theorem appends_report {P : Prop} {c : Bool} (h : c = true ↔ P) (keyword : String) :
    Appends (ε := PyError) maxViolations
      (fun violations => .ok (if c then violations else addViolation violations keyword path))
      (report P keyword path) := by
  cases c with
  | true => exact Appends.pass.congr (report_pass (h.mp rfl) _ _).symm
  | false =>
    exact (Appends.add _).congr (report_fail (fun hP => absurd (h.mpr hP) Bool.false_ne_true) _ _).symm

theorem appends_pass {P : Prop} (h : P) (keyword : String) :
    Appends (ε := PyError) maxViolations (fun violations => .ok violations) (report P keyword path) :=
  Appends.pass.congr (report_pass h _ _).symm

theorem appends_checkEnum (value : Value) (hnode : NodeOk root (.obj ms)) :
    Appends maxViolations (checkEnum value (.obj ms) path)
      (report (EnumMeets value (.obj ms)) "enum" path) := by
  unfold checkEnum
  split
  · rename_i hhas
    obtain ⟨v, hv⟩ := has_iff_get?.mp hhas
    obtain ⟨items, rfl, -⟩ := hnode.enum v hv
    rw [getItem_of hv]
    refine appends_report ?_ "enum"
    rw [List.any_eq_true, EnumMeets, hv]
    exact ⟨fun h items' heq => by cases heq; exact h, fun h => h items rfl⟩
  · rename_i hhas
    refine appends_pass (fun items hitems => ?_) "enum"
    rw [get?_of_has_false (Bool.not_eq_true _ ▸ hhas)] at hitems
    cases hitems

theorem appends_checkConst (value : Value) :
    Appends maxViolations (checkConst value (.obj ms) path)
      (report (ConstMeets value (.obj ms)) "const" path) := by
  unfold checkConst
  split
  · rename_i hhas
    obtain ⟨v, hv⟩ := has_iff_get?.mp hhas
    rw [getItem_of hv]
    refine appends_report ?_ "const"
    rw [ConstMeets, hv]
    exact ⟨fun h c hc => Option.some.inj hc ▸ h, fun h => h v rfl⟩
  · rename_i hhas
    refine appends_pass (fun c hc => ?_) "const"
    rw [get?_of_has_false (Bool.not_eq_true _ ▸ hhas)] at hc
    cases hc

/-- A numeric keyword that holds a number. -/
theorem appends_checkBound {keyword : String} {fails : Decimal → Bool}
    (hnum : (Value.obj ms).has keyword = true → isNumber ((Value.obj ms).get? keyword) = true) :
    Appends maxViolations (checkBound keyword fails (.obj ms) path)
      (report (BoundMeets keyword fails (.obj ms)) keyword path) := by
  unfold checkBound
  split
  · rename_i hhas
    obtain ⟨v, hv⟩ := has_iff_get?.mp hhas
    have hnum := hnum hhas
    rw [hv] at hnum
    cases v with
    | num bound =>
      have hmeets : (!fails bound) = true ↔ BoundMeets keyword fails (.obj ms) := by
        rw [BoundMeets, hv, Bool.not_eq_true']
        exact ⟨fun h b hb => by cases hb; exact h, fun h => h bound rfl⟩
      rw [getItem_of hv]
      have happends := @appends_report path _ _ hmeets keyword
      intro log hlog
      rw [← happends log hlog]
      show Except.ok (if fails bound then _ else _) = _
      cases fails bound <;> rfl
    | _ => cases hnum
  · rename_i hhas
    refine appends_pass (fun bound hbound => ?_) keyword
    rw [get?_of_has_false (Bool.not_eq_true _ ▸ hhas)] at hbound
    cases hbound

theorem appends_checkBounds {low high : String} (n : Decimal)
    (hnum : ∀ keyword ∈ [low, high], (Value.obj ms).has keyword = true →
      isNumber ((Value.obj ms).get? keyword) = true) :
    Appends maxViolations (checkBounds low high n (.obj ms) path)
      (reportBounds low high n (.obj ms) path) :=
  (appends_checkBound (hnum low (by simp))).bind (appends_checkBound (hnum high (by simp)))

/-- A natural number is a number. -/
theorem LimitsOk.isNumber {low high : String} {node : Value} (h : LimitsOk low high node) :
    ∀ keyword ∈ [low, high], node.has keyword = true → isNumber (node.get? keyword) = true := by
  intro keyword hkeyword hhas
  have hnat := h.naturals keyword hkeyword hhas
  revert hnat
  cases node.get? keyword with
  | none => exact id
  | some v => cases v <;> simp [natural, CheckContract.isNumber]

theorem appends_checkRequired (members : Dict Value) (names : List Str) :
    Appends maxViolations (checkRequired members path (names.map .str))
      (names.flatMap fun name => report (members.has name = true) "required" path) := by
  induction names with
  | nil => exact Appends.pass
  | cons name names ih => exact (appends_report Iff.rfl "required").bind ih

theorem appends_checkPattern (value : Str)
    (hpattern : ∀ v, (Value.obj ms).get? "pattern" = some v →
      ∃ p, v = .str p ∧ auditedPatternMatchers.has p = true) :
    Appends maxViolations (checkPattern value (.obj ms) path)
      (report (PatternMeets value (.obj ms)) "pattern" path) := by
  unfold checkPattern
  split
  · rename_i hhas
    obtain ⟨v, hv⟩ := has_iff_get?.mp hhas
    obtain ⟨p, rfl, haudited⟩ := hpattern v hv
    obtain ⟨matcher, hmatcher⟩ := Dict.has_iff_get?.mp haudited
    rw [getItem_of hv]
    simp only [bind, Except.bind, hmatcher]
    refine appends_report ?_ "pattern"
    rw [PatternMeets, hv]
    constructor
    · intro h p' matcher' hp hm
      cases hp
      rw [hmatcher] at hm
      exact Option.some.inj hm ▸ h
    · exact fun h => h p matcher rfl hmatcher
  · rename_i hhas
    refine appends_pass (fun p matcher hp => ?_) "pattern"
    rw [get?_of_has_false (Bool.not_eq_true _ ▸ hhas)] at hp
    cases hp

end Checks

/-! ## The walk -/

/-- A property of an object schema is one of its subschemas. -/
theorem mem_subschemas_property {node property : Value} {name : Str} (h : typeIs node "object" = true)
    (hproperty : (propertiesOf node).get? name = some property) : property ∈ subschemas node := by
  rw [subschemas, if_pos h]
  exact List.mem_map_of_mem (f := (·.2)) (Dict.mem_of_get? hproperty)

theorem mem_subschemas_items {node items : Value} (h : typeIs node "array" = true)
    (hitems : node.get? "items" = some items) : items ∈ subschemas node := by
  have hobject := typeIs_other h "object" (by decide)
  rw [subschemas, hobject, if_neg Bool.false_ne_true, if_pos h, hitems]
  exact List.mem_singleton_self _

/-- The strings of a list of strings. -/
theorem eq_map_of_stringItems {items : List Value} {names : List Str}
    (h : stringItems items = some names) : items = names.map .str := by
  induction items generalizing names with
  | nil => cases h; rfl
  | cons item items ih =>
    cases item with
    | str s =>
      rw [stringItems] at h
      obtain ⟨rest, hrest, rfl⟩ := Option.map_eq_some_iff.mp h
      rw [List.map_cons, ih hrest]
    | _ => cases h

theorem required_of {node : Value} {names : List Str} (h : requiredOf node = some names) :
    node.get? "required" = some (.arr (names.map .str)) := by
  rw [requiredOf] at h
  split at h
  · rename_i items hitems
    rw [hitems, eq_map_of_stringItems h]
  · cases h

/-- The part of the walk that does not depend on the kind of the value. -/
theorem appends_front {root : Bool} {value node : Value} (hnode : NodeOk root node)
    {new : List Violation} {path : Str} {rest : Value → List Violation → Except PyError (List Violation)}
    (hrest : matchesType value (schemaTypeOf node) = true →
      Appends maxViolations (rest (schemaTypeOf node)) new) :
    Appends maxViolations
      (fun violations => if maxViolations ≤ violations.length then .ok violations
        else do
          let schemaType ← getItem node "type"
          if !matchesType value schemaType then
            return addViolation violations "type" path
          let violations ← checkEnum value node path violations
          let violations ← checkConst value node path violations
          rest schemaType violations)
      (if matchesType value (schemaTypeOf node) = true then
        report (EnumMeets value node) "enum" path ++ (report (ConstMeets value node) "const" path ++ new)
      else [⟨str "type", path⟩]) := by
  obtain ⟨ms, rfl⟩ := hnode.object
  obtain ⟨name, -, htype⟩ := type_of_valid hnode.type
  rw [getItem_of htype, schemaTypeOf_of htype]
  rw [schemaTypeOf_of htype] at hrest
  simp only [bind, Except.bind]
  apply Appends.skip
  cases hmatch : matchesType value (.str (str name)) with
  | false => exact Appends.add _
  | true =>
    exact (appends_checkEnum value hnode).bind ((appends_checkConst value).bind (hrest hmatch))

/-- The type of a node of the profile is a string and can be hashed. -/
theorem appends_hash {root : Bool} {node : Value} (hnode : NodeOk root node) :
    Appends maxViolations (fun violations : List Violation => do
      hash (schemaTypeOf node)
      return violations) [] := by
  obtain ⟨name, -, htype⟩ := type_of_valid hnode.type
  rw [schemaTypeOf_of htype]
  exact Appends.pass

theorem appends_members {node : Value} {remaining : Nat} {ms : List (Str × Value)}
    (hobject : typeIs node "object" = true)
    (hchildren : ∀ child ∈ subschemas node, Profile remaining false child)
    (ih : ∀ m ∈ ms, ∀ {remaining : Nat} {root : Bool} {node : Value}, Profile remaining root node →
      ∀ path : Str, Appends maxViolations (walk m.2 node path) (violationsAt m.2 node path))
    (path : Str) : Appends maxViolations (walk.members ms (.obj (propertiesOf node)) path)
      (violationsAt.members ms node path) := by
  induction ms with
  | nil => exact Appends.pass
  | cons m ms ihms =>
    obtain ⟨name, child⟩ := m
    obtain ⟨hchild, hms⟩ := List.forall_mem_cons.mp ih
    have hrest := ihms hms
    refine Appends.of_eq (fun log => walk.members.eq_def _ _ _ log) ?_
    rw [violationsAt.members]
    simp only [contains, propertyItem, bind, Except.bind]
    cases hproperty : (propertiesOf node).get? name with
    | some property =>
      have hhas := Dict.has_iff_get?.mpr ⟨property, hproperty⟩
      simp only [hhas, if_true]
      exact (hchild (hchildren _ (mem_subschemas_property hobject hproperty)) _).bind hrest
    | none =>
      have hhas : Dict.has (propertiesOf node) name = false := by
        rw [← Bool.not_eq_true, Dict.has_iff_get?, hproperty]
        rintro ⟨property, h⟩
        cases h
      simp only [hhas, Bool.false_eq_true, if_false]
      exact (Appends.add _).bind hrest

theorem appends_elements {node items : Value} {remaining : Nat} {xs : List Value}
    (hnode : ∃ ms, node = .obj ms) (hitems : node.get? "items" = some items)
    (hprofile : Profile remaining false items)
    (ih : ∀ x ∈ xs, ∀ {remaining : Nat} {root : Bool} {node : Value}, Profile remaining root node →
      ∀ path : Str, Appends maxViolations (walk x node path) (violationsAt x node path))
    (path : Str) : ∀ index : Nat, Appends maxViolations (walk.elements xs node path index)
      (violationsAt.elements xs node path index) := by
  induction xs with
  | nil => exact fun index => Appends.pass
  | cons x xs ihxs =>
    intro index
    obtain ⟨hx, hxs⟩ := List.forall_mem_cons.mp ih
    obtain ⟨ms, rfl⟩ := hnode
    refine Appends.of_eq (fun log => walk.elements.eq_def _ _ _ _ log) ?_
    simp only [violationsAt.elements, getItem_of hitems, hitems]
    exact (hx hprofile _).bind (ihxs hxs (index + 1))

theorem Profile.exists_succ {remaining : Nat} {root : Bool} {node : Value}
    (h : Profile remaining root node) : ∃ n, remaining = n + 1 := by
  cases remaining with
  | zero => exact h.elim
  | succ n => exact ⟨n, rfl⟩

/-- On a schema of the profile the walk never raises, and it lists what is wrong until the list is
full. -/
theorem appends_walk (value : Value) : ∀ {remaining : Nat} {root : Bool} {node : Value},
    Profile remaining root node → ∀ path : Str,
      Appends maxViolations (walk value node path) (violationsAt value node path) := by
  induction value using Value.induct with
  | null =>
    intro remaining root node hp path
    obtain ⟨remaining, rfl⟩ := hp.exists_succ
    refine Appends.of_eq (fun log => walk.eq_def _ node path log) ?_
    rw [violationsAt.eq_def]
    exact appends_front hp.1 fun _ => appends_hash hp.1
  | bool b =>
    intro remaining root node hp path
    obtain ⟨remaining, rfl⟩ := hp.exists_succ
    refine Appends.of_eq (fun log => walk.eq_def _ node path log) ?_
    rw [violationsAt.eq_def]
    exact appends_front hp.1 fun _ => appends_hash hp.1
  | num d =>
    intro remaining root node hp path
    obtain ⟨remaining, rfl⟩ := hp.exists_succ
    refine Appends.of_eq (fun log => walk.eq_def _ node path log) ?_
    rw [violationsAt.eq_def]
    refine appends_front hp.1 fun hmatch => ?_
    have hkind := hp.1.numericKind (typeIs_of_matches hp.1.type hmatch)
    obtain ⟨ms, rfl⟩ := hp.1.object
    exact appends_checkBounds d hkind.1
  | str s =>
    intro remaining root node hp path
    obtain ⟨remaining, rfl⟩ := hp.exists_succ
    refine Appends.of_eq (fun log => walk.eq_def _ node path log) ?_
    rw [violationsAt.eq_def]
    refine appends_front hp.1 fun hmatch => ?_
    obtain ⟨hlimits, hpattern⟩ := hp.1.stringKind (typeIs_of_matches hp.1.type hmatch)
    obtain ⟨ms, rfl⟩ := hp.1.object
    exact (appends_checkBounds _ hlimits.isNumber).bind (appends_checkPattern s hpattern)
  | arr xs ih =>
    intro remaining root node hp path
    obtain ⟨remaining, rfl⟩ := hp.exists_succ
    refine Appends.of_eq (fun log => walk.eq_def _ node path log) ?_
    rw [violationsAt.eq_def]
    refine appends_front hp.1 fun hmatch => ?_
    have htype := typeIs_of_matches hp.1.type hmatch
    obtain ⟨⟨items, hitems⟩, hlimits⟩ := hp.1.arrayKind htype
    have hprofile := hp.2 items (mem_subschemas_items htype hitems)
    have helements := appends_elements hp.1.object hitems hprofile ih path 0
    obtain ⟨ms, rfl⟩ := hp.1.object
    exact (appends_checkBounds _ hlimits.isNumber).bind helements
  | obj members ih =>
    intro remaining root node hp path
    obtain ⟨remaining, rfl⟩ := hp.exists_succ
    refine Appends.of_eq (fun log => walk.eq_def _ node path log) ?_
    rw [violationsAt.eq_def]
    refine appends_front hp.1 fun hmatch => ?_
    have htype := typeIs_of_matches hp.1.type hmatch
    obtain ⟨⟨properties, hproperties⟩, ⟨required, hrequired, -, -⟩, -⟩ := hp.1.objectKind htype
    have hprops : propertiesOf node = properties := by rw [propertiesOf, hproperties]
    rw [← hprops] at hproperties
    have hmembers := appends_members htype hp.2 ih path
    rw [hrequired, Option.getD_some]
    obtain ⟨ms, rfl⟩ := hp.1.object
    rw [getItem_of hproperties, getItem_of (required_of hrequired)]
    exact (appends_checkRequired members required).bind hmembers

/-- On a schema of the profile `validate_instance` never raises, and it returns the first 25 entries
of everything that is wrong with the instance. -/
theorem validateInstance_eq {schema : Value} (h : Profile (maxNestingDepth + 1) true schema)
    (value : Value) :
    validateInstance value schema = .ok ((violationsAt value schema []).take maxViolations) :=
  (appends_walk value h []).run

/-- It returns no violation exactly when the instance conforms. -/
theorem validateInstance_nil_iff {schema : Value} (h : Profile (maxNestingDepth + 1) true schema)
    (value : Value) :
    validateInstance value schema = .ok [] ↔ Conforms value schema := by
  rw [validateInstance_eq h, Except.ok.injEq, List.take_eq_nil_iff, violationsAt_nil_iff]
  exact or_iff_right (by decide)

end FastGate.CheckContract
