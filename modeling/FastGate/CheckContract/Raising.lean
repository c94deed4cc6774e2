/-
# FastGate.CheckContract.Raising — the schema checker, exceptions included

`SchemaIssues` models what `schema_issues` reports.  This module models it once more with every
operation that Python refuses on values of the wrong shape: `node[key]`, `.get` and `.items()` of what
is no dictionary, iterating or taking the length of a number, hashing a list, comparing what is no
number.  Operands of `and`, `or` and `any` are evaluated from left to right and only as far as needed.

Each operation stands behind a test of the source that makes it safe, so on every value the checker
returns what `SchemaIssues` says (`schemaIssues_eq`).
-/
import FastGate.CheckContract.Frozen

open FastGate.Python

namespace FastGate.CheckContract.Raising

/-! ## Operations -/

/-- `isinstance(value, dict)` -/
def isDict (value : Value) : Bool := value matches .obj _

/-- `isinstance(value, list)` -/
def isList (value : Value) : Bool := value matches .arr _

/-- `isinstance(value, str)` -/
def isStr (value : Value) : Bool := value matches .str _

/-- `value.get(key)`; only dictionaries have the method, and what is absent is `None`. -/
def dictGet (value : Value) (key : String) : Except PyError Value :=
  match value with
  | .obj ms => .ok ((Dict.get? ms (str key)).getD .null)
  | _ => .error .typeError

/-- `value.items()` -/
def items : Value → Except PyError (Dict Value)
  | .obj ms => .ok ms
  | _ => .error .typeError

/-- The entries of a list whose length is taken, or that is sliced. -/
def entries : Value → Except PyError (List Value)
  | .arr xs => .ok xs
  | _ => .error .typeError

/-- `value in names`, for a set or the keys of a dictionary. -/
def inNames (value : Value) (names : List Str) : Except PyError Bool := do
  hash value
  return match value with
    | .str s => names.contains s
    | _ => false

/-- `==` of two values with a hash. -/
def sameKey : Value → Value → Bool
  | .str a, .str b => a == b
  | .null, .null => true
  | a, b =>
    match asNumber a, asNumber b with
    | .ok x, .ok y => x.eqValue y
    | _, _ => false

/-- `set(values)`: every value is hashed, and of equal ones one is kept. -/
def setOf (values : List Value) : Except PyError (List Value) := do
  values.forM hash
  return values.pwFilter fun a b => sameKey a b = false

/-- `a > b` -/
def greater (a b : Value) : Except PyError Bool := do
  let x ← asNumber a
  let y ← asNumber b
  return y.ltValue x

/-- `json_equal` -/
def jsonEqual : Value → Value → Except PyError Bool
  | .bool a, .bool b => return a == b
  | .num a, .num b => return a.eqValue b
  | .arr xs, .arr ys => pure (xs.length == ys.length) <&&> elements xs ys
  | .obj ms, .obj ns =>
    pure (((Dict.keys ms).all fun key => Dict.has ns key) &&
      (Dict.keys ns).all fun key => Dict.has ms key) <&&> members ms (.obj ns)
  | .str a, .str b => return a == b
  | .null, .null => return true
  | _, _ => return false
where
  elements : List Value → List Value → Except PyError Bool
    | x :: xs, y :: ys => jsonEqual x y <&&> elements xs ys
    | _, _ => return true
  members : List (Str × Value) → Value → Except PyError Bool
    | [], _ => return true
    | (key, v) :: ms, right => (do
        let w ← propertyItem right key
        jsonEqual v w) <&&> members ms right

/-! ## Operations that are safe -/

section Operations

variable {ε : Type}

theorem andM_pure (a b : Bool) : (pure a <&&> pure b : Except ε Bool) = pure (a && b) := by
  cases a <;> rfl

/-- The right operand is evaluated only when the left one holds. -/
theorem andM_of {a b : Bool} {x : Except ε Bool} (h : a = true → x = pure b) :
    (pure a <&&> x) = pure (a && b) := by
  cases a with
  | false => rfl
  | true => exact h rfl

/-- The right operand is evaluated only when the left one fails. -/
theorem orM_of {a b : Bool} {x : Except ε Bool} (h : a = false → x = pure b) :
    (pure a <||> x) = pure (a || b) := by
  cases a with
  | false => exact h rfl
  | true => rfl

theorem anyM_of {α : Type} {xs : List α} {f : α → Except ε Bool} {p : α → Bool}
    (h : ∀ x ∈ xs, f x = pure (p x)) : xs.anyM f = pure (xs.any p) := by
  induction xs with
  | nil => rfl
  | cons x xs ih =>
    obtain ⟨hx, hxs⟩ := List.forall_mem_cons.mp h
    rw [List.anyM, hx, List.any_cons, pure_bind]
    cases p x with
    | true => rfl
    | false => exact ih hxs

theorem foldlM_of {α β : Type} {xs : List α} {f : β → α → Except ε β} {g : β → α → β}
    (h : ∀ b, ∀ x ∈ xs, f b x = pure (g b x)) : ∀ b, xs.foldlM f b = pure (xs.foldl g b) := by
  induction xs with
  | nil => exact fun b => rfl
  | cons x xs ih =>
    intro b
    rw [List.foldlM_cons, h b x List.mem_cons_self, pure_bind, List.foldl_cons]
    exact ih (fun b y hy => h b y (List.mem_cons_of_mem x hy)) _

end Operations

@[simp] theorem dictGet_obj (ms : List (Str × Value)) (key : String) :
    dictGet (.obj ms) key = pure (((Value.obj ms).get? key).getD .null) := rfl

theorem getItem_obj {ms : List (Str × Value)} {key : String} (h : (Value.obj ms).has key = true) :
    getItem (.obj ms) key = pure (((Value.obj ms).get? key).getD .null) := by
  obtain ⟨v, hv⟩ := has_iff_get?.mp h
  rw [getItem_of hv, hv]
  rfl

theorem forM_hash_strs (names : List Str) :
    (names.map Value.str).forM hash = (pure () : Except PyError Unit) := by
  induction names with
  | nil => rfl
  | cons name names ih => exact ih

/-- A set of strings. -/
theorem setOf_strs (names : List Str) : setOf (names.map .str) = pure (names.dedup.map .str) := by
  have hdistinct : (fun a b : Str => sameKey (.str a) (.str b) = false) = (· ≠ ·) := by
    funext a b
    exact propext beq_eq_false_iff_ne
  unfold setOf
  rw [forM_hash_strs, pure_bind, List.pwFilter_map, List.dedup]
  congr! 3

theorem length_setOf_strs (names : List Str) :
    names.length = names.dedup.length ↔ names.Nodup := by
  constructor
  · intro h
    exact List.dedup_eq_self.mp ((List.dedup_sublist names).eq_of_length h.symm)
  · intro h
    rw [List.dedup_eq_self.mpr h]

/-! ## The checks of a node -/

section Checks

variable (rt : Runtime)

/-- `matches_type(value, "integer") and value >= 0` -/
def natural (value : Value) : Except PyError Bool :=
  pure (matchesType value (text "integer")) <&&> do
    let n ← asNumber value
    return !n.ltValue (.ofNat 0)

/-- `number` inside `schema_issues`, for what `strict_json` returns. -/
def number (value : Value) : Bool := value matches .num _

/-- `if keyword in node and not check(node[keyword]): add(path, message)`, for each keyword. -/
def eachKeyword (keywords : List String) (check : Value → Except PyError Bool) (message : String → Str)
    (node : Value) (path : Str) (issues : List Str) : Except PyError (List Str) :=
  keywords.foldlM (fun issues keyword => do
    let wrong ← pure (node.has keyword) <&&> do
      let value ← getItem node keyword
      let passed ← check value
      return !passed
    return issueIf rt wrong path (message keyword) issues) issues

/-- `bounds` inside `schema_issues`: both limits, and their order when both can be compared. -/
def bounds (node : Value) (path : Str) (low high : String) (issues : List Str) :
    Except PyError (List Str) := do
  let issues ← eachKeyword rt [low, high] natural
    (fun keyword => str (keyword ++ " must be a non-negative integer")) node path issues
  let lowValue ← dictGet node low
  let highValue ← dictGet node high
  let crossed ← natural lowValue <&&> natural highValue <&&> do
    let a ← getItem node low
    let b ← getItem node high
    greater a b
  return issueIf rt crossed path (str (low ++ " must not exceed " ++ high)) issues

/-- `properties`, replaced by no entries when it is no dictionary. -/
def readProperties (node : Value) (path : Str) (issues : List Str) :
    Except PyError (Dict Value × List Str) := do
  let properties ← dictGet node "properties"
  if isDict properties then
    let properties ← items properties
    return (properties, issues)
  else
    return ([], addIssue rt issues path (str "object schemas require a properties object"))

/-- `required`, replaced by no names when it is no list of strings. -/
def readRequired (node : Value) (path : Str) (issues : List Str) :
    Except PyError (List Value × List Str) := do
  let required ← dictGet node "required"
  let wrong ← pure (!isList required) <||> do
    let names ← entries required
    return names.any fun name => !isStr name
  if wrong then
    return ([], addIssue rt issues path (str "object schemas require a required string array"))
  else
    let names ← entries required
    let distinct ← setOf names
    return (names, issueIf rt (names.length != distinct.length) path
      (str "required entries must be unique") issues)

/-- The branch for objects; `walkChild` is the walk one level down. -/
def objectNode (walkChild : Value → Str → List Str → Except PyError (List Str)) (node : Value)
    (path : Str) (issues : List Str) : Except PyError (List Str) := do
  let (properties, issues) ← readProperties rt node path issues
  let (required, issues) ← readRequired rt node path issues
  let additional ← dictGet node "additionalProperties"
  let issues := issueIf rt (!(additional matches .bool false)) path
    (str "object schemas require additionalProperties to be false") issues
  let issues ← properties.foldlM
    (fun issues entry => walkChild entry.2 (pointerJoin path entry.1) issues) issues
  let unnamed ← required.anyM fun name => do
    let named ← inDict name properties
    return !named
  return issueIf rt unnamed path (str "every required entry must name a property") issues

/-- The branch for arrays. -/
def arrayNode (walkChild : Value → Str → List Str → Except PyError (List Str)) (node : Value)
    (path : Str) (issues : List Str) : Except PyError (List Str) := do
  let issues ←
    if node.has "items" then do
      let child ← getItem node "items"
      walkChild child (pointerJoin path (str "items")) issues
    else pure (addIssue rt issues path (str "array schemas require items"))
  bounds rt node path "minItems" "maxItems" issues

/-- The check of `pattern`, which is looked up only when it is a string. -/
def patternKeyword (node : Value) (path : Str) (issues : List Str) : Except PyError (List Str) :=
  if node.has "pattern" then do
    let pattern ← getItem node "pattern"
    if !isStr pattern then
      return addIssue rt issues path (str "pattern must be a string")
    else
      let audited ← inNames pattern auditedPatternMatchers.keys
      return issueIf rt (!audited) path
        (str "pattern must be an audited language-neutral expression") issues
  else return issues

/-- The branch for strings. -/
def stringNode (node : Value) (path : Str) (issues : List Str) : Except PyError (List Str) := do
  let issues ← bounds rt node path "minLength" "maxLength" issues
  patternKeyword rt node path issues

/-- The branch for integers and numbers. -/
def numericNode (node : Value) (path : Str) (issues : List Str) : Except PyError (List Str) := do
  let issues ← eachKeyword rt ["minimum", "maximum"] (fun value => pure (number value))
    (fun keyword => str (keyword ++ " must be a finite number")) node path issues
  let low ← dictGet node "minimum"
  let high ← dictGet node "maximum"
  let crossed ← pure (number low && number high) <&&> do
    let a ← getItem node "minimum"
    let b ← getItem node "maximum"
    greater a b
  return issueIf rt crossed path (str "minimum must not exceed maximum") issues

/-- The branches by type. -/
def typedNode (walkChild : Value → Str → List Str → Except PyError (List Str)) (schemaType node : Value)
    (path : Str) (issues : List Str) : Except PyError (List Str) :=
  if schemaType.eqStr "object" then objectNode rt walkChild node path issues
  else if schemaType.eqStr "array" then arrayNode rt walkChild node path issues
  else if schemaType.eqStr "string" then stringNode rt node path issues
  else if schemaType.eqStr "integer" || schemaType.eqStr "number" then numericNode rt node path issues
  else return issues

/-- The check of `title` and `description`. -/
def annotations (node : Value) (path : Str) (issues : List Str) : Except PyError (List Str) :=
  eachKeyword rt ["title", "description"] (fun value => pure (isStr value))
    (fun keyword => str (keyword ++ " must be a string")) node path issues

/-- The loop over the keyword groups: the type is looked up in a set when one of the keywords is there. -/
def groups (schemaType node : Value) (path : Str) (issues : List Str) : Except PyError (List Str) :=
  keywordGroups.foldlM (fun issues group => do
    let wrong ← pure (group.1.any fun keyword => node.has keyword) <&&> (pure (!isStr schemaType) <||> do
      let allowed ← inNames schemaType (group.2.1.map str)
      return !allowed)
    return issueIf rt wrong path (str (group.2.2 ++ " keywords do not match type")) issues) issues

/-- `any(json_equal(a, b) for index, a in enumerate(enum) for b in enum[index + 1 :])` -/
def equalPair : List Value → Except PyError Bool
  | [] => return false
  | a :: rest => rest.anyM (jsonEqual a) <||> equalPair rest

/-- The checks of `enum`, each behind the ones that make it safe. -/
def enumKeyword (schemaType : Value) (validType : Bool) (node : Value) (path : Str)
    (issues : List Str) : Except PyError (List Str) :=
  if node.has "enum" then do
    let enum ← dictGet node "enum"
    let unusable ← pure (!isList enum) <||> do
      let members ← entries enum
      return members.isEmpty
    if unusable then
      return addIssue rt issues path (str "enum must be a non-empty array")
    else
      let members ← entries enum
      if members.length > maxEnumItems then
        return addIssue rt issues path (str s!"enum must contain at most {maxEnumItems} entries")
      else
        let repeated ← equalPair members
        if repeated then
          return addIssue rt issues path (str "enum entries must be unique")
        else
          return issueIf rt (validType && members.any fun item => !matchesType item schemaType) path
            (str "enum entries must match type") issues
  else return issues

/-- The checks of `const`, and of `const` beside `enum`. -/
def constKeyword (schemaType : Value) (validType : Bool) (node : Value) (path : Str)
    (issues : List Str) : Except PyError (List Str) := do
  let mistyped ← pure (node.has "const" && validType) <&&> do
    let const ← getItem node "const"
    return !matchesType const schemaType
  let issues := issueIf rt mistyped path (str "const must match type") issues
  return issueIf rt (node.has "enum" && node.has "const") path
    (str "enum and const must not be combined in this profile") issues

/-- `walk` inside `schema_issues`; the first argument counts down from the nesting limit. -/
def walk : Nat → Bool → Value → Str → List Str → Except PyError (List Str)
  | 0, _, _, path, issues =>
    return addIssue rt issues path (str "schema exceeds the checker nesting limit")
  | remaining + 1, root, node, path, issues =>
    if !isDict node then
      return addIssue rt issues path (str "a schema node must be an object")
    else do
      let issues := checkKeywords rt node path issues
      let issues := checkIdentity rt root node path issues
      let issues ← annotations rt node path issues
      let schemaType ← dictGet node "type"
      let validType ← pure (isStr schemaType) <&&> inNames schemaType (jsonTypes.map str)
      let issues := issueIf rt (!validType) path (str "type must be one supported JSON type string") issues
      let issues ← groups rt schemaType node path issues
      let issues ← typedNode rt (walk remaining false) schemaType node path issues
      let issues ← enumKeyword rt schemaType validType node path issues
      constKeyword rt schemaType validType node path issues

/-- `schema_issues`, with every exception that one of its operations could raise. -/
def schemaIssues (schema : Value) : Except PyError (List Str) :=
  walk rt (maxNestingDepth + 1) true schema [] []

end Checks

/-! ## Every operation is safe -/

theorem jsonEqual_eq (v : Value) : ∀ w, jsonEqual v w = pure (CheckContract.jsonEqual v w) := by
  induction v using Value.induct with
  | null => intro w; cases w <;> rfl
  | bool b => intro w; cases w <;> rfl
  | num d => intro w; cases w <;> rfl
  | str s => intro w; cases w <;> rfl
  | arr xs ih =>
    intro w
    cases w with
    | arr ys =>
      have helements : ∀ ys, jsonEqual.elements xs ys = pure (CheckContract.jsonEqual.elements xs ys) := by
        induction xs with
        | nil => exact fun ys => rfl
        | cons x xs ihxs =>
          intro ys
          obtain ⟨hx, hxs⟩ := List.forall_mem_cons.mp ih
          cases ys with
          | nil => rfl
          | cons y ys =>
            rw [jsonEqual.elements, CheckContract.jsonEqual.elements, hx y, ihxs hxs ys]
            exact andM_pure _ _
      rw [jsonEqual, CheckContract.jsonEqual, helements ys]
      exact andM_pure _ _
    | _ => rfl
  | obj ms ih =>
    intro w
    cases w with
    | obj ns =>
      -- `right[key]` is read only when the two dictionaries have the same keys
      have hmembers : (∀ key ∈ Dict.keys ms, Dict.has ns key = true) →
          jsonEqual.members ms (.obj ns) = pure (CheckContract.jsonEqual.members ms ns) := by
        intro hkeys
        induction ms with
        | nil => rfl
        | cons m ms ihms =>
          obtain ⟨key, child⟩ := m
          obtain ⟨hchild, hrest⟩ := List.forall_mem_cons.mp ih
          obtain ⟨hkey, hkeys⟩ := List.forall_mem_cons.mp hkeys
          obtain ⟨x, hx⟩ : ∃ x, Dict.get? ns key = some x := Dict.has_iff_get?.mp hkey
          have hitem : propertyItem (.obj ns) key = pure x := by
            rw [propertyItem, hx]
            rfl
          rw [jsonEqual.members, CheckContract.jsonEqual.members, hitem, pure_bind, hchild x,
            ihms hrest hkeys, hx]
          exact andM_pure _ _
      rw [jsonEqual, CheckContract.jsonEqual]
      refine andM_of fun hkeys => hmembers ?_
      rw [Bool.and_eq_true] at hkeys
      exact List.all_eq_true.mp hkeys.1
    | _ => rfl

theorem natural_eq (value : Value) : natural value = pure (CheckContract.natural (some value)) := by
  cases value with
  | num d =>
    have hmatches : matchesType (.num d) (text "integer") = d.isIntegral := rfl
    rw [natural, hmatches]
    exact andM_of fun _ => rfl
  | _ => rfl

@[simp] theorem natural_getD (x : Option Value) :
    natural (x.getD .null) = pure (CheckContract.natural x) := by
  cases x with
  | none => rfl
  | some value => exact natural_eq value

/-- Two numbers can be compared. -/
theorem greater_of {a b : Option Value} (ha : isNumber a = true) (hb : isNumber b = true) :
    greater (a.getD .null) (b.getD .null) = pure (exceeds a b) := by
  unfold isNumber at ha hb
  split at ha
  · split at hb
    · rfl
    · cases hb
  · cases ha

theorem isNumber_of_natural {x : Option Value} (h : CheckContract.natural x = true) :
    isNumber x = true := by
  unfold CheckContract.natural at h
  split at h
  · rfl
  · cases h

theorem has_of_natural {node : Value} {keyword : String}
    (h : CheckContract.natural (node.get? keyword) = true) : node.has keyword = true := by
  rw [has_iff_get?]
  cases hget : node.get? keyword with
  | none => rw [hget] at h; cases h
  | some v => exact ⟨v, rfl⟩

theorem number_getD (x : Option Value) : number (x.getD .null) = isNumber x := by
  cases x with
  | none => rfl
  | some value => cases value <;> rfl

section Checks

variable (rt : Runtime) {ms : List (Str × Value)} {path : Str} {issues : List Str}

/-- A keyword is read only where it is there. -/
theorem eachKeyword_eq {check : Value → Except PyError Bool} (passes : Option Value → Bool)
    (h : ∀ v, check v = pure (passes (some v))) (keywords : List String) (message : String → Str) :
    eachKeyword rt keywords check message (.obj ms) path issues =
      pure (keywords.foldl (fun issues keyword =>
        issueIf rt ((Value.obj ms).has keyword && !passes ((Value.obj ms).get? keyword)) path
          (message keyword) issues) issues) := by
  refine foldlM_of (fun issues keyword _ => ?_) issues
  have hwrong : (pure ((Value.obj ms).has keyword) <&&> do
      let value ← getItem (.obj ms) keyword
      let passed ← check value
      return !passed : Except PyError Bool) =
      pure ((Value.obj ms).has keyword && !passes ((Value.obj ms).get? keyword)) := by
    refine andM_of fun hhas => ?_
    obtain ⟨v, hv⟩ := has_iff_get?.mp hhas
    rw [getItem_of hv, hv]
    show (do let passed ← check v; return !passed) = _
    rw [h v]
    rfl
  rw [hwrong]
  rfl

theorem bounds_eq (low high : String) : bounds rt (.obj ms) path low high issues =
    pure (checkLimits rt low high (.obj ms) path issues) := by
  unfold bounds
  rw [eachKeyword_eq rt CheckContract.natural natural_eq]
  simp only [pure_bind, dictGet_obj, natural_getD]
  rw [andM_of (b := CheckContract.natural ((Value.obj ms).get? high) &&
    exceeds ((Value.obj ms).get? low) ((Value.obj ms).get? high))]
  · rw [pure_bind, checkLimits, Bool.and_assoc]
  · intro hlow
    refine andM_of fun hhigh => ?_
    -- both bounds are there, for the natural numbers were read from them
    rw [getItem_obj (has_of_natural hlow), getItem_obj (has_of_natural hhigh), pure_bind, pure_bind]
    exact greater_of (isNumber_of_natural hlow) (isNumber_of_natural hhigh)

theorem readProperties_eq : readProperties rt (.obj ms) path issues =
    pure (propertiesOf (.obj ms), issueIf rt
      (!(((Value.obj ms).get? "properties").any fun v => v matches .obj _)) path
      (str "object schemas require a properties object") issues) := by
  unfold readProperties propertiesOf
  rw [dictGet_obj, pure_bind]
  cases (Value.obj ms).get? "properties" with
  | none => rfl
  | some v => cases v <;> rfl

theorem stringItems_eq_none {values : List Value} (h : stringItems values = none) :
    values.any (fun value => !isStr value) = true := by
  induction values with
  | nil => cases h
  | cons value values ih =>
    cases value with
    | str s =>
      rw [stringItems, Option.map_eq_none_iff] at h
      exact ih h
    | _ => rfl

theorem any_not_isStr_strs (names : List Str) :
    (names.map Value.str).any (fun value => !isStr value) = false := by
  rw [List.any_map, List.any_eq_false]
  exact fun name _ h => by cases h

theorem readRequired_eq : readRequired rt (.obj ms) path issues =
    pure (((requiredOf (.obj ms)).getD []).map .str,
      match requiredOf (.obj ms) with
      | none => addIssue rt issues path (str "object schemas require a required string array")
      | some required =>
        issueIf rt (!decide required.Nodup) path (str "required entries must be unique") issues) := by
  unfold readRequired requiredOf
  rw [dictGet_obj, pure_bind]
  cases (Value.obj ms).get? "required" with
  | none => rfl
  | some v =>
    cases v with
    | arr values =>
      have hwrong : (pure (!isList (.arr values)) <||> do
          let names ← entries (.arr values)
          return names.any fun name => !isStr name : Except PyError Bool) =
          pure (values.any fun name => !isStr name) := rfl
      rw [Option.getD_some, hwrong, pure_bind]
      dsimp only
      cases hnames : stringItems values with
      | none =>
        rw [stringItems_eq_none hnames, if_pos rfl]
        rfl
      | some names =>
        obtain rfl := eq_map_of_stringItems hnames
        rw [any_not_isStr_strs, if_neg Bool.false_ne_true]
        have hentries : entries (.arr (names.map .str)) = pure (names.map .str) := rfl
        have hrepeated : ((names.map Value.str).length != (names.dedup.map Value.str).length) =
            !decide names.Nodup := by
          rw [List.length_map, List.length_map, bne, beq_eq_decide]
          exact congrArg (!·) (decide_eq_decide.mpr (length_setOf_strs names))
        rw [hentries, pure_bind, setOf_strs, pure_bind, hrepeated]
        rfl
    | _ => rfl

/-- The names were read as strings, so that looking them up hashes nothing else. -/
theorem anyM_inDict (names : List Str) (properties : Dict Value) :
    ((names.map Value.str).anyM fun name => do
      let named ← inDict name properties
      return !named) = pure (names.any fun name => !properties.has name) := by
  induction names with
  | nil => rfl
  | cons name names ih =>
    rw [List.map_cons, List.anyM, List.any_cons]
    show (pure (!properties.has name) >>= _) = _
    rw [pure_bind]
    cases properties.has name with
    | false => rfl
    | true => exact ih

theorem objectNode_eq {walkChild : Value → Str → List Str → Except PyError (List Str)}
    {walks : Value → Str → List Str → List Str}
    (h : ∀ child path issues, walkChild child path issues = pure (walks child path issues)) :
    objectNode rt walkChild (.obj ms) path issues =
      pure (checkRequiredNames rt (.obj ms) path ((propertiesOf (.obj ms)).foldl
        (fun issues entry => walks entry.2 (pointerJoin path entry.1) issues)
        (checkObject rt (.obj ms) path issues))) := by
  unfold objectNode
  rw [readProperties_eq, pure_bind]
  dsimp only
  rw [readRequired_eq, pure_bind, dictGet_obj, pure_bind]
  dsimp only
  rw [foldlM_of fun issues entry _ => h entry.2 (pointerJoin path entry.1) issues, pure_bind,
    anyM_inDict, pure_bind]
  have hclosed : (((Value.obj ms).get? "additionalProperties").getD .null matches .bool false) =
      ((Value.obj ms).get? "additionalProperties").any fun v => v matches .bool false := by
    cases (Value.obj ms).get? "additionalProperties" <;> rfl
  rw [hclosed]
  rfl

theorem arrayNode_eq {walkChild : Value → Str → List Str → Except PyError (List Str)}
    {walks : Value → Str → List Str → List Str}
    (h : ∀ child path issues, walkChild child path issues = pure (walks child path issues)) :
    arrayNode rt walkChild (.obj ms) path issues =
      pure (checkLimits rt "minItems" "maxItems" (.obj ms) path
        (match (Value.obj ms).get? "items" with
          | none => addIssue rt issues path (str "array schemas require items")
          | some items => walks items (pointerJoin path (str "items")) issues)) := by
  unfold arrayNode
  cases hhas : (Value.obj ms).has "items" with
  | false =>
    rw [get?_of_has_false hhas, if_neg Bool.false_ne_true, pure_bind]
    exact bounds_eq rt _ _
  | true =>
    obtain ⟨child, hchild⟩ := has_iff_get?.mp hhas
    rw [if_pos rfl, getItem_of hchild, hchild]
    show (walkChild child (pointerJoin path (str "items")) issues >>= _) = _
    rw [h, pure_bind]
    exact bounds_eq rt _ _

theorem patternKeyword_eq : patternKeyword rt (.obj ms) path issues =
    pure (checkPatternKeyword rt (.obj ms) path issues) := by
  unfold patternKeyword checkPatternKeyword
  cases hhas : (Value.obj ms).has "pattern" with
  | false =>
    rw [get?_of_has_false hhas]
    rfl
  | true =>
    obtain ⟨pattern, hpattern⟩ := has_iff_get?.mp hhas
    rw [if_pos rfl, getItem_of hpattern, hpattern]
    cases pattern with
    | str p =>
      have haudited : inNames (.str p) auditedPatternMatchers.keys =
          pure (auditedPatternMatchers.has p) := by
        have hkeys : auditedPatternMatchers.keys.contains p = auditedPatternMatchers.has p := by
          rw [Bool.eq_iff_iff, List.contains_iff_mem, Dict.has_iff]
        rw [← hkeys]
        rfl
      show (inNames (.str p) auditedPatternMatchers.keys >>= fun audited => pure (issueIf rt (!audited)
        path (str "pattern must be an audited language-neutral expression") issues)) = _
      rw [haudited]
      rfl
    | _ => rfl

theorem stringNode_eq : stringNode rt (.obj ms) path issues =
    pure (checkPatternKeyword rt (.obj ms) path
      (checkLimits rt "minLength" "maxLength" (.obj ms) path issues)) := by
  unfold stringNode
  rw [bounds_eq, pure_bind]
  exact patternKeyword_eq rt

theorem has_of_isNumber {node : Value} {keyword : String}
    (h : isNumber (node.get? keyword) = true) : node.has keyword = true := by
  rw [has_iff_get?]
  cases hget : node.get? keyword with
  | none => rw [hget] at h; cases h
  | some v => exact ⟨v, rfl⟩

theorem numericNode_eq : numericNode rt (.obj ms) path issues =
    pure (checkRange rt (.obj ms) path issues) := by
  unfold numericNode
  rw [eachKeyword_eq rt isNumber fun v => by cases v <;> rfl]
  simp only [pure_bind, dictGet_obj, number_getD]
  have hexceeds : ∀ a b, ((isNumber a && isNumber b) && exceeds a b) = exceeds a b := by
    intro a b
    unfold exceeds
    split
    · rfl
    · exact Bool.and_false _
  rw [andM_of (b := exceeds ((Value.obj ms).get? "minimum") ((Value.obj ms).get? "maximum")),
    hexceeds]
  · rfl
  · intro hboth
    obtain ⟨hlow, hhigh⟩ := (Bool.and_eq_true _ _).mp hboth
    rw [getItem_obj (has_of_isNumber hlow), getItem_obj (has_of_isNumber hhigh), pure_bind, pure_bind]
    exact greater_of hlow hhigh

theorem equalPair_eq (values : List Value) : equalPair values = pure (hasEqualPair values) := by
  induction values with
  | nil => rfl
  | cons a values ih =>
    rw [equalPair, hasEqualPair, anyM_of fun b _ => jsonEqual_eq a b]
    exact orM_of fun _ => ih

theorem enumKeyword_eq : enumKeyword rt (schemaTypeOf (.obj ms)) (validType (.obj ms)) (.obj ms) path
    issues = pure (checkEnumKeyword rt (.obj ms) path issues) := by
  unfold enumKeyword checkEnumKeyword
  cases hhas : (Value.obj ms).has "enum" with
  | false =>
    rw [get?_of_has_false hhas]
    rfl
  | true =>
    obtain ⟨enum, henum⟩ := has_iff_get?.mp hhas
    rw [if_pos rfl, dictGet_obj, henum, pure_bind, Option.getD_some]
    cases enum with
    | arr members =>
      cases members with
      | nil => rfl
      | cons first rest =>
        have husable : (pure (!isList (.arr (first :: rest))) <||> do
            let members ← entries (.arr (first :: rest))
            return members.isEmpty : Except PyError Bool) = pure false := rfl
        have hentries : entries (.arr (first :: rest)) = pure (first :: rest) := rfl
        rw [husable, pure_bind, if_neg Bool.false_ne_true, hentries, pure_bind, equalPair_eq, pure_bind]
        dsimp only
        split
        · rfl
        · split <;> rfl
    | _ => rfl

theorem constKeyword_eq : constKeyword rt (schemaTypeOf (.obj ms)) (validType (.obj ms)) (.obj ms) path
    issues = pure (checkConstKeyword rt (.obj ms) path issues) := by
  unfold constKeyword checkConstKeyword
  have hmistyped : (pure ((Value.obj ms).has "const" && validType (.obj ms)) <&&> do
      let const ← getItem (.obj ms) "const"
      return !matchesType const (schemaTypeOf (.obj ms)) : Except PyError Bool) =
      pure (validType (.obj ms) && ((Value.obj ms).get? "const").any fun v =>
        !matchesType v (schemaTypeOf (.obj ms))) := by
    cases hhas : (Value.obj ms).has "const" with
    | false =>
      rw [get?_of_has_false hhas, Option.any_none, Bool.and_false]
      rfl
    | true =>
      obtain ⟨const, hconst⟩ := has_iff_get?.mp hhas
      rw [Bool.true_and, getItem_of hconst, hconst]
      exact andM_of fun _ => rfl
  rw [hmistyped]
  rfl

theorem typeIs_eq (node : Value) (name : String) :
    (schemaTypeOf node).eqStr name = typeIs node name := by
  unfold schemaTypeOf typeIs
  cases node.get? "type" <;> rfl

/-- A string is looked up among some names. -/
theorem inNames_str (s : Str) (names : List String) :
    inNames (.str s) (names.map str) = pure (names.any fun name => (Value.str s).eqStr name) := by
  have hcontains : (names.map str).contains s = names.any fun name => (Value.str s).eqStr name := by
    rw [Bool.eq_iff_iff, List.contains_iff_mem, List.mem_map, List.any_eq_true]
    simp only [Value.eqStr_iff, Value.str.injEq, eq_comm (a := s)]
  rw [← hcontains]
  rfl

/-- The type is looked up among the supported ones only when it is a string. -/
theorem validType_eq (node : Value) : (pure (isStr (schemaTypeOf node)) <&&>
      inNames (schemaTypeOf node) (jsonTypes.map str) : Except PyError Bool) = pure (validType node) := by
  unfold validType
  simp only [← typeIs_eq]
  cases schemaTypeOf node with
  | str s =>
    rw [inNames_str]
    rfl
  | _ =>
    -- what is no string equals no name
    rfl

/-- So it is among the types of a keyword group. -/
theorem allowed_eq (node : Value) (names : List String) : (pure (!isStr (schemaTypeOf node)) <||> do
      let allowed ← inNames (schemaTypeOf node) (names.map str)
      return !allowed : Except PyError Bool) = pure (!(names.any fun name => typeIs node name)) := by
  simp only [← typeIs_eq]
  have hother : ∀ {v : Value}, isStr v = false → names.any (fun name => v.eqStr name) = false := by
    intro v hv
    rw [List.any_eq_false]
    intro name _ heq
    rw [Value.eqStr_iff] at heq
    rw [heq] at hv
    cases hv
  cases hstr : isStr (schemaTypeOf node) with
  | false =>
    rw [hother hstr]
    rfl
  | true =>
    cases htype : schemaTypeOf node with
    | str s =>
      rw [inNames_str]
      rfl
    | _ =>
      rw [htype] at hstr
      cases hstr

theorem groups_eq : groups rt (schemaTypeOf (.obj ms)) (.obj ms) path issues =
    pure (checkGroups rt (.obj ms) path issues) := by
  refine foldlM_of (fun issues group _ => ?_) issues
  rw [allowed_eq, andM_pure]
  rfl

theorem typedNode_eq {walkChild : Value → Str → List Str → Except PyError (List Str)}
    {walks : Value → Str → List Str → List Str}
    (h : ∀ child path issues, walkChild child path issues = pure (walks child path issues)) :
    typedNode rt walkChild (schemaTypeOf (.obj ms)) (.obj ms) path issues =
      pure (if typeIs (.obj ms) "object" then
        checkRequiredNames rt (.obj ms) path ((propertiesOf (.obj ms)).foldl
          (fun issues entry => walks entry.2 (pointerJoin path entry.1) issues)
          (checkObject rt (.obj ms) path issues))
      else if typeIs (.obj ms) "array" then
        checkLimits rt "minItems" "maxItems" (.obj ms) path
          (match (Value.obj ms).get? "items" with
            | none => addIssue rt issues path (str "array schemas require items")
            | some items => walks items (pointerJoin path (str "items")) issues)
      else if typeIs (.obj ms) "string" then
        checkPatternKeyword rt (.obj ms) path
          (checkLimits rt "minLength" "maxLength" (.obj ms) path issues)
      else if typeIs (.obj ms) "integer" || typeIs (.obj ms) "number" then
        checkRange rt (.obj ms) path issues
      else issues) := by
  unfold typedNode
  simp only [typeIs_eq, objectNode_eq rt h, arrayNode_eq rt h, stringNode_eq, numericNode_eq, ← apply_ite]

/-- The walk never raises, and returns what the walk without exceptions returns. -/
theorem walk_eq (remaining : Nat) : ∀ root node path issues,
    walk rt remaining root node path issues = pure (walkSchema rt remaining root node path issues) := by
  induction remaining with
  | zero => exact fun root node path issues => rfl
  | succ remaining ih =>
    intro root node path issues
    cases node with
    | obj ms =>
      have hannotations : ∀ issues, annotations rt (.obj ms) path issues =
          pure (checkAnnotations rt (.obj ms) path issues) := by
        intro issues
        refine eachKeyword_eq rt isString (fun v => ?_) _ _
        cases v <;> rfl
      have htype : dictGet (.obj ms) "type" = pure (schemaTypeOf (.obj ms)) := rfl
      unfold walk walkSchema
      show (annotations rt (.obj ms) path _ >>= _) = _
      rw [hannotations, pure_bind, htype, pure_bind, validType_eq, pure_bind]
      dsimp only
      rw [groups_eq, pure_bind]
      rw [typedNode_eq rt (ih false), pure_bind, enumKeyword_eq, pure_bind]
      exact constKeyword_eq rt
    | _ => rfl

/-- `schema_issues` never raises. -/
theorem schemaIssues_eq (schema : Value) :
    schemaIssues rt schema = pure (CheckContract.schemaIssues rt schema) :=
  walk_eq rt _ _ _ _ _

end Checks

/-! ## At most fifty issues -/

section Limit

variable (rt : Runtime) {node : Value} {path : Str} {issues : List Str}

theorem within_issueIf (condition : Bool) (message : Str) :
    Within maxErrors issues (issueIf rt condition path message issues) := by
  unfold issueIf
  split
  · exact Within.add _ _
  · exact Within.refl _

/-- A loop of conditions. -/
theorem within_issues {α : Type} (xs : List α) (condition : α → Bool) (message : α → Str) :
    Within maxErrors issues
      (xs.foldl (fun issues x => issueIf rt (condition x) path (message x) issues) issues) := by
  refine Within.foldl ?_ issues
  exact fun x _ log => within_issueIf rt _ _

theorem within_keywords : Within maxErrors issues (checkKeywords rt node path issues) := by
  refine Within.foldl ?_ issues
  exact fun key _ log => Within.add _ _

theorem within_identity (root : Bool) :
    Within maxErrors issues (checkIdentity rt root node path issues) := by
  cases root with
  | true => exact (within_issueIf rt _ _).trans (within_issueIf rt _ _)
  | false => exact within_issueIf rt _ _

theorem within_limits (low high : String) :
    Within maxErrors issues (checkLimits rt low high node path issues) :=
  (within_issues rt _ _ _).trans (within_issueIf rt _ _)

theorem within_object : Within maxErrors issues (checkObject rt node path issues) := by
  have hrequired : ∀ log, Within maxErrors log
      (match requiredOf node with
        | none => addIssue rt log path (str "object schemas require a required string array")
        | some required =>
          issueIf rt (!decide required.Nodup) path (str "required entries must be unique") log) := by
    intro log
    cases requiredOf node with
    | none => exact Within.add _ _
    | some required => exact within_issueIf rt _ _
  exact ((within_issueIf rt _ _).trans (hrequired _)).trans (within_issueIf rt _ _)

theorem within_requiredNames : Within maxErrors issues (checkRequiredNames rt node path issues) :=
  within_issueIf rt _ _

theorem within_pattern : Within maxErrors issues (checkPatternKeyword rt node path issues) := by
  unfold checkPatternKeyword
  split
  · exact Within.refl _
  · exact within_issueIf rt _ _
  · exact Within.add _ _

theorem within_range : Within maxErrors issues (checkRange rt node path issues) :=
  (within_issues rt _ _ _).trans (within_issueIf rt _ _)

theorem within_enum : Within maxErrors issues (checkEnumKeyword rt node path issues) := by
  unfold checkEnumKeyword
  split
  · exact Within.refl _
  · split
    · exact Within.add _ _
    · split
      · exact Within.add _ _
      · exact within_issueIf rt _ _
  · exact Within.add _ _

theorem within_const : Within maxErrors issues (checkConstKeyword rt node path issues) :=
  (within_issueIf rt _ _).trans (within_issueIf rt _ _)

/-- The walk keeps the list within its limit: every check does, and so do the walks below. -/
theorem within_walkSchema (remaining : Nat) : ∀ {root : Bool} {node : Value} {path : Str}
    {issues : List Str}, Within maxErrors issues (walkSchema rt remaining root node path issues) := by
  induction remaining with
  | zero => exact Within.add _ _
  | succ remaining ih =>
    intro root node path issues
    cases node with
    | obj ms =>
      refine Within.trans ?_ (within_const rt)
      refine Within.trans ?_ (within_enum rt)
      have hgroups : Within maxErrors issues (checkGroups rt (.obj ms) path
          (issueIf rt (!validType (.obj ms)) path (str "type must be one supported JSON type string")
            (checkAnnotations rt (.obj ms) path (checkIdentity rt root (.obj ms) path
              (checkKeywords rt (.obj ms) path issues))))) :=
        ((within_keywords rt).trans (within_identity rt root)).trans
          ((within_issues rt _ _ _).trans ((within_issueIf rt _ _).trans (within_issues rt _ _ _)))
      refine hgroups.trans ?_
      dsimp only
      split
      · have hloop : ∀ log, Within maxErrors log ((propertiesOf (.obj ms)).foldl (fun issues entry =>
            walkSchema rt remaining false entry.2 (pointerJoin path entry.1) issues) log) := by
          refine Within.foldl ?_
          exact fun entry _ log => ih
        exact ((within_object rt).trans (hloop _)).trans (within_requiredNames rt)
      split
      · refine Within.trans ?_ (within_limits rt _ _)
        cases (Value.obj ms).get? "items" with
        | none => exact Within.add _ _
        | some items => exact ih
      split
      · exact (within_limits rt _ _).trans (within_pattern rt)
      split
      · exact within_range rt
      · exact Within.refl _
    | _ => exact Within.add _ _

theorem schemaIssues_length_le (schema : Value) :
    (CheckContract.schemaIssues rt schema).length ≤ maxErrors :=
  within_walkSchema rt _ (Nat.zero_le _)

end Limit

end FastGate.CheckContract.Raising
