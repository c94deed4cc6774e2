/-
# FastGate.CheckContract.Exact — the validator reports what is broken

For schemas of the profile `violationsAt` lists the broken rules of `Rules`, each at its pointer, and
nothing else (`mem_violationsAt_iff`).  With the limit of 25 entries this makes `validate_instance`
exact (`validateInstance_exact`): it returns nothing exactly for a valid instance, and only rules that
the value at the reported pointer really breaks.

* The first part compares the keywords one by one: what the checker computes (`json_equal`, bounds on
  decimals, searches for audited patterns) against what the rule says (`enumMeets_iff`, `boundMeets_low`,
  `patternMeets_rule` and so on).
* `Own` are the violations of a node at the value itself, `Located` those at a value below; the lemmas
  `mem_objRules`, `mem_arrRules` and so on say which rules each kind of value is held to.
* A value of the wrong type is reported for its type only, and nothing below it is looked at.  That is
  why `Broken` asks that the type be right for every other rule.
-/
import FastGate.CheckContract.Conforms
import FastGate.CheckContract.Rules

open FastGate.Python FastGate.Text

namespace FastGate.CheckContract

/-! ## Conditions and rules -/

/-- `json_equal` compares what values mean. -/
theorem jsonEqual_iff_data (v : Value) : ∀ {w : Value}, v.Keyed → w.Keyed →
    (jsonEqual v w = true ↔ v.data = w.data) := by
  induction v using Value.induct with
  | null => intro w _ _; cases w <;> simp [jsonEqual, Value.data]
  | bool b => intro w _ _; cases w <;> simp [jsonEqual, Value.data]
  | num d =>
    intro w _ _
    cases w with
    | num e => rw [jsonEqual, Decimal.eqValue_iff, Value.data, Value.data, Data.num.injEq]
    | _ => simp [jsonEqual, Value.data]
  | str s => intro w _ _; cases w <;> simp [jsonEqual, Value.data]
  | arr xs ih =>
    intro w hv hw
    cases w with
    | arr ys =>
      rw [Value.keyed_arr] at hv hw
      rw [jsonEqual, Bool.and_eq_true, beq_iff_eq, Value.data_arr, Value.data_arr, Data.arr.injEq]
      induction xs generalizing ys with
      | nil => cases ys <;> simp [jsonEqual.elements]
      | cons x xs ihxs =>
        cases ys with
        | nil => simp
        | cons y ys =>
          obtain ⟨hx, hxs⟩ := List.forall_mem_cons.mp hv
          obtain ⟨hy, hys⟩ := List.forall_mem_cons.mp hw
          obtain ⟨ihx, ihrest⟩ := List.forall_mem_cons.mp ih
          rw [jsonEqual.elements, Bool.and_eq_true, List.map_cons, List.map_cons, List.cons.injEq,
            ← ihxs ihrest hxs ys hys, ← ihx hx hy, List.length_cons, List.length_cons,
            Nat.add_right_cancel_iff, and_left_comm]
    | _ => simp [jsonEqual, Value.data]
  | obj ms ih =>
    intro w hv hw
    cases w with
    | obj ns =>
      obtain ⟨hms, hvs⟩ := (Value.keyed_obj ms).mp hv
      obtain ⟨hns, hws⟩ := (Value.keyed_obj ns).mp hw
      -- the loop asks for each member on the other side
      have hmembers : ∀ entries : List (Str × Value), jsonEqual.members entries ns = true ↔
          ∀ m ∈ entries, ∃ w, Dict.get? ns m.1 = some w ∧ jsonEqual m.2 w = true := by
        intro entries
        induction entries with
        | nil => exact iff_of_true rfl fun m hm => absurd hm List.not_mem_nil
        | cons m entries ihm =>
          obtain ⟨k, v⟩ := m
          rw [jsonEqual.members, Bool.and_eq_true, ihm, List.forall_mem_cons]
          refine and_congr_left fun _ => ?_
          cases Dict.get? ns k with
          | none => simp
          | some w => simp
      rw [jsonEqual, Bool.and_eq_true, Bool.and_eq_true, List.all_eq_true, List.all_eq_true, hmembers,
        Value.data_obj, Value.data_obj, Data.obj.injEq]
      constructor
      · -- both have the same keys, so what is absent here is absent there
        rintro ⟨⟨hleft, hright⟩, hall⟩
        funext key
        cases hget : Dict.get? ms key with
        | none =>
          have hnone : Dict.get? ns key = none := by
            rw [Dict.get?_eq_none]
            intro hmem
            exact Dict.get?_eq_none.mp hget (Dict.has_iff.mp (hright key hmem))
          rw [hnone]
        | some v =>
          have hmem := Dict.mem_of_get? hget
          obtain ⟨w, hw, heq⟩ := hall _ hmem
          have hdata := (ih _ hmem (hvs _ hmem) (hws _ (Dict.mem_of_get? hw))).mp heq
          rw [hw, Option.map_some, Option.map_some, hdata]
      · intro heq
        have hget : ∀ key, (Dict.get? ms key).map Value.data = (Dict.get? ns key).map Value.data :=
          fun key => congrFun heq key
        refine ⟨⟨fun key hkey => ?_, fun key hkey => ?_⟩, fun m hmem => ?_⟩
        · obtain ⟨v, hv⟩ := Dict.has_iff_get?.mp (Dict.has_iff.mpr hkey)
          have h := hget key
          rw [hv] at h
          obtain ⟨w, hw, -⟩ := Option.map_eq_some_iff.mp h.symm
          exact Dict.has_iff_get?.mpr ⟨w, hw⟩
        · obtain ⟨w, hw⟩ := Dict.has_iff_get?.mp (Dict.has_iff.mpr hkey)
          have h := hget key
          rw [hw] at h
          obtain ⟨v, hv, -⟩ := Option.map_eq_some_iff.mp h
          exact Dict.has_iff_get?.mpr ⟨v, hv⟩
        · have h := hget m.1
          rw [Dict.get?_of_mem hms hmem] at h
          obtain ⟨w, hw, hdata⟩ := Option.map_eq_some_iff.mp h.symm
          exact ⟨w, hw, (ih m hmem (hvs m hmem) (hws _ (Dict.mem_of_get? hw))).mpr hdata.symm⟩
    | _ => simp [jsonEqual, Value.data]

section Conditions

variable {root : Bool} {node value : Value}

theorem keyed_of_get? {key : String} {v : Value} (hnode : node.Keyed) (h : node.get? key = some v) :
    v.Keyed := by
  cases node with
  | obj ms => exact ((Value.keyed_obj ms).mp hnode).2 _ (Dict.mem_of_get? h)
  | _ => cases h

theorem enumMeets_iff (hnode : node.Keyed) (hvalue : value.Keyed) :
    EnumMeets value node ↔ Rule.enum.Holds node value := by
  refine forall_congr' fun items => forall_congr' fun hitems => exists_congr fun item => ?_
  refine and_congr_right fun hmem => jsonEqual_iff_data value hvalue ?_
  exact (Value.keyed_arr items).mp (keyed_of_get? hnode hitems) item hmem

theorem constMeets_iff (hnode : node.Keyed) (hvalue : value.Keyed) :
    ConstMeets value node ↔ Rule.const.Holds node value :=
  forall_congr' fun _ => forall_congr' fun hc => jsonEqual_iff_data value hvalue (keyed_of_get? hnode hc)

theorem boundMeets_low {keyword : String} {n : Decimal} :
    BoundMeets keyword (fun bound => n.ltValue bound) node ↔
      ∀ bound, node.get? keyword = some (.num bound) → bound.value ≤ n.value := by
  refine forall_congr' fun bound => forall_congr' fun _ => ?_
  rw [← Bool.not_eq_true, Decimal.ltValue_iff, not_lt]

theorem boundMeets_high {keyword : String} {n : Decimal} :
    BoundMeets keyword (fun bound => bound.ltValue n) node ↔
      ∀ bound, node.get? keyword = some (.num bound) → n.value ≤ bound.value := by
  refine forall_congr' fun bound => forall_congr' fun _ => ?_
  rw [← Bool.not_eq_true, Decimal.ltValue_iff, not_lt]

/-- A value has the type that the node names. -/
theorem matchesType_iff (hvalid : validType node = true) :
    matchesType value (schemaTypeOf node) = true ↔ Rule.type.Holds node value := by
  obtain ⟨name, hname, htype⟩ := type_of_valid hvalid
  have hrule : Rule.type.Holds node value ↔ HasType name value := by
    constructor
    · exact fun h => h name htype
    · intro h other hother
      have heq : str name = str other := Value.str.inj (Option.some.inj (htype.symm.trans hother))
      exact str_injective heq ▸ h
  rw [hrule, schemaTypeOf_of htype]
  simp only [jsonTypes, List.mem_cons, List.not_mem_nil, or_false] at hname
  rcases hname with rfl | rfl | rfl | rfl | rfl | rfl | rfl <;> cases value <;>
    simp [matchesType, HasType, Value.eqStr_str, Decimal.isIntegral_iff]

/-! ## Patterns -/

/-- A stretch of class characters is told by its characters. -/
theorem exists_cons_iff {P Q : Nat → Prop} {s : Str} :
    (∃ c cs, s = c :: cs ∧ P c ∧ ∀ x ∈ cs, Q x) ↔
      match s with
      | [] => False
      | c :: cs => P c ∧ ∀ x ∈ cs, Q x := by
  cases s with
  | nil =>
    refine iff_of_false ?_ id
    rintro ⟨_, _, h, _⟩
    cases h
  | cons c cs =>
    constructor
    · rintro ⟨_, _, h, hc, hcs⟩
      cases h
      exact ⟨hc, hcs⟩
    · exact fun h => ⟨c, cs, rfl, h⟩

theorem inRanges_alphaNumeric (c : Nat) :
    Regex.InRanges alphaNumericRanges c ↔ inAlphaNumeric c = true := by
  simp [Regex.InRanges, alphaNumericRanges, inAlphaNumeric]
  tauto

theorem inRanges_identifier (c : Nat) :
    Regex.InRanges (alphaNumericRanges ++ [(0x2E, 0x2E), (0x5F, 0x5F), (0x3A, 0x3A), (0x2D, 0x2D)]) c ↔
      inIdentifier c = true := by
  have hpoint : ∀ k : Nat, (k ≤ c ∧ c ≤ k) ↔ c = k := fun k => by omega
  simp [Regex.InRanges, alphaNumericRanges, inIdentifier, inAlphaNumeric, hpoint]
  tauto

theorem inRanges_unsafe (c : Nat) :
    Regex.InRanges [(0x00, 0x1F), (0x7F, 0x9F), (0x2028, 0x2028), (0x2029, 0x2029)] c ↔
      inUnsafe c = true := by
  have hpoint : ∀ k : Nat, (k ≤ c ∧ c ≤ k) ↔ c = k := fun k => by omega
  simp [Regex.InRanges, inUnsafe, hpoint]
  tauto

/-- A search for the identifier pattern. -/
theorem searchIdentifier_iff (s : Str) : identifierRegex.Found s ↔ searchIdentifier s = true := by
  rw [identifierRegex, Regex.found_anchored,
    Regex.matches_class_star (fun _ _ _ => Iff.rfl) (fun _ _ _ => Iff.rfl), exists_cons_iff]
  cases s with
  | nil => simp [searchIdentifier]
  | cons c cs =>
    simp only [searchIdentifier, Bool.and_eq_true, List.all_eq_true, inRanges_alphaNumeric,
      inRanges_identifier]

/-- A search for the control-safe pattern. -/
theorem searchControlSafe_iff (s : Str) : controlSafeRegex.Found s ↔ searchControlSafe s = true := by
  rw [controlSafeRegex, Regex.found_anchored, Regex.plus,
    Regex.matches_class_star (fun _ _ _ => Iff.rfl) (fun _ _ _ => Iff.rfl), exists_cons_iff]
  cases s with
  | nil => simp [searchControlSafe]
  | cons c cs =>
    simp only [searchControlSafe, List.all_cons, Bool.and_eq_true, List.all_eq_true, inRanges_unsafe,
      Bool.not_eq_true', Bool.not_eq_true]

/-- The matchers of the audited patterns search for their regular expressions. -/
theorem auditedPatternMatchers_search {p : Str} {matcher : Str → Bool}
    (h : auditedPatternMatchers.get? p = some matcher) :
    ∃ r, patternRegexes.get? p = some r ∧ ∀ s, r.Found s ↔ matcher s = true := by
  rw [auditedPatternMatchers, Dict.get?_cons, Dict.get?_cons] at h
  rw [patternRegexes, Dict.get?_cons, Dict.get?_cons]
  split at h
  · rename_i hp
    cases h
    exact ⟨_, if_pos hp, searchIdentifier_iff⟩
  · rename_i hp
    rw [if_neg hp]
    split at h
    · rename_i hp
      cases h
      exact ⟨_, if_pos hp, searchControlSafe_iff⟩
    · cases h

theorem patternMeets_rule {s : Str} (hpattern : ∀ v, node.get? "pattern" = some v →
      ∃ p, v = .str p ∧ auditedPatternMatchers.has p = true) :
    PatternMeets s node ↔ Rule.pattern.Holds node (.str s) := by
  constructor
  · intro h p r s' hp hr heq
    cases heq
    obtain ⟨p', heq, haudited⟩ := hpattern _ hp
    cases heq
    obtain ⟨matcher, hmatcher⟩ := Dict.has_iff_get?.mp haudited
    obtain ⟨r', hr', hsearch⟩ := auditedPatternMatchers_search hmatcher
    cases hr.symm.trans hr'
    exact (hsearch s).mpr (h p matcher hp hmatcher)
  · intro h p matcher hp hmatcher
    obtain ⟨r, hr, hsearch⟩ := auditedPatternMatchers_search hmatcher
    exact (hsearch s).mp (h p r s hp hr rfl)

end Conditions

/-! ## What is listed -/

/-- The rules about one kind of value. -/
def kindRules : Value → List Rule
  | .obj _ => [.required, .additionalProperties]
  | .arr _ => [.minItems, .maxItems]
  | .str _ => [.minLength, .maxLength, .pattern]
  | .num _ => [.minimum, .maximum]
  | _ => []

/-- The rules that say something about a value. -/
def rulesFor (value : Value) : List Rule := [.type, .enum, .const] ++ kindRules value

theorem Rule.holds_of_kind {rule : Rule} {node value : Value} (h : rule ∉ rulesFor value) :
    rule.Holds node value := by
  cases rule <;> cases value <;> simp [rulesFor, kindRules] at h <;> simp [Rule.Holds]

/-- An entry for a broken rule. -/
def Located (value node : Value) (path : Str) (x : Violation) : Prop :=
  ∃ tokens rule, Broken value node tokens rule ∧ x = ⟨str rule.keyword, path ++ pointer tokens⟩

/-- An entry for a broken rule of the node itself, among the given ones. -/
def Own (rules : List Rule) (value node : Value) (path : Str) (x : Violation) : Prop :=
  ∃ rule ∈ rules, ¬ rule.Holds node value ∧ x = ⟨str rule.keyword, path⟩

section Listed

variable {root : Bool} {value node : Value} {path : Str} {x : Violation}

theorem mem_report {P : Prop} {keyword : String} :
    x ∈ report P keyword path ↔ ¬ P ∧ x = ⟨str keyword, path⟩ := by
  by_cases h : P
  · rw [report_pass h]
    exact iff_of_false List.not_mem_nil fun hx => hx.1 h
  · rw [report_fail h, List.mem_singleton, and_iff_right h]

/-- The rules of a node whose type is met. -/
theorem own_iff (htype : Rule.type.Holds node value) :
    Own (rulesFor value) value node path x ↔ ∃ rule : Rule, ¬ rule.Holds node value ∧
      (rule ≠ .type → Rule.type.Holds node value) ∧ x = ⟨str rule.keyword, path⟩ := by
  refine exists_congr fun rule => ?_
  constructor
  · rintro ⟨-, hrule, hx⟩
    exact ⟨hrule, fun _ => htype, hx⟩
  · rintro ⟨hrule, -, hx⟩
    exact ⟨not_not.mp fun h => hrule (Rule.holds_of_kind h), hrule, hx⟩

/-- A broken rule is one of the node itself or one further down. -/
theorem located_obj {ms : List (Str × Value)} (htype : Rule.type.Holds node (.obj ms)) :
    Located (.obj ms) node path x ↔ Own (rulesFor (.obj ms)) (.obj ms) node path x ∨ ∃ m ∈ ms, ∃ property,
      (propertiesOf node).get? m.1 = some property ∧
        Located m.2 property (pointerJoin path m.1) x := by
  rw [own_iff htype]
  constructor
  · rintro ⟨tokens, rule, ⟨v, n, hat, hrule, hguard⟩, rfl⟩
    cases hat with
    | here => exact .inl ⟨rule, hrule, hguard, by rw [pointer, List.flatMap_nil, List.append_nil]⟩
    | member hmem hproperty hat =>
      refine .inr ⟨_, hmem, _, hproperty, _, rule, ⟨v, n, hat, hrule, hguard⟩, ?_⟩
      rw [pointerJoin_pointer]
  · rintro (⟨rule, hrule, hguard, rfl⟩ | ⟨m, hmem, property, hproperty, tokens, rule,
      ⟨v, n, hat, hrule, hguard⟩, rfl⟩)
    · refine ⟨[], rule, ⟨_, _, .here, hrule, hguard⟩, ?_⟩
      rw [pointer, List.flatMap_nil, List.append_nil]
    · refine ⟨m.1 :: tokens, rule, ⟨v, n, .member hmem hproperty hat, hrule, hguard⟩, ?_⟩
      rw [pointerJoin_pointer]

theorem located_arr {xs : List Value} (htype : Rule.type.Holds node (.arr xs)) :
    Located (.arr xs) node path x ↔ Own (rulesFor (.arr xs)) (.arr xs) node path x ∨ ∃ index item items,
      xs[index]? = some item ∧ node.get? "items" = some items ∧
        Located item items (pointerJoin path (decimalText index)) x := by
  rw [own_iff htype]
  constructor
  · rintro ⟨tokens, rule, ⟨v, n, hat, hrule, hguard⟩, rfl⟩
    cases hat with
    | here => exact .inl ⟨rule, hrule, hguard, by rw [pointer, List.flatMap_nil, List.append_nil]⟩
    | element hitem hitems hat =>
      refine .inr ⟨_, _, _, hitem, hitems, _, rule, ⟨v, n, hat, hrule, hguard⟩, ?_⟩
      rw [pointerJoin_pointer]
  · rintro (⟨rule, hrule, hguard, rfl⟩ | ⟨index, item, items, hitem, hitems, tokens, rule,
      ⟨v, n, hat, hrule, hguard⟩, rfl⟩)
    · refine ⟨[], rule, ⟨_, _, .here, hrule, hguard⟩, ?_⟩
      rw [pointer, List.flatMap_nil, List.append_nil]
    · refine ⟨_, rule, ⟨v, n, .element hitem hitems hat, hrule, hguard⟩, ?_⟩
      rw [pointerJoin_pointer]

/-- Where no pointer leads further down. -/
theorem located_leaf (hleaf : ∀ tokens v n, At value node tokens v n → tokens = [] ∧ v = value ∧ n = node) :
    Located value node path x ↔ ∃ rule : Rule, ¬ rule.Holds node value ∧
      (rule ≠ .type → Rule.type.Holds node value) ∧ x = ⟨str rule.keyword, path⟩ := by
  constructor
  · rintro ⟨tokens, rule, ⟨v, n, hat, hrule, hguard⟩, rfl⟩
    obtain ⟨rfl, rfl, rfl⟩ := hleaf _ _ _ hat
    exact ⟨rule, hrule, hguard, by rw [pointer, List.flatMap_nil, List.append_nil]⟩
  · rintro ⟨rule, hrule, hguard, rfl⟩
    refine ⟨[], rule, ⟨_, _, .here, hrule, hguard⟩, ?_⟩
    rw [pointer, List.flatMap_nil, List.append_nil]

/-- Only an object schema has properties, and only an array schema items. -/
theorem at_of_not_type (hnode : NodeOk root node) (htype : ¬ Rule.type.Holds node value)
    {tokens : List Str} {v n : Value} (h : At value node tokens v n) :
    tokens = [] ∧ v = value ∧ n = node := by
  have hnone : ∀ name : String, typeIs node name = true → ¬ HasType name value := by
    intro name hname hhas
    refine htype fun other hother => ?_
    have heq := Value.str.inj (Option.some.inj ((typeIs_iff.mp hname).symm.trans hother))
    exact str_injective heq ▸ hhas
  cases h with
  | here => exact ⟨rfl, rfl, rfl⟩
  | @member ms _ child property _ _ name _ hmem hproperty hat =>
    have hhas : node.has "properties" = true := by
      rw [propertiesOf] at hproperty
      split at hproperty
      · rename_i hget
        exact has_iff_get?.mpr ⟨_, hget⟩
      · cases hproperty
    obtain ⟨kind, hkind, his⟩ := hnode.groups _ List.mem_cons_self ⟨"properties", by simp, hhas⟩
    obtain rfl : kind = "object" := by simpa using hkind
    exact absurd rfl (hnone "object" his)
  | element hitem hitems hat =>
    have hhas : node.has "items" = true := has_iff_get?.mpr ⟨_, hitems⟩
    obtain ⟨kind, hkind, his⟩ :=
      hnode.groups _ (List.mem_cons_of_mem _ List.mem_cons_self) ⟨"items", by simp, hhas⟩
    obtain rfl : kind = "array" := by simpa using hkind
    exact absurd rfl (hnone "array" his)

/-- The part of the list that does not depend on the kind of the value. -/
theorem mem_front {rest : List Violation} {Q : Prop} (hnode : NodeOk root node) (hkeyed : node.Keyed)
    (hvalue : value.Keyed)
    (hrest : Rule.type.Holds node value →
      (x ∈ rest ↔ Own (kindRules value) value node path x ∨ Q))
    (hlocated : Rule.type.Holds node value →
      (Located value node path x ↔ Own (rulesFor value) value node path x ∨ Q)) :
    x ∈ (if matchesType value (schemaTypeOf node) = true then
        report (EnumMeets value node) "enum" path ++
          (report (ConstMeets value node) "const" path ++ rest)
      else [⟨str "type", path⟩]) ↔ Located value node path x := by
  split
  · rename_i hmatch
    have htype := (matchesType_iff hnode.type).mp hmatch
    rw [hlocated htype, List.mem_append, List.mem_append, mem_report, mem_report, hrest htype,
      enumMeets_iff hkeyed hvalue, constMeets_iff hkeyed hvalue]
    simp only [Own, rulesFor, List.cons_append, List.nil_append, List.exists_mem_cons_iff, htype,
      not_true_eq_false, false_and, false_or, Rule.keyword, or_assoc]
  · rename_i hmatch
    have htype := fun h => hmatch ((matchesType_iff hnode.type).mpr h)
    rw [located_leaf fun _ _ _ => at_of_not_type hnode htype, List.mem_singleton]
    constructor
    · exact fun hx => ⟨.type, htype, fun h => absurd rfl h, hx⟩
    · rintro ⟨rule, -, hguard, rfl⟩
      have hrule : rule = .type := not_not.mp fun h => htype (hguard h)
      rw [hrule, Rule.keyword]

end Listed

/-! ## The list -/

section Kinds

variable {root : Bool} {node : Value} {path : Str} {x : Violation}

/-- Two bounds, as the rules they are. -/
theorem mem_reportBounds {low high : Rule} {value : Value} {n : Decimal}
    (hlow : low.Holds node value ↔
      ∀ bound, node.get? low.keyword = some (.num bound) → bound.value ≤ n.value)
    (hhigh : high.Holds node value ↔
      ∀ bound, node.get? high.keyword = some (.num bound) → n.value ≤ bound.value) :
    x ∈ reportBounds low.keyword high.keyword n node path ↔ Own [low, high] value node path x := by
  rw [reportBounds, List.mem_append, mem_report, mem_report, boundMeets_low, boundMeets_high, ← hlow,
    ← hhigh]
  simp only [Own, List.exists_mem_cons_iff, List.not_mem_nil, false_and, exists_false, or_false]

theorem mem_numRules (d : Decimal) :
    x ∈ reportBounds "minimum" "maximum" d node path ↔ Own (kindRules (.num d)) (.num d) node path x := by
  refine @mem_reportBounds _ _ _ .minimum .maximum (.num d) d ?_ ?_
  · exact ⟨fun h bound hb => h bound d hb rfl, fun h bound e hb he => by cases he; exact h bound hb⟩
  · exact ⟨fun h bound hb => h bound d hb rfl, fun h bound e hb he => by cases he; exact h bound hb⟩

theorem mem_arrRules (xs : List Value) :
    x ∈ reportBounds "minItems" "maxItems" (.ofNat xs.length) node path ↔
      Own (kindRules (.arr xs)) (.arr xs) node path x := by
  refine @mem_reportBounds _ _ _ .minItems .maxItems (.arr xs) _ ?_ ?_ <;> rw [Decimal.value_ofNat]
  · exact ⟨fun h bound hb => h bound xs hb rfl, fun h bound e hb he => by cases he; exact h bound hb⟩
  · exact ⟨fun h bound hb => h bound xs hb rfl, fun h bound e hb he => by cases he; exact h bound hb⟩

theorem mem_strRules (s : Str) (hpattern : ∀ v, node.get? "pattern" = some v →
      ∃ p, v = .str p ∧ auditedPatternMatchers.has p = true) :
    x ∈ reportBounds "minLength" "maxLength" (.ofNat s.length) node path ++
        report (PatternMeets s node) "pattern" path ↔
      Own (kindRules (.str s)) (.str s) node path x := by
  have hbounds : x ∈ reportBounds "minLength" "maxLength" (.ofNat s.length) node path ↔
      Own [.minLength, .maxLength] (.str s) node path x := by
    refine @mem_reportBounds _ _ _ .minLength .maxLength (.str s) _ ?_ ?_ <;> rw [Decimal.value_ofNat]
    · exact ⟨fun h bound hb => h bound s hb rfl, fun h bound e hb he => by cases he; exact h bound hb⟩
    · exact ⟨fun h bound hb => h bound s hb rfl, fun h bound e hb he => by cases he; exact h bound hb⟩
  rw [List.mem_append, hbounds, mem_report, patternMeets_rule hpattern]
  simp only [Own, kindRules, List.exists_mem_cons_iff, Rule.keyword, List.not_mem_nil, false_and,
    exists_false, or_false, or_assoc]

theorem mem_members {ms : List (Str × Value)} : x ∈ violationsAt.members ms node path ↔
    (∃ m ∈ ms, (propertiesOf node).get? m.1 = none ∧ x = ⟨str "additionalProperties", path⟩) ∨
    ∃ m ∈ ms, ∃ property, (propertiesOf node).get? m.1 = some property ∧
      x ∈ violationsAt m.2 property (pointerJoin path m.1) := by
  induction ms with
  | nil => simp [violationsAt.members]
  | cons m ms ih =>
    obtain ⟨name, child⟩ := m
    rw [violationsAt.members, List.mem_append, ih, List.exists_mem_cons_iff, List.exists_mem_cons_iff,
      or_or_or_comm]
    refine or_congr_left ?_
    cases (propertiesOf node).get? name with
    | none => simp
    | some property => simp

theorem mem_elements {xs : List Value} : ∀ {index : Nat},
    x ∈ violationsAt.elements xs node path index ↔ ∃ i item items, xs[i]? = some item ∧
      node.get? "items" = some items ∧
        x ∈ violationsAt item items (pointerJoin path (decimalText (index + i))) := by
  induction xs with
  | nil => intro index; simp [violationsAt.elements]
  | cons y xs ih =>
    intro index
    rw [violationsAt.elements, List.mem_append, ih]
    constructor
    · rintro (hx | ⟨i, item, items, hitem, hitems, hx⟩)
      · cases hitems : node.get? "items" with
        | none => rw [hitems] at hx; cases hx
        | some items =>
          rw [hitems] at hx
          exact ⟨0, y, items, rfl, rfl, hx⟩
      · exact ⟨i + 1, item, items, hitem, hitems, by rwa [Nat.add_right_comm] at hx⟩
    · rintro ⟨i, item, items, hitem, hitems, hx⟩
      cases i with
      | zero =>
        cases hitem
        rw [hitems]
        exact .inl hx
      | succ i => exact .inr ⟨i, item, items, hitem, hitems, by rwa [Nat.add_right_comm]⟩

theorem required_holds_iff {ms : List (Str × Value)} {required : List Str}
    (hrequired : requiredOf node = some required) :
    Rule.required.Holds node (.obj ms) ↔ ∀ name ∈ required, Dict.has ms name = true := by
  have hget := required_of hrequired
  constructor
  · intro h name hname
    exact Dict.has_iff.mpr (h _ ms hget rfl name (List.mem_map_of_mem hname))
  · intro h names ms' hnames hms name hname
    cases hms
    cases hget.symm.trans hnames
    obtain ⟨name', hmem, heq⟩ := List.mem_map.mp hname
    cases heq
    exact Dict.has_iff.mp (h _ hmem)

theorem additionalProperties_holds_iff {ms : List (Str × Value)} (h : ObjectOk node) :
    Rule.additionalProperties.Holds node (.obj ms) ↔
      ∀ m ∈ ms, (propertiesOf node).get? m.1 ≠ none := by
  have hkeys : (∀ name ∈ Dict.keys ms, name ∈ Dict.keys (propertiesOf node)) ↔
      ∀ m ∈ ms, (propertiesOf node).get? m.1 ≠ none := by
    simp only [Dict.keys, List.forall_mem_map, ne_eq, Dict.get?_eq_none, not_not]
  rw [← hkeys]
  exact ⟨fun hrule => hrule ms h.closed rfl, fun hall ms' _ heq => by cases heq; exact hall⟩

theorem mem_objRules {ms : List (Str × Value)} (h : ObjectOk node) :
    x ∈ (((requiredOf node).getD []).flatMap fun name =>
        report (Dict.has ms name = true) "required" path) ++ violationsAt.members ms node path ↔
      Own (kindRules (.obj ms)) (.obj ms) node path x ∨ ∃ m ∈ ms, ∃ property,
        (propertiesOf node).get? m.1 = some property ∧
          x ∈ violationsAt m.2 property (pointerJoin path m.1) := by
  obtain ⟨required, hrequired, -, -⟩ := h.required
  rw [hrequired, Option.getD_some, List.mem_append, mem_members, ← or_assoc, List.mem_flatMap]
  refine or_congr_left ?_
  simp only [Own, kindRules, List.exists_mem_cons_iff, Rule.keyword, List.not_mem_nil, false_and,
    exists_false, or_false, required_holds_iff hrequired, additionalProperties_holds_iff h, mem_report,
    not_forall, exists_prop, not_not]
  refine or_congr ?_ ?_
  · exact ⟨fun ⟨name, hname, hhas, hx⟩ => ⟨⟨name, hname, hhas⟩, hx⟩,
      fun ⟨⟨name, hname, hhas⟩, hx⟩ => ⟨name, hname, hhas, hx⟩⟩
  · exact ⟨fun ⟨m, hm, hnone, hx⟩ => ⟨⟨m, hm, hnone⟩, hx⟩,
      fun ⟨⟨m, hm, hnone⟩, hx⟩ => ⟨m, hm, hnone, hx⟩⟩

end Kinds

/-- A node with distinct keys has subschemas with distinct keys. -/
theorem keyed_property {node property : Value} {name : Str} (hkeyed : node.Keyed)
    (h : (propertiesOf node).get? name = some property) : property.Keyed := by
  rw [propertiesOf] at h
  split at h
  · rename_i properties hget
    exact ((Value.keyed_obj _).mp (keyed_of_get? hkeyed hget)).2 _ (Dict.mem_of_get? h)
  · cases h

/-- The list has an entry for every broken rule, and no other entries. -/
theorem mem_violationsAt_iff (value : Value) : ∀ {remaining : Nat} {root : Bool} {node : Value}
    {path : Str} {x : Violation}, Profile remaining root node → node.Keyed → value.Keyed →
      (x ∈ violationsAt value node path ↔ Located value node path x) := by
  -- the places below a value are those of its elements or members, where the induction applies
  induction value using Value.induct with
  | null =>
    intro remaining root node path x hp hkeyed hvalue
    obtain ⟨remaining, rfl⟩ := hp.exists_succ
    rw [violationsAt.eq_def]
    refine @mem_front _ _ _ _ _ _ False hp.1 hkeyed hvalue (fun _ => by simp [Own, kindRules])
      fun htype => ?_
    rw [own_iff htype, or_false, located_leaf]
    rintro tokens v n ⟨⟩
    exact ⟨rfl, rfl, rfl⟩
  | bool b =>
    intro remaining root node path x hp hkeyed hvalue
    obtain ⟨remaining, rfl⟩ := hp.exists_succ
    rw [violationsAt.eq_def]
    refine @mem_front _ _ _ _ _ _ False hp.1 hkeyed hvalue (fun _ => by simp [Own, kindRules])
      fun htype => ?_
    rw [own_iff htype, or_false, located_leaf]
    rintro tokens v n ⟨⟩
    exact ⟨rfl, rfl, rfl⟩
  | num d =>
    intro remaining root node path x hp hkeyed hvalue
    obtain ⟨remaining, rfl⟩ := hp.exists_succ
    rw [violationsAt.eq_def]
    refine @mem_front _ _ _ _ _ _ False hp.1 hkeyed hvalue (fun _ => ?_) fun htype => ?_
    · rw [or_false]
      exact mem_numRules d
    · rw [own_iff htype, or_false, located_leaf]
      rintro tokens v n ⟨⟩
      exact ⟨rfl, rfl, rfl⟩
  | str s =>
    intro remaining root node path x hp hkeyed hvalue
    obtain ⟨remaining, rfl⟩ := hp.exists_succ
    rw [violationsAt.eq_def]
    refine @mem_front _ _ _ _ _ _ False hp.1 hkeyed hvalue (fun htype => ?_) fun htype => ?_
    · have hmatch := (matchesType_iff hp.1.type).mpr htype
      rw [or_false]
      exact mem_strRules s (hp.1.stringKind (typeIs_of_matches hp.1.type hmatch)).2
    · rw [own_iff htype, or_false, located_leaf]
      rintro tokens v n ⟨⟩
      exact ⟨rfl, rfl, rfl⟩
  | arr xs ih =>
    intro remaining root node path x hp hkeyed hvalue
    obtain ⟨remaining, rfl⟩ := hp.exists_succ
    rw [violationsAt.eq_def]
    refine mem_front hp.1 hkeyed hvalue (fun htype => ?_) located_arr
    have hmatch := (matchesType_iff hp.1.type).mpr htype
    have hkind := typeIs_of_matches hp.1.type hmatch
    rw [List.mem_append, mem_arrRules, mem_elements]
    refine or_congr_right (exists_congr fun i => exists_congr fun item => exists_congr fun items => ?_)
    rw [Nat.zero_add]
    refine and_congr_right fun hitem => and_congr_right fun hitems => ?_
    have hmem := List.mem_of_getElem? hitem
    exact ih item hmem (hp.2 items (mem_subschemas_items hkind hitems)) (keyed_of_get? hkeyed hitems)
      ((Value.keyed_arr xs).mp hvalue item hmem)
  | obj ms ih =>
    intro remaining root node path x hp hkeyed hvalue
    obtain ⟨remaining, rfl⟩ := hp.exists_succ
    rw [violationsAt.eq_def]
    refine mem_front hp.1 hkeyed hvalue (fun htype => ?_) located_obj
    have hmatch := (matchesType_iff hp.1.type).mpr htype
    have hkind := typeIs_of_matches hp.1.type hmatch
    rw [mem_objRules (hp.1.objectKind hkind)]
    refine or_congr_right (exists_congr fun m => and_congr_right fun hmem => ?_)
    refine exists_congr fun property => and_congr_right fun hproperty => ?_
    exact ih m hmem (hp.2 property (mem_subschemas_property hkind hproperty))
      (keyed_property hkeyed hproperty) (((Value.keyed_obj ms).mp hvalue).2 m hmem)

/-- An instance is valid exactly when nothing is listed. -/
theorem valid_iff {value schema : Value} (hp : Profile (maxNestingDepth + 1) true schema)
    (hschema : schema.Keyed) (hvalue : value.Keyed) :
    Valid value schema ↔ violationsAt value schema [] = [] := by
  rw [List.eq_nil_iff_forall_not_mem]
  simp only [mem_violationsAt_iff value hp hschema hvalue]
  constructor
  · rintro h x ⟨tokens, rule, ⟨v, n, hat, hrule, -⟩, -⟩
    exact hrule (h tokens v n hat rule)
  · intro h tokens v n hat rule
    by_contra hrule
    by_cases htype : Rule.type.Holds n v
    · exact h _ ⟨tokens, rule, ⟨v, n, hat, hrule, fun _ => htype⟩, rfl⟩
    · exact h _ ⟨tokens, .type, ⟨v, n, hat, htype, fun hne => absurd rfl hne⟩, rfl⟩

/-- `Conforms` is validity. -/
theorem conforms_iff_valid {value schema : Value} (hp : Profile (maxNestingDepth + 1) true schema)
    (hschema : schema.Keyed) (hvalue : value.Keyed) : Conforms value schema ↔ Valid value schema := by
  rw [valid_iff hp hschema hvalue, violationsAt_nil_iff]

/-- For a schema without issues `validate_instance` returns the first 25 of everything that is wrong
with the instance, in depth-first order: nothing exactly for a valid instance, and only rules that the
value at the reported pointer really breaks. -/
theorem validateInstance_exact (rt : Runtime) {schema value : Value}
    (hissues : schemaIssues rt schema = []) (hschema : schema.Keyed) (hvalue : value.Keyed) :
    ∃ violations, validateInstance value schema = .ok violations ∧
      (violations = [] ↔ Valid value schema) ∧
      (∀ x ∈ violations, ∃ tokens rule, Broken value schema tokens rule ∧
        x = ⟨str rule.keyword, pointer tokens⟩) ∧
      violations = (violationsAt value schema []).take maxViolations := by
  have hp := (schemaIssues_nil_iff rt schema).mp hissues
  refine ⟨_, validateInstance_eq hp value, ?_, fun x hx => ?_, rfl⟩
  · rw [valid_iff hp hschema hvalue, List.take_eq_nil_iff]
    exact or_iff_right (by decide)
  · exact (mem_violationsAt_iff value hp hschema hvalue).mp (List.mem_of_mem_take hx)

/-- A closed object with one counter. -/
def counterSchema : Value :=
  .obj [(str "$schema", .str (str schemaUri)), (str "$id", .str (str "counter")),
    (str "type", .str (str "object")),
    (str "properties", .obj [(str "n", .obj [(str "type", .str (str "integer")),
      (str "minimum", .num (.ofNat 1))])]),
    (str "required", .arr [.str (str "n")]), (str "additionalProperties", .bool false)]

/-- A counter below its minimum: this is all that is reported, and the instance is not valid. -/
theorem validateInstance_exact_sample :
    validateInstance (.obj [(str "n", .num (.ofNat 0))]) counterSchema =
        .ok [⟨str "minimum", str "/n"⟩] ∧
      ¬ Valid (.obj [(str "n", .num (.ofNat 0))]) counterSchema := by
  have hreported : validateInstance (.obj [(str "n", .num (.ofNat 0))]) counterSchema =
      .ok [⟨str "minimum", str "/n"⟩] := by decide +kernel
  obtain ⟨violations, hviolations, hvalid, -⟩ :=
    @validateInstance_exact default counterSchema (.obj [(str "n", .num (.ofNat 0))]) (by decide)
      (by decide +kernel) (by decide +kernel)
  rw [hreported] at hviolations
  cases hviolations
  exact ⟨hreported, fun h => absurd (hvalid.mpr h) (List.cons_ne_nil _ _)⟩

end FastGate.CheckContract
