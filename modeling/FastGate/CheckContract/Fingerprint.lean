/-
# FastGate.CheckContract.Fingerprint — what the frozen fingerprint locks

`schema_validation_fingerprint` hashes a canonical text of a schema.  `Meaning` is a schema without
what does not matter: the order of members, the order of `required` and `enum`, the spelling of
numbers, and the annotations of schema nodes.  The canonical texts of two schemas are equal exactly
when their meanings are (`canonicalText_eq_iff`).

An annotation is left out of schema nodes only.  A property may be called `title` or `description`, and
what is below `enum` or `const` is data: both are kept as they are, which is why `encodeNode` and
`encode` are two functions, and why `Meaning` keeps data and nodes apart.

The texts are compact JSON with everything tagged, so nothing is lost on the way from the tree to the
text (`dumps_inj` of `Python.Dumps`, for strings without surrogates, which loaded schemas have).  Sorting
forgets the order and nothing else (`sortedBy_eq_iff` of `Python.Sorted`).
-/
import FastGate.CheckContract.NumberKey
import FastGate.Python.Dumps
import FastGate.Python.Sorted
import Mathlib.Data.Multiset.MapFold

open FastGate.Json FastGate.Python

namespace FastGate.CheckContract

/-! ## The encoder -/

/-- `SCHEMA_ANNOTATIONS` -/
def schemaAnnotations : List Str := [str "title", str "description"]

/-- `SCHEMA_UNORDERED_ARRAYS` -/
def schemaUnorderedArrays : List Str := [str "required", str "enum"]

/-- A list whose first item names what the second one is. -/
def tagged (tag : String) (t : Jsonable) : Jsonable := .list [.str (str tag), t]

/-- The entries of an object, in the order of their keys. -/
def encodeEntries (entries : Dict Jsonable) : Jsonable :=
  tagged "object" (.list (entries.sorted.map fun entry => .list [.str entry.1, entry.2]))

/-- `encoded_items`, sorted by their texts. -/
def sortItems (items : List Jsonable) : List Jsonable := sortedBy (fun item => (dumps item).map Char.toNat) items

/-- `encode(value)` -/
def encode : Value → Jsonable
  | .obj ms => encodeEntries (members ms)
  | .arr xs => tagged "array" (.list (items xs))
  | .str s => tagged "string" (.str s)
  | .bool b => tagged "boolean" (.bool b)
  | .num d => tagged "number" (.str (numberKey d))
  | .null => .list [.str (str "null")]
where
  items : List Value → List Jsonable
    | [] => []
    | x :: xs => encode x :: items xs
  members : List (Str × Value) → Dict Jsonable
    | [] => []
    | (key, child) :: ms => (key, encode child) :: members ms

/-- `encode(value, schema_node=True)`.  What follows the keyword decides how a member is encoded. -/
def encodeNode : Value → Jsonable
  | .obj ms => encodeEntries (members ms)
  | v => encode v
where
  members : List (Str × Value) → Dict Jsonable
    | [] => []
    | (key, child) :: ms =>
      if key ∈ schemaAnnotations then members ms
      else
        (key,
          if key = str "properties" then properties child
          else if key = str "items" then encodeNode child
          else if key ∈ schemaUnorderedArrays then unordered child
          else encode child) :: members ms
  properties : Value → Jsonable
    | .obj ps => encodeEntries (nodes ps)
    | v => encode v
  nodes : List (Str × Value) → Dict Jsonable
    | [] => []
    | (name, child) :: ps => (name, encodeNode child) :: nodes ps
  unordered : Value → Jsonable
    | .arr xs => tagged "array" (.list (sortItems (encode.items xs)))
    | v => encode v

/-- `canonical` inside `schema_validation_fingerprint`. -/
def canonicalText (schema : Value) : List Char := dumps (encodeNode schema)

/-- `schema_validation_fingerprint`, for schemas on which no operation of it raises. -/
def schemaValidationFingerprint (rt : Runtime) (schema : Value) : Str :=
  rt.sha256 (Utf8.encode (canonicalText schema))

/-! ## Meanings -/

/-- What a schema node says: a function from keywords to what follows them. -/
inductive Meaning where
  | plain (d : Data)
  | unordered (items : Multiset Data)
  | properties (lookup : Str → Option Meaning)
  | node (lookup : Str → Option Meaning)

/-- The meaning of a schema node. -/
def meaning : Value → Meaning
  | .obj ms => .node (members ms)
  | v => .plain v.data
where
  members : List (Str × Value) → Str → Option Meaning
    | [], _ => none
    | (k, child) :: ms, key =>
      if k = key then
        if key ∈ schemaAnnotations then none
        else some
          (if key = str "properties" then properties child
          else if key = str "items" then meaning child
          else if key ∈ schemaUnorderedArrays then unordered child
          else .plain child.data)
      else members ms key
  properties : Value → Meaning
    | .obj ps => .properties (nodes ps)
    | v => .plain v.data
  nodes : List (Str × Value) → Str → Option Meaning
    | [], _ => none
    | (k, child) :: ps, name => if k = name then some (meaning child) else nodes ps name
  unordered : Value → Meaning
    | .arr xs => .unordered (xs.map Value.data)
    | v => .plain v.data

/-! ## Plain values -/

theorem encode_items (xs : List Value) : encode.items xs = xs.map encode := by
  induction xs with
  | nil => rfl
  | cons x xs ih => rw [encode.items, ih, List.map_cons]

theorem encode_arr (xs : List Value) : encode (.arr xs) = tagged "array" (.list (xs.map encode)) := by
  rw [encode, encode_items]

theorem encode_obj (ms : List (Str × Value)) :
    encode (.obj ms) = encodeEntries (ms.map fun m => (m.1, encode m.2)) := by
  have hmembers : encode.members ms = ms.map fun m => (m.1, encode m.2) := by
    induction ms with
    | nil => rfl
    | cons m ms ih => rw [encode.members, ih, List.map_cons]
  rw [encode, hmembers]

theorem tagged_inj {tag tag' : String} {t u : Jsonable} :
    tagged tag t = tagged tag' u ↔ str tag = str tag' ∧ t = u := by
  simp [tagged]

/-- Encoded objects are equal when every key maps to the same. -/
theorem encodeEntries_eq_iff {d e : Dict Jsonable} (hd : d.keys.Nodup) (he : e.keys.Nodup) :
    encodeEntries d = encodeEntries e ↔ ∀ key, d.get? key = e.get? key := by
  rw [← Dict.sorted_eq_iff hd he, encodeEntries, encodeEntries, tagged_inj, and_iff_right rfl,
    Jsonable.list.injEq]
  refine List.map_inj_right ?_
  rintro ⟨key, t⟩ ⟨key', t'⟩ h
  simp only [Jsonable.list.injEq, List.cons.injEq, Jsonable.str.injEq, and_true] at h
  rw [h.1, h.2]

/-- Plain values are encoded alike exactly when they mean the same. -/
theorem encode_eq_iff (v : Value) : ∀ {w : Value}, v.Keyed → w.Keyed →
    (encode v = encode w ↔ v.data = w.data) := by
  induction v using Value.induct with
  | null => intro w _ _; cases w <;> simp [encode, Value.data, tagged, encodeEntries]
  | bool b =>
    intro w _ _
    cases w <;> simp [encode, Value.data, tagged, encodeEntries, str_injective.eq_iff]
  | num d =>
    intro w _ _
    cases w <;>
      simp [encode, Value.data, tagged, encodeEntries, str_injective.eq_iff, numberKey_eq_iff]
  | str s =>
    intro w _ _
    cases w <;> simp [encode, Value.data, tagged, encodeEntries, str_injective.eq_iff]
  | arr xs ih =>
    intro w hv hw
    cases w with
    | arr ys =>
      rw [Value.keyed_arr] at hv hw
      rw [encode_arr, encode_arr, tagged_inj, and_iff_right rfl, Jsonable.list.injEq, Value.data_arr,
        Value.data_arr, Data.arr.injEq]
      induction xs generalizing ys with
      | nil => cases ys <;> simp
      | cons x xs ihxs =>
        cases ys with
        | nil => simp
        | cons y ys =>
          obtain ⟨hx, hxs⟩ := List.forall_mem_cons.mp hv
          obtain ⟨hy, hys⟩ := List.forall_mem_cons.mp hw
          obtain ⟨ihx, ihrest⟩ := List.forall_mem_cons.mp ih
          rw [List.map_cons, List.map_cons, List.map_cons, List.map_cons, List.cons.injEq,
            List.cons.injEq, ihx hx hy, ihxs ihrest hxs ys hys]
    | _ => simp [encode, Value.data, tagged, encodeEntries, str_injective.eq_iff]
  | obj ms ih =>
    intro w hv hw
    cases w with
    | obj ns =>
      obtain ⟨hms, hvs⟩ := (Value.keyed_obj ms).mp hv
      obtain ⟨hns, hws⟩ := (Value.keyed_obj ns).mp hw
      rw [encode_obj, encode_obj, encodeEntries_eq_iff (by rwa [Dict.keys_map]) (by rwa [Dict.keys_map]),
        Value.data_obj, Value.data_obj, Data.obj.injEq, funext_iff]
      -- objects are compared key by key
      refine forall_congr' fun key => ?_
      rw [Dict.get?_map, Dict.get?_map]
      cases hget : Dict.get? ms key <;> cases hget' : Dict.get? ns key <;> simp
      have hmem := Dict.mem_of_get? hget
      exact ih _ hmem (hvs _ hmem) (hws _ (Dict.mem_of_get? hget'))
    | _ => simp [encode, Value.data, tagged, encodeEntries, str_injective.eq_iff]

/-! ## Scalar values -/

theorem str_scalar (s : String) : ∀ c ∈ str s, IsScalar c := by
  intro c hc
  obtain ⟨d, -, rfl⟩ := List.mem_map.mp hc
  exact isScalar_toNat d

/-- Every string of the value, keys included, consists of scalar values. -/
def ScalarValue (v : Value) : Prop := v.AllStrs fun s => ∀ c ∈ s, IsScalar c

theorem scalar_tagged {tag : String} {t : Jsonable} : (tagged tag t).Scalar ↔ t.Scalar := by
  rw [tagged, Jsonable.scalar_list, List.forall_mem_cons, List.forall_mem_singleton]
  exact and_iff_right (str_scalar tag)

theorem scalar_encodeEntries {d : Dict Jsonable}
    (h : ∀ entry ∈ d, (∀ c ∈ entry.1, IsScalar c) ∧ entry.2.Scalar) : (encodeEntries d).Scalar := by
  rw [encodeEntries, scalar_tagged, Jsonable.scalar_list, List.forall_mem_map]
  intro entry hentry
  rw [Dict.sorted, (sortedBy_perm _ d).mem_iff] at hentry
  rw [Jsonable.scalar_list, List.forall_mem_cons, List.forall_mem_singleton]
  exact h entry hentry

theorem scalar_encode (v : Value) (h : ScalarValue v) : (encode v).Scalar := by
  induction v using Value.induct with
  | null => simpa [encode, Jsonable.Scalar] using str_scalar "null"
  | bool b => rw [encode, scalar_tagged]; trivial
  | num d =>
    rw [encode, scalar_tagged]
    exact fun c hc => .inl (Nat.lt_trans (numberKey_ascii d c hc) (by decide))
  | str s => rw [encode, scalar_tagged]; exact h
  | arr xs ih =>
    rw [ScalarValue, Value.allStrs_arr] at h
    rw [encode_arr, scalar_tagged, Jsonable.scalar_list, List.forall_mem_map]
    exact fun x hx => ih x hx (h x hx)
  | obj ms ih =>
    rw [ScalarValue, Value.allStrs_obj] at h
    rw [encode_obj]
    refine scalar_encodeEntries (List.forall_mem_map.mpr fun m hm => ?_)
    exact ⟨(h m hm).1, ih m hm (h m hm).2⟩

/-! ## Schema nodes -/

/-- The encoded value of a member of a schema node. -/
def encodeChild (key : Str) (child : Value) : Jsonable :=
  if key = str "properties" then encodeNode.properties child
  else if key = str "items" then encodeNode child
  else if key ∈ schemaUnorderedArrays then encodeNode.unordered child
  else encode child

/-- The meaning of a member of a schema node. -/
def meaningChild (key : Str) (child : Value) : Meaning :=
  if key = str "properties" then meaning.properties child
  else if key = str "items" then meaning child
  else if key ∈ schemaUnorderedArrays then meaning.unordered child
  else .plain child.data

theorem encodeNode_members (ms : List (Str × Value)) : encodeNode.members ms =
    (ms.filter fun m => m.1 ∉ schemaAnnotations).map fun m => (m.1, encodeChild m.1 m.2) := by
  induction ms with
  | nil => rfl
  | cons m ms ih =>
    obtain ⟨key, child⟩ := m
    rw [encodeNode.members, ih]
    by_cases hkey : key ∈ schemaAnnotations
    · rw [if_pos hkey, List.filter_cons_of_neg (by simpa using hkey)]
    · rw [if_neg hkey, List.filter_cons_of_pos (by simpa using hkey)]
      rfl

theorem get?_encodeNode_members (ms : List (Str × Value)) (key : Str) :
    (encodeNode.members ms).get? key =
      if key ∈ schemaAnnotations then none else (Dict.get? ms key).map (encodeChild key) := by
  induction ms with
  | nil => simp [encodeNode.members]
  | cons m ms ih =>
    obtain ⟨k, child⟩ := m
    rw [encodeNode.members, Dict.get?_cons]
    by_cases hk : k = key
    · subst hk
      split
      · rename_i hkey
        rw [ih, if_pos hkey]
      · rw [Dict.get?_cons, if_pos rfl, if_pos rfl]
        rfl
    · rw [if_neg hk]
      split
      · exact ih
      · rw [Dict.get?_cons, if_neg hk, ih]

theorem meaning_members (ms : List (Str × Value)) (key : Str) :
    meaning.members ms key =
      if key ∈ schemaAnnotations then none else (Dict.get? ms key).map (meaningChild key) := by
  induction ms with
  | nil => simp [meaning.members]
  | cons m ms ih =>
    obtain ⟨k, child⟩ := m
    rw [meaning.members, Dict.get?_cons]
    split
    · split <;> rfl
    · exact ih

theorem nodup_encodeNode_members {ms : List (Str × Value)} (h : (Dict.keys ms).Nodup) :
    (encodeNode.members ms).keys.Nodup := by
  rw [encodeNode_members, Dict.keys, List.map_map]
  exact h.sublist (List.filter_sublist.map _)

theorem encodeNode_nodes (ps : List (Str × Value)) :
    encodeNode.nodes ps = ps.map fun p => (p.1, encodeNode p.2) := by
  induction ps with
  | nil => rfl
  | cons p ps ih => rw [encodeNode.nodes, ih, List.map_cons]

theorem meaning_nodes (ps : List (Str × Value)) (name : Str) :
    meaning.nodes ps name = (Dict.get? ps name).map meaning := by
  induction ps with
  | nil => rfl
  | cons p ps ih =>
    obtain ⟨k, child⟩ := p
    rw [meaning.nodes, ih, Dict.get?_cons]
    split <;> rfl

/-- Rearrangements are told alike by two maps that tell the same items apart. -/
theorem perm_map_of {α β γ : Type} {f : α → β} {g : α → γ} {xs ys : List α}
    (h : ∀ x ∈ xs, ∀ y ∈ ys, f x = f y → g x = g y) (hperm : (xs.map f).Perm (ys.map f)) :
    (xs.map g).Perm (ys.map g) := by
  induction xs generalizing ys with
  | nil =>
    have hnil : ys = [] := by simpa using hperm
    rw [hnil]
  | cons x xs ih =>
    have hmem : f x ∈ ys.map f := hperm.subset List.mem_cons_self
    obtain ⟨y, hy, heq⟩ := List.mem_map.mp hmem
    obtain ⟨before, after, rfl⟩ := List.append_of_mem hy
    have hmiddle : ∀ {δ : Type} (k : α → δ),
        ((before ++ y :: after).map k).Perm (k y :: (before ++ after).map k) := fun k => by
      rw [List.map_append, List.map_cons, List.map_append]
      exact List.perm_middle
    have hrest : (xs.map f).Perm ((before ++ after).map f) := by
      have htrans := hperm.trans (hmiddle f)
      rw [List.map_cons, heq] at htrans
      exact htrans.cons_inv
    have hxs := ih (fun a ha b hb => h a (List.mem_cons_of_mem _ ha) b (by
      rcases List.mem_append.mp hb with hb | hb
      · exact List.mem_append_left _ hb
      · exact List.mem_append_right _ (List.mem_cons_of_mem _ hb))) hrest
    rw [List.map_cons, h x List.mem_cons_self y hy heq.symm]
    exact (hxs.cons _).trans (hmiddle g).symm

/-- Sorted items are equal when the arrays are rearrangements of each other. -/
theorem unordered_eq_iff {v w : Value} (hv : v.Keyed) (hw : w.Keyed) (sv : ScalarValue v)
    (sw : ScalarValue w) :
    encodeNode.unordered v = encodeNode.unordered w ↔ meaning.unordered v = meaning.unordered w := by
  cases v with
  | arr xs =>
    cases w with
    | arr ys =>
      rw [Value.keyed_arr] at hv hw
      rw [ScalarValue, Value.allStrs_arr] at sv sw
      have hsame : ∀ x ∈ xs, ∀ y ∈ ys, encode x = encode y ↔ x.data = y.data := fun x hx y hy =>
        encode_eq_iff x (hv x hx) (hw y hy)
      have htexts : ∀ t ∈ xs.map encode, ∀ u ∈ xs.map encode,
          (dumps t).map Char.toNat = (dumps u).map Char.toNat → t = u := by
        simp only [List.forall_mem_map]
        intro x hx y hy h
        exact (dumps_inj (scalar_encode x (sv x hx)) (scalar_encode y (sv y hy))).mp (map_toNat_inj.mp h)
      rw [encodeNode.unordered, encodeNode.unordered, meaning.unordered, meaning.unordered, tagged_inj,
        and_iff_right rfl, Jsonable.list.injEq, sortItems, sortItems, encode_items, encode_items,
        sortedBy_eq_iff htexts, Meaning.unordered.injEq, Multiset.coe_eq_coe]
      constructor
      · exact perm_map_of fun x hx y hy => (hsame x hx y hy).mp
      · exact perm_map_of fun x hx y hy => (hsame x hx y hy).mpr
    | _ => simp [encodeNode.unordered, meaning.unordered, encode, tagged, encodeEntries,
        str_injective.eq_iff]
  | _ =>
    cases w with
    | arr ys => simp [encodeNode.unordered, meaning.unordered, encode, tagged, encodeEntries,
        str_injective.eq_iff]
    | _ =>
      have h := encode_eq_iff _ hv hw
      rw [← Meaning.plain.injEq] at h
      exact h

/-- A value that is no object is encoded as a plain value. -/
theorem encodeNode_plain {v w : Value} (hv : ∀ ms, v ≠ .obj ms) (hkv : v.Keyed) (hkw : w.Keyed) :
    (encodeNode v = encodeNode w ↔ meaning v = meaning w) ∧
      (encodeNode.properties v = encodeNode.properties w ↔
        meaning.properties v = meaning.properties w) := by
  cases v with
  | obj ms => exact absurd rfl (hv ms)
  | _ =>
    cases w with
    | obj ns =>
      constructor <;> simp [encodeNode, encodeNode.properties, meaning, meaning.properties, encode,
        tagged, encodeEntries, str_injective.eq_iff]
    | _ =>
      have h := encode_eq_iff _ hkv hkw
      rw [← Meaning.plain.injEq] at h
      exact ⟨h, h⟩

/-- Members of schema nodes are encoded alike exactly when they mean the same. -/
theorem encodeChild_eq_iff {key : Str} {v w : Value} (hv : v.Keyed) (hw : w.Keyed)
    (sv : ScalarValue v) (sw : ScalarValue w)
    (ih : (encodeNode v = encodeNode w ↔ meaning v = meaning w) ∧
      (encodeNode.properties v = encodeNode.properties w ↔
        meaning.properties v = meaning.properties w)) :
    encodeChild key v = encodeChild key w ↔ meaningChild key v = meaningChild key w := by
  rw [encodeChild, encodeChild, meaningChild, meaningChild]
  split
  · exact ih.2
  · split
    · exact ih.1
    · split
      · exact unordered_eq_iff hv hw sv sw
      · rw [Meaning.plain.injEq]
        exact encode_eq_iff v hv hw

theorem encodeNode_eq_iff (v : Value) : ∀ {w : Value}, v.Keyed → w.Keyed → ScalarValue v →
    ScalarValue w → (encodeNode v = encodeNode w ↔ meaning v = meaning w) ∧
      (encodeNode.properties v = encodeNode.properties w ↔
        meaning.properties v = meaning.properties w) := by
  induction v using Value.induct with
  | obj ms ih =>
    intro w hv hw sv sw
    cases w with
    | obj ns =>
      obtain ⟨hms, hvs⟩ := (Value.keyed_obj ms).mp hv
      obtain ⟨hns, hws⟩ := (Value.keyed_obj ns).mp hw
      rw [ScalarValue, Value.allStrs_obj] at sv sw
      constructor
      · rw [encodeNode, encodeNode, meaning, meaning, Meaning.node.injEq, funext_iff,
          encodeEntries_eq_iff (nodup_encodeNode_members hms) (nodup_encodeNode_members hns)]
        -- an annotation counts for neither side, any other keyword for both
        refine forall_congr' fun key => ?_
        rw [get?_encodeNode_members, get?_encodeNode_members, meaning_members, meaning_members]
        split
        · exact iff_of_true rfl rfl
        · cases hget : Dict.get? ms key <;> cases hget' : Dict.get? ns key <;> simp
          have hmem := Dict.mem_of_get? hget
          have hmem' := Dict.mem_of_get? hget'
          exact encodeChild_eq_iff (hvs _ hmem) (hws _ hmem') (sv _ hmem).2 (sw _ hmem').2
            (ih _ hmem (hvs _ hmem) (hws _ hmem') (sv _ hmem).2 (sw _ hmem').2)
      · rw [encodeNode.properties, encodeNode.properties, meaning.properties, meaning.properties,
          Meaning.properties.injEq, funext_iff, encodeNode_nodes, encodeNode_nodes,
          encodeEntries_eq_iff (by rwa [Dict.keys_map]) (by rwa [Dict.keys_map])]
        refine forall_congr' fun name => ?_
        rw [Dict.get?_map, Dict.get?_map, meaning_nodes, meaning_nodes]
        cases hget : Dict.get? ms name <;> cases hget' : Dict.get? ns name <;> simp
        have hmem := Dict.mem_of_get? hget
        have hmem' := Dict.mem_of_get? hget'
        exact (ih _ hmem (hvs _ hmem) (hws _ hmem') (sv _ hmem).2 (sw _ hmem').2).1
    | _ =>
      constructor <;> simp [encodeNode, encodeNode.properties, meaning, meaning.properties, encode,
        tagged, encodeEntries, str_injective.eq_iff]
  | _ =>
    intro w hv hw _ _
    exact encodeNode_plain (by simp) hv hw

/-! ## The canonical text -/

theorem scalar_unordered {v : Value} (h : ScalarValue v) : (encodeNode.unordered v).Scalar := by
  cases v with
  | arr xs =>
    have hxs := h
    rw [ScalarValue, Value.allStrs_arr] at hxs
    rw [encodeNode.unordered, scalar_tagged, Jsonable.scalar_list, encode_items, sortItems]
    intro t ht
    rw [(sortedBy_perm _ _).mem_iff, List.mem_map] at ht
    obtain ⟨x, hx, rfl⟩ := ht
    exact scalar_encode x (hxs x hx)
  | _ => exact scalar_encode _ h

theorem scalar_encodeNode (v : Value) (h : ScalarValue v) :
    (encodeNode v).Scalar ∧ (encodeNode.properties v).Scalar := by
  induction v using Value.induct with
  | obj ms ih =>
    rw [ScalarValue, Value.allStrs_obj] at h
    constructor
    · rw [encodeNode, encodeNode_members]
      refine scalar_encodeEntries (List.forall_mem_map.mpr fun m hm => ?_)
      have hm := List.mem_of_mem_filter hm
      refine ⟨(h m hm).1, ?_⟩
      obtain ⟨hnode, hproperties⟩ := ih m hm (h m hm).2
      show (encodeChild m.1 m.2).Scalar
      unfold encodeChild
      split
      · exact hproperties
      · split
        · exact hnode
        · split
          · exact scalar_unordered (h m hm).2
          · exact scalar_encode _ (h m hm).2
    · rw [encodeNode.properties, encodeNode_nodes]
      refine scalar_encodeEntries (List.forall_mem_map.mpr fun m hm => ?_)
      exact ⟨(h m hm).1, (ih m hm (h m hm).2).1⟩
  | _ => exact ⟨scalar_encode _ h, scalar_encode _ h⟩

/-- The canonical texts of two schemas are equal exactly when the schemas mean the same. -/
theorem canonicalText_eq_iff {s t : Value} (hs : s.Keyed) (ht : t.Keyed) (ss : ScalarValue s)
    (st : ScalarValue t) : canonicalText s = canonicalText t ↔ meaning s = meaning t := by
  rw [canonicalText, canonicalText,
    dumps_inj (scalar_encodeNode s ss).1 (scalar_encodeNode t st).1]
  exact (encodeNode_eq_iff s hs ht ss st).1

end FastGate.CheckContract
