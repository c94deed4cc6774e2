/-
# FastGate.Go.Unmarshal — `json.Unmarshal`

`json.Unmarshal` into a `string`, a `[]json.RawMessage` and a `map[string]json.RawMessage`.  A raw
message is the bytes of a value without the whitespace around it; a repeated name overwrites.

On a JSON text each of them is determined by the document (`unmarshalString_text`,
`unmarshalArray_text`, `unmarshalObject_text`), and the raw messages are JSON texts for its parts.
-/
import FastGate.Go.Json
import FastGate.Json.Edges
import Mathlib.Data.List.AList

open FastGate.Utf8 (Bytes)
open FastGate.Json

namespace FastGate.Go

/-- `json.RawMessage`: the bytes of one value. -/
abbrev RawMessage := Bytes

/-- `map[string]json.RawMessage` -/
abbrev RawObject := AList fun _ : Bytes => RawMessage

/-- The value at the front of a text, as raw bytes, and what follows it. -/
def readValue (s : Bytes) : Option (RawMessage × Bytes) :=
  let s := skipWs s
  match parseValue docHooks (s.length + 1) 0 s with
  | .ok (_, r) => some (s.take (s.length - r.length), r)
  | .error _ => none

/-- The elements of an array after its bracket; the fuel bounds their number. -/
def readElements : Nat → Bytes → Option (List RawMessage)
  | 0, _ => none
  | fuel + 1, s =>
    match closes? .endArray s with
    | some _ => some []
    | none =>
      match readValue s with
      | none => none
      | some (v, r) =>
        match next r with
        | .token (.punct .valueSeparator) r => (readElements fuel r).map (v :: ·)
        | .token (.punct .endArray) _ => some [v]
        | _ => none

/-- The members of an object after its brace, stored into a map. -/
def readMembers : Nat → RawObject → Bytes → Option RawObject
  | 0, _, _ => none
  | fuel + 1, m, s =>
    match closes? .endObject s with
    | some _ => some m
    | none =>
      match next s with
      | .token (.str k) r =>
        match next r with
        | .token (.punct .nameSeparator) r =>
          match readValue r with
          | none => none
          | some (v, r) =>
            match next r with
            | .token (.punct .valueSeparator) r => readMembers fuel (m.insert (unquote k) v) r
            | .token (.punct .endObject) _ => some (m.insert (unquote k) v)
            | _ => none
        | _ => none
      | _ => none

/-- `checkValid`: the whole input is one JSON value. -/
def checkValid (data : Bytes) : Option (Doc UInt8) :=
  match parseText docHooks data with
  | .ok d => some d
  | .error _ => none

/-- `Unmarshal` into a `string`; `null` leaves it empty. -/
def unmarshalString (data : Bytes) : Option Bytes :=
  match checkValid data with
  | some (.str items) => some (unquote items)
  | some .null => some []
  | _ => none

/-- `Unmarshal` into a nil `[]json.RawMessage`; `null` leaves it nil. -/
def unmarshalArray (data : Bytes) : Option (Option (List RawMessage)) :=
  match checkValid data with
  | some (.arr _) =>
    match closes? .beginArray data with
    | some r => (readElements (data.length + 1) r).map some
    | none => none
  | some .null => some none
  | _ => none

/-- `Unmarshal` into a nil `map[string]json.RawMessage`; `null` leaves it nil. -/
def unmarshalObject (data : Bytes) : Option (Option RawObject) :=
  match checkValid data with
  | some (.obj _) =>
    match closes? .beginObject data with
    | some r => (readMembers (data.length + 1) ∅ r).map some
    | none => none
  | some .null => some none
  | _ => none

/-! ## Raw messages -/

/-- There are at least as many tokens as elements. -/
theorem length_le_elements (xs : List (Doc UInt8)) :
    xs.length ≤ (Doc.tokens.elements xs).length := by
  have more : ∀ xs : List (Doc UInt8), xs.length ≤ (Doc.tokens.moreElements xs).length := by
    intro xs
    induction xs with
    | nil => exact Nat.le_refl _
    | cons x xs ih => simp only [Doc.tokens.moreElements, List.length_cons, List.length_append]; omega
  cases xs with
  | nil => exact Nat.le_refl _
  | cons x xs =>
    have hx := List.length_pos_of_ne_nil x.tokens_ne_nil
    have hxs := more xs
    simp only [Doc.tokens.elements, List.length_cons, List.length_append]
    omega

theorem length_le_members (ms : List (StrLit UInt8 × Doc UInt8)) :
    ms.length ≤ (Doc.tokens.members ms).length := by
  have more : ∀ ms : List (StrLit UInt8 × Doc UInt8),
      ms.length ≤ (Doc.tokens.moreMembers ms).length := by
    intro ms
    induction ms with
    | nil => exact Nat.le_refl _
    | cons m ms ih => simp only [Doc.tokens.moreMembers, List.length_cons, List.length_append]; omega
  cases ms with
  | nil => exact Nat.le_refl _
  | cons m ms =>
    have hms := more ms
    simp only [Doc.tokens.members, List.length_cons, List.length_append]
    omega

theorem next_skipWs (s : Bytes) : next (skipWs s) = next s := by
  obtain ⟨w, hs, hw⟩ := skipWs_split s
  exact ((congrArg next hs).trans (next_skip hw (skipWs s))).symm

theorem reads_skipWs {s r : Bytes} {d : Doc UInt8} (h : Reads s d.tokens r) :
    Reads (skipWs s) d.tokens r := by
  obtain ⟨t, ts, hts⟩ := List.exists_cons_of_ne_nil d.tokens_ne_nil
  rw [hts, reads_cons] at h ⊢
  rwa [next_skipWs]

/-- A raw message is a JSON text for the value it was cut from. -/
theorem readValue_of_reads {s r : Bytes} {d : Doc UInt8} (h : Reads s d.tokens r) :
    ∃ v, readValue s = some (v, r) ∧ JsonText v d := by
  have hskip := reads_skipWs h
  have hlen := hskip.length_le
  obtain ⟨p, hp, hspells⟩ := hskip.spells
  have hparse := d.parses docHooks ((skipWs s).length + 1) 0 hskip (by omega)
  rw [Doc.eval_docHooks] at hparse
  have htake : (skipWs s).take ((skipWs s).length - r.length) = p := by
    rw [hp, List.length_append, Nat.add_sub_cancel, List.take_left]
  refine ⟨p, ?_, hspells⟩
  rw [readValue, hparse]
  simp only [Except.map, htake]

theorem readElements_of_reads {xs : List (Doc UInt8)} :
    ∀ (fuel : Nat) {s r : Bytes}, Reads s (Doc.tokens.elements xs ++ [.punct .endArray]) r →
      xs.length < fuel →
      ∃ vs, readElements fuel s = some vs ∧ List.Forall₂ JsonText vs xs := by
  induction xs with
  | nil =>
    intro fuel s r hs hfuel
    obtain ⟨fuel, rfl⟩ := Nat.exists_eq_succ_of_ne_zero (Nat.ne_of_gt hfuel)
    exact ⟨[], by rw [readElements, closes?_of_next (reads_one.mp hs)], .nil⟩
  | cons x xs ih =>
    intro fuel s r hs hfuel
    obtain ⟨fuel, rfl⟩ := Nat.exists_eq_succ_of_ne_zero (Nat.ne_of_gt (Nat.zero_lt_of_lt hfuel))
    rw [Doc.tokens.elements, List.append_assoc] at hs
    obtain ⟨r1, hr1, hr⟩ := (reads_append _).mp hs
    obtain ⟨v, hv, hvx⟩ := readValue_of_reads hr1
    cases xs with
    | nil =>
      exact ⟨[v], by simp only [readElements, x.closes?_of_reads hr1, hv, reads_one.mp hr],
        .cons hvx .nil⟩
    | cons y ys =>
      obtain ⟨r2, hn, hr2⟩ := reads_cons.mp hr
      obtain ⟨vs, hvs, hall⟩ := ih fuel hr2 (Nat.lt_of_succ_lt_succ hfuel)
      exact ⟨v :: vs, by simp only [readElements, x.closes?_of_reads hr1, hv, hn, hvs, Option.map_some],
        .cons hvx hall⟩

/-- Storing the members of an object into a map, one raw message after the other. -/
inductive Stores : RawObject → List (StrLit UInt8 × Doc UInt8) → RawObject → Prop
  | nil {m : RawObject} : Stores m [] m
  | cons {m m' : RawObject} {k : StrLit UInt8} {d : Doc UInt8} {ms : List (StrLit UInt8 × Doc UInt8)}
      {v : RawMessage} : JsonText v d → Stores (m.insert (unquote k) v) ms m' →
      Stores m ((k, d) :: ms) m'

theorem readMembers_of_reads {ms : List (StrLit UInt8 × Doc UInt8)} :
    ∀ (fuel : Nat) {m : RawObject} {s r : Bytes},
      Reads s (Doc.tokens.members ms ++ [.punct .endObject]) r → ms.length < fuel →
      ∃ m', readMembers fuel m s = some m' ∧ Stores m ms m' := by
  induction ms with
  | nil =>
    intro fuel m s r hs hfuel
    obtain ⟨fuel, rfl⟩ := Nat.exists_eq_succ_of_ne_zero (Nat.ne_of_gt hfuel)
    exact ⟨m, by rw [readMembers, closes?_of_next (reads_one.mp hs)], .nil⟩
  | cons kd ms ih =>
    obtain ⟨k, d⟩ := kd
    intro fuel m s r hs hfuel
    obtain ⟨fuel, rfl⟩ := Nat.exists_eq_succ_of_ne_zero (Nat.ne_of_gt (Nat.zero_lt_of_lt hfuel))
    simp only [Doc.tokens.members, List.cons_append, List.append_assoc] at hs
    obtain ⟨r0, hn0, hr0⟩ := reads_cons.mp hs
    obtain ⟨r1, hn1, hr1⟩ := reads_cons.mp hr0
    obtain ⟨r2, hr2, hr⟩ := (reads_append _).mp hr1
    obtain ⟨v, hv, hvd⟩ := readValue_of_reads hr2
    have hopen : closes? .endObject s = none := by simp [closes?, hn0]
    cases ms with
    | nil =>
      exact ⟨m.insert (unquote k) v,
        by simp only [readMembers, hopen, hn0, hn1, hv, reads_one.mp hr], .cons hvd .nil⟩
    | cons kd' ms =>
      obtain ⟨r3, hn3, hr3⟩ := reads_cons.mp hr
      obtain ⟨m', hm', hstores⟩ := ih fuel (m := m.insert (unquote k) v) hr3
        (Nat.lt_of_succ_lt_succ hfuel)
      exact ⟨m', by simp only [readMembers, hopen, hn0, hn1, hv, hn3, hm'], .cons hvd hstores⟩

/-! ## What is stored -/

/-- The raw messages of a map are the members of an object with distinct names. -/
structure Holds (m : RawObject) (ms : List (StrLit UInt8 × Doc UInt8)) : Prop where
  size : m.keys.length = ms.length
  mem : ∀ name, name ∈ m ↔ ∃ kd ∈ ms, unquote kd.1 = name
  lookup : ∀ kd ∈ ms, ∃ v, m.lookup (unquote kd.1) = some v ∧ JsonText v kd.2

/-- Storing under a name that was absent changes nothing else. -/
theorem Stores.frame {m m' : RawObject} {ms : List (StrLit UInt8 × Doc UInt8)} (h : Stores m ms m')
    {name : Bytes} (hname : ∀ kd ∈ ms, unquote kd.1 ≠ name) : m'.lookup name = m.lookup name := by
  induction h with
  | nil => rfl
  | cons _ _ ih =>
    obtain ⟨hk, hms⟩ := List.forall_mem_cons.mp hname
    rw [ih hms, AList.lookup_insert_ne (Ne.symm hk)]

theorem Stores.mem_iff {m m' : RawObject} {ms : List (StrLit UInt8 × Doc UInt8)}
    (h : Stores m ms m') (name : Bytes) :
    name ∈ m' ↔ name ∈ m ∨ ∃ kd ∈ ms, unquote kd.1 = name := by
  induction h with
  | nil => simp
  | cons _ _ ih =>
    rw [ih, AList.mem_insert, List.exists_mem_cons_iff, or_assoc, or_left_comm, eq_comm]

theorem Stores.length {m m' : RawObject} {ms : List (StrLit UInt8 × Doc UInt8)}
    (h : Stores m ms m') (hnodup : (ms.map fun kd => unquote kd.1).Nodup)
    (hnew : ∀ kd ∈ ms, unquote kd.1 ∉ m) : m'.keys.length = m.keys.length + ms.length := by
  induction h with
  | nil => rfl
  | @cons m m' k d ms v _ _ ih =>
    obtain ⟨hk, hms⟩ := List.forall_mem_cons.mp hnew
    rw [List.map_cons, List.nodup_cons] at hnodup
    have hinsert : (m.insert (unquote k) v).keys.length = m.keys.length + 1 := by
      rw [AList.keys, AList.entries_insert_of_notMem hk]
      simp [AList.keys, List.keys]
    rw [ih hnodup.2, hinsert, List.length_cons]
    · omega
    · intro kd hkd hmem
      rcases (AList.mem_insert _).mp hmem with heq | hmem
      · exact hnodup.1 (heq ▸ List.mem_map_of_mem hkd)
      · exact hms kd hkd hmem

theorem Stores.lookup {m m' : RawObject} {ms : List (StrLit UInt8 × Doc UInt8)}
    (h : Stores m ms m') (hnodup : (ms.map fun kd => unquote kd.1).Nodup) :
    ∀ kd ∈ ms, ∃ v, m'.lookup (unquote kd.1) = some v ∧ JsonText v kd.2 := by
  induction h with
  | nil => simp
  | @cons m m' k d ms v hv hrest ih =>
    rw [List.map_cons, List.nodup_cons] at hnodup
    refine List.forall_mem_cons.mpr ⟨⟨v, ?_, hv⟩, ih hnodup.2⟩
    -- the tail stores under other names
    rw [hrest.frame, AList.lookup_insert]
    exact fun kd hkd heq => hnodup.1 (heq ▸ List.mem_map_of_mem hkd)

theorem Stores.holds {m : RawObject} {ms : List (StrLit UInt8 × Doc UInt8)} (h : Stores ∅ ms m)
    (hnodup : (ms.map fun kd => unquote kd.1).Nodup) : Holds m ms :=
  ⟨by simpa using h.length hnodup (by simp), fun name => by simpa using h.mem_iff name,
    h.lookup hnodup⟩

/-! ## Unmarshal on a JSON text -/

section Text

variable {data : Bytes} {d : Doc UInt8}

theorem checkValid_text (h : JsonText data d) : checkValid data = some d := by
  rw [checkValid, parseText_of_jsonText docHooks h, Doc.eval_docHooks]

/-- A document starts with its first token. -/
theorem reads_of_text (h : JsonText data d) :
    ∃ r, Reads data d.tokens r ∧ d.tokens.length + r.length ≤ data.length := by
  obtain ⟨r, hr, -⟩ := lexes_iff_reads.mp (jsonText_iff_lexes.mp h)
  exact ⟨r, hr, hr.length_le⟩

theorem unmarshalString_text {items : StrLit UInt8} (h : JsonText data (.str items)) :
    unmarshalString data = some (unquote items) := by rw [unmarshalString, checkValid_text h]

theorem unmarshalArray_text {xs : List (Doc UInt8)} (h : JsonText data (.arr xs)) :
    ∃ vs, unmarshalArray data = some (some vs) ∧ List.Forall₂ JsonText vs xs := by
  obtain ⟨r, hr, hlen⟩ := reads_of_text h
  rw [Doc.tokens] at hr hlen
  obtain ⟨r0, hn, hr0⟩ := reads_cons.mp hr
  have hxs := length_le_elements xs
  simp only [List.length_cons, List.length_append] at hlen
  obtain ⟨vs, hvs, hall⟩ := readElements_of_reads (data.length + 1) hr0 (by omega)
  refine ⟨vs, ?_, hall⟩
  simp only [unmarshalArray, checkValid_text h, closes?_of_next hn, hvs, Option.map_some]

theorem unmarshalObject_text {ms : List (StrLit UInt8 × Doc UInt8)} (h : JsonText data (.obj ms)) :
    ∃ m, unmarshalObject data = some (some m) ∧ Stores ∅ ms m := by
  obtain ⟨r, hr, hlen⟩ := reads_of_text h
  rw [Doc.tokens] at hr hlen
  obtain ⟨r0, hn, hr0⟩ := reads_cons.mp hr
  have hms := length_le_members ms
  simp only [List.length_cons, List.length_append] at hlen
  obtain ⟨m, hm, hstores⟩ := readMembers_of_reads (data.length + 1) (m := ∅) hr0 (by omega)
  refine ⟨m, ?_, hstores⟩
  simp only [unmarshalObject, checkValid_text h, closes?_of_next hn, hm, Option.map_some]

end Text

end FastGate.Go
