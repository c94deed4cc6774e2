/-
# FastGate.ModelTurn.Decode — what the decoder accepts

On the raw messages of a document every function of the decoder is determined by the document
(`decodeString_text`, `decodeArray_text`, `decodeObject_text`).  The main result is
`decodeWireRequest_text`: on the members of a root object the decoder accepts exactly the shape
`IsRequest` of the wire format, and returns what the document says, unchanged.
`mapProviderRequest_text` adds that nothing it accepts is refused by the provider's own checks.

* A raw message is a JSON text for a part of the document, so white space and escapes play no role in
  what is accepted.
* Bytes are compared with characters over UTF-8: identifiers are ASCII (`validIdentifier_iff`), and texts
  are counted in scalar values (`validScalarText_iff`).
* `Clean` are the documents that the strict profile leaves: distinct names and paired surrogates at every
  depth.  Only for these does decoding lose nothing.
-/
import FastGate.Json.Encode
import FastGate.ModelTurn.Parse
import FastGate.ModelTurn.Request

open FastGate.Utf8 (Bytes encode encode_injective encode_cons encode_nil)
open FastGate.Json
open FastGate.Go
open FastGate.Provider

namespace FastGate.ModelTurn

/-! ## Raw messages of a document -/

/-- JSON white space is white space for `TrimSpace`. -/
theorem isAsciiSpace_of_isWs {b : UInt8} (h : isWs b = true) : IsAsciiSpace b := by
  have hb : b = 0x20 ∨ b = 0x09 ∨ b = 0x0A ∨ b = 0x0D := by
    simpa [isWs, or_assoc, Symbol.code, ← UInt8.toNat_inj] using h
  rcases hb with rfl | rfl | rfl | rfl <;> exact ⟨by decide, by decide⟩

/-- `TrimSpace` leaves the value itself, whose first byte tells what kind of value it is. -/
theorem trimSpace_text {raw : Bytes} {d : Doc UInt8} (h : JsonText raw d) :
    ∃ b rest, trimSpace raw = b :: rest ∧ JsonText (b :: rest) d ∧ Leads b.toNat d := by
  obtain ⟨w, v, w', rfl, hw, hw', hv, ⟨hhead, hlast⟩, b, rest, rfl, hlead⟩ := h.bare
  have hspace : ∀ {u : Bytes}, u.all isWs = true → ∀ b ∈ u, IsAsciiSpace b :=
    fun hu b hb => isAsciiSpace_of_isWs (List.all_eq_true.mp hu b hb)
  exact ⟨b, rest, trimSpace_spaces (hspace hw) (hspace hw') hhead hlast, hv, hlead⟩

theorem decodeString_text {raw : Bytes} {d : Doc Char} (h : JsonText raw d.encode) :
    decodeString raw = d.text?.map encode := by
  obtain ⟨b, rest, htrim, hv, hlead⟩ := trimSpace_text h
  rw [decodeString, htrim]
  dsimp only
  split
  · rename_i hb
    cases d with
    | str items => exact absurd (UInt8.toNat_inj.mp (hlead.str.mpr ⟨_, rfl⟩)) hb
    | _ => rfl
  · rename_i hb
    obtain ⟨items, hd⟩ := hlead.str.mp (congrArg UInt8.toNat (not_not.mp hb))
    rw [hd] at hv
    cases d with
    | str is =>
      cases hd
      rw [unmarshalString_text hv, unquote_encode]
      rfl
    | _ => cases hd

/-- The raw messages of the elements of an array. -/
def RawElements (raws : List RawMessage) (xs : List (Doc Char)) : Prop :=
  List.Forall₂ (fun raw x => JsonText raw x.encode) raws xs

theorem decodeArray_text {raw : Bytes} {d : Doc Char} (h : JsonText raw d.encode) :
    match d.elements? with
    | some xs => ∃ raws, decodeArray raw = some raws ∧ RawElements raws xs
    | none => decodeArray raw = none := by
  obtain ⟨b, rest, htrim, hv, hlead⟩ := trimSpace_text h
  rw [decodeArray, htrim]
  dsimp only
  cases d with
  | arr xs =>
    have hd : (Doc.arr xs).encode = .arr (xs.map Doc.encode) := Doc.map_arr _ _
    have hb : b = 0x5B := UInt8.toNat_inj.mp (hlead.arr.mpr ⟨_, hd⟩)
    rw [hd] at hv
    obtain ⟨raws, hraws, hall⟩ := unmarshalArray_text hv
    refine ⟨raws, ?_, List.forall₂_map_right_iff.mp hall⟩
    rw [if_neg (not_not.mpr hb), hraws]
  | _ =>
    refine if_pos fun hb => ?_
    obtain ⟨xs, hd⟩ := hlead.arr.mp (congrArg UInt8.toNat hb)
    cases hd

/-- The raw messages of the members of an object, under their decoded names. -/
structure RawMembers (object : RawObject) (ms : List (StrLit Char × Doc Char)) : Prop where
  size : object.keys.length = ms.length
  mem : ∀ name, name ∈ object ↔ ∃ kd ∈ ms, encode (scalars kd.1) = name
  lookup : ∀ kd ∈ ms, ∃ raw, object.lookup (encode (scalars kd.1)) = some raw ∧
    JsonText raw kd.2.encode

theorem decodeObject_text {raw : Bytes} {d : Doc Char} (h : JsonText raw d.encode)
    (hnames : d.UniqueNames scalars) :
    match d.members? with
    | some ms => ∃ object, decodeObject raw = some object ∧ RawMembers object ms
    | none => decodeObject raw = none := by
  obtain ⟨b, rest, htrim, hv, hlead⟩ := trimSpace_text h
  rw [decodeObject, htrim]
  dsimp only
  cases d with
  | obj ms =>
    have hd : (Doc.obj ms).encode = .obj (ms.map fun m => (StrLit.encode m.1, m.2.encode)) :=
      Doc.map_obj _ _
    have hb : b = 0x7B := UInt8.toNat_inj.mp (hlead.obj.mpr ⟨_, hd⟩)
    rw [hd] at hv
    obtain ⟨object, hobject, hstores⟩ := unmarshalObject_text hv
    have hnodup : ((ms.map fun m => (StrLit.encode m.1, m.2.encode)).map fun kd => unquote kd.1).Nodup := by
      have := (Doc.uniqueNames_obj ms).mp hnames |>.1.map encode_injective
      simpa [List.map_map, Function.comp_def, unquote_encode] using this
    obtain ⟨hsize, hmem, hlookup⟩ := hstores.holds hnodup
    refine ⟨object, ?_, ?_, ?_, ?_⟩
    · rw [if_neg (not_not.mpr hb), hobject]
    · rw [hsize, List.length_map]
    · intro name
      simp only [hmem, List.mem_map, exists_exists_and_eq_and, unquote_encode]
    · intro kd hkd
      obtain ⟨raw, hraw, htext⟩ := hlookup _ (List.mem_map_of_mem hkd)
      rw [unquote_encode] at hraw
      exact ⟨raw, hraw, htext⟩
  | _ =>
    refine if_pos fun hb => ?_
    obtain ⟨ms, hd⟩ := hlead.obj.mp (congrArg UInt8.toNat hb)
    cases hd


/-! ## Members -/

section Members

variable {object : RawObject} {ms : List (StrLit Char × Doc Char)}

theorem goString_eq_iff {name : String} {text : List Char} :
    encode text = goString name ↔ text = name.toList := encode_injective.eq_iff

/-- `root[name]` is the member of that name. -/
theorem rawField_text (h : RawMembers object ms) (name : String) :
    match (Doc.obj ms).member? name with
    | some d => JsonText (rawField object name) d.encode
    | none => rawField object name = [] := by
  rw [Doc.member?, Doc.members?, Option.bind_some]
  cases hfind : ms.find? fun kd => scalars kd.1 = name.toList with
  | none =>
    have habsent : goString name ∉ object := by
      rw [h.mem]
      rintro ⟨kd, hkd, hname⟩
      exact absurd (goString_eq_iff.mp hname) (by simpa using List.find?_eq_none.mp hfind kd hkd)
    simp only [Option.map_none, rawField, AList.lookup_eq_none.mpr habsent, Option.getD_none]
  | some kd =>
    have hname : scalars kd.1 = name.toList := by simpa using List.find?_some hfind
    obtain ⟨raw, hraw, htext⟩ := h.lookup kd (List.mem_of_find?_eq_some hfind)
    rw [hname] at hraw
    simpa only [Option.map_some, rawField, goString, hraw, Option.getD_some] using htext

theorem decodeString_rawField (h : RawMembers object ms) (name : String) :
    decodeString (rawField object name) = ((Doc.obj ms).textAt? name).map encode := by
  have hfield := rawField_text h name
  rw [Doc.textAt?]
  cases hd : (Doc.obj ms).member? name with
  | none => rw [hd] at hfield; rw [hfield]; rfl
  | some d => rw [hd] at hfield; rw [decodeString_text hfield]; rfl

theorem decodeArray_rawField (h : RawMembers object ms) (name : String) :
    match (Doc.obj ms).elementsAt? name with
    | some xs => ∃ raws, decodeArray (rawField object name) = some raws ∧ RawElements raws xs
    | none => decodeArray (rawField object name) = none := by
  have hfield := rawField_text h name
  rw [Doc.elementsAt?]
  cases hd : (Doc.obj ms).member? name with
  | none => rw [hd] at hfield; rw [hfield]; rfl
  | some d => rw [hd] at hfield; exact decodeArray_text hfield

/-- As many distinct names as there are fields, among them every field, are exactly the fields. -/
theorem hasExactFields_iff (h : RawMembers object ms) (hnames : (ms.map fun kd => scalars kd.1).Nodup)
    (fields : List String) (hfields : fields.Nodup) :
    hasExactFields object fields = true ↔ (Doc.obj ms).HasFields fields := by
  have hpresent : (fields.all fun field => decide (goString field ∈ object)) = true ↔
      ∀ field ∈ fields, ∃ kd ∈ ms, scalars kd.1 = field.toList := by
    simp only [List.all_eq_true, decide_eq_true_eq, h.mem, goString_eq_iff]
  have hlists : (fields.map String.toList).Nodup := hfields.map fun _ _ => String.toList_inj.mp
  constructor
  · intro hexact
    rw [hasExactFields, h.size] at hexact
    split at hexact
    · cases hexact
    · rename_i hlen
      have hall := hpresent.mp hexact
      -- the fields are among the names, and there are no more names than fields
      have hsub : fields.map String.toList ⊆ ms.map fun kd => scalars kd.1 := by
        intro text htext
        obtain ⟨field, hfield, rfl⟩ := List.mem_map.mp htext
        obtain ⟨kd, hkd, hname⟩ := hall field hfield
        exact List.mem_map.mpr ⟨kd, hkd, hname⟩
      have hperm := (List.subperm_of_subset hlists hsub).perm_of_length_le (by simp; omega)
      refine ⟨ms, rfl, fun kd hkd => ?_, hall⟩
      obtain ⟨field, hfield, hname⟩ :=
        List.mem_map.mp (hperm.mem_iff.mpr (List.mem_map_of_mem (f := fun kd => scalars kd.1) hkd))
      exact ⟨field, hfield, hname.symm⟩
  · rintro ⟨ms', hms, hclosed, hall⟩
    cases hms
    have hperm : (ms.map fun kd => scalars kd.1).Perm (fields.map String.toList) := by
      refine (List.perm_ext_iff_of_nodup hnames hlists).mpr fun text => ?_
      constructor
      · intro htext
        obtain ⟨kd, hkd, rfl⟩ := List.mem_map.mp htext
        obtain ⟨field, hfield, hname⟩ := hclosed kd hkd
        exact List.mem_map.mpr ⟨field, hfield, hname.symm⟩
      · intro htext
        obtain ⟨field, hfield, rfl⟩ := List.mem_map.mp htext
        obtain ⟨kd, hkd, hname⟩ := hall field hfield
        exact List.mem_map.mpr ⟨kd, hkd, hname⟩
    have hlen := hperm.length_eq
    rw [List.length_map, List.length_map] at hlen
    rw [hasExactFields, h.size, if_neg (not_not.mpr hlen)]
    exact hpresent.mpr hall

end Members

/-! ## Texts -/

theorem isAsciiAlphaNumeric_iff {b : UInt8} {c : Char} (h : b.toNat = c.toNat) :
    isAsciiAlphaNumeric b = true ↔ IsAlphaNumeric c := by
  simp only [isAsciiAlphaNumeric, IsAlphaNumeric, Bool.or_eq_true, Bool.and_eq_true,
    decide_eq_true_eq, UInt8.le_iff_toNat_le, h]
  simp [or_assoc]

theorem isIdentifierByte_iff {b : UInt8} {c : Char} (h : b.toNat = c.toNat) :
    isIdentifierByte b = true ↔ IsIdentifierChar c := by
  simp only [isIdentifierByte, IsIdentifierChar, Bool.or_eq_true, beq_iff_eq,
    isAsciiAlphaNumeric_iff h, ← UInt8.toNat_inj, h]
  simp [or_assoc]

theorem isAlphaNumeric_lt {c : Char} (h : IsAlphaNumeric c) : c.toNat < 0x80 := by
  unfold IsAlphaNumeric at h
  omega

theorem isIdentifierChar_lt {c : Char} (h : IsIdentifierChar c) : c.toNat < 0x80 := by
  unfold IsIdentifierChar IsAlphaNumeric at h
  omega

theorem not_isIdentifierByte_high {b : UInt8} (h : 0x80 ≤ b.toNat) : isIdentifierByte b = false := by
  have hb : b.toNat = (Char.ofNat b.toNat).toNat := (toNat_ofNat (.inl (by have := b.toNat_lt; omega))).symm
  rw [← Bool.not_eq_true, isIdentifierByte_iff hb]
  intro hc
  exact absurd (isIdentifierChar_lt hc) (by omega)

/-- Identifier bytes spell identifier characters, one byte each. -/
theorem all_isIdentifierByte_iff (cs : List Char) :
    (encode cs).all isIdentifierByte = true ↔ ∀ c ∈ cs, IsIdentifierChar c := by
  induction cs with
  | nil => simp
  | cons c cs ih =>
    rw [encode_cons, List.all_append, Bool.and_eq_true, ih, List.forall_mem_cons]
    refine and_congr_left fun _ => ?_
    rcases encodeChar_cases c with ⟨b, hb, hcode⟩ | ⟨hhigh, b, bs, hb, hbhigh, -⟩
    · rw [hb, List.all_cons, List.all_nil, Bool.and_true, isIdentifierByte_iff hcode]
    · rw [hb, List.all_cons, not_isIdentifierByte_high hbhigh, Bool.false_and]
      exact iff_of_false Bool.false_ne_true fun hc => absurd (isIdentifierChar_lt hc) (Nat.not_lt.mpr hhigh)

theorem length_encode_ascii {cs : List Char} (h : ∀ c ∈ cs, c.toNat < 0x80) :
    (encode cs).length = cs.length := by
  induction cs with
  | nil => rfl
  | cons c cs ih =>
    obtain ⟨hc, hcs⟩ := List.forall_mem_cons.mp h
    obtain ⟨b, hb, -⟩ := Utf8.encodeChar_ascii hc
    rw [encode_cons, hb, List.length_append, ih hcs, List.length_singleton, List.length_cons,
      Nat.add_comm]

theorem validIdentifier_iff (cs : List Char) :
    validIdentifier (encode cs) = true ↔ IsIdentifier cs := by
  cases cs with
  | nil => simp [validIdentifier, IsIdentifier]
  | cons c cs =>
    rcases encodeChar_cases c with ⟨b, hb, hcode⟩ | ⟨hhigh, b, bs, hb, hbhigh, -⟩
    · have hlen : (∀ x ∈ cs, IsIdentifierChar x) → (b :: encode cs).length = (c :: cs).length := by
        intro hcs
        rw [List.length_cons, length_encode_ascii fun x hx => isIdentifierChar_lt (hcs x hx),
          List.length_cons]
      rw [encode_cons, hb, List.singleton_append, validIdentifier]
      constructor
      · intro h
        split at h
        · cases h
        rename_i hfirst
        rw [not_or, Bool.not_eq_true', Bool.not_eq_false, isAsciiAlphaNumeric_iff hcode] at hfirst
        have hcs := (all_isIdentifierByte_iff cs).mp h
        exact ⟨c, cs, rfl, by rw [← hlen hcs]; exact Nat.not_lt.mp hfirst.1, hfirst.2, hcs⟩
      · rintro ⟨c', cs', heq, hle, hc, hcs⟩
        cases heq
        rw [← hlen hcs] at hle
        rw [if_neg, all_isIdentifierByte_iff]
        · exact hcs
        · rw [not_or, Bool.not_eq_true', Bool.not_eq_false, isAsciiAlphaNumeric_iff hcode]
          exact ⟨Nat.not_lt.mpr hle, hc⟩
    · have hfirst : isAsciiAlphaNumeric b = false := by
        have hno := not_isIdentifierByte_high hbhigh
        simp only [isIdentifierByte, Bool.or_eq_false_iff] at hno
        exact hno.1.1.1.1
      rw [encode_cons, hb, List.cons_append, validIdentifier, if_pos (.inr (by simp [hfirst]))]
      refine iff_of_false Bool.false_ne_true ?_
      rintro ⟨c', cs', heq, -, hc, -⟩
      cases heq
      exact absurd (isAlphaNumeric_lt hc) (Nat.not_lt.mpr hhigh)

theorem encode_ascii_bytes {bytes : Bytes} (h : ∀ b ∈ bytes, b.toNat < 0x80) :
    encode (bytes.map fun b => Char.ofNat b.toNat) = bytes := by
  induction bytes with
  | nil => rfl
  | cons b bytes ih =>
    obtain ⟨hb, hbytes⟩ := List.forall_mem_cons.mp h
    rw [List.map_cons, encode_cons, ih hbytes, (Go.encodeChar_ofNat hb).2]
    rfl

/-- Only ASCII texts are identifiers. -/
theorem exists_of_validIdentifier {id : Bytes} (h : validIdentifier id = true) :
    ∃ t, encode t = id ∧ IsIdentifier t := by
  have hascii : ∀ b ∈ id, b.toNat < 0x80 := by
    have hbyte : ∀ b, isIdentifierByte b = true → b.toNat < 0x80 := by
      intro b hb
      by_contra hhigh
      rw [not_isIdentifierByte_high (Nat.not_lt.mp hhigh)] at hb
      cases hb
    cases id with
    | nil => cases h
    | cons first rest =>
      rw [validIdentifier] at h
      split at h
      · cases h
      · rename_i hfirst
        rw [not_or, Bool.not_eq_true', Bool.not_eq_false] at hfirst
        refine List.forall_mem_cons.mpr ⟨hbyte first ?_, fun b hb => hbyte b (List.all_eq_true.mp h b hb)⟩
        simp [isIdentifierByte, hfirst.2]
  refine ⟨_, encode_ascii_bytes hascii, (validIdentifier_iff _).mp ?_⟩
  rw [encode_ascii_bytes hascii]
  exact h

/-- The decoder's own text check and the provider's are the same check. -/
theorem validScalarText_iff (field : String) (text : Bytes) (minimum maximum : Int)
    (rejectControls : Bool) :
    validScalarText text minimum maximum rejectControls = true ↔
      validateText field minimum maximum rejectControls text = none := by
  have hloop : ∀ (fuel length : Nat) (text : Bytes),
      validScalarTextLoop minimum maximum rejectControls fuel text length = true ↔
        validateTextLoop field minimum maximum rejectControls fuel text length = none := by
    intro fuel
    induction fuel with
    | zero => intro length text; simp [validScalarTextLoop, validateTextLoop]
    | succ fuel ih =>
      intro length text
      simp only [validScalarTextLoop, validateTextLoop]
      split
      · simp
      split
      · simp
      by_cases hmax : length + 1 > maximum
      · simp [hmax]
      by_cases hcontrol : (rejectControls && isUnsafeSourceCharacter (decodeRune text).1) = true
      · have hcontrol' : (rejectControls && isControlOrSeparator (decodeRune text).1) = true := hcontrol
        rw [if_pos (.inr hcontrol), if_neg hmax, if_pos hcontrol']
        simp
      · have hcontrol' : ¬ (rejectControls && isControlOrSeparator (decodeRune text).1) = true := hcontrol
        rw [if_neg (not_or.mpr ⟨hmax, hcontrol⟩), if_neg hmax, if_neg hcontrol', ih]
  exact hloop _ _ _


theorem isControlOrSeparator_iff (c : Char) : isControlOrSeparator c = true ↔ IsUnsafe c := by
  simp [isControlOrSeparator, IsUnsafe, or_assoc]

theorem validScalarText_encode (cs : List Char) (maximum : Nat) (rejectControls : Bool) :
    validScalarText (encode cs) 1 maximum rejectControls = true ↔
      IsContent maximum cs ∧ (rejectControls = true → ∀ c ∈ cs, ¬ IsUnsafe c) := by
  rw [validScalarText_iff "", validateText_none_iff]
  simp only [← isControlOrSeparator_iff, Bool.not_eq_true]
  constructor
  · rintro ⟨cs', heq, hmin, hmax, hsafe⟩
    rw [encode_injective heq] at hmin hmax hsafe
    exact ⟨⟨hmin, hmax⟩, hsafe⟩
  · rintro ⟨⟨hmin, hmax⟩, hsafe⟩
    exact ⟨cs, rfl, hmin, hmax, hsafe⟩

/-! ## Messages, instructions and capabilities -/

section Parts

variable {raw : RawMessage} {doc : Doc Char}

theorem names_nodup {ms : List (StrLit Char × Doc Char)} (h : (Doc.obj ms).UniqueNames scalars) :
    (ms.map fun kd => scalars kd.1).Nodup := ((Doc.uniqueNames_obj ms).mp h).1

theorem documentText_of {name : String} {text : List Char} (h : doc.textAt? name = some text) :
    documentText name doc = encode text := by rw [documentText, h, Option.getD_some]

/-- An object is decoded into its members; nothing else has fields at all. -/
theorem decodeObject_cases (h : JsonText raw doc.encode) (hnames : doc.UniqueNames scalars) :
    (decodeObject raw = none ∧ ∀ fields, ¬ doc.HasFields fields) ∨
      ∃ object ms, doc = .obj ms ∧ decodeObject raw = some object ∧ RawMembers object ms ∧
        (ms.map fun kd => scalars kd.1).Nodup := by
  have hobject := decodeObject_text h hnames
  cases hms : doc.members? with
  | none =>
    rw [hms] at hobject
    refine .inl ⟨hobject, fun fields hfields => ?_⟩
    obtain ⟨ms, hsome, -⟩ := hfields
    rw [hms] at hsome
    cases hsome
  | some ms =>
    rw [hms] at hobject
    obtain ⟨object, hdecode, hmembers⟩ := hobject
    cases doc with
    | obj ms' =>
      cases hms
      exact .inr ⟨object, ms, rfl, hdecode, hmembers, names_nodup hnames⟩
    | _ => cases hms

theorem decodeWireMessage_text (h : JsonText raw doc.encode) (hnames : doc.UniqueNames scalars)
    (message : Message) :
    decodeWireMessage raw = some message ↔ IsMessage doc ∧ message = documentMessage doc := by
  rcases decodeObject_cases h hnames with ⟨hnone, hno⟩ | ⟨object, ms, rfl, hdecode, hmembers, hnodup⟩
  · simp only [decodeWireMessage, hnone, reduceCtorEq, false_iff]
    exact fun hm => hno _ hm.1.fields
  have hexact := hasExactFields_iff hmembers hnodup ["role", "content"] (by decide)
  have hcheck : ∀ r c : List Char, ¬ ((encode r ≠ goString "user" ∧ encode r ≠ goString "assistant") ∨
      (!validScalarText (encode c) 1 maxMessageTextRunes false) = true) ↔
      (r = "user".toList ∨ r = "assistant".toList) ∧ IsContent 65536 c := by
    intro r c
    simp only [goString_eq_iff, not_or, not_and_or, not_not, ne_eq, Bool.not_eq_true',
      Bool.not_eq_false, validScalarText_encode, maxMessageTextRunes, Bool.false_eq_true,
      false_implies, and_true]
  -- the role is mapped to the provider's constant of the same text
  have hmapped : ∀ r : List Char, r = "user".toList ∨ r = "assistant".toList →
      (if encode r = goString "assistant" then messageRoleAssistant else messageRoleUser) = encode r := by
    rintro r (rfl | rfl)
    · exact if_neg (by rw [goString_eq_iff]; decide)
    · exact if_pos rfl
  simp only [decodeWireMessage, hdecode, decodeString_rawField hmembers]
  constructor
  · intro hm
    split at hm
    · cases hm
    rename_i hfields
    rw [Bool.not_eq_true', Bool.not_eq_false, hexact] at hfields
    split at hm
    · rename_i role content hrole hcontent
      obtain ⟨r, hr, rfl⟩ := Option.map_eq_some_iff.mp hrole
      obtain ⟨c, hc, rfl⟩ := Option.map_eq_some_iff.mp hcontent
      split at hm
      · cases hm
      rename_i hok
      obtain ⟨hvalid, htext⟩ := (hcheck r c).mp hok
      refine ⟨⟨hfields, ⟨r, hr, hvalid⟩, ⟨c, hc, htext⟩⟩, ?_⟩
      rw [documentMessage, documentText_of hr, documentText_of hc]
      rw [hmapped r hvalid] at hm
      exact (Option.some.inj hm).symm
    · cases hm
  · rintro ⟨⟨hfields, ⟨r, hr, hvalid⟩, ⟨c, hc, htext⟩⟩, rfl⟩
    rw [hexact.mpr hfields, hr, hc, documentMessage, documentText_of hr, documentText_of hc]
    simp only [Bool.not_true, Bool.false_eq_true, if_false, Option.map_some,
      if_neg ((hcheck r c).mpr ⟨hvalid, htext⟩), hmapped r hvalid]

theorem decodeWireInstruction_text (h : JsonText raw doc.encode) (hnames : doc.UniqueNames scalars)
    (instruction : Instruction) :
    decodeWireInstruction raw = some instruction ↔
      IsInstruction doc ∧ instruction = documentInstruction doc := by
  rcases decodeObject_cases h hnames with ⟨hnone, hno⟩ | ⟨object, ms, rfl, hdecode, hmembers, hnodup⟩
  · simp only [decodeWireInstruction, hnone, reduceCtorEq, false_iff]
    exact fun hi => hno _ hi.1.fields
  have hexact := hasExactFields_iff hmembers hnodup ["source", "content"] (by decide)
  have hcheck : ∀ s c : List Char,
      ¬ ((!validScalarText (encode s) 1 maxInstructionSourceRunes true) = true ∨
        (!validScalarText (encode c) 1 maxInstructionTextRunes false) = true) ↔
      IsSource s ∧ IsContent 65536 c := by
    intro s c
    simp only [not_or, Bool.not_eq_true', Bool.not_eq_false, validScalarText_encode, IsSource,
      maxInstructionSourceRunes, maxInstructionTextRunes, Bool.false_eq_true, false_implies, and_true,
      true_implies]
  simp only [decodeWireInstruction, hdecode, decodeString_rawField hmembers]
  constructor
  · intro hi
    split at hi
    · cases hi
    rename_i hfields
    rw [Bool.not_eq_true', Bool.not_eq_false, hexact] at hfields
    split at hi
    · rename_i source content hsource hcontent
      obtain ⟨s, hs, rfl⟩ := Option.map_eq_some_iff.mp hsource
      obtain ⟨c, hc, rfl⟩ := Option.map_eq_some_iff.mp hcontent
      split at hi
      · cases hi
      rename_i hok
      obtain ⟨hvalid, htext⟩ := (hcheck s c).mp hok
      refine ⟨⟨hfields, ⟨s, hs, hvalid⟩, ⟨c, hc, htext⟩⟩, ?_⟩
      rw [documentInstruction, documentText_of hs, documentText_of hc]
      exact (Option.some.inj hi).symm
    · cases hi
  · rintro ⟨⟨hfields, ⟨s, hs, hvalid⟩, ⟨c, hc, htext⟩⟩, rfl⟩
    rw [hexact.mpr hfields, hs, hc, documentInstruction, documentText_of hs, documentText_of hc]
    simp only [Bool.not_true, Bool.false_eq_true, if_false, Option.map_some,
      if_neg ((hcheck s c).mpr ⟨hvalid, htext⟩)]

theorem decodeWireCapability_text (h : JsonText raw doc.encode) (capability : Bytes) :
    decodeWireCapability raw = some capability ↔
      IsCapability doc ∧ capability = encode (doc.text?.getD []) := by
  rw [decodeWireCapability, decodeString_text h, IsCapability]
  cases doc.text? with
  | none => simp
  | some text =>
    simp only [Option.map_some, Option.getD_some, Option.some.injEq, toolCallsCapability, ne_eq,
      goString_eq_iff]
    split
    · rename_i hne
      exact iff_of_false (by simp) fun hc => hne hc.1
    · rename_i heq
      rw [not_not] at heq
      exact ⟨fun hc => ⟨heq, (Option.some.inj hc).symm⟩, fun hc => congrArg some hc.2.symm⟩

/-- Decoding the elements of an array one by one. -/
theorem decodeAll_text {α : Type} {decode : RawMessage → Option α} {P : Doc Char → Prop}
    {f : Doc Char → α} {raws : List RawMessage} {xs : List (Doc Char)} (h : RawElements raws xs)
    (hdecode : ∀ raw, ∀ x ∈ xs, JsonText raw x.encode → ∀ v, decode raw = some v ↔ P x ∧ v = f x)
    (vs : List α) :
    decodeAll decode raws = some vs ↔ (∀ x ∈ xs, P x) ∧ vs = xs.map f := by
  induction h generalizing vs with
  | nil => simp [decodeAll, eq_comm]
  | @cons raw x raws xs hx _ ih =>
    have hfirst := hdecode raw x List.mem_cons_self hx
    have hrest := ih fun raw y hy => hdecode raw y (List.mem_cons_of_mem _ hy)
    rw [decodeAll, List.forall_mem_cons, List.map_cons]
    cases hv : decode raw with
    | none =>
      refine iff_of_false (by simp) fun hall => ?_
      rw [(hfirst _).mpr ⟨hall.1.1, rfl⟩] at hv
      cases hv
    | some v =>
      obtain ⟨hP, rfl⟩ := (hfirst v).mp hv
      dsimp only
      cases hws : decodeAll decode raws with
      | none =>
        refine iff_of_false (by simp) fun hall => ?_
        rw [(hrest _).mpr ⟨hall.1.2, rfl⟩] at hws
        cases hws
      | some ws =>
        obtain ⟨hall, rfl⟩ := (hrest ws).mp hws
        simp only [Option.some.injEq, hP, true_and, eq_comm (a := vs)]
        exact ⟨fun h => ⟨hall, h⟩, fun h => h.2⟩

end Parts

/-! ## The whole request -/

/-- What a request document says, as the decoder returns it. -/
def documentRequest (doc : Doc Char) : WireRequest where
  requestId := documentText "request_id" doc
  modelAlias := documentText "model_alias" doc
  conversation := documentConversation doc
  instructions := documentInstructions doc
  requiredCapabilities := documentCapabilities doc

theorem uniqueNames_member {ms : List (StrLit Char × Doc Char)} (h : (Doc.obj ms).UniqueNames scalars)
    {name : String} {d : Doc Char} (hd : (Doc.obj ms).member? name = some d) :
    d.UniqueNames scalars := by
  rw [Doc.member?, Doc.members?, Option.bind_some] at hd
  obtain ⟨kd, hfind, rfl⟩ := Option.map_eq_some_iff.mp hd
  exact ((Doc.uniqueNames_obj ms).mp h).2 kd (List.mem_of_find?_eq_some hfind)

theorem uniqueNames_elements {ms : List (StrLit Char × Doc Char)}
    (h : (Doc.obj ms).UniqueNames scalars) {name : String} {xs : List (Doc Char)}
    (hxs : (Doc.obj ms).elementsAt? name = some xs) : ∀ x ∈ xs, x.UniqueNames scalars := by
  obtain ⟨d, hd, hxs⟩ := Option.bind_eq_some_iff.mp hxs
  have hunique := uniqueNames_member h hd
  cases d with
  | arr ys =>
    cases hxs
    exact (Doc.uniqueNames_arr _).mp hunique
  | _ => cases hxs

section Whole

variable {object : RawObject} {ms : List (StrLit Char × Doc Char)}

/-- An array member, decoded element by element. -/
theorem arrayField_text (hmembers : RawMembers object ms) (hnames : (Doc.obj ms).UniqueNames scalars)
    {α : Type} {decode : RawMessage → Option α} {P : Doc Char → Prop} {f : Doc Char → α}
    (hdecode : ∀ (raw : RawMessage) (x : Doc Char), JsonText raw x.encode → x.UniqueNames scalars →
      ∀ v, decode raw = some v ↔ P x ∧ v = f x) (name : String) :
    (decodeArray (rawField object name) = none ∧ (Doc.obj ms).elementsAt? name = none) ∨
      ∃ raws xs, decodeArray (rawField object name) = some raws ∧
        (Doc.obj ms).elementsAt? name = some xs ∧ raws.length = xs.length ∧
        ∀ vs, decodeAll decode raws = some vs ↔ (∀ x ∈ xs, P x) ∧ vs = xs.map f := by
  have harray := decodeArray_rawField hmembers name
  cases hxs : (Doc.obj ms).elementsAt? name with
  | none =>
    rw [hxs] at harray
    exact .inl ⟨harray, rfl⟩
  | some xs =>
    rw [hxs] at harray
    obtain ⟨raws, hraws, hall⟩ := harray
    refine .inr ⟨raws, xs, hraws, rfl, hall.length_eq, decodeAll_text hall fun raw x hx htext => ?_⟩
    exact hdecode raw x htext (uniqueNames_elements hnames hxs x hx)

/-- On the members of a document the decoder accepts exactly the v1 requests, and returns what they
say. -/
theorem decodeWireRequest_text (hmembers : RawMembers object ms)
    (hnames : (Doc.obj ms).UniqueNames scalars) (request : WireRequest) :
    decodeWireRequest object = some request ↔
      IsRequest (.obj ms) ∧ request = documentRequest (.obj ms) := by
  have hexact := hasExactFields_iff hmembers (names_nodup hnames) requestFields (by decide)
  have hconversation := arrayField_text hmembers hnames
    (fun raw x htext hx => decodeWireMessage_text htext hx) "conversation"
  have hinstructions := arrayField_text hmembers hnames
    (fun raw x htext hx => decodeWireInstruction_text htext hx) "instructions"
  have hcapabilities := arrayField_text hmembers hnames
    (fun raw x htext _ => decodeWireCapability_text htext) "required_capabilities"
  have hheader : ∀ v k i a : List Char,
      ¬ (encode v ≠ goString "v1" ∨ encode k ≠ goString "model_turn.request" ∨
        (!validIdentifier (encode i)) = true ∨ (!validIdentifier (encode a)) = true) ↔
      v = "v1".toList ∧ k = "model_turn.request".toList ∧ IsIdentifier i ∧ IsIdentifier a := by
    intro v k i a
    simp only [goString_eq_iff, not_or, not_not, ne_eq, Bool.not_eq_true', Bool.not_eq_false,
      validIdentifier_iff]
  simp only [decodeWireRequest, decodeString_rawField hmembers]
  constructor
  · -- a check that fails gives `none`, so each of them has passed, in the order of the source
    intro hr
    split at hr
    · cases hr
    rename_i hfields
    rw [Bool.not_eq_true', Bool.not_eq_false, hexact] at hfields
    split at hr
    swap
    · cases hr
    rename_i version kind requestId modelAlias hversion hkind hid halias
    obtain ⟨v, hv, rfl⟩ := Option.map_eq_some_iff.mp hversion
    obtain ⟨k, hk, rfl⟩ := Option.map_eq_some_iff.mp hkind
    obtain ⟨i, hi, rfl⟩ := Option.map_eq_some_iff.mp hid
    obtain ⟨a, ha, rfl⟩ := Option.map_eq_some_iff.mp halias
    split at hr
    · cases hr
    rename_i hok
    obtain ⟨hv1, hk1, hi1, ha1⟩ := (hheader v k i a).mp hok
    rcases hconversation with ⟨hnone, -⟩ | ⟨craws, cs, hcraws, hcs, hclen, hcall⟩
    · rw [hnone] at hr
      cases hr
    rw [hcraws] at hr
    dsimp only at hr
    split at hr
    · cases hr
    rename_i hccount
    split at hr
    · cases hr
    rename_i conversation hc
    obtain ⟨hcvalid, rfl⟩ := (hcall _).mp hc
    rcases hinstructions with ⟨hnone, -⟩ | ⟨iraws, is, hiraws, his, hilen, hiall⟩
    · rw [hnone] at hr
      cases hr
    rw [hiraws] at hr
    dsimp only at hr
    split at hr
    · cases hr
    rename_i hicount
    split at hr
    · cases hr
    rename_i instructions hins
    obtain ⟨hivalid, rfl⟩ := (hiall _).mp hins
    rcases hcapabilities with ⟨hnone, -⟩ | ⟨praws, ps, hpraws, hps, hplen, hpall⟩
    · rw [hnone] at hr
      cases hr
    rw [hpraws] at hr
    dsimp only at hr
    split at hr
    · cases hr
    rename_i hpcount
    split at hr
    · cases hr
    rename_i capabilities hcap
    obtain ⟨hpvalid, rfl⟩ := (hpall _).mp hcap
    simp only [maxConversationMessages, maxInstructions, maxRequiredCapabilities] at hccount hicount hpcount
    refine ⟨⟨hfields, ⟨v, hv, hv1⟩, ⟨k, hk, hk1⟩, ⟨i, hi, hi1⟩, ⟨a, ha, ha1⟩,
      ⟨cs, hcs, by omega, by omega, hcvalid⟩, ⟨is, his, by omega, hivalid⟩,
      ⟨ps, hps, by omega, hpvalid⟩⟩, ?_⟩
    rw [← Option.some.inj hr, documentRequest, documentText_of hi, documentText_of ha,
      documentConversation, documentInstructions, documentCapabilities, hcs, his, hps]
    rfl
  · rintro ⟨⟨hfields, ⟨v, hv, hv1⟩, ⟨k, hk, hk1⟩, ⟨i, hi, hi1⟩, ⟨a, ha, ha1⟩,
      ⟨cs, hcs, hcpos, hcle, hcvalid⟩, ⟨is, his, hile, hivalid⟩, ⟨ps, hps, hple, hpvalid⟩⟩, rfl⟩
    rw [hcs] at hconversation
    rw [his] at hinstructions
    rw [hps] at hcapabilities
    -- each field is there and holds an array, so it is decoded element by element
    obtain ⟨-, hsome⟩ | ⟨craws, cs', hcraws, hcs', hclen, hcall⟩ := hconversation
    · cases hsome
    obtain ⟨-, hsome⟩ | ⟨iraws, is', hiraws, his', hilen, hiall⟩ := hinstructions
    · cases hsome
    obtain ⟨-, hsome⟩ | ⟨praws, ps', hpraws, hps', hplen, hpall⟩ := hcapabilities
    · cases hsome
    cases hcs'
    cases his'
    cases hps'
    have hccount : ¬ (craws.length < 1 ∨ craws.length > maxConversationMessages) := by
      rw [hclen, maxConversationMessages]
      omega
    have hicount : ¬ iraws.length > maxInstructions := by
      rw [hilen, maxInstructions]
      omega
    have hpcount : ¬ praws.length > maxRequiredCapabilities := by
      rw [hplen, maxRequiredCapabilities]
      omega
    rw [hexact.mpr hfields, hv, hk, hi, ha, hcraws, hiraws, hpraws]
    simp only [Bool.not_true, Bool.false_eq_true, if_false, Option.map_some,
      if_neg ((hheader v k i a).mpr ⟨hv1, hk1, hi1, ha1⟩), if_neg hccount, if_neg hicount,
      if_neg hpcount, (hcall _).mpr ⟨hcvalid, rfl⟩, (hiall _).mpr ⟨hivalid, rfl⟩,
      (hpall _).mpr ⟨hpvalid, rfl⟩, documentRequest, documentText_of hi, documentText_of ha,
      documentConversation, documentInstructions, documentCapabilities, hcs, his, hps,
      Option.getD_some]

end Whole

/-! ## The provider request -/

theorem documentMessage_valid {doc : Doc Char} (h : IsMessage doc) : (documentMessage doc).Valid := by
  obtain ⟨-, ⟨role, hrole, hvalid⟩, ⟨content, hcontent, hmin, hmax⟩⟩ := h
  rw [documentMessage, documentText_of hrole, documentText_of hcontent]
  refine ⟨?_, content, rfl, hmin, hmax, fun hr => absurd hr Bool.false_ne_true⟩
  exact hvalid.imp (congrArg encode) (congrArg encode)

theorem documentInstruction_valid {doc : Doc Char} (h : IsInstruction doc) :
    (documentInstruction doc).Valid := by
  obtain ⟨-, ⟨source, hsource, ⟨hsmin, hsmax⟩, hsafe⟩, ⟨content, hcontent, hmin, hmax⟩⟩ := h
  rw [documentInstruction, documentText_of hsource, documentText_of hcontent]
  refine ⟨⟨source, rfl, hsmin, hsmax, fun _ c hc => ?_⟩,
    ⟨content, rfl, hmin, hmax, fun hr => absurd hr Bool.false_ne_true⟩⟩
  rw [← Bool.not_eq_true, isControlOrSeparator_iff]
  exact hsafe c hc

/-- The provider request of a document. -/
def providerRequest (doc : Doc Char) : Request :=
  ⟨documentConversation doc, documentInstructions doc, []⟩

/-- The provider's own checks refuse nothing that the decoder accepts without capabilities. -/
theorem mapProviderRequest_text {doc : Doc Char} (h : IsRequest doc)
    (hcapabilities : documentCapabilities doc = []) :
    mapProviderRequest (documentRequest doc) = some (providerRequest doc) := by
  obtain ⟨-, -, -, -, -, ⟨cs, hcs, hcpos, hcle, hcvalid⟩, ⟨is, his, hile, hivalid⟩, -⟩ := h
  have hconversation : documentConversation doc = cs.map documentMessage := by
    rw [documentConversation, hcs, Option.getD_some]
  have hinstructions : documentInstructions doc = is.map documentInstruction := by
    rw [documentInstructions, his, Option.getD_some]
  have hvalid : (providerRequest doc).Valid := by
    constructor
    · simpa [providerRequest, hconversation] using hcpos
    · simpa [providerRequest, hconversation, maxConversationMessages] using hcle
    · simpa [providerRequest, hinstructions, maxInstructions] using hile
    · exact Nat.zero_le _
    · simpa [providerRequest, hconversation] using fun x hx => documentMessage_valid (hcvalid x hx)
    · simpa [providerRequest, hinstructions] using fun x hx => documentInstruction_valid (hivalid x hx)
    · simp [providerRequest]
  have hcount : ¬ ((documentRequest doc).conversation.length < 1 ∨
      (documentRequest doc).conversation.length > maxConversationMessages ∨
      (documentRequest doc).instructions.length > maxInstructions ∨
      (documentRequest doc).requiredCapabilities.length ≠ 0) := by
    simp only [documentRequest, hcapabilities, hconversation, hinstructions, List.length_map,
      List.length_nil, maxConversationMessages, maxInstructions]
    omega
  rw [mapProviderRequest, if_neg hcount]
  have hnew := newRequest_ok hvalid
  simp only [providerRequest] at hnew
  simp only [documentRequest, hnew, providerRequest]

/-! ## Strict documents -/

/-- A document of the strict profile: names distinct, surrogates paired. -/
structure Clean (doc : Doc Char) : Prop where
  names : doc.UniqueNames codePoints
  surrogates : doc.AllStrings PairedSurrogates

theorem clean_of_profile {doc : Doc Char} (h : StrictProfile doc) : Clean doc := ⟨h.names, h.surrogates⟩

theorem Clean.element {xs : List (Doc Char)} (h : Clean (.arr xs)) {x : Doc Char} (hx : x ∈ xs) :
    Clean x :=
  ⟨(Doc.uniqueNames_arr _).mp h.names x hx, (Doc.allStrings_arr _).mp h.surrogates x hx⟩

theorem Clean.member {ms : List (StrLit Char × Doc Char)} (h : Clean (.obj ms))
    {m : StrLit Char × Doc Char} (hm : m ∈ ms) : Clean m.2 :=
  ⟨((Doc.uniqueNames_obj _).mp h.names).2 m hm, ((Doc.allStrings_obj _).mp h.surrogates m hm).2⟩

theorem Clean.member? {doc : Doc Char} (h : Clean doc) {name : String} {d : Doc Char}
    (hd : doc.member? name = some d) : Clean d := by
  obtain ⟨ms, hms, hd⟩ := Option.bind_eq_some_iff.mp hd
  obtain ⟨kd, hfind, rfl⟩ := Option.map_eq_some_iff.mp hd
  cases doc with
  | obj ms' =>
    cases hms
    exact h.member (List.mem_of_find?_eq_some hfind)
  | _ => cases hms

theorem Clean.name {ms : List (StrLit Char × Doc Char)} (h : Clean (.obj ms))
    {m : StrLit Char × Doc Char} (hm : m ∈ ms) : codePoints m.1 = (scalars m.1).map Char.toNat :=
  codePoints_eq_scalars ((Doc.allStrings_obj _).mp h.surrogates m hm).1

/-- The strict profile keeps names apart however they are decoded. -/
theorem Clean.scalarNames {doc : Doc Char} (h : Clean doc) : doc.UniqueNames scalars := by
  refine (Doc.uniqueNames_congr (fun s t hs ht => ?_) h.surrogates).mp h.names
  exact codePoints_inj hs ht

/-- A strict document is decoded into the members of its root, when that is an object. -/
theorem decodeObject_strict {raw : Bytes} {doc : Doc Char} (h : StrictDocument raw doc) :
    match doc.members? with
    | some ms => ∃ root, decodeObject raw = some root ∧ RawMembers root ms
    | none => decodeObject raw = none := by
  obtain ⟨text, rfl, htext, hprofile⟩ := h
  exact decodeObject_text (jsonText_encode.mpr ⟨_, htext, rfl⟩) (clean_of_profile hprofile).scalarNames

theorem rootMembers {raw : Bytes} {doc : Doc Char} (h : StrictDocument raw doc) {root : RawObject}
    (hroot : decodeObject raw = some root) : ∃ ms, doc = .obj ms ∧ RawMembers root ms := by
  have hdecode := decodeObject_strict h
  cases doc with
  | obj ms =>
    obtain ⟨object, hobject, hmembers⟩ := hdecode
    rw [hroot] at hobject
    exact ⟨ms, rfl, Option.some.inj hobject ▸ hmembers⟩
  | _ => rw [hroot] at hdecode; cases hdecode

end FastGate.ModelTurn
