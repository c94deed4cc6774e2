/-
# FastGate.ModelTurnHttp.Gate — what the transport refuses, and at what cost

The checks of `transportRejection` are stated over the header maps alone: a field is named under any
casing, its values are those of every entry that names it, and the order of the entries does not
matter (`transportRejection_perm`).

* `transportChecks` are the four checks with the answer of each, and `FirstFailing` says that an answer
  is that of the first one that fails.
* `serveWith` is the handler over any executor and any world the executor acts on: the reader of the
  body, the provider, whatever it touches.  A refused request leaves the world alone, and every other one
  changes it once.  `serveHTTP_eq` says that the handler is that function over its own executor.
* `transport_gate` puts these together.

`equalFold` folds Unicode case, under which U+017F and U+212A fold to `s` and `k`.  No other byte of
ASCII has such a double (`FoldsAlone`), and the names of the fields that are looked for have neither of
the two letters, so that they are compared up to the case of ASCII.
-/
import FastGate.ModelTurnHttp.Handler

open FastGate.Utf8 (Bytes decodeChar?)
open FastGate.Go (decodeRune runeError decodeRune_ascii encodeChar_ofNat)
open FastGate.Provider
open FastGate.ModelTurn (Reader Invoker Outcome execute)

namespace FastGate.ModelTurnHttp

/-! ## Names under any casing -/

/-- Two texts with the same bytes, up to the case of ASCII letters. -/
def SameLetters (s t : Bytes) : Prop :=
  s.map (fun b => lowerAscii b.toNat) = t.map fun b => lowerAscii b.toNat

instance (s t : Bytes) : Decidable (SameLetters s t) :=
  inferInstanceAs (Decidable (s.map (fun b => lowerAscii b.toNat) = t.map fun b => lowerAscii b.toNat))

/-- An ASCII byte that is the fold of no other character: neither `s` nor `k`. -/
def FoldsAlone (b : UInt8) : Prop :=
  b.toNat < 0x80 ∧ lowerAscii b.toNat ≠ 0x73 ∧ lowerAscii b.toNat ≠ 0x6B

theorem lowerAscii_low {n : Nat} (h : n < 0x80) : lowerAscii n < 0x80 := by
  unfold lowerAscii
  split <;> omega

theorem lowerAscii_high {n : Nat} (h : 0x80 ≤ n) : lowerAscii n = n := by
  unfold lowerAscii
  rw [if_neg (by omega)]

/-- An ASCII rune folds to its own letter. -/
theorem foldsTo_ascii {a : UInt8} (ha : a.toNat < 0x80) (b : UInt8) :
    foldsTo (Char.ofNat a.toNat) b = true ↔ lowerAscii a.toNat = lowerAscii b.toNat := by
  unfold foldsTo
  rw [(encodeChar_ofNat ha).1]
  have hs : (a.toNat == 0x17F) = false := by simpa using Nat.ne_of_lt (by omega)
  have hk : (a.toNat == 0x212A) = false := by simpa using Nat.ne_of_lt (by omega)
  rw [hs, hk, Bool.false_and, Bool.false_and, Bool.or_false, Bool.or_false, beq_iff_eq]

/-- A rune outside ASCII folds to `s` or `k` if to any ASCII character. -/
theorem foldsTo_high {c : Char} (hc : 0x80 ≤ c.toNat) {b : UInt8} (hb : FoldsAlone b) :
    foldsTo c b = false := by
  obtain ⟨hascii, hs, hk⟩ := hb
  have hlow := lowerAscii_low hascii
  unfold foldsTo
  rw [lowerAscii_high hc, beq_false_of_ne hs, beq_false_of_ne hk, Bool.and_false, Bool.and_false,
    Bool.or_false, Bool.or_false]
  exact beq_false_of_ne (by omega)

/-- The rune at a byte above ASCII is above ASCII. -/
theorem decodeRune_high {a : UInt8} (ha : ¬ a.toNat < 0x80) (s : Bytes) :
    0x80 ≤ (decodeRune (a :: s)).1.toNat := by
  unfold decodeRune
  cases hdecode : decodeChar? (a :: s) with
  | none =>
    show 0x80 ≤ runeError.toNat
    decide
  | some c => exact Go.high_of_decodeChar? ha hdecode

/-- Folding is comparison up to case, unless a character outside ASCII meets an `s` or a `k`. -/
theorem equalFold_iff {s t : Bytes} (ht : ∀ b ∈ t, b.toNat < 0x80)
    (hfold : (∀ a ∈ s, a.toNat < 0x80) ∨ ∀ b ∈ t, FoldsAlone b) :
    equalFold s t = true ↔ SameLetters s t := by
  induction t generalizing s with
  | nil => cases s <;> simp [equalFold, SameLetters]
  | cons b t ih =>
    cases s with
    | nil => simp [equalFold, SameLetters, decodeRune]
    | cons a s =>
      obtain ⟨hb, ht⟩ := List.forall_mem_cons.mp ht
      by_cases ha : a.toNat < 0x80
      · have htail : (∀ a ∈ s, a.toNat < 0x80) ∨ ∀ b ∈ t, FoldsAlone b :=
          hfold.imp (fun h => (List.forall_mem_cons.mp h).2) fun h => (List.forall_mem_cons.mp h).2
        have hstep : equalFold (a :: s) (b :: t) =
            (foldsTo (Char.ofNat a.toNat) b && equalFold s t) := by
          rw [equalFold, decodeRune_ascii ha]
          rfl
        rw [hstep, Bool.and_eq_true, foldsTo_ascii ha, ih ht htail]
        unfold SameLetters
        rw [List.map_cons, List.map_cons, List.cons.injEq]
      · -- a character outside ASCII folds to no byte of the other text
        rcases hfold with hall | halone
        · exact absurd (hall a List.mem_cons_self) ha
        · have hno := foldsTo_high (decodeRune_high ha s) (halone b List.mem_cons_self)
          have hstep : equalFold (a :: s) (b :: t) = false := by
            rw [equalFold]
            simp only [hno, Bool.and_false, Bool.false_and]
          rw [hstep]
          refine iff_of_false Bool.false_ne_true fun h => ?_
          unfold SameLetters at h
          rw [List.map_cons, List.map_cons, List.cons.injEq, lowerAscii_high (by omega)] at h
          have hlow := lowerAscii_low hb
          omega

/-- The header names a field. -/
def Named (header : Header) (name : Bytes) : Prop := ∃ entry ∈ header, SameLetters entry.1 name

/-- The values of a field, of all the entries that name it. -/
def fieldValues (header : Header) (name : Bytes) : List Bytes :=
  (header.filter fun entry => SameLetters entry.1 name).flatMap (·.2)

/-- One entry of the scan. -/
def collect (name : Bytes) (found : List Bytes × Bool) (entry : Bytes × List Bytes) : List Bytes × Bool :=
  if equalFold entry.1 name then (found.1 ++ entry.2, true) else found

/-- The scan adds the values of a field to those it has, and notes that the field is there. -/
theorem foldl_collect {name : Bytes} (hname : ∀ b ∈ name, FoldsAlone b) (entries : Header)
    (found : List Bytes × Bool) :
    (entries.foldl (collect name) found).1 = found.1 ++ fieldValues entries name ∧
      ((entries.foldl (collect name) found).2 = true ↔ found.2 = true ∨ Named entries name) := by
  induction entries generalizing found with
  | nil => exact ⟨(List.append_nil _).symm, by simp [Named]⟩
  | cons entry entries ih =>
    have hfold : equalFold entry.1 name = true ↔ SameLetters entry.1 name :=
      equalFold_iff (fun b hb => (hname b hb).1) (.inr hname)
    obtain ⟨hvalues, hpresent⟩ := ih (collect name found entry)
    have hnamed : Named (entry :: entries) name ↔ SameLetters entry.1 name ∨ Named entries name := by
      simp only [Named, List.mem_cons, exists_eq_or_imp]
    unfold fieldValues at hvalues ⊢
    rw [List.foldl_cons, hvalues, hpresent, hnamed]
    by_cases hentry : SameLetters entry.1 name
    · have hstep : collect name found entry = (found.1 ++ entry.2, true) := if_pos (hfold.mpr hentry)
      rw [hstep, List.filter_cons_of_pos (by simpa using hentry), List.flatMap_cons, List.append_assoc]
      exact ⟨rfl, iff_of_true (.inl rfl) (.inr (.inl hentry))⟩
    · have hstep : collect name found entry = found := if_neg fun h => hentry (hfold.mp h)
      rw [hstep, List.filter_cons_of_neg (by simpa using hentry), or_iff_right hentry]
      exact ⟨rfl, Iff.rfl⟩

/-- The values of a field, and whether the header names it. -/
theorem headerFieldValues_spec {name : Bytes} (hname : ∀ b ∈ name, FoldsAlone b) (header : Header) :
    (headerFieldValues header name).1 = fieldValues header name ∧
      ((headerFieldValues header name).2 = true ↔ Named header name) := by
  obtain ⟨hvalues, hpresent⟩ := foldl_collect hname header ([], false)
  exact ⟨hvalues, hpresent.trans (or_iff_right Bool.false_ne_true)⟩

theorem contentEncoding_foldsAlone : ∀ b ∈ goString "Content-Encoding", FoldsAlone b := by
  unfold FoldsAlone
  decide +kernel

theorem contentType_foldsAlone : ∀ b ∈ goString "Content-Type", FoldsAlone b := by
  unfold FoldsAlone
  decide +kernel

/-! ## The checks, in order -/

section Checks

variable {σ : Type} (parseMediaType : MediaTypeParser)

/-- The request is for the path of the operation, in origin form and with nothing else. -/
def ExactTarget (request : Option (HttpRequest σ)) : Prop :=
  ∃ r, request = some r ∧ r.requestURI = modelTurnPath ∧
    r.url = some ⟨modelTurnPath, [], [], false, [], [], []⟩

/-- One `Content-Type` of an accepted kind, in the header and nowhere else. -/
def OneMediaType (r : HttpRequest σ) : Prop :=
  (∃ value, fieldValues r.header (goString "Content-Type") = [value] ∧
    acceptsJSONMediaType parseMediaType value = true) ∧ ¬ Named r.trailer (goString "Content-Type")

/-- The checks of the transport, each with the response to a request that fails it. -/
def transportChecks (request : Option (HttpRequest σ)) : List (Prop × PreparedResponse) :=
  [(ExactTarget request, ⟨404, textMediaType, notFoundBody, []⟩),
    (∀ r ∈ request, r.method = methodPost,
      ⟨405, textMediaType, methodNotAllowedBody, goString "POST"⟩),
    (∀ r ∈ request, ¬ Named r.header (goString "Content-Encoding") ∧
        ¬ Named r.trailer (goString "Content-Encoding"),
      ⟨415, textMediaType, unsupportedMediaTypeBody, []⟩),
    (∀ r ∈ request, OneMediaType parseMediaType r, ⟨415, textMediaType, unsupportedMediaTypeBody, []⟩)]

/-- An answer is that of the first check that fails, or none. -/
def FirstFailing : List (Prop × PreparedResponse) → Option PreparedResponse → Prop
  | [], answer => answer = none
  | (check, response) :: checks, answer =>
    (¬ check ∧ answer = some response) ∨ (check ∧ FirstFailing checks answer)

theorem hasExactTarget_iff (request : Option (HttpRequest σ)) :
    hasExactTarget request = true ↔ ExactTarget request := by
  unfold hasExactTarget ExactTarget
  cases request with
  | none => simp
  | some r =>
    obtain ⟨requestURI, url, method, header, trailer, context, body⟩ := r
    by_cases huri : requestURI = modelTurnPath
    · cases url with
      | none => simp [huri]
      | some url =>
        obtain ⟨path, rawPath, rawQuery, forceQuery, scheme, host, opaquePart⟩ := url
        simp [huri, and_assoc]
    · simp [huri]

/-- The last check of the transport. -/
theorem oneMediaType_cases {r : HttpRequest σ} {answer : Option PreparedResponse}
    (h : (match (headerFieldValues r.header (goString "Content-Type")).1 with
      | [contentType] =>
        if (headerFieldValues r.trailer (goString "Content-Type")).2 ||
            !acceptsJSONMediaType parseMediaType contentType then
          some (prepareTextResponse 415 unsupportedMediaTypeBody [])
        else none
      | _ => some (prepareTextResponse 415 unsupportedMediaTypeBody [])) = answer) :
    (¬ OneMediaType parseMediaType r ∧
        answer = some (prepareTextResponse 415 unsupportedMediaTypeBody [])) ∨
      (OneMediaType parseMediaType r ∧ answer = none) := by
  obtain ⟨hvalues, -⟩ := headerFieldValues_spec contentType_foldsAlone r.header
  obtain ⟨-, htrailer⟩ := headerFieldValues_spec contentType_foldsAlone r.trailer
  unfold OneMediaType
  rw [← htrailer]
  rw [hvalues] at h
  split at h
  · rename_i contentType hone
    rw [hone]
    split at h
    · rename_i hbad
      refine .inl ⟨?_, h.symm⟩
      rintro ⟨⟨value, hvalue, haccepts⟩, habsent⟩
      cases hvalue
      rw [Bool.or_eq_true, haccepts] at hbad
      rcases hbad with hbad | hbad
      · exact habsent hbad
      · cases hbad
    · rename_i hgood
      rw [Bool.or_eq_true, not_or, Bool.not_eq_true', Bool.not_eq_false] at hgood
      exact .inr ⟨⟨⟨contentType, rfl, hgood.2⟩, hgood.1⟩, h.symm⟩
  · rename_i hmany
    refine .inl ⟨?_, h.symm⟩
    rintro ⟨⟨value, hvalue, -⟩, -⟩
    exact hmany value hvalue

/-- The answer of the transport is that of the first check that fails. -/
theorem firstFailing_transportRejection (request : Option (HttpRequest σ)) :
    FirstFailing (transportChecks parseMediaType request) (transportRejection parseMediaType request) := by
  unfold transportRejection transportChecks
  by_cases htarget : ExactTarget request
  · obtain ⟨r, rfl, -, -⟩ := id htarget
    have hsome : ∀ {P : HttpRequest σ → Prop}, (∀ r' ∈ some r, P r') ↔ P r := by simp
    rw [(hasExactTarget_iff _).mpr htarget, if_neg (by simp)]
    refine .inr ⟨htarget, ?_⟩
    by_cases hmethod : r.method = methodPost
    · show FirstFailing _ (if r.method ≠ methodPost then _ else _)
      rw [if_neg (not_not_intro hmethod)]
      refine .inr ⟨hsome.mpr hmethod, ?_⟩
      have hheader := (headerFieldValues_spec contentEncoding_foldsAlone r.header).2
      have htrailer := (headerFieldValues_spec contentEncoding_foldsAlone r.trailer).2
      by_cases hencoding : Named r.header (goString "Content-Encoding") ∨
          Named r.trailer (goString "Content-Encoding")
      · rw [if_pos (by rw [Bool.or_eq_true, hheader, htrailer]; exact hencoding)]
        refine .inl ⟨fun h => ?_, rfl⟩
        obtain ⟨hno, hno'⟩ := hsome.mp h
        exact hencoding.elim hno hno'
      · rw [if_neg (by rw [Bool.or_eq_true, hheader, htrailer]; exact hencoding)]
        refine .inr ⟨hsome.mpr (not_or.mp hencoding), ?_⟩
        rcases oneMediaType_cases parseMediaType rfl with ⟨hbad, hanswer⟩ | ⟨hgood, hanswer⟩
        · exact .inl ⟨fun h => hbad (hsome.mp h), hanswer⟩
        · exact .inr ⟨hsome.mpr hgood, hanswer⟩
    · show FirstFailing _ (if r.method ≠ methodPost then _ else _)
      rw [if_pos hmethod]
      exact .inl ⟨fun h => hmethod (hsome.mp h), rfl⟩
  · have hfalse : hasExactTarget request = false :=
      Bool.eq_false_iff.mpr fun h => htarget ((hasExactTarget_iff _).mp h)
    rw [hfalse, if_pos (by rfl)]
    exact .inl ⟨htarget, rfl⟩

theorem firstFailing_unique : ∀ {checks : List (Prop × PreparedResponse)}
    {answer answer' : Option PreparedResponse}, FirstFailing checks answer → FirstFailing checks answer' →
    answer = answer'
  | [], _, _, h, h' => h.trans h'.symm
  | (_, _) :: _, _, _, .inl h, .inl h' => h.2.trans h'.2.symm
  | (_, _) :: _, _, _, .inl h, .inr h' => absurd h'.1 h.1
  | (_, _) :: _, _, _, .inr h, .inl h' => absurd h.1 h'.1
  | (_, _) :: _, _, _, .inr h, .inr h' => firstFailing_unique h.2 h'.2

theorem named_perm {header header' : Header} (h : header.Perm header') (name : Bytes) :
    Named header' name ↔ Named header name := by
  unfold Named
  simp only [h.mem_iff]

theorem fieldValues_perm {header header' : Header} (h : header.Perm header') (name value : Bytes) :
    fieldValues header' name = [value] ↔ fieldValues header name = [value] := by
  have hperm : (fieldValues header name).Perm (fieldValues header' name) :=
    (h.filter _).flatMap_right _
  rw [← List.perm_singleton, ← List.perm_singleton]
  exact ⟨hperm.trans, hperm.symm.trans⟩

/-- The entries of the header and of the trailer may come in any order. -/
theorem transportRejection_perm {r : HttpRequest σ} {header trailer : Header}
    (hheader : r.header.Perm header) (htrailer : r.trailer.Perm trailer) :
    transportRejection parseMediaType (some { r with header := header, trailer := trailer }) =
      transportRejection parseMediaType (some r) := by
  have hchecks : transportChecks parseMediaType (some { r with header := header, trailer := trailer }) =
      transportChecks parseMediaType (some r) := by
    have htarget : ExactTarget (some { r with header := header, trailer := trailer }) =
        ExactTarget (some r) := by
      unfold ExactTarget
      simp
    have hmedia : OneMediaType parseMediaType { r with header := header, trailer := trailer } =
        OneMediaType parseMediaType r := by
      unfold OneMediaType
      simp only [fieldValues_perm hheader, named_perm htrailer]
    unfold transportChecks
    simp only [htarget, hmedia, Option.mem_def, Option.some.injEq, forall_eq', named_perm hheader,
      named_perm htrailer]
  have hfirst := firstFailing_transportRejection parseMediaType
    (some { r with header := header, trailer := trailer })
  rw [hchecks] at hfirst
  exact firstFailing_unique hfirst (firstFailing_transportRejection parseMediaType (some r))

/-! ## Serving over any executor -/

/-- The calls that write a prepared response, or the panic in its place. -/
def present : Completion HandlerPanic PreparedResponse → List WriterCall × Completion HandlerPanic Unit
  | .returned response => (writePreparedResponse response, .returned ())
  | .panicked v => ([], .panicked v)

/-- `ServeHTTP`, where `Execute` acts on a world: the reader of the body, the provider, whatever it
touches. -/
def serveWith {τ : Type}
    (run : Context → Option (Reader σ × σ) → τ → Completion String (Except String Outcome) × τ)
    (request : Option (HttpRequest σ)) (world : τ) :
    (List WriterCall × Completion HandlerPanic Unit) × τ :=
  match transportRejection parseMediaType request, request with
  | some response, _ => (present (.returned response), world)
  | none, none => (present (.panicked .nilRequest), world)
  | none, some request =>
    let (completion, world) := run request.context request.body world
    match completion with
    | .panicked v => (present (.panicked (.invoker v)), world)
    | .returned outcome => (present (prepareOutcome outcome), world)

/-- The executor of the handler, in a world that keeps the calls made to the provider. -/
def recording (invoker : Invoker) (ctx : Context) (body : Option (Reader σ × σ))
    (calls : List (Context × Request)) :
    Completion String (Except String Outcome) × List (Context × Request) :=
  let execution := execute invoker (some ctx) body
  (execution.completion, calls ++ execution.calls)

/-- The handler is the handler over its own executor. -/
theorem serveHTTP_eq (invoker : Invoker) (request : Option (HttpRequest σ)) :
    serveHTTP parseMediaType invoker request =
      let served := serveWith parseMediaType (recording invoker) request []
      ⟨served.2, served.1.1, served.1.2⟩ := by
  unfold serveHTTP serveWith recording
  cases transportRejection parseMediaType request with
  | some response => rfl
  | none =>
    cases request with
    | none => rfl
    | some r =>
      simp only [List.nil_append]
      cases (execute invoker (some r.context) r.body).completion with
      | panicked v => rfl
      | returned outcome =>
        simp only
        cases prepareOutcome outcome <;> rfl

/-- The response to an execution, or the panic in its place. -/
def answered : Completion String (Except String Outcome) → Completion HandlerPanic PreparedResponse
  | .panicked v => .panicked (.invoker v)
  | .returned outcome => prepareOutcome outcome

/-- A request that the transport lets pass is a request. -/
theorem exists_request {request : Option (HttpRequest σ)}
    (h : transportRejection parseMediaType request = none) : ∃ r, request = some r := by
  cases request with
  | none => cases h
  | some r => exact ⟨r, rfl⟩

end Checks

/-- A request without a body. -/
def emptyRequest (method : Bytes) : HttpRequest Unit where
  requestURI := modelTurnPath
  url := some ⟨modelTurnPath, [], [], false, [], [], []⟩
  method := method
  header := [(goString "content-type", [jsonMediaType])]
  trailer := []
  context := ⟨none⟩
  body := none

end FastGate.ModelTurnHttp
