/-
# FastGate.Json.Parser — recursive descent with hooks

The parser both languages' JSON libraries run, with what they do at each value left open as `Hooks`:
building the value, checking the names of a finished object, refusing to nest any deeper.  A hook
that fails stops the parse there, so a fault of a hook can hide a later syntax error.

`Doc.eval` runs the same hooks over a document.  `parseText_of_jsonText` says that the parser does
exactly that on a JSON text, errors included, and `jsonText_of_parseText` that it succeeds on nothing
else; `JsonText.unique` is a corollary.
-/
import FastGate.Json.Text

namespace FastGate.Json

/-- What a parser does with the values it finds.  `K` is the type of names, `V` of values and `ε` of
errors; `enter` is called with the nesting depth of each container that is opened. -/
structure Hooks (α K V ε : Type) where
  syntaxError : ε
  enter : Nat → Except ε Unit
  name : StrLit α → K
  null : V
  bool : Bool → V
  num : Number → Except ε V
  str : StrLit α → V
  arr : List V → V
  obj : List (K × V) → Except ε V

section

variable {α K V ε : Type}

/-- Run the hooks over a document, in the order in which a parser meets its values. -/
def Doc.eval (h : Hooks α K V ε) (depth : Nat) : Doc α → Except ε V
  | .null => .ok h.null
  | .bool b => .ok (h.bool b)
  | .num n => h.num n
  | .str s => .ok (h.str s)
  | .arr xs => do
      h.enter (depth + 1)
      let vs ← elements h (depth + 1) xs
      return h.arr vs
  | .obj ms => do
      h.enter (depth + 1)
      let vs ← members h (depth + 1) ms
      h.obj vs
where
  elements (h : Hooks α K V ε) (depth : Nat) : List (Doc α) → Except ε (List V)
    | [] => .ok []
    | x :: xs => do
        let v ← x.eval h depth
        let vs ← elements h depth xs
        return v :: vs
  members (h : Hooks α K V ε) (depth : Nat) :
      List (StrLit α × Doc α) → Except ε (List (K × V))
    | [] => .ok []
    | (k, d) :: ms => do
        let v ← d.eval h depth
        let vs ← members h depth ms
        return (h.name k, v) :: vs

variable [Symbol α]

/-- The text after a given bracket or brace, if that is what comes next. -/
def closes? (p : Punct) (s : List α) : Option (List α) :=
  match next s with
  | .token (.punct q) r => if q = p then some r else none
  | _ => none

mutual

/-- One value. -/
def parseValue (h : Hooks α K V ε) : Nat → Nat → List α → Except ε (V × List α)
  | 0, _, _ => .error h.syntaxError
  | fuel + 1, depth, s =>
    match next s with
    | .token .null r => .ok (h.null, r)
    | .token (.bool b) r => .ok (h.bool b, r)
    | .token (.num n) r => do
        let v ← h.num n
        return (v, r)
    | .token (.str l) r => .ok (h.str l, r)
    | .token (.punct .beginArray) r => do
        h.enter (depth + 1)
        match closes? .endArray r with
        | some r => return (h.arr [], r)
        | none =>
          let (v, r) ← parseValue h fuel (depth + 1) r
          let (vs, r) ← parseElements h fuel (depth + 1) r
          return (h.arr (v :: vs), r)
    | .token (.punct .beginObject) r => do
        h.enter (depth + 1)
        match closes? .endObject r with
        | some r =>
          let v ← h.obj []
          return (v, r)
        | none =>
          let (m, r) ← parseMember h fuel (depth + 1) r
          let (ms, r) ← parseMembers h fuel (depth + 1) r
          let v ← h.obj (m :: ms)
          return (v, r)
    | _ => .error h.syntaxError

/-- The elements after the first, up to the closing bracket. -/
def parseElements (h : Hooks α K V ε) : Nat → Nat → List α → Except ε (List V × List α)
  | 0, _, _ => .error h.syntaxError
  | fuel + 1, depth, s =>
    match next s with
    | .token (.punct .endArray) r => .ok ([], r)
    | .token (.punct .valueSeparator) r => do
        let (v, r) ← parseValue h fuel depth r
        let (vs, r) ← parseElements h fuel depth r
        return (v :: vs, r)
    | _ => .error h.syntaxError

/-- A name, a colon and a value. -/
def parseMember (h : Hooks α K V ε) : Nat → Nat → List α → Except ε ((K × V) × List α)
  | 0, _, _ => .error h.syntaxError
  | fuel + 1, depth, s =>
    match next s with
    | .token (.str k) r =>
      match next r with
      | .token (.punct .nameSeparator) r => do
          let (v, r) ← parseValue h fuel depth r
          return ((h.name k, v), r)
      | _ => .error h.syntaxError
    | _ => .error h.syntaxError

/-- The members after the first, up to the closing brace. -/
def parseMembers (h : Hooks α K V ε) : Nat → Nat → List α → Except ε (List (K × V) × List α)
  | 0, _, _ => .error h.syntaxError
  | fuel + 1, depth, s =>
    match next s with
    | .token (.punct .endObject) r => .ok ([], r)
    | .token (.punct .valueSeparator) r => do
        let (m, r) ← parseMember h fuel depth r
        let (ms, r) ← parseMembers h fuel depth r
        return (m :: ms, r)
    | _ => .error h.syntaxError

end

/-- A whole text: one value and nothing but whitespace after it. -/
def parseText (h : Hooks α K V ε) (s : List α) : Except ε V :=
  match parseValue h (s.length + 1) 0 s with
  | .ok (v, r) => if r.all isWs then .ok v else .error h.syntaxError
  | .error e => .error e

end

/-! ## Reading tokens off the front of a text -/

section Reads

variable {α : Type} [Symbol α]

/-- Reading the tokens `ts` off `s` leaves `r`. -/
inductive Reads : List α → List (Token α) → List α → Prop
  | nil {s : List α} : Reads s [] s
  | cons {s m r : List α} {t : Token α} {ts : List (Token α)} :
      next s = .token t m → Reads m ts r → Reads s (t :: ts) r

theorem reads_nil {s r : List α} : Reads s [] r ↔ r = s := by
  constructor
  · intro h; cases h; rfl
  · rintro rfl; exact .nil

theorem reads_cons {s r : List α} {t : Token α} {ts : List (Token α)} :
    Reads s (t :: ts) r ↔ ∃ m, next s = .token t m ∧ Reads m ts r := by
  constructor
  · intro h
    cases h with
    | cons hn hm => exact ⟨_, hn, hm⟩
  · rintro ⟨m, hn, hm⟩
    exact .cons hn hm

theorem reads_append (ts : List (Token α)) {s r : List α} {us : List (Token α)} :
    Reads s (ts ++ us) r ↔ ∃ m, Reads s ts m ∧ Reads m us r := by
  induction ts generalizing s with
  | nil => simp [reads_nil]
  | cons t ts ih =>
    rw [List.cons_append, reads_cons]
    constructor
    · rintro ⟨m, hn, hm⟩
      obtain ⟨m', hts, hus⟩ := ih.mp hm
      exact ⟨m', .cons hn hts, hus⟩
    · rintro ⟨m', hts, hus⟩
      obtain ⟨m, hn, hm⟩ := reads_cons.mp hts
      exact ⟨m, hn, ih.mpr ⟨m', hm, hus⟩⟩

theorem reads_one {s r : List α} {t : Token α} : Reads s [t] r ↔ next s = .token t r := by
  simp [reads_cons, reads_nil]

theorem lexes_iff_reads {s : List α} {ts : List (Token α)} :
    Lexes s ts ↔ ∃ r, Reads s ts r ∧ next r = .eof := by
  constructor
  · intro h
    induction h with
    | eof h => exact ⟨_, .nil, h⟩
    | token h _ ih =>
      obtain ⟨r, hr, heof⟩ := ih
      exact ⟨r, .cons h hr, heof⟩
  · rintro ⟨r, hr, heof⟩
    induction hr with
    | nil => exact .eof heof
    | cons h _ ih => exact .token h (ih heof)

/-- What is read off the front of a text spells the tokens. -/
theorem Reads.spells {s r : List α} {ts : List (Token α)} (h : Reads s ts r) :
    ∃ p, s = p ++ r ∧ Spells p ts := by
  induction h with
  | nil => exact ⟨[], rfl, .nil rfl⟩
  | cons hn _ ih =>
    obtain ⟨w, l, rfl, hw, ht⟩ := next_sound hn
    obtain ⟨p, rfl, hp⟩ := ih
    exact ⟨w ++ (l ++ p), by simp, .cons hw ht hp⟩

theorem Reads.length_le {s r : List α} {ts : List (Token α)} (h : Reads s ts r) :
    ts.length + r.length ≤ s.length := by
  induction h with
  | nil => simp
  | cons hn _ ih =>
    have := length_lt_of_next hn
    simp only [List.length_cons]
    omega

theorem closes?_of_next {p : Punct} {s r : List α} (h : next s = .token (.punct p) r) :
    closes? p s = some r := by
  simp [closes?, h]

theorem next_of_closes? {p : Punct} {s r : List α} (h : closes? p s = some r) :
    next s = .token (.punct p) r := by
  unfold closes? at h
  split at h
  · rename_i q r' hn
    split at h
    · rename_i hq
      cases h
      rw [hn, hq]
    · cases h
  · cases h

/-- No document starts with a closing bracket. -/
theorem Doc.closes?_of_reads (d : Doc α) {s r : List α} (h : Reads s d.tokens r) :
    closes? .endArray s = none := by
  cases d <;> obtain ⟨r, h, -⟩ := reads_cons.mp h <;> simp [closes?, h]

end Reads

/-! ## The parser runs the hooks of what it reads -/

section Complete

variable {α K V ε : Type} [Symbol α] (h : Hooks α K V ε)

/-- At a value, the parser runs the hooks of the document and stops behind it. -/
def Parses (d : Doc α) : Prop :=
  ∀ (fuel depth : Nat) {s r : List α}, Reads s d.tokens r → d.tokens.length ≤ fuel →
    parseValue h fuel depth s = (d.eval h depth).map fun v => (v, r)

theorem parseElements_of_reads {xs : List (Doc α)} (hxs : ∀ x ∈ xs, Parses h x) :
    ∀ (fuel depth : Nat) {s r : List α},
      Reads s (Doc.tokens.moreElements xs ++ [.punct .endArray]) r →
      (Doc.tokens.moreElements xs).length < fuel →
      parseElements h fuel depth s = (Doc.eval.elements h depth xs).map fun vs => (vs, r) := by
  induction xs with
  | nil =>
    intro fuel depth s r hs hfuel
    obtain ⟨fuel, rfl⟩ := Nat.exists_eq_succ_of_ne_zero (Nat.ne_of_gt hfuel)
    simp [parseElements, reads_one.mp hs, Doc.eval.elements, Except.map]
  | cons x xs ih =>
    intro fuel depth s r hs hfuel
    obtain ⟨fuel, rfl⟩ := Nat.exists_eq_succ_of_ne_zero (Nat.ne_of_gt (Nat.zero_lt_of_lt hfuel))
    simp only [Doc.tokens.moreElements, List.cons_append, List.append_assoc, List.length_cons,
      List.length_append] at hs hfuel
    obtain ⟨r0, hn, hr0⟩ := reads_cons.mp hs
    obtain ⟨r1, hr1, hr⟩ := (reads_append _).mp hr0
    have hx := hxs x List.mem_cons_self fuel depth hr1 (by omega)
    have hmore := ih (fun y hy => hxs y (List.mem_cons_of_mem _ hy)) fuel depth hr (by omega)
    simp only [parseElements, hn, Doc.eval.elements, hx]
    cases x.eval h depth with
    | error e => rfl
    | ok v =>
      simp only [Except.map, bind, Except.bind, hmore]
      cases Doc.eval.elements h depth xs <;> rfl

theorem parseMember_of_reads {k : StrLit α} {d : Doc α} (hd : Parses h d) (fuel depth : Nat)
    {s r : List α} (hs : Reads s (.str k :: .punct .nameSeparator :: d.tokens) r)
    (hfuel : d.tokens.length < fuel) :
    parseMember h fuel depth s = (d.eval h depth).map fun v => ((h.name k, v), r) := by
  obtain ⟨fuel, rfl⟩ := Nat.exists_eq_succ_of_ne_zero (Nat.ne_of_gt (Nat.zero_lt_of_lt hfuel))
  obtain ⟨r0, hn0, hr0⟩ := reads_cons.mp hs
  obtain ⟨r1, hn1, hr1⟩ := reads_cons.mp hr0
  have hx := hd fuel depth hr1 (by omega)
  simp only [parseMember, hn0, hn1, hx]
  cases d.eval h depth <;> rfl

theorem parseMembers_of_reads {ms : List (StrLit α × Doc α)} (hms : ∀ m ∈ ms, Parses h m.2) :
    ∀ (fuel depth : Nat) {s r : List α},
      Reads s (Doc.tokens.moreMembers ms ++ [.punct .endObject]) r →
      (Doc.tokens.moreMembers ms).length < fuel →
      parseMembers h fuel depth s = (Doc.eval.members h depth ms).map fun vs => (vs, r) := by
  induction ms with
  | nil =>
    intro fuel depth s r hs hfuel
    obtain ⟨fuel, rfl⟩ := Nat.exists_eq_succ_of_ne_zero (Nat.ne_of_gt hfuel)
    simp [parseMembers, reads_one.mp hs, Doc.eval.members, Except.map]
  | cons m ms ih =>
    obtain ⟨k, d⟩ := m
    intro fuel depth s r hs hfuel
    obtain ⟨fuel, rfl⟩ := Nat.exists_eq_succ_of_ne_zero (Nat.ne_of_gt (Nat.zero_lt_of_lt hfuel))
    simp only [Doc.tokens.moreMembers, List.cons_append, List.append_assoc, List.length_cons,
      List.length_append] at hs hfuel
    obtain ⟨r0, hn, hr0⟩ := reads_cons.mp hs
    obtain ⟨r1, hr1, hr⟩ := (reads_append (.str k :: .punct .nameSeparator :: d.tokens)).mp hr0
    have hx := parseMember_of_reads h (hms _ List.mem_cons_self) fuel depth (d := d) hr1 (by omega)
    have hmore := ih (fun y hy => hms y (List.mem_cons_of_mem _ hy)) fuel depth hr (by omega)
    simp only [parseMembers, hn, Doc.eval.members, hx]
    cases d.eval h depth with
    | error e => rfl
    | ok v =>
      simp only [Except.map, bind, Except.bind, hmore]
      cases Doc.eval.members h depth ms <;> rfl

theorem Doc.parses (d : Doc α) : Parses h d := by
  induction d using Doc.induct with
  | null =>
    intro fuel depth s r hs hfuel
    obtain ⟨fuel, rfl⟩ := Nat.exists_eq_succ_of_ne_zero (Nat.ne_of_gt hfuel)
    simp [parseValue, reads_one.mp hs, Doc.eval, Except.map]
  | bool b =>
    intro fuel depth s r hs hfuel
    obtain ⟨fuel, rfl⟩ := Nat.exists_eq_succ_of_ne_zero (Nat.ne_of_gt hfuel)
    simp [parseValue, reads_one.mp hs, Doc.eval, Except.map]
  | num n =>
    intro fuel depth s r hs hfuel
    obtain ⟨fuel, rfl⟩ := Nat.exists_eq_succ_of_ne_zero (Nat.ne_of_gt hfuel)
    simp only [parseValue, reads_one.mp hs, Doc.eval]
    cases h.num n <;> rfl
  | str l =>
    intro fuel depth s r hs hfuel
    obtain ⟨fuel, rfl⟩ := Nat.exists_eq_succ_of_ne_zero (Nat.ne_of_gt hfuel)
    simp [parseValue, reads_one.mp hs, Doc.eval, Except.map]
  | arr xs ih =>
    intro fuel depth s r hs hfuel
    simp only [Doc.tokens, List.length_cons, List.length_append, List.length_nil] at hs hfuel
    obtain ⟨fuel, rfl⟩ := Nat.exists_eq_succ_of_ne_zero (Nat.ne_of_gt (Nat.zero_lt_of_lt hfuel))
    obtain ⟨r0, hn, hr0⟩ := reads_cons.mp hs
    cases xs with
    | nil =>
      simp only [parseValue, hn, closes?_of_next (reads_one.mp hr0), Doc.eval, Doc.eval.elements]
      cases h.enter (depth + 1) <;> rfl
    | cons x xs =>
      simp only [Doc.tokens.elements, List.append_assoc, List.length_append] at hr0 hfuel
      obtain ⟨r1, hr1, hr⟩ := (reads_append _).mp hr0
      have hx := ih x List.mem_cons_self fuel (depth + 1) hr1 (by omega)
      have hmore := parseElements_of_reads h (fun y hy => ih y (List.mem_cons_of_mem _ hy)) fuel
        (depth + 1) hr (by omega)
      simp only [parseValue, hn, x.closes?_of_reads hr1, Doc.eval, Doc.eval.elements, hx]
      cases h.enter (depth + 1) with
      | error e => rfl
      | ok _ =>
        cases x.eval h (depth + 1) with
        | error e => rfl
        | ok v =>
          simp only [Except.map, bind, Except.bind, hmore]
          cases Doc.eval.elements h (depth + 1) xs <;> rfl
  | obj ms ih =>
    intro fuel depth s r hs hfuel
    simp only [Doc.tokens, List.length_cons, List.length_append, List.length_nil] at hs hfuel
    obtain ⟨fuel, rfl⟩ := Nat.exists_eq_succ_of_ne_zero (Nat.ne_of_gt (Nat.zero_lt_of_lt hfuel))
    obtain ⟨r0, hn, hr0⟩ := reads_cons.mp hs
    cases ms with
    | nil =>
      simp only [parseValue, hn, closes?_of_next (reads_one.mp hr0), Doc.eval, Doc.eval.members]
      cases h.enter (depth + 1) with
      | error e => rfl
      | ok _ => simp only [bind, Except.bind]; cases h.obj [] <;> rfl
    | cons m ms =>
      obtain ⟨k, d⟩ := m
      simp only [Doc.tokens.members, List.cons_append, List.append_assoc, List.length_cons,
        List.length_append] at hr0 hfuel
      -- a member starts with a string, so the object does not end here
      have hn1 : closes? .endObject r0 = none := by
        obtain ⟨r', hn1, -⟩ := reads_cons.mp hr0
        simp [closes?, hn1]
      obtain ⟨r1, hr1, hr⟩ :=
        (reads_append (.str k :: .punct .nameSeparator :: d.tokens)).mp hr0
      have hx := parseMember_of_reads h (ih _ List.mem_cons_self) fuel (depth + 1) (d := d) hr1
        (by omega)
      have hmore := parseMembers_of_reads h (fun y hy => ih y (List.mem_cons_of_mem _ hy)) fuel
        (depth + 1) hr (by omega)
      simp only [parseValue, hn, hn1, Doc.eval, Doc.eval.members, hx]
      cases h.enter (depth + 1) with
      | error e => rfl
      | ok _ =>
        cases d.eval h (depth + 1) with
        | error e => rfl
        | ok v =>
          simp only [Except.map, bind, Except.bind, hmore]
          cases Doc.eval.members h (depth + 1) ms with
          | error e => rfl
          | ok vs => cases h.obj ((h.name k, v) :: vs) <;> rfl

/-- On a JSON text the parser does what its hooks do on the document. -/
theorem parseText_of_jsonText {s : List α} {d : Doc α} (hs : JsonText s d) :
    parseText h s = d.eval h 0 := by
  obtain ⟨r, hr, heof⟩ := lexes_iff_reads.mp (jsonText_iff_lexes.mp hs)
  have hlen := hr.length_le
  rw [parseText, d.parses h _ _ hr (by omega)]
  cases d.eval h 0 with
  | error e => rfl
  | ok v => simp [Except.map, next_eof.mp heof]

end Complete

/-! ## Nothing but JSON texts parses -/

section Sound

variable {α K V ε : Type}

theorem bind_ok_iff {ε β γ : Type} {x : Except ε β} {f : β → Except ε γ} {c : γ} :
    (x >>= f) = .ok c ↔ ∃ b, x = .ok b ∧ f b = .ok c := by
  cases x with
  | error e => simp [bind, Except.bind]
  | ok b => simp [bind, Except.bind]

variable [Symbol α] (h : Hooks α K V ε)

/-- A successful parse from `s` to `r` has read a document that evaluates to its result. -/
structure ParserSound (fuel : Nat) : Prop where
  value : ∀ {depth s v r}, parseValue h fuel depth s = .ok (v, r) →
    ∃ d : Doc α, d.eval h depth = .ok v ∧ Reads s d.tokens r
  elements : ∀ {depth s vs r}, parseElements h fuel depth s = .ok (vs, r) →
    ∃ xs : List (Doc α), Doc.eval.elements h depth xs = .ok vs ∧
      Reads s (Doc.tokens.moreElements xs ++ [.punct .endArray]) r
  member : ∀ {depth s m r}, parseMember h fuel depth s = .ok (m, r) →
    ∃ (k : StrLit α) (d : Doc α), h.name k = m.1 ∧ d.eval h depth = .ok m.2 ∧
      Reads s (.str k :: .punct .nameSeparator :: d.tokens) r
  members : ∀ {depth s ms r}, parseMembers h fuel depth s = .ok (ms, r) →
    ∃ ds : List (StrLit α × Doc α), Doc.eval.members h depth ds = .ok ms ∧
      Reads s (Doc.tokens.moreMembers ds ++ [.punct .endObject]) r

theorem parserSound (fuel : Nat) : ParserSound h fuel := by
  induction fuel with
  | zero =>
    exact ⟨fun hp => by simp [parseValue] at hp, fun hp => by simp [parseElements] at hp,
      fun hp => by simp [parseMember] at hp, fun hp => by simp [parseMembers] at hp⟩
  | succ fuel ih =>
    refine ⟨?_, ?_, ?_, ?_⟩
    · -- a value: the token decides; an array or an object is empty or starts with a value
      intro depth s v r hp
      rw [parseValue] at hp
      split at hp
      · rename_i hn
        cases hp
        exact ⟨.null, rfl, reads_one.mpr hn⟩
      · rename_i b r hn
        cases hp
        exact ⟨.bool b, rfl, reads_one.mpr hn⟩
      · rename_i n r hn
        obtain ⟨v, hv, hp⟩ := bind_ok_iff.mp hp
        cases hp
        exact ⟨.num n, hv, reads_one.mpr hn⟩
      · rename_i l r hn
        cases hp
        exact ⟨.str l, rfl, reads_one.mpr hn⟩
      · rename_i r0 hn
        obtain ⟨_, henter, hp⟩ := bind_ok_iff.mp hp
        split at hp
        · rename_i r1 hn1
          cases hp
          refine ⟨.arr [], ?_, .cons hn (reads_one.mpr (next_of_closes? hn1))⟩
          rw [Doc.eval, henter]
          rfl
        · obtain ⟨⟨v, r1⟩, hv, hp⟩ := bind_ok_iff.mp hp
          obtain ⟨⟨vs, r2⟩, hvs, hp⟩ := bind_ok_iff.mp hp
          cases hp
          obtain ⟨x, hx, hread⟩ := ih.value hv
          obtain ⟨xs, hxs, hmore⟩ := ih.elements hvs
          refine ⟨.arr (x :: xs), ?_, .cons hn ?_⟩
          · simp only [Doc.eval, Doc.eval.elements, henter, hx, hxs]
            rfl
          · rw [Doc.tokens.elements, List.append_assoc]
            exact (reads_append _).mpr ⟨_, hread, hmore⟩
      · rename_i r0 hn
        obtain ⟨_, henter, hp⟩ := bind_ok_iff.mp hp
        split at hp
        · rename_i r1 hn1
          obtain ⟨v, hv, hp⟩ := bind_ok_iff.mp hp
          cases hp
          refine ⟨.obj [], ?_, .cons hn (reads_one.mpr (next_of_closes? hn1))⟩
          rw [Doc.eval, henter]
          exact hv
        · obtain ⟨⟨m, r1⟩, hm, hp⟩ := bind_ok_iff.mp hp
          obtain ⟨⟨ms, r2⟩, hms, hp⟩ := bind_ok_iff.mp hp
          obtain ⟨v, hv, hp⟩ := bind_ok_iff.mp hp
          cases hp
          obtain ⟨k, d, hk, hd, hread⟩ := ih.member hm
          obtain ⟨ds, hds, hmore⟩ := ih.members hms
          refine ⟨.obj ((k, d) :: ds), ?_, .cons hn ?_⟩
          · simp only [Doc.eval, Doc.eval.members, henter, hd, hds, hk]
            exact hv
          · have hall := (reads_append _).mpr ⟨_, hread, hmore⟩
            simpa [Doc.tokens.members] using hall
      · cases hp
    · -- elements behind a comma, up to the closing bracket
      intro depth s vs r hp
      rw [parseElements] at hp
      split at hp
      · rename_i hn
        cases hp
        exact ⟨[], rfl, reads_one.mpr hn⟩
      · rename_i r0 hn
        obtain ⟨⟨v, r1⟩, hv, hp⟩ := bind_ok_iff.mp hp
        obtain ⟨⟨vs, r2⟩, hvs, hp⟩ := bind_ok_iff.mp hp
        cases hp
        obtain ⟨x, hx, hread⟩ := ih.value hv
        obtain ⟨xs, hxs, hmore⟩ := ih.elements hvs
        refine ⟨x :: xs, ?_, .cons hn ?_⟩
        · simp only [Doc.eval.elements, hx, hxs]
          rfl
        · have hall := (reads_append _).mpr ⟨_, hread, hmore⟩
          simpa [Doc.tokens.moreElements] using hall
      · cases hp
    · -- one member: a name, a colon and a value
      intro depth s m r hp
      rw [parseMember] at hp
      split at hp
      · rename_i k r0 hn
        split at hp
        · rename_i r1 hn1
          obtain ⟨⟨v, r2⟩, hv, hp⟩ := bind_ok_iff.mp hp
          cases hp
          obtain ⟨d, hd, hread⟩ := ih.value hv
          exact ⟨k, d, rfl, hd, .cons hn (.cons hn1 hread)⟩
        · cases hp
      · cases hp
    · -- members behind a comma, up to the closing brace
      intro depth s ms r hp
      rw [parseMembers] at hp
      split at hp
      · rename_i hn
        cases hp
        exact ⟨[], rfl, reads_one.mpr hn⟩
      · rename_i r0 hn
        obtain ⟨⟨m, r1⟩, hm, hp⟩ := bind_ok_iff.mp hp
        obtain ⟨⟨ms, r2⟩, hms, hp⟩ := bind_ok_iff.mp hp
        cases hp
        obtain ⟨k, d, hk, hd, hread⟩ := ih.member hm
        obtain ⟨ds, hds, hmore⟩ := ih.members hms
        refine ⟨(k, d) :: ds, ?_, .cons hn ?_⟩
        · simp only [Doc.eval.members, hd, hds, hk]
          rfl
        · have hall := (reads_append _).mpr ⟨_, hread, hmore⟩
          simpa [Doc.tokens.moreMembers] using hall
      · cases hp

/-- What parses is a JSON text, and the result is what the hooks make of its document. -/
theorem jsonText_of_parseText {s : List α} {v : V} (hp : parseText h s = .ok v) :
    ∃ d : Doc α, JsonText s d ∧ d.eval h 0 = .ok v := by
  rw [parseText] at hp
  split at hp
  · rename_i v' r hv
    split at hp
    · rename_i hws
      cases hp
      obtain ⟨d, hd, hread⟩ := (parserSound h _).value hv
      exact ⟨d, jsonText_iff_lexes.mpr (lexes_iff_reads.mpr ⟨r, hread, next_eof.mpr hws⟩), hd⟩
    · cases hp
  · cases hp

end Sound

/-! ## A text has one document -/

section Unique

variable {α : Type}

/-- The hooks that build the document itself. -/
def docHooks : Hooks α (StrLit α) (Doc α) Unit where
  syntaxError := ()
  enter _ := .ok ()
  name := id
  null := .null
  bool := .bool
  num n := .ok (.num n)
  str := .str
  arr := .arr
  obj ms := .ok (.obj ms)

theorem Doc.eval_docHooks (d : Doc α) (depth : Nat) : d.eval docHooks depth = .ok d := by
  induction d using Doc.induct generalizing depth with
  | null => rfl
  | bool b => rfl
  | num n => rfl
  | str s => rfl
  | arr xs ih =>
    have helements : Doc.eval.elements docHooks (depth + 1) xs = .ok xs := by
      induction xs with
      | nil => rfl
      | cons x xs ihxs =>
        rw [Doc.eval.elements, ih x List.mem_cons_self,
          ihxs fun y hy => ih y (List.mem_cons_of_mem _ hy)]
        rfl
    rw [Doc.eval, helements]
    rfl
  | obj ms ih =>
    have hmembers : Doc.eval.members docHooks (depth + 1) ms = .ok ms := by
      induction ms with
      | nil => rfl
      | cons m ms ihms =>
        rw [Doc.eval.members, ih m List.mem_cons_self,
          ihms fun y hy => ih y (List.mem_cons_of_mem _ hy)]
        rfl
    rw [Doc.eval, hmembers]
    rfl

variable [Symbol α]

theorem JsonText.unique {s : List α} {d d' : Doc α} (h : JsonText s d) (h' : JsonText s d') :
    d = d' := by
  have hd := parseText_of_jsonText docHooks h
  rw [parseText_of_jsonText docHooks h', Doc.eval_docHooks, Doc.eval_docHooks] at hd
  exact (Except.ok.inj hd).symm

end Unique

end FastGate.Json
