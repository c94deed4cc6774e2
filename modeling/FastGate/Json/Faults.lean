/-
# FastGate.Json.Faults — where a parse with hooks stops

A text that is no JSON text can still be read up to some token, and a parser has called its hooks on
what it read by then.  `parseText_fault` bounds what can have gone wrong: as long as nothing that can
be read off the front of the text nests too deep and every number on the way is accepted, a failure
is one of syntax or of a finished object.

Nesting is counted for values: a value that stands inside `n` arrays and objects is nested `n` deep,
so an empty array that is nested `n` deep opens one container more without nesting any deeper.
-/
import FastGate.Json.Encode

namespace FastGate.Json

variable {α : Type}

/-! ## Nesting -/

/-- The number of containers open behind a token, with `n` open before it. -/
def openAfter (n : Nat) : Token α → Nat
  | .punct .beginArray | .punct .beginObject => n + 1
  | .punct .endArray | .punct .endObject => n - 1
  | _ => n

/-- A value or a name starts with this token. -/
def Token.Starts : Token α → Prop
  | .punct .beginArray | .punct .beginObject => True
  | .punct _ => False
  | _ => True

/-- No value among the tokens is nested deeper than `limit`, with `n` containers open before them, and
every number is one that `accepts` takes. -/
def Guarded (limit : Nat) (accepts : Number → Prop) : Nat → List (Token α) → Prop
  | _, [] => True
  | n, t :: ts =>
    ((t.Starts → n ≤ limit) ∧ ∀ m, t = .num m → accepts m) ∧ Guarded limit accepts (openAfter n t) ts

/-- How deep the values of a document are nested. -/
def Doc.nesting : Doc α → Nat
  | .null | .bool _ | .num _ | .str _ => 0
  | .arr xs => elements xs
  | .obj ms => members ms
where
  elements : List (Doc α) → Nat
    | [] => 0
    | x :: xs => max (x.nesting + 1) (elements xs)
  members : List (StrLit α × Doc α) → Nat
    | [] => 0
    | (_, d) :: ms => max (d.nesting + 1) (members ms)

theorem Doc.nesting_arr_le {n : Nat} (xs : List (Doc α)) :
    (arr xs).nesting ≤ n ↔ ∀ x ∈ xs, x.nesting + 1 ≤ n := by
  rw [nesting]
  induction xs with
  | nil => simp [nesting.elements]
  | cons x xs ih => simp only [nesting.elements, Nat.max_le, ih, List.forall_mem_cons]

theorem Doc.nesting_obj_le {n : Nat} (ms : List (StrLit α × Doc α)) :
    (obj ms).nesting ≤ n ↔ ∀ m ∈ ms, m.2.nesting + 1 ≤ n := by
  rw [nesting]
  induction ms with
  | nil => simp [nesting.members]
  | cons m ms ih => simp only [nesting.members, Nat.max_le, ih, List.forall_mem_cons]

/-- A value stands inside as many containers as are open around it. -/
theorem Doc.nesting_le_depth (d : Doc α) : d.nesting ≤ d.depth := by
  induction d using Doc.induct with
  | null => exact Nat.le_refl _
  | bool b => exact Nat.le_refl _
  | num n => exact Nat.le_refl _
  | str s => exact Nat.le_refl _
  | arr xs ih =>
    obtain ⟨n, hn⟩ := Nat.exists_eq_succ_of_ne_zero (Nat.ne_of_gt (depth_arr_pos xs))
    have hxs := (depth_arr_le xs).mp (Nat.le_of_eq hn)
    rw [hn, nesting_arr_le]
    exact fun x hx => Nat.succ_le_succ (Nat.le_trans (ih x hx) (hxs x hx))
  | obj ms ih =>
    obtain ⟨n, hn⟩ := Nat.exists_eq_succ_of_ne_zero (Nat.ne_of_gt (depth_obj_pos ms))
    have hms := (depth_obj_le ms).mp (Nat.le_of_eq hn)
    rw [hn, nesting_obj_le]
    exact fun m hm => Nat.succ_le_succ (Nat.le_trans (ih m hm) (hms m hm))

section Tokens

variable {limit n : Nat} {accepts : Number → Prop} {ts : List (Token α)}

/-- The same, counted from the containers that are open around the document. -/
theorem Doc.add_nesting_arr_le (xs : List (Doc α)) :
    n + (arr xs).nesting ≤ limit ↔ n ≤ limit ∧ ∀ x ∈ xs, n + 1 + x.nesting ≤ limit := by
  have h := nesting_arr_le (n := limit - n) xs
  constructor
  · intro hle
    have hxs := h.mp (by omega)
    exact ⟨by omega, fun x hx => by have := hxs x hx; omega⟩
  · rintro ⟨hn, hxs⟩
    have := h.mpr fun x hx => by have := hxs x hx; omega
    omega

theorem Doc.add_nesting_obj_le (ms : List (StrLit α × Doc α)) :
    n + (obj ms).nesting ≤ limit ↔ n ≤ limit ∧ ∀ m ∈ ms, n + 1 + m.2.nesting ≤ limit := by
  have h := nesting_obj_le (n := limit - n) ms
  constructor
  · intro hle
    have hms := h.mp (by omega)
    exact ⟨by omega, fun m hm => by have := hms m hm; omega⟩
  · rintro ⟨hn, hms⟩
    have := h.mpr fun m hm => by have := hms m hm; omega
    omega

/-- A token that is neither a bracket nor a brace leaves the containers as they are. -/
theorem guarded_separator {p : Punct} (hp : p = .valueSeparator ∨ p = .nameSeparator) :
    Guarded limit accepts n (.punct p :: ts) ↔ Guarded limit accepts n ts := by
  rcases hp with rfl | rfl <;> simp [Guarded, openAfter, Token.Starts]

theorem guarded_open {p : Punct} (hp : p = .beginArray ∨ p = .beginObject) :
    Guarded limit accepts n (.punct p :: ts) ↔ n ≤ limit ∧ Guarded limit accepts (n + 1) ts := by
  rcases hp with rfl | rfl <;> simp [Guarded, openAfter, Token.Starts]

theorem guarded_close {p : Punct} (hp : p = .endArray ∨ p = .endObject) :
    Guarded limit accepts (n + 1) (.punct p :: ts) ↔ Guarded limit accepts n ts := by
  rcases hp with rfl | rfl <;> simp [Guarded, openAfter, Token.Starts]

theorem guarded_name {k : StrLit α} :
    Guarded limit accepts n (.str k :: .punct .nameSeparator :: ts) ↔
      n ≤ limit ∧ Guarded limit accepts n ts := by
  simp [Guarded, openAfter, Token.Starts]

theorem Guarded.left {us : List (Token α)} :
    ∀ {n : Nat} {ts : List (Token α)}, Guarded limit accepts n (ts ++ us) → Guarded limit accepts n ts
  | _, [], _ => trivial
  | _, _ :: _, ⟨ht, hts⟩ => ⟨ht, left hts⟩

/-- What a document has to keep to when `n` containers are open around it. -/
def Doc.GuardedAt (limit : Nat) (accepts : Number → Prop) (n : Nat) (d : Doc α) : Prop :=
  n + d.nesting ≤ limit ∧ d.AllNumbers accepts

theorem Doc.guardedAt_arr (xs : List (Doc α)) :
    (arr xs).GuardedAt limit accepts n ↔
      n ≤ limit ∧ ∀ x ∈ xs, x.GuardedAt limit accepts (n + 1) := by
  simp only [GuardedAt, add_nesting_arr_le, allNumbers_arr, and_assoc, ← forall₂_and]

theorem Doc.guardedAt_obj (ms : List (StrLit α × Doc α)) :
    (obj ms).GuardedAt limit accepts n ↔
      n ≤ limit ∧ ∀ m ∈ ms, m.2.GuardedAt limit accepts (n + 1) := by
  simp only [GuardedAt, add_nesting_obj_le, allNumbers_obj, and_assoc, ← forall₂_and]

/-- The tokens of `d` are guarded exactly when `d` is, and past them the count is what it was. -/
def GuardsItself (limit : Nat) (accepts : Number → Prop) (d : Doc α) : Prop :=
  ∀ {n : Nat} {ts : List (Token α)}, Guarded limit accepts n (d.tokens ++ ts) ↔
    d.GuardedAt limit accepts n ∧ Guarded limit accepts n ts

theorem guarded_moreElements {xs : List (Doc α)} (hxs : ∀ x ∈ xs, GuardsItself limit accepts x) :
    Guarded limit accepts n (Doc.tokens.moreElements xs ++ ts) ↔
      (∀ x ∈ xs, x.GuardedAt limit accepts n) ∧ Guarded limit accepts n ts := by
  induction xs with
  | nil => simp [Doc.tokens.moreElements]
  | cons x xs ih =>
    obtain ⟨hx, hxs⟩ := List.forall_mem_cons.mp hxs
    rw [Doc.tokens.moreElements, List.cons_append, guarded_separator (.inl rfl), List.append_assoc,
      hx, ih hxs, List.forall_mem_cons, and_assoc]

/-- A name stands as deep as its value does. -/
theorem guarded_member {k : StrLit α} {d : Doc α} (hd : GuardsItself limit accepts d) :
    Guarded limit accepts n (.str k :: .punct .nameSeparator :: (d.tokens ++ ts)) ↔
      d.GuardedAt limit accepts n ∧ Guarded limit accepts n ts := by
  rw [guarded_name, hd]
  constructor
  · rintro ⟨-, h⟩
    exact h
  · rintro ⟨h, hts⟩
    have hle := h.1
    exact ⟨by omega, h, hts⟩

theorem guarded_moreMembers {ms : List (StrLit α × Doc α)}
    (hms : ∀ m ∈ ms, GuardsItself limit accepts m.2) :
    Guarded limit accepts n (Doc.tokens.moreMembers ms ++ ts) ↔
      (∀ m ∈ ms, m.2.GuardedAt limit accepts n) ∧ Guarded limit accepts n ts := by
  induction ms with
  | nil => simp [Doc.tokens.moreMembers]
  | cons m ms ih =>
    obtain ⟨hm, hms⟩ := List.forall_mem_cons.mp hms
    simp only [Doc.tokens.moreMembers, List.cons_append, guarded_separator (Or.inl rfl),
      List.append_assoc, guarded_member hm, ih hms, List.forall_mem_cons, and_assoc]

theorem Doc.guardsItself (d : Doc α) : GuardsItself limit accepts d := by
  induction d using Doc.induct with
  | null => simp [GuardsItself, tokens, GuardedAt, nesting, AllNumbers, Guarded, openAfter, Token.Starts]
  | bool b => simp [GuardsItself, tokens, GuardedAt, nesting, AllNumbers, Guarded, openAfter, Token.Starts]
  | num m => simp [GuardsItself, tokens, GuardedAt, nesting, AllNumbers, Guarded, openAfter, Token.Starts]
  | str s => simp [GuardsItself, tokens, GuardedAt, nesting, AllNumbers, Guarded, openAfter, Token.Starts]
  | arr xs ih =>
    intro n ts
    rw [tokens, List.cons_append, guarded_open (.inl rfl), guardedAt_arr, and_assoc,
      List.append_assoc, List.singleton_append]
    refine and_congr_right fun _ => ?_
    cases xs with
    | nil => simp [tokens.elements, guarded_close]
    | cons x xs =>
      obtain ⟨hx, hxs⟩ := List.forall_mem_cons.mp ih
      rw [tokens.elements, List.append_assoc, hx, guarded_moreElements hxs, guarded_close (.inl rfl),
        List.forall_mem_cons, and_assoc]
  | obj ms ih =>
    intro n ts
    rw [tokens, List.cons_append, guarded_open (.inr rfl), guardedAt_obj, and_assoc,
      List.append_assoc, List.singleton_append]
    refine and_congr_right fun _ => ?_
    cases ms with
    | nil => simp [tokens.members, guarded_close]
    | cons m ms =>
      obtain ⟨hm, hms⟩ := List.forall_mem_cons.mp ih
      simp only [tokens.members, List.cons_append, List.append_assoc, guarded_member hm,
        guarded_moreMembers hms, guarded_close (Or.inr rfl), List.forall_mem_cons, and_assoc]

theorem Doc.guarded_tokens (d : Doc α) :
    Guarded limit accepts n d.tokens ↔ d.GuardedAt limit accepts n := by
  have h : Guarded limit accepts n (d.tokens ++ []) ↔ _ ∧ _ := d.guardsItself
  rw [List.append_nil] at h
  exact h.trans (and_iff_left trivial)

/-- Rewriting the literals changes nothing. -/
theorem guarded_map {β : Type} (f : StrLit α → StrLit β) : ∀ {n : Nat} {ts : List (Token α)},
    Guarded limit accepts n (ts.map (Token.map f)) ↔ Guarded limit accepts n ts
  | _, [] => Iff.rfl
  | n, t :: ts => by
    have ht : openAfter n (t.map f) = openAfter n t ∧ ((t.map f).Starts ↔ t.Starts) ∧
        ∀ m, t.map f = .num m ↔ t = .num m := by
      cases t with
      | punct p => cases p <;> simp [Token.map, openAfter, Token.Starts]
      | _ => simp [Token.map, openAfter, Token.Starts]
    rw [List.map_cons, Guarded, Guarded, ht.1, ht.2.1, guarded_map f]
    simp only [ht.2.2]

end Tokens

/-! ## Texts -/

section Texts

variable [Symbol α] {limit n : Nat} {accepts : Number → Prop}

/-- Whatever can be read off the front of the text is guarded. -/
def GuardedText (limit : Nat) (accepts : Number → Prop) (n : Nat) (s : List α) : Prop :=
  ∀ ts r, Reads s ts r → Guarded limit accepts n ts

theorem GuardedText.next {s r : List α} {t : Token α} (h : GuardedText limit accepts n s)
    (hn : next s = .token t r) : ((t.Starts → n ≤ limit) ∧ ∀ m, t = .num m → accepts m) ∧
      GuardedText limit accepts (openAfter n t) r :=
  ⟨(h [t] r (reads_one.mpr hn)).1, fun _ _ hr => (h _ _ (.cons hn hr)).2⟩

theorem GuardedText.behind {s r : List α} {d : Doc α} (h : GuardedText limit accepts n s)
    (hd : Reads s d.tokens r) : GuardedText limit accepts n r := by
  intro ts r' hr
  exact (d.guardsItself.mp (h _ _ ((reads_append _).mpr ⟨r, hd, hr⟩))).2

theorem GuardedText.behind_member {s r : List α} {k : StrLit α} {d : Doc α}
    (h : GuardedText limit accepts n s)
    (hd : Reads s (.str k :: .punct .nameSeparator :: d.tokens) r) : GuardedText limit accepts n r := by
  intro ts r' hr
  exact ((guarded_member d.guardsItself).mp (h _ _ ((reads_append _).mpr ⟨r, hd, hr⟩))).2

/-- What can be read off a text whose tokens are known is a part of them. -/
theorem Lexes.append_of_reads {s r : List α} {us ts : List (Token α)} (h : Lexes s us)
    (hr : Reads s ts r) : ∃ vs, us = ts ++ vs := by
  induction hr generalizing us with
  | nil => exact ⟨us, rfl⟩
  | cons hn _ ih =>
    cases h with
    | eof heof => rw [heof] at hn; cases hn
    | token hn' hrest =>
      rw [hn'] at hn
      cases hn
      obtain ⟨vs, rfl⟩ := ih hrest
      exact ⟨vs, rfl⟩

/-- A JSON text is guarded exactly when its document is. -/
theorem guardedText_iff {s : List α} {d : Doc α} (h : JsonText s d) :
    GuardedText limit accepts n s ↔ d.GuardedAt limit accepts n := by
  have hlex := jsonText_iff_lexes.mp h
  rw [← d.guarded_tokens]
  constructor
  · intro hs
    obtain ⟨r, hr, -⟩ := lexes_iff_reads.mp hlex
    exact hs _ _ hr
  · intro hd ts r hr
    obtain ⟨vs, hvs⟩ := hlex.append_of_reads hr
    rw [hvs] at hd
    exact hd.left

/-! ### Encoded texts -/

/-- A document is guarded as its encoding is. -/
theorem Doc.guardedAt_encode (d : Doc Char) :
    d.encode.GuardedAt limit accepts n ↔ d.GuardedAt limit accepts n := by
  rw [← guarded_tokens, ← guarded_tokens, Doc.encode, Doc.tokens_map, guarded_map]

theorem reads_encode {s r : List Char} {ts : List (Token Char)} (h : Reads s ts r) :
    Reads (Utf8.encode s) (ts.map (Token.map StrLit.encode)) (Utf8.encode r) := by
  induction h with
  | nil => exact .nil
  | cons hn _ ih => exact .cons (by rw [next_encode, hn]; rfl) ih

theorem GuardedText.of_encode {s : List Char} (h : GuardedText limit accepts n (Utf8.encode s)) :
    GuardedText limit accepts n s :=
  fun _ _ hr => (guarded_map _).mp (h _ _ (reads_encode hr))

end Texts

/-! ## Faults -/

section Faults

variable {K V ε : Type} (h : Hooks α K V ε) {limit : Nat} {accepts : Number → Prop}

/-- A computation fails in its first part or behind it. -/
theorem bind_error_iff {ε β γ : Type} {x : Except ε β} {f : β → Except ε γ} {e : ε} :
    (x >>= f) = .error e ↔ x = .error e ∨ ∃ b, x = .ok b ∧ f b = .error e := by
  cases x with
  | error e => simp [bind, Except.bind]
  | ok b => simp [bind, Except.bind]

/-- The names of evaluated members are the names of the members. -/
theorem Doc.names_of_eval {ms : List (StrLit α × Doc α)} {depth : Nat} {vs : List (K × V)}
    (hvs : Doc.eval.members h depth ms = .ok vs) : vs.map Prod.fst = ms.map fun m => h.name m.1 := by
  induction ms generalizing vs with
  | nil => cases hvs; rfl
  | cons m ms ih =>
    obtain ⟨v, -, hmore⟩ := bind_ok_iff.mp hvs
    obtain ⟨vs', hvs', hcons⟩ := bind_ok_iff.mp hmore
    cases hcons
    rw [List.map_cons, List.map_cons, ih hvs']

/-- The number hook has accepted every number of a document that evaluates. -/
theorem Doc.allNumbers_of_eval (d : Doc α) : ∀ {depth : Nat} {v : V}, d.eval h depth = .ok v →
    d.AllNumbers fun m => ∃ v, h.num m = .ok v := by
  induction d using Doc.induct with
  | null => intro depth v _; trivial
  | bool b => intro depth v _; trivial
  | num m => intro depth v hv; exact ⟨v, hv⟩
  | str s => intro depth v _; trivial
  | arr xs ih =>
    have elements : ∀ {xs : List (Doc α)}, (∀ x ∈ xs, ∀ {depth v}, x.eval h depth = .ok v →
        x.AllNumbers fun m => ∃ v, h.num m = .ok v) → ∀ {depth vs},
        Doc.eval.elements h depth xs = .ok vs → ∀ x ∈ xs, x.AllNumbers fun m => ∃ v, h.num m = .ok v := by
      intro xs hxs depth vs hvs
      induction xs generalizing vs with
      | nil => exact fun x hx => absurd hx List.not_mem_nil
      | cons x xs ihxs =>
        obtain ⟨v, hv, hvs⟩ := bind_ok_iff.mp hvs
        obtain ⟨vs, hvs, -⟩ := bind_ok_iff.mp hvs
        obtain ⟨hx, hxs⟩ := List.forall_mem_cons.mp hxs
        exact List.forall_mem_cons.mpr ⟨hx hv, ihxs hxs hvs⟩
    intro depth v hv
    obtain ⟨_, -, hv⟩ := bind_ok_iff.mp hv
    obtain ⟨vs, hvs, -⟩ := bind_ok_iff.mp hv
    exact (allNumbers_arr xs).mpr (elements ih hvs)
  | obj ms ih =>
    have members : ∀ {ms : List (StrLit α × Doc α)}, (∀ m ∈ ms, ∀ {depth v},
        m.2.eval h depth = .ok v → m.2.AllNumbers fun m => ∃ v, h.num m = .ok v) → ∀ {depth vs},
        Doc.eval.members h depth ms = .ok vs →
          ∀ m ∈ ms, m.2.AllNumbers fun m => ∃ v, h.num m = .ok v := by
      intro ms hms depth vs hvs
      induction ms generalizing vs with
      | nil => exact fun m hm => absurd hm List.not_mem_nil
      | cons m ms ihms =>
        obtain ⟨v, hv, hvs⟩ := bind_ok_iff.mp hvs
        obtain ⟨vs, hvs, -⟩ := bind_ok_iff.mp hvs
        obtain ⟨hm, hms⟩ := List.forall_mem_cons.mp hms
        exact List.forall_mem_cons.mpr ⟨hm hv, ihms hms hvs⟩
    intro depth v hv
    obtain ⟨_, -, hv⟩ := bind_ok_iff.mp hv
    obtain ⟨vs, hvs, -⟩ := bind_ok_iff.mp hv
    exact (allNumbers_obj ms).mpr (members ih hvs)

variable [Symbol α]

/-- A fault of syntax or of a finished object. -/
def IsFault (e : ε) : Prop := e = h.syntaxError ∨ ∃ ms, h.obj ms = .error e

/-- What is guarded fails for the faults of `IsFault` only. -/
structure ParserFaults (limit : Nat) (accepts : Number → Prop) (fuel : Nat) : Prop where
  value : ∀ {depth s e}, GuardedText limit accepts depth s → parseValue h fuel depth s = .error e →
    IsFault h e
  elements : ∀ {depth s e}, GuardedText limit accepts depth s →
    parseElements h fuel depth s = .error e → IsFault h e
  member : ∀ {depth s e}, GuardedText limit accepts depth s →
    parseMember h fuel depth s = .error e → IsFault h e
  members : ∀ {depth s e}, GuardedText limit accepts depth s →
    parseMembers h fuel depth s = .error e → IsFault h e

theorem parserFaults (hnum : ∀ m, accepts m → ∃ v, h.num m = .ok v)
    (henter : ∀ m, m ≤ limit + 1 → h.enter m = .ok ()) (fuel : Nat) :
    ParserFaults h limit accepts fuel := by
  have hsyntax : ∀ {e : ε}, h.syntaxError = e → IsFault h e := fun he => .inl he.symm
  induction fuel with
  | zero =>
    exact ⟨fun _ he => hsyntax (by simpa [parseValue] using he),
      fun _ he => hsyntax (by simpa [parseElements] using he),
      fun _ he => hsyntax (by simpa [parseMember] using he),
      fun _ he => hsyntax (by simpa [parseMembers] using he)⟩
  | succ fuel ih =>
    have sound := parserSound h fuel
    -- `sound` says what was read, and the limits hold of what is behind it
    refine ⟨?_, ?_, ?_, ?_⟩
    · intro depth s e hs he
      rw [parseValue] at he
      split at he
      · cases he
      · cases he
      · rename_i m r hn
        obtain ⟨v, hv⟩ := hnum m ((hs.next hn).1.2 m rfl)
        rw [hv] at he
        cases he
      · cases he
      · rename_i r hn
        obtain ⟨⟨hle, -⟩, hr⟩ := hs.next hn
        rw [henter _ (Nat.succ_le_succ (hle trivial))] at he
        replace he := (bind_error_iff.mp he).resolve_left (by simp)
        obtain ⟨-, -, he⟩ := he
        split at he
        · cases he
        · rcases bind_error_iff.mp he with he | ⟨⟨v, r1⟩, hv, he⟩
          · exact ih.value hr he
          obtain ⟨x, -, hx⟩ := sound.value hv
          rcases bind_error_iff.mp he with he | ⟨_, _, he⟩
          · exact ih.elements (hr.behind hx) he
          · cases he
      · rename_i r hn
        obtain ⟨⟨hle, -⟩, hr⟩ := hs.next hn
        rw [henter _ (Nat.succ_le_succ (hle trivial))] at he
        replace he := (bind_error_iff.mp he).resolve_left (by simp)
        obtain ⟨-, -, he⟩ := he
        split at he
        · rcases bind_error_iff.mp he with he | ⟨_, _, he⟩
          · exact .inr ⟨_, he⟩
          · cases he
        · rcases bind_error_iff.mp he with he | ⟨⟨m, r1⟩, hm, he⟩
          · exact ih.member hr he
          obtain ⟨k, d, -, -, hd⟩ := sound.member hm
          rcases bind_error_iff.mp he with he | ⟨_, _, he⟩
          · exact ih.members (hr.behind_member hd) he
          rcases bind_error_iff.mp he with he | ⟨_, _, he⟩
          · exact .inr ⟨_, he⟩
          · cases he
      · exact hsyntax (Except.error.inj he)
    · intro depth s e hs he
      rw [parseElements] at he
      split at he
      · cases he
      · rename_i r hn
        have hr := (hs.next hn).2
        rcases bind_error_iff.mp he with he | ⟨⟨v, r1⟩, hv, he⟩
        · exact ih.value hr he
        obtain ⟨x, -, hx⟩ := sound.value hv
        rcases bind_error_iff.mp he with he | ⟨_, _, he⟩
        · exact ih.elements (hr.behind hx) he
        · cases he
      · exact hsyntax (Except.error.inj he)
    · intro depth s e hs he
      rw [parseMember] at he
      split at he
      · rename_i k r hn
        split at he
        · rename_i r1 hn1
          rcases bind_error_iff.mp he with he | ⟨_, _, he⟩
          · exact ih.value ((hs.next hn).2.next hn1).2 he
          · cases he
        · exact hsyntax (Except.error.inj he)
      · exact hsyntax (Except.error.inj he)
    · intro depth s e hs he
      rw [parseMembers] at he
      split at he
      · cases he
      · rename_i r hn
        have hr := (hs.next hn).2
        rcases bind_error_iff.mp he with he | ⟨⟨m, r1⟩, hm, he⟩
        · exact ih.member hr he
        obtain ⟨k, d, -, -, hd⟩ := sound.member hm
        rcases bind_error_iff.mp he with he | ⟨_, _, he⟩
        · exact ih.members (hr.behind_member hd) he
        · cases he
      · exact hsyntax (Except.error.inj he)

/-- A guarded text that does not parse breaks the syntax, or one of its objects is refused. -/
theorem parseText_fault (hnum : ∀ m, accepts m → ∃ v, h.num m = .ok v)
    (henter : ∀ m, m ≤ limit + 1 → h.enter m = .ok ()) {s : List α}
    (hs : GuardedText limit accepts 0 s) {e : ε} (he : parseText h s = .error e) : IsFault h e := by
  unfold parseText at he
  split at he
  · split at he
    · cases he
    · exact .inl (Except.error.inj he).symm
  · rename_i e' hv
    cases he
    exact (parserFaults h hnum henter _).value hs hv

end Faults

end FastGate.Json
