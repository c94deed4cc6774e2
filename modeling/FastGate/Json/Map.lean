/-
# FastGate.Json.Map — rewriting the literals of a document

`Doc.map f` rewrites every string literal of a document, names included, and keeps everything else.
It acts on tokens (`Doc.tokens_map`), and a rewritten token sequence that has the shape of a document
is the rewriting of one (`Doc.mapped`).
-/
import FastGate.Json.Doc

namespace FastGate.Json

variable {α β : Type}

/-- Rewrite the literals of a token. -/
def Token.map (f : StrLit α → StrLit β) : Token α → Token β
  | .punct p => .punct p
  | .null => .null
  | .bool b => .bool b
  | .num n => .num n
  | .str s => .str (f s)

/-- Rewrite the literals of a document, names included. -/
def Doc.map (f : StrLit α → StrLit β) : Doc α → Doc β
  | .null => .null
  | .bool b => .bool b
  | .num n => .num n
  | .str s => .str (f s)
  | .arr xs => .arr (elements xs)
  | .obj ms => .obj (members ms)
where
  elements : List (Doc α) → List (Doc β)
    | [] => []
    | x :: xs => x.map f :: elements xs
  members : List (StrLit α × Doc α) → List (StrLit β × Doc β)
    | [] => []
    | (k, d) :: ms => (f k, d.map f) :: members ms

@[simp] theorem Doc.map_arr (f : StrLit α → StrLit β) (xs : List (Doc α)) :
    (Doc.arr xs).map f = .arr (xs.map (Doc.map f)) := by
  show Doc.arr (Doc.map.elements f xs) = _
  congr 1
  induction xs with
  | nil => rfl
  | cons x xs ih =>
    show x.map f :: Doc.map.elements f xs = _
    rw [ih, List.map_cons]

@[simp] theorem Doc.map_obj (f : StrLit α → StrLit β) (ms : List (StrLit α × Doc α)) :
    (Doc.obj ms).map f = .obj (ms.map fun m => (f m.1, m.2.map f)) := by
  show Doc.obj (Doc.map.members f ms) = _
  congr 1
  induction ms with
  | nil => rfl
  | cons m ms ih =>
    show (f m.1, m.2.map f) :: Doc.map.members f ms = _
    rw [ih, List.map_cons]

theorem Doc.tokens_map (f : StrLit α → StrLit β) (d : Doc α) :
    (d.map f).tokens = d.tokens.map (Token.map f) := by
  induction d using Doc.induct with
  | null => rfl
  | bool b => rfl
  | num n => rfl
  | str s => rfl
  | arr xs ih =>
    have more : ∀ xs : List (Doc α), (∀ x ∈ xs, (x.map f).tokens = x.tokens.map (Token.map f)) →
        tokens.moreElements (xs.map (Doc.map f))
          = (tokens.moreElements xs).map (Token.map f) := by
      intro xs hxs
      induction xs with
      | nil => rfl
      | cons x xs ihxs =>
        obtain ⟨hx, hxs⟩ := List.forall_mem_cons.mp hxs
        simp [tokens.moreElements, hx, ihxs hxs, Token.map]
    cases xs with
    | nil => rfl
    | cons x xs =>
      obtain ⟨hx, hxs⟩ := List.forall_mem_cons.mp ih
      simp [tokens, tokens.elements, hx, more xs hxs, Token.map]
  | obj ms ih =>
    have more : ∀ ms : List (StrLit α × Doc α),
        (∀ m ∈ ms, (m.2.map f).tokens = m.2.tokens.map (Token.map f)) →
        tokens.moreMembers (ms.map fun m => (f m.1, m.2.map f))
          = (tokens.moreMembers ms).map (Token.map f) := by
      intro ms hms
      induction ms with
      | nil => rfl
      | cons m ms ihms =>
        obtain ⟨hm, hms⟩ := List.forall_mem_cons.mp hms
        simp [tokens.moreMembers, hm, ihms hms, Token.map]
    cases ms with
    | nil => rfl
    | cons m ms =>
      obtain ⟨hm, hms⟩ := List.forall_mem_cons.mp ih
      simp [tokens, tokens.members, hm, more ms hms, Token.map]

theorem Token.map_eq_punct {f : StrLit α → StrLit β} {t : Token α} {p : Punct} :
    t.map f = .punct p ↔ t = .punct p := by cases t <;> simp [Token.map]

/-- Rewritten tokens that start with those of `d'` are the tokens of a rewritten document. -/
def Doc.Mapped (f : StrLit α → StrLit β) (d' : Doc β) : Prop :=
  ∀ {ts : List (Token α)} {rest' : List (Token β)}, ts.map (Token.map f) = d'.tokens ++ rest' →
    ∃ (d : Doc α) (rest : List (Token α)),
      ts = d.tokens ++ rest ∧ d.map f = d' ∧ rest.map (Token.map f) = rest'

theorem Doc.mapped (f : StrLit α → StrLit β) (d' : Doc β) : Mapped f d' := by
  induction d' using Doc.induct with
  | null =>
    intro ts rest' h
    obtain ⟨t, rest, rfl, ht, hrest⟩ := List.map_eq_cons_iff.mp h
    cases t <;> simp [Token.map] at ht
    exact ⟨.null, rest, rfl, rfl, hrest⟩
  | bool b =>
    intro ts rest' h
    obtain ⟨t, rest, rfl, ht, hrest⟩ := List.map_eq_cons_iff.mp h
    cases t <;> simp [Token.map] at ht
    subst ht
    exact ⟨.bool _, rest, rfl, rfl, hrest⟩
  | num n =>
    intro ts rest' h
    obtain ⟨t, rest, rfl, ht, hrest⟩ := List.map_eq_cons_iff.mp h
    cases t <;> simp [Token.map] at ht
    subst ht
    exact ⟨.num _, rest, rfl, rfl, hrest⟩
  | str s =>
    intro ts rest' h
    obtain ⟨t, rest, rfl, ht, hrest⟩ := List.map_eq_cons_iff.mp h
    cases t <;> simp [Token.map] at ht
    exact ⟨.str _, rest, rfl, by rw [Doc.map, ht], hrest⟩
  | arr xs ih =>
    -- the elements behind the first one
    have more : ∀ xs : List (Doc β), (∀ x ∈ xs, Mapped f x) →
        ∀ {ts : List (Token α)} {rest' : List (Token β)},
        ts.map (Token.map f) = tokens.moreElements xs ++ rest' →
        ∃ (ys : List (Doc α)) (rest : List (Token α)), ts = tokens.moreElements ys ++ rest ∧ ys.map (Doc.map f) = xs ∧
          rest.map (Token.map f) = rest' := by
      intro xs
      induction xs with
      | nil => intro _ ts rest' h; exact ⟨[], ts, rfl, rfl, h⟩
      | cons x xs ihxs =>
        intro hx ts rest' h
        simp only [tokens.moreElements, List.cons_append, List.append_assoc] at h
        obtain ⟨t, ts, rfl, ht, h⟩ := List.map_eq_cons_iff.mp h
        obtain ⟨y, rest, rfl, rfl, hy⟩ := hx x List.mem_cons_self h
        obtain ⟨ys, rest, rfl, rfl, hys⟩ := ihxs (fun z hz => hx z (List.mem_cons_of_mem _ hz)) hy
        exact ⟨y :: ys, rest, by simp [tokens.moreElements, Token.map_eq_punct.mp ht], rfl, hys⟩
    intro ts rest' h
    simp only [tokens, List.cons_append, List.append_assoc, List.nil_append] at h
    obtain ⟨t, ts, rfl, ht, h⟩ := List.map_eq_cons_iff.mp h
    have ht := Token.map_eq_punct.mp ht
    cases xs with
    | nil =>
      obtain ⟨t', rest, rfl, ht', hrest⟩ := List.map_eq_cons_iff.mp h
      exact ⟨.arr [], rest, by simp [tokens, tokens.elements, ht, Token.map_eq_punct.mp ht'], rfl,
        hrest⟩
    | cons x xs =>
      simp only [tokens.elements, List.append_assoc] at h
      obtain ⟨y, rest, rfl, rfl, hy⟩ := ih x List.mem_cons_self h
      obtain ⟨ys, rest, rfl, rfl, hys⟩ := more xs (fun z hz => ih z (List.mem_cons_of_mem _ hz)) hy
      obtain ⟨t', rest, rfl, ht', hrest⟩ := List.map_eq_cons_iff.mp hys
      exact ⟨.arr (y :: ys), rest,
        by simp [tokens, tokens.elements, ht, Token.map_eq_punct.mp ht'], by simp, hrest⟩
  | obj ms ih =>
    -- a name, a colon and a value
    have member : ∀ (k' : StrLit β) (d' : Doc β), Mapped f d' →
        ∀ {ts : List (Token α)} {rest' : List (Token β)},
        ts.map (Token.map f) = .str k' :: .punct .nameSeparator :: (d'.tokens ++ rest') →
        ∃ (k : StrLit α) (d : Doc α) (rest : List (Token α)), ts = .str k :: .punct .nameSeparator :: (d.tokens ++ rest) ∧
          f k = k' ∧ d.map f = d' ∧ rest.map (Token.map f) = rest' := by
      intro k' d' hd ts rest' h
      obtain ⟨t, ts, rfl, ht, h⟩ := List.map_eq_cons_iff.mp h
      obtain ⟨t', ts, rfl, ht', h⟩ := List.map_eq_cons_iff.mp h
      obtain ⟨d, rest, rfl, rfl, hrest⟩ := hd h
      cases t <;> simp [Token.map] at ht
      exact ⟨_, d, rest, by rw [Token.map_eq_punct.mp ht'], ht, rfl, hrest⟩
    -- the members behind the first one
    have more : ∀ ms : List (StrLit β × Doc β),
        (∀ m ∈ ms, Mapped f m.2) →
        ∀ {ts : List (Token α)} {rest' : List (Token β)},
        ts.map (Token.map f) = tokens.moreMembers ms ++ rest' →
        ∃ (ns : List (StrLit α × Doc α)) (rest : List (Token α)), ts = tokens.moreMembers ns ++ rest ∧
          ns.map (fun m => (f m.1, m.2.map f)) = ms ∧ rest.map (Token.map f) = rest' := by
      intro ms
      induction ms with
      | nil => intro _ ts rest' h; exact ⟨[], ts, rfl, rfl, h⟩
      | cons m ms ihms =>
        intro hm ts rest' h
        simp only [tokens.moreMembers, List.cons_append, List.append_assoc] at h
        obtain ⟨t, ts, rfl, ht, h⟩ := List.map_eq_cons_iff.mp h
        obtain ⟨k, d, rest, rfl, hk, hd, hmore⟩ := member m.1 m.2 (hm m List.mem_cons_self) h
        obtain ⟨ns, rest, rfl, rfl, hns⟩ := ihms (fun z hz => hm z (List.mem_cons_of_mem _ hz)) hmore
        exact ⟨(k, d) :: ns, rest, by simp [tokens.moreMembers, Token.map_eq_punct.mp ht],
          by simp [hk, hd], hns⟩
    intro ts rest' h
    simp only [tokens, List.cons_append, List.append_assoc, List.nil_append] at h
    obtain ⟨t, ts, rfl, ht, h⟩ := List.map_eq_cons_iff.mp h
    have ht := Token.map_eq_punct.mp ht
    cases ms with
    | nil =>
      obtain ⟨t', rest, rfl, ht', hrest⟩ := List.map_eq_cons_iff.mp h
      exact ⟨.obj [], rest, by simp [tokens, tokens.members, ht, Token.map_eq_punct.mp ht'], rfl,
        hrest⟩
    | cons m ms =>
      simp only [tokens.members, List.cons_append, List.append_assoc] at h
      obtain ⟨k, d, rest, rfl, hk, hd, hmore⟩ := member m.1 m.2 (ih m List.mem_cons_self) h
      obtain ⟨ns, rest, rfl, rfl, hns⟩ := more ms (fun z hz => ih z (List.mem_cons_of_mem _ hz)) hmore
      obtain ⟨t', rest, rfl, ht', hrest⟩ := List.map_eq_cons_iff.mp hns
      exact ⟨.obj ((k, d) :: ns), rest,
        by simp [tokens, tokens.members, ht, Token.map_eq_punct.mp ht'], by simp [hk, hd], hrest⟩

/-! ## What rewriting preserves -/

theorem Doc.allStrings_map {P : StrLit β → Prop} (f : StrLit α → StrLit β) (d : Doc α) :
    (d.map f).AllStrings P ↔ d.AllStrings fun s => P (f s) := by
  induction d using Doc.induct with
  | null => exact Iff.rfl
  | bool b => exact Iff.rfl
  | num n => exact Iff.rfl
  | str s => exact Iff.rfl
  | arr xs ih => simpa using forall₂_congr ih
  | obj ms ih =>
    rw [Doc.map_obj, Doc.allStrings_obj, Doc.allStrings_obj, List.forall_mem_map]
    exact forall₂_congr fun m hm => and_congr_right fun _ => ih m hm

theorem Doc.uniqueNames_map {γ : Type} {name : StrLit β → γ} (f : StrLit α → StrLit β) (d : Doc α) :
    (d.map f).UniqueNames name ↔ d.UniqueNames fun s => name (f s) := by
  induction d using Doc.induct with
  | null => exact Iff.rfl
  | bool b => exact Iff.rfl
  | num n => exact Iff.rfl
  | str s => exact Iff.rfl
  | arr xs ih => simpa using forall₂_congr ih
  | obj ms ih =>
    rw [Doc.map_obj, Doc.uniqueNames_obj, Doc.uniqueNames_obj, List.map_map, List.forall_mem_map]
    exact and_congr_right fun _ => forall₂_congr ih

theorem Doc.depth_map (f : StrLit α → StrLit β) (d : Doc α) : (d.map f).depth = d.depth := by
  have hle : ∀ n, (d.map f).depth ≤ n ↔ d.depth ≤ n := by
    induction d using Doc.induct with
    | null => intro n; exact Iff.rfl
    | bool b => intro n; exact Iff.rfl
    | num n => intro n; exact Iff.rfl
    | str s => intro n; exact Iff.rfl
    | arr xs ih =>
      intro n
      rw [Doc.map_arr]
      cases n with
      | zero =>
        have h1 := Doc.depth_arr_pos (xs.map (Doc.map f))
        have h2 := Doc.depth_arr_pos xs
        omega
      | succ n =>
        rw [Doc.depth_arr_le, Doc.depth_arr_le, List.forall_mem_map]
        exact forall₂_congr fun x hx => ih x hx n
    | obj ms ih =>
      intro n
      rw [Doc.map_obj]
      cases n with
      | zero =>
        have h1 := Doc.depth_obj_pos (ms.map fun m => (f m.1, m.2.map f))
        have h2 := Doc.depth_obj_pos ms
        omega
      | succ n =>
        rw [Doc.depth_obj_le, Doc.depth_obj_le, List.forall_mem_map]
        exact forall₂_congr fun m hm => ih m hm n
  exact Nat.le_antisymm ((hle _).mpr (Nat.le_refl _)) ((hle _).mp (Nat.le_refl _))

/-- Two readings of names agree on what is unique if they identify the same literals. -/
theorem Doc.uniqueNames_congr {γ δ : Type} {P : StrLit α → Prop} {f : StrLit α → γ}
    {g : StrLit α → δ} (hfg : ∀ s t, P s → P t → (f s = f t ↔ g s = g t)) {d : Doc α}
    (hd : d.AllStrings P) : d.UniqueNames f ↔ d.UniqueNames g := by
  induction d using Doc.induct with
  | null => exact Iff.rfl
  | bool b => exact Iff.rfl
  | num n => exact Iff.rfl
  | str s => exact Iff.rfl
  | arr xs ih =>
    rw [Doc.allStrings_arr] at hd
    simpa using forall₂_congr fun x hx => ih x hx (hd x hx)
  | obj ms ih =>
    rw [Doc.allStrings_obj] at hd
    rw [Doc.uniqueNames_obj, Doc.uniqueNames_obj, List.Nodup, List.Nodup, List.pairwise_map,
      List.pairwise_map]
    refine and_congr (List.Pairwise.iff_of_mem fun ha hb => ?_)
      (forall₂_congr fun m hm => ih m hm (hd m hm).2)
    exact not_congr (hfg _ _ (hd _ ha).1 (hd _ hb).1)

end FastGate.Json
