/-
# FastGate.Json.Edges — the two ends of a JSON text

A JSON text is a value between two runs of whitespace (`JsonText.bare`).  The value itself starts and
ends with visible ASCII symbols, and the first one tells which kind of value it is: this is what
programs look at when they choose how to decode a value they have not parsed yet.
-/
import FastGate.Json.Doc

namespace FastGate.Json

variable {α : Type} [Symbol α]

/-- A symbol in the range of visible ASCII. -/
def IsVisible (a : α) : Prop := 0x21 ≤ code a ∧ code a < 0x7F

/-- The list starts and ends with visible symbols. -/
def VisibleEdges (l : List α) : Prop :=
  (∃ a, l.head? = some a ∧ IsVisible a) ∧ ∃ b, l.getLast? = some b ∧ IsVisible b

theorem visibleEdges_of {a b : α} {l s t : List α} (ha : l = a :: s) (hb : l = t ++ [b])
    (hva : IsVisible a) (hvb : IsVisible b) : VisibleEdges l :=
  ⟨⟨a, by rw [ha, List.head?_cons], hva⟩, ⟨b, by rw [hb, List.getLast?_concat], hvb⟩⟩

theorem isVisible_digit {a : α} {d : Nat} (h : DigitSym a d) : IsVisible a := by
  obtain ⟨hd, ha⟩ := h
  simp only [IsVisible]
  omega

/-! ## Tokens -/

/-- A nonempty run of digits ends with a digit. -/
theorem digits_last {l : List α} {d : Nat} {ds : List Nat}
    (h : List.Forall₂ DigitSym l (d :: ds)) : ∃ t b, l = t ++ [b] ∧ IsVisible b := by
  induction ds generalizing l d with
  | nil =>
    obtain ⟨a, _, ha, hnil, rfl⟩ := List.forall₂_cons_right_iff.mp h
    cases hnil
    exact ⟨[], a, rfl, isVisible_digit ha⟩
  | cons d' ds ih =>
    obtain ⟨a, l', _, hl, rfl⟩ := List.forall₂_cons_right_iff.mp h
    obtain ⟨t, b, rfl, hb⟩ := ih hl
    exact ⟨a :: t, b, rfl, hb⟩

theorem IntLexeme.last {l : List α} {ds : List Nat} (h : IntLexeme l ds) :
    ∃ t b, l = t ++ [b] ∧ IsVisible b := by
  cases h with
  | @zero a ha => exact ⟨[], a, rfl, by simp [IsVisible, ha]⟩
  | digits hds _ => exact digits_last hds

theorem FracLexeme.last {l : List α} {ds : List Nat} (h : FracLexeme l ds) :
    l = [] ∨ ∃ t b, l = t ++ [b] ∧ IsVisible b := by
  cases h with
  | absent => exact .inl rfl
  | @present p _ _ _ _ hds =>
    obtain ⟨t, b, rfl, hb⟩ := digits_last hds
    exact .inr ⟨p :: t, b, rfl, hb⟩

theorem ExpLexeme.last {l : List α} {x : Int} (h : ExpLexeme l x) :
    l = [] ∨ ∃ t b, l = t ++ [b] ∧ IsVisible b := by
  cases h with
  | absent => exact .inl rfl
  | @unsigned e _ _ _ _ hds =>
    obtain ⟨t, b, rfl, hb⟩ := digits_last hds
    exact .inr ⟨e :: t, b, rfl, hb⟩
  | @plus e s _ _ _ _ _ hds =>
    obtain ⟨t, b, rfl, hb⟩ := digits_last hds
    exact .inr ⟨e :: s :: t, b, rfl, hb⟩
  | @minus e s _ _ _ _ _ hds =>
    obtain ⟨t, b, rfl, hb⟩ := digits_last hds
    exact .inr ⟨e :: s :: t, b, rfl, hb⟩

/-- A number ends with a digit: of its exponent, its fraction or its integer part. -/
theorem magnitude_last {i f e : List α} {int frac : List Nat} {x : Int} (hi : IntLexeme i int)
    (hf : FracLexeme f frac) (he : ExpLexeme e x) :
    ∃ t b, i ++ (f ++ e) = t ++ [b] ∧ IsVisible b := by
  rcases he.last with rfl | ⟨t, b, rfl, hb⟩
  · rcases hf.last with rfl | ⟨t, b, rfl, hb⟩
    · obtain ⟨t, b, rfl, hb⟩ := hi.last
      exact ⟨t, b, by simp, hb⟩
    · exact ⟨i ++ t, b, by simp, hb⟩
  · exact ⟨i ++ (f ++ t), b, by simp, hb⟩

theorem NumberLexeme.visibleEdges {l : List α} {n : Number} (h : NumberLexeme l n) :
    VisibleEdges l := by
  obtain ⟨a, s, hhead, ha⟩ := h.head
  have hva : IsVisible a := by simp only [IsVisible]; omega
  cases h with
  | unsigned hi hf he =>
    obtain ⟨t, b, hlast, hb⟩ := magnitude_last hi hf he
    exact visibleEdges_of hhead hlast hva hb
  | @minus m _ _ _ _ _ _ _ hi hf he =>
    obtain ⟨t, b, hlast, hb⟩ := magnitude_last hi hf he
    exact visibleEdges_of (t := m :: t) hhead (by rw [hlast, List.cons_append]) hva hb

/-- The codes of a literal name are visible ones. -/
theorem visibleEdges_of_codes {l : List α} {ns : List Nat} (h : l.map code = ns)
    (hne : ns ≠ []) (hns : ∀ n ∈ ns, 0x21 ≤ n ∧ n < 0x7F) : VisibleEdges l := by
  subst h
  have hvis : ∀ a ∈ l, IsVisible a := fun a ha => hns _ (List.mem_map_of_mem ha)
  have hl : l ≠ [] := fun hnil => hne (by rw [hnil, List.map_nil])
  exact ⟨⟨l.head hl, List.head?_eq_some_head hl, hvis _ (List.head_mem hl)⟩,
    ⟨l.getLast hl, List.getLast?_eq_some_getLast hl, hvis _ (List.getLast_mem hl)⟩⟩

theorem TokenLexeme.visibleEdges {l : List α} {t : Token α} (h : TokenLexeme l t) :
    VisibleEdges l := by
  cases h with
  | @punct a p ha =>
    have hv : IsVisible a := by cases p <;> simp [IsVisible, ha, Punct.symbol]
    exact visibleEdges_of (t := []) rfl rfl hv hv
  | literalNull hl => exact visibleEdges_of_codes hl (by simp) (by decide)
  | literalTrue hl => exact visibleEdges_of_codes hl (by simp) (by decide)
  | literalFalse hl => exact visibleEdges_of_codes hl (by simp) (by decide)
  | num hn => exact hn.visibleEdges
  | @str o c l _ ho _ hc =>
    exact visibleEdges_of (t := o :: l) rfl rfl (by simp [IsVisible, ho]) (by simp [IsVisible, hc])

/-! ## Texts -/

/-- Whitespace can be cut off behind the last token. -/
theorem Spells.cut_end {s : List α} {ts : List (Token α)} (h : Spells s ts) (hne : ts ≠ []) :
    ∃ v w', s = v ++ w' ∧ w'.all isWs = true ∧ Spells v ts ∧
      ∃ b, v.getLast? = some b ∧ IsVisible b := by
  induction h with
  | nil _ => exact absurd rfl hne
  | @cons w l s t ts hw ht hs ih =>
    cases ts with
    | nil =>
      cases hs with
      | nil hw' =>
        obtain ⟨-, b, hb, hvb⟩ := ht.visibleEdges
        refine ⟨w ++ l, s, by simp, hw', ?_, b, by rw [List.getLast?_append, hb]; rfl, hvb⟩
        simpa using Spells.cons hw ht (Spells.nil (w := []) rfl)
    | cons u us =>
      obtain ⟨v, w', rfl, hw', hv, b, hb, hvb⟩ := ih (by simp)
      exact ⟨w ++ (l ++ v), w', by simp, hw', .cons hw ht hv, b, by simp [List.getLast?_append, hb],
        hvb⟩

/-- The first symbol of a text without leading whitespace starts its first token. -/
theorem Spells.cut_start {s : List α} {t : Token α} {ts : List (Token α)} (h : Spells s (t :: ts)) :
    ∃ w l s', s = w ++ (l ++ s') ∧ w.all isWs = true ∧ TokenLexeme l t ∧
      Spells (l ++ s') (t :: ts) := by
  cases h with
  | @cons w l s' _ _ hw ht hs => exact ⟨w, l, s', rfl, hw, ht, .cons (w := []) rfl ht hs⟩

/-- The first symbol of a value tells an object, an array and a string from everything else. -/
structure Leads (n : Nat) (d : Doc α) : Prop where
  obj : n = 0x7B ↔ ∃ ms, d = .obj ms
  arr : n = 0x5B ↔ ∃ xs, d = .arr xs
  str : n = 0x22 ↔ ∃ s, d = .str s

theorem Doc.leads {d : Doc α} {t : Token α} {ts : List (Token α)} (hd : d.tokens = t :: ts)
    {l : List α} (ht : TokenLexeme l t) : ∃ a s, l = a :: s ∧ Leads (code a) d := by
  cases d with
  | null =>
    cases hd
    cases ht with
    | literalNull hl =>
      obtain ⟨a, s, rfl, ha, -⟩ := cons_of_map_code hl
      exact ⟨a, s, rfl, by constructor <;> simp [ha]⟩
  | bool b =>
    cases hd
    cases ht with
    | literalTrue hl =>
      obtain ⟨a, s, rfl, ha, -⟩ := cons_of_map_code hl
      exact ⟨a, s, rfl, by constructor <;> simp [ha]⟩
    | literalFalse hl =>
      obtain ⟨a, s, rfl, ha, -⟩ := cons_of_map_code hl
      exact ⟨a, s, rfl, by constructor <;> simp [ha]⟩
  | num n =>
    cases hd
    cases ht with
    | num hn =>
      obtain ⟨a, s, rfl, ha⟩ := hn.head
      exact ⟨a, s, rfl, by constructor <;> simp <;> omega⟩
  | str lit =>
    cases hd
    cases ht with
    | str ho _ _ => exact ⟨_, _, rfl, by constructor <;> simp [ho]⟩
  | arr xs =>
    cases hd
    cases ht with
    | punct ha => exact ⟨_, [], rfl, by constructor <;> simp [ha, Punct.symbol]⟩
  | obj ms =>
    cases hd
    cases ht with
    | punct ha => exact ⟨_, [], rfl, by constructor <;> simp [ha, Punct.symbol]⟩

/-- A JSON text is whitespace, a value, whitespace. -/
theorem JsonText.bare {s : List α} {d : Doc α} (h : JsonText s d) :
    ∃ w v w', s = w ++ (v ++ w') ∧ w.all isWs = true ∧ w'.all isWs = true ∧ JsonText v d ∧
      VisibleEdges v ∧ ∃ a v', v = a :: v' ∧ Leads (code a) d := by
  obtain ⟨v0, w', rfl, hw', hv0, -⟩ := Spells.cut_end h d.tokens_ne_nil
  obtain ⟨t, ts, htokens⟩ := List.exists_cons_of_ne_nil d.tokens_ne_nil
  rw [htokens] at hv0
  obtain ⟨w, l, s', rfl, hw, ht, hv⟩ := hv0.cut_start
  obtain ⟨⟨a, ha, hva⟩, -⟩ := ht.visibleEdges
  obtain ⟨a', l', rfl, hlead⟩ := d.leads htokens ht
  -- cutting once more at the end gives the last symbol of the value itself
  obtain ⟨v1, w1, hv1, hw1, hspells, hlast⟩ := Spells.cut_end hv (by simp)
  rw [← htokens] at hspells
  have hv1head : ∃ v', v1 = a' :: v' := by
    cases v1 with
    | nil => obtain ⟨b, hb, -⟩ := hlast; simp at hb
    | cons b v' =>
      rw [List.cons_append, List.cons_append, List.cons.injEq] at hv1
      exact ⟨v', by rw [hv1.1]⟩
  obtain ⟨v', rfl⟩ := hv1head
  rw [List.head?_cons, Option.some.injEq] at ha
  subst ha
  exact ⟨w, a' :: v', w1 ++ w', by rw [hv1]; simp, hw, by simp [hw1, hw'], hspells,
    ⟨⟨a', rfl, hva⟩, hlast⟩, a', v', rfl, hlead⟩

end FastGate.Json
