/-
# FastGate.Go.Strings — runes, white space and lower case

The runes of a Go string, the Unicode white space that `strings.TrimSpace` and `strings.TrimLeftFunc`
cut off, and `strings.ToLower`.  The case tables of the `unicode` package are a parameter: `LowerCase`
holds what the tables say of ASCII, of white space and of the two other runes that become ASCII.
-/
import FastGate.Go.Bytes

open FastGate.Utf8 (Bytes encode encodeChar decodeChar? encodeChar_ne_nil eq_append_of_decodeChar?
  decodeChar?_encodeChar_append)

namespace FastGate.Go

/-! ## White space -/

/-- A text of white space only. -/
def White (w : Bytes) : Prop := ∃ ws : List Char, w = encode ws ∧ ∀ c ∈ ws, isSpace c = true

theorem White.nil : White [] := ⟨[], rfl, fun _ h => absurd h List.not_mem_nil⟩

theorem White.append {w w' : Bytes} (h : White w) (h' : White w') : White (w ++ w') := by
  obtain ⟨ws, rfl, hws⟩ := h
  obtain ⟨ws', rfl, hws'⟩ := h'
  exact ⟨ws ++ ws', (Utf8.encode_append _ _).symm, List.forall_mem_append.mpr ⟨hws, hws'⟩⟩

theorem White.encodeChar {c : Char} (h : isSpace c = true) : White (encodeChar c) :=
  ⟨[c], (List.append_nil _).symm, fun d hd => by rw [List.mem_singleton.mp hd]; exact h⟩

/-- A rune that is white space was decoded from its encoding. -/
theorem decodeRune_space {s : Bytes} (h : isSpace (decodeRune s).1 = true) :
    s = encodeChar (decodeRune s).1 ++ s.drop (decodeRune s).2 := by
  unfold decodeRune at h ⊢
  cases hdecode : decodeChar? s with
  | none =>
    rw [hdecode] at h
    cases h
  | some c => exact eq_append_of_decodeChar? hdecode

/-- What `strings.TrimLeftFunc` cuts off is white space. -/
theorem trimLeft_sound : ∀ (fuel : Nat) (s : Bytes), ∃ w, White w ∧ s = w ++ trimLeft fuel s
  | 0, _ => ⟨[], White.nil, rfl⟩
  | fuel + 1, s => by
      rw [trimLeft]
      simp only
      split
      · rename_i hspace
        obtain ⟨w, hw, hrest⟩ := trimLeft_sound fuel (s.drop (decodeRune s).2)
        refine ⟨_, (White.encodeChar hspace.2).append hw, ?_⟩
        rw [List.append_assoc, ← hrest]
        exact decodeRune_space hspace.2
      · exact ⟨[], White.nil, rfl⟩

theorem decodeLastRune_space {s : Bytes} (h : isSpace (decodeLastRune s).1 = true) :
    s = s.take (s.length - (decodeLastRune s).2) ++ encodeChar (decodeLastRune s).1 := by
  unfold decodeLastRune at h ⊢
  cases hfind : [1, 2, 3, 4].findSome? (endsWithRune s) with
  | none =>
    rw [hfind] at h
    cases h
  | some p =>
    obtain ⟨k, -, hk⟩ := List.exists_of_findSome?_eq_some hfind
    unfold endsWithRune at hk
    split at hk
    · rename_i c hdecode
      split at hk
      · rename_i hsize
        cases hk
        have hlast := eq_append_of_decodeChar? hdecode
        have hall : (s.drop (s.length - k)).drop c.utf8Size = [] := by
          rw [List.drop_drop, List.drop_eq_nil_iff]
          omega
        rw [hall, List.append_nil] at hlast
        show s = s.take (s.length - k) ++ encodeChar c
        rw [← hlast, List.take_append_drop]
      · cases hk
    · cases hk

theorem trimRight_sound : ∀ (fuel : Nat) (s : Bytes), ∃ w, White w ∧ s = trimRight fuel s ++ w
  | 0, s => ⟨[], White.nil, (List.append_nil s).symm⟩
  | fuel + 1, s => by
      rw [trimRight]
      simp only
      split
      · rename_i hspace
        obtain ⟨w, hw, hrest⟩ := trimRight_sound fuel (s.take (s.length - (decodeLastRune s).2))
        refine ⟨_, hw.append (White.encodeChar hspace.2), ?_⟩
        rw [← List.append_assoc, ← hrest]
        exact decodeLastRune_space hspace.2
      · exact ⟨[], White.nil, (List.append_nil s).symm⟩

/-- `strings.TrimSpace` cuts off white space at both ends. -/
theorem trimSpace_sound (s : Bytes) :
    ∃ w w', White w ∧ White w' ∧ s = w ++ (trimSpace s ++ w') := by
  obtain ⟨w, hw, hleft⟩ := trimLeft_sound s.length s
  obtain ⟨w', hw', hright⟩ := trimRight_sound (trimLeft s.length s).length (trimLeft s.length s)
  refine ⟨w, w', hw, hw', ?_⟩
  unfold trimSpace
  rw [← hright]
  exact hleft

instance (b : UInt8) : Decidable (IsGraphic b) :=
  inferInstanceAs (Decidable (0x21 ≤ b.toNat ∧ b.toNat < 0x7F))

/-- Nothing follows, or a visible ASCII byte does. -/
def Stops (s : Bytes) : Prop := ∀ b, s.head? = some b → IsGraphic b

theorem trimLeft_stops {s : Bytes} (h : Stops s) (fuel : Nat) : trimLeft fuel s = s := by
  cases s with
  | nil =>
    cases fuel with
    | zero => rfl
    | succ fuel => rfl
  | cons b s => exact trimLeft_graphic (h b rfl) fuel s

/-- White space in front of a visible byte or of the end is cut off. -/
theorem trimLeft_white {w s : Bytes} (hw : White w) (hs : Stops s) {fuel : Nat}
    (hfuel : w.length ≤ fuel) : trimLeft fuel (w ++ s) = s := by
  obtain ⟨ws, rfl, hws⟩ := hw
  induction ws generalizing fuel with
  | nil => exact trimLeft_stops hs fuel
  | cons c ws ih =>
    obtain ⟨hc, hws⟩ := List.forall_mem_cons.mp hws
    have hdecode : decodeRune (encode (c :: ws) ++ s) = (c, c.utf8Size) := by
      rw [decodeRune, Utf8.encode_cons, List.append_assoc, decodeChar?_encodeChar_append]
    have hsize : (encodeChar c).length = c.utf8Size := String.length_utf8EncodeChar c
    have hpos := c.utf8Size_pos
    rw [Utf8.encode_cons, List.length_append, hsize] at hfuel
    cases fuel with
    | zero => omega
    | succ fuel =>
      have hdrop : (encode (c :: ws) ++ s).drop c.utf8Size = encode ws ++ s := by
        rw [Utf8.encode_cons, List.append_assoc, ← hsize, List.drop_left]
      rw [trimLeft, hdecode]
      simp only [hdrop]
      rw [if_pos ⟨by omega, hc⟩]
      exact ih hws (by omega)

/-- The code points of white space. -/
def spaceCodes : List Nat :=
  [0x09, 0x0A, 0x0B, 0x0C, 0x0D, 0x20, 0x85, 0xA0, 0x1680, 0x2000, 0x2001, 0x2002, 0x2003, 0x2004, 0x2005,
    0x2006, 0x2007, 0x2008, 0x2009, 0x200A, 0x2028, 0x2029, 0x202F, 0x205F, 0x3000]

theorem mem_spaceCodes {c : Char} (h : isSpace c = true) : c.toNat ∈ spaceCodes := by
  simp only [isSpace, Bool.or_eq_true, Bool.and_eq_true, decide_eq_true_eq, beq_iff_eq] at h
  simp only [spaceCodes, List.mem_cons, List.not_mem_nil, or_false]
  omega

/-- No shorter end of an encoded space is a rune. -/
theorem endsWithRune_spaceCodes : ∀ n ∈ spaceCodes,
    (∀ k ∈ [1, 2, 3, 4], k < (Char.ofNat n).utf8Size → endsWithRune (encodeChar (Char.ofNat n)) k = none) ∧
      endsWithRune (encodeChar (Char.ofNat n)) (Char.ofNat n).utf8Size =
        some (Char.ofNat n, (Char.ofNat n).utf8Size) := by
  decide

theorem endsWithRune_append {e : Bytes} {k : Nat} (h : k ≤ e.length) (s : Bytes) :
    endsWithRune (s ++ e) k = endsWithRune e k := by
  have hdrop : (s ++ e).drop ((s ++ e).length - k) = e.drop (e.length - k) := by
    rw [List.length_append, Nat.add_sub_assoc h, List.drop_append, List.drop_of_length_le (by omega),
      Nat.add_sub_cancel_left, List.nil_append]
  rw [endsWithRune, hdrop, endsWithRune]

/-- The first size that succeeds is the one that is found. -/
theorem findSome?_size {α : Type} {f : Nat → Option α} {n : Nat} {a : α} (hn : n ∈ [1, 2, 3, 4])
    (hshort : ∀ k ∈ [1, 2, 3, 4], k < n → f k = none) (hlast : f n = some a) :
    [1, 2, 3, 4].findSome? f = some a := by
  simp only [List.mem_cons, List.not_mem_nil, or_false] at hn
  rcases hn with rfl | rfl | rfl | rfl
  · simp [hlast]
  · simp [hlast, hshort 1]
  · simp [hlast, hshort 1, hshort 2]
  · simp [hlast, hshort 1, hshort 2, hshort 3]

theorem decodeLastRune_encodeChar {c : Char} (hc : isSpace c = true) (s : Bytes) :
    decodeLastRune (s ++ encodeChar c) = (c, c.utf8Size) := by
  obtain ⟨hshort, hlast⟩ := endsWithRune_spaceCodes _ (mem_spaceCodes hc)
  rw [Char.ofNat_toNat] at hshort hlast
  have hsize : (encodeChar c).length = c.utf8Size := String.length_utf8EncodeChar c
  have hmem : c.utf8Size ∈ [1, 2, 3, 4] := by
    simpa using c.utf8Size_eq
  have hfind : [1, 2, 3, 4].findSome? (endsWithRune (s ++ encodeChar c)) = some (c, c.utf8Size) := by
    refine findSome?_size hmem (fun k hk hlt => ?_) ?_
    · rw [endsWithRune_append (by omega)]
      exact hshort k hk hlt
    · rw [endsWithRune_append (by omega)]
      exact hlast
  rw [decodeLastRune, hfind]

/-- Nothing stands in front, or a visible ASCII byte does. -/
def Ends (s : Bytes) : Prop := ∀ b, s.getLast? = some b → IsGraphic b

theorem trimRight_ends {s : Bytes} (h : Ends s) (fuel : Nat) : trimRight fuel s = s := by
  induction s using List.reverseRecOn with
  | nil =>
    cases fuel with
    | zero => rfl
    | succ fuel => rfl
  | append_singleton s b _ => exact trimRight_graphic (h b (by simp)) fuel s

/-- White space behind a visible byte or the start is cut off. -/
theorem trimRight_white {w s : Bytes} (hw : White w) (hs : Ends s) {fuel : Nat}
    (hfuel : w.length ≤ fuel) : trimRight fuel (s ++ w) = s := by
  obtain ⟨ws, rfl, hws⟩ := hw
  induction ws using List.reverseRecOn generalizing fuel with
  | nil => rw [Utf8.encode_nil, List.append_nil]; exact trimRight_ends hs fuel
  | append_singleton ws c ih =>
    obtain ⟨hws, hc⟩ := List.forall_mem_append.mp hws
    have hc : isSpace c = true := hc c (List.mem_singleton_self c)
    have hlast : encode [c] = encodeChar c := List.append_nil _
    have hsize : (encodeChar c).length = c.utf8Size := String.length_utf8EncodeChar c
    have hpos := c.utf8Size_pos
    rw [Utf8.encode_append, hlast, List.length_append, hsize] at hfuel
    cases fuel with
    | zero => omega
    | succ fuel =>
      rw [Utf8.encode_append, hlast, ← List.append_assoc, trimRight, decodeLastRune_encodeChar hc]
      have htake : (s ++ encode ws ++ encodeChar c).take
          ((s ++ encode ws ++ encodeChar c).length - c.utf8Size) = s ++ encode ws := by
        rw [List.length_append, hsize, Nat.add_sub_cancel, List.take_left]
      simp only [htake]
      rw [if_pos ⟨by omega, hc⟩]
      exact ih hws (by omega)

/-- White space around a text that starts and ends with visible ASCII is what `TrimSpace` removes. -/
theorem trimSpace_white {w v w' : Bytes} (hw : White w) (hw' : White w') (hne : v ≠ [])
    (hstart : Stops v) (hend : Ends v) : trimSpace (w ++ (v ++ w')) = v := by
  have hstops : Stops (v ++ w') := by
    intro b hb
    obtain ⟨a, v, rfl⟩ := List.exists_cons_of_ne_nil hne
    exact hstart b hb
  unfold trimSpace
  rw [trimLeft_white hw hstops (by simp)]
  exact trimRight_white hw' hend (by simp)

theorem Stops.cons {b : UInt8} (h : IsGraphic b) (s : Bytes) : Stops (b :: s) := by
  rintro a ha
  cases ha
  exact h

/-- White space has no visible ASCII byte. -/
theorem White.not_isGraphic {w : Bytes} (hw : White w) {b : UInt8} (hb : b ∈ w) : ¬ IsGraphic b := by
  obtain ⟨ws, rfl, hws⟩ := hw
  obtain ⟨c, hc, hbc⟩ := List.mem_flatMap.mp hb
  have hspace := hws c hc
  by_cases hascii : c.toNat < 0x80
  · obtain ⟨b', hb', hcode⟩ := Utf8.encodeChar_ascii hascii
    rw [hb', List.mem_singleton] at hbc
    rintro ⟨hlow, -⟩
    rw [hbc, hcode] at hlow
    simp only [isSpace, Bool.or_eq_true, Bool.and_eq_true, decide_eq_true_eq, beq_iff_eq] at hspace
    omega
  · have hhigh := Utf8.encodeChar_high (Nat.le_of_not_lt hascii) b hbc
    rintro ⟨-, hlow⟩
    omega

/-- What is left of white space is nothing. -/
theorem trimLeft_eq_nil {s : Bytes} : trimLeft s.length s = [] ↔ White s := by
  constructor
  · intro h
    obtain ⟨w, hw, hs⟩ := trimLeft_sound s.length s
    rw [h, List.append_nil] at hs
    rwa [hs]
  · intro h
    have hstops : Stops [] := fun b hb => by cases hb
    have htrim := trimLeft_white h hstops (Nat.le_refl _)
    rwa [List.append_nil] at htrim

/-! ## Runes -/

/-- The loop over the runes of a string; the fuel bounds their number. -/
def runesLoop : Nat → Bytes → List Char
  | 0, _ => []
  | _ + 1, [] => []
  | fuel + 1, b :: s => (decodeRune (b :: s)).1 :: runesLoop fuel ((b :: s).drop (decodeRune (b :: s)).2)

/-- The runes of a string, as a `range` over it yields them. -/
def runes (s : Bytes) : List Char := runesLoop s.length s

theorem runesLoop_encode (cs : List Char) :
    ∀ {fuel : Nat}, (encode cs).length ≤ fuel → runesLoop fuel (encode cs) = cs := by
  induction cs with
  | nil => intro fuel _; cases fuel <;> rfl
  | cons c cs ih =>
    intro fuel hfuel
    have hsize : (encodeChar c).length = c.utf8Size := String.length_utf8EncodeChar c
    have hpos := c.utf8Size_pos
    obtain ⟨b, rest, hencode⟩ := List.exists_cons_of_ne_nil
      (fun h => encodeChar_ne_nil c (List.append_eq_nil_iff.mp h).1 : encode (c :: cs) ≠ [])
    cases fuel with
    | zero =>
      rw [hencode] at hfuel
      cases hfuel
    | succ fuel =>
      have hlength := hfuel
      rw [Utf8.encode_cons, List.length_append, hsize] at hlength
      rw [hencode, runesLoop, ← hencode, decodeRune_encode_cons, Utf8.drop_encode_cons, ih (by omega)]

theorem runes_encode (cs : List Char) : runes (encode cs) = cs :=
  runesLoop_encode cs (Nat.le_refl _)

/-- A string without malformed sequences is the encoding of its runes. -/
theorem encode_runesLoop : ∀ {fuel : Nat} {s : Bytes}, s.length ≤ fuel → runeError ∉ runesLoop fuel s →
    encode (runesLoop fuel s) = s
  | 0, s, hfuel, _ => by
      rw [List.length_eq_zero_iff.mp (Nat.le_zero.mp hfuel)]
      rfl
  | fuel + 1, [], _, _ => rfl
  | fuel + 1, b :: s, hfuel, herror => by
      rw [runesLoop, List.mem_cons, not_or] at herror
      rw [runesLoop, Utf8.encode_cons]
      obtain ⟨hrune, hrest⟩ := herror
      unfold decodeRune at hrune hrest ⊢
      cases hdecode : decodeChar? (b :: s) with
      | none =>
        rw [hdecode] at hrune
        exact absurd rfl hrune
      | some c =>
        rw [hdecode] at hrest
        have hpos := c.utf8Size_pos
        have hlength : ((b :: s).drop c.utf8Size).length ≤ fuel := by
          rw [List.length_drop]
          omega
        simp only
        rw [encode_runesLoop hlength hrest]
        exact (eq_append_of_decodeChar? hdecode).symm

theorem encode_runes {s : Bytes} (h : runeError ∉ runes s) : encode (runes s) = s :=
  encode_runesLoop (Nat.le_refl _) h

/-! ## Lower case -/

/-- `unicode.ToLower`, with what the tables of the `unicode` package say of it: ASCII letters, the two
other runes that become ASCII letters, and white space, which has no case. -/
structure LowerCase where
  toLower : Char → Char
  ascii : ∀ c, c.toNat < 0x80 →
    (toLower c).toNat = if 0x41 ≤ c.toNat ∧ c.toNat ≤ 0x5A then c.toNat + 0x20 else c.toNat
  dottedI : ∀ c, c.toNat = 0x130 → (toLower c).toNat = 0x69
  kelvin : ∀ c, c.toNat = 0x212A → (toLower c).toNat = 0x6B
  high : ∀ c, 0x80 ≤ c.toNat → (toLower c).toNat < 0x80 → c.toNat = 0x130 ∨ c.toNat = 0x212A
  space : ∀ c, isSpace (toLower c) = isSpace c

/-- `strings.ToLower` -/
def toLower (unicode : LowerCase) (s : Bytes) : Bytes := encode ((runes s).map unicode.toLower)

/-- An ASCII letter in lower case. -/
def lowerByte (b : UInt8) : UInt8 :=
  if 0x41 ≤ b.toNat ∧ b.toNat ≤ 0x5A then UInt8.ofNat (b.toNat + 0x20) else b

theorem toNat_lowerByte (b : UInt8) :
    (lowerByte b).toNat = if 0x41 ≤ b.toNat ∧ b.toNat ≤ 0x5A then b.toNat + 0x20 else b.toNat := by
  unfold lowerByte
  split
  · rw [UInt8.toNat_ofNat']
    omega
  · rfl

/-- ASCII text as runes. -/
theorem encode_map_ascii {s : Bytes} (h : ∀ b ∈ s, b.toNat < 0x80) :
    encode (s.map fun b => Char.ofNat b.toNat) = s := by
  induction s with
  | nil => rfl
  | cons b s ih =>
    obtain ⟨hb, hs⟩ := List.forall_mem_cons.mp h
    rw [List.map_cons, Utf8.encode_cons, (encodeChar_ofNat hb).2, ih hs]
    rfl

/-- ASCII text is put into lower case byte by byte. -/
theorem toLower_ascii (unicode : LowerCase) {s : Bytes} (h : ∀ b ∈ s, b.toNat < 0x80) :
    toLower unicode s = s.map lowerByte := by
  have hrunes : runes s = s.map fun b => Char.ofNat b.toNat := by
    have hruns := runes_encode (s.map fun b => Char.ofNat b.toNat)
    rwa [encode_map_ascii h] at hruns
  have hlow : ∀ b ∈ s.map lowerByte, b.toNat < 0x80 := by
    intro b hb
    obtain ⟨a, ha, rfl⟩ := List.mem_map.mp hb
    have hascii := h a ha
    rw [toNat_lowerByte]
    split <;> omega
  rw [toLower, hrunes, ← encode_map_ascii hlow, List.map_map, List.map_map]
  congr 1
  refine List.map_congr_left fun b hb => ?_
  have hascii := h b hb
  apply Char.toNat_inj.mp
  have hcode := (encodeChar_ofNat hascii).1
  rw [Function.comp_apply, Function.comp_apply, unicode.ascii _ (by rwa [hcode]), hcode,
    (encodeChar_ofNat (hlow _ (List.mem_map_of_mem hb))).1, toNat_lowerByte]

end FastGate.Go
