/-
# FastGate.ModelTurn.Retention — how much a body read keeps

The loop of `readRequestBody` once more, with the slice it appends to: its capacity, the growth step
in front of `append`, and the places where Go would panic.  `Inv` is what holds whenever the loop
starts another iteration; it bounds the slice, and `budget` counts down with every call of `Read`.
`iteration_eq` connects an iteration to `readRound`, so the bytes that come out are those of
`readRequestBody`.

* A `Slice` is its bytes and a capacity.  How much `append` allocates when there is no room is up to the
  runtime, so it is a parameter (`realloc`); the loop makes sure that it never has to
  (`append_of_room`).
* `Reaches` are the states of a run, and `inv_of_reaches` is the induction over it.  From every state that
  is reached the loop comes to its end, with the result of `readRequestBody` (`ends_of_reaches`).
* `readRequestBody_retention` is the result for a whole run: what is kept, how often the reader is called,
  and that nothing panics.
-/
import FastGate.ModelTurn.BodyFailure

open FastGate.Utf8 (Bytes)

namespace FastGate.ModelTurn

/-- A Go byte slice. -/
structure Slice where
  data : Bytes
  cap : Nat
  length_le : data.length ≤ cap

/-- `make([]byte, len(data), cap)` with `data` copied into it; it panics when `data` does not fit. -/
def makeSlice (data : Bytes) (cap : Nat) : Option Slice :=
  if h : data.length ≤ cap then some ⟨data, cap, h⟩ else none

/-- `append(s, bytes...)`: in place while the capacity lasts, otherwise into a new array of a capacity
that the runtime chooses. -/
def Slice.append (realloc : Nat → Nat → Nat) (s : Slice) (bytes : Bytes) : Slice :=
  if h : s.data.length + bytes.length ≤ s.cap then ⟨s.data ++ bytes, s.cap, by simpa using h⟩
  else
    let needed := s.data.length + bytes.length
    ⟨s.data ++ bytes, max needed (realloc s.cap needed), by
      rw [List.length_append]; exact Nat.le_max_left _ _⟩

/-- The growth step: make room for `n` more bytes. -/
def reserve (request : Slice) (n : Nat) : Option Slice :=
  let needed := request.data.length + n
  if needed > request.cap then
    let capacity := min maxRetainedBytes (max needed (request.cap * 2))
    makeSlice request.data capacity
  else some request

/-- The variables of the loop, and the state of the reader. -/
structure LoopState (σ : Type) where
  request : Slice
  consecutiveNoReads : Nat
  reader : σ

/-- How an iteration ends. -/
inductive Iteration (σ : Type) where
  | panic
  | done (result : Except BodyError Bytes)
  | more (next : LoopState σ)

section Loop

variable {σ : Type} (realloc : Nat → Nat → Nat) (reader : Reader σ)

/-- The room that is left, one byte more than is admitted. -/
def LoopState.remaining (state : LoopState σ) : Int := maxRetainedBytes - state.request.data.length

/-- The size of the buffer that the next call is offered. -/
def LoopState.offered (state : LoopState σ) : Int := min state.remaining readBufferBytes

/-- The checks of `readErr` at the end of an iteration. -/
def finish (state : LoopState σ) (result : ReadResult) : Iteration σ :=
  match result.err with
  | some .eof => .done (.ok state.request.data)
  | some err => .done (.error (.read err))
  | none => .more state

/-- One iteration of the loop. -/
def iteration (state : LoopState σ) : Iteration σ :=
  if state.remaining = 0 then .done (.error .tooLarge)
  else if state.offered < 0 then .panic
  else
    let (result, s) := reader.read state.reader state.offered.toNat
    if result.n < 0 ∨ result.n > state.offered then .done (.error .readerContract)
    else if result.n > 0 then
      match reserve state.request result.n.toNat with
      | none => .panic
      | some request =>
        let request := request.append realloc result.delivered
        if request.data.length > maxRequestBodyBytes then .done (.error .tooLarge)
        else finish ⟨request, 0, s⟩ result
    else if result.err = none then
      let consecutiveNoReads := state.consecutiveNoReads + 1
      if consecutiveNoReads ≥ maxConsecutiveNoReads then .done (.error .noProgress)
      else finish ⟨state.request, consecutiveNoReads, s⟩ result
    else finish ⟨state.request, state.consecutiveNoReads, s⟩ result

/-- The loop's variables before its first iteration. -/
def firstState (s : σ) : LoopState σ := ⟨⟨[], readBufferBytes, Nat.zero_le _⟩, 0, s⟩

/-- The state in which iteration number `calls + 1` starts, after that many calls of `Read`. -/
inductive Reaches (s : σ) : Nat → LoopState σ → Prop
  | start : Reaches s 0 (firstState s)
  | next {calls : Nat} {state state' : LoopState σ} : Reaches s calls state →
      iteration realloc reader state = .more state' → Reaches s (calls + 1) state'

/-! ## The invariant -/

/-- What holds whenever an iteration starts. -/
structure Inv (state : LoopState σ) : Prop where
  length_le : state.request.data.length ≤ maxRequestBodyBytes
  cap_le : state.request.cap ≤ maxRetainedBytes
  noReads_lt : state.consecutiveNoReads < maxConsecutiveNoReads

/-- How many calls of `Read` are left at most: a hundred for every byte there is room for, less those
that have returned nothing since the last one. -/
def budget (state : LoopState σ) : Nat :=
  maxConsecutiveNoReads * (maxRequestBodyBytes - state.request.data.length) +
    (maxConsecutiveNoReads - state.consecutiveNoReads)

variable {realloc reader}

theorem inv_firstState (s : σ) : Inv (firstState s) where
  length_le := Nat.zero_le _
  cap_le := show readBufferBytes ≤ maxRetainedBytes by decide
  noReads_lt := show 0 < maxConsecutiveNoReads by decide

theorem budget_pos {state : LoopState σ} (h : Inv state) : 0 < budget state := by
  have := h.noReads_lt
  unfold budget
  omega

theorem Inv.offered_eq {state : LoopState σ} (h : Inv state) :
    state.offered = (offeredSize state.request.data.length : Nat) := by
  have hlen := h.length_le
  unfold LoopState.offered LoopState.remaining offeredSize maxRetainedBytes
  omega

/-- Growing leaves room for what was read, and stays within the bound. -/
theorem reserve_eq {request : Slice} {n : Nat} (hcap : request.cap ≤ maxRetainedBytes)
    (hn : request.data.length + n ≤ maxRetainedBytes) :
    ∃ grown, reserve request n = some grown ∧ grown.data = request.data ∧
      request.data.length + n ≤ grown.cap ∧ grown.cap ≤ maxRetainedBytes := by
  simp only [reserve]
  split
  · have hroom : request.data.length + n ≤
        min maxRetainedBytes (max (request.data.length + n) (request.cap * 2)) := by omega
    refine ⟨⟨request.data, _, by omega⟩, dif_pos (by omega), rfl, hroom, Nat.min_le_left _ _⟩
  · exact ⟨request, rfl, rfl, by omega, hcap⟩

/-- With room for the bytes, `append` works in place. -/
theorem append_of_room {s : Slice} {bytes : Bytes} (h : s.data.length + bytes.length ≤ s.cap) :
    s.append realloc bytes = ⟨s.data ++ bytes, s.cap, by simpa using h⟩ := dif_pos h

/-- Under the invariant an iteration is a round of `readRequestBody`, and the slice has the capacity
for what it is given. -/
theorem iteration_eq (realloc : Nat → Nat → Nat) (reader : Reader σ) {state : LoopState σ}
    (h : Inv state) :
    match readRound state.request.data state.consecutiveNoReads
        (offeredSize state.request.data.length)
        (reader.read state.reader (offeredSize state.request.data.length)).1 with
    | .done result => iteration realloc reader state = .done result
    | .more data noReads => ∃ request : Slice, request.data = data ∧ request.cap ≤ maxRetainedBytes ∧
        iteration realloc reader state = .more ⟨request, noReads,
          (reader.read state.reader (offeredSize state.request.data.length)).2⟩ := by
  have hlen := h.length_le
  have hoffered := h.offered_eq
  have hremaining : state.remaining ≠ 0 := by
    unfold LoopState.remaining maxRetainedBytes
    omega
  have hbuffer := reader.length_buffer state.reader (offeredSize state.request.data.length)
  unfold iteration
  rw [if_neg hremaining, if_neg (by omega), hoffered, Int.toNat_natCast]
  generalize hread : reader.read state.reader (offeredSize state.request.data.length) = answer at hbuffer
  obtain ⟨result, s⟩ := answer
  simp only at hbuffer ⊢
  unfold readRound
  by_cases hrange : result.n < 0 ∨ result.n > offeredSize state.request.data.length
  · simp only [if_pos hrange]
  simp only [if_neg hrange]
  by_cases hpos : result.n > 0
  · have hdelivered : result.delivered.length = result.n.toNat := by
      rw [ReadResult.delivered, List.length_take]
      omega
    -- no more is offered than may still be kept
    have hfits : state.request.data.length + result.n.toNat ≤ maxRetainedBytes := by
      unfold offeredSize at hrange
      unfold maxRetainedBytes at hrange ⊢
      omega
    obtain ⟨grown, hgrown, hdata, hroom, hcap⟩ := reserve_eq h.cap_le hfits
    rw [← hdata, ← hdelivered] at hroom
    simp only [if_pos hpos, hgrown, append_of_room hroom, hdata]
    by_cases hbig : (state.request.data ++ result.delivered).length > maxRequestBodyBytes
    · simp only [if_pos hbig]
    simp only [if_neg hbig, finish, checkReadErr]
    cases result.err with
    | none => exact ⟨⟨state.request.data ++ result.delivered, grown.cap, _⟩, rfl, hcap, rfl⟩
    | some err => cases err <;> rfl
  simp only [if_neg hpos]
  by_cases herr : result.err = none
  · simp only [if_pos herr]
    by_cases hmany : state.consecutiveNoReads + 1 ≥ maxConsecutiveNoReads
    · simp only [if_pos hmany]
    simp only [if_neg hmany, finish, checkReadErr, herr]
    exact ⟨_, rfl, h.cap_le, rfl⟩
  · simp only [if_neg herr, finish, checkReadErr]
    cases hresult : result.err with
    | none => exact absurd hresult herr
    | some err => cases err <;> rfl

/-- An iteration that goes on keeps the invariant and uses up a part of the budget. -/
theorem inv_iteration {state state' : LoopState σ} (h : Inv state)
    (hstep : iteration realloc reader state = .more state') :
    Inv state' ∧ budget state' < budget state ∧
      readLoop reader state.request.data state.consecutiveNoReads state.reader =
        readLoop reader state'.request.data state'.consecutiveNoReads state'.reader := by
  have heq := iteration_eq realloc reader h
  split at heq
  · cases hstep.symm.trans heq
  rename_i data noReads hround
  obtain ⟨request, rfl, hcap, heq⟩ := heq
  cases hstep.symm.trans heq
  have hloop := readLoop_of_more h.length_le hround
  obtain ⟨-, hle, ⟨hpos, hdata, hsmall, rfl⟩ | ⟨-, hdata, rfl, hfew⟩⟩ := readRound_more hround
  · refine ⟨⟨hsmall, hcap, (by decide : 0 < maxConsecutiveNoReads)⟩, ?_, hloop⟩
    -- every byte is worth more than the calls without bytes that may follow it
    have hlen := length_delivered reader _ _ hle
    have hnoReads := h.noReads_lt
    have hgrown : request.data.length = state.request.data.length +
        (reader.read state.reader (offeredSize state.request.data.length)).1.n.toNat := by
      rw [hdata, List.length_append, hlen]
    unfold budget maxConsecutiveNoReads at *
    simp only
    omega
  · refine ⟨⟨?_, hcap, hfew⟩, ?_, hloop⟩
    · show request.data.length ≤ maxRequestBodyBytes
      rw [hdata]
      exact h.length_le
    · unfold budget
      simp only [hdata]
      omega

/-- The invariant holds in every state that is reached, and the calls so far and the budget that is
left are within the budget of the start. -/
theorem inv_of_reaches {s : σ} {calls : Nat} {state : LoopState σ}
    (h : Reaches realloc reader s calls state) : Inv state ∧
      budget state + calls ≤ maxConsecutiveNoReads * maxRetainedBytes ∧
      readRequestBody reader s =
        readLoop reader state.request.data state.consecutiveNoReads state.reader := by
  induction h with
  | start => exact ⟨inv_firstState s, (by decide : 100 * 8388608 + 100 ≤ 100 * 8388609), rfl⟩
  | next _ hstep ih =>
    obtain ⟨hinv, hbudget, hloop⟩ := ih
    obtain ⟨hinv', hless, hloop'⟩ := inv_iteration hinv hstep
    exact ⟨hinv', by omega, hloop.trans hloop'⟩

/-- From every state that is reached the loop comes to an end. -/
theorem ends_of_reaches {s : σ} : ∀ (left : Nat) {calls : Nat} {state : LoopState σ},
    Reaches realloc reader s calls state → budget state ≤ left →
      ∃ calls state, Reaches realloc reader s calls state ∧
        iteration realloc reader state = .done (readRequestBody reader s) := by
  intro left
  induction left with
  | zero =>
    intro calls state h hleft
    have := budget_pos (inv_of_reaches h).1
    omega
  | succ left ih =>
    intro calls state h hleft
    obtain ⟨hinv, -, hloop⟩ := inv_of_reaches h
    have heq := iteration_eq realloc reader hinv
    split at heq
    · rename_i result hround
      refine ⟨calls, state, h, ?_⟩
      rw [heq, hloop, readLoop_of_done hinv.length_le hround]
    · obtain ⟨request, -, -, heq⟩ := heq
      have hless := (inv_iteration hinv heq).2.1
      exact ih (.next h heq) (by omega)

/-- Retention is bounded for every reader, and reading ends.  In every iteration the retained bytes
are within the limit, `Read` is offered a buffer that is not empty and no larger than what may still
be retained, the capacity is bounded and sufficient for whatever `Read` returns, and the check for a
full slice fails; the loop ends after at most 100 calls for every byte that may be retained. -/
theorem readRequestBody_retention (realloc : Nat → Nat → Nat) (reader : Reader σ) (s : σ) :
    (∀ calls state, Reaches realloc reader s calls state →
      state.request.data.length ≤ 8388608 ∧
      0 < state.offered ∧ state.offered ≤ min 32768 (8388609 - state.request.data.length) ∧
      state.request.cap ≤ 8388609 ∧
      (∀ bytes : Bytes, bytes.length ≤ state.offered →
        ∃ grown, reserve state.request bytes.length = some grown ∧ grown.cap ≤ 8388609 ∧
          (grown.append realloc bytes).cap = grown.cap) ∧
      state.remaining ≠ 0 ∧ calls + 1 ≤ 100 * 8388609) ∧
    ∃ calls state, Reaches realloc reader s calls state ∧
      iteration realloc reader state = .done (readRequestBody reader s) := by
  refine ⟨fun calls state h => ?_, ends_of_reaches _ .start (Nat.le_refl _)⟩
  obtain ⟨hinv, hbudget, -⟩ := inv_of_reaches h
  have hlen : state.request.data.length ≤ 8388608 := hinv.length_le
  have hpos := budget_pos hinv
  have hcalls : budget state + calls ≤ 100 * 8388609 := hbudget
  have hremaining : state.remaining = 8388609 - state.request.data.length := rfl
  have hoffered : state.offered = min state.remaining 32768 := rfl
  refine ⟨hlen, by omega, by omega, hinv.cap_le, fun bytes hbytes => ?_, by omega, by omega⟩
  have hfits : state.request.data.length + bytes.length ≤ maxRetainedBytes := by
    show _ ≤ 8388609
    omega
  obtain ⟨grown, hgrown, hdata, hroom, hcap⟩ := reserve_eq hinv.cap_le hfits
  rw [← hdata] at hroom
  exact ⟨grown, hgrown, hcap, by rw [append_of_room hroom]⟩

end Loop

end FastGate.ModelTurn
