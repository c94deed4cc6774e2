/-
# FastGate.ModelTurn.Body — reading a request body

A body reader is any state machine that fills the buffer it is offered and returns a count and an
error.  `readRequestBody` calls it until it reports the end of the body, and gives up on too many
bytes, on an impossible count and on a reader that keeps returning nothing.

* `readRound` is one round of the loop.  Its checks come in a fixed order: the count, the size, the
  stall, the error.  A read that brings bytes and an error is kept before the error is looked at.
* The loop has no fuel: a round that goes on leaves less room, or one empty read less (`readLoop`).
* `Trace` are the answers of a reader to the buffers that the loop offers it, one after the other.

`readRequestBody_ok_iff` describes the bodies it returns by the trace of results the reader produced
(`Delivery`), without the loop's counters.  The errors are the subject of `ModelTurn.BodyFailure`, what
is kept in memory that of `ModelTurn.Retention`.
-/
import FastGate.Provider.Provider

open FastGate.Utf8 (Bytes)
open FastGate.Provider (GoError)

namespace FastGate.ModelTurn

/-- The longest body that is admitted: eight mebibytes. -/
def maxRequestBodyBytes : Nat := 8 * 1024 * 1024

/-- The number of empty reads in a row after which a reader is given up. -/
def maxConsecutiveNoReads : Nat := 100

/-- The size of the buffer that a reader is offered, as long as there is room for it. -/
def readBufferBytes : Nat := 32 * 1024

/-- One byte more than is admitted, so that a longer body is noticed. -/
def maxRetainedBytes : Nat := maxRequestBodyBytes + 1

/-- What one call of `Read` leaves behind: the offered buffer, a count and an error. -/
structure ReadResult where
  buffer : Bytes
  n : Int
  err : Option GoError
  deriving DecidableEq, Repr

/-- `io.Reader`, with its own state; the buffer keeps the length it was offered with. -/
structure Reader (σ : Type) where
  read : σ → Nat → ReadResult × σ
  length_buffer : ∀ s offered, (read s offered).1.buffer.length = offered

/-- The errors of `readRequestBody`. -/
inductive BodyError where
  | tooLarge
  | readerContract
  | noProgress
  | read (err : GoError)
  deriving DecidableEq, Repr

/-- One round of the loop, after `Read` has returned. -/
inductive Round where
  | done (result : Except BodyError Bytes)
  | more (request : Bytes) (consecutiveNoReads : Nat)

/-- The bytes a call of `Read` delivered. -/
def ReadResult.delivered (result : ReadResult) : Bytes := result.buffer.take result.n.toNat

/-- The error check at the end of a round. -/
def checkReadErr (request : Bytes) (consecutiveNoReads : Nat) : Option GoError → Round
  | some .eof => .done (.ok request)
  | some err => .done (.error (.read err))
  | none => .more request consecutiveNoReads

/-- The body of the loop: what one call of `Read` returned is checked, kept and judged. -/
def readRound (request : Bytes) (consecutiveNoReads offered : Nat) (result : ReadResult) : Round :=
  if result.n < 0 ∨ result.n > offered then .done (.error .readerContract)
  else if result.n > 0 then
    let request := request ++ result.delivered
    if request.length > maxRequestBodyBytes then .done (.error .tooLarge)
    else checkReadErr request 0 result.err
  else if result.err = none then
    if consecutiveNoReads + 1 ≥ maxConsecutiveNoReads then .done (.error .noProgress)
    else checkReadErr request (consecutiveNoReads + 1) result.err
  else checkReadErr request consecutiveNoReads result.err

/-- The size of the buffer offered to the next call. -/
def offeredSize (length : Nat) : Nat := min (maxRetainedBytes - length) readBufferBytes

theorem checkReadErr_more {request request' : Bytes} {noReads noReads' : Nat} {err : Option GoError}
    (h : checkReadErr request noReads err = .more request' noReads') :
    err = none ∧ request' = request ∧ noReads' = noReads := by
  unfold checkReadErr at h
  split at h
  · cases h
  · cases h
  · cases h
    exact ⟨rfl, rfl, rfl⟩

/-- A round that goes on has received bytes, or counted one more call without any. -/
theorem readRound_more {request request' : Bytes} {noReads noReads' offered : Nat}
    {result : ReadResult} (h : readRound request noReads offered result = .more request' noReads') :
    result.err = none ∧ result.n ≤ offered ∧
      ((0 < result.n ∧ request' = request ++ result.delivered ∧
          request'.length ≤ maxRequestBodyBytes ∧ noReads' = 0) ∨
        (result.n = 0 ∧ request' = request ∧ noReads' = noReads + 1 ∧
          noReads + 1 < maxConsecutiveNoReads)) := by
  rw [readRound] at h
  split at h
  · cases h
  rename_i hrange
  rw [not_or, Int.not_lt, gt_iff_lt, Int.not_lt] at hrange
  split at h
  · rename_i hpos
    simp only at h
    split at h
    · cases h
    rename_i hsmall
    obtain ⟨herr, rfl, rfl⟩ := checkReadErr_more h
    exact ⟨herr, hrange.2, .inl ⟨hpos, rfl, Nat.not_lt.mp hsmall, rfl⟩⟩
  rename_i hzero
  split at h
  · split at h
    · cases h
    rename_i hfew
    obtain ⟨herr, rfl, rfl⟩ := checkReadErr_more h
    exact ⟨herr, hrange.2, .inr ⟨by omega, rfl, rfl, by omega⟩⟩
  · rename_i herr
    exact absurd (checkReadErr_more h).1 herr

theorem length_delivered {σ : Type} (reader : Reader σ) (s : σ) (offered : Nat)
    (hn : (reader.read s offered).1.n ≤ offered) :
    (reader.read s offered).1.delivered.length = (reader.read s offered).1.n.toNat := by
  rw [ReadResult.delivered, List.length_take, reader.length_buffer]
  omega

/-- The loop of `readRequestBody`. -/
def readLoop {σ : Type} (reader : Reader σ) (request : Bytes) (consecutiveNoReads : Nat) (s : σ) :
    Except BodyError Bytes :=
  if maxRetainedBytes - request.length = 0 then .error .tooLarge
  else
    let offered := offeredSize request.length
    match _hround : readRound request consecutiveNoReads offered (reader.read s offered).1 with
    | .done result => result
    | .more request consecutiveNoReads =>
      readLoop reader request consecutiveNoReads (reader.read s offered).2
termination_by (maxRetainedBytes - request.length, maxConsecutiveNoReads - consecutiveNoReads)
decreasing_by
  obtain ⟨-, hle, ⟨hpos, rfl, hsmall, -⟩ | ⟨-, rfl, rfl, hfew⟩⟩ := readRound_more _hround
  · -- bytes were received: less room is left
    have hlen := length_delivered reader s _ hle
    refine Prod.Lex.left _ _ ?_
    rw [List.length_append, hlen] at hsmall ⊢
    unfold maxRetainedBytes
    omega
  · exact Prod.Lex.right _ (by omega)

/-- `readRequestBody` -/
def readRequestBody {σ : Type} (reader : Reader σ) (s : σ) : Except BodyError Bytes :=
  readLoop reader [] 0 s

/-! ## Traces -/

/-- The results a reader produces, one call after the other, when it is offered buffers as the loop
offers them; `length` counts the bytes received before. -/
inductive Trace {σ : Type} (reader : Reader σ) : σ → Nat → List ReadResult → Prop
  | nil {s : σ} {length : Nat} : Trace reader s length []
  | cons {s : σ} {length : Nat} {trace : List ReadResult} :
      Trace reader (reader.read s (offeredSize length)).2
        (length + (reader.read s (offeredSize length)).1.n.toNat) trace →
      Trace reader s length ((reader.read s (offeredSize length)).1 :: trace)

/-- A call that returned `0, nil`. -/
def ReadResult.IsNoRead (result : ReadResult) : Prop := result.n = 0 ∧ result.err = none

/-- A trace that delivers a body: end of file once, at the end, and no error before it; counts within
the buffers; not too many bytes; no run of 100 calls that returned nothing. -/
structure Delivery (trace : List ReadResult) (body : Bytes) : Prop where
  ends : ∃ before last, trace = before ++ [last] ∧ last.err = some .eof ∧
    ∀ result ∈ before, result.err = none
  counts : ∀ result ∈ trace, 0 ≤ result.n ∧ result.n ≤ result.buffer.length
  bytes : body = trace.flatMap ReadResult.delivered
  length_le : body.length ≤ maxRequestBodyBytes
  progress : ∀ before run after, trace = before ++ (run ++ after) →
    (∀ result ∈ run, result.IsNoRead) → run.length < maxConsecutiveNoReads

/-- No run of calls without bytes reaches the limit, when `noReads` of them came before. -/
structure NoStall (noReads : Nat) (trace : List ReadResult) : Prop where
  lead : ∀ run after, trace = run ++ after → (∀ result ∈ run, result.IsNoRead) →
    noReads + run.length < maxConsecutiveNoReads
  inner : ∀ before run after, trace = before ++ (run ++ after) →
    (∀ result ∈ run, result.IsNoRead) → run.length < maxConsecutiveNoReads

theorem noStall_cons_noRead {noReads : Nat} {result : ReadResult} {trace : List ReadResult}
    (h : result.IsNoRead) : NoStall noReads (result :: trace) ↔ NoStall (noReads + 1) trace := by
  constructor
  · rintro ⟨hlead, hinner⟩
    refine ⟨fun run after heq hrun => ?_, fun before run after heq hrun => ?_⟩
    · have := hlead (result :: run) after (by rw [heq]; rfl) (List.forall_mem_cons.mpr ⟨h, hrun⟩)
      rw [List.length_cons] at this
      omega
    · exact hinner (result :: before) run after (by rw [heq]; rfl) hrun
  · rintro ⟨hlead, hinner⟩
    refine ⟨fun run after heq hrun => ?_, fun before run after heq hrun => ?_⟩
    · cases run with
      | nil => have := hlead [] trace rfl (by simp); simp at this ⊢; omega
      | cons r run =>
        obtain ⟨rfl, htail⟩ := List.cons.inj heq
        have := hlead run after htail (List.forall_mem_cons.mp hrun).2
        rw [List.length_cons]
        omega
    · cases before with
      | cons r before => exact hinner before run after (List.cons.inj heq).2 hrun
      | nil =>
        cases run with
        | nil => decide
        | cons r run =>
          have := hlead run after (List.cons.inj heq).2 (List.forall_mem_cons.mp hrun).2
          rw [List.length_cons]
          omega

theorem noStall_cons_read {noReads : Nat} {result : ReadResult} {trace : List ReadResult}
    (h : ¬ result.IsNoRead) :
    NoStall noReads (result :: trace) ↔ noReads < maxConsecutiveNoReads ∧ NoStall 0 trace := by
  constructor
  · rintro ⟨hlead, hinner⟩
    refine ⟨hlead [] (result :: trace) rfl (by simp), fun run after heq hrun => ?_,
      fun before run after heq hrun => ?_⟩
    · have := hinner [result] run after (by rw [heq]; rfl) hrun
      omega
    · exact hinner (result :: before) run after (by rw [heq]; rfl) hrun
  · rintro ⟨hlt, hlead, hinner⟩
    refine ⟨fun run after heq hrun => ?_, fun before run after heq hrun => ?_⟩
    · cases run with
      | nil => exact hlt
      | cons r run =>
        obtain ⟨rfl, -⟩ := List.cons.inj heq
        exact absurd (hrun _ List.mem_cons_self) h
    · cases before with
      | cons r before => exact hinner before run after (List.cons.inj heq).2 hrun
      | nil =>
        cases run with
        | nil => decide
        | cons r run =>
          obtain ⟨rfl, -⟩ := List.cons.inj heq
          exact absurd (hrun _ List.mem_cons_self) h

/-- A delivery that continues after `request` was received and `noReads` calls returned nothing. -/
structure DeliveryFrom (request : Bytes) (noReads : Nat) (trace : List ReadResult) (body : Bytes) :
    Prop where
  ends : ∃ before last, trace = before ++ [last] ∧ last.err = some .eof ∧
    ∀ result ∈ before, result.err = none
  counts : ∀ result ∈ trace, 0 ≤ result.n ∧ result.n ≤ result.buffer.length
  bytes : body = request ++ trace.flatMap ReadResult.delivered
  length_le : body.length ≤ maxRequestBodyBytes
  progress : NoStall noReads trace

theorem deliveryFrom_start {trace : List ReadResult} {body : Bytes} :
    DeliveryFrom [] 0 trace body ↔ Delivery trace body := by
  constructor
  · rintro ⟨h1, h2, h3, h4, h5⟩
    exact ⟨h1, h2, h3, h4, h5.inner⟩
  · rintro ⟨h1, h2, h3, h4, h5⟩
    exact ⟨h1, h2, h3, h4, fun run after heq hrun => by
      have := h5 [] run after heq hrun; omega, h5⟩

theorem deliveryFrom_eof {request body : Bytes} {noReads : Nat} {result : ReadResult}
    {trace : List ReadResult} (herr : result.err = some .eof)
    (hnoReads : noReads < maxConsecutiveNoReads) :
    DeliveryFrom request noReads (result :: trace) body ↔
      (0 ≤ result.n ∧ result.n ≤ result.buffer.length) ∧ trace = [] ∧
        body = request ++ result.delivered ∧ body.length ≤ maxRequestBodyBytes := by
  have hread : ¬ result.IsNoRead := fun h => by cases herr.symm.trans h.2
  constructor
  · rintro ⟨⟨before, last, heq, -, hbefore⟩, hcounts, hbytes, hlen, -⟩
    have hnil : trace = [] := by
      cases before with
      | nil => exact (List.cons.inj heq).2
      | cons r before =>
        obtain ⟨rfl, -⟩ := List.cons.inj heq
        have := hbefore _ List.mem_cons_self
        rw [herr] at this
        cases this
    subst hnil
    exact ⟨hcounts _ List.mem_cons_self, rfl, by simpa using hbytes, hlen⟩
  · rintro ⟨hcounts, rfl, hbytes, hlen⟩
    refine ⟨⟨[], result, rfl, herr, by simp⟩, by simpa using hcounts, by simpa using hbytes, hlen, ?_⟩
    rw [noStall_cons_read hread]
    refine ⟨hnoReads, fun run after heq _ => ?_, fun before run after heq _ => ?_⟩
    · obtain ⟨rfl, -⟩ := List.append_eq_nil_iff.mp heq.symm
      decide
    · obtain ⟨-, heq⟩ := List.append_eq_nil_iff.mp heq.symm
      obtain ⟨rfl, -⟩ := List.append_eq_nil_iff.mp heq
      decide

theorem deliveryFrom_nil_err {request body : Bytes} {noReads : Nat} {result : ReadResult}
    {trace : List ReadResult} (herr : result.err = none) :
    DeliveryFrom request noReads (result :: trace) body ↔
      (0 ≤ result.n ∧ result.n ≤ result.buffer.length) ∧
        ((0 < result.n ∧ noReads < maxConsecutiveNoReads ∧
            DeliveryFrom (request ++ result.delivered) 0 trace body) ∨
          (result.n = 0 ∧ DeliveryFrom request (noReads + 1) trace body)) := by
  -- this answer has no error, so the last one is behind it
  have hends : (∃ before last, result :: trace = before ++ [last] ∧ last.err = some .eof ∧
      ∀ r ∈ before, r.err = none) ↔ ∃ before last, trace = before ++ [last] ∧
        last.err = some .eof ∧ ∀ r ∈ before, r.err = none := by
    constructor
    · rintro ⟨before, last, heq, hlast, hbefore⟩
      cases before with
      | nil =>
        obtain ⟨rfl, -⟩ := List.cons.inj heq
        rw [herr] at hlast
        cases hlast
      | cons r before =>
        exact ⟨before, last, (List.cons.inj heq).2, hlast, (List.forall_mem_cons.mp hbefore).2⟩
    · rintro ⟨before, last, rfl, hlast, hbefore⟩
      exact ⟨result :: before, last, rfl, hlast, List.forall_mem_cons.mpr ⟨herr, hbefore⟩⟩
  constructor
  · rintro ⟨h1, h2, h3, h4, h5⟩
    obtain ⟨hcount, h2⟩ := List.forall_mem_cons.mp h2
    refine ⟨hcount, ?_⟩
    rcases Int.lt_or_eq_of_le hcount.1 with hpos | hzero
    · rw [noStall_cons_read (fun h => by have := h.1; omega)] at h5
      exact .inl ⟨hpos, h5.1, hends.mp h1, h2, by simpa using h3, h4, h5.2⟩
    · have hnone : result.delivered = [] := by simp [ReadResult.delivered, ← hzero]
      rw [noStall_cons_noRead ⟨hzero.symm, herr⟩] at h5
      exact .inr ⟨hzero.symm, hends.mp h1, h2, by simpa [hnone] using h3, h4, h5⟩
  · rintro ⟨hcount, ⟨hpos, hlt, h1, h2, h3, h4, h5⟩ | ⟨hzero, h1, h2, h3, h4, h5⟩⟩
    · exact ⟨hends.mpr h1, List.forall_mem_cons.mpr ⟨hcount, h2⟩, by simpa using h3, h4,
        (noStall_cons_read (fun h => by have := h.1; omega)).mpr ⟨hlt, h5⟩⟩
    · have hnone : result.delivered = [] := by simp [ReadResult.delivered, hzero]
      exact ⟨hends.mpr h1, List.forall_mem_cons.mpr ⟨hcount, h2⟩, by simpa [hnone] using h3, h4,
        (noStall_cons_noRead ⟨hzero, herr⟩).mpr h5⟩

/-! ## The loop follows the trace -/

theorem readRound_eof {request : Bytes} {noReads offered : Nat} {result : ReadResult}
    (hrequest : request.length ≤ maxRequestBodyBytes) (herr : result.err = some .eof) {body : Bytes} :
    readRound request noReads offered result = .done (.ok body) ↔
      (0 ≤ result.n ∧ result.n ≤ offered) ∧ body = request ++ result.delivered ∧
        body.length ≤ maxRequestBodyBytes := by
  rw [readRound]
  split
  · rename_i hrange
    refine iff_of_false (by simp) fun h => ?_
    omega
  rename_i hrange
  split
  · rename_i hpos
    simp only
    split
    · rename_i hbig
      refine iff_of_false (by simp) ?_
      rintro ⟨-, rfl, hsmall⟩
      omega
    · rename_i hsmall
      simp only [herr, checkReadErr, Round.done.injEq, Except.ok.injEq]
      constructor
      · rintro rfl
        exact ⟨by omega, rfl, Nat.not_lt.mp hsmall⟩
      · rintro ⟨-, rfl, -⟩
        rfl
  · rename_i hzero
    have hn : result.n = 0 := by omega
    have hnone : result.delivered = [] := by simp [ReadResult.delivered, hn]
    simp only [herr, reduceCtorEq, if_false, checkReadErr, Round.done.injEq, Except.ok.injEq, hnone,
      List.append_nil]
    constructor
    · rintro rfl
      exact ⟨by omega, rfl, hrequest⟩
    · rintro ⟨-, rfl, -⟩
      rfl

theorem readRound_nil_err {request : Bytes} {noReads offered : Nat} {result : ReadResult}
    (herr : result.err = none) {request' : Bytes} {noReads' : Nat} :
    readRound request noReads offered result = .more request' noReads' ↔
      (0 ≤ result.n ∧ result.n ≤ offered) ∧
        ((0 < result.n ∧ request' = request ++ result.delivered ∧
            request'.length ≤ maxRequestBodyBytes ∧ noReads' = 0) ∨
          (result.n = 0 ∧ request' = request ∧ noReads' = noReads + 1 ∧
            noReads + 1 < maxConsecutiveNoReads)) := by
  constructor
  · intro h
    obtain ⟨-, hle, hcases⟩ := readRound_more h
    exact ⟨⟨by rcases hcases with ⟨h, -⟩ | ⟨h, -⟩ <;> omega, hle⟩, hcases⟩
  · rintro ⟨⟨h0, hle⟩, ⟨hpos, rfl, hsmall, rfl⟩ | ⟨hzero, rfl, rfl, hfew⟩⟩
    · rw [readRound, if_neg (by omega), if_pos hpos]
      simp only [if_neg (Nat.not_lt.mpr hsmall), herr, checkReadErr]
    · rw [readRound, if_neg (by omega), if_neg (by omega), if_pos herr, if_neg (by omega), herr]
      rfl

theorem checkReadErr_ok {request body : Bytes} {noReads : Nat} {err : Option GoError}
    (h : checkReadErr request noReads err = .done (.ok body)) : err = some .eof := by
  unfold checkReadErr at h
  split at h
  · rfl
  · cases h
  · cases h

/-- A body is only ever returned at the end of the file. -/
theorem readRound_ok {request body : Bytes} {noReads offered : Nat} {result : ReadResult}
    (h : readRound request noReads offered result = .done (.ok body)) : result.err = some .eof := by
  rw [readRound] at h
  split at h
  · cases h
  split at h
  · simp only at h
    split at h
    · cases h
    · exact checkReadErr_ok h
  split at h
  · split at h
    · cases h
    · exact checkReadErr_ok h
  · exact checkReadErr_ok h

theorem trace_cons {σ : Type} {reader : Reader σ} {s : σ} {length : Nat} {result : ReadResult}
    {trace : List ReadResult} :
    Trace reader s length (result :: trace) ↔
      result = (reader.read s (offeredSize length)).1 ∧
        Trace reader (reader.read s (offeredSize length)).2 (length + result.n.toNat) trace := by
  constructor
  · intro h
    cases h with
    | cons h => exact ⟨rfl, h⟩
  · rintro ⟨rfl, h⟩
    exact .cons h

/-- A delivery ends with the next call, or goes on where a round of the loop goes on. -/
theorem delivery_step {σ : Type} (reader : Reader σ) {request body : Bytes} {noReads : Nat} {s : σ}
    (hrequest : request.length ≤ maxRequestBodyBytes) (hnoReads : noReads < maxConsecutiveNoReads)
    {result : ReadResult} {s' : σ} (hread : reader.read s (offeredSize request.length) = (result, s')) :
    (∃ trace, Trace reader s request.length trace ∧ DeliveryFrom request noReads trace body) ↔
      (result.err = some .eof ∧
        readRound request noReads (offeredSize request.length) result = .done (.ok body)) ∨
      (result.err = none ∧ ∃ request' noReads',
        readRound request noReads (offeredSize request.length) result = .more request' noReads' ∧
        ∃ trace, Trace reader s' request'.length trace ∧
          DeliveryFrom request' noReads' trace body) := by
  have hbuffer : result.buffer.length = offeredSize request.length := by
    have := reader.length_buffer s (offeredSize request.length)
    rwa [hread] at this
  have hdelivered : result.n ≤ offeredSize request.length →
      result.delivered.length = result.n.toNat := by
    intro hn
    have := length_delivered reader s (offeredSize request.length) (by rwa [hread])
    rwa [hread] at this
  constructor
  · rintro ⟨trace, htrace, hdelivery⟩
    cases trace with
    | nil => obtain ⟨_, _, heq, -⟩ := hdelivery.ends; simp at heq
    | cons r trace =>
      obtain ⟨hr, htrace⟩ := trace_cons.mp htrace
      rw [hread] at hr htrace
      simp only at hr
      subst hr
      cases herr : r.err with
      | none =>
        -- no error: the call brought bytes, or it counts as an empty one
        obtain ⟨hcount, hcases⟩ := (deliveryFrom_nil_err herr).mp hdelivery
        rw [hbuffer] at hcount
        refine .inr ⟨rfl, ?_⟩
        rcases hcases with ⟨hpos, -, hrest⟩ | ⟨hzero, hrest⟩
        · have hprefix : (request ++ r.delivered).length ≤ maxRequestBodyBytes := by
            have := hrest.length_le
            rw [hrest.bytes, List.length_append] at this
            omega
          refine ⟨_, _, (readRound_nil_err herr).mpr ⟨hcount, .inl ⟨hpos, rfl, hprefix, rfl⟩⟩,
            trace, ?_, hrest⟩
          rwa [List.length_append, hdelivered hcount.2]
        · have hfew := hrest.progress.lead [] trace rfl (by simp)
          refine ⟨_, _, (readRound_nil_err herr).mpr ⟨hcount, .inr ⟨hzero, rfl, rfl, hfew⟩⟩, trace,
            ?_, hrest⟩
          simpa [hzero] using htrace
      | some err =>
        -- an error is the last answer of a delivery, so it is the end of file
        have heof : err = .eof := by
          obtain ⟨before, last, heq, hlast, hbefore⟩ := hdelivery.ends
          cases before with
          | nil =>
            obtain ⟨rfl, -⟩ := List.cons.inj heq
            exact Option.some.inj (herr.symm.trans hlast)
          | cons r' before =>
            obtain ⟨rfl, -⟩ := List.cons.inj heq
            cases herr.symm.trans (hbefore _ List.mem_cons_self)
        subst heof
        obtain ⟨hcount, -, hbytes, hlen⟩ := (deliveryFrom_eof herr hnoReads).mp hdelivery
        rw [hbuffer] at hcount
        exact .inl ⟨rfl, (readRound_eof hrequest herr).mpr ⟨hcount, hbytes, hlen⟩⟩
  · rintro (⟨herr, hround⟩ | ⟨herr, request', noReads', hround, trace, htrace, hdelivery⟩)
    · obtain ⟨hcount, hbytes, hlen⟩ := (readRound_eof hrequest herr).mp hround
      rw [← hbuffer] at hcount
      refine ⟨[result], trace_cons.mpr ⟨by rw [hread], .nil⟩, ?_⟩
      exact (deliveryFrom_eof herr hnoReads).mpr ⟨hcount, rfl, hbytes, hlen⟩
    · obtain ⟨hcount, hcases⟩ := (readRound_nil_err herr).mp hround
      refine ⟨result :: trace, trace_cons.mpr ⟨by rw [hread], ?_⟩, ?_⟩
      · rw [hread]
        rcases hcases with ⟨-, rfl, -, -⟩ | ⟨hzero, rfl, -, -⟩
        · rwa [List.length_append, hdelivered hcount.2] at htrace
        · simpa [hzero] using htrace
      · rw [deliveryFrom_nil_err herr, hbuffer]
        refine ⟨hcount, ?_⟩
        rcases hcases with ⟨hpos, rfl, -, rfl⟩ | ⟨hzero, rfl, rfl, -⟩
        · exact .inl ⟨hpos, hnoReads, hdelivery⟩
        · exact .inr ⟨hzero, hdelivery⟩

theorem readLoop_ok_iff {σ : Type} (reader : Reader σ) (request : Bytes) (noReads : Nat) (s : σ)
    (hrequest : request.length ≤ maxRequestBodyBytes) (hnoReads : noReads < maxConsecutiveNoReads)
    {body : Bytes} :
    readLoop reader request noReads s = .ok body ↔
      ∃ trace, Trace reader s request.length trace ∧ DeliveryFrom request noReads trace body := by
  fun_induction readLoop reader request noReads s with
  | case1 request noReads s hfull => unfold maxRetainedBytes at hfull; omega
  | case2 request noReads s hroom offered result hround =>
    rw [delivery_step reader hrequest hnoReads rfl]
    constructor
    · rintro rfl
      exact .inl ⟨readRound_ok hround, hround⟩
    · rintro (⟨-, h⟩ | ⟨-, _, _, h, -⟩)
      · exact Round.done.inj (hround.symm.trans h)
      · cases hround.symm.trans h
  | case3 request noReads s hroom offered request' noReads' hround ih =>
    obtain ⟨herr, -, hcases⟩ := readRound_more hround
    rw [delivery_step reader hrequest hnoReads rfl, ih]
    · constructor
      · rintro ⟨trace, htrace, hdelivery⟩
        exact .inr ⟨herr, request', noReads', hround, trace, htrace, hdelivery⟩
      · rintro (⟨heof, -⟩ | ⟨-, _, _, h, trace, htrace, hdelivery⟩)
        · cases heof.symm.trans herr
        · cases hround.symm.trans h
          exact ⟨trace, htrace, hdelivery⟩
    · rcases hcases with ⟨-, -, h, -⟩ | ⟨-, rfl, -, -⟩
      · exact h
      · exact hrequest
    · rcases hcases with ⟨-, -, -, rfl⟩ | ⟨-, -, rfl, h⟩
      · decide
      · exact h

/-- The bodies `readRequestBody` returns are the ones its reader delivers. -/
theorem readRequestBody_ok_iff {σ : Type} (reader : Reader σ) (s : σ) {body : Bytes} :
    readRequestBody reader s = .ok body ↔
      ∃ trace, Trace reader s 0 trace ∧ Delivery trace body := by
  rw [readRequestBody, readLoop_ok_iff reader [] 0 s (Nat.zero_le _) (by decide)]
  simp only [deliveryFrom_start, List.length_nil]

end FastGate.ModelTurn
