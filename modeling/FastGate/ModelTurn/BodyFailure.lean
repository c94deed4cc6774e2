/-
# FastGate.ModelTurn.BodyFailure — which error a body read ends with

`readRequestBody` checks an answer of its reader for an impossible count, then for too many bytes,
then for a stall, and only then looks at the error that came with it.  `Failure` says so of the trace
of answers: everything before the last one is in order, and the last one fails first for the given
reason.  With `Delivery` this settles every run, and neither mentions how the reader cuts its bytes
into chunks: `readRequestBody_streams` is the result for any reader that hands out given data.

* `InOrderFrom`, `FailsFrom` and `FailureFrom` are the same notions in the middle of a run, with what has
  been received and the number of empty reads so far; at the start they are those above
  (`failureFrom_start`).
* `Advances` is the step: what one answer that is in order does to these two, and to the rest of the
  trace.
* `readRequestBody_error_iff` is the run lemma, and `readRequestBody_result` puts success and failure
  together.
-/
import FastGate.ModelTurn.Body

open FastGate.Utf8 (Bytes)
open FastGate.Provider (GoError)

namespace FastGate.ModelTurn

/-- A count that `Read` may return for the buffer it was offered. -/
def ReadResult.InRange (result : ReadResult) : Prop := 0 ≤ result.n ∧ result.n ≤ result.buffer.length

/-- No 100 consecutive answers were `0, nil`. -/
def Progress (trace : List ReadResult) : Prop :=
  ∀ before run after, trace = before ++ (run ++ after) →
    (∀ result ∈ run, result.IsNoRead) → run.length < maxConsecutiveNoReads

/-- The bytes of a trace. -/
def received (trace : List ReadResult) : Bytes := trace.flatMap ReadResult.delivered

/-- Answers that are in order: no error, counts within the buffers, no stall, not too many bytes. -/
structure InOrder (trace : List ReadResult) : Prop where
  errors : ∀ result ∈ trace, result.err = none
  counts : ∀ result ∈ trace, result.InRange
  length_le : (received trace).length ≤ maxRequestBodyBytes
  progress : Progress trace

/-- The first condition that `last` fails behind `before`. -/
inductive FailsAt (before : List ReadResult) (last : ReadResult) : BodyError → Prop
  | invalidCount : ¬ last.InRange → FailsAt before last .readerContract
  | overflow : last.InRange → maxRequestBodyBytes < (received (before ++ [last])).length →
      FailsAt before last .tooLarge
  | noProgress : last.InRange → (received (before ++ [last])).length ≤ maxRequestBodyBytes →
      ¬ Progress (before ++ [last]) → FailsAt before last .noProgress
  | readError {err : GoError} : last.InRange →
      (received (before ++ [last])).length ≤ maxRequestBodyBytes → Progress (before ++ [last]) →
      last.err = some err → err ≠ .eof → FailsAt before last (.read err)

/-- A trace whose last answer is the first one out of order. -/
def Failure (trace : List ReadResult) (e : BodyError) : Prop :=
  ∃ before last, trace = before ++ [last] ∧ InOrder before ∧ FailsAt before last e

/-! ## Continuing after some answers -/

/-- `InOrder`, after `request` was received and `noReads` calls returned nothing. -/
structure InOrderFrom (request : Bytes) (noReads : Nat) (trace : List ReadResult) : Prop where
  errors : ∀ result ∈ trace, result.err = none
  counts : ∀ result ∈ trace, result.InRange
  length_le : (request ++ received trace).length ≤ maxRequestBodyBytes
  progress : NoStall noReads trace

/-- `FailsAt`, in the same way. -/
inductive FailsFrom (request : Bytes) (noReads : Nat) (before : List ReadResult) (last : ReadResult) :
    BodyError → Prop
  | invalidCount : ¬ last.InRange → FailsFrom request noReads before last .readerContract
  | overflow : last.InRange → maxRequestBodyBytes < (request ++ received (before ++ [last])).length →
      FailsFrom request noReads before last .tooLarge
  | noProgress : last.InRange →
      (request ++ received (before ++ [last])).length ≤ maxRequestBodyBytes →
      ¬ NoStall noReads (before ++ [last]) → FailsFrom request noReads before last .noProgress
  | readError {err : GoError} : last.InRange →
      (request ++ received (before ++ [last])).length ≤ maxRequestBodyBytes →
      NoStall noReads (before ++ [last]) → last.err = some err → err ≠ .eof →
      FailsFrom request noReads before last (.read err)

/-- The trace breaks off at a call that is at fault, after calls that were all in order. -/
def FailureFrom (request : Bytes) (noReads : Nat) (trace : List ReadResult) (e : BodyError) : Prop :=
  ∃ before last, trace = before ++ [last] ∧ InOrderFrom request noReads before ∧
    FailsFrom request noReads before last e

theorem noStall_start {trace : List ReadResult} : NoStall 0 trace ↔ Progress trace := by
  constructor
  · exact fun h => h.inner
  · intro h
    exact ⟨fun run after heq hrun => by have := h [] run after heq hrun; omega, h⟩

theorem failureFrom_start {trace : List ReadResult} {e : BodyError} :
    FailureFrom [] 0 trace e ↔ Failure trace e := by
  have horder : ∀ before, InOrderFrom [] 0 before ↔ InOrder before := by
    intro before
    constructor
    · rintro ⟨h1, h2, h3, h4⟩
      exact ⟨h1, h2, h3, noStall_start.mp h4⟩
    · rintro ⟨h1, h2, h3, h4⟩
      exact ⟨h1, h2, h3, noStall_start.mpr h4⟩
  have hfails : ∀ before last, FailsFrom [] 0 before last e ↔ FailsAt before last e := by
    intro before last
    constructor
    · rintro (h | ⟨h1, h2⟩ | ⟨h1, h2, h3⟩ | ⟨h1, h2, h3, h4, h5⟩)
      · exact .invalidCount h
      · exact .overflow h1 h2
      · exact .noProgress h1 h2 fun h => h3 (noStall_start.mpr h)
      · exact .readError h1 h2 (noStall_start.mp h3) h4 h5
    · rintro (h | ⟨h1, h2⟩ | ⟨h1, h2, h3⟩ | ⟨h1, h2, h3, h4, h5⟩)
      · exact .invalidCount h
      · exact .overflow h1 h2
      · exact .noProgress h1 h2 fun h => h3 (noStall_start.mp h)
      · exact .readError h1 h2 (noStall_start.mpr h3) h4 h5
  unfold FailureFrom Failure
  simp only [horder, hfails]

/-- An answer in order moves the loop from one state to the next; whatever follows is judged there. -/
structure Advances (request : Bytes) (noReads : Nat) (result : ReadResult) (request' : Bytes)
    (noReads' : Nat) : Prop where
  error : result.err = none
  count : result.InRange
  bytes : request' = request ++ result.delivered
  length_le : request'.length ≤ maxRequestBodyBytes
  stall : ∀ trace, NoStall noReads (result :: trace) ↔ NoStall noReads' trace
  few : noReads' < maxConsecutiveNoReads

section Advances

variable {request request' : Bytes} {noReads noReads' : Nat} {result last : ReadResult}
  {before trace : List ReadResult} {e : BodyError}

theorem Advances.received (h : Advances request noReads result request' noReads')
    (trace : List ReadResult) :
    request ++ received (result :: trace) = request' ++ ModelTurn.received trace := by
  rw [h.bytes, List.append_assoc]
  rfl

theorem Advances.inOrder (h : Advances request noReads result request' noReads') :
    InOrderFrom request noReads (result :: trace) ↔ InOrderFrom request' noReads' trace := by
  constructor
  · rintro ⟨h1, h2, h3, h4⟩
    rw [h.received] at h3
    exact ⟨(List.forall_mem_cons.mp h1).2, (List.forall_mem_cons.mp h2).2, h3, (h.stall _).mp h4⟩
  · rintro ⟨h1, h2, h3, h4⟩
    rw [← h.received] at h3
    exact ⟨List.forall_mem_cons.mpr ⟨h.error, h1⟩, List.forall_mem_cons.mpr ⟨h.count, h2⟩, h3,
      (h.stall _).mpr h4⟩

theorem Advances.fails (h : Advances request noReads result request' noReads') :
    FailsFrom request noReads (result :: before) last e ↔ FailsFrom request' noReads' before last e := by
  have hbytes := h.received (before ++ [last])
  have hstall := h.stall (before ++ [last])
  constructor
  · rintro (h1 | ⟨h1, h2⟩ | ⟨h1, h2, h3⟩ | ⟨h1, h2, h3, h4, h5⟩)
    · exact .invalidCount h1
    · exact .overflow h1 (by rwa [← hbytes])
    · exact .noProgress h1 (by rwa [← hbytes]) fun hmore => h3 (hstall.mpr hmore)
    · exact .readError h1 (by rwa [← hbytes]) (hstall.mp h3) h4 h5
  · rintro (h1 | ⟨h1, h2⟩ | ⟨h1, h2, h3⟩ | ⟨h1, h2, h3, h4, h5⟩)
    · exact .invalidCount h1
    · exact .overflow h1 (by rwa [← hbytes] at h2)
    · exact .noProgress h1 (by rwa [← hbytes] at h2) fun hmore => h3 (hstall.mp hmore)
    · exact .readError h1 (by rwa [← hbytes] at h2) (hstall.mpr h3) h4 h5

theorem noStall_nil (h : noReads < maxConsecutiveNoReads) : NoStall noReads [] := by
  constructor
  · intro run after heq _
    obtain ⟨rfl, -⟩ := List.append_eq_nil_iff.mp heq.symm
    exact h
  · intro before run after heq _
    obtain ⟨-, heq⟩ := List.append_eq_nil_iff.mp heq.symm
    obtain ⟨rfl, -⟩ := List.append_eq_nil_iff.mp heq
    decide

/-- An answer in order is no failure. -/
theorem Advances.not_fails (h : Advances request noReads result request' noReads') :
    ¬ FailsFrom request noReads [] result e := by
  have hbytes : request ++ ModelTurn.received [result] = request' := by
    rw [h.received]
    exact List.append_nil _
  rintro (h1 | ⟨-, h2⟩ | ⟨-, -, h3⟩ | ⟨-, -, -, h4, -⟩)
  · exact h1 h.count
  · rw [List.nil_append, hbytes] at h2
    exact Nat.not_lt.mpr h.length_le h2
  · exact h3 ((h.stall []).mpr (noStall_nil h.few))
  · cases h.error.symm.trans h4

theorem Advances.failure (h : Advances request noReads result request' noReads') :
    FailureFrom request noReads (result :: trace) e ↔ FailureFrom request' noReads' trace e := by
  constructor
  · rintro ⟨before, last, heq, horder, hfails⟩
    cases before with
    | nil =>
      obtain ⟨rfl, -⟩ := List.cons.inj heq
      exact absurd hfails h.not_fails
    | cons r before =>
      obtain ⟨rfl, rfl⟩ := List.cons.inj heq
      exact ⟨before, last, rfl, h.inOrder.mp horder, h.fails.mp hfails⟩
  · rintro ⟨before, last, rfl, horder, hfails⟩
    exact ⟨result :: before, last, rfl, h.inOrder.mpr horder, h.fails.mpr hfails⟩

end Advances

/-! ## The loop fails where its trace does -/

/-- A round goes on exactly when the answer is in order. -/
theorem advances_of_more {request request' : Bytes} {noReads noReads' offered : Nat}
    {result : ReadResult} (hbuffer : result.buffer.length = offered)
    (hrequest : request.length ≤ maxRequestBodyBytes) (hnoReads : noReads < maxConsecutiveNoReads)
    (h : readRound request noReads offered result = .more request' noReads') :
    Advances request noReads result request' noReads' := by
  subst hbuffer
  have herr := (readRound_more h).1
  obtain ⟨hcount, hcases⟩ := (readRound_nil_err herr).mp h
  rcases hcases with ⟨hpos, rfl, hsmall, rfl⟩ | ⟨hzero, rfl, rfl, hfew⟩
  · refine ⟨herr, hcount, rfl, hsmall, fun trace => ?_, by decide⟩
    rw [noStall_cons_read fun h => by have := h.1; omega, and_iff_right hnoReads]
  · have hnone : result.delivered = [] := by simp [ReadResult.delivered, hzero]
    exact ⟨herr, hcount, by rw [hnone, List.append_nil], hrequest,
      fun trace => noStall_cons_noRead ⟨hzero, herr⟩, hfew⟩

theorem more_of_inOrder {request : Bytes} {noReads offered : Nat} {result : ReadResult}
    {before : List ReadResult} (hbuffer : result.buffer.length = offered)
    (h : InOrderFrom request noReads (result :: before)) :
    ∃ request' noReads', readRound request noReads offered result = .more request' noReads' := by
  subst hbuffer
  have herr := h.errors _ List.mem_cons_self
  have hcount := h.counts _ List.mem_cons_self
  rcases Int.lt_or_eq_of_le hcount.1 with hpos | hzero
  · have hsmall := h.length_le
    simp only [received, List.flatMap_cons, List.length_append] at hsmall
    refine ⟨_, _, (readRound_nil_err herr).mpr ⟨hcount, .inl ⟨hpos, rfl, ?_, rfl⟩⟩⟩
    rw [List.length_append]
    omega
  · have hfew := h.progress.lead [result] before rfl (by simp [ReadResult.IsNoRead, ← hzero, herr])
    exact ⟨_, _, (readRound_nil_err herr).mpr ⟨hcount, .inr ⟨hzero.symm, rfl, rfl, hfew⟩⟩⟩

theorem checkReadErr_error {request : Bytes} {noReads : Nat} {err : Option GoError} {e : BodyError} :
    checkReadErr request noReads err = .done (.error e) ↔
      ∃ err', err = some err' ∧ err' ≠ .eof ∧ e = .read err' := by
  unfold checkReadErr
  split
  · refine iff_of_false (by simp) ?_
    rintro ⟨_, h, hne, -⟩
    exact hne (Option.some.inj h).symm
  · rename_i err hne
    rw [Round.done.injEq, Except.error.injEq]
    constructor
    · rintro rfl
      exact ⟨err, rfl, fun h => hne (by rw [h]), rfl⟩
    · rintro ⟨_, h, -, rfl⟩
      rw [Option.some.inj h]
  · exact iff_of_false (by simp) (by simp)

theorem noStall_one {noReads : Nat} {result : ReadResult} (hnoReads : noReads < maxConsecutiveNoReads) :
    NoStall noReads [result] ↔ (result.IsNoRead → noReads + 1 < maxConsecutiveNoReads) := by
  by_cases h : result.IsNoRead
  · rw [noStall_cons_noRead h]
    constructor
    · exact fun hstall _ => hstall.lead [] [] rfl (by simp)
    · exact fun hfew => noStall_nil (hfew h)
  · rw [noStall_cons_read h]
    exact iff_of_true ⟨hnoReads, noStall_nil (by decide)⟩ fun h' => absurd h' h

/-- The checks of a round, in their order, are the cases of a failure. -/
theorem readRound_error_iff {request : Bytes} {noReads offered : Nat} {result : ReadResult}
    {e : BodyError} (hbuffer : result.buffer.length = offered)
    (hrequest : request.length ≤ maxRequestBodyBytes) (hnoReads : noReads < maxConsecutiveNoReads) :
    readRound request noReads offered result = .done (.error e) ↔
      FailsFrom request noReads [] result e := by
  subst hbuffer
  have hone : request ++ received ([] ++ [result]) = request ++ result.delivered := by
    simp [received]
  rw [readRound]
  split
  · -- a count out of range
    rename_i hrange
    have hcount : ¬ result.InRange := by unfold ReadResult.InRange; omega
    rw [Round.done.injEq, Except.error.injEq]
    constructor
    · rintro rfl
      exact .invalidCount hcount
    · rintro (- | ⟨h, -⟩ | ⟨h, -, -⟩ | ⟨h, -, -, -, -⟩)
      · rfl
      all_goals exact absurd h hcount
  rename_i hrange
  have hcount : result.InRange := by unfold ReadResult.InRange; omega
  split
  · rename_i hpos
    have hread : ¬ result.IsNoRead := fun h => by have := h.1; omega
    have hstall : NoStall noReads ([] ++ [result]) :=
      (noStall_one hnoReads).mpr fun h => absurd h hread
    simp only
    split
    · -- more bytes than a body may have
      rename_i hbig
      rw [Round.done.injEq, Except.error.injEq]
      constructor
      · rintro rfl
        exact .overflow hcount (by rwa [hone])
      · rintro (h | - | ⟨-, h, -⟩ | ⟨-, h, -, -, -⟩)
        · exact absurd hcount h
        · rfl
        all_goals
          rw [hone] at h
          exact absurd hbig (Nat.not_lt.mpr h)
    · -- the bytes fit, so only an error of the reader is left
      rename_i hsmall
      rw [checkReadErr_error]
      constructor
      · rintro ⟨err, herr, hne, rfl⟩
        exact .readError hcount (by rw [hone]; exact Nat.not_lt.mp hsmall) hstall herr hne
      · rintro (h | ⟨-, h⟩ | ⟨-, -, h⟩ | ⟨-, -, -, herr, hne⟩)
        · exact absurd hcount h
        · rw [hone] at h
          exact absurd h hsmall
        · exact absurd hstall h
        · exact ⟨_, herr, hne, rfl⟩
  · rename_i hzero
    have hn : result.n = 0 := by omega
    have hfits : (request ++ received ([] ++ [result])).length ≤ maxRequestBodyBytes := by
      rw [hone]
      simpa [ReadResult.delivered, hn] using hrequest
    split
    · rename_i herr
      have hstall : NoStall noReads [result] ↔ (result.IsNoRead → _) := noStall_one hnoReads
      split
      · -- one read too many without a byte
        rename_i hmany
        have hstalled : ¬ NoStall noReads ([] ++ [result]) := fun h => by
          have := hstall.mp h ⟨hn, herr⟩
          omega
        rw [Round.done.injEq, Except.error.injEq]
        constructor
        · rintro rfl
          exact .noProgress hcount hfits hstalled
        · rintro (h | ⟨-, h⟩ | - | ⟨-, -, h, -, -⟩)
          · exact absurd hcount h
          · exact absurd h (Nat.not_lt.mpr hfits)
          · rfl
          · exact absurd h hstalled
      · rename_i hfew
        rw [checkReadErr_error]
        constructor
        · rintro ⟨_, h, -, -⟩
          cases herr.symm.trans h
        · rintro (h | ⟨-, h⟩ | ⟨-, -, h⟩ | ⟨-, -, -, h, hne⟩)
          · exact absurd hcount h
          · exact absurd h (Nat.not_lt.mpr hfits)
          · exact absurd (hstall.mpr fun _ => by omega) h
          · exact ⟨_, h, hne, rfl⟩
    · rename_i herr
      have hstall : NoStall noReads ([] ++ [result]) :=
        (noStall_one hnoReads).mpr fun h => absurd h.2 herr
      rw [checkReadErr_error]
      constructor
      · rintro ⟨err, herr, hne, rfl⟩
        exact .readError hcount hfits hstall herr hne
      · rintro (h | ⟨-, h⟩ | ⟨-, -, h⟩ | ⟨-, -, -, herr, hne⟩)
        · exact absurd hcount h
        · exact absurd h (Nat.not_lt.mpr hfits)
        · exact absurd hstall h
        · exact ⟨_, herr, hne, rfl⟩

theorem readLoop_error_iff {σ : Type} (reader : Reader σ) (request : Bytes) (noReads : Nat) (s : σ)
    (hrequest : request.length ≤ maxRequestBodyBytes) (hnoReads : noReads < maxConsecutiveNoReads)
    {e : BodyError} :
    readLoop reader request noReads s = .error e ↔
      ∃ trace, Trace reader s request.length trace ∧ FailureFrom request noReads trace e := by
  fun_induction readLoop reader request noReads s with
  | case1 request noReads s hfull => unfold maxRetainedBytes at hfull; omega
  | case2 request noReads s hroom offered result hround =>
    have hbuffer := reader.length_buffer s offered
    have hiff := readRound_error_iff (e := e) hbuffer hrequest hnoReads
    constructor
    · rintro rfl
      refine ⟨[_], trace_cons.mpr ⟨rfl, .nil⟩, [], _, rfl, ?_, hiff.mp hround⟩
      exact ⟨by simp, by simp, by simpa [received] using hrequest, noStall_nil hnoReads⟩
    · rintro ⟨_, htrace, before, last, rfl, horder, hfails⟩
      cases before with
      | nil =>
        obtain ⟨rfl, -⟩ := trace_cons.mp htrace
        exact Round.done.inj (hround.symm.trans (hiff.mpr hfails))
      | cons r before =>
        -- an answer in order does not end the loop
        obtain ⟨rfl, -⟩ := trace_cons.mp htrace
        obtain ⟨_, _, hmore⟩ := more_of_inOrder hbuffer horder
        cases hround.symm.trans hmore
  | case3 request noReads s hroom offered request' noReads' hround ih =>
    have hadv := advances_of_more (reader.length_buffer s offered) hrequest hnoReads hround
    have hcount := hadv.count
    rw [ih hadv.length_le hadv.few]
    have hlen : request'.length = request.length + (reader.read s offered).1.n.toNat := by
      rw [hadv.bytes, List.length_append, length_delivered]
      have := hcount.2
      rwa [reader.length_buffer] at this
    constructor
    · rintro ⟨trace, htrace, hfailure⟩
      refine ⟨_ :: trace, trace_cons.mpr ⟨rfl, ?_⟩, hadv.failure.mpr hfailure⟩
      rwa [hlen] at htrace
    · rintro ⟨trace, htrace, hfailure⟩
      cases trace with
      | nil =>
        obtain ⟨before, last, heq, -⟩ := hfailure
        simp at heq
      | cons r trace =>
        obtain ⟨rfl, htrace⟩ := trace_cons.mp htrace
        refine ⟨trace, ?_, hadv.failure.mp hfailure⟩
        rwa [hlen]

theorem readRequestBody_error_iff {σ : Type} (reader : Reader σ) (s : σ) {e : BodyError} :
    readRequestBody reader s = .error e ↔ ∃ trace, Trace reader s 0 trace ∧ Failure trace e := by
  rw [readRequestBody, readLoop_error_iff reader [] 0 s (Nat.zero_le _) (by decide)]
  simp only [failureFrom_start, List.length_nil]

/-! ## Readers of given data -/

/-- The reader hands out `data` and then the end of file, with the last bytes or behind them, whatever
buffers it is offered; `noReads` calls returned nothing before. -/
inductive Streams {σ : Type} (reader : Reader σ) : Nat → σ → Bytes → Prop
  | answer {noReads : Nat} {s : σ} {data : Bytes} (rest : Nat → Bytes)
      (count : ∀ offered, 0 < offered → (reader.read s offered).1.InRange)
      (bytes : ∀ offered, 0 < offered → data = (reader.read s offered).1.delivered ++ rest offered)
      (last : ∀ offered, 0 < offered → ∀ err, (reader.read s offered).1.err = some err →
        err = .eof ∧ rest offered = [])
      (few : ∀ offered, 0 < offered → (reader.read s offered).1.IsNoRead →
        noReads + 1 < maxConsecutiveNoReads)
      (more : ∀ offered, 0 < offered → (reader.read s offered).1.err = none →
        Streams reader (if 0 < (reader.read s offered).1.n then 0 else noReads + 1)
          (reader.read s offered).2 (rest offered)) :
      Streams reader noReads s data

theorem offeredSize_pos {length : Nat} (h : length ≤ maxRequestBodyBytes) : 0 < offeredSize length := by
  unfold offeredSize maxRetainedBytes
  exact Nat.lt_min.mpr ⟨by omega, by decide⟩

section Rounds

variable {σ : Type} {reader : Reader σ} {request request' : Bytes} {noReads noReads' : Nat} {s : σ}

theorem readLoop_of_done {result : Except BodyError Bytes} (hrequest : request.length ≤ maxRequestBodyBytes)
    (h : readRound request noReads (offeredSize request.length)
      (reader.read s (offeredSize request.length)).1 = .done result) :
    readLoop reader request noReads s = result := by
  rw [readLoop, if_neg (by unfold maxRetainedBytes; omega)]
  simp only
  split
  · rename_i hround
    exact Round.done.inj (hround.symm.trans h)
  · rename_i hround
    cases hround.symm.trans h

theorem readLoop_of_more (hrequest : request.length ≤ maxRequestBodyBytes)
    (h : readRound request noReads (offeredSize request.length)
      (reader.read s (offeredSize request.length)).1 = .more request' noReads') :
    readLoop reader request noReads s =
      readLoop reader request' noReads' (reader.read s (offeredSize request.length)).2 := by
  rw [readLoop, if_neg (by unfold maxRetainedBytes; omega)]
  simp only
  split
  · rename_i hround
    cases hround.symm.trans h
  · rename_i hround
    cases hround.symm.trans h
    rfl

end Rounds

theorem readLoop_streams {σ : Type} {reader : Reader σ} {noReads : Nat} {s : σ} {data : Bytes}
    (h : Streams reader noReads s data) : ∀ {request : Bytes},
      request.length ≤ maxRequestBodyBytes → noReads < maxConsecutiveNoReads →
      readLoop reader request noReads s =
        if (request ++ data).length ≤ maxRequestBodyBytes then .ok (request ++ data)
        else .error .tooLarge := by
  induction h with
  | @answer noReads s data rest count bytes last few more ih =>
    intro request hrequest hnoReads
    have hpos := offeredSize_pos hrequest
    have hbuffer := reader.length_buffer s (offeredSize request.length)
    have hcount := count _ hpos
    have hdata := bytes _ hpos
    have hrange := hcount
    unfold ReadResult.InRange at hrange
    rw [hbuffer] at hrange
    by_cases hsmall : (request ++ (reader.read s (offeredSize request.length)).1.delivered).length ≤
        maxRequestBodyBytes
    swap
    · -- the limit is passed here, whatever is still to come
      have hfails := (readRound_error_iff hbuffer hrequest hnoReads).mpr
        (.overflow hcount (by simpa [received] using hsmall))
      rw [readLoop_of_done hrequest hfails, if_neg]
      rw [hdata, ← List.append_assoc, List.length_append]
      omega
    -- the chunk fits: it is the last one, or the loop goes on
    cases herr : (reader.read s (offeredSize request.length)).1.err with
    | some err =>
      obtain ⟨rfl, hrest⟩ := last _ hpos err herr
      rw [hrest, List.append_nil] at hdata
      rw [readLoop_of_done hrequest ((readRound_eof hrequest herr).mpr ⟨hrange, rfl, hsmall⟩), hdata,
        if_pos hsmall]
    | none =>
      replace ih := fun request => @ih _ hpos herr request
      -- bytes start the count of empty reads anew, an empty one adds to it
      rcases Int.lt_or_eq_of_le hcount.1 with hbytes | hzero
      · have hround : readRound request noReads (offeredSize request.length)
            (reader.read s (offeredSize request.length)).1 = .more (request ++ _) 0 :=
          (readRound_nil_err herr).mpr ⟨hrange, .inl ⟨hbytes, rfl, hsmall, rfl⟩⟩
        simp only [if_pos hbytes] at ih
        rw [readLoop_of_more hrequest hround, ih _ hsmall (by decide), List.append_assoc, ← hdata]
      · have hfew := few _ hpos ⟨hzero.symm, herr⟩
        have hround : readRound request noReads (offeredSize request.length)
            (reader.read s (offeredSize request.length)).1 = .more request (noReads + 1) :=
          (readRound_nil_err herr).mpr ⟨hrange, .inr ⟨hzero.symm, rfl, rfl, hfew⟩⟩
        have hnone : (reader.read s (offeredSize request.length)).1.delivered = [] := by
          simp [ReadResult.delivered, ← hzero]
        rw [hnone, List.nil_append] at hdata
        simp only [if_neg (Int.not_lt.mpr (Int.le_of_eq hzero.symm))] at ih
        rw [readLoop_of_more hrequest hround, ih _ hrequest hfew, ← hdata]

/-- A reader of given data makes the result depend on the data alone. -/
theorem readRequestBody_streams {σ : Type} {reader : Reader σ} {s : σ} {data : Bytes}
    (h : Streams reader 0 s data) : readRequestBody reader s =
      if data.length ≤ maxRequestBodyBytes then .ok data else .error .tooLarge :=
  readLoop_streams h (Nat.zero_le _) (by decide)

/-- A body read is settled by the answers of its reader, and by nothing but the data where the reader
keeps delivering: a body comes back exactly for a delivery, an error exactly for the first failing
condition of the first answer out of order, and two readers of the same data end alike. -/
theorem readRequestBody_result {σ : Type} (reader : Reader σ) (s : σ) :
    (∀ body, readRequestBody reader s = .ok body ↔
      ∃ trace, Trace reader s 0 trace ∧ Delivery trace body) ∧
    (∀ e, readRequestBody reader s = .error e ↔
      ∃ trace, Trace reader s 0 trace ∧ Failure trace e) ∧
    (∀ data, Streams reader 0 s data → ∀ {τ : Type} (reader' : Reader τ) (s' : τ),
      Streams reader' 0 s' data → readRequestBody reader s = readRequestBody reader' s') := by
  refine ⟨fun body => readRequestBody_ok_iff reader s, fun e => readRequestBody_error_iff reader s, ?_⟩
  intro data h τ reader' s' h'
  rw [readRequestBody_streams h, readRequestBody_streams h']

/-! ### Slices of a byte string -/

/-- A reader that hands out a byte string in slices of at most `chunk` bytes, the end of file with the
last one. -/
def sliceReader (chunk : Nat) : Reader Bytes where
  read data offered :=
    let slice := data.take (min chunk offered)
    (⟨slice ++ List.replicate (offered - slice.length) 0, slice.length,
      if slice.length = data.length then some .eof else none⟩, data.drop (min chunk offered))
  length_buffer data offered := by
    rw [List.length_append, List.length_replicate, List.length_take]
    omega

theorem streams_sliceReader {chunk : Nat} (hchunk : 0 < chunk) : ∀ (length : Nat) (data : Bytes),
    data.length = length → Streams (sliceReader chunk) 0 data data := by
  intro length
  induction length using Nat.strongRecOn with
  | ind length ih =>
    intro data hlength
    refine .answer (fun offered => data.drop (min chunk offered)) ?_ ?_ ?_ ?_ ?_
    · intro offered _
      refine ⟨Int.natCast_nonneg _, ?_⟩
      rw [(sliceReader chunk).length_buffer]
      exact Int.ofNat_le.mpr (by rw [List.length_take]; omega)
    · intro offered _
      simp only [sliceReader, ReadResult.delivered, Int.toNat_natCast, List.take_left]
      exact (List.take_append_drop _ _).symm
    · intro offered hoffered err herr
      simp only [sliceReader] at herr
      split at herr
      · rename_i hall
        rw [List.length_take] at hall
        exact ⟨(Option.some.inj herr).symm, List.drop_eq_nil_of_le (by omega)⟩
      · cases herr
    · intro offered hoffered hno
      decide
    · intro offered hoffered herr
      simp only [sliceReader] at herr
      split at herr
      · cases herr
      · rename_i hpart
        rw [List.length_take] at hpart
        have hpos : 0 < ((sliceReader chunk).read data offered).1.n :=
          Int.natCast_pos.mpr (by rw [List.length_take]; omega)
        -- a read that is not the last one takes something off
        have hless : (data.drop (min chunk offered)).length < length := by
          rw [List.length_drop]
          omega
        rw [if_pos hpos]
        exact ih _ hless _ rfl

/-- Slices of one byte and slices of five. -/
theorem readRequestBody_result_sample :
    readRequestBody (sliceReader 1) [1, 2, 3, 4, 5, 6, 7] =
      readRequestBody (sliceReader 5) [1, 2, 3, 4, 5, 6, 7] :=
  (readRequestBody_result (sliceReader 1) _).2.2 _ (streams_sliceReader (by decide) _ _ rfl)
    (sliceReader 5) _ (streams_sliceReader (by decide) _ _ rfl)

end FastGate.ModelTurn
