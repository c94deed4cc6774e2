/-
# FastGate.Service.Serve — who owns a running server

`Service.Serve` starts the HTTP server in a goroutine and waits for it to end or for its context to be
canceled; then it shuts the server down and collects the server's result.  The two parties share a
channel with one place.  `Step` lets the server, the context and the owner take turns in any order,
with arbitrary results of `Serve`, `Shutdown` and `Close`.

`Inv` ties the owner's place in its code to what the log says about it and to where the server's
result is: still to be sent, in the channel, or received.  Everything `serve_returned` says about a
finished run is read off it.

* The log holds the events of all parties, the newest first.  `History` is what the owner's part of it
  looks like at each place of its code, `Holds` where the result of the server is.
* `Caused` says that an event has its cause below it in the log: a receipt a delivery, a shutdown the end
  of the context or of the server.
* `inv_step` is the step lemma, one case for each rule, and `inv_of_reaches` the run lemma.
* Errors are joined as `errors.Join` does, so what is returned is known part by part (`errorParts`).
-/
import Mathlib.Data.List.Basic
import Mathlib.Tactic.Common

namespace FastGate.Service

variable {ε : Type}

/-! ## Errors -/

/-- The errors `Service.Serve` builds around those of the server. -/
inductive ServiceError (ε : Type) where
  | message (text : String)
  | server (err : ε)
  | wrapped (operation : String) (err : ServiceError ε)
  | joined (errs : List (ServiceError ε))

/-- The server errors that an error is built from, in order. -/
def ServiceError.parts : ServiceError ε → List ε
  | .message _ => []
  | .server err => [err]
  | .wrapped _ err => err.parts
  | .joined errs => all errs
where
  all : List (ServiceError ε) → List ε
    | [] => []
    | err :: errs => err.parts ++ all errs

/-- `errors.Join` -/
def join (errs : List (Option (ServiceError ε))) : Option (ServiceError ε) :=
  match errs.filterMap id with
  | [] => none
  | errs => some (.joined errs)

/-- `fmt.Errorf("%s: %w", operation, err)` for an error of the server, and nil for nil. -/
def wrapError (operation : String) (err : Option ε) : Option (ServiceError ε) :=
  err.map fun err => .wrapped operation (.server err)

/-- `closed err` is `errors.Is(err, http.ErrServerClosed)`. -/
def normalizeServeError (closed : ε → Bool) (err : Option ε) : Option (ServiceError ε) :=
  match err with
  | none => none
  | some err => if closed err then none else some (.wrapped "serve FastGate" (.server err))

/-- What `stop` returns when `Shutdown` and `Close` have returned these errors. -/
def stopError (shutdownErr : ε) (closeErr : Option ε) : Option (ServiceError ε) :=
  join [some (.wrapped "graceful FastGate shutdown" (.server shutdownErr)),
    wrapError "force-close FastGate server" closeErr]

/-! ## The parties -/

/-- What happens in a run. -/
inductive Event (ε : Type) where
  | canceled
  | delivered (serveErr : Option ε)
  | received (serveErr : Option ε)
  | sawDone
  | shutdown
  | shutdownReturned (err : Option ε)
  | close
  | closeReturned (err : Option ε)
  | returned (err : Option (ServiceError ε))

/-- The goroutine: `server.Serve` is running, or has returned and its result is to be sent, or has
been sent.  Before the goroutine is started it is `absent`. -/
inductive Server (ε : Type) where
  | absent
  | serving
  | sending (serveErr : Option ε)
  | finished (serveErr : Option ε)

/-- Where `Service.Serve` is, with its local variables; `served` is `serveErr` once `serveFinished`. -/
inductive Owner (ε : Type) where
  | selecting
  | stopping (served : Option (Option ε))
  | shuttingDown (served : Option (Option ε))
  | forcing (served : Option (Option ε)) (shutdownErr : ε)
  | closing (served : Option (Option ε)) (shutdownErr : ε)
  | collecting (served : Option (Option ε)) (stopErr : Option (ServiceError ε))
  | returned (err : Option (ServiceError ε))

/-- The parties, the channel between them, the context, and what has happened, the latest first. -/
structure State (ε : Type) where
  owner : Owner ε
  server : Server ε
  serveResult : Option (Option ε)
  canceled : Bool
  log : List (Event ε)

/-- The call of `Service.Serve`, with a context that may be nil or canceled already. -/
def start (ctx : Option Bool) (listener : Bool) : State ε :=
  match ctx with
  | none => ⟨.returned (some (.message "serve FastGate: context is required")), .absent, none, false, []⟩
  | some canceled =>
    let log := if canceled then [.canceled] else []
    if listener then ⟨.selecting, .serving, none, canceled, log⟩
    else ⟨.returned (some (.message "serve FastGate: listener is required")), .absent, none, canceled, log⟩

/-- One step of one party.  The owner's select has a step for each event that is ready. -/
inductive Step (closed : ε → Bool) : State ε → State ε → Prop
  | cancel {o w r l} : Step closed ⟨o, w, r, false, l⟩ ⟨o, w, r, true, .canceled :: l⟩
  | serveReturns {o r c l} (serveErr : Option ε) :
      Step closed ⟨o, .serving, r, c, l⟩ ⟨o, .sending serveErr, r, c, l⟩
  | deliver {o c l serveErr} :
      Step closed ⟨o, .sending serveErr, none, c, l⟩
        ⟨o, .finished serveErr, some serveErr, c, .delivered serveErr :: l⟩
  | selectResult {w c l serveErr} :
      Step closed ⟨.selecting, w, some serveErr, c, l⟩
        ⟨.stopping (some serveErr), w, none, c, .received serveErr :: l⟩
  | selectDone {w r l} :
      Step closed ⟨.selecting, w, r, true, l⟩ ⟨.stopping none, w, r, true, .sawDone :: l⟩
  | callShutdown {w r c l served} :
      Step closed ⟨.stopping served, w, r, c, l⟩ ⟨.shuttingDown served, w, r, c, .shutdown :: l⟩
  | shutdownDrains {w r c l served} :
      Step closed ⟨.shuttingDown served, w, r, c, l⟩
        ⟨.collecting served none, w, r, c, .shutdownReturned none :: l⟩
  | shutdownFails {w r c l served} (err : ε) :
      Step closed ⟨.shuttingDown served, w, r, c, l⟩
        ⟨.forcing served err, w, r, c, .shutdownReturned (some err) :: l⟩
  | callClose {w r c l served err} :
      Step closed ⟨.forcing served err, w, r, c, l⟩ ⟨.closing served err, w, r, c, .close :: l⟩
  | closeReturns {w r c l served err} (closeErr : Option ε) :
      Step closed ⟨.closing served err, w, r, c, l⟩
        ⟨.collecting served (stopError err closeErr), w, r, c, .closeReturned closeErr :: l⟩
  | collect {w c l stopErr serveErr} :
      Step closed ⟨.collecting none stopErr, w, some serveErr, c, l⟩
        ⟨.collecting (some serveErr) stopErr, w, none, c, .received serveErr :: l⟩
  | ret {w r c l stopErr serveErr} :
      Step closed ⟨.collecting (some serveErr) stopErr, w, r, c, l⟩
        ⟨.returned (join [normalizeServeError closed serveErr, stopErr]), w, r, c,
          .returned (join [normalizeServeError closed serveErr, stopErr]) :: l⟩

/-- The states a call can come to. -/
inductive Reaches (closed : ε → Bool) (first : State ε) : State ε → Prop
  | start : Reaches closed first first
  | step {state state' : State ε} : Reaches closed first state → Step closed state state' →
      Reaches closed first state'

/-! ## Reading the log -/

/-- The events of the owner's code; the others happen outside of it. -/
def Event.byOwner : Event ε → Bool
  | .canceled | .delivered _ => false
  | _ => true

/-- What the goroutine put into the channel. -/
def deliveries (log : List (Event ε)) : List (Option ε) :=
  log.filterMap fun | .delivered serveErr => some serveErr | _ => none

/-- What the owner took out of the channel. -/
def receipts (log : List (Event ε)) : List (Option ε) :=
  log.filterMap fun | .received serveErr => some serveErr | _ => none

/-- How calls of `Shutdown` ended. -/
def shutdowns (log : List (Event ε)) : List (Option ε) :=
  log.filterMap fun | .shutdownReturned err => some err | _ => none

/-- How calls of `Close` ended. -/
def closes (log : List (Event ε)) : List (Option ε) :=
  log.filterMap fun | .closeReturned err => some err | _ => none

/-- The owner calls `Shutdown`. -/
def Event.isShutdown : Event ε → Bool
  | .shutdown => true
  | _ => false

/-- The owner calls `Close`. -/
def Event.isClose : Event ε → Bool
  | .close => true
  | _ => false

/-- What the owner found ready at its select. -/
def selected : Option (Option ε) → List (Event ε)
  | some serveErr => [.received serveErr]
  | none => [.sawDone]

/-- The events of `stop`, the latest first. -/
def stopLog : Option ε → Option ε → List (Event ε)
  | none, _ => [.shutdownReturned none, .shutdown]
  | some err, closeErr =>
    [.closeReturned closeErr, .close, .shutdownReturned (some err), .shutdown]

/-- The error of `stop`. -/
def stopResult : Option ε → Option ε → Option (ServiceError ε)
  | none, _ => none
  | some err, closeErr => stopError err closeErr

/-- The error of a call with these results of `Serve`, `Shutdown` and `Close`. -/
def serveError (closed : ε → Bool) (serveErr shutdownErr closeErr : Option ε) :
    Option (ServiceError ε) :=
  join [normalizeServeError closed serveErr, stopResult shutdownErr closeErr]

/-- The owner's events up to its place in the code, the latest first. -/
inductive History (closed : ε → Bool) : Owner ε → List (Event ε) → Prop
  | selecting : History closed .selecting []
  | stopping (served) : History closed (.stopping served) (selected served)
  | shuttingDown (served) : History closed (.shuttingDown served) (.shutdown :: selected served)
  | forcing (served err) : History closed (.forcing served err)
      (.shutdownReturned (some err) :: .shutdown :: selected served)
  | closing (served err) : History closed (.closing served err)
      (.close :: .shutdownReturned (some err) :: .shutdown :: selected served)
  | collecting (served shutdownErr closeErr) :
      History closed (.collecting served (stopResult shutdownErr closeErr))
        (stopLog shutdownErr closeErr ++ selected served)
  | collected (serveErr shutdownErr closeErr) :
      History closed (.collecting (some serveErr) (stopResult shutdownErr closeErr))
        (.received serveErr :: (stopLog shutdownErr closeErr ++ [.sawDone]))
  | returned {serveErr shutdownErr closeErr log} :
      log = stopLog shutdownErr closeErr ++ [.received serveErr] ∨
        log = .received serveErr :: (stopLog shutdownErr closeErr ++ [.sawDone]) →
      History closed (.returned (serveError closed serveErr shutdownErr closeErr))
        (.returned (serveError closed serveErr shutdownErr closeErr) :: log)

/-- Where the server's result is. -/
def Holds (server : Server ε) (serveResult : Option (Option ε)) (log : List (Event ε)) : Prop :=
  match server with
  | .finished serveErr => deliveries log = [serveErr] ∧
      (serveResult = some serveErr ∧ receipts log = [] ∨
        serveResult = none ∧ receipts log = [serveErr])
  | _ => serveResult = none ∧ deliveries log = [] ∧ receipts log = []

/-- What must have happened before an event. -/
def Caused (ev : Event ε) (older : List (Event ε)) : Prop :=
  match ev with
  | .received serveErr => .delivered serveErr ∈ older
  | .sawDone => .canceled ∈ older
  | .shutdown => (∃ serveErr, .delivered serveErr ∈ older) ∨ .canceled ∈ older
  | .close => ∃ err, .shutdownReturned (some err) ∈ older
  | _ => True

/-- What holds in every state of a call that was given a context and a listener. -/
structure Inv (closed : ε → Bool) (state : State ε) : Prop where
  history : History closed state.owner (state.log.filter Event.byOwner)
  result : Holds state.server state.serveResult state.log
  canceled : state.canceled = true → .canceled ∈ state.log
  cause : ∀ newer ev older, state.log = newer ++ ev :: older → Caused ev older

variable {closed : ε → Bool}

theorem inv_start (canceled : Bool) : Inv closed (start (some canceled) true) := by
  refine ⟨?_, ?_, ?_, ?_⟩
  · cases canceled <;> exact .selecting
  · cases canceled <;> exact ⟨rfl, rfl, rfl⟩
  · rintro rfl
    exact List.mem_singleton_self _
  · intro newer ev older h
    cases canceled with
    | false => cases newer <;> cases h
    | true =>
      cases newer with
      | nil => cases h; trivial
      | cons _ newer => cases newer <;> cases h

/-- A new event leaves the earlier ones and their causes alone. -/
theorem cause_cons {ev : Event ε} {log : List (Event ε)} (hev : Caused ev log)
    (h : ∀ newer ev older, log = newer ++ ev :: older → Caused ev older) :
    ∀ newer ev' older, ev :: log = newer ++ ev' :: older → Caused ev' older := by
  intro newer ev' older heq
  cases newer with
  | nil =>
    obtain ⟨rfl, rfl⟩ := List.cons.inj heq
    exact hev
  | cons _ newer => exact h newer ev' older (List.cons.inj heq).2

/-- An event of the log was caused by earlier ones. -/
theorem Inv.caused {state : State ε} (h : Inv closed state) {ev : Event ε} (hev : ev ∈ state.log) :
    ∃ newer older, state.log = newer ++ ev :: older ∧ Caused ev older := by
  obtain ⟨newer, older, heq⟩ := List.append_of_mem hev
  exact ⟨newer, older, heq, h.cause _ _ _ heq⟩

theorem mem_of_deliveries {serveErr : Option ε} {log : List (Event ε)}
    (h : deliveries log = [serveErr]) : Event.delivered serveErr ∈ log := by
  have hmem : serveErr ∈ deliveries log := by rw [h]; exact List.mem_singleton_self _
  obtain ⟨ev, hev, hsome⟩ := List.mem_filterMap.mp hmem
  cases ev <;> simp at hsome
  rwa [hsome] at hev

/-- A step that adds an event. -/
theorem Inv.add {o o' : Owner ε} {w w' : Server ε} {r r' : Option (Option ε)} {c : Bool}
    {l : List (Event ε)} {ev : Event ε} (h : Inv closed ⟨o, w, r, c, l⟩)
    (history : History closed o' ((ev :: l).filter Event.byOwner)) (result : Holds w' r' (ev :: l))
    (hcause : Caused ev l) : Inv closed ⟨o', w', r', c, ev :: l⟩ where
  history := history
  result := result
  canceled hc := List.mem_cons_of_mem _ (h.canceled hc)
  cause := cause_cons hcause h.cause

/-- A step of the owner alone. -/
theorem Inv.own {o o' : Owner ε} {w : Server ε} {r : Option (Option ε)} {c : Bool}
    {l : List (Event ε)} {ev : Event ε} (h : Inv closed ⟨o, w, r, c, l⟩)
    (history : ∀ {log}, History closed o log → History closed o' (ev :: log))
    (hown : ev.byOwner = true) (result : Holds w r (ev :: l)) (hcause : Caused ev l) :
    Inv closed ⟨o', w, r, c, ev :: l⟩ := by
  refine h.add ?_ result hcause
  rw [List.filter_cons_of_pos hown]
  exact history h.history

/-- A result in the channel was delivered and not received yet. -/
theorem holds_full {w : Server ε} {serveErr : Option ε} {l : List (Event ε)}
    (h : Holds w (some serveErr) l) :
    w = .finished serveErr ∧ deliveries l = [serveErr] ∧ receipts l = [] := by
  cases w with
  | finished e =>
    obtain ⟨hdeliveries, ⟨hchannel, hreceipts⟩ | ⟨hchannel, -⟩⟩ := h
    · cases hchannel
      exact ⟨rfl, hdeliveries, hreceipts⟩
    · cases hchannel
  | _ => cases h.1

/-- Receiving it empties the channel. -/
theorem holds_received {w : Server ε} {serveErr : Option ε} {l : List (Event ε)}
    (h : Holds w (some serveErr) l) : Holds w none (.received serveErr :: l) := by
  obtain ⟨rfl, hdeliveries, hreceipts⟩ := holds_full h
  exact ⟨hdeliveries, .inr ⟨rfl, congrArg (_ :: ·) hreceipts⟩⟩

theorem inv_step {state state' : State ε} (h : Inv closed state) (hstep : Step closed state state') :
    Inv closed state' := by
  have history := h.history
  have result := h.result
  cases hstep with
  | cancel =>
    exact ⟨history, result, fun _ => List.mem_cons_self, cause_cons trivial h.cause⟩
  | serveReturns serveErr => exact ⟨history, result, h.canceled, h.cause⟩
  | deliver =>
    obtain ⟨-, hdeliveries, hreceipts⟩ := result
    exact h.add history ⟨congrArg (_ :: ·) hdeliveries, .inl ⟨rfl, hreceipts⟩⟩ trivial
  | @selectResult w c l serveErr =>
    refine h.add ?_ (holds_received result) (mem_of_deliveries (holds_full result).2.1)
    rw [List.filter_cons_of_pos rfl]
    generalize l.filter Event.byOwner = log at history
    cases history
    exact .stopping (some serveErr)
  | @selectDone w r l =>
    refine h.own (fun hlog => ?_) rfl result (h.canceled rfl)
    cases hlog
    exact .stopping none
  | @callShutdown w r c l served =>
    refine h.own (fun hlog => ?_) rfl result ?_
    · cases hlog
      exact .shuttingDown served
    -- the select has left a trace of the event it fired for, and that event its cause
    have hselected : ∀ ev ∈ selected served, ev ∈ l := by
      intro ev hev
      generalize hlog : l.filter Event.byOwner = log at history
      cases history
      rw [← hlog] at hev
      exact (List.mem_filter.mp hev).1
    cases served with
    | some serveErr =>
      obtain ⟨newer, older, heq, hdelivered⟩ := h.caused (hselected _ (List.mem_singleton_self _))
      refine .inl ⟨serveErr, ?_⟩
      rw [show l = _ from heq]
      exact List.mem_append_right _ (List.mem_cons_of_mem _ hdelivered)
    | none =>
      obtain ⟨newer, older, heq, hcanceled⟩ := h.caused (hselected _ (List.mem_singleton_self _))
      refine .inr ?_
      rw [show l = _ from heq]
      exact List.mem_append_right _ (List.mem_cons_of_mem _ hcanceled)
  | @shutdownDrains w r c l served =>
    refine h.own (fun hlog => ?_) rfl result trivial
    cases hlog
    exact .collecting served none none
  | @shutdownFails w r c l served err =>
    refine h.own (fun hlog => ?_) rfl result trivial
    cases hlog
    exact .forcing served err
  | @callClose w r c l served err =>
    refine h.own (fun hlog => ?_) rfl result ⟨err, ?_⟩
    · cases hlog
      exact .closing served err
    · have hmem : .shutdownReturned (some err) ∈ l.filter Event.byOwner := by
        generalize l.filter Event.byOwner = log at history
        cases history
        exact List.mem_cons_self
      exact (List.mem_filter.mp hmem).1
  | @closeReturns w r c l served err closeErr =>
    refine h.own (fun hlog => ?_) rfl result trivial
    cases hlog
    exact .collecting served (some err) closeErr
  | @collect w c l stopErr serveErr =>
    refine h.add ?_ (holds_received result) (mem_of_deliveries (holds_full result).2.1)
    rw [List.filter_cons_of_pos rfl]
    generalize l.filter Event.byOwner = log at history
    cases history
    exact .collected serveErr _ _
  | @ret w r c l stopErr serveErr =>
    refine h.own (fun hlog => ?_) rfl result trivial
    cases hlog with
    | collecting _ shutdownErr closeErr => exact .returned (.inl rfl)
    | collected _ shutdownErr closeErr => exact .returned (.inr rfl)

theorem inv_of_reaches {canceled : Bool} {state : State ε}
    (h : Reaches closed (start (some canceled) true) state) : Inv closed state := by
  induction h with
  | start => exact inv_start canceled
  | step _ hstep ih => exact inv_step ih hstep

/-! ## What a finished call has done -/

/-- What is read off the owner's events alone can be read off the owner's part of the log. -/
theorem filterMap_byOwner {β : Type} {f : Event ε → Option β}
    (hf : ∀ ev, ev.byOwner = false → f ev = none) (log : List (Event ε)) :
    (log.filter Event.byOwner).filterMap f = log.filterMap f := by
  rw [List.filterMap_filter]
  congr 1
  funext ev
  cases hev : ev.byOwner with
  | false => rw [hf ev hev]; rfl
  | true => rfl

theorem countP_byOwner {p : Event ε → Bool} (hp : ∀ ev, p ev = true → ev.byOwner = true)
    (log : List (Event ε)) : (log.filter Event.byOwner).countP p = log.countP p := by
  rw [List.countP_filter]
  congr 1
  funext ev
  cases hev : p ev with
  | false => rfl
  | true => simp [hp ev hev]

/-- The server errors in what a call returns. -/
def errorParts (err : Option (ServiceError ε)) : List ε := (err.map ServiceError.parts).getD []

/-- A call returns nil after a clean shutdown of a server that had no error but `ErrServerClosed`. -/
theorem serveError_none_iff (serveErr shutdownErr closeErr : Option ε) :
    serveError closed serveErr shutdownErr closeErr = none ↔
      shutdownErr = none ∧ ∀ err ∈ serveErr, closed err = true := by
  have hserve : normalizeServeError closed serveErr = none ↔ ∀ err ∈ serveErr, closed err = true := by
    cases serveErr with
    | none => simp [normalizeServeError]
    | some err => cases hclosed : closed err <;> simp [normalizeServeError, hclosed]
  have hstop : stopResult shutdownErr closeErr = none ↔ shutdownErr = none := by
    cases shutdownErr <;> simp [stopResult, stopError, join]
  rw [← hserve, ← hstop, serveError]
  cases normalizeServeError closed serveErr <;> cases stopResult shutdownErr closeErr <;> simp [join]

/-- Otherwise it joins the errors there were. -/
theorem errorParts_serveError (serveErr shutdownErr closeErr : Option ε) :
    errorParts (serveError closed serveErr shutdownErr closeErr) =
      serveErr.toList.filter (fun err => !closed err) ++
        (shutdownErr.toList ++ if shutdownErr.isSome then closeErr.toList else []) := by
  have hjoin : ∀ a b : Option (ServiceError ε),
      errorParts (join [a, b]) = errorParts a ++ errorParts b := by
    intro a b
    cases a <;> cases b <;>
      simp [join, errorParts, ServiceError.parts, ServiceError.parts.all]
  have hserve : errorParts (normalizeServeError closed serveErr) =
      serveErr.toList.filter (fun err => !closed err) := by
    cases serveErr with
    | none => rfl
    | some err =>
      cases hclosed : closed err <;>
        simp [normalizeServeError, hclosed, errorParts, ServiceError.parts]
  have hstop : errorParts (stopResult shutdownErr closeErr) =
      shutdownErr.toList ++ if shutdownErr.isSome then closeErr.toList else [] := by
    cases shutdownErr with
    | none => rfl
    | some err =>
      rw [stopResult, stopError, hjoin]
      cases closeErr <;> rfl
  rw [serveError, hjoin, hserve, hstop]

/-- What the owner has done by the time it returns. -/
theorem history_returned {err : Option (ServiceError ε)} {log : List (Event ε)}
    (h : History closed (.returned err) log) : ∃ serveErr shutdownErr closeErr,
      err = serveError closed serveErr shutdownErr closeErr ∧ receipts log = [serveErr] ∧
        (log.countP Event.isShutdown = 1 ∧ shutdowns log = [shutdownErr]) ∧
        log.countP Event.isClose = (if shutdownErr.isSome then 1 else 0) ∧
        closes log = (if shutdownErr.isSome then [closeErr] else []) := by
  cases h with
  | @returned serveErr shutdownErr closeErr log hlog =>
    refine ⟨serveErr, shutdownErr, closeErr, rfl, ?_⟩
    rcases hlog with rfl | rfl <;> cases shutdownErr <;> exact ⟨rfl, ⟨rfl, rfl⟩, rfl, rfl⟩

/-- When `Service.Serve` returns, after any interleaving of its parties: the goroutine has delivered
its result, which was received once; `Shutdown` was called once, behind the server's result or the
cancellation; `Close` was called once if `Shutdown` failed, behind that failure, and not at all
otherwise; and the error is a function of the three results, nil or a join of those that count. -/
theorem serve_returned (closed : ε → Bool) (canceled : Bool) {state : State ε}
    {err : Option (ServiceError ε)} (h : Reaches closed (start (some canceled) true) state)
    (hreturned : state.owner = .returned err) :
    ∃ serveErr shutdownErr closeErr : Option ε,
      (state.server = .finished serveErr ∧ state.serveResult = none ∧
        deliveries state.log = [serveErr] ∧ receipts state.log = [serveErr]) ∧
      (state.log.countP Event.isShutdown = 1 ∧ shutdowns state.log = [shutdownErr] ∧
        ∀ newer older, state.log = newer ++ .shutdown :: older →
          (∃ serveErr, .delivered serveErr ∈ older) ∨ .canceled ∈ older) ∧
      (state.log.countP Event.isClose = (if shutdownErr.isSome then 1 else 0) ∧
        closes state.log = (if shutdownErr.isSome then [closeErr] else []) ∧
        ∀ newer older, state.log = newer ++ .close :: older →
          ∃ err, .shutdownReturned (some err) ∈ older) ∧
      err = serveError closed serveErr shutdownErr closeErr ∧
      (err = none ↔ shutdownErr = none ∧ ∀ e ∈ serveErr, closed e = true) ∧
      errorParts err = serveErr.toList.filter (fun e => !closed e) ++
        (shutdownErr.toList ++ if shutdownErr.isSome then closeErr.toList else []) := by
  obtain ⟨owner, server, serveResult, c, log⟩ := state
  obtain rfl : owner = .returned err := hreturned
  have hinv := inv_of_reaches h
  have history := hinv.history
  -- what the owner has done is known from its history
  obtain ⟨serveErr, shutdownErr, closeErr, rfl, hreceipts, ⟨hshutdown, hshutdowns⟩, hclose, hcloses⟩ :=
    history_returned history
  -- the other events are the cancellation and the delivery, and count for none of the lists
  have hother : ∀ {ev : Event ε}, ev.byOwner = false → ev = .canceled ∨ ∃ e, ev = .delivered e := by
    intro ev hev
    cases ev <;> simp_all [Event.byOwner]
  rw [receipts, filterMap_byOwner fun ev hev => by
    rcases hother hev with rfl | ⟨e, rfl⟩ <;> rfl] at hreceipts
  rw [shutdowns, filterMap_byOwner fun ev hev => by
    rcases hother hev with rfl | ⟨e, rfl⟩ <;> rfl] at hshutdowns
  rw [closes, filterMap_byOwner fun ev hev => by
    rcases hother hev with rfl | ⟨e, rfl⟩ <;> rfl] at hcloses
  rw [countP_byOwner fun ev hev => by cases ev <;> first | rfl | cases hev] at hshutdown hclose
  refine ⟨serveErr, shutdownErr, closeErr, ?_, ⟨hshutdown, hshutdowns, ?_⟩, ⟨hclose, hcloses, ?_⟩,
    rfl, serveError_none_iff _ _ _, errorParts_serveError _ _ _⟩
  · -- what was received is what the goroutine delivered
    have result := hinv.result
    cases server with
    | finished e =>
      obtain ⟨hdeliveries, ⟨-, hnone⟩ | ⟨hchannel, hone⟩⟩ := result
      · cases hnone.symm.trans hreceipts
      · cases hone.symm.trans hreceipts
        exact ⟨rfl, hchannel, hdeliveries, hreceipts⟩
    | _ => cases result.2.2.symm.trans hreceipts
  · exact fun newer older heq => hinv.cause newer _ older heq
  · exact fun newer older heq => hinv.cause newer _ older heq

/-- The context is canceled before the start, the drain fails, the server is closed by force, and what
`Serve` returns then is `ErrServerClosed`. -/
def forcedState : State Nat where
  owner := .returned (serveError (· == 0) (some 0) (some 1) (some 2))
  server := .finished (some 0)
  serveResult := none
  canceled := true
  log := [.returned (serveError (· == 0) (some 0) (some 1) (some 2)), .received (some 0),
    .delivered (some 0), .closeReturned (some 2), .close, .shutdownReturned (some 1), .shutdown,
    .sawDone, .canceled]

theorem reaches_forcedState : Reaches (· == 0) (start (some true) true) forcedState :=
  .step (.step (.step (.step (.step (.step (.step (.step (.step .start .selectDone) .callShutdown)
    (.shutdownFails 1)) .callClose) (.closeReturns (some 2))) (.serveReturns (some 0))) .deliver)
    .collect) .ret

theorem serve_returned_sample : forcedState.log.countP Event.isShutdown = 1 ∧
    ∃ serveErr, receipts forcedState.log = [serveErr] := by
  obtain ⟨serveErr, _, _, ⟨-, -, -, hreceipts⟩, ⟨hshutdown, -, -⟩, -⟩ :=
    serve_returned (· == 0) true reaches_forcedState rfl
  exact ⟨hshutdown, serveErr, hreceipts⟩

end FastGate.Service
