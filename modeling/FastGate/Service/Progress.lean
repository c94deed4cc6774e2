/-
# FastGate.Service.Progress — a call of `Service.Serve` ends

`serve_returned` says what a finished call has done.  Here is why it finishes: every step of a party
leaves less to do (`remaining_step`), and where nothing can be done any more the owner has returned
and the goroutine has sent its result (`returned_of_stuck`).

* `Runs` are runs with their number of steps, so that a bound on steps is a bound on runs
  (`Runs.bounded`).
* `CanGo`: some party can take a step.  The cancellation of the context is not counted, since nobody in
  the process has to bring it about.
* What the owner needs from outside is that `server.Serve` returns, so this is assumed where a call that
  is stuck is shown to have returned.  The channel has one place: the goroutine never waits for the owner.
-/
import FastGate.Service.Serve

namespace FastGate.Service

variable {ε : Type} {closed : ε → Bool}

/-! ## Termination -/

/-- The result is still to be collected behind `stop`. -/
def toCollect : Option (Option ε) → Nat
  | none => 1
  | some _ => 0

/-- The steps that are ahead of the owner at most. -/
def Owner.ahead : Owner ε → Nat
  | .selecting => 7
  | .stopping served => 5 + toCollect served
  | .shuttingDown served => 4 + toCollect served
  | .forcing served _ => 3 + toCollect served
  | .closing served _ => 2 + toCollect served
  | .collecting served _ => 1 + toCollect served
  | .returned _ => 0

/-- The steps that the server goroutine has ahead of it. -/
def Server.ahead : Server ε → Nat
  | .serving => 2
  | .sending _ => 1
  | .finished _ | .absent => 0

/-- The steps that are ahead of all parties and of the context at most. -/
def remaining (state : State ε) : Nat :=
  state.owner.ahead + state.server.ahead + if state.canceled then 0 else 1

/-- Whichever party takes a step, less is ahead. -/
theorem remaining_step {state state' : State ε} (h : Step closed state state') :
    remaining state' < remaining state := by
  cases h with
  | @selectDone w r l =>
    show 6 + w.ahead + 0 < 7 + w.ahead + 0
    omega
  | @shutdownDrains w r c l served =>
    show 1 + toCollect served + w.ahead + (if c then 0 else 1) <
      4 + toCollect served + w.ahead + (if c then 0 else 1)
    omega
  | _ =>
    simp only [remaining, Owner.ahead, Server.ahead, toCollect, if_true, Bool.false_eq_true, if_false]
    omega

/-- The steps of a run, counted. -/
inductive Runs (closed : ε → Bool) (first : State ε) : Nat → State ε → Prop
  | start : Runs closed first 0 first
  | step {n : Nat} {state state' : State ε} : Runs closed first n state → Step closed state state' →
      Runs closed first (n + 1) state'

theorem Runs.reaches {first state : State ε} {n : Nat} (h : Runs closed first n state) :
    Reaches closed first state := by
  induction h with
  | start => exact .start
  | step _ hstep ih => exact .step ih hstep

theorem Runs.bounded {first state : State ε} {n : Nat} (h : Runs closed first n state) :
    n + remaining state ≤ remaining first := by
  induction h with
  | start => exact Nat.le_of_eq (Nat.zero_add _)
  | step _ hstep ih =>
    have hless := remaining_step hstep
    omega

/-! ## No deadlock -/

/-- The goroutine is there from the start. -/
theorem server_present {canceled : Bool} {state : State ε}
    (h : Reaches closed (start (some canceled) true) state) : state.server ≠ .absent := by
  induction h with
  | start => exact nofun
  | step _ hstep ih =>
    cases hstep with
    | serveReturns serveErr => exact nofun
    | deliver => exact nofun
    | _ => exact ih

/-- A party can take a step that is not the cancellation of the context. -/
def CanGo (closed : ε → Bool) (state : State ε) : Prop :=
  ∃ state', Step closed state state' ∧ state'.canceled = state.canceled

/-- Once `server.Serve` has returned, its result is on its way until it is collected, so the owner is
never left waiting: if nobody can go, it has returned. -/
theorem returned_of_stuck {canceled : Bool} {state : State ε}
    (h : Reaches closed (start (some canceled) true) state) (hserved : state.server ≠ .serving)
    (hstuck : ¬ CanGo closed state) :
    (∃ err, state.owner = .returned err) ∧ ∃ serveErr, state.server = .finished serveErr := by
  have hinv := inv_of_reaches h
  have hpresent := server_present h
  obtain ⟨owner, server, serveResult, c, log⟩ := state
  have history := hinv.history
  have result := hinv.result
  dsimp only at history result hserved hpresent ⊢
  cases server with
  | absent => exact absurd rfl hpresent
  | serving => exact absurd rfl hserved
  | sending serveErr =>
    -- the channel is empty, so the goroutine does not block
    obtain ⟨rfl, -, -⟩ := result
    exact absurd ⟨_, .deliver, rfl⟩ hstuck
  | finished serveErr =>
    refine ⟨?_, serveErr, rfl⟩
    have hreceipts : receipts log = receipts (log.filter Event.byOwner) := by
      refine (filterMap_byOwner (fun ev hev => ?_) log).symm
      cases ev with
      | canceled => rfl
      | delivered serveErr => rfl
      | _ => cases hev
    -- a result that nobody has received is in the channel
    have hchannel : receipts (log.filter Event.byOwner) = [] → serveResult = some serveErr := by
      intro hnone
      rcases result.2 with ⟨hfull, -⟩ | ⟨-, hreceived⟩
      · exact hfull
      · rw [hreceipts, hnone] at hreceived
        cases hreceived
    cases owner with
    | returned err => exact ⟨err, rfl⟩
    | selecting =>
      generalize log.filter Event.byOwner = own at history hchannel
      cases history
      obtain rfl := hchannel rfl
      exact absurd ⟨_, .selectResult, rfl⟩ hstuck
    | stopping served => exact absurd ⟨_, .callShutdown, rfl⟩ hstuck
    | shuttingDown served => exact absurd ⟨_, .shutdownDrains, rfl⟩ hstuck
    | forcing served err => exact absurd ⟨_, .callClose, rfl⟩ hstuck
    | closing served err => exact absurd ⟨_, .closeReturns none, rfl⟩ hstuck
    | collecting served stopErr =>
      cases served with
      | some received => exact absurd ⟨_, .ret, rfl⟩ hstuck
      | none =>
        generalize log.filter Event.byOwner = own at history hchannel
        cases history with
        | collecting _ shutdownErr closeErr =>
          have hnone : receipts (stopLog shutdownErr closeErr ++ selected none) = [] := by
            cases shutdownErr <;> rfl
          obtain rfl := hchannel hnone
          exact absurd ⟨_, .collect, rfl⟩ hstuck

/-- **A call ends.**  Whatever the parties do, and in whichever order, a call takes ten steps at most; and
where no party can go on although `server.Serve` has returned, the call has returned and the goroutine
has delivered its result. -/
theorem serve_terminates (closed : ε → Bool) (canceled : Bool) {n : Nat} {state : State ε}
    (h : Runs closed (start (some canceled) true) n state) :
    n ≤ 10 ∧ (state.server ≠ .serving → ¬ CanGo closed state →
      ∃ err serveErr, state.owner = .returned err ∧ state.server = .finished serveErr) := by
  refine ⟨?_, fun hserved hstuck => ?_⟩
  · have hbound := h.bounded
    have hfirst : remaining (start (some canceled) true : State ε) ≤ 10 := by
      cases canceled with
      | false => exact Nat.le_refl 10
      | true => exact Nat.le_succ 9
    omega
  · obtain ⟨⟨err, howner⟩, serveErr, hserver⟩ := returned_of_stuck h.reaches hserved hstuck
    exact ⟨err, serveErr, howner, hserver⟩

theorem serve_terminates_sample :
    ∃ err serveErr, forcedState.owner = .returned err ∧ forcedState.server = .finished serveErr := by
  have hruns : Runs (· == 0) (start (some true) true) 9 forcedState :=
    .step (.step (.step (.step (.step (.step (.step (.step (.step .start .selectDone) .callShutdown)
      (.shutdownFails 1)) .callClose) (.closeReturns (some 2))) (.serveReturns (some 0))) .deliver)
      .collect) .ret
  refine (serve_terminates (· == 0) true hruns).2 nofun ?_
  rintro ⟨state', hstep, -⟩
  cases hstep

end FastGate.Service
