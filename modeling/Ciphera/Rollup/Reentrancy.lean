import Ciphera.Rollup.Calls

/-!
# Calls while a mint waits for its tokens

A mint checks its deposit, has the token move the amount, and then writes the deposit down.
It is not guarded against a token that calls back: while it waits, other calls may reach the
contract, and among these there may be mints that wait in turn.  Here a mint is two steps,
with any calls between them.

A mint that reverts undoes what was called while it waited.  Here such calls may stay, which
leaves more runs than there are.
-/

namespace Ciphera.Rollup

open Ciphera.Lib

namespace RollupV1

/-- A mint that has passed its checks and waits for its tokens. -/
structure WaitingMint where
  sender : Address
  mintHash : Element
  value : Element
  noteKind : Element
  tokenAddress : Address
  deriving DecidableEq, Repr

/-- The contract with the mints that wait, the innermost one first. -/
structure Open (W : Type) where
  contract : RollupV1 W
  waiting : List WaitingMint := []

/-- A call from its start to its end, or one of the two halves of a mint. -/
inductive OpenCall
  | whole (request : Call)
  | beginMint (mintHash value noteKind : Element)
  | endMint

/-- What happens on the chain, with the mints in halves. -/
inductive OpenAction (W : Type)
  | accepted (env : Env) (request : OpenCall) (ended : Option WaitingMint)
  | reverted (env : Env) (request : OpenCall)
  | elsewhere (world : W)

variable {W : Type} (externals : Externals W) (here : Address)

/-- The checks of a mint, after which it waits. -/
def beginMint (env : Env) (mintHash value noteKind : Element) (state : Open W) :
    Outcome (Open W) := do
  let storage ← state.contract.countDeposit mintHash value noteKind
  pure ⟨state.contract.withStorage storage,
    ⟨env.sender, mintHash, value, noteKind, storage.tokens noteKind⟩ :: state.waiting⟩

/-- The token has moved the amount, and the deposit is written down. -/
def endMint (mint : WaitingMint) (contract : RollupV1 W) : Outcome (RollupV1 W) := do
  let world ← externals.safeTransferFrom contract.state.world mint.tokenAddress mint.sender here
    mint.value
  pure { contract with
    state := ⟨recordMint mint.mintHash mint.value mint.noteKind contract.state.storage, world⟩ }

/-- Of the mints that wait the innermost one ends first. -/
def openCall (env : Env) (state : Open W) : OpenCall → Outcome (Open W × Option WaitingMint)
  | .whole request => do
      let contract ← state.contract.call externals here env request
      pure (⟨contract, state.waiting⟩, none)
  | .beginMint mintHash value noteKind => do
      let state ← beginMint env mintHash value noteKind state
      pure (state, none)
  | .endMint =>
      match state.waiting with
      | [] => .error (.error "no mint waits")
      | mint :: waiting => do
          let contract ← endMint externals here mint state.contract
          pure (⟨contract, waiting⟩, some mint)

/-- A call that does not revert takes effect, one that reverts does not, and the other
contracts do as they like. -/
inductive OpenStep : Open W → OpenAction W → Open W → Prop
  | accepted {state next : Open W} {env : Env} {request : OpenCall} {ended : Option WaitingMint}
      (done : openCall externals here env state request = .ok (next, ended)) :
      OpenStep state (.accepted env request ended) next
  | reverted {state : Open W} {env : Env} {request : OpenCall} {stop : Stop String}
      (stopped : openCall externals here env state request = .error stop) :
      OpenStep state (.reverted env request) state
  | elsewhere {state : Open W} {world : W} :
      OpenStep state (.elsewhere world)
        { state with
          contract := { state.contract with
            state := { state.contract.state with world } } }

variable {externals here}

/-- A mint without calls between its halves is the mint that is one step. -/
theorem mint_eq_ok_iff_halves {env : Env} {contract next : RollupV1 W}
    {mintHash value noteKind : Element} {waiting : List WaitingMint} :
    contract.mint externals here env mintHash value noteKind = .ok next ↔
      ∃ middle mint, beginMint env mintHash value noteKind ⟨contract, waiting⟩ =
          .ok ⟨middle, mint :: waiting⟩ ∧
        endMint externals here mint middle = .ok next := by
  simp only [mint, beginMint, endMint, bind_eq_ok_iff, pure_eq_ok_iff]
  constructor
  · rintro ⟨storage, counted, world, taken, rfl⟩
    exact ⟨_, _, ⟨storage, counted, rfl⟩, world, taken, rfl⟩
  · rintro ⟨middle, mint, ⟨storage, counted, waits⟩, world, taken, rfl⟩
    obtain ⟨rfl, rest⟩ := (Open.mk.injEq ..).mp waits
    obtain ⟨rfl, _⟩ := List.cons.inj rest
    exact ⟨storage, counted, world, taken, rfl⟩

/-- A call that is not interrupted. -/
def Action.opened : Action W → OpenAction W
  | accepted env request => .accepted env (.whole request) none
  | reverted env request => .reverted env (.whole request)
  | elsewhere world => .elsewhere world

theorem Step.opened {contract next : RollupV1 W} {action : Action W}
    (taken : Step externals here contract action next) (waiting : List WaitingMint) :
    OpenStep externals here ⟨contract, waiting⟩ action.opened ⟨next, waiting⟩ := by
  cases taken with
  | accepted done =>
      apply OpenStep.accepted
      rw [openCall, done]
      rfl
  | @reverted env request stop stopped =>
      have still : openCall externals here env ⟨contract, waiting⟩ (.whole request) =
          .error stop := by
        rw [openCall, stopped]
        rfl
      exact .reverted still
  | elsewhere => exact .elsewhere

variable (externals here) in
/-- One call after the other, as long as they do not revert and are allowed to come. -/
def openCalls (allowed : Open W → OpenAction W → Bool) (requests : List (Env × OpenCall))
    (state : Open W) : Outcome (Open W × List (OpenAction W)) :=
  requests.foldlM
    (fun reached request => do
      let (next, ended) ← openCall externals here request.1 reached.1 request.2
      let action := .accepted request.1 request.2 ended
      require (allowed reached.1 action = true) "not allowed"
      pure (next, reached.2 ++ [action]))
    (state, [])

theorem run_of_openCalls {allowed : Open W → OpenAction W → Bool}
    {requests : List (Env × OpenCall)} {state next : Open W} {actions : List (OpenAction W)}
    (done : openCalls externals here allowed requests state = .ok (next, actions)) :
    Run (fun before action after => OpenStep externals here before action after ∧
      allowed before action = true) state actions next := by
  rw [openCalls, Run.foldlM_eq_ok_iff] at done
  generalize reachedEq : (next, actions) = reached at done
  induction done generalizing next actions with
  | nil =>
      obtain ⟨rfl, rfl⟩ := Prod.mk.inj reachedEq
      exact .nil
  | @snoc requests middle request target _ taken ih =>
      rcases bind_eq_ok_iff.mp taken with ⟨⟨after, ended⟩, called, rest⟩
      rcases bind_eq_ok_iff.mp rest with ⟨_, isAllowed, result⟩
      obtain ⟨rfl, rfl⟩ := Prod.mk.inj (reachedEq.trans (pure_eq_ok_iff.mp result).symm)
      exact .snoc (ih rfl) ⟨.accepted called, require_eq_ok_iff.mp isAllowed⟩

end RollupV1

end Ciphera.Rollup
