import Ciphera.Settlement.ValidatorSets

/-!
# The node's copy of the validator sets

The node reads the sets of the contract once and then listens for events that
tell of new ones.  A listener looks at one window of blocks after the other, the
first of which starts at the block of its creation.  After a transport error a
new listener is created and the sets are read again; a worker that has ended
with another error is started again without that.

A block is atomic: when its number is known, so are its events.  After too many
errors in a row the worker ends; here it may end at any time.
-/

namespace Ciphera.Contracts

open Ciphera.Lib
open Ciphera.Rollup (Address Outcome)
open Ciphera.Settlement (publicValidatorSet getValidatorSets getValidatorSets_zero)

/-! ## The chain -/

/-- An event `ValidatorSetAdded`, with the block it is in. -/
structure Log where
  blockNumber : Nat
  index : Nat
  deriving DecidableEq, Repr

/-- The contract's sets, the events and the number of the latest block. -/
structure Chain where
  validators : Rollup.Validators
  logs : List Log
  blockNumber : Nat

/-- `setValidators` in a block, with its event. -/
def addSet (blockNumber : Nat) (state : Rollup.Validators × List Log)
    (call : Element × List Address) : Outcome (Rollup.Validators × List Log) := do
  let validators ← state.1.setValidators (BitVec.ofNat 256 blockNumber) call.1 call.2
  pure (validators, state.2 ++ [⟨blockNumber, state.1.validatorSets.length⟩])

namespace Chain

/-- The block in which the contract is initialized. -/
def deploy (blockNumber : Nat) (initialValidators : List Address) : Outcome Chain := do
  let (validators, logs) ← addSet blockNumber ({}, []) (0, initialValidators)
  pure ⟨validators, logs, blockNumber⟩

/-- The next block, with the calls of `setValidators` that succeed in it. -/
def mine (calls : List (Element × List Address)) (chain : Chain) : Outcome Chain := do
  let (validators, logs) ←
    calls.foldlM (addSet (chain.blockNumber + 1)) (chain.validators, chain.logs)
  pure ⟨validators, logs, chain.blockNumber + 1⟩

/-- The sets that the contract shows. -/
def sets (chain : Chain) : List Node.ValidatorSet :=
  chain.validators.validatorSets.map publicValidatorSet

end Chain

/-! ## The worker -/

/-- The worker that listens for events: not running, waiting to listen again after a transport
error, about to read the sets again, or with a window that starts at `first` and the events of
the last one that are still to be handled. -/
inductive Worker
  | stopped
  | retrying
  | reloading (first : Nat)
  | listening (first : Nat) (pending : List Log)
  deriving DecidableEq, Repr

/-- The validator sets that a node has read, with the worker that keeps them up to date. -/
structure Mirror where
  validatorSets : List Node.ValidatorSet
  worker : Worker
  deriving DecidableEq, Repr

/-- One round of the listener: the events of the window, and the start of the next one. -/
def poll (chain : Chain) (first : Nat) : Nat × List Log :=
  if chain.blockNumber < first then (first, [])
  else
    (chain.blockNumber + 1,
      chain.logs.filter fun log => first ≤ log.blockNumber ∧ log.blockNumber ≤ chain.blockNumber)

/-- What the worker does with an event. -/
def handleLog (chain : Chain) (log : Log) (validatorSets : List Node.ValidatorSet) :
    Outcome (List Node.ValidatorSet) :=
  if validatorSets.length = 0 then .error (.panic "attempt to subtract with overflow")
  else
    let currentLastIndex := validatorSets.length - 1
    if currentLastIndex < log.index then do
      let newValidators ← getValidatorSets (currentLastIndex + 1) chain.validators
      pure (validatorSets ++ newValidators)
    else pure validatorSets

/-- The chain, with the node that mirrors it. -/
structure System where
  chain : Chain
  mirror : Mirror

/-- What happens on either side, in any order. -/
inductive MirrorAction
  | mine (calls : List (Element × List Address))
  | listen
  | poll
  | handle
  | transportError
  | listenAgain
  | reload
  | fail
  deriving DecidableEq, Repr

/-- One step of the chain or of the node. -/
inductive System.Step : System → MirrorAction → System → Prop
  | mine {chain next : Chain} {mirror : Mirror} {calls : List (Element × List Address)}
      (mined : chain.mine calls = .ok next) : Step ⟨chain, mirror⟩ (.mine calls) ⟨next, mirror⟩
  | listen {chain : Chain} {sets : List Node.ValidatorSet} :
      Step ⟨chain, ⟨sets, .stopped⟩⟩ .listen ⟨chain, ⟨sets, .listening chain.blockNumber []⟩⟩
  | poll {chain : Chain} {sets : List Node.ValidatorSet} {first : Nat} :
      Step ⟨chain, ⟨sets, .listening first []⟩⟩ .poll
        ⟨chain, ⟨sets, .listening (poll chain first).1 (poll chain first).2⟩⟩
  | handle {chain : Chain} {sets next : List Node.ValidatorSet} {first : Nat} {log : Log}
      {pending : List Log} (handled : handleLog chain log sets = .ok next) :
      Step ⟨chain, ⟨sets, .listening first (log :: pending)⟩⟩ .handle
        ⟨chain, ⟨next, .listening first pending⟩⟩
  | transportError {chain : Chain} {sets : List Node.ValidatorSet} {first : Nat} :
      Step ⟨chain, ⟨sets, .listening first []⟩⟩ .transportError ⟨chain, ⟨sets, .retrying⟩⟩
  | listenAgain {chain : Chain} {sets : List Node.ValidatorSet} :
      Step ⟨chain, ⟨sets, .retrying⟩⟩ .listenAgain ⟨chain, ⟨sets, .reloading chain.blockNumber⟩⟩
  | reload {chain : Chain} {sets all : List Node.ValidatorSet} {first : Nat}
      (loaded : getValidatorSets 0 chain.validators = .ok all) :
      Step ⟨chain, ⟨sets, .reloading first⟩⟩ .reload ⟨chain, ⟨all, .listening first []⟩⟩
  | fail {chain : Chain} {sets : List Node.ValidatorSet} {worker : Worker} :
      Step ⟨chain, ⟨sets, worker⟩⟩ .fail ⟨chain, ⟨sets, .stopped⟩⟩

/-! ## What blocks add -/

/-- Every event is of a set that is there, in a block that is there. -/
def Chain.Logged (chain : Chain) : Prop :=
  ∀ log ∈ chain.logs, log.index < chain.sets.length ∧ log.blockNumber ≤ chain.blockNumber

/-- A block adds sets behind those that were there, with events of its own. -/
structure Extends (blockNumber : Nat) (old new : Rollup.Validators × List Log) : Prop where
  sets : ∃ added, new.1.validatorSets = old.1.validatorSets ++ added
  logs : ∀ log ∈ new.2, log ∈ old.2 ∨
    log.blockNumber = blockNumber ∧ log.index < new.1.validatorSets.length

theorem Extends.addSet {blockNumber : Nat} {old middle new : Rollup.Validators × List Log}
    {call : Element × List Address} (earlier : Extends blockNumber old middle)
    (added : addSet blockNumber middle call = .ok new) : Extends blockNumber old new := by
  rcases bind_eq_ok_iff.mp added with ⟨validators, set, result⟩
  obtain rfl := pure_eq_ok_iff.mp result
  rcases Rollup.Validators.setValidators_spec set with ⟨last, _, _, _, _, rfl⟩
  rcases earlier.sets with ⟨before, beforeEq⟩
  refine ⟨⟨before ++ [last], ?_⟩, ?_⟩
  · change middle.1.validatorSets ++ [last] = _
    rw [beforeEq, List.append_assoc]
  · intro log mem
    change log ∈ middle.2 ++ [_] at mem
    change _ ∨ _ ∧ _ < (middle.1.validatorSets ++ [last]).length
    rw [List.length_append, List.length_singleton]
    rcases List.mem_append.mp mem with inMiddle | new
    · rcases earlier.logs log inMiddle with inOld | ⟨here, bound⟩
      · exact .inl inOld
      · exact .inr ⟨here, Nat.lt_succ_of_lt bound⟩
    · rw [List.mem_singleton.mp new]
      exact .inr ⟨rfl, Nat.lt_succ_self _⟩

theorem extends_of_foldlM {blockNumber : Nat} {old middle new : Rollup.Validators × List Log}
    {calls : List (Element × List Address)} (earlier : Extends blockNumber old middle)
    (mined : calls.foldlM (addSet blockNumber) middle = .ok new) : Extends blockNumber old new := by
  induction calls generalizing middle with
  | nil =>
      obtain rfl := pure_eq_ok_iff.mp mined
      exact earlier
  | cons call calls ih =>
      rw [List.foldlM_cons, bind_eq_ok_iff] at mined
      rcases mined with ⟨between, added, rest⟩
      exact ih (earlier.addSet added) rest

namespace Chain

variable {chain next : Chain} {calls : List (Element × List Address)}

/-- The next block. -/
structure Mines (chain next : Chain) : Prop where
  blockNumber : next.blockNumber = chain.blockNumber + 1
  sets : ∃ added, next.sets = chain.sets ++ added
  logs : ∀ log ∈ next.logs, log ∈ chain.logs ∨
    log.blockNumber = chain.blockNumber + 1 ∧ log.index < next.sets.length

theorem mines_of_mine (mined : chain.mine calls = .ok next) : chain.Mines next := by
  rcases bind_eq_ok_iff.mp mined with ⟨state, folded, result⟩
  obtain rfl := pure_eq_ok_iff.mp result
  have unchanged : Extends (chain.blockNumber + 1) (chain.validators, chain.logs)
      (chain.validators, chain.logs) :=
    ⟨⟨[], (List.append_nil _).symm⟩, fun _ mem => .inl mem⟩
  have grown := extends_of_foldlM unchanged folded
  rcases grown.sets with ⟨added, addedEq⟩
  refine ⟨rfl, ⟨added.map publicValidatorSet, ?_⟩, ?_⟩
  · rw [sets, sets, ← List.map_append]
    exact congrArg _ addedEq
  · intro log mem
    rw [sets, List.length_map]
    exact grown.logs log mem

theorem Logged.mine (logged : chain.Logged) (mines : chain.Mines next) : next.Logged := by
  rcases mines.sets with ⟨added, addedEq⟩
  intro log mem
  rw [mines.blockNumber]
  rcases mines.logs log mem with old | ⟨here, bound⟩
  · rcases logged log old with ⟨bound, le⟩
    rw [addedEq, List.length_append]
    exact ⟨Nat.lt_of_lt_of_le bound (Nat.le_add_right _ _), Nat.le_succ_of_le le⟩
  · exact ⟨bound, Nat.le_of_eq here⟩

/-- The chain when a node reads the sets for the first time. -/
theorem logged_of_run {blockNumber : Nat} {initialValidators : List Address} {deployed : Chain}
    {blocks : List (List (Element × List Address))}
    (initial : deploy blockNumber initialValidators = .ok deployed)
    (mined : Run (fun chain calls next => chain.mine calls = .ok next) deployed blocks chain) :
    chain.Logged ∧ chain.sets ≠ [] := by
  induction mined with
  | nil =>
      rcases bind_eq_ok_iff.mp initial with ⟨state, added, result⟩
      obtain rfl := pure_eq_ok_iff.mp result
      rcases bind_eq_ok_iff.mp added with ⟨validators, set, pair⟩
      obtain rfl := pure_eq_ok_iff.mp pair
      rcases Rollup.Validators.setValidators_spec set with ⟨last, _, _, _, _, rfl⟩
      constructor
      · intro log mem
        rw [List.mem_singleton.mp mem]
        exact ⟨Nat.one_pos, Nat.le_refl _⟩
      · exact List.cons_ne_nil _ _
  | snoc _ taken ih =>
      have mines := mines_of_mine taken
      refine ⟨ih.1.mine mines, ?_⟩
      rcases mines.sets with ⟨added, addedEq⟩
      rw [addedEq]
      exact List.append_ne_nil_of_left_ne_nil ih.2 added

end Chain

/-! ## Steps -/

/-- The copy starts the list of the contract. -/
structure System.Copies (system : System) : Prop where
  logged : system.chain.Logged
  copied : system.mirror.validatorSets <+: system.chain.sets
  nonempty : system.mirror.validatorSets ≠ []

/-- In the windows that were looked at there is no event of a set that is neither in the copy nor
still to be handled. -/
structure System.Watches (system : System) : Prop where
  ahead : ∀ first, system.mirror.worker = .reloading first → first ≤ system.chain.blockNumber + 1
  window : ∀ first pending, system.mirror.worker = .listening first pending →
    first ≤ system.chain.blockNumber + 1 ∧
      ∀ log ∈ system.chain.logs, log.blockNumber < first →
        log.index < system.mirror.validatorSets.length ∨ log ∈ pending

/-- Every set that was added in a block below the latest has been read. -/
def System.NothingMissed (system : System) : Prop :=
  ∀ log ∈ system.chain.logs, log.blockNumber < system.chain.blockNumber →
    log.index < system.mirror.validatorSets.length

/-- A step in which a worker only starts to listen where nothing is missing. -/
def System.CarefulStep (system : System) (action : MirrorAction) (next : System) : Prop :=
  System.Step system action next ∧ (action = .listen → system.NothingMissed)

/-- An event leaves the copy as it is or brings it up to date. -/
theorem handleLog_eq_ok {chain : Chain} {log : Log} {sets next : List Node.ValidatorSet}
    (copied : sets <+: chain.sets) (nonempty : sets ≠ [])
    (handled : handleLog chain log sets = .ok next) :
    next = sets ∧ log.index < sets.length ∨ next = chain.sets := by
  have positive := List.length_pos_iff.mpr nonempty
  have lastSucc : sets.length - 1 + 1 = sets.length := Nat.sub_add_cancel positive
  rw [handleLog, if_neg (Nat.ne_of_gt positive)] at handled
  dsimp only at handled
  rw [lastSucc] at handled
  split_ifs at handled with new
  · right
    rcases bind_eq_ok_iff.mp handled with ⟨added, fetched, result⟩
    obtain rfl := pure_eq_ok_iff.mp result
    unfold getValidatorSets at fetched
    split_ifs at fetched
    obtain rfl := Except.ok.inj fetched
    rw [List.map_drop]
    rcases copied with ⟨rest, restEq⟩
    change sets ++ chain.sets.drop sets.length = chain.sets
    rw [← restEq, List.drop_left]
  · left
    obtain rfl := pure_eq_ok_iff.mp handled
    exact ⟨rfl, Nat.lt_of_le_of_lt (Nat.not_lt.mp new) (Nat.sub_lt positive Nat.one_pos)⟩

theorem mem_poll {chain : Chain} {first : Nat} {log : Log} (mem : log ∈ chain.logs)
    (logged : log.blockNumber ≤ chain.blockNumber) (before : log.blockNumber < (poll chain first).1) :
    log.blockNumber < first ∨ log ∈ (poll chain first).2 := by
  unfold poll at before ⊢
  split_ifs at before ⊢ with empty
  · exact .inl before
  · rcases Nat.lt_or_ge log.blockNumber first with below | within
    · exact .inl below
    · exact .inr (List.mem_filter.mpr ⟨mem, decide_eq_true ⟨within, logged⟩⟩)

theorem poll_le {chain : Chain} {first : Nat} (le : first ≤ chain.blockNumber + 1) :
    (poll chain first).1 ≤ chain.blockNumber + 1 := by
  unfold poll
  split_ifs
  · exact le
  · exact Nat.le_refl _

namespace System

variable {system next : System} {action : MirrorAction}

theorem Copies.sets_ne_nil (copies : system.Copies) : system.chain.sets ≠ [] := by
  intro none
  have copied := copies.copied
  rw [none] at copied
  exact copies.nonempty (List.prefix_nil.mp copied)

theorem Copies.step (copies : system.Copies) (taken : Step system action next) : next.Copies := by
  cases taken with
  | mine mined =>
      have mines := Chain.mines_of_mine mined
      rcases mines.sets with ⟨added, addedEq⟩
      exact ⟨copies.logged.mine mines, copies.copied.trans ⟨added, addedEq.symm⟩, copies.nonempty⟩
  | handle handled =>
      rcases handleLog_eq_ok copies.copied copies.nonempty handled with ⟨rfl, _⟩ | rfl
      · exact ⟨copies.logged, copies.copied, copies.nonempty⟩
      · exact ⟨copies.logged, List.prefix_rfl, copies.sets_ne_nil⟩
  | reload loaded =>
      rw [getValidatorSets_zero] at loaded
      obtain rfl := Except.ok.inj loaded
      exact ⟨copies.logged, List.prefix_rfl, copies.sets_ne_nil⟩
  | listen | poll | transportError | listenAgain | fail =>
      exact ⟨copies.logged, copies.copied, copies.nonempty⟩

theorem watches_of_idle {chain : Chain} {sets : List Node.ValidatorSet} {worker : Worker}
    (idle : worker = .stopped ∨ worker = .retrying) : Watches ⟨chain, ⟨sets, worker⟩⟩ := by
  rcases idle with rfl | rfl
  · exact ⟨by rintro _ ⟨⟩, by rintro _ _ ⟨⟩⟩
  · exact ⟨by rintro _ ⟨⟩, by rintro _ _ ⟨⟩⟩

theorem watches_of_listening {chain : Chain} {sets : List Node.ValidatorSet} {first : Nat}
    {pending : List Log} (le : first ≤ chain.blockNumber + 1)
    (seen : ∀ log ∈ chain.logs, log.blockNumber < first →
      log.index < sets.length ∨ log ∈ pending) :
    Watches ⟨chain, ⟨sets, .listening first pending⟩⟩ where
  ahead := by rintro _ ⟨⟩
  window := by
    rintro _ _ ⟨⟩
    exact ⟨le, seen⟩

theorem Watches.mine {chain mined : Chain} {mirror : Mirror} (watches : Watches ⟨chain, mirror⟩)
    (mines : chain.Mines mined) : Watches ⟨mined, mirror⟩ where
  ahead := by
    intro first reloading
    have le := watches.ahead first reloading
    dsimp only at le ⊢
    rw [mines.blockNumber]
    exact Nat.le_succ_of_le le
  window := by
    intro first pending listening
    rcases watches.window first pending listening with ⟨le, seen⟩
    dsimp only at le seen ⊢
    rw [mines.blockNumber]
    refine ⟨Nat.le_succ_of_le le, ?_⟩
    intro log mem before
    rcases mines.logs log mem with old | ⟨here, _⟩
    · exact seen log old before
    · rw [here] at before
      exact absurd le (Nat.not_le.mpr before)

theorem Watches.step (watches : system.Watches) (copies : system.Copies)
    (taken : system.CarefulStep action next) : next.Watches := by
  rcases taken with ⟨taken, careful⟩
  cases taken with
  | mine mined => exact watches.mine (Chain.mines_of_mine mined)
  | listen =>
      apply watches_of_listening (Nat.le_succ _)
      intro log mem before
      exact .inl (careful rfl log mem before)
  | @poll chain sets first =>
      rcases watches.window first [] rfl with ⟨le, seen⟩
      apply watches_of_listening (poll_le le)
      intro log mem before
      rcases mem_poll mem (copies.logged log mem).2 before with below | polled
      · rcases seen log mem below with inCopy | none
        · exact .inl inCopy
        · cases none
      · exact .inr polled
  | @handle chain sets nextSets first log pending handled =>
      rcases watches.window first (log :: pending) rfl with ⟨le, seen⟩
      apply watches_of_listening le
      intro other mem before
      rcases handleLog_eq_ok copies.copied copies.nonempty handled with ⟨rfl, bound⟩ | rfl
      · rcases seen other mem before with inCopy | inPending
        · exact .inl inCopy
        · rcases List.mem_cons.mp inPending with rfl | behind
          · exact .inl bound
          · exact .inr behind
      · exact .inl (copies.logged other mem).1
  | transportError => exact watches_of_idle (.inr rfl)
  | listenAgain => exact ⟨by rintro _ ⟨⟩; exact Nat.le_succ _, by rintro _ _ ⟨⟩⟩
  | @reload chain sets all first loaded =>
      rw [getValidatorSets_zero] at loaded
      obtain rfl := Except.ok.inj loaded
      apply watches_of_listening (watches.ahead first rfl)
      intro log mem _
      exact .inl (copies.logged log mem).1
  | fail => exact watches_of_idle (.inl rfl)

theorem copies_of_run {start : System} {actions : List MirrorAction} (initial : start.Copies)
    (run : Run Step start actions system) : system.Copies := by
  induction run with
  | nil => exact initial
  | snoc _ taken ih => exact ih.step taken

theorem watches_of_run {start : System} {actions : List MirrorAction} (copies : start.Copies)
    (watches : start.Watches) (run : Run CarefulStep start actions system) :
    system.Copies ∧ system.Watches := by
  induction run with
  | nil => exact ⟨copies, watches⟩
  | snoc _ taken ih => exact ⟨ih.1.step taken.1, ih.2.step ih.1 taken⟩

end System

/-- From the first read of the sets on: the copy of the node always starts the list of the
contract and, as long as a worker only starts to listen where no set is missing, after every
window whose events are handled it has every set that was added below the next window. -/
theorem mirror_misses_nothing {blockNumber : Nat} {initialValidators : List Address}
    {deployed chain : Chain} {blocks : List (List (Element × List Address))}
    {sets : List Node.ValidatorSet}
    (initial : Chain.deploy blockNumber initialValidators = .ok deployed)
    (mined : Run (fun chain calls next => chain.mine calls = .ok next) deployed blocks chain)
    (loaded : getValidatorSets 0 chain.validators = .ok sets) :
    (∀ actions system, Run System.Step ⟨chain, ⟨sets, .stopped⟩⟩ actions system →
        system.mirror.validatorSets <+: system.chain.sets) ∧
      ∀ actions system first, Run System.CarefulStep ⟨chain, ⟨sets, .stopped⟩⟩ actions system →
        system.mirror.worker = .listening first [] →
        ∀ log ∈ system.chain.logs, log.blockNumber < first →
          ∃ set, system.mirror.validatorSets[log.index]? = some set ∧
            system.chain.sets[log.index]? = some set := by
  rcases Chain.logged_of_run initial mined with ⟨logged, nonempty⟩
  rw [getValidatorSets_zero] at loaded
  obtain rfl := Except.ok.inj loaded
  have copies : System.Copies ⟨chain, ⟨chain.sets, .stopped⟩⟩ :=
    ⟨logged, List.prefix_rfl, nonempty⟩
  constructor
  · intro actions system run
    exact (System.copies_of_run copies run).copied
  · intro actions system first run listening log mem before
    rcases System.watches_of_run copies (System.watches_of_idle (.inl rfl)) run with
      ⟨copiesNow, watches⟩
    rcases (watches.window first [] listening).2 log mem before with bound | none
    · rcases copiesNow.copied with ⟨rest, restEq⟩
      refine ⟨_, List.getElem?_eq_getElem bound, ?_⟩
      rw [← restEq, List.getElem?_append_left bound, List.getElem?_eq_getElem bound]
    · cases none

/-! ## A set before the first window -/

/-- A contract with one validator, and a node that has read its set. -/
theorem deployed_loaded :
    ∃ chain, Chain.deploy 0 [1] = .ok chain ∧ ∃ sets,
      getValidatorSets 0 chain.validators = .ok sets ∧ chain.blockNumber = 0 ∧
      chain.logs = [⟨0, 0⟩] ∧ sets.length = 1 ∧
      ∃ added, chain.mine [(1, [2])] = .ok added ∧ added.blockNumber = 1 ∧
        added.logs = [⟨0, 0⟩, ⟨1, 1⟩] ∧ handleLog added ⟨0, 0⟩ sets = .ok sets ∧
        (∃ all, handleLog added ⟨1, 1⟩ sets = .ok all) ∧
        ∃ later, added.mine [] = .ok later ∧ later.blockNumber = 2 ∧
          later.logs = [⟨0, 0⟩, ⟨1, 1⟩] :=
  ⟨_, rfl, _, rfl, rfl, rfl, rfl, _, rfl, rfl, rfl, rfl, ⟨_, rfl⟩, _, rfl, rfl, rfl⟩

/-- A worker that listens at once and finds a new set in its first window. -/
theorem newSet_found :
    ∃ chain sets actions system, Chain.deploy 0 [1] = .ok chain ∧
      getValidatorSets 0 chain.validators = .ok sets ∧
      Run System.CarefulStep ⟨chain, ⟨sets, .stopped⟩⟩ actions system ∧
      system.chain.logs = [⟨0, 0⟩, ⟨1, 1⟩] ∧ system.mirror.worker = .listening 2 [] ∧
      ∃ set, system.mirror.validatorSets[1]? = some set ∧ system.chain.sets[1]? = some set := by
  rcases deployed_loaded with ⟨chain, deployed, sets, loaded, zero, _, _, added, addedEq, number,
    logs, known, ⟨all, fetched⟩, _⟩
  have polled : poll added chain.blockNumber = (2, [⟨0, 0⟩, ⟨1, 1⟩]) := by
    rw [poll, number, zero, if_neg (by decide), logs]
    rfl
  have nothingMissed : System.NothingMissed ⟨chain, ⟨sets, .stopped⟩⟩ := by
    intro log _ before
    rw [zero] at before
    cases before
  have listening : Run System.CarefulStep ⟨chain, ⟨sets, .stopped⟩⟩ _
      ⟨added, ⟨sets, .listening (poll added chain.blockNumber).1
        (poll added chain.blockNumber).2⟩⟩ :=
    .snoc (.snoc (.snoc .nil ⟨.listen, fun _ => nothingMissed⟩) ⟨.mine addedEq, by rintro ⟨⟩⟩)
      ⟨.poll, by rintro ⟨⟩⟩
  rw [polled] at listening
  have run := (listening.snoc ⟨.handle known, by rintro ⟨⟩⟩).snoc ⟨.handle fetched, by rintro ⟨⟩⟩
  have mem : (⟨1, 1⟩ : Log) ∈ added.logs := by
    rw [logs]
    decide
  exact ⟨chain, sets, _, _, deployed, loaded, run, logs, rfl,
    (mirror_misses_nothing deployed .nil loaded).2 _ _ 2 run rfl ⟨1, 1⟩ mem (by decide)⟩

/-- A set is added in a block between the first read and the block at which the worker starts to
listen: its first window is over, and the set is not there. -/
theorem newSet_missed :
    ∃ chain sets actions system, Chain.deploy 0 [1] = .ok chain ∧
      getValidatorSets 0 chain.validators = .ok sets ∧
      Run System.Step ⟨chain, ⟨sets, .stopped⟩⟩ actions system ∧
      system.mirror.worker = .listening 3 [] ∧ ⟨1, 1⟩ ∈ system.chain.logs ∧
      system.mirror.validatorSets[1]? = none := by
  rcases deployed_loaded with ⟨chain, deployed, sets, loaded, _, _, single, added, addedEq, _, _, _, _,
    later, laterEq, number, logs⟩
  have polled : poll later later.blockNumber = (3, []) := by
    rw [poll, if_neg (Nat.lt_irrefl _), number, logs]
    rfl
  have run : Run System.Step ⟨chain, ⟨sets, .stopped⟩⟩ _
      ⟨later, ⟨sets, .listening (poll later later.blockNumber).1
        (poll later later.blockNumber).2⟩⟩ :=
    .snoc (.snoc (.snoc (.snoc .nil (.mine addedEq)) (.mine laterEq)) .listen) .poll
  rw [polled] at run
  refine ⟨chain, sets, _, _, deployed, loaded, run, rfl, ?_, ?_⟩
  · dsimp only
    rw [logs]
    decide
  · exact List.getElem?_eq_none (Nat.le_of_eq single)

end Ciphera.Contracts
