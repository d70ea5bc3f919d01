import Ciphera.Lib.Bags
import Ciphera.Rollup.Reentrancy

/-!
# Deposits over every sequence of calls

A deposit is written down by `mint` or `mintClaimed` and used up by a mint in an
accepted rollup.  A record with amount zero counts as absent and may be written
again, so only deposits with a value are accounted for.

A mint looks whether its hash is free before it takes the tokens, and writes the deposit
down afterwards.  A deposit that is made and used up in between can be used up again.
-/

namespace Ciphera.Rollup

open Ciphera.Lib

/-- A deposit, by what a mint has to say of it. -/
structure Deposit where
  hash : Element
  noteKind : Element
  amount : Element
  deriving DecidableEq, Repr

/-- The value of deposits. -/
def totalAmount (deposits : List Deposit) : Nat :=
  (deposits.map fun deposit => deposit.amount.toNat).sum

/-- The deposit that a message uses up, if it has a value. -/
def Message.consumes : Message → List Deposit
  | mint noteKind value hash => if value = 0 then [] else [⟨hash, noteKind, value⟩]
  | burn .. => []

/-- The deposits that an accepted call writes down. -/
def RollupV1.Call.records : RollupV1.Call → List Deposit
  | mint mintHash value noteKind => [⟨mintHash, noteKind, value⟩]
  | mintClaimed mintHash value noteKind => [⟨mintHash, noteKind, value⟩]
  | _ => []

/-- The deposits with a value that an accepted call uses up. -/
def RollupV1.Call.consumes : RollupV1.Call → List Deposit
  | verifyRollup rollup =>
      ((parseMessages (rollup.publicInputs.drop 3)).getD []).flatMap Message.consumes
  | _ => []

namespace RollupV1.OpenAction

variable {W : Type}

/-- A mint in two halves writes its deposit down at its end. -/
def records : OpenAction W → List Deposit
  | accepted _ (.whole request) _ => request.records
  | accepted _ .endMint (some mint) => [⟨mint.mintHash, mint.noteKind, mint.value⟩]
  | _ => []

/-- The deposits that an action consumes. -/
def consumes : OpenAction W → List Deposit
  | accepted _ (.whole request) _ => request.consumes
  | _ => []

end RollupV1.OpenAction

/-- No deposit with a value is used up while a mint of its hash waits for the tokens. -/
def RollupV1.Open.Undisturbed {W : Type} (state : RollupV1.Open W)
    (action : RollupV1.OpenAction W) : Prop :=
  ∀ deposit ∈ action.consumes, ∀ mint ∈ state.waiting, deposit.hash ≠ mint.mintHash

/-! ## The mapping of deposits -/

/-- The mapping against the history: every amount in it was recorded, and what
was consumed is marked as spent. -/
structure Accounts (recorded consumed : List Deposit) (mints : Element → Mint) : Prop where
  known : ∀ hash, (mints hash).amount ≠ 0 →
    (⟨hash, (mints hash).noteKind, (mints hash).amount⟩ : Deposit) ∈ recorded
  spent : ∀ deposit ∈ consumed, deposit.amount ≠ 0 ∧
    mints deposit.hash = ⟨deposit.noteKind, deposit.amount, true⟩
  once : (consumed.map Deposit.hash).Nodup
  backed : ∀ deposit ∈ consumed, deposit ∈ recorded

namespace Accounts

variable {recorded consumed : List Deposit} {mints : Element → Mint}

theorem empty : Accounts [] [] fun _ => {} where
  known _ nonzero := absurd rfl nonzero
  spent _ mem := absurd mem List.not_mem_nil
  once := List.nodup_nil
  backed _ mem := absurd mem List.not_mem_nil

/-- What has been consumed had an amount. -/
theorem unspent_of_absent (accounts : Accounts recorded consumed mints) {hash : Element}
    (absent : (mints hash).amount = 0) : ∀ deposit ∈ consumed, deposit.hash ≠ hash := by
  intro deposit mem same
  rcases accounts.spent deposit mem with ⟨nonzero, found⟩
  rw [← same, found] at absent
  exact nonzero absent

/-- A deposit is written where none has been consumed. -/
theorem deposit (accounts : Accounts recorded consumed mints) {hash noteKind amount : Element}
    (unspent : ∀ deposit ∈ consumed, deposit.hash ≠ hash) :
    Accounts (recorded ++ [⟨hash, noteKind, amount⟩]) consumed
      (Function.update mints hash ⟨noteKind, amount, false⟩) where
  known := by
    intro other nonzero
    by_cases same : other = hash
    · subst same
      rw [Function.update_self]
      exact List.mem_append_right _ List.mem_cons_self
    · rw [Function.update_of_ne same] at nonzero ⊢
      exact List.mem_append_left _ (accounts.known other nonzero)
  spent := by
    intro deposit mem
    rw [Function.update_of_ne (unspent deposit mem)]
    exact accounts.spent deposit mem
  once := accounts.once
  backed deposit mem := List.mem_append_left _ (accounts.backed deposit mem)

/-- Spending a deposit that is there. -/
theorem spend (accounts : Accounts recorded consumed mints) {hash noteKind value : Element}
    (found : mints hash = ⟨noteKind, value, false⟩) :
    Accounts recorded (consumed ++ (Message.mint noteKind value hash).consumes)
      (Function.update mints hash ⟨noteKind, value, true⟩) := by
  have unspent : ∀ deposit ∈ consumed, deposit.hash ≠ hash := by
    intro deposit mem same
    have spent := (accounts.spent deposit mem).2
    rw [same, found] at spent
    cases spent
  have knownHere : value ≠ 0 → (⟨hash, noteKind, value⟩ : Deposit) ∈ recorded := by
    intro nonzero
    have known := accounts.known hash (by rw [found]; exact nonzero)
    rwa [found] at known
  have knownStill : ∀ other,
      (Function.update mints hash ⟨noteKind, value, true⟩ other).amount ≠ 0 →
      (⟨other, (Function.update mints hash ⟨noteKind, value, true⟩ other).noteKind,
        (Function.update mints hash ⟨noteKind, value, true⟩ other).amount⟩ : Deposit) ∈
          recorded := by
    intro other nonzero
    by_cases same : other = hash
    · subst same
      rw [Function.update_self] at nonzero ⊢
      exact knownHere nonzero
    · rw [Function.update_of_ne same] at nonzero ⊢
      exact accounts.known other nonzero
  have spentStill : ∀ deposit ∈ consumed, deposit.amount ≠ 0 ∧
      Function.update mints hash ⟨noteKind, value, true⟩ deposit.hash =
        ⟨deposit.noteKind, deposit.amount, true⟩ := by
    intro deposit mem
    rw [Function.update_of_ne (unspent deposit mem)]
    exact accounts.spent deposit mem
  rw [Message.consumes]
  split_ifs with zero
  · rw [List.append_nil]
    exact ⟨knownStill, spentStill, accounts.once, accounts.backed⟩
  · refine ⟨knownStill, ?_, ?_, ?_⟩
    · intro deposit mem
      rcases List.mem_append.mp mem with old | new
      · exact spentStill deposit old
      · obtain rfl := List.mem_singleton.mp new
        rw [Function.update_self]
        exact ⟨zero, rfl⟩
    · rw [List.map_append]
      apply accounts.once.append (List.nodup_singleton _)
      intro other mem single
      obtain rfl := List.mem_singleton.mp single
      rcases List.mem_map.mp mem with ⟨deposit, depositMem, same⟩
      exact unspent deposit depositMem same
    · intro deposit mem
      rcases List.mem_append.mp mem with old | new
      · exact accounts.backed deposit old
      · obtain rfl := List.mem_singleton.mp new
        exact knownHere zero

/-- What is consumed once and recorded is worth at most what is recorded. -/
theorem totalAmount_le (accounts : Accounts recorded consumed mints) :
    totalAmount consumed ≤ totalAmount recorded :=
  sum_map_le_of_subset accounts.once.of_map accounts.backed _

end Accounts

/-! ## Calls -/

section

variable {W : Type} {keccak : Keccak} {transfer : Transfer W} {height : Element}

/-- A burn does not touch the deposits. -/
theorem mints_of_settleBurn {noteKind value hash : Element} {burnAddr : Address}
    {state next : State W}
    (settled : settleBurn keccak transfer height noteKind value hash burnAddr state = .ok next) :
    next.storage.mints = state.storage.mints := by
  cases burnSettles_of_settleBurn settled with
  | unpaid | feeKept | feeSent => rfl

theorem Accounts.settleMessage {recorded consumed : List Deposit} {state next : State W}
    {message : Message} (accounts : Accounts recorded consumed state.storage.mints)
    (settled : settleMessage keccak transfer height state message = .ok next) :
    Accounts recorded (consumed ++ message.consumes) next.storage.mints := by
  cases message with
  | mint noteKind value hash =>
      rcases settleMint_eq_ok_iff.mp settled with ⟨found, rfl⟩
      have spent := accounts.spend found
      rwa [Storage.spend, found]
  | burn crossChain noteKind value hash burnAddr =>
      rw [Message.consumes, List.append_nil, mints_of_settleBurn settled]
      exact accounts

theorem Accounts.foldlM_settleMessage {recorded consumed : List Deposit} {state next : State W}
    {messages : List Message} (accounts : Accounts recorded consumed state.storage.mints)
    (settled : messages.foldlM (Rollup.settleMessage keccak transfer height) state = .ok next) :
    Accounts recorded (consumed ++ messages.flatMap Message.consumes) next.storage.mints := by
  induction messages generalizing consumed state with
  | nil =>
      obtain rfl := pure_eq_ok_iff.mp settled
      rwa [List.flatMap_nil, List.append_nil]
  | cons message messages ih =>
      rw [List.foldlM_cons, bind_eq_ok_iff] at settled
      rcases settled with ⟨middle, first, rest⟩
      rw [List.flatMap_cons, ← List.append_assoc]
      exact ih (accounts.settleMessage first) rest

end

section

variable {W : Type} {externals : Externals W} {here : Address} {env : Env}
  {contract next : RollupV1 W} {recorded consumed : List Deposit}

/-- An accepted call keeps the mapping in line with the history. -/
theorem Accounts.call {request : RollupV1.Call}
    (accounts : Accounts recorded consumed contract.state.storage.mints)
    (done : contract.call externals here env request = .ok next) :
    Accounts (recorded ++ request.records) (consumed ++ request.consumes)
      next.state.storage.mints := by
  have unchanged : request.records = [] → request.consumes = [] →
      next.state.storage.mints = contract.state.storage.mints →
      Accounts (recorded ++ request.records) (consumed ++ request.consumes)
        next.state.storage.mints := by
    intro recordsNone consumesNone same
    rw [recordsNone, consumesNone, same, List.append_nil, List.append_nil]
    exact accounts
  have deposited : ∀ {hash noteKind value}, contract.Depositable hash value noteKind →
      Accounts (recorded ++ [⟨hash, noteKind, value⟩]) (consumed ++ [])
        (RollupV1.withDeposit hash value noteKind contract.state.storage).mints := by
    intro hash noteKind value depositable
    rw [List.append_nil]
    exact accounts.deposit (accounts.unspent_of_absent depositable.absent)
  cases request with
  | mint mintHash value noteKind =>
      rcases RollupV1.mint_eq_ok_iff.mp done with ⟨depositable, world, _, rfl⟩
      exact deposited depositable
  | mintClaimed mintHash value noteKind =>
      rcases RollupV1.mintClaimed_eq_ok_iff.mp done with ⟨_, depositable, rfl⟩
      exact deposited depositable
  | verifyRollup rollup =>
      rcases RollupV1.accepts_of_verifyRollup done with ⟨messages, accepts, _⟩
      have settled := accounts.foldlM_settleMessage accepts.settled
      change Accounts (recorded ++ []) (consumed ++ ((parseMessages _).getD []).flatMap _) _
      rwa [accepts.parsed, List.append_nil]
  | substituteBurn burnAddress noteKind hash amount burnBlockHeight =>
      rcases (RollupV1.substitutes_of_substituteBurn done).paid with ⟨_, _, _, _, rfl⟩
      exact unchanged rfl rfl rfl
  | initializeV2 arguments =>
      obtain ⟨_, _, rfl⟩ := RollupV1.eq_upgraded_of_initializeV2 done
      exact unchanged rfl rfl rfl
  | burnClaimed substituteAddress substituteBurnKey =>
      obtain rfl := RollupV1.eq_of_burnClaimed done
      exact unchanged rfl rfl rfl
  | setValidators validFrom validators =>
      obtain ⟨_, _, rfl⟩ := RollupV1.setValidators_eq_ok done
      exact unchanged rfl rfl rfl
  | _ => exact unchanged rfl rfl (RollupV1.frame_of_setting rfl done).mints

/-- The mapping against the history while mints wait: nothing that they wait for has been
consumed. -/
structure OpenAccounts (recorded consumed : List Deposit) (state : RollupV1.Open W) : Prop where
  accounts : Accounts recorded consumed state.contract.state.storage.mints
  waiting : ∀ mint ∈ state.waiting, ∀ deposit ∈ consumed, deposit.hash ≠ mint.mintHash

variable {state after : RollupV1.Open W}

theorem OpenAccounts.beginMint {mintHash value noteKind : Element}
    (open_ : OpenAccounts recorded consumed state)
    (done : RollupV1.beginMint env mintHash value noteKind state = .ok after) :
    OpenAccounts recorded consumed after := by
  rcases bind_eq_ok_iff.mp done with ⟨storage, counted, result⟩
  obtain rfl := pure_eq_ok_iff.mp result
  rcases RollupV1.countDeposit_eq_ok_iff.mp counted with ⟨depositable, rfl⟩
  refine ⟨open_.accounts, ?_⟩
  intro mint mem
  rcases List.mem_cons.mp mem with rfl | earlier
  · exact open_.accounts.unspent_of_absent depositable.absent
  · exact open_.waiting mint earlier

theorem OpenAccounts.endMint {mint : RollupV1.WaitingMint} {waiting : List RollupV1.WaitingMint}
    (open_ : OpenAccounts recorded consumed ⟨contract, mint :: waiting⟩)
    (done : RollupV1.endMint externals here mint contract = .ok next) :
    OpenAccounts (recorded ++ [⟨mint.mintHash, mint.noteKind, mint.value⟩]) consumed
      ⟨next, waiting⟩ := by
  rcases bind_eq_ok_iff.mp done with ⟨world, _, result⟩
  obtain rfl := pure_eq_ok_iff.mp result
  exact ⟨open_.accounts.deposit (open_.waiting mint List.mem_cons_self),
    fun other mem => open_.waiting other (List.mem_cons_of_mem _ mem)⟩

theorem OpenAccounts.whole {request : RollupV1.Call} {waiting : List RollupV1.WaitingMint}
    (open_ : OpenAccounts recorded consumed ⟨contract, waiting⟩)
    (undisturbed : ∀ deposit ∈ request.consumes, ∀ mint ∈ waiting,
      deposit.hash ≠ mint.mintHash)
    (done : contract.call externals here env request = .ok next) :
    OpenAccounts (recorded ++ request.records) (consumed ++ request.consumes)
      ⟨next, waiting⟩ := by
  refine ⟨open_.accounts.call done, ?_⟩
  intro mint isWaiting deposit mem
  rcases List.mem_append.mp mem with before | now
  · exact open_.waiting mint isWaiting deposit before
  · exact undisturbed deposit now mint isWaiting

/-- What happens keeps the mapping in line with the history, if it uses up nothing that a mint
waits for. -/
theorem OpenAccounts.step {action : RollupV1.OpenAction W}
    (open_ : OpenAccounts recorded consumed state) (undisturbed : state.Undisturbed action)
    (taken : RollupV1.OpenStep externals here state action after) :
    OpenAccounts (recorded ++ action.records) (consumed ++ action.consumes) after := by
  have silent : ∀ {reached : RollupV1.Open W}, OpenAccounts recorded consumed reached →
      OpenAccounts (recorded ++ []) (consumed ++ []) reached := by
    intro reached accounts
    rwa [List.append_nil, List.append_nil]
  cases taken with
  | @accepted after env request ended done =>
      cases request with
      | whole request =>
          rcases bind_eq_ok_iff.mp done with ⟨next, called, result⟩
          obtain ⟨rfl, rfl⟩ := Prod.mk.inj (pure_eq_ok_iff.mp result)
          exact open_.whole undisturbed called
      | beginMint mintHash value noteKind =>
          rcases bind_eq_ok_iff.mp done with ⟨begun, called, result⟩
          obtain ⟨rfl, rfl⟩ := Prod.mk.inj (pure_eq_ok_iff.mp result)
          exact silent (open_.beginMint called)
      | endMint =>
          obtain ⟨contract, waiting⟩ := state
          cases waiting with
          | nil => cases done
          | cons mint waiting =>
              rcases bind_eq_ok_iff.mp done with ⟨next, called, result⟩
              obtain ⟨rfl, rfl⟩ := Prod.mk.inj (pure_eq_ok_iff.mp result)
              have ends := open_.endMint called
              rw [← List.append_nil consumed] at ends
              exact ends
  | reverted _ => exact silent open_
  | elsewhere => exact silent ⟨open_.accounts, open_.waiting⟩

/-- A step that uses up nothing that a mint waits for. -/
def RollupV1.UndisturbedStep (externals : Externals W) (here : Address) (state : RollupV1.Open W)
    (action : RollupV1.OpenAction W) (after : RollupV1.Open W) : Prop :=
  RollupV1.OpenStep externals here state action after ∧ state.Undisturbed action

theorem accounts_of_run {start : RollupV1 W} {actions : List (RollupV1.OpenAction W)} {world : W}
    {blockNumber : Element} {owner escrowManager tokenAddress verifierAddress prover : Address}
    {initialValidators : List Address} {verifierKeyHash : Element}
    (initial : RollupV1.initializeV1 world blockNumber owner escrowManager tokenAddress
      verifierAddress prover initialValidators verifierKeyHash = .ok start)
    (run : Run (RollupV1.UndisturbedStep externals here) ⟨start, []⟩ actions state) :
    OpenAccounts (actions.flatMap RollupV1.OpenAction.records)
      (actions.flatMap RollupV1.OpenAction.consumes) state := by
  induction run with
  | nil =>
      rcases bind_eq_ok_iff.mp initial with ⟨created, initialized, result⟩
      obtain rfl := pure_eq_ok_iff.mp result
      rcases bind_eq_ok_iff.mp initialized with ⟨_, _, created⟩
      obtain rfl := pure_eq_ok_iff.mp created
      exact ⟨.empty, fun _ _ _ mem => absurd mem List.not_mem_nil⟩
  | snoc _ taken ih =>
      rw [List.flatMap_append, List.flatMap_append, List.flatMap_singleton, List.flatMap_singleton]
      exact ih.step taken.2 taken.1

/-- Nothing that happens both writes down and uses up deposits. -/
theorem records_eq_nil_of_consumes {action : RollupV1.OpenAction W} {deposit : Deposit}
    (mem : deposit ∈ action.consumes) : action.records = [] := by
  cases action with
  | accepted env request ended =>
      cases request with
      | whole request =>
          cases request with
          | verifyRollup rollup => rfl
          | _ => cases mem
      | beginMint | endMint => cases mem
  | reverted | elsewhere => cases mem

/-- Over every sequence of calls, also of calls that come while a mint waits for its tokens, a
deposit with a value is consumed at most once, after a call that has recorded it with this
amount and note kind, and what has been consumed is worth at most what has been recorded, as
long as no deposit is consumed while a mint of its hash waits. -/
theorem deposits_consumed_once {start : RollupV1 W} {actions : List (RollupV1.OpenAction W)}
    {world : W}
    {blockNumber : Element} {owner escrowManager tokenAddress verifierAddress prover : Address}
    {initialValidators : List Address} {verifierKeyHash : Element}
    (initial : RollupV1.initializeV1 world blockNumber owner escrowManager tokenAddress
      verifierAddress prover initialValidators verifierKeyHash = .ok start)
    (run : Run (RollupV1.UndisturbedStep externals here) ⟨start, []⟩ actions state) :
    ((actions.flatMap RollupV1.OpenAction.consumes).map Deposit.hash).Nodup ∧
      (∀ earlier action later, actions = earlier ++ action :: later →
        ∀ deposit ∈ action.consumes, deposit ∈ earlier.flatMap RollupV1.OpenAction.records) ∧
      totalAmount (actions.flatMap RollupV1.OpenAction.consumes) ≤
        totalAmount (actions.flatMap RollupV1.OpenAction.records) := by
  have accounts := (accounts_of_run initial run).accounts
  refine ⟨accounts.once, ?_, accounts.totalAmount_le⟩
  rintro earlier action later rfl deposit mem
  rw [← List.singleton_append, ← List.append_assoc] at run
  rcases run.of_append with ⟨reached, before⟩
  have backed := (accounts_of_run initial before).accounts.backed deposit (by
    rw [List.flatMap_append, List.flatMap_singleton]
    exact List.mem_append_right _ mem)
  rwa [List.flatMap_append, List.flatMap_singleton, records_eq_nil_of_consumes mem,
    List.append_nil] at backed

/-- Calls that are not interrupted disturb no mint. -/
theorem RollupV1.undisturbedRun_opened {start : RollupV1 W} {actions : List (RollupV1.Action W)}
    (run : Run (RollupV1.Step externals here) start actions contract) :
    Run (RollupV1.UndisturbedStep externals here) ⟨start, []⟩
      (actions.map RollupV1.Action.opened) ⟨contract, []⟩ := by
  induction run with
  | nil => exact .nil
  | snoc _ taken ih =>
      rw [List.map_append]
      exact .snoc ih ⟨taken.opened [], fun _ _ _ mem => absurd mem List.not_mem_nil⟩

end

/-! ## Two deposits and their mints -/

/-- An action disturbs no waiting mint, which is decided over its deposits. -/
instance {W : Type} (state : RollupV1.Open W) (action : RollupV1.OpenAction W) :
    Decidable (state.Undisturbed action) :=
  inferInstanceAs (Decidable (∀ deposit ∈ action.consumes, ∀ mint ∈ state.waiting,
    deposit.hash ≠ mint.mintHash))

/-- A deposit of five and its mint. -/
def depositAndMint : List (Env × RollupV1.Call) :=
  [upgradeCall 0, (⟨2, 100, 0⟩, .mint 11 5 tokenKind),
    (⟨9, 100, 0⟩, .verifyRollup (rollupWith 1 [2, tokenKind, 5, 11]))]

/-- While a deposit of five under the hash 11 waits for its tokens, the token is called back and
another deposit, of `amount` under a hash, is made and used up.  After the first deposit has
been written down it is used up as well. -/
def depositWithin (mintHash amount : Element) : List (Env × RollupV1.OpenCall) :=
  [(⟨5, 100, 0⟩, .whole (upgradeCall 0).2),
    (⟨2, 700000, 0⟩, .beginMint 11 5 tokenKind),
    (⟨20, 700000, 0⟩, .whole (.mint mintHash amount tokenKind)),
    (⟨20, 700000, 0⟩,
      .whole (.verifyRollup (rollupWith 1 [2, tokenKind, amount, mintHash]))),
    (⟨2, 700000, 0⟩, .endMint),
    (⟨9, 700100, 0⟩, .whole (.verifyRollup (rollupWith 2 [2, tokenKind, 5, 11])))]

theorem depositAndMint_accepted :
    ∃ start, deploy () = .ok start ∧
      ∃ contract, start.calls agreeable 10 depositAndMint = .ok contract :=
  ⟨_, rfl, _, rfl⟩

theorem depositWithin_accepted :
    ∃ start, deploy () = .ok start ∧ ∃ state actions,
      RollupV1.openCalls agreeable 10 (fun state action => decide (state.Undisturbed action))
        (depositWithin 12 7) ⟨start, []⟩ = .ok (state, actions) ∧
      actions.flatMap RollupV1.OpenAction.consumes = [⟨12, tokenKind, 7⟩, ⟨11, tokenKind, 5⟩] :=
  ⟨_, rfl, _, _, rfl, rfl⟩

theorem depositAndMint_consumes :
    (∃ start contract actions, deploy () = .ok start ∧
      Run (RollupV1.Step agreeable 10) start actions contract ∧
      (actions.map RollupV1.Action.opened).flatMap RollupV1.OpenAction.consumes =
        [⟨11, tokenKind, 5⟩] ∧
      totalAmount ((actions.map RollupV1.Action.opened).flatMap RollupV1.OpenAction.consumes) ≤
        totalAmount ((actions.map RollupV1.Action.opened).flatMap
          RollupV1.OpenAction.records)) ∧
    ∃ start state actions, deploy () = .ok start ∧
      Run (RollupV1.UndisturbedStep agreeable 10) ⟨start, []⟩ actions state ∧
      actions.flatMap RollupV1.OpenAction.consumes = [⟨12, tokenKind, 7⟩, ⟨11, tokenKind, 5⟩] ∧
      ((actions.flatMap RollupV1.OpenAction.consumes).map Deposit.hash).Nodup := by
  constructor
  · rcases depositAndMint_accepted with ⟨start, deployed, contract, done⟩
    have run := RollupV1.run_of_calls done
    have undisturbed := RollupV1.undisturbedRun_opened run
    exact ⟨start, contract, _, deployed, run, rfl,
      (deposits_consumed_once deployed undisturbed).2.2⟩
  · rcases depositWithin_accepted with ⟨start, deployed, state, actions, done, consumes⟩
    have run : Run (RollupV1.UndisturbedStep agreeable 10) ⟨start, []⟩ actions state :=
      (RollupV1.run_of_openCalls done).mono fun _ _ _ taken =>
        ⟨taken.1, of_decide_eq_true taken.2⟩
    exact ⟨start, state, actions, deployed, run, consumes,
      (deposits_consumed_once deployed run).1⟩

/-- A deposit that is made and used up while another one of its hash waits is written down again
and can be used up twice. -/
theorem depositWithin_consumed_twice :
    ∃ start state actions, deploy () = .ok start ∧
      Run (RollupV1.OpenStep agreeable 10) ⟨start, []⟩ actions state ∧
      actions.flatMap RollupV1.OpenAction.consumes = [⟨11, tokenKind, 5⟩, ⟨11, tokenKind, 5⟩] ∧
      ¬((actions.flatMap RollupV1.OpenAction.consumes).map Deposit.hash).Nodup := by
  obtain ⟨start, deployed, state, actions, done, consumes⟩ :
      ∃ start, deploy () = .ok start ∧ ∃ state actions,
        RollupV1.openCalls agreeable 10 (fun _ _ => true) (depositWithin 11 5) ⟨start, []⟩ =
          .ok (state, actions) ∧
        actions.flatMap RollupV1.OpenAction.consumes =
          [⟨11, tokenKind, 5⟩, ⟨11, tokenKind, 5⟩] :=
    ⟨_, rfl, _, _, rfl, rfl⟩
  refine ⟨start, state, actions, deployed,
    (RollupV1.run_of_openCalls done).mono fun _ _ _ taken => taken.1, consumes, ?_⟩
  rw [consumes]
  decide

end Ciphera.Rollup
