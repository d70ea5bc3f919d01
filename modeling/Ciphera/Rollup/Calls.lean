import Ciphera.Rollup.Verify

/-!
# The calls of the contract

The rest of the contract around `verifyRollup`: deposits, early payment of
burns, and the settings of the owner.  A call succeeds or reverts, and a call
that reverts changes nothing.  Between two calls the other contracts may change
in any way.

A token is another contract.  Here it does not call back: `Reentrancy` has the calls that come
while a mint waits for its tokens.  The parameter `here` is the contract's own address.
-/

namespace Ciphera.Rollup

open Ciphera.Lib

/-- Who calls, and in which block. -/
structure Env where
  sender : Address
  timestamp : Element
  blockNumber : Element
  deriving DecidableEq, Repr

/-- What the contract asks of others: tokens, signature recovery, verifiers of
proofs, and whether there is code at an address. -/
structure Externals (W : Type) where
  keccak : Keccak
  recover : Recover
  verifyProof : ProofVerifier
  transfer : Transfer W
  /-- `safeTransferFrom` with the token, the sender, the recipient and the amount. -/
  safeTransferFrom : W → Address → Address → Address → Element → Outcome W
  /-- `balanceOf` with the token and the account. -/
  balanceOf : W → Address → Address → Element
  hasCode : Address → Bool

/-- The arguments of `initializeV2`, and the address at which the timelock is
deployed. -/
structure InitializeV2 where
  perMintCap : Element
  globalTvlCap : Element
  openProvingDelay : Element
  burnFee : Element
  feeSink : Address
  timelockMinDelay : Element
  timelockProposers : List Address
  timelockExecutors : List Address
  timelock : Address
  deriving DecidableEq, Repr

/-- 3000 sats. -/
def MAX_BURN_FEE : Element := 30000000000000

/-- `7 days`, in seconds. -/
def sevenDays : Element := 604800

/-- `1 hours`, in seconds. -/
def oneHour : Element := 3600

/-- The whole contract. -/
structure RollupV1 (W : Type) extends Contract W where
  version : Nat
  owner : Address
  token : Address
  burnSubstitutors : Address → Bool
  escrowManager : Address
  perMintCap : Element := 0
  globalTvlCap : Element := 0

namespace RollupV1

/-- The calls that change the contract, with their arguments. -/
inductive Call
  | initializeV2 (arguments : InitializeV2)
  | addProver (prover : Address)
  | removeProver (prover : Address)
  | addZkVerifier (verificationKeyHash : Element) (verifierAddress : Address)
      (messagesLength : BitVec 32)
  | removeZkVerifier (verificationKeyHash : Element)
  | addBurnSubstitutor (burnSubstitutor : Address)
  | removeBurnSubstitutor (burnSubstitutor : Address)
  | addToken (noteKind : Element) (tokenAddress : Address)
  | setPerMintCap (newCap : Element)
  | setGlobalTvlCap (newCap : Element)
  | setOpenProvingDelay (newDelay : Element)
  | setBurnFee (newFee : Element)
  | setFeeSink (newSink : Address)
  | setValidators (validFrom : Element) (validators : List Address)
  | setEscrowManager (newEscrowManager : Address)
  | transferOwnership (newOwner : Address)
  | renounceOwnership
  | verifyRollup (rollup : RollupCall)
  | substituteBurn (burnAddress : Address) (noteKind hash amount burnBlockHeight : Element)
  | mint (mintHash value noteKind : Element)
  | mintClaimed (mintHash value noteKind : Element)
  | burnClaimed (substituteAddress : Address) (substituteBurnKey : Element)

variable {W : Type}

/-- `initialize`, in a block of any number. -/
def initializeV1 (world : W) (blockNumber : Element)
    (owner escrowManager tokenAddress verifierAddress prover : Address)
    (initialValidators : List Address) (verifierKeyHash : Element) : Outcome (RollupV1 W) := do
  let contract ← Contract.initializeContract world blockNumber tokenAddress verifierAddress prover
    initialValidators verifierKeyHash
  pure
    { toContract := contract
      version := 1
      owner
      token := tokenAddress
      burnSubstitutors := Function.update (fun _ => false) owner true
      escrowManager }

/-- The modifier of calls for the owner. -/
def onlyOwner (env : Env) (contract : RollupV1 W) : Outcome Unit :=
  require (env.sender = contract.owner) "OwnableUnauthorizedAccount"

/-- The modifier of calls for an enrolled burn substitutor. -/
def onlyBurnSubstitutor (env : Env) (contract : RollupV1 W) : Outcome Unit :=
  require (contract.burnSubstitutors env.sender = true) "RollupV1: You are not a burn substitutor"

/-- The modifier of calls for the escrow manager. -/
def onlyEscrowManager (env : Env) (contract : RollupV1 W) : Outcome Unit :=
  require (env.sender = contract.escrowManager) "RollupV1: Only escrow manager"

/-- The contract with another storage. -/
def withStorage (contract : RollupV1 W) (storage : Storage) : RollupV1 W :=
  { contract with state := { contract.state with storage } }

section Owner

variable (externals : Externals W) (here : Address)

/-- The second version of the contract starts with a fee, a delay, caps and a timelock,
whose arguments are checked one after the other. -/
def initializeV2 (env : Env) (arguments : InitializeV2) (contract : RollupV1 W) :
    Outcome (RollupV1 W) := do
  contract.onlyOwner env
  require (contract.version < 2) "InvalidInitialization"
  require (arguments.feeSink ≠ 0) "RollupV1: invalid fee sink"
  require (arguments.burnFee ≤ MAX_BURN_FEE) "RollupV1: burn fee too high"
  require (sevenDays ≤ arguments.openProvingDelay) "RollupV1: open proving delay too short"
  require (0 < arguments.perMintCap) "RollupV1: per-mint cap must be nonzero"
  require (arguments.perMintCap ≤ arguments.globalTvlCap) "RollupV1: TVL cap < per-mint cap"
  require (oneHour ≤ arguments.timelockMinDelay) "RollupV1: timelock delay too short"
  require (0 < arguments.timelockProposers.length) "RollupV1: at least one proposer required"
  require (0 < arguments.timelockExecutors.length) "RollupV1: at least one executor required"
  require (arguments.timelockProposers.any (· ≠ 0))
    "RollupV1: at least one non-zero proposer required"
  let storage := contract.state.storage
  pure
    { contract.withStorage
        { storage with
          currentTvl := externals.balanceOf contract.state.world contract.token here
          burnFee := arguments.burnFee
          feeSink := arguments.feeSink } with
      perMintCap := arguments.perMintCap
      globalTvlCap := arguments.globalTvlCap
      lastVerifiedAt := env.timestamp
      openProvingDelay := arguments.openProvingDelay
      version := 2
      owner := arguments.timelock }

/-- The owner lets an address prove rollups. -/
def addProver (env : Env) (prover : Address) (contract : RollupV1 W) : Outcome (RollupV1 W) := do
  contract.onlyOwner env
  pure { contract with provers := Function.update contract.provers prover true }

/-- The owner takes this away from a prover. -/
def removeProver (env : Env) (prover : Address) (contract : RollupV1 W) :
    Outcome (RollupV1 W) := do
  contract.onlyOwner env
  require (contract.provers prover = true) "Address is not a prover"
  pure { contract with provers := Function.update contract.provers prover false }

/-- The owner registers the verifier of a key, which must be a contract. -/
def addZkVerifier (env : Env) (verificationKeyHash : Element) (verifierAddress : Address)
    (messagesLength : BitVec 32) (contract : RollupV1 W) : Outcome (RollupV1 W) := do
  contract.onlyOwner env
  require (verifierAddress ≠ 0) "RollupV1: Invalid zk verifier address"
  require (externals.hasCode verifierAddress = true) "RollupV1: ZK verifier is not a contract"
  pure
    { contract with
      zkVerifiers := Function.update contract.zkVerifiers verificationKeyHash
        ⟨verifierAddress, messagesLength.toNat, true⟩ }

/-- The owner forgets the verifier of a key that has one. -/
def removeZkVerifier (env : Env) (verificationKeyHash : Element) (contract : RollupV1 W) :
    Outcome (RollupV1 W) := do
  contract.onlyOwner env
  require ((contract.zkVerifiers verificationKeyHash).enabled = true)
    "RollupV1: ZK verifier does not exist"
  pure
    { contract with
      zkVerifiers := Function.update contract.zkVerifiers verificationKeyHash {} }

/-- The owner says whether an address may substitute burns. -/
def setBurnSubstitutor (env : Env) (burnSubstitutor : Address) (allowed : Bool)
    (contract : RollupV1 W) : Outcome (RollupV1 W) := do
  contract.onlyOwner env
  pure
    { contract with
      burnSubstitutors := Function.update contract.burnSubstitutors burnSubstitutor allowed }

/-- The signature of an accept. -/
def addBurnSubstitutor (env : Env) (burnSubstitutor : Address) (contract : RollupV1 W) :
    Outcome (RollupV1 W) :=
  contract.setBurnSubstitutor env burnSubstitutor true

/-- An address may no longer substitute burns. -/
def removeBurnSubstitutor (env : Env) (burnSubstitutor : Address) (contract : RollupV1 W) :
    Outcome (RollupV1 W) :=
  contract.setBurnSubstitutor env burnSubstitutor false

/-- A new cap on one mint, which stays at or below the cap on everything locked. -/
def setPerMintCap (env : Env) (newCap : Element) (contract : RollupV1 W) :
    Outcome (RollupV1 W) := do
  contract.onlyOwner env
  require (0 < newCap) "RollupV1: per-mint cap must be nonzero"
  require (newCap ≤ contract.globalTvlCap) "RollupV1: per-mint cap > TVL cap"
  pure { contract with perMintCap := newCap }

/-- A cap below the current value is allowed; it stops growth. -/
def setGlobalTvlCap (env : Env) (newCap : Element) (contract : RollupV1 W) :
    Outcome (RollupV1 W) := do
  contract.onlyOwner env
  require (contract.perMintCap ≤ newCap) "RollupV1: TVL cap < per-mint cap"
  pure { contract with globalTvlCap := newCap }

/-- A new delay before anybody may prove, seven days at least. -/
def setOpenProvingDelay (env : Env) (newDelay : Element) (contract : RollupV1 W) :
    Outcome (RollupV1 W) := do
  contract.onlyOwner env
  require (sevenDays ≤ newDelay) "RollupV1: open proving delay too short"
  pure { contract with openProvingDelay := newDelay }

/-- A new fee on burns, which is bounded. -/
def setBurnFee (env : Env) (newFee : Element) (contract : RollupV1 W) : Outcome (RollupV1 W) := do
  contract.onlyOwner env
  require (newFee ≤ MAX_BURN_FEE) "RollupV1: burn fee too high"
  pure (contract.withStorage { contract.state.storage with burnFee := newFee })

/-- A new receiver of the fees. -/
def setFeeSink (env : Env) (newSink : Address) (contract : RollupV1 W) : Outcome (RollupV1 W) := do
  contract.onlyOwner env
  require (newSink ≠ 0) "RollupV1: invalid fee sink"
  pure (contract.withStorage { contract.state.storage with feeSink := newSink })

/-- A new set of validators for the blocks from a height on. -/
def setValidators (env : Env) (validFrom : Element) (validators : List Address)
    (contract : RollupV1 W) : Outcome (RollupV1 W) := do
  contract.onlyOwner env
  let validators ← contract.validators.setValidators env.blockNumber validFrom validators
  pure { contract with validators }

/-- The accepts for one number of skips, if there are any. -/
def setEscrowManager (env : Env) (newEscrowManager : Address) (contract : RollupV1 W) :
    Outcome (RollupV1 W) := do
  contract.onlyOwner env
  require (newEscrowManager ≠ 0) "RollupV1: Invalid escrow manager address"
  pure { contract with escrowManager := newEscrowManager }

/-- A new owner, who must exist. -/
def transferOwnership (env : Env) (newOwner : Address) (contract : RollupV1 W) :
    Outcome (RollupV1 W) := do
  contract.onlyOwner env
  require (newOwner ≠ 0) "OwnableInvalidOwner"
  pure { contract with owner := newOwner }

/-- The contract is left without an owner. -/
def renounceOwnership (env : Env) (contract : RollupV1 W) : Outcome (RollupV1 W) := do
  contract.onlyOwner env
  pure { contract with owner := 0 }

end Owner

section Users

variable (externals : Externals W) (here : Address)

/-- A rollup is verified and settled, if its sender may prove one now. -/
def verifyRollup (env : Env) (rollup : RollupCall) (contract : RollupV1 W) :
    Outcome (RollupV1 W) := do
  let next ← contract.toContract.verifyRollup externals.keccak externals.transfer
    externals.recover externals.verifyProof env.sender env.timestamp rollup
  pure { contract with toContract := next }

/-- Pay a burn before its rollup.  The key has the whole amount, the payment is
without the fee. -/
def substituteBurnTo (burnAddress substituteAddress : Address)
    (noteKind hash amount burnBlockHeight : Element) (contract : RollupV1 W) :
    Outcome (RollupV1 W) := do
  let storage := contract.state.storage
  let substituteBurnKey :=
    getSubstituteBurnKey externals.keccak hash burnAddress noteKind amount burnBlockHeight
  require (storage.substitutedBurns substituteBurnKey = 0) "RollupV1: Burn already substituted"
  require (contract.blockHeight < burnBlockHeight) "RollupV1: Block height already rolled up"
  let token := storage.tokens noteKind
  require (token ≠ 0) "RollupV1: Token not found for note kind"
  let fee := computeBurnFee storage amount
  let payout ← checkedSub amount fee
  let world ← externals.safeTransferFrom contract.state.world token substituteAddress here payout
  let (state, success) ←
    executeBurnToAddress externals.transfer { contract.state with world } token burnAddress payout
  require (success = true) "RollupV1: Burn failed"
  pure
    { contract with
      state :=
        { state with
          storage :=
            { state.storage with
              substitutedBurns := Function.update state.storage.substitutedBurns substituteBurnKey
                substituteAddress } } }

/-- A substitutor pays a burn out to its address before the rollup does. -/
def substituteBurn (env : Env) (burnAddress : Address)
    (noteKind hash amount burnBlockHeight : Element) (contract : RollupV1 W) :
    Outcome (RollupV1 W) := do
  contract.onlyBurnSubstitutor env
  contract.substituteBurnTo externals here burnAddress env.sender noteKind hash amount
    burnBlockHeight

/-- The checks of a deposit up to its token, which `mint` and `mintClaimed` share,
and the deposit counted. -/
def countDeposit (mintHash value noteKind : Element) (contract : RollupV1 W) :
    Outcome Storage := do
  let storage := contract.state.storage
  require ((storage.mints mintHash).amount = 0) "RollupV1: Mint already exists"
  require (value ≤ contract.perMintCap) "RollupV1: exceeds per-mint cap"
  let currentTvl ← checkedAdd storage.currentTvl value
  require (currentTvl ≤ contract.globalTvlCap) "RollupV1: TVL cap reached"
  require (storage.tokens noteKind ≠ 0) "RollupV1: Token not found for note kind"
  pure { storage with currentTvl }

/-- Write down a deposit. -/
def recordMint (mintHash value noteKind : Element) (storage : Storage) : Storage :=
  { storage with mints := Function.update storage.mints mintHash ⟨noteKind, value, false⟩ }

/-- A deposit of the escrow manager, who has the tokens already. -/
def mintClaimed (env : Env) (mintHash value noteKind : Element) (contract : RollupV1 W) :
    Outcome (RollupV1 W) := do
  contract.onlyEscrowManager env
  let storage ← contract.countDeposit mintHash value noteKind
  pure (contract.withStorage (recordMint mintHash value noteKind storage))

/-- A deposit by its sender, whose token does not call back. -/
def mint (env : Env) (mintHash value noteKind : Element) (contract : RollupV1 W) :
    Outcome (RollupV1 W) := do
  let storage ← contract.countDeposit mintHash value noteKind
  let world ← externals.safeTransferFrom contract.state.world (storage.tokens noteKind) env.sender
    here value
  pure { contract with state := ⟨recordMint mintHash value noteKind storage, world⟩ }

/-- The escrow manager records who has paid for a burn. -/
def burnClaimed (env : Env) (substituteAddress : Address) (substituteBurnKey : Element)
    (contract : RollupV1 W) : Outcome (RollupV1 W) := do
  contract.onlyEscrowManager env
  let storage := contract.state.storage
  pure (contract.withStorage
    { storage with
      substitutedBurns := Function.update storage.substitutedBurns substituteBurnKey
        substituteAddress })

end Users

section Steps

variable (externals : Externals W) (here : Address)

/-- One call: what its function does, or why it reverts. -/
def call (env : Env) (contract : RollupV1 W) : Call → Outcome (RollupV1 W)
  | .initializeV2 arguments => contract.initializeV2 externals here env arguments
  | .addProver prover => contract.addProver env prover
  | .removeProver prover => contract.removeProver env prover
  | .addZkVerifier verificationKeyHash verifierAddress messagesLength =>
      contract.addZkVerifier externals env verificationKeyHash verifierAddress messagesLength
  | .removeZkVerifier verificationKeyHash => contract.removeZkVerifier env verificationKeyHash
  | .addBurnSubstitutor burnSubstitutor => contract.addBurnSubstitutor env burnSubstitutor
  | .removeBurnSubstitutor burnSubstitutor => contract.removeBurnSubstitutor env burnSubstitutor
  | .addToken _ _ => .error (.error "RollupV1: addToken disabled")
  | .setPerMintCap newCap => contract.setPerMintCap env newCap
  | .setGlobalTvlCap newCap => contract.setGlobalTvlCap env newCap
  | .setOpenProvingDelay newDelay => contract.setOpenProvingDelay env newDelay
  | .setBurnFee newFee => contract.setBurnFee env newFee
  | .setFeeSink newSink => contract.setFeeSink env newSink
  | .setValidators validFrom validators => contract.setValidators env validFrom validators
  | .setEscrowManager newEscrowManager => contract.setEscrowManager env newEscrowManager
  | .transferOwnership newOwner => contract.transferOwnership env newOwner
  | .renounceOwnership => contract.renounceOwnership env
  | .verifyRollup rollup => contract.verifyRollup externals env rollup
  | .substituteBurn burnAddress noteKind hash amount burnBlockHeight =>
      contract.substituteBurn externals here env burnAddress noteKind hash amount burnBlockHeight
  | .mint mintHash value noteKind => contract.mint externals here env mintHash value noteKind
  | .mintClaimed mintHash value noteKind => contract.mintClaimed env mintHash value noteKind
  | .burnClaimed substituteAddress substituteBurnKey =>
      contract.burnClaimed env substituteAddress substituteBurnKey

/-- What happens on the chain, as far as the contract can see. -/
inductive Action (W : Type)
  | accepted (env : Env) (call : Call)
  | reverted (env : Env) (call : Call)
  | elsewhere (world : W)

/-- A call that does not revert takes effect, one that reverts does not, and the
other contracts do as they like. -/
inductive Step : RollupV1 W → Action W → RollupV1 W → Prop
  | accepted {contract next : RollupV1 W} {env : Env} {request : Call}
      (done : contract.call externals here env request = .ok next) :
      Step contract (.accepted env request) next
  | reverted {contract : RollupV1 W} {env : Env} {request : Call} {stop : Stop String}
      (stopped : contract.call externals here env request = .error stop) :
      Step contract (.reverted env request) contract
  | elsewhere {contract : RollupV1 W} {world : W} :
      Step contract (.elsewhere world) { contract with state := { contract.state with world } }

end Steps

/-! ## What a call leaves alone -/

/-- The calls with which the owner changes a setting. -/
def Call.isSetting : Call → Bool
  | initializeV2 _ | verifyRollup _ | substituteBurn .. | mint .. | mintClaimed .. | burnClaimed ..
  | setValidators .. => false
  | _ => true

/-- Nothing that deposits, burns and rollups depend on has changed, apart from the
fee, the caps and who may call. -/
structure Frame (contract next : RollupV1 W) : Prop where
  world : next.state.world = contract.state.world
  mints : next.state.storage.mints = contract.state.storage.mints
  substitutedBurns : next.state.storage.substitutedBurns = contract.state.storage.substitutedBurns
  tokens : next.state.storage.tokens = contract.state.storage.tokens
  currentTvl : next.state.storage.currentTvl = contract.state.storage.currentTvl
  blockHeight : next.blockHeight = contract.blockHeight
  rootHash : next.rootHash = contract.rootHash
  validators : next.validators = contract.validators
  lastVerifiedAt : next.lastVerifiedAt = contract.lastVerifiedAt
  version : next.version = contract.version
  token : next.token = contract.token

theorem frame_of_setting {externals : Externals W} {here : Address} {env : Env}
    {contract next : RollupV1 W} {request : Call} (setting : request.isSetting = true)
    (done : contract.call externals here env request = .ok next) : Frame contract next := by
  cases request with
  | initializeV2 | verifyRollup | substituteBurn | mint | mintClaimed | burnClaimed
  | setValidators => cases setting
  | addToken => cases done
  | addProver | addBurnSubstitutor | removeBurnSubstitutor | renounceOwnership =>
      rcases bind_eq_ok_iff.mp done with ⟨_, _, result⟩
      obtain rfl := pure_eq_ok_iff.mp result
      exact ⟨rfl, rfl, rfl, rfl, rfl, rfl, rfl, rfl, rfl, rfl, rfl⟩
  | removeProver | removeZkVerifier | setGlobalTvlCap | setOpenProvingDelay | setBurnFee
  | setFeeSink | setEscrowManager | transferOwnership =>
      rcases bind_eq_ok_iff.mp done with ⟨_, _, done⟩
      rcases bind_eq_ok_iff.mp done with ⟨_, _, result⟩
      obtain rfl := pure_eq_ok_iff.mp result
      exact ⟨rfl, rfl, rfl, rfl, rfl, rfl, rfl, rfl, rfl, rfl, rfl⟩
  | addZkVerifier | setPerMintCap =>
      rcases bind_eq_ok_iff.mp done with ⟨_, _, done⟩
      rcases bind_eq_ok_iff.mp done with ⟨_, _, done⟩
      rcases bind_eq_ok_iff.mp done with ⟨_, _, result⟩
      obtain rfl := pure_eq_ok_iff.mp result
      exact ⟨rfl, rfl, rfl, rfl, rfl, rfl, rfl, rfl, rfl, rfl, rfl⟩

/-! ## What the other calls do -/

/-- A deposit that is new, within the caps and of a known token. -/
structure Depositable (contract : RollupV1 W) (mintHash value noteKind : Element) : Prop where
  absent : (contract.state.storage.mints mintHash).amount = 0
  underMintCap : value ≤ contract.perMintCap
  fits : contract.state.storage.currentTvl.toNat + value.toNat < 2 ^ 256
  underTvlCap : contract.state.storage.currentTvl + value ≤ contract.globalTvlCap
  supported : contract.state.storage.tokens noteKind ≠ 0

/-- The storage with a deposit counted and written down. -/
def withDeposit (mintHash value noteKind : Element) (storage : Storage) : Storage :=
  recordMint mintHash value noteKind { storage with currentTvl := storage.currentTvl + value }

section

variable {externals : Externals W} {here : Address} {env : Env} {contract next : RollupV1 W}

@[simp]
theorem countDeposit_eq_ok_iff {mintHash value noteKind : Element} {storage : Storage} :
    contract.countDeposit mintHash value noteKind = .ok storage ↔
      contract.Depositable mintHash value noteKind ∧
        storage = { contract.state.storage with
          currentTvl := contract.state.storage.currentTvl + value } := by
  simp only [countDeposit, bind_eq_ok_iff, require_eq_ok_iff, pure_eq_ok_iff,
    checkedAdd_eq_ok_iff]
  constructor
  · rintro ⟨_, absent, _, underMintCap, _, ⟨fits, rfl⟩, _, underTvlCap, _, supported, rfl⟩
    exact ⟨⟨absent, underMintCap, fits, underTvlCap, supported⟩, rfl⟩
  · rintro ⟨⟨absent, underMintCap, fits, underTvlCap, supported⟩, rfl⟩
    exact ⟨(), absent, (), underMintCap, _, ⟨fits, rfl⟩, (), underTvlCap, (), supported, rfl⟩

theorem mint_eq_ok_iff {mintHash value noteKind : Element} :
    contract.mint externals here env mintHash value noteKind = .ok next ↔
      contract.Depositable mintHash value noteKind ∧
        ∃ world, externals.safeTransferFrom contract.state.world
            (contract.state.storage.tokens noteKind) env.sender here value = .ok world ∧
          next = { contract with
            state := ⟨withDeposit mintHash value noteKind contract.state.storage, world⟩ } := by
  simp only [mint, bind_eq_ok_iff, countDeposit_eq_ok_iff, pure_eq_ok_iff]
  constructor
  · rintro ⟨_, ⟨depositable, rfl⟩, world, taken, rfl⟩
    exact ⟨depositable, world, taken, rfl⟩
  · rintro ⟨depositable, world, taken, rfl⟩
    exact ⟨_, ⟨depositable, rfl⟩, world, taken, rfl⟩

@[simp]
theorem mintClaimed_eq_ok_iff {mintHash value noteKind : Element} :
    contract.mintClaimed env mintHash value noteKind = .ok next ↔
      env.sender = contract.escrowManager ∧ contract.Depositable mintHash value noteKind ∧
        next = contract.withStorage
          (withDeposit mintHash value noteKind contract.state.storage) := by
  simp only [mintClaimed, onlyEscrowManager, bind_eq_ok_iff, require_eq_ok_iff,
    countDeposit_eq_ok_iff, pure_eq_ok_iff]
  constructor
  · rintro ⟨_, manager, _, ⟨depositable, rfl⟩, rfl⟩
    exact ⟨manager, depositable, rfl⟩
  · rintro ⟨manager, depositable, rfl⟩
    exact ⟨(), manager, _, ⟨depositable, rfl⟩, rfl⟩

/-- The payment of a burn ahead of its rollup: what the substitutor pays in goes out to
the address of the burn. -/
structure Substitutes (externals : Externals W) (here : Address) (env : Env)
    (burnAddress : Address) (noteKind hash amount burnBlockHeight : Element)
    (contract next : RollupV1 W) : Prop where
  allowed : contract.burnSubstitutors env.sender = true
  first : contract.state.storage.substitutedBurns (getSubstituteBurnKey externals.keccak hash
    burnAddress noteKind amount burnBlockHeight) = 0
  pending : contract.blockHeight < burnBlockHeight
  supported : contract.state.storage.tokens noteKind ≠ 0
  paid : ∃ world after,
    externals.safeTransferFrom contract.state.world (contract.state.storage.tokens noteKind)
        env.sender here (amount - computeBurnFee contract.state.storage amount) = .ok world ∧
      attemptTransfer externals.transfer world (contract.state.storage.tokens noteKind) burnAddress
        (amount - computeBurnFee contract.state.storage amount) = .ok (after, true) ∧
      next = { contract with
        state := ⟨{ contract.state.storage with
          substitutedBurns := Function.update contract.state.storage.substitutedBurns
            (getSubstituteBurnKey externals.keccak hash burnAddress noteKind amount burnBlockHeight)
            env.sender }, after⟩ }

theorem substitutes_of_substituteBurn {burnAddress : Address}
    {noteKind hash amount burnBlockHeight : Element}
    (done : contract.substituteBurn externals here env burnAddress noteKind hash amount
      burnBlockHeight = .ok next) :
    Substitutes externals here env burnAddress noteKind hash amount burnBlockHeight contract
      next := by
  simp only [substituteBurn, onlyBurnSubstitutor, substituteBurnTo, bind_eq_ok_iff,
    require_eq_ok_iff, pure_eq_ok_iff] at done
  rcases done with ⟨_, allowed, _, first, _, pending, _, supported, payout, subtracted, world, taken,
    ⟨⟨storage, after⟩, success⟩, sent, _, succeeded, rfl⟩
  have le := computeBurnFee_le contract.state.storage amount
  rw [checkedSub, if_pos le] at subtracted
  obtain rfl := Except.ok.inj subtracted
  obtain ⟨sent, rfl⟩ := executeBurnToAddress_eq_ok_iff.mp sent
  dsimp only at succeeded
  rw [succeeded] at sent
  exact ⟨allowed, first, pending, supported, world, after, taken, sent, rfl⟩

/-- The contract after `initializeV2`. -/
def upgraded (externals : Externals W) (here : Address) (env : Env) (arguments : InitializeV2)
    (contract : RollupV1 W) : RollupV1 W :=
  { contract.withStorage
      { contract.state.storage with
        currentTvl := externals.balanceOf contract.state.world contract.token here
        burnFee := arguments.burnFee
        feeSink := arguments.feeSink } with
    perMintCap := arguments.perMintCap
    globalTvlCap := arguments.globalTvlCap
    lastVerifiedAt := env.timestamp
    openProvingDelay := arguments.openProvingDelay
    version := 2
    owner := arguments.timelock }

theorem eq_upgraded_of_initializeV2 {arguments : InitializeV2}
    (done : contract.initializeV2 externals here env arguments = .ok next) :
    contract.version < 2 ∧ sevenDays ≤ arguments.openProvingDelay ∧
      next = contract.upgraded externals here env arguments := by
  simp only [initializeV2, bind_eq_ok_iff, require_eq_ok_iff, pure_eq_ok_iff] at done
  rcases done with ⟨_, _, _, first, _, _, _, _, _, delay, _, _, _, _, _, _, _, _, _, _, _, _, rfl⟩
  exact ⟨first, delay, rfl⟩

theorem eq_of_burnClaimed {substituteAddress : Address} {substituteBurnKey : Element}
    (done : contract.burnClaimed env substituteAddress substituteBurnKey = .ok next) :
    next = contract.withStorage
      { contract.state.storage with
        substitutedBurns := Function.update contract.state.storage.substitutedBurns
          substituteBurnKey substituteAddress } := by
  rcases bind_eq_ok_iff.mp done with ⟨_, _, result⟩
  exact (pure_eq_ok_iff.mp result).symm

theorem setValidators_eq_ok {validFrom : Element} {validators : List Address}
    (done : contract.setValidators env validFrom validators = .ok next) :
    ∃ sets, contract.validators.setValidators env.blockNumber validFrom validators = .ok sets ∧
      next = { contract with validators := sets } := by
  rcases bind_eq_ok_iff.mp done with ⟨_, _, done⟩
  rcases bind_eq_ok_iff.mp done with ⟨sets, added, result⟩
  exact ⟨sets, added, (pure_eq_ok_iff.mp result).symm⟩

theorem accepts_of_verifyRollup {rollup : RollupCall}
    (done : contract.verifyRollup externals env rollup = .ok next) :
    ∃ messages, Contract.Accepts externals.keccak externals.transfer externals.recover
        externals.verifyProof env.sender env.timestamp rollup contract.toContract next.toContract
        messages ∧
      next = { contract with toContract := next.toContract } := by
  rcases bind_eq_ok_iff.mp done with ⟨after, verified, result⟩
  obtain rfl := pure_eq_ok_iff.mp result
  rcases Contract.exists_accepts verified with ⟨messages, accepts⟩
  exact ⟨messages, accepts, rfl⟩

variable (externals here) in
/-- One call after the other, until one reverts. -/
def calls (requests : List (Env × Call)) (contract : RollupV1 W) : Outcome (RollupV1 W) :=
  requests.foldlM (fun contract request => contract.call externals here request.1 request.2)
    contract

theorem run_of_calls {requests : List (Env × Call)}
    (done : contract.calls externals here requests = .ok next) :
    Run (Step externals here) contract
      (requests.map fun request => .accepted request.1 request.2) next := by
  rw [calls, Run.foldlM_eq_ok_iff] at done
  induction done with
  | nil => exact .nil
  | snoc _ taken ih =>
      rw [List.map_append]
      exact .snoc ih (.accepted taken)

end

end RollupV1

/-! ## A deployment -/

/-- Validators and verifiers that agree to everything, over some tokens; every signature is from
one validator. -/
def agreeableOver {W : Type} (transfer : Transfer W)
    (safeTransferFrom : W → Address → Address → Address → Element → Outcome W)
    (balanceOf : W → Address → Address → Element) : Externals W where
  keccak _ := 0
  recover _ _ _ _ := .ok 1
  verifyProof _ _ _ := true
  transfer
  safeTransferFrom
  balanceOf
  hasCode _ := true

/-- Tokens that agree too and keep no balances. -/
def agreeable : Externals Unit :=
  agreeableOver (fun world _ _ _ => (world, ⟨true, []⟩)) (fun world _ _ _ _ => .ok world)
    fun _ _ _ => 0

/-- The root of the empty tree. -/
def emptyRootHash : Element := 0x0577b5b4aa3eaba75b2a919d5d7c63b7258aa507d38e346bf2ff1d48790379ff

/-- The kind of a token in the tests below. -/
def tokenKind : Element := 0x000200000000000013fb8d0c9d1c17ae5e40fff9be350f57840e9e66cd930000

/-- The contract as deployed by an owner, with one prover and one validator. -/
def deploy {W : Type} (world : W) : Outcome (RollupV1 W) :=
  RollupV1.initializeV1 world 0 5 6 7 8 9 [1] 0

/-- The second version, with caps, a fee and a week until proving opens. -/
def upgradeCall (burnFee : Element) : Env × RollupV1.Call :=
  (⟨5, 100, 0⟩, .initializeV2 ⟨1000, 1000, 604800, burnFee, 3, 3600, [4], [4], 4⟩)

/-- A rollup that leaves the root alone, with some messages. -/
def rollupWith (height : Element) (words : List Element) : RollupCall where
  height
  verificationKeyHash := 0
  aggrProof := []
  publicInputs := [emptyRootHash, emptyRootHash, 0] ++ words ++ List.replicate (30 - words.length) 0
  otherHashFromBlockHash := 0
  signatures := [⟨0, 0, 0⟩]

end Ciphera.Rollup
