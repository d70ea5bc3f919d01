import Ciphera.Lib.Run
import Ciphera.Rollup.Settle
import Ciphera.Rollup.Validators

/-!
# Verification of rollups

The whole of `verifyRollup`: who may call it, the roots, the signatures of the
validators, the messages, the proof and the height.  When no rollup has been
verified for long enough, proving is open to everyone and needs no signatures.

Over every sequence of calls the validator sets stay ordered and the index of
the set in use stays at or below the last verified height.
-/

namespace Ciphera.Rollup

open Ciphera.Lib

/-- A verifier of proofs, which is another contract. -/
structure Verifier where
  verifier : Address := 0
  messagesLength : Nat := 0
  enabled : Bool := false
  deriving DecidableEq, Repr

/-- `verify` of a verifier contract: its address, the proof and the public
inputs. -/
abbrev ProofVerifier := Address → List (BitVec 8) → List Element → Bool

/-- The contract, as far as verification reads and writes it. -/
structure Contract (W : Type) where
  state : State W
  zkVerifiers : Element → Verifier
  blockHeight : Element := 0
  rootHash : Element
  provers : Address → Bool
  validators : Validators
  lastVerifiedAt : Element := 0
  openProvingDelay : Element := 0

/-- The arguments of `verifyRollup`. -/
structure RollupCall where
  height : Element
  verificationKeyHash : Element
  aggrProof : List (BitVec 8)
  publicInputs : List Element
  otherHashFromBlockHash : Element
  signatures : List Signature
  deriving DecidableEq, Repr

namespace Contract

variable {W : Type} (keccak : Keccak) (transfer : Transfer W) (recover : Recover)
  (verifyProof : ProofVerifier)

/-- `initialize`, in a block of any number. -/
def initializeContract (world : W) (blockNumber : Element) (tokenAddress verifierAddress prover : Address)
    (initialValidators : List Address) (verifierKeyHash : Element) : Outcome (Contract W) := do
  let validators ← Validators.setValidators blockNumber 0 initialValidators {}
  pure
    { state := ⟨initialStorage tokenAddress, world⟩
      zkVerifiers := Function.update (fun _ => {}) verifierKeyHash ⟨verifierAddress, 6 * 5, true⟩
      rootHash := 0x0577b5b4aa3eaba75b2a919d5d7c63b7258aa507d38e346bf2ff1d48790379ff
      provers := Function.update (fun _ => false) prover true
      validators }

/-- Whether the prover has been inactive for longer than the delay; a delay of
zero is not set yet. -/
def isProvingOpen (timestamp : Element) (contract : Contract W) : Outcome Bool :=
  if contract.openProvingDelay = 0 then pure false
  else do
    let opensAt ← checkedAdd contract.lastVerifiedAt contract.openProvingDelay
    pure (opensAt ≤ timestamp)

/-- While proving is open, signatures are not needed. -/
def verifyValidatorSignatures (timestamp newRoot height otherHashFromBlockHash : Element)
    (signatures : List Signature) (contract : Contract W) : Outcome (Contract W) := do
  if ← contract.isProvingOpen timestamp then pure contract
  else do
    let validators ← contract.validators.verifySignatures keccak recover newRoot height
      otherHashFromBlockHash signatures
    pure { contract with validators }

/-- `onlyProverOrOpen`: a known prover is admitted without looking at the clock. -/
def onlyProverOrOpen (sender : Address) (timestamp : Element) (contract : Contract W) :
    Outcome Unit := do
  if contract.provers sender then pure ()
  else do
    let provingOpen ← contract.isProvingOpen timestamp
    require (provingOpen = true) "RollupV1: not prover and proving not open"

/-- The length of the public inputs: three words before the messages. -/
def checkInputsLength (verifier : Verifier) (publicInputs : List Element) : Outcome Unit :=
  if verifier.messagesLength + 3 < 2 ^ 32 then
    require (publicInputs.length = verifier.messagesLength + 3)
      "RollupV1: Invalid publicInputs length"
  else .error (.panic "arithmetic overflow")

/-- Check a rollup against the state, verify its proof and its signatures, and settle it. -/
def verifyRollup (sender : Address) (timestamp : Element) (rollup : RollupCall)
    (contract : Contract W) : Outcome (Contract W) := do
  contract.onlyProverOrOpen sender timestamp
  let verifier := contract.zkVerifiers rollup.verificationKeyHash
  require (verifier.enabled = true) "RollupV1: ZK verifier not allowed"
  checkInputsLength verifier rollup.publicInputs
  let oldRoot ← readWord rollup.publicInputs 0
  let newRoot ← readWord rollup.publicInputs 1
  require (oldRoot = contract.rootHash) "RollupV1: Root hash verification failed"
  let contract ← contract.verifyValidatorSignatures keccak recover timestamp newRoot rollup.height
    rollup.otherHashFromBlockHash rollup.signatures
  let state ← verifyAllMessages keccak transfer 3 rollup.publicInputs verifier.messagesLength
    rollup.height contract.state
  require (verifyProof verifier.verifier rollup.aggrProof rollup.publicInputs = true)
    "RollupV1: ZK proof verification failed"
  require (contract.blockHeight < rollup.height)
    "RollupV1: New block height must be greater than current"
  pure
    { contract with
      state
      rootHash := newRoot
      blockHeight := rollup.height
      lastVerifiedAt := timestamp }

/-- The calls of the contract. -/
inductive Call
  | setValidators (blockNumber validFrom : Element) (validators : List Address)
  | verifyRollup (sender : Address) (timestamp : Element) (rollup : RollupCall)
  | other

/-- What a call does that does not revert.  No other call touches the validator
sets or the verified height. -/
inductive Step : Contract W → Call → Contract W → Prop
  | setValidators {contract : Contract W} {validators : Validators}
      {blockNumber validFrom : Element} {members : List Address}
      (done : contract.validators.setValidators blockNumber validFrom members = .ok validators) :
      Step contract (.setValidators blockNumber validFrom members) { contract with validators }
  | verifyRollup {contract next : Contract W} {sender : Address} {timestamp : Element}
      {rollup : RollupCall}
      (done : contract.verifyRollup keccak transfer recover verifyProof sender timestamp rollup =
        .ok next) :
      Step contract (.verifyRollup sender timestamp rollup) next
  | other {contract next : Contract W} (validators : next.validators = contract.validators)
      (blockHeight : next.blockHeight = contract.blockHeight) :
      Step contract .other next

variable {keccak transfer recover verifyProof}

/-- An open contract accepts any signatures; otherwise they are checked. -/
theorem verifyValidatorSignatures_eq_ok_iff
    {timestamp newRoot height otherHashFromBlockHash : Element} {signatures : List Signature}
    {contract next : Contract W} :
    contract.verifyValidatorSignatures keccak recover timestamp newRoot height
        otherHashFromBlockHash signatures = .ok next ↔
      contract.isProvingOpen timestamp = .ok true ∧ next = contract ∨
        contract.isProvingOpen timestamp = .ok false ∧
          ∃ validators, contract.validators.verifySignatures keccak recover newRoot height
              otherHashFromBlockHash signatures = .ok validators ∧
            next = { contract with validators } := by
  rw [verifyValidatorSignatures, bind_eq_ok_iff]
  constructor
  · rintro ⟨provingOpen, provingOpenEq, done⟩
    cases provingOpen with
    | true => exact Or.inl ⟨provingOpenEq, (pure_eq_ok_iff.mp done).symm⟩
    | false =>
        obtain ⟨validators, verified, nextEq⟩ := bind_eq_ok_iff.mp done
        exact Or.inr ⟨provingOpenEq, validators, verified, (pure_eq_ok_iff.mp nextEq).symm⟩
  · rintro (⟨provingOpenEq, rfl⟩ | ⟨provingOpenEq, validators, verified, rfl⟩)
    · exact ⟨true, provingOpenEq, rfl⟩
    · exact ⟨false, provingOpenEq, bind_eq_ok_iff.mpr ⟨validators, verified, rfl⟩⟩

/-! ## Runs -/

/-- The validator sets are as every sequence of calls leaves them. -/
def Valid (contract : Contract W) : Prop := contract.validators.Valid contract.blockHeight

theorem valid_of_initializeContract {contract : Contract W} {world : W} {blockNumber : Element}
    {tokenAddress verifierAddress prover : Address} {initialValidators : List Address}
    {verifierKeyHash : Element}
    (done : initializeContract world blockNumber tokenAddress verifierAddress prover initialValidators
      verifierKeyHash = .ok contract) : contract.Valid := by
  obtain ⟨validators, initial, contractEq⟩ := bind_eq_ok_iff.mp done
  obtain rfl := pure_eq_ok_iff.mp contractEq
  exact Validators.valid_of_initial initial

/-- What a verified rollup does to the validator sets and the height. -/
theorem verifyRollup_spec {contract next : Contract W} {sender : Address} {timestamp : Element}
    {rollup : RollupCall}
    (done : contract.verifyRollup keccak transfer recover verifyProof sender timestamp rollup =
      .ok next) :
    (next.validators = contract.validators ∨
        next.validators = contract.validators.updateValidatorSetIndex rollup.height) ∧
      next.blockHeight = rollup.height ∧ contract.blockHeight < rollup.height := by
  simp only [verifyRollup, bind_eq_ok_iff, require_eq_ok_iff, pure_eq_ok_iff] at done
  obtain ⟨_, _, _, _, _, _, _, _, newRoot, _, _, _, signed, signedEq, _, _, _, _, _, above, rfl⟩ :=
    done
  rcases verifyValidatorSignatures_eq_ok_iff.mp signedEq with
    ⟨_, rfl⟩ | ⟨_, validators, verified, rfl⟩
  · exact ⟨Or.inl rfl, rfl, above⟩
  · simp only [Validators.verifySignatures, bind_eq_ok_iff, pure_eq_ok_iff] at verified
    obtain ⟨_, _, _, _, _, _, _, _, _, _, rfl⟩ := verified
    exact ⟨Or.inr rfl, rfl, above⟩

/-- What an accepted rollup has passed, and what it has done. -/
structure Accepts (keccak : Keccak) (transfer : Transfer W) (recover : Recover)
    (verifyProof : ProofVerifier) (sender : Address) (timestamp : Element) (rollup : RollupCall)
    (contract next : Contract W) (messages : List Message) : Prop where
  admitted : contract.onlyProverOrOpen sender timestamp = .ok ()
  enabled : (contract.zkVerifiers rollup.verificationKeyHash).enabled = true
  oldRoot : rollup.publicInputs[0]? = some contract.rootHash
  newRoot : rollup.publicInputs[1]? = some next.rootHash
  signed : contract.verifyValidatorSignatures keccak recover timestamp next.rootHash rollup.height
      rollup.otherHashFromBlockHash rollup.signatures =
    .ok { contract with validators := next.validators }
  parsed : parseMessages (rollup.publicInputs.drop 3) = some messages
  settled : messages.foldlM (settleMessage keccak transfer rollup.height) contract.state =
    .ok next.state
  proved : verifyProof (contract.zkVerifiers rollup.verificationKeyHash).verifier rollup.aggrProof
    rollup.publicInputs = true
  above : contract.blockHeight < rollup.height
  effect : next =
    { contract with
      state := next.state
      rootHash := next.rootHash
      blockHeight := rollup.height
      validators := next.validators
      lastVerifiedAt := timestamp }

@[simp]
theorem readWord_eq_ok_iff {words : List Element} {index : Nat} {word : Element} :
    readWord words index = .ok word ↔ words[index]? = some word := by
  rw [readWord]
  cases words[index]? <;> simp

theorem checkInputsLength_eq_ok {verifier : Verifier} {publicInputs : List Element}
    (done : checkInputsLength verifier publicInputs = .ok ()) :
    publicInputs.length = 3 + verifier.messagesLength := by
  unfold checkInputsLength at done
  split_ifs at done
  rw [require_eq_ok_iff] at done
  rw [done, Nat.add_comm]

theorem exists_accepts {contract next : Contract W} {sender : Address} {timestamp : Element}
    {rollup : RollupCall}
    (done : contract.verifyRollup keccak transfer recover verifyProof sender timestamp rollup =
      .ok next) :
    ∃ messages, Accepts keccak transfer recover verifyProof sender timestamp rollup contract next
      messages := by
  simp only [verifyRollup, bind_eq_ok_iff, require_eq_ok_iff, pure_eq_ok_iff,
    readWord_eq_ok_iff] at done
  rcases done with ⟨_, admitted, _, enabled, _, length, oldRoot, oldRead, newRoot, newRead, _, same,
    signed, signedEq, state, settled, _, proved, _, above, rfl⟩
  obtain ⟨validators, rfl⟩ : ∃ validators, signed = { contract with validators } := by
    rcases verifyValidatorSignatures_eq_ok_iff.mp signedEq with
      ⟨_, rfl⟩ | ⟨_, validators, _, rfl⟩
    · exact ⟨signed.validators, rfl⟩
    · exact ⟨validators, rfl⟩
  rcases (verifyAllMessages_eq_ok_iff (checkInputsLength_eq_ok length)).mp settled with
    ⟨messages, parsed, folded⟩
  refine ⟨messages, admitted, enabled, ?_, newRead, signedEq, parsed, folded, proved, above, rfl⟩
  rw [← same]
  exact oldRead

theorem Step.valid {contract next : Contract W} {call : Call}
    (taken : Step keccak transfer recover verifyProof contract call next)
    (valid : contract.Valid) : next.Valid := by
  cases taken with
  | setValidators done => exact valid.setValidators done
  | verifyRollup done =>
      obtain ⟨validatorsEq, heightEq, above⟩ := verifyRollup_spec done
      have le : contract.blockHeight.toNat ≤ next.blockHeight.toNat := by
        rw [heightEq]
        exact le_of_lt (BitVec.lt_def.mp above)
      rcases validatorsEq with kept | updated
      · rw [Valid, kept]
        exact valid.mono le
      · rw [Valid, updated, ← heightEq]
        exact valid.updateValidatorSetIndex le
  | other validators blockHeight =>
      rw [Valid, validators, blockHeight]
      exact valid

theorem valid_of_run {start contract : Contract W} {calls : List Call} (initial : start.Valid)
    (run : Run (Step keccak transfer recover verifyProof) start calls contract) :
    contract.Valid :=
  run.invariant (motive := fun _ contract => contract.Valid) initial
    fun _ _ _ _ _ valid taken => taken.valid valid

end Contract

end Ciphera.Rollup
