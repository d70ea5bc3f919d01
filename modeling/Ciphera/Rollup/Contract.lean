import Ciphera.Keccak
import Ciphera.Lib.Check
import Ciphera.Rollup.Message

/-!
# Settlement by the contract

The state of the rollup contract that settlement reads and writes, and the loop
that walks over the message words of a proof.  A word of the contract is a
256-bit integer.  A transaction of the contract reverts by a failed `require`
(an error with its text) or by a panic of the language.

Tokens are other contracts.  What a transfer does to them, and what the call
returns, is a parameter over a state of their own.
-/

namespace Ciphera.Rollup

open Ciphera.Lib

/-- Addresses have 20 bytes. -/
abbrev Address := BitVec 160

/-- A deposit that waits for its mint. -/
structure Mint where
  noteKind : Element := 0
  amount : Element := 0
  spent : Bool := false
  deriving DecidableEq, Repr

/-- What a low-level call returns. -/
structure CallResult where
  success : Bool
  returndata : List (BitVec 8)
  deriving DecidableEq, Repr

/-- `transfer` of a token, called by the contract: the token, the recipient and
the amount. -/
abbrev Transfer (W : Type) := W → Address → Address → Element → W × CallResult

/-- The storage that settlement of messages uses. -/
structure Storage where
  mints : Element → Mint := fun _ => {}
  substitutedBurns : Element → Address := fun _ => 0
  tokens : Element → Address := fun _ => 0
  currentTvl : Element := 0
  burnFee : Element := 0
  feeSink : Address := 0

/-- The storage that `initialize` sets up: one token, under its note kind. -/
def initialStorage (tokenAddress : Address) : Storage where
  tokens noteKind :=
    if noteKind = 0x000200000000000013fb8d0c9d1c17ae5e40fff9be350f57840e9e66cd930000 then
      tokenAddress
    else 0

/-- The contract together with the other contracts it calls. -/
structure State (W : Type) where
  storage : Storage
  world : W

/-- What a call comes to, with the reason of a revert or a panic. -/
abbrev Outcome := Except (Stop String)

/-- A condition of the contract with the text of its revert. -/
def require (condition : Prop) [Decidable condition] (message : String) : Outcome Unit :=
  check condition (.error message)

@[simp]
theorem require_eq_ok_iff {condition : Prop} [Decidable condition] {message : String}
    {done : Unit} : require condition message = .ok done ↔ condition :=
  check_eq_ok_iff

/-- Reading a calldata array. -/
def readWord (words : List Element) (index : Nat) : Outcome Element :=
  match words[index]? with
  | some word => .ok word
  | none => .error (.panic "array out-of-bounds access")

/-- Subtraction of unsigned words. -/
def checkedSub (minuend subtrahend : Element) : Outcome Element :=
  if subtrahend ≤ minuend then .ok (minuend - subtrahend)
  else .error (.panic "arithmetic underflow")

/-- `abi.decode(returndata, (bool))`. -/
def decodeBool (returndata : List (BitVec 8)) : Outcome Bool :=
  if returndata.length < 32 then .error (.panic "ABI decoding: tuple data too short")
  else if returndata.take 32 = beBytes 32 0 then .ok false
  else if returndata.take 32 = beBytes 32 1 then .ok true
  else .error (.panic "ABI decoding: invalid bool")

/-- The address in the last 20 bytes of a word. -/
def bytes32ToAddress (word : Element) : Address := word.setWidth 160

section Settlement

variable {W : Type} (keccak : Keccak) (transfer : Transfer W)

/-- The key of a substituted burn, over everything that tells two burns apart. -/
def getSubstituteBurnKey (hash : Element) (burnAddress : Address) (noteKind amount : Element)
    (burnBlockHeight : Element) : Element :=
  keccak
    (beBytes 32 hash.toNat ++ beBytes 32 burnAddress.toNat ++ beBytes 32 noteKind.toNat ++
      beBytes 32 amount.toNat ++ beBytes 32 burnBlockHeight.toNat)

/-- The fee of a burn, which takes no more than the burn has. -/
def computeBurnFee (storage : Storage) (value : Element) : Element :=
  if value < storage.burnFee then value else storage.burnFee

/-- `executeBurnToAddress`, and `_tryTransferFee` with the same body: a transfer
whose failure is reported and does not revert. -/
def executeBurnToAddress (state : State W) (token recipient : Address) (value : Element) :
    Outcome (State W × Bool) :=
  let (world, result) := transfer state.world token recipient value
  let state := { state with world }
  if result.success = false then .ok (state, false)
  else if result.returndata.length ≠ 0 then
    (decodeBool result.returndata).map fun funcReturn => (state, funcReturn)
  else .ok (state, true)

/-- The transfer of a fee, whose failure does not revert. -/
def tryTransferFee (state : State W) (token recipient : Address) (amount : Element) :
    Outcome (State W × Bool) :=
  executeBurnToAddress transfer state token recipient amount

/-- Take the tokens that left the contract off the running total. -/
def Storage.releaseTvl (storage : Storage) (tokensLeavingContract : Element) : Storage :=
  { storage with
    currentTvl :=
      if tokensLeavingContract ≤ storage.currentTvl then
        storage.currentTvl - tokensLeavingContract
      else 0 }

/-- A mint has been spent. -/
def Storage.spend (storage : Storage) (hash : Element) : Storage :=
  { storage with
    mints := Function.update storage.mints hash { storage.mints hash with spent := true } }

/-- The checks of a mint, and its deposit marked as spent. -/
def settleMint (noteKind value hash : Element) (state : State W) : Outcome (State W) := do
  require ((state.storage.mints hash).amount = value) "RollupV1: Mint value invalid"
  require ((state.storage.mints hash).noteKind = noteKind) "RollupV1: Mint note kind invalid"
  require ((state.storage.mints hash).spent = false) "RollupV1: Mint already spent"
  pure { state with storage := state.storage.spend hash }

/-- The four words of a mint in the public inputs, settled. -/
def verifyMint (index : Nat) (messages : List Element) (state : State W) :
    Outcome (State W × Nat) := do
  let noteKind ← readWord messages (index + 1)
  let value ← readWord messages (index + 2)
  let hash ← readWord messages (index + 3)
  let state ← settleMint noteKind value hash state
  pure (state, index + 4)

/-- Route the fee of a paid burn and account for what left the contract. -/
def settleFee (state : State W) (token : Address) (value fee payout : Element) :
    Outcome (State W) :=
  if 0 < fee ∧ state.storage.feeSink ≠ 0 then do
    let (state, feeOk) ← tryTransferFee transfer state token state.storage.feeSink fee
    let tokensLeavingContract := if feeOk then value else payout
    pure { state with storage := state.storage.releaseTvl tokensLeavingContract }
  else
    pure { state with storage := state.storage.releaseTvl payout }

/-- Whoever paid the burn early, or else its address. -/
def burnRecipient (storage : Storage) (height noteKind value hash : Element)
    (burnAddr : Address) : Address :=
  let substitutor := storage.substitutedBurns
    (getSubstituteBurnKey keccak hash burnAddr noteKind value height)
  if substitutor ≠ 0 then substitutor else burnAddr

/-- The payout of a burn. -/
def settleBurn (height noteKind value hash : Element) (burnAddr : Address) (state : State W) :
    Outcome (State W) := do
  let token := state.storage.tokens noteKind
  require (token ≠ 0) "RollupV1: Unsupported token"
  let recipient := burnRecipient keccak state.storage height noteKind value hash burnAddr
  let fee := computeBurnFee state.storage value
  let payout ← checkedSub value fee
  let (state, success) ← executeBurnToAddress transfer state token recipient payout
  if success then settleFee transfer state token value fee payout else pure state

/-- The five words of a burn in the public inputs, settled. -/
def verifyBurn (index : Nat) (messages : List Element) (height : Element) (state : State W) :
    Outcome (State W × Nat) := do
  let noteKind ← readWord messages (index + 1)
  let value ← readWord messages (index + 2)
  let hash ← readWord messages (index + 3)
  let burnAddr ← readWord messages (index + 4)
  let state ← settleBurn keccak transfer height noteKind value hash (bytes32ToAddress burnAddr) state
  pure (state, index + 5)

/-- One message of the public inputs: padding, a mint or a burn. -/
def verifyMessages (index : Nat) (publicInputs : List Element) (height : Element)
    (state : State W) : Outcome (State W × Nat) := do
  let kind ← readWord publicInputs index
  if kind = 0 then pure (state, index + 1)
  else if kind = 2 then verifyMint index publicInputs state
  else if kind = 3 ∨ kind = 4 then
    verifyBurn keccak transfer index publicInputs height state
  else .error (.error "RollupV1: Invalid message kind")

/-- The loop over the message words.  Every message takes at least one word, so
as many rounds as there are words are enough. -/
def verifyAllFrom (publicInputs : List Element) (stop : Nat) (height : Element) :
    Nat → Nat → State W → Outcome (State W)
  | 0, _, state => .ok state
  | rounds + 1, index, state =>
      if index < stop then do
        let (state, index) ← verifyMessages keccak transfer index publicInputs height state
        verifyAllFrom publicInputs stop height rounds index state
      else .ok state

/-- The messages of a rollup, behind the words that are skipped. -/
def verifyAllMessages (skipCount : Nat) (publicInputs : List Element) (messagesLength : Nat)
    (height : Element) (state : State W) : Outcome (State W) :=
  verifyAllFrom keccak transfer publicInputs (skipCount + messagesLength) height messagesLength
    skipCount state

end Settlement

end Ciphera.Rollup
