import Ciphera.Lib.Dialogue
import Ciphera.Node.Txns
import Ciphera.Rollup.Substitution
import Ciphera.Substitutor.Escrow

/-!
# The burn substitutor

In every tick the substitutor reads a page of transactions from a node and goes through its
burns.  A burn is paid ahead on the rollup contract, unless it was paid before.  For a burn
without substitution it looks for a swap of the same amount at the swap service and sends
the transactions that commit it.

Everything that the substitutor asks or sends is a call that may be answered in any way.
-/

namespace Ciphera.Substitutor

open Ciphera.Lib Ciphera.Zk
open Ciphera.Node (ListTxnsPosition TxnWithInfo)
open Ciphera.Rollup (Address Burn)

/-! ## What is asked and answered -/

/-- An error with its contexts, the outermost first. -/
abbrev Report := List String

/-- Libraries that read and write text. -/
structure Decoders where
  fromDecStr : String → Except Report (BitVec 256)
  parseAddress : String → Except Report Address
  hexDecode : String → Except Report Bytes
  displayStatus : Nat → String

/-- The answer of a server, whose body may not parse. -/
structure Response (α : Type) where
  status : Nat
  body : Except Report α

/-- A swap as the swap service lists it. -/
structure SwapEntry where
  id : String
  state : Int
  inputAddress : String
  amount : String
  deriving DecidableEq, Repr

/-- A transaction that the swap service asks to be sent. -/
structure CommitTx where
  «to» : String
  data : String
  value : String
  gasLimit : Option String
  maxFeePerGas : Option String
  maxPriorityFeePerGas : Option String
  nonce : Option Nat
  deriving DecidableEq, Repr

/-- How far a swap has come, with the transactions that are still to be sent. -/
structure OfframpResponse where
  state : Int
  commitTxs : List CommitTx
  preimage : Option String
  deriving DecidableEq, Repr

/-- A transaction as the ethereum client sends it. -/
structure TransactionParameters where
  nonce : Option (BitVec 256)
  «to» : Option Address
  gas : BitVec 256
  value : BitVec 256
  data : Bytes
  maxFeePerGas : Option (BitVec 256)
  maxPriorityFeePerGas : Option (BitVec 256)
  deriving DecidableEq, Repr

/-- A transaction that commits a swap for the burn at a position. -/
structure Commit where
  origin : ListTxnsPosition
  swapId : String
  txParams : TransactionParameters
  deriving DecidableEq, Repr

/-- The calls of the substitutor.  The position of the burn and the swap are no arguments of
what is sent; they are noted here to tell what it is sent for. -/
inductive Call
  | blockHeight
  | fetchTransactions (cursor : Option (CursorChoice ListTxnsPosition))
  | wasBurnSubstituted (burn : Burn) (burnBlockHeight : Nat)
  | balance
  | substituteBurn (origin : ListTxnsPosition) (burn : Burn) (burnBlockHeight : Nat)
  | waitForConfirm (txn : BitVec 256)
  | swaps (amount : BitVec 256) (address : String)
  | offramp (swapId : String)
  | signTransaction (txParams : TransactionParameters)
  | sendRawTransaction (commit : Commit) (raw : Bytes)
  deriving DecidableEq, Repr

/-- What a call is answered with, if it does not fail. -/
abbrev Call.Reply : Call → Type
  | blockHeight => Nat
  | fetchTransactions _ => Response (List TxnWithInfo × Cursor ListTxnsPosition)
  | wasBurnSubstituted .. => Bool
  | balance => BitVec 256
  | substituteBurn .. => BitVec 256
  | waitForConfirm _ => Unit
  | swaps .. => Response (List SwapEntry)
  | offramp _ => Response OfframpResponse
  | signTransaction _ => Bytes
  | sendRawTransaction .. => BitVec 256

/-- What a call brings back, unless it fails. -/
abbrev Call.Answer (call : Call) : Type := Except Report call.Reply

/-- A computation that talks to the node, the swap service and the chain. -/
abbrev Talk (α : Type) := Dialogue Call Call.Answer (Stop Report) α

/-- The calls that were made, with their answers. -/
abbrev Transcript := List (Exchange Call.Answer)

/-- Make a call, and give up with a report if it fails. -/
def request (call : Call) (explain : Report → Report) : Talk call.Reply :=
  .ask call fun answer => .done (answer.mapError fun report => .error (explain report))

/-- A report under one more line of context. -/
def context (message : String) (report : Report) : Report := message :: report

/-- An error that is formatted into a message. -/
def formatted (message : String) (report : Report) : Report := [message ++ report.headD ""]

/-- A failure of a call, under a line of context. -/
def liftReport {α : Type} (message : String) (result : Except Report α) :
    Except (Stop Report) α :=
  result.mapError fun report => .error (message :: report)

/-! ## Burns that are paid ahead -/

/-- Whether the burn has been paid ahead now. -/
def substituteDirect (origin : ListTxnsPosition) (burn : Burn) (burnBlockHeight : Nat) :
    Talk Bool := do
  if ← request (.wasBurnSubstituted burn burnBlockHeight) id then pure false
  else
    let tokenBalance ← request .balance
      (context "Failed to fetch ERC20 balance for burn substitution")
    if burn.amount.toNat > tokenBalance.toNat then pure false
    else
      let txn ← request (.substituteBurn origin burn burnBlockHeight)
        (context "Failed to substitute burn")
      request (.waitForConfirm txn) (context "Failed to wait for burn substitution")
      pure true

/-! ## Burns that are swapped -/

/-- How often a service is asked before the substitutor gives up. -/
def MAX_ATTEMPTS : Nat := 3

/-- The status of a success. -/
def OK : Nat := 200

/-- The server failed, so that another attempt makes sense. -/
def isServerError (status : Nat) : Bool := 500 ≤ status && status < 600

/-- `eq_ignore_ascii_case` -/
def eqIgnoreAsciiCase (first second : String) : Bool :=
  first.toList.map Char.toLower = second.toList.map Char.toLower

/-- `format!("{:#x}", address)` -/
def formatAddress (address : Address) : String :=
  String.ofList ('0' :: 'x' :: (beBytes 20 address.toNat).flatMap fun byte =>
    [Nat.digitChar (byte.toNat / 16), Nat.digitChar (byte.toNat % 16)])

/-- `trim_start_matches("0x")` -/
def trimStart0x : List Char → List Char
  | '0' :: 'x' :: rest => trimStart0x rest
  | text => text

section

variable (decoders : Decoders) (substitutorAddress : Address)

/-- A swap of the amount, in a state the burner can still act on. -/
def SwapEntry.isMatch (burnValue : BitVec 256) (swap : SwapEntry) : Bool :=
  eqIgnoreAsciiCase swap.inputAddress (formatAddress substitutorAddress) &&
    (decoders.fromDecStr swap.amount).toOption = some burnValue &&
    (swap.state = 0 || swap.state = -1)

/-- The first listed swap that matches the burn. -/
def swapsOutcome (burnValue : BitVec 256) (answer : Except Report (Response (List SwapEntry))) :
    Except (Stop Report) (Option SwapEntry) := do
  let resp ← liftReport "Failed to query /swaps" answer
  check (resp.status = OK)
    (.error [s!"/swaps returned unexpected status: {decoders.displayStatus resp.status}"])
  let swaps ← liftReport "Failed to parse /swaps response" resp.body
  pure (swaps.find? (SwapEntry.isMatch decoders substitutorAddress burnValue))

/-- Ask once for the swap of a burn. -/
def findSwap (burnValue : BitVec 256) : Talk (Option SwapEntry) :=
  .ask (.swaps burnValue (formatAddress substitutorAddress)) fun answer =>
    .done (swapsOutcome decoders substitutorAddress burnValue answer)

namespace OfframpResponse

/-- The swap waits for its transactions, and they are there. -/
def commitReady (resp : OfframpResponse) : Bool :=
  (resp.state = 0 || resp.state = -1) && !resp.commitTxs.isEmpty

/-- The swap has paid. -/
def isClaimed (resp : OfframpResponse) : Bool := resp.state = 2 || resp.state = 3

/-- The swap has paid and has shown why. -/
def claimedWithPreimage (resp : OfframpResponse) : Bool := resp.isClaimed && resp.preimage.isSome

end OfframpResponse

/-- Errors of the server count as not ready. -/
def offrampOutcome (answer : Except Report (Response OfframpResponse)) :
    Except (Stop Report) (Option OfframpResponse) := do
  let resp ← liftReport "Failed to query /offramp/:swapId" answer
  if isServerError resp.status then pure none
  else
    check (resp.status = OK)
      (.error [s!"/offramp/:id returned unexpected status: {decoders.displayStatus resp.status}"])
    let offramp ← liftReport "Failed to parse /offramp response" resp.body
    if !offramp.commitReady && !offramp.claimedWithPreimage then pure none
    else pure (some offramp)

/-- Ask once how far a swap has come. -/
def readOfframp (swapId : String) : Talk (Option OfframpResponse) :=
  .ask (.offramp swapId) fun answer => .done (offrampOutcome decoders answer)

/-- The parameters of a transaction that commits an escrow of the substitutor over the amount;
there are none for any other transaction. -/
def CommitTx.prepare (burnValue : BitVec 256) (commitTx : CommitTx) :
    Except (Stop Report) (Option TransactionParameters) := do
  let «to» ← liftReport "Failed to parse commitTx.to" (decoders.parseAddress commitTx.«to»)
  let data ← liftReport "Failed to decode commitTx.data"
    (decoders.hexDecode (String.ofList (trimStart0x commitTx.data.toList)))
  match EscrowData.fromTransactionCalldata data with
  | .error (.panic message) => .error (.panic message)
  | .error (.error _) => pure none
  | .ok escrow =>
      if escrow.offerer ≠ substitutorAddress then pure none
      else if escrow.amount ≠ burnValue then pure none
      else
        let value ← liftReport "Failed to parse commitTx.value"
          (decoders.fromDecStr commitTx.value)
        let gas ← liftReport "Failed to parse commitTx.gasLimit"
          (commitTx.gasLimit.mapM decoders.fromDecStr)
        let maxFeePerGas ← liftReport "Failed to parse commitTx.maxFeePerGas"
          (commitTx.maxFeePerGas.mapM decoders.fromDecStr)
        let maxPriorityFeePerGas ← liftReport "Failed to parse commitTx.maxPriorityFeePerGas"
          (commitTx.maxPriorityFeePerGas.mapM decoders.fromDecStr)
        pure (some {
          nonce := commitTx.nonce.map (BitVec.ofNat 256)
          «to» := some «to»
          gas := gas.getD 1000000
          value, data, maxFeePerGas, maxPriorityFeePerGas })

/-- Send the transactions one after the other, up to one that is not to be sent. -/
def sendCommitTxs (origin : ListTxnsPosition) (swapId : String) (burnValue : BitVec 256) :
    List CommitTx → Talk Unit
  | [] => pure ()
  | commitTx :: rest => do
      match ← Dialogue.done (commitTx.prepare decoders substitutorAddress burnValue) with
      | none => pure ()
      | some txParams =>
          let raw ← request (.signTransaction txParams) (formatted "Failed to sign commitTx: ")
          let txHash ← request (.sendRawTransaction ⟨origin, swapId, txParams⟩ raw)
            (formatted "Failed to send commitTx: ")
          request (.waitForConfirm txHash) (context "Failed to wait for commitTx confirmation")
          sendCommitTxs origin swapId burnValue rest

/-- A swap that was claimed before needs nothing more. -/
def followSwap (origin : ListTxnsPosition) (burnValue : BitVec 256) (swap : SwapEntry) :
    Talk Unit := do
  match ← Dialogue.retryUntilSome (readOfframp decoders swap.id) MAX_ATTEMPTS with
  | none => pure ()
  | some offramp =>
      if offramp.isClaimed then pure ()
      else sendCommitTxs decoders substitutorAddress origin swap.id burnValue offramp.commitTxs

/-- Look for the swap of a burn and follow it; a burn without one is skipped. -/
def handleNosubBurn (origin : ListTxnsPosition) (burnValue : BitVec 256) : Talk Unit := do
  match ← Dialogue.retryUntilSome (findSwap decoders substitutorAddress burnValue)
      MAX_ATTEMPTS with
  | none => pure ()
  | some swap => followSwap decoders substitutorAddress origin burnValue swap

/-! ## Ticks -/

/-- A burn as the contract is told of it. -/
def burnOf (messages : UtxoKindBurnMessages) : Burn :=
  ⟨messages.burnHash, messages.burnAddress.setWidth 160, messages.noteKind, messages.value⟩

/-- The substitutor itself pays burns of this kind. -/
def isSubstitutable (messages : UtxoKindBurnMessages) : Bool :=
  UtxoKind.ofByte (messages.utxoKind.setWidth 8) = .burn

/-- The hash of the burn, if it has been paid ahead. -/
def processTxn (txn : TxnWithInfo) : Talk (List Element) :=
  match txn.proof.kindMessages with
  | .burn messages =>
      if isSubstitutable messages then do
        let substituted ← substituteDirect txn.position (burnOf messages) txn.blockHeight
        pure (if substituted then [messages.burnHash] else [])
      else do
        handleNosubBurn decoders substitutorAddress txn.position messages.value
        pure []
  | .mint _ | .none => pure []

end

/-- The page of transactions in the answer of the node. -/
def fetchOutcome (decoders : Decoders)
    (answer : Except Report (Response (List TxnWithInfo × Cursor ListTxnsPosition))) :
    Except (Stop Report) (List TxnWithInfo × Cursor ListTxnsPosition) := do
  let resp ← liftReport "Failed to fetch transactions" answer
  check (resp.status = OK) (.error ["Failed to fetch transactions",
    s!"Unexpected status code: {decoders.displayStatus resp.status}"])
  liftReport "Failed to fetch transactions" resp.body

/-- The service between two ticks: whom it pays from, and how far it has read. -/
structure BurnSubstitutor where
  cursor : Option (CursorChoice ListTxnsPosition) := none
  substitutorAddress : Address
  deriving DecidableEq, Repr

namespace BurnSubstitutor

/-- Behind everything that the last rollup settles. -/
def afterRollup (lastRollup : Nat) : CursorChoice ListTxnsPosition :=
  .after (.after ⟨lastRollup, 2 ^ 64 - 1⟩)

/-- The first tick starts after the last rollup. -/
def start (substitutor : BurnSubstitutor) : Talk BurnSubstitutor :=
  match substitutor.cursor with
  | some _ => pure substitutor
  | none => do
      let lastRollup ← request .blockHeight id
      pure { substitutor with cursor := some (afterRollup lastRollup) }

/-- The cursor moves on when all transactions of the page have been gone through. -/
def processPage (decoders : Decoders) (substitutor : BurnSubstitutor) :
    Talk (BurnSubstitutor × List Element) := do
  let (txns, cursor) ← Dialogue.ask (.fetchTransactions substitutor.cursor) fun answer =>
    Dialogue.done (fetchOutcome decoders answer)
  let substitutedBurns ←
    Dialogue.forEach (processTxn decoders substitutor.substitutorAddress) txns
  let next := if txns.isEmpty then substitutor
    else { substitutor with cursor := cursor.after.map .after }
  pure (next, substitutedBurns.flatten)

/-- What a tick returns, and the substitutor after it. -/
def tick (decoders : Decoders) (substitutor : BurnSubstitutor) :
    Talk (BurnSubstitutor × Except (Stop Report) (List Element)) := do
  match ← substitutor.start.attempt with
  | .error stop => pure (substitutor, .error stop)
  | .ok started =>
      match ← (started.processPage decoders).attempt with
      | .error stop => pure (started, .error stop)
      | .ok (next, substitutedBurns) => pure (next, .ok substitutedBurns)

end BurnSubstitutor

end Ciphera.Substitutor
