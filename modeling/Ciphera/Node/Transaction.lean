import Ciphera.Node.Mempool
import Ciphera.Node.Validate
import Ciphera.Rollup.Contract

/-!
# Admission of transactions

A transaction from a client or from another node is validated, a mint also
against the rollup contract, and then added to the mempool under its hash.  Its
changes are the commitments it creates and spends.
-/

namespace Ciphera.Node

open Ciphera.Lib Ciphera.Noir Ciphera.Zk

/-- `get_mint`: a mint without note kind and amount is none. -/
def getMint (contract : Rollup.Storage) (key : Element) : Option Rollup.Mint :=
  let mint := contract.mints key
  if mint.noteKind = Element.ZERO ∧ mint.amount = Element.ZERO then none else some mint

/-- The checks of a mint against the contract. -/
def checkMint (contract : Rollup.Storage) (outputCommitments : List Element)
    (mintMsgs : UtxoKindMintMessages) : Result Unit :=
  match getMint contract mintMsgs.mintHash with
  | none => .error (.error (.rpc (.mintIsNotInTheContract mintMsgs.mintHash)))
  | some mint => do
      ensure (mint.spent = false) (.mintIsAlreadySpent outputCommitments)
      ensure (mint.amount = mintMsgs.value ∧ mint.noteKind = mintMsgs.noteKind)
        (.mintInContractIsDifferent
          { contractValue := mint.amount
            contractNoteKind := mint.noteKind
            proofValue := mintMsgs.value
            proofNoteKind := mintMsgs.noteKind })

/-- Only mints are checked against the contract. -/
def checkKindMessages (contract : Rollup.Storage) (utxo : UtxoProof) : Result Unit :=
  match utxo.kindMessages with
  | .mint mintMsgs => checkMint contract utxo.publicInputs.outputCommitments.toList mintMsgs
  | .burn _ => pure ()
  | .none => pure ()

/-- `validate_transaction`, given the contract as it was at the safe height. -/
def validateTransaction (verify : Verify) (contract : Rollup.Storage) (store : Store)
    (notesTree : PersistentMerkleTree) (utxo : UtxoProof) : Result Unit := do
  checkKindMessages contract utxo
  validateTxn verify store notesTree utxo

/-- The distinct non-zero commitments of a transaction. -/
def changes (inputs : UtxoPublicInput) : List Element :=
  inputs.commitments.toList.foldl
    (fun changes commitment =>
      if commitment = Element.ZERO then changes
      else if changes.contains commitment then changes
      else changes ++ [commitment]) []

/-- The mempool of a node: keys and changes are elements, leases are heights. -/
abbrev NodeMempool (S : Type) := Mempool Element UtxoProof Nat Element S

variable {S : Type} (poseidon : Poseidon) (verify : Verify) (contract : Rollup.Storage)
  (store : Store) (notesTree : PersistentMerkleTree)

/-- Add a transaction under its hash, with the commitments that it changes. -/
def addTransaction (mempool : NodeMempool S) (utxo : UtxoProof) (sender : Option S) :
    Except (AddError Element) (NodeMempool S) :=
  mempool.add (utxo.hash poseidon) utxo (changes utxo.publicInputs) sender

/-- `submit_transaction_and_wait` until it waits for the sender. -/
def submitTransaction (mempool : NodeMempool S) (utxo : UtxoProof) (sender : S) :
    Result (NodeMempool S) := do
  validateTransaction verify contract store notesTree utxo
  match addTransaction poseidon mempool utxo (some sender) with
  | .ok mempool => pure mempool
  | .error (.conflict conflict) =>
      .error (.error (.rpc (.txnCommitmentAlreadyPending [conflict])))
  | .error .duplicateKey => .error (.error (.rpc (.txnCommitmentAlreadyPending [])))

/-- `receive_transaction`: an invalid or known transaction is dropped. -/
def receiveTransaction (mempool : NodeMempool S) (txn : UtxoProof) : Result (NodeMempool S) :=
  match validateTransaction verify contract store notesTree txn with
  | .error (.panic message) => .error (.panic message)
  | .error (.error _) => .ok mempool
  | .ok _ =>
      match addTransaction poseidon mempool txn none with
      | .ok mempool => .ok mempool
      | .error (.conflict conflict) =>
          .error (.error (.rpc (.txnCommitmentAlreadyPending [conflict])))
      | .error .duplicateKey => .ok mempool

/-- A transaction that passes validation enters the mempool. -/
def Admits (mempool : NodeMempool S) (utxo : UtxoProof) (sender : Option S)
    (next : NodeMempool S) : Prop :=
  validateTransaction verify contract store notesTree utxo = .ok () ∧
    addTransaction poseidon mempool utxo sender = .ok next

variable {poseidon verify contract store notesTree}

@[simp]
theorem submitTransaction_eq_ok_iff {mempool next : NodeMempool S} {utxo : UtxoProof}
    {sender : S} :
    submitTransaction poseidon verify contract store notesTree mempool utxo sender = .ok next ↔
      Admits poseidon verify contract store notesTree mempool utxo (some sender) next := by
  rw [submitTransaction, bind_eq_ok_iff, Admits]
  cases added : addTransaction poseidon mempool utxo (some sender) with
  | ok admitted =>
      rw [pure_eq_ok_iff, Except.ok.injEq]
      exact ⟨fun ⟨_, done⟩ => done, fun done => ⟨(), done⟩⟩
  | error failure => cases failure <;> simp

/-- A received transaction is admitted without a sender or dropped. -/
theorem admits_of_receiveTransaction {mempool next : NodeMempool S} {txn : UtxoProof}
    (received : receiveTransaction poseidon verify contract store notesTree mempool txn =
      .ok next) :
    Admits poseidon verify contract store notesTree mempool txn none next ∨ next = mempool := by
  rw [receiveTransaction] at received
  cases validated : validateTransaction verify contract store notesTree txn with
  | error stop =>
      cases stop with
      | panic message => simp [validated] at received
      | error failure =>
          simp only [validated] at received
          exact Or.inr (Except.ok.inj received).symm
  | ok done =>
      simp only [validated] at received
      cases added : addTransaction poseidon mempool txn none with
      | ok admitted =>
          simp only [added] at received
          obtain rfl := Except.ok.inj received
          exact Or.inl ⟨validated, added⟩
      | error failure =>
          cases failure with
          | conflict change => simp [added] at received
          | duplicateKey =>
              simp only [added] at received
              exact Or.inr (Except.ok.inj received).symm

/-- The deposit that an admitted mint draws on. -/
structure MintDeposited (contract : Rollup.Storage) (mintMsgs : UtxoKindMintMessages) : Prop where
  unspent : (contract.mints mintMsgs.mintHash).spent = false
  amount : (contract.mints mintMsgs.mintHash).amount = mintMsgs.value
  noteKind : (contract.mints mintMsgs.mintHash).noteKind = mintMsgs.noteKind
  nonempty : mintMsgs.noteKind = Element.ZERO → mintMsgs.value ≠ Element.ZERO

@[simp]
theorem checkMint_eq_ok_iff {outputCommitments : List Element} {mintMsgs : UtxoKindMintMessages} :
    checkMint contract outputCommitments mintMsgs = .ok () ↔ MintDeposited contract mintMsgs := by
  unfold checkMint getMint
  by_cases empty : (contract.mints mintMsgs.mintHash).noteKind = Element.ZERO ∧
      (contract.mints mintMsgs.mintHash).amount = Element.ZERO
  · simp only [if_pos empty]
    constructor
    · simp
    · intro deposited
      exact absurd (deposited.amount ▸ empty.2)
        (deposited.nonempty (deposited.noteKind ▸ empty.1))
  · simp only [if_neg empty, bind_eq_ok_iff, ensure_eq_ok_iff]
    constructor
    · rintro ⟨_, unspent, amount, noteKind⟩
      exact ⟨unspent, amount, noteKind, fun kindZero valueZero =>
        empty ⟨noteKind.trans kindZero, amount.trans valueZero⟩⟩
    · intro deposited
      exact ⟨(), deposited.unspent, deposited.amount, deposited.noteKind⟩

@[simp]
theorem checkKindMessages_eq_ok_iff {utxo : UtxoProof} {done : Unit} :
    checkKindMessages contract utxo = .ok done ↔
      ∀ mintMsgs, utxo.kindMessages = .mint mintMsgs → MintDeposited contract mintMsgs := by
  unfold checkKindMessages
  cases messages : utxo.kindMessages with
  | none => simp
  | burn burnMsgs => simp
  | mint mintMsgs =>
      constructor
      · intro deposited other otherEq
        obtain rfl := UtxoKindMessages.mint.inj otherEq
        exact checkMint_eq_ok_iff.mp deposited
      · exact fun deposited => checkMint_eq_ok_iff.mpr (deposited mintMsgs rfl)

@[simp]
theorem validateTransaction_eq_ok_iff {utxo : UtxoProof} :
    validateTransaction verify contract store notesTree utxo = .ok () ↔
      (∀ mintMsgs, utxo.kindMessages = .mint mintMsgs → MintDeposited contract mintMsgs) ∧
        TxnValid verify store notesTree utxo := by
  simp [validateTransaction, checkKindMessages_eq_ok_iff, validateTxn_eq_ok_iff]

end Ciphera.Node
