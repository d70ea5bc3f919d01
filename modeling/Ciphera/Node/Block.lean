import Ciphera.BlockStore
import Ciphera.Keccak
import Ciphera.Smirk.Tree
import Ciphera.Zk.Utxo

/-!
# Blocks

A block's header names its height and its predecessor and carries the approvals
collected for the predecessor; its state is a list of transactions and the root
of the notes tree after them.  The block hash commits to the root, the height
and the hash of the header, and not to the transactions.
-/

namespace Ciphera.Node

open Ciphera.Lib Ciphera.Noir Ciphera.Smirk Ciphera.Zk

/-- A recoverable signature: 65 bytes, of which the last is the recovery id. -/
structure Signature where
  r : BitVec 256
  s : BitVec 256
  v : BitVec 8
  deriving DecidableEq, Repr

/-- The 65 bytes of a signature. -/
def Signature.inner (signature : Signature) : List (BitVec 8) :=
  beBytes 32 signature.r.toNat ++ beBytes 32 signature.s.toNat ++ [signature.v]

/-- What a block says about the chain before it, and who approved of it. -/
structure BlockHeader where
  height : Nat
  lastBlockHash : CryptoHash
  epochId : Nat
  lastFinalBlockHash : CryptoHash
  approvals : List Signature
  deriving DecidableEq, Repr

/-- The root after the block and the transactions that lead to it. -/
structure BlockState where
  rootHash : Element
  txns : List UtxoProof
  deriving DecidableEq, Repr

/-- The part of a block that is signed. -/
structure BlockContent where
  header : BlockHeader
  state : BlockState
  deriving DecidableEq, Repr

/-- A block with the signature of its proposer. -/
structure Block where
  content : BlockContent
  signature : Signature
  deriving DecidableEq, Repr

/-- The canonical byte string of a header: integers little-endian, a sequence
after its length. -/
def BlockHeader.toBytes (header : BlockHeader) : List (BitVec 8) :=
  leBytes 8 header.height ++ beBytes 32 header.lastBlockHash.toNat ++ leBytes 8 header.epochId ++
    beBytes 32 header.lastFinalBlockHash.toNat ++ leBytes 4 header.approvals.length ++
    header.approvals.flatMap Signature.inner

/-- The hash of the bytes of the header. -/
def BlockContent.headerHash (keccak : Keccak) (content : BlockContent) : CryptoHash :=
  keccak content.header.toBytes

/-- The hash that validators sign, of the root, the height and the hash of the header. -/
def BlockContent.hash (keccak : Keccak) (content : BlockContent) : CryptoHash :=
  keccak
    (beBytes 32 content.state.rootHash.toNat ++ beBytes 32 content.header.height ++
      beBytes 32 (content.headerHash keccak).toNat)

/-- A block has the hash of its content. -/
def Block.hash (keccak : Keccak) (block : Block) : CryptoHash := block.content.hash keccak

/-! ## Stored formats -/

/-- Where and when a transaction was included. -/
structure TxnMetadata where
  blockHeight : Nat
  blockTime : Option Nat
  blockHash : CryptoHash
  blockTxnIndex : Nat
  deriving DecidableEq, Repr

/-- A transaction as it is stored under its hash. -/
structure TxnFormat where
  txn : UtxoProof
  metadata : TxnMetadata
  deriving DecidableEq, Repr

/-- A stored block, with the time of its commit in the second version. -/
inductive BlockFormat
  | v1 (block : Block)
  | v2 (block : Block) (timestampUnixS : Option Nat)
  deriving DecidableEq, Repr

namespace BlockFormat

/-- The block, without the time of newer formats. -/
def intoBlock : BlockFormat → Block
  | v1 block => block
  | v2 block _ => block

/-- The time of a block, which older formats do not record. -/
def blockTime : BlockFormat → Option Nat
  | v1 _ => none
  | v2 _ timestampUnixS => timestampUnixS

/-- The transactions of a block, each with its place. -/
def txns (keccak : Keccak) (format : BlockFormat) : List TxnFormat :=
  let block := format.intoBlock
  block.content.state.txns.zipIdx.map fun (txn, index) =>
    ⟨txn, ⟨block.content.header.height, format.blockTime, block.hash keccak, index⟩⟩

/-- What the store reads of blocks and transactions. -/
def indexing (poseidon : Poseidon) (keccak : Keccak) :
    BlockStore.Indexing BlockFormat TxnFormat where
  blockHeight format := format.intoBlock.content.header.height
  blockHash format := format.intoBlock.hash keccak
  txns := txns keccak
  txnHash format := format.txn.hash poseidon
  inputElements format := format.txn.publicInputs.inputElements
  outputElements format := format.txn.publicInputs.outputElements
  mintHash format := format.txn.mintHash

end BlockFormat

/-- The store of a node. -/
abbrev Store := BlockStore BlockFormat TxnFormat

/-- The depth of the tree of notes, root included. -/
def MERKLE_TREE_DEPTH : Nat := 161

/-- The block in which an element was inserted. -/
structure SmirkMetadata where
  insertedIn : Nat
  deriving DecidableEq, Repr

/-- The tree of notes with its storage, which records the height of every insertion. -/
abbrev PersistentMerkleTree := Persistent MERKLE_TREE_DEPTH SmirkMetadata

/-- The compression of the notes tree. -/
def merge (poseidon : Poseidon) (left right : Element) : Element :=
  hashMerge poseidon [left, right]

/-! ## Errors -/

/-- Both sides of a mint whose value or kind is not the one of the contract. -/
structure MintInContractIsDifferent where
  contractValue : Element
  contractNoteKind : Element
  proofValue : Element
  proofNoteKind : Element
  deriving DecidableEq, Repr

/-- The errors that validation reports to clients. -/
inductive RpcError
  | invalidProof
  | conflictingElementsInBlock (elements : List Element)
  | txnOutputCommitmentsExist (elements : List Element)
  | txnInputCommitmentsNotInTree (elements : List Element)
  | txnOutputCommitmentsExistedRecently (elements : List Element)
  | mintIsNotInTheContract (element : Element)
  | mintIsAlreadySpent (elements : List Element)
  | mintInContractIsDifferent (difference : MintInContractIsDifferent)
  | txnDuplicateInputCommitments (elements : List Element)
  | txnDuplicateOutputCommitments (elements : List Element)
  | invalidElementSize (element : Element)
  | mintHashAlreadyExists (element : Element)
  | txnCommitmentAlreadyPending (elements : List Element)
  deriving DecidableEq, Repr

/-- Why a node refuses a transaction or a block. -/
inductive Error
  | rpc (error : RpcError)
  | invalidSignature
  | invalidBlockRoot (got expected : Element)
  | invalidTransaction (txn : Element)
  | collision (error : CollisionError)
  deriving DecidableEq, Repr

/-- A node operation, which may return an error or panic. -/
abbrev Result := Except (Stop Error)

/-- A check whose failure is reported to the client. -/
def ensure (condition : Prop) [Decidable condition] (error : RpcError) : Result Unit :=
  check condition (.error (.rpc error))

@[simp]
theorem ensure_eq_ok_iff {condition : Prop} [Decidable condition] {error : RpcError}
    {done : Unit} : ensure condition error = .ok done ↔ condition :=
  check_eq_ok_iff

/-- Read the result of an operation that can only panic. -/
def orPanic {α : Type} : Except String α → Result α
  | .ok value => .ok value
  | .error message => .error (.panic message)

@[simp]
theorem orPanic_eq_ok_iff {α : Type} {result : Except String α} {value : α} :
    orPanic result = .ok value ↔ result = .ok value := by
  cases result <;> simp [orPanic]

/-- Pass on an error of the tree. -/
def liftCollision {α : Type} : Except (Stop CollisionError) α → Result α
  | .ok value => .ok value
  | .error (.error error) => .error (.error (.collision error))
  | .error (.panic message) => .error (.panic message)

@[simp]
theorem liftCollision_eq_ok_iff {α : Type} {result : Except (Stop CollisionError) α}
    {value : α} : liftCollision result = .ok value ↔ result = .ok value := by
  rcases result with (_ | _) | _ <;> simp [liftCollision]

end Ciphera.Node
