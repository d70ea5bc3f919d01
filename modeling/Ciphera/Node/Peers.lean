import Ciphera.Lib.Returns
import Ciphera.Prover.Worker

/-!
# Messages of peers

Another node sends approvals, blocks, transactions and the messages of a snapshot.  Each
has its handler.  Offers and chunks are passed on to the worker that synchronises the
node; a request or an accepted offer is answered.  What a peer sends is not checked
before a handler looks at it, so the handlers meet signatures that do not parse,
approvals of a kind that is not implemented and ranges that end before they start.
-/

namespace Ciphera.Node

open Ciphera.Lib Ciphera.Noir Ciphera.Prover Ciphera.Smirk Ciphera.Zk
open Ciphera.Rollup (Address)

/-- The approval of a peer, whose signer is not known yet. -/
structure Approval where
  content : ApprovalContent
  signature : Signature

/-- The two ways to catch up: block by block, or by the elements of the tree. -/
inductive SnapshotKind
  | slow
  | fast
  deriving DecidableEq, Repr

/-- A part of a snapshot. -/
inductive SnapshotChunk
  | slow (chunk : List Block)
  | fast (chunk : SnapshotChunkFast)

/-- What a peer sends. -/
inductive NetworkEvent
  | approval (approval : Approval)
  | block (block : Block)
  | transaction (txn : UtxoProof)
  | snapshotRequest (snapshotId fromHeight toHeight : Nat) (kind : SnapshotKind)
  | snapshotOffer (snapshotId : Nat)
  | snapshotAccept (snapshotId fromHeight toHeight : Nat) (kind : SnapshotKind)
  | snapshotChunk (snapshotId : Nat) (chunk : SnapshotChunk)

/-- Why a message is given up. -/
inductive EventError
  | node (error : Error)
  | doomslugInvalidSignature
  | channelWasClosed
  deriving DecidableEq, Repr

/-- An error of the node, as one of the handler. -/
def liftNode {α : Type} : Result α → Except (Stop EventError) α
  | .ok value => .ok value
  | .error (.error error) => .error (.error (.node error))
  | .error (.panic message) => .error (.panic message)

/-- A panic, as one of the handler. -/
def liftPanic {α : Type} : Except String α → Except (Stop EventError) α
  | .ok value => .ok value
  | .error message => .error (.panic message)

/-! ## Approvals -/

/-- How far above the tip approvals are kept. -/
def MAX_HEIGHTS_AHEAD_TO_STORE_APPROVALS : Nat := 10000

/-- `on_approval`, as far as it can fail.  The tip of the node's doomslug is never set
and stays at height zero; an approval that is not too far ahead is counted, which
asserts that no validator has two stakes. -/
def onApproval (validators : List Address) (approval : ApprovalValidated) :
    Except (Stop EventError) Unit :=
  if MAX_HEIGHTS_AHEAD_TO_STORE_APPROVALS < approval.content.targetHeight then pure ()
  else check (validators.dedup.length = validators.length)
    (.panic "assertion `left == right` failed")

section

variable {Key : Type} (keccak : Keccak) (secp : Secp256k1 Key)

/-- An approval with the address of its signer. -/
def Approval.tryInto (approval : Approval) : Except (Stop EventError) ApprovalValidated := do
  let hash ← liftPanic (approval.content.hash keccak)
  let signedBy ← liftPanic (approval.signature.verify keccak secp hash)
  match signedBy with
  | some validator => pure ⟨approval.content, approval.signature, validator⟩
  | none => .error (.error .doomslugInvalidSignature)

end

/-! ## Snapshots -/

/-- The cached blocks of a range of heights. -/
def BlockCache.getRange (cache : BlockCache) (start stop : Nat) : Except String (List Block) :=
  if stop < start then .error "range start is greater than range end in BTreeMap"
  else
    .ok ((cache.blockHashHeights.toList.filter fun entry =>
      start ≤ entry.1 && entry.1 < stop).filterMap fun entry => cache.blocks[entry.2]?)

namespace NodeShared

variable {Key S : Type} (poseidon : Poseidon) (keccak : Keccak) (verify : Verify)
  (secp : Secp256k1 Key)

/-- A node that is in sync and has the first block offers a snapshot. -/
def handleSnapshotRequest (node : NodeShared Key S) (snapshotId fromHeight : Nat) :
    Except (Stop EventError) (Option NetworkEvent) := do
  let outOfSync ← liftPanic node.blockCache.isOutOfSync
  if outOfSync || node.blockCache.height < fromHeight then pure none
  else pure (some (.snapshotOffer snapshotId))

/-- The stored blocks of a range up to the height of the node, then the cached ones. -/
def sendSnapshotChunkSlow (node : NodeShared Key S) (fromHeight toHeight : Nat) :
    Except String (List Block) := do
  let toHeight := min toHeight (nextHeight node.blockCache.height)
  let blocks := fetchBlocks node.chain.store fromHeight toHeight
  let pendingProposals ← node.blockCache.getRange fromHeight toHeight
  pure (blocks ++ pendingProposals)

/-- An accepted offer is answered with a chunk. -/
def handleSnapshotAccept (node : NodeShared Key S) (snapshotId fromHeight toHeight : Nat) :
    SnapshotKind → Except (Stop EventError) (Option NetworkEvent)
  | .slow => do
      let chunk ← liftPanic (node.sendSnapshotChunkSlow fromHeight toHeight)
      pure (some (.snapshotChunk snapshotId (.slow chunk)))
  | .fast => pure (some (.snapshotChunk snapshotId (.fast (node.sendSnapshotChunkFast toHeight))))

/-- A leader counts the approvals of its own height. -/
def receiveAccept (node : NodeShared Key S) (approvalMessage : Approval) :
    Except (Stop EventError) Unit :=
  if node.mode ≠ .validator then pure ()
  else do
    let targetHeight := approvalMessage.content.targetHeight
    let leader ← liftNode (node.getLeaderForBlockHeight targetHeight)
    if leader ≠ secp.address node.localPeer then pure ()
    else do
      let approval ← approvalMessage.tryInto keccak secp
      let validators ← liftNode (node.validatorsForHeight targetHeight)
      onApproval validators approval

/-- The mempool after a transaction has come, which a refused one leaves alone. -/
def keepMempool (node : NodeShared Key S) : Result (NodeMempool S) → NodeShared Key S
  | .ok mempool => { node with mempool }
  | .error _ => node

/-- Pass a message on to the worker that synchronises the node. -/
def passOn (syncWorkerListens : Bool) : Except (Stop EventError) (Option NetworkEvent) := do
  check (syncWorkerListens = true) (.error .channelWasClosed)
  pure none

/-- `handle_event`, with the answer to the peer.  The contract is read for the
validation of a mint. -/
def handleEvent (contract : Rollup.Storage) (syncWorkerListens : Bool)
    (node : NodeShared Key S) :
    NetworkEvent → NodeShared Key S × Except (Stop EventError) (Option NetworkEvent)
  | .approval approval =>
      (node, do
        node.receiveAccept keccak secp approval
        pure none)
  | .block block =>
      let (node, result) := node.receiveProposal poseidon keccak block
      (node, do
        liftNode result
        pure none)
  | .transaction txn =>
      let result := receiveTransaction poseidon verify contract node.chain.store
        node.chain.notesTree node.mempool txn
      (node.keepMempool result, do
        let _ ← liftNode result
        pure none)
  | .snapshotRequest snapshotId fromHeight _ _ =>
      (node, node.handleSnapshotRequest snapshotId fromHeight)
  | .snapshotOffer _ => (node, passOn syncWorkerListens)
  | .snapshotAccept snapshotId fromHeight toHeight kind =>
      (node, node.handleSnapshotAccept snapshotId fromHeight toHeight kind)
  | .snapshotChunk _ _ => (node, passOn syncWorkerListens)

end NodeShared

end Ciphera.Node
