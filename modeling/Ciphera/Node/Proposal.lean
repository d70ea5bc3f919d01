import Ciphera.Node.Approval
import Ciphera.Node.Cache
import Ciphera.Node.Chain
import Ciphera.Node.Transaction

/-!
# Proposals

On every tick a validator proposes the block after its last confirmed one: it
leases transactions from the mempool, validates them, signs the block and
commits it.  The new block carries the approvals of its predecessor, which are
the proposer's own.  A node that is no validator commits the blocks that it has
received instead.
-/

namespace Ciphera.Node

open Ciphera.Lib Ciphera.Noir Ciphera.Smirk Ciphera.Zk
open Ciphera.Rollup (Address)

/-- What a node is run for. -/
inductive Mode
  | validator
  | node
  | prover
  | mockProver
  deriving DecidableEq, Repr

/-- The state of a node, with the part of its configuration that it reads. -/
structure NodeShared (Key S : Type) where
  localPeer : Key
  signerAddress : Address
  validatorSets : List ValidatorSet
  mode : Mode
  blockTxnsCount : Nat
  badBlocks : List Nat
  mempool : NodeMempool S
  blockCache : BlockCache
  chain : Chain

/-- The height after a height, as a 64-bit integer. -/
def nextHeight (height : Nat) : Nat := (height + 1) % 2 ^ 64

/-- The first transaction of a list that is not valid, and why. -/
def firstInvalid (validate : UtxoProof → Result Unit) :
    List UtxoProof → Option (UtxoProof × Stop Error)
  | [] => none
  | txn :: rest =>
      match validate txn with
      | .ok _ => firstInvalid validate rest
      | .error stop => some (txn, stop)

/-- The root that a block with these transactions announces. -/
def proposedRoot (poseidon : Poseidon) (notesTree : PersistentMerkleTree)
    (txns : List UtxoProof) : Result Element :=
  let insertLeaves := (BlockState.mk 0 txns).insertLeaves
  let removeLeaves := (BlockState.mk 0 txns).removeLeaves
  if insertLeaves.isEmpty && removeLeaves.isEmpty then
    pure (notesTree.tree.rootHash (merge poseidon))
  else orPanic (notesTree.tree.rootHashWith (merge poseidon) insertLeaves removeLeaves)

namespace NodeShared

variable {Key S : Type} (poseidon : Poseidon) (keccak : Keccak) (verify : Verify)
  (secp : Secp256k1 Key) (tempNoir : Bool)

/-- The validators of a height, as the node has read them. -/
def validatorsForHeight (node : NodeShared Key S) (height : Nat) : Result (List Address) :=
  orPanic (Node.validatorsForHeight node.signerAddress node.validatorSets height)

/-- The validator whose turn a height is. -/
def getLeaderForBlockHeight (node : NodeShared Key S) (height : Nat) : Result Address := do
  let validators ← node.validatorsForHeight height
  orPanic (leaderAmong validators height)

/-- The node runs as one of the validators of a height. -/
def isValidatorForHeight (node : NodeShared Key S) (height : Nat) : Result Bool :=
  if node.mode ≠ .validator then pure false
  else do
    let validators ← node.validatorsForHeight height
    pure (validators.contains (secp.address node.localPeer))

/-- The block is signed by the leader of its height, and its content is valid on
the chain.  Bad blocks are listed in the configuration and not looked at. -/
def validateBlock (node : NodeShared Key S) (block : Block) : Result Unit :=
  if node.badBlocks.contains block.content.header.height then pure ()
  else do
    let validator ← node.getLeaderForBlockHeight block.content.header.height
    let signedBy ← orPanic (block.signature.verify keccak secp (block.hash keccak))
    check (signedBy = some validator) (.error .invalidSignature)
    block.content.validate poseidon verify node.chain.store node.chain.notesTree

/-- Commit a block to the chain and drop its transactions from the mempool,
telling their senders. -/
def commitProposal (node : NodeShared Key S) (block : Block) (commitTime : Nat) :
    NodeShared Key S × Result Unit :=
  match node.chain.commitProposal poseidon keccak tempNoir block commitTime with
  | (chain, .ok _) =>
      let keys := block.content.state.txns.map fun txn =>
        (txn.hash poseidon, (.ok block : Except Error Block))
      ({ node with
          chain
          mempool := (node.mempool.commit block.content.header.height keys).1 },
        .ok ())
  | (chain, .error stop) => ({ node with chain }, .error stop)

/-- Give up a proposal: the keys are dropped with the error, and the other keys
of the lease return to the pool. -/
def rejectTxns (node : NodeShared Key S) (height : Nat) (txns : List UtxoProof) (error : Error) :
    NodeShared Key S :=
  let keys := txns.map fun txn => (txn.hash poseidon, (.error error : Except Error Block))
  { node with mempool := (node.mempool.commit height keys).1 }

/-- The block that a node proposes. -/
def proposedContent (lastBlockHash : CryptoHash) (height : Nat)
    (accepts : List ApprovalValidated) (rootHash : Element) (txns : List UtxoProof) :
    BlockContent where
  header :=
    { height
      lastBlockHash
      epochId := 0
      lastFinalBlockHash := lastBlockHash
      approvals := accepts.map ApprovalValidated.signature }
  state := ⟨rootHash, txns⟩

/-- Validate, commit and confirm a proposed block. -/
def finishProposal (node : NodeShared Key S) (block : Block) (commitTime : Nat) :
    NodeShared Key S × Result Block :=
  let height := block.content.header.height
  match node.validateBlock poseidon keccak verify secp block with
  | .error (.panic message) => (node, .error (.panic message))
  | .error (.error error) =>
      (node.rejectTxns poseidon height block.content.state.txns error, .error (.error error))
  | .ok _ =>
      match node.commitProposal poseidon keccak tempNoir block commitTime with
      | (node, .error stop) => (node, .error stop)
      | (node, .ok _) =>
          ({ node with blockCache := (node.blockCache.insert keccak block).confirm height },
            .ok block)

/-- `create_proposal`, given the rollup contract as it is read for validation and
the time of the commit. -/
def createProposal (contract : Rollup.Storage) (commitTime : Nat) (node : NodeShared Key S)
    (lastBlockHash : CryptoHash) (height : Nat) (accepts : List ApprovalValidated) :
    NodeShared Key S × Result Block :=
  match node.mempool.leaseBatch height node.blockTxnsCount with
  | .error message => (node, .error (.panic message))
  | .ok (mempool, utxos) =>
      let node := { node with mempool }
      let txns := utxos.map Prod.snd
      match firstInvalid
          (validateTransaction verify contract node.chain.store node.chain.notesTree) txns with
      | some (_, .panic message) => (node, .error (.panic message))
      | some (txn, .error error) =>
          (node.rejectTxns poseidon height [txn] error,
            .error (.error (.invalidTransaction (txn.hash poseidon))))
      | none =>
          match proposedRoot poseidon node.chain.notesTree txns with
          | .error stop => (node, .error stop)
          | .ok rootHash =>
              node.finishProposal poseidon keccak verify secp tempNoir
                ((proposedContent lastBlockHash height accepts rootHash txns).toBlock keccak secp
                  node.localPeer) commitTime

/-- The loop of a node that does not propose: received blocks are committed one
height after the other.  Each round drops or commits one of the cached blocks.
Returns whether the loop ended without a failed commit. -/
def commitCached (commitTime : Nat) : Nat → NodeShared Key S → NodeShared Key S × Result Bool
  | 0, node => (node, .ok true)
  | rounds + 1, node =>
      match node.blockCache.getNextCommitBlock with
      | none => (node, .ok true)
      | some block =>
          match node.validateBlock poseidon keccak verify secp block with
          | .error (.panic message) => (node, .error (.panic message))
          | .error (.error _) =>
              commitCached commitTime rounds
                { node with blockCache := node.blockCache.remove (block.hash keccak) }
          | .ok _ =>
              let node :=
                { node with
                  blockCache := node.blockCache.confirm block.content.header.height }
              match node.commitProposal poseidon keccak tempNoir block commitTime with
              | (node, .ok _) => commitCached commitTime rounds node
              | (node, .error (.error _)) => (node, .ok false)
              | (node, .error (.panic message)) => (node, .error (.panic message))

/-- The error of a proposal is logged. -/
def logged : NodeShared Key S × Result Block → NodeShared Key S × Result (Option Block)
  | (node, .ok block) => (node, .ok (some block))
  | (node, .error (.error _)) => (node, .ok none)
  | (node, .error (.panic message)) => (node, .error (.panic message))

/-- Propose the block after the last confirmed one, with the node's own approval
of that one. -/
def propose (contract : Rollup.Storage) (commitTime : Nat) (node : NodeShared Key S) :
    NodeShared Key S × Result (Option Block) :=
  let targetHeight := nextHeight node.blockCache.height
  let approved := do
    let lastConfirmed ← node.blockCache.hash
    let approval ← (ApprovalContent.newEndorsement lastConfirmed targetHeight).toApprovalValidated
      keccak secp node.localPeer
    pure (lastConfirmed, approval)
  match approved with
  | .error message => (node, .error (.panic message))
  | .ok (lastConfirmed, approval) =>
      logged (node.createProposal poseidon keccak verify secp tempNoir contract commitTime
        lastConfirmed targetHeight [approval])

/-- `tick`, with the block that it proposes. -/
def tick (contract : Rollup.Storage) (commitTime : Nat) (node : NodeShared Key S) :
    NodeShared Key S × Result (Option Block) :=
  match node.isValidatorForHeight secp (nextHeight node.blockCache.height) with
  | .error stop => (node, .error stop)
  | .ok true => node.propose poseidon keccak verify secp tempNoir contract commitTime
  | .ok false =>
      match commitCached poseidon keccak verify secp tempNoir commitTime
          (node.blockCache.blocks.size + 1) node with
      | (node, .error stop) => (node, .error stop)
      | (node, .ok false) => (node, .ok none)
      | (node, .ok true) =>
          match node.blockCache.isOutOfSync with
          | .error message => (node, .error (.panic message))
          | .ok _ => (node, .ok none)

/-! ## What is proposed -/

variable {poseidon keccak verify secp tempNoir} {contract : Rollup.Storage} {commitTime : Nat}
  {node next : NodeShared Key S} {block proposed : Block}

theorem finishProposal_eq_ok
    (finished : node.finishProposal poseidon keccak verify secp tempNoir block commitTime =
      (next, .ok proposed)) :
    proposed = block ∧ node.validateBlock poseidon keccak verify secp block = .ok () := by
  unfold finishProposal at finished
  cases validated : node.validateBlock poseidon keccak verify secp block with
  | error stop =>
      cases stop with
      | panic message => simp [validated] at finished
      | error error => simp [validated] at finished
  | ok done =>
      simp only [validated] at finished
      cases committed : node.commitProposal poseidon keccak tempNoir block commitTime with
      | mk after result =>
          cases result with
          | error stop => simp [committed] at finished
          | ok done =>
              simp only [committed, Prod.mk.injEq, Except.ok.injEq] at finished
              exact ⟨finished.2.symm, rfl⟩

/-- A successful proposal is a valid block with the approvals it was given. -/
theorem createProposal_eq_ok {lastBlockHash : CryptoHash} {height : Nat}
    {accepts : List ApprovalValidated}
    (created : node.createProposal poseidon keccak verify secp tempNoir contract commitTime
      lastBlockHash height accepts = (next, .ok block)) :
    ∃ rootHash txns,
      block = (proposedContent lastBlockHash height accepts rootHash txns).toBlock keccak secp
          node.localPeer ∧
        node.validateBlock poseidon keccak verify secp block = .ok () := by
  unfold createProposal at created
  cases leased : node.mempool.leaseBatch height node.blockTxnsCount with
  | error message => simp [leased] at created
  | ok batch =>
      obtain ⟨mempool, utxos⟩ := batch
      simp only [leased] at created
      cases invalid : firstInvalid
          (validateTransaction verify contract node.chain.store node.chain.notesTree)
          (utxos.map Prod.snd) with
      | some failure =>
          obtain ⟨txn, stop⟩ := failure
          cases stop with
          | panic message => simp [invalid] at created
          | error error => simp [invalid] at created
      | none =>
          simp only [invalid] at created
          cases root : proposedRoot poseidon node.chain.notesTree (utxos.map Prod.snd) with
          | error stop => simp [root] at created
          | ok rootHash =>
              simp only [root] at created
              obtain ⟨rfl, validated⟩ := finishProposal_eq_ok created
              exact ⟨rootHash, utxos.map Prod.snd, rfl, validated⟩

/-- The header of a block that a tick proposes: it extends the confirmed block
and has the proposer's approval of it, and no other. -/
def proposedHeader (keccak : Keccak) (secp : Secp256k1 Key) (localPeer : Key)
    (lastConfirmed : CryptoHash) (height : Nat) : BlockHeader where
  height := height
  lastBlockHash := lastConfirmed
  epochId := 0
  lastFinalBlockHash := lastConfirmed
  approvals := [(endorsement keccak secp localPeer lastConfirmed height).signature]

theorem logged_eq_ok_iff {result : NodeShared Key S × Result Block} :
    logged result = (next, .ok (some block)) ↔ result = (next, .ok block) := by
  rcases result with ⟨after, (error | message) | created⟩
  · simp [logged]
  · simp [logged]
  · simp [logged]

theorem propose_eq_logged {lastConfirmed : CryptoHash}
    (hashed : node.blockCache.hash = .ok lastConfirmed) :
    node.propose poseidon keccak verify secp tempNoir contract commitTime =
      logged (node.createProposal poseidon keccak verify secp tempNoir contract commitTime
        lastConfirmed (nextHeight node.blockCache.height)
        [endorsement keccak secp node.localPeer lastConfirmed
          (nextHeight node.blockCache.height)]) := by
  rw [propose, hashed]
  rfl

theorem propose_eq_ok
    (proposes : node.propose poseidon keccak verify secp tempNoir contract commitTime =
      (next, .ok (some block))) :
    ∃ lastConfirmed, node.blockCache.hash = .ok lastConfirmed ∧
      block.content.header = proposedHeader keccak secp node.localPeer lastConfirmed
        (nextHeight node.blockCache.height) ∧
      node.validateBlock poseidon keccak verify secp block = .ok () := by
  cases hashed : node.blockCache.hash with
  | error message => simp [propose, hashed] at proposes
  | ok lastConfirmed =>
      rw [propose_eq_logged hashed, logged_eq_ok_iff] at proposes
      obtain ⟨rootHash, txns, rfl, validated⟩ := createProposal_eq_ok proposes
      exact ⟨lastConfirmed, rfl, rfl, validated⟩

/-- Only a validator's tick proposes a block. -/
theorem tick_eq_ok
    (ticked : node.tick poseidon keccak verify secp tempNoir contract commitTime =
      (next, .ok (some block))) :
    node.propose poseidon keccak verify secp tempNoir contract commitTime =
      (next, .ok (some block)) := by
  unfold tick at ticked
  split at ticked
  · simp at ticked
  · exact ticked
  · split at ticked
    · simp at ticked
    · simp at ticked
    · split at ticked
      · simp at ticked
      · simp at ticked

/-! ## Idle leaders -/

/-- A block with the leader's signature and valid content is accepted. -/
theorem validateBlock_of_signed {leader : Address}
    (leads : node.getLeaderForBlockHeight block.content.header.height = .ok leader)
    (signed : block.signature.verify keccak secp (block.hash keccak) = .ok (some leader))
    (valid : BlockValid poseidon verify node.chain.store node.chain.notesTree block.content) :
    node.validateBlock poseidon keccak verify secp block = .ok () := by
  unfold validateBlock
  split_ifs
  · rfl
  · simp only [bind_eq_ok_iff, orPanic_eq_ok_iff, check_eq_ok_iff]
    exact ⟨leader, leads, some leader, signed, (), rfl, validate_eq_ok_iff.mpr valid⟩

/-- The leader's signature on its block is accepted. -/
theorem validateBlock_toBlock {content : BlockContent} (lawful : secp.Lawful)
    (leads : node.getLeaderForBlockHeight content.header.height =
      .ok (secp.address node.localPeer))
    (valid : BlockValid poseidon verify node.chain.store node.chain.notesTree content) :
    node.validateBlock poseidon keccak verify secp (content.toBlock keccak secp node.localPeer) =
      .ok () :=
  validateBlock_of_signed leads (verify_sign lawful node.localPeer (content.hash keccak)) valid

theorem commitProposal_empty (valid : BlockValid poseidon verify node.chain.store
      node.chain.notesTree block.content) (empty : block.content.state.txns = []) :
    ∃ next, node.commitProposal poseidon keccak tempNoir block commitTime = (next, .ok ()) := by
  have leaves : block.content.state.insertLeaves = [] ∧ block.content.state.removeLeaves = [] := by
    simp [BlockState.insertLeaves, BlockState.removeLeaves, empty]
  obtain ⟨notesTree, applied, _⟩ := valid.commits_of_empty tempNoir leaves
  have committed : node.chain.commitProposal poseidon keccak tempNoir block commitTime =
      (⟨node.chain.store.set (BlockFormat.indexing poseidon keccak) (.v2 block (some commitTime)),
        notesTree⟩, .ok ()) :=
    Chain.commitProposal_eq_ok_iff.mpr ⟨by simp [leaves], rfl, applied⟩
  rw [commitProposal, committed]
  exact ⟨_, rfl⟩

/-- A leader without pending transactions proposes an empty block. -/
theorem exists_createProposal_idle {lastBlockHash : CryptoHash} {height : Nat}
    {accepts : List ApprovalValidated} (lawful : secp.Lawful)
    (leads : node.getLeaderForBlockHeight height = .ok (secp.address node.localPeer))
    (idle : node.mempool.pool = []) :
    ∃ next block, node.createProposal poseidon keccak verify secp tempNoir contract commitTime
      lastBlockHash height accepts = (next, .ok block) := by
  have leased : node.mempool.leaseBatch height node.blockTxnsCount =
      .ok ({ node.mempool with pool := [] }, []) := by
    rw [Mempool.leaseBatch, idle]
    rfl
  have root : proposedRoot poseidon node.chain.notesTree [] =
      .ok (node.chain.notesTree.tree.rootHash (merge poseidon)) := rfl
  have valid : BlockValid poseidon verify node.chain.store node.chain.notesTree
      (proposedContent lastBlockHash height accepts
        (node.chain.notesTree.tree.rootHash (merge poseidon)) []) :=
    emptyBlock_valid rfl rfl
  let leasing : NodeShared Key S := { node with mempool := { node.mempool with pool := [] } }
  let proposal : Block := (proposedContent lastBlockHash height accepts
    (node.chain.notesTree.tree.rootHash (merge poseidon)) []).toBlock keccak secp node.localPeer
  have validated : leasing.validateBlock poseidon keccak verify secp proposal = .ok () :=
    validateBlock_toBlock lawful leads valid
  obtain ⟨after, committed⟩ : ∃ after,
      leasing.commitProposal poseidon keccak tempNoir proposal commitTime = (after, .ok ()) :=
    commitProposal_empty valid rfl
  refine ⟨{ after with blockCache := (after.blockCache.insert keccak proposal).confirm height },
    proposal, ?_⟩
  simp only [createProposal, leased, List.map_nil, firstInvalid, root]
  change leasing.finishProposal poseidon keccak verify secp tempNoir proposal commitTime = _
  rw [finishProposal, validated]
  dsimp only
  rw [committed]
  rfl

/-- The leader of the next height extends its chain. -/
theorem exists_tick_idle {lastConfirmed : CryptoHash} (lawful : secp.Lawful)
    (mode : node.mode = .validator)
    (leads : node.getLeaderForBlockHeight (nextHeight node.blockCache.height) =
      .ok (secp.address node.localPeer))
    (confirmed : node.blockCache.hash = .ok lastConfirmed) (idle : node.mempool.pool = []) :
    ∃ next block, node.tick poseidon keccak verify secp tempNoir contract commitTime =
      (next, .ok (some block)) := by
  have isValidator : node.isValidatorForHeight secp (nextHeight node.blockCache.height) =
      .ok true := by
    obtain ⟨validators, validatorsEq, leaderEq⟩ := bind_eq_ok_iff.mp leads
    rw [isValidatorForHeight, if_neg (not_not_intro mode), bind_eq_ok_iff]
    refine ⟨validators, validatorsEq, pure_eq_ok_iff.mpr ?_⟩
    rw [orPanic_eq_ok_iff, leaderAmong] at leaderEq
    split at leaderEq
    · rename_i leader found
      obtain rfl := Except.ok.inj leaderEq
      exact List.contains_iff_mem.mpr (List.mem_of_getElem? found)
    · cases leaderEq
  obtain ⟨next, block, created⟩ : ∃ next block,
      node.createProposal poseidon keccak verify secp tempNoir contract commitTime lastConfirmed
        (nextHeight node.blockCache.height)
        [endorsement keccak secp node.localPeer lastConfirmed
          (nextHeight node.blockCache.height)] = (next, .ok block) :=
    exists_createProposal_idle lawful leads idle
  refine ⟨next, block, ?_⟩
  rw [tick, isValidator]
  exact (propose_eq_logged confirmed).trans (logged_eq_ok_iff.mpr created)

end NodeShared

end Ciphera.Node
