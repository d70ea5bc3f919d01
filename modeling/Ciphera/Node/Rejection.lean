import Ciphera.Node.BlockHash
import Ciphera.Node.Leases
import Ciphera.Node.Replica

/-!
# Proposals that drop transactions

A validator proposes at every height whose validator set has it, but a block is valid
only if the leader of its height has signed it.  A proposal of another validator fails
validation, and `create_proposal` then drops all its transactions, since one of them
must have been the cause.  A batch of valid transactions is committed or stays in the
mempool exactly when the node leads, the height is one of the bad blocks, or there is
nothing to lose.
-/

namespace Ciphera.Node

open Ciphera.Lib Ciphera.Noir Ciphera.Smirk Ciphera.Zk
open Ciphera.Rollup (Address)

/-- Pending transactions are kept under their hashes. -/
def Mempool.Keyed {S : Type} (poseidon : Poseidon) (mempool : NodeMempool S) : Prop :=
  ∀ entry ∈ mempool.txns, entry.1 = entry.2.txn.hash poseidon

/-- A batch of transactions that are valid one by one and share no commitments, no
slots of the tree and no mint hashes. -/
structure CleanBatch (verify : Verify) (contract : Rollup.Storage) (chain : Chain)
    (batch : List (Element × UtxoProof)) : Prop where
  valid : ∀ entry ∈ batch,
    validateTransaction verify contract chain.store chain.notesTree entry.2 = .ok ()
  slots : (Batch.slots MERKLE_TREE_DEPTH
    ((BlockState.mk 0 (batch.map Prod.snd)).insertLeaves ++
      (BlockState.mk 0 (batch.map Prod.snd)).removeLeaves)).Nodup
  mints : (batch.filterMap fun entry => entry.2.mintHash).Nodup

/-- The batch is committed, or all of it is still pending. -/
def KeepsBatch {Key S : Type} (result : NodeShared Key S × Result Block)
    (batch : List (Element × UtxoProof)) : Prop :=
  (∃ block, result.2 = .ok block) ∨ ∀ entry ∈ batch, entry.1 ∈ result.1.mempool.keys

/-! ## Keys -/

namespace Mempool

variable {S : Type} {poseidon : Poseidon} {mempool next : NodeMempool S}

theorem keyed_empty : Keyed poseidon ({} : NodeMempool S) := by
  intro entry mem
  exact absurd mem List.not_mem_nil

theorem Keyed.of_subset (keyed : Keyed poseidon mempool) (kept : next.txns ⊆ mempool.txns) :
    Keyed poseidon next :=
  fun entry mem => keyed entry (kept mem)

/-- A transaction is added under its hash. -/
theorem Keyed.addTransaction {utxo : UtxoProof} {sender : Option S}
    (keyed : Keyed poseidon mempool)
    (added : addTransaction poseidon mempool utxo sender = .ok next) : Keyed poseidon next := by
  rcases add_eq_ok added with ⟨_, rfl⟩
  intro entry mem
  rcases List.mem_append.mp mem with old | new
  · exact keyed entry old
  · rw [List.mem_singleton.mp new]

theorem Keyed.commit {R : Type} (keyed : Keyed poseidon mempool) (height : Nat)
    (keysWithResults : List (Element × R)) :
    Keyed poseidon (mempool.commit height keysWithResults).1 :=
  keyed.of_subset (mempool.commit_spec height keysWithResults).1.subset

theorem Keyed.leaseTxns (keyed : Keyed poseidon mempool) (height : Nat) (keys : List Element) :
    Keyed poseidon (mempool.leaseTxns height keys) := by
  rw [leaseTxns_eq]
  exact keyed

theorem Keyed.leaseBatch {height maxCount : Nat} {batch : List (Element × UtxoProof)}
    (keyed : Keyed poseidon mempool)
    (leased : mempool.leaseBatch height maxCount = .ok (next, batch)) : Keyed poseidon next := by
  rcases leaseBatch_eq_ok leased with ⟨_, _, _, rfl⟩
  exact keyed

end Mempool

namespace NodeShared

variable {Key S : Type} {poseidon : Poseidon} {node next : NodeShared Key S}

section

variable {keccak : Keccak} {verify : Verify} {secp : Secp256k1 Key} {tempNoir : Bool}
  {commitTime : Nat}

theorem keyed_of_commitProposal {block : Block} {result : Result Unit}
    (committed : node.commitProposal poseidon keccak tempNoir block commitTime =
      (next, result)) (keyed : node.mempool.Keyed poseidon) : next.mempool.Keyed poseidon := by
  unfold commitProposal at committed
  split at committed
  · cases committed
    exact keyed.commit _ _
  · cases committed
    exact keyed

theorem keyed_rejectTxns (keyed : node.mempool.Keyed poseidon) (height : Nat)
    (txns : List UtxoProof) (error : Error) :
    (node.rejectTxns poseidon height txns error).mempool.Keyed poseidon :=
  keyed.commit _ _

theorem keyed_finishProposal (keyed : node.mempool.Keyed poseidon) (block : Block) :
    (node.finishProposal poseidon keccak verify secp tempNoir block commitTime).1.mempool.Keyed
      poseidon := by
  unfold finishProposal
  dsimp only
  split
  · exact keyed
  · exact keyed_rejectTxns keyed _ _ _
  · split
    · rename_i failed
      exact keyed_of_commitProposal failed keyed
    · rename_i committed
      have after := keyed_of_commitProposal committed keyed
      exact after

theorem keyed_createProposal (keyed : node.mempool.Keyed poseidon) (contract : Rollup.Storage)
    (lastBlockHash : CryptoHash) (height : Nat) (accepts : List ApprovalValidated) :
    (node.createProposal poseidon keccak verify secp tempNoir contract commitTime lastBlockHash
      height accepts).1.mempool.Keyed poseidon := by
  unfold createProposal
  split
  · exact keyed
  · rename_i mempool batch leased
    have stillKeyed := keyed.leaseBatch leased
    dsimp only
    split
    · exact stillKeyed
    · apply keyed_rejectTxns
      exact stillKeyed
    · split
      · exact stillKeyed
      · apply keyed_finishProposal
        exact stillKeyed

theorem keyed_propose (keyed : node.mempool.Keyed poseidon) (contract : Rollup.Storage) :
    (node.propose poseidon keccak verify secp tempNoir contract commitTime).1.mempool.Keyed
      poseidon := by
  have logs : ∀ result : NodeShared Key S × Result Block,
      (logged result).1.mempool = result.1.mempool := by
    rintro ⟨after, (error | message) | created⟩ <;> rfl
  unfold propose
  dsimp only
  split
  · exact keyed
  · rw [logs]
    exact keyed_createProposal keyed _ _ _ _

theorem CatchUp.keyed {blocks : List Block}
    (loop : CatchUp poseidon keccak verify secp tempNoir commitTime node blocks next)
    (keyed : node.mempool.Keyed poseidon) : next.mempool.Keyed poseidon := by
  induction loop with
  | stop => exact keyed
  | drop _ _ _ ih => exact ih keyed
  | commit _ _ committed _ ih => exact ih (keyed_of_commitProposal committed keyed)
  | fail _ _ failed => exact keyed_of_commitProposal failed keyed

theorem keyed_tick (keyed : node.mempool.Keyed poseidon) (contract : Rollup.Storage) :
    (node.tick poseidon keccak verify secp tempNoir contract commitTime).1.mempool.Keyed
      poseidon := by
  have loop := (catchUp_commitCached poseidon keccak verify secp tempNoir commitTime
    (node.blockCache.blocks.size + 1) node).keyed keyed
  unfold tick
  split
  · exact keyed
  · exact keyed_propose keyed contract
  · split
    · rename_i stopped
      rwa [stopped] at loop
    · rename_i failed
      rwa [failed] at loop
    · rename_i finished
      rw [finished] at loop
      split
      · exact loop
      · exact loop

theorem keyed_receiveProposal (keyed : node.mempool.Keyed poseidon) (block : Block) :
    (node.receiveProposal poseidon keccak block).1.mempool.Keyed poseidon := by
  unfold receiveProposal
  split_ifs
  · exact keyed
  · exact keyed.leaseTxns _ _

theorem keyed_handleSnapshotChunkFast (keyed : node.mempool.Keyed poseidon)
    (chunk : SnapshotChunkFast) :
    (node.handleSnapshotChunkFast poseidon keccak tempNoir chunk).1.mempool.Keyed poseidon := by
  unfold handleSnapshotChunkFast
  split
  · exact keyed
  · split
    · exact keyed
    · apply keyed_receiveProposal
      exact keyed

end

end NodeShared

namespace Replica

variable {Key S : Type} {poseidon : Poseidon} {keccak : Keccak} {verify : Verify}
  {secp : Secp256k1 Key} {tempNoir : Bool} {replica : Replica Key S}

theorem keyed_keep {result : Result (NodeMempool S)}
    (keyed : replica.node.mempool.Keyed poseidon)
    (stored : ∀ mempool, result = .ok mempool → mempool.Keyed poseidon) :
    (replica.keep result).node.mempool.Keyed poseidon := by
  cases result with
  | ok mempool => exact stored mempool rfl
  | error stop => exact keyed

theorem keyed_step {event : Event S} (keyed : replica.node.mempool.Keyed poseidon) :
    (replica.step poseidon keccak verify secp tempNoir event).node.mempool.Keyed poseidon := by
  cases event with
  | submit contract utxo sender =>
      apply keyed_keep keyed
      intro mempool submitted
      exact keyed.addTransaction (submitTransaction_eq_ok_iff.mp submitted).2
  | gossip contract txn =>
      apply keyed_keep keyed
      intro mempool received
      rcases admits_of_receiveTransaction received with admits | same
      · exact keyed.addTransaction admits.2
      · exact same ▸ keyed
  | receive block => exact NodeShared.keyed_receiveProposal keyed block
  | tick contract commitTime => exact NodeShared.keyed_tick keyed contract
  | snapshot chunk => exact NodeShared.keyed_handleSnapshotChunkFast keyed chunk

/-- A node has its pending transactions under their hashes at all times. -/
theorem keyed_run (config : NodeShared Key S) (loaded : LoadedData) (events : List (Event S)) :
    ((start keccak config loaded).run poseidon keccak verify secp tempNoir
      events).node.mempool.Keyed poseidon := by
  apply run_invariant (motive := fun _ replica => replica.node.mempool.Keyed poseidon)
  · exact Mempool.keyed_empty
  · exact fun _ _ _ before => keyed_step before

end Replica

/-! ## What becomes of a clean batch -/

theorem firstInvalid_eq_none {validate : UtxoProof → Result Unit} {txns : List UtxoProof}
    (valid : ∀ txn ∈ txns, validate txn = .ok ()) : firstInvalid validate txns = none := by
  induction txns with
  | nil => rfl
  | cons txn txns ih =>
      rw [firstInvalid, valid txn List.mem_cons_self]
      exact ih fun other mem => valid other (List.mem_cons_of_mem txn mem)

/-- The transactions of a clean batch have a root. -/
theorem CleanBatch.exists_root {poseidon : Poseidon} {verify : Verify} {contract : Rollup.Storage}
    {chain : Chain} {batch : List (Element × UtxoProof)}
    (clean : CleanBatch verify contract chain batch)
    (wellFormed : chain.notesTree.tree.WellFormed (merge poseidon)) :
    ∃ rootHash, proposedRoot poseidon chain.notesTree (batch.map Prod.snd) = .ok rootHash ∧
      AnnouncesRoot poseidon chain.notesTree ⟨rootHash, batch.map Prod.snd⟩ := by
  by_cases empty : (BlockState.mk 0 (batch.map Prod.snd)).insertLeaves = [] ∧
      (BlockState.mk 0 (batch.map Prod.snd)).removeLeaves = []
  · refine ⟨chain.notesTree.tree.rootHash (merge poseidon), ?_, (if_pos empty).mpr rfl⟩
    rw [proposedRoot, if_pos]
    · rfl
    · rw [empty.1, empty.2]
      rfl
  · obtain ⟨rootHash, predicted⟩ : ∃ rootHash, chain.notesTree.tree.rootHashWith (merge poseidon)
        (BlockState.mk 0 (batch.map Prod.snd)).insertLeaves
        (BlockState.mk 0 (batch.map Prod.snd)).removeLeaves = .ok rootHash :=
      ⟨_, (wellFormed.rootHashWith_eq_ok_iff MERKLE_TREE_DEPTH_pos).mpr ⟨clean.slots, rfl⟩⟩
    refine ⟨rootHash, ?_, (if_neg empty).mpr predicted⟩
    rw [proposedRoot, if_neg, predicted]
    · rfl
    · rwa [Bool.and_eq_true, List.isEmpty_iff, List.isEmpty_iff]

namespace NodeShared

variable {Key S : Type} {poseidon : Poseidon} {keccak : Keccak} {verify : Verify}
  {secp : Secp256k1 Key} {tempNoir : Bool} {contract : Rollup.Storage} {commitTime height : Nat}
  {node : NodeShared Key S} {mempool : NodeMempool S} {batch : List (Element × UtxoProof)}
  {lastBlockHash : CryptoHash} {accepts : List ApprovalValidated} {block : Block}

/-- The height has a leader when the node is one of its validators. -/
theorem exists_leader (validator : node.isValidatorForHeight secp height = .ok true) :
    ∃ leader, node.getLeaderForBlockHeight height = .ok leader := by
  rw [isValidatorForHeight] at validator
  split_ifs at validator
  · cases validator
  · rcases bind_eq_ok_iff.mp validator with ⟨validators, validatorsEq, isMember⟩
    have mem : secp.address node.localPeer ∈ validators :=
      List.contains_iff_mem.mp (pure_eq_ok_iff.mp isMember)
    have inRange : height % validators.length < validators.length :=
      Nat.mod_lt _ (List.length_pos_of_mem mem)
    refine ⟨validators[height % validators.length], ?_⟩
    rw [getLeaderForBlockHeight, validatorsEq]
    change orPanic (leaderAmong validators height) = _
    rw [leaderAmong, List.getElem?_eq_getElem inRange]
    rfl

/-- The block of another validator than the leader is refused for its signature. -/
theorem validateBlock_of_other_leader {content : BlockContent} {leader : Address}
    (lawful : secp.Lawful) (good : content.header.height ∉ node.badBlocks)
    (leads : node.getLeaderForBlockHeight content.header.height = .ok leader)
    (other : leader ≠ secp.address node.localPeer) :
    node.validateBlock poseidon keccak verify secp (content.toBlock keccak secp node.localPeer) =
      .error (.error .invalidSignature) := by
  have signed : (content.toBlock keccak secp node.localPeer).signature.verify keccak secp
      ((content.toBlock keccak secp node.localPeer).hash keccak) =
        .ok (some (secp.address node.localPeer)) :=
    verify_sign lawful node.localPeer (content.hash keccak)
  have unequal : ¬some (secp.address node.localPeer) = some leader := by
    intro same
    exact other (Option.some.inj same).symm
  have notBad : ¬node.badBlocks.contains content.header.height = true := by
    rwa [List.contains_iff_mem]
  rw [validateBlock]
  change (if node.badBlocks.contains content.header.height = true then _ else _) = _
  rw [if_neg notBad]
  change (do
    let validator ← node.getLeaderForBlockHeight content.header.height
    let signedBy ← orPanic ((content.toBlock keccak secp node.localPeer).signature.verify keccak
      secp ((content.toBlock keccak secp node.localPeer).hash keccak))
    check (signedBy = some validator) (.error .invalidSignature)
    content.validate poseidon verify node.chain.store node.chain.notesTree) = _
  rw [leads, signed]
  change (do
    check (some (secp.address node.localPeer) = some leader) (Stop.error Error.invalidSignature)
    content.validate poseidon verify node.chain.store node.chain.notesTree) = _
  rw [check, if_neg unequal]
  rfl

variable (keccak secp tempNoir commitTime lastBlockHash accepts) in
/-- A clean batch gets as far as the validation of its block. -/
theorem createProposal_of_clean
    (wellFormed : node.chain.notesTree.tree.WellFormed (merge poseidon))
    (leased : node.mempool.leaseBatch height node.blockTxnsCount = .ok (mempool, batch))
    (clean : CleanBatch verify contract node.chain batch) :
    ∃ content : BlockContent, content.header.height = height ∧
      content.state.txns = batch.map Prod.snd ∧
      BlockValid poseidon verify node.chain.store node.chain.notesTree content ∧
      node.createProposal poseidon keccak verify secp tempNoir contract commitTime lastBlockHash
          height accepts =
        finishProposal poseidon keccak verify secp tempNoir { node with mempool }
          (content.toBlock keccak secp node.localPeer) commitTime := by
  have validEach : ∀ txn ∈ batch.map Prod.snd,
      validateTransaction verify contract node.chain.store node.chain.notesTree txn = .ok () := by
    intro txn mem
    rcases List.mem_map.mp mem with ⟨entry, entryMem, rfl⟩
    exact clean.valid entry entryMem
  rcases clean.exists_root wellFormed with ⟨rootHash, root, announces⟩
  refine ⟨proposedContent lastBlockHash height accepts rootHash (batch.map Prod.snd), rfl, rfl,
    ⟨?_, ?_, announces⟩, ?_⟩
  · exact clean.slots.of_map
  · intro txn mem
    exact (validateTransaction_eq_ok_iff.mp (validEach txn mem)).2
  · simp only [createProposal, leased, firstInvalid_eq_none validEach, root]

/-- A valid proposal is committed, or the tree refuses it and its transactions stay. -/
theorem keepsBatch_of_validated
    (leased : node.mempool.leaseBatch height node.blockTxnsCount = .ok (mempool, batch))
    (validated : validateBlock poseidon keccak verify secp { node with mempool } block = .ok ()) :
    KeepsBatch (finishProposal poseidon keccak verify secp tempNoir { node with mempool } block
      commitTime) batch := by
  rw [finishProposal, validated]
  dsimp only
  cases committed : node.chain.commitProposal poseidon keccak tempNoir block commitTime with
  | mk chain result =>
      simp only [commitProposal, committed]
      cases result with
      | ok done => exact .inl ⟨block, rfl⟩
      | error stop =>
          apply Or.inr
          intro entry mem
          rcases Mempool.leaseBatch_eq_ok leased with ⟨_, _, pending, rfl⟩
          rcases pending entry mem with ⟨mempoolTxn, stored, _⟩
          exact List.mem_map_of_mem stored

/-- Dropped transactions are not pending. -/
theorem not_mem_rejectTxns {txns : List UtxoProof} {txn : UtxoProof} {error : Error}
    (mem : txn ∈ txns) :
    txn.hash poseidon ∉ (node.rejectTxns poseidon height txns error).mempool.keys := by
  intro pending
  have kept := (Mempool.mem_keys_commitKeys.mp pending).2
  apply kept
  rw [List.map_map]
  exact List.mem_map_of_mem mem

/-- A validator that does not lead drops all its transactions. -/
theorem batch_eq_nil_of_keeps {leader : Address} (lawful : secp.Lawful)
    (wellFormed : node.chain.notesTree.tree.WellFormed (merge poseidon))
    (keyed : node.mempool.Keyed poseidon)
    (leased : node.mempool.leaseBatch height node.blockTxnsCount = .ok (mempool, batch))
    (clean : CleanBatch verify contract node.chain batch) (good : height ∉ node.badBlocks)
    (leads : node.getLeaderForBlockHeight height = .ok leader)
    (other : leader ≠ secp.address node.localPeer)
    (keeps : KeepsBatch (node.createProposal poseidon keccak verify secp tempNoir contract
      commitTime lastBlockHash height accepts) batch) : batch = [] := by
  rcases createProposal_of_clean keccak secp tempNoir commitTime lastBlockHash accepts wellFormed
    leased clean with ⟨content, rfl, txnsEq, valid, created⟩
  have refused : validateBlock poseidon keccak verify secp { node with mempool }
      (content.toBlock keccak secp node.localPeer) = .error (.error .invalidSignature) :=
    validateBlock_of_other_leader lawful good leads other
  rw [created, finishProposal, refused] at keeps
  rw [List.eq_nil_iff_forall_not_mem]
  intro entry mem
  rcases keeps with ⟨block, committed⟩ | pending
  · cases committed
  · rcases Mempool.leaseBatch_eq_ok leased with ⟨_, _, origin, _⟩
    rcases origin entry mem with ⟨mempoolTxn, stored, sameTxn⟩
    have byHash : entry.1 = entry.2.hash poseidon := (keyed _ stored).trans (sameTxn ▸ rfl)
    have isDropped : entry.2 ∈ content.state.txns := by
      rw [txnsEq]
      exact List.mem_map_of_mem mem
    exact not_mem_rejectTxns isDropped (byHash ▸ pending entry mem)

/-- At any time in the life of a node, a clean batch is committed or stays in the mempool
exactly when it is empty, or its height is a bad block, or the node leads. -/
theorem createProposal_keeps_iff {config : NodeShared Key S} {loaded : LoadedData}
    {events : List (Replica.Event S)} (lawful : secp.Lawful)
    (reached : ((Replica.start keccak config loaded).run poseidon keccak verify secp tempNoir
      events).node = node)
    (wellFormed : node.chain.notesTree.tree.WellFormed (merge poseidon))
    (validator : node.isValidatorForHeight secp height = .ok true)
    (leased : node.mempool.leaseBatch height node.blockTxnsCount = .ok (mempool, batch))
    (clean : CleanBatch verify contract node.chain batch) :
    KeepsBatch (node.createProposal poseidon keccak verify secp tempNoir contract commitTime
        lastBlockHash height accepts) batch ↔
      batch = [] ∨ height ∈ node.badBlocks ∨
        node.getLeaderForBlockHeight height = .ok (secp.address node.localPeer) := by
  constructor
  · intro keeps
    rcases exists_leader validator with ⟨leader, leads⟩
    by_cases bad : height ∈ node.badBlocks
    · exact .inr (.inl bad)
    by_cases same : leader = secp.address node.localPeer
    · exact .inr (.inr (same ▸ leads))
    have keyed : node.mempool.Keyed poseidon := reached ▸ Replica.keyed_run config loaded events
    exact .inl (batch_eq_nil_of_keeps lawful wellFormed keyed leased clean bad leads same keeps)
  · rcases createProposal_of_clean keccak secp tempNoir commitTime lastBlockHash accepts
      wellFormed leased clean with ⟨content, rfl, txnsEq, valid, created⟩
    rw [created]
    rintro (rfl | bad | leads)
    · exact .inr fun entry mem => absurd mem List.not_mem_nil
    · apply keepsBatch_of_validated leased
      rw [validateBlock]
      exact if_pos (List.contains_iff_mem.mpr bad)
    · have validated : validateBlock poseidon keccak verify secp { node with mempool }
          (content.toBlock keccak secp node.localPeer) = .ok () :=
        validateBlock_toBlock lawful leads valid
      exact keepsBatch_of_validated leased validated

/-! ## Two validators that take turns -/

open Replica (peers lawful_peers heightDigest)

/-- The first of two validators. -/
def firstOfTwo : NodeShared Bool Unit where
  localPeer := true
  signerAddress := 1
  validatorSets := [⟨[1, 2], 0⟩]
  mode := .validator
  blockTxnsCount := 6
  badBlocks := []
  mempool := {}
  blockCache := BlockCache.new heightDigest .genesis 10000
  chain := Chain.genesis

/-- It has been sent a transaction. -/
def takingTurns : NodeShared Bool Unit :=
  ((Replica.start heightDigest firstOfTwo Replica.genesisData).run levelHash heightDigest
    (fun _ => true) peers false [.submit (Rollup.initialStorage 0) (outputTxn 1) ()]).node

/-- The batch of its proposals. -/
def turnBatch : List (Element × UtxoProof) := [((outputTxn 1).hash levelHash, outputTxn 1)]

theorem clean_turnBatch :
    CleanBatch (fun _ => true) (Rollup.initialStorage 0) Chain.genesis turnBatch := by
  have noMint : ∀ mintMsgs, (outputTxn 1).kindMessages ≠ .mint mintMsgs := by
    intro mintMsgs
    simp [UtxoProof.kindMessages, outputTxn, UtxoPublicInput.single, UtxoPublicInput.kindMessages,
      UtxoPublicInput.kind, UtxoKind.ofByte, get_eq_getElem]
  have unrecorded : ¬Chain.genesis.store.Recorded 1 := Std.TreeMap.not_mem_emptyc
  constructor
  · intro entry mem
    rw [List.mem_singleton.mp mem, validateTransaction_eq_ok_iff]
    constructor
    · intro mintMsgs isMint
      exact absurd isMint (noMint mintMsgs)
    · exact outputTxn_valid rfl (by decide) (not_mem_emptyTree 1) unrecorded
  · have nonzero : (1 : Element) ≠ Element.ZERO := by decide
    have inserts : (outputBlock 0 0 1).state.insertLeaves = [1] := insertLeaves_outputBlock nonzero
    have removes := removeLeaves_outputBlock 0 0 1
    rw [outputBlock] at inserts removes
    change (Batch.slots MERKLE_TREE_DEPTH ((BlockState.mk 0 [outputTxn 1]).insertLeaves ++
      (BlockState.mk 0 [outputTxn 1]).removeLeaves)).Nodup
    rw [inserts, removes]
    exact List.nodup_singleton _
  · rw [turnBatch, List.filterMap_cons, mintHash_outputTxn]
    exact List.nodup_nil

/-- The transaction is admitted, and nothing else about the node changes. -/
theorem takingTurns_eq :
    takingTurns =
      { (Replica.start heightDigest firstOfTwo Replica.genesisData).node with
        mempool :=
          { txns := [((outputTxn 1).hash levelHash, ⟨outputTxn 1, some (), [1]⟩)]
            pool := [(outputTxn 1).hash levelHash] } } := by
  have admits : Admits levelHash (fun _ => true) (Rollup.initialStorage 0) Chain.genesis.store
      Chain.genesis.notesTree {} (outputTxn 1) (some ())
      { txns := [((outputTxn 1).hash levelHash, ⟨outputTxn 1, some (), [1]⟩)]
        pool := [(outputTxn 1).hash levelHash] } :=
    ⟨clean_turnBatch.valid _ (List.mem_singleton_self _), rfl⟩
  have submitted := submitTransaction_eq_ok_iff.mpr admits
  change (Replica.keep _ (submitTransaction levelHash (fun _ => true) (Rollup.initialStorage 0)
    Chain.genesis.store Chain.genesis.notesTree {} (outputTxn 1) ())).node = _
  rw [submitted]
  rfl

theorem leaseBatch_takingTurns (height : Nat) :
    ∃ mempool, takingTurns.mempool.leaseBatch height takingTurns.blockTxnsCount =
      .ok (mempool, turnBatch) := by
  have looped : Mempool.leaseLoop takingTurns.mempool.txns takingTurns.blockTxnsCount
      takingTurns.mempool.pool {} = .ok ([], ⟨turnBatch, [], [1]⟩) := by
    simp only [takingTurns_eq, Mempool.leaseLoop, List.lookup_cons_self]
    rfl
  rw [Mempool.leaseBatch, looped]
  exact ⟨_, rfl⟩

@[simp]
theorem isValidator_takingTurns (height : Nat) :
    takingTurns.isValidatorForHeight peers height = .ok true := by
  rw [takingTurns_eq]
  rfl

theorem wellFormed_takingTurns :
    takingTurns.chain.notesTree.tree.WellFormed (merge levelHash) := by
  rw [takingTurns_eq]
  exact emptyTree_wellFormed

/-- At the second height it is the node's turn, and its transaction stays or is committed. -/
theorem leader_keeps_batch :
    KeepsBatch (takingTurns.createProposal levelHash heightDigest (fun _ => true) peers false
      (Rollup.initialStorage 0) 0 0 2 []) turnBatch := by
  rcases leaseBatch_takingTurns 2 with ⟨mempool, leased⟩
  have leads : takingTurns.getLeaderForBlockHeight 2 = .ok (peers.address takingTurns.localPeer) :=
    rfl
  exact (createProposal_keeps_iff lawful_peers rfl wellFormed_takingTurns
    (isValidator_takingTurns 2) leased clean_turnBatch).mpr (.inr (.inr leads))

/-- At the first height it is not: the node proposes all the same, and its valid
transaction is dropped. -/
theorem valid_txn_dropped :
    takingTurns.isValidatorForHeight peers 1 = .ok true ∧
      (∃ mempool, takingTurns.mempool.leaseBatch 1 takingTurns.blockTxnsCount =
        .ok (mempool, turnBatch)) ∧
      CleanBatch (fun _ => true) (Rollup.initialStorage 0) takingTurns.chain turnBatch ∧
      ¬KeepsBatch (takingTurns.createProposal levelHash heightDigest (fun _ => true) peers false
        (Rollup.initialStorage 0) 0 0 1 []) turnBatch := by
  refine ⟨isValidator_takingTurns 1, leaseBatch_takingTurns 1, clean_turnBatch, ?_⟩
  intro keeps
  rcases leaseBatch_takingTurns 1 with ⟨mempool, leased⟩
  have leads : takingTurns.getLeaderForBlockHeight 1 = .ok 2 := rfl
  have keyed : takingTurns.mempool.Keyed levelHash :=
    Replica.keyed_run firstOfTwo Replica.genesisData _
  have none := batch_eq_nil_of_keeps lawful_peers wellFormed_takingTurns keyed leased
    clean_turnBatch List.not_mem_nil leads (by decide) keeps
  exact List.cons_ne_nil _ _ none

end NodeShared

end Ciphera.Node
