import Ciphera.Node.Survival

/-!
# Harmless messages

What a node may meet without a panic: messages of peers, blocks and snapshots from the
worker that synchronises it, transactions of its own users, new validator sets and
ticks.  Each is harmless under a condition on it and on the state that it meets.  A node
that has met only harmless things is alive: its cache has an entry, and that of a
proposer has just its confirmed block, so that the next harmless message and the tick
after it return.
-/

namespace Ciphera.Node

open Ciphera.Lib Ciphera.Noir Ciphera.Prover Ciphera.Smirk Ciphera.Zk
open Ciphera.Rollup (Address)

/-! ## The mempool of a proposer -/

namespace Mempool

variable {S R : Type} {mempool next : NodeMempool S} {height : Nat}

/-- No lease has keys but that of one height. -/
structure LeasedAt (mempool : NodeMempool S) (height : Nat) : Prop where
  partitioned : mempool.Partitioned
  others : ∀ other, other ≠ height → mempool.leased other = []

theorem leasedAt_empty (height : Nat) : LeasedAt ({} : NodeMempool S) height :=
  ⟨partitioned_empty, fun _ _ => rfl⟩

theorem LeasedAt.add {key : Element} {txn : UtxoProof} {changes : List Element}
    {sender : Option S} (leasedAt : mempool.LeasedAt height)
    (added : mempool.add key txn changes sender = .ok next) : next.LeasedAt height := by
  refine ⟨leasedAt.partitioned.add added, ?_⟩
  rcases add_eq_ok added with ⟨_, rfl⟩
  exact leasedAt.others

theorem LeasedAt.leaseBatch {maxCount : Nat} {batch : List (Element × UtxoProof)}
    (leasedAt : mempool.LeasedAt height)
    (leased : mempool.leaseBatch height maxCount = .ok (next, batch)) : next.LeasedAt height := by
  refine ⟨(leasedAt.partitioned.leaseBatch leased).1, ?_⟩
  intro other differ
  rcases leaseBatch_eq_ok leased with ⟨_, _, _, rfl⟩
  dsimp only
  rw [Function.update_of_ne differ]
  exact leasedAt.others other differ

/-- Committing the lease leaves none. -/
theorem LeasedAt.commit (leasedAt : mempool.LeasedAt height) (keysWithResults : List (Element × R))
    (any : Nat) : (mempool.commit height keysWithResults).1.LeasedAt any := by
  constructor
  · apply leasedAt.partitioned.commit
    intro other differ entry _ held
    rw [leasedAt.others other differ] at held
    exact List.not_mem_nil held
  · intro other _
    rw [(mempool.commit_spec height keysWithResults).2]
    by_cases same : other = height
    · rw [same, Function.update_self]
    · rw [Function.update_of_ne same, leasedAt.others other same]

theorem LeasedAt.exists_leaseBatch (leasedAt : mempool.LeasedAt height) (maxCount : Nat) :
    ∃ result, mempool.leaseBatch height maxCount = .ok result := by
  rcases exists_leaseLoop maxCount leasedAt.partitioned.poolPending {} with
    ⟨⟨pool, leasing⟩, finished⟩
  rw [Mempool.leaseBatch, finished]
  exact ⟨_, rfl⟩

end Mempool

/-! ## Proposing -/

theorem valid_of_firstInvalid {validate : UtxoProof → Result Unit} {txns : List UtxoProof}
    (none : firstInvalid validate txns = none) : ∀ txn ∈ txns, validate txn = .ok () := by
  induction txns with
  | nil => exact fun _ mem => absurd mem List.not_mem_nil
  | cons txn txns ih =>
      rw [firstInvalid] at none
      cases validated : validate txn with
      | error stop => simp [validated] at none
      | ok done =>
          rw [validated] at none
          intro other mem
          rcases List.mem_cons.mp mem with rfl | later
          · exact validated
          · exact ih none other later

theorem firstInvalid_ne_panic {validate : UtxoProof → Result Unit}
    (returns : ∀ txn, Returns (validate txn)) (txns : List UtxoProof) (txn : UtxoProof)
    (message : String) : firstInvalid validate txns ≠ some (txn, .panic message) := by
  induction txns with
  | nil => exact nofun
  | cons first txns ih =>
      rw [firstInvalid]
      cases validated : validate first with
      | ok done => exact ih
      | error stop =>
          intro found
          rcases Prod.mk.inj (Option.some.inj found) with ⟨_, rfl⟩
          exact returns first message validated

namespace NodeShared

variable {Key S : Type} {poseidon : Poseidon} {keccak : Keccak} {verify : Verify}
  {secp : Secp256k1 Key} {tempNoir : Bool} {contract : Rollup.Storage} {commitTime height : Nat}
  {node : NodeShared Key S} {block : Block}

variable (verify contract) in
/-- If all transactions of the next batch are valid, no two of their commitments share
a slot of the tree. -/
def BatchApart (node : NodeShared Key S) (height : Nat) : Prop :=
  ∀ mempool batch, node.mempool.leaseBatch height node.blockTxnsCount = .ok (mempool, batch) →
    (∀ entry ∈ batch, validateTransaction verify contract node.chain.store node.chain.notesTree
      entry.2 = .ok ()) →
    (Batch.slots MERKLE_TREE_DEPTH ((BlockState.mk 0 (batch.map Prod.snd)).insertLeaves ++
      (BlockState.mk 0 (batch.map Prod.snd)).removeLeaves)).Nodup

/-- What a proposal must leave of the leases. -/
def LeavesLeases (height : Nat) (result : NodeShared Key S × Result Block) : Prop :=
  Returns result.2 ∧ result.1.mempool.LeasedAt height ∧
    ∀ proposed, result.2 = .ok proposed → ∀ other, result.1.mempool.LeasedAt other

theorem leavesLeases_error {error : Error} (leasedAt : node.mempool.LeasedAt height) :
    LeavesLeases height (node, .error (.error error)) :=
  ⟨returns_error error, leasedAt, nofun⟩

theorem leasedAt_rejectTxns (leasedAt : node.mempool.LeasedAt height) (txns : List UtxoProof)
    (error : Error) : (node.rejectTxns poseidon height txns error).mempool.LeasedAt height := by
  unfold rejectTxns
  exact leasedAt.commit _ height

theorem leavesLeases_finishProposal (leasedAt : node.mempool.LeasedAt height)
    (sameHeight : block.content.header.height = height)
    (wellFormed : node.chain.notesTree.tree.WellFormed (merge poseidon))
    (validates : Returns (node.validateBlock poseidon keccak verify secp block))
    (present : ∀ leaf ∈ block.content.state.removeLeaves,
      leaf ∈ node.chain.notesTree.tree.entries) :
    LeavesLeases height
      (node.finishProposal poseidon keccak verify secp tempNoir block commitTime) := by
  subst sameHeight
  unfold finishProposal
  cases validated : node.validateBlock poseidon keccak verify secp block with
  | error stop =>
      cases stop with
      | panic message => exact absurd validated (validates message)
      | error error => exact leavesLeases_error (leasedAt_rejectTxns leasedAt _ error)
  | ok done =>
      dsimp only
      have commits : Returns (node.commitProposal poseidon keccak tempNoir block commitTime).2 :=
        returns_commitProposal commitTime wellFormed present
      unfold commitProposal at commits ⊢
      cases committed : node.chain.commitProposal poseidon keccak tempNoir block commitTime with
      | mk chain result =>
          rw [committed] at commits
          cases result with
          | ok done => exact ⟨returns_ok _, leasedAt.commit _ _, fun _ _ => leasedAt.commit _⟩
          | error stop =>
              cases stop with
              | panic message => exact absurd rfl (commits message)
              | error error => exact leavesLeases_error leasedAt

/-- The signature of the node itself parses. -/
theorem parses_sign (lawful : secp.Lawful) (localPeer : Key) (msg : CryptoHash) :
    (sign keccak secp localPeer msg).Parses secp :=
  fun _ => lawful.compact localPeer _

theorem exists_validators (validator : node.isValidatorForHeight secp height = .ok true) :
    ∃ validators, node.validatorsForHeight height = .ok validators := by
  unfold isValidatorForHeight at validator
  split_ifs at validator
  · cases pure_eq_ok_iff.mp validator
  · rcases bind_eq_ok_iff.mp validator with ⟨validators, read, _⟩
    exact ⟨validators, read⟩

theorem returns_proposedRoot {txns : List UtxoProof}
    (wellFormed : node.chain.notesTree.tree.WellFormed (merge poseidon))
    (slots : (Batch.slots MERKLE_TREE_DEPTH ((BlockState.mk 0 txns).insertLeaves ++
      (BlockState.mk 0 txns).removeLeaves)).Nodup) :
    Returns (proposedRoot poseidon node.chain.notesTree txns) := by
  unfold proposedRoot
  dsimp only
  split_ifs
  · exact returns_ok _
  · rw [(wellFormed.rootHashWith_eq_ok_iff MERKLE_TREE_DEPTH_pos).mpr ⟨slots, rfl⟩]
    exact returns_ok _

/-- A validator's proposal returns, and only its lease has keys after it. -/
theorem leavesLeases_createProposal {lastBlockHash : CryptoHash}
    {accepts : List ApprovalValidated} (lawful : secp.Lawful)
    (wellFormed : node.chain.notesTree.tree.WellFormed (merge poseidon))
    (leasedAt : node.mempool.LeasedAt height)
    (validator : node.isValidatorForHeight secp height = .ok true)
    (apart : node.BatchApart verify contract height) :
    LeavesLeases height (node.createProposal poseidon keccak verify secp tempNoir contract
      commitTime lastBlockHash height accepts) := by
  rcases leasedAt.exists_leaseBatch node.blockTxnsCount with ⟨⟨mempool, batch⟩, leased⟩
  have stillAt := leasedAt.leaseBatch leased
  rw [createProposal, leased]
  dsimp only
  split
  · rename_i txn message invalid
    exact absurd invalid (firstInvalid_ne_panic (fun txn => returns_validateTransaction txn) _ _ _)
  · rename_i txn error invalid
    apply leavesLeases_error
    apply leasedAt_rejectTxns
    exact stillAt
  · rename_i none
    have valid := valid_of_firstInvalid none
    have slots := apart mempool batch leased fun entry mem =>
      valid entry.2 (List.mem_map_of_mem mem)
    cases root : proposedRoot poseidon node.chain.notesTree (batch.map Prod.snd) with
    | error stop =>
        have returns : Returns (proposedRoot poseidon node.chain.notesTree (batch.map Prod.snd)) :=
          returns_proposedRoot wellFormed slots
        cases stop with
        | panic message => exact absurd root (returns message)
        | error error => exact leavesLeases_error stillAt
    | ok rootHash =>
        let leasing : NodeShared Key S := { node with mempool }
        let content := proposedContent lastBlockHash height accepts rootHash (batch.map Prod.snd)
        have leasingAt : leasing.mempool.LeasedAt height := stillAt
        have legible : leasing.Legible secp (content.toBlock keccak secp node.localPeer) :=
          ⟨exists_validators validator, parses_sign lawful node.localPeer _, fun _ => slots⟩
        have present : ∀ leaf ∈ content.state.removeLeaves,
            leaf ∈ leasing.chain.notesTree.tree.entries := by
          intro leaf mem
          rcases List.mem_filter.mp mem with ⟨isInput, nonzero⟩
          rcases List.mem_flatMap.mp isInput with ⟨txn, txnMem, isLeaf⟩
          have txnValid := (validateTransaction_eq_ok_iff.mp (valid txn txnMem)).2
          exact (txnValid.inputs leaf isLeaf).2 (by simpa using nonzero)
        exact leavesLeases_finishProposal leasingAt rfl wellFormed
          (returns_validateBlock wellFormed fun _ => legible) present

/-! ## Ticks -/

variable (keccak) in
/-- What holds of a validator: its cache has just the confirmed block, with room for
the next one, and only the lease of the next height has keys. -/
structure Proposing (node : NodeShared Key S) : Prop where
  settled : node.blockCache.Settled keccak
  alone : node.blockCache.Alone
  room : 2 ≤ node.blockCache.maxCacheSize
  leasedAt : node.mempool.LeasedAt (nextHeight node.blockCache.height)

variable (poseidon keccak) in

/-- A node that is intact and, as a validator, has something to propose on. -/
structure Alive (node : NodeShared Key S) : Prop extends Intact poseidon keccak node where
  proposing : node.mode = .validator → node.Proposing keccak

variable (poseidon keccak verify secp contract) in
/-- A tick finds cached blocks that do no harm.  A validator knows the validators of the
next height, and if it is one of them, it has not come to the last height and its batch
has no clashing slots. -/
structure TickHarmless (node : NodeShared Key S) : Prop where
  unharmed : node.mode ≠ .validator → node.Unharmed poseidon keccak verify secp
  validators : node.mode = .validator →
    ∃ validators, node.validatorsForHeight (nextHeight node.blockCache.height) = .ok validators
  inRange : node.isValidatorForHeight secp (nextHeight node.blockCache.height) = .ok true →
    node.blockCache.height + 1 < 2 ^ 64
  batch : node.isValidatorForHeight secp (nextHeight node.blockCache.height) = .ok true →
    node.BatchApart verify contract (nextHeight node.blockCache.height)

variable (poseidon keccak verify secp tempNoir contract commitTime) in
/-- A tick does not panic, and the loop over cached blocks comes to its end. -/
structure TickReturns (node : NodeShared Key S) : Prop where
  returns : Returns (node.tick poseidon keccak verify secp tempNoir contract commitTime).2
  ends : ∀ rounds, node.blockCache.blocks.size < rounds →
    commitCached poseidon keccak verify secp tempNoir commitTime rounds node =
      commitCached poseidon keccak verify secp tempNoir commitTime
        (node.blockCache.blocks.size + 1) node

theorem Alive.ends (alive : node.Alive poseidon keccak) {rounds : Nat}
    (enough : node.blockCache.blocks.size < rounds) :
    commitCached poseidon keccak verify secp tempNoir commitTime rounds node =
      commitCached poseidon keccak verify secp tempNoir commitTime
        (node.blockCache.blocks.size + 1) node := by
  have atMost := node.blockCache.card_ahead_le
  exact commitCached_eq_of_enough alive.labelled (Nat.lt_of_le_of_lt atMost enough)
    (Nat.lt_succ_of_le atMost)

theorem Alive.propose (lawful : secp.Lawful) (alive : node.Alive poseidon keccak)
    (leads : node.isValidatorForHeight secp (nextHeight node.blockCache.height) = .ok true)
    (harmless : node.TickHarmless poseidon keccak verify secp contract) :
    Returns (node.propose poseidon keccak verify secp tempNoir contract commitTime).2 ∧
      (node.propose poseidon keccak verify secp tempNoir contract commitTime).1.Alive poseidon
        keccak := by
  have proposing := alive.proposing (mode_of_isValidator leads)
  rcases proposing.settled.answers.1 with ⟨lastConfirmed, hashed⟩
  rw [propose_eq_logged hashed]
  generalize created : node.createProposal poseidon keccak verify secp tempNoir contract
    commitTime lastConfirmed (nextHeight node.blockCache.height) _ = result
  have leaves : LeavesLeases (nextHeight node.blockCache.height) result := by
    rw [← created]
    exact leavesLeases_createProposal lawful alive.wellFormed proposing.leasedAt leads
      (harmless.batch leads)
  rcases leaves with ⟨returns, leasedAt, freed⟩
  cases attempt_createProposal created with
  | @failed next stop config cache tree =>
      cases stop with
      | panic message => exact absurd rfl (returns message)
      | error error =>
          refine ⟨returns_ok _, ⟨cache ▸ alive.labelled, cache ▸ alive.occupied, ?_⟩, fun _ => ?_⟩
          · exact tree ▸ alive.wellFormed
          · exact ⟨cache ▸ proposing.settled, cache ▸ proposing.alone, cache ▸ proposing.room,
              cache ▸ leasedAt⟩
  | @made next block config height committed cache =>
      rw [Replica.nextHeight_eq (harmless.inRange leads)] at height
      have settled : next.blockCache.Settled keccak := by
        rw [cache]
        exact proposing.alone.settled_propose proposing.room height proposing.settled.toLabelled
      have stillProposing : next.Proposing keccak := by
        refine ⟨settled, ?_, ?_, freed block rfl _⟩
        · rw [cache]
          exact proposing.alone.propose proposing.room height
        · rw [cache, BlockCache.maxCacheSize_confirm, BlockCache.maxCacheSize_insert]
          exact proposing.room
      rcases Chain.commitProposal_eq_ok_iff.mp committed with ⟨_, _, applied⟩
      have wellFormed := wellFormed_of_applyBlockToTree alive.wellFormed applied
      exact ⟨returns_ok _, ⟨settled.toLabelled, ⟨_, settled.mem⟩, wellFormed⟩,
        fun _ => stillProposing⟩

variable (tempNoir commitTime) in
/-- The loop over cached blocks, which are none in the cache of a validator. -/
theorem Alive.returns_loop (alive : node.Alive poseidon keccak)
    (harmless : node.TickHarmless poseidon keccak verify secp contract) (rounds : Nat) :
    Returns (commitCached poseidon keccak verify secp tempNoir commitTime rounds node).2 ∧
      (commitCached poseidon keccak verify secp tempNoir commitTime rounds node).1.Alive poseidon
        keccak := by
  by_cases mode : node.mode = .validator
  · rw [(commitCached_done rounds (alive.proposing mode).alone.getNextCommitBlock).1]
    exact ⟨returns_ok _, alive⟩
  · rcases returns_commitCached tempNoir commitTime rounds alive.toIntact (harmless.unharmed mode)
      with ⟨returns, intact⟩
    have config := (catchUp_commitCached poseidon keccak verify secp tempNoir commitTime rounds
      node).sameConfig
    exact ⟨returns, intact, fun isValidator => absurd (config.mode ▸ isValidator) mode⟩

/-- A node that is alive ticks and stays alive. -/
theorem Alive.tick (lawful : secp.Lawful) (alive : node.Alive poseidon keccak)
    (harmless : node.TickHarmless poseidon keccak verify secp contract) :
    Returns (node.tick poseidon keccak verify secp tempNoir contract commitTime).2 ∧
      (node.tick poseidon keccak verify secp tempNoir contract commitTime).1.Alive poseidon
        keccak := by
  unfold NodeShared.tick
  cases leads : node.isValidatorForHeight secp (nextHeight node.blockCache.height) with
  | error stop =>
      unfold isValidatorForHeight at leads
      split_ifs at leads with other
      · cases leads
      · rcases harmless.validators (not_not.mp other) with ⟨validators, read⟩
        rw [read] at leads
        cases leads
  | ok isValidator =>
      cases isValidator with
      | true => exact alive.propose lawful leads harmless
      | false =>
          have loop := alive.returns_loop tempNoir commitTime harmless
            (node.blockCache.blocks.size + 1)
          dsimp only
          split
          · rename_i after stop finished
            rw [finished] at loop
            cases stop with
            | error error => exact ⟨returns_error error, loop.2⟩
            | panic message => exact absurd rfl (loop.1 message)
          · rename_i after finished
            rw [finished] at loop
            exact ⟨returns_ok _, loop.2⟩
          · rename_i after finished
            rw [finished] at loop
            rcases loop.2.occupied.exists_isOutOfSync with ⟨outOfSync, answered⟩
            rw [answered]
            exact ⟨returns_ok _, loop.2⟩

/-! ## Messages -/

variable (keccak secp) in
/-- What a message must be in the state that it meets. -/
def MessageHarmless (node : NodeShared Key S) : NetworkEvent → Prop
  | .approval approval =>
      node.mode = .validator →
        ∃ validators, node.validatorsForHeight approval.content.targetHeight = .ok validators ∧
          (leaderAmong validators approval.content.targetHeight =
              .ok (secp.address node.localPeer) →
            (∃ hash, approval.content.inner = .endorsement hash) ∧
              approval.signature.Parses secp ∧
              (approval.content.targetHeight ≤ MAX_HEIGHTS_AHEAD_TO_STORE_APPROVALS →
                validators.Nodup))
  | .block block => node.mode ≠ .validator ∧ node.blockCache.Apart keccak block
  | .snapshotAccept _ fromHeight toHeight .slow =>
      fromHeight ≤ min toHeight (nextHeight node.blockCache.height)
  | .transaction _ | .snapshotRequest _ _ _ _ | .snapshotOffer _ | .snapshotAccept _ _ _ .fast
  | .snapshotChunk _ _ => True

theorem returns_liftPanic {α : Type} {result : Except String α} {value : α}
    (succeeds : result = .ok value) : Returns (liftPanic result) := by
  rw [succeeds]
  exact returns_ok value

theorem returns_liftNode {α : Type} {result : Result α} (returns : Returns result) :
    Returns (liftNode result) := by
  rcases result with (failure | message) | value
  · exact returns_error _
  · exact absurd rfl (returns message)
  · exact returns_ok value

theorem returns_onApproval {validators : List Address} {approval : ApprovalValidated}
    (distinct : approval.content.targetHeight ≤ MAX_HEIGHTS_AHEAD_TO_STORE_APPROVALS →
      validators.Nodup) : Returns (onApproval validators approval) := by
  unfold onApproval
  split_ifs with tooFar
  · exact returns_ok _
  · have counted : validators.dedup.length = validators.length := by
      rw [(distinct (Nat.le_of_not_lt tooFar)).dedup]
    rw [check, if_pos counted]
    exact returns_ok _

/-- An endorsement with a signature that parses is read or refused with an error. -/
theorem returns_tryInto {approval : Approval} {hash : CryptoHash}
    (endorses : approval.content.inner = .endorsement hash)
    (parses : approval.signature.Parses secp) : Returns (approval.tryInto keccak secp) := by
  have hashed : ∃ digest, approval.content.hash keccak = .ok digest := by
    rw [ApprovalContent.hash, endorses]
    exact ⟨_, rfl⟩
  rcases hashed with ⟨digest, hashed⟩
  rcases parses.exists_verify digest with ⟨signedBy, verified⟩
  apply (returns_liftPanic hashed).bind
  intro value isDigest
  rw [hashed] at isDigest
  obtain rfl := Except.ok.inj isDigest
  apply (returns_liftPanic verified).bind
  intro signer _
  cases signer with
  | some validator => exact returns_ok _
  | none => exact returns_error _

theorem content_tryInto {approval : Approval} {validated : ApprovalValidated}
    (read : approval.tryInto keccak secp = .ok validated) :
    validated.content = approval.content := by
  rcases bind_eq_ok_iff.mp read with ⟨digest, _, rest⟩
  rcases bind_eq_ok_iff.mp rest with ⟨signer, _, made⟩
  cases signer with
  | some validator =>
      rw [← pure_eq_ok_iff.mp made]
  | none => cases made

theorem returns_receiveAccept {approval : Approval}
    (harmless : node.MessageHarmless keccak secp (.approval approval)) :
    Returns (node.receiveAccept keccak secp approval) := by
  unfold receiveAccept
  split_ifs with other
  · exact returns_ok _
  rcases harmless (not_not.mp other) with ⟨validators, read, own⟩
  rcases exists_leader_of_validators read with ⟨leader, among, leads⟩
  dsimp only
  rw [leads]
  change Returns (if leader ≠ secp.address node.localPeer then _ else _)
  split_ifs with isOther
  · exact returns_ok _
  · rcases own (not_not.mp isOther ▸ among) with ⟨⟨hash, endorses⟩, parses, distinct⟩
    apply (returns_tryInto endorses parses).bind
    intro validated accepted
    rw [read]
    change Returns (onApproval validators validated)
    apply returns_onApproval
    rw [content_tryInto accepted]
    exact distinct

/-- A harmless message is handled. -/
theorem Alive.returns_handleEvent (alive : node.Alive poseidon keccak) {event : NetworkEvent}
    (harmless : node.MessageHarmless keccak secp event) (syncWorkerListens : Bool) :
    Returns (node.handleEvent poseidon keccak verify secp contract syncWorkerListens event).2 := by
  cases event with
  | approval approval =>
      exact (returns_receiveAccept harmless).bind fun _ _ => returns_ok _
  | block block =>
      have received : (node.receiveProposal poseidon keccak block).2 = .ok () := by
        rw [receiveProposal, if_neg harmless.1]
      exact (returns_liftNode (returns_of_eq_ok received)).bind fun _ _ => returns_ok _
  | transaction txn =>
      exact (returns_liftNode (returns_receiveTransaction node.mempool txn)).bind fun _ _ =>
        returns_ok _
  | snapshotRequest snapshotId fromHeight toHeight kind =>
      rcases alive.occupied.exists_isOutOfSync with ⟨outOfSync, answered⟩
      apply (returns_liftPanic answered).bind
      intro _ _
      split_ifs
      · exact returns_ok _
      · exact returns_ok _
  | snapshotOffer snapshotId => exact (returns_check _ _).bind fun _ _ => returns_ok _
  | snapshotAccept snapshotId fromHeight toHeight kind =>
      cases kind with
      | fast => exact returns_ok _
      | slow =>
          have inOrder : ¬min toHeight (nextHeight node.blockCache.height) < fromHeight :=
            Nat.not_lt_of_le harmless
          have sent : ∃ chunk, node.sendSnapshotChunkSlow fromHeight toHeight = .ok chunk := by
            rw [sendSnapshotChunkSlow, BlockCache.getRange, if_neg inOrder]
            exact ⟨_, rfl⟩
          rcases sent with ⟨chunk, sent⟩
          exact (returns_liftPanic sent).bind fun _ _ => returns_ok _
  | snapshotChunk snapshotId chunk => exact (returns_check _ _).bind fun _ _ => returns_ok _

end NodeShared

/-! ## Runs -/

/-- What a node meets: messages of peers, ticks, transactions of its users, blocks and
fast snapshots from the worker that synchronises it, and validator sets of the contract. -/
inductive Happening (S : Type)
  | message (contract : Rollup.Storage) (syncWorkerListens : Bool) (event : NetworkEvent)
  | tick (contract : Rollup.Storage) (commitTime : Nat)
  | submit (contract : Rollup.Storage) (utxo : UtxoProof) (sender : S)
  | synced (block : Block)
  | snapshot (chunk : SnapshotChunkFast)
  | validatorSets (sets : List ValidatorSet)

namespace NodeShared

variable {Key S : Type} (poseidon : Poseidon) (keccak : Keccak) (verify : Verify)
  (secp : Secp256k1 Key) (tempNoir : Bool)

/-- The node after it. -/
def meet (node : NodeShared Key S) : Happening S → NodeShared Key S
  | .message contract syncWorkerListens event =>
      (node.handleEvent poseidon keccak verify secp contract syncWorkerListens event).1
  | .tick contract commitTime =>
      (node.tick poseidon keccak verify secp tempNoir contract commitTime).1
  | .submit contract utxo sender =>
      node.keepMempool (submitTransaction poseidon verify contract node.chain.store
        node.chain.notesTree node.mempool utxo sender)
  | .synced block => (node.receiveProposal poseidon keccak block).1
  | .snapshot chunk => (node.handleSnapshotChunkFast poseidon keccak tempNoir chunk).1
  | .validatorSets sets => { node with validatorSets := sets }

/-- What it must be in the state that it meets.  A fast snapshot leaves a block in the
cache of its node; a validator is only sent one for its next block. -/
def Harmless (node : NodeShared Key S) : Happening S → Prop
  | .message _ _ event => node.MessageHarmless keccak secp event
  | .tick contract _ => node.TickHarmless poseidon keccak verify secp contract
  | .submit _ _ _ => True
  | .synced block => node.mode ≠ .validator → node.blockCache.Apart keccak block
  | .snapshot chunk =>
      ∀ block notesTree, chunk.block = some block →
        applyFastSnapshotChunk poseidon tempNoir node.chain.notesTree block chunk.elements =
          .ok notesTree →
        (node.mode = .validator →
            prevHeight block.content.header.height = node.blockCache.height) ∧
          (node.mode ≠ .validator → node.blockCache.Apart keccak block ∧
            ((∃ height ∈ node.blockCache.blockHashHeights,
                prevHeight block.content.header.height ≤ height) ∨
              (node.blockCache.confirm (prevHeight block.content.header.height)).Takes block))
  | .validatorSets _ => True

/-- A step with something harmless. -/
def HarmlessStep (before : NodeShared Key S) (happening : Happening S)
    (after : NodeShared Key S) : Prop :=
  before.Harmless poseidon keccak verify secp tempNoir happening ∧
    after = before.meet poseidon keccak verify secp tempNoir happening

variable {poseidon keccak verify secp tempNoir} {node : NodeShared Key S} {block : Block}

theorem Alive.keepMempool {result : Result (NodeMempool S)} (alive : node.Alive poseidon keccak)
    (added : ∀ next, result = .ok next → next = node.mempool ∨
      ∃ key txn changes sender, node.mempool.add key txn changes sender = .ok next) :
    (node.keepMempool result).Alive poseidon keccak := by
  cases result with
  | error stop => exact alive
  | ok next =>
      refine ⟨⟨alive.labelled, alive.occupied, alive.wellFormed⟩, ?_⟩
      intro mode
      have proposing := alive.proposing mode
      refine ⟨proposing.settled, proposing.alone, proposing.room, ?_⟩
      rcases added next rfl with same | ⟨key, txn, changes, sender, added⟩
      · exact same ▸ proposing.leasedAt
      · exact proposing.leasedAt.add added

/-- A node that is no validator caches the block. -/
theorem alive_receive (mode : node.mode ≠ .validator)
    (labelled : node.blockCache.Labelled keccak)
    (held : node.blockCache.Occupied ∨ node.blockCache.Takes block)
    (wellFormed : node.chain.notesTree.tree.WellFormed (merge poseidon))
    (apart : node.blockCache.Apart keccak block) :
    (node.receiveProposal poseidon keccak block).1.Alive poseidon keccak := by
  rw [receiveProposal, if_neg mode]
  refine ⟨⟨labelled.insert apart, ?_, wellFormed⟩, ?_⟩
  · exact BlockCache.occupied_insert keccak held
  · exact fun isValidator => absurd isValidator mode

theorem Alive.receive (alive : node.Alive poseidon keccak)
    (apart : node.mode ≠ .validator → node.blockCache.Apart keccak block) :
    (node.receiveProposal poseidon keccak block).1.Alive poseidon keccak := by
  by_cases mode : node.mode = .validator
  · rw [receiveProposal, if_pos mode]
    exact alive
  · exact alive_receive mode alive.labelled (.inl alive.occupied) alive.wellFormed (apart mode)

theorem Alive.snapshot {chunk : SnapshotChunkFast} (alive : node.Alive poseidon keccak)
    (harmless : node.Harmless poseidon keccak verify secp tempNoir (.snapshot chunk)) :
    (node.handleSnapshotChunkFast poseidon keccak tempNoir chunk).1.Alive poseidon keccak := by
  unfold handleSnapshotChunkFast
  split
  · exact alive
  · rename_i block carried
    split
    · exact alive
    · rename_i notesTree applied
      rcases harmless block notesTree carried applied with ⟨next, cached⟩
      have wellFormed := wellFormed_of_applyFastSnapshotChunk alive.wellFormed applied
      by_cases mode : node.mode = .validator
      · -- a validator takes the tree and refuses the block
        have proposing := alive.proposing mode
        have same : node.blockCache.confirm (prevHeight block.content.header.height) =
            node.blockCache := by
          rw [next mode]
          exact BlockCache.confirm_eq_self
            ⟨rfl, fun height mem => (proposing.alone.heights height mem).ge⟩
        rw [receiveProposal, if_pos mode, same]
        exact ⟨⟨alive.labelled, alive.occupied, wellFormed⟩, fun _ =>
          ⟨proposing.settled, proposing.alone, proposing.room, proposing.leasedAt⟩⟩
      · rcases cached mode with ⟨apart, held⟩
        apply alive_receive
        · exact mode
        · exact alive.labelled.of_within (BlockCache.within_confirm _ _)
        · rcases held with ⟨height, known, atLeast⟩ | takes
          · exact .inl (BlockCache.occupied_confirm known atLeast)
          · exact .inr takes
        · exact wellFormed
        · exact fun height entry => apart height (BlockCache.heights_of_confirm entry).1

theorem Alive.message {event : NetworkEvent} (alive : node.Alive poseidon keccak)
    (harmless : node.MessageHarmless keccak secp event) (contract : Rollup.Storage)
    (syncWorkerListens : Bool) :
    (node.handleEvent poseidon keccak verify secp contract syncWorkerListens event).1.Alive
      poseidon keccak := by
  cases event with
  | block block => exact alive.receive fun _ => harmless.2
  | transaction txn =>
      apply alive.keepMempool
      intro next received
      rcases admits_of_receiveTransaction received with admits | same
      · exact .inr ⟨_, _, _, _, admits.2⟩
      · exact .inl same
  | approval _ | snapshotRequest _ _ _ _ | snapshotOffer _ | snapshotAccept _ _ _ _
  | snapshotChunk _ _ => exact alive

/-- What is harmless leaves a node alive. -/
theorem Alive.meet (lawful : secp.Lawful) (alive : node.Alive poseidon keccak)
    {happening : Happening S}
    (harmless : node.Harmless poseidon keccak verify secp tempNoir happening) :
    (node.meet poseidon keccak verify secp tempNoir happening).Alive poseidon keccak := by
  cases happening with
  | message contract syncWorkerListens event =>
      exact alive.message harmless contract syncWorkerListens
  | tick contract commitTime => exact (alive.tick lawful harmless).2
  | submit contract utxo sender =>
      apply alive.keepMempool
      intro next submitted
      exact .inr ⟨_, _, _, _, (submitTransaction_eq_ok_iff.mp submitted).2⟩
  | synced block => exact alive.receive harmless
  | snapshot chunk => exact alive.snapshot harmless
  | validatorSets sets =>
      exact ⟨⟨alive.labelled, alive.occupied, alive.wellFormed⟩, fun mode =>
        ⟨(alive.proposing mode).settled, (alive.proposing mode).alone, (alive.proposing mode).room,
          (alive.proposing mode).leasedAt⟩⟩

/-- A node is alive when it starts on sound databases. -/
theorem alive_start (keccak : Keccak) (config : NodeShared Key S) {loaded : LoadedData}
    (wellFormed : loaded.persistentTree.tree.WellFormed (merge poseidon)) :
    (Replica.start keccak config loaded).node.Alive poseidon keccak := by
  have steady := Replica.steady_start keccak config wellFormed
  refine ⟨⟨steady.settled.toLabelled, ⟨_, steady.settled.mem⟩, wellFormed⟩, ?_⟩
  intro mode
  exact ⟨steady.settled, steady.alone mode, steady.room, Mempool.leasedAt_empty _⟩

theorem alive_of_run (lawful : secp.Lawful) {start : NodeShared Key S}
    (alive : start.Alive poseidon keccak) {happenings : List (Happening S)}
    (run : Run (HarmlessStep poseidon keccak verify secp tempNoir) start happenings node) :
    node.Alive poseidon keccak := by
  induction run with
  | nil => exact alive
  | snoc _ taken ih =>
      rcases taken with ⟨harmless, rfl⟩
      exact ih.meet lawful harmless

/-- Wherever harmless things have led a node, whatever its databases have been through
before it was started, a harmless message is handled without a panic, and so is the tick
after it. -/
theorem harmless_message_returns (lawful : secp.Lawful) {progress : Progress}
    {history : List Progress.Event}
    (lived : Run (Progress.Step poseidon keccak tempNoir) Progress.start history progress)
    {loaded : LoadedData} (loads : loadDbAndSmirk poseidon tempNoir progress.chain = .ok loaded)
    (config : NodeShared Key S) {happenings : List (Happening S)}
    (run : Run (HarmlessStep poseidon keccak verify secp tempNoir)
      (Replica.start keccak config loaded).node happenings node)
    (contract : Rollup.Storage) (syncWorkerListens : Bool) {event : NetworkEvent}
    (harmless : node.MessageHarmless keccak secp event) :
    Returns (node.handleEvent poseidon keccak verify secp contract syncWorkerListens event).2 ∧
      ∀ (tickContract : Rollup.Storage) (commitTime : Nat),
        (node.handleEvent poseidon keccak verify secp contract syncWorkerListens
            event).1.TickHarmless poseidon keccak verify secp tickContract →
          (node.handleEvent poseidon keccak verify secp contract syncWorkerListens
            event).1.TickReturns poseidon keccak verify secp tempNoir tickContract commitTime := by
  have sound := Progress.sound_of_run lived
  have wellFormed := ((loadDbAndSmirk_eq_ok_iff.mp loads).sound sound.wellFormed
    sound.filed).wellFormed
  have alive := alive_of_run lawful (alive_start keccak config wellFormed) run
  refine ⟨alive.returns_handleEvent harmless syncWorkerListens, ?_⟩
  intro tickContract commitTime harmlessTick
  have after : (node.handleEvent poseidon keccak verify secp contract syncWorkerListens
      event).1.Alive poseidon keccak := alive.message harmless contract syncWorkerListens
  exact ⟨(after.tick lawful harmlessTick).1, fun _ enough => after.ends enough⟩

open Replica (follower leader peers lawful_peers heightDigest signedBlock)

/-- A block without transactions. -/
def firstEmpty : Block := signedBlock ⟨⟨1, 0, 0, 0, []⟩, ⟨0, []⟩⟩

@[simp]
theorem hash_firstEmpty : firstEmpty.hash heightDigest = 1 := Replica.hash_heightDigest _

theorem apart_firstEmpty : follower.node.blockCache.Apart heightDigest firstEmpty := by
  intro height entry
  have heights := (BlockCache.maps_new heightDigest .genesis (show 0 < 10000 by decide)).2
  have known : (BlockCache.new heightDigest .genesis 10000).blockHashHeights[height]? = some 1 :=
    hash_firstEmpty ▸ entry
  have genesisHash : Block.genesis.hash heightDigest = 0 := Replica.hash_heightDigest _
  rw [heights, getElem?_insert_eq, genesisHash] at known
  split_ifs at known
  · cases known
  · simp at known

/-- The follower with the block in its cache. -/
def toldFirst : NodeShared Bool Unit :=
  (follower.node.handleEvent (fun _ => 0) heightDigest (fun _ => true) peers {} true
    (.block firstEmpty)).1

theorem settled_toldFirst : toldFirst.blockCache.Settled heightDigest :=
  (BlockCache.settled_new heightDigest .genesis (by decide)).insert apart_firstEmpty

/-- It waits for that block alone. -/
theorem waits_toldFirst {block : Block} (waits : toldFirst.blockCache.Waits block) :
    block = firstEmpty := by
  rcases waits with ⟨height, above, found⟩
  have blockHeight := settled_toldFirst.toLabelled.height_eq found
  rcases Option.bind_eq_some_iff.mp found with ⟨hash, _, isBlock⟩
  rcases BlockCache.blocks_of_insert isBlock with same | old
  · exact same
  · have blocks := (BlockCache.maps_new heightDigest .genesis (show 0 < 10000 by decide)).1
    have old : (BlockCache.new heightDigest .genesis 10000).blocks[hash]? = some block := old
    rw [blocks, getElem?_insert_eq] at old
    split_ifs at old
    · have same : Block.genesis = block := Option.some.inj old
      rw [← blockHeight, ← same] at above
      exact absurd above (Nat.not_lt_zero _)
    · simp at old

theorem tickHarmless_toldFirst :
    toldFirst.TickHarmless (fun _ => 0) heightDigest (fun _ => true) peers {} := by
  have mode : toldFirst.mode ≠ .validator := nofun
  have follows : toldFirst.isValidatorForHeight peers (nextHeight toldFirst.blockCache.height) =
      .ok false := if_pos mode
  refine ⟨fun _ => ⟨?_, ?_⟩, ?_, ?_, ?_⟩
  · intro block waits
    rw [waits_toldFirst waits]
    exact ⟨⟨[1], rfl⟩, fun _ => rfl, fun _ => List.nodup_nil⟩
  · intro block error _ _
    exact ⟨_, settled_toldFirst.mem, (Nat.succ_ne_self _).symm⟩
  · exact fun isValidator => absurd isValidator mode
  · exact fun leads => absurd (follows.symm.trans leads) (by simp)
  · exact fun leads => absurd (follows.symm.trans leads) (by simp)

/-- A follower is sent the first block and ticks. -/
theorem firstEmpty_returns :
    follower.node.MessageHarmless heightDigest peers (.block firstEmpty) ∧
      Returns (follower.node.handleEvent (fun _ => 0) heightDigest (fun _ => true) peers {} true
        (.block firstEmpty)).2 ∧
      toldFirst.TickReturns (fun _ => 0) heightDigest (fun _ => true) peers false {} 0 := by
  have harmless : follower.node.MessageHarmless heightDigest peers (.block firstEmpty) :=
    ⟨nofun, apart_firstEmpty⟩
  have returns : Returns (follower.node.handleEvent (fun _ => 0) heightDigest (fun _ => true) peers
        {} true (.block firstEmpty)).2 ∧
      ∀ (tickContract : Rollup.Storage) (commitTime : Nat),
        toldFirst.TickHarmless (fun _ => 0) heightDigest (fun _ => true) peers tickContract →
          toldFirst.TickReturns (fun _ => 0) heightDigest (fun _ => true) peers false tickContract
            commitTime :=
    harmless_message_returns lawful_peers .nil (Replica.loadDbAndSmirk_genesis _ false)
      follower.node .nil {} true harmless
  exact ⟨harmless, returns.1, returns.2 {} 0 tickHarmless_toldFirst⟩

/-- A validator panics when it is sent a block or an approval of a skipped height, and a
follower when the range of an accepted snapshot ends before it starts. -/
theorem peers_stop_nodes :
    ¬Returns (leader.node.handleEvent (fun _ => 0) heightDigest (fun _ => true) peers {} true
        (.block firstEmpty)).2 ∧
      ¬Returns (leader.node.handleEvent (fun _ => 0) heightDigest (fun _ => true) peers {} true
        (.approval ⟨⟨.skip 0, 1⟩, ⟨0, 0, 0⟩⟩)).2 ∧
      ¬Returns (follower.node.handleEvent (fun _ => 0) heightDigest (fun _ => true) peers {} true
        (.snapshotAccept 0 1 0 .slow)).2 := by
  have inverted : follower.node.sendSnapshotChunkSlow 1 0 =
      .error "range start is greater than range end in BTreeMap" := by
    rw [sendSnapshotChunkSlow, Nat.zero_min, BlockCache.getRange, if_pos Nat.one_pos]
    rfl
  refine ⟨not_returns_panic _, not_returns_panic _, ?_⟩
  change ¬Returns (follower.node.handleSnapshotAccept 0 1 0 .slow)
  rw [handleSnapshotAccept, inverted]
  exact not_returns_panic _

end NodeShared

end Ciphera.Node
