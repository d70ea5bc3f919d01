import Ciphera.Node.Recovery

/-!
# The life of a node

Between two starts a node takes transactions, caches the blocks that it is sent,
is handed fast snapshots and ticks.  Beside its state goes the list of the blocks that it has
committed to both the store and the tree, beginning with the block that it was
started with.  What a tick does is said once, as a relation, and every invariant
is read off that.
-/

namespace Ciphera.Node

open Ciphera.Lib Ciphera.Noir Ciphera.Smirk Ciphera.Zk

namespace NodeShared

variable {Key S : Type} (poseidon : Poseidon) (keccak : Keccak) (verify : Verify)
  (secp : Secp256k1 Key) (tempNoir : Bool)

/-- The blocks that the loop of `commitCached` commits, in their order. -/
def committedCached (commitTime : Nat) : Nat → NodeShared Key S → List Block
  | 0, _ => []
  | rounds + 1, node =>
      match node.blockCache.getNextCommitBlock with
      | none => []
      | some block =>
          match node.validateBlock poseidon keccak verify secp block with
          | .error (.panic _) => []
          | .error (.error _) =>
              committedCached commitTime rounds
                { node with blockCache := node.blockCache.remove (block.hash keccak) }
          | .ok _ =>
              let node :=
                { node with
                  blockCache := node.blockCache.confirm block.content.header.height }
              match node.commitProposal poseidon keccak tempNoir block commitTime with
              | (node, .ok _) => block :: committedCached commitTime rounds node
              | (_, .error _) => []

/-- The blocks that a tick commits. -/
def committedTick (contract : Rollup.Storage) (commitTime : Nat) (node : NodeShared Key S) :
    List Block :=
  match node.isValidatorForHeight secp (nextHeight node.blockCache.height) with
  | .error _ => []
  | .ok true =>
      match (node.propose poseidon keccak verify secp tempNoir contract commitTime).2 with
      | .ok (some block) => [block]
      | .ok none => []
      | .error _ => []
  | .ok false =>
      committedCached poseidon keccak verify secp tempNoir commitTime
        (node.blockCache.blocks.size + 1) node

/-! ## What a tick does -/

/-- The loop of a node that does not propose, up to any of its rounds, with the
blocks committed so far.  A commit that fails ends the loop after the block has
been confirmed. -/
inductive CatchUp (commitTime : Nat) :
    NodeShared Key S → List Block → NodeShared Key S → Prop
  | stop {node : NodeShared Key S} : CatchUp commitTime node [] node
  | drop {node next : NodeShared Key S} {block : Block} {blocks : List Block} {error : Error} :
      node.blockCache.getNextCommitBlock = some block →
      node.validateBlock poseidon keccak verify secp block = .error (.error error) →
      CatchUp commitTime { node with blockCache := node.blockCache.remove (block.hash keccak) }
        blocks next →
      CatchUp commitTime node blocks next
  | commit {node middle next : NodeShared Key S} {block : Block} {blocks : List Block} :
      node.blockCache.getNextCommitBlock = some block →
      node.validateBlock poseidon keccak verify secp block = .ok () →
      commitProposal poseidon keccak tempNoir
        { node with blockCache := node.blockCache.confirm block.content.header.height }
        block commitTime = (middle, .ok ()) →
      CatchUp commitTime middle blocks next →
      CatchUp commitTime node (block :: blocks) next
  | fail {node next : NodeShared Key S} {block : Block} {stop : Stop Error} :
      node.blockCache.getNextCommitBlock = some block →
      node.validateBlock poseidon keccak verify secp block = .ok () →
      commitProposal poseidon keccak tempNoir
        { node with blockCache := node.blockCache.confirm block.content.header.height }
        block commitTime = (next, .error stop) →
      CatchUp commitTime node [] next

/-- The part of the configuration that decides who leads and what is checked. -/
structure SameConfig (node next : NodeShared Key S) : Prop where
  mode : next.mode = node.mode
  signerAddress : next.signerAddress = node.signerAddress
  validatorSets : next.validatorSets = node.validatorSets
  badBlocks : next.badBlocks = node.badBlocks

/-- What becomes of a proposal: it comes to nothing and leaves the cache and the
tree alone, or it is committed to the chain and then confirmed. -/
inductive Attempt (commitTime height : Nat) (node : NodeShared Key S) :
    NodeShared Key S × Result Block → Prop
  | failed {next : NodeShared Key S} {stop : Stop Error} :
      SameConfig node next → next.blockCache = node.blockCache →
      next.chain.notesTree = node.chain.notesTree →
      Attempt commitTime height node (next, .error stop)
  | made {next : NodeShared Key S} {block : Block} :
      SameConfig node next → block.content.header.height = height →
      node.chain.commitProposal poseidon keccak tempNoir block commitTime = (next.chain, .ok ()) →
      next.blockCache =
        (node.blockCache.insert keccak block).confirm block.content.header.height →
      Attempt commitTime height node (next, .ok block)

/-- What a tick can do: leave the cache and the tree alone, propose and commit a
block, or commit received blocks. -/
inductive Ticked (commitTime : Nat) (node : NodeShared Key S) :
    List Block → NodeShared Key S → Prop
  | idle {next : NodeShared Key S} :
      SameConfig node next → next.blockCache = node.blockCache →
      next.chain.notesTree = node.chain.notesTree →
      Ticked commitTime node [] next
  | proposed {next : NodeShared Key S} {block : Block} :
      SameConfig node next → node.mode = .validator →
      node.isValidatorForHeight secp (nextHeight node.blockCache.height) = .ok true →
      block.content.header.height = nextHeight node.blockCache.height →
      node.chain.commitProposal poseidon keccak tempNoir block commitTime = (next.chain, .ok ()) →
      next.blockCache =
        (node.blockCache.insert keccak block).confirm block.content.header.height →
      Ticked commitTime node [block] next
  | caughtUp {next : NodeShared Key S} {blocks : List Block} :
      node.isValidatorForHeight secp (nextHeight node.blockCache.height) = .ok false →
      CatchUp poseidon keccak verify secp tempNoir commitTime node blocks next →
      Ticked commitTime node blocks next

variable {poseidon keccak verify secp tempNoir} {contract : Rollup.Storage} {commitTime : Nat}
  {node middle next : NodeShared Key S} {block : Block} {blocks : List Block}

theorem SameConfig.refl (node : NodeShared Key S) : SameConfig node node := ⟨rfl, rfl, rfl, rfl⟩

theorem SameConfig.trans (first : SameConfig node middle) (second : SameConfig middle next) :
    SameConfig node next where
  mode := second.mode.trans first.mode
  signerAddress := second.signerAddress.trans first.signerAddress
  validatorSets := second.validatorSets.trans first.validatorSets
  badBlocks := second.badBlocks.trans first.badBlocks

/-- A commit, successful or not, leaves the cache and the configuration alone. -/
theorem commitProposal_frame {result : Result Unit}
    (committed : node.commitProposal poseidon keccak tempNoir block commitTime =
      (next, result)) : SameConfig node next ∧ next.blockCache = node.blockCache := by
  unfold commitProposal at committed
  split at committed
  · cases committed
    exact ⟨⟨rfl, rfl, rfl, rfl⟩, rfl⟩
  · cases committed
    exact ⟨⟨rfl, rfl, rfl, rfl⟩, rfl⟩

/-- A commit of the node that succeeds is a commit of its chain. -/
theorem chain_of_commitProposal
    (committed : node.commitProposal poseidon keccak tempNoir block commitTime =
      (next, .ok ())) :
    node.chain.commitProposal poseidon keccak tempNoir block commitTime = (next.chain, .ok ()) := by
  unfold commitProposal at committed
  split at committed
  · rename_i chain done onChain
    cases committed
    exact onChain
  · simp at committed

/-- A commit of the chain is a commit of the node. -/
theorem exists_commitProposal {chain : Chain}
    (committed : node.chain.commitProposal poseidon keccak tempNoir block commitTime =
      (chain, .ok ())) :
    ∃ next, node.commitProposal poseidon keccak tempNoir block commitTime = (next, .ok ()) ∧
      next.chain = chain := by
  rw [commitProposal, committed]
  exact ⟨_, rfl, rfl⟩

/-- A commit that fails leaves the tree alone. -/
theorem notesTree_of_commitProposal {stop : Stop Error}
    (failed : node.commitProposal poseidon keccak tempNoir block commitTime =
      (next, .error stop)) : next.chain.notesTree = node.chain.notesTree := by
  unfold commitProposal at failed
  split at failed
  · simp at failed
  · rename_i chain reason onChain
    cases failed
    unfold Chain.commitProposal at onChain
    split_ifs at onChain with missing
    · cases onChain
      rfl
    · split at onChain
      · simp at onChain
      · cases onChain
        rfl

/-- Outside the bad blocks, validation means a leader's signature and valid content. -/
theorem validateBlock_eq_ok (good : ¬node.badBlocks.contains block.content.header.height = true)
    (validated : node.validateBlock poseidon keccak verify secp block = .ok ()) :
    (∃ validator, node.getLeaderForBlockHeight block.content.header.height = .ok validator ∧
        block.signature.verify keccak secp (block.hash keccak) = .ok (some validator)) ∧
      BlockValid poseidon verify node.chain.store node.chain.notesTree block.content := by
  unfold validateBlock at validated
  rw [if_neg good] at validated
  simp only [bind_eq_ok_iff, orPanic_eq_ok_iff, check_eq_ok_iff] at validated
  rcases validated with ⟨validator, leads, signedBy, signed, _, isLeader, valid⟩
  subst isLeader
  exact ⟨⟨validator, leads, signed⟩, validate_eq_ok_iff.mp valid⟩

/-- Only a node in validator mode is a validator. -/
theorem mode_of_isValidator {height : Nat}
    (leads : node.isValidatorForHeight secp height = .ok true) : node.mode = .validator := by
  unfold isValidatorForHeight at leads
  split_ifs at leads with other
  · cases pure_eq_ok_iff.mp leads
  · exact not_not.mp other

variable (poseidon keccak verify secp tempNoir) in
theorem catchUp_commitCached (commitTime rounds : Nat) (node : NodeShared Key S) :
    CatchUp poseidon keccak verify secp tempNoir commitTime node
      (committedCached poseidon keccak verify secp tempNoir commitTime rounds node)
      (commitCached poseidon keccak verify secp tempNoir commitTime rounds node).1 := by
  induction rounds generalizing node with
  | zero => exact .stop
  | succ rounds ih =>
      unfold committedCached commitCached
      cases nextBlock : node.blockCache.getNextCommitBlock with
      | none => exact .stop
      | some block =>
          dsimp only
          cases validated : node.validateBlock poseidon keccak verify secp block with
          | error stop =>
              cases stop with
              | panic message => exact .stop
              | error error => exact .drop nextBlock validated (ih _)
          | ok done =>
              dsimp only
              cases committed : commitProposal poseidon keccak tempNoir
                  { node with
                    blockCache := node.blockCache.confirm block.content.header.height }
                  block commitTime with
              | mk middle result =>
                  cases result with
                  | ok done => exact .commit nextBlock validated committed (ih middle)
                  | error stop =>
                      cases stop with
                      | error error => exact .fail nextBlock validated committed
                      | panic message => exact .fail nextBlock validated committed

/-- Leasing transactions is no part of what a proposal does. -/
theorem Attempt.of_leased {height : Nat} {mempool : NodeMempool S}
    {result : NodeShared Key S × Result Block}
    (attempt : Attempt poseidon keccak tempNoir commitTime height { node with mempool } result) :
    Attempt poseidon keccak tempNoir commitTime height node result := by
  cases attempt with
  | failed config cache tree =>
      exact .failed ⟨config.mode, config.signerAddress, config.validatorSets, config.badBlocks⟩
        cache tree
  | made config sameHeight committed cache =>
      exact .made ⟨config.mode, config.signerAddress, config.validatorSets, config.badBlocks⟩
        sameHeight committed cache

theorem attempt_finishProposal {result : NodeShared Key S × Result Block}
    (finished : node.finishProposal poseidon keccak verify secp tempNoir block commitTime =
      result) :
    Attempt poseidon keccak tempNoir commitTime block.content.header.height node result := by
  subst finished
  unfold finishProposal
  cases validated : node.validateBlock poseidon keccak verify secp block with
  | error stop =>
      cases stop with
      | panic message => exact .failed (.refl node) rfl rfl
      | error error => exact .failed ⟨rfl, rfl, rfl, rfl⟩ rfl rfl
  | ok done =>
      dsimp only
      cases committed : node.commitProposal poseidon keccak tempNoir block commitTime with
      | mk after result =>
          rcases commitProposal_frame committed with ⟨config, cache⟩
          cases result with
          | error stop => exact .failed config cache (notesTree_of_commitProposal committed)
          | ok done =>
              have onChain := chain_of_commitProposal committed
              exact .made ⟨config.mode, config.signerAddress, config.validatorSets,
                config.badBlocks⟩ rfl onChain (by rw [cache])

theorem attempt_createProposal {lastBlockHash : CryptoHash} {height : Nat}
    {accepts : List ApprovalValidated} {result : NodeShared Key S × Result Block}
    (created : node.createProposal poseidon keccak verify secp tempNoir contract commitTime
      lastBlockHash height accepts = result) :
    Attempt poseidon keccak tempNoir commitTime height node result := by
  unfold createProposal at created
  split at created
  · subst created
    exact .failed (.refl node) rfl rfl
  · dsimp only at created
    split at created
    · subst created
      exact .failed ⟨rfl, rfl, rfl, rfl⟩ rfl rfl
    · subst created
      exact .failed ⟨rfl, rfl, rfl, rfl⟩ rfl rfl
    · split at created
      · subst created
        exact .failed ⟨rfl, rfl, rfl, rfl⟩ rfl rfl
      · have attempt := attempt_finishProposal created
        exact attempt.of_leased

/-- A tick does one of the three things. -/
theorem ticked_tick (node : NodeShared Key S) (contract : Rollup.Storage) (commitTime : Nat) :
    Ticked poseidon keccak verify secp tempNoir commitTime node
      (node.committedTick poseidon keccak verify secp tempNoir contract commitTime)
      (node.tick poseidon keccak verify secp tempNoir contract commitTime).1 := by
  unfold committedTick tick
  cases leads : node.isValidatorForHeight secp (nextHeight node.blockCache.height) with
  | error stop => exact .idle (.refl node) rfl rfl
  | ok isValidator =>
      cases isValidator with
      | true =>
          dsimp only
          cases hashed : node.blockCache.hash with
          | error message =>
              have panics : node.propose poseidon keccak verify secp tempNoir contract
                  commitTime = (node, .error (.panic message)) := by
                rw [propose, hashed]
                rfl
              rw [panics]
              exact .idle (.refl node) rfl rfl
          | ok lastConfirmed =>
              rw [propose_eq_logged hashed]
              generalize created : node.createProposal poseidon keccak verify secp tempNoir
                contract commitTime lastConfirmed (nextHeight node.blockCache.height) _ = result
              cases attempt_createProposal created with
              | @failed next stop config cache tree =>
                  cases stop with
                  | error error => exact .idle config cache tree
                  | panic message => exact .idle config cache tree
              | made config sameHeight committed cache =>
                  exact .proposed config (mode_of_isValidator leads) leads sameHeight committed
                    cache
      | false =>
          dsimp only
          have loop := catchUp_commitCached poseidon keccak verify secp tempNoir commitTime
            (node.blockCache.blocks.size + 1) node
          split
          · rename_i after stop loopEq
            rw [loopEq] at loop
            exact .caughtUp leads loop
          · rename_i after loopEq
            rw [loopEq] at loop
            exact .caughtUp leads loop
          · rename_i after loopEq
            rw [loopEq] at loop
            split
            · exact .caughtUp leads loop
            · exact .caughtUp leads loop

/-! ## The loop, round by round -/

section Rounds

variable (rounds : Nat)

/-- A valid block that commits ends a round. -/
theorem commitCached_commit (nextBlock : node.blockCache.getNextCommitBlock = some block)
    (validated : node.validateBlock poseidon keccak verify secp block = .ok ())
    (committed : commitProposal poseidon keccak tempNoir
      { node with blockCache := node.blockCache.confirm block.content.header.height }
      block commitTime = (next, .ok ())) :
    commitCached poseidon keccak verify secp tempNoir commitTime (rounds + 1) node =
        commitCached poseidon keccak verify secp tempNoir commitTime rounds next ∧
      committedCached poseidon keccak verify secp tempNoir commitTime (rounds + 1) node =
        block :: committedCached poseidon keccak verify secp tempNoir commitTime rounds next := by
  constructor
  · simp only [commitCached, nextBlock, validated, committed]
  · simp only [committedCached, nextBlock, validated, committed]

/-- One that fails to ends the loop. -/
theorem commitCached_fail {stop : Stop Error}
    (nextBlock : node.blockCache.getNextCommitBlock = some block)
    (validated : node.validateBlock poseidon keccak verify secp block = .ok ())
    (failed : commitProposal poseidon keccak tempNoir
      { node with blockCache := node.blockCache.confirm block.content.header.height }
      block commitTime = (next, .error stop)) :
    (commitCached poseidon keccak verify secp tempNoir commitTime (rounds + 1) node).1 = next ∧
      committedCached poseidon keccak verify secp tempNoir commitTime (rounds + 1) node = [] := by
  constructor
  · simp only [commitCached, nextBlock, validated, failed]
    cases stop <;> rfl
  · simp only [committedCached, nextBlock, validated, failed]

/-- Without a next block the loop is over. -/
theorem commitCached_done (nothing : node.blockCache.getNextCommitBlock = none) :
    commitCached poseidon keccak verify secp tempNoir commitTime rounds node = (node, .ok true) ∧
      committedCached poseidon keccak verify secp tempNoir commitTime rounds node = [] := by
  cases rounds with
  | zero => exact ⟨rfl, rfl⟩
  | succ rounds =>
      constructor
      · simp only [commitCached, nothing]
      · simp only [committedCached, nothing]

variable (poseidon keccak verify secp tempNoir contract commitTime) in
/-- The tick of a node that is no validator is the loop. -/
theorem tick_of_follower (mode : node.mode ≠ .validator) :
    (node.tick poseidon keccak verify secp tempNoir contract commitTime).1 =
        (commitCached poseidon keccak verify secp tempNoir commitTime
          (node.blockCache.blocks.size + 1) node).1 ∧
      node.committedTick poseidon keccak verify secp tempNoir contract commitTime =
        committedCached poseidon keccak verify secp tempNoir commitTime
          (node.blockCache.blocks.size + 1) node := by
  have follows : node.isValidatorForHeight secp (nextHeight node.blockCache.height) =
      .ok false := if_pos mode
  constructor
  · rw [tick, follows]
    dsimp only
    split
    · rename_i loopEq
      rw [loopEq]
    · rename_i loopEq
      rw [loopEq]
    · rename_i loopEq
      rw [loopEq]
      split <;> rfl
  · rw [committedTick, follows]

end Rounds

theorem CatchUp.sameConfig
    (loop : CatchUp poseidon keccak verify secp tempNoir commitTime node blocks next) :
    SameConfig node next := by
  induction loop with
  | stop => exact .refl _
  | drop _ _ _ ih => exact ⟨ih.mode, ih.signerAddress, ih.validatorSets, ih.badBlocks⟩
  | commit _ _ committed _ ih =>
      have config := (commitProposal_frame committed).1
      exact SameConfig.trans
        ⟨config.mode, config.signerAddress, config.validatorSets, config.badBlocks⟩ ih
  | fail _ _ failed =>
      have config := (commitProposal_frame failed).1
      exact ⟨config.mode, config.signerAddress, config.validatorSets, config.badBlocks⟩

theorem Ticked.sameConfig
    (ticked : Ticked poseidon keccak verify secp tempNoir commitTime node blocks next) :
    SameConfig node next := by
  cases ticked with
  | idle config _ _ => exact config
  | proposed config _ _ _ _ _ => exact config
  | caughtUp _ loop => exact loop.sameConfig

end NodeShared

/-! ## Runs -/

/-- A node with the blocks that it has committed, the first of which is the block
that it was started with. -/
structure Replica (Key S : Type) where
  node : NodeShared Key S
  committed : List Block

namespace Replica

/-- What happens to a node between two starts. -/
inductive Event (S : Type)
  | submit (contract : Rollup.Storage) (utxo : UtxoProof) (sender : S)
  | gossip (contract : Rollup.Storage) (txn : UtxoProof)
  | receive (block : Block)
  | tick (contract : Rollup.Storage) (commitTime : Nat)
  | snapshot (chunk : SnapshotChunkFast)

variable {Key S : Type} (poseidon : Poseidon) (keccak : Keccak) (verify : Verify)
  (secp : Secp256k1 Key) (tempNoir : Bool)

/-- A node starts on what its databases hold, with room for ten thousand blocks. -/
def start (config : NodeShared Key S) (loaded : LoadedData) : Replica Key S where
  node :=
    { config with
      mempool := {}
      blockCache := BlockCache.new keccak loaded.block 10000
      chain := ⟨loaded.blockStore, loaded.persistentTree⟩ }
  committed := [loaded.block]

/-- The mempool after a transaction has come, which a refused one leaves alone. -/
def keep (replica : Replica Key S) : Result (NodeMempool S) → Replica Key S
  | .ok mempool => { replica with node := { replica.node with mempool } }
  | .error _ => replica

/-- The effect of an event.  Only ticks commit blocks. -/
def step (replica : Replica Key S) : Event S → Replica Key S
  | .submit contract utxo sender =>
      replica.keep (submitTransaction poseidon verify contract replica.node.chain.store
        replica.node.chain.notesTree replica.node.mempool utxo sender)
  | .gossip contract txn =>
      replica.keep (receiveTransaction poseidon verify contract replica.node.chain.store
        replica.node.chain.notesTree replica.node.mempool txn)
  | .receive block =>
      { replica with node := (replica.node.receiveProposal poseidon keccak block).1 }
  | .tick contract commitTime =>
      { node := (replica.node.tick poseidon keccak verify secp tempNoir contract commitTime).1
        committed := replica.committed ++
          replica.node.committedTick poseidon keccak verify secp tempNoir contract commitTime }
  | .snapshot chunk =>
      { replica with
        node := (replica.node.handleSnapshotChunkFast poseidon keccak tempNoir chunk).1 }

/-- The node after a sequence of events. -/
def run (replica : Replica Key S) (events : List (Event S)) : Replica Key S :=
  events.foldl (step poseidon keccak verify secp tempNoir) replica

variable {poseidon keccak verify secp tempNoir} {replica : Replica Key S}

@[simp]
theorem run_snoc (events : List (Event S)) (event : Event S) :
    replica.run poseidon keccak verify secp tempNoir (events ++ [event]) =
      (replica.run poseidon keccak verify secp tempNoir events).step poseidon keccak verify secp
        tempNoir event :=
  List.foldl_concat ..

/-- A property of the node and its past events that every event keeps holds after
every sequence of events. -/
theorem run_invariant {motive : List (Event S) → Replica Key S → Prop} (initial : motive [] replica)
    {events : List (Event S)}
    (kept : ∀ earlier event, earlier ++ [event] <+: events →
      motive earlier (replica.run poseidon keccak verify secp tempNoir earlier) →
      motive (earlier ++ [event]) ((replica.run poseidon keccak verify secp tempNoir earlier).step
        poseidon keccak verify secp tempNoir event)) :
    motive events (replica.run poseidon keccak verify secp tempNoir events) := by
  induction events using List.reverseRecOn with
  | nil => exact initial
  | append_singleton events event ih =>
      rw [run_snoc]
      apply kept events event (List.prefix_refl _)
      exact ih fun earlier last isPrefix =>
        kept earlier last (isPrefix.trans (List.prefix_append _ _))

/-! ## A follower at the start of the chain -/

/-- A curve with the key of a leader and that of a follower, whose signatures carry
the address and the digest. -/
def peers : Secp256k1 Bool where
  address isLeader := if isLeader then 1 else 2
  signEcdsaRecoverable isLeader digest := ⟨if isLeader then 1 else 2, digest, 0⟩
  fromCompact _ := true
  recoverEcdsa digest signature :=
    if signature.s = digest then some (signature.r.setWidth 160) else none

theorem lawful_peers : peers.Lawful where
  recoveryId key digest := Nat.zero_le 3
  compact key digest := rfl
  recovers key digest := by cases key <;> exact if_pos rfl

/-- A digest that reads the height of a block. -/
def heightDigest : Keccak := fun bytes => BitVec.ofNat 256 (bytes.getD 63 0).toNat

@[simp]
theorem hash_heightDigest (block : Block) :
    block.hash heightDigest = BitVec.ofNat 256 (block.content.header.height % 256) := by
  have lastByte : ∀ number, (beBytes 32 number)[31]? = some (BitVec.ofNat 8 number) := by
    intro number
    simp [beBytes]
  simp only [Block.hash, BlockContent.hash, heightDigest, List.getD_eq_getElem?_getD]
  rw [List.getElem?_append_left (by simp [length_beBytes]),
    List.getElem?_append_right (by simp [length_beBytes]), length_beBytes, lastByte]
  simp

/-- What a fresh node starts from. -/
def genesisData : LoadedData := ⟨{}, emptyTree, .genesis⟩

@[simp]
theorem loadDbAndSmirk_genesis (poseidon : Poseidon) (tempNoir : Bool) :
    loadDbAndSmirk poseidon tempNoir Chain.genesis = .ok genesisData :=
  rfl

/-- A node that follows the leader and has committed nothing. -/
def follower : Replica Bool Unit :=
  start heightDigest
    { localPeer := false
      signerAddress := 1
      validatorSets := []
      mode := .node
      blockTxnsCount := 6
      badBlocks := []
      mempool := {}
      blockCache := BlockCache.new heightDigest .genesis 10000
      chain := Chain.genesis }
    genesisData

/-- A block signed by the leader. -/
def signedBlock (content : BlockContent) : Block := content.toBlock heightDigest peers true

/-- The follower knows who leads. -/
theorem validateBlock_signedBlock {poseidon : Poseidon} {verify : Verify}
    {node : NodeShared Bool Unit} {content : BlockContent}
    (config : NodeShared.SameConfig follower.node node)
    (valid : BlockValid poseidon verify node.chain.store node.chain.notesTree content) :
    node.validateBlock poseidon heightDigest verify peers (signedBlock content) = .ok () := by
  have leads : node.getLeaderForBlockHeight content.header.height = .ok 1 := by
    rw [NodeShared.getLeaderForBlockHeight, NodeShared.validatorsForHeight, config.signerAddress,
      config.validatorSets]
    change orPanic (leaderAmong [1] content.header.height) = .ok 1
    rw [leaderAmong, List.length_singleton, Nat.mod_one]
    rfl
  exact NodeShared.validateBlock_of_signed leads
    (verify_sign lawful_peers true (content.hash heightDigest)) valid

/-- The follower after it has been sent two blocks. -/
def following (poseidon : Poseidon) (first second : BlockContent) : NodeShared Bool Unit :=
  (follower.run poseidon heightDigest (fun _ => true) peers false
    [.receive (signedBlock first), .receive (signedBlock second)]).node

section Following

variable {first second : BlockContent} (firstHeight : first.header.height = 1)
  (secondHeight : second.header.height = 2)

include firstHeight secondHeight

theorem maps_following (poseidon : Poseidon) :
    (following poseidon first second).blockCache.blocks =
        (((∅ : Std.TreeMap CryptoHash Block).insert 0 .genesis).insert 1
          (signedBlock first)).insert 2 (signedBlock second) ∧
      (following poseidon first second).blockCache.blockHashHeights =
        (((∅ : Std.TreeMap Nat CryptoHash).insert 0 0).insert 1 1).insert 2 2 := by
  let start := BlockCache.new heightDigest .genesis 10000
  let once := start.insert heightDigest (signedBlock first)
  have genesisHash : Block.genesis.hash heightDigest = 0 := hash_heightDigest _
  have firstHash : (signedBlock first).hash heightDigest = 1 := by
    rw [hash_heightDigest]
    exact congrArg (fun height => BitVec.ofNat 256 (height % 256)) firstHeight
  have secondHash : (signedBlock second).hash heightDigest = 2 := by
    rw [hash_heightDigest]
    exact congrArg (fun height => BitVec.ofNat 256 (height % 256)) secondHeight
  have startMaps := BlockCache.maps_new heightDigest .genesis (show 0 < 10000 by decide)
  have startSize : start.blocks.size ≤ 1 := by
    rw [startMaps.1]
    exact Std.TreeMap.size_insert_le
  have startRoom : ¬start.Full := by
    rw [BlockCache.Full, BlockCache.maxCacheSize_new]
    exact Nat.not_le_of_gt (Nat.lt_of_le_of_lt startSize (by decide))
  have onceMaps := BlockCache.insert_of_room heightDigest startRoom
    (show start.height ≤ (signedBlock first).content.header.height from Nat.zero_le _)
  have onceSize : once.blocks.size ≤ 2 := by
    rw [onceMaps.1]
    exact Std.TreeMap.size_insert_le.trans (Nat.succ_le_succ startSize)
  have onceRoom : ¬once.Full := by
    rw [BlockCache.Full, BlockCache.maxCacheSize_insert, BlockCache.maxCacheSize_new]
    exact Nat.not_le_of_gt (Nat.lt_of_le_of_lt onceSize (by decide))
  have twiceMaps := BlockCache.insert_of_room heightDigest onceRoom
    (show once.height ≤ (signedBlock second).content.header.height from Nat.zero_le _)
  constructor
  · calc (following poseidon first second).blockCache.blocks
        = once.blocks.insert ((signedBlock second).hash heightDigest) (signedBlock second) :=
          twiceMaps.1
      _ = _ := by rw [secondHash, onceMaps.1, firstHash, startMaps.1, genesisHash]
  · calc (following poseidon first second).blockCache.blockHashHeights
        = once.blockHashHeights.insert second.header.height
            ((signedBlock second).hash heightDigest) := twiceMaps.2
      _ = (start.blockHashHeights.insert first.header.height
            ((signedBlock first).hash heightDigest)).insert second.header.height
              ((signedBlock second).hash heightDigest) := by rw [onceMaps.2]; rfl
      _ = _ := by rw [secondHash, firstHash, startMaps.2, genesisHash, firstHeight, secondHeight]; rfl

/-- It comes to the first block and then to the second one. -/
theorem next_following (poseidon : Poseidon) :
    (following poseidon first second).blockCache.getNextCommitBlock = some (signedBlock first) ∧
      ((following poseidon first second).blockCache.confirm 1).getNextCommitBlock =
        some (signedBlock second) ∧
      (((following poseidon first second).blockCache.confirm 1).confirm 2).getNextCommitBlock =
        none := by
  rcases maps_following firstHeight secondHeight poseidon with ⟨blocks, heights⟩
  have height : (following poseidon first second).blockCache.height = 0 :=
    (BlockCache.height_insert heightDigest _ (signedBlock second)).trans
      ((BlockCache.height_insert heightDigest _ (signedBlock first)).trans
        (BlockCache.height_new heightDigest .genesis 10000))
  refine ⟨?_, ?_, ?_⟩
  · rw [BlockCache.getNextCommitBlock_eq_some_iff]
    refine ⟨1, ?_, ?_⟩
    · rw [height, heights]
      decide
    · rw [blocks, getElem?_insert_eq, getElem?_insert_eq, if_neg (by decide), if_pos rfl]
  · rw [BlockCache.getNextCommitBlock_eq_some_iff]
    refine ⟨2, ?_, BlockCache.blocks_confirm.mpr ⟨?_, ?_⟩⟩
    · rw [BlockCache.height_confirm, BlockCache.heights_confirm, heights]
      decide
    · rw [blocks]
      simp
    · intro below isBelow
      obtain rfl := Nat.lt_one_iff.mp isBelow
      rw [heights]
      decide
  · have absent : (following poseidon first second).blockCache.blockHashHeights[3]? = none := by
      rw [heights]
      decide
    rw [BlockCache.getNextCommitBlock, BlockCache.getByHeight, BlockCache.height_confirm,
      BlockCache.heights_confirm, BlockCache.heights_confirm, absent]
    rfl

/-- When the first block commits, the tick goes on to the second one. -/
theorem exists_tick_following {poseidon : Poseidon} {chain : Chain} {commitTime : Nat}
    (contract : Rollup.Storage)
    (valid : BlockValid poseidon (fun _ => true) Chain.genesis.store Chain.genesis.notesTree first)
    (committed : Chain.genesis.commitProposal poseidon heightDigest false (signedBlock first)
      commitTime = (chain, .ok ())) :
    ∃ rounds middle, NodeShared.SameConfig follower.node middle ∧ middle.chain = chain ∧
      middle.blockCache = (following poseidon first second).blockCache.confirm 1 ∧
      ((following poseidon first second).tick poseidon heightDigest (fun _ => true) peers false
          contract commitTime).1 =
        (NodeShared.commitCached poseidon heightDigest (fun _ => true) peers false commitTime
          (rounds + 1) middle).1 ∧
      (following poseidon first second).committedTick poseidon heightDigest (fun _ => true) peers
          false contract commitTime =
        signedBlock first :: NodeShared.committedCached poseidon heightDigest (fun _ => true) peers
          false commitTime (rounds + 1) middle := by
  have config : NodeShared.SameConfig follower.node (following poseidon first second) :=
    ⟨rfl, rfl, rfl, rfl⟩
  have nonempty : (following poseidon first second).blockCache.blocks.size ≠ 0 := by
    rw [(maps_following firstHeight secondHeight poseidon).1]
    intro none
    have empty := Std.TreeMap.isEmpty_eq_size_eq_zero.trans (decide_eq_true none)
    simp at empty
  rcases Nat.exists_eq_succ_of_ne_zero nonempty with ⟨rounds, size⟩
  let confirmed : NodeShared Bool Unit :=
    { following poseidon first second with
      blockCache := (following poseidon first second).blockCache.confirm first.header.height }
  have committed : confirmed.chain.commitProposal poseidon heightDigest false (signedBlock first)
      commitTime = (chain, .ok ()) := committed
  rcases NodeShared.exists_commitProposal committed with ⟨middle, done, middleChain⟩
  rcases NodeShared.commitProposal_frame done with ⟨sameConfig, cache⟩
  have round := NodeShared.commitCached_commit (rounds + 1)
    (next_following firstHeight secondHeight poseidon).1
    (validateBlock_signedBlock config valid) done
  have mode : (following poseidon first second).mode ≠ .validator := nofun
  have loop := NodeShared.tick_of_follower poseidon heightDigest (fun _ => true) peers false
    contract commitTime mode
  rw [size] at loop
  refine ⟨rounds, middle, config.trans ⟨sameConfig.mode, sameConfig.signerAddress,
    sameConfig.validatorSets, sameConfig.badBlocks⟩, middleChain, ?_, ?_, ?_⟩
  · rw [cache]
    dsimp only [confirmed]
    rw [firstHeight]
  · rw [loop.1, round.1]
  · rw [loop.2, round.2]

end Following

end Replica

end Ciphera.Node
