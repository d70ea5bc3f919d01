import Ciphera.Node.Replica

/-!
# Links between committed blocks

A header names the hash of the block before it, and nobody reads it: a follower
checks the leader's signature and the content of a block, and commits whatever
valid block it has at the next height.  The blocks that it commits are linked
because those that the leader has signed are, and for no other reason.
-/

namespace Ciphera.Node

open Ciphera.Lib Ciphera.Noir Ciphera.Smirk Ciphera.Zk

namespace NodeShared

variable {Key S : Type}

/-- The signature of the block is the leader's, or nobody asks. -/
def Accepted (keccak : Keccak) (secp : Secp256k1 Key) (node : NodeShared Key S) (block : Block) :
    Prop :=
  node.badBlocks.contains block.content.header.height = true ∨
    ∃ validator, node.getLeaderForBlockHeight block.content.header.height = .ok validator ∧
      block.signature.verify keccak secp (block.hash keccak) = .ok (some validator)

variable {poseidon : Poseidon} {keccak : Keccak} {verify : Verify} {secp : Secp256k1 Key}
  {tempNoir : Bool} {node next : NodeShared Key S} {block : Block} {commitTime : Nat}
  {blocks : List Block}

theorem SameConfig.accepted_iff (config : SameConfig node next) :
    next.Accepted keccak secp block ↔ node.Accepted keccak secp block := by
  unfold Accepted getLeaderForBlockHeight validatorsForHeight
  rw [config.signerAddress, config.validatorSets, config.badBlocks]

theorem accepted_of_validateBlock
    (validated : node.validateBlock poseidon keccak verify secp block = .ok ()) :
    node.Accepted keccak secp block := by
  by_cases bad : node.badBlocks.contains block.content.header.height = true
  · exact .inl bad
  · exact .inr (validateBlock_eq_ok bad validated).1

/-- The loop commits cached blocks with the leader's signature, and caches nothing. -/
theorem CatchUp.committed_cached
    (loop : CatchUp poseidon keccak verify secp tempNoir commitTime node blocks next) :
    next.blockCache.Within node.blockCache ∧
      ∀ block ∈ blocks, (∃ hash : CryptoHash, node.blockCache.blocks[hash]? = some block) ∧
        node.Accepted keccak secp block := by
  induction loop with
  | stop => exact ⟨.refl _, fun block mem => absurd mem List.not_mem_nil⟩
  | @drop node next block blocks error nextBlock validated rest ih =>
      rcases ih with ⟨within, committed⟩
      have removed := BlockCache.within_remove node.blockCache (block.hash keccak)
      constructor
      · exact within.trans removed
      · intro other mem
        rcases committed other mem with ⟨⟨hash, found⟩, accepted⟩
        exact ⟨⟨hash, removed.blocks found⟩, accepted⟩
  | @commit node middle next block blocks nextBlock validated done rest ih =>
      rcases ih with ⟨within, committed⟩
      rcases commitProposal_frame done with ⟨config, cache⟩
      have confirmed := BlockCache.within_confirm node.blockCache block.content.header.height
      rw [cache] at within committed
      have sameConfig : SameConfig node middle :=
        ⟨config.mode, config.signerAddress, config.validatorSets, config.badBlocks⟩
      constructor
      · exact within.trans confirmed
      · intro other mem
        rcases List.mem_cons.mp mem with rfl | later
        · rcases BlockCache.getNextCommitBlock_eq_some_iff.mp nextBlock with ⟨hash, _, found⟩
          exact ⟨⟨hash, found⟩, accepted_of_validateBlock validated⟩
        · rcases committed other later with ⟨⟨hash, found⟩, accepted⟩
          exact ⟨⟨hash, confirmed.blocks found⟩, sameConfig.accepted_iff.mp accepted⟩
  | @fail node next block stop nextBlock validated failed =>
      have cache := (commitProposal_frame failed).2
      rw [cache]
      exact ⟨BlockCache.within_confirm _ _, fun block mem => absurd mem List.not_mem_nil⟩

end NodeShared

namespace Replica

/-- The block that comes with an event. -/
def Event.block {S : Type} : Event S → Option Block
  | .submit _ _ _ => none
  | .gossip _ _ => none
  | .receive block => some block
  | .tick _ _ => none
  | .snapshot chunk => chunk.block

/-- The blocks that a node has been sent. -/
def received {S : Type} (events : List (Event S)) : List Block := events.filterMap Event.block

/-- Of two blocks of consecutive heights the later one names the earlier one. -/
def Links (keccak : Keccak) (earlier later : Block) : Prop :=
  later.content.header.height = earlier.content.header.height + 1 →
    later.content.header.lastBlockHash = earlier.hash keccak

variable {Key S : Type} {poseidon : Poseidon} {keccak : Keccak} {verify : Verify}
  {secp : Secp256k1 Key} {tempNoir : Bool}

/-- The block that the node was started with, or one that it was sent with the
leader's signature. -/
def Known (keccak : Keccak) (secp : Secp256k1 Key) (config : NodeShared Key S) (startBlock : Block)
    (events : List (Event S)) (block : Block) : Prop :=
  block = startBlock ∨ block ∈ received events ∧ config.Accepted keccak secp block

/-- Where the blocks of a node that is no validator come from. -/
structure Fed (keccak : Keccak) (secp : Secp256k1 Key) (config : NodeShared Key S)
    (startBlock : Block) (events : List (Event S)) (replica : Replica Key S) : Prop where
  sameConfig : NodeShared.SameConfig config replica.node
  cached : ∀ (hash : CryptoHash) (block : Block),
    replica.node.blockCache.blocks[hash]? = some block →
      block = startBlock ∨ block ∈ received events
  committed : ∀ block ∈ replica.committed, Known keccak secp config startBlock events block

section Events

variable {config : NodeShared Key S} {startBlock block : Block} {events : List (Event S)}
  {event : Event S} {replica : Replica Key S}

theorem received_grows (sent : block ∈ received events) : block ∈ received (events ++ [event]) := by
  rw [received, List.filterMap_append]
  exact List.mem_append_left _ sent

theorem received_event (carries : event.block = some block) :
    block ∈ received (events ++ [event]) :=
  List.mem_filterMap.mpr ⟨event, by simp, carries⟩

/-- More events make no block unknown. -/
theorem Fed.grows (fed : replica.Fed keccak secp config startBlock events) :
    replica.Fed keccak secp config startBlock (events ++ [event]) where
  sameConfig := fed.sameConfig
  cached hash block found := (fed.cached hash block found).imp_right received_grows
  committed block mem := (fed.committed block mem).imp_right (And.imp_left received_grows)

theorem Fed.receive {node : NodeShared Key S} {committed : List Block}
    (fed : Fed keccak secp config startBlock events ⟨node, committed⟩)
    (sent : block ∈ received events) :
    Fed keccak secp config startBlock events
      ⟨(node.receiveProposal poseidon keccak block).1, committed⟩ := by
  unfold NodeShared.receiveProposal
  split_ifs
  · exact fed
  · refine ⟨⟨fed.1.1, fed.1.2, fed.1.3, fed.1.4⟩, ?_, fed.committed⟩
    intro hash other found
    rcases BlockCache.blocks_of_insert found with rfl | old
    · exact .inr sent
    · exact fed.cached hash other old

theorem Fed.snapshot {node : NodeShared Key S} {committed : List Block}
    {chunk : SnapshotChunkFast}
    (fed : Fed keccak secp config startBlock events ⟨node, committed⟩)
    (sent : ∀ block, chunk.block = some block → block ∈ received events) :
    Fed keccak secp config startBlock events
      ⟨(node.handleSnapshotChunkFast poseidon keccak tempNoir chunk).1, committed⟩ := by
  unfold NodeShared.handleSnapshotChunkFast
  split
  · exact fed
  · rename_i block carried
    split
    · exact fed
    · apply Fed.receive _ (sent block carried)
      refine ⟨⟨fed.1.1, fed.1.2, fed.1.3, fed.1.4⟩, ?_, fed.committed⟩
      intro hash other found
      exact fed.cached hash other ((BlockCache.within_confirm _ _).blocks found)

theorem Fed.tick {next : NodeShared Key S} {blocks : List Block} {commitTime : Nat}
    (mode : config.mode ≠ .validator)
    (fed : replica.Fed keccak secp config startBlock events)
    (ticked : replica.node.Ticked poseidon keccak verify secp tempNoir commitTime blocks next) :
    Fed keccak secp config startBlock events ⟨next, replica.committed ++ blocks⟩ := by
  have sameConfig := fed.sameConfig.trans ticked.sameConfig
  cases ticked with
  | idle _ cache _ =>
      rw [List.append_nil]
      exact ⟨sameConfig, cache ▸ fed.cached, fed.committed⟩
  | proposed _ isValidator _ _ _ _ => exact absurd (fed.sameConfig.mode ▸ isValidator) mode
  | caughtUp _ loop =>
      rcases loop.committed_cached with ⟨within, committed⟩
      refine ⟨sameConfig, fun hash block found => fed.cached hash block (within.blocks found), ?_⟩
      intro block mem
      rcases List.mem_append.mp mem with before | now
      · exact fed.committed block before
      · rcases committed block now with ⟨⟨hash, found⟩, accepted⟩
        exact (fed.cached hash block found).imp_right fun sent =>
          ⟨sent, fed.sameConfig.accepted_iff.mp accepted⟩

/-- Every event leaves a follower with blocks that it has been sent. -/
theorem Fed.step (mode : config.mode ≠ .validator)
    (fed : replica.Fed keccak secp config startBlock events) :
    (replica.step poseidon keccak verify secp tempNoir event).Fed keccak secp config startBlock
      (events ++ [event]) := by
  cases event with
  | submit contract utxo sender =>
      unfold Replica.step keep
      dsimp only
      split
      · exact ⟨⟨fed.1.1, fed.1.2, fed.1.3, fed.1.4⟩, fed.grows.cached, fed.grows.committed⟩
      · exact fed.grows
  | gossip contract txn =>
      unfold Replica.step keep
      dsimp only
      split
      · exact ⟨⟨fed.1.1, fed.1.2, fed.1.3, fed.1.4⟩, fed.grows.cached, fed.grows.committed⟩
      · exact fed.grows
  | receive block => exact fed.grows.receive (received_event rfl)
  | tick contract commitTime =>
      exact fed.grows.tick mode (NodeShared.ticked_tick replica.node contract commitTime)
  | snapshot chunk => exact fed.grows.snapshot fun block carried => received_event carried

end Events

/-- Whatever a follower is sent and in whatever order, the blocks that it commits
are linked if the block it was started with and the blocks with the leader's
signature among those it was sent are. -/
theorem committed_blocks_linked (config : NodeShared Key S) (mode : config.mode ≠ .validator)
    (loaded : LoadedData) (events : List (Event S))
    (links : ∀ earlier later, Known keccak secp config loaded.block events earlier →
      Known keccak secp config loaded.block events later → Links keccak earlier later) :
    ∀ earlier ∈ ((start keccak config loaded).run poseidon keccak verify secp tempNoir
        events).committed,
      ∀ later ∈ ((start keccak config loaded).run poseidon keccak verify secp tempNoir
          events).committed,
        Links keccak earlier later := by
  have fed : ((start keccak config loaded).run poseidon keccak verify secp tempNoir events).Fed
      keccak secp config loaded.block events := by
    apply run_invariant (motive := fun events replica =>
      replica.Fed keccak secp config loaded.block events)
    · refine ⟨⟨rfl, rfl, rfl, rfl⟩, ?_, ?_⟩
      · intro hash block found
        change (BlockCache.new keccak loaded.block 10000).blocks[hash]? = some block at found
        rw [(BlockCache.maps_new keccak loaded.block (by decide)).1, getElem?_insert_eq] at found
        split_ifs at found
        · exact .inl (Option.some.inj found).symm
        · simp at found
      · exact fun block mem => .inl (List.mem_singleton.mp mem)
    · exact fun events event _ before => before.step mode
  intro earlier isEarlier later isLater
  exact links earlier later (fed.committed earlier isEarlier) (fed.committed later isLater)

/-! ## Two empty blocks -/

/-- An empty block of the leader with a name for its predecessor. -/
def emptySigned (height : Nat) (lastBlockHash : CryptoHash) : Block :=
  signedBlock ⟨⟨height, lastBlockHash, 0, lastBlockHash, []⟩,
    ⟨emptyTree.tree.rootHash (merge fun _ => 0), []⟩⟩

/-- The follower is sent two empty blocks and ticks. -/
def twoEmpty (firstNames secondNames : CryptoHash) : List (Event Unit) :=
  [.receive (emptySigned 1 firstNames), .receive (emptySigned 2 secondNames), .tick {} 0]

/-- It commits both, whatever they name. -/
theorem committed_twoEmpty (firstNames secondNames : CryptoHash) :
    (follower.run (fun _ => 0) heightDigest (fun _ => true) peers false
      (twoEmpty firstNames secondNames)).committed =
        [.genesis, emptySigned 1 firstNames, emptySigned 2 secondNames] := by
  rcases Chain.exists_step_empty (fun _ => 0) heightDigest (fun _ => true) false Chain.genesis
    (emptySigned 1 firstNames) 0 rfl rfl with ⟨chain, ⟨validated, committed⟩, sameTree⟩
  rcases Chain.exists_step_empty (fun _ => 0) heightDigest (fun _ => true) false chain
    (emptySigned 2 secondNames) 0 rfl (by rw [sameTree]; rfl) with
      ⟨last, ⟨secondValidated, secondCommitted⟩, _⟩
  have firstHeight : (emptySigned 1 firstNames).content.header.height = 1 := rfl
  have secondHeight : (emptySigned 2 secondNames).content.header.height = 2 := rfl
  rcases exists_tick_following firstHeight secondHeight {} (validate_eq_ok_iff.mp validated) committed with
    ⟨rounds, middle, config, middleChain, middleCache, _, ticks⟩
  have nextBlocks := next_following firstHeight secondHeight fun _ => 0
  have nextBlock : middle.blockCache.getNextCommitBlock = some (emptySigned 2 secondNames) := by
    rw [middleCache]
    exact nextBlocks.2.1
  have middleValid : BlockValid (fun _ => 0) (fun _ => true) middle.chain.store
      middle.chain.notesTree (emptySigned 2 secondNames).content := by
    rw [middleChain]
    exact validate_eq_ok_iff.mp secondValidated
  let confirmed : NodeShared Bool Unit :=
    { middle with blockCache := middle.blockCache.confirm 2 }
  have onChain : confirmed.chain.commitProposal (fun _ => 0) heightDigest false
      (emptySigned 2 secondNames) 0 = (last, .ok ()) := by
    rw [show confirmed.chain = chain from middleChain]
    exact secondCommitted
  rcases NodeShared.exists_commitProposal onChain with ⟨next, done, _⟩
  have finished : next.blockCache.getNextCommitBlock = none := by
    rw [(NodeShared.commitProposal_frame done).2]
    change (middle.blockCache.confirm 2).getNextCommitBlock = none
    rw [middleCache]
    exact nextBlocks.2.2
  rw [(NodeShared.commitCached_commit rounds nextBlock
    (validateBlock_signedBlock config middleValid) done).2,
    (NodeShared.commitCached_done rounds finished).2] at ticks
  exact congrArg ([Block.genesis] ++ ·) ticks

/-- The two blocks are committed and the second names neither the first nor any
other block. -/
theorem unlinked_blocks_committed :
    emptySigned 1 0 ∈ (follower.run (fun _ => 0) heightDigest (fun _ => true) peers false
        (twoEmpty 0 7)).committed ∧
      emptySigned 2 7 ∈ (follower.run (fun _ => 0) heightDigest (fun _ => true) peers false
        (twoEmpty 0 7)).committed ∧
      ¬Links heightDigest (emptySigned 1 0) (emptySigned 2 7) := by
  rw [committed_twoEmpty]
  refine ⟨by simp, by simp, ?_⟩
  intro links
  have named := links rfl
  rw [hash_heightDigest] at named
  exact absurd named (by decide)

/-- Blocks that name their predecessors are linked when they are committed. -/
theorem twoEmpty_linked :
    (∀ earlier later,
        Known heightDigest peers follower.node .genesis (twoEmpty 0 1) earlier →
        Known heightDigest peers follower.node .genesis (twoEmpty 0 1) later →
          Links heightDigest earlier later) ∧
      emptySigned 2 1 ∈ (follower.run (fun _ => 0) heightDigest (fun _ => true) peers false
        (twoEmpty 0 1)).committed ∧
      ∀ earlier ∈ (follower.run (fun _ => 0) heightDigest (fun _ => true) peers false
          (twoEmpty 0 1)).committed,
        ∀ later ∈ (follower.run (fun _ => 0) heightDigest (fun _ => true) peers false
            (twoEmpty 0 1)).committed,
          Links heightDigest earlier later := by
  have links : ∀ earlier later,
      Known heightDigest peers follower.node .genesis (twoEmpty 0 1) earlier →
      Known heightDigest peers follower.node .genesis (twoEmpty 0 1) later →
        Links heightDigest earlier later := by
    have among : ∀ block, Known heightDigest peers follower.node .genesis (twoEmpty 0 1) block →
        block = .genesis ∨ block = emptySigned 1 0 ∨ block = emptySigned 2 1 := by
      rintro block (isStart | ⟨sent, _⟩)
      · exact .inl isStart
      · have sent : block ∈ [emptySigned 1 0, emptySigned 2 1] := sent
        simpa using Or.inr sent
    intro earlier later isEarlier isLater next
    rw [hash_heightDigest]
    rcases among earlier isEarlier with rfl | rfl | rfl <;>
      rcases among later isLater with rfl | rfl | rfl <;>
        first | rfl | exact absurd next (by decide)
  refine ⟨links, ?_, committed_blocks_linked follower.node nofun genesisData _ links⟩
  rw [committed_twoEmpty]
  simp

end Replica

end Ciphera.Node
