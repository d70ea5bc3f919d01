import Ciphera.Node.Replica

/-!
# The confirmed height

The height of the block cache stands for the last block that was committed to
the store and to the tree.  A proposer commits its block and confirms it then.
The loop that commits received blocks does it the other way round, so that a
commit which fails leaves the height one ahead of the chain; and a fast snapshot
confirms the height before its block whatever has become of the snapshot.  As
long as neither happens the two heights agree in every state of the node, and
the cache always knows the hash of its confirmed block.
-/

namespace Ciphera.Node

open Ciphera.Lib Ciphera.Noir Ciphera.Smirk Ciphera.Zk

namespace BlockCache

/-- An entry of the cache leads to no block of another height or hash.  Blocks to
which no entry leads do no harm. -/
structure Labelled (keccak : Keccak) (cache : BlockCache) : Prop where
  named : ∀ {height : Nat} {hash : CryptoHash} {block : Block},
    cache.blockHashHeights[height]? = some hash → cache.blocks[hash]? = some block →
      block.content.header.height = height
  hashed : ∀ {hash : CryptoHash} {block : Block}, cache.blocks[hash]? = some block →
    block.hash keccak = hash

/-- Besides, the cache knows its confirmed block. -/
structure Settled (keccak : Keccak) (cache : BlockCache) : Prop extends
    Labelled keccak cache where
  confirmed : ∃ hash, cache.blockHashHeights[cache.height]? = some hash

/-- No block of another height is known under the hash of this one. -/
def Apart (keccak : Keccak) (cache : BlockCache) (block : Block) : Prop :=
  ∀ height, cache.blockHashHeights[height]? = some (block.hash keccak) →
    height = block.content.header.height

/-- The cache has no block but the confirmed one. -/
structure Alone (cache : BlockCache) : Prop where
  heights : ∀ height ∈ cache.blockHashHeights, height = cache.height
  blocks : ∀ hash ∈ cache.blocks, cache.blockHashHeights[cache.height]? = some hash

variable {keccak : Keccak} {cache smaller : BlockCache} {block : Block} {height : Nat}

theorem Settled.mem (settled : cache.Settled keccak) : cache.height ∈ cache.blockHashHeights := by
  rcases settled.confirmed with ⟨hash, found⟩
  exact (Std.TreeMap.getElem?_eq_some_iff.mp found).fst

/-- A cache that knows its confirmed block can be asked for its hash and for
whether blocks are missing. -/
theorem Settled.answers (settled : cache.Settled keccak) :
    (∃ hash, cache.hash = .ok hash) ∧ ∃ outOfSync, cache.isOutOfSync = .ok outOfSync := by
  rcases settled.confirmed with ⟨hash, found⟩
  rcases Option.isSome_iff_exists.mp (Std.TreeMap.isSome_maxKey?_of_mem settled.mem) with
    ⟨last, greatest⟩
  constructor
  · exact ⟨hash, by simp only [BlockCache.hash, found]⟩
  · exact ⟨_, by simp only [isOutOfSync, greatest]; rfl⟩

theorem Labelled.of_within (labelled : cache.Labelled keccak) (within : smaller.Within cache) :
    smaller.Labelled keccak where
  named entry found := labelled.named (within.heights entry) (within.blocks found)
  hashed found := labelled.hashed (within.blocks found)

/-! ## Removing -/

/-- Removing the block that an entry leads to leaves the other entries alone. -/
theorem heights_remove (labelled : cache.Labelled keccak) {hash : CryptoHash}
    (entry : cache.blockHashHeights[height]? = some hash) {wanted : Nat}
    (differ : height ≠ wanted) :
    (cache.remove hash).blockHashHeights[wanted]? = cache.blockHashHeights[wanted]? := by
  unfold remove
  split
  · rename_i removed found
    rw [getElem?_erase_eq, labelled.named entry found, if_neg differ]
  · rfl

/-- A block above the confirmed one may be removed. -/
theorem Settled.remove (settled : cache.Settled keccak) {hash : CryptoHash}
    (entry : cache.blockHashHeights[height]? = some hash) (differ : height ≠ cache.height) :
    (cache.remove hash).Settled keccak where
  toLabelled := settled.toLabelled.of_within (within_remove cache hash)
  confirmed := by
    rw [height_remove, heights_remove settled.toLabelled entry differ]
    exact settled.confirmed

/-! ## Confirming -/

/-- A height with an entry may be confirmed. -/
theorem Settled.confirm (settled : cache.Settled keccak)
    (known : ∃ hash, cache.blockHashHeights[height]? = some hash) :
    (cache.confirm height).Settled keccak where
  toLabelled := settled.toLabelled.of_within (within_confirm cache height)
  confirmed := by
    rw [height_confirm, heights_confirm, if_neg (lt_irrefl height)]
    exact known

/-! ## Inserting -/

theorem Labelled.insert (labelled : cache.Labelled keccak) (apart : cache.Apart keccak block) :
    (cache.insert keccak block).Labelled keccak := by
  by_cases taken : cache.Takes block
  · rcases insert_of_takes keccak taken with ⟨blocks, heights⟩
    have room := labelled.of_within (within_evict cache)
    constructor
    · intro height hash other entry found
      rw [heights, getElem?_insert_eq] at entry
      rw [blocks, getElem?_insert_eq] at found
      split_ifs at entry with sameHeight
      · obtain rfl := Option.some.inj entry
        rw [if_pos rfl] at found
        rw [← Option.some.inj found, sameHeight]
      · split_ifs at found with sameHash
        · subst sameHash
          exact absurd (apart height ((within_evict cache).heights entry)).symm sameHeight
        · exact room.named entry found
    · intro hash other found
      rw [blocks, getElem?_insert_eq] at found
      split_ifs at found with sameHash
      · rw [← Option.some.inj found, sameHash]
      · exact room.hashed found
  · rcases insert_of_not_takes keccak taken with ⟨blocks, heights⟩
    exact labelled.of_within ⟨fun entry => heights ▸ entry, fun found => blocks ▸ found⟩

/-- Making room for a block above the confirmed one spares the confirmed one. -/
theorem Settled.confirmed_evict (settled : cache.Settled keccak) (taken : cache.Takes block)
    (differ : block.content.header.height ≠ cache.height) :
    cache.evict.blockHashHeights[cache.height]? = cache.blockHashHeights[cache.height]? := by
  unfold evict
  split_ifs with full
  · rcases exists_maxEntry? settled.mem with ⟨⟨top, topHash⟩, greatest⟩
    have notAbove : block.content.header.height ≤ top := by
      have below := taken.2 full
      rwa [lastHeight, greatest] at below
    have higher : cache.height < top :=
      (Nat.lt_of_le_of_ne taken.1 (Ne.symm differ)).trans_le notAbove
    rcases of_maxEntry? greatest with ⟨entry, _⟩
    rw [greatest]
    exact heights_remove settled.toLabelled entry (Nat.ne_of_gt higher)
  · rfl

theorem Settled.insert (settled : cache.Settled keccak) (apart : cache.Apart keccak block) :
    (cache.insert keccak block).Settled keccak where
  toLabelled := settled.toLabelled.insert apart
  confirmed := by
    rw [height_insert]
    by_cases taken : cache.Takes block
    · rw [(insert_of_takes keccak taken).2, getElem?_insert_eq]
      split_ifs with atConfirmed
      · exact ⟨_, rfl⟩
      · rw [settled.confirmed_evict taken atConfirmed]
        exact settled.confirmed
    · rw [(insert_of_not_takes keccak taken).2]
      exact settled.confirmed

theorem settled_new (keccak : Keccak) (startBlock : Block) {maxCacheSize : Nat}
    (positive : 0 < maxCacheSize) : (new keccak startBlock maxCacheSize).Settled keccak where
  toLabelled := by
    apply Labelled.insert
    · exact ⟨fun entry _ => absurd entry (by simp), fun found => absurd found (by simp)⟩
    · exact fun height entry => absurd entry (by simp)
  confirmed := by
    have known : (new keccak startBlock maxCacheSize).hash = .ok (startBlock.hash keccak) :=
      hash_new positive
    unfold hash at known
    split at known
    · rename_i found
      exact ⟨_, found⟩
    · cases known

/-! ## The cache of a proposer -/

theorem Alone.size_le_one (alone : cache.Alone) : cache.blocks.size ≤ 1 := by
  apply size_le_one_of_alike
  intro first isFirst second isSecond
  exact Option.some.inj ((alone.blocks first isFirst).symm.trans (alone.blocks second isSecond))

theorem alone_new (keccak : Keccak) (startBlock : Block) {maxCacheSize : Nat}
    (positive : 0 < maxCacheSize) : (new keccak startBlock maxCacheSize).Alone := by
  rcases maps_new keccak startBlock positive with ⟨blocks, heights⟩
  constructor
  · intro height mem
    have same : startBlock.content.header.height = height := by simpa [heights] using mem
    rw [height_new, same]
  · intro hash mem
    have same : startBlock.hash keccak = hash := by simpa [blocks] using mem
    rw [height_new, heights, getElem?_insert_eq, if_pos rfl, same]

/-- Confirming the same height again changes nothing that matters. -/
theorem Alone.confirm (alone : cache.Alone) : (cache.confirm cache.height).Alone := by
  rw [confirm_eq_self ⟨rfl, fun known mem => (alone.heights known mem).ge⟩]
  exact alone

section Proposing

variable (alone : cache.Alone) (room : 2 ≤ cache.maxCacheSize)
  (next : block.content.header.height = cache.height + 1)

include alone room next

/-- There is room for the next block beside the confirmed one. -/
theorem Alone.insert_next :
    (cache.insert keccak block).blocks = cache.blocks.insert (block.hash keccak) block ∧
      (cache.insert keccak block).blockHashHeights =
        cache.blockHashHeights.insert block.content.header.height (block.hash keccak) := by
  apply insert_of_room
  · exact Nat.not_le_of_gt (Nat.lt_of_le_of_lt alone.size_le_one room)
  · rw [next]
    exact Nat.le_succ _

theorem Alone.own_of_propose :
    ((cache.insert keccak block).confirm block.content.header.height).blockHashHeights[
      block.content.header.height]? = some (block.hash keccak) := by
  rw [heights_confirm, if_neg (lt_irrefl _), (alone.insert_next room next).2,
    getElem?_insert_eq, if_pos rfl]

/-- Once the next block is confirmed, it is the only one. -/
theorem Alone.propose :
    ((cache.insert keccak block).confirm block.content.header.height).Alone := by
  rcases alone.insert_next room next with ⟨blocks, heights⟩
  constructor
  · intro height mem
    rcases heights_of_confirm (Std.TreeMap.getElem?_eq_some_getElem mem) with ⟨entry, atLeast⟩
    rw [height_confirm]
    rw [heights, getElem?_insert_eq] at entry
    split_ifs at entry with same
    · exact same.symm
    · have old := alone.heights height (Std.TreeMap.getElem?_eq_some_iff.mp entry).fst
      omega
  · intro hash mem
    rw [height_confirm, alone.own_of_propose room next]
    rcases blocks_confirm.mp (Std.TreeMap.getElem?_eq_some_getElem mem) with ⟨found, dropped⟩
    rw [blocks, getElem?_insert_eq] at found
    split_ifs at found with same
    · rw [same]
    · -- the old block goes with the entry of the old height
      apply absurd _ (dropped cache.height (by omega))
      rw [heights, getElem?_insert_eq, if_neg (by omega)]
      exact alone.blocks hash (Std.TreeMap.getElem?_eq_some_iff.mp found).fst

theorem Alone.settled_propose (labelled : cache.Labelled keccak) :
    ((cache.insert keccak block).confirm block.content.header.height).Settled keccak := by
  have own : ((cache.insert keccak block).confirm
      block.content.header.height).blockHashHeights[block.content.header.height]? =
        some (block.hash keccak) := alone.own_of_propose room next
  have found_iff : ∀ {hash : CryptoHash} {other : Block},
      ((cache.insert keccak block).confirm block.content.header.height).blocks[hash]? =
        some other → (if block.hash keccak = hash then some block else cache.blocks[hash]?) =
          some other := by
    intro hash other found
    rw [← getElem?_insert_eq, ← (alone.insert_next room next).1]
    exact (blocks_confirm.mp found).1
  refine ⟨⟨?_, ?_⟩, ?_⟩
  · intro height hash other entry found
    obtain rfl : height = block.content.header.height :=
      ((alone.propose room next).heights height
        (Std.TreeMap.getElem?_eq_some_iff.mp entry).fst).trans (height_confirm _ _)
    obtain rfl := Option.some.inj (own.symm.trans entry)
    have isOwn := found_iff found
    rw [if_pos rfl] at isOwn
    rw [Option.some.inj isOwn]
  · intro hash other found
    have held := found_iff found
    split_ifs at held with same
    · rw [← Option.some.inj held, same]
    · exact labelled.hashed held
  · rw [height_confirm]
    exact ⟨_, own⟩

end Proposing

theorem Alone.getNextCommitBlock (alone : cache.Alone) : cache.getNextCommitBlock = none := by
  have absent : cache.blockHashHeights[cache.height + 1]? = none := by
    apply Std.TreeMap.getElem?_eq_none
    intro isKey
    exact absurd (alone.heights _ isKey) (Nat.succ_ne_self _)
  rw [BlockCache.getNextCommitBlock, getByHeight, absent]
  rfl

@[simp]
theorem maxCacheSize_confirm (cache : BlockCache) (height : Nat) :
    (cache.confirm height).maxCacheSize = cache.maxCacheSize := by
  have fold : ∀ (heights : List Nat) (cache : BlockCache),
      (heights.foldl forget cache).maxCacheSize = cache.maxCacheSize := by
    intro heights
    induction heights with
    | nil => exact fun _ => rfl
    | cons first rest ih =>
        intro cache
        rw [List.foldl_cons, ih]
        unfold forget
        split <;> rfl
  exact fold _ _

end BlockCache

namespace NodeShared

variable {Key S : Type} (poseidon : Poseidon) (keccak : Keccak) (verify : Verify)
  (secp : Secp256k1 Key) (tempNoir : Bool)

/-- A block that passes validation can be committed: none of its outputs falls on an
occupied slot.  A bad block is not looked at, so its inputs must be there and it
must apply. -/
def Lands (node : NodeShared Key S) (block : Block) : Prop :=
  if node.badBlocks.contains block.content.header.height then
    (∀ leaf ∈ block.content.state.removeLeaves, leaf ∈ node.chain.notesTree.tree.entries) ∧
      ∃ after, applyBlockToTree poseidon tempNoir node.chain.notesTree block.content.state
        block.content.header.height = .ok after
  else ¬node.chain.notesTree.tree.Collides block.content.state.insertLeaves

/-- The next block of the cache can be committed if it is valid. -/
def NextLands (node : NodeShared Key S) : Prop :=
  ∀ block, node.blockCache.getNextCommitBlock = some block →
    node.validateBlock poseidon keccak verify secp block = .ok () →
    node.Lands poseidon tempNoir block

variable {poseidon keccak verify secp tempNoir} {node : NodeShared Key S} {block : Block}

/-- A valid block that can be committed is committed. -/
theorem commitProposal_of_lands (commitTime : Nat)
    (wellFormed : node.chain.notesTree.tree.WellFormed (merge poseidon))
    (validated : node.validateBlock poseidon keccak verify secp block = .ok ())
    (lands : node.Lands poseidon tempNoir block) :
    ∃ chain, node.chain.commitProposal poseidon keccak tempNoir block commitTime =
      (chain, .ok ()) := by
  have applies : (∀ leaf ∈ block.content.state.removeLeaves,
        leaf ∈ node.chain.notesTree.tree.entries) ∧
      ∃ after, applyBlockToTree poseidon tempNoir node.chain.notesTree block.content.state
        block.content.header.height = .ok after := by
    unfold Lands at lands
    split_ifs at lands with bad
    · exact lands
    · have valid := (validateBlock_eq_ok bad validated).2
      rcases valid.commits tempNoir wellFormed lands with ⟨after, applied, _⟩
      exact ⟨fun leaf mem => (valid.removeLeaf_valid mem).2, after, applied⟩
  rcases applies with ⟨present, after, applied⟩
  exact ⟨⟨_, after⟩, Chain.commitProposal_eq_ok_iff.mpr ⟨present, rfl, applied⟩⟩

end NodeShared

namespace Replica

/-- The height of the cache is that of the last committed block, and neither the
hash of the confirmed block nor the state of the synchronisation is unknown. -/
structure Agrees {Key S : Type} (replica : Replica Key S) : Prop where
  height : ∃ block, replica.committed.getLast? = some block ∧
    replica.node.blockCache.height = block.content.header.height
  hash : ∃ hash, replica.node.blockCache.hash = .ok hash
  isOutOfSync : ∃ outOfSync, replica.node.blockCache.isOutOfSync = .ok outOfSync

section

variable {Key S : Type} (poseidon : Poseidon) (keccak : Keccak) (verify : Verify)
  (secp : Secp256k1 Key) (tempNoir : Bool)

/-- What an event must not do, in the state that it meets.  A received block does not
collide in its hash with a cached block of another height.  A proposer has not
come to the last height; every block that the loop of another node comes to
can be committed if it is valid.  A fast snapshot that is not refused with an
error is for the next block. -/
def Event.Smooth (replica : Replica Key S) : Event S → Prop
  | .submit _ _ _ => True
  | .gossip _ _ => True
  | .receive block => replica.node.blockCache.Apart keccak block
  | .tick _ commitTime =>
      (replica.node.isValidatorForHeight secp (nextHeight replica.node.blockCache.height) =
          .ok true → replica.node.blockCache.height + 1 < 2 ^ 64) ∧
        (replica.node.isValidatorForHeight secp (nextHeight replica.node.blockCache.height) =
            .ok false → ∀ blocks middle,
          replica.node.CatchUp poseidon keccak verify secp tempNoir commitTime blocks middle →
            middle.NextLands poseidon keccak verify secp tempNoir)
  | .snapshot chunk =>
      ∀ block notesTree, chunk.block = some block →
        applyFastSnapshotChunk poseidon tempNoir replica.node.chain.notesTree block
          chunk.elements = .ok notesTree →
        prevHeight block.content.header.height = replica.node.blockCache.height ∧
          replica.node.blockCache.Apart keccak block

/-- What holds of a node at all times as long as nothing of that happens. -/
structure Steady (replica : Replica Key S) : Prop where
  last : ∃ block, replica.committed.getLast? = some block ∧
    replica.node.blockCache.height = block.content.header.height
  settled : replica.node.blockCache.Settled keccak
  alone : replica.node.mode = .validator → replica.node.blockCache.Alone
  room : 2 ≤ replica.node.blockCache.maxCacheSize
  wellFormed : replica.node.chain.notesTree.tree.WellFormed (merge poseidon)

end

variable {Key S : Type} {poseidon : Poseidon} {keccak : Keccak} {verify : Verify}
  {secp : Secp256k1 Key} {tempNoir : Bool} {replica : Replica Key S}

theorem Steady.agrees (steady : replica.Steady poseidon keccak) : replica.Agrees :=
  ⟨steady.last, steady.settled.answers.1, steady.settled.answers.2⟩

/-- Dropping the next block keeps the promise. -/
theorem Steady.drop {node : NodeShared Key S} {committed : List Block} {block : Block}
    (steady : Steady poseidon keccak ⟨node, committed⟩)
    (nextBlock : node.blockCache.getNextCommitBlock = some block) :
    Steady poseidon keccak
      ⟨{ node with blockCache := node.blockCache.remove (block.hash keccak) }, committed⟩ := by
  rcases BlockCache.getNextCommitBlock_eq_some_iff.mp nextBlock with ⟨hash, entry, found⟩
  have own : block.hash keccak = hash := steady.settled.hashed found
  constructor
  · exact (BlockCache.height_remove node.blockCache _).symm ▸ steady.last
  · rw [own]
    exact steady.settled.remove entry (Nat.succ_ne_self _)
  · intro mode
    exact absurd nextBlock (by rw [(steady.alone mode).getNextCommitBlock]; simp)
  · exact (BlockCache.maxCacheSize_remove node.blockCache _).symm ▸ steady.room
  · exact steady.wellFormed

/-- So does committing it. -/
theorem Steady.commit {node next : NodeShared Key S} {committed : List Block} {block : Block}
    {commitTime : Nat} (steady : Steady poseidon keccak ⟨node, committed⟩)
    (nextBlock : node.blockCache.getNextCommitBlock = some block)
    (done : NodeShared.commitProposal poseidon keccak tempNoir
      { node with blockCache := node.blockCache.confirm block.content.header.height }
      block commitTime = (next, .ok ())) :
    Steady poseidon keccak ⟨next, committed ++ [block]⟩ := by
  rcases BlockCache.getNextCommitBlock_eq_some_iff.mp nextBlock with ⟨hash, entry, found⟩
  have height : block.content.header.height = node.blockCache.height + 1 :=
    steady.settled.named entry found
  rcases NodeShared.commitProposal_frame done with ⟨config, cache⟩
  rcases Chain.commitProposal_eq_ok_iff.mp (NodeShared.chain_of_commitProposal done) with
    ⟨_, _, applied⟩
  constructor
  · exact ⟨block, List.getLast?_concat, by rw [cache, BlockCache.height_confirm]⟩
  · rw [cache]
    exact steady.settled.confirm ⟨hash, height ▸ entry⟩
  · intro mode
    have alone := steady.alone (config.mode ▸ mode)
    exact absurd nextBlock (by rw [alone.getNextCommitBlock]; simp)
  · rw [cache, BlockCache.maxCacheSize_confirm]
    exact steady.room
  · exact wellFormed_of_applyBlockToTree steady.wellFormed applied

theorem Steady.catchUp {node next : NodeShared Key S} {blocks committed : List Block}
    {commitTime : Nat}
    (loop : node.CatchUp poseidon keccak verify secp tempNoir commitTime blocks next)
    (lands : ∀ blocks middle,
      node.CatchUp poseidon keccak verify secp tempNoir commitTime blocks middle →
        middle.NextLands poseidon keccak verify secp tempNoir)
    (steady : Steady poseidon keccak ⟨node, committed⟩) :
    Steady poseidon keccak ⟨next, committed ++ blocks⟩ := by
  induction loop generalizing committed with
  | stop => rwa [List.append_nil]
  | drop nextBlock validated _ ih =>
      apply ih
      · exact fun blocks middle rest => lands blocks middle (.drop nextBlock validated rest)
      · exact steady.drop nextBlock
  | @commit node middle next block blocks nextBlock validated done _ ih =>
      rw [List.append_cons]
      apply ih
      · exact fun later after rest =>
          lands (block :: later) after (.commit nextBlock validated done rest)
      · exact steady.commit nextBlock done
  | @fail node next block stop nextBlock validated failed =>
      have blockLands := lands [] node .stop block nextBlock validated
      rcases NodeShared.commitProposal_of_lands commitTime steady.wellFormed validated
        blockLands with ⟨chain, committed⟩
      unfold NodeShared.commitProposal at failed
      dsimp only at failed
      rw [committed] at failed
      simp at failed

theorem nextHeight_eq {height : Nat} (inRange : height + 1 < 2 ^ 64) :
    nextHeight height = height + 1 :=
  Nat.mod_eq_of_lt inRange

theorem Steady.tick {next : NodeShared Key S} {blocks : List Block} {contract : Rollup.Storage}
    {commitTime : Nat} (steady : replica.Steady poseidon keccak)
    (smooth : (Event.tick contract commitTime).Smooth poseidon keccak verify secp tempNoir
      replica)
    (ticked : replica.node.Ticked poseidon keccak verify secp tempNoir commitTime blocks next) :
    Steady poseidon keccak ⟨next, replica.committed ++ blocks⟩ := by
  cases ticked with
  | idle config cache tree =>
      rw [List.append_nil]
      constructor
      · exact cache ▸ steady.last
      · exact cache ▸ steady.settled
      · exact cache ▸ config.mode ▸ steady.alone
      · exact cache ▸ steady.room
      · exact tree ▸ steady.wellFormed
  | @proposed next block config mode leads height done cache =>
      have alone := steady.alone mode
      rw [nextHeight_eq (smooth.1 leads)] at height
      rcases Chain.commitProposal_eq_ok_iff.mp done with ⟨_, _, applied⟩
      constructor
      · exact ⟨block, List.getLast?_concat, by rw [cache, BlockCache.height_confirm]⟩
      · rw [cache]
        exact alone.settled_propose steady.room height steady.settled.toLabelled
      · intro _
        rw [cache]
        exact alone.propose steady.room height
      · rw [cache, BlockCache.maxCacheSize_confirm, BlockCache.maxCacheSize_insert]
        exact steady.room
      · exact wellFormed_of_applyBlockToTree steady.wellFormed applied
  | caughtUp leads loop => exact Steady.catchUp loop (smooth.2 leads) steady

theorem Steady.receive {node : NodeShared Key S} {committed : List Block} {block : Block}
    (steady : Steady poseidon keccak ⟨node, committed⟩)
    (apart : node.blockCache.Apart keccak block) :
    Steady poseidon keccak ⟨(node.receiveProposal poseidon keccak block).1, committed⟩ := by
  unfold NodeShared.receiveProposal
  split_ifs with mode
  · exact steady
  · constructor
    · exact (BlockCache.height_insert keccak node.blockCache block).symm ▸ steady.last
    · exact steady.settled.insert apart
    · exact fun isValidator => absurd isValidator mode
    · exact (BlockCache.maxCacheSize_insert keccak node.blockCache block).symm ▸ steady.room
    · exact steady.wellFormed

/-- A fast snapshot for the next block moves the tree and not the height. -/
theorem Steady.snapshot {node : NodeShared Key S} {committed : List Block}
    {chunk : SnapshotChunkFast} (steady : Steady poseidon keccak ⟨node, committed⟩)
    (next : ∀ block notesTree, chunk.block = some block →
      applyFastSnapshotChunk poseidon tempNoir node.chain.notesTree block chunk.elements =
        .ok notesTree →
      prevHeight block.content.header.height = node.blockCache.height ∧
        node.blockCache.Apart keccak block) :
    Steady poseidon keccak
      ⟨(node.handleSnapshotChunkFast poseidon keccak tempNoir chunk).1, committed⟩ := by
  unfold NodeShared.handleSnapshotChunkFast
  split
  · exact steady
  · rename_i block carried
    split
    · exact steady
    · rename_i notesTree applied
      rcases next block notesTree carried applied with ⟨sameHeight, apart⟩
      rw [sameHeight]
      apply Steady.receive
      · constructor
        · exact (BlockCache.height_confirm node.blockCache _).symm ▸ steady.last
        · exact steady.settled.confirm steady.settled.confirmed
        · exact fun mode => (steady.alone mode).confirm
        · exact (BlockCache.maxCacheSize_confirm node.blockCache _).symm ▸ steady.room
        · exact wellFormed_of_applyFastSnapshotChunk steady.wellFormed applied
      · exact fun height entry => apart height (BlockCache.heights_of_confirm entry).1

/-- Every smooth event keeps a node steady. -/
theorem Steady.step {event : Event S} (steady : replica.Steady poseidon keccak)
    (smooth : event.Smooth poseidon keccak verify secp tempNoir replica) :
    (replica.step poseidon keccak verify secp tempNoir event).Steady poseidon keccak := by
  cases event with
  | submit contract utxo sender =>
      unfold Replica.step keep
      dsimp only
      split
      · exact ⟨steady.last, steady.settled, steady.alone, steady.room, steady.wellFormed⟩
      · exact steady
  | gossip contract txn =>
      unfold Replica.step keep
      dsimp only
      split
      · exact ⟨steady.last, steady.settled, steady.alone, steady.room, steady.wellFormed⟩
      · exact steady
  | receive block => exact steady.receive smooth
  | tick contract commitTime =>
      exact steady.tick smooth (NodeShared.ticked_tick replica.node contract commitTime)
  | snapshot chunk => exact steady.snapshot smooth

/-- A node that starts on sound databases is steady. -/
theorem steady_start (keccak : Keccak) (config : NodeShared Key S) {loaded : LoadedData}
    (wellFormed : loaded.persistentTree.tree.WellFormed (merge poseidon)) :
    (start keccak config loaded).Steady poseidon keccak where
  last := ⟨loaded.block, rfl, BlockCache.height_new keccak loaded.block 10000⟩
  settled := BlockCache.settled_new keccak loaded.block (by decide)
  alone _ := BlockCache.alone_new keccak loaded.block (by decide)
  room := by
    rw [start, BlockCache.maxCacheSize_new]
    decide
  wellFormed := wellFormed

/-- In every state of a node, whatever its databases have been through before it was
started, the confirmed height is that of the last committed block, and the cache
answers, as long as every event so far was smooth. -/
theorem height_is_committed {progress : Progress} {history : List Progress.Event}
    (lived : Run (Progress.Step poseidon keccak tempNoir) Progress.start history progress)
    {loaded : LoadedData} (loads : loadDbAndSmirk poseidon tempNoir progress.chain = .ok loaded)
    (config : NodeShared Key S) (events : List (Event S))
    (smooth : ∀ earlier event, earlier ++ [event] <+: events →
      event.Smooth poseidon keccak verify secp tempNoir
        ((start keccak config loaded).run poseidon keccak verify secp tempNoir earlier)) :
    ((start keccak config loaded).run poseidon keccak verify secp tempNoir events).Agrees := by
  have sound := Progress.sound_of_run lived
  have wellFormed := ((loadDbAndSmirk_eq_ok_iff.mp loads).sound sound.wellFormed
    sound.filed).wellFormed
  have steady : ((start keccak config loaded).run poseidon keccak verify secp tempNoir
      events).Steady poseidon keccak := by
    apply run_invariant (motive := fun _ replica => replica.Steady poseidon keccak)
    · exact steady_start keccak config wellFormed
    · exact fun earlier event isPrefix before => before.step (smooth earlier event isPrefix)
  exact steady.agrees

/-- The leader, which has committed nothing. -/
def leader : Replica Bool Unit :=
  start heightDigest { follower.node with localPeer := true, mode := .validator } genesisData

/-- The leader proposes the first block and is where it has committed. -/
theorem firstProposal_agrees :
    (∀ earlier event, earlier ++ [event] <+: [Event.tick {} 0] →
        event.Smooth (fun _ => 0) heightDigest (fun _ => true) peers false
          (leader.run (fun _ => 0) heightDigest (fun _ => true) peers false earlier)) ∧
      (leader.run (fun _ => 0) heightDigest (fun _ => true) peers false [.tick {} 0]).Agrees ∧
      (leader.run (fun _ => 0) heightDigest (fun _ => true) peers false
        [.tick {} 0]).committed.length = 2 := by
  have confirmed : leader.node.blockCache.height = 0 :=
    BlockCache.height_new heightDigest .genesis 10000
  have leads : leader.node.isValidatorForHeight peers (nextHeight leader.node.blockCache.height) =
      .ok true := by
    rw [confirmed]
    decide
  have smooth : ∀ earlier event, earlier ++ [event] <+: [Event.tick {} 0] →
      event.Smooth (fun _ => 0) heightDigest (fun _ => true) peers false
        (leader.run (fun _ => 0) heightDigest (fun _ => true) peers false earlier) := by
    intro earlier event isPrefix
    have noneBefore : earlier = [] := by simpa using isPrefix.length_le
    obtain rfl : event = .tick {} 0 := by simpa [noneBefore] using isPrefix
    rw [noneBefore]
    constructor
    · intro _
      change leader.node.blockCache.height + 1 < 2 ^ 64
      rw [confirmed]
      decide
    · exact fun follows => absurd (leads.symm.trans follows) (by simp)
  refine ⟨smooth, height_is_committed .nil (loadDbAndSmirk_genesis _ _) _ _ smooth, ?_⟩
  have known : (BlockCache.new heightDigest .genesis 10000).hash =
      .ok (Block.genesis.hash heightDigest) := BlockCache.hash_new (by decide)
  have proposes : ∃ next block, leader.node.tick (fun _ => 0) heightDigest (fun _ => true) peers
      false {} 0 = (next, .ok (some block)) := by
    apply NodeShared.exists_tick_idle lawful_peers rfl _ known rfl
    rw [confirmed]
    decide
  rcases proposes with ⟨next, block, ticked⟩
  have committed : leader.node.committedTick (fun _ => 0) heightDigest (fun _ => true) peers
      false {} 0 = [block] := by
    rw [NodeShared.committedTick, leads]
    dsimp only
    rw [NodeShared.tick_eq_ok ticked]
  change ([Block.genesis] ++ leader.node.committedTick (fun _ => 0) heightDigest (fun _ => true)
    peers false {} 0).length = 2
  rw [committed]
  rfl

/-- A follower is sent two blocks, of which the second has an output on the slot of
the first one's.  Its tick commits the first and confirms both. -/
theorem failedCommit_runs_ahead :
    ∃ firstRoot secondRoot,
      let first := signedBlock (outputBlock 1 firstRoot 1)
      let second := signedBlock (outputBlock 2 secondRoot slotOfOne)
      let replica := follower.run (fun _ => 0) heightDigest (fun _ => true) peers false
        [.receive first, .receive second, .tick {} 0]
      replica.node.blockCache.height = 2 ∧ replica.committed = [.genesis, first] ∧
        ¬replica.Agrees := by
  rcases Chain.exists_run_firstOutput (fun _ => 0) heightDigest
    (fun content => (signedBlock content).signature) with ⟨firstRoot, chain, run⟩
  have run : Run (Chain.Step (fun _ => 0) heightDigest (fun _ => true) false) Chain.genesis
      ([] ++ [(signedBlock (outputBlock 1 firstRoot 1), 0)]) chain := run
  rcases Run.of_snoc run with ⟨start, before, validated, committed⟩
  obtain rfl := Run.eq_of_nil before
  rcases Chain.commitProposal_eq_ok_iff.mp committed with ⟨_, storeEq, applied⟩
  have unrecorded : ¬chain.store.Recorded slotOfOne := by
    have nonzero : (1 : Element) ≠ Element.ZERO := by decide
    have differ : slotOfOne ≠ 1 := by decide
    have outputs : (signedBlock (outputBlock 1 firstRoot 1)).content.state.insertLeaves = [1] :=
      insertLeaves_outputBlock nonzero
    rw [storeEq, BlockFormat.recorded_set_iff, BlockFormat.intoBlock, outputs]
    simpa [Chain.genesis, BlockStore.not_recorded_empty] using differ
  have exists_second : ∃ secondRoot,
      (outputBlock 2 secondRoot slotOfOne).validate (fun _ => 0) (fun _ => true) chain.store
          chain.notesTree = .ok () ∧
        chain.notesTree.tree.Collides (outputBlock 2 secondRoot slotOfOne).state.insertLeaves :=
    exists_collidingBlock 2 (wellFormed_of_applyBlockToTree emptyTree_wellFormed applied)
      (mem_firstOutput applied) unrecorded rfl
  rcases exists_second with ⟨secondRoot, secondValidated, collides⟩
  refine ⟨firstRoot, secondRoot, ?_⟩
  have secondHeight : (outputBlock 2 secondRoot slotOfOne).header.height = 2 := rfl
  rcases exists_tick_following rfl secondHeight {} (validate_eq_ok_iff.mp validated) committed with
    ⟨rounds, middle, config, middleChain, middleCache, ticked, ticks⟩
  have nextBlock : middle.blockCache.getNextCommitBlock =
      some (signedBlock (outputBlock 2 secondRoot slotOfOne)) := by
    rw [middleCache]
    exact (next_following rfl rfl _).2.1
  have middleValid : BlockValid (fun _ => 0) (fun _ => true) middle.chain.store
      middle.chain.notesTree (outputBlock 2 secondRoot slotOfOne) := by
    rw [middleChain]
    exact validate_eq_ok_iff.mp secondValidated
  cases done : NodeShared.commitProposal (fun _ => 0) heightDigest false
      { middle with blockCache := middle.blockCache.confirm 2 }
      (signedBlock (outputBlock 2 secondRoot slotOfOne)) 0 with
  | mk next result =>
      cases result with
      | ok done' =>
          rcases Chain.commitProposal_eq_ok_iff.mp (NodeShared.chain_of_commitProposal done) with
            ⟨_, _, secondApplied⟩
          exact absurd (middleChain ▸ collides)
            (not_collides_of_applyBlockToTree secondApplied)
      | error stop =>
          rcases NodeShared.commitCached_fail rounds nextBlock
            (validateBlock_signedBlock config middleValid) done with ⟨ends, nothing⟩
          have height : next.blockCache.height = 2 := by
            rw [(NodeShared.commitProposal_frame done).2, BlockCache.height_confirm]
          rw [ends] at ticked
          rw [nothing] at ticks
          intro first second replica
          have replicaEq : replica = ⟨next, [.genesis, first]⟩ :=
            congrArg₂ Replica.mk ticked (congrArg ([Block.genesis] ++ ·) ticks)
          rw [replicaEq]
          refine ⟨height, rfl, ?_⟩
          rintro ⟨⟨last, isLast, sameHeight⟩, _, _⟩
          obtain rfl : first = last := Option.some.inj isLast
          rw [height] at sameHeight
          cases sameHeight

end Replica

end Ciphera.Node
