import Ciphera.Node.Eviction
import Ciphera.Node.Proposal

/-!
# Fast snapshots

A prover that is far behind asks for the elements of the tree at a height and
for the block of that height.  It moves its own tree to the state before that
block and caches the block, which is then committed like any other.  A chunk is
compared with the root that the block announces; one that does not fit is only
logged, and the handler goes on as if it had been applied.
-/

namespace Ciphera.Node

open Ciphera.Lib Ciphera.Noir Ciphera.Smirk Ciphera.Zk

/-- A fast snapshot: a block and the elements of its tree. -/
structure SnapshotChunkFast where
  block : Option Block
  elements : List Element

/-- The height before a height, as a 64-bit integer. -/
def prevHeight (height : Nat) : Nat := (height + (2 ^ 64 - 1)) % 2 ^ 64

/-- Note every element of a list under one flag. -/
def noteAll (isAdd : Bool) (elements : List Element) (noted : Std.TreeMap Element Bool) :
    Std.TreeMap Element Bool :=
  elements.foldl (fun noted element => noted.insert element isAdd) noted

/-- The elements of a block, with whether the block adds or removes them.  Padding
is noted as well. -/
def lastBlockElements (block : Block) : Std.TreeMap Element Bool :=
  block.content.state.txns.foldl
    (fun noted utxo =>
      noteAll true utxo.publicInputs.outputCommitments.toList
        (noteAll false utxo.publicInputs.inputCommitments.toList noted)) ∅

/-- The elements that the chunk has and the tree has not. -/
def newElements (notesTree : PersistentMerkleTree) (elements : List Element) : List Element :=
  elements.dedup.filter fun element => !notesTree.tree.containsElement element

/-- The elements that the tree has and the chunk has not. -/
def missingElements (notesTree : PersistentMerkleTree) (elements : List Element) : List Element :=
  notesTree.tree.entries.keys.filter fun element => !elements.contains element

/-- The batch collected so far, and the elements of the block that were not met. -/
abbrev Collecting := Batch MERKLE_TREE_DEPTH SmirkMetadata × Std.TreeMap Element Bool

/-- An element that the block will add or remove itself is left to it. -/
def collect (isAdd : Bool)
    (add : Batch MERKLE_TREE_DEPTH SmirkMetadata → Element →
      Except (Stop CollisionError) (Batch MERKLE_TREE_DEPTH SmirkMetadata))
    (noted : Std.TreeMap Element Bool) (state : Collecting) (element : Element) :
    Except (Stop CollisionError) Collecting :=
  if element = Element.ZERO then pure state
  else if noted[element]? = some isAdd then pure (state.1, state.2.erase element)
  else do
    let batch ← add state.1 element
    pure (batch, state.2)

/-- The batch that takes the tree to the state before the block. -/
def collectChanges (noted : Std.TreeMap Element Bool) (inserts removes : List Element) :
    Except (Stop CollisionError) Collecting := do
  let state ← inserts.foldlM
    (collect true (fun batch element => batch.insert element ⟨0⟩) noted) ({}, noted)
  removes.foldlM (collect false (fun batch element => batch.remove element) noted) state

/-- What becomes of a chunk that meets no error. -/
inductive ChunkOutcome
  | rootHashMismatch
  | missingElements (left : Std.TreeMap Element Bool)
  | applied (notesTree : PersistentMerkleTree)

/-- The body of `apply_fast_snapshot_chunk`, which logs the first two outcomes. -/
def chunkOutcome (poseidon : Poseidon) (tempNoir : Bool) (notesTree : PersistentMerkleTree)
    (block : Block) (elements : List Element) : Result ChunkOutcome := do
  let inserts := newElements notesTree elements
  let removes := missingElements notesTree elements
  let rootHash ← orPanic (notesTree.tree.rootHashWith (merge poseidon) inserts removes)
  if rootHash ≠ block.content.state.rootHash then pure .rootHashMismatch
  else do
    let (batch, left) ← liftCollision (collectChanges (lastBlockElements block) inserts removes)
    if !left.isEmpty then pure (.missingElements left)
    else do
      let changed ← liftCollision (notesTree.insertBatch (merge poseidon) tempNoir batch)
      pure (.applied changed)

/-- The tree after a chunk. -/
def applyFastSnapshotChunk (poseidon : Poseidon) (tempNoir : Bool)
    (notesTree : PersistentMerkleTree) (block : Block) (elements : List Element) :
    Result PersistentMerkleTree := do
  let outcome ← chunkOutcome poseidon tempNoir notesTree block elements
  match outcome with
  | .applied changed => pure changed
  | .rootHashMismatch => pure notesTree
  | .missingElements _ => pure notesTree

theorem applyFastSnapshotChunk_of_applied {poseidon : Poseidon} {tempNoir : Bool}
    {notesTree after : PersistentMerkleTree} {block : Block} {elements : List Element}
    (applied : chunkOutcome poseidon tempNoir notesTree block elements = .ok (.applied after)) :
    applyFastSnapshotChunk poseidon tempNoir notesTree block elements = .ok after := by
  rw [applyFastSnapshotChunk, applied]
  rfl

namespace NodeShared

variable {Key S : Type} (poseidon : Poseidon) (keccak : Keccak) (tempNoir : Bool)

/-- Cache a block that another node has sent and lease its transactions. -/
def receiveProposal (node : NodeShared Key S) (block : Block) : NodeShared Key S × Result Unit :=
  if node.mode = .validator then
    (node, .error (.panic "This function should not be called by the validator"))
  else
    let keys := block.content.state.txns.map (·.hash poseidon)
    ({ node with
        blockCache := node.blockCache.insert keccak block
        mempool := node.mempool.leaseTxns block.content.header.height keys },
      .ok ())

/-- A fast snapshot replaces the tree and moves the cache up, and its block is received. -/
def handleSnapshotChunkFast (node : NodeShared Key S) (chunk : SnapshotChunkFast) :
    NodeShared Key S × Result Unit :=
  match chunk.block with
  | none => (node, .ok ())
  | some block =>
      match applyFastSnapshotChunk poseidon tempNoir node.chain.notesTree block
          chunk.elements with
      | .error stop => (node, .error stop)
      | .ok notesTree =>
          receiveProposal poseidon keccak
            { node with
              chain := { node.chain with notesTree }
              blockCache := node.blockCache.confirm (prevHeight block.content.header.height) }
            block

/-- The chunk that a node sends of its tree at a height. -/
def sendSnapshotChunkFast (node : NodeShared Key S) (toHeight : Nat) : SnapshotChunkFast where
  block := node.chain.store.blocks[toHeight]?.map BlockFormat.intoBlock
  elements := (node.chain.notesTree.tree.entries.toList.filter fun entry =>
    entry.2.insertedIn ≤ toHeight).map Prod.fst

end NodeShared

/-! ## When a cache does not change -/

namespace BlockCache

/-- The two caches have the same contents. -/
structure Same (cache other : BlockCache) : Prop where
  height : cache.height = other.height
  maxHeight : cache.maxHeight = other.maxHeight
  maxCacheSize : cache.maxCacheSize = other.maxCacheSize
  blocks : ∀ hash : CryptoHash, cache.blocks[hash]? = other.blocks[hash]?
  heights : ∀ height : Nat, cache.blockHashHeights[height]? = other.blockHashHeights[height]?

theorem Same.refl (cache : BlockCache) : cache.Same cache :=
  ⟨rfl, rfl, rfl, fun _ => rfl, fun _ => rfl⟩

/-- The cache is confirmed at the height and has nothing below it. -/
def ConfirmedAt (cache : BlockCache) (height : Nat) : Prop :=
  cache.height = height ∧ ∀ known ∈ cache.blockHashHeights, height ≤ known

/-- The hash of the block that a full cache drops first. -/
def lastHash (cache : BlockCache) : CryptoHash := (cache.blockHashHeights.maxEntry?.getD (0, 0)).2

/-- The cache refuses the block or holds it already, in the place it would get. -/
def Knows (keccak : Keccak) (cache : BlockCache) (block : Block) : Prop :=
  block.content.header.height < cache.height ∨
    block.content.header.height ≤ cache.maxHeight ∧
      (cache.Takes block →
        cache.blockHashHeights[block.content.header.height]? = some (block.hash keccak) ∧
          cache.blocks[block.hash keccak]? = some block ∧
          (cache.Full → cache.lastHash = block.hash keccak ∨ cache.blocks[cache.lastHash]? = none))

variable {keccak : Keccak} {cache smaller : BlockCache} {block : Block} {height : Nat}

@[simp]
theorem heights_forget (cache : BlockCache) (height wanted : Nat) :
    (cache.forget height).blockHashHeights[wanted]? =
      if height = wanted then none else cache.blockHashHeights[wanted]? := by
  unfold forget
  split
  · exact getElem?_erase_eq _ _ _
  · rename_i absent
    split_ifs with same
    · rw [← same, absent]
    · rfl

@[simp]
theorem heights_forget_all (cache : BlockCache) (heights : List Nat) (wanted : Nat) :
    (heights.foldl forget cache).blockHashHeights[wanted]? =
      if wanted ∈ heights then none else cache.blockHashHeights[wanted]? := by
  induction heights generalizing cache with
  | nil => simp
  | cons first rest ih =>
      rw [List.foldl_cons, ih, heights_forget]
      by_cases later : wanted ∈ rest
      · simp [later]
      · by_cases same : first = wanted
        · simp [same]
        · simp [later, same, Ne.symm same]

/-- Nothing below the confirmed height is left. -/
@[simp]
theorem heights_confirm (cache : BlockCache) (height wanted : Nat) :
    (cache.confirm height).blockHashHeights[wanted]? =
      if wanted < height then none else cache.blockHashHeights[wanted]? := by
  unfold confirm
  rw [heights_forget_all]
  by_cases below : wanted < height
  · by_cases known : wanted ∈ cache.blockHashHeights
    · simp [below, known]
    · have absent : cache.blockHashHeights[wanted]? = none :=
        Std.TreeMap.getElem?_eq_none known
      simp [below, absent]
  · simp [below]

@[simp]
theorem blocks_forget (cache : BlockCache) (height : Nat) (wanted : CryptoHash) :
    (cache.forget height).blocks[wanted]? =
      if cache.blockHashHeights[height]? = some wanted then none else cache.blocks[wanted]? := by
  unfold forget
  split
  · rename_i hash entry
    rw [getElem?_erase_eq, entry]
    simp
  · rename_i absent
    simp [absent]

@[simp]
theorem blocks_forget_all {heights : List Nat} {hash : CryptoHash} :
    (heights.foldl forget cache).blocks[hash]? = some block ↔
      cache.blocks[hash]? = some block ∧
        ∀ height ∈ heights, cache.blockHashHeights[height]? ≠ some hash := by
  induction heights generalizing cache with
  | nil => simp
  | cons first rest ih =>
      rw [List.foldl_cons, ih, blocks_forget]
      by_cases named : cache.blockHashHeights[first]? = some hash
      · simp [named]
      · rw [if_neg named]
        apply and_congr_right
        intro _
        rw [List.forall_mem_cons]
        constructor
        · intro others
          refine ⟨named, ?_⟩
          intro height later entry
          have differ : first ≠ height := by
            rintro rfl
            exact named entry
          apply others height later
          rw [heights_forget, if_neg differ]
          exact entry
        · rintro ⟨_, others⟩ height later entry
          rw [heights_forget] at entry
          split_ifs at entry
          exact others height later entry

/-- The blocks that are left are those to which no entry below the height leads. -/
@[simp]
theorem blocks_confirm {hash : CryptoHash} :
    (cache.confirm height).blocks[hash]? = some block ↔
      cache.blocks[hash]? = some block ∧
        ∀ below < height, cache.blockHashHeights[below]? ≠ some hash := by
  unfold confirm
  rw [blocks_forget_all]
  apply and_congr_right
  intro _
  constructor
  · intro others below isBelow entry
    have isKey : below ∈ cache.blockHashHeights.keys :=
      Std.TreeMap.mem_keys.mpr (Std.TreeMap.getElem?_eq_some_iff.mp entry).fst
    exact others below (List.mem_filter.mpr ⟨isKey, decide_eq_true isBelow⟩) entry
  · intro others below mem
    exact others below (of_decide_eq_true (List.mem_filter.mp mem).2)

/-! ## What a cache can lose -/

/-- A cache that has nothing which the other has not. -/
structure Within (smaller cache : BlockCache) : Prop where
  heights : ∀ {height : Nat} {hash : CryptoHash},
    smaller.blockHashHeights[height]? = some hash → cache.blockHashHeights[height]? = some hash
  blocks : ∀ {hash : CryptoHash} {block : Block}, smaller.blocks[hash]? = some block →
    cache.blocks[hash]? = some block

theorem Within.refl (cache : BlockCache) : cache.Within cache := ⟨id, id⟩

theorem Within.trans {middle : BlockCache} (first : smaller.Within middle)
    (second : middle.Within cache) : smaller.Within cache :=
  ⟨second.heights ∘ first.heights, second.blocks ∘ first.blocks⟩

@[simp]
theorem blocks_remove (cache : BlockCache) (hash wanted : CryptoHash) :
    (cache.remove hash).blocks[wanted]? =
      if hash = wanted then none else cache.blocks[wanted]? := by
  unfold remove
  split
  · exact getElem?_erase_eq _ _ _
  · rename_i absent
    split_ifs with same
    · rw [← same, absent]
    · rfl

theorem within_remove (cache : BlockCache) (hash : CryptoHash) :
    (cache.remove hash).Within cache where
  heights entry := by
    unfold remove at entry
    split at entry
    · rw [getElem?_erase_eq] at entry
      split_ifs at entry
      exact entry
    · exact entry
  blocks found := by
    rw [blocks_remove] at found
    split_ifs at found
    exact found

theorem heights_of_confirm {hash : CryptoHash} {wanted : Nat}
    (entry : (cache.confirm height).blockHashHeights[wanted]? = some hash) :
    cache.blockHashHeights[wanted]? = some hash ∧ height ≤ wanted := by
  rw [heights_confirm] at entry
  split_ifs at entry with below
  exact ⟨entry, Nat.le_of_not_lt below⟩

theorem within_confirm (cache : BlockCache) (height : Nat) : (cache.confirm height).Within cache where
  heights entry := (heights_of_confirm entry).1
  blocks found := (blocks_confirm.mp found).1

theorem within_evict (cache : BlockCache) : cache.evict.Within cache := by
  unfold evict
  split_ifs
  · exact within_remove _ _
  · exact .refl cache

/-- A block of the cache after an insertion is the new one or an old one. -/
theorem blocks_of_insert {inserted : Block} {hash : CryptoHash}
    (found : (cache.insert keccak inserted).blocks[hash]? = some block) :
    block = inserted ∨ cache.blocks[hash]? = some block := by
  by_cases taken : cache.Takes inserted
  · rw [(insert_of_takes keccak taken).1, getElem?_insert_eq] at found
    split_ifs at found
    · exact .inl (Option.some.inj found).symm
    · exact .inr ((within_evict cache).blocks found)
  · rw [(insert_of_not_takes keccak taken).1] at found
    exact .inr found

/-! ## When an insertion changes nothing -/

theorem confirm_eq_self (confirmed : cache.ConfirmedAt height) : cache.confirm height = cache := by
  rcases confirmed with ⟨rfl, noneBelow⟩
  have nothing : cache.blockHashHeights.keys.filter (· < cache.height) = [] := by
    rw [List.filter_eq_nil_iff]
    intro known isKey
    simpa using noneBelow known (Std.TreeMap.mem_keys.mp isKey)
  unfold confirm
  rw [nothing]
  rfl

/-- An insertion makes no entry below the confirmed height. -/
theorem heights_insert_of_below {wanted : Nat} (below : wanted < cache.height)
    (absent : cache.blockHashHeights[wanted]? = none) :
    (cache.insert keccak block).blockHashHeights[wanted]? = none := by
  by_cases taken : cache.Takes block
  · rw [(insert_of_takes keccak taken).2, getElem?_insert_eq,
      if_neg fun same => absurd taken.1 (by omega)]
    unfold evict remove
    split_ifs
    · split
      · rw [getElem?_erase_eq, absent, ite_self]
      · exact absent
    · exact absent
  · rw [(insert_of_not_takes keccak taken).2, absent]

@[simp]
theorem maxHeight_insert (keccak : Keccak) (cache : BlockCache) (block : Block) :
    (cache.insert keccak block).maxHeight =
      if block.content.header.height < cache.height then cache.maxHeight
      else max cache.maxHeight block.content.header.height := by
  unfold insert
  dsimp only
  split_ifs
  · rfl
  · rfl
  · unfold remove
    dsimp only
    split <;> rfl
  · rfl

/-- Making room changes nothing when the block to drop is not there. -/
theorem evict_of_absent (absent : cache.Full → cache.blocks[cache.lastHash]? = none) :
    cache.evict = cache := by
  unfold evict
  split_ifs with full
  · have none := absent full
    unfold lastHash at none
    simp only [remove, none]
  · rfl

theorem evict_of_present {last : Block} (full : cache.Full)
    (found : cache.blocks[cache.lastHash]? = some last) :
    cache.evict.blocks = cache.blocks.erase cache.lastHash ∧
      cache.evict.blockHashHeights = cache.blockHashHeights.erase last.content.header.height := by
  have room : cache.evict = cache.remove cache.lastHash := if_pos full
  rw [room]
  simp only [remove, found, and_self]

/-- Making room changes nothing but the place of the block that comes. -/
theorem evict_lookup (full : cache.Full → cache.lastHash = block.hash keccak ∨
      cache.blocks[cache.lastHash]? = none)
    (found : cache.blocks[block.hash keccak]? = some block) :
    (∀ hash, block.hash keccak ≠ hash → cache.evict.blocks[hash]? = cache.blocks[hash]?) ∧
      ∀ height, block.content.header.height ≠ height →
        cache.evict.blockHashHeights[height]? = cache.blockHashHeights[height]? := by
  by_cases dropped : cache.Full ∧ cache.lastHash = block.hash keccak
  · rcases dropped with ⟨isFull, isLast⟩
    rcases evict_of_present isFull (isLast ▸ found) with ⟨blocks, heights⟩
    rw [blocks, heights, isLast]
    exact ⟨fun hash differ => by rw [getElem?_erase_eq, if_neg differ],
      fun height differ => by rw [getElem?_erase_eq, if_neg differ]⟩
  · rw [evict_of_absent fun isFull =>
      (full isFull).resolve_left fun isLast => dropped ⟨isFull, isLast⟩]
    exact ⟨fun _ _ => rfl, fun _ _ => rfl⟩

/-- An insertion changes nothing exactly when the block is known. -/
@[simp]
theorem insert_same_iff :
    (cache.insert keccak block).Same cache ↔ cache.Knows keccak block := by
  by_cases taken : cache.Takes block
  · rcases insert_of_takes keccak taken with ⟨blocks, heights⟩
    have notOld : ¬block.content.header.height < cache.height := Nat.not_lt.mpr taken.1
    constructor
    · intro same
      refine .inr ⟨?_, fun _ => ⟨?_, ?_, ?_⟩⟩
      · have maxHeight := same.maxHeight
        rw [maxHeight_insert, if_neg notOld] at maxHeight
        omega
      · rw [← same.heights, heights, getElem?_insert_eq, if_pos rfl]
      · rw [← same.blocks, blocks, getElem?_insert_eq, if_pos rfl]
      · intro full
        by_contra both
        push Not at both
        rcases both with ⟨differ, present⟩
        apply present
        rw [← same.blocks, blocks, getElem?_insert_eq, if_neg (Ne.symm differ)]
        rcases Option.ne_none_iff_exists'.mp present with ⟨last, found⟩
        rw [(evict_of_present full found).1, getElem?_erase_eq, if_pos rfl]
    · rintro (old | ⟨high, known⟩)
      · exact absurd old notOld
      · rcases known taken with ⟨named, found, last⟩
        rcases evict_lookup last found with ⟨otherBlocks, otherHeights⟩
        constructor
        · exact height_insert keccak cache block
        · rw [maxHeight_insert, if_neg notOld, max_eq_left high]
        · exact maxCacheSize_insert keccak cache block
        · intro hash
          rw [blocks, getElem?_insert_eq]
          split_ifs with same
          · rw [← same, found]
          · exact otherBlocks hash same
        · intro height
          rw [heights, getElem?_insert_eq]
          split_ifs with same
          · rw [← same, named]
          · exact otherHeights height same
  · rcases insert_of_not_takes keccak taken with ⟨blocks, heights⟩
    constructor
    · intro same
      have maxHeight := same.maxHeight
      rw [maxHeight_insert] at maxHeight
      split_ifs at maxHeight with old
      · exact .inl old
      · exact .inr ⟨by omega, fun yes => absurd yes taken⟩
    · intro known
      refine ⟨height_insert keccak cache block, ?_, maxCacheSize_insert keccak cache block,
        fun hash => by rw [blocks], fun height => by rw [heights]⟩
      rw [maxHeight_insert]
      split_ifs with old
      · rfl
      · rcases known with old' | ⟨high, _⟩
        · exact absurd old' old
        · exact max_eq_left high

/-- Confirming a height and then inserting a block changes nothing exactly when
neither does. -/
@[simp]
theorem confirm_insert_same_iff :
    ((cache.confirm height).insert keccak block).Same cache ↔
      cache.ConfirmedAt height ∧ cache.Knows keccak block := by
  constructor
  · intro same
    have confirmed : cache.ConfirmedAt height := by
      constructor
      · rw [← same.height, height_insert, height_confirm]
      · intro known isKey
        by_contra notAbove
        have below : known < height := Nat.lt_of_not_le notAbove
        have dropped : ((cache.confirm height).insert keccak block).blockHashHeights[known]? =
            none := by
          apply heights_insert_of_below
          · rwa [height_confirm]
          · rw [heights_confirm, if_pos below]
        rw [same.heights] at dropped
        rw [← Std.TreeMap.isSome_getElem?_iff_mem, dropped] at isKey
        cases isKey
    rw [confirm_eq_self confirmed, insert_same_iff] at same
    exact ⟨confirmed, same⟩
  · rintro ⟨confirmed, known⟩
    rw [confirm_eq_self confirmed]
    exact insert_same_iff.mpr known

@[simp]
theorem confirm_same_iff : (cache.confirm height).Same cache ↔ cache.ConfirmedAt height := by
  constructor
  · intro same
    constructor
    · rw [← same.height, height_confirm]
    · intro known isKey
      by_contra notAbove
      have dropped := same.heights known
      rw [heights_confirm, if_pos (Nat.lt_of_not_le notAbove)] at dropped
      rw [← Std.TreeMap.isSome_getElem?_iff_mem, ← dropped] at isKey
      cases isKey
  · intro confirmed
    rw [confirm_eq_self confirmed]
    exact Same.refl cache

end BlockCache

/-! ## A chunk that is not accepted -/

/-- The chunk is refused without an error: the roots differ, or some element of
the block is not met. -/
def OnlyLogged (poseidon : Poseidon) (notesTree : PersistentMerkleTree) (block : Block)
    (elements : List Element) : Prop :=
  ∃ rootHash,
    notesTree.tree.rootHashWith (merge poseidon) (newElements notesTree elements)
        (missingElements notesTree elements) = .ok rootHash ∧
      (rootHash ≠ block.content.state.rootHash ∨
        ∃ batch left,
          collectChanges (lastBlockElements block) (newElements notesTree elements)
              (missingElements notesTree elements) = .ok (batch, left) ∧
            left.isEmpty = false)

/-- The three ways in which a chunk is dealt with. -/
theorem chunkOutcome_eq_ok_iff {poseidon : Poseidon} {tempNoir : Bool}
    {notesTree : PersistentMerkleTree} {block : Block} {elements : List Element}
    {outcome : ChunkOutcome} :
    chunkOutcome poseidon tempNoir notesTree block elements = .ok outcome ↔
      ∃ rootHash,
        notesTree.tree.rootHashWith (merge poseidon) (newElements notesTree elements)
            (missingElements notesTree elements) = .ok rootHash ∧
          (rootHash ≠ block.content.state.rootHash ∧ .rootHashMismatch = outcome ∨
            rootHash = block.content.state.rootHash ∧
              ∃ batch left,
                collectChanges (lastBlockElements block) (newElements notesTree elements)
                    (missingElements notesTree elements) = .ok (batch, left) ∧
                  (left.isEmpty = false ∧ .missingElements left = outcome ∨
                    left.isEmpty = true ∧ ∃ changed,
                      notesTree.insertBatch (merge poseidon) tempNoir batch = .ok changed ∧
                        .applied changed = outcome)) := by
  simp only [chunkOutcome, bind_eq_ok_iff, orPanic_eq_ok_iff]
  apply exists_congr
  intro rootHash
  apply and_congr_right
  intro _
  by_cases same : rootHash = block.content.state.rootHash
  · simp only [same, ne_eq, not_true_eq_false, if_false, false_and, true_and, false_or,
      bind_eq_ok_iff, liftCollision_eq_ok_iff, Prod.exists]
    apply exists_congr
    intro batch
    apply exists_congr
    intro left
    apply and_congr_right
    intro _
    cases left.isEmpty <;> simp
  · simp [same]

theorem onlyLogged_iff {poseidon : Poseidon} (tempNoir : Bool) {notesTree : PersistentMerkleTree}
    {block : Block} {elements : List Element} :
    OnlyLogged poseidon notesTree block elements ↔
      chunkOutcome poseidon tempNoir notesTree block elements = .ok .rootHashMismatch ∨
        ∃ left, chunkOutcome poseidon tempNoir notesTree block elements =
          .ok (.missingElements left) := by
  simp only [chunkOutcome_eq_ok_iff, OnlyLogged]
  constructor
  · rintro ⟨rootHash, predicted, reason⟩
    by_cases same : rootHash = block.content.state.rootHash
    · rcases reason with differ | ⟨batch, left, collected, some⟩
      · exact absurd same differ
      · exact .inr ⟨left, rootHash, predicted, .inr ⟨same, batch, left, collected,
          .inl ⟨some, rfl⟩⟩⟩
    · exact .inl ⟨rootHash, predicted, .inl ⟨same, trivial⟩⟩
  · rintro (⟨rootHash, predicted, ⟨differ, _⟩ | ⟨_, _, _, _, ⟨_, other⟩ | ⟨_, _, _, other⟩⟩⟩ |
      ⟨_, rootHash, predicted, ⟨_, other⟩ | ⟨same, batch, left, collected,
        ⟨some, _⟩ | ⟨_, _, _, other⟩⟩⟩)
    · exact ⟨rootHash, predicted, .inl differ⟩
    · cases other
    · cases other
    · cases other
    · exact ⟨rootHash, predicted, .inr ⟨batch, left, collected, some⟩⟩
    · cases other

namespace NodeShared

variable {Key S : Type} (poseidon : Poseidon) (keccak : Keccak) (tempNoir : Bool)

/-- The chunk brings a block, and its changes are applied to the tree. -/
def Accepts (node : NodeShared Key S) (chunk : SnapshotChunkFast) : Prop :=
  ∃ block notesTree, chunk.block = some block ∧
    chunkOutcome poseidon tempNoir node.chain.notesTree block chunk.elements =
      .ok (.applied notesTree)

/-- The tree, the store and the contents of the cache are the same. -/
def Unchanged (before after : NodeShared Key S) : Prop :=
  after.chain = before.chain ∧ after.blockCache.Same before.blockCache

variable {poseidon keccak tempNoir} {node : NodeShared Key S} {chunk : SnapshotChunkFast}

/-- Where the tree is kept, the cache alone may change. -/
theorem unchanged_iff_of_kept {block : Block} (carried : chunk.block = some block)
    (kept : applyFastSnapshotChunk poseidon tempNoir node.chain.notesTree block chunk.elements =
      .ok node.chain.notesTree) :
    Unchanged node (node.handleSnapshotChunkFast poseidon keccak tempNoir chunk).1 ↔
      node.blockCache.ConfirmedAt (prevHeight block.content.header.height) ∧
        (node.mode = .validator ∨ node.blockCache.Knows keccak block) := by
  unfold handleSnapshotChunkFast receiveProposal Unchanged
  simp only [carried, kept]
  by_cases isValidator : node.mode = .validator
  · simp only [isValidator, if_true, true_or, and_true, true_and]
    exact BlockCache.confirm_same_iff
  · simp only [isValidator, if_false, false_or, true_and]
    exact BlockCache.confirm_insert_same_iff

/-- A chunk that is not accepted changes nothing exactly when it is refused with
an error or the cache is already where the block of the chunk takes it. -/
theorem rejected_chunk_unchanged_iff (rejected : ¬node.Accepts poseidon tempNoir chunk) :
    Unchanged node (node.handleSnapshotChunkFast poseidon keccak tempNoir chunk).1 ↔
      ∀ block, chunk.block = some block →
        OnlyLogged poseidon node.chain.notesTree block chunk.elements →
        node.blockCache.ConfirmedAt (prevHeight block.content.header.height) ∧
          (node.mode = .validator ∨ node.blockCache.Knows keccak block) := by
  cases carried : chunk.block with
  | none => simp [handleSnapshotChunkFast, carried, Unchanged, BlockCache.Same.refl]
  | some block =>
      simp only [Option.some.injEq, forall_eq', onlyLogged_iff tempNoir]
      cases outcome : chunkOutcome poseidon tempNoir node.chain.notesTree block
          chunk.elements with
      | error stop =>
          simp [handleSnapshotChunkFast, carried, applyFastSnapshotChunk, outcome, Unchanged,
            BlockCache.Same.refl]
      | ok result =>
          cases result with
          | applied changed => exact absurd ⟨block, changed, carried, outcome⟩ rejected
          | rootHashMismatch =>
              rw [unchanged_iff_of_kept carried (by simp [applyFastSnapshotChunk, outcome, pure,
                Except.pure])]
              simp
          | missingElements left =>
              rw [unchanged_iff_of_kept carried (by simp [applyFastSnapshotChunk, outcome, pure,
                Except.pure])]
              simp

/-- A prover that has seen nothing but the block of height zero. -/
def newProver : NodeShared Unit Unit where
  localPeer := ()
  signerAddress := 1
  validatorSets := []
  mode := .prover
  blockTxnsCount := 6
  badBlocks := []
  mempool := {}
  blockCache := BlockCache.new (fun _ => 0) (BlockCache.emptyAt 0 0) 10000
  chain := Chain.genesis

/-- A block of height five that announces a root which is not that of its chunk. -/
def wrongRoot : Block :=
  { BlockCache.emptyAt 5 0 with
    content := { (BlockCache.emptyAt 5 0).content with state := ⟨1, []⟩ } }

@[simp]
theorem chunkOutcome_wrongRoot :
    chunkOutcome (fun _ => 0) false newProver.chain.notesTree wrongRoot [] =
      .ok .rootHashMismatch := by
  apply chunkOutcome_eq_ok_iff.mpr
  exact ⟨0, rfl, .inl ⟨by decide, rfl⟩⟩

/-- The roots differ, and still the prover takes the block before the rejected
one for confirmed. -/
theorem rejected_chunk_confirms :
    ¬newProver.Accepts (fun _ => 0) false ⟨some wrongRoot, []⟩ ∧
      ¬Unchanged newProver
        (newProver.handleSnapshotChunkFast (fun _ => 0) (fun _ => 0) false
          ⟨some wrongRoot, []⟩).1 := by
  constructor
  · rintro ⟨block, notesTree, carried, applied⟩
    obtain rfl := Option.some.inj carried
    rw [chunkOutcome_wrongRoot] at applied
    cases applied
  · rw [unchanged_iff_of_kept rfl (by
      simp [applyFastSnapshotChunk, chunkOutcome_wrongRoot, pure, Except.pure])]
    rintro ⟨⟨confirmed, _⟩, _⟩
    exact absurd confirmed (by decide)

/-- A chunk with two elements on one slot is refused with a panic. -/
theorem clashing_chunk_unchanged :
    ¬newProver.Accepts (fun _ => 0) false ⟨some wrongRoot, [1, slotOfOne]⟩ ∧
      Unchanged newProver
        (newProver.handleSnapshotChunkFast (fun _ => 0) (fun _ => 0) false
          ⟨some wrongRoot, [1, slotOfOne]⟩).1 := by
  have clash : ∀ rootHash,
      newProver.chain.notesTree.tree.rootHashWith (merge fun _ => 0)
        (newElements newProver.chain.notesTree [1, slotOfOne])
        (missingElements newProver.chain.notesTree [1, slotOfOne]) ≠ .ok rootHash := by
    intro rootHash predicted
    have distinct := ((emptyTree_wellFormed.rootHashWith_eq_ok_iff MERKLE_TREE_DEPTH_pos).mp
      predicted).1
    exact absurd distinct (by decide +kernel)
  have rejected : ¬newProver.Accepts (fun _ => 0) false ⟨some wrongRoot, [1, slotOfOne]⟩ := by
    rintro ⟨block, notesTree, _, applied⟩
    rcases chunkOutcome_eq_ok_iff.mp applied with ⟨rootHash, predicted, _⟩
    exact clash rootHash predicted
  refine ⟨rejected, (rejected_chunk_unchanged_iff rejected).mpr ?_⟩
  rintro block _ ⟨rootHash, predicted, _⟩
  exact absurd predicted (clash rootHash)

end NodeShared

end Ciphera.Node
