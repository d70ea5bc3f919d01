import Ciphera.Node.Block

/-!
# The block cache

A node keeps its last confirmed block and the blocks above it that it has
received, by hash and by height.  A full cache makes room for a lower block by
dropping the highest one, and refuses a higher block.
-/

namespace Ciphera.Node

/-- The blocks that wait for their commit, by hash and by height. -/
structure BlockCache where
  height : Nat
  maxHeight : Nat
  blocks : Std.TreeMap CryptoHash Block := ∅
  blockHashHeights : Std.TreeMap Nat CryptoHash := ∅
  maxCacheSize : Nat

namespace BlockCache

/-- The hash of the confirmed block. -/
def hash (cache : BlockCache) : Except String CryptoHash :=
  match cache.blockHashHeights[cache.height]? with
  | some hash => .ok hash
  | none => .error "called unwrap on a None value"

/-- Drop the block with a hash. -/
def remove (cache : BlockCache) (hash : CryptoHash) : BlockCache :=
  match cache.blocks[hash]? with
  | some block =>
      { cache with
        blocks := cache.blocks.erase hash
        blockHashHeights := cache.blockHashHeights.erase block.content.header.height }
  | none => cache

/-- Add a block that is not old; where the cache is full, the highest one has to go. -/
def insert (keccak : Keccak) (cache : BlockCache) (block : Block) : BlockCache :=
  let height := block.content.header.height
  -- old blocks are not added
  if height < cache.height then cache
  else
    let (maxHeight, maxHash) := cache.blockHashHeights.maxEntry?.getD (0, 0)
    let cacheAtCapacity := decide (cache.maxCacheSize ≤ cache.blocks.size)
    let cache := { cache with maxHeight := max cache.maxHeight height }
    if cacheAtCapacity && maxHeight < height then cache
    else
      let cache := if cacheAtCapacity then cache.remove maxHash else cache
      { cache with
        blocks := cache.blocks.insert (block.hash keccak) block
        blockHashHeights := cache.blockHashHeights.insert height (block.hash keccak) }

/-- The cache with the block that the node starts from. -/
def new (keccak : Keccak) (startBlock : Block) (maxCacheSize : Nat) : BlockCache :=
  let startHeight := startBlock.content.header.height
  insert keccak { height := startHeight, maxHeight := startHeight, maxCacheSize } startBlock

/-- Forget the block at a height below the confirmed one. -/
def forget (cache : BlockCache) (height : Nat) : BlockCache :=
  match cache.blockHashHeights[height]? with
  | some hash =>
      { cache with
        blocks := cache.blocks.erase hash
        blockHashHeights := cache.blockHashHeights.erase height }
  | none => cache

/-- Forget the blocks below a new height. -/
def confirm (cache : BlockCache) (height : Nat) : BlockCache :=
  (cache.blockHashHeights.keys.filter (· < height)).foldl forget { cache with height }

/-- The block at a height. -/
def getByHeight (cache : BlockCache) (height : Nat) : Option Block :=
  cache.blockHashHeights[height]?.bind fun hash => cache.blocks[hash]?

/-- The block that is committed next. -/
def getNextCommitBlock (cache : BlockCache) : Option Block := cache.getByHeight (cache.height + 1)

/-- The next block has an entry, which leads to it. -/
theorem getNextCommitBlock_eq_some_iff {cache : BlockCache} {block : Block} :
    cache.getNextCommitBlock = some block ↔
      ∃ hash, cache.blockHashHeights[cache.height + 1]? = some hash ∧
        cache.blocks[hash]? = some block :=
  Option.bind_eq_some_iff

/-- Whether a block that the node has heard of is missing. -/
def isOutOfSync (cache : BlockCache) : Except String Bool :=
  match cache.blockHashHeights.maxKey? with
  | none => .error "called unwrap on a None value"
  | some last =>
      .ok (last < cache.maxHeight ||
        (List.range' (cache.height + 1) (cache.maxHeight - cache.height)).any fun height =>
          !cache.blockHashHeights.contains height)

/-- A new cache knows the hash of its block. -/
@[simp]
theorem hash_new {keccak : Keccak} {startBlock : Block} {maxCacheSize : Nat}
    (positive : 0 < maxCacheSize) :
    (new keccak startBlock maxCacheSize).hash = .ok (startBlock.hash keccak) := by
  have room : ¬maxCacheSize ≤ 0 := Nat.not_le_of_gt positive
  simp [new, insert, hash, Std.TreeMap.size_emptyc, room]

/-! ## Heights -/

@[simp]
theorem height_remove (cache : BlockCache) (hash : CryptoHash) :
    (cache.remove hash).height = cache.height := by
  unfold remove
  split <;> rfl

/-- Only confirming a block moves the height. -/
@[simp]
theorem height_insert (keccak : Keccak) (cache : BlockCache) (block : Block) :
    (cache.insert keccak block).height = cache.height := by
  unfold insert
  dsimp only
  split_ifs
  · rfl
  · rfl
  · exact height_remove _ _
  · rfl

@[simp]
theorem height_new (keccak : Keccak) (startBlock : Block) (maxCacheSize : Nat) :
    (new keccak startBlock maxCacheSize).height = startBlock.content.header.height :=
  height_insert _ _ _

end BlockCache

end Ciphera.Node
