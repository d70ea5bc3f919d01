import Ciphera.Lib.Index
import Ciphera.Node.Cache

/-!
# What the block cache keeps

The cache names its blocks by hash and by height.  Confirming and removing keep
the two in step.  Inserting does so only when no block that stays has the
height of the new one under another hash: the entry of its height then passes
to the new block, and nothing leads to the old one any more.
-/

namespace Ciphera.Node.BlockCache

open Ciphera.Lib

/-- The two maps of the cache are in bijection. -/
def Bijective (cache : BlockCache) : Prop :=
  Indexed (fun block : Block => block.content.header.height) cache.blocks cache.blockHashHeights

/-- The cache has no room left. -/
def Full (cache : BlockCache) : Prop := cache.maxCacheSize ≤ cache.blocks.size

/-- The height of the block that a full cache drops first. -/
def lastHeight (cache : BlockCache) : Nat := (cache.blockHashHeights.maxEntry?.getD (0, 0)).1

/-- The cache neither takes the block for an old one nor, being full, for one too high. -/
def Takes (cache : BlockCache) (block : Block) : Prop :=
  cache.height ≤ block.content.header.height ∧
    (cache.Full → block.content.header.height ≤ cache.lastHeight)

/-- A cached block is not the one that makes room for an insertion. -/
def Stays (cache : BlockCache) (block : Block) : Prop :=
  cache.Full → block.content.header.height ≠ cache.lastHeight

/-- A block that is taken has the height of no block that stays, unless it has
its hash as well, and then at the confirmed height it is the same block. -/
def Fits (keccak : Keccak) (cache : BlockCache) (block : Block) : Prop :=
  cache.Takes block → ∀ hash other, cache.blocks[hash]? = some other → cache.Stays other →
    (other.content.header.height = block.content.header.height ↔ hash = block.hash keccak) ∧
      (other.content.header.height = cache.height → hash = block.hash keccak → other = block)

/-- The calls on a cache. -/
inductive Op
  | insert (block : Block)
  | confirm (height : Nat)
  | remove (hash : CryptoHash)

/-- The cache after a call. -/
def apply (keccak : Keccak) (cache : BlockCache) : Op → BlockCache
  | .insert block => cache.insert keccak block
  | .confirm height => cache.confirm height
  | .remove hash => cache.remove hash

/-- The cache after a sequence of calls. -/
def run (keccak : Keccak) (cache : BlockCache) (ops : List Op) : BlockCache :=
  ops.foldl (apply keccak) cache

/-- Only an insertion can go wrong. -/
def Op.Fits (keccak : Keccak) (cache : BlockCache) : Op → Prop
  | .insert block => cache.Fits keccak block
  | .confirm _ => True
  | .remove _ => True

/-- The call leaves the confirmed height and the block of this hash alone. -/
def Op.Spares (hash : CryptoHash) : Op → Prop
  | .insert _ => True
  | .confirm _ => False
  | .remove removed => removed ≠ hash

/-- What every state of the cache satisfies as long as each insertion fits. -/
structure Consistent (keccak : Keccak) (cache : BlockCache) : Prop where
  bijective : cache.Bijective
  bounded : cache.blocks.size ≤ cache.maxCacheSize
  hashed : ∀ {hash : CryptoHash} {block : Block}, cache.blocks[hash]? = some block →
    block.hash keccak = hash
  above : ∀ {hash : CryptoHash} {block : Block}, cache.blocks[hash]? = some block →
    cache.height ≤ block.content.header.height

/-- The smaller cache has the blocks of the other one that are to be kept. -/
structure Keeps (keep : CryptoHash → Block → Prop) (cache smaller : BlockCache) : Prop where
  bijective : smaller.Bijective
  fewer : smaller.blocks.size ≤ cache.blocks.size
  maxCacheSize : smaller.maxCacheSize = cache.maxCacheSize
  blocks : ∀ {hash block}, smaller.blocks[hash]? = some block ↔
    cache.blocks[hash]? = some block ∧ keep hash block

variable {keccak : Keccak} {cache : BlockCache} {block : Block} {hash : CryptoHash} {height : Nat}

theorem Bijective.mem_heights (bijective : cache.Bijective) (found : cache.blocks[hash]? = some block) :
    block.content.header.height ∈ cache.blockHashHeights := by
  rw [← Std.TreeMap.isSome_getElem?_iff_mem, bijective.held found]
  rfl

/-! ## Removing and confirming -/

theorem Consistent.of_keeps {keep : CryptoHash → Block → Prop} {smaller : BlockCache}
    (consistent : cache.Consistent keccak) (keeps : Keeps keep cache smaller)
    (above : ∀ {hash block}, cache.blocks[hash]? = some block → keep hash block →
      smaller.height ≤ block.content.header.height) :
    smaller.Consistent keccak where
  bijective := keeps.bijective
  bounded := by
    rw [keeps.maxCacheSize]
    exact keeps.fewer.trans consistent.bounded
  hashed found := consistent.hashed (keeps.blocks.mp found).1
  above found := above (keeps.blocks.mp found).1 (keeps.blocks.mp found).2

theorem remove_keeps (bijective : cache.Bijective) (hash : CryptoHash) :
    Keeps (fun other _ => other ≠ hash) cache (cache.remove hash) := by
  unfold remove
  split
  · rename_i block found
    constructor
    · exact bijective.erase found
    · exact Std.TreeMap.size_erase_le
    · rfl
    · intro other value
      rw [getElem?_erase_eq]
      by_cases same : hash = other
      · simp [same]
      · simp [same, Ne.symm same]
  · rename_i absent
    constructor
    · exact bijective
    · exact Nat.le_refl _
    · rfl
    · intro other value
      constructor
      · intro found
        refine ⟨found, ?_⟩
        rintro rfl
        simp [absent] at found
      · exact And.left

/-- Forgetting a height removes the block of that height. -/
theorem forget_keeps (bijective : cache.Bijective) (height : Nat) :
    Keeps (fun _ block => block.content.header.height ≠ height) cache (cache.forget height) := by
  cases entry : cache.blockHashHeights[height]? with
  | none =>
      have same : cache.forget height = cache := by simp only [forget, entry]
      rw [same]
      constructor
      · exact bijective
      · exact Nat.le_refl _
      · rfl
      · intro hash block
        constructor
        · intro found
          refine ⟨found, ?_⟩
          rintro rfl
          rw [bijective.held found] at entry
          cases entry
        · exact And.left
  | some hash =>
      rcases bijective.named entry with ⟨block, found, rfl⟩
      have same : cache.forget block.content.header.height = cache.remove hash := by
        simp only [forget, remove, entry, found]
      rw [same]
      have keeps := remove_keeps bijective hash
      constructor
      · exact keeps.bijective
      · exact keeps.fewer
      · exact keeps.maxCacheSize
      · intro other value
        rw [keeps.blocks]
        constructor
        · rintro ⟨holds, differ⟩
          exact ⟨holds, fun sameHeight => differ (bijective.key_unique found holds sameHeight)⟩
        · rintro ⟨holds, differ⟩
          refine ⟨holds, ?_⟩
          rintro rfl
          rw [found] at holds
          exact differ (by rw [Option.some.inj holds])

theorem forget_all_keeps (bijective : cache.Bijective) (heights : List Nat) :
    Keeps (fun _ block => block.content.header.height ∉ heights) cache
      (heights.foldl forget cache) := by
  induction heights generalizing cache with
  | nil => exact ⟨bijective, Nat.le_refl _, rfl, by simp⟩
  | cons first rest ih =>
      have once := forget_keeps bijective first
      have others := ih once.bijective
      constructor
      · exact others.bijective
      · exact others.fewer.trans once.fewer
      · exact others.maxCacheSize.trans once.maxCacheSize
      · intro hash block
        rw [List.foldl_cons, others.blocks, once.blocks, List.mem_cons, not_or, and_assoc]

@[simp]
theorem height_forget (cache : BlockCache) (height : Nat) :
    (cache.forget height).height = cache.height := by
  unfold forget
  split <;> rfl

@[simp]
theorem height_confirm (cache : BlockCache) (height : Nat) :
    (cache.confirm height).height = height := by
  have fold : ∀ (heights : List Nat) (cache : BlockCache),
      (heights.foldl forget cache).height = cache.height := by
    intro heights
    induction heights with
    | nil => exact fun _ => rfl
    | cons first rest ih => exact fun cache => (ih _).trans (height_forget cache first)
  exact fold _ _

/-- Confirming a height drops the blocks below it. -/
theorem confirm_keeps (bijective : cache.Bijective) (height : Nat) :
    Keeps (fun _ block => height ≤ block.content.header.height) cache (cache.confirm height) := by
  have moved : BlockCache.Bijective { cache with height } := bijective
  have keeps := forget_all_keeps moved (cache.blockHashHeights.keys.filter (· < height))
  constructor
  · exact keeps.bijective
  · exact keeps.fewer
  · exact keeps.maxCacheSize
  · intro hash block
    apply keeps.blocks.trans
    apply and_congr_right
    intro found
    have isKey : block.content.header.height ∈ cache.blockHashHeights.keys :=
      Std.TreeMap.mem_keys.mpr (bijective.mem_heights found)
    simp [isKey]

theorem Consistent.remove (consistent : cache.Consistent keccak) (hash : CryptoHash) :
    (cache.remove hash).Consistent keccak := by
  apply consistent.of_keeps (remove_keeps consistent.bijective hash)
  intro other block found _
  rw [height_remove]
  exact consistent.above found

theorem Consistent.confirm (consistent : cache.Consistent keccak) (height : Nat) :
    (cache.confirm height).Consistent keccak := by
  apply consistent.of_keeps (confirm_keeps consistent.bijective height)
  intro other block _ atLeast
  rw [height_confirm]
  exact atLeast

/-! ## Making room -/

/-- The cache after it has made room for a block that it takes. -/
def evict (cache : BlockCache) : BlockCache :=
  if cache.maxCacheSize ≤ cache.blocks.size then
    cache.remove (cache.blockHashHeights.maxEntry?.getD (0, 0)).2
  else cache

/-- A full cache holds a block at its last height and none above it. -/
theorem last_of_full (consistent : cache.Consistent keccak) (room : 2 ≤ cache.maxCacheSize)
    (full : cache.Full) :
    ∃ hash last, cache.blockHashHeights.maxEntry? = some (cache.lastHeight, hash) ∧
      cache.blocks[hash]? = some last ∧ last.content.header.height = cache.lastHeight ∧
      cache.height < cache.lastHeight := by
  have several : 2 ≤ cache.blocks.size := room.trans full
  have nonempty : cache.blocks.isEmpty = false := by
    rw [Std.TreeMap.isEmpty_eq_size_eq_zero]
    simp
    omega
  rcases Std.TreeMap.isEmpty_eq_false_iff_exists_mem.mp nonempty with ⟨hash, isKey⟩
  rw [← Std.TreeMap.isSome_getElem?_iff_mem, Option.isSome_iff_exists] at isKey
  rcases isKey with ⟨block, found⟩
  rcases exists_maxEntry? (consistent.bijective.mem_heights found) with ⟨⟨top, topHash⟩, greatest⟩
  have isLast : cache.lastHeight = top := by simp [lastHeight, greatest]
  rcases of_maxEntry? greatest with ⟨named, noneAbove⟩
  rcases consistent.bijective.named named with ⟨last, holds, atTop⟩
  refine ⟨topHash, last, by rw [isLast, greatest], holds, by rw [isLast, ← atTop], ?_⟩
  rw [isLast]
  by_contra notAbove
  have oneHeight : ∀ {hash : CryptoHash} {block : Block}, cache.blocks[hash]? = some block →
      block.content.header.height = top := by
    intro hash block found
    have notAboveTop := Nat.isLE_compare.mp
      (noneAbove _ (consistent.bijective.mem_heights found))
    have atLeast := consistent.above found
    omega
  have single := consistent.bijective.size_le_one oneHeight
  omega

theorem evict_keeps (consistent : cache.Consistent keccak) (room : 2 ≤ cache.maxCacheSize) :
    Keeps (fun _ block => cache.Stays block) cache cache.evict := by
  unfold evict
  split_ifs with full
  · rcases last_of_full consistent room full with ⟨hash, last, greatest, found, atLast, _⟩
    have keeps := remove_keeps consistent.bijective hash
    rw [greatest, Option.getD_some]
    constructor
    · exact keeps.bijective
    · exact keeps.fewer
    · exact keeps.maxCacheSize
    · intro other block
      rw [keeps.blocks]
      apply and_congr_right
      intro holds
      constructor
      · intro differ _ alsoLast
        exact differ (consistent.bijective.key_unique found holds (alsoLast.trans atLast.symm))
      · rintro stays rfl
        rw [found] at holds
        exact stays full (by rw [← Option.some.inj holds, atLast])
  · exact ⟨consistent.bijective, Nat.le_refl _, rfl,
      fun {_ _} => ⟨fun found => ⟨found, fun full => absurd full ‹_›⟩, And.left⟩⟩

/-- After making room there is room. -/
theorem size_evict (consistent : cache.Consistent keccak) (room : 2 ≤ cache.maxCacheSize) :
    cache.evict.blocks.size < cache.maxCacheSize := by
  unfold evict
  split_ifs with full
  · rcases last_of_full consistent room full with ⟨hash, last, greatest, found, _, _⟩
    have isKey : cache.blocks.contains hash = true := by
      rw [← Std.TreeMap.isSome_getElem?_eq_contains, found]
      rfl
    have bounded := consistent.bounded
    rw [greatest, Option.getD_some]
    simp only [remove, found, Std.TreeMap.size_erase, isKey, if_true]
    omega
  · exact Nat.lt_of_not_le full

/-! ## Inserting -/

/-- The two guards of `insert`. -/
theorem takes_iff : cache.Takes block ↔ ¬block.content.header.height < cache.height ∧
    ¬(decide (cache.maxCacheSize ≤ cache.blocks.size) &&
      decide ((cache.blockHashHeights.maxEntry?.getD (0, 0)).1 <
        block.content.header.height)) = true := by
  simp only [Takes, Full, lastHeight, Bool.and_eq_true, decide_eq_true_eq, not_and, Nat.not_lt]

/-- A block that the cache does not take leaves the two maps alone. -/
theorem insert_of_not_takes (keccak : Keccak) (refused : ¬cache.Takes block) :
    (cache.insert keccak block).blocks = cache.blocks ∧
      (cache.insert keccak block).blockHashHeights = cache.blockHashHeights := by
  rw [takes_iff] at refused
  unfold insert
  dsimp only
  split_ifs with old high
  · exact ⟨rfl, rfl⟩
  · exact ⟨rfl, rfl⟩
  · exact absurd ⟨old, high⟩ refused
  · exact absurd ⟨old, high⟩ refused

theorem insert_of_takes (keccak : Keccak) (taken : cache.Takes block) :
    (cache.insert keccak block).blocks = cache.evict.blocks.insert (block.hash keccak) block ∧
      (cache.insert keccak block).blockHashHeights =
        cache.evict.blockHashHeights.insert block.content.header.height (block.hash keccak) := by
  rw [takes_iff] at taken
  unfold insert evict
  dsimp only
  rw [if_neg taken.1, if_neg taken.2]
  by_cases full : cache.maxCacheSize ≤ cache.blocks.size
  · simp only [full, decide_true, if_true]
    unfold remove
    dsimp only
    split <;> exact ⟨rfl, rfl⟩
  · simp only [full, decide_false, if_false]
    exact ⟨rfl, rfl⟩

/-- A cache with room takes a block that is not old as it is. -/
theorem insert_of_room (keccak : Keccak) (room : ¬cache.Full)
    (notOld : cache.height ≤ block.content.header.height) :
    (cache.insert keccak block).blocks = cache.blocks.insert (block.hash keccak) block ∧
      (cache.insert keccak block).blockHashHeights =
        cache.blockHashHeights.insert block.content.header.height (block.hash keccak) := by
  have same : cache.evict = cache := if_neg room
  have taken : cache.Takes block := ⟨notOld, fun full => absurd full room⟩
  have inserted := insert_of_takes keccak taken
  rwa [same] at inserted

/-- A new cache has its block and nothing else. -/
theorem maps_new (keccak : Keccak) (startBlock : Block) {maxCacheSize : Nat}
    (positive : 0 < maxCacheSize) :
    (new keccak startBlock maxCacheSize).blocks =
        (∅ : Std.TreeMap CryptoHash Block).insert (startBlock.hash keccak) startBlock ∧
      (new keccak startBlock maxCacheSize).blockHashHeights =
        (∅ : Std.TreeMap Nat CryptoHash).insert startBlock.content.header.height
          (startBlock.hash keccak) := by
  apply insert_of_room
  · exact Nat.not_le_of_gt positive
  · exact Nat.le_refl _

@[simp]
theorem maxCacheSize_remove (cache : BlockCache) (hash : CryptoHash) :
    (cache.remove hash).maxCacheSize = cache.maxCacheSize := by
  unfold remove
  split <;> rfl

@[simp]
theorem maxCacheSize_insert (keccak : Keccak) (cache : BlockCache) (block : Block) :
    (cache.insert keccak block).maxCacheSize = cache.maxCacheSize := by
  unfold insert
  dsimp only
  split_ifs
  · rfl
  · rfl
  · exact maxCacheSize_remove _ _
  · rfl

/-- Inserting a block keeps the two maps in bijection exactly when no block
that stays has its height or its hash without the other. -/
theorem bijective_insert_iff (consistent : cache.Consistent keccak)
    (room : 2 ≤ cache.maxCacheSize) (taken : cache.Takes block) :
    (cache.insert keccak block).Bijective ↔
      ∀ hash other, cache.blocks[hash]? = some other → cache.Stays other →
        (other.content.header.height = block.content.header.height ↔ hash = block.hash keccak) := by
  have keeps := evict_keeps consistent room
  rcases insert_of_takes keccak taken with ⟨blocks, heights⟩
  unfold Bijective
  rw [blocks, heights, keeps.bijective.insert_iff]
  constructor
  · intro apart hash other found stays
    exact apart hash other (keeps.blocks.mpr ⟨found, stays⟩)
  · intro apart hash other found
    rcases keeps.blocks.mp found with ⟨holds, stays⟩
    exact apart hash other holds stays

theorem Consistent.insert (consistent : cache.Consistent keccak) (room : 2 ≤ cache.maxCacheSize)
    (fits : cache.Fits keccak block) : (cache.insert keccak block).Consistent keccak := by
  by_cases taken : cache.Takes block
  · have keeps := evict_keeps consistent room
    rcases insert_of_takes keccak taken with ⟨blocks, heights⟩
    have found : ∀ {hash other}, (cache.insert keccak block).blocks[hash]? = some other →
        (hash = block.hash keccak ∧ other = block) ∨ cache.blocks[hash]? = some other := by
      intro hash other holds
      rw [blocks, getElem?_insert_eq] at holds
      split_ifs at holds with same
      · exact .inl ⟨same.symm, (Option.some.inj holds).symm⟩
      · exact .inr (keeps.blocks.mp holds).1
    constructor
    · apply (bijective_insert_iff consistent room taken).mpr
      intro hash other holds stays
      exact (fits taken hash other holds stays).1
    · rw [maxCacheSize_insert, blocks]
      exact Std.TreeMap.size_insert_le.trans (size_evict consistent room)
    · intro hash other holds
      rcases found holds with ⟨rfl, rfl⟩ | before
      · rfl
      · exact consistent.hashed before
    · intro hash other holds
      rw [height_insert]
      rcases found holds with ⟨rfl, rfl⟩ | before
      · exact taken.1
      · exact consistent.above before
  · rcases insert_of_not_takes keccak taken with ⟨blocks, heights⟩
    constructor
    · unfold Bijective
      rw [blocks, heights]
      exact consistent.bijective
    · rw [maxCacheSize_insert, blocks]
      exact consistent.bounded
    · rw [blocks]
      exact consistent.hashed
    · rw [blocks, height_insert]
      exact consistent.above

/-! ## The block at a height -/

theorem getByHeight_eq_some_iff (bijective : cache.Bijective) :
    cache.getByHeight height = some block ↔
      ∃ hash : CryptoHash, cache.blocks[hash]? = some block ∧
        block.content.header.height = height := by
  unfold getByHeight
  rw [Option.bind_eq_some_iff]
  constructor
  · rintro ⟨hash, named, found⟩
    rcases bijective.named named with ⟨other, holds, atHeight⟩
    obtain rfl : other = block := Option.some.inj (holds.symm.trans found)
    exact ⟨hash, found, atHeight⟩
  · rintro ⟨hash, found, rfl⟩
    exact ⟨hash, bijective.held found, found⟩

/-- The confirmed block is not the one that makes room. -/
theorem stays_of_confirmed (consistent : cache.Consistent keccak)
    (room : 2 ≤ cache.maxCacheSize) (confirmed : block.content.header.height = cache.height) :
    cache.Stays block := by
  intro full isLast
  rcases last_of_full consistent room full with ⟨_, _, _, _, _, above⟩
  omega

theorem getByHeight_insert (consistent : cache.Consistent keccak)
    (room : 2 ≤ cache.maxCacheSize) {inserted : Block} (fits : cache.Fits keccak inserted)
    (present : cache.getByHeight cache.height = some block) :
    (cache.insert keccak inserted).getByHeight cache.height = some block := by
  have after := consistent.insert room fits
  rcases (getByHeight_eq_some_iff consistent.bijective).mp present with ⟨hash, found, confirmed⟩
  apply (getByHeight_eq_some_iff after.bijective).mpr
  refine ⟨hash, ?_, confirmed⟩
  by_cases taken : cache.Takes inserted
  · have stays := stays_of_confirmed consistent room confirmed
    rw [(insert_of_takes keccak taken).1, getElem?_insert_eq]
    split_ifs with same
    · rw [(fits taken hash block found stays).2 confirmed same.symm]
    · exact (evict_keeps consistent room).blocks.mpr ⟨found, stays⟩
  · rw [(insert_of_not_takes keccak taken).1, found]

theorem getByHeight_remove (consistent : cache.Consistent keccak) {removed : CryptoHash}
    (differ : removed ≠ block.hash keccak) (present : cache.getByHeight height = some block) :
    (cache.remove removed).getByHeight height = some block := by
  have keeps := remove_keeps consistent.bijective removed
  rcases (getByHeight_eq_some_iff consistent.bijective).mp present with ⟨hash, found, atHeight⟩
  apply (getByHeight_eq_some_iff keeps.bijective).mpr
  refine ⟨hash, keeps.blocks.mpr ⟨found, ?_⟩, atHeight⟩
  rintro rfl
  exact differ (consistent.hashed found).symm

/-! ## One call -/

variable {op : Op}

theorem Consistent.apply (consistent : cache.Consistent keccak) (room : 2 ≤ cache.maxCacheSize)
    (fits : op.Fits keccak cache) : (cache.apply keccak op).Consistent keccak := by
  cases op with
  | insert block => exact consistent.insert room fits
  | confirm height => exact consistent.confirm height
  | remove hash => exact consistent.remove hash

@[simp]
theorem maxCacheSize_apply (consistent : cache.Consistent keccak) (op : Op) :
    (cache.apply keccak op).maxCacheSize = cache.maxCacheSize := by
  cases op with
  | insert block => exact maxCacheSize_insert keccak cache block
  | confirm height => exact (confirm_keeps consistent.bijective height).maxCacheSize
  | remove hash => exact maxCacheSize_remove cache hash

/-- The confirmed block stays through a call that is not about it. -/
theorem present_apply (consistent : cache.Consistent keccak) (room : 2 ≤ cache.maxCacheSize)
    (fits : op.Fits keccak cache) (spares : op.Spares (block.hash keccak))
    (present : cache.getByHeight cache.height = some block) :
    (cache.apply keccak op).height = cache.height ∧
      (cache.apply keccak op).getByHeight cache.height = some block := by
  cases op with
  | insert inserted =>
      exact ⟨height_insert keccak cache inserted, getByHeight_insert consistent room fits present⟩
  | confirm height => exact spares.elim
  | remove removed =>
      exact ⟨height_remove cache removed, getByHeight_remove consistent spares present⟩

/-- A call that keeps the maps in bijection and the confirmed block in place fits. -/
theorem fits_of_apply (consistent : cache.Consistent keccak) (room : 2 ≤ cache.maxCacheSize)
    (bijective : (cache.apply keccak op).Bijective)
    (stays : ∀ block, cache.getByHeight cache.height = some block → op.Spares (block.hash keccak) →
      (cache.apply keccak op).getByHeight cache.height = some block) :
    op.Fits keccak cache := by
  cases op with
  | confirm height => trivial
  | remove hash => trivial
  | insert block =>
      intro taken hash other found otherStays
      have apart := (bijective_insert_iff consistent room taken).mp bijective hash other found
        otherStays
      refine ⟨apart, ?_⟩
      intro confirmed sameHash
      have present := stays other
        ((getByHeight_eq_some_iff consistent.bijective).mpr ⟨hash, found, confirmed⟩) trivial
      have replaced : (cache.insert keccak block).getByHeight cache.height = some block := by
        apply (getByHeight_eq_some_iff bijective).mpr
        refine ⟨block.hash keccak, ?_, (apart.mpr sameHash).symm.trans confirmed⟩
        show (cache.insert keccak block).blocks[block.hash keccak]? = some block
        rw [(insert_of_takes keccak taken).1, getElem?_insert_eq, if_pos rfl]
      exact Option.some.inj (present.symm.trans replaced)

/-! ## Every sequence of calls -/

/-- A new cache is consistent. -/
theorem consistent_new (keccak : Keccak) (startBlock : Block) {maxCacheSize : Nat}
    (room : 2 ≤ maxCacheSize) : (new keccak startBlock maxCacheSize).Consistent keccak := by
  apply Consistent.insert _ room
  · intro _ hash other found
    simp at found
  · constructor
    · constructor
      · intro place key named
        simp at named
      · intro key item found
        simp at found
    · exact Nat.zero_le _
    · intro hash block found
      simp at found
    · intro hash block found
      simp at found

@[simp]
theorem maxCacheSize_new (keccak : Keccak) (startBlock : Block) (maxCacheSize : Nat) :
    (new keccak startBlock maxCacheSize).maxCacheSize = maxCacheSize :=
  maxCacheSize_insert _ _ _

@[simp]
theorem run_snoc (keccak : Keccak) (cache : BlockCache) (ops : List Op) (op : Op) :
    cache.run keccak (ops ++ [op]) = (cache.run keccak ops).apply keccak op :=
  List.foldl_concat ..

/-- The invariant of a run, with the size it started with. -/
theorem consistent_run (consistent : cache.Consistent keccak) (room : 2 ≤ cache.maxCacheSize)
    {ops : List Op}
    (fits : ∀ earlier op, earlier ++ [op] <+: ops → op.Fits keccak (cache.run keccak earlier)) :
    (cache.run keccak ops).Consistent keccak ∧
      (cache.run keccak ops).maxCacheSize = cache.maxCacheSize := by
  induction ops using List.reverseRecOn with
  | nil => exact ⟨consistent, rfl⟩
  | append_singleton ops op ih =>
      rcases ih fun earlier op isPrefix => fits earlier op
        (isPrefix.trans (List.prefix_append _ _)) with ⟨before, sameSize⟩
      rw [run_snoc]
      constructor
      · exact before.apply (sameSize ▸ room) (fits ops op (List.prefix_refl _))
      · exact (maxCacheSize_apply before op).trans sameSize

/-- The confirmed block stays through every run of calls that are not about it. -/
theorem present_run (consistent : cache.Consistent keccak) (room : 2 ≤ cache.maxCacheSize)
    {ops : List Op}
    (fits : ∀ earlier op, earlier ++ [op] <+: ops → op.Fits keccak (cache.run keccak earlier))
    (spares : ∀ op ∈ ops, op.Spares (block.hash keccak))
    (present : cache.getByHeight cache.height = some block) :
    (cache.run keccak ops).height = cache.height ∧
      (cache.run keccak ops).getByHeight cache.height = some block := by
  induction ops using List.reverseRecOn with
  | nil => exact ⟨rfl, present⟩
  | append_singleton ops op ih =>
      have earlierFits : ∀ earlier op, earlier ++ [op] <+: ops →
          op.Fits keccak (cache.run keccak earlier) := fun earlier op isPrefix =>
        fits earlier op (isPrefix.trans (List.prefix_append _ _))
      rcases consistent_run consistent room earlierFits with ⟨before, sameSize⟩
      rcases ih earlierFits fun op isOp => spares op (List.mem_append_left _ isOp) with
        ⟨sameHeight, still⟩
      rw [← sameHeight] at still
      rcases present_apply before (sameSize ▸ room) (fits ops op (List.prefix_refl _))
        (spares op (by simp)) still with ⟨height, kept⟩
      rw [run_snoc]
      exact ⟨height.trans sameHeight, sameHeight ▸ kept⟩

/-- What the cache promises over a sequence of calls: its maps are in bijection
and hold no more blocks than they may, and the confirmed block stays until the
next one is confirmed or it is removed itself. -/
def Keeping (keccak : Keccak) (cache : BlockCache) (ops : List Op) : Prop :=
  ∀ earlier later, earlier ++ later <+: ops →
    (cache.run keccak earlier).Bijective ∧
      (cache.run keccak earlier).blocks.size ≤ cache.maxCacheSize ∧
      ∀ block, (cache.run keccak earlier).getByHeight (cache.run keccak earlier).height =
          some block →
        (∀ op ∈ later, op.Spares (block.hash keccak)) →
        (cache.run keccak (earlier ++ later)).getByHeight (cache.run keccak earlier).height =
          some block

/-- Where the promise holds, every insertion fits. -/
theorem fits_of_keeping (consistent : cache.Consistent keccak) (room : 2 ≤ cache.maxCacheSize)
    {ops : List Op} (keeping : cache.Keeping keccak ops) :
    ∀ earlier op, earlier ++ [op] <+: ops → op.Fits keccak (cache.run keccak earlier) := by
  induction ops using List.reverseRecOn with
  | nil =>
      intro earlier op isPrefix
      simp at isPrefix
  | append_singleton ops last ih =>
      have earlierFits := ih fun earlier later isPrefix =>
        keeping earlier later (isPrefix.trans (List.prefix_append _ _))
      intro earlier op isPrefix
      rcases List.prefix_concat_iff.mp isPrefix with whole | shorter
      · rcases List.append_inj' whole rfl with ⟨rfl, sameOp⟩
        obtain rfl := List.singleton_inj.mp sameOp
        -- the calls before fit, so the cache was consistent when this one came
        rcases consistent_run consistent room earlierFits with ⟨before, sameSize⟩
        apply fits_of_apply before (sameSize ▸ room)
        · have after := (keeping (earlier ++ [op]) [] (by simp)).1
          rwa [run_snoc] at after
        · intro block present spares
          have kept := (keeping earlier [op] (List.prefix_refl _)).2.2 block present
            (by simpa using spares)
          rwa [run_snoc] at kept
      · exact earlierFits earlier op shorter

/-- The promise holds over a sequence of calls exactly when every insertion of
it fits. -/
theorem keeping_iff_fits (keccak : Keccak) (startBlock : Block) {maxCacheSize : Nat}
    (room : 2 ≤ maxCacheSize) (ops : List Op) :
    (new keccak startBlock maxCacheSize).Keeping keccak ops ↔
      ∀ earlier op, earlier ++ [op] <+: ops →
        op.Fits keccak ((new keccak startBlock maxCacheSize).run keccak earlier) := by
  have start := consistent_new keccak startBlock room
  have startRoom : 2 ≤ (new keccak startBlock maxCacheSize).maxCacheSize :=
    (maxCacheSize_new keccak startBlock maxCacheSize).symm ▸ room
  generalize new keccak startBlock maxCacheSize = cache at start startRoom
  constructor
  · exact fits_of_keeping start startRoom
  · intro fits earlier later isPrefix
    have earlierFits : ∀ first op, first ++ [op] <+: earlier →
        op.Fits keccak (cache.run keccak first) := fun first op isFirst =>
      fits first op ((isFirst.trans (List.prefix_append _ _)).trans isPrefix)
    rcases consistent_run start startRoom earlierFits with ⟨before, sameSize⟩
    refine ⟨before.bijective, sameSize ▸ before.bounded, ?_⟩
    intro block present spares
    have appended : cache.run keccak (earlier ++ later) =
        (cache.run keccak earlier).run keccak later := List.foldl_append ..
    rw [appended]
    apply (present_run before (sameSize ▸ startRoom) _ spares present).2
    intro first op isFirst
    have joined : (cache.run keccak earlier).run keccak first =
        cache.run keccak (earlier ++ first) := (List.foldl_append ..).symm
    rw [joined]
    apply fits
    rw [List.append_assoc]
    exact ((List.prefix_append_right_inj earlier).mpr isFirst).trans isPrefix

/-- An empty block. -/
def emptyAt (height epochId : Nat) : Block :=
  { content :=
      { header := { height, lastBlockHash := 0, epochId, lastFinalBlockHash := 0, approvals := [] }
        state := { rootHash := 0, txns := [] } }
    signature := { r := 0, s := 0, v := 0 } }

/-- A digest that tells the few blocks below apart. -/
def mixing : Keccak := fun bytes =>
  BitVec.ofNat 256 (bytes.foldl (fun digest byte => 257 * digest + byte.toNat) 1)

/-- Of two blocks of height one, nothing leads to the first any more, and it is
still there after the cache has moved on. -/
theorem displaced_block_stays :
    ¬(new mixing (emptyAt 0 0) 3).Keeping mixing
        [.insert (emptyAt 1 0), .insert (emptyAt 1 1), .confirm 2] ∧
      ((new mixing (emptyAt 0 0) 3).run mixing
        [.insert (emptyAt 1 0), .insert (emptyAt 1 1), .confirm 2]).blocks[
          (emptyAt 1 0).hash mixing]? = some (emptyAt 1 0) := by
  constructor
  · intro keeping
    have bijective := (keeping [.insert (emptyAt 1 0), .insert (emptyAt 1 1)] [.confirm 2]
      (List.prefix_refl _)).1
    have found : ((new mixing (emptyAt 0 0) 3).run mixing
        [.insert (emptyAt 1 0), .insert (emptyAt 1 1)]).blocks[(emptyAt 1 0).hash mixing]? =
          some (emptyAt 1 0) := by decide +kernel
    exact absurd (bijective.held found) (by decide +kernel)
  · decide +kernel

/-- One block at each height keeps the promise. -/
theorem keeping_two_heights : 2 ≤ 3 ∧
    (new mixing (emptyAt 0 0) 3).Keeping mixing [.insert (emptyAt 1 0)] := by
  refine ⟨by decide, (keeping_iff_fits mixing (emptyAt 0 0) (by decide) _).mpr ?_⟩
  intro earlier op isPrefix
  have length := isPrefix.length_le
  have noneBefore : earlier = [] := by simpa using length
  obtain rfl : op = .insert (emptyAt 1 0) := by simpa [noneBefore] using isPrefix
  rw [noneBefore]
  intro _ hash other found _
  have only := (maps_new mixing (emptyAt 0 0) (show 0 < 3 by decide)).1
  rw [show run mixing (new mixing (emptyAt 0 0) 3) [] = new mixing (emptyAt 0 0) 3 from rfl, only,
    getElem?_insert_eq] at found
  split_ifs at found with same
  · obtain rfl := Option.some.inj found
    obtain rfl := same
    have differ : (emptyAt 0 0).hash mixing ≠ (emptyAt 1 0).hash mixing := by decide +kernel
    exact ⟨iff_of_false (by decide) differ, fun _ sameHash => absurd sameHash differ⟩
  · simp at found

end Ciphera.Node.BlockCache
