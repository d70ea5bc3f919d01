import Ciphera.BlockStore.Indexes
import Ciphera.Lib.Check

/-!
# Migration of the block store

A store of the first version has the blocks, their greatest height and the hash index.
Migrating it writes the transactions by hash and the blocks that are not empty, from
the lowest block to the highest, and then the version.  The history of elements and
the mint hashes came later under the same version, and are not written.

A migrated store has therefore the indexes of one in which the same blocks have been
set exactly if no transaction of them has inputs, outputs or a mint hash.
-/

namespace Ciphera.BlockStore

open Ciphera.Lib

/-- The version that the code writes. -/
def LATEST_VERSION : Nat := 1

/-- Why a store is not opened. -/
inductive Error
  | invalidVersion (version : Nat)
  deriving DecidableEq, Repr

/-- A store with its version. -/
structure Versioned (B T : Type) where
  store : BlockStore B T
  storeVersion : Nat

variable {B T : Type}

/-- `list` of all blocks, from the lowest to the highest. -/
def list (store : BlockStore B T) : List B := store.blocks.toList.map Prod.snd

/-- The batch that the migration writes for a block. -/
def migrateBlock (indexing : Indexing B T) (store : BlockStore B T) (block : B) : BlockStore B T :=
  { store with
    txnByHash := putEntries store.txnByHash (indexing.txnEntries block)
    nonEmptyBlocks := putEntries store.nonEmptyBlocks (indexing.nonEmptyEntries block) }

namespace Versioned

/-- Write every block of the listing again, now with all indexes. -/
def migrateToV1 (indexing : Indexing B T) (versioned : Versioned B T) : Versioned B T where
  store := versioned.store.list.foldl (migrateBlock indexing) versioned.store
  storeVersion := 1

/-- The version is read again after each migration. -/
def migrate (indexing : Indexing B T) (versioned : Versioned B T) :
    Except Error (Versioned B T) :=
  if versioned.storeVersion = 0 then (versioned.migrateToV1 indexing).migrate indexing
  else if versioned.storeVersion = LATEST_VERSION then .ok versioned
  else .error (.invalidVersion versioned.storeVersion)
termination_by LATEST_VERSION - versioned.storeVersion
decreasing_by
  rename_i first
  rw [first, migrateToV1]
  exact Nat.zero_lt_one

end Versioned

/-- The blocks of a store set one by one, from the lowest to the highest. -/
def rebuild (indexing : Indexing B T) (store : BlockStore B T) : BlockStore B T :=
  store.list.foldl (BlockStore.set indexing) {}

/-- The two stores have the same contents in every index. -/
structure SameIndexes (first second : BlockStore B T) : Prop where
  blockHashes : ∀ hash : CryptoHash, first.blockHashToHeight[hash]? = second.blockHashToHeight[hash]?
  txns : ∀ hash : CryptoHash, first.txnByHash[hash]? = second.txnByHash[hash]?
  nonEmpty : ∀ height : Nat, first.nonEmptyBlocks[height]? = second.nonEmptyBlocks[height]?
  inputs : ∀ element : Element, first.inputHistory[element]? = second.inputHistory[element]?
  outputs : ∀ element : Element, first.outputHistory[element]? = second.outputHistory[element]?
  mints : ∀ element : Element, first.mintHashes[element]? = second.mintHashes[element]?

/-- A store of the first version: the blocks with their hash index and greatest height,
and none of the newer indexes. -/
structure FirstVersion (indexing : Indexing B T) (versioned : Versioned B T) : Prop where
  version : versioned.storeVersion = 0
  placed : ∀ height block, versioned.store.get height = some block →
    indexing.blockHeight block = height
  maxHeight : versioned.store.maxHeight = (rebuild indexing versioned.store).maxHeight
  blockHashes : ∀ hash : CryptoHash, versioned.store.blockHashToHeight[hash]? =
    (rebuild indexing versioned.store).blockHashToHeight[hash]?
  noTxns : ∀ hash : CryptoHash, versioned.store.txnByHash[hash]? = none
  noBlocks : ∀ height : Nat, versioned.store.nonEmptyBlocks[height]? = none
  noInputs : ∀ element : Element, versioned.store.inputHistory[element]? = none
  noOutputs : ∀ element : Element, versioned.store.outputHistory[element]? = none
  noMints : ∀ element : Element, versioned.store.mintHashes[element]? = none

/-- No transaction of the block has what the newest indexes are about. -/
def Plain (indexing : Indexing B T) (block : B) : Prop :=
  ∀ txn ∈ indexing.txns block, indexing.inputElements txn = [] ∧
    indexing.outputElements txn = [] ∧ indexing.mintHash txn = none

variable {indexing : Indexing B T} {versioned : Versioned B T} {store : BlockStore B T}

/-! ## Indexes after many blocks -/

/-- An index after the entries of many blocks. -/
def putBlocks {κ ν : Type} {cmp : κ → κ → Ordering} (entries : B → List (κ × ν))
    (index : Std.TreeMap κ ν cmp) (blocks : List B) : Std.TreeMap κ ν cmp :=
  blocks.foldl (fun index block => putEntries index (entries block)) index

section

variable {κ ν : Type} {cmp : κ → κ → Ordering} [Std.TransCmp cmp] {entries : B → List (κ × ν)}

theorem putBlocks_congr {first second : Std.TreeMap κ ν cmp} (blocks : List B)
    (same : ∀ key : κ, first[key]? = second[key]?) (key : κ) :
    (putBlocks entries first blocks)[key]? = (putBlocks entries second blocks)[key]? := by
  induction blocks generalizing first second with
  | nil => exact same key
  | cons block blocks ih => exact ih (putEntries_congr (entries block) same)

@[simp]
theorem mem_putBlocks [Std.LawfulEqCmp cmp] {index : Std.TreeMap κ ν cmp} {blocks : List B}
    {key : κ} :
    key ∈ putBlocks entries index blocks ↔
      (∃ block ∈ blocks, key ∈ (entries block).map Prod.fst) ∨ key ∈ index := by
  induction blocks generalizing index with
  | nil => simp [putBlocks]
  | cons block blocks ih =>
      rw [putBlocks, List.foldl_cons, ← putBlocks, ih, mem_putEntries]
      simp only [List.mem_cons, exists_eq_or_imp]
      exact or_left_comm.trans or_assoc.symm

/-- An index without entries is as the blocks would fill it exactly if they have no
entries for it. -/
theorem none_eq_putBlocks_iff [Std.LawfulEqCmp cmp] {index : Std.TreeMap κ ν cmp}
    {blocks : List B} (vacant : ∀ key : κ, index[key]? = none) :
    (∀ key : κ, index[key]? = (putBlocks entries (∅ : Std.TreeMap κ ν cmp) blocks)[key]?) ↔
      ∀ block ∈ blocks, entries block = [] := by
  constructor
  · intro same block mem
    apply List.eq_nil_iff_forall_not_mem.mpr
    rintro ⟨key, value⟩ given
    have present : key ∈ putBlocks entries (∅ : Std.TreeMap κ ν cmp) blocks :=
      mem_putBlocks.mpr (.inl ⟨block, mem, List.mem_map.mpr ⟨_, given, rfl⟩⟩)
    rw [← Std.TreeMap.isSome_getElem?_iff_mem, ← same, vacant] at present
    cases present
  · intro nothing key
    have absent : key ∉ putBlocks entries (∅ : Std.TreeMap κ ν cmp) blocks := by
      rw [mem_putBlocks]
      rintro (⟨block, mem, given⟩ | impossible)
      · rw [nothing block mem] at given
        cases given
      · exact Std.TreeMap.not_mem_emptyc impossible
    rw [vacant, Std.TreeMap.getElem?_eq_none absent]

omit [Std.TransCmp cmp] in
/-- What one block adds to an index, many blocks add one after the other. -/
theorem foldl_index (index : BlockStore B T → Std.TreeMap κ ν cmp)
    {write : BlockStore B T → B → BlockStore B T}
    (writes : ∀ store block, index (write store block) = putEntries (index store) (entries block))
    (store : BlockStore B T) (blocks : List B) :
    index (blocks.foldl write store) = putBlocks entries (index store) blocks := by
  induction blocks generalizing store with
  | nil => rfl
  | cons block blocks ih =>
      rw [List.foldl_cons, ih, writes]
      rfl

end

/-- What one block leaves alone, many blocks leave alone. -/
theorem foldl_keeps {α : Type} (part : BlockStore B T → α)
    {write : BlockStore B T → B → BlockStore B T}
    (keeps : ∀ store block, part (write store block) = part store)
    (store : BlockStore B T) (blocks : List B) : part (blocks.foldl write store) = part store := by
  induction blocks generalizing store with
  | nil => rfl
  | cons block blocks ih => rw [List.foldl_cons, ih, keeps]

@[simp]
theorem mem_list_iff {block : B} : block ∈ store.list ↔ ∃ height, store.get height = some block := by
  rw [list, List.mem_map]
  constructor
  · rintro ⟨⟨height, _⟩, mem, rfl⟩
    exact ⟨height, Std.TreeMap.mem_toList_iff_getElem?_eq_some.mp mem⟩
  · rintro ⟨height, got⟩
    exact ⟨(height, block), Std.TreeMap.mem_toList_iff_getElem?_eq_some.mpr got, rfl⟩

/-! ## The migrated store -/

theorem plain_iff {block : B} :
    Plain indexing block ↔ indexing.inputEntries block = [] ∧ indexing.outputEntries block = [] ∧
      indexing.mintEntries block = [] := by
  simp only [Plain, Indexing.inputEntries, Indexing.outputEntries, Indexing.mintEntries,
    List.map_eq_nil_iff, List.flatMap_eq_nil_iff, List.filterMap_eq_nil_iff, forall_and]

/-- The latest version is left as it is. -/
@[simp]
theorem migrate_migrateToV1 :
    (versioned.migrateToV1 indexing).migrate indexing = .ok (versioned.migrateToV1 indexing) := by
  rw [Versioned.migrate]
  exact (if_neg Nat.one_ne_zero).trans (if_pos rfl)

theorem FirstVersion.migrate_eq (first : FirstVersion indexing versioned) :
    versioned.migrate indexing = .ok (versioned.migrateToV1 indexing) := by
  rw [Versioned.migrate, if_pos first.version, migrate_migrateToV1]

section

variable {κ ν : Type} {cmp : κ → κ → Ordering} [Std.TransCmp cmp] {entries : B → List (κ × ν)}
  {index : BlockStore B T → Std.TreeMap κ ν cmp}

variable (indexing index) in
/-- An index that the migration leaves alone. -/
theorem forgotten_iff [Std.LawfulEqCmp cmp] (start : index {} = ∅)
    (left : ∀ store block, index (migrateBlock indexing store block) = index store)
    (set : ∀ store block, index (BlockStore.set indexing store block) =
      putEntries (index store) (entries block))
    (vacant : ∀ key : κ, (index versioned.store)[key]? = none) :
    (∀ key : κ, (index (versioned.migrateToV1 indexing).store)[key]? =
        (index (rebuild indexing versioned.store))[key]?) ↔
      ∀ block ∈ versioned.store.list, entries block = [] := by
  have migrated : index (versioned.migrateToV1 indexing).store = index versioned.store :=
    foldl_keeps index left versioned.store versioned.store.list
  have rebuilt : index (rebuild indexing versioned.store) =
      putBlocks entries ∅ versioned.store.list := by
    rw [rebuild, foldl_index index set, start]
  rw [migrated, rebuilt]
  exact none_eq_putBlocks_iff vacant

/-- An index that the migration writes. -/
theorem migrated_eq_rebuilt (start : index {} = ∅)
    (written : ∀ store block, index (migrateBlock indexing store block) =
      putEntries (index store) (entries block))
    (set : ∀ store block, index (BlockStore.set indexing store block) =
      putEntries (index store) (entries block))
    (vacant : ∀ key : κ, (index versioned.store)[key]? = none) (key : κ) :
    (index (versioned.migrateToV1 indexing).store)[key]? =
      (index (rebuild indexing versioned.store))[key]? := by
  have migrated : index (versioned.migrateToV1 indexing).store =
      putBlocks entries (index versioned.store) versioned.store.list :=
    foldl_index index written versioned.store versioned.store.list
  have rebuilt : index (rebuild indexing versioned.store) =
      putBlocks entries ∅ versioned.store.list := by
    rw [rebuild, foldl_index index set, start]
  rw [migrated, rebuilt]
  exact putBlocks_congr _ (fun key => (vacant key).trans Std.TreeMap.getElem?_emptyc.symm) key

end

/-- The migrated store lacks what the newest indexes would have. -/
theorem FirstVersion.sameIndexes_iff (first : FirstVersion indexing versioned) :
    SameIndexes (versioned.migrateToV1 indexing).store (rebuild indexing versioned.store) ↔
      ∀ block ∈ versioned.store.list, Plain indexing block := by
  have inputs := forgotten_iff indexing inputHistory rfl (fun _ _ => rfl)
    (fun _ _ => putAll_eq _ _ _) first.noInputs
  have outputs := forgotten_iff indexing outputHistory rfl (fun _ _ => rfl)
    (fun _ _ => putAll_eq _ _ _) first.noOutputs
  have mints := forgotten_iff indexing mintHashes rfl (fun _ _ => rfl)
    (fun _ _ => putAll_eq _ _ _) first.noMints
  constructor
  · intro same block mem
    exact plain_iff.mpr ⟨inputs.mp same.inputs block mem, outputs.mp same.outputs block mem,
      mints.mp same.mints block mem⟩
  · intro plain
    constructor
    · intro hash
      have left : ∀ store block, (migrateBlock indexing store block).blockHashToHeight =
          store.blockHashToHeight := fun _ _ => rfl
      have kept : (versioned.migrateToV1 indexing).store.blockHashToHeight =
          versioned.store.blockHashToHeight :=
        foldl_keeps blockHashToHeight left versioned.store versioned.store.list
      rw [kept]
      exact first.blockHashes hash
    · exact migrated_eq_rebuilt rfl (fun _ _ => rfl) (fun _ _ => txnByHash_set) first.noTxns
    · exact migrated_eq_rebuilt rfl (fun _ _ => rfl) (fun _ _ => nonEmptyBlocks_set) first.noBlocks
    · exact inputs.mpr fun block mem => (plain_iff.mp (plain block mem)).1
    · exact outputs.mpr fun block mem => (plain_iff.mp (plain block mem)).2.1
    · exact mints.mpr fun block mem => (plain_iff.mp (plain block mem)).2.2

/-- Migrating a store of the first version, once or twice, gives the indexes of its
blocks exactly if no transaction has inputs, outputs or a mint hash. -/
theorem migrate_eq_rebuild_iff (first : FirstVersion indexing versioned) :
    (∃ migrated, versioned.migrate indexing = .ok migrated ∧
        SameIndexes migrated.store (rebuild indexing versioned.store) ∧
        migrated.migrate indexing = .ok migrated) ↔
      ∀ height block, versioned.store.get height = some block → Plain indexing block := by
  constructor
  · rintro ⟨migrated, migratedEq, same, _⟩ height block got
    rw [first.migrate_eq] at migratedEq
    cases migratedEq
    exact first.sameIndexes_iff.mp same block (mem_list_iff.mpr ⟨height, got⟩)
  · intro plain
    refine ⟨_, first.migrate_eq, first.sameIndexes_iff.mpr ?_, migrate_migrateToV1⟩
    intro block mem
    rcases mem_list_iff.mp mem with ⟨height, got⟩
    exact plain height block got

/-! ## A store of one block -/

/-- The block alone, as the first version keeps it. -/
def firstStore (block : DummyBlock) : Versioned DummyBlock DummyTxn where
  store :=
    { blocks := (∅ : Std.TreeMap Nat DummyBlock).insert block.height block
      maxHeight := some block.height
      blockHashToHeight := (∅ : Std.TreeMap CryptoHash Nat).insert block.hash block.height }
  storeVersion := 0

theorem firstStore_firstVersion (block : DummyBlock) :
    FirstVersion dummyIndexing (firstStore block) where
  version := rfl
  placed height found got := by
    change (Std.TreeMap.insert _ _ _)[height]? = some found at got
    rw [getElem?_insert_eq] at got
    split_ifs at got with same
    · rw [← Option.some.inj got]
      exact same
    · simp at got
  maxHeight := rfl
  blockHashes _ := rfl
  noTxns _ := by simp [firstStore]
  noBlocks _ := by simp [firstStore]
  noInputs _ := by simp [firstStore]
  noOutputs _ := by simp [firstStore]
  noMints _ := by simp [firstStore]

/-- A block without elements is migrated. -/
theorem plainBlock_migrated :
    ∃ migrated, (firstStore ⟨1, 1, [⟨3, [], [], none⟩]⟩).migrate dummyIndexing = .ok migrated ∧
      SameIndexes migrated.store
        (rebuild dummyIndexing (firstStore ⟨1, 1, [⟨3, [], [], none⟩]⟩).store) ∧
      migrated.migrate dummyIndexing = .ok migrated := by
  apply (migrate_eq_rebuild_iff (firstStore_firstVersion _)).mpr
  intro height block got
  change (Std.TreeMap.insert _ _ _)[height]? = some block at got
  rw [getElem?_insert_eq] at got
  split_ifs at got
  · rw [← Option.some.inj got]
    intro txn mem
    rw [List.mem_singleton.mp mem]
    exact ⟨rfl, rfl, rfl⟩
  · simp at got

/-- The output of a block has no history once its store is migrated. -/
theorem output_lost_in_migration :
    ∃ versioned migrated, FirstVersion dummyIndexing versioned ∧
      versioned.store.get 1 = some outputBlock ∧
      versioned.migrate dummyIndexing = .ok migrated ∧
      migrated.store.getElementHistory 5 = (none, none) ∧
      (rebuild dummyIndexing versioned.store).getElementHistory 5 = (none, some ⟨1, 1⟩) ∧
      ¬SameIndexes migrated.store (rebuild dummyIndexing versioned.store) := by
  have first := firstStore_firstVersion outputBlock
  refine ⟨firstStore outputBlock, _, first, rfl, first.migrate_eq, rfl, rfl, ?_⟩
  intro same
  have lost : (none : Option ElementHistoryData) = some ⟨1, 1⟩ := same.outputs 5
  cases lost

end Ciphera.BlockStore
