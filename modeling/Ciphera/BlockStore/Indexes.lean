import Ciphera.BlockStore
import Ciphera.Lib.Derived
import Ciphera.Lib.Run

/-!
# Indexes of the block store

Beside the blocks themselves the store writes a hash index, the transactions by hash,
the blocks that are not empty, the history of elements and the mint hashes.  A block
that is set at a height takes the place of the one that was there, but the entries of
that one stay.

The indexes describe the blocks that can be got exactly as long as no block is set in
the place of another.  Where one is, its hash leads to a height with another block.
-/

namespace Ciphera.BlockStore

open Ciphera.Lib

variable {B T : Type}

/-- The block at a height. -/
def get (store : BlockStore B T) (height : Nat) : Option B := store.blocks[height]?

/-- The height of the block with a hash. -/
def getBlockHeightByHash (store : BlockStore B T) (blockHash : CryptoHash) : Option Nat :=
  store.blockHashToHeight[blockHash]?

/-- The transaction with a hash. -/
def getTxnByHash (store : BlockStore B T) (txnHash : CryptoHash) : Option T :=
  store.txnByHash[txnHash]?

/-! ## The entries of a block -/

namespace Indexing

variable (indexing : Indexing B T) (block : B)

/-- The entry of a block in the index of hashes. -/
def blockHashEntries : List (CryptoHash × Nat) :=
  [(indexing.blockHash block, indexing.blockHeight block)]

/-- `txn_entries`. -/
def txnEntries : List (CryptoHash × T) :=
  (indexing.txns block).map fun txn => (indexing.txnHash txn, txn)

/-- `KeyNonEmptyBlock::from_block`, with the block. -/
def nonEmptyEntries : List (Nat × B) :=
  if (indexing.txns block).isEmpty then [] else [(indexing.blockHeight block, block)]

/-- The block as it is named in histories. -/
def historyData : ElementHistoryData := ⟨indexing.blockHash block, indexing.blockHeight block⟩

/-- The entries of the elements that a block consumed. -/
def inputEntries : List (Element × ElementHistoryData) :=
  ((indexing.txns block).flatMap indexing.inputElements).map (·, indexing.historyData block)

/-- The entries of the elements that a block created. -/
def outputEntries : List (Element × ElementHistoryData) :=
  ((indexing.txns block).flatMap indexing.outputElements).map (·, indexing.historyData block)

/-- The entries of the mints of a block. -/
def mintEntries : List (Element × MintHashData) :=
  ((indexing.txns block).filterMap indexing.mintHash).map
    (·, ⟨indexing.blockHash block, indexing.blockHeight block⟩)

end Indexing

variable (indexing : Indexing B T)

/-- Each index has an entry exactly if a block of the store has what is indexed, and the
entry describes such a block. -/
structure Consistent (store : BlockStore B T) : Prop where
  blockHashes : Reflects indexing.blockHashEntries store.blocks store.blockHashToHeight
  txns : Reflects indexing.txnEntries store.blocks store.txnByHash
  nonEmpty : Reflects indexing.nonEmptyEntries store.blocks store.nonEmptyBlocks
  inputs : Reflects indexing.inputEntries store.blocks store.inputHistory
  outputs : Reflects indexing.outputEntries store.blocks store.outputHistory
  mints : Reflects indexing.mintEntries store.blocks store.mintHashes

/-- The block takes no other block's place. -/
def Fresh (store : BlockStore B T) (block : B) : Prop :=
  ∀ other, store.get (indexing.blockHeight block) = some other → other = block

/-- A call of `set`. -/
def Sets (before : BlockStore B T) (block : B) (after : BlockStore B T) : Prop :=
  after = before.set indexing block

variable {indexing} {store : BlockStore B T} {block : B}

/-! ## What `set` writes -/

theorem putAll_eq {V : Type} (index : Std.TreeMap Element V) (keys : List Element) (value : V) :
    putAll index keys value = putEntries index (keys.map (·, value)) := by
  rw [putAll, putEntries, List.foldl_map]

@[simp]
theorem blockHashToHeight_set :
    (store.set indexing block).blockHashToHeight =
      putEntries store.blockHashToHeight (indexing.blockHashEntries block) :=
  rfl

@[simp]
theorem txnByHash_set :
    (store.set indexing block).txnByHash =
      putEntries store.txnByHash (indexing.txnEntries block) := by
  rw [putEntries, Indexing.txnEntries, List.foldl_map]
  rfl

@[simp]
theorem nonEmptyBlocks_set :
    (store.set indexing block).nonEmptyBlocks =
      putEntries store.nonEmptyBlocks (indexing.nonEmptyEntries block) := by
  rw [Indexing.nonEmptyEntries, set]
  split_ifs <;> rfl

theorem Consistent.empty : Consistent indexing ({} : BlockStore B T) :=
  ⟨.empty, .empty, .empty, .empty, .empty, .empty⟩

/-- A fresh block keeps the indexes in step. -/
theorem Consistent.set (consistent : Consistent indexing store) (fresh : Fresh indexing store block) :
    Consistent indexing (store.set indexing block) where
  blockHashes := consistent.blockHashes.put fresh
  txns := by
    rw [txnByHash_set]
    exact consistent.txns.put fresh
  nonEmpty := by
    rw [nonEmptyBlocks_set]
    exact consistent.nonEmpty.put fresh
  inputs := by
    have put := consistent.inputs.put fresh
    rwa [Indexing.inputEntries, ← putAll_eq] at put
  outputs := by
    have put := consistent.outputs.put fresh
    rwa [Indexing.outputEntries, ← putAll_eq] at put
  mints := by
    have put := consistent.mints.put fresh
    rwa [Indexing.mintEntries, ← putAll_eq] at put

/-! ## Runs -/

/-- Blocks are kept at their heights, and are among those that have been set. -/
structure Holds (indexing : Indexing B T) (blocks : List B) (store : BlockStore B T) : Prop where
  height : ∀ height block, store.get height = some block → indexing.blockHeight block = height
  known : ∀ height block, store.get height = some block → block ∈ blocks

theorem get_set {height : Nat} {found : B} (got : (store.set indexing block).get height = some found) :
    (height = indexing.blockHeight block ∧ found = block) ∨ store.get height = some found := by
  change (store.blocks.insert _ _)[height]? = some found at got
  rw [getElem?_insert_eq] at got
  split_ifs at got with same
  · exact .inl ⟨same.symm, (Option.some.inj got).symm⟩
  · exact .inr got

theorem Holds.set {blocks : List B} (holds : Holds indexing blocks store) :
    Holds indexing (blocks ++ [block]) (store.set indexing block) := by
  constructor
  · intro height found got
    rcases get_set got with ⟨rfl, rfl⟩ | before
    · rfl
    · exact holds.height height found before
  · intro height found got
    rcases get_set got with ⟨_, rfl⟩ | before
    · exact List.mem_append_right _ List.mem_cons_self
    · exact List.mem_append_left _ (holds.known height found before)

/-- A block that takes another one's place leaves the hash of that one behind. -/
theorem Consistent.fresh_of_set {blocks : List B} (holds : Holds indexing blocks store)
    (distinct : ∀ first ∈ blocks ++ [block], ∀ second ∈ blocks ++ [block],
      indexing.blockHash first = indexing.blockHash second → first = second)
    (before : Consistent indexing store) (after : Consistent indexing (store.set indexing block)) :
    Fresh indexing store block := by
  intro other got
  have afterHolds : Holds indexing (blocks ++ [block]) (store.set indexing block) := holds.set
  have indexed : indexing.blockHash other ∈ (store.set indexing block).blockHashToHeight := by
    rw [blockHashToHeight_set, mem_putEntries]
    exact .inr ((before.blockHashes.mem_iff _).mpr ⟨_, other, got, List.mem_cons_self⟩)
  rcases (after.blockHashes.mem_iff _).mp indexed with ⟨place, holder, held, sameHash⟩
  have known := List.mem_append_left [block] (holds.known _ other got)
  obtain rfl : holder = other :=
    distinct holder (afterHolds.known place holder held) other known
      (List.mem_singleton.mp sameHash).symm
  rcases get_set held with ⟨_, same⟩ | kept
  · exact same
  · have place_eq : place = indexing.blockHeight block :=
      (holds.height place holder kept).symm.trans (holds.height _ holder got)
    subst place_eq
    have written : (store.set indexing block).get (indexing.blockHeight block) = some block := by
      change (store.blocks.insert _ _)[_]? = some block
      rw [getElem?_insert_eq, if_pos rfl]
    exact Option.some.inj (Eq.trans (Eq.symm held) written)

/-- The indexes describe the blocks after every run that sets fresh blocks only.  Where
no two blocks share a hash, a run that keeps the indexes in step sets fresh blocks only. -/
theorem consistent_of_fresh_run {blocks : List B} :
    (Run (fun before block after => Sets indexing before block after ∧
        Fresh indexing before block) {} blocks store → Consistent indexing store) ∧
      ((∀ first ∈ blocks, ∀ second ∈ blocks,
          indexing.blockHash first = indexing.blockHash second → first = second) →
        Run (fun before block after => Sets indexing before block after ∧
          Consistent indexing after) {} blocks store →
        Run (fun before block after => Sets indexing before block after ∧
          Fresh indexing before block) {} blocks store) := by
  constructor
  · intro run
    induction run with
    | nil => exact .empty
    | snoc _ taken ih =>
        rw [taken.1]
        exact ih.set taken.2
  · intro distinct run
    have sound : Run (fun before block after => Sets indexing before block after ∧
        Fresh indexing before block) {} blocks store ∧ Consistent indexing store ∧
          Holds indexing blocks store := by
      induction run with
      | nil =>
          exact ⟨.nil, .empty, fun _ _ got => by simp [get] at got,
            fun _ _ got => by simp [get] at got⟩
      | snoc _ taken ih =>
          have earlier := ih fun first firstMem second secondMem =>
            distinct first (List.mem_append_left _ firstMem) second
              (List.mem_append_left _ secondMem)
          rcases earlier with ⟨run, consistent, holds⟩
          rcases taken with ⟨rfl, after⟩
          have fresh := consistent.fresh_of_set holds distinct after
          exact ⟨.snoc run ⟨rfl, fresh⟩, after, holds.set⟩
    exact sound.1

/-! ## A block in another one's place -/

/-- The transactions and blocks with which the store is tested. -/
structure DummyTxn where
  hash : CryptoHash
  inputElements : List Element
  outputElements : List Element
  mintHash : Option Element
  deriving DecidableEq, Repr

/-- A block of the tests, with what the indexes read of it. -/
structure DummyBlock where
  height : Nat
  hash : CryptoHash
  txns : List DummyTxn
  deriving DecidableEq, Repr

/-- How the indexes read such a block. -/
def dummyIndexing : Indexing DummyBlock DummyTxn where
  blockHeight := DummyBlock.height
  blockHash := DummyBlock.hash
  txns := DummyBlock.txns
  txnHash := DummyTxn.hash
  inputElements := DummyTxn.inputElements
  outputElements := DummyTxn.outputElements
  mintHash := DummyTxn.mintHash

/-- A block with one output, and an empty block for its place. -/
def outputBlock : DummyBlock := ⟨1, 1, [⟨3, [], [5], none⟩]⟩

/-- A block without transactions. -/
def emptyBlock : DummyBlock := ⟨1, 2, []⟩

/-- The first block of a store is described by the indexes. -/
theorem outputBlock_consistent :
    ∃ store, Run (fun before block after => Sets dummyIndexing before block after ∧
        Fresh dummyIndexing before block) {} [outputBlock] store ∧
      store.getElementHistory 5 = (none, some ⟨1, 1⟩) ∧ Consistent dummyIndexing store := by
  have run : Run (fun before block after => Sets dummyIndexing before block after ∧
      Fresh dummyIndexing before block) {} [outputBlock] _ :=
    .snoc .nil ⟨rfl, fun _ got => by simp [get] at got⟩
  exact ⟨_, run, rfl, consistent_of_fresh_run.1 run⟩

/-- An empty block at the height of another leaves its hash, its transaction and its
output behind. -/
theorem replaced_block_stays_indexed :
    ∃ store, Run (Sets dummyIndexing) {} [outputBlock, emptyBlock] store ∧
      (∀ height block, store.get height = some block → block = emptyBlock) ∧
      store.getBlockHeightByHash 1 = some 1 ∧
      store.getTxnByHash 3 = some ⟨3, [], [5], none⟩ ∧
      store.getElementHistory 5 = (none, some ⟨1, 1⟩) ∧
      ¬Consistent dummyIndexing store := by
  have run : Run (Sets dummyIndexing) {} [outputBlock, emptyBlock] _ := .snoc (.snoc .nil rfl) rfl
  have only : ∀ height block, (BlockStore.set dummyIndexing
      (BlockStore.set dummyIndexing {} outputBlock) emptyBlock).get height = some block →
        block = emptyBlock := by
    intro height block got
    change (((∅ : Std.TreeMap Nat DummyBlock).insert 1 outputBlock).insert 1 emptyBlock)[height]? =
      some block at got
    rw [getElem?_insert_eq, getElem?_insert_eq] at got
    split_ifs at got with same
    · exact (Option.some.inj got).symm
    · simp at got
  refine ⟨_, run, only, rfl, rfl, rfl, ?_⟩
  intro consistent
  rcases (consistent.outputs.mem_iff 5).mp (by decide) with ⟨height, block, got, given⟩
  rw [only height block got] at given
  cases given

end Ciphera.BlockStore
