import Ciphera.Element
import Ciphera.Lib.Map

/-!
# The block store

Blocks are kept by height together with the indexes that validation reads:
which elements have been inputs or outputs, and which mint hashes have been
used.  Setting a block writes all its index entries in one batch; nothing is
ever deleted.

The store is generic in the format of blocks and transactions, as the database
is; what it needs to know of them is an `Indexing`.
-/

namespace Ciphera

/-- The 32 bytes of a Keccak digest. -/
abbrev CryptoHash := BitVec 256

namespace BlockStore

/-- What the store reads of a block and of its transactions. -/
structure Indexing (B T : Type) where
  blockHeight : B → Nat
  blockHash : B → CryptoHash
  txns : B → List T
  txnHash : T → CryptoHash
  inputElements : T → List Element
  outputElements : T → List Element
  mintHash : T → Option Element

/-- Where an element was created or consumed. -/
structure ElementHistoryData where
  blockHash : CryptoHash
  blockHeight : Nat
  deriving DecidableEq, Repr

/-- Where a mint was included. -/
structure MintHashData where
  blockHash : CryptoHash
  blockHeight : Nat
  deriving DecidableEq, Repr

end BlockStore

open BlockStore

/-- The key spaces of the database that `set` writes. -/
structure BlockStore (B T : Type) where
  blocks : Std.TreeMap Nat B := ∅
  maxHeight : Option Nat := none
  blockHashToHeight : Std.TreeMap CryptoHash Nat := ∅
  txnByHash : Std.TreeMap CryptoHash T := ∅
  nonEmptyBlocks : Std.TreeMap Nat B := ∅
  inputHistory : Std.TreeMap Element ElementHistoryData := ∅
  outputHistory : Std.TreeMap Element ElementHistoryData := ∅
  mintHashes : Std.TreeMap Element MintHashData := ∅

namespace BlockStore

variable {B T : Type}

/-- Write one value at every listed key. -/
def putAll {V : Type} (index : Std.TreeMap Element V) (keys : List Element) (value : V) :
    Std.TreeMap Element V :=
  keys.foldl (fun index key => index.insert key value) index

/-- Write a block with all entries of its indexes. -/
def set (indexing : Indexing B T) (store : BlockStore B T) (block : B) : BlockStore B T :=
  let height := indexing.blockHeight block
  let hash := indexing.blockHash block
  let txns := indexing.txns block
  { blocks := store.blocks.insert height block
    maxHeight :=
      match store.maxHeight with
      | none => some height
      | some maxHeight => if maxHeight < height then some height else some maxHeight
    blockHashToHeight := store.blockHashToHeight.insert hash height
    txnByHash := txns.foldl (fun index txn => index.insert (indexing.txnHash txn) txn) store.txnByHash
    nonEmptyBlocks :=
      if txns.isEmpty then store.nonEmptyBlocks else store.nonEmptyBlocks.insert height block
    inputHistory := putAll store.inputHistory (txns.flatMap indexing.inputElements) ⟨hash, height⟩
    outputHistory := putAll store.outputHistory (txns.flatMap indexing.outputElements) ⟨hash, height⟩
    mintHashes := putAll store.mintHashes (txns.filterMap indexing.mintHash) ⟨hash, height⟩ }

/-- The block that last used the element as an input and as an output. -/
def getElementHistory (store : BlockStore B T) (element : Element) :
    Option ElementHistoryData × Option ElementHistoryData :=
  (store.inputHistory[element]?, store.outputHistory[element]?)

/-- Where a mint was included, if it was. -/
def getMintHash (store : BlockStore B T) (mintHash : Element) : Option MintHashData :=
  store.mintHashes[mintHash]?

/-! ## What the indexes contain -/

/-- Some committed transaction had the element as an output. -/
def Recorded (store : BlockStore B T) (element : Element) : Prop :=
  element ∈ store.outputHistory

/-- Some committed mint used the hash. -/
def Minted (store : BlockStore B T) (mintHash : Element) : Prop :=
  mintHash ∈ store.mintHashes

@[simp]
theorem mem_putAll {V : Type} {index : Std.TreeMap Element V} {keys : List Element} {value : V}
    {key : Element} : key ∈ putAll index keys value ↔ key ∈ keys ∨ key ∈ index := by
  simp [putAll]

@[simp]
theorem getElementHistory_isSome {store : BlockStore B T} {element : Element} :
    (store.getElementHistory element).2.isSome ↔ store.Recorded element := by
  simp [getElementHistory, Recorded]

@[simp]
theorem getMintHash_isSome {store : BlockStore B T} {mintHash : Element} :
    (store.getMintHash mintHash).isSome ↔ store.Minted mintHash := by
  simp [getMintHash, Minted]

@[simp]
theorem not_recorded_empty (element : Element) : ¬({} : BlockStore B T).Recorded element :=
  Std.TreeMap.not_mem_emptyc

@[simp]
theorem not_minted_empty (mintHash : Element) : ¬({} : BlockStore B T).Minted mintHash :=
  Std.TreeMap.not_mem_emptyc

@[simp]
theorem recorded_set_iff {indexing : Indexing B T} {store : BlockStore B T} {block : B}
    {element : Element} :
    (store.set indexing block).Recorded element ↔
      element ∈ (indexing.txns block).flatMap indexing.outputElements ∨
        store.Recorded element :=
  mem_putAll

@[simp]
theorem minted_set_iff {indexing : Indexing B T} {store : BlockStore B T} {block : B}
    {mintHash : Element} :
    (store.set indexing block).Minted mintHash ↔
      mintHash ∈ (indexing.txns block).filterMap indexing.mintHash ∨ store.Minted mintHash :=
  mem_putAll

end BlockStore

end Ciphera
