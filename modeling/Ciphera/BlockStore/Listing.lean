import Ciphera.BlockStore.Keys
import Ciphera.BlockStore.Migration
import Ciphera.Pagination

/-!
# Listing blocks

A listing of blocks is the rows of the database between two byte strings, from the first
to the last or from the last to the first.  A page is taken from the start of such a
range; a page before a cursor is taken from the other end and turned around.

The rows of a range are the blocks of a range of heights, whatever else the database
holds.
-/

namespace Ciphera.BlockStore

open Ciphera.Lib

variable {B T : Type}

/-- The two orders of a listing of blocks. -/
inductive BlockListOrder
  | lowestToHighest
  | highestToLowest
  deriving DecidableEq, Repr

namespace BlockListOrder

/-- Whether the order is the one of the keys. -/
def isIndexedOrder : BlockListOrder → Bool
  | lowestToHighest => true
  | highestToLowest => false

/-- The other order. -/
def reverse : BlockListOrder → BlockListOrder
  | lowestToHighest => highestToLowest
  | highestToLowest => lowestToHighest

end BlockListOrder

/-! ## The database -/

/-- The value of a row. -/
inductive Value (B T : Type)
  | block (block : B)
  | height (height : Nat)
  | txn (txn : T)
  | elementHistory (data : ElementHistoryData)
  | mintHash (data : MintHashData)
  | version (version : Nat)

/-- `StoreValue::deserialize` of a block. -/
def Value.deserialize : Value B T → Except (Stop KeyError) B
  | block stored => .ok stored
  | height _ | txn _ | elementHistory _ | mintHash _ | version _ => .error (.error .wireMessage)

/-- The rows of an index. -/
def indexRows {κ ν : Type} (key : κ → Key) (value : ν → Value B T) (entries : List (κ × ν)) :
    List (Key × Value B T) :=
  entries.map fun entry => (key entry.1, value entry.2)

/-- What a store has written, in its creation and in `set`. -/
def rows (store : BlockStore B T) : List (Key × Value B T) :=
  [[(.storeVersion, .version LATEST_VERSION)],
    indexRows .block .block store.blocks.toList,
    store.maxHeight.toList.map fun height => (.maxHeight, .height height),
    indexRows .blockHashToHeight .height store.blockHashToHeight.toList,
    indexRows .txnByHash .txn store.txnByHash.toList,
    indexRows .nonEmptyBlock .block store.nonEmptyBlocks.toList,
    indexRows (.elementHistory · .input) .elementHistory store.inputHistory.toList,
    indexRows (.elementHistory · .output) .elementHistory store.outputHistory.toList,
    indexRows .mintHash .mintHash store.mintHashes.toList].flatten

/-- The rows by the bytes of their keys. -/
def database (store : BlockStore B T) : List (Bytes × Value B T) :=
  (store.rows.map fun row => (row.1.serialize, row.2)).mergeSort
    fun first second => decide (first.1 ≤ second.1)

/-! ## Lists -/

/-- A list that has not been read yet. -/
structure KeyRange where
  startKey : Key
  endKey : Key
  lowerExclusive : Bool
  upperInclusive : Bool
  startToEnd : Bool
  deriving DecidableEq, Repr

namespace KeyRange

/-- The first byte string of a range. -/
def lowerBound (range : KeyRange) : Bytes :=
  if range.lowerExclusive then range.startKey.serializeImmediateSuccessor
  else range.startKey.serialize

/-- The first byte string behind a range. -/
def upperBound (range : KeyRange) : Bytes :=
  if range.upperInclusive then range.endKey.serializeImmediateSuccessor
  else range.endKey.serialize

/-- The rows of the range; its upper bound is exclusive for the database. -/
def contents (range : KeyRange) (store : BlockStore B T) : List (Bytes × Value B T) :=
  store.database.filter fun row =>
    decide (range.lowerBound ≤ row.1) && decide (row.1 < range.upperBound)

/-- `List::into_iterator` -/
def intoIterator (range : KeyRange) (store : BlockStore B T) :
    List (Except (Stop KeyError) (Key × B)) :=
  let contents := range.contents store
  (if range.startToEnd then contents else contents.reverse).map fun row => do
    let key ← Key.deserialize row.1
    let value ← row.2.deserialize
    pure (key, value)

end KeyRange

namespace ListableKey

/-- The range of the blocks between two bounds. -/
def list (keys : ListableKey) (start finish : Bound Nat) (order : BlockListOrder) : KeyRange where
  startKey :=
    match start with
    | .included height | .excluded height => keys.toKey height
    | .unbounded => keys.toKey minValue
  endKey :=
    match finish with
    | .included height | .excluded height => keys.toKey height
    | .unbounded => keys.toKey maxValue
  lowerExclusive :=
    match start with
    | .included _ | .unbounded => false
    | .excluded _ => true
  upperInclusive :=
    match finish with
    | .included _ | .unbounded => true
    | .excluded _ => false
  startToEnd := order.isIndexedOrder

/-- Bounds of the page, whose order is the requested one or its reverse. -/
def pageRange (keys : ListableKey) (cursor : Option (CursorChoice Nat)) (order : BlockListOrder) :
    KeyRange :=
  let (start, finish) : Bound Nat × Bound Nat :=
    match cursor with
    | none => (.unbounded, .unbounded)
    | some (.before before) => (.unbounded, before.toBound)
    | some (.after after) => (after.toBound, .unbounded)
  let (start, finish) := if order.isIndexedOrder then (start, finish) else (finish, start)
  match cursor with
  | none | some (.after _) => keys.list start finish order
  | some (.before _) => keys.list start finish order.reverse

/-- A page of blocks; one that a cursor ends is read backwards and turned around. -/
def listPaginated (keys : ListableKey) (store : BlockStore B T)
    (cursor : Option (CursorChoice Nat)) (order : BlockListOrder) (limit : Nat) :
    Except (Stop KeyError) (List (Key × B)) := do
  let results ← (((keys.pageRange cursor order).intoIterator store).take limit).mapM id
  pure
    (match cursor with
    | none | some (.after _) => results
    | some (.before _) => results.reverse)

/-- The height under a key of this kind. -/
def height (keys : ListableKey) (key : Key) : Except (Stop KeyError) Nat :=
  match keys, key with
  | block, .block height | nonEmptyBlock, .nonEmptyBlock height => .ok height
  | _, _ => .error (.error .invalidKey)

end ListableKey

/-- An item of a list with the height instead of the key. -/
def withHeight (keys : ListableKey) (row : Key × B) : Except (Stop KeyError) (Nat × B) := do
  let height ← keys.height row.1
  pure (height, row.2)

/-- `BlockStore::list` of a range, for all blocks or for those with transactions. -/
def listRange (keys : ListableKey) (store : BlockStore B T) (start finish : Bound Nat)
    (order : BlockListOrder) : List (Except (Stop KeyError) (Nat × B)) :=
  ((keys.list start finish order).intoIterator store).map fun item => do
    let row ← item
    withHeight keys row

/-- `BlockStore::list_paginated` and `list_non_empty_paginated`. -/
def listPaginated (keys : ListableKey) (store : BlockStore B T)
    (cursor : Option (CursorChoice Nat)) (order : BlockListOrder) (limit : Nat) :
    Except (Stop KeyError) (List (Except (Stop KeyError) (Nat × B))) := do
  let results ← keys.listPaginated store cursor order limit
  pure (results.map (withHeight keys))

/-! ## Ranges of heights -/

/-- The blocks under keys of a kind, from the lowest to the highest. -/
def entries (keys : ListableKey) (store : BlockStore B T) : List (Nat × B) :=
  match keys with
  | .block => store.blocks.toList
  | .nonEmptyBlock => store.nonEmptyBlocks.toList

/-- Blocks in the requested order. -/
def BlockListOrder.arrange {α : Type} (order : BlockListOrder) (items : List α) : List α :=
  if order.isIndexedOrder then items else items.reverse

/-- The height lies above the start of a range. -/
def startsBefore (start : Bound Nat) (height : Nat) : Bool :=
  match start with
  | .included low => decide (low ≤ height)
  | .excluded low => decide (low < height)
  | .unbounded => true

/-- The height lies below the end of a range. -/
def endsAfter (finish : Bound Nat) (height : Nat) : Bool :=
  match finish with
  | .included high => decide (height ≤ high)
  | .excluded high => decide (height < high)
  | .unbounded => true

/-- Heights are 64-bit integers. -/
def Fits (keys : ListableKey) (store : BlockStore B T) : Prop :=
  ∀ entry ∈ entries keys store, entry.1 < 2 ^ 64

/-- The height of a bound is a 64-bit number. -/
def BoundFits : Bound Nat → Prop
  | .included height | .excluded height => height < 2 ^ 64
  | .unbounded => True

section

variable {keys : ListableKey} {store : BlockStore B T} {start finish : Bound Nat}
  {order : BlockListOrder}

theorem sorted_entries (keys : ListableKey) (store : BlockStore B T) :
    (entries keys store).Pairwise fun first second => first.1 < second.1 := by
  cases keys with
  | block => exact store.blocks.ordered_keys_toList.imp Nat.compare_eq_lt.mp
  | nonEmptyBlock => exact store.nonEmptyBlocks.ordered_keys_toList.imp Nat.compare_eq_lt.mp

/-- The row of a block. -/
def entryRow (keys : ListableKey) (entry : Nat × B) : Key × Value B T :=
  (keys.toKey entry.1, .block entry.2)

/-- The rows of a kind are the blocks under its keys. -/
@[simp]
theorem filter_rows (keys : ListableKey) (store : BlockStore B T) :
    (store.rows.filter fun row => row.1.kind = keys.kind) =
      (entries keys store).map (entryRow keys) := by
  cases keys with
  | block =>
      simp [rows, indexRows, List.filter_append, List.filter_map, Function.comp_def, Key.kind,
        ListableKey.kind, entries, entryRow, ListableKey.toKey]
  | nonEmptyBlock =>
      simp [rows, indexRows, List.filter_append, List.filter_map, Function.comp_def, Key.kind,
        ListableKey.kind, entries, entryRow, ListableKey.toKey]

theorem lowerBound_list (keys : ListableKey) (start finish : Bound Nat) (order : BlockListOrder) :
    ∃ rest, (keys.list start finish order).lowerBound = keys.kind :: rest := by
  cases start with
  | included low => exact ⟨_, keys.serialize_toKey low⟩
  | excluded low => exact ⟨_, congrArg (· ++ [0]) (keys.serialize_toKey low)⟩
  | unbounded => exact ⟨_, keys.serialize_toKey ListableKey.minValue⟩

theorem upperBound_list (keys : ListableKey) (start finish : Bound Nat) (order : BlockListOrder) :
    ∃ rest, (keys.list start finish order).upperBound = keys.kind :: rest := by
  cases finish with
  | included high => exact ⟨_, congrArg (· ++ [0]) (keys.serialize_toKey high)⟩
  | excluded high => exact ⟨_, keys.serialize_toKey high⟩
  | unbounded => exact ⟨_, congrArg (· ++ [0]) (keys.serialize_toKey ListableKey.maxValue)⟩

/-- A row between the bounds of a range has a key of the kind of the range. -/
theorem kind_eq_of_between {key : Key}
    (above : (keys.list start finish order).lowerBound ≤ key.serialize)
    (below : key.serialize < (keys.list start finish order).upperBound) :
    key.kind = keys.kind := by
  rcases lowerBound_list keys start finish order with ⟨low, lowEq⟩
  rcases upperBound_list keys start finish order with ⟨high, highEq⟩
  rw [lowEq, Key.serialize, List.cons_le_cons_iff] at above
  rw [highEq, Key.serialize, List.cons_lt_cons_iff] at below
  rcases above with less | ⟨same, _⟩
  · rcases below with greater | ⟨same, _⟩
    · exact absurd (BitVec.lt_trans less greater) (BitVec.lt_irrefl _)
    · exact same
  · exact same.symm

theorem lowerBound_le_iff {height : Nat} (fits : height < 2 ^ 64) (startFits : BoundFits start) :
    (keys.list start finish order).lowerBound ≤ (keys.toKey height).serialize ↔
      startsBefore start height = true := by
  cases start with
  | included low => exact (keys.serialize_le_iff startFits fits).trans decide_eq_true_iff.symm
  | excluded low =>
      exact (keys.successor_le_serialize_iff fits startFits).trans decide_eq_true_iff.symm
  | unbounded =>
      exact iff_of_true ((keys.serialize_le_iff (by decide) fits).mpr (Nat.zero_le height)) rfl

theorem lt_upperBound_iff {height : Nat} (fits : height < 2 ^ 64) (finishFits : BoundFits finish) :
    (keys.toKey height).serialize < (keys.list start finish order).upperBound ↔
      endsAfter finish height = true := by
  cases finish with
  | included high =>
      exact (keys.serialize_lt_successor_iff fits finishFits).trans decide_eq_true_iff.symm
  | excluded high => exact (keys.serialize_lt_iff fits finishFits).trans decide_eq_true_iff.symm
  | unbounded =>
      have atMost : height ≤ ListableKey.maxValue := Nat.le_sub_one_of_lt fits
      exact iff_of_true ((keys.serialize_lt_successor_iff fits (by decide)).mpr atMost) rfl

/-- A block of the range of heights. -/
def inRange (start finish : Bound Nat) (entry : Nat × B) : Bool :=
  startsBefore start entry.1 && endsAfter finish entry.1

/-- The row of a block, with the bytes of its key. -/
def entryBytes (keys : ListableKey) (entry : Nat × B) : Bytes × Value B T :=
  ((keys.toKey entry.1).serialize, .block entry.2)

/-- The rows of a range, in any order, are the blocks of the range of heights. -/
theorem filter_map_rows (order : BlockListOrder) (fits : Fits keys store)
    (startFits : BoundFits start) (finishFits : BoundFits finish) :
    ((store.rows.map fun row => (row.1.serialize, row.2)).filter fun row =>
        decide ((keys.list start finish order).lowerBound ≤ row.1) &&
          decide (row.1 < (keys.list start finish order).upperBound)) =
      ((entries keys store).filter (inRange start finish)).map (entryBytes keys) := by
  have ofKind : (store.rows.filter fun row =>
        decide ((keys.list start finish order).lowerBound ≤ row.1.serialize) &&
          decide (row.1.serialize < (keys.list start finish order).upperBound)) =
      (store.rows.filter fun row => row.1.kind = keys.kind).filter fun row =>
        decide ((keys.list start finish order).lowerBound ≤ row.1.serialize) &&
          decide (row.1.serialize < (keys.list start finish order).upperBound) := by
    rw [List.filter_filter]
    apply List.filter_congr
    intro row _
    rw [Bool.eq_iff_iff]
    simp only [Bool.and_eq_true, decide_eq_true_eq]
    constructor
    · exact fun between => ⟨between, kind_eq_of_between between.1 between.2⟩
    · exact fun between => between.1
  rw [List.filter_map, Function.comp_def, ofKind, filter_rows, List.filter_map, List.map_map]
  congr 1
  apply List.filter_congr
  intro entry mem
  rw [Bool.eq_iff_iff]
  simp only [Function.comp_apply, entryRow, Bool.and_eq_true, decide_eq_true_eq, inRange,
    lowerBound_le_iff (fits entry mem) startFits, lt_upperBound_iff (fits entry mem) finishFits]

theorem sorted_database (store : BlockStore B T) :
    store.database.Pairwise fun first second => first.1 ≤ second.1 := by
  have sorted : store.database.Pairwise fun first second =>
      decide (first.1 ≤ second.1) = true := by
    apply List.pairwise_mergeSort
    · intro first second third firstLe secondLe
      exact decide_eq_true
        (List.le_trans (of_decide_eq_true firstLe) (of_decide_eq_true secondLe))
    · intro first second
      simpa using List.le_total first.1 second.1
  exact sorted.imp of_decide_eq_true

/-- The rows of a range, in the order of the database, are the blocks of the range of
heights from the lowest to the highest. -/
theorem contents_list (fits : Fits keys store) (startFits : BoundFits start)
    (finishFits : BoundFits finish) :
    (keys.list start finish order).contents store =
      ((entries keys store).filter (inRange start finish)).map (entryBytes keys) := by
  have sorted : (((entries keys store).filter (inRange start finish)).map
      (entryBytes (T := T) keys)).Pairwise fun first second => first.1 < second.1 := by
    rw [List.pairwise_map]
    apply List.Pairwise.filter
    apply (sorted_entries keys store).imp_of_mem
    intro first second firstMem secondMem less
    exact (keys.serialize_lt_iff (fits first firstMem) (fits second secondMem)).mpr less
  have perm : ((keys.list start finish order).contents store).Perm
      (((entries keys store).filter (inRange start finish)).map (entryBytes keys)) := by
    rw [← filter_map_rows order fits startFits finishFits]
    exact (List.mergeSort_perm _ _).filter _
  have keysNodup : ((((entries keys store).filter (inRange start finish)).map
      (entryBytes (T := T) keys)).map Prod.fst).Nodup := by
    apply List.pairwise_map.mpr
    apply sorted.imp
    intro first second less same
    rw [same] at less
    exact List.lt_irrefl _ less
  apply List.Perm.eq_of_pairwise _ ((sorted_database store).filter _)
    (sorted.imp fun less => List.le_of_lt less) perm
  intro first second firstMem secondMem le ge
  exact List.inj_on_of_nodup_map keysNodup (perm.mem_iff.mp firstMem) secondMem
    (List.le_antisymm le ge)

/-- Reading a range gives its blocks with their keys. -/
theorem intoIterator_list (fits : Fits keys store) (startFits : BoundFits start)
    (finishFits : BoundFits finish) :
    (keys.list start finish order).intoIterator store =
      (order.arrange ((entries keys store).filter (inRange start finish))).map
        fun entry => .ok (keys.toKey entry.1, entry.2) := by
  have read : ∀ entry ∈ entries keys store,
      (do
        let key ← Key.deserialize (entryBytes (T := T) keys entry).1
        let value ← (entryBytes (T := T) keys entry).2.deserialize
        pure (key, value)) = (.ok (keys.toKey entry.1, entry.2) : Except (Stop KeyError) _) := by
    intro entry mem
    change (Key.deserialize (keys.toKey entry.1).serialize >>= fun key => .ok (key, entry.2)) = _
    rw [keys.deserialize_toKey (fits entry mem)]
    rfl
  rw [KeyRange.intoIterator, contents_list fits startFits finishFits]
  change List.map _ (if order.isIndexedOrder = true then _ else _) = _
  rw [BlockListOrder.arrange]
  split_ifs with indexed
  · rw [List.map_map]
    apply List.map_congr_left
    intro entry mem
    exact read entry (List.mem_of_mem_filter mem)
  · rw [← List.map_reverse, List.map_map]
    apply List.map_congr_left
    intro entry mem
    exact read entry (List.mem_of_mem_filter (List.mem_reverse.mp mem))

@[simp]
theorem withHeight_toKey (keys : ListableKey) (entry : Nat × B) :
    withHeight keys (keys.toKey entry.1, entry.2) = .ok entry := by
  cases keys with
  | block => rfl
  | nonEmptyBlock => rfl

/-- A range has exactly the blocks with heights in it, in the requested order. -/
theorem listRange_eq (fits : Fits keys store) (startFits : BoundFits start)
    (finishFits : BoundFits finish) :
    listRange keys store start finish order =
      (order.arrange ((entries keys store).filter (inRange start finish))).map .ok := by
  rw [listRange, intoIterator_list fits startFits finishFits, List.map_map]
  apply List.map_congr_left
  intro entry _
  exact withHeight_toKey keys entry

end

end Ciphera.BlockStore
