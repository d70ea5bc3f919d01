import Ciphera.BlockStore.Pages
import Ciphera.Node.Block

/-!
# Listing transactions

The transactions of a chain are listed page by page, from the newest block or from the
oldest one; inside a block they keep their order.  A cursor names a transaction, and the
blocks of a page are fetched from the block of its cursor on.  The transactions that this
block has up to the cursor have been on the page before and are skipped.

Following the cursors after the pages gives all transactions of the chain.
-/

namespace Ciphera.Node

open Ciphera.BlockStore (BlockListOrder KeyError ListableKey)
open Ciphera.Lib Ciphera.Noir Ciphera.Zk

/-- A transaction as it is listed. -/
structure TxnWithInfo where
  proof : UtxoProof
  indexInBlock : Nat
  hash : Element
  blockHeight : Nat
  time : Nat
  deriving DecidableEq, Repr

/-- The place of a transaction in the chain. -/
structure ListTxnsPosition where
  block : Nat
  txn : Nat
  deriving DecidableEq, Repr

/-- The two orders of a listing of transactions. -/
inductive ListTxnOrder
  | newestToOldest
  | oldestToNewest
  deriving DecidableEq, Repr

/-- The order in which the blocks are read for it. -/
def ListTxnOrder.toBlockListOrder : ListTxnOrder → BlockListOrder
  | newestToOldest => .highestToLowest
  | oldestToNewest => .lowestToHighest

/-- What a client asks for. -/
structure ListTxnsQuery where
  limit : Option Nat
  cursor : Option (CursorChoice ListTxnsPosition)
  order : ListTxnOrder := .newestToOldest
  deriving DecidableEq, Repr

/-- A second for each block since, in 64 bits. -/
def estimateBlockTime (now height maxHeight : Nat) : Nat :=
  (2 ^ 64 + now - (maxHeight - height)) % 2 ^ 64

/-- The height of a stored block. -/
def BlockFormat.height (format : BlockFormat) : Nat := format.intoBlock.content.header.height

/-- The transactions of a block as they are listed. -/
def BlockFormat.withInfo (poseidon : Poseidon) (now maxHeight : Nat) (format : BlockFormat) :
    List TxnWithInfo :=
  format.intoBlock.content.state.txns.zipIdx.map fun (txn, index) =>
    { proof := txn
      indexInBlock := index
      hash := txn.hash poseidon
      blockHeight := format.height
      time := format.blockTime.getD (estimateBlockTime now format.height maxHeight) }

/-- `flatten_ok` -/
def flattenOk {α ε : Type} (groups : List (Except ε (List α))) : List (Except ε α) :=
  groups.flatMap fun
    | .ok items => items.map .ok
    | .error error => [.error error]

/-- `RangeInclusive::contains` on pairs, which are compared by the first component first. -/
def rangeContains (start finish pair : Nat × Nat) : Bool :=
  let le (first second : Nat × Nat) : Bool :=
    decide (first.1 < second.1) || (first.1 == second.1 && decide (first.2 ≤ second.2))
  le start pair && le pair finish

/-- The range of transactions to skip contains the position. -/
def ListTxnsPosition.skips (cursor : ListTxnsPosition) (block txn : Nat) : Bool :=
  rangeContains (cursor.block, 0) (cursor.block, cursor.txn) (block, txn)

/-- Errors are kept, and so is everything without a cursor. -/
def notSkipped {ε : Type} (cursor : Option (CursorChoice ListTxnsPosition))
    (item : Except ε TxnWithInfo) : Bool :=
  match cursor, item with
  | some cursor, .ok txn => !cursor.inner.skips txn.blockHeight txn.indexInBlock
  | _, _ => true

/-- The place of a listed transaction. -/
def TxnWithInfo.position (txn : TxnWithInfo) : ListTxnsPosition :=
  ⟨txn.blockHeight, txn.indexInBlock⟩

/-- How blocks are fetched: from a cursor, in an order, and not more than a limit. -/
abbrev BlockFetcher (ε : Type) :=
  Option (CursorChoice Nat) → BlockListOrder → Nat → Except ε (List (Except ε BlockFormat))

/-- A page of transactions: read blocks from the cursor on, flatten them, and cut at the
limit. -/
def listTxnsInner {ε : Type} (poseidon : Poseidon) (now : Nat) (blockFetcher : BlockFetcher ε)
    (query : ListTxnsQuery) (maxHeight : Nat) :
    Except ε (Cursor ListTxnsPosition × List TxnWithInfo) := do
  let txnLimit := min (query.limit.getD 10) 100
  -- The blocks are filtered below, and so one more is fetched.
  let blocks ← blockFetcher (query.cursor.map (CursorChoice.mapPos ListTxnsPosition.block))
    query.order.toBlockListOrder (txnLimit + 1)
  let transactions := flattenOk
    (blocks.map (Except.map (BlockFormat.withInfo poseidon now maxHeight)))
  let (cursor, page) := paginate (fun item => item.toOption.map TxnWithInfo.position)
    ((transactions.filter (notSkipped query.cursor)).take txnLimit)
  let txns ← page.mapM id
  pure
    ({ before := cursor.before.map CursorChoiceBefore.inclusive
       after := cursor.after.map CursorChoiceAfter.inclusive }, txns)

/-- `fetch_blocks_non_empty_paginated` -/
def fetchBlocksNonEmptyPaginated (store : Store) : BlockFetcher (Stop KeyError) :=
  fun cursor order limit => do
    let items ← BlockStore.listPaginated .nonEmptyBlock store cursor order limit
    pure (items.map fun item => do
      let (_, block) ← item
      pure block)

/-! ## The transactions of a chain -/

/-- The transactions of a block, each with its position. -/
def BlockFormat.positioned (format : BlockFormat) : List (ListTxnsPosition × UtxoProof) :=
  format.intoBlock.content.state.txns.zipIdx.map fun (txn, index) => (⟨format.height, index⟩, txn)

/-- All transactions, block by block in the requested order. -/
def chainTxns (order : BlockListOrder) (blocks : List BlockFormat) :
    List (ListTxnsPosition × UtxoProof) :=
  (order.arrange blocks).flatMap BlockFormat.positioned

/-- The blocks of a chain, from the lowest to the highest. -/
structure Ascending (blocks : List BlockFormat) : Prop where
  ordered : blocks.Pairwise fun first second => first.height < second.height
  fits : ∀ format ∈ blocks, format.height < 2 ^ 64

/-- The store after the blocks of a chain. -/
def chainStore (poseidon : Poseidon) (keccak : Keccak) (blocks : List BlockFormat) : Store :=
  blocks.foldl (BlockStore.set (BlockFormat.indexing poseidon keccak)) {}

/-- What a client has of a listed transaction, apart from the time. -/
def TxnWithInfo.positioned (txn : TxnWithInfo) : ListTxnsPosition × UtxoProof :=
  (txn.position, txn.proof)

section

variable {poseidon : Poseidon} {keccak : Keccak} {blocks : List BlockFormat}
  {format : BlockFormat} {order : BlockListOrder} {now maxHeight limit : Nat}

@[simp]
theorem map_positioned_withInfo (format : BlockFormat) :
    (format.withInfo poseidon now maxHeight).map TxnWithInfo.positioned = format.positioned := by
  rw [BlockFormat.withInfo, List.map_map]
  rfl

@[simp]
theorem positioned_eq_nil_iff :
    format.positioned = [] ↔ format.intoBlock.content.state.txns = [] := by
  rw [BlockFormat.positioned, List.map_eq_nil_iff, List.zipIdx_eq_nil_iff]

/-- A transaction stands at its index. -/
theorem position_of_getElem? {place : Nat} {item : ListTxnsPosition × UtxoProof}
    (found : format.positioned[place]? = some item) : item.1 = ⟨format.height, place⟩ := by
  rw [BlockFormat.positioned, List.getElem?_map, List.getElem?_zipIdx] at found
  rcases Option.map_eq_some_iff.mp found with ⟨pair, pairEq, rfl⟩
  rcases Option.map_eq_some_iff.mp pairEq with ⟨txn, _, rfl⟩
  rw [Nat.zero_add]

theorem height_of_mem_positioned {item : ListTxnsPosition × UtxoProof}
    (mem : item ∈ format.positioned) : item.1.block = format.height := by
  rcases List.mem_iff_getElem?.mp mem with ⟨place, found⟩
  rw [position_of_getElem? found]

/-! The store has the blocks with transactions. -/

/-- The blocks with transactions. -/
def nonEmpty (blocks : List BlockFormat) : List BlockFormat :=
  blocks.filter fun format => !format.intoBlock.content.state.txns.isEmpty

@[simp]
theorem isEmpty_txns (poseidon : Poseidon) (keccak : Keccak) (format : BlockFormat) :
    ((BlockFormat.indexing poseidon keccak).txns format).isEmpty =
      format.intoBlock.content.state.txns.isEmpty := by
  change (List.map _ (List.zipIdx _)).isEmpty = _
  rw [List.isEmpty_map, Bool.eq_iff_iff, List.isEmpty_iff, List.isEmpty_iff,
    List.zipIdx_eq_nil_iff]

/-- Among blocks of different heights each one that is not empty is kept at its height. -/
theorem getElem?_chainStore (ascending : blocks.Pairwise fun first second =>
      first.height < second.height) (height : Nat) :
    (chainStore poseidon keccak blocks).nonEmptyBlocks[height]? = some format ↔
      format ∈ nonEmpty blocks ∧ format.height = height := by
  induction blocks using List.reverseRecOn with
  | nil => simp [chainStore, nonEmpty]
  | append_singleton blocks last ih =>
      rcases List.pairwise_append.mp ascending with ⟨before, _, lower⟩
      have step : (chainStore poseidon keccak (blocks ++ [last])).nonEmptyBlocks =
          if last.intoBlock.content.state.txns.isEmpty then
            (chainStore poseidon keccak blocks).nonEmptyBlocks
          else (chainStore poseidon keccak blocks).nonEmptyBlocks.insert last.height last := by
        rw [chainStore, List.foldl_append, ← isEmpty_txns poseidon keccak last]
        rfl
      have split : format ∈ nonEmpty (blocks ++ [last]) ↔ format ∈ nonEmpty blocks ∨
          format = last ∧ last.intoBlock.content.state.txns.isEmpty = false := by
        simp only [nonEmpty, List.filter_append, List.mem_append, List.mem_filter,
          List.mem_singleton, Bool.not_eq_true']
        exact or_congr_right ⟨fun ⟨same, full⟩ => ⟨same, same ▸ full⟩,
          fun ⟨same, full⟩ => ⟨same, same ▸ full⟩⟩
      rw [step, split]
      split_ifs with empty
      · rw [ih before, empty]
        simp
      · rw [getElem?_insert_eq]
        split_ifs with same
        · rw [Option.some.injEq]
          constructor
          · rintro rfl
            exact ⟨.inr ⟨rfl, Bool.not_eq_true _ ▸ empty⟩, same⟩
          · rintro ⟨earlier | ⟨rfl, _⟩, heightEq⟩
            · have less := lower format (List.mem_of_mem_filter earlier) last List.mem_cons_self
              rw [same, heightEq] at less
              exact absurd less (Nat.lt_irrefl _)
            · rfl
        · rw [ih before]
          constructor
          · exact fun ⟨earlier, heightEq⟩ => ⟨.inl earlier, heightEq⟩
          · rintro ⟨earlier | ⟨rfl, _⟩, heightEq⟩
            · exact ⟨earlier, heightEq⟩
            · exact absurd heightEq same

/-- The rows that are listed. -/
theorem entries_chainStore (ascending : Ascending blocks) :
    BlockStore.entries .nonEmptyBlock (chainStore poseidon keccak blocks) =
      (nonEmpty blocks).map fun format => (format.height, format) := by
  have sorted := BlockStore.sorted_entries .nonEmptyBlock (chainStore poseidon keccak blocks)
  have expected : ((nonEmpty blocks).map fun format => (format.height, format)).Pairwise
      fun first second => first.1 < second.1 :=
    List.pairwise_map.mpr (ascending.ordered.filter _)
  apply List.Pairwise.eq_of_mem_iff sorted expected
  intro entry
  rcases entry with ⟨height, format⟩
  rw [BlockStore.mem_entries, List.mem_map]
  change (chainStore poseidon keccak blocks).nonEmptyBlocks[height]? = some format ↔ _
  rw [getElem?_chainStore ascending.ordered]
  constructor
  · rintro ⟨mem, rfl⟩
    exact ⟨format, mem, rfl⟩
  · rintro ⟨other, mem, same⟩
    cases same
    exact ⟨mem, rfl⟩

/-! Fetching gives parts of the blocks with transactions. -/

/-- The blocks with transactions in the requested order. -/
def arranged (order : BlockListOrder) (blocks : List BlockFormat) : List BlockFormat :=
  order.arrange (nonEmpty blocks)

theorem arrange_entries (ascending : Ascending blocks) (order : BlockListOrder) :
    order.arrange (BlockStore.entries .nonEmptyBlock (chainStore poseidon keccak blocks)) =
      (arranged order blocks).map fun format => (format.height, format) := by
  rw [entries_chainStore ascending]
  cases order with
  | lowestToHighest => rfl
  | highestToLowest => exact List.map_reverse.symm

@[simp]
theorem mem_arranged :
    format ∈ arranged order blocks ↔
      format ∈ blocks ∧ format.intoBlock.content.state.txns ≠ [] := by
  rw [arranged, BlockStore.mem_arrange, nonEmpty, List.mem_filter, Bool.not_eq_true',
    List.isEmpty_eq_false_iff]

theorem positioned_ne_nil (mem : format ∈ arranged order blocks) : format.positioned ≠ [] :=
  fun empty => (mem_arranged.mp mem).2 (positioned_eq_nil_iff.mp empty)

theorem sorted_arranged (ascending : Ascending blocks) (order : BlockListOrder) :
    (arranged order blocks).Pairwise fun first second =>
      order.precedes first.height second.height = true := by
  have sorted := (ascending.ordered.filter fun format =>
    !format.intoBlock.content.state.txns.isEmpty).imp decide_eq_true
  cases order with
  | lowestToHighest => exact sorted
  | highestToLowest => exact List.pairwise_reverse.mpr sorted

/-- Blocks without transactions add nothing to the listing. -/
theorem chainTxns_eq (order : BlockListOrder) (blocks : List BlockFormat) :
    chainTxns order blocks = (arranged order blocks).flatMap BlockFormat.positioned := by
  rw [chainTxns, arranged, nonEmpty, BlockStore.arrange_filter]
  symm
  apply flatMap_filter
  intro format empty
  rw [positioned_eq_nil_iff, ← List.isEmpty_iff]
  simpa using empty

theorem fits_chainStore (ascending : Ascending blocks) :
    BlockStore.Fits .nonEmptyBlock (chainStore poseidon keccak blocks) := by
  intro entry mem
  rw [entries_chainStore ascending] at mem
  rcases List.mem_map.mp mem with ⟨format, formatMem, rfl⟩
  exact ascending.fits format (List.mem_of_mem_filter formatMem)

theorem fetch_of_listPaginated {store : Store} {cursor : Option (CursorChoice Nat)}
    {page : List BlockFormat}
    (got : BlockStore.listPaginated .nonEmptyBlock store cursor order limit =
      .ok ((page.map fun format => (format.height, format)).map .ok)) :
    fetchBlocksNonEmptyPaginated store cursor order limit = .ok (page.map .ok) := by
  rw [fetchBlocksNonEmptyPaginated, got, List.map_map]
  change Except.ok (List.map _ (List.map _ page)) = _
  rw [List.map_map]
  rfl

theorem fetch_none (poseidon : Poseidon) (keccak : Keccak) (order : BlockListOrder) (limit : Nat)
    (ascending : Ascending blocks) :
    fetchBlocksNonEmptyPaginated (chainStore poseidon keccak blocks) none order limit =
      .ok (((arranged order blocks).take limit).map .ok) := by
  apply fetch_of_listPaginated
  rw [BlockStore.listPaginated_none (fits_chainStore ascending), arrange_entries ascending,
    ← List.map_take]

theorem fetch_after (poseidon : Poseidon) (keccak : Keccak) (order : BlockListOrder) (limit : Nat)
    {after : CursorChoiceAfter Nat} (ascending : Ascending blocks)
    (fits : after.inner < 2 ^ 64) :
    fetchBlocksNonEmptyPaginated (chainStore poseidon keccak blocks) (some (.after after)) order
        limit =
      .ok ((((arranged order blocks).filter fun format =>
        BlockStore.startsAfter order after format.height).take limit).map .ok) := by
  apply fetch_of_listPaginated
  rw [BlockStore.listPaginated_after (fits_chainStore ascending) fits, arrange_entries ascending,
    List.filter_map, ← List.map_take]
  rfl

theorem fetch_before (poseidon : Poseidon) (keccak : Keccak) (order : BlockListOrder) (limit : Nat)
    {before : CursorChoiceBefore Nat} (ascending : Ascending blocks)
    (fits : before.inner < 2 ^ 64) :
    fetchBlocksNonEmptyPaginated (chainStore poseidon keccak blocks) (some (.before before)) order
        limit =
      .ok ((((arranged order blocks).filter fun format =>
        BlockStore.endsBefore order before format.height).rtake limit).map .ok) := by
  apply fetch_of_listPaginated
  rw [BlockStore.listPaginated_before (fits_chainStore ascending) fits, arrange_entries ascending,
    List.filter_map, map_rtake]
  rfl

/-! ## One page -/

/-- The cursors of a page: its ends. -/
def pageCursor (page : List TxnWithInfo) : Cursor ListTxnsPosition where
  after := page.getLast?.map fun txn => .afterInclusive txn.position
  before := page.head?.map fun txn => .beforeInclusive txn.position

/-- The transaction is not one that the cursor skips. -/
def keeps (cursor : Option (CursorChoice ListTxnsPosition))
    (item : ListTxnsPosition × UtxoProof) : Bool :=
  match cursor with
  | none => true
  | some cursor => !cursor.inner.skips item.1.block item.1.txn

@[simp]
theorem flattenOk_map_ok {α β ε : Type} (f : α → List β) (groups : List α) :
    flattenOk ((groups.map (Except.ok (ε := ε))).map (Except.map f)) =
      (groups.flatMap f).map .ok := by
  induction groups with
  | nil => rfl
  | cons group groups ih =>
      rw [List.flatMap_cons, List.map_append, ← ih]
      rfl

@[simp]
theorem paginate_map_ok {ε : Type} (page : List TxnWithInfo) :
    paginate (fun item => item.toOption.map TxnWithInfo.position)
        (page.map (Except.ok (ε := ε))) =
      ({ before := page.head?.map fun txn => .before txn.position
         after := page.getLast?.map fun txn => .after txn.position }, page.map .ok) := by
  have known : (page.map (Except.ok (ε := ε))).foldl
        (Cursor.next fun item => item.toOption.map TxnWithInfo.position) ⟨none, none⟩ =
      page.foldl (Cursor.next fun txn => some txn.position) ⟨none, none⟩ := by
    rw [List.foldl_map]
    rfl
  rw [paginate, known, foldl_next page fun txn _ => rfl, Option.none_or, Option.or_none]

/-- A page is cut from the fetched blocks. -/
theorem listTxnsInner_eq {ε : Type} (poseidon : Poseidon) (now maxHeight : Nat)
    {fetcher : BlockFetcher ε} (cursor : Option (CursorChoice ListTxnsPosition))
    (order : ListTxnOrder) {fetched : List BlockFormat} (limitLe : limit ≤ 100)
    (got : fetcher (cursor.map (CursorChoice.mapPos ListTxnsPosition.block))
      order.toBlockListOrder (limit + 1) = .ok (fetched.map .ok)) :
    ∃ page, listTxnsInner poseidon now fetcher ⟨some limit, cursor, order⟩ maxHeight =
        .ok (pageCursor page, page) ∧
      page.map TxnWithInfo.positioned =
        ((fetched.flatMap BlockFormat.positioned).filter (keeps cursor)).take limit := by
  have limitEq : min ((some limit).getD 10) 100 = limit := min_eq_left limitLe
  let page := ((fetched.flatMap (BlockFormat.withInfo poseidon now maxHeight)).filter
    (keeps cursor ∘ TxnWithInfo.positioned)).take limit
  have cut : ((flattenOk ((fetched.map (Except.ok (ε := ε))).map
        (Except.map (BlockFormat.withInfo poseidon now maxHeight)))).filter
      (notSkipped cursor)).take limit = page.map .ok := by
    rw [flattenOk_map_ok, List.filter_map, ← List.map_take]
    cases cursor with
    | none => rfl
    | some cursor => rfl
  refine ⟨page, ?_, ?_⟩
  · dsimp only [listTxnsInner, bind, Except.bind]
    rw [limitEq, got]
    dsimp only
    rw [cut, paginate_map_ok, mapM_id_map_ok, Option.map_map, Option.map_map]
    rfl
  · rw [List.map_take, ← List.filter_map, List.map_flatMap]
    simp only [map_positioned_withInfo]

/-! ## What a cursor skips -/

@[simp]
theorem skips_iff {cursor : ListTxnsPosition} {block txn : Nat} :
    cursor.skips block txn = true ↔ block = cursor.block ∧ txn ≤ cursor.txn := by
  simp only [ListTxnsPosition.skips, rangeContains, Bool.and_eq_true, Bool.or_eq_true,
    decide_eq_true_eq, beq_iff_eq]
  omega

@[simp]
theorem filter_keeps_none (items : List (ListTxnsPosition × UtxoProof)) :
    items.filter (keeps none) = items :=
  List.filter_eq_self.mpr fun _ _ => rfl

/-- Of its own block a cursor leaves what follows it. -/
@[simp]
theorem filter_keeps_own {cursor : CursorChoice ListTxnsPosition} {place : Nat}
    (inner : cursor.inner = ⟨format.height, place⟩) :
    format.positioned.filter (keeps (some cursor)) = format.positioned.drop (place + 1) := by
  apply filter_eq_drop
  · intro item mem
    rcases List.mem_take_iff_getElem.mp mem with ⟨index, bound, found⟩
    have at_ := position_of_getElem? (List.getElem?_eq_some_iff.mpr ⟨_, found⟩)
    rw [keeps, inner, at_, Bool.not_eq_false', skips_iff]
    exact ⟨rfl, Nat.le_of_lt_succ (Nat.lt_of_lt_of_le bound (Nat.min_le_left _ _))⟩
  · intro item mem
    rcases List.mem_drop_iff_getElem.mp mem with ⟨index, bound, found⟩
    have at_ := position_of_getElem? (List.getElem?_eq_some_iff.mpr ⟨_, found⟩)
    rw [keeps, inner, at_, Bool.not_eq_true', ← Bool.not_eq_true, skips_iff]
    rintro ⟨_, le⟩
    change place + 1 + index ≤ place at le
    omega

/-- Other blocks are left whole. -/
@[simp]
theorem filter_keeps_other {cursor : CursorChoice ListTxnsPosition} {others : List BlockFormat}
    (differ : ∀ other ∈ others, other.height ≠ cursor.inner.block) :
    (others.flatMap BlockFormat.positioned).filter (keeps (some cursor)) =
      others.flatMap BlockFormat.positioned := by
  apply List.filter_eq_self.mpr
  intro item mem
  rcases List.mem_flatMap.mp mem with ⟨other, otherMem, itemMem⟩
  rw [keeps, height_of_mem_positioned itemMem, Bool.not_eq_true', ← Bool.not_eq_true, skips_iff]
  exact fun ⟨same, _⟩ => differ other otherMem same

/-! The blocks around a block. -/

section

variable {before after : List BlockFormat}

theorem precedes_of_split (ascending : Ascending blocks)
    (split : arranged order blocks = before ++ format :: after) :
    (∀ other ∈ before, order.precedes other.height format.height = true) ∧
      ∀ other ∈ after, order.precedes format.height other.height = true := by
  have sorted := sorted_arranged ascending order
  rw [split, List.pairwise_append, List.pairwise_cons] at sorted
  rcases sorted with ⟨_, ⟨later, _⟩, earlier⟩
  exact ⟨fun other mem => earlier other mem format List.mem_cons_self, later⟩

theorem height_ne_of_precedes {first second : Nat} (before : order.precedes first second = true) :
    first ≠ second := by
  rintro rfl
  exact Bool.false_ne_true ((BlockStore.precedes_asymm order first first before).symm.trans before)

theorem fits_of_split (ascending : Ascending blocks)
    (split : arranged order blocks = before ++ format :: after) : format.height < 2 ^ 64 := by
  have mem : format ∈ arranged order blocks := by
    rw [split]
    exact List.mem_append_right before List.mem_cons_self
  exact ascending.fits format (mem_arranged.mp mem).1

@[simp]
theorem precedes_self (order : BlockListOrder) (height : Nat) :
    order.precedes height height = false := by
  by_contra related
  exact height_ne_of_precedes (Bool.not_eq_false _ ▸ related) rfl

/-- From a block on. -/
theorem filter_startsAfter (ascending : Ascending blocks)
    (split : arranged order blocks = before ++ format :: after) :
    ((arranged order blocks).filter fun other =>
        BlockStore.startsAfter order (.afterInclusive format.height) other.height) =
      format :: after := by
  rcases precedes_of_split ascending split with ⟨earlier, later⟩
  rw [split]
  apply filter_append_eq_right
  · exact fun other mem => (Bool.not_eq_false' _).mpr (earlier other mem)
  · intro other mem
    apply (Bool.not_eq_true' _).mpr
    rcases List.mem_cons.mp mem with rfl | inAfter
    · exact precedes_self order _
    · exact BlockStore.precedes_asymm order _ _ (later other inAfter)

/-- The page after a cursor is what the listing has behind the transaction. -/
theorem listTxnsInner_after (poseidon : Poseidon) (keccak : Keccak) (now maxHeight place : Nat)
    {listOrder : ListTxnOrder} (ascending : Ascending blocks) (limitLe : limit ≤ 100)
    (split : arranged listOrder.toBlockListOrder blocks = before ++ format :: after) :
    ∃ page, listTxnsInner poseidon now
        (fetchBlocksNonEmptyPaginated (chainStore poseidon keccak blocks))
        ⟨some limit, some (.after (.afterInclusive ⟨format.height, place⟩)), listOrder⟩ maxHeight =
          .ok (pageCursor page, page) ∧
      page.map TxnWithInfo.positioned =
        (format.positioned.drop (place + 1) ++
          after.flatMap BlockFormat.positioned).take limit := by
  have cursorFits : (CursorChoiceAfter.afterInclusive format.height).inner < 2 ^ 64 :=
    fits_of_split ascending split
  have fetched := fetch_after poseidon keccak listOrder.toBlockListOrder (limit + 1) ascending
    cursorFits
  rw [filter_startsAfter ascending split, List.take_succ_cons] at fetched
  rcases listTxnsInner_eq poseidon now maxHeight
    (some (.after (.afterInclusive ⟨format.height, place⟩))) listOrder limitLe fetched with
    ⟨page, pageEq, itemsEq⟩
  refine ⟨page, pageEq, ?_⟩
  have later := (precedes_of_split ascending split).2
  have notEmpty : ∀ other ∈ after, other.positioned ≠ [] := by
    intro other mem
    have otherMem : other ∈ arranged listOrder.toBlockListOrder blocks := by
      rw [split]
      exact List.mem_append_right before (List.mem_cons_of_mem format mem)
    exact positioned_ne_nil otherMem
  have differ : ∀ other ∈ after.take limit, other.height ≠ format.height := fun other mem =>
    (height_ne_of_precedes (later other (List.mem_of_mem_take mem))).symm
  rw [itemsEq, List.flatMap_cons, List.filter_append, filter_keeps_own rfl,
    filter_keeps_other differ, List.take_append, List.take_append,
    take_flatMap_take notEmpty (Nat.sub_le _ _)]

end

/-! ## Following the pages -/

/-- Ask for the page after the last transaction of the page before.  The clock tells the
time of each request. -/
def nextTxns (poseidon : Poseidon) (clock : Option (CursorChoiceAfter ListTxnsPosition) → Nat)
    (store : Store) (maxHeight limit : Nat) (listOrder : ListTxnOrder)
    (cursor : Option (CursorChoiceAfter ListTxnsPosition)) :
    Except (Stop KeyError)
      (List (ListTxnsPosition × UtxoProof) × Option (CursorChoiceAfter ListTxnsPosition)) := do
  let (cursors, txns) ← listTxnsInner poseidon (clock cursor) (fetchBlocksNonEmptyPaginated store)
    ⟨some limit, cursor.map .after, listOrder⟩ maxHeight
  pure (txns.map TxnWithInfo.positioned, cursors.after)

/-- The cursor points behind as many transactions of the listing. -/
def PointsInto (order : BlockListOrder) (blocks : List BlockFormat) :
    Option (CursorChoiceAfter ListTxnsPosition) → Nat → Prop
  | none, count => count = 0
  | some cursor, count => ∃ before format after place,
      arranged order blocks = before ++ format :: after ∧
        cursor = .afterInclusive ⟨format.height, place⟩ ∧
        (chainTxns order blocks).drop count =
          format.positioned.drop (place + 1) ++ after.flatMap BlockFormat.positioned

variable {listOrder : ListTxnOrder} {clock : Option (CursorChoiceAfter ListTxnsPosition) → Nat}

@[simp]
theorem getLast?_pageCursor (page : List TxnWithInfo) :
    (pageCursor page).after =
      (page.map TxnWithInfo.positioned).getLast?.map fun item => .afterInclusive item.1 := by
  rw [List.getLast?_map, Option.map_map]
  rfl

@[simp]
theorem head?_pageCursor (page : List TxnWithInfo) :
    (pageCursor page).before =
      (page.map TxnWithInfo.positioned).head?.map fun item => .beforeInclusive item.1 := by
  rw [List.head?_map, Option.map_map]
  rfl

theorem nextTxns_eq {cursor : Option (CursorChoiceAfter ListTxnsPosition)} {count : Nat}
    (ascending : Ascending blocks) (limitLe : limit ≤ 100)
    (points : PointsInto listOrder.toBlockListOrder blocks cursor count) :
    nextTxns poseidon clock (chainStore poseidon keccak blocks) maxHeight limit listOrder cursor =
      .ok (((chainTxns listOrder.toBlockListOrder blocks).drop count).take limit,
        (((chainTxns listOrder.toBlockListOrder blocks).drop count).take limit).getLast?.map
          fun item => .afterInclusive item.1) := by
  have answered : ∃ page, listTxnsInner poseidon (clock cursor)
        (fetchBlocksNonEmptyPaginated (chainStore poseidon keccak blocks))
        ⟨some limit, cursor.map .after, listOrder⟩ maxHeight = .ok (pageCursor page, page) ∧
      page.map TxnWithInfo.positioned =
        ((chainTxns listOrder.toBlockListOrder blocks).drop count).take limit := by
    cases cursor with
    | none =>
        obtain rfl : count = 0 := points
        have fetched := fetch_none poseidon keccak listOrder.toBlockListOrder (limit + 1) ascending
        rcases listTxnsInner_eq poseidon (clock none) maxHeight none listOrder limitLe fetched with
          ⟨page, pageEq, itemsEq⟩
        refine ⟨page, pageEq, ?_⟩
        rw [itemsEq, List.drop_zero, chainTxns_eq, filter_keeps_none,
          take_flatMap_take (fun _ => positioned_ne_nil) (Nat.le_succ limit)]
    | some cursor =>
        rcases points with ⟨before, format, after, place, split, rfl, dropEq⟩
        rw [dropEq]
        exact listTxnsInner_after poseidon keccak (clock (some _)) maxHeight place ascending limitLe
              split
  rcases answered with ⟨page, pageEq, itemsEq⟩
  rw [nextTxns, pageEq, ← itemsEq, ← getLast?_pageCursor]
  rfl

/-- The last transaction of a page points behind the page. -/
theorem PointsInto.next {count : Nat} {last : ListTxnsPosition × UtxoProof}
    (lastEq : (((chainTxns order blocks).drop count).take limit).getLast? = some last) :
    PointsInto order blocks (some (.afterInclusive last.1)) (count + limit) := by
  rcases List.getLast?_eq_some_iff.mp (getLast?_take_add lastEq) with ⟨init, takeEq⟩
  have split : (arranged order blocks).flatMap BlockFormat.positioned =
      init ++ last :: (chainTxns order blocks).drop (count + limit) := by
    rw [← chainTxns_eq, List.append_cons, ← takeEq, List.take_append_drop]
  rcases exists_of_flatMap_eq split with ⟨before, format, after, place, blocksEq, found, _, restEq⟩
  refine ⟨before, format, after, place, blocksEq, ?_, restEq⟩
  rw [position_of_getElem? found]

/-- Following the pages visits all transactions of a chain, each one once and in order. -/
theorem all_txns_listed (poseidon : Poseidon) (keccak : Keccak)
    (clock : Option (CursorChoiceAfter ListTxnsPosition) → Nat) (maxHeight : Nat)
    (listOrder : ListTxnOrder) (ascending : Ascending blocks) (positive : 1 ≤ limit)
    (limitLe : limit ≤ 100) :
    ∃ pages, Follows (nextTxns poseidon clock (chainStore poseidon keccak blocks) maxHeight limit
        listOrder) none pages ∧
      pages.flatten = chainTxns listOrder.toBlockListOrder blocks ∧
      ∀ page ∈ pages, page.length ≤ limit := by
  have starts : PointsInto listOrder.toBlockListOrder blocks none 0 := rfl
  apply Follows.exists_of_places positive _ starts
  intro cursor count points
  refine ⟨_, nextTxns_eq ascending limitLe points, fun remaining => ?_⟩
  have notEmpty : ((chainTxns listOrder.toBlockListOrder blocks).drop count).take limit ≠ [] := by
    rw [Ne, List.take_eq_nil_iff, not_or]
    exact ⟨Nat.ne_of_gt positive, remaining⟩
  have lastEq := List.getLast?_eq_some_getLast notEmpty
  exact ⟨_, congrArg (Option.map _) lastEq, PointsInto.next lastEq⟩

end

/-- A transaction of the examples. -/
def listedTxn : UtxoProof := ⟨[], .single 5 1 0 0 0 0⟩

/-- A block with copies of it. -/
def listedBlock (height count : Nat) : BlockFormat :=
  .v1 ⟨⟨⟨height, 0, 0, 0, []⟩, ⟨0, List.replicate count listedTxn⟩⟩, ⟨0, 0, 0⟩⟩

/-- Blocks with none, one, two and one transactions. -/
def listedBlocks : List BlockFormat :=
  [listedBlock 1 0, listedBlock 2 1, listedBlock 3 2, listedBlock 4 1]

theorem listedBlocks_ascending : Ascending listedBlocks where
  ordered := by simp [listedBlocks, listedBlock, BlockFormat.height, BlockFormat.intoBlock]
  fits := by simp [listedBlocks, listedBlock, BlockFormat.height, BlockFormat.intoBlock]

theorem listedBlocks_listed :
    ∃ pages, Follows (nextTxns (fun _ => 0) (fun _ => 0)
        (chainStore (fun _ => 0) (fun _ => 0) listedBlocks) 4 1 .newestToOldest) none pages ∧
      pages.flatten = chainTxns .highestToLowest listedBlocks ∧
      ∀ page ∈ pages, page.length ≤ 1 :=
  all_txns_listed (fun _ => 0) (fun _ => 0) (fun _ => 0) 4 .newestToOldest listedBlocks_ascending
    (Nat.le_refl 1) (by decide)

end Ciphera.Node
