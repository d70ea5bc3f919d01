import Ciphera.Node.Txns

/-!
# Transactions before a page

The cursor before a page names the first transaction of the page, and the page in front of
it should end right there.  The code skips the transactions that the block of the cursor
has up to the cursor, as for a page that comes after; those are the ones to be shown here.
It then cuts the page from the start of what is left instead of from its end.

The page is the right one only where neither matters: the cursor is at the start of its
block, and the blocks in front of it that are fetched have as many transactions as the
page, or fewer while its own block has no second one.
-/

namespace Ciphera.Node

open Ciphera.BlockStore (BlockListOrder KeyError ListableKey)
open Ciphera.Lib Ciphera.Noir Ciphera.Zk

/-- Ask for the page before the first transaction of a page. -/
def prevTxns (poseidon : Poseidon) (now : Nat) (store : Store) (maxHeight limit : Nat)
    (listOrder : ListTxnOrder) (back : CursorChoiceBefore ListTxnsPosition) :
    Except (Stop KeyError) (List (ListTxnsPosition × UtxoProof)) := do
  let (_, txns) ← listTxnsInner poseidon now (fetchBlocksNonEmptyPaginated store)
    ⟨some limit, some (.before back), listOrder⟩ maxHeight
  pure (txns.map TxnWithInfo.positioned)

/-- The transactions in front of a position. -/
def txnsBefore (order : BlockListOrder) (blocks : List BlockFormat) (pos : ListTxnsPosition) :
    List (ListTxnsPosition × UtxoProof) :=
  (chainTxns order blocks).takeWhile fun item => item.1 ≠ pos

/-- The transactions of blocks together. -/
def txnCount (blocks : List BlockFormat) : Nat :=
  (blocks.map fun format => format.intoBlock.content.state.txns.length).sum

/-- The nearest blocks with transactions in front of the block of a position, as many as
the limit if there are so many. -/
def nearestBefore (order : BlockListOrder) (blocks : List BlockFormat) (limit : Nat)
    (pos : ListTxnsPosition) : List BlockFormat :=
  ((arranged order blocks).filter fun format => order.precedes format.height pos.block).rtake limit

/-- The position is the first one of its block, and the blocks in front of it fill a page
exactly, or fill less than a page while its own block has one transaction. -/
def GoesBack (order : BlockListOrder) (blocks : List BlockFormat) (limit : Nat)
    (pos : ListTxnsPosition) : Prop :=
  pos.txn = 0 ∧
    (txnCount (nearestBefore order blocks limit pos) = limit ∨
      txnCount (nearestBefore order blocks limit pos) < limit ∧
        txnCount ((arranged order blocks).filter fun format => format.height = pos.block) = 1)

section

variable {poseidon : Poseidon} {keccak : Keccak} {blocks : List BlockFormat}
  {format : BlockFormat} {order : BlockListOrder} {now maxHeight limit : Nat}

@[simp]
theorem length_positioned (format : BlockFormat) :
    format.positioned.length = format.intoBlock.content.state.txns.length := by
  rw [BlockFormat.positioned, List.length_map, List.length_zipIdx]

@[simp]
theorem length_flatMap_positioned (blocks : List BlockFormat) :
    (blocks.flatMap BlockFormat.positioned).length = txnCount blocks := by
  rw [List.length_flatMap, txnCount]
  simp only [length_positioned]

/-! ## Positions are distinct -/

theorem distinct_positioned (format : BlockFormat) :
    format.positioned.Pairwise fun first second => first.1 ≠ second.1 := by
  rw [List.pairwise_iff_getElem]
  intro first second firstLt secondLt less same
  rw [position_of_getElem? (List.getElem?_eq_getElem firstLt),
    position_of_getElem? (List.getElem?_eq_getElem secondLt)] at same
  injection same with _ places
  exact Nat.ne_of_lt less places

theorem distinct_flatMap_positioned (heights : blocks.Pairwise fun first second =>
      first.height ≠ second.height) :
    (blocks.flatMap BlockFormat.positioned).Pairwise fun first second => first.1 ≠ second.1 := by
  rw [List.pairwise_flatMap]
  constructor
  · exact fun format _ => distinct_positioned format
  · apply heights.imp
    intro first second differ item itemMem other otherMem same
    apply differ
    rw [← height_of_mem_positioned itemMem, same, height_of_mem_positioned otherMem]

theorem distinct_arranged (ascending : Ascending blocks) (order : BlockListOrder) :
    (arranged order blocks).Pairwise fun first second => first.height ≠ second.height :=
  (sorted_arranged ascending order).imp height_ne_of_precedes

/-- What comes before a transaction of the listing. -/
theorem txnsBefore_eq {init rest : List (ListTxnsPosition × UtxoProof)}
    {first : ListTxnsPosition × UtxoProof} (ascending : Ascending blocks)
    (split : chainTxns order blocks = init ++ first :: rest) :
    txnsBefore order blocks first.1 = init := by
  have distinct := distinct_flatMap_positioned (distinct_arranged ascending order)
  rw [← chainTxns_eq, split, List.pairwise_append] at distinct
  have differ : ∀ item ∈ init, decide (item.1 ≠ first.1) = true := fun item mem =>
    decide_eq_true (distinct.2.2 item mem first List.mem_cons_self)
  have stops : (first :: rest).takeWhile (fun item => decide (item.1 ≠ first.1)) = [] := by
    rw [List.takeWhile_cons]
    simp
  rw [txnsBefore, split, List.takeWhile_append_of_pos differ, stops, List.append_nil]

/-! ## The page that is returned -/

section

variable {before after : List BlockFormat}

/-- Up to a block. -/
theorem filter_endsBefore (ascending : Ascending blocks)
    (split : arranged order blocks = before ++ format :: after) :
    ((arranged order blocks).filter fun other =>
        BlockStore.endsBefore order (.beforeInclusive format.height) other.height) =
      before ++ [format] := by
  rcases precedes_of_split ascending split with ⟨earlier, later⟩
  rw [split, List.append_cons]
  apply filter_append_eq_left
  · intro other mem
    apply (Bool.not_eq_true' _).mpr
    rcases List.mem_append.mp mem with inBefore | isFormat
    · exact BlockStore.precedes_asymm order _ _ (earlier other inBefore)
    · rw [List.mem_singleton.mp isFormat]
      exact precedes_self order _
  · exact fun other mem => (Bool.not_eq_false' _).mpr (later other mem)

/-- In front of a block. -/
theorem filter_precedes (ascending : Ascending blocks)
    (split : arranged order blocks = before ++ format :: after) :
    ((arranged order blocks).filter fun other => order.precedes other.height format.height) =
      before := by
  rcases precedes_of_split ascending split with ⟨earlier, later⟩
  rw [split]
  apply filter_append_eq_left earlier
  intro other mem
  rcases List.mem_cons.mp mem with rfl | inAfter
  · exact precedes_self order _
  · exact BlockStore.precedes_asymm order _ _ (later other inAfter)

/-- The block itself. -/
theorem filter_height (ascending : Ascending blocks)
    (split : arranged order blocks = before ++ format :: after) :
    ((arranged order blocks).filter fun other => other.height = format.height) = [format] := by
  rcases precedes_of_split ascending split with ⟨earlier, later⟩
  have onlyFormat : (format :: after).filter (fun other => other.height = format.height) =
      [format] := by
    rw [← List.singleton_append]
    apply filter_append_eq_left
    · exact fun other mem => decide_eq_true (congrArg _ (List.mem_singleton.mp mem))
    · exact fun other mem =>
        decide_eq_false fun same => height_ne_of_precedes (later other mem) same.symm
  rw [split, List.filter_append, onlyFormat, List.append_left_eq_self, List.filter_eq_nil_iff]
  exact fun other mem same =>
    height_ne_of_precedes (earlier other mem) (of_decide_eq_true same)

/-- The page before a cursor skips what the block of the cursor has up to it, and is cut
from the first block that was fetched. -/
theorem prevTxns_eq (poseidon : Poseidon) (keccak : Keccak) (now maxHeight place : Nat)
    {listOrder : ListTxnOrder} (ascending : Ascending blocks) (limitLe : limit ≤ 100)
    (split : arranged listOrder.toBlockListOrder blocks = before ++ format :: after) :
    prevTxns poseidon now (chainStore poseidon keccak blocks) maxHeight limit listOrder
        (.beforeInclusive ⟨format.height, place⟩) =
      .ok (((before.rtake limit).flatMap BlockFormat.positioned ++
        format.positioned.drop (place + 1)).take limit) := by
  have cursorFits : (CursorChoiceBefore.beforeInclusive format.height).inner < 2 ^ 64 :=
    fits_of_split ascending split
  have fetched := fetch_before poseidon keccak listOrder.toBlockListOrder (limit + 1) ascending
    cursorFits
  rw [filter_endsBefore ascending split, List.rtake_concat_succ] at fetched
  rcases listTxnsInner_eq poseidon now maxHeight
    (some (.before (.beforeInclusive ⟨format.height, place⟩))) listOrder limitLe fetched with
    ⟨page, pageEq, itemsEq⟩
  have earlier := (precedes_of_split ascending split).1
  have differ : ∀ other ∈ before.rtake limit, other.height ≠ format.height := fun other mem =>
    height_ne_of_precedes (earlier other (List.mem_of_mem_drop mem))
  rw [prevTxns, pageEq]
  change Except.ok (page.map TxnWithInfo.positioned) = _
  rw [itemsEq, List.flatMap_append, List.flatMap_singleton, List.filter_append,
    filter_keeps_other differ, filter_keeps_own rfl]

/-- A position that is not the first one of its block has a predecessor that the page
leaves out. -/
theorem place_eq_zero {place : Nat} (positive : 1 ≤ limit) (ascending : Ascending blocks)
    (split : arranged order blocks = before ++ format :: after)
    (placeLt : place < format.positioned.length)
    (same : ((before.rtake limit).flatMap BlockFormat.positioned ++
        format.positioned.drop (place + 1)).take limit =
      (before.flatMap BlockFormat.positioned ++ format.positioned.take place).rtake limit) :
    place = 0 := by
  cases place with
  | zero => rfl
  | succ place =>
      have earlier := (precedes_of_split ascending split).1
      have previousLt : place < format.positioned.length := Nat.lt_of_succ_lt placeLt
      have found := List.getElem?_eq_getElem previousLt
      have previousMem : format.positioned[place] ∈
          (before.flatMap BlockFormat.positioned ++ format.positioned.take (place + 1)).rtake
            limit := by
        rw [List.take_add_one, found, ← List.append_assoc]
        exact mem_rtake_concat positive _ _
      rw [← same] at previousMem
      rcases List.mem_append.mp (List.mem_of_mem_take previousMem) with inBefore | inDrop
      · rcases List.mem_flatMap.mp inBefore with ⟨other, otherMem, itemMem⟩
        have differ := height_ne_of_precedes (earlier other (List.mem_of_mem_drop otherMem))
        rw [← height_of_mem_positioned itemMem, position_of_getElem? found] at differ
        exact absurd rfl differ
      · rcases List.mem_drop_iff_getElem.mp inDrop with ⟨index, indexLt, itemEq⟩
        have at_ := position_of_getElem? (List.getElem?_eq_some_iff.mpr ⟨_, itemEq⟩)
        rw [position_of_getElem? found] at at_
        injection at_ with _ places
        omega

/-- The page before a position is the right one exactly under the condition. -/
theorem prevTxns_iff {listOrder : ListTxnOrder} {place : Nat} (ascending : Ascending blocks)
    (positive : 1 ≤ limit) (limitLe : limit ≤ 100)
    (split : arranged listOrder.toBlockListOrder blocks = before ++ format :: after)
    (placeLt : place < format.positioned.length) :
    prevTxns poseidon now (chainStore poseidon keccak blocks) maxHeight limit listOrder
        (.beforeInclusive ⟨format.height, place⟩) =
      .ok ((before.flatMap BlockFormat.positioned ++ format.positioned.take place).rtake limit) ↔
      GoesBack listOrder.toBlockListOrder blocks limit ⟨format.height, place⟩ := by
  have heights := distinct_arranged ascending listOrder.toBlockListOrder
  rw [split, List.pairwise_append] at heights
  have distinct : ((before.rtake limit).flatMap BlockFormat.positioned).Nodup :=
    (distinct_flatMap_positioned (heights.1.sublist (List.drop_sublist _ _))).imp
      fun differ same => differ (congrArg Prod.fst same)
  have notEmpty : ∀ other ∈ before, other.positioned ≠ [] := by
    intro other mem
    have otherMem : other ∈ arranged listOrder.toBlockListOrder blocks := by
      rw [split]
      exact List.mem_append_left _ mem
    exact positioned_ne_nil otherMem
  have counts : GoesBack listOrder.toBlockListOrder blocks limit ⟨format.height, place⟩ ↔
      place = 0 ∧
        (((before.rtake limit).flatMap BlockFormat.positioned).length = limit ∨
          ((before.rtake limit).flatMap BlockFormat.positioned).length < limit ∧
            format.positioned.drop 1 = []) := by
    rw [GoesBack, nearestBefore, filter_precedes ascending split, filter_height ascending split,
      ← length_flatMap_positioned, ← length_flatMap_positioned, List.flatMap_singleton,
      List.drop_eq_nil_iff]
    have atLeast : 1 ≤ format.positioned.length := Nat.succ_le_of_lt (Nat.zero_lt_of_lt placeLt)
    have single : format.positioned.length = 1 ↔ format.positioned.length ≤ 1 :=
      ⟨Nat.le_of_eq, fun le => Nat.le_antisymm le atLeast⟩
    rw [single]
  rw [prevTxns_eq poseidon keccak now maxHeight place ascending limitLe split, Except.ok.injEq,
    counts]
  constructor
  · intro same
    obtain rfl := place_eq_zero positive ascending split placeLt same
    refine ⟨rfl, (take_append_eq_rtake_iff positive distinct _).mp ?_⟩
    rw [rtake_flatMap_rtake notEmpty]
    rw [List.take_zero, List.append_nil] at same
    exact same
  · rintro ⟨rfl, fits⟩
    rw [List.take_zero, List.append_nil, ← rtake_flatMap_rtake notEmpty]
    exact (take_append_eq_rtake_iff positive distinct _).mpr fits

end

/-! ## The cursor before a page -/

/-- Cursors that come in have 64-bit heights. -/
def CursorFits (cursor : Option (CursorChoice ListTxnsPosition)) : Prop :=
  ∀ choice, cursor = some choice → choice.inner.block < 2 ^ 64

/-- The blocks of a page are blocks of the chain. -/
theorem exists_fetched (poseidon : Poseidon) (keccak : Keccak) (order : BlockListOrder)
    (limit : Nat) (ascending : Ascending blocks) {cursor : Option (CursorChoice ListTxnsPosition)}
    (fits : CursorFits cursor) :
    ∃ fetched : List BlockFormat, fetchBlocksNonEmptyPaginated (chainStore poseidon keccak blocks)
        (cursor.map (CursorChoice.mapPos ListTxnsPosition.block)) order limit =
          .ok (fetched.map .ok) ∧
      ∀ format ∈ fetched, format ∈ arranged order blocks := by
  cases cursor with
  | none =>
      exact ⟨_, fetch_none poseidon keccak order limit ascending,
        fun format mem => List.mem_of_mem_take mem⟩
  | some choice =>
      have choiceFits := fits choice rfl
      cases choice with
      | after choice =>
          have mapFits : (choice.mapPos ListTxnsPosition.block).inner < 2 ^ 64 := by
            cases choice <;> exact choiceFits
          exact ⟨_, fetch_after poseidon keccak order limit ascending mapFits,
            fun format mem => List.mem_of_mem_filter (List.mem_of_mem_take mem)⟩
      | before choice =>
          have mapFits : (choice.mapPos ListTxnsPosition.block).inner < 2 ^ 64 := by
            cases choice <;> exact choiceFits
          exact ⟨_, fetch_before poseidon keccak order limit ascending mapFits,
            fun format mem => List.mem_of_mem_filter (List.mem_of_mem_drop mem)⟩

/-- The cursor before a page names a transaction of the chain. -/
theorem before_of_listTxnsInner {listOrder : ListTxnOrder} {cursors : Cursor ListTxnsPosition}
    {cursor : Option (CursorChoice ListTxnsPosition)} {page : List TxnWithInfo}
    {back : CursorChoiceBefore ListTxnsPosition} (ascending : Ascending blocks)
    (limitLe : limit ≤ 100) (fits : CursorFits cursor)
    (shown : listTxnsInner poseidon now
      (fetchBlocksNonEmptyPaginated (chainStore poseidon keccak blocks))
      ⟨some limit, cursor, listOrder⟩ maxHeight = .ok (cursors, page))
    (backEq : cursors.before = some back) :
    ∃ first ∈ chainTxns listOrder.toBlockListOrder blocks,
      (page.map TxnWithInfo.positioned).head? = some first ∧ back = .beforeInclusive first.1 := by
  rcases exists_fetched poseidon keccak listOrder.toBlockListOrder (limit + 1) ascending fits with
    ⟨fetched, fetchedEq, known⟩
  rcases listTxnsInner_eq poseidon now maxHeight cursor listOrder limitLe fetchedEq with
    ⟨same, sameEq, itemsEq⟩
  rw [sameEq] at shown
  cases shown
  rw [head?_pageCursor] at backEq
  rcases Option.map_eq_some_iff.mp backEq with ⟨first, headEq, rfl⟩
  have inPage := List.mem_of_head? headEq
  rw [itemsEq] at inPage
  rcases List.mem_flatMap.mp (List.mem_of_mem_filter (List.mem_of_mem_take inPage)) with
    ⟨format, formatMem, itemMem⟩
  refine ⟨first, ?_, headEq, rfl⟩
  rw [chainTxns_eq]
  exact List.mem_flatMap.mpr ⟨format, known format formatMem, itemMem⟩

/-- The page for the cursor before a page has the transactions right in front of it exactly
under the condition. -/
theorem page_before_iff {listOrder : ListTxnOrder} {cursors : Cursor ListTxnsPosition}
    {cursor : Option (CursorChoice ListTxnsPosition)} {page : List TxnWithInfo}
    {back : CursorChoiceBefore ListTxnsPosition} (later : Nat) (ascending : Ascending blocks)
    (positive : 1 ≤ limit) (limitLe : limit ≤ 100) (fits : CursorFits cursor)
    (shown : listTxnsInner poseidon now
      (fetchBlocksNonEmptyPaginated (chainStore poseidon keccak blocks))
      ⟨some limit, cursor, listOrder⟩ maxHeight = .ok (cursors, page))
    (backEq : cursors.before = some back) :
    prevTxns poseidon later (chainStore poseidon keccak blocks) maxHeight limit listOrder back =
        .ok ((txnsBefore listOrder.toBlockListOrder blocks back.inner).rtake limit) ↔
      GoesBack listOrder.toBlockListOrder blocks limit back.inner := by
  rcases before_of_listTxnsInner ascending limitLe fits shown backEq with ⟨first, mem, _, rfl⟩
  rcases List.append_of_mem mem with ⟨init, rest, split⟩
  have grouped := (chainTxns_eq listOrder.toBlockListOrder blocks).symm.trans split
  rcases exists_of_flatMap_eq grouped with ⟨before, format, after, place, blocksEq, found, rfl, _⟩
  have placeLt := (List.getElem?_eq_some_iff.mp found).1
  change prevTxns _ _ _ _ _ _ (.beforeInclusive first.1) =
    .ok ((txnsBefore _ _ first.1).rtake limit) ↔ GoesBack _ _ _ first.1
  rw [txnsBefore_eq ascending split, position_of_getElem? found]
  exact prevTxns_iff ascending positive limitLe blocksEq placeLt

end

/-- A block with two transactions. -/
def pairBlocks : List BlockFormat := [listedBlock 1 2]

theorem pairBlocks_ascending : Ascending pairBlocks where
  ordered := List.pairwise_singleton _ _
  fits := by simp [pairBlocks, listedBlock, BlockFormat.height, BlockFormat.intoBlock]

/-- In pages of one transaction the second page leads back to an empty one. -/
theorem second_page_leads_nowhere :
    ∃ cursors page back,
      nextTxns (fun _ => 0) (fun _ => 0) (chainStore (fun _ => 0) (fun _ => 0) pairBlocks) 1 1
          .oldestToNewest none =
        .ok ([(⟨1, 0⟩, listedTxn)], some (.afterInclusive ⟨1, 0⟩)) ∧
      listTxnsInner (fun _ => 0) 0
          (fetchBlocksNonEmptyPaginated (chainStore (fun _ => 0) (fun _ => 0) pairBlocks))
          ⟨some 1, some (.after (.afterInclusive ⟨1, 0⟩)), .oldestToNewest⟩ 1 =
        .ok (cursors, page) ∧
      cursors.before = some back ∧
      prevTxns (fun _ => 0) 0 (chainStore (fun _ => 0) (fun _ => 0) pairBlocks) 1 1
          .oldestToNewest back = .ok [] ∧
      (txnsBefore .lowestToHighest pairBlocks back.inner).rtake 1 = [(⟨1, 0⟩, listedTxn)] := by
  have split : arranged ListTxnOrder.oldestToNewest.toBlockListOrder pairBlocks =
      [] ++ listedBlock 1 2 :: [] := rfl
  have starts : PointsInto ListTxnOrder.oldestToNewest.toBlockListOrder pairBlocks none 0 := rfl
  have one : 1 ≤ 100 := by decide
  rcases listTxnsInner_after (fun _ => 0) (fun _ => 0) 0 1 0 pairBlocks_ascending one split with
    ⟨page, pageEq, itemsEq⟩
  have returned := prevTxns_eq (fun _ => 0) (fun _ => 0) 0 1 1 pairBlocks_ascending one split
  refine ⟨pageCursor page, page, .beforeInclusive ⟨1, 1⟩, ?_, pageEq, ?_, ?_, rfl⟩
  · rw [nextTxns_eq pairBlocks_ascending one starts]
    rfl
  · rw [head?_pageCursor, itemsEq]
    rfl
  · exact returned

theorem listedBlocks_goes_back :
    ∃ cursors page back,
      listTxnsInner (fun _ => 0) 0
          (fetchBlocksNonEmptyPaginated (chainStore (fun _ => 0) (fun _ => 0) listedBlocks))
          ⟨some 1, some (.after (.afterInclusive ⟨4, 0⟩)), .newestToOldest⟩ 4 =
        .ok (cursors, page) ∧
      cursors.before = some back ∧
      prevTxns (fun _ => 0) 0 (chainStore (fun _ => 0) (fun _ => 0) listedBlocks) 4 1
          .newestToOldest back =
        .ok ((txnsBefore .highestToLowest listedBlocks back.inner).rtake 1) := by
  have split : arranged ListTxnOrder.newestToOldest.toBlockListOrder listedBlocks =
      [] ++ listedBlock 4 1 :: [listedBlock 3 2, listedBlock 2 1] := rfl
  have one : 1 ≤ 100 := by decide
  rcases listTxnsInner_after (fun _ => 0) (fun _ => 0) 0 4 0 listedBlocks_ascending one split with
    ⟨page, pageEq, itemsEq⟩
  have backEq : (pageCursor page).before = some (.beforeInclusive ⟨3, 0⟩) := by
    rw [head?_pageCursor, itemsEq]
    rfl
  have fits : CursorFits (some (.after (.afterInclusive ⟨4, 0⟩))) := by
    rintro choice ⟨⟩
    change 4 < 2 ^ 64
    decide
  have goesBack : GoesBack .highestToLowest listedBlocks 1 ⟨3, 0⟩ := ⟨rfl, .inl rfl⟩
  exact ⟨pageCursor page, page, _, pageEq, backEq,
    (page_before_iff 0 listedBlocks_ascending (Nat.le_refl 1) one fits pageEq backEq).mpr goesBack⟩

end Ciphera.Node
