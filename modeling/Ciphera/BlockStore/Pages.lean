import Ciphera.BlockStore.Listing
import Ciphera.Lib.Pages

/-!
# Pages of blocks

A page after a cursor is the start of the listing behind the cursor; a page before a cursor
is the end of the listing in front of it.  Following the last item of each page goes through
all blocks.
-/

namespace Ciphera.BlockStore

open Ciphera.Lib

variable {B T : Type}

/-! ## One page -/

/-- In the requested order the first height comes before the second. -/
def BlockListOrder.precedes : BlockListOrder → Nat → Nat → Bool
  | lowestToHighest, first, second => decide (first < second)
  | highestToLowest, first, second => decide (second < first)

/-- In the requested order the height comes before the cursor, or at it. -/
def endsBefore (order : BlockListOrder) (cursor : CursorChoiceBefore Nat) (height : Nat) : Bool :=
  match cursor with
  | .before pos => order.precedes height pos
  | .beforeInclusive pos => !order.precedes pos height

/-- In the requested order the height comes after the cursor, or at it. -/
def startsAfter (order : BlockListOrder) (cursor : CursorChoiceAfter Nat) (height : Nat) : Bool :=
  match cursor with
  | .after pos => order.precedes pos height
  | .afterInclusive pos => !order.precedes height pos

section

variable {keys : ListableKey} {store : BlockStore B T} {order : BlockListOrder} {limit : Nat}

@[simp]
theorem map_withHeight (keys : ListableKey) (entries : List (Nat × B)) :
    (entries.map fun entry => (keys.toKey entry.1, entry.2)).map (withHeight keys) =
      entries.map .ok := by
  rw [List.map_map]
  apply List.map_congr_left
  intro entry _
  exact withHeight_toKey keys entry

/-- The rows of a page. -/
theorem mapM_take_intoIterator {cursor : Option (CursorChoice Nat)} {start finish : Bound Nat}
    {pageOrder : BlockListOrder} (limit : Nat) (fits : Fits keys store)
    (startFits : BoundFits start) (finishFits : BoundFits finish)
    (range : keys.pageRange cursor order = keys.list start finish pageOrder) :
    (((keys.pageRange cursor order).intoIterator store).take limit).mapM id =
      .ok (((pageOrder.arrange ((entries keys store).filter (inRange start finish))).take limit).map
        fun entry => (keys.toKey entry.1, entry.2)) := by
  have taken : ((keys.pageRange cursor order).intoIterator store).take limit =
      (((pageOrder.arrange ((entries keys store).filter (inRange start finish))).take limit).map
        fun entry => (keys.toKey entry.1, entry.2)).map .ok := by
    rw [range, intoIterator_list fits startFits finishFits, ← List.map_take, List.map_map]
    rfl
  rw [taken, mapM_id_map_ok]

@[simp]
theorem arrange_filter {α : Type} (order : BlockListOrder) (items : List α) (wanted : α → Bool) :
    order.arrange (items.filter wanted) = (order.arrange items).filter wanted := by
  rw [BlockListOrder.arrange, BlockListOrder.arrange]
  split_ifs
  · rfl
  · exact List.filter_reverse.symm

@[simp]
theorem arrange_reverse {α : Type} (order : BlockListOrder) (items : List α) :
    order.reverse.arrange items = (order.arrange items).reverse := by
  cases order with
  | lowestToHighest => rfl
  | highestToLowest => exact (List.reverse_reverse items).symm

/-- Without a cursor a page is the start of the listing. -/
theorem listPaginated_none (fits : Fits keys store) :
    listPaginated keys store none order limit =
      .ok (((order.arrange (entries keys store)).take limit).map .ok) := by
  have all : (entries keys store).filter (inRange .unbounded .unbounded) = entries keys store :=
    List.filter_eq_self.mpr fun _ _ => rfl
  have range : keys.pageRange none order = keys.list .unbounded .unbounded order := by
    cases order with
    | lowestToHighest => rfl
    | highestToLowest => rfl
  have unboundedFits : BoundFits .unbounded := trivial
  rw [listPaginated, ListableKey.listPaginated,
    mapM_take_intoIterator limit fits unboundedFits unboundedFits range, all]
  exact congrArg Except.ok (map_withHeight keys _)

/-- The range behind a cursor. -/
theorem exists_pageRange_after (keys : ListableKey) (order : BlockListOrder)
    {after : CursorChoiceAfter Nat} (fits : after.inner < 2 ^ 64) :
    ∃ start finish, BoundFits start ∧ BoundFits finish ∧
      keys.pageRange (some (.after after)) order = keys.list start finish order ∧
      ∀ height, (startsBefore start height && endsAfter finish height) =
        startsAfter order after height := by
  cases order with
  | lowestToHighest =>
      refine ⟨after.toBound, .unbounded, ?_, trivial, rfl, fun height => ?_⟩
      · cases after <;> exact fits
      · cases after <;> simp [startsBefore, endsAfter, startsAfter, CursorChoiceAfter.toBound,
          BlockListOrder.precedes, ← decide_not]
  | highestToLowest =>
      refine ⟨.unbounded, after.toBound, trivial, ?_, rfl, fun height => ?_⟩
      · cases after <;> exact fits
      · cases after <;> simp [startsBefore, endsAfter, startsAfter, CursorChoiceAfter.toBound,
          BlockListOrder.precedes, ← decide_not]

/-- The range in front of a cursor, which is read in the reverse order. -/
theorem exists_pageRange_before (keys : ListableKey) (order : BlockListOrder)
    {before : CursorChoiceBefore Nat} (fits : before.inner < 2 ^ 64) :
    ∃ start finish, BoundFits start ∧ BoundFits finish ∧
      keys.pageRange (some (.before before)) order = keys.list start finish order.reverse ∧
      ∀ height, (startsBefore start height && endsAfter finish height) =
        endsBefore order before height := by
  cases order with
  | lowestToHighest =>
      refine ⟨.unbounded, before.toBound, trivial, ?_, rfl, fun height => ?_⟩
      · cases before <;> exact fits
      · cases before <;> simp [startsBefore, endsAfter, endsBefore, CursorChoiceBefore.toBound,
          BlockListOrder.precedes, ← decide_not]
  | highestToLowest =>
      refine ⟨before.toBound, .unbounded, ?_, trivial, rfl, fun height => ?_⟩
      · cases before <;> exact fits
      · cases before <;> simp [startsBefore, endsAfter, endsBefore, CursorChoiceBefore.toBound,
          BlockListOrder.precedes, ← decide_not]

/-- A page after a cursor is the start of the listing behind the cursor. -/
theorem listPaginated_after {after : CursorChoiceAfter Nat} (fits : Fits keys store)
    (cursorFits : after.inner < 2 ^ 64) :
    listPaginated keys store (some (.after after)) order limit =
      .ok ((((order.arrange (entries keys store)).filter fun entry =>
        startsAfter order after entry.1).take limit).map .ok) := by
  rcases exists_pageRange_after keys order cursorFits with
    ⟨start, finish, startFits, finishFits, range, wanted⟩
  have filterEq : (entries keys store).filter (inRange start finish) =
      (entries keys store).filter fun entry => startsAfter order after entry.1 :=
    List.filter_congr fun entry _ => wanted entry.1
  rw [listPaginated, ListableKey.listPaginated,
    mapM_take_intoIterator limit fits startFits finishFits range, filterEq, arrange_filter]
  exact congrArg Except.ok (map_withHeight keys _)

/-- A page before a cursor is the end of the listing in front of the cursor. -/
theorem listPaginated_before {before : CursorChoiceBefore Nat} (fits : Fits keys store)
    (cursorFits : before.inner < 2 ^ 64) :
    listPaginated keys store (some (.before before)) order limit =
      .ok ((((order.arrange (entries keys store)).filter fun entry =>
        endsBefore order before entry.1).rtake limit).map .ok) := by
  rcases exists_pageRange_before keys order cursorFits with
    ⟨start, finish, startFits, finishFits, range, wanted⟩
  have filterEq : (entries keys store).filter (inRange start finish) =
      (entries keys store).filter fun entry => endsBefore order before entry.1 :=
    List.filter_congr fun entry _ => wanted entry.1
  rw [listPaginated, ListableKey.listPaginated,
    mapM_take_intoIterator limit fits startFits finishFits range, filterEq, arrange_reverse,
    arrange_filter, List.rtake_eq_reverse_take_reverse]
  change Except.ok (((List.map _ _).reverse).map _) = _
  rw [← List.map_reverse]
  exact congrArg Except.ok (map_withHeight keys _)

end

/-! ## All pages -/

/-- The block under a key. -/
def stored (keys : ListableKey) (store : BlockStore B T) (height : Nat) : Option B :=
  match keys with
  | .block => store.get height
  | .nonEmptyBlock => store.nonEmptyBlocks[height]?

/-- The list has exactly the stored blocks with a wanted height, each one once and in the
requested order. -/
structure Lists (keys : ListableKey) (store : BlockStore B T) (order : BlockListOrder)
    (wanted : Nat → Bool) (blocks : List (Nat × B)) : Prop where
  ordered : blocks.Pairwise fun first second => order.precedes first.1 second.1 = true
  mem_iff : ∀ height block,
    (height, block) ∈ blocks ↔ stored keys store height = some block ∧ wanted height = true

/-- Ask for the page after the last item of the page before. -/
def nextPage (keys : ListableKey) (store : BlockStore B T) (order : BlockListOrder) (limit : Nat)
    (cursor : Option Nat) : Except (Stop KeyError) (List (Nat × B) × Option Nat) := do
  let page ← listPaginated keys store (cursor.map fun height => .after (.after height)) order limit
  let items ← page.mapM id
  pure (items, items.getLast?.map Prod.fst)

section

variable {keys : ListableKey} {store : BlockStore B T} {order : BlockListOrder} {limit : Nat}

@[simp]
theorem mem_entries {height : Nat} {block : B} :
    (height, block) ∈ entries keys store ↔ stored keys store height = some block := by
  cases keys with
  | block => exact Std.TreeMap.mem_toList_iff_getElem?_eq_some
  | nonEmptyBlock => exact Std.TreeMap.mem_toList_iff_getElem?_eq_some

theorem precedes_asymm (order : BlockListOrder) (first second : Nat)
    (before : order.precedes first second = true) : order.precedes second first = false := by
  cases order with
  | lowestToHighest => exact decide_eq_false (Nat.lt_asymm (of_decide_eq_true before))
  | highestToLowest => exact decide_eq_false (Nat.lt_asymm (of_decide_eq_true before))

@[simp]
theorem mem_arrange {α : Type} {order : BlockListOrder} {items : List α} {item : α} :
    item ∈ order.arrange items ↔ item ∈ items := by
  cases order with
  | lowestToHighest => rfl
  | highestToLowest => exact List.mem_reverse

theorem sorted_arrange (keys : ListableKey) (store : BlockStore B T) (order : BlockListOrder) :
    (order.arrange (entries keys store)).Pairwise fun first second =>
      order.precedes first.1 second.1 = true := by
  have sorted := (sorted_entries keys store).imp decide_eq_true
  cases order with
  | lowestToHighest => exact sorted
  | highestToLowest => exact List.pairwise_reverse.mpr sorted

/-- The wanted part of the listing. -/
theorem lists_filter (keys : ListableKey) (store : BlockStore B T) (order : BlockListOrder)
    (wanted : Nat → Bool) :
    Lists keys store order wanted
      ((order.arrange (entries keys store)).filter fun entry => wanted entry.1) where
  ordered := (sorted_arrange keys store order).filter _
  mem_iff height block := by rw [List.mem_filter, mem_arrange, mem_entries]

theorem lists_arrange (keys : ListableKey) (store : BlockStore B T) (order : BlockListOrder) :
    Lists keys store order (fun _ => true) (order.arrange (entries keys store)) where
  ordered := sorted_arrange keys store order
  mem_iff height block := by rw [mem_arrange, mem_entries, and_iff_left rfl]

/-- The cursor points behind as many blocks of the listing. -/
def Points (keys : ListableKey) (store : BlockStore B T) (order : BlockListOrder) :
    Option Nat → Nat → Prop
  | none, count => count = 0
  | some height, count => height < 2 ^ 64 ∧
      ((order.arrange (entries keys store)).filter fun entry => order.precedes height entry.1) =
        (order.arrange (entries keys store)).drop count

theorem nextPage_eq {cursor : Option Nat} {count : Nat} (fits : Fits keys store)
    (points : Points keys store order cursor count) :
    nextPage keys store order limit cursor =
      .ok (((order.arrange (entries keys store)).drop count).take limit,
        (((order.arrange (entries keys store)).drop count).take limit).getLast?.map Prod.fst) := by
  have page : listPaginated keys store (cursor.map fun height => .after (.after height)) order
      limit = .ok ((((order.arrange (entries keys store)).drop count).take limit).map .ok) := by
    cases cursor with
    | none =>
        obtain rfl : count = 0 := points
        exact listPaginated_none fits
    | some height =>
        have cursorFits : (CursorChoiceAfter.after height).inner < 2 ^ 64 := points.1
        change listPaginated keys store (some (.after (.after height))) order limit = _
        rw [listPaginated_after fits cursorFits, ← points.2]
        rfl
  rw [nextPage, page]
  change (do
    let items ← (List.map Except.ok _).mapM id
    pure (items, items.getLast?.map Prod.fst)) = _
  rw [mapM_id_map_ok]
  rfl

/-- The last item of a page points behind the page. -/
theorem Points.next {count : Nat} {last : Nat × B} (fits : Fits keys store)
    (lastEq : (((order.arrange (entries keys store)).drop count).take limit).getLast? =
      some last) :
    Points keys store order (some last.1) (count + limit) := by
  have mem := List.mem_of_mem_drop (List.mem_of_mem_take (List.mem_of_getLast? lastEq))
  constructor
  · exact fits last (mem_arrange.mp mem)
  · exact filter_precedes_eq_drop (sorted_arrange keys store order)
      (fun first second => precedes_asymm order first.1 second.1) (getLast?_take_add lastEq)

/-- Following the pages gives the listing. -/
theorem exists_follows (fits : Fits keys store) (positive : 0 < limit) :
    ∃ pages, Follows (nextPage keys store order limit) none pages ∧
      pages.flatten = order.arrange (entries keys store) ∧
      ∀ page ∈ pages, page.length ≤ limit := by
  have starts : Points keys store order none 0 := rfl
  apply Follows.exists_of_places positive _ starts
  intro cursor count points
  refine ⟨_, nextPage_eq fits points, fun remaining => ?_⟩
  have notEmpty : ((order.arrange (entries keys store)).drop count).take limit ≠ [] := by
    rw [Ne, List.take_eq_nil_iff, not_or]
    exact ⟨positive.ne', remaining⟩
  have lastEq := List.getLast?_eq_some_getLast notEmpty
  exact ⟨_, congrArg (Option.map Prod.fst) lastEq, Points.next fits lastEq⟩

/-- A range lists its blocks, the pages together list all blocks, and a page in front of a
cursor has the blocks next to it. -/
theorem listing_law (fits : Fits keys store) (order : BlockListOrder) :
    (∀ start finish, BoundFits start → BoundFits finish →
      ∃ blocks, listRange keys store start finish order = blocks.map .ok ∧
        Lists keys store order (fun height => startsBefore start height && endsAfter finish height)
          blocks) ∧
    ∀ limit, 0 < limit →
      (∃ pages, Follows (nextPage keys store order limit) none pages ∧
        Lists keys store order (fun _ => true) pages.flatten ∧
        ∀ page ∈ pages, page.length ≤ limit) ∧
      ∀ before : CursorChoiceBefore Nat, before.inner < 2 ^ 64 →
        ∃ preceding, Lists keys store order (endsBefore order before) preceding ∧
          listPaginated keys store (some (.before before)) order limit =
            .ok ((preceding.rtake limit).map .ok) := by
  constructor
  · intro start finish startFits finishFits
    refine ⟨_, listRange_eq fits startFits finishFits, ?_⟩
    rw [arrange_filter]
    exact lists_filter keys store order _
  · intro limit positive
    constructor
    · rcases exists_follows fits positive with ⟨pages, follows, flattenEq, short⟩
      refine ⟨pages, follows, ?_, short⟩
      rw [flattenEq]
      exact lists_arrange keys store order
    · intro before cursorFits
      exact ⟨_, lists_filter keys store order _, listPaginated_before fits cursorFits⟩

end

/-- A store with blocks at both ends of the range of heights. -/
def endBlocks : BlockStore Nat Nat :=
  { blocks := ((∅ : Std.TreeMap Nat Nat).insert (2 ^ 64 - 1) 3).insert 0 1 |>.insert 5 2 }

theorem fits_endBlocks : Fits .block endBlocks := by
  have entriesEq : entries .block endBlocks = [(0, 1), (5, 2), (2 ^ 64 - 1, 3)] := rfl
  rw [Fits, entriesEq]
  simp

theorem endBlocks_listing :
    ∃ preceding, Lists .block endBlocks .highestToLowest
        (endsBefore .highestToLowest (.before 5)) preceding ∧
      listPaginated .block endBlocks (some (.before (.before 5))) .highestToLowest 1 =
        .ok ((preceding.rtake 1).map .ok) :=
  ((listing_law fits_endBlocks .highestToLowest).2 1 Nat.one_pos).2 (.before 5) (by decide)

end Ciphera.BlockStore
