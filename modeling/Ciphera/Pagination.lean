import Mathlib.Data.List.Basic

/-!
# Cursors

A cursor names a position in a listing; a page starts after it or ends before it.
-/

namespace Ciphera

/-- One end of a range. -/
inductive Bound (α : Type)
  | included (value : α)
  | excluded (value : α)
  | unbounded
  deriving DecidableEq, Repr

/-- Where a listing starts: behind a position, or at it. -/
inductive CursorChoiceAfter (Pos : Type)
  | after (pos : Pos)
  | afterInclusive (pos : Pos)
  deriving DecidableEq, Repr

/-- Where a listing ends: in front of a position, or at it. -/
inductive CursorChoiceBefore (Pos : Type)
  | before (pos : Pos)
  | beforeInclusive (pos : Pos)
  deriving DecidableEq, Repr

/-- A cursor that a client sends, in one of the two directions. -/
inductive CursorChoice (Pos : Type)
  | after (after : CursorChoiceAfter Pos)
  | before (before : CursorChoiceBefore Pos)
  deriving DecidableEq, Repr

/-- The cursors that come with a page. -/
structure Cursor (Pos : Type) where
  after : Option (CursorChoiceAfter Pos)
  before : Option (CursorChoiceBefore Pos)
  deriving DecidableEq, Repr

variable {Pos NewPos : Type}

namespace CursorChoiceAfter

/-- The position of the cursor. -/
def inner : CursorChoiceAfter Pos → Pos
  | after pos | afterInclusive pos => pos

/-- The same position, now part of the listing. -/
def inclusive : CursorChoiceAfter Pos → CursorChoiceAfter Pos
  | after pos | afterInclusive pos => afterInclusive pos

/-- The lower bound of the listing. -/
def toBound : CursorChoiceAfter Pos → Bound Pos
  | after pos => .excluded pos
  | afterInclusive pos => .included pos

/-- The same choice at the image of the position. -/
def mapPos (f : Pos → NewPos) : CursorChoiceAfter Pos → CursorChoiceAfter NewPos
  | after pos => after (f pos)
  | afterInclusive pos => afterInclusive (f pos)

end CursorChoiceAfter

namespace CursorChoiceBefore

/-- The position of the cursor. -/
def inner : CursorChoiceBefore Pos → Pos
  | before pos | beforeInclusive pos => pos

/-- The same position, now part of the listing. -/
def inclusive : CursorChoiceBefore Pos → CursorChoiceBefore Pos
  | before pos | beforeInclusive pos => beforeInclusive pos

/-- The upper bound of the listing. -/
def toBound : CursorChoiceBefore Pos → Bound Pos
  | before pos => .excluded pos
  | beforeInclusive pos => .included pos

/-- The same choice at the image of the position. -/
def mapPos (f : Pos → NewPos) : CursorChoiceBefore Pos → CursorChoiceBefore NewPos
  | before pos => before (f pos)
  | beforeInclusive pos => beforeInclusive (f pos)

end CursorChoiceBefore

namespace CursorChoice

/-- The position of the cursor, in either direction. -/
def inner : CursorChoice Pos → Pos
  | after choice => choice.inner
  | before choice => choice.inner

/-- The same choice at the image of the position, in either direction. -/
def mapPos (f : Pos → NewPos) : CursorChoice Pos → CursorChoice NewPos
  | after choice => after (choice.mapPos f)
  | before choice => before (choice.mapPos f)

end CursorChoice

/-! ## The paginator -/

section Paginator

variable {Item : Type}

/-- One item passes through the paginator: the first position is kept for the page
before, the last one for the page after. -/
def Cursor.next (itemToPos : Item → Option Pos) (cursor : Cursor Pos) (item : Item) :
    Cursor Pos :=
  match itemToPos item with
  | none => cursor
  | some pos =>
      { before := cursor.before.or (some (.before pos))
        after := some (.after pos) }

/-- `Paginator::collect` -/
def paginate (itemToPos : Item → Option Pos) (items : List Item) : Cursor Pos × List Item :=
  (items.foldl (Cursor.next itemToPos) ⟨none, none⟩, items)

/-- The cursors of a page whose items all have a position. -/
theorem foldl_next {itemToPos : Item → Option Pos} {position : Item → Pos}
    (items : List Item) (known : ∀ item ∈ items, itemToPos item = some (position item))
    (cursor : Cursor Pos) :
    items.foldl (Cursor.next itemToPos) cursor =
      { before := cursor.before.or (items.head?.map fun item => .before (position item))
        after := (items.getLast?.map fun item => .after (position item)).or cursor.after } := by
  induction items generalizing cursor with
  | nil => simp
  | cons first items ih =>
      have head := known first List.mem_cons_self
      rw [List.foldl_cons, ih fun item mem => known item (List.mem_cons_of_mem first mem),
        Cursor.next, head]
      cases before : cursor.before with
      | none => cases items <;> simp [List.getLast?_cons]
      | some pos => cases items <;> simp [List.getLast?_cons]

end Paginator

end Ciphera
