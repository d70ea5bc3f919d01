import Ciphera.Lib.Map

/-!
# Derived indexes

Items are kept by their place.  Each item gives rise to entries of an index, which are
put there when the item is; nothing is taken out again.

The index reflects the items when it has a key exactly if some item has it, and the
value at the key is one that this item gives.  Putting an item keeps the index in step
as long as it replaces no other item.
-/

namespace Ciphera.Lib

open Std

universe u v w x

variable {ι : Type u} {α : Type v} {κ : Type w} {ν : Type x} {placeCmp : ι → ι → Ordering}
  {cmp : κ → κ → Ordering}

/-- Put the entries of an item into the index. -/
def putEntries (index : TreeMap κ ν cmp) (entries : List (κ × ν)) : TreeMap κ ν cmp :=
  entries.foldl (fun index entry => index.insert entry.1 entry.2) index

/-- The index has the entries of the items and no others. -/
structure Reflects (entries : α → List (κ × ν)) (items : TreeMap ι α placeCmp)
    (index : TreeMap κ ν cmp) : Prop where
  mem_iff : ∀ key, key ∈ index ↔
    ∃ (place : ι) (item : α), items[place]? = some item ∧ key ∈ (entries item).map Prod.fst
  describes : ∀ (key : κ) (value : ν), index[key]? = some value →
    ∃ (place : ι) (item : α), items[place]? = some item ∧ (key, value) ∈ entries item

section

variable [TransCmp cmp] [LawfulEqCmp cmp]

@[simp]
theorem mem_putEntries {index : TreeMap κ ν cmp} {entries : List (κ × ν)} {key : κ} :
    key ∈ putEntries index entries ↔ key ∈ entries.map Prod.fst ∨ key ∈ index :=
  mem_foldl_insert Prod.fst Prod.snd entries index key

omit [LawfulEqCmp cmp] in
theorem putEntries_congr {first second : TreeMap κ ν cmp} (entries : List (κ × ν))
    (same : ∀ key : κ, first[key]? = second[key]?) (key : κ) :
    (putEntries first entries)[key]? = (putEntries second entries)[key]? := by
  induction entries generalizing first second with
  | nil => exact same key
  | cons entry entries ih =>
      apply ih
      intro other
      rw [TreeMap.getElem?_insert, TreeMap.getElem?_insert, same]

variable [DecidableEq κ]

/-- A value in the index has just been put there or was there before. -/
theorem of_getElem?_putEntries {index : TreeMap κ ν cmp} {entries : List (κ × ν)} {key : κ}
    {value : ν} (found : (putEntries index entries)[key]? = some value) :
    (key, value) ∈ entries ∨ (key ∉ entries.map Prod.fst ∧ index[key]? = some value) := by
  induction entries generalizing index with
  | nil => exact .inr ⟨List.not_mem_nil, found⟩
  | cons entry entries ih =>
      rcases ih found with later | ⟨notLater, before⟩
      · exact .inl (List.mem_cons_of_mem _ later)
      · rw [getElem?_insert_eq] at before
        split_ifs at before with same
        · rw [← same, ← Option.some.inj before]
          exact .inl List.mem_cons_self
        · have absent : key ∉ (entry :: entries).map Prod.fst := by
            rw [List.map_cons, List.mem_cons, not_or]
            exact ⟨Ne.symm same, notLater⟩
          exact .inr ⟨absent, before⟩

end

namespace Reflects

variable [TransCmp placeCmp] [LawfulEqCmp placeCmp] [TransCmp cmp] [LawfulEqCmp cmp]
  [DecidableEq ι] [DecidableEq κ] {entries : α → List (κ × ν)} {items : TreeMap ι α placeCmp}
  {index : TreeMap κ ν cmp}

omit [LawfulEqCmp placeCmp] [LawfulEqCmp cmp] [DecidableEq ι] [DecidableEq κ] in
/-- An empty index reflects that there are no items. -/
theorem empty : Reflects entries (∅ : TreeMap ι α placeCmp) (∅ : TreeMap κ ν cmp) where
  mem_iff key := by simp
  describes key value found := by simp at found

/-- An item may be put where there is none, or once more. -/
theorem put (reflects : Reflects entries items index) {place : ι} {item : α}
    (kept : ∀ other, items[place]? = some other → other = item) :
    Reflects entries (items.insert place item) (putEntries index (entries item)) := by
  have stays : ∀ {other : ι} {value : α}, items[other]? = some value →
      (items.insert place item)[other]? = some value := by
    intro other value found
    rw [getElem?_insert_eq]
    split_ifs with same
    · subst same
      rw [kept value found]
    · exact found
  have itself : (items.insert place item)[place]? = some item := by
    rw [getElem?_insert_eq, if_pos rfl]
  constructor
  · intro key
    rw [mem_putEntries, reflects.mem_iff]
    constructor
    · rintro (new | ⟨other, value, found, given⟩)
      · exact ⟨place, item, itself, new⟩
      · exact ⟨other, value, stays found, given⟩
    · rintro ⟨other, value, found, given⟩
      rw [getElem?_insert_eq] at found
      split_ifs at found
      · rw [Option.some.inj found]
        exact .inl given
      · exact .inr ⟨other, value, found, given⟩
  · intro key value found
    rcases of_getElem?_putEntries found with new | ⟨_, before⟩
    · exact ⟨place, item, itself, new⟩
    · rcases reflects.describes key value before with ⟨other, holder, holds, given⟩
      exact ⟨other, holder, stays holds, given⟩

end Reflects

end Ciphera.Lib
