import Ciphera.Lib.Map

/-!
# Items with a second index

Items are kept by a key, and a second map finds the key of an item by its rank.
The two maps agree when every rank leads to an item of that rank and every item
is found by its own.
-/

namespace Ciphera.Lib

open Std

universe u v w

variable {κ : Type u} {ν : Type v} {ι : Type w} {keyCmp : κ → κ → Ordering}
  {rankCmp : ι → ι → Ordering}

/-- Every rank names an item of that rank, and every item is named by its rank. -/
structure Indexed (rank : ν → ι) (items : TreeMap κ ν keyCmp) (index : TreeMap ι κ rankCmp) :
    Prop where
  named : ∀ {place key}, index[place]? = some key →
    ∃ item, items[key]? = some item ∧ rank item = place
  held : ∀ {key item}, items[key]? = some item → index[rank item]? = some key

namespace Indexed

variable [TransCmp keyCmp] [LawfulEqCmp keyCmp] [TransCmp rankCmp] [LawfulEqCmp rankCmp]
  [DecidableEq κ] [DecidableEq ι] {rank : ν → ι} {items : TreeMap κ ν keyCmp}
  {index : TreeMap ι κ rankCmp} {key : κ} {item : ν}

omit [TransCmp keyCmp] [LawfulEqCmp keyCmp] [TransCmp rankCmp] [LawfulEqCmp rankCmp]
  [DecidableEq κ] [DecidableEq ι] in
/-- Two items of one rank are one item. -/
theorem key_unique (indexed : Indexed rank items index) {other : κ} {value : ν}
    (found : items[key]? = some item) (alsoFound : items[other]? = some value)
    (sameRank : rank value = rank item) : other = key := by
  have named := indexed.held alsoFound
  rw [sameRank, indexed.held found] at named
  exact (Option.some.inj named).symm

/-- Erasing an item together with its rank keeps the two maps in step. -/
theorem erase (indexed : Indexed rank items index) (found : items[key]? = some item) :
    Indexed rank (items.erase key) (index.erase (rank item)) := by
  constructor
  · intro place other named
    simp only [getElem?_erase_eq] at named ⊢
    split_ifs at named with samePlace
    rcases indexed.named named with ⟨value, holds, ranked⟩
    have differ : key ≠ other := by
      rintro rfl
      rw [found] at holds
      exact samePlace ((congrArg rank (Option.some.inj holds)).trans ranked)
    exact ⟨value, by rw [if_neg differ, holds], ranked⟩
  · intro other value holds
    simp only [getElem?_erase_eq] at holds ⊢
    split_ifs at holds with sameKey
    rw [if_neg fun sameRank => sameKey (indexed.key_unique found holds sameRank.symm).symm]
    exact indexed.held holds

/-- Inserting an item keeps the two maps in step exactly when the items that
share its rank are those that share its key. -/
theorem insert_iff (indexed : Indexed rank items index) :
    Indexed rank (items.insert key item) (index.insert (rank item) key) ↔
      ∀ other value, items[other]? = some value → (rank value = rank item ↔ other = key) := by
  constructor
  · intro after other value found
    constructor
    · intro sameRank
      by_contra differ
      have kept : (items.insert key item)[other]? = some value := by
        rw [getElem?_insert_eq, if_neg (Ne.symm differ), found]
      have named := after.held kept
      rw [getElem?_insert_eq, if_pos sameRank.symm] at named
      exact differ (Option.some.inj named).symm
    · rintro rfl
      by_contra differ
      have kept : (index.insert (rank item) other)[rank value]? = some other := by
        rw [getElem?_insert_eq, if_neg (Ne.symm differ), indexed.held found]
      rcases after.named kept with ⟨found', holds, ranked⟩
      rw [getElem?_insert_eq, if_pos rfl] at holds
      exact differ (by rw [← ranked, Option.some.inj holds])
  · intro apart
    constructor
    · intro place other named
      simp only [getElem?_insert_eq] at named ⊢
      split_ifs at named with samePlace
      · obtain rfl := Option.some.inj named
        exact ⟨item, if_pos rfl, samePlace⟩
      · rcases indexed.named named with ⟨value, holds, ranked⟩
        have differ : key ≠ other := by
          rintro rfl
          exact samePlace (((apart key value holds).mpr rfl).symm.trans ranked)
        exact ⟨value, by rw [if_neg differ, holds], ranked⟩
    · intro other value holds
      simp only [getElem?_insert_eq] at holds ⊢
      split_ifs at holds with sameKey
      · obtain rfl := Option.some.inj holds
        rw [if_pos rfl, sameKey]
      · rw [if_neg fun sameRank => sameKey ((apart other value holds).mp sameRank.symm).symm]
        exact indexed.held holds

omit [TransCmp rankCmp] [LawfulEqCmp rankCmp] [DecidableEq κ] [DecidableEq ι] in
/-- When all items share one rank there is at most one item. -/
theorem size_le_one (indexed : Indexed rank items index) {place : ι}
    (oneRank : ∀ {key : κ} {item : ν}, items[key]? = some item → rank item = place) : items.size ≤ 1 := by
  have found : ∀ key ∈ items, index[place]? = some key := by
    intro key isKey
    have present : items[key]?.isSome := TreeMap.isSome_getElem?_iff_mem.mpr isKey
    rcases Option.isSome_iff_exists.mp present with ⟨item, holds⟩
    rw [← oneRank holds]
    exact indexed.held holds
  apply size_le_one_of_alike
  intro first isFirst second isSecond
  exact Option.some.inj ((found first isFirst).symm.trans (found second isSecond))

end Indexed

end Ciphera.Lib
