import Mathlib.Data.List.Pairwise

/-!
# Deliveries

Items with increasing keys are recorded and announced one after the other.  A
subscriber joins what had been recorded before the first announcement that it hears
with the announcements themselves.  The delivery has every announced item from a key
on, once and in order; of the items that were recorded and never announced it may
have some.
-/

namespace Ciphera.Lib

universe u

variable {α : Type u} {key : α → Nat} {announced silent : α → Prop} {low bound : Nat}
  {item : α} {items : List α}

/-- The items with keys from `low` on and below `bound` that a subscriber gets. -/
structure Delivery (key : α → Nat) (announced silent : α → Prop) (low bound : Nat)
    (items : List α) : Prop where
  sorted : items.Pairwise (key · < key ·)
  above : ∀ item ∈ items, low ≤ key item
  below : ∀ item ∈ items, key item < bound
  known : ∀ item ∈ items, announced item ∨ silent item
  complete : ∀ item, announced item → low ≤ key item → item ∈ items

namespace Delivery

/-- More items may have been recorded in silence. -/
theorem mono {others : α → Prop} {higher : Nat}
    (delivery : Delivery key announced silent low bound items)
    (more : ∀ item, silent item → others item) (isHigher : bound ≤ higher) :
    Delivery key announced others low higher items where
  sorted := delivery.sorted
  above := delivery.above
  below item mem := Nat.lt_of_lt_of_le (delivery.below item mem) isHigher
  known item mem := (delivery.known item mem).imp_right (more item)
  complete := delivery.complete

/-- Nothing of a delivery is filtered out. -/
theorem filter_eq (delivery : Delivery key announced silent low bound items) :
    (items.filter fun item => low ≤ key item) = items := by
  rw [List.filter_eq_self]
  intro item mem
  exact decide_eq_true (delivery.above item mem)

/-- The next item is announced. -/
theorem snoc {next : α → Prop} (delivery : Delivery key announced silent low bound items)
    (isAbove : bound ≤ key item) (grows : ∀ other, next other ↔ announced other ∨ other = item) :
    Delivery key next silent low (key item + 1)
      (items ++ [item].filter fun item => low ≤ key item) := by
  have new_iff : ∀ other, (other ∈ [item].filter fun item => low ≤ key item) ↔
      other = item ∧ low ≤ key other := by
    intro other
    rw [List.mem_filter, List.mem_singleton, decide_eq_true_eq]
  constructor
  · rw [List.pairwise_append]
    refine ⟨delivery.sorted, List.Pairwise.filter _ (List.pairwise_singleton _ _), ?_⟩
    intro earlier earlierMem later laterMem
    rcases (new_iff later).mp laterMem with ⟨rfl, _⟩
    exact Nat.lt_of_lt_of_le (delivery.below earlier earlierMem) isAbove
  · intro other mem
    rcases List.mem_append.mp mem with old | new
    · exact delivery.above other old
    · exact ((new_iff other).mp new).2
  · intro other mem
    rcases List.mem_append.mp mem with old | new
    · exact Nat.lt_succ_of_lt (Nat.lt_of_lt_of_le (delivery.below other old) isAbove)
    · rw [((new_iff other).mp new).1]
      exact Nat.lt_succ_self _
  · intro other mem
    rcases List.mem_append.mp mem with old | new
    · apply (delivery.known other old).imp_left
      exact fun wasAnnounced => (grows other).mpr (.inl wasAnnounced)
    · exact .inl ((grows other).mpr (.inr ((new_iff other).mp new).1))
  · intro other isAnnounced isWanted
    rcases (grows other).mp isAnnounced with old | isNew
    · exact List.mem_append_left _ (delivery.complete other old isWanted)
    · exact List.mem_append_right _ ((new_iff other).mpr ⟨isNew, isWanted⟩)

end Delivery

end Ciphera.Lib
