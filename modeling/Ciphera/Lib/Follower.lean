import Mathlib.Data.List.Pairwise
import Mathlib.Data.Set.Basic

/-!
# Followers

A follower works through numbered items and writes down how far it has come.  It
may stop after any of its writes, so an invariant of what it has written must
survive all of them.  The items reach it as a feed: in order, above the last item
that it has seen, and with every wanted item up to some height.
-/

namespace Ciphera.Lib

universe u v

/-! ## Writes that may stop anywhere -/

section

variable {σ : Type u} {ι : Type v} {write : σ → ι → σ} {good : σ → Prop}

/-- The property holds before, between and after the writes. -/
inductive Survives (write : σ → ι → σ) (good : σ → Prop) : σ → List ι → Prop
  | done {state : σ} : good state → Survives write good state []
  | write {state : σ} {first : ι} {rest : List ι} :
      good state → Survives write good (write state first) rest →
      Survives write good state (first :: rest)

/-- A stop after any number of writes leaves the property. -/
theorem Survives.take {state : σ} {writes : List ι} (survives : Survives write good state writes)
    (count : Nat) : good ((writes.take count).foldl write state) := by
  induction survives generalizing count with
  | done holds =>
      rw [List.take_nil]
      exact holds
  | write holds _ ih =>
      cases count with
      | zero => exact holds
      | succ count =>
          rw [List.take_succ_cons, List.foldl_cons]
          exact ih count

theorem Survives.all {state : σ} {writes : List ι} (survives : Survives write good state writes) :
    good (writes.foldl write state) := by
  have whole := survives.take writes.length
  rwa [List.take_length] at whole

end

/-! ## Feeds -/

section

variable {α : Type u} {key : α → Nat} {wanted : α → Prop} {items : Set α} {low top : Nat}
  {item first : α} {feed rest : List α}

/-- The feed of a follower that has seen everything up to `low`, of the items up to `top`. -/
structure Feed (key : α → Nat) (wanted : α → Prop) (items : Set α) (low top : Nat)
    (feed : List α) : Prop where
  sorted : feed.Pairwise (key · < key ·)
  above : ∀ item ∈ feed, low < key item
  below : ∀ item ∈ feed, key item ≤ top
  known : ∀ item ∈ feed, item ∈ items
  complete : ∀ item ∈ items, wanted item → low < key item → key item ≤ top → item ∈ feed

namespace Feed

/-- Nothing that is wanted comes before the first item. -/
theorem not_wanted_before (fed : Feed key wanted items low top (first :: rest))
    (mem : item ∈ items) (isAbove : low < key item) (isBefore : key item < key first) :
    ¬wanted item := by
  intro isWanted
  have isBelow := isBefore.le.trans (fed.below first List.mem_cons_self)
  rcases List.mem_cons.mp (fed.complete item mem isWanted isAbove isBelow) with rfl | later
  · exact Nat.lt_irrefl _ isBefore
  · exact Nat.lt_asymm isBefore ((List.pairwise_cons.mp fed.sorted).1 item later)

/-- The first item has been seen. -/
theorem tail (fed : Feed key wanted items low top (first :: rest)) :
    Feed key wanted items (key first) top rest where
  sorted := (List.pairwise_cons.mp fed.sorted).2
  above := (List.pairwise_cons.mp fed.sorted).1
  below item mem := fed.below item (List.mem_cons_of_mem _ mem)
  known item mem := fed.known item (List.mem_cons_of_mem _ mem)
  complete := by
    intro item mem isWanted isAbove isBelow
    have isFed := fed.complete item mem isWanted
      ((fed.above first List.mem_cons_self).trans isAbove) isBelow
    rcases List.mem_cons.mp isFed with rfl | later
    · exact absurd isAbove (Nat.lt_irrefl _)
    · exact later

/-- What has come since is not wanted. -/
theorem raise {higher : Nat} (fed : Feed key wanted items low top feed) (raised : top ≤ higher)
    (nothing : ∀ item ∈ items, top < key item → key item ≤ higher → ¬wanted item) :
    Feed key wanted items low higher feed where
  sorted := fed.sorted
  above := fed.above
  below item mem := (fed.below item mem).trans raised
  known := fed.known
  complete := by
    intro item mem isWanted isAbove isBelow
    by_cases old : key item ≤ top
    · exact fed.complete item mem isWanted isAbove old
    · exact absurd isWanted (nothing item mem (Nat.lt_of_not_le old) isBelow)

/-- The next item has come, and it is the only one of its number. -/
theorem snoc (fed : Feed key wanted items low top feed) (mem : item ∈ items)
    (next : key item = top + 1) (isAbove : low < key item)
    (only : ∀ other ∈ items, key other = key item → other = item) :
    Feed key wanted items low (key item) (feed ++ [item]) where
  sorted := by
    rw [List.pairwise_append]
    refine ⟨fed.sorted, List.pairwise_singleton _ _, ?_⟩
    intro earlier earlierMem last lastMem
    rw [List.mem_singleton.mp lastMem, next]
    exact Nat.lt_succ_of_le (fed.below earlier earlierMem)
  above := List.forall_mem_append.mpr ⟨fed.above, by simpa using isAbove⟩
  below := by
    rw [List.forall_mem_append, List.forall_mem_singleton]
    refine ⟨?_, le_refl _⟩
    intro earlier earlierMem
    rw [next]
    exact Nat.le_succ_of_le (fed.below earlier earlierMem)
  known := List.forall_mem_append.mpr ⟨fed.known, by simpa using mem⟩
  complete := by
    intro other otherMem isWanted otherAbove otherBelow
    rw [List.mem_append, List.mem_singleton]
    by_cases old : key other ≤ top
    · exact .inl (fed.complete other otherMem isWanted otherAbove old)
    · apply Or.inr
      apply only other otherMem
      apply Nat.le_antisymm otherBelow
      rw [next]
      exact Nat.lt_of_not_le old

/-- An item has come that is not above what has been seen. -/
theorem skip {higher : Nat} (fed : Feed key wanted items low top feed) (raised : top ≤ higher)
    (behind : higher ≤ low) : Feed key wanted items low higher feed where
  sorted := fed.sorted
  above := fed.above
  below item mem := (fed.below item mem).trans raised
  known := fed.known
  complete _ _ _ isAbove isBelow :=
    absurd (isAbove.trans_le (isBelow.trans behind)) (Nat.lt_irrefl _)

end Feed

end

end Ciphera.Lib
