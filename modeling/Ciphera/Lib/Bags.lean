import Mathlib.Data.List.Perm.Subperm
import Mathlib.Data.Multiset.Filter
import Mathlib.Algebra.Order.BigOperators.Group.List
import Mathlib.Algebra.Order.Group.Multiset
import Mathlib.Algebra.Order.Group.Nat
import Mathlib.Algebra.GroupWithZero.Nat
import Mathlib.Algebra.BigOperators.Group.Multiset.Basic

/-!
# Bags under keys

A map from keys to lists of items, as an association list in some order.  What such a
map holds altogether is a multiset: replacing one bag takes its items out and puts the
new ones in, and the order of the keys does not matter.
-/

namespace Ciphera.Lib

universe u v

/-- A list without the first item that meets a condition. -/
theorem coe_eraseP_of_find {α : Type v} {p : α → Bool} {items : List α} {item : α}
    (found : items.find? p = some item) :
    (↑(items.eraseP p) : Multiset α) + {item} = ↑items := by
  induction items with
  | nil => cases found
  | cons first items ih =>
      rw [List.find?_cons] at found
      rw [List.eraseP_cons]
      cases meets : p first with
      | true =>
          rw [meets] at found
          obtain rfl := Option.some.inj found
          rw [cond_true, add_comm, Multiset.singleton_add]
          rfl
      | false =>
          rw [meets] at found
          rw [cond_false, ← Multiset.cons_coe, ← Multiset.cons_coe, Multiset.cons_add, ih found]

/-- Among items with different keys, an item is the one that is found by its key, and
leaving it out takes it away. -/
theorem find?_eq_of_nodup {α : Type v} {β : Type u} [DecidableEq α] [DecidableEq β] {key : α → β}
    {items : List α} {item : α} (nodup : (items.map key).Nodup) (member : item ∈ items) :
    items.find? (fun other => decide (key other = key item)) = some item ∧
      items.eraseP (fun other => decide (key other = key item)) =
        items.filter fun other => decide (other ≠ item) := by
  induction items with
  | nil => cases member
  | cons first items ih =>
      rw [List.map_cons, List.nodup_cons] at nodup
      by_cases same : first = item
      · subst same
        have others : ∀ other ∈ items, decide (other ≠ first) = true := by
          intro other mem
          apply decide_eq_true
          rintro rfl
          exact nodup.1 (List.mem_map_of_mem mem)
        rw [List.find?_cons, List.eraseP_cons, List.filter_cons, decide_eq_true rfl, cond_true,
          List.filter_eq_self.mpr others, if_neg (by simp)]
        exact ⟨rfl, rfl⟩
      · have later : item ∈ items := (List.mem_cons.mp member).resolve_left (Ne.symm same)
        have otherKey : decide (key first = key item) = false := by
          apply decide_eq_false
          intro sameKey
          exact nodup.1 (sameKey ▸ List.mem_map_of_mem later)
        rw [List.find?_cons, List.eraseP_cons, List.filter_cons, otherKey, cond_false,
          (ih nodup.2 later).1, (ih nodup.2 later).2, if_pos (decide_eq_true same)]
        exact ⟨rfl, rfl⟩

/-- Different items of a list weigh at most what the list weighs. -/
theorem sum_map_le_of_subset {α : Type v} {items all : List α} (distinct : items.Nodup)
    (subset : items ⊆ all) (weight : α → Nat) : (items.map weight).sum ≤ (all.map weight).sum := by
  rcases distinct.subperm subset with ⟨part, perm, sublist⟩
  rw [← (perm.map weight).sum_eq]
  exact (sublist.map weight).sum_le_sum fun _ _ => Nat.zero_le _

/-- Lists of items under keys. -/
abbrev Bags (κ : Type u) (α : Type v) := List (κ × List α)

namespace Bags

variable {κ : Type u} {α : Type v}

/-- Everything in the bags. -/
def all (bags : Bags κ α) : Multiset α := ↑(bags.flatMap Prod.snd)

@[simp]
theorem all_nil : all ([] : Bags κ α) = 0 := rfl

@[simp]
theorem all_cons (entry : κ × List α) (bags : Bags κ α) :
    all (entry :: bags) = ↑entry.2 + all bags := by
  rw [all, List.flatMap_cons, ← Multiset.coe_add]
  rfl

/-- The order of the keys does not matter. -/
theorem all_of_perm {bags other : Bags κ α} (perm : bags.Perm other) : all bags = all other :=
  Multiset.coe_eq_coe.mpr (perm.flatMap_right _)

theorem mem_all {bags : Bags κ α} {item : α} :
    item ∈ all bags ↔ ∃ entry ∈ bags, item ∈ entry.2 :=
  List.mem_flatMap

/-- The items that meet a condition, and those that stay behind. -/
@[simp]
theorem all_filter (p : α → Prop) [DecidablePred p] (bags : Bags κ α) :
    all (bags.map fun entry => (entry.1, entry.2.filter p)) = (all bags).filter p := by
  induction bags with
  | nil => rfl
  | cons entry bags ih =>
      rw [List.map_cons, all_cons, all_cons, ih, Multiset.filter_add, Multiset.filter_coe]

theorem coe_flatMap_filter (p : α → Prop) [DecidablePred p] (bags : Bags κ α) :
    (↑(bags.flatMap fun entry => entry.2.filter p) : Multiset α) = (all bags).filter p := by
  rw [← all_filter, all, List.flatMap_map]

variable [DecidableEq κ]

/-- The items under a key. -/
def get (bags : Bags κ α) (key : κ) : List α := (bags.lookup key).getD []

/-- Replace the items under a key. -/
def put (key : κ) (items : List α) : Bags κ α → Bags κ α
  | [] => [(key, items)]
  | entry :: bags => if key = entry.1 then (entry.1, items) :: bags else entry :: put key items bags

/-- A bag is exchanged for another. -/
theorem all_put (key : κ) (items : List α) (bags : Bags κ α) :
    all (put key items bags) + ↑(get bags key) = all bags + ↑items := by
  induction bags with
  | nil => simp [put, get, all_cons, all_nil]
  | cons entry bags ih =>
      by_cases same : key = entry.1
      · have found : get (entry :: bags) key = entry.2 := by
          rw [get, List.lookup_cons, beq_iff_eq.mpr same]
          rfl
        rw [put, if_pos same, found, all_cons, all_cons]
        dsimp only
        ac_rfl
      · have later : get (entry :: bags) key = get bags key := by
          rw [get, List.lookup_cons, beq_eq_false_iff_ne.mpr same, get]
        rw [put, if_neg same, later, all_cons, all_cons, add_assoc, ih, add_assoc]

/-- What is under a key is in the bags. -/
theorem get_le_all (bags : Bags κ α) (key : κ) : ↑(get bags key) ≤ all bags := by
  have exchanged := all_put key [] bags
  rw [Multiset.coe_nil, add_zero] at exchanged
  exact exchanged ▸ Multiset.le_add_left _ _

@[simp]
theorem get_put (key : κ) (items : List α) (bags : Bags κ α) :
    get (put key items bags) key = items := by
  induction bags with
  | nil => rw [put, get, List.lookup_cons_self, Option.getD_some]
  | cons entry bags ih =>
      by_cases same : key = entry.1
      · rw [put, if_pos same, get, same, List.lookup_cons_self, Option.getD_some]
      · rw [put, if_neg same, get, List.lookup_cons, beq_eq_false_iff_ne.mpr same]
        exact ih

@[simp]
theorem get_put_of_ne {key other : κ} (items : List α) (bags : Bags κ α) (differ : other ≠ key) :
    get (put key items bags) other = get bags other := by
  induction bags with
  | nil =>
      rw [put, get, List.lookup_cons, beq_eq_false_iff_ne.mpr differ]
      rfl
  | cons entry bags ih =>
      by_cases same : key = entry.1
      · have notFirst : (other == entry.1) = false := beq_eq_false_iff_ne.mpr (same ▸ differ)
        rw [put, if_pos same, get, get, List.lookup_cons, List.lookup_cons, notFirst]
      · rw [put, if_neg same, get, get, List.lookup_cons, List.lookup_cons]
        cases other == entry.1 with
        | true => rfl
        | false => exact ih

/-- Without items under a key there is nothing to get. -/
theorem get_eq_nil {bags : Bags κ α} {key : κ}
    (empty : ∀ entry ∈ bags, entry.1 = key → entry.2 = []) : get bags key = [] := by
  cases found : bags.lookup key with
  | none => rw [get, found, Option.getD_none]
  | some items =>
      rw [get, found, Option.getD_some]
      have member : (key, items) ∈ bags := by
        rcases List.lookup_eq_some_iff.mp found with ⟨first, second, rfl, _⟩
        exact List.mem_append_right _ List.mem_cons_self
      exact empty _ member rfl

/-- With one bag for each key, each bag is found under its key. -/
theorem get_of_mem {bags : Bags κ α} {entry : κ × List α} (nodup : (bags.map Prod.fst).Nodup)
    (member : entry ∈ bags) : get bags entry.1 = entry.2 := by
  induction bags with
  | nil => cases member
  | cons first bags ih =>
      rw [List.map_cons, List.nodup_cons] at nodup
      rcases List.mem_cons.mp member with rfl | later
      · rw [get, List.lookup_cons_self, Option.getD_some]
      · have other : entry.1 ≠ first.1 := by
          intro same
          exact nodup.1 (same ▸ List.mem_map_of_mem later)
        rw [get, List.lookup_cons, beq_eq_false_iff_ne.mpr other]
        exact ih nodup.2 later

@[simp]
theorem mem_keys_put {key other : κ} {items : List α} {bags : Bags κ α} :
    other ∈ (put key items bags).map Prod.fst ↔ other = key ∨ other ∈ bags.map Prod.fst := by
  induction bags with
  | nil => simp [put]
  | cons entry bags ih =>
      by_cases same : key = entry.1
      · simp [put, same]
      · rw [put, if_neg same, List.map_cons, List.map_cons, List.mem_cons, List.mem_cons, ih]
        exact or_left_comm

theorem nodup_put {key : κ} {items : List α} {bags : Bags κ α}
    (nodup : (bags.map Prod.fst).Nodup) : ((put key items bags).map Prod.fst).Nodup := by
  induction bags with
  | nil => simp [put]
  | cons entry bags ih =>
      by_cases same : key = entry.1
      · rw [put, if_pos same]
        exact nodup
      · rw [List.map_cons, List.nodup_cons] at nodup
        rw [put, if_neg same, List.map_cons, List.nodup_cons, mem_keys_put]
        exact ⟨fun listed => listed.elim (fun equal => same equal.symm) nodup.1, ih nodup.2⟩

end Bags

end Ciphera.Lib
