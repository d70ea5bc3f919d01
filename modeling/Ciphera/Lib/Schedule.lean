import Mathlib.Order.Lattice

/-!
# Schedules

A schedule is a list of entries, each with a time from which it holds, in
increasing order of these times.  The entry in force at some time is the last
one that has started.  A cursor that never moves back finds it, as long as the
times it is asked for do not decrease.
-/

namespace Ciphera.Lib

universe u v

variable {α : Type u} {β : Type v} [LinearOrder β] (start : α → β)

/-- The last entry that has started. -/
def inForce (entries : List α) (now : β) : Option α :=
  (entries.filter fun entry => start entry ≤ now).getLast?

/-- Move a cursor over the entries behind it, up to the first that has not
started. -/
def advance (now : β) : List α → Nat → Nat
  | [], cursor => cursor
  | entry :: rest, cursor =>
      if now < start entry then cursor else advance now rest (cursor + 1)

variable {start}

theorem mem_of_inForce {entries : List α} {now : β} {entry : α}
    (found : inForce start entries now = some entry) : entry ∈ entries ∧ start entry ≤ now := by
  have mem := List.mem_filter.mp (List.mem_of_getLast? found)
  exact ⟨mem.1, of_decide_eq_true mem.2⟩

/-- A started entry is in force if nothing behind it has started. -/
theorem inForce_append_cons {before rest : List α} {entry : α} {now : β}
    (started : start entry ≤ now) (later : ∀ other ∈ rest, now < start other) :
    inForce start (before ++ entry :: rest) now = some entry := by
  have restEmpty : (rest.filter fun other => start other ≤ now) = [] := by
    rw [List.filter_eq_nil_iff]
    intro other mem
    simpa using later other mem
  rw [inForce, List.filter_append, List.filter_cons_of_pos (by simpa using started), restEmpty,
    List.getLast?_append]
  rfl

/-- From a started entry the cursor reaches the entry in force. -/
theorem getElem?_advance_append {before rest : List α} {entry : α} {now : β}
    (ordered : (entry :: rest).Pairwise fun first second => start first < start second)
    (started : start entry ≤ now) :
    (before ++ entry :: rest)[advance start now rest before.length]? =
      inForce start (before ++ entry :: rest) now := by
  induction rest generalizing before entry with
  | nil =>
      rw [advance, inForce_append_cons started (by simp)]
      simp
  | cons next rest ih =>
      rw [advance]
      split_ifs with notStarted
      · have later : ∀ other ∈ next :: rest, now < start other := by
          intro other mem
          rcases List.mem_cons.mp mem with rfl | behind
          · exact notStarted
          · exact lt_trans notStarted ((List.pairwise_cons.mp ordered.of_cons).1 other behind)
        rw [inForce_append_cons started later]
        simp
      · have reached :
            (before ++ [entry] ++ next :: rest)[advance start now rest (before ++ [entry]).length]? =
              inForce start (before ++ [entry] ++ next :: rest) now :=
          ih ordered.of_cons (not_lt.mp notStarted)
        simpa using reached

/-- The cursor never moves back. -/
theorem le_advance (start : α → β) (now : β) (rest : List α) (cursor : Nat) :
    cursor ≤ advance start now rest cursor := by
  induction rest generalizing cursor with
  | nil => exact Nat.le_refl cursor
  | cons entry rest ih =>
      rw [advance]
      split_ifs
      · exact Nat.le_refl cursor
      · exact (Nat.le_succ cursor).trans (ih (cursor + 1))

theorem getElem?_advance {entries : List α} {cursor : Nat} {entry : α} {now : β}
    (ordered : entries.Pairwise fun first second => start first < start second)
    (current : entries[cursor]? = some entry) (started : start entry ≤ now) :
    entries[advance start now (entries.drop (cursor + 1)) cursor]? =
      inForce start entries now := by
  obtain ⟨cursorLt, entryEq⟩ := List.getElem?_eq_some_iff.mp current
  have split : entries = entries.take cursor ++ entry :: entries.drop (cursor + 1) := by
    rw [← entryEq, List.getElem_cons_drop, List.take_append_drop]
  have tailOrdered : (entry :: entries.drop (cursor + 1)).Pairwise fun first second =>
      start first < start second := by
    rw [split] at ordered
    exact (List.pairwise_append.mp ordered).2.1
  have takeLength : (entries.take cursor).length = cursor := by
    rw [List.length_take, Nat.min_eq_left (Nat.le_of_lt cursorLt)]
  calc
    entries[advance start now (entries.drop (cursor + 1)) cursor]? =
        (entries.take cursor ++ entry :: entries.drop (cursor + 1))[
          advance start now (entries.drop (cursor + 1)) (entries.take cursor).length]? := by
      rw [takeLength, ← split]
    _ = inForce start (entries.take cursor ++ entry :: entries.drop (cursor + 1)) now :=
      getElem?_advance_append tailOrdered started
    _ = inForce start entries now := by rw [← split]

end Ciphera.Lib
