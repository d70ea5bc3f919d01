import Mathlib.Tactic.Ring

/-!
# Strings of fixed-width words

A string is cut into words of equal width.  Cutting and joining are inverse to each other,
and joined words determine the words.
-/

namespace Ciphera.Lib.Words

universe u

variable {α : Type u} {width : Nat}

/-- The word at an index. -/
def word (width : Nat) (items : List α) (index : Nat) : List α :=
  (items.drop (width * index)).take width

/-- The first words of a string. -/
def words (width count : Nat) (items : List α) : List (List α) :=
  (List.range count).map (word width items)

@[simp]
theorem length_word {items : List α} {index : Nat} (inside : width * (index + 1) ≤ items.length) :
    (word width items index).length = width := by
  rw [Nat.mul_succ] at inside
  rw [word, List.length_take, List.length_drop]
  omega

@[simp]
theorem length_words (width count : Nat) (items : List α) :
    (words width count items).length = count := by
  rw [words, List.length_map, List.length_range]

/-- Joining the first words gives the beginning of the string. -/
@[simp]
theorem flatten_words (count : Nat) (items : List α) :
    (words width count items).flatten = items.take (width * count) := by
  induction count with
  | zero => rfl
  | succ count ih =>
      rw [words, List.range_succ, List.map_append, List.flatten_append, ← words, ih, Nat.mul_succ,
        List.take_add]
      simp [word]

theorem length_flatten {strings : List (List α)}
    (lengths : ∀ string ∈ strings, string.length = width) :
    strings.flatten.length = width * strings.length := by
  induction strings with
  | nil => rfl
  | cons string strings ih =>
      rw [List.forall_mem_cons] at lengths
      rw [List.flatten_cons, List.length_append, lengths.1, ih lengths.2, List.length_cons]
      ring

/-- Joined words determine the words. -/
theorem flatten_inj {first second : List (List α)}
    (firstLengths : ∀ string ∈ first, string.length = width)
    (secondLengths : ∀ string ∈ second, string.length = width)
    (sameCount : first.length = second.length) :
    first.flatten = second.flatten ↔ first = second := by
  constructor
  · intro joined
    induction first generalizing second with
    | nil => exact (List.length_eq_zero_iff.mp sameCount.symm).symm
    | cons string first ih =>
        cases second with
        | nil => cases sameCount
        | cons other second =>
            rw [List.forall_mem_cons] at firstLengths secondLengths
            rw [List.flatten_cons, List.flatten_cons] at joined
            have parts := List.append_inj joined (firstLengths.1.trans secondLengths.1.symm)
            have rest := ih firstLengths.2 secondLengths.2 (Nat.succ.inj sameCount) parts.2
            rw [parts.1, rest]
  · exact congrArg List.flatten

/-- A string is the join of words exactly when these are its words. -/
theorem flatten_eq_take_iff {strings : List (List α)} {count : Nat} {items : List α}
    (lengths : ∀ string ∈ strings, string.length = width) (countEq : strings.length = count)
    (enough : width * count ≤ items.length) :
    strings.flatten = items.take (width * count) ↔ strings = words width count items := by
  have wordLengths : ∀ string ∈ words width count items, string.length = width := by
    intro string mem
    rcases List.mem_map.mp mem with ⟨index, inRange, rfl⟩
    apply length_word
    exact (Nat.mul_le_mul_left width (List.mem_range.mp inRange)).trans enough
  rw [← flatten_words, flatten_inj lengths wordLengths (by rw [countEq, length_words])]

/-- Cutting up joined words gives them back. -/
theorem words_flatten {strings : List (List α)} {count : Nat}
    (lengths : ∀ string ∈ strings, string.length = width) (countEq : strings.length = count) :
    words width count strings.flatten = strings := by
  have total : strings.flatten.length = width * count := by
    rw [length_flatten lengths, countEq]
  apply Eq.symm
  apply (flatten_eq_take_iff lengths countEq (le_of_eq total.symm)).mp
  rw [← total, List.take_length]

end Ciphera.Lib.Words
