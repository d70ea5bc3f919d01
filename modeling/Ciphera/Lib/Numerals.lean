import Mathlib.Data.Nat.Digits.Lemmas

/-!
# Numerals with leading zeros

A numeral is a list of digits, the most significant first.  Its leading zeros say nothing
about the number but belong to the numeral, so a change of base keeps them one by one and
converts the rest.
-/

namespace Ciphera.Lib.Numerals

universe u

section LeadingZeros

variable {α : Type u} [Zero α] [DecidableEq α]

/-- How many zeros a list starts with. -/
def leadingZeros (digits : List α) : Nat :=
  (digits.takeWhile (· = 0)).length

@[simp]
theorem leadingZeros_zero_cons (digits : List α) :
    leadingZeros (0 :: digits) = leadingZeros digits + 1 := by
  simp [leadingZeros]

theorem leadingZeros_eq_zero {digits : List α} (normal : digits.head? ≠ some 0) :
    leadingZeros digits = 0 := by
  cases digits with
  | nil => rfl
  | cons digit digits =>
      have nonzero : digit ≠ 0 := by simpa using normal
      simp [leadingZeros, nonzero]

theorem leadingZeros_le_length (digits : List α) : leadingZeros digits ≤ digits.length :=
  (List.takeWhile_sublist _).length_le

/-- A list splits into its leading zeros and a rest that starts with no zero. -/
theorem exists_replicate_append (digits : List α) :
    ∃ rest, digits = List.replicate (leadingZeros digits) 0 ++ rest ∧ rest.head? ≠ some 0 := by
  induction digits with
  | nil => exact ⟨[], rfl, by simp⟩
  | cons digit digits ih =>
      by_cases zero : digit = 0
      · rcases ih with ⟨rest, split, normal⟩
        refine ⟨rest, ?_, normal⟩
        rw [zero, leadingZeros_zero_cons, List.replicate_succ, List.cons_append, ← split]
      · have normal : (digit :: digits).head? ≠ some 0 := by simpa using zero
        refine ⟨digit :: digits, ?_, normal⟩
        rw [leadingZeros_eq_zero normal]
        rfl

@[simp]
theorem leadingZeros_replicate_append (count : Nat) {rest : List α}
    (normal : rest.head? ≠ some 0) :
    leadingZeros (List.replicate count 0 ++ rest) = count := by
  induction count with
  | zero => exact leadingZeros_eq_zero normal
  | succ count ih =>
      rw [List.replicate_succ, List.cons_append, leadingZeros_zero_cons, ih]

/-- The leading zeros can be dropped and put back. -/
@[simp]
theorem replicate_append_drop (digits : List α) :
    List.replicate (leadingZeros digits) 0 ++ digits.drop (leadingZeros digits) = digits := by
  rcases exists_replicate_append digits with ⟨rest, split, _⟩
  generalize leadingZeros digits = count at split ⊢
  rw [split, List.drop_left' List.length_replicate]

end LeadingZeros

/-- The numeral in another base with as many leading zeros. -/
def rebase (source target : Nat) (digits : List Nat) : List Nat :=
  List.replicate (leadingZeros digits) 0 ++
    (Nat.digits target (Nat.ofDigits source digits.reverse)).reverse

theorem ofDigits_reverse_replicate_append (base count : Nat) (digits : List Nat) :
    Nat.ofDigits base (List.replicate count 0 ++ digits).reverse =
      Nat.ofDigits base digits.reverse := by
  rw [List.reverse_append, List.reverse_replicate, Nat.ofDigits_append_replicate_zero]

theorem head?_reverse_digits (base number : Nat) :
    (Nat.digits base number).reverse.head? ≠ some 0 := by
  rw [List.head?_reverse]
  intro lastZero
  rcases List.mem_getLast?_eq_getLast lastZero with ⟨notNil, lastEq⟩
  have positive : number ≠ 0 := fun zero => notNil (by rw [zero, Nat.digits_zero])
  exact Nat.getLast_digit_ne_zero base positive lastEq.symm

/-- The digits of the new numeral are digits of its base. -/
theorem lt_of_mem_rebase {source target digit : Nat} {digits : List Nat} (large : 1 < target)
    (mem : digit ∈ rebase source target digits) : digit < target := by
  rcases List.mem_append.mp mem with zero | rest
  · rw [List.eq_of_mem_replicate zero]
    exact Nat.zero_lt_of_lt large
  · exact Nat.digits_lt_base large (List.mem_reverse.mp rest)

/-- Back in its own base a numeral is what it was. -/
theorem rebase_rebase {source target : Nat} {digits : List Nat} (large : 1 < source)
    (below : ∀ digit ∈ digits, digit < source) :
    rebase target source (rebase source target digits) = digits := by
  rcases exists_replicate_append digits with ⟨rest, split, normal⟩
  generalize leadingZeros digits = count at split
  subst split
  have restBelow : ∀ digit ∈ rest.reverse, digit < source := fun digit mem =>
    below digit (List.mem_append_right _ (List.mem_reverse.mp mem))
  have lastNonzero : ∀ notNil : rest.reverse ≠ [], rest.reverse.getLast notNil ≠ 0 := by
    intro notNil zero
    rw [List.getLast_reverse] at zero
    exact normal ((List.head?_eq_some_head _).trans (congrArg some zero))
  rw [rebase, rebase, leadingZeros_replicate_append _ (head?_reverse_digits _ _),
    leadingZeros_replicate_append _ normal, ofDigits_reverse_replicate_append,
    ofDigits_reverse_replicate_append, List.reverse_reverse, Nat.ofDigits_digits,
    Nat.digits_ofDigits source large _ restBelow lastNonzero, List.reverse_reverse]

end Ciphera.Lib.Numerals
