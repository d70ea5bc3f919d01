import Mathlib.Data.Nat.ModEq
import Ciphera.Lib.Check

/-!
# Arithmetic of machine integers

A result that does not fit into the width of its type panics in a build with overflow
checks, and wraps around in one without them.
-/

namespace Ciphera.Lib

/-- How a program was built. -/
structure Build where
  overflowChecks : Bool
  debugAssertions : Bool
  deriving DecidableEq, Repr

/-- A computation that panics at no step returns. -/
theorem exists_bind {ε α β : Type} {first : Except ε α} {rest : α → Except ε β}
    (returns : ∃ value, first = .ok value)
    (continues : ∀ value, first = .ok value → ∃ result, rest value = .ok result) :
    ∃ result, (first >>= rest) = .ok result := by
  rcases returns with ⟨value, returned⟩
  rcases continues value returned with ⟨result, finished⟩
  exact ⟨result, bind_eq_ok_iff.mpr ⟨value, returned, finished⟩⟩

namespace Build

/-- Programs are released without checks. -/
def release : Build := ⟨false, false⟩

variable (build : Build) (width first second : Nat)

/-- A number that is to fit into a width: it wraps, or panics where overflow is checked. -/
def narrow (number : Nat) (message : String) : Except String Nat :=
  if number < 2 ^ width then .ok number
  else if build.overflowChecks then .error message
  else .ok (number % 2 ^ width)

/-- The sum of two machine integers. -/
def add : Except String Nat :=
  build.narrow width (first + second) "attempt to add with overflow"

/-- The product of two machine integers. -/
def mul : Except String Nat :=
  build.narrow width (first * second) "attempt to multiply with overflow"

/-- The difference of two machine integers. -/
def sub : Except String Nat :=
  if second ≤ first then .ok (first - second)
  else if build.overflowChecks then .error "attempt to subtract with overflow"
  else .ok ((first + 2 ^ width - second % 2 ^ width) % 2 ^ width)

/-- A number fits, or the build lets nothing pass that does not. -/
def Exact (number : Nat) : Prop := build.overflowChecks = true ∨ number < 2 ^ width

/-- What a computation with a true result comes to, if it returns. -/
def Counts (number result : Nat) : Prop :=
  (build.overflowChecks = true → number < 2 ^ width) ∧ result = number % 2 ^ width

variable {build width first second} {number smaller result : Nat} {message : String}

@[simp]
theorem narrow_eq_ok_iff :
    build.narrow width number message = .ok result ↔ build.Counts width number result := by
  by_cases fits : number < 2 ^ width
  · rw [narrow, if_pos fits, Except.ok.injEq, Counts, Nat.mod_eq_of_lt fits, eq_comm]
    exact (and_iff_right fun _ => fits).symm
  · cases checks : build.overflowChecks with
    | false =>
        rw [narrow, if_neg fits, if_neg (by simp [checks]), Except.ok.injEq, Counts, checks,
          eq_comm]
        exact (and_iff_right (by simp)).symm
    | true =>
        rw [narrow, if_neg fits, if_pos checks, Counts]
        exact iff_of_false (by simp) fun counts => fits (counts.1 checks)

theorem exists_narrow (returns : build.overflowChecks = false ∨ number < 2 ^ width) :
    ∃ result, build.narrow width number message = .ok result := by
  rcases returns with unchecked | fits
  · exact ⟨_, narrow_eq_ok_iff.mpr ⟨by simp [unchecked], rfl⟩⟩
  · exact ⟨_, narrow_eq_ok_iff.mpr ⟨fun _ => fits, rfl⟩⟩

theorem Exact.mono (exact : build.Exact width number) (le : smaller ≤ number) :
    build.Exact width smaller :=
  exact.imp_right (Nat.lt_of_le_of_lt le)

/-- Where nothing is cut off, a computation comes to its true result. -/
theorem Counts.eq_of_exact (counts : build.Counts width number result)
    (exact : build.Exact width number) : result = number := by
  have fits : number < 2 ^ width := exact.elim counts.1 id
  rw [counts.2, Nat.mod_eq_of_lt fits]

theorem Counts.zero : build.Counts width 0 0 :=
  ⟨fun _ => Nat.two_pow_pos width, (Nat.zero_mod _).symm⟩

theorem Counts.add (counts : build.Counts width number first)
    (added : build.add width first second = .ok result) :
    build.Counts width (number + second) result := by
  rcases narrow_eq_ok_iff.mp added with ⟨fits, rfl⟩
  constructor
  · intro checks
    have whole : first = number := counts.eq_of_exact (.inl checks)
    rw [← whole]
    exact fits checks
  · rw [counts.2, Nat.mod_add_mod]

/-- Taking a part away from a sum returns, and leaves the rest. -/
theorem Counts.sub (counts : build.Counts width (number + second) first) :
    ∃ result, build.sub width first second = .ok result ∧ build.Counts width number result := by
  have same : first ≡ number + second [MOD 2 ^ width] := by
    rw [counts.2]
    exact Nat.mod_modEq _ _
  have checked : build.overflowChecks = true → number < 2 ^ width := fun checks =>
    Nat.lt_of_le_of_lt (Nat.le_add_right _ _) (counts.1 checks)
  by_cases le : second ≤ first
  · refine ⟨first - second, if_pos le, checked, ?_⟩
    have small : first - second < 2 ^ width := by
      apply Nat.lt_of_le_of_lt (Nat.sub_le _ _)
      rw [counts.2]
      exact Nat.mod_lt _ (Nat.two_pow_pos width)
    have rest : first - second ≡ number [MOD 2 ^ width] := by
      apply Nat.ModEq.add_right_cancel' second
      rwa [Nat.sub_add_cancel le]
    rw [← rest, Nat.mod_eq_of_lt small]
  · have unchecked : ¬build.overflowChecks = true := fun checks => by
      rw [counts.eq_of_exact (.inl checks)] at le
      exact le (Nat.le_add_left _ _)
    have cut : second % 2 ^ width ≤ first + 2 ^ width :=
      Nat.le_trans (Nat.le_of_lt (Nat.mod_lt _ (Nat.two_pow_pos width))) (Nat.le_add_left _ _)
    refine ⟨_, by rw [Build.sub, if_neg le, if_neg unchecked], checked, ?_⟩
    apply Nat.ModEq.add_right_cancel' (second % 2 ^ width)
    rw [Nat.sub_add_cancel cut]
    calc first + 2 ^ width
        ≡ first [MOD 2 ^ width] := Nat.add_modEq_right
      _ ≡ number + second [MOD 2 ^ width] := same
      _ ≡ number + second % 2 ^ width [MOD 2 ^ width] := (Nat.mod_modEq _ _).symm.add_left _

end Build

end Ciphera.Lib
