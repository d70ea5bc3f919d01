import Mathlib.Data.List.Induction
import Mathlib.Order.Lattice

/-!
# Keeping the best candidate

A search goes through candidates and keeps one that is acceptable and has the least rank
so far; of two with the same rank the earlier one stays.
-/

namespace Ciphera.Lib

universe u v

variable {α : Type u} {κ : Type v} [LinearOrder κ] {accepts : α → Bool} {rank : α → κ}

/-- Keep a candidate if it is acceptable and ranks before the one that is held. -/
def keepBest (accepts : α → Bool) (rank : α → κ) (held : Option α) (candidate : α) : Option α :=
  if accepts candidate then
    match held with
    | none => some candidate
    | some best => if rank candidate < rank best then some candidate else some best
  else held

/-- The candidate is acceptable, and none that is acceptable ranks before it. -/
structure IsBest (accepts : α → Bool) (rank : α → κ) (candidates : List α) (best : α) : Prop where
  mem : best ∈ candidates
  accepted : accepts best = true
  least : ∀ candidate ∈ candidates, accepts candidate = true → rank best ≤ rank candidate

/-- The outcome of a search: nothing if nothing is acceptable, and else the best. -/
def Outcome (accepts : α → Bool) (rank : α → κ) (candidates : List α) : Option α → Prop
  | none => ∀ candidate ∈ candidates, accepts candidate = false
  | some best => IsBest accepts rank candidates best

theorem IsBest.concat {candidates : List α} {best candidate : α}
    (mem : best ∈ candidates ++ [candidate]) (accepted : accepts best = true)
    (earlier : ∀ other ∈ candidates, accepts other = true → rank best ≤ rank other)
    (last : accepts candidate = true → rank best ≤ rank candidate) :
    IsBest accepts rank (candidates ++ [candidate]) best := by
  refine ⟨mem, accepted, ?_⟩
  intro other otherMem otherAccepted
  rcases List.mem_append.mp otherMem with inCandidates | isLast
  · exact earlier other inCandidates otherAccepted
  · obtain rfl := List.mem_singleton.mp isLast
    exact last otherAccepted

/-- One more candidate. -/
theorem Outcome.step {candidates : List α} {held : Option α} (candidate : α)
    (outcome : Outcome accepts rank candidates held) :
    Outcome accepts rank (candidates ++ [candidate]) (keepBest accepts rank held candidate) := by
  have lastMem : candidate ∈ candidates ++ [candidate] :=
    List.mem_append_right _ List.mem_cons_self
  unfold keepBest
  split_ifs with accepted
  · cases held with
    | none =>
        apply IsBest.concat lastMem accepted _ fun _ => le_refl _
        intro other mem otherAccepted
        exact absurd ((outcome other mem).symm.trans otherAccepted) Bool.false_ne_true
    | some best =>
        dsimp only
        split_ifs with before
        · exact .concat lastMem accepted
            (fun other mem otherAccepted =>
              le_trans (le_of_lt before) (outcome.least other mem otherAccepted))
            fun _ => le_refl _
        · exact .concat (List.mem_append_left _ outcome.mem) outcome.accepted outcome.least
            fun _ => not_lt.mp before
  · cases held with
    | none =>
        intro other mem
        rcases List.mem_append.mp mem with inCandidates | isLast
        · exact outcome other inCandidates
        · rw [List.mem_singleton.mp isLast]
          exact Bool.not_eq_true _ ▸ accepted
    | some best =>
        exact .concat (List.mem_append_left _ outcome.mem) outcome.accepted outcome.least
          fun lastAccepted => absurd lastAccepted accepted

/-- The search finds the best candidate. -/
theorem outcome_foldl_keepBest (accepts : α → Bool) (rank : α → κ) (candidates : List α) :
    Outcome accepts rank candidates (candidates.foldl (keepBest accepts rank) none) := by
  induction candidates using List.reverseRecOn with
  | nil => exact fun candidate mem => absurd mem List.not_mem_nil
  | append_singleton candidates candidate ih =>
      rw [List.foldl_append]
      exact ih.step candidate

end Ciphera.Lib
