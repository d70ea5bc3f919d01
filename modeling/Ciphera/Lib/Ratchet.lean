import Mathlib.Algebra.BigOperators.Group.Finset.Basic
import Mathlib.Algebra.Order.BigOperators.Group.Finset
import Mathlib.Data.Finset.Lattice.Basic

/-!
# Voting without going back

A vote is for going from one height, its source, to a higher one, its target.  Some votes are
direct.  A voter goes forward if its sources never decrease, and if the target of a direct
vote is above all targets that it has voted for before.

Once a quorum has voted for a direct step, no quorum votes for a step across its source: the
two have a voter in common that goes forward.  So no chain of steps that have a quorum each
leaves the source of the direct step out.
-/

namespace Ciphera.Lib.Ratchet

/-- What a vote says about heights. -/
structure Ballot (B : Type) where
  source : B → Nat
  target : B → Nat
  direct : B → Prop

variable {B V : Type}

/-- A vote that may follow another one. -/
def Ballot.Follows (ballot : Ballot B) (earlier later : B) : Prop :=
  ballot.source earlier ≤ ballot.source later ∧
    (ballot.direct later → ballot.target earlier < ballot.target later)

/-- The votes of one voter, in order. -/
def Ballot.Forward (ballot : Ballot B) (votes : List B) : Prop :=
  votes.Pairwise ballot.Follows

variable {ballot : Ballot B}

theorem Ballot.Forward.nil : ballot.Forward [] :=
  List.Pairwise.nil

theorem Ballot.Forward.snoc {votes : List B} (forward : ballot.Forward votes) {vote : B}
    (follows : ∀ earlier ∈ votes, ballot.Follows earlier vote) :
    ballot.Forward (votes ++ [vote]) := by
  apply List.pairwise_append.mpr
  refine ⟨forward, List.pairwise_singleton _ _, ?_⟩
  intro earlier mem later isLast
  rw [List.mem_singleton.mp isLast]
  exact follows earlier mem

/-- A voter that votes directly does not vote for crossing the source, neither before nor after. -/
theorem Ballot.Forward.follows_of_direct {votes : List B} (forward : ballot.Forward votes)
    {first second : B} (memFirst : first ∈ votes) (memSecond : second ∈ votes)
    (direct : ballot.direct first) (crosses : ballot.target first ≤ ballot.target second) :
    second = first ∨ ballot.Follows first second := by
  induction votes with
  | nil => cases memFirst
  | cons vote votes ih =>
      obtain ⟨follows, rest⟩ := List.pairwise_cons.mp forward
      rcases List.mem_cons.mp memFirst with rfl | laterFirst
      · rcases List.mem_cons.mp memSecond with rfl | laterSecond
        · exact .inl rfl
        · exact .inr (follows second laterSecond)
      · rcases List.mem_cons.mp memSecond with rfl | laterSecond
        · -- the direct vote would have come after one for a target as high
          exact absurd ((follows first laterFirst).2 direct) (Nat.not_lt.mpr crosses)
        · exact ih rest laterFirst laterSecond

/-! ## Quorums -/

variable [DecidableEq V] {weight : V → Nat} {everyone faulty : Finset V}

/-- Voters with more than two thirds of the weight. -/
structure Quorum (weight : V → Nat) (everyone voters : Finset V) : Prop where
  subset : voters ⊆ everyone
  enough : 2 * ∑ voter ∈ everyone, weight voter < 3 * ∑ voter ∈ voters, weight voter

/-- Two quorums have a voter in common that is not faulty, as long as no more than a third is. -/
theorem Quorum.exists_common {first second : Finset V} (quorum : Quorum weight everyone first)
    (other : Quorum weight everyone second)
    (few : 3 * ∑ voter ∈ faulty, weight voter ≤ ∑ voter ∈ everyone, weight voter) :
    ∃ voter ∈ first, voter ∈ second ∧ voter ∉ faulty := by
  by_contra none
  push Not at none
  have common : first ∩ second ⊆ faulty := by
    intro voter mem
    obtain ⟨inFirst, inSecond⟩ := Finset.mem_inter.mp mem
    exact none voter inFirst inSecond
  have both : ∑ voter ∈ first ∩ second, weight voter ≤ ∑ voter ∈ faulty, weight voter :=
    Finset.sum_le_sum_of_subset common
  have either : ∑ voter ∈ first ∪ second, weight voter ≤ ∑ voter ∈ everyone, weight voter :=
    Finset.sum_le_sum_of_subset (Finset.union_subset quorum.subset other.subset)
  have parts : ∑ voter ∈ first ∪ second, weight voter + ∑ voter ∈ first ∩ second, weight voter =
      ∑ voter ∈ first, weight voter + ∑ voter ∈ second, weight voter :=
    Finset.sum_union_inter
  have enoughFirst := quorum.enough
  have enoughSecond := other.enough
  omega

/-- What every voter has voted for, with the voters that go forward. -/
structure Election (ballot : Ballot B) (faulty : Finset V) (votes : V → List B) : Prop where
  forward : ∀ voter ∉ faulty, ballot.Forward (votes voter)
  proper : ∀ voter ∉ faulty, ∀ vote ∈ votes voter, ballot.source vote < ballot.target vote

/-- A quorum of voters, of which those that are not faulty have voted for something. -/
def Elected (weight : V → Nat) (everyone faulty : Finset V) (votes : V → List B) (vote : B) :
    Prop :=
  ∃ voters, Quorum weight everyone voters ∧ ∀ voter ∈ voters, voter ∉ faulty → vote ∈ votes voter

variable {votes : V → List B} {first second : B}

omit [DecidableEq V] in
/-- What has been elected stays so while votes are added. -/
theorem Elected.mono {more : V → List B} (elected : Elected weight everyone faulty votes first)
    (subset : ∀ voter, votes voter ⊆ more voter) :
    Elected weight everyone faulty more first := by
  obtain ⟨voters, quorum, voted⟩ := elected
  exact ⟨voters, quorum, fun voter mem honest => subset voter (voted voter mem honest)⟩

/-- Nothing is elected that crosses the source of a direct step that has been elected. -/
theorem Election.follows (election : Election ballot faulty votes)
    (few : 3 * ∑ voter ∈ faulty, weight voter ≤ ∑ voter ∈ everyone, weight voter)
    (elected : Elected weight everyone faulty votes first)
    (other : Elected weight everyone faulty votes second) (direct : ballot.direct first)
    (crosses : ballot.target first ≤ ballot.target second) :
    ballot.source second < ballot.target second ∧
      (second = first ∨ ballot.Follows first second) := by
  obtain ⟨voters, quorum, voted⟩ := elected
  obtain ⟨otherVoters, otherQuorum, otherVoted⟩ := other
  obtain ⟨voter, mem, otherMem, honest⟩ := quorum.exists_common otherQuorum few
  have memSecond := otherVoted voter otherMem honest
  exact ⟨election.proper voter honest second memSecond,
    (election.forward voter honest).follows_of_direct (voted voter mem honest) memSecond direct
      crosses⟩

/-- A chain of elected steps from below the source of a direct step to above it goes through
the source. -/
theorem Election.mem_chain (election : Election ballot faulty votes)
    (few : 3 * ∑ voter ∈ faulty, weight voter ≤ ∑ voter ∈ everyone, weight voter)
    (elected : Elected weight everyone faulty votes first) (direct : ballot.direct first)
    (next : ballot.target first = ballot.source first + 1) {heights : List Nat}
    (chain : heights.IsChain fun source target => ∃ vote,
      Elected weight everyone faulty votes vote ∧ ballot.source vote = source ∧
        ballot.target vote = target)
    {lowest highest : Nat} (begins : heights.head? = some lowest)
    (ends : heights.getLast? = some highest) (from_ : lowest ≤ ballot.source first)
    (above : ballot.source first < highest) : ballot.source first ∈ heights := by
  induction heights generalizing lowest with
  | nil => cases begins
  | cons height heights ih =>
      obtain rfl := Option.some.inj begins
      cases heights with
      | nil =>
          obtain rfl := Option.some.inj ends
          exact absurd above (Nat.not_lt.mpr from_)
      | cons higher heights =>
          obtain ⟨⟨vote, voteElected, sourceEq, targetEq⟩, rest⟩ := List.isChain_cons_cons.mp chain
          rw [List.getLast?_cons_cons] at ends
          by_cases crosses : ballot.target first ≤ higher
          · rw [← targetEq] at crosses
            rcases (election.follows few elected voteElected direct crosses).2 with rfl | follows
            · rw [sourceEq]
              exact List.mem_cons_self
            · have same : ballot.source first = height := by
                rw [← sourceEq] at from_ ⊢
                exact Nat.le_antisymm follows.1 from_
              rw [same]
              exact List.mem_cons_self
          · exact List.mem_cons_of_mem _ (ih rest rfl ends (by omega))

end Ciphera.Lib.Ratchet
