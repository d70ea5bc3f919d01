import Ciphera.Lib.SkipVoting
import Ciphera.Solid.Current

/-!
# A core votes by the rules

Every accept of a node is a vote with skips.  While other nodes vote, and leaders make
proposals from quorums of votes, what the core of a node does is allowed by the rules of
voting with skips: it never accepts a proposal that it has skipped, and it goes back from one
only when that is safe.
-/

namespace Ciphera.Solid

open Ciphera.Lib
open Ciphera.Lib.SkipVoting (State Safe Step)

variable {P S : Type} {app : App P S} {limit : AcceptThreshold} {initial : ManifestContent P S}

/-! ## Voting -/

section

variable [DecidableEq P]

/-- The validators of the first proposal vote, with the threshold of the configuration. -/
def voting (app : App P S) (limit : AcceptThreshold) (initial : ManifestContent P S) :
    SkipVoting P (ManifestContent P S) ProposalHash where
  key := app.hash
  parent := ManifestContent.lastProposalHash
  skips := ManifestContent.skips
  height := ManifestContent.height
  first := initial
  electorate := initial.validators.toFinset
  size := initial.validators.length
  threshold := limit.threshold initial.validators.length
  within := List.toFinset_card_le _
  majority := limit.lt_two_mul_threshold _

/-- Votes, blocks and confirmations of a whole network. -/
abbrev VotingState (P S : Type) := State P (ManifestContent P S) ProposalHash

/-- What changes while one node votes. -/
structure VotesOnly (app : App P S) (limit : AcceptThreshold) (initial : ManifestContent P S)
    (node : P) (state next : VotingState P S) : Prop where
  steps : Relation.ReflTransGen (Step (voting app limit initial)) state next
  created : next.created = state.created
  confirmed : next.confirmed = state.confirmed
  log : next.log = state.log
  grows : ∀ voter hash skips, state.voted voter hash skips → next.voted voter hash skips
  others : ∀ voter hash skips, voter ≠ node → next.voted voter hash skips →
    state.voted voter hash skips

namespace VotesOnly

variable {node : P} {state next : VotingState P S}

theorem refl (state : VotingState P S) : VotesOnly app limit initial node state state :=
  ⟨.refl, rfl, rfl, rfl, fun _ _ _ => id, fun _ _ _ _ => id⟩

theorem trans {later : VotingState P S} (first : VotesOnly app limit initial node state next)
    (second : VotesOnly app limit initial node next later) :
    VotesOnly app limit initial node state later where
  steps := first.steps.trans second.steps
  created := second.created.trans first.created
  confirmed := second.confirmed.trans first.confirmed
  log := second.log.trans first.log
  grows voter hash skips voted := second.grows voter hash skips (first.grows voter hash skips voted)
  others voter hash skips other voted :=
    first.others voter hash skips other (second.others voter hash skips other voted)

theorem vote {hash : ProposalHash} {skips : Nat}
    (taken : Step (voting app limit initial) state (state.vote node hash skips)) :
    VotesOnly app limit initial node state (state.vote node hash skips) where
  steps := .single taken
  created := rfl
  confirmed := rfl
  log := rfl
  grows _ _ _ voted := .inr voted
  others := by
    rintro voter key number other (⟨isNode, _⟩ | voted)
    · exact absurd isNode other
    · exact voted

end VotesOnly

end

/-! ## Tracking -/

section

variable [Peer P]

/-- The accepts for a proposal come from validators that have voted for it. -/
def Backed (initial : ManifestContent P S) (state : VotingState P S) (proposal : Proposal P S) :
    Prop :=
  ∀ skips peer accept, (proposal.acceptsAt skips)[peer]? = some accept →
    peer ∈ initial.validators ∧ state.voted peer proposal.hash skips

/-- The core of a node remembers the votes of the node, as far as they still matter, and has
heard only of votes that have been cast and of proposals that have been made. -/
structure Tracks (app : App P S) (limit : AcceptThreshold) (initial : ManifestContent P S)
    (node : P) (core : SolidCore P S) (last : Proposal P S) (state : VotingState P S) :
    Prop where
  peer : core.localPeerSigner.peer = node
  app_eq : core.app = app
  limit_eq : core.limit = limit
  rooted : core.proposals.Rooted last
  confirmed : state.confirmed node = last.manifest.content
  known : ∀ proposal, core.proposals.Has proposal →
    proposal.hash = app.hash proposal.manifest.content ∧
      proposal.manifest.content ∈ state.created ∧
      proposal.manifest.content.validators = initial.validators ∧
      proposal.orderedValidators.length = initial.validators.length
  backed : ∀ proposal, core.proposals.Has proposal → Backed initial state proposal
  orphans : ∀ hash orphan, core.orphanAccepts.lookup hash = some orphan →
    ∀ accept ∈ orphan.accepts, accept.proposal.hash = hash ∧
      state.voted accept.fromPeer hash accept.skips
  recorded : ∀ hash skips, state.voted node hash skips →
    (∃ proposal, core.proposals.get hash = some proposal ∧ skips ≤ proposal.skipsSent ∧
      proposal.isValidated = true) ∨
    ∃ content ∈ state.created, app.hash content = hash ∧
      content.height ≤ last.manifest.content.height ∧ hash ≠ last.hash
  sent : ∀ proposal, core.proposals.Has proposal → 0 < proposal.skipsSent →
    state.voted node proposal.hash proposal.skipsSent

namespace Tracks

open ProposalCache (Prunes changeAt changeAt_of_ne changeAt_self)

variable {node : P} {core : SolidCore P S} {last : Proposal P S} {state : VotingState P S}

/-- What other nodes and leaders do is of no concern to a core. -/
theorem mono (tracks : Tracks app limit initial node core last state) {next : VotingState P S}
    (created : state.created ⊆ next.created)
    (confirmed : next.confirmed node = state.confirmed node)
    (grows : ∀ voter hash skips, state.voted voter hash skips → next.voted voter hash skips)
    (own : ∀ hash skips, next.voted node hash skips → state.voted node hash skips) :
    Tracks app limit initial node core last next where
  peer := tracks.peer
  app_eq := tracks.app_eq
  limit_eq := tracks.limit_eq
  rooted := tracks.rooted
  confirmed := confirmed.trans tracks.confirmed
  known proposal has := by
    obtain ⟨hashEq, isCreated, rest⟩ := tracks.known proposal has
    exact ⟨hashEq, created isCreated, rest⟩
  backed proposal has skips peer accept stored := by
    obtain ⟨isValidator, voted⟩ := tracks.backed proposal has skips peer accept stored
    exact ⟨isValidator, grows _ _ _ voted⟩
  orphans hash orphan found accept mem := by
    obtain ⟨hashEq, voted⟩ := tracks.orphans hash orphan found accept mem
    exact ⟨hashEq, grows _ _ _ voted⟩
  recorded hash skips voted := by
    rcases tracks.recorded hash skips (own hash skips voted) with
      present | ⟨content, isCreated, past⟩
    · exact .inl present
    · exact .inr ⟨content, created isCreated, past⟩
  sent proposal has positive := grows _ _ _ (tracks.sent proposal has positive)

/-- Nothing is lost with proposals that are not valid. -/
theorem prune (tracks : Tracks app limit initial node core last state) {pruned : ProposalCache P S}
    (prunes : core.proposals.Prunes pruned) :
    Tracks app limit initial node (core.withProposals pruned) last state where
  peer := tracks.peer
  app_eq := tracks.app_eq
  limit_eq := tracks.limit_eq
  rooted := prunes.rooted tracks.rooted
  confirmed := tracks.confirmed
  known proposal has := tracks.known proposal (prunes.has has)
  backed proposal has := tracks.backed proposal (prunes.has has)
  orphans := tracks.orphans
  recorded hash skips voted := by
    rcases tracks.recorded hash skips voted with ⟨proposal, found, sent, valid⟩ | past
    · exact .inl ⟨proposal, prunes.kept hash proposal found (.inl valid), sent, valid⟩
    · exact .inr past
  sent proposal has := tracks.sent proposal (prunes.has has)

/-- The cache after one proposal has been changed. -/
theorem has_write {cache : ProposalCache P S} {proposal changed stored : Proposal P S}
    (has : cache.Has proposal) (hasStored : (cache.write proposal.hash changed).Has stored) :
    stored = changed ∨ stored.hash ≠ proposal.hash ∧ cache.Has stored := by
  by_cases same : stored.hash = proposal.hash
  · rw [ProposalCache.Has, same, ProposalCache.get_write_self has] at hasStored
    exact .inl (Option.some.inj hasStored).symm
  · rw [ProposalCache.Has, ProposalCache.get_write_of_ne same] at hasStored
    exact .inr ⟨same, hasStored⟩

/-- A change to a proposal that keeps it validated and backed, with the vote that it records
as the last one. -/
theorem write (tracks : Tracks app limit initial node core last state)
    {proposal changed : Proposal P S} {next : VotingState P S}
    (has : core.proposals.Has proposal) (sameHash : changed.hash = proposal.hash)
    (sameManifest : changed.manifest = proposal.manifest)
    (sameOrder : changed.orderedValidators = proposal.orderedValidators)
    (valid : proposal.isValidated = true → changed.isValidated = true)
    (more : proposal.skipsSent ≤ changed.skipsSent)
    (created : next.created = state.created) (confirmed : next.confirmed = state.confirmed)
    (grows : ∀ voter hash skips, state.voted voter hash skips → next.voted voter hash skips)
    (own : ∀ hash skips, next.voted node hash skips → state.voted node hash skips ∨
      hash = proposal.hash ∧ skips ≤ changed.skipsSent ∧ changed.isValidated = true)
    (backed : Backed initial next changed)
    (sent : 0 < changed.skipsSent → next.voted node proposal.hash changed.skipsSent) :
    Tracks app limit initial node (core.write proposal.hash changed)
      (changeAt proposal.hash changed last) next where
  peer := tracks.peer
  app_eq := tracks.app_eq
  limit_eq := tracks.limit_eq
  rooted := tracks.rooted.write has sameHash sameManifest
  confirmed := by
    rw [confirmed, tracks.confirmed, (ProposalCache.keeps_changeAt _ _ last).2]
  known stored hasStored := by
    rw [created]
    rcases has_write has hasStored with rfl | ⟨_, hasOther⟩
    · rw [sameHash, sameManifest, sameOrder]
      exact tracks.known proposal has
    · exact tracks.known stored hasOther
  backed stored hasStored := by
    rcases has_write has hasStored with rfl | ⟨_, hasOther⟩
    · exact backed
    · intro skips peer accept isStored
      obtain ⟨isValidator, voted⟩ := tracks.backed stored hasOther skips peer accept isStored
      exact ⟨isValidator, grows _ _ _ voted⟩
  orphans hash orphan found accept mem := by
    obtain ⟨hashEq, voted⟩ := tracks.orphans hash orphan found accept mem
    exact ⟨hashEq, grows _ _ _ voted⟩
  recorded hash skips voted := by
    have found := ProposalCache.get_write_self has changed
    rcases own hash skips voted with before | ⟨rfl, atMost, isValid⟩
    · rcases tracks.recorded hash skips before with ⟨stored, isStored, atMost, isValid⟩ | past
      · apply Or.inl
        by_cases same : hash = proposal.hash
        · subst same
          obtain rfl := Option.some.inj (has.symm.trans isStored)
          exact ⟨changed, found, atMost.trans more, valid isValid⟩
        · exact ⟨stored, (ProposalCache.get_write_of_ne same changed).trans isStored, atMost,
            isValid⟩
      · rw [created, (ProposalCache.keeps_changeAt _ _ last).1,
          (ProposalCache.keeps_changeAt _ _ last).2]
        exact .inr past
    · exact .inl ⟨changed, found, atMost, isValid⟩
  sent stored hasStored positive := by
    rcases has_write has hasStored with rfl | ⟨_, hasOther⟩
    · rw [sameHash]
      exact sent positive
    · exact grows _ _ _ (tracks.sent stored hasOther positive)

end Tracks

end

/-! ## Votes -/

section

variable [Peer P] [DecidableEq P]

/-- Who has sent an accept with some number of skips. -/
def votersAt (proposal : Proposal P S) (skips : Nat) : Finset P :=
  (proposal.acceptsAt skips).keys.toFinset

variable [Std.TransOrd P]

@[simp]
theorem card_votersAt (proposal : Proposal P S) (skips : Nat) :
    (votersAt proposal skips).card = (proposal.acceptsAt skips).size := by
  rw [votersAt, List.toFinset_card_of_nodup Std.TreeMap.nodup_keys, Std.TreeMap.length_keys]

variable [Std.LawfulEqOrd P]

namespace Backed

variable {state : VotingState P S} {proposal : Proposal P S}

theorem voted (backed : Backed initial state proposal) {skips : Nat} {voter : P}
    (mem : voter ∈ votersAt proposal skips) :
    voter ∈ initial.validators ∧ state.voted voter proposal.hash skips := by
  rw [votersAt, List.mem_toFinset, Std.TreeMap.mem_keys] at mem
  exact backed skips voter _ (Std.TreeMap.getElem?_eq_some_getElem mem)

theorem subset (backed : Backed initial state proposal) (skips : Nat) :
    votersAt proposal skips ⊆ (voting app limit initial).electorate := by
  intro voter mem
  exact List.mem_toFinset.mpr (backed.voted mem).1

/-- Accepts that exceed the inverse are votes that leave no quorum. -/
theorem blocking (backed : Backed initial state proposal)
    (lengthEq : proposal.orderedValidators.length = initial.validators.length) {skips : Nat}
    (exceeded : proposal.InverseExceeded limit skips) :
    State.Blocking (voting app limit initial) (votersAt proposal skips) := by
  have positive := Proposal.inverseExceeded_pos exceeded
  rw [← card_votersAt, Finset.card_pos] at positive
  obtain ⟨voter, mem⟩ := positive
  have nonempty := List.length_pos_of_mem (backed.voted mem).1
  refine ⟨backed.subset skips, ?_⟩
  rw [card_votersAt]
  rw [Proposal.InverseExceeded, lengthEq, Nat.max_eq_left nonempty] at exceeded
  exact (limit.inverseExceeded_iff nonempty).mp exceeded

/-- Accepts that reach the threshold are a quorum of votes. -/
theorem quorum (backed : Backed initial state proposal)
    (lengthEq : proposal.orderedValidators.length = initial.validators.length) {skips : Nat}
    (breached : proposal.acceptThresholdBreached skips limit = true) :
    state.Quorum (voting app limit initial) proposal.hash skips := by
  refine ⟨votersAt proposal skips, backed.subset skips, ?_, fun voter mem => (backed.voted mem).2⟩
  rw [Proposal.acceptThresholdBreached, AcceptThreshold.isExactBreach, decide_eq_true_iff,
    lengthEq] at breached
  rw [card_votersAt, ← breached]
  exact le_refl _

end Backed

namespace Tracks

open SolidCore (Settled)

variable {node : P} {core : SolidCore P S} {last current : Proposal P S}
  {state : VotingState P S}

omit [Std.TransOrd P] [Std.LawfulEqOrd P] in
/-- A vote for the next proposal is one for a child that the node has not skipped. -/
theorem step_next (tracks : Tracks app limit initial node core last state)
    (found : core.proposals.nextPendingProposal 0 = .ok (some current))
    (unblocked : ¬SolidCore.Blocked core.limit last current) (skips : Nat) :
    Step (voting app limit initial) state (state.vote node current.hash skips) := by
  have hasLast := tracks.rooted.has
  obtain ⟨top, isNext⟩ :=
    ProposalCache.isNext_of_some tracks.rooted.keyed tracks.rooted.confirmed found
  obtain ⟨currentHash, created, _⟩ := tracks.known current isNext.has
  have lastHash := (tracks.known last hasLast).1
  rw [currentHash]
  apply Step.advance created
  · rw [tracks.confirmed]
    exact ⟨(isNext.lastHash_eq tracks.rooted.keyed hasLast).trans lastHash, isNext.height_eq⟩
  · intro earlier voted
    rw [tracks.confirmed] at voted
    change state.voted node (app.hash last.manifest.content) earlier at voted
    rw [← lastHash] at voted
    rcases tracks.recorded _ _ voted with ⟨stored, isStored, atMost, _⟩ | ⟨_, _, _, _, differ⟩
    · obtain rfl := Option.some.inj (hasLast.symm.trans isStored)
      exact atMost.trans (Nat.le_of_not_lt fun less => unblocked (.inr less))
    · exact absurd rfl differ

/-- A vote for the last confirmed proposal passes over its children for a reason. -/
theorem step_last (tracks : Tracks app limit initial node core last state)
    (safe : Safe (voting app limit initial) state)
    (blocked : ∀ proposal, core.proposals.nextPendingProposal 0 = .ok (some proposal) →
      SolidCore.Blocked core.limit last proposal) (skips : Nat) :
    Step (voting app limit initial) state (state.vote node last.hash skips) := by
  have hasLast := tracks.rooted.has
  have keyed := tracks.rooted.keyed
  obtain ⟨lastHash, _, _, lengthEq⟩ := tracks.known last hasLast
  have keyEq : last.hash = (voting app limit initial).key (state.confirmed node) := by
    rw [tracks.confirmed, lastHash]
    rfl
  rw [keyEq]
  apply Step.stay
  rintro block created ⟨parentEq, heightEq⟩ ⟨earlier, voted⟩
  rw [← keyEq] at parentEq
  rw [tracks.confirmed] at heightEq
  have isBlock : ∀ content ∈ state.created, app.hash content = app.hash block → content = block :=
    fun content isCreated same => safe.keyed content isCreated block created same
  rcases tracks.recorded _ _ voted with ⟨stored, isStored, _⟩ | ⟨content, isCreated, same, low, _⟩
  · -- the child is in the cache, so there is a next proposal, which is blocked
    have has := keyed.has isStored
    obtain ⟨storedHash, storedCreated, _⟩ := tracks.known stored has
    obtain rfl := isBlock _ storedCreated (storedHash.symm.trans (keyed _ _ isStored))
    rcases ProposalCache.nextPendingProposal_cases keyed tracks.rooted.confirmed 0 with
      ⟨_, low⟩ | ⟨top, next, found, isNext⟩
    · have isLow := low stored (ProposalCache.candidate_of_child hasLast has parentEq heightEq)
      exact absurd heightEq (Nat.ne_of_lt isLow)
    · obtain ⟨nextHash, nextCreated, _⟩ := tracks.known next isNext.has
      refine ⟨next.manifest.content, nextCreated, ⟨?_, ?_⟩, ?_, ?_⟩
      · rw [← keyEq]
        exact isNext.lastHash_eq keyed hasLast
      · rw [tracks.confirmed]
        exact isNext.height_eq
      · intro fewer
        obtain ⟨child, hasChild, link, higher⟩ :=
          isNext.exists_child hasLast has parentEq heightEq fewer
        exact ⟨child.manifest.content, (tracks.known child hasChild).2.1, link.trans nextHash,
          higher⟩
      · rw [← keyEq]
        have isBlocked := blocked next found
        rw [tracks.limit_eq] at isBlocked
        rcases isBlocked with ⟨number, more, exceeded⟩ | more
        · have backed := tracks.backed last hasLast
          exact ⟨number, more, .inr ⟨_, backed.blocking lengthEq exceeded,
            fun voter mem => (backed.voted mem).2⟩⟩
        · exact ⟨last.skipsSent, more, .inl (tracks.sent last hasLast (Nat.zero_lt_of_lt more))⟩
  · rw [isBlock content isCreated same] at low
    change block.height = last.manifest.content.height + 1 at heightEq
    omega

/-- A node votes for its current proposal. -/
theorem vote (tracks : Tracks app limit initial node core last state)
    (safe : Safe (voting app limit initial) state) (settled : Settled core last current)
    {skips : Nat} (more : current.skipsSent ≤ skips) :
    VotesOnly app limit initial node state (state.vote node current.hash skips) ∧
      Tracks app limit initial node
        (core.write current.hash { current with skipsSent := skips, initialAcceptSent := true })
        (ProposalCache.changeAt current.hash
          { current with skipsSent := skips, initialAcceptSent := true } last)
        (state.vote node current.hash skips) := by
  constructor
  · apply VotesOnly.vote
    cases settled.isCurrent with
    | next found unblocked => exact tracks.step_next found unblocked skips
    | last blocked => exact tracks.step_last safe blocked skips
  · have backed : Backed initial (state.vote node current.hash skips)
        { current with skipsSent := skips, initialAcceptSent := true } := by
      intro number peer accept stored
      obtain ⟨isValidator, voted⟩ := tracks.backed current settled.has number peer accept stored
      exact ⟨isValidator, .inr voted⟩
    exact tracks.write settled.has rfl rfl rfl (fun _ => settled.validated) more rfl rfl
      (fun _ _ _ voted => .inr voted)
      (by
        rintro hash number (⟨_, rfl, rfl⟩ | voted)
        · exact .inr ⟨rfl, le_refl _, settled.validated⟩
        · exact .inl voted)
      backed fun _ => .inl ⟨rfl, rfl, rfl⟩

end Tracks

end

end Ciphera.Solid
