import Ciphera.Solid.Core

/-!
# The current proposal

A node sends accepts for one proposal at a time.  Which one that is depends on the chain of
cached proposals, on the accepts for the last confirmed one and on the skips that the node
has sent for it.  Removing invalid proposals settles it; recording an accept in the current
proposal leaves it current.
-/

namespace Ciphera.Solid

open Ciphera.Lib

variable {P S : Type} [Peer P]

namespace ProposalCache

/-- The last confirmed proposal is in the cache. -/
structure Rooted (cache : ProposalCache P S) (last : Proposal P S) : Prop where
  keyed : cache.Keyed
  confirmed : cache.get cache.lastConfirmedProposalHash = some last

theorem Rooted.has {cache : ProposalCache P S} {last : Proposal P S}
    (rooted : cache.Rooted last) : cache.Has last :=
  rooted.keyed.has rooted.confirmed

theorem Rooted.lastHash {cache : ProposalCache P S} {last : Proposal P S}
    (rooted : cache.Rooted last) : cache.lastConfirmedProposalHash = last.hash :=
  (rooted.keyed _ _ rooted.confirmed).symm

/-- The next proposal is not the last confirmed one. -/
theorem Rooted.next_ne {cache : ProposalCache P S} {last next : Proposal P S} {offset : Nat}
    (rooted : cache.Rooted last) (found : cache.nextPendingProposal offset = .ok (some next)) :
    next.hash ≠ last.hash := by
  intro same
  obtain ⟨top, isNext⟩ := isNext_of_some rooted.keyed rooted.confirmed found
  have has := isNext.has
  have higher := isNext.height_eq
  rw [Has, same, rooted.has] at has
  rw [← Option.some.inj has] at higher
  omega

/-- A change to a cached proposal that keeps its hash. -/
theorem Rooted.write {cache : ProposalCache P S} {last proposal changed : Proposal P S}
    (rooted : cache.Rooted last) (has : cache.Has proposal)
    (sameHash : changed.hash = proposal.hash)
    (sameManifest : changed.manifest = proposal.manifest) :
    (cache.write proposal.hash changed).Rooted (changeAt proposal.hash changed last) where
  keyed := rooted.keyed.write sameHash
  confirmed := by
    rw [write_eq_transform rooted.keyed has sameHash sameManifest, get_transform]
    change (cache.get cache.lastConfirmedProposalHash).map _ = _
    rw [rooted.confirmed]
    rfl

/-- A proposal that has not been known. -/
theorem Rooted.insert {cache : ProposalCache P S} {last proposal : Proposal P S}
    (rooted : cache.Rooted last) (unknown : cache.get proposal.hash = none) :
    (cache.insert proposal).Rooted last where
  keyed := rooted.keyed.insert proposal
  confirmed := by
    change (cache.insert proposal).get cache.lastConfirmedProposalHash = some last
    rw [get_insert, if_neg]
    · exact rooted.confirmed
    · intro same
      rw [← same, rooted.confirmed] at unknown
      cases unknown

/-- What is left after invalid proposals have been removed. -/
structure Prunes (cache pruned : ProposalCache P S) : Prop where
  lastHash : pruned.lastConfirmedProposalHash = cache.lastConfirmedProposalHash
  sub : ∀ hash proposal, pruned.get hash = some proposal → cache.get hash = some proposal
  kept : ∀ hash proposal, cache.get hash = some proposal →
    proposal.isValidated = true ∨ hash = cache.lastConfirmedProposalHash →
    pruned.get hash = some proposal

namespace Prunes

variable {cache pruned : ProposalCache P S} {last : Proposal P S}

theorem refl (cache : ProposalCache P S) : cache.Prunes cache :=
  ⟨rfl, fun _ _ => id, fun _ _ found _ => found⟩

theorem trans {further : ProposalCache P S} (first : cache.Prunes pruned)
    (second : pruned.Prunes further) : cache.Prunes further where
  lastHash := second.lastHash.trans first.lastHash
  sub hash proposal found := first.sub hash proposal (second.sub hash proposal found)
  kept hash proposal found needed := by
    apply second.kept hash proposal (first.kept hash proposal found needed)
    rwa [first.lastHash]

theorem rooted (prunes : cache.Prunes pruned) (rooted : cache.Rooted last) :
    pruned.Rooted last where
  keyed hash proposal found := rooted.keyed hash proposal (prunes.sub hash proposal found)
  confirmed := by
    rw [prunes.lastHash]
    exact prunes.kept _ _ rooted.confirmed (.inr rfl)

theorem has (prunes : cache.Prunes pruned) {proposal : Proposal P S}
    (has : pruned.Has proposal) : cache.Has proposal :=
  prunes.sub _ _ has

theorem remove {proposal : Proposal P S} (has : cache.Has proposal)
    (invalid : proposal.isValidated = false) (other : proposal.hash ≠
      cache.lastConfirmedProposalHash) : cache.Prunes (cache.remove proposal.hash) where
  lastHash := rfl
  sub hash stored found := by
    rw [get_remove] at found
    split at found
    · cases found
    · exact found
  kept hash stored found needed := by
    rw [get_remove, if_neg]
    · exact found
    · rintro rfl
      rcases needed with valid | isLast
      · rw [has] at found
        rw [← Option.some.inj found, invalid] at valid
        cases valid
      · exact other isLast

end Prunes

end ProposalCache

namespace SolidCore

open ProposalCache (Rooted Prunes changeAt changeAt_of_ne changeAt_self keeps_changeAt
  nextPendingProposal_transform write_eq_transform isNext_of_some)

variable {core : SolidCore P S} {last current : Proposal P S}

/-- The network, or the node itself, has skipped a child of the last confirmed proposal. -/
def Blocked (limit : AcceptThreshold) (last proposal : Proposal P S) : Prop :=
  (∃ skips > proposal.skips, last.InverseExceeded limit skips) ∨
    proposal.skips < last.skipsSent

/-- The next proposal, unless it is blocked, and else the last confirmed one. -/
inductive IsCurrent (core : SolidCore P S) (last : Proposal P S) : Proposal P S → Prop
  | next {proposal : Proposal P S}
      (found : core.proposals.nextPendingProposal 0 = .ok (some proposal))
      (unblocked : ¬Blocked core.limit last proposal) : IsCurrent core last proposal
  | last (blocked : ∀ proposal, core.proposals.nextPendingProposal 0 = .ok (some proposal) →
      Blocked core.limit last proposal) : IsCurrent core last last

theorem highestNextPending_eq (rooted : core.proposals.Rooted last) :
    (∃ proposal, core.highestNextPending = .ok (some proposal) ∧
      core.proposals.nextPendingProposal 0 = .ok (some proposal) ∧
      ¬Blocked core.limit last proposal) ∨
    (core.highestNextPending = .ok none ∧
      ∀ proposal, core.proposals.nextPendingProposal 0 = .ok (some proposal) →
        Blocked core.limit last proposal) := by
  have blockedIff : ∀ proposal : Proposal P S,
      (!(decide ((last.highestSkipWithInverse core.limit).getD 0 > proposal.skips) ||
        decide (last.skipsSent > proposal.skips))) = true ↔
        ¬Blocked core.limit last proposal := by
    intro proposal
    rw [Bool.not_eq_true', ← Bool.not_eq_true, Bool.or_eq_true, decide_eq_true_iff,
      decide_eq_true_iff, Blocked, ← Proposal.highestSkipWithInverse_exceeds_iff]
  have confirmed := ProposalCache.lastConfirmedProposal_eq rooted.confirmed
  rcases ProposalCache.nextPendingProposal_cases rooted.keyed rooted.confirmed 0 with
    ⟨absent, _⟩ | ⟨top, next, found, _⟩
  · apply Or.inr
    rw [highestNextPending, confirmed, ok_bind, absent]
    exact ⟨rfl, fun _ otherwise => absurd (Except.ok.inj otherwise) (Option.some_ne_none _).symm⟩
  · by_cases blocked : Blocked core.limit last next
    · apply Or.inr
      have skipped := (not_congr (blockedIff next)).mpr (not_not.mpr blocked)
      constructor
      · rw [highestNextPending, confirmed, ok_bind, found, ok_bind]
        rw [Option.filter_some, if_neg skipped]
        rfl
      · intro proposal isNext
        obtain rfl := Option.some.inj (Except.ok.inj (found.symm.trans isNext))
        exact blocked
    · apply Or.inl
      refine ⟨next, ?_, found, blocked⟩
      rw [highestNextPending, confirmed, ok_bind, found, ok_bind]
      rw [Option.filter_some, if_pos ((blockedIff next).mpr blocked)]
      rfl

/-- The core after invalid proposals have been removed from its cache. -/
def withProposals (core : SolidCore P S) (proposals : ProposalCache P S) : SolidCore P S :=
  { core with proposals }

theorem IsCurrent.has (isCurrent : IsCurrent core last current)
    (rooted : core.proposals.Rooted last) : core.proposals.Has current := by
  cases isCurrent with
  | next found _ =>
      obtain ⟨top, isNext⟩ := isNext_of_some rooted.keyed rooted.confirmed found
      exact isNext.has
  | last _ => exact rooted.has

/-- Recording something in the current proposal leaves it current, if the last confirmed
proposal still blocks what it has blocked. -/
theorem IsCurrent.write {changed : Proposal P S} (isCurrent : IsCurrent core last current)
    (rooted : core.proposals.Rooted last) (sameHash : changed.hash = current.hash)
    (sameManifest : changed.manifest = current.manifest)
    (more : current = last → ∀ proposal, Blocked core.limit last proposal →
      Blocked core.limit changed proposal) :
    IsCurrent (core.write current.hash changed) (changeAt current.hash changed last) changed := by
  have changedNext : (core.write current.hash changed).proposals.nextPendingProposal 0 =
      Option.map (changeAt current.hash changed) <$> core.proposals.nextPendingProposal 0 := by
    change (core.proposals.write current.hash changed).nextPendingProposal 0 = _
    rw [write_eq_transform rooted.keyed (isCurrent.has rooted) sameHash sameManifest]
    exact nextPendingProposal_transform (keeps_changeAt _ _) rooted.confirmed 0
  cases isCurrent with
  | next found unblocked =>
      have differ : last.hash ≠ current.hash := (rooted.next_ne found).symm
      have sameSkips : changed.skips = current.skips := by
        rw [Proposal.skips, sameManifest, Proposal.skips]
      apply IsCurrent.next
      · rw [changedNext, found]
        change Except.ok (some (changeAt current.hash changed current)) = _
        rw [changeAt_self sameHash sameManifest]
      · rw [changeAt_of_ne differ, Blocked, sameSkips]
        exact unblocked
  | last blocked =>
      rw [changeAt_self sameHash sameManifest]
      apply IsCurrent.last
      intro proposal found
      rw [changedNext] at found
      obtain ⟨next, nextFound, changedEq⟩ := map_eq_ok_iff.mp found
      obtain ⟨original, rfl, rfl⟩ := Option.map_eq_some_iff.mp changedEq
      rw [changeAt_of_ne (rooted.next_ne nextFound)]
      exact more rfl original (blocked original nextFound)

variable [DecidableEq P] {digests : Digests}

theorem validatedWithin_spec (rooted : core.proposals.Rooted last) {rounds : Nat}
    {result : SolidCore P S × ProposalHash}
    (returned : core.validatedWithin digests rounds = .ok result) :
    ∃ pruned current, result = (core.withProposals pruned, current.hash) ∧
      core.proposals.Prunes pruned ∧ IsCurrent (core.withProposals pruned) last current := by
  have confirmed := ProposalCache.lastConfirmedProposal_eq rooted.confirmed
  induction rounds generalizing core with
  | zero =>
      rw [validatedWithin, confirmed, ok_bind] at returned
      rcases highestNextPending_eq rooted with
        ⟨proposal, found, isNext, unblocked⟩ | ⟨none, blocked⟩
      · rw [found, ok_bind, bind_eq_ok_iff] at returned
        obtain ⟨valid, _, returned⟩ := returned
        cases valid with
        | false => cases returned
        | true =>
            exact ⟨core.proposals, proposal, (Except.ok.inj returned).symm, .refl _,
              .next isNext unblocked⟩
      · rw [none, ok_bind] at returned
        exact ⟨core.proposals, last, (Except.ok.inj returned).symm, .refl _, .last blocked⟩
  | succ rounds ih =>
      rw [validatedWithin, confirmed, ok_bind] at returned
      rcases highestNextPending_eq rooted with
        ⟨proposal, found, isNext, unblocked⟩ | ⟨none, blocked⟩
      · rw [found, ok_bind, bind_eq_ok_iff] at returned
        obtain ⟨valid, validity, returned⟩ := returned
        cases valid with
        | false =>
            have invalid : proposal.isValidated = false := by
              rw [hasValidContents] at validity
              split at validity
              · cases validity
              · rename_i notValidated
                exact Bool.eq_false_iff.mpr notValidated
            obtain ⟨top, next⟩ := isNext_of_some rooted.keyed rooted.confirmed isNext
            have removes := Prunes.remove next.has invalid
              (rooted.lastHash ▸ rooted.next_ne isNext)
            have removedRooted : (core.withProposals
                (core.proposals.remove proposal.hash)).proposals.Rooted last :=
              removes.rooted rooted
            obtain ⟨pruned, current, resultEq, prunes, isCurrent⟩ := ih removedRooted returned
              (ProposalCache.lastConfirmedProposal_eq removedRooted.confirmed)
            exact ⟨pruned, current, resultEq, removes.trans prunes, isCurrent⟩
        | true =>
            exact ⟨core.proposals, proposal, (Except.ok.inj returned).symm, .refl _,
              .next isNext unblocked⟩
      · rw [none, ok_bind] at returned
        exact ⟨core.proposals, last, (Except.ok.inj returned).symm, .refl _, .last blocked⟩

/-- The current proposal is valid, so that asking for it changes nothing. -/
structure Settled (core : SolidCore P S) (last current : Proposal P S) : Prop where
  rooted : core.proposals.Rooted last
  isCurrent : IsCurrent core last current
  validated : current.isValidated = true

namespace Settled

omit [DecidableEq P] in
theorem has (settled : Settled core last current) : core.proposals.Has current :=
  settled.isCurrent.has settled.rooted

omit [DecidableEq P] in
theorem write {changed : Proposal P S} (settled : Settled core last current)
    (sameHash : changed.hash = current.hash) (sameManifest : changed.manifest = current.manifest)
    (validated : changed.isValidated = true)
    (more : ∀ proposal, Blocked core.limit current proposal →
      Blocked core.limit changed proposal) :
    Settled (core.write current.hash changed) (changeAt current.hash changed last) changed where
  rooted := settled.rooted.write settled.has sameHash sameManifest
  isCurrent := by
    apply settled.isCurrent.write settled.rooted sameHash sameManifest
    rintro rfl
    exact more
  validated := validated

theorem validatedWithin_eq (settled : Settled core last current) (rounds : Nat) :
    core.validatedWithin digests rounds = .ok (core, current.hash) := by
  have confirmed := ProposalCache.lastConfirmedProposal_eq settled.rooted.confirmed
  have valid : core.hasValidContents digests last current = .ok true := by
    rw [hasValidContents, if_pos settled.validated]
    rfl
  have pending := highestNextPending_eq settled.rooted
  cases settled.isCurrent with
  | next found unblocked =>
      rcases pending with ⟨proposal, pending, isNext, _⟩ | ⟨_, blocked⟩
      · obtain rfl := Option.some.inj (Except.ok.inj (found.symm.trans isNext))
        have stays : ∀ rest : Bool → Except String (SolidCore P S × ProposalHash),
            (core.hasValidContents digests last current >>= rest) = rest true := by
          intro rest
          rw [valid, ok_bind]
        cases rounds <;>
          (rw [validatedWithin, confirmed, ok_bind, pending, ok_bind]; exact stays _)
      · exact absurd (blocked current found) unblocked
  | last blocked =>
      rcases pending with ⟨proposal, _, isNext, unblocked⟩ | ⟨pending, _⟩
      · exact absurd (blocked proposal isNext) unblocked
      · cases rounds <;> rw [validatedWithin, confirmed, ok_bind, pending] <;> rfl

theorem validatedCurrentProposal_eq (settled : Settled core last current) :
    core.validatedCurrentProposal digests = .ok (core, current) := by
  have marked : { current with isValidated := true } = current := by
    rw [← settled.validated]
  have unchanged : core.write current.hash current = core := by
    rw [SolidCore.write, ProposalCache.write_self settled.has]
  have has : core.proposals.get current.hash = some current := settled.has
  rw [validatedCurrentProposal, validatedCurrentProposalHash, settled.validatedWithin_eq, ok_bind]
  dsimp only
  rw [has]
  dsimp only
  rw [marked, unchanged]
  rfl

end Settled

/-- Asking for the current proposal removes invalid ones and marks it as valid. -/
theorem validatedCurrentProposal_spec (rooted : core.proposals.Rooted last)
    {result : SolidCore P S × Proposal P S}
    (returned : core.validatedCurrentProposal digests = .ok result) :
    ∃ pruned found, core.proposals.Prunes pruned ∧ pruned.Has found ∧
      result.2 = { found with isValidated := true } ∧
      result.1 = core.withProposals (pruned.write found.hash result.2) ∧
      Settled result.1 (changeAt found.hash result.2 last) result.2 := by
  rw [validatedCurrentProposal, bind_eq_ok_iff] at returned
  obtain ⟨⟨settledCore, hash⟩, validated, returned⟩ := returned
  obtain ⟨pruned, found, pairEq, prunes, isCurrent⟩ := validatedWithin_spec rooted validated
  obtain ⟨rfl, rfl⟩ := Prod.mk.inj pairEq
  have rootedPruned : (core.withProposals pruned).proposals.Rooted last := prunes.rooted rooted
  have has : pruned.get found.hash = some found := isCurrent.has rootedPruned
  have hasCore : (core.withProposals pruned).proposals.get found.hash = some found := has
  dsimp only at returned
  rw [hasCore] at returned
  obtain rfl := Except.ok.inj returned
  refine ⟨pruned, found, prunes, has, rfl, rfl, ?_⟩
  exact {
    rooted := rootedPruned.write has rfl rfl
    isCurrent := isCurrent.write rootedPruned rfl rfl (by
      rintro rfl _ blocked
      exact blocked)
    validated := rfl }

/-- What a node sends: an accept for its current proposal, with skips that it records. -/
theorem nextAccept_spec (rooted : core.proposals.Rooted last) {skip : Bool}
    {result : SolidCore P S × ProposalAccept P}
    (returned : core.nextAccept digests skip = .ok result) :
    ∃ middle current, core.validatedCurrentProposal digests = .ok (middle, current) ∧
      result.1 = middle.write current.hash
        { current with skipsSent := result.2.skips, initialAcceptSent := true } ∧
      result.2.proposal = ⟨current.hash, current.height, current.skips⟩ ∧
      result.2.fromPeer = core.localPeerSigner.peer ∧
      current.skipsSent ≤ result.2.skips ∧
      current.manifest.content.getLeaderForSkip digests result.2.skips = .ok result.2.leaderId ∧
      result.2.signature =
        core.localPeerSigner.sign (acceptSigHash digests result.2.proposal result.2.skips) := by
  rw [nextAccept, bind_eq_ok_iff] at returned
  obtain ⟨⟨middle, current⟩, validated, returned⟩ := returned
  obtain ⟨pruned, found, _, _, _, coreEq, settled⟩ :=
    validatedCurrentProposal_spec rooted validated
  have sameSigner : middle.localPeerSigner = core.localPeerSigner := by
    rw [show middle = _ from coreEq]
    rfl
  dsimp only at returned
  rw [settled.validatedCurrentProposal_eq, ok_bind, bind_eq_ok_iff] at returned
  obtain ⟨leader, isLeader, returned⟩ := returned
  obtain rfl := Except.ok.inj returned
  exact ⟨middle, current, validated, rfl, rfl, rfl, Proposal.skipsSent_le_nextAcceptSkip skip,
    isLeader, congrArg (PeerSigner.sign · _) sameSigner⟩

end SolidCore

end Ciphera.Solid
