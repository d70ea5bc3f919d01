import Ciphera.Solid.Total

/-!
# Commits without validation

The contents of a proposal are validated before a node accepts it, but not before the node
confirms it.  Two proposals on top of the last confirmed one are enough to make the node
confirm the first of them: whether the application finds them valid, who leads and who has
signed the accepts plays no part.
-/

namespace Ciphera.Solid

open Ciphera.Lib

variable {P S : Type} [Peer P] [DecidableEq P] {digests : Digests} {app : App P S}
  {limit : AcceptThreshold} {initial : Manifest P S} {core : SolidCore P S}
  {last : Proposal P S}

namespace ProposalCache

variable {cache : ProposalCache P S} {proposal child : Proposal P S}

omit [DecidableEq P] in
/-- Two proposals on top of the last confirmed one, higher than all others, are next. -/
theorem nextPendingProposal_of_highest (rooted : cache.Rooted last) (has : cache.Has proposal)
    (link : proposal.lastHash = last.hash) (higher : proposal.height = last.height + 1)
    (hasChild : cache.Has child) (childLink : child.lastHash = proposal.hash)
    (childHigher : child.height = proposal.height + 1)
    (highest : ∀ other, cache.Has other → other.height < child.height ∨ other = child) :
    cache.nextPendingProposal 0 = .ok (some proposal) ∧
      cache.nextPendingProposal 1 = .ok (some child) := by
  have found : cache.get child.lastHash = some proposal := childLink ▸ has
  have candidate : cache.Candidate last child := by
    refine ⟨hasChild, by omega, .next found childHigher.symm (.next ?_ higher.symm (.here rfl))⟩
    rw [link]
    exact rooted.has
  have isChild : ∀ {offset top next}, cache.IsNext last offset top next → top = child := by
    intro offset top next isNext
    have atLeast := height_le_of_rank_le (isNext.highest child candidate)
    exact (highest top isNext.candidate.1).resolve_left (Nat.not_lt.mpr atLeast)
  constructor
  · rcases nextPendingProposal_cases rooted.keyed rooted.confirmed 0 with
      ⟨_, low⟩ | ⟨top, next, isSome, isNext⟩
    · have isLow := low child candidate
      omega
    · obtain rfl := isChild isNext
      have walked := isNext.walked
      rw [Nat.add_zero, ← higher, childHigher, descend, if_pos (by omega), found] at walked
      dsimp only at walked
      rw [descend_self (le_refl _)] at walked
      rw [isSome, Option.some.inj walked]
  · rcases nextPendingProposal_cases rooted.keyed rooted.confirmed 1 with
      ⟨_, low⟩ | ⟨top, next, isSome, isNext⟩
    · have isLow := low child candidate
      omega
    · obtain rfl := isChild isNext
      have walked := isNext.walked
      rw [← higher, ← childHigher, descend_self (le_refl _)] at walked
      rw [isSome, Option.some.inj walked]

end ProposalCache

variable [Std.TransOrd P] [Std.LawfulEqOrd P]

/-- A checked proposal that is new and high enough is taken in. -/
theorem Sound.takesIn (sound : Sound digests app limit initial core last)
    {manifest : Manifest P S} (checked : Checked digests app limit manifest)
    (manned : manifest.content.validators ≠ [])
    (unknown : core.proposals.get (app.hash manifest.content) = none)
    (higher : last.height < manifest.content.height) :
    ∃ next proposal, core.receiveProposal digests manifest = .ok (next, .ok ()) ∧
      Sound digests app limit initial next last ∧ proposal.manifest = manifest ∧
      proposal.hash = app.hash manifest.content ∧
      next.proposals = core.proposals.insert proposal := by
  let fresh := Proposal.new core.app digests manifest
  have freshHash : fresh.hash = app.hash manifest.content := by
    rw [← sound.app_eq]
    rfl
  obtain ⟨proposal, adoptedEq⟩ : Succeeds (SolidCore.adoptOrphans digests core.limit
      (core.orphanAccepts.lookup fresh.hash) fresh) := Sound.succeeds_adoptOrphans manned _
  have adopted : Relation.ReflTransGen (Stores digests) fresh proposal :=
    Sound.stores_of_adoptOrphans (fun orphan found => sound.orphans _ orphan found) adoptedEq
  obtain ⟨hashEq, manifestEq, _⟩ := Stores.adopted (.of_new _ _ _) adopted
  have valid : fresh.validateStructure digests core.app core.limit = .ok () := by
    rw [sound.limit_eq]
    have isChecked := checked
    rwa [Checked, ← sound.app_eq] at isChecked
  have isUnknown : core.proposals.contains fresh.hash = false := by
    rw [ProposalCache.contains, freshHash, unknown]
    rfl
  have notLow : ¬last.height ≥ fresh.height := Nat.not_le.mpr higher
  let maxHeight := if fresh.height > core.maxHeight then fresh.height else core.maxHeight
  refine ⟨_, proposal, ?_, sound.insert valid adopted ?_ maxHeight, manifestEq,
    hashEq.trans freshHash, ?_⟩
  · rw [SolidCore.receiveProposal]
    dsimp only
    rw [show Proposal.validateStructure _ _ _ _ = .ok () from valid, orFail,
      if_neg (Bool.eq_false_iff.mp isUnknown), SolidCore.height,
      ProposalCache.height_eq sound.rooted.confirmed, ok_bind, if_neg notLow, adoptedEq, ok_bind]
    rfl
  · rw [hashEq, freshHash]
    exact unknown
  · rfl

omit [Std.TransOrd P] [Std.LawfulEqOrd P] in
/-- With two proposals pending the next event is a commit. -/
theorem Sound.nextEvent_eq_commit (sound : Sound digests app limit initial core last)
    {proposal child : Proposal P S}
    (found : core.proposals.nextPendingProposal 0 = .ok (some proposal))
    (foundAfter : core.proposals.nextPendingProposal 1 = .ok (some child)) (now : Nat) :
    ∃ next, core.nextEvent digests now =
      .ok (next, some (.commit proposal.manifest child.manifest)) := by
  obtain ⟨top, isNext⟩ :=
    ProposalCache.isNext_of_some sound.rooted.keyed sound.rooted.confirmed found
  obtain ⟨confirmed, confirmedEq, _⟩ := ProposalCache.exists_confirm isNext.has
  refine ⟨{ core with proposals := confirmed }, ?_⟩
  rw [SolidCore.nextEvent, SolidCore.committable, found, ok_bind]
  dsimp only
  rw [foundAfter, ok_bind]
  change (core.proposals.confirm (core.app.hash proposal.manifest.content) >>= _) = _
  rw [sound.app_eq, ← (sound.known proposal isNext.has).1, confirmedEq]
  rfl

/-- Two checked proposals, one on top of the other, are all that it takes to make a node
confirm the first of them.  Neither is validated by the application. -/
theorem Sound.confirms_unvalidated (sound : Sound digests app limit initial core last)
    {manifest confirmedBy : Manifest P S}
    (checked : Checked digests app limit manifest)
    (checkedBy : Checked digests app limit confirmedBy)
    (onTop : OnTop app last.manifest manifest) (onTopBy : OnTop app manifest confirmedBy)
    (mannedManifest : manifest.content.validators ≠ [])
    (mannedBy : confirmedBy.content.validators ≠ [])
    (unknown : core.proposals.get (app.hash manifest.content) = none)
    (unknownBy : core.proposals.get (app.hash confirmedBy.content) = none)
    (differ : app.hash confirmedBy.content ≠ app.hash manifest.content)
    (highest : ∀ other, core.proposals.Has other → other.height < confirmedBy.content.height)
    (now : Nat) :
    ∃ first second third,
      core.receiveProposal digests manifest = .ok (first, .ok ()) ∧
      first.receiveProposal digests confirmedBy = .ok (second, .ok ()) ∧
      second.nextEvent digests now = .ok (third, some (.commit manifest confirmedBy)) := by
  have lastHash : last.hash = app.hash last.manifest.content :=
    (sound.known last sound.rooted.has).1
  have height : manifest.content.height = last.height + 1 := onTop.2
  have heightBy : confirmedBy.content.height = manifest.content.height + 1 := onTopBy.2
  obtain ⟨first, proposal, received, firstSound, isManifest, hashEq, firstCache⟩ :=
    sound.takesIn checked mannedManifest unknown (by omega)
  have unknownThen : first.proposals.get (app.hash confirmedBy.content) = none := by
    rw [firstCache, ProposalCache.get_insert, hashEq, if_neg differ]
    exact unknownBy
  obtain ⟨second, child, receivedBy, secondSound, isBy, hashBy, secondCache⟩ :=
    firstSound.takesIn checkedBy mannedBy unknownThen (by omega)
  have proposalHeight : proposal.height = last.height + 1 := by
    rw [Proposal.height, isManifest, height]
  have childHeight : child.height = proposal.height + 1 := by
    rw [Proposal.height, isBy, heightBy, Proposal.height, isManifest]
  have cached : ∀ hash, second.proposals.get hash =
      if hash = child.hash then some child
      else if hash = proposal.hash then some proposal else core.proposals.get hash := by
    intro hash
    rw [secondCache, ProposalCache.get_insert, firstCache, ProposalCache.get_insert]
  have has : second.proposals.Has proposal := by
    rw [ProposalCache.Has, cached, if_neg, if_pos rfl]
    rw [hashEq, hashBy]
    exact differ.symm
  have hasChild : second.proposals.Has child := by
    rw [ProposalCache.Has, cached, if_pos rfl]
  have isHighest : ∀ other, second.proposals.Has other →
      other.height < child.height ∨ other = child := by
    intro other hasOther
    rw [ProposalCache.Has, cached] at hasOther
    split at hasOther
    · exact .inr (Option.some.inj hasOther).symm
    · apply Or.inl
      split at hasOther
      · rw [← Option.some.inj hasOther, childHeight]
        exact Nat.lt_succ_self _
      · have isLower := highest other hasOther
        rw [← isBy] at isLower
        exact isLower
  have link : proposal.lastHash = last.hash := by
    rw [Proposal.lastHash, isManifest, onTop.1, lastHash]
  have childLink : child.lastHash = proposal.hash := by
    rw [Proposal.lastHash, isBy, onTopBy.1, hashEq]
  obtain ⟨found, foundAfter⟩ := ProposalCache.nextPendingProposal_of_highest secondSound.rooted has
    link proposalHeight hasChild childLink childHeight isHighest
  obtain ⟨third, returned⟩ := secondSound.nextEvent_eq_commit found foundAfter now
  rw [isManifest, isBy] at returned
  exact ⟨first, second, third, received, receivedBy, returned⟩

/-- At any time two checked proposals on top of what a node has confirmed last make it confirm
the first one, although nobody has validated it. -/
theorem commits_unvalidated {localPeerSigner : PeerSigner P} {config : SolidConfig}
    {calls : Set (Call P S)} {events : List (Option (SolidEvent P S))}
    (run : Run (SolidCore.Acts digests calls)
      (SolidCore.withLastConfirmed digests localPeerSigner initial app config) events core)
    {confirmed manifest confirmedBy : Manifest P S}
    (isLast : (initial :: (commits events).map Prod.fst).getLast? = some confirmed)
    (checked : Checked digests app config.acceptThreshold manifest)
    (checkedBy : Checked digests app config.acceptThreshold confirmedBy)
    (onTop : OnTop app confirmed manifest) (onTopBy : OnTop app manifest confirmedBy)
    (manned : manifest.content.validators ≠ []) (mannedBy : confirmedBy.content.validators ≠ [])
    (unknown : core.proposals.get (app.hash manifest.content) = none)
    (unknownBy : core.proposals.get (app.hash confirmedBy.content) = none)
    (differ : app.hash confirmedBy.content ≠ app.hash manifest.content)
    (highest : ∀ other, core.proposals.Has other → other.height < confirmedBy.content.height)
    (now : Nat) :
    ∃ first second third,
      core.receiveProposal digests manifest = .ok (first, .ok ()) ∧
      first.receiveProposal digests confirmedBy = .ok (second, .ok ()) ∧
      second.nextEvent digests now = .ok (third, some (.commit manifest confirmedBy)) := by
  obtain ⟨last, known⟩ := Confirmed.of_run run
  obtain rfl := Option.some.inj (known.ends.symm.trans isLast)
  exact known.sound.confirms_unvalidated checked checkedBy onTop onTopBy manned mannedBy unknown
    unknownBy differ highest now

/-- An application that finds no proposal valid. -/
def rejectingApp : App UncheckedPeerId Nat := { testApp with validateContents := fun _ _ => false }

/-- A validator whose application refuses everything. -/
def rejectingCore : SolidCore UncheckedPeerId Nat :=
  .withLastConfirmed testDigests (insecurePeerSigner [1]) (testManifest 0) rejectingApp {}

/-- Its node sends an accept, receives a proposal, and removes it as invalid. -/
def rejectingCalls : List (Call UncheckedPeerId Nat) :=
  [.nextEvent, .receiveAccept (testAccept 0 [2]), .receiveProposal (testManifest 1), .nextEvent]

/-- Together with another one the node confirms that proposal all the same. -/
theorem commits_unvalidated_of_rejecting :
    ∃ events core first second third,
      rejectingCore.callAll testDigests 0 rejectingCalls = .ok (core, events) ∧
      core.proposals.get (testApp.hash (testManifest 1).content) = none ∧
      core.receiveProposal testDigests (testManifest 1) = .ok (first, .ok ()) ∧
      first.receiveProposal testDigests (testManifest 2) = .ok (second, .ok ()) ∧
      second.nextEvent testDigests 0 = .ok (third, some (.commit (testManifest 1)
        (testManifest 2))) := by
  have evaluated : (rejectingCore.callAll testDigests 0 rejectingCalls).map (fun result =>
      ((commits result.2).length, result.1.proposals.contains 2, result.1.proposals.contains 3,
        result.1.proposals.values.map Proposal.height)) = .ok (0, false, false, [0]) := by
    decide +kernel
  obtain ⟨⟨core, events⟩, returned, resultEq⟩ := map_eq_ok_iff.mp evaluated
  obtain ⟨few, rest⟩ := Prod.mk.inj resultEq
  obtain ⟨removed, rest⟩ := Prod.mk.inj rest
  obtain ⟨absent, heights⟩ := Prod.mk.inj rest
  have noCommits : commits events = [] := List.length_eq_zero_iff.mp few
  have run : Run (SolidCore.Acts testDigests Set.univ) rejectingCore events core :=
    SolidCore.run_of_callAll (fun call _ => Set.mem_univ call) returned
  have unknown_of : ∀ {hash}, core.proposals.contains hash = false →
      core.proposals.get hash = none := by
    intro hash isAbsent
    rwa [ProposalCache.contains, Option.isSome_eq_false_iff, Option.isNone_iff_eq_none]
      at isAbsent
  have unknown : core.proposals.get (rejectingApp.hash (testManifest 1).content) = none :=
    unknown_of removed
  have unknownBy : core.proposals.get (rejectingApp.hash (testManifest 2).content) = none :=
    unknown_of absent
  obtain ⟨last, known⟩ := Confirmed.of_run run
  have low : ∀ other, core.proposals.Has other → other.height = 0 := by
    intro other has
    have mem := List.mem_map_of_mem (f := Proposal.height)
      ((ProposalCache.mem_values_iff known.sound.rooted.keyed).mpr has)
    rw [show core.proposals.values.map Proposal.height = [0] from heights] at mem
    exact List.mem_singleton.mp mem
  have isLast : (testManifest 0 :: (commits events).map Prod.fst).getLast? =
      some (testManifest 0) := by
    rw [noCommits]
    rfl
  have checked : Checked testDigests rejectingApp .moreThanTwoThirds (testManifest 1) := rfl
  have checkedBy : Checked testDigests rejectingApp .moreThanTwoThirds (testManifest 2) := rfl
  have onTop : OnTop rejectingApp (testManifest 0) (testManifest 1) := ⟨rfl, rfl⟩
  have onTopBy : OnTop rejectingApp (testManifest 1) (testManifest 2) := ⟨rfl, rfl⟩
  have differ : rejectingApp.hash (testManifest 2).content ≠
      rejectingApp.hash (testManifest 1).content := by decide
  have highest : ∀ other, core.proposals.Has other → other.height < 2 := by
    intro other has
    rw [low other has]
    exact Nat.two_pos
  obtain ⟨first, second, third, received, receivedBy, committed⟩ :=
    commits_unvalidated run isLast checked checkedBy onTop onTopBy (List.cons_ne_nil _ _)
      (List.cons_ne_nil _ _) unknown unknownBy differ highest 0
  exact ⟨events, core, first, second, third, returned, unknown, received, receivedBy, committed⟩

end Ciphera.Solid
