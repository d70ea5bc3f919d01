import Ciphera.Solid.Tracking

/-!
# Every call follows the rules

Whatever a core is called with, it casts votes by the rules of voting with skips, proposes
only on a quorum of votes, and confirms only what has been built on.
-/

namespace Ciphera.Solid

open Ciphera.Lib
open Ciphera.Lib.SkipVoting (State Safe Step)

variable {P S : Type} [Peer P] [DecidableEq P] {app : App P S} {limit : AcceptThreshold}
  {initial : ManifestContent P S} {digests : Digests}

/-- What an event of a node that is no commit stands for: a vote that has been cast, or a
quorum of votes for a proposal that has been made, with the node as the leader after it. -/
def Justified (digests : Digests) (app : App P S) (limit : AcceptThreshold)
    (initial : ManifestContent P S) (node : P) (state : VotingState P S) :
    SolidEvent P S → Prop
  | .propose lastProposalHash height skips _ => ∃ parent ∈ state.created,
      app.hash parent = lastProposalHash ∧ height = parent.height + 1 ∧
        parent.getLeaderForSkip digests skips = .ok node ∧
        state.Quorum (voting app limit initial) lastProposalHash skips
  | .accept accept => state.voted accept.fromPeer accept.proposal.hash accept.skips
  | .commit _ _ => False
  | .outOfSync _ _ => True
  | .duplicateProposal _ => True

/-- What comes of a call that does not commit: some votes, which the core keeps track of, and
perhaps a justified event. -/
def Proceeds (digests : Digests) (app : App P S) (limit : AcceptThreshold)
    (initial : ManifestContent P S) (node : P) (state : VotingState P S) (core : SolidCore P S)
    (event : Option (SolidEvent P S)) : Prop :=
  ∃ last next, VotesOnly app limit initial node state next ∧
    Tracks app limit initial node core last next ∧
    ∀ happened, event = some happened → Justified digests app limit initial node next happened

omit [DecidableEq P] in
/-- A call either goes on or ends with an error before it has changed anything. -/
theorem orFail_eq_ok {σ α : Type} {checked : Except (Stop Error) Unit} {state : σ}
    {rest : Except String (σ × Except Error α)} {result : σ × Except Error α}
    (returned : orFail checked state rest = .ok result) :
    checked = .ok () ∧ rest = .ok result ∨ ∃ failure, result = (state, .error failure) := by
  cases checked with
  | ok _ => exact .inl ⟨rfl, returned⟩
  | error stop =>
      cases stop with
      | error failure => exact .inr ⟨failure, (Except.ok.inj returned).symm⟩
      | panic _ => cases returned

/-- The event of a call that may fail. -/
def eventOf : Except Error (Option (SolidEvent P S)) → Option (SolidEvent P S)
  | .ok event => event
  | .error _ => none

theorem Proceeds.after {node : P} {state next : VotingState P S} {core : SolidCore P S}
    {event : Option (SolidEvent P S)}
    (proceeds : Proceeds digests app limit initial node next core event)
    (votes : VotesOnly app limit initial node state next) :
    Proceeds digests app limit initial node state core event := by
  obtain ⟨last, later, moreVotes, tracks, justified⟩ := proceeds
  exact ⟨last, later, votes.trans moreVotes, tracks, justified⟩

omit [DecidableEq P] in
/-- An accept that is held back is the new one or one that has been before. -/
theorem SolidCore.mem_orphanWith (core : SolidCore P S) {now : Nat}
    {accept stored : ProposalAccept P} (mem : stored ∈ (core.orphanWith now accept).accepts) :
    stored = accept ∨ ∃ orphan, core.orphanAccepts.lookup accept.proposal.hash = some orphan ∧
      stored ∈ orphan.accepts := by
  rw [SolidCore.orphanWith] at mem
  cases before : core.orphanAccepts.lookup accept.proposal.hash with
  | none =>
      rw [before] at mem
      exact .inl (List.mem_singleton.mp mem)
  | some orphan =>
      rw [before] at mem
      rcases List.mem_append.mp mem with earlier | isLast
      · exact .inr ⟨orphan, rfl, earlier⟩
      · exact .inl (List.mem_singleton.mp isLast)

/-- A node leads if there are enough accepts and it is the leader for their skips. -/
theorem SolidCore.leads_eq_true {core : SolidCore P S} {breached : Bool} {proposal : Proposal P S}
    {skips : Nat} (leads : core.leads digests breached proposal skips = .ok true) :
    breached = true ∧ proposal.manifest.content.getLeaderForSkip digests skips =
      .ok core.localPeerSigner.peer := by
  cases breached with
  | false => cases Except.ok.inj leads
  | true =>
      rw [SolidCore.leads, if_pos rfl, bind_eq_ok_iff] at leads
      obtain ⟨leader, found, isPeer⟩ := leads
      obtain rfl := of_decide_eq_true (Except.ok.inj isPeer)
      exact ⟨rfl, found⟩

/-- A proposal is made only if the accept has brought the accepts to the threshold. -/
theorem breached_of_addAccept {proposal : Proposal P S} {accept : ProposalAccept P}
    {result : Proposal P S × Bool}
    (returned : proposal.addAccept digests limit accept = .ok result)
    (isBreached : result.2 = true) :
    result.1.acceptThresholdBreached accept.skips limit = true := by
  rcases Proposal.addAccept_eq_ok returned with rfl | ⟨_, rfl⟩
  · cases isBreached
  · rw [Bool.and_eq_true] at isBreached
    exact isBreached.2

/-- What adding an accept leaves of a proposal. -/
structure Adds (limit : AcceptThreshold) (proposal added : Proposal P S) : Prop where
  hash : added.hash = proposal.hash
  manifest : added.manifest = proposal.manifest
  order : added.orderedValidators = proposal.orderedValidators
  validated : added.isValidated = proposal.isValidated
  skipsSent : added.skipsSent = proposal.skipsSent
  accepted : added.initialAcceptSent = proposal.initialAcceptSent
  more : ∀ skips, proposal.InverseExceeded limit skips → added.InverseExceeded limit skips

namespace Adds

variable {proposal added : Proposal P S}

omit [DecidableEq P] in
theorem refl (proposal : Proposal P S) : Adds limit proposal proposal :=
  ⟨rfl, rfl, rfl, rfl, rfl, rfl, fun _ => id⟩

omit [DecidableEq P] in
theorem trans {more : Proposal P S} (first : Adds limit proposal added)
    (second : Adds limit added more) : Adds limit proposal more where
  hash := second.hash.trans first.hash
  manifest := second.manifest.trans first.manifest
  order := second.order.trans first.order
  validated := second.validated.trans first.validated
  skipsSent := second.skipsSent.trans first.skipsSent
  accepted := second.accepted.trans first.accepted
  more skips exceeded := second.more skips (first.more skips exceeded)

omit [DecidableEq P] in
theorem withAccept [Std.TransOrd P] (proposal : Proposal P S) (accept : ProposalAccept P) :
    Adds limit proposal (proposal.withAccept accept) :=
  ⟨rfl, rfl, rfl, rfl, rfl, rfl, fun _ => Proposal.InverseExceeded.withAccept⟩

theorem of_addAccept [Std.TransOrd P] {accept : ProposalAccept P} {result : Proposal P S × Bool}
    (returned : proposal.addAccept digests limit accept = .ok result) :
    Adds limit proposal result.1 := by
  rcases Proposal.addAccept_eq_ok returned with rfl | ⟨_, rfl⟩
  · exact .refl proposal
  · exact .withAccept proposal accept

omit [DecidableEq P] in
/-- What a proposal blocks, it still blocks with more accepts. -/
theorem blocked (adds : Adds limit proposal added) {other : Proposal P S}
    (before : SolidCore.Blocked limit proposal other) : SolidCore.Blocked limit added other := by
  rcases before with ⟨skips, higher, exceeded⟩ | fewer
  · exact .inl ⟨skips, higher, adds.more skips exceeded⟩
  · exact .inr (adds.skipsSent.symm ▸ fewer)

end Adds

omit [DecidableEq P] in
/-- The current proposal stays settled when accepts are stored with it. -/
theorem SolidCore.Settled.writeAdded {core : SolidCore P S} {last current added : Proposal P S}
    (settled : SolidCore.Settled core last current) (adds : Adds core.limit current added) :
    SolidCore.Settled (core.write current.hash added)
      (ProposalCache.changeAt current.hash added last) added :=
  settled.write adds.hash adds.manifest (adds.validated.trans settled.validated)
    fun _ => adds.blocked

/-- An accept that is a vote is stored with its proposal. -/
theorem Backed.addAccept [Std.TransOrd P] [Std.LawfulEqOrd P] {state : VotingState P S}
    {proposal : Proposal P S} (backed : Backed initial state proposal)
    (validatorsEq : proposal.manifest.content.validators = initial.validators)
    {accept : ProposalAccept P}
    (voted : state.voted accept.fromPeer proposal.hash accept.skips)
    {result : Proposal P S × Bool}
    (returned : proposal.addAccept digests limit accept = .ok result) :
    Backed initial state result.1 := by
  rcases Proposal.addAccept_eq_ok returned with rfl | ⟨valid, rfl⟩
  · exact backed
  · obtain ⟨_, _, isValidator⟩ := Proposal.validateAccept_eq_ok_iff.mp valid
    rw [validatorsEq] at isValidator
    intro skips peer stored found
    rw [Proposal.getElem?_acceptsAt_withAccept] at found
    split at found
    · rename_i same
      obtain ⟨rfl, rfl⟩ := same
      exact ⟨isValidator, voted⟩
    · exact backed skips peer stored found

omit [DecidableEq P] in
/-- There are no accepts for a new proposal. -/
theorem Backed.of_new [Std.TransOrd P] (digests : Digests) (manifest : Manifest P S)
    {state : VotingState P S} :
    Backed initial state (Proposal.new app digests manifest) := by
  intro skips peer accept stored
  have none : ((∅ : Std.TreeMap Nat (Std.TreeMap P (ProposalAccept P))).getD skips ∅)[peer]? =
      some accept := stored
  rw [Std.TreeMap.getD_emptyc, Std.TreeMap.getElem?_emptyc] at none
  cases none

/-- Accepts that came before their proposal are stored with it. -/
theorem Backed.adoptOrphans [Std.TransOrd P] [Std.LawfulEqOrd P] {state : VotingState P S}
    {proposal : Proposal P S} (backed : Backed initial state proposal)
    (validatorsEq : proposal.manifest.content.validators = initial.validators)
    {orphan : Option (ProposalOrphan P)}
    (voted : ∀ stored, orphan = some stored → ∀ accept ∈ stored.accepts,
      state.voted accept.fromPeer proposal.hash accept.skips)
    {result : Proposal P S}
    (returned : SolidCore.adoptOrphans digests limit orphan proposal = .ok result) :
    Adds limit proposal result ∧ Backed initial state result := by
  rw [SolidCore.adoptOrphans.eq_def] at returned
  cases orphan with
  | none =>
      obtain rfl := Except.ok.inj returned
      exact ⟨.refl _, backed⟩
  | some orphan =>
      have allVoted := voted orphan rfl
      dsimp only at returned
      clear voted
      generalize orphan.accepts = accepts at returned allVoted
      induction accepts generalizing proposal with
      | nil =>
          obtain rfl := Except.ok.inj returned
          exact ⟨.refl _, backed⟩
      | cons accept accepts ih =>
          rw [List.foldlM_cons, bind_eq_ok_iff] at returned
          obtain ⟨added, addedEq, returned⟩ := returned
          rw [bind_eq_ok_iff] at addedEq
          obtain ⟨⟨stored, breached⟩, storedEq, addedEq⟩ := addedEq
          obtain rfl := Except.ok.inj addedEq
          have adds : Adds limit proposal stored := .of_addAccept storedEq
          have backedStored : Backed initial state stored :=
            backed.addAccept validatorsEq (allVoted accept List.mem_cons_self) storedEq
          obtain ⟨addsRest, backedRest⟩ := ih backedStored (adds.manifest ▸ validatorsEq) returned
            (by
              intro later mem
              rw [adds.hash]
              exact allVoted later (List.mem_cons_of_mem _ mem))
          exact ⟨adds.trans addsRest, backedRest⟩

namespace Tracks

open SolidCore (Settled)

variable {node : P} {core : SolidCore P S} {last current : Proposal P S}
  {state : VotingState P S}

theorem validatedCurrentProposal (tracks : Tracks app limit initial node core last state)
    {result : SolidCore P S × Proposal P S}
    (returned : core.validatedCurrentProposal digests = .ok result) :
    ∃ settledLast, Tracks app limit initial node result.1 settledLast state ∧
      Settled result.1 settledLast result.2 := by
  obtain ⟨pruned, found, prunes, has, marked, coreEq, settled⟩ :=
    SolidCore.validatedCurrentProposal_spec tracks.rooted returned
  refine ⟨_, ?_, settled⟩
  rw [coreEq, marked]
  have backed := (tracks.prune prunes).backed found has
  exact (tracks.prune prunes).write has rfl rfl rfl (fun _ => rfl) (le_refl _) rfl rfl
    (fun _ _ _ voted => voted) (fun _ _ voted => .inl voted) backed
    fun positive => (tracks.prune prunes).sent found has positive

variable [Std.TransOrd P] [Std.LawfulEqOrd P]

/-- The next accept of a node is a vote. -/
theorem nextAccept (tracks : Tracks app limit initial node core last state)
    (safe : Safe (voting app limit initial) state) {skip : Bool}
    {result : SolidCore P S × ProposalAccept P}
    (returned : core.nextAccept digests skip = .ok result) :
    ∃ last next, VotesOnly app limit initial node state next ∧
      Tracks app limit initial node result.1 last next ∧
      next.voted result.2.fromPeer result.2.proposal.hash result.2.skips := by
  obtain ⟨middle, current, validated, coreEq, headerEq, peerEq, skipsLe, _⟩ :=
    SolidCore.nextAccept_spec tracks.rooted returned
  obtain ⟨settledLast, settledTracks, settled⟩ := tracks.validatedCurrentProposal validated
  obtain ⟨votes, voted⟩ := settledTracks.vote safe settled skipsLe
  rw [← coreEq] at voted
  refine ⟨_, _, votes, voted, .inl ⟨?_, ?_, rfl⟩⟩
  · rw [peerEq, tracks.peer]
  · rw [headerEq]

omit [Std.TransOrd P] [Std.LawfulEqOrd P] [DecidableEq P] in
/-- An accept for a proposal that is not known is kept. -/
theorem keepOrphan (tracks : Tracks app limit initial node core last state) (now : Nat)
    {accept : ProposalAccept P}
    (voted : state.voted accept.fromPeer accept.proposal.hash accept.skips) :
    Tracks app limit initial node
      { core with
        orphanAccepts := core.orphanAccepts.insert accept.proposal.hash
          (core.orphanWith now accept) }
      last state where
  peer := tracks.peer
  app_eq := tracks.app_eq
  limit_eq := tracks.limit_eq
  rooted := tracks.rooted
  confirmed := tracks.confirmed
  known := tracks.known
  backed := tracks.backed
  orphans hash other found stored mem := by
    by_cases same : hash = accept.proposal.hash
    · subst same
      rw [AList.lookup_insert] at found
      obtain rfl := Option.some.inj found
      rcases core.mem_orphanWith mem with rfl | ⟨before, isBefore, earlier⟩
      · exact ⟨rfl, voted⟩
      · exact tracks.orphans _ before isBefore stored earlier
    · rw [AList.lookup_insert_ne same] at found
      exact tracks.orphans hash other found stored mem
  recorded := tracks.recorded
  sent := tracks.sent

omit [Std.TransOrd P] [Std.LawfulEqOrd P] in
/-- A node may say that it lags behind without having voted. -/
theorem proceeds (tracks : Tracks app limit initial node core last state)
    {event : Option (SolidEvent P S)}
    (silent : ∀ happened, event = some happened →
      ∃ height seen, happened = .outOfSync height seen) :
    Proceeds digests app limit initial node state core event := by
  refine ⟨last, state, .refl state, tracks, ?_⟩
  intro happened isEvent
  obtain ⟨height, seen, rfl⟩ := silent happened isEvent
  trivial

omit [Std.TransOrd P] [Std.LawfulEqOrd P] in
theorem addOrphan (tracks : Tracks app limit initial node core last state) {now : Nat}
    {accept : ProposalAccept P}
    (voted : state.voted accept.fromPeer accept.proposal.hash accept.skips)
    {result : SolidCore P S × Option (SolidEvent P S)}
    (returned : core.addOrphan digests now accept = .ok result) :
    Proceeds digests app limit initial node state result.1 result.2 := by
  rw [SolidCore.addOrphan] at returned
  dsimp only at returned
  rw [bind_eq_ok_iff] at returned
  obtain ⟨⟨settledCore, current⟩, validated, returned⟩ := returned
  obtain ⟨settledLast, settledTracks, _⟩ :=
    (tracks.keepOrphan now voted).validatedCurrentProposal validated
  dsimp only at returned settledTracks
  split at returned
  · rw [bind_eq_ok_iff] at returned
    obtain ⟨height, _, returned⟩ := returned
    obtain rfl := Except.ok.inj returned
    exact settledTracks.proceeds fun _ isEvent => ⟨_, _, (Option.some.inj isEvent).symm⟩
  · obtain rfl := Except.ok.inj returned
    exact settledTracks.proceeds fun _ otherwise => absurd otherwise (Option.some_ne_none _).symm

omit [Std.TransOrd P] [Std.LawfulEqOrd P] [DecidableEq P] in
/-- The core keeps track when votes are stored with a proposal. -/
theorem writeAdded (tracks : Tracks app limit initial node core last state)
    {proposal added : Proposal P S} (has : core.proposals.Has proposal)
    (adds : Adds limit proposal added) (backed : Backed initial state added) :
    Tracks app limit initial node (core.write proposal.hash added)
      (ProposalCache.changeAt proposal.hash added last) state := by
  apply tracks.write has adds.hash adds.manifest adds.order
    (fun valid => adds.validated.trans valid) (le_of_eq adds.skipsSent.symm) rfl rfl
    (fun _ _ _ => id) (fun _ _ => .inl) backed
  intro positive
  rw [adds.skipsSent] at positive ⊢
  exact tracks.sent proposal has positive

/-- A node proposes on the accept that brings a quorum of votes, as the leader after them. -/
theorem justified_propose (tracks : Tracks app limit initial node core last state)
    {proposal added : Proposal P S} (has : core.proposals.Has proposal)
    (adds : Adds limit proposal added) (backed : Backed initial state added) {breached : Bool}
    {accept : ProposalAccept P}
    (addedEq : proposal.addAccept digests limit accept = .ok (added, breached))
    (leads : core.leads digests breached added accept.skips = .ok true)
    (accepts : List (ProposalAccept P)) :
    Justified digests app limit initial node state
      (.propose proposal.hash (added.height + 1) accept.skips accepts) := by
  obtain ⟨keyEq, created, _, lengthEq⟩ := tracks.known proposal has
  obtain ⟨isBreached, isLeader⟩ := SolidCore.leads_eq_true leads
  have quorum : state.Quorum (voting app limit initial) added.hash accept.skips :=
    backed.quorum (adds.order ▸ lengthEq) (breached_of_addAccept addedEq isBreached)
  rw [adds.hash] at quorum
  refine ⟨proposal.manifest.content, created, keyEq.symm, ?_, ?_, quorum⟩
  · rw [Proposal.height, adds.manifest]
  · rw [← adds.manifest, isLeader]
    exact congrArg Except.ok tracks.peer

/-- Adding an accept that is a vote, if what follows a raise of the skips proceeds. -/
theorem addAcceptThen (tracks : Tracks app limit initial node core last state)
    {next : SolidCore P S → Except String (SolidCore P S × Option (SolidEvent P S))}
    (continues : ∀ (middle : SolidCore P S) (middleLast current : Proposal P S) (skips : Nat)
      (result : SolidCore P S × Option (SolidEvent P S)),
      Tracks app limit initial node middle middleLast state → Settled middle middleLast current →
      current.skipsSent < skips →
      next (middle.write current.hash { current with skipsSent := skips }) = .ok result →
      Proceeds digests app limit initial node state result.1 result.2)
    {now : Nat} {accept : ProposalAccept P}
    (voted : state.voted accept.fromPeer accept.proposal.hash accept.skips)
    {result : SolidCore P S × Option (SolidEvent P S)}
    (returned : core.addAcceptThen digests next now accept = .ok result) :
    Proceeds digests app limit initial node state result.1 result.2 := by
  rw [SolidCore.addAcceptThen, bind_eq_ok_iff] at returned
  obtain ⟨height, _, returned⟩ := returned
  split at returned
  · obtain rfl := Except.ok.inj returned
    exact tracks.proceeds fun _ otherwise => absurd otherwise (Option.some_ne_none _).symm
  rw [bind_eq_ok_iff] at returned
  obtain ⟨outOfSync, _, returned⟩ := returned
  rw [bind_eq_ok_iff] at returned
  obtain ⟨⟨settledCore, current⟩, validated, returned⟩ := returned
  obtain ⟨settledLast, settledTracks, settled⟩ := tracks.validatedCurrentProposal validated
  dsimp only at returned settledTracks settled
  split at returned
  · exact settledTracks.addOrphan voted returned
  rename_i proposal found
  have has := settledTracks.rooted.keyed.has found
  have hashEq : accept.proposal.hash = proposal.hash :=
    (settledTracks.rooted.keyed _ _ found).symm
  rw [bind_eq_ok_iff, settledTracks.limit_eq] at returned
  obtain ⟨⟨added, breached⟩, addedEq, returned⟩ := returned
  obtain ⟨_, _, validatorsEq, _⟩ := settledTracks.known proposal has
  rw [hashEq] at voted
  have adds : Adds limit proposal added := .of_addAccept addedEq
  have backed : Backed initial state added :=
    (settledTracks.backed proposal has).addAccept validatorsEq voted addedEq
  dsimp only at returned
  rw [bind_eq_ok_iff, hashEq] at returned
  obtain ⟨leads, leadsEq, returned⟩ := returned
  have written : Tracks app limit initial node (settledCore.write proposal.hash added)
      (ProposalCache.changeAt proposal.hash added settledLast) state :=
    settledTracks.writeAdded has adds backed
  split at returned
  · -- the node leads, and its proposal has a quorum
    rename_i propose
    rw [Bool.and_eq_true] at propose
    rw [propose.1] at leadsEq
    obtain rfl := Except.ok.inj returned
    refine ⟨_, state, .refl state, written, ?_⟩
    intro happened isEvent
    obtain rfl := Option.some.inj isEvent
    exact settledTracks.justified_propose has adds backed addedEq leadsEq _
  · split at returned
    · -- a higher skip for the current proposal makes the node follow
      rename_i higher
      obtain ⟨isCurrent, higher⟩ := higher
      have currentEq : current = proposal := by
        have hasCurrent := settled.has
        rw [ProposalCache.Has, isCurrent, has] at hasCurrent
        exact (Option.some.inj hasCurrent).symm
      subst currentEq
      have settledAdded : Settled (settledCore.write current.hash added)
          (ProposalCache.changeAt current.hash added settledLast) added :=
        settled.writeAdded (settledTracks.limit_eq ▸ adds)
      rw [← adds.hash] at returned written settledAdded
      exact continues _ _ added _ result written settledAdded higher returned
    · obtain rfl := Except.ok.inj returned
      exact written.proceeds fun _ otherwise => absurd otherwise (Option.some_ne_none _).symm

/-- A core that has just raised the skips of its current proposal votes for it. -/
theorem nextAccept_raised (tracks : Tracks app limit initial node core last state)
    (safe : Safe (voting app limit initial) state) (settled : Settled core last current)
    {skips : Nat} (higher : current.skipsSent < skips) {result : SolidCore P S × ProposalAccept P}
    (returned : (core.write current.hash { current with skipsSent := skips }).nextAccept digests
      false = .ok result) :
    ∃ last next, VotesOnly app limit initial node state next ∧
      Tracks app limit initial node result.1 last next ∧
      next.voted result.2.fromPeer result.2.proposal.hash result.2.skips := by
  have raised : Settled (core.write current.hash { current with skipsSent := skips })
      (ProposalCache.changeAt current.hash { current with skipsSent := skips } last)
      { current with skipsSent := skips } :=
    settled.write rfl rfl settled.validated (by
      rintro proposal (exceeded | fewer)
      · exact .inl exceeded
      · exact .inr (Nat.lt_trans fewer higher))
  obtain ⟨middle, settledCurrent, validated, coreEq, headerEq, peerEq, skipsLe, _⟩ :=
    SolidCore.nextAccept_spec raised.rooted returned
  obtain ⟨rfl, rfl⟩ := Prod.mk.inj
    (Except.ok.inj (raised.validatedCurrentProposal_eq.symm.trans validated))
  have more : current.skipsSent ≤ result.2.skips := by
    have atLeast : skips ≤ result.2.skips := skipsLe
    exact (Nat.le_of_lt higher).trans atLeast
  obtain ⟨votes, voted⟩ := tracks.vote safe settled more
  have coreVoted : result.1 = core.write current.hash
      { current with skipsSent := result.2.skips, initialAcceptSent := true } := by
    rw [coreEq, SolidCore.write, SolidCore.write, SolidCore.write]
    dsimp only
    rw [ProposalCache.write_write]
  rw [← coreVoted] at voted
  refine ⟨_, _, votes, voted, .inl ⟨?_, ?_, rfl⟩⟩
  · rw [peerEq]
    exact tracks.peer
  · rw [headerEq]

omit [Std.TransOrd P] [Std.LawfulEqOrd P] in
/-- Sending an accept, if adding one proceeds. -/
theorem nextAcceptThen (safe : Safe (voting app limit initial) state)
    {add : ProposalAccept P → SolidCore P S →
      Except String (SolidCore P S × Option (SolidEvent P S))}
    (adds : ∀ (middle : SolidCore P S) (middleLast : Proposal P S) (next : VotingState P S)
      (own : ProposalAccept P) (result : SolidCore P S × Option (SolidEvent P S)),
      Tracks app limit initial node middle middleLast next →
      Safe (voting app limit initial) next →
      next.voted own.fromPeer own.proposal.hash own.skips → add own middle = .ok result →
      Proceeds digests app limit initial node next result.1 result.2)
    {skip : Bool}
    (sends : ∀ result, core.nextAccept digests skip = .ok result →
      ∃ last next, VotesOnly app limit initial node state next ∧
        Tracks app limit initial node result.1 last next ∧
        next.voted result.2.fromPeer result.2.proposal.hash result.2.skips)
    {result : SolidCore P S × Option (SolidEvent P S)}
    (returned : core.nextAcceptThen digests add skip = .ok result) :
    Proceeds digests app limit initial node state result.1 result.2 := by
  rw [SolidCore.nextAcceptThen, bind_eq_ok_iff] at returned
  obtain ⟨⟨sent, own⟩, sentEq, returned⟩ := returned
  obtain ⟨sentLast, voted, votes, sentTracks, ownVoted⟩ := sends _ sentEq
  dsimp only at returned sentTracks ownVoted
  rw [bind_eq_ok_iff] at returned
  obtain ⟨⟨added, event⟩, addedEq, returned⟩ := returned
  obtain rfl := Except.ok.inj returned
  obtain ⟨addedLast, next, moreVotes, addedTracks, justified⟩ :=
    adds sent sentLast voted own _ sentTracks (safe.of_steps votes.steps) ownVoted addedEq
  refine ⟨addedLast, next, votes.trans moreVotes, addedTracks, ?_⟩
  intro happened isEvent
  cases event with
  | none =>
      obtain rfl := Option.some.inj isEvent
      exact moreVotes.grows _ _ _ ownVoted
  | some first =>
      obtain rfl := Option.some.inj isEvent
      exact justified first rfl

/-- Adding an accept that is a vote leads to votes of the node by the rules. -/
theorem addAcceptWithin (tracks : Tracks app limit initial node core last state)
    (safe : Safe (voting app limit initial) state) {now calls : Nat} {accept : ProposalAccept P}
    (voted : state.voted accept.fromPeer accept.proposal.hash accept.skips)
    {result : SolidCore P S × Option (SolidEvent P S)}
    (returned : core.addAcceptWithin digests now calls accept = .ok result) :
    Proceeds digests app limit initial node state result.1 result.2 := by
  induction calls generalizing core last state accept result with
  | zero =>
      apply tracks.addAcceptThen _ voted returned
      intro _ _ _ _ _ _ _ _ overflow
      cases overflow
  | succ calls ih =>
      apply tracks.addAcceptThen _ voted returned
      intro middle middleLast current skips result middleTracks settled higher continued
      apply nextAcceptThen safe _ _ continued
      · intro later laterLast next own result laterTracks laterSafe ownVoted added
        exact ih laterTracks laterSafe ownVoted added
      · intro sent sentEq
        exact middleTracks.nextAccept_raised safe settled higher sentEq

/-- Sending the next accept leads to votes of the node by the rules. -/
theorem getNextAcceptEvent (tracks : Tracks app limit initial node core last state)
    (safe : Safe (voting app limit initial) state) {now : Nat} {skip : Bool}
    {result : SolidCore P S × Option (SolidEvent P S)}
    (returned : core.getNextAcceptEvent digests now skip = .ok result) :
    Proceeds digests app limit initial node state result.1 result.2 := by
  apply nextAcceptThen safe _ _ returned
  · intro middle middleLast next own result middleTracks middleSafe ownVoted added
    exact middleTracks.addAcceptWithin middleSafe ownVoted added
  · intro sent sentEq
    exact tracks.nextAccept safe sentEq

/-! ## The calls of a core -/

omit [Std.TransOrd P] [Std.LawfulEqOrd P] [DecidableEq P] in
/-- The highest height that has been seen decides on nothing but events. -/
theorem withMaxHeight (tracks : Tracks app limit initial node core last state) (maxHeight : Nat) :
    Tracks app limit initial node { core with maxHeight } last state where
  peer := tracks.peer
  app_eq := tracks.app_eq
  limit_eq := tracks.limit_eq
  rooted := tracks.rooted
  confirmed := tracks.confirmed
  known := tracks.known
  backed := tracks.backed
  orphans := tracks.orphans
  recorded := tracks.recorded
  sent := tracks.sent

theorem skip (tracks : Tracks app limit initial node core last state)
    (safe : Safe (voting app limit initial) state) {now : Nat}
    {result : SolidCore P S × Option (SolidEvent P S)}
    (returned : core.skip digests now = .ok result) :
    Proceeds digests app limit initial node state result.1 result.2 := by
  rw [SolidCore.skip, bind_eq_ok_iff] at returned
  obtain ⟨outOfSync, _, returned⟩ := returned
  split at returned
  · obtain rfl := Except.ok.inj returned
    exact tracks.proceeds fun _ otherwise => absurd otherwise (Option.some_ne_none _).symm
  · exact tracks.getNextAcceptEvent safe returned

/-- An accept that has been sent is received. -/
theorem receiveAccept (tracks : Tracks app limit initial node core last state)
    (safe : Safe (voting app limit initial) state) {now : Nat} {accept : ProposalAccept P}
    (voted : state.voted accept.fromPeer accept.proposal.hash accept.skips)
    {result : SolidCore P S × Except Error (Option (SolidEvent P S))}
    (returned : core.receiveAccept digests now accept = .ok result) :
    Proceeds digests app limit initial node state result.1 (eventOf result.2) := by
  rw [SolidCore.receiveAccept] at returned
  rcases orFail_eq_ok returned with ⟨_, returned⟩ | ⟨failure, rfl⟩
  case inr =>
    exact tracks.proceeds fun _ otherwise => absurd otherwise (Option.some_ne_none _).symm
  rw [bind_eq_ok_iff] at returned
  obtain ⟨⟨settledCore, earlier⟩, validated, returned⟩ := returned
  obtain ⟨settledLast, settledTracks, _⟩ := tracks.validatedCurrentProposal validated
  dsimp only at returned settledTracks
  rw [bind_eq_ok_iff] at returned
  obtain ⟨height, _, returned⟩ := returned
  have raisedTracks : Tracks app limit initial node
      (if accept.proposal.height > height then
        { settledCore with maxHeight := accept.proposal.height }
      else settledCore) settledLast state := by
    split
    · exact settledTracks.withMaxHeight _
    · exact settledTracks
  generalize (if accept.proposal.height > height then
      { settledCore with maxHeight := accept.proposal.height }
    else settledCore) = raised at returned raisedTracks
  rcases orFail_eq_ok returned with ⟨_, returned⟩ | ⟨failure, rfl⟩
  case inr =>
    exact raisedTracks.proceeds fun _ otherwise => absurd otherwise (Option.some_ne_none _).symm
  rw [bind_eq_ok_iff] at returned
  obtain ⟨⟨added, event⟩, addedEq, returned⟩ := returned
  have proceeds := raisedTracks.addAcceptWithin safe voted addedEq
  cases event with
  | some happened =>
      obtain rfl := Except.ok.inj returned
      exact proceeds
  | none =>
      obtain ⟨addedLast, next, votes, addedTracks, _⟩ := proceeds
      dsimp only at returned addedTracks
      rw [bind_eq_ok_iff] at returned
      obtain ⟨⟨laterCore, later⟩, laterEq, returned⟩ := returned
      obtain ⟨laterLast, laterTracks, _⟩ := addedTracks.validatedCurrentProposal laterEq
      dsimp only at returned laterTracks
      split at returned
      · rw [bind_eq_ok_iff] at returned
        obtain ⟨⟨sent, event⟩, sentEq, returned⟩ := returned
        obtain rfl := Except.ok.inj returned
        exact (laterTracks.getNextAcceptEvent (safe.of_steps votes.steps) sentEq).after votes
      · obtain rfl := Except.ok.inj returned
        exact (laterTracks.proceeds fun _ otherwise =>
          absurd otherwise (Option.some_ne_none _).symm).after votes

omit [DecidableEq P] [Std.TransOrd P] [Std.LawfulEqOrd P] in
/-- A new proposal, for which the node has sent no accept. -/
theorem insert (tracks : Tracks app limit initial node core last state) {proposal : Proposal P S}
    (unknown : core.proposals.get proposal.hash = none)
    (known : proposal.hash = app.hash proposal.manifest.content ∧
      proposal.manifest.content ∈ state.created ∧
      proposal.manifest.content.validators = initial.validators ∧
      proposal.orderedValidators.length = initial.validators.length)
    (backed : Backed initial state proposal) (unsent : proposal.skipsSent = 0) (maxHeight : Nat)
    (adopted : ProposalHash) :
    Tracks app limit initial node
      { core with
        maxHeight
        orphanAccepts := core.orphanAccepts.erase adopted
        proposals := core.proposals.insert proposal }
      last state := by
  have other : ∀ hash stored, core.proposals.get hash = some stored →
      (core.proposals.insert proposal).get hash = some stored := by
    intro hash stored found
    rw [ProposalCache.get_insert, if_neg]
    · exact found
    · rintro rfl
      rw [unknown] at found
      cases found
  have has : ∀ stored, (core.proposals.insert proposal).Has stored →
      stored = proposal ∨ core.proposals.Has stored := by
    intro stored isStored
    rw [ProposalCache.Has, ProposalCache.get_insert] at isStored
    split at isStored
    · exact .inl (Option.some.inj isStored).symm
    · exact .inr isStored
  exact {
    peer := tracks.peer
    app_eq := tracks.app_eq
    limit_eq := tracks.limit_eq
    rooted := tracks.rooted.insert unknown
    confirmed := tracks.confirmed
    known := by
      intro stored isStored
      rcases has stored isStored with rfl | before
      · exact known
      · exact tracks.known stored before
    backed := by
      intro stored isStored
      rcases has stored isStored with rfl | before
      · exact backed
      · exact tracks.backed stored before
    orphans := by
      intro hash orphan found
      apply tracks.orphans hash orphan
      by_cases same : hash = adopted
      · subst same
        rw [AList.lookup_erase] at found
        cases found
      · rwa [AList.lookup_erase_ne same] at found
    recorded := by
      intro hash skips voted
      rcases tracks.recorded hash skips voted with ⟨stored, found, rest⟩ | past
      · exact .inl ⟨stored, other hash stored found, rest⟩
      · exact .inr past
    sent := by
      intro stored isStored positive
      rcases has stored isStored with rfl | before
      · rw [unsent] at positive
        exact absurd positive (Nat.lt_irrefl 0)
      · exact tracks.sent stored before positive }

/-- A proposal that has been made is received. -/
theorem receiveProposal (tracks : Tracks app limit initial node core last state)
    {manifest : Manifest P S} (created : manifest.content ∈ state.created)
    (validatorsEq : manifest.content.validators = initial.validators)
    {result : SolidCore P S × Except Error Unit}
    (returned : core.receiveProposal digests manifest = .ok result) :
    Tracks app limit initial node result.1 last state := by
  rw [SolidCore.receiveProposal] at returned
  dsimp only at returned
  rcases orFail_eq_ok returned with ⟨_, received⟩ | ⟨failure, rfl⟩
  case inr => exact tracks
  split at received
  · obtain rfl := Except.ok.inj received
    exact tracks
  rename_i unknown
  rw [bind_eq_ok_iff] at received
  obtain ⟨height, _, received⟩ := received
  split at received
  · obtain rfl := Except.ok.inj received
    exact tracks
  rw [bind_eq_ok_iff] at received
  obtain ⟨proposal, adopted, received⟩ := received
  obtain rfl := Except.ok.inj received
  have lengthEq : (Proposal.new core.app digests manifest).orderedValidators.length =
      initial.validators.length := by
    rw [← validatorsEq]
    exact length_orderedValidators digests manifest.content
  rw [tracks.limit_eq] at adopted
  obtain ⟨adds, backed⟩ := (Backed.of_new digests manifest).adoptOrphans validatorsEq (by
    intro orphan found accept mem
    exact (tracks.orphans _ orphan found accept mem).2) adopted
  apply tracks.insert _ _ backed adds.skipsSent
  · rw [adds.hash]
    rw [ProposalCache.contains, Option.isSome_iff_ne_none, not_not] at unknown
    exact unknown
  · rw [adds.hash, adds.manifest, adds.order]
    refine ⟨?_, created, validatorsEq, lengthEq⟩
    rw [Proposal.new, tracks.app_eq]

end Tracks

omit [DecidableEq P] in
/-- Both proposals of a commit are pending. -/
theorem SolidCore.committable_eq_ok {core : SolidCore P S}
    {result : Option (Proposal P S × Proposal P S)} (returned : core.committable = .ok result) :
    result = none ∨ ∃ proposal confirmedBy, result = some (proposal, confirmedBy) ∧
      core.proposals.nextPendingProposal 0 = .ok (some proposal) ∧
      core.proposals.nextPendingProposal 1 = .ok (some confirmedBy) := by
  rw [SolidCore.committable, bind_eq_ok_iff] at returned
  obtain ⟨next, nextEq, returned⟩ := returned
  cases next with
  | none => exact .inl (Except.ok.inj returned).symm
  | some proposal =>
      dsimp only at returned
      rw [bind_eq_ok_iff] at returned
      obtain ⟨after, afterEq, returned⟩ := returned
      cases after with
      | none => exact .inl (Except.ok.inj returned).symm
      | some confirmedBy =>
          exact .inr ⟨proposal, confirmedBy, (Except.ok.inj returned).symm, nextEq, afterEq⟩

namespace Tracks

variable {node : P} {core : SolidCore P S} {last current : Proposal P S}
  {state : VotingState P S}

/-- A node confirms a child of its confirmed proposal that has a child itself. -/
theorem confirm (tracks : Tracks app limit initial node core last state)
    (safe : Safe (voting app limit initial) state) {proposal confirmedBy : Proposal P S}
    (found : core.proposals.nextPendingProposal 0 = .ok (some proposal))
    (foundAfter : core.proposals.nextPendingProposal 1 = .ok (some confirmedBy)) :
    Step (voting app limit initial) state (state.confirm node proposal.manifest.content) ∧
      ∃ confirmed, core.proposals.confirm proposal.hash = .ok confirmed ∧
        Tracks app limit initial node (core.withProposals confirmed) proposal
          (state.confirm node proposal.manifest.content) := by
  have keyed := tracks.rooted.keyed
  have hasLast := tracks.rooted.has
  obtain ⟨top, isNext⟩ := ProposalCache.isNext_of_some keyed tracks.rooted.confirmed found
  obtain ⟨otherTop, isAfter⟩ :=
    ProposalCache.isNext_of_some keyed tracks.rooted.confirmed foundAfter
  have link := ProposalCache.IsNext.lastHash_eq_next keyed tracks.rooted.confirmed found foundAfter
  obtain ⟨lastHash, _, _, _⟩ := tracks.known last hasLast
  obtain ⟨proposalHash, created, _⟩ := tracks.known proposal isNext.has
  obtain ⟨_, createdAfter, _⟩ := tracks.known confirmedBy isAfter.has
  have higher : proposal.manifest.content.height = last.manifest.content.height + 1 :=
    isNext.height_eq
  have taken : Step (voting app limit initial) state
      (state.confirm node proposal.manifest.content) := by
    apply Step.confirm created
    · rw [tracks.confirmed]
      exact ⟨(isNext.lastHash_eq keyed hasLast).trans lastHash, higher⟩
    · refine ⟨confirmedBy.manifest.content, createdAfter, link.trans proposalHash, ?_⟩
      exact isAfter.height_eq.trans (congrArg (· + 1) higher.symm)
  obtain ⟨confirmed, confirmedEq, pointed, kept, sub⟩ := ProposalCache.exists_confirm isNext.has
  refine ⟨taken, confirmed, confirmedEq, ?_⟩
  have isProposal : ∀ content ∈ state.created, app.hash content = proposal.hash →
      content = proposal.manifest.content :=
    fun content isCreated same =>
      safe.keyed content isCreated _ created (same.trans proposalHash)
  exact {
    peer := tracks.peer
    app_eq := tracks.app_eq
    limit_eq := tracks.limit_eq
    rooted := {
      keyed := fun hash stored isStored => keyed hash stored (sub hash stored isStored)
      confirmed := pointed.symm ▸ kept }
    confirmed := SkipVoting.State.confirmed_confirm_self ..
    known := fun stored has => tracks.known stored (sub _ _ has)
    backed := fun stored has => tracks.backed stored (sub _ _ has)
    orphans := tracks.orphans
    recorded := by
      intro hash skips voted
      rcases tracks.recorded hash skips voted with
        ⟨stored, isStored, rest⟩ | ⟨content, isCreated, same, low, _⟩
      · cases still : confirmed.get hash with
        | some other =>
            obtain rfl := Option.some.inj ((sub _ _ still).symm.trans isStored)
            exact .inl ⟨other, still, rest⟩
        | none =>
            -- what the purge has removed is no higher than what has been confirmed
            apply Or.inr
            obtain ⟨content, isCreated, same, near⟩ := safe.vote_near node hash skips voted
            rw [tracks.confirmed] at near
            refine ⟨content, isCreated, same, near.trans (le_of_eq higher.symm), ?_⟩
            rintro rfl
            rw [kept] at still
            cases still
      · apply Or.inr
        refine ⟨content, isCreated, same, low.trans (higher ▸ Nat.le_succ _), ?_⟩
        rintro rfl
        rw [isProposal content isCreated same, higher] at low
        exact Nat.not_succ_le_self _ low
    sent := fun stored has => tracks.sent stored (sub _ _ has) }

variable [Std.TransOrd P] [Std.LawfulEqOrd P]

/-- The next event of a node is a commit by the rules, or it proceeds. -/
theorem nextEvent (tracks : Tracks app limit initial node core last state)
    (safe : Safe (voting app limit initial) state) {now : Nat}
    {result : SolidCore P S × Option (SolidEvent P S)}
    (returned : core.nextEvent digests now = .ok result) :
    (∃ proposal confirmedBy : Proposal P S,
      result.2 = some (.commit proposal.manifest confirmedBy.manifest) ∧
      Step (voting app limit initial) state (state.confirm node proposal.manifest.content) ∧
      Tracks app limit initial node result.1 proposal
        (state.confirm node proposal.manifest.content)) ∨
    Proceeds digests app limit initial node state result.1 result.2 := by
  rw [SolidCore.nextEvent, bind_eq_ok_iff] at returned
  obtain ⟨ready, readyEq, returned⟩ := returned
  rcases SolidCore.committable_eq_ok readyEq with
    rfl | ⟨proposal, confirmedBy, rfl, found, foundAfter⟩
  · apply Or.inr
    dsimp only at returned
    rw [bind_eq_ok_iff] at returned
    obtain ⟨outOfSync, _, returned⟩ := returned
    split at returned
    · rw [bind_eq_ok_iff] at returned
      obtain ⟨height, _, returned⟩ := returned
      obtain rfl := Except.ok.inj returned
      exact tracks.proceeds fun _ isEvent => ⟨_, _, (Option.some.inj isEvent).symm⟩
    · rw [bind_eq_ok_iff] at returned
      obtain ⟨⟨settledCore, settled⟩, validated, returned⟩ := returned
      obtain ⟨settledLast, settledTracks, _⟩ := tracks.validatedCurrentProposal validated
      dsimp only at returned settledTracks
      split at returned
      · exact settledTracks.getNextAcceptEvent safe returned
      · obtain rfl := Except.ok.inj returned
        exact settledTracks.proceeds fun _ otherwise =>
          absurd otherwise (Option.some_ne_none _).symm
  · apply Or.inl
    obtain ⟨taken, confirmed, confirmedEq, confirmedTracks⟩ :=
      tracks.confirm safe found foundAfter
    have has : core.proposals.Has proposal := by
      obtain ⟨top, isNext⟩ :=
        ProposalCache.isNext_of_some tracks.rooted.keyed tracks.rooted.confirmed found
      exact isNext.has
    dsimp only at returned
    rw [tracks.app_eq, ← (tracks.known proposal has).1, confirmedEq, ok_bind] at returned
    obtain rfl := Except.ok.inj returned
    refine ⟨proposal, confirmedBy, rfl, taken, ?_⟩
    rw [← tracks.app_eq] at confirmedTracks ⊢
    exact confirmedTracks

end Tracks

end Ciphera.Solid
