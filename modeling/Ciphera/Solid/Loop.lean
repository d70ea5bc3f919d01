import Ciphera.Solid.Total

/-!
# The loop over events

Around its core a node keeps a queue of events and two timeouts.  After a proposal has come
in, the core is asked for events until it has none.  The loop ends, with everything confirmed
that can be: commits come first, and after them at most one other event.
-/

namespace Ciphera.Solid

open Ciphera.Lib

variable {P S : Type} [Peer P] [DecidableEq P]

/-- The timeouts are points in time. -/
structure SolidShared (P S : Type) [Peer P] where
  core : SolidCore P S
  events : List (SolidEvent P S) := []
  skipTimeout : Option Nat := none
  outOfSyncTimeout : Option Nat := none

namespace SolidShared

variable (digests : Digests)

/-- Hand an event to the subscribers. -/
def sendEvent (shared : SolidShared P S) (event : SolidEvent P S) : SolidShared P S :=
  { shared with events := shared.events ++ [event] }

/-- Start the wait for the next skip. -/
def resetSkipTimeout (now : Nat) (shared : SolidShared P S) : SolidShared P S :=
  { shared with skipTimeout := some (now + shared.core.config.skipTimeout) }

/-- Wait for no skip. -/
def clearSkipTimeout (shared : SolidShared P S) : SolidShared P S :=
  { shared with skipTimeout := none }

/-- What is done with an event, and whether the loop goes on. -/
def handle (now : Nat) (shared : SolidShared P S) (event : SolidEvent P S) :
    SolidShared P S × Bool :=
  match event with
  | .outOfSync _ _ =>
      let shared := shared.clearSkipTimeout
      if shared.outOfSyncTimeout.any (now < ·) then (shared, false)
      else
        (sendEvent { shared with
          outOfSyncTimeout := some (now + shared.core.config.outOfSyncTimeout) } event, false)
  | .commit _ _ => ((shared.resetSkipTimeout now).sendEvent event, true)
  | .propose _ _ _ _ => (shared.clearSkipTimeout.sendEvent event, true)
  | .accept accept =>
      let shared := resetSkipTimeout now { shared with outOfSyncTimeout := none }
      if accept.leaderId = shared.core.localPeerSigner.peer then (shared, false)
      else (shared.sendEvent event, true)
  | .duplicateProposal _ => (shared.sendEvent event, true)

/-- Ask for events until there is none, as often as `rounds` says. -/
def nextEventWithin (now : Nat) : Nat → SolidShared P S → Except String (SolidShared P S)
  | rounds, shared => do
      let (core, event) ← shared.core.nextEvent digests now
      let shared := { shared with core }
      match event with
      | none => pure shared
      | some event =>
          match shared.handle now event with
          | (shared, false) => pure shared
          | (shared, true) =>
              match rounds with
              | 0 => .error "out of rounds"
              | rounds + 1 => nextEventWithin now rounds shared

/-- Every commit is one height more, which bounds the number of rounds. -/
def nextEvent (now : Nat) (shared : SolidShared P S) : Except String (SolidShared P S) :=
  let highest := (shared.core.proposals.values.map Proposal.height).foldr max 0
  nextEventWithin digests now (highest + 1) shared

/-- A proposal has arrived; if it is kept, look what is to be done next. -/
def receiveProposal (now : Nat) (manifest : Manifest P S) (shared : SolidShared P S) :
    Except String (SolidShared P S × Except Error Unit) := do
  let (core, result) ← shared.core.receiveProposal digests manifest
  let shared := { shared with core }
  match result with
  | .error failure => pure (shared, .error failure)
  | .ok _ =>
      let shared ← shared.nextEvent digests now
      pure (shared, .ok ())

/-- An accept has arrived; hand on what it leads to. -/
def receiveAccept (now : Nat) (accept : ProposalAccept P) (shared : SolidShared P S) :
    Except String (SolidShared P S × Except Error Unit) := do
  let (core, result) ← shared.core.receiveAccept digests now accept
  let shared := { shared with core }
  match result with
  | .error failure => pure (shared, .error failure)
  | .ok none => pure (shared, .ok ())
  | .ok (some event) => pure (shared.sendEvent event, .ok ())

/-- Skip the leader if the time for it has come, and say when to look again. -/
def tick (now : Nat) (shared : SolidShared P S) : Except String (SolidShared P S × Option Nat) :=
  match shared.skipTimeout with
  | none => pure (shared, none)
  | some timeout =>
      if timeout > now then pure (shared, some timeout)
      else do
        let (core, event) ← shared.core.skip digests now
        let shared := { shared with core }
        let shared := event.elim shared shared.sendEvent
        let next := shared.skipTimeout.map (· + shared.core.config.skipTimeout)
        pure ({ shared with skipTimeout := next }, next)

/-- The first event that has not been taken out yet. -/
def pollNext (shared : SolidShared P S) : SolidShared P S × Option (SolidEvent P S) :=
  match shared.events with
  | [] => (shared, none)
  | event :: events => ({ shared with events }, some event)

/-- The state after a confirmed proposal, without events. -/
def withLastConfirmed (localPeerSigner : PeerSigner P) (manifest : Manifest P S) (app : App P S)
    (config : SolidConfig) : SolidShared P S where
  core := .withLastConfirmed digests localPeerSigner manifest app config

end SolidShared

/-- What a node is called with through its handle. -/
inductive SharedCall (P S : Type)
  | receiveProposal (manifest : Manifest P S)
  | receiveAccept (accept : ProposalAccept P)
  | run
  | tick
  | pollNext

/-- The proposals have validators, and what arrives is within bounds. -/
def SharedCall.Possible (height skips : Nat) : SharedCall P S → Prop
  | .receiveProposal manifest => .receiveProposal manifest ∈ possible P S height skips
  | .receiveAccept accept => .receiveAccept accept ∈ possible P S height skips
  | _ => True

/-- How much a call may add to the skips. -/
def SharedCall.raise : SharedCall P S → Nat
  | .tick => 1
  | _ => 0

/-- A node is called at some time. -/
inductive SolidShared.Acts (digests : Digests) :
    SolidShared P S → SharedCall P S → SolidShared P S → Prop
  | receiveProposal {shared next : SolidShared P S} {now : Nat} {manifest : Manifest P S}
      {result : Except Error Unit}
      (returned : shared.receiveProposal digests now manifest = .ok (next, result)) :
      Acts digests shared (.receiveProposal manifest) next
  | receiveAccept {shared next : SolidShared P S} {now : Nat} {accept : ProposalAccept P}
      {result : Except Error Unit}
      (returned : shared.receiveAccept digests now accept = .ok (next, result)) :
      Acts digests shared (.receiveAccept accept) next
  | run {shared next : SolidShared P S} {now : Nat}
      (returned : shared.nextEvent digests now = .ok next) : Acts digests shared .run next
  | tick {shared next : SolidShared P S} {now : Nat} {again : Option Nat}
      (returned : shared.tick digests now = .ok (next, again)) : Acts digests shared .tick next
  | pollNext {shared : SolidShared P S} : Acts digests shared .pollNext shared.pollNext.1

section

variable {digests : Digests} {app : App P S} {limit : AcceptThreshold} {initial : Manifest P S}
  {core : SolidCore P S} {last current : Proposal P S}

/-! ## When there is nothing to commit -/

namespace ProposalCache

variable {cache pruned : ProposalCache P S}

omit [DecidableEq P] in
/-- There is a proposal after the next one as soon as some candidate is two heights up. -/
theorem nextPendingProposal_one_eq_none_iff (rooted : cache.Rooted last) :
    cache.nextPendingProposal 1 = .ok none ↔
      ∀ proposal, cache.Candidate last proposal → proposal.height < last.height + 2 := by
  rcases nextPendingProposal_cases rooted.keyed rooted.confirmed 1 with
    ⟨absent, low⟩ | ⟨top, next, found, isNext⟩
  · exact ⟨fun _ => low, fun _ => absent⟩
  · have candidate : cache.Candidate last next := by
      refine ⟨isNext.has, ?_, isNext.descends⟩
      rw [isNext.height_eq]
      omega
    constructor
    · intro absent
      rw [found] at absent
      cases absent
    · intro low
      have isLow := low next candidate
      rw [isNext.height_eq] at isLow
      exact absurd isLow (Nat.lt_irrefl _)

omit [DecidableEq P] in
/-- What descends after invalid proposals have been removed has descended before. -/
theorem Prunes.candidate (prunes : cache.Prunes pruned) {proposal : Proposal P S}
    (candidate : pruned.Candidate last proposal) : cache.Candidate last proposal := by
  obtain ⟨has, above, descends⟩ := candidate
  refine ⟨prunes.has has, above, ?_⟩
  clear has above
  induction descends with
  | here same => exact .here same
  | next found higher _ ih => exact .next (prunes.sub _ _ found) higher ih

end ProposalCache

namespace SolidCore

open ProposalCache (changeAt)

omit [DecidableEq P] in
theorem committable_eq_none_iff (rooted : core.proposals.Rooted last) :
    core.committable = .ok none ↔ core.proposals.nextPendingProposal 1 = .ok none := by
  rw [committable]
  rcases ProposalCache.nextPendingProposal_cases rooted.keyed rooted.confirmed 0 with
    ⟨absent, low⟩ | ⟨top, next, found, _⟩
  · rw [absent]
    refine ⟨fun _ => ?_, fun _ => rfl⟩
    rw [ProposalCache.nextPendingProposal_one_eq_none_iff rooted]
    intro proposal candidate
    exact Nat.lt_succ_of_lt (low proposal candidate)
  · rw [found, ok_bind]
    dsimp only
    rcases ProposalCache.nextPendingProposal_cases rooted.keyed rooted.confirmed 1 with
      ⟨absent, _⟩ | ⟨_, after, foundAfter, _⟩
    · rw [absent]
      exact ⟨fun _ => rfl, fun _ => rfl⟩
    · rw [foundAfter]
      constructor <;> intro otherwise <;> cases otherwise

omit [DecidableEq P] in
/-- Removing invalid proposals leaves nothing to commit if there was nothing before. -/
theorem committable_prune {pruned : ProposalCache P S} (rooted : core.proposals.Rooted last)
    (prunes : core.proposals.Prunes pruned) (nothing : core.committable = .ok none) :
    (core.withProposals pruned).committable = .ok none := by
  rw [committable_eq_none_iff rooted,
    ProposalCache.nextPendingProposal_one_eq_none_iff rooted] at nothing
  have prunedRooted : (core.withProposals pruned).proposals.Rooted last := prunes.rooted rooted
  rw [committable_eq_none_iff prunedRooted,
    ProposalCache.nextPendingProposal_one_eq_none_iff prunedRooted]
  exact fun proposal candidate => nothing proposal (prunes.candidate candidate)

omit [DecidableEq P] in
/-- What is recorded in a proposal decides on no commit. -/
theorem committable_write {proposal changed : Proposal P S} (rooted : core.proposals.Rooted last)
    (has : core.proposals.Has proposal) (sameHash : changed.hash = proposal.hash)
    (sameManifest : changed.manifest = proposal.manifest)
    (nothing : core.committable = .ok none) :
    (core.write proposal.hash changed).committable = .ok none := by
  rw [committable_eq_none_iff rooted] at nothing
  rw [committable_eq_none_iff (rooted.write has sameHash sameManifest)]
  change (core.proposals.write proposal.hash changed).nextPendingProposal 1 = .ok none
  rw [ProposalCache.write_eq_transform rooted.keyed has sameHash sameManifest,
    ProposalCache.nextPendingProposal_transform (ProposalCache.keeps_changeAt _ _)
      rooted.confirmed, nothing]
  rfl

/-! ## The last event of the loop -/

/-- A core that has sent an accept for its current proposal waits for something to arrive. -/
structure Idle (core : SolidCore P S) (last current : Proposal P S) : Prop where
  settled : Settled core last current
  sent : current.initialAcceptSent = true
  nothing : core.committable = .ok none
  inSync : core.isOutOfSync = .ok false

theorem Idle.nextEvent_eq (idle : Idle core last current) (now : Nat) :
    core.nextEvent digests now = .ok (core, none) := by
  rw [nextEvent, idle.nothing, ok_bind]
  dsimp only
  rw [idle.inSync]
  change (core.validatedCurrentProposal digests >>= _) = _
  rw [idle.settled.validatedCurrentProposal_eq, ok_bind]
  dsimp only
  rw [idle.sent]
  rfl

omit [DecidableEq P] in
theorem isOutOfSync_eq (rooted : core.proposals.Rooted last) :
    core.isOutOfSync = .ok (decide (core.maxHeight > last.height + 1)) := by
  rw [isOutOfSync, height, ProposalCache.height_eq rooted.confirmed]
  rfl

omit [DecidableEq P] in
/-- What is recorded in a proposal changes nothing about being out of sync. -/
theorem isOutOfSync_write {proposal changed : Proposal P S} (rooted : core.proposals.Rooted last)
    (has : core.proposals.Has proposal) (sameHash : changed.hash = proposal.hash)
    (sameManifest : changed.manifest = proposal.manifest) :
    (core.write proposal.hash changed).isOutOfSync = core.isOutOfSync := by
  rw [isOutOfSync_eq rooted, isOutOfSync_eq (rooted.write has sameHash sameManifest),
    (ProposalCache.keeps_changeAt _ _).height]
  rfl

omit [DecidableEq P] in
/-- Recording the accept that is sent makes a core idle. -/
theorem Idle.write {changed : Proposal P S} (settled : Settled core last current)
    (nothing : core.committable = .ok none) (inSync : core.isOutOfSync = .ok false)
    (sameHash : changed.hash = current.hash) (sameManifest : changed.manifest = current.manifest)
    (validated : changed.isValidated = true) (sent : changed.initialAcceptSent = true)
    (more : ∀ proposal, Blocked core.limit current proposal →
      Blocked core.limit changed proposal) :
    Idle (core.write current.hash changed) (changeAt current.hash changed last) changed where
  settled := settled.write sameHash sameManifest validated more
  sent := sent
  nothing := committable_write settled.rooted settled.has sameHash sameManifest nothing
  inSync := by rw [isOutOfSync_write settled.rooted settled.has sameHash sameManifest, inSync]

omit [DecidableEq P] in
/-- The current proposal is no lower than the last confirmed one. -/
theorem Settled.height_le (settled : Settled core last current) : last.height ≤ current.height := by
  cases settled.isCurrent with
  | next found _ =>
      obtain ⟨top, isNext⟩ :=
        ProposalCache.isNext_of_some settled.rooted.keyed settled.rooted.confirmed found
      rw [isNext.height_eq]
      omega
  | last _ => exact le_refl _

variable [Std.TransOrd P] [Std.LawfulEqOrd P]

omit [Std.LawfulEqOrd P] in
/-- Adding its own accept leaves an idle core idle. -/
theorem Idle.addAccept (idle : Idle core last current) {now : Nat} {own : ProposalAccept P}
    (named : own.proposal = ⟨current.hash, current.height, current.skips⟩)
    {result : SolidCore P S × Option (SolidEvent P S)}
    (returned : core.addAcceptWithin digests now 0 own = .ok result) :
    ∃ idleLast idle, Idle result.1 idleLast idle := by
  have has : core.proposals.get current.hash = some current := idle.settled.has
  have sameHash : own.proposal.hash = current.hash := congrArg ProposalHeader.hash named
  have notLow : ¬last.height > own.proposal.height := by
    rw [named]
    exact Nat.not_lt.mpr idle.settled.height_le
  rw [addAcceptWithin, addAcceptThen, height,
    ProposalCache.height_eq idle.settled.rooted.confirmed, ok_bind, if_neg notLow, idle.inSync,
    ok_bind, idle.settled.validatedCurrentProposal_eq, ok_bind] at returned
  dsimp only at returned
  rw [sameHash, has] at returned
  dsimp only at returned
  rw [bind_eq_ok_iff] at returned
  obtain ⟨⟨added, breached⟩, addedEq, returned⟩ := returned
  have adds : Adds core.limit current added := .of_addAccept addedEq
  have still : Idle (core.write current.hash added) (changeAt current.hash added last) added :=
    Idle.write idle.settled idle.nothing idle.inSync adds.hash adds.manifest
      (adds.validated.trans idle.settled.validated) (adds.accepted.trans idle.sent)
      fun _ => adds.blocked
  dsimp only at returned
  rw [bind_eq_ok_iff] at returned
  obtain ⟨leads, _, returned⟩ := returned
  split at returned
  · obtain rfl := Except.ok.inj returned
    exact ⟨_, _, still⟩
  · split at returned
    · cases returned
    · obtain rfl := Except.ok.inj returned
      exact ⟨_, _, still⟩

omit [Std.LawfulEqOrd P] in
/-- Sending an accept leaves a core idle. -/
theorem Settled.getNextAcceptEvent (settled : Settled core last current)
    (nothing : core.committable = .ok none) (inSync : core.isOutOfSync = .ok false) {now : Nat}
    {skip : Bool} {result : SolidCore P S × Option (SolidEvent P S)}
    (returned : core.getNextAcceptEvent digests now skip = .ok result) :
    ∃ idleLast idle, Idle result.1 idleLast idle := by
  rw [SolidCore.getNextAcceptEvent, nextAcceptThen, bind_eq_ok_iff] at returned
  obtain ⟨⟨sent, own⟩, sentEq, returned⟩ := returned
  obtain ⟨middle, settledCurrent, validated, coreEq, headerEq, _, skipsLe, _⟩ :=
    nextAccept_spec settled.rooted sentEq
  obtain ⟨rfl, rfl⟩ := Prod.mk.inj
    (Except.ok.inj (settled.validatedCurrentProposal_eq.symm.trans validated))
  dsimp only at coreEq headerEq skipsLe
  subst coreEq
  have idle : Idle (core.write current.hash
      { current with skipsSent := own.skips, initialAcceptSent := true })
      (changeAt current.hash { current with skipsSent := own.skips, initialAcceptSent := true }
        last)
      { current with skipsSent := own.skips, initialAcceptSent := true } := by
    refine Idle.write settled nothing inSync rfl rfl settled.validated rfl ?_
    rintro proposal (exceeded | fewer)
    · exact .inl exceeded
    · exact .inr (Nat.lt_of_lt_of_le fewer skipsLe)
  dsimp only at returned
  rw [bind_eq_ok_iff] at returned
  obtain ⟨⟨added, event⟩, addedEq, returned⟩ := returned
  obtain rfl := Except.ok.inj returned
  have still := idle.addAccept headerEq addedEq
  exact still

end SolidCore

/-! ## The loop ends -/

variable [Std.TransOrd P] [Std.LawfulEqOrd P]

omit [Std.LawfulEqOrd P] in
/-- What the core gives out next: a commit, word that it is out of sync, or the last event
before it is idle. -/
theorem Sound.nextEvent_cases (sound : Sound digests app limit initial core last) {now : Nat}
    {result : SolidCore P S × Option (SolidEvent P S)}
    (returned : core.nextEvent digests now = .ok result) :
    (∃ proposal confirmedBy, Commits core last proposal confirmedBy result.1 result.2 ∧
      Sound digests app limit initial result.1 proposal) ∨
    (core.committable = .ok none ∧ core.isOutOfSync = .ok true ∧ result.1 = core ∧
      ∃ height seen, result.2 = some (.outOfSync height seen)) ∨
    ∃ idleLast idle, SolidCore.Idle result.1 idleLast idle := by
  rw [SolidCore.nextEvent, bind_eq_ok_iff] at returned
  obtain ⟨ready, readyEq, returned⟩ := returned
  rcases SolidCore.committable_eq_ok readyEq with
    rfl | ⟨proposal, confirmedBy, rfl, found, foundAfter⟩
  case inr =>
    dsimp only at returned
    rw [bind_eq_ok_iff] at returned
    obtain ⟨cache, cacheEq, returned⟩ := returned
    obtain rfl := Except.ok.inj returned
    exact .inl ⟨proposal, confirmedBy, sound.commits found foundAfter cacheEq⟩
  apply Or.inr
  dsimp only at returned
  rw [bind_eq_ok_iff] at returned
  obtain ⟨outOfSync, inSync, returned⟩ := returned
  cases outOfSync with
  | true =>
      rw [if_pos rfl, bind_eq_ok_iff] at returned
      obtain ⟨height, _, returned⟩ := returned
      obtain rfl := Except.ok.inj returned
      exact .inl ⟨readyEq, inSync, rfl, _, _, rfl⟩
  | false =>
      apply Or.inr
      rw [if_neg Bool.false_ne_true, bind_eq_ok_iff] at returned
      obtain ⟨⟨middle, current⟩, validated, returned⟩ := returned
      obtain ⟨pruned, found, prunes, has, marked, coreEq, settled⟩ :=
        SolidCore.validatedCurrentProposal_spec sound.rooted validated
      dsimp only at returned marked coreEq settled
      have prunedRooted : (core.withProposals pruned).proposals.Rooted last :=
        prunes.rooted sound.rooted
      have sameHash : current.hash = found.hash := by rw [marked]
      have sameManifest : current.manifest = found.manifest := by rw [marked]
      have nothing : middle.committable = .ok none := by
        rw [coreEq]
        exact SolidCore.committable_write prunedRooted has sameHash sameManifest
          (SolidCore.committable_prune sound.rooted prunes readyEq)
      have stillInSync : middle.isOutOfSync = .ok false := by
        rw [← inSync, coreEq, SolidCore.isOutOfSync_eq sound.rooted]
        exact (SolidCore.isOutOfSync_write prunedRooted has sameHash sameManifest).trans
          (SolidCore.isOutOfSync_eq prunedRooted)
      cases sent : current.initialAcceptSent with
      | true =>
          rw [sent] at returned
          obtain rfl := Except.ok.inj returned
          exact ⟨_, current, settled, sent, nothing, stillInSync⟩
      | false =>
          rw [sent] at returned
          exact settled.getNextAcceptEvent nothing stillInSync returned

namespace SolidShared

variable {shared : SolidShared P S} {now : Nat}

/-- The node has confirmed what it can, and unless it lags behind it has no further event. -/
structure Drained (digests : Digests) (core : SolidCore P S) : Prop where
  nothing : core.committable = .ok none
  waits : core.isOutOfSync = .ok true ∨
    ∀ now, core.nextEvent digests now = .ok (core, none)

omit [Std.TransOrd P] [Std.LawfulEqOrd P] in
theorem Drained.of_idle (idle : SolidCore.Idle core last current) : Drained digests core :=
  ⟨idle.nothing, .inr idle.nextEvent_eq⟩

/-- The events that a loop has sent: commits, and then at most one other. -/
def Sends (before after : SolidShared P S) : Prop :=
  ∃ committed other, after.events = before.events ++ committed ++ other ∧
    (∀ event ∈ committed, ∃ manifest confirmedBy, event = .commit manifest confirmedBy) ∧
    other.length ≤ 1

omit [DecidableEq P] [Std.TransOrd P] [Std.LawfulEqOrd P] in
theorem Sends.of_append {after : SolidShared P S} {other : List (SolidEvent P S)}
    (sent : after.events = shared.events ++ other) (few : other.length ≤ 1) :
    Sends shared after :=
  ⟨[], other, by rw [sent, List.append_nil], fun _ mem => absurd mem List.not_mem_nil, few⟩

omit [Std.TransOrd P] [Std.LawfulEqOrd P] in
/-- An event is sent at most once, and the core has no part in it. -/
theorem handle_spec (shared : SolidShared P S) (now : Nat) (event : SolidEvent P S) :
    (shared.handle now event).1.core = shared.core ∧
      ∃ other, (shared.handle now event).1.events = shared.events ++ other ∧
        other.length ≤ 1 := by
  cases event with
  | outOfSync height seen =>
      rw [handle]
      split
      · exact ⟨rfl, [], (List.append_nil _).symm, Nat.zero_le 1⟩
      · exact ⟨rfl, [_], rfl, le_refl _⟩
  | accept accept =>
      rw [handle]
      split
      · exact ⟨rfl, [], (List.append_nil _).symm, Nat.zero_le 1⟩
      · exact ⟨rfl, [_], rfl, le_refl _⟩
  | commit | propose | duplicateProposal => exact ⟨rfl, [_], rfl, le_refl _⟩

omit [Std.TransOrd P] [Std.LawfulEqOrd P] in
@[simp]
theorem handle_outOfSync (shared : SolidShared P S) (now height seen : Nat) :
    (shared.handle now (.outOfSync height seen)).2 = false := by
  rw [handle]
  split <;> rfl

omit [Std.TransOrd P] [Std.LawfulEqOrd P] in
theorem nextEventWithin_idle (idle : SolidCore.Idle shared.core last current) (rounds : Nat) :
    nextEventWithin digests now rounds shared = .ok shared := by
  cases rounds <;> rw [nextEventWithin, idle.nextEvent_eq] <;> rfl

/-- As long as there are rounds for the heights above the last confirmed proposal, the loop
ends and leaves nothing to do. -/
theorem nextEventWithin_drains (sound : Sound digests app limit initial shared.core last)
    (manned : Manned shared.core) {highest rounds : Nat}
    (bounded : ∀ proposal, shared.core.proposals.Has proposal → proposal.height ≤ highest)
    (enough : highest + 1 ≤ last.height + rounds) :
    ∃ done, nextEventWithin digests now rounds shared = .ok done ∧ Sends shared done ∧
      Drained digests done.core := by
  induction rounds generalizing shared last with
  | zero => exact absurd enough (Nat.not_lt.mpr (bounded last sound.rooted.has))
  | succ rounds ih =>
      obtain ⟨⟨core, event⟩, returned⟩ : Succeeds (shared.core.nextEvent digests now) :=
        sound.succeeds_nextEvent manned now
      rw [nextEventWithin, returned, ok_bind]
      rcases sound.nextEvent_cases returned with
        ⟨proposal, confirmedBy, commits, nextSound⟩ |
          ⟨nothing, outOfSync, coreEq, height, seen, isEvent⟩ |
          ⟨idleLast, current, idle⟩
      · obtain rfl : event = _ := commits.event
        let next : SolidShared P S := sendEvent (resetSkipTimeout now { shared with core })
          (.commit proposal.manifest confirmedBy.manifest)
        have nextManned : Manned next.core := fun stored has => manned stored (commits.sub has)
        have higher := commits.higher
        obtain ⟨done, doneEq, ⟨committed, other, eventsEq, allCommits, few⟩, drained⟩ :=
          ih (show Sound digests app limit initial next.core proposal from nextSound) nextManned
            (fun stored has => bounded stored (commits.sub has)) (by omega)
        refine ⟨done, doneEq, ⟨.commit proposal.manifest confirmedBy.manifest :: committed, other,
          ?_, ?_, few⟩, drained⟩
        · rw [eventsEq]
          simp [next, sendEvent, resetSkipTimeout]
        · intro event mem
          rcases List.mem_cons.mp mem with rfl | later
          · exact ⟨_, _, rfl⟩
          · exact allCommits event later
      · obtain rfl : core = shared.core := coreEq
        obtain rfl : event = _ := isEvent
        obtain ⟨sameCore, other, eventsEq, few⟩ := shared.handle_spec now (.outOfSync height seen)
        have stops := shared.handle_outOfSync now height seen
        dsimp only
        generalize shared.handle now (.outOfSync height seen) = handled at *
        obtain ⟨done, continues⟩ := handled
        obtain rfl : continues = false := stops
        refine ⟨done, rfl, .of_append eventsEq few, ?_⟩
        rw [show done.core = shared.core from sameCore]
        exact ⟨nothing, .inl outOfSync⟩
      · cases event with
        | none => exact ⟨_, rfl, .of_append (List.append_nil _).symm (Nat.zero_le 1), .of_idle idle⟩
        | some event =>
            obtain ⟨sameCore, other, eventsEq, few⟩ :=
              handle_spec { shared with core } now event
            dsimp only
            generalize handle now { shared with core } event = handled at *
            obtain ⟨done, continues⟩ := handled
            have doneIdle : SolidCore.Idle done.core idleLast current := by
              rw [show done.core = core from sameCore]
              exact idle
            refine ⟨done, ?_, .of_append eventsEq few, .of_idle doneIdle⟩
            cases continues with
            | false => rfl
            | true => exact nextEventWithin_idle doneIdle rounds

omit [Std.TransOrd P] [Std.LawfulEqOrd P] in
/-- A round asks the core once, and then the loop ends or goes on from there. -/
theorem nextEventWithin_cases {rounds : Nat} {done : SolidShared P S}
    (returned : nextEventWithin digests now rounds shared = .ok done) :
    ∃ core event, shared.core.nextEvent digests now = .ok (core, event) ∧
      (done.core = core ∨ ∃ fewer middle, rounds = fewer + 1 ∧ middle.core = core ∧
        nextEventWithin digests now fewer middle = .ok done) := by
  rw [nextEventWithin.eq_def, bind_eq_ok_iff] at returned
  obtain ⟨⟨core, event⟩, coreEq, returned⟩ := returned
  refine ⟨core, event, coreEq, ?_⟩
  cases event with
  | none =>
      obtain rfl := Except.ok.inj returned
      exact .inl rfl
  | some event =>
      have sameCore := (handle_spec { shared with core } now event).1
      dsimp only at returned sameCore
      split at returned
      · rename_i handled
        obtain rfl := Except.ok.inj returned
        rw [handled] at sameCore
        exact .inl sameCore
      · rename_i handled
        rw [handled] at sameCore
        cases rounds with
        | zero => cases returned
        | succ fewer => exact .inr ⟨fewer, _, rfl, sameCore, returned⟩

omit [Std.TransOrd P] [Std.LawfulEqOrd P] in
/-- The loop calls nothing but its core. -/
theorem nextEventWithin_run {calls : Set (Call P S)} (mem : .nextEvent ∈ calls) {rounds : Nat}
    {done : SolidShared P S} (returned : nextEventWithin digests now rounds shared = .ok done) :
    ∃ events, Run (SolidCore.Acts digests calls) shared.core events done.core := by
  induction rounds generalizing shared with
  | zero =>
      obtain ⟨core, event, coreEq, ends⟩ := nextEventWithin_cases returned
      rcases ends with rfl | ⟨fewer, _, roundsEq, _⟩
      · exact ⟨[event], .single (.call mem coreEq)⟩
      · cases roundsEq
  | succ rounds ih =>
      obtain ⟨core, event, coreEq, ends⟩ := nextEventWithin_cases returned
      rcases ends with rfl | ⟨fewer, middle, roundsEq, rfl, rest⟩
      · exact ⟨[event], .single (.call mem coreEq)⟩
      · obtain rfl := Nat.succ.inj roundsEq
        obtain ⟨later, laterRun⟩ := ih rest
        have taken : Run (SolidCore.Acts digests calls) shared.core [event] middle.core :=
          .single (.call mem coreEq)
        exact ⟨[event] ++ later, taken.trans laterRun⟩

/-- The calls of a core that a call of the handle is made of: they skip only if it does. -/
def within (height skips raise : Nat) : Set (Call P S) :=
  { call | call ∈ possible P S height skips ∧ call.raise ≤ raise }

omit [Std.TransOrd P] [Std.LawfulEqOrd P] in
/-- Whatever the node does is a run of its core, with at most one skip. -/
theorem Acts.core_run {height skips : Nat} {act : SharedCall P S} {next : SolidShared P S}
    (isPossible : act.Possible height skips) (acts : Acts digests shared act next) :
    ∃ events, Run (SolidCore.Acts digests (within height skips act.raise)) shared.core events
        next.core ∧ act.raise * events.length ≤ 1 := by
  have noSkips : ∀ events : List (Option (SolidEvent P S)), 0 * events.length ≤ 1 := by
    intro events
    rw [Nat.zero_mul]
    exact Nat.zero_le 1
  have asks : (.nextEvent : Call P S) ∈ within height skips 0 := ⟨⟨trivial, trivial⟩, le_refl 0⟩
  have skipsOnce : (.skip : Call P S) ∈ within height skips 1 := ⟨⟨trivial, trivial⟩, le_refl 1⟩
  cases acts with
  | @receiveProposal _ now manifest result returned =>
      rw [SolidShared.receiveProposal, bind_eq_ok_iff] at returned
      obtain ⟨⟨core, received⟩, coreEq, returned⟩ := returned
      have called : shared.core.call digests now (.receiveProposal manifest) =
          .ok (core, none) := by
        rw [SolidCore.call, coreEq]
        rfl
      have taken : Run (SolidCore.Acts digests (within height skips 0)) shared.core [none] core :=
        .single (.call ⟨isPossible, le_refl 0⟩ called)
      cases received with
      | error failure =>
          obtain ⟨rfl, _⟩ := Prod.mk.inj (Except.ok.inj returned)
          exact ⟨_, taken, noSkips _⟩
      | ok _ =>
          dsimp only at returned
          rw [bind_eq_ok_iff] at returned
          obtain ⟨done, doneEq, returned⟩ := returned
          obtain ⟨rfl, _⟩ := Prod.mk.inj (Except.ok.inj returned)
          obtain ⟨later, laterRun⟩ := nextEventWithin_run asks doneEq
          exact ⟨_, taken.trans laterRun, noSkips _⟩
  | @receiveAccept _ now accept result returned =>
      rw [SolidShared.receiveAccept, bind_eq_ok_iff] at returned
      obtain ⟨⟨core, received⟩, coreEq, returned⟩ := returned
      have called : shared.core.call digests now (.receiveAccept accept) =
          .ok (core, eventOf received) := by
        rw [SolidCore.call, coreEq]
        rfl
      refine ⟨[eventOf received], ?_, noSkips _⟩
      have sameCore : next.core = core := by
        rcases received with failure | (_ | event)
        · exact congrArg SolidShared.core (Prod.mk.inj (Except.ok.inj returned)).1.symm
        · exact congrArg SolidShared.core (Prod.mk.inj (Except.ok.inj returned)).1.symm
        · exact congrArg SolidShared.core (Prod.mk.inj (Except.ok.inj returned)).1.symm
      rw [sameCore]
      exact .single (.call ⟨isPossible, le_refl 0⟩ called)
  | run returned =>
      obtain ⟨events, run⟩ := nextEventWithin_run asks returned
      exact ⟨events, run, noSkips events⟩
  | @tick _ now again returned =>
      rw [SolidShared.tick] at returned
      split at returned
      · obtain ⟨rfl, _⟩ := Prod.mk.inj (Except.ok.inj returned)
        exact ⟨[], .nil, Nat.zero_le 1⟩
      · split at returned
        · obtain ⟨rfl, _⟩ := Prod.mk.inj (Except.ok.inj returned)
          exact ⟨[], .nil, Nat.zero_le 1⟩
        · rw [bind_eq_ok_iff] at returned
          obtain ⟨⟨core, event⟩, coreEq, returned⟩ := returned
          obtain ⟨rfl, _⟩ := Prod.mk.inj (Except.ok.inj returned)
          have sameCore : (event.elim { shared with core } (sendEvent { shared with core })).core =
              core := by
            cases event <;> rfl
          refine ⟨[event], ?_, le_refl 1⟩
          rw [sameCore]
          exact .single (.call skipsOnce coreEq)
  | pollNext =>
      refine ⟨[], ?_, Nat.zero_le 1⟩
      have sameCore : shared.pollNext.1.core = shared.core := by
        rw [SolidShared.pollNext]
        split <;> rfl
      rw [sameCore]
      exact .nil

omit [Std.TransOrd P] [Std.LawfulEqOrd P] in
theorem core_run {height skips : Nat} {localPeerSigner : PeerSigner P} {config : SolidConfig}
    {acts : List (SharedCall P S)} (all : ∀ act ∈ acts, act.Possible height skips)
    (run : Run (Acts digests) (withLastConfirmed digests localPeerSigner initial app config) acts
      shared) :
    ∃ events, Run (SolidCore.Acts digests (possible P S height skips))
      (SolidCore.withLastConfirmed digests localPeerSigner initial app config) events
      shared.core := by
  induction run with
  | nil => exact ⟨[], .nil⟩
  | snoc _ taken ih =>
      obtain ⟨events, earlier⟩ := ih fun act mem => all act (List.mem_append_left _ mem)
      obtain ⟨later, laterRun, _⟩ := taken.core_run (all _ List.mem_concat_self)
      have laterPossible : Run (SolidCore.Acts digests (possible P S height skips)) _ later _ :=
        laterRun.mono fun _ _ _ acts => acts.mono fun _ mem => mem.1
      exact ⟨events ++ later, earlier.trans laterPossible⟩

omit [Std.TransOrd P] [Std.LawfulEqOrd P] in
/-- Of all that a node is called with only the ticks add to the skips. -/
theorem within_of_run {height skips : Nat} {localPeerSigner : PeerSigner P} {config : SolidConfig}
    {acts : List (SharedCall P S)} (all : ∀ act ∈ acts, act.Possible height skips)
    (low : initial.content.height ≤ height)
    (run : Run (Acts digests) (withLastConfirmed digests localPeerSigner initial app config) acts
      shared) :
    shared.core.Within height (skips + acts.length) config.maxProposalHistory := by
  induction run with
  | nil => exact .withLastConfirmed localPeerSigner app config low
  | @snoc acts middle act target _ taken ih =>
      have before := ih fun act mem => all act (List.mem_append_left _ mem)
      obtain ⟨events, run, few⟩ := taken.core_run (all _ List.mem_concat_self)
      have raises : ∀ call ∈ within (P := P) (S := S) height skips act.raise,
          call.Within height (skips + acts.length) ∧ call.raise ≤ act.raise :=
        fun call mem => ⟨mem.1.2.mono (Nat.le_add_right _ _), mem.2⟩
      apply (before.of_run raises run).mono
      rw [List.length_append, ← Nat.add_assoc]
      exact Nat.add_le_add_left few _

end SolidShared

theorem nextEvent_drains {localPeerSigner : PeerSigner P} {config : SolidConfig}
    {events : List (Option (SolidEvent P S))} (manned : initial.content.validators ≠ [])
    {shared : SolidShared P S} {calls : Set (Call P S)} (all : ∀ call ∈ calls, call.Manned)
    (run : Run (SolidCore.Acts digests calls)
      (SolidCore.withLastConfirmed digests localPeerSigner initial app config) events
      shared.core) (now : Nat) :
    ∃ done, shared.nextEvent digests now = .ok done ∧ SolidShared.Sends shared done ∧
      SolidShared.Drained digests done.core := by
  obtain ⟨last, confirmed⟩ := Confirmed.of_run run
  have bounded : ∀ proposal, shared.core.proposals.Has proposal → proposal.height ≤
      (shared.core.proposals.values.map Proposal.height).foldr max 0 := by
    intro proposal has
    have keyed := confirmed.sound.rooted.keyed
    have mem := List.mem_map_of_mem (f := Proposal.height)
      ((ProposalCache.mem_values_iff keyed).mpr has)
    exact List.le_max_of_le' 0 mem (le_refl _)
  exact SolidShared.nextEventWithin_drains confirmed.sound (.of_run manned all run) bounded
    (Nat.le_add_left _ _)

omit [Std.TransOrd P] [Std.LawfulEqOrd P] in
/-- A proposal that is not taken in changes nothing. -/
theorem SolidCore.eq_of_receiveProposal_error {manifest : Manifest P S} {next : SolidCore P S}
    {failure : Error}
    (returned : core.receiveProposal digests manifest = .ok (next, .error failure)) :
    next = core := by
  rw [SolidCore.receiveProposal] at returned
  rcases orFail_eq_ok returned with ⟨_, returned⟩ | ⟨_, resultEq⟩
  · split at returned
    · exact (Prod.mk.inj (Except.ok.inj returned)).1.symm
    · rw [bind_eq_ok_iff] at returned
      obtain ⟨height, _, returned⟩ := returned
      split at returned
      · exact (Prod.mk.inj (Except.ok.inj returned)).1.symm
      · dsimp only at returned
        rw [bind_eq_ok_iff] at returned
        obtain ⟨adopted, _, returned⟩ := returned
        cases (Prod.mk.inj (Except.ok.inj returned)).2
  · exact (Prod.mk.inj resultEq).1

/-- Whatever a node has been through, as long as there is room for sums, a proposal that it does
not take in leaves it as it was.  After one that it takes in, the loop over events ends: all that
can be confirmed has been, at most one event comes after the commits, and unless it lags behind
the node has nothing more to say.  Every call of the core on the way starts where all sums fit. -/
theorem receiveProposal_drains {height skips : Nat} {localPeerSigner : PeerSigner P}
    {config : SolidConfig} {acts : List (SharedCall P S)} {shared : SolidShared P S}
    (manned : initial.content.validators ≠ []) (low : initial.content.height ≤ height)
    (all : ∀ act ∈ acts, act.Possible height skips)
    (room : Room height (skips + acts.length) config.maxProposalHistory)
    (run : Run (SolidShared.Acts digests)
      (SolidShared.withLastConfirmed digests localPeerSigner initial app config) acts shared)
    (now : Nat) {manifest : Manifest P S}
    (isPossible : (SharedCall.receiveProposal manifest).Possible height skips) :
    shared.core.Fits ∧
    ((∃ failure, shared.receiveProposal digests now manifest = .ok (shared, .error failure)) ∨
    ∃ done, shared.receiveProposal digests now manifest = .ok (done, .ok ()) ∧
      SolidShared.Sends shared done ∧ SolidShared.Drained digests done.core ∧
      ∃ events, Run (SolidCore.FitActs digests) shared.core events done.core) := by
  obtain ⟨events, coreRun⟩ := SolidShared.core_run all run
  obtain ⟨last, confirmed⟩ := Confirmed.of_run coreRun
  have isWithin := SolidShared.within_of_run all low run
  obtain ⟨⟨core, result⟩, coreEq⟩ :=
    confirmed.sound.succeeds_receiveProposal isPossible.1
  refine ⟨isWithin.fits room, ?_⟩
  cases result with
  | error failure =>
      obtain rfl := SolidCore.eq_of_receiveProposal_error coreEq
      rw [SolidShared.receiveProposal, coreEq, ok_bind]
      exact .inl ⟨failure, rfl⟩
  | ok _ =>
      have called : shared.core.call digests now (.receiveProposal manifest) =
          .ok (core, none) := by
        rw [SolidCore.call, coreEq]
        rfl
      have received : Run (SolidCore.Acts digests (possible P S height skips))
          (SolidCore.withLastConfirmed digests localPeerSigner initial app config)
          (events ++ [none]) { shared with core }.core :=
        coreRun.snoc (.call isPossible called)
      obtain ⟨done, doneEq, sends, drained⟩ :=
        nextEvent_drains manned (fun _ mem => mem.1) received now
      have returned : shared.receiveProposal digests now manifest = .ok (done, .ok ()) := by
        rw [SolidShared.receiveProposal, coreEq, ok_bind]
        dsimp only
        rw [doneEq]
        rfl
      obtain ⟨steps, stepsRun, few⟩ :=
        (SolidShared.Acts.receiveProposal returned).core_run isPossible
      have raises : ∀ call ∈ SolidShared.within (P := P) (S := S) height skips 0,
          call.Within height (skips + acts.length) ∧ call.raise ≤ 0 :=
        fun call mem => ⟨mem.1.2.mono (Nat.le_add_right _ _), mem.2⟩
      have stepsRoom : Room height (skips + acts.length + 0 * steps.length)
          config.maxProposalHistory := by
        rwa [Nat.zero_mul]
      exact .inr ⟨done, returned, sends, drained, steps,
        SolidCore.run_fits isWithin raises stepsRoom stepsRun⟩

/-- The first of the two validators of the tests. -/
def testShared : SolidShared UncheckedPeerId Nat :=
  .withLastConfirmed testDigests (insecurePeerSigner [2]) (testManifest 0) testApp {}

/-- The second of two nodes receives the first two proposals. -/
theorem receiveProposal_drains_of_two :
    ∃ shared done events, testShared.receiveProposal testDigests 0 (testManifest 1) =
        .ok (shared, .ok ()) ∧
      shared.receiveProposal testDigests 1 (testManifest 2) = .ok (done, .ok ()) ∧
      done.events = [.accept (testAccept 1 [2]), .commit (testManifest 1) (testManifest 2),
        .accept (testAccept 2 [2])] ∧
      SolidShared.Drained testDigests done.core ∧
      Run (SolidCore.FitActs testDigests) shared.core events done.core := by
  have evaluated : (do
      let (shared, first) ← testShared.receiveProposal testDigests 0 (testManifest 1)
      let (shared, second) ← shared.receiveProposal testDigests 1 (testManifest 2)
      pure (first, second, shared.events)) =
        (.ok (.ok (), .ok (), [.accept (testAccept 1 [2]),
          .commit (testManifest 1) (testManifest 2), .accept (testAccept 2 [2])]) :
          Except String _) := by
    decide +kernel
  rw [bind_eq_ok_iff] at evaluated
  obtain ⟨⟨shared, first⟩, sharedEq, evaluated⟩ := evaluated
  dsimp only at evaluated
  rw [bind_eq_ok_iff] at evaluated
  obtain ⟨⟨done, second⟩, doneEq, evaluated⟩ := evaluated
  obtain ⟨rfl, rest⟩ := Prod.mk.inj (Except.ok.inj evaluated)
  obtain ⟨rfl, eventsEq⟩ := Prod.mk.inj rest
  have manned : ∀ height, (testManifest height).content.validators ≠ [] := by
    intro height
    cases height <;> exact List.cons_ne_nil _ _
  have run : Run (SolidShared.Acts testDigests) testShared [.receiveProposal (testManifest 1)]
      shared := .single (.receiveProposal sharedEq)
  have all : ∀ act ∈ [SharedCall.receiveProposal (testManifest 1)], act.Possible 2 0 := by
    intro act mem
    rw [List.mem_singleton.mp mem]
    exact ⟨manned 1, Nat.le_succ 1⟩
  have room : Room 2 (0 + 1) 1024 := ⟨by decide, by decide, by decide⟩
  have isPossible : (SharedCall.receiveProposal (testManifest 2)).Possible 2 0 :=
    ⟨manned 2, le_refl 2⟩
  rcases (receiveProposal_drains (manned 0) (Nat.zero_le 2) all room run 1 isPossible).2 with
    ⟨failure, refused⟩ | ⟨other, otherEq, _, drained, events, fits⟩
  · cases (Prod.mk.inj (Except.ok.inj (doneEq.symm.trans refused))).2
  · obtain rfl := (Prod.mk.inj (Except.ok.inj (doneEq.symm.trans otherEq))).1
    exact ⟨shared, done, events, sharedEq, doneEq, eventsEq, drained, fits⟩

end

end Ciphera.Solid
