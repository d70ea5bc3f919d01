import Ciphera.Solid.Cache

/-!
# Processing proposals and accepts

The core of a node takes in proposals and accepts, and gives out events: a proposal to make,
one to commit, an accept to send, or that it lags behind.  The proposal that it sends
accepts for is the next one above the last confirmed one, unless that has been skipped;
then it is the last confirmed one.

A call that adds an accept may send one of its own, which is added in turn.
-/

namespace Ciphera.Solid

open Ciphera.Lib

variable {P S : Type}

/-- Times are in milliseconds. -/
structure SolidConfig where
  maxProposalHistory : Nat := 1024
  skipTimeout : Nat := 5000
  outOfSyncTimeout : Nat := 60000
  acceptThreshold : AcceptThreshold := .moreThanTwoThirds
  missingProposalTimeout : Nat := 5000

/-- What the consensus asks its owner to do, or reports. -/
inductive SolidEvent (P S : Type)
  | propose (lastProposalHash : ProposalHash) (height skips : Nat)
      (accepts : List (ProposalAccept P))
  | commit (manifest confirmedBy : Manifest P S)
  | accept (accept : ProposalAccept P)
  | outOfSync (height maxSeenHeight : Nat)
  | duplicateProposal (proposalHash : ProposalHash)
  deriving DecidableEq, Repr

/-- Accepts for a proposal that is not known yet. -/
structure ProposalOrphan (P : Type) where
  accepts : List (ProposalAccept P)
  firstSeen : Nat

/-- The state of the consensus at one validator. -/
structure SolidCore (P S : Type) [Peer P] where
  localPeerSigner : PeerSigner P
  proposals : ProposalCache P S
  orphanAccepts : AList fun _ : ProposalHash => ProposalOrphan P := ∅
  app : App P S
  config : SolidConfig
  maxHeight : Nat

/-- A failed check ends a call with an error, a panic ends it altogether. -/
def orFail {σ α : Type} (checked : Except (Stop Error) Unit) (state : σ)
    (rest : Except String (σ × Except Error α)) : Except String (σ × Except Error α) :=
  match checked with
  | .ok _ => rest
  | .error (.error failure) => pure (state, .error failure)
  | .error (.panic message) => .error message

namespace SolidCore

variable [Peer P] [DecidableEq P] (digests : Digests)

/-- The state after a confirmed proposal, of which nothing else is known. -/
def withLastConfirmed (localPeerSigner : PeerSigner P) (lastConfirmedProposal : Manifest P S)
    (app : App P S) (config : SolidConfig) : SolidCore P S where
  localPeerSigner := localPeerSigner
  proposals := .new (.new app digests lastConfirmedProposal) config.maxProposalHistory
  app := app
  config := config
  maxHeight := lastConfirmedProposal.content.height

/-- How many accepts are enough. -/
def limit (core : SolidCore P S) : AcceptThreshold := core.config.acceptThreshold

/-- The height of the last confirmed proposal. -/
def height (core : SolidCore P S) : Except String Nat := core.proposals.height

/-- Write to the proposal at a hash. -/
def write (core : SolidCore P S) (hash : ProposalHash) (proposal : Proposal P S) :
    SolidCore P S :=
  { core with proposals := core.proposals.write hash proposal }

/-- A height was heard of that is more than one above what is confirmed. -/
def isOutOfSync (core : SolidCore P S) : Except String Bool := do
  let height ← core.height
  pure (core.maxHeight > height + 1)

/-! ## The current proposal -/

/-- The next proposal, unless the network or this node has skipped it. -/
def highestNextPending (core : SolidCore P S) : Except String (Option (Proposal P S)) := do
  let lastConfirmed ← core.proposals.lastConfirmedProposal
  let lastConfirmedHighestSkip := (lastConfirmed.highestSkipWithInverse core.limit).getD 0
  let next ← core.proposals.nextPendingProposal 0
  pure (next.filter fun proposal =>
    !(lastConfirmedHighestSkip > proposal.skips || lastConfirmed.skipsSent > proposal.skips))

/-- The proposal has been validated, or is valid on top of the last confirmed one. -/
def hasValidContents (core : SolidCore P S) (lastConfirmed proposal : Proposal P S) :
    Except String Bool :=
  if proposal.isValidated then pure true
  else
    match proposal.validateContents digests core.app lastConfirmed with
    | .ok _ => pure true
    | .error (.error _) => pure false
    | .error (.panic message) => .error message

/-- Remove invalid proposals until the next one is valid or there is none.  Each of them is
one proposal less, which bounds the number of rounds. -/
def validatedWithin : Nat → SolidCore P S → Except String (SolidCore P S × ProposalHash)
  | rounds, core => do
      let lastConfirmed ← core.proposals.lastConfirmedProposal
      match ← core.highestNextPending with
      | none => pure (core, lastConfirmed.hash)
      | some proposal =>
          if ← core.hasValidContents digests lastConfirmed proposal then
            pure (core, proposal.hash)
          else
            match rounds with
            | 0 => .error "out of rounds"
            | rounds + 1 =>
                validatedWithin rounds
                  { core with proposals := core.proposals.remove proposal.hash }

/-- The hash of the proposal that accepts are sent for, once the invalid ones above it are
gone. -/
def validatedCurrentProposalHash (core : SolidCore P S) :
    Except String (SolidCore P S × ProposalHash) :=
  validatedWithin digests core.proposals.proposals.entries.length core

/-- The proposal that accepts are sent for, marked as validated. -/
def validatedCurrentProposal (core : SolidCore P S) :
    Except String (SolidCore P S × Proposal P S) := do
  let (core, hash) ← core.validatedCurrentProposalHash digests
  match core.proposals.get hash with
  | none => .error "Proposal is current, but now missing from proposal cache"
  | some proposal =>
      let proposal := { proposal with isValidated := true }
      pure (core.write hash proposal, proposal)

/-! ## Accepts -/

/-- The next accept of this node, recorded in the current proposal. -/
def nextAccept (skip : Bool) (core : SolidCore P S) :
    Except String (SolidCore P S × ProposalAccept P) := do
  let localPeer := core.localPeerSigner.peer
  let (core, currentProposal) ← core.validatedCurrentProposal digests
  let skips := currentProposal.nextAcceptSkip core.limit skip
  let proposalHeader : ProposalHeader :=
    ⟨currentProposal.hash, currentProposal.height, currentProposal.skips⟩
  let signature := core.localPeerSigner.sign (acceptSigHash digests proposalHeader skips)
  let (core, currentProposal) ← core.validatedCurrentProposal digests
  let leaderId ← currentProposal.manifest.content.getLeaderForSkip digests skips
  pure (core.write currentProposal.hash
      { currentProposal with skipsSent := skips, initialAcceptSent := true },
    ⟨leaderId, proposalHeader, skips, localPeer, signature⟩)

/-- Whether there are enough accepts and this node leads. -/
def leads (core : SolidCore P S) (breached : Bool) (proposal : Proposal P S) (skips : Nat) :
    Except String Bool :=
  if breached then do
    let leader ← proposal.manifest.content.getLeaderForSkip digests skips
    pure (leader = core.localPeerSigner.peer)
  else pure false

/-- The accepts for a proposal that is not known, with one more. -/
def orphanWith (now : Nat) (accept : ProposalAccept P) (core : SolidCore P S) :
    ProposalOrphan P :=
  match core.orphanAccepts.lookup accept.proposal.hash with
  | some orphan => { orphan with accepts := orphan.accepts ++ [accept] }
  | none => ⟨[accept], now⟩

/-- Keep an accept for a proposal that is not known, and see whether it has been missing for
too long. -/
def addOrphan (now : Nat) (accept : ProposalAccept P) (core : SolidCore P S) :
    Except String (SolidCore P S × Option (SolidEvent P S)) := do
  let orphan := core.orphanWith now accept
  let core := { core with
    orphanAccepts := core.orphanAccepts.insert accept.proposal.hash orphan }
  let (core, currentProposal) ← core.validatedCurrentProposal digests
  let missingMoreThanOneProposal := accept.proposal.height > currentProposal.height + 1
  let proposalFirstSeenExpired := now - orphan.firstSeen > core.config.missingProposalTimeout
  let acceptIsGreater :=
    accept.proposal.height > currentProposal.height || accept.proposal.skips > currentProposal.skips
  if missingMoreThanOneProposal || (proposalFirstSeenExpired && acceptIsGreater) then
    let height ← core.height
    pure (core, some (.outOfSync height accept.proposal.height))
  else pure (core, none)

/-- Add an accept.  The argument `next` is what sends the next accept of this node. -/
def addAcceptThen
    (next : SolidCore P S → Except String (SolidCore P S × Option (SolidEvent P S))) (now : Nat)
    (accept : ProposalAccept P) (core : SolidCore P S) :
    Except String (SolidCore P S × Option (SolidEvent P S)) := do
  let height ← core.height
  if height > accept.proposal.height then pure (core, none)
  else
    let isOutOfSync ← core.isOutOfSync
    let (core, currentProposal) ← core.validatedCurrentProposal digests
    match core.proposals.get accept.proposal.hash with
    | none => core.addOrphan digests now accept
    | some proposal =>
        let (proposal, breached) ← proposal.addAccept digests core.limit accept
        let core := core.write accept.proposal.hash proposal
        let leads ← core.leads digests breached proposal accept.skips
        if leads && !isOutOfSync then
          pure (core, some (.propose accept.proposal.hash (proposal.height + 1) accept.skips
            ((proposal.acceptsForSkip accept.skips).getD [])))
        else if currentProposal.hash = accept.proposal.hash ∧
            accept.skips > proposal.skipsSent then
          next (core.write accept.proposal.hash { proposal with skipsSent := accept.skips })
        else pure (core, none)

/-- Send the next accept.  The argument `add` is what adds an accept. -/
def nextAcceptThen
    (add : ProposalAccept P → SolidCore P S →
      Except String (SolidCore P S × Option (SolidEvent P S)))
    (skip : Bool) (core : SolidCore P S) :
    Except String (SolidCore P S × Option (SolidEvent P S)) := do
  let (core, own) ← core.nextAccept digests skip
  let (core, event) ← add own core
  pure (core, event.or (some (.accept own)))

/-- Adding an accept may send another one, which is added in turn, as often as `calls` says. -/
def addAcceptWithin (now : Nat) : Nat → ProposalAccept P → SolidCore P S →
    Except String (SolidCore P S × Option (SolidEvent P S))
  | 0 => addAcceptThen digests (fun _ => .error "stack overflow") now
  | calls + 1 =>
      addAcceptThen digests (nextAcceptThen digests (addAcceptWithin now calls) false) now

/-- The accept that is sent is added, which sends no other one. -/
def getNextAcceptEvent (now : Nat) (skip : Bool) (core : SolidCore P S) :
    Except String (SolidCore P S × Option (SolidEvent P S)) :=
  core.nextAcceptThen digests (addAcceptWithin digests now 0) skip

/-- Add an accept that has come, or the own one, which may send another. -/
def addAccept (now : Nat) (accept : ProposalAccept P) (core : SolidCore P S) :
    Except String (SolidCore P S × Option (SolidEvent P S)) :=
  core.addAcceptWithin digests now 1 accept

/-! ## Calls -/

/-- A proposal with the accepts for it that came before it. -/
def adoptOrphans (limit : AcceptThreshold) (orphan : Option (ProposalOrphan P))
    (proposal : Proposal P S) : Except String (Proposal P S) :=
  match orphan with
  | none => pure proposal
  | some orphan =>
      orphan.accepts.foldlM (fun proposal accept => do
        let (proposal, _) ← proposal.addAccept digests limit accept
        pure proposal) proposal

/-- A proposal that has arrived is kept if it is new, well formed and high enough. -/
def receiveProposal (manifest : Manifest P S) (core : SolidCore P S) :
    Except String (SolidCore P S × Except Error Unit) :=
  let proposal := Proposal.new core.app digests manifest
  orFail (proposal.validateStructure digests core.app core.limit) core do
    if core.proposals.contains proposal.hash then
      pure (core, .error (.proposalAlreadyExists proposal.hash))
    else
      let height ← core.height
      if height ≥ proposal.height then pure (core, .error .proposalHeightTooLow)
      else
        let maxHeight :=
          if proposal.height > core.maxHeight then proposal.height else core.maxHeight
        let orphan := core.orphanAccepts.lookup proposal.hash
        let orphanAccepts := core.orphanAccepts.erase proposal.hash
        let proposal ← adoptOrphans digests core.limit orphan proposal
        pure ({ core with maxHeight, orphanAccepts, proposals := core.proposals.insert proposal },
          .ok ())

/-- The next proposal and the one that confirms it, if there are both. -/
def committable (core : SolidCore P S) :
    Except String (Option (Proposal P S × Proposal P S)) := do
  match ← core.proposals.nextPendingProposal 0 with
  | none => pure none
  | some proposal =>
      match ← core.proposals.nextPendingProposal 1 with
      | none => pure none
      | some confirmedBy => pure (some (proposal, confirmedBy))

/-- What is to be done next: a commit, a report of being out of sync, or an accept. -/
def nextEvent (now : Nat) (core : SolidCore P S) :
    Except String (SolidCore P S × Option (SolidEvent P S)) := do
  match ← core.committable with
  | some (proposal, confirmedBy) =>
      let proposals ← core.proposals.confirm (core.app.hash proposal.manifest.content)
      pure ({ core with proposals }, some (.commit proposal.manifest confirmedBy.manifest))
  | none =>
      if ← core.isOutOfSync then
        let height ← core.height
        pure (core, some (.outOfSync height core.maxHeight))
      else
        let (core, currentProposal) ← core.validatedCurrentProposal digests
        if !currentProposal.initialAcceptSent then core.getNextAcceptEvent digests now false
        else pure (core, none)

/-- The accept of the next skip, unless this node is out of sync. -/
def skip (now : Nat) (core : SolidCore P S) :
    Except String (SolidCore P S × Option (SolidEvent P S)) := do
  if ← core.isOutOfSync then pure (core, none)
  else core.getNextAcceptEvent digests now true

/-- Check an accept against its proposal, if that is known. -/
def validateKnown (core : SolidCore P S) (accept : ProposalAccept P) :
    Except (Stop Error) Unit :=
  match core.proposals.get accept.proposal.hash with
  | none => pure ()
  | some proposal => proposal.validateAccept digests accept

/-- An accept that has come is added if its signature and what it is for are right. -/
def receiveAccept (now : Nat) (accept : ProposalAccept P) (core : SolidCore P S) :
    Except String (SolidCore P S × Except Error (Option (SolidEvent P S))) :=
  orFail (accept.verifySignature digests) core do
    let (core, earlierProposal) ← core.validatedCurrentProposal digests
    let height ← core.height
    let core :=
      if accept.proposal.height > height then { core with maxHeight := accept.proposal.height }
      else core
    orFail (core.validateKnown digests accept) core do
      let (core, event) ← core.addAccept digests now accept
      match event with
      | some event => pure (core, .ok (some event))
      | none =>
          -- the accept may have changed which proposal is current
          let (core, currentProposal) ← core.validatedCurrentProposal digests
          if earlierProposal.hash ≠ currentProposal.hash then
            let (core, event) ← core.getNextAcceptEvent digests now false
            pure (core, .ok event)
          else pure (core, .ok none)

end SolidCore

end Ciphera.Solid
