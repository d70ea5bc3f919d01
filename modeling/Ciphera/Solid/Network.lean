import Ciphera.Solid.Calls

/-!
# A network of nodes

Every node has a core and may be called at any time.  Proposals and accepts that have been
made may arrive in any order, several times or never, and a leader makes a proposal from what
its core has given out some time before.  A node whose core panics does nothing any more.

Nothing is forged: what arrives has been sent by the node that it names.
-/

namespace Ciphera.Solid

open Ciphera.Lib
open Ciphera.Lib.SkipVoting (State Safe Step)

variable {P S : Type} [Peer P] [DecidableEq P]

/-- What a node may be asked to do. -/
inductive Call (P S : Type)
  | receiveProposal (manifest : Manifest P S)
  | receiveAccept (accept : ProposalAccept P)
  | nextEvent
  | skip

/-- A call at some time.  What a failed call returns is lost. -/
def SolidCore.call (digests : Digests) (now : Nat) (core : SolidCore P S) :
    Call P S → Except String (SolidCore P S × Option (SolidEvent P S))
  | .receiveProposal manifest => do
      let (core, _) ← core.receiveProposal digests manifest
      pure (core, none)
  | .receiveAccept accept => do
      let (core, result) ← core.receiveAccept digests now accept
      pure (core, eventOf result)
  | .nextEvent => core.nextEvent digests now
  | .skip => core.skip digests now

/-- The proposals and accepts are all that have ever been sent, the events all that have been
given out, with their nodes. -/
structure Network (P S : Type) [Peer P] where
  cores : P → SolidCore P S
  manifests : List (Manifest P S)
  events : List (P × SolidEvent P S)

namespace Network

/-- What has been confirmed by a node, in order. -/
def committed (network : Network P S) (node : P) : List (ManifestContent P S) :=
  network.events.filterMap fun
    | (other, .commit manifest _) => if other = node then some manifest.content else none
    | _ => none

/-- A call hears only of what has been sent before. -/
def Heard (network : Network P S) : Call P S → Prop
  | .receiveProposal manifest => manifest ∈ network.manifests
  | .receiveAccept accept => ∃ sender, (sender, .accept accept) ∈ network.events
  | .nextEvent => True
  | .skip => True

/-- All nodes start from one proposal. -/
def start (digests : Digests) (app : App P S) (limit : AcceptThreshold)
    (signers : P → BitVec 256 → Bytes) (config : P → SolidConfig) (initial : Manifest P S) :
    Network P S where
  cores node := .withLastConfirmed digests ⟨signers node, node⟩ initial app
    { config node with acceptThreshold := limit }
  manifests := [initial]
  events := []

/-- What a call of a node leaves. -/
def after (network : Network P S) (node : P) (core : SolidCore P S)
    (event : Option (SolidEvent P S)) : Network P S where
  cores := Function.update network.cores node core
  manifests := network.manifests
  events := network.events ++ event.toList.map (Prod.mk node)

/-- One node acts.  The entries of its hash map may come in another order at any time. -/
inductive Acts (digests : Digests) : Network P S → Network P S → Prop
  | call {network : Network P S} {node : P} {call : Call P S} {now : Nat}
      {core : SolidCore P S} {event : Option (SolidEvent P S)} (heard : network.Heard call)
      (returned : (network.cores node).call digests now call = .ok (core, event)) :
      Acts digests network (network.after node core event)
  | propose {network : Network P S} {node : P} {manifest : Manifest P S}
      (offered : (node, .propose manifest.content.lastProposalHash manifest.content.height
        manifest.content.skips manifest.content.accepts) ∈ network.events)
      (isLeader : manifest.content.leaderId = node) :
      Acts digests network { network with manifests := network.manifests ++ [manifest] }
  | reorder {network : Network P S} {node : P} {cache : ProposalCache P S}
      (sameHash : cache.lastConfirmedProposalHash =
        (network.cores node).proposals.lastConfirmedProposalHash)
      (sameSize : cache.cacheSize = (network.cores node).proposals.cacheSize)
      (permuted : cache.proposals.entries.Perm (network.cores node).proposals.proposals.entries) :
      Acts digests network
        { network with
          cores := Function.update network.cores node
            ((network.cores node).withProposals cache) }

/-- What is to happen next: a node is called, or makes a proposal. -/
inductive Turn (P S : Type)
  | call (node : P) (call : Call P S)
  | propose (node : P) (manifest : Manifest P S)

/-- A call hears only what some validator has sent. -/
def hears [DecidableEq S] (network : Network P S) : Call P S → Bool
  | .receiveProposal manifest => manifest ∈ network.manifests
  | .receiveAccept accept => .accept accept ∈ network.events.map Prod.snd
  | .nextEvent => true
  | .skip => true

/-- One turn, if it is possible. -/
def play [DecidableEq S] (digests : Digests) (now : Nat) (network : Network P S) :
    Turn P S → Option (Network P S)
  | .call node call =>
      if network.hears call then
        match (network.cores node).call digests now call with
        | .ok (core, event) => some (network.after node core event)
        | .error _ => none
      else none
  | .propose node manifest =>
      if (node, .propose manifest.content.lastProposalHash manifest.content.height
          manifest.content.skips manifest.content.accepts) ∈ network.events ∧
          manifest.content.leaderId = node then
        some { network with manifests := network.manifests ++ [manifest] }
      else none

/-- Hashes do not collide, all proposals have the validators of the first one, and no leader
makes two proposals with as many skips from one proposal. -/
structure Orderly (app : App P S) (initial : ManifestContent P S) (network : Network P S) :
    Prop where
  distinct : ∀ first ∈ network.manifests, ∀ second ∈ network.manifests,
    app.hash first.content = app.hash second.content → first.content = second.content
  validators : ∀ manifest ∈ network.manifests, manifest.content.validators = initial.validators
  single : ∀ first ∈ network.manifests, ∀ second ∈ network.manifests,
    first.content.leaderId = second.content.leaderId →
    first.content.lastProposalHash = second.content.lastProposalHash →
    first.content.skips = second.content.skips → first.content = second.content

theorem heard_of_hears [DecidableEq S] {network : Network P S} {call : Call P S}
    (hears : network.hears call = true) : network.Heard call := by
  cases call with
  | receiveProposal manifest =>
      have mem : manifest ∈ network.manifests := of_decide_eq_true hears
      exact mem
  | receiveAccept accept =>
      obtain ⟨⟨sender, event⟩, mem, rfl⟩ := List.mem_map.mp (of_decide_eq_true hears)
      exact ⟨sender, mem⟩
  | nextEvent => trivial
  | skip => trivial

/-- A turn is a step of the network. -/
theorem Acts.of_play [DecidableEq S] {digests : Digests} {now : Nat}
    {network next : Network P S} {turn : Turn P S}
    (played : network.play digests now turn = some next) : Acts digests network next := by
  cases turn with
  | call node call =>
      rw [play] at played
      split at played
      · rename_i heard
        split at played
        · rename_i core event returned
          obtain rfl := Option.some.inj played
          exact .call (heard_of_hears heard) returned
        · cases played
      · cases played
  | propose node manifest =>
      rw [play] at played
      split at played
      · rename_i possible
        obtain rfl := Option.some.inj played
        exact .propose possible.1 possible.2
      · cases played

/-- Turns that can be taken one after another are a run. -/
theorem Acts.of_plays [DecidableEq S] {digests : Digests} {now : Nat}
    {network final : Network P S} {turns : List (Turn P S)}
    (played : turns.foldlM (play digests now) network = some final) :
    Relation.ReflTransGen (Acts digests) network final := by
  induction turns generalizing network with
  | nil =>
      obtain rfl := Option.some.inj played
      exact .refl
  | cons turn turns ih =>
      rw [List.foldlM_cons] at played
      obtain ⟨next, taken, rest⟩ := Option.bind_eq_some_iff.mp played
      exact .head (.of_play taken) (ih rest)

end Network

/-! ## Every run is one of voting with skips -/

section

variable {digests : Digests} {app : App P S} {limit : AcceptThreshold}
  {initial : ManifestContent P S} {node : P} {core : SolidCore P S} {last : Proposal P S}
  {state next : VotingState P S}

omit [DecidableEq P] in
/-- Nothing depends on the order in which the hash map is iterated. -/
theorem Tracks.reorder (tracks : Tracks app limit initial node core last state)
    {cache : ProposalCache P S}
    (sameHash : cache.lastConfirmedProposalHash = core.proposals.lastConfirmedProposalHash)
    (permuted : cache.proposals.entries.Perm core.proposals.proposals.entries) :
    Tracks app limit initial node (core.withProposals cache) last state := by
  have found : ∀ hash, cache.get hash = core.proposals.get hash :=
    fun _ => AList.perm_lookup permuted
  have prunes : core.proposals.Prunes cache := {
    lastHash := sameHash
    sub := fun hash proposal isStored => (found hash).symm.trans isStored
    kept := fun hash proposal isStored _ => (found hash).trans isStored }
  exact tracks.prune prunes

/-- What justifies an event stays so. -/
theorem Justified.mono {event : SolidEvent P S}
    (justified : Justified digests app limit initial node state event)
    (created : state.created ⊆ next.created)
    (grows : ∀ voter hash skips, state.voted voter hash skips → next.voted voter hash skips) :
    Justified digests app limit initial node next event := by
  cases event with
  | propose lastProposalHash height skips accepts =>
      obtain ⟨parent, isCreated, hashEq, heightEq, isLeader, voters, subset, enough, voted⟩ :=
        justified
      exact ⟨parent, created isCreated, hashEq, heightEq, isLeader, voters, subset, enough,
        fun voter mem => grows _ _ _ (voted voter mem)⟩
  | commit manifest confirmedBy => exact justified
  | accept accept => exact grows _ _ _ justified
  | outOfSync height maxSeenHeight => trivial
  | duplicateProposal hash => trivial

namespace Network

variable {network : Network P S}

/-- The cores follow the votes of a state in which the made proposals are the blocks. -/
structure Simulates (digests : Digests) (app : App P S) (limit : AcceptThreshold)
    (initial : ManifestContent P S) (network : Network P S) (state : VotingState P S) :
    Prop where
  safe : Safe (voting app limit initial) state
  tracks : ∀ node, ∃ last, Tracks app limit initial node (network.cores node) last state
  made : ∀ content, content ∈ state.created ↔
    ∃ manifest ∈ network.manifests, manifest.content = content
  justified : ∀ node event, (node, event) ∈ network.events →
    Justified digests app limit initial node state event ∨
      ∃ manifest confirmedBy, event = .commit manifest confirmedBy
  led : ∀ content ∈ state.created, content = initial ∨ ∃ parent ∈ state.created,
    app.hash parent = content.lastProposalHash ∧
      parent.getLeaderForSkip digests content.skips = .ok content.leaderId
  logs : ∀ node, network.committed node = state.log node

@[simp]
theorem cores_after_self (node : P) (core : SolidCore P S) (event : Option (SolidEvent P S)) :
    (network.after node core event).cores node = core :=
  Function.update_self ..

theorem cores_after_of_ne {other : P} (differ : other ≠ node) (core : SolidCore P S)
    (event : Option (SolidEvent P S)) :
    (network.after node core event).cores other = network.cores other :=
  Function.update_of_ne differ ..

/-- A node has confirmed one more proposal after a commit of its own. -/
theorem committed_after (node : P) (core : SolidCore P S) (event : Option (SolidEvent P S))
    (other : P) :
    (network.after node core event).committed other =
      network.committed other ++
        { network with events := event.toList.map (Prod.mk node) }.committed other :=
  List.filterMap_append

namespace Simulates

variable {state : VotingState P S}

/-- At the start nobody has voted, and there is one proposal. -/
theorem of_start [Std.TransOrd P] (signers : P → BitVec 256 → Bytes) (config : P → SolidConfig)
    (initial : Manifest P S) :
    Simulates digests app limit initial.content
      (start digests app limit signers config initial)
      (SkipVoting.start (voting app limit initial.content)) where
  safe := Safe.of_start
  tracks node := by
    let first := Proposal.new app digests initial
    have only : ∀ proposal,
        (ProposalCache.new first (config node).maxProposalHistory).Has proposal →
          proposal = first := by
      intro proposal has
      rw [ProposalCache.Has, ProposalCache.get_new] at has
      split at has
      · exact (Option.some.inj has).symm
      · cases has
    refine ⟨first, ?_⟩
    exact {
      peer := rfl
      app_eq := rfl
      limit_eq := rfl
      rooted := {
        keyed := by
          intro hash proposal found
          change (ProposalCache.new first _).get hash = some proposal at found
          rw [ProposalCache.get_new] at found
          split at found
          · rename_i same
            rw [← Option.some.inj found]
            exact same.symm
          · cases found
        confirmed := by
          change (ProposalCache.new first _).get first.hash = some first
          rw [ProposalCache.get_new, if_pos rfl] }
      confirmed := rfl
      known := by
        intro proposal has
        rw [only proposal has]
        exact ⟨rfl, rfl, rfl, length_orderedValidators digests initial.content⟩
      backed := by
        intro proposal has
        rw [only proposal has]
        exact Backed.of_new digests initial
      orphans := by
        intro hash orphan found
        cases found
      recorded := fun _ _ voted => voted.elim
      sent := by
        intro proposal has positive
        rw [only proposal has] at positive
        exact absurd positive (Nat.lt_irrefl 0) }
  made content := by
    constructor
    · rintro rfl
      exact ⟨initial, List.mem_singleton_self _, rfl⟩
    · rintro ⟨manifest, mem, rfl⟩
      rw [List.mem_singleton.mp mem]
      rfl
  justified _ _ mem := absurd mem List.not_mem_nil
  led _ created := .inl created
  logs _ := rfl

/-- The votes of one node. -/
theorem proceeds (simulates : Simulates digests app limit initial network state)
    {event : Option (SolidEvent P S)}
    (proceeds : Proceeds digests app limit initial node state core event) :
    ∃ next, Simulates digests app limit initial (network.after node core event) next := by
  obtain ⟨last, next, votes, tracks, justified⟩ := proceeds
  refine ⟨next, ?_⟩
  exact {
    safe := simulates.safe.of_steps votes.steps
    tracks := by
      intro other
      rcases eq_or_ne other node with rfl | differ
      · rw [cores_after_self]
        exact ⟨last, tracks⟩
      · rw [cores_after_of_ne differ]
        obtain ⟨otherLast, otherTracks⟩ := simulates.tracks other
        exact ⟨otherLast, otherTracks.mono votes.created.superset (congrFun votes.confirmed other)
          votes.grows fun hash skips => votes.others other hash skips differ⟩
    made := by
      rw [votes.created]
      exact simulates.made
    justified := by
      intro other happened mem
      rcases List.mem_append.mp mem with before | now
      · exact (simulates.justified other happened before).imp_left
          (Justified.mono · votes.created.superset votes.grows)
      · obtain ⟨given, isGiven, pairEq⟩ := List.mem_map.mp now
        obtain ⟨rfl, rfl⟩ := Prod.mk.inj pairEq
        exact .inl (justified given (Option.mem_toList.mp isGiven))
    led := by
      rw [votes.created]
      exact simulates.led
    logs := by
      intro other
      rw [votes.log, ← simulates.logs other, committed_after]
      cases event with
      | none => exact List.append_nil _
      | some happened =>
          cases happened with
          | commit manifest confirmedBy => exact (justified _ rfl).elim
          | propose | accept | outOfSync | duplicateProposal => exact List.append_nil _ }

/-- A commit of one node. -/
theorem confirms (simulates : Simulates digests app limit initial network state)
    {proposal : Proposal P S} {confirmedBy : Manifest P S}
    (taken : Step (voting app limit initial) state
      (state.confirm node proposal.manifest.content))
    (tracks : Tracks app limit initial node core proposal
      (state.confirm node proposal.manifest.content)) :
    Simulates digests app limit initial
      (network.after node core (some (.commit proposal.manifest confirmedBy)))
      (state.confirm node proposal.manifest.content) where
  safe := simulates.safe.of_step taken
  tracks other := by
    rcases eq_or_ne other node with rfl | differ
    · rw [cores_after_self]
      exact ⟨proposal, tracks⟩
    · rw [cores_after_of_ne differ]
      obtain ⟨otherLast, otherTracks⟩ := simulates.tracks other
      exact ⟨otherLast, otherTracks.mono subset_rfl (State.confirmed_confirm_of_ne differ _)
        (fun _ _ _ => id) fun _ _ => id⟩
  made := simulates.made
  justified other happened mem := by
    rcases List.mem_append.mp mem with before | now
    · exact simulates.justified other happened before
    · exact .inr ⟨_, _, (Prod.mk.inj (List.mem_singleton.mp now)).2⟩
  led := simulates.led
  logs other := by
    rw [committed_after]
    rcases eq_or_ne other node with rfl | differ
    · rw [State.log_confirm_self, ← simulates.logs]
      simp [committed]
    · rw [State.log_confirm_of_ne differ, ← simulates.logs]
      simp [committed, differ.symm]

/-- A proposal is made from a quorum of votes. -/
theorem proposes (simulates : Simulates digests app limit initial network state)
    {manifest : Manifest P S}
    (offered : (node, .propose manifest.content.lastProposalHash manifest.content.height
      manifest.content.skips manifest.content.accepts) ∈ network.events)
    (isLeader : manifest.content.leaderId = node)
    (orderly : Orderly app initial { network with manifests := network.manifests ++ [manifest] }) :
    Simulates digests app limit initial
      { network with manifests := network.manifests ++ [manifest] }
      (state.create manifest.content) := by
  obtain ⟨parent, parentCreated, parentHash, heightEq, parentLeads, quorum⟩ :=
    (simulates.justified node _ offered).resolve_right
      (by rintro ⟨_, _, otherwise⟩; cases otherwise)
  have isChild : (voting app limit initial).Child manifest.content parent :=
    ⟨parentHash.symm, heightEq⟩
  have isLast : manifest ∈ network.manifests ++ [manifest] :=
    List.mem_append_right _ (List.mem_singleton_self _)
  have keyed : ∀ other ∈ state.created, app.hash other = app.hash manifest.content →
      other = manifest.content := by
    intro other created same
    obtain ⟨earlier, mem, rfl⟩ := (simulates.made other).mp created
    exact orderly.distinct earlier (List.mem_append_left _ mem) manifest isLast same
  have unique : ∀ other ∈ state.created, (voting app limit initial).Child other parent →
      other.skips = manifest.content.skips → other = manifest.content := by
    intro other created otherChild sameSkips
    rcases simulates.led other created with rfl | ⟨otherParent, otherCreated, otherHash, otherLeads⟩
    · exact absurd otherChild (simulates.safe.not_child_first parentCreated)
    · -- the leader of the parent has made both
      obtain rfl := simulates.safe.keyed otherParent otherCreated parent parentCreated
        (otherHash.trans otherChild.1)
      rw [sameSkips, parentLeads] at otherLeads
      obtain ⟨earlier, mem, rfl⟩ := (simulates.made other).mp created
      exact orderly.single earlier (List.mem_append_left _ mem) manifest isLast
        ((Except.ok.inj otherLeads).symm.trans isLeader.symm) (otherHash.symm.trans parentHash)
        sameSkips
  rw [← parentHash] at quorum
  have grows : state.created ⊆ (state.create manifest.content).created :=
    Set.subset_insert _ _
  exact {
    safe := simulates.safe.create parentCreated isChild quorum keyed unique
    tracks := by
      intro other
      obtain ⟨last, tracks⟩ := simulates.tracks other
      exact ⟨last, tracks.mono grows rfl (fun _ _ _ => id) fun _ _ => id⟩
    made := by
      intro content
      constructor
      · rintro (rfl | created)
        · exact ⟨manifest, isLast, rfl⟩
        · obtain ⟨earlier, mem, rfl⟩ := (simulates.made content).mp created
          exact ⟨earlier, List.mem_append_left _ mem, rfl⟩
      · rintro ⟨other, mem, rfl⟩
        rcases List.mem_append.mp mem with before | now
        · exact .inr ((simulates.made _).mpr ⟨other, before, rfl⟩)
        · rw [List.mem_singleton.mp now]
          exact .inl rfl
    justified := by
      intro other event mem
      exact (simulates.justified other event mem).imp_left (Justified.mono · grows fun _ _ _ => id)
    led := by
      rintro content (rfl | created)
      · exact .inr ⟨parent, grows parentCreated, parentHash, isLeader ▸ parentLeads⟩
      · exact (simulates.led content created).imp_right fun ⟨other, otherCreated, rest⟩ =>
          ⟨other, grows otherCreated, rest⟩
    logs := simulates.logs }

/-- What arrives has been sent. -/
theorem calls [Std.TransOrd P] [Std.LawfulEqOrd P]
    (simulates : Simulates digests app limit initial network state)
    (validators : ∀ manifest ∈ network.manifests,
      manifest.content.validators = initial.validators)
    {call : Call P S} (heard : network.Heard call) {now : Nat}
    {event : Option (SolidEvent P S)}
    (returned : (network.cores node).call digests now call = .ok (core, event)) :
    ∃ next, Simulates digests app limit initial (network.after node core event) next := by
  obtain ⟨last, tracks⟩ := simulates.tracks node
  cases call with
  | receiveProposal manifest =>
      rw [SolidCore.call, bind_eq_ok_iff] at returned
      obtain ⟨⟨received, result⟩, receivedEq, returned⟩ := returned
      obtain ⟨rfl, rfl⟩ := Prod.mk.inj (Except.ok.inj returned)
      have receivedTracks := tracks.receiveProposal
        ((simulates.made _).mpr ⟨manifest, heard, rfl⟩) (validators manifest heard) receivedEq
      apply simulates.proceeds
      exact receivedTracks.proceeds fun _ otherwise => absurd otherwise (Option.some_ne_none _).symm
  | receiveAccept accept =>
      obtain ⟨sender, mem⟩ := heard
      have voted := (simulates.justified sender _ mem).resolve_right
        (by rintro ⟨_, _, otherwise⟩; cases otherwise)
      rw [SolidCore.call, bind_eq_ok_iff] at returned
      obtain ⟨⟨received, result⟩, receivedEq, returned⟩ := returned
      obtain ⟨rfl, rfl⟩ := Prod.mk.inj (Except.ok.inj returned)
      exact simulates.proceeds (tracks.receiveAccept simulates.safe voted receivedEq)
  | nextEvent =>
      rcases tracks.nextEvent simulates.safe returned with
        ⟨proposal, confirmedBy, isCommit, taken, confirmedTracks⟩ | proceeds
      · obtain rfl : event = _ := isCommit
        exact ⟨_, simulates.confirms taken confirmedTracks⟩
      · exact simulates.proceeds proceeds
  | skip => exact simulates.proceeds (tracks.skip simulates.safe returned)

theorem reorders (simulates : Simulates digests app limit initial network state)
    {cache : ProposalCache P S}
    (sameHash : cache.lastConfirmedProposalHash =
      (network.cores node).proposals.lastConfirmedProposalHash)
    (permuted : cache.proposals.entries.Perm (network.cores node).proposals.proposals.entries) :
    Simulates digests app limit initial
      { network with
        cores := Function.update network.cores node ((network.cores node).withProposals cache) }
      state where
  safe := simulates.safe
  tracks other := by
    dsimp only
    rcases eq_or_ne other node with rfl | differ
    · rw [Function.update_self]
      obtain ⟨last, tracks⟩ := simulates.tracks other
      exact ⟨last, tracks.reorder sameHash permuted⟩
    · rw [Function.update_of_ne differ]
      exact simulates.tracks other
  made := simulates.made
  justified := simulates.justified
  led := simulates.led
  logs := simulates.logs

end Simulates

omit [DecidableEq P] in
/-- Fewer proposals are orderly too. -/
theorem Orderly.mono {later : Network P S} (orderly : Orderly app initial later)
    (subset : network.manifests ⊆ later.manifests) : Orderly app initial network where
  distinct first mem second other := orderly.distinct first (subset mem) second (subset other)
  validators manifest mem := orderly.validators manifest (subset mem)
  single first mem second other := orderly.single first (subset mem) second (subset other)

theorem exists_simulates [Std.TransOrd P] [Std.LawfulEqOrd P] {signers : P → BitVec 256 → Bytes}
    {config : P → SolidConfig} {initial : Manifest P S}
    (run : Relation.ReflTransGen (Acts digests)
      (start digests app limit signers config initial) network)
    (orderly : Orderly app initial.content network) :
    ∃ state, Simulates digests app limit initial.content network state := by
  induction run with
  | refl => exact ⟨_, .of_start signers config initial⟩
  | tail _ taken ih =>
      cases taken with
      | call heard returned =>
          obtain ⟨state, simulates⟩ := ih (orderly.mono (List.Subset.refl _))
          exact simulates.calls orderly.validators heard returned
      | propose offered isLeader =>
          obtain ⟨state, simulates⟩ := ih (orderly.mono (List.subset_append_left _ _))
          exact ⟨_, simulates.proposes offered isLeader orderly⟩
      | reorder sameHash _ permuted =>
          obtain ⟨state, simulates⟩ := ih (orderly.mono (List.Subset.refl _))
          exact ⟨_, simulates.reorders sameHash permuted⟩

/-- Any two nodes confirm the same proposals in the same order, as far as both have come. -/
theorem committed_prefix [Std.TransOrd P] [Std.LawfulEqOrd P] {signers : P → BitVec 256 → Bytes}
    {config : P → SolidConfig} {initial : Manifest P S}
    (run : Relation.ReflTransGen (Acts digests)
      (start digests app limit signers config initial) network)
    (orderly : Orderly app initial.content network) (first second : P) :
    network.committed first <+: network.committed second ∨
      network.committed second <+: network.committed first := by
  obtain ⟨state, simulates⟩ := exists_simulates run orderly
  rw [simulates.logs, simulates.logs]
  exact simulates.safe.agreement first second

end Network

end

/-! ## Two nodes -/

/-- Peers whose signatures are not checked. -/
abbrev UncheckedPeerId := Bytes

/-- Validators of the tests are named by bytes, and every signature of theirs is right. -/
instance : Peer UncheckedPeerId where
  verify _ _ _ := true
  toU256 peer := BitVec.ofNat 256 (fromBeBytes peer.reverse)
  display peer := toString (fromBeBytes peer)

/-- A signer that signs with nothing. -/
def insecurePeerSigner (peer : UncheckedPeerId) : PeerSigner UncheckedPeerId := ⟨fun _ => [], peer⟩

/-- Hashes that put all validators in one place. -/
def testDigests : Digests := ⟨fun _ => 0, fun _ => 0⟩

/-- Proposals are told apart by their heights. -/
def testApp : App UncheckedPeerId Nat where
  validateStructure _ := true
  validateContents _ _ := true
  hash content := BitVec.ofNat 256 (content.height + 1)

/-- The accept of a validator for the proposal of a height. -/
def testAccept (height : Nat) (peer : UncheckedPeerId) : ProposalAccept UncheckedPeerId :=
  ⟨[1], ⟨BitVec.ofNat 256 (height + 1), height, 0⟩, 0, peer, []⟩

/-- The first of two validators leads at every height. -/
def testManifest : Nat → Manifest UncheckedPeerId Nat
  | 0 => ⟨⟨0, 0, 0, [1], 0, [[1], [2]], []⟩, []⟩
  | height + 1 =>
      ⟨⟨BitVec.ofNat 256 (height + 1), 0, height + 1, [1], 0, [[1], [2]],
        [testAccept height [1], testAccept height [2]]⟩, []⟩

/-- The network of the tests, before its first call. -/
def testNetwork : Network UncheckedPeerId Nat :=
  .start testDigests testApp .moreThanTwoThirds (fun _ _ => []) (fun _ => {}) (testManifest 0)

/-- Both accept the first two proposals, then the first node hears of a third one. -/
def testTurns : List (Network.Turn UncheckedPeerId Nat) :=
  [.call [1] .nextEvent, .call [2] .nextEvent, .call [1] (.receiveAccept (testAccept 0 [2])),
    .propose [1] (testManifest 1), .call [1] (.receiveProposal (testManifest 1)),
    .call [2] (.receiveProposal (testManifest 1)), .call [2] .nextEvent, .call [1] .nextEvent,
    .call [1] (.receiveAccept (testAccept 1 [2])), .propose [1] (testManifest 2),
    .call [1] (.receiveProposal (testManifest 2)), .call [1] .nextEvent]

theorem testTurns_played : (testTurns.foldlM (Network.play testDigests 0) testNetwork).map
    (fun network => (network.committed [1], network.committed [2], network.manifests)) =
      some ([(testManifest 1).content], [], [testManifest 0, testManifest 1, testManifest 2]) := by
  decide +kernel

/-- The first node has confirmed more than the second one. -/
theorem Network.committed_prefix_of_two :
    ∃ network, Relation.ReflTransGen (Acts testDigests) testNetwork network ∧
      network.committed [1] = [(testManifest 1).content] ∧ network.committed [2] = [] ∧
      (network.committed [1] <+: network.committed [2] ∨
        network.committed [2] <+: network.committed [1]) := by
  obtain ⟨network, played, results⟩ := Option.map_eq_some_iff.mp testTurns_played
  obtain ⟨firstEq, rest⟩ := Prod.mk.inj results
  obtain ⟨secondEq, manifestsEq⟩ := Prod.mk.inj rest
  have run := Acts.of_plays played
  have orderly : Orderly testApp (testManifest 0).content network := by
    constructor <;> rw [manifestsEq] <;> decide +kernel
  exact ⟨network, run, firstEq, secondEq, committed_prefix run orderly [1] [2]⟩

end Ciphera.Solid
