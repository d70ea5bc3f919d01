import Ciphera.Solid.Moves
import Ciphera.Solid.Network

/-!
# Runs of one node

A node that is called with anything at all, be it forged or not, in any order: what it
confirms is one chain, and what it proposes passes the checks of the others.
-/

namespace Ciphera.Solid

open Ciphera.Lib

variable {P S : Type} [Peer P] [DecidableEq P]

/-- A node is called, or its hash map comes in another order, and something is given out.
What it may be called with is a set of calls. -/
inductive SolidCore.Acts (digests : Digests) (calls : Set (Call P S)) :
    SolidCore P S → Option (SolidEvent P S) → SolidCore P S → Prop
  | call {core next : SolidCore P S} {now : Nat} {call : Call P S}
      {event : Option (SolidEvent P S)} (mem : call ∈ calls)
      (returned : core.call digests now call = .ok (next, event)) :
      Acts digests calls core event next
  | reorder {core : SolidCore P S} {cache : ProposalCache P S}
      (sameHash : cache.lastConfirmedProposalHash = core.proposals.lastConfirmedProposalHash)
      (sameSize : cache.cacheSize = core.proposals.cacheSize)
      (permuted : cache.proposals.entries.Perm core.proposals.proposals.entries) :
      Acts digests calls core none (core.withProposals cache)

/-- What a node does with some calls it does with more. -/
theorem SolidCore.Acts.mono {digests : Digests} {fewer calls : Set (Call P S)}
    (subset : fewer ⊆ calls) {core next : SolidCore P S} {event : Option (SolidEvent P S)}
    (acts : SolidCore.Acts digests fewer core event next) :
    SolidCore.Acts digests calls core event next := by
  cases acts with
  | call mem returned => exact .call (subset mem) returned
  | reorder sameHash sameSize permuted => exact .reorder sameHash sameSize permuted

/-- Calls one after another, with what they give out. -/
def SolidCore.callAll (digests : Digests) (now : Nat) :
    List (Call P S) → SolidCore P S → Except String (SolidCore P S × List (Option (SolidEvent P S)))
  | [], core => pure (core, [])
  | call :: calls, core => do
      let (core, event) ← core.call digests now call
      let (core, events) ← callAll digests now calls core
      pure (core, event :: events)

/-- Calls that return are a run. -/
theorem SolidCore.run_of_callAll {digests : Digests} {now : Nat} {called : List (Call P S)}
    {calls : Set (Call P S)} {core final : SolidCore P S} {events : List (Option (SolidEvent P S))}
    (possible : ∀ call ∈ called, call ∈ calls)
    (returned : core.callAll digests now called = .ok (final, events)) :
    Run (SolidCore.Acts digests calls) core events final := by
  induction called generalizing core events with
  | nil =>
      obtain ⟨rfl, rfl⟩ := Prod.mk.inj (Except.ok.inj returned)
      exact .nil
  | cons call called ih =>
      rw [callAll, bind_eq_ok_iff] at returned
      obtain ⟨⟨next, event⟩, callEq, returned⟩ := returned
      rw [bind_eq_ok_iff] at returned
      obtain ⟨⟨last, later⟩, laterEq, returned⟩ := returned
      obtain ⟨rfl, rfl⟩ := Prod.mk.inj (Except.ok.inj returned)
      have taken : Run (SolidCore.Acts digests calls) core [event] next :=
        .single (.call (possible call List.mem_cons_self) callEq)
      exact taken.trans (ih (fun other mem => possible other (List.mem_cons_of_mem _ mem)) laterEq)

/-- The proposals among the calls. -/
def received (calls : Set (Call P S)) : Set (Manifest P S) :=
  { manifest | .receiveProposal manifest ∈ calls }

/-- What a run has confirmed, each with the proposal that has confirmed it. -/
def commits (events : List (Option (SolidEvent P S))) : List (Manifest P S × Manifest P S) :=
  events.filterMap fun
    | some (.commit manifest confirmedBy) => some (manifest, confirmedBy)
    | _ => none

/-- A proposal is made on top of another one. -/
def OnTop (app : App P S) (parent child : Manifest P S) : Prop :=
  child.content.lastProposalHash = app.hash parent.content ∧
    child.content.height = parent.content.height + 1

/-- A proposal has passed the checks that need nothing but itself. -/
def Checked (digests : Digests) (app : App P S) (limit : AcceptThreshold)
    (manifest : Manifest P S) : Prop :=
  (Proposal.new app digests manifest).validateStructure digests app limit = .ok ()

section

variable {digests : Digests} {app : App P S} {limit : AcceptThreshold} {initial : Manifest P S}
  {core : SolidCore P S} {last : Proposal P S} {calls : Set (Call P S)} [Std.TransOrd P]
  [Std.LawfulEqOrd P]

/-- One step of a node commits a proposal on top of the last one, or confirms nothing. -/
theorem Sound.acts (sound : Sound digests app limit initial core last)
    {event : Option (SolidEvent P S)} {next : SolidCore P S}
    (acts : SolidCore.Acts digests calls core event next) :
    (∃ proposal confirmedBy, Commits core last proposal confirmedBy next event ∧
      Sound digests app limit initial next proposal) ∨
    ∃ kept, Sound digests app limit initial next kept ∧ kept.manifest = last.manifest ∧
      Does digests (received calls) app limit core next event := by
  have does : Does digests (received calls) app limit core next event →
      ∃ kept, Sound digests app limit initial next kept ∧ kept.manifest = last.manifest ∧
        Does digests (received calls) app limit core next event := by
    intro does
    obtain ⟨kept, keptSound, manifestEq⟩ := sound.of_moves does.moves
    exact ⟨kept, keptSound, manifestEq, does⟩
  cases acts with
  | call mem returned =>
      rename_i call
      cases call with
      | receiveProposal manifest =>
          rw [SolidCore.call, bind_eq_ok_iff] at returned
          obtain ⟨⟨received, result⟩, receivedEq, returned⟩ := returned
          obtain ⟨rfl, rfl⟩ := Prod.mk.inj (Except.ok.inj returned)
          exact .inr (does (.none (sound.receiveProposal mem receivedEq)))
      | receiveAccept accept =>
          rw [SolidCore.call, bind_eq_ok_iff] at returned
          obtain ⟨⟨received, result⟩, receivedEq, returned⟩ := returned
          obtain ⟨rfl, rfl⟩ := Prod.mk.inj (Except.ok.inj returned)
          exact .inr (does (sound.receiveAccept receivedEq))
      | nextEvent =>
          exact (sound.nextEvent returned).imp_right does
      | skip => exact .inr (does (sound.skip returned))
  | reorder sameHash _ permuted =>
      have found : ∀ hash, ProposalCache.get _ hash = core.proposals.get hash :=
        fun _ => AList.perm_lookup permuted
      have prunes : core.proposals.Prunes _ := {
        lastHash := sameHash
        sub := fun hash proposal isStored => (found hash).symm.trans isStored
        kept := fun hash proposal isStored _ => (found hash).trans isStored }
      exact .inr (does (.none (.single (.prune prunes))))

omit [Peer P] [DecidableEq P] [Std.TransOrd P] [Std.LawfulEqOrd P] in
@[simp]
theorem commits_snoc (events : List (Option (SolidEvent P S))) (event : Option (SolidEvent P S)) :
    commits (events ++ [event]) = commits events ++ commits [event] :=
  List.filterMap_append

/-- What is known after a run: where the chain of what has been confirmed ends. -/
structure Confirmed (digests : Digests) (app : App P S) (limit : AcceptThreshold)
    (initial : Manifest P S) (events : List (Option (SolidEvent P S))) (core : SolidCore P S)
    (last : Proposal P S) : Prop where
  sound : Sound digests app limit initial core last
  chain : List.IsChain (OnTop app) (initial :: (commits events).map Prod.fst)
  ends : (initial :: (commits events).map Prod.fst).getLast? = some last.manifest
  height : last.height = initial.content.height + (commits events).length
  confirmed : ∀ manifest confirmedBy, (manifest, confirmedBy) ∈ commits events →
    OnTop app manifest confirmedBy ∧ Checked digests app limit manifest ∧
      Checked digests app limit confirmedBy

namespace Confirmed

variable {events : List (Option (SolidEvent P S))} {event : Option (SolidEvent P S)}
  {next : SolidCore P S}

omit [Std.TransOrd P] [Std.LawfulEqOrd P] in
/-- A proposal above the first one has been checked when it was received. -/
theorem checked (confirmed : Confirmed digests app limit initial events core last)
    {stored : Proposal P S} (hasStored : core.proposals.Has stored)
    (higher : initial.content.height < stored.height) :
    Checked digests app limit stored.manifest := by
  rcases confirmed.sound.checked stored hasStored with isInitial | checked
  · rw [Proposal.height, isInitial] at higher
    exact absurd higher (Nat.lt_irrefl _)
  · exact checked

omit [Std.TransOrd P] [Std.LawfulEqOrd P] in
/-- A commit extends the chain by its proposal. -/
theorem commit (confirmed : Confirmed digests app limit initial events core last)
    {proposal confirmedBy : Proposal P S}
    (taken : Commits core last proposal confirmedBy next event)
    (sound : Sound digests app limit initial next proposal) :
    Confirmed digests app limit initial (events ++ [event]) next proposal := by
  obtain rfl := taken.event
  have onTop : OnTop app last.manifest proposal.manifest :=
    ⟨taken.link.trans (confirmed.sound.known last confirmed.sound.rooted.has).1, taken.higher⟩
  have onTopAfter : OnTop app proposal.manifest confirmedBy.manifest :=
    ⟨taken.linkAfter.trans (confirmed.sound.known proposal taken.has).1, taken.higherAfter⟩
  have added : commits (events ++
      [some (.commit proposal.manifest confirmedBy.manifest)]) =
        commits events ++ [(proposal.manifest, confirmedBy.manifest)] :=
    commits_snoc ..
  have height : proposal.height = initial.content.height + (commits events).length + 1 := by
    rw [← confirmed.height]
    exact onTop.2
  have heightAfter : confirmedBy.height = proposal.height + 1 := onTopAfter.2
  refine ⟨sound, ?_, ?_, ?_, ?_⟩
  · rw [added, List.map_append, ← List.cons_append, List.isChain_append]
    refine ⟨confirmed.chain, List.IsChain.singleton _, ?_⟩
    intro end_ isEnd head isHead
    rw [confirmed.ends, Option.mem_some_iff] at isEnd
    rw [List.map_singleton, List.head?_cons, Option.mem_some_iff] at isHead
    subst isEnd isHead
    exact onTop
  · rw [added, List.map_append, ← List.cons_append]
    exact List.getLast?_concat
  · rw [added, List.length_append, height]
    rfl
  · intro manifest other mem
    rw [added] at mem
    rcases List.mem_append.mp mem with before | now
    · exact confirmed.confirmed manifest other before
    · obtain ⟨rfl, rfl⟩ := Prod.mk.inj (List.mem_singleton.mp now)
      exact ⟨onTopAfter, confirmed.checked taken.has (by omega),
        confirmed.checked taken.hasAfter (by omega)⟩

omit [Std.TransOrd P] [Std.LawfulEqOrd P] in
/-- An event with grounds is no commit. -/
theorem commits_of_does {received : Set (Manifest P S)}
    (does : Does digests received app limit core next event) : commits [event] = [] := by
  cases event with
  | none => rfl
  | some happened =>
      cases happened with
      | commit => exact (does.grounded _ rfl).elim
      | propose | accept | outOfSync | duplicateProposal => rfl

omit [Std.TransOrd P] [Std.LawfulEqOrd P] in
/-- What confirms nothing leaves the chain as it is. -/
theorem keep (confirmed : Confirmed digests app limit initial events core last)
    {kept : Proposal P S} (sound : Sound digests app limit initial next kept)
    (manifestEq : kept.manifest = last.manifest) {received : Set (Manifest P S)}
    (does : Does digests received app limit core next event) :
    Confirmed digests app limit initial (events ++ [event]) next kept := by
  have same : commits (events ++ [event]) = commits events := by
    rw [commits_snoc, commits_of_does does, List.append_nil]
  have height : kept.height = last.height := by
    rw [Proposal.height, manifestEq]
    rfl
  refine ⟨sound, ?_, ?_, ?_, ?_⟩
  · rw [same]
    exact confirmed.chain
  · rw [same, manifestEq]
    exact confirmed.ends
  · rw [same, height]
    exact confirmed.height
  · rw [same]
    exact confirmed.confirmed

theorem of_run {localPeerSigner : PeerSigner P} {config : SolidConfig}
    (run : Run (SolidCore.Acts digests calls)
      (SolidCore.withLastConfirmed digests localPeerSigner initial app config) events core) :
    ∃ last, Confirmed digests app config.acceptThreshold initial events core last := by
  induction run with
  | nil =>
      exact ⟨_, .withLastConfirmed localPeerSigner app config initial, List.IsChain.singleton _,
        rfl, rfl, fun _ _ mem => absurd mem List.not_mem_nil⟩
  | snoc _ acts ih =>
      obtain ⟨last, confirmed⟩ := ih
      rcases confirmed.sound.acts acts with
        ⟨proposal, confirmedBy, taken, sound⟩ | ⟨kept, sound, manifestEq, does⟩
      · exact ⟨proposal, confirmed.commit taken sound⟩
      · exact ⟨kept, confirmed.keep sound manifestEq does⟩

end Confirmed

/-- Whatever a node is called with, it confirms one chain of proposals from the first one on,
without a gap, each after another one on top of it, and all of them with valid accepts. -/
theorem commits_chain {localPeerSigner : PeerSigner P} {config : SolidConfig}
    {events : List (Option (SolidEvent P S))}
    (run : Run (SolidCore.Acts digests calls)
      (SolidCore.withLastConfirmed digests localPeerSigner initial app config) events core) :
    List.IsChain (OnTop app) (initial :: (commits events).map Prod.fst) ∧
      core.height = .ok (initial.content.height + (commits events).length) ∧
      ∀ manifest confirmedBy, (manifest, confirmedBy) ∈ commits events →
        OnTop app manifest confirmedBy ∧
          Checked digests app config.acceptThreshold manifest ∧
          Checked digests app config.acceptThreshold confirmedBy := by
  obtain ⟨last, confirmed⟩ := Confirmed.of_run run
  refine ⟨confirmed.chain, ?_, confirmed.confirmed⟩
  rw [← confirmed.height]
  exact ProposalCache.height_eq confirmed.sound.rooted.confirmed

/-- The first of two nodes alone. -/
def testCore : SolidCore UncheckedPeerId Nat :=
  .withLastConfirmed testDigests (insecurePeerSigner [1]) (testManifest 0) testApp {}

/-- The calls of one validator over two heights. -/
def testCalls : List (Call UncheckedPeerId Nat) :=
  [.nextEvent, .receiveAccept (testAccept 0 [2]), .receiveProposal (testManifest 1), .nextEvent,
    .receiveAccept (testAccept 1 [2]), .receiveProposal (testManifest 2), .nextEvent]

/-- The events that they return. -/
def testEvents : List (Option (SolidEvent UncheckedPeerId Nat)) :=
  [some (.accept (testAccept 0 [1])),
    some (.propose 1 1 0 [testAccept 0 [1], testAccept 0 [2]]), none,
    some (.accept (testAccept 1 [1])),
    some (.propose 2 2 0 [testAccept 1 [1], testAccept 1 [2]]), none,
    some (.commit (testManifest 1) (testManifest 2))]

theorem testCalls_run :
    ∃ core, testCore.callAll testDigests 0 testCalls = .ok (core, testEvents) := by
  have returned : (testCore.callAll testDigests 0 testCalls).map Prod.snd = .ok testEvents := by
    decide +kernel
  obtain ⟨⟨core, events⟩, callEq, rfl⟩ := map_eq_ok_iff.mp returned
  exact ⟨core, callEq⟩

/-- The first proposal is confirmed by the second one. -/
theorem commits_chain_of_two :
    ∃ core, Run (SolidCore.Acts testDigests Set.univ) testCore testEvents core ∧
      List.IsChain (OnTop testApp) [testManifest 0, testManifest 1] ∧ core.height = .ok 1 ∧
      OnTop testApp (testManifest 1) (testManifest 2) := by
  obtain ⟨core, returned⟩ := testCalls_run
  have run : Run (SolidCore.Acts testDigests Set.univ) testCore testEvents core :=
    SolidCore.run_of_callAll (fun call _ => Set.mem_univ call) returned
  obtain ⟨chain, height, confirmed⟩ := commits_chain run
  exact ⟨core, run, chain, height, (confirmed _ _ (List.mem_singleton_self _)).1⟩

/-! ## What a node sends -/

theorem Grounded.of_run {localPeerSigner : PeerSigner P} {config : SolidConfig}
    {events : List (Option (SolidEvent P S))}
    (run : Run (SolidCore.Acts digests calls)
      (SolidCore.withLastConfirmed digests localPeerSigner initial app config) events core) :
    core.localPeerSigner = localPeerSigner ∧ ∀ event, some event ∈ events →
      Grounded digests app config.acceptThreshold localPeerSigner event ∨
        ∃ manifest confirmedBy, event = .commit manifest confirmedBy := by
  induction run with
  | nil => exact ⟨rfl, fun _ mem => absurd mem List.not_mem_nil⟩
  | @snoc events middle event target run acts ih =>
      obtain ⟨signerEq, grounded⟩ := ih
      obtain ⟨last, confirmed⟩ := Confirmed.of_run run
      rw [← signerEq] at grounded ⊢
      rcases confirmed.sound.acts acts with ⟨_, _, taken, _⟩ | ⟨_, _, _, does⟩
      · refine ⟨taken.signer, ?_⟩
        intro happened mem
        rcases List.mem_append.mp mem with before | now
        · exact grounded happened before
        · obtain rfl := List.mem_singleton.mp now
          exact .inr ⟨_, _, Option.some.inj taken.event⟩
      · refine ⟨Moves.signer_eq does.moves, ?_⟩
        intro happened mem
        rcases List.mem_append.mp mem with before | now
        · exact grounded happened before
        · obtain rfl := List.mem_singleton.mp now
          exact .inl (does.grounded happened rfl)

/-- The accepts that have reached the threshold are of different validators, and valid. -/
theorem Proposal.Stocked.acceptsForSkip {proposal : Proposal P S}
    (stocked : proposal.Stocked digests) {skips : Nat}
    (breached : proposal.acceptThresholdBreached skips limit = true) :
    ((proposal.acceptsForSkip skips).getD []).length =
        limit.threshold proposal.orderedValidators.length ∧
      (((proposal.acceptsForSkip skips).getD []).map ProposalAccept.fromPeer).Nodup ∧
      ∀ accept ∈ (proposal.acceptsForSkip skips).getD [], accept.skips = skips ∧
        accept.proposal.hash = proposal.hash ∧ proposal.validateAccept digests accept = .ok () := by
  have listed : (proposal.acceptsForSkip skips).getD [] =
      (proposal.acceptsAt skips).toList.map Prod.snd := by
    rw [Proposal.acceptsForSkip, Proposal.acceptsAt, Std.TreeMap.getD_eq_getD_getElem?]
    cases proposal.incomingAccepts[skips]? with
    | none => rfl
    | some accepts => rfl
  have entries : ∀ entry ∈ (proposal.acceptsAt skips).toList,
      entry.2.skips = skips ∧ entry.2.fromPeer = entry.1 ∧ entry.2.proposal.hash = proposal.hash ∧
        proposal.validateAccept digests entry.2 = .ok () := by
    rintro ⟨peer, accept⟩ mem
    exact stocked skips peer accept (Std.TreeMap.mem_toList_iff_getElem?_eq_some.mp mem)
  rw [listed]
  refine ⟨?_, ?_, ?_⟩
  · rw [Proposal.acceptThresholdBreached, AcceptThreshold.isExactBreach,
      decide_eq_true_iff] at breached
    rw [List.length_map, Std.TreeMap.length_toList, breached]
  · have senders : ((proposal.acceptsAt skips).toList.map Prod.snd).map ProposalAccept.fromPeer =
        (proposal.acceptsAt skips).keys := by
      rw [List.map_map, ← Std.TreeMap.map_fst_toList_eq_keys]
      apply List.map_congr_left
      intro entry mem
      exact (entries entry mem).2.1
    rw [senders]
    exact Std.TreeMap.nodup_keys
  · intro accept mem
    obtain ⟨entry, isEntry, rfl⟩ := List.mem_map.mp mem
    obtain ⟨sameSkips, _, hashEq, valid⟩ := entries entry isEntry
    exact ⟨sameSkips, hashEq, valid⟩

/-- What a leader proposes on an event of its node passes every check of the others but those
of the application: the structure anywhere, and the contents wherever its parent has been
confirmed last. -/
theorem proposed_valid {localPeerSigner : PeerSigner P} {config : SolidConfig}
    {events : List (Option (SolidEvent P S))}
    (run : Run (SolidCore.Acts digests calls)
      (SolidCore.withLastConfirmed digests localPeerSigner initial app config) events core)
    {manifest : Manifest P S}
    (offered : some (.propose manifest.content.lastProposalHash manifest.content.height
      manifest.content.skips manifest.content.accepts) ∈ events)
    (isLeader : manifest.content.leaderId = localPeerSigner.peer)
    (signed : manifest.verify app localPeerSigner.peer = true)
    (accepted : app.validateStructure manifest.content = true) :
    ∃ parent : ManifestContent P S, manifest.content.lastProposalHash = app.hash parent ∧
      manifest.content.height = parent.height + 1 ∧
      (manifest.content.accepts.map ProposalAccept.fromPeer).Nodup ∧
      manifest.content.accepts.length =
        config.acceptThreshold.threshold parent.validators.length ∧
      (manifest.content.validators.length = parent.validators.length →
        Checked digests app config.acceptThreshold manifest) ∧
      ∀ lastConfirmed : Proposal P S, lastConfirmed.manifest.content = parent →
        lastConfirmed.hash = app.hash parent →
        app.validateContents manifest.content parent = true →
        (Proposal.new app digests manifest).validateContents digests app lastConfirmed =
          .ok () := by
  obtain ⟨signerEq, grounded⟩ := Grounded.of_run run
  obtain ⟨proposal, keyEq, orderEq, stocked, hashEq, heightEq, acceptsEq, breached, leads⟩ :=
    (grounded _ offered).resolve_right (by rintro ⟨_, _, otherwise⟩; cases otherwise)
  obtain ⟨enough, distinct, valid⟩ := stocked.acceptsForSkip breached
  rw [← acceptsEq] at enough distinct valid
  rw [orderEq, length_orderedValidators] at enough
  rw [← isLeader] at leads signed
  refine ⟨proposal.manifest.content, ?_, heightEq, distinct, enough, ?_, ?_⟩
  · rw [← hashEq, keyEq]
  · intro sameLength
    have manifestAccepts : ∀ accept ∈ manifest.content.accepts,
        Proposal.validateManifestAccept digests manifest.content accept = .ok () := by
      intro accept mem
      obtain ⟨sameSkips, sameHash, isValid⟩ := valid accept mem
      obtain ⟨verified, leaderEq, _⟩ := Proposal.validateAccept_eq_ok_iff.mp isValid
      rw [sameSkips, leads] at leaderEq
      simp [Proposal.validateManifestAccept, ProposalAccept.verifySignature, verified, sameHash,
        hashEq, Except.ok.inj leaderEq]
    have exceeded : config.acceptThreshold.isExceeded manifest.content.accepts.length
        (manifest.content.orderedValidators digests).length = true := by
      rw [length_orderedValidators, AcceptThreshold.isExceeded, enough, sameLength]
      exact decide_eq_true (le_refl _)
    rw [Checked, Proposal.validateStructure]
    simp only [bind_eq_ok_iff, check_eq_ok_iff, forM_eq_ok_iff]
    exact ⟨(), exceeded, (), signed, (), manifestAccepts, accepted⟩
  · rintro lastConfirmed sameContent sameHash appValid
    have senders : ∀ accept ∈ manifest.content.accepts,
        accept.fromPeer ∈ proposal.manifest.content.validators := by
      intro accept mem
      exact (Proposal.validateAccept_eq_ok_iff.mp (valid accept mem).2.2).2.2
    have named : lastConfirmed.hash = manifest.content.lastProposalHash := by
      rw [sameHash, ← keyEq, hashEq]
    rw [Proposal.validateContents, sameContent]
    simp only [bind_eq_ok_iff, check_eq_ok_iff, forM_eq_ok_iff, Proposal.liftPanic_eq_ok_iff]
    exact ⟨(), named, _, leads, (), rfl, (), appValid, senders⟩

/-- What the first of two nodes offers to propose first passes the checks of the other. -/
theorem proposed_valid_of_two :
    ∃ parent : ManifestContent UncheckedPeerId Nat, testApp.hash parent = 1 ∧ parent.height = 0 ∧
      (testManifest 1).content.validators.length = parent.validators.length ∧
      Checked testDigests testApp .moreThanTwoThirds (testManifest 1) := by
  obtain ⟨core, returned⟩ := testCalls_run
  have run : Run (SolidCore.Acts testDigests Set.univ) testCore testEvents core :=
    SolidCore.run_of_callAll (fun call _ => Set.mem_univ call) returned
  have offered : some (.propose (testManifest 1).content.lastProposalHash
      (testManifest 1).content.height (testManifest 1).content.skips
      (testManifest 1).content.accepts) ∈ testEvents :=
    List.mem_cons_of_mem _ List.mem_cons_self
  obtain ⟨parent, hashEq, heightEq, _, enough, checked, _⟩ :=
    proposed_valid run offered rfl rfl rfl
  -- two accepts are more than two thirds of two validators, and of no other number
  have two : 2 = parent.validators.length * 2 / 3 + 1 := enough
  have sameLength : (testManifest 1).content.validators.length = parent.validators.length := by
    change 2 = parent.validators.length
    omega
  exact ⟨parent, hashEq.symm, (Nat.succ.inj heightEq).symm, sameLength, checked sameLength⟩

end

end Ciphera.Solid
