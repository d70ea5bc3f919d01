import Ciphera.Lib.Run
import Ciphera.Solid.Calls

/-!
# What a call may change

A call makes a few small moves, whatever it is called with: it prunes the cache, records
something in a cached proposal, holds an accept back, takes in a proposal or confirms one.
What every move keeps holds of a core at any time.
-/

namespace Ciphera.Solid

open Ciphera.Lib

variable {P S : Type} [Peer P] [DecidableEq P]

/-! ## Moves -/

/-- A valid accept for a proposal is stored with it. -/
inductive Stores (digests : Digests) : Proposal P S → Proposal P S → Prop
  | accept {proposal : Proposal P S} {accept : ProposalAccept P}
      (hashEq : accept.proposal.hash = proposal.hash)
      (valid : proposal.validateAccept digests accept = .ok ()) :
      Stores digests proposal (proposal.withAccept accept)

/-- What may be recorded in a proposal. -/
inductive Records (digests : Digests) : Proposal P S → Proposal P S → Prop
  | stores {proposal stored : Proposal P S} (stores : Stores digests proposal stored) :
      Records digests proposal stored
  | validate {proposal : Proposal P S} :
      Records digests proposal { proposal with isValidated := true }
  | raise {proposal : Proposal P S} {skips : Nat} (more : proposal.skipsSent ≤ skips) :
      Records digests proposal { proposal with skipsSent := skips }
  | send {proposal : Proposal P S} {skips : Nat} (more : proposal.skipsSent ≤ skips) :
      Records digests proposal
        { proposal with skipsSent := skips, initialAcceptSent := true }

/-- The small changes that calls are made of, with a set of proposals that may be taken in. -/
inductive Moves (digests : Digests) (received : Set (Manifest P S)) :
    SolidCore P S → SolidCore P S → Prop
  | prune {core : SolidCore P S} {pruned : ProposalCache P S}
      (prunes : core.proposals.Prunes pruned) :
      Moves digests received core (core.withProposals pruned)
  | record {core : SolidCore P S} {proposal changed : Proposal P S}
      (has : core.proposals.Has proposal) (records : Records digests proposal changed) :
      Moves digests received core (core.write proposal.hash changed)
  | hold {core : SolidCore P S} (now : Nat) (accept : ProposalAccept P) :
      Moves digests received core { core with
        orphanAccepts := core.orphanAccepts.insert accept.proposal.hash
          (core.orphanWith now accept) }
  | see {core : SolidCore P S} (maxHeight : Nat) :
      Moves digests received core { core with maxHeight }
  | insert {core : SolidCore P S} {manifest : Manifest P S} {proposal : Proposal P S}
      (isReceived : manifest ∈ received)
      (valid : (Proposal.new core.app digests manifest).validateStructure digests core.app
        core.limit = .ok ())
      (adopted : Relation.ReflTransGen (Stores digests)
        (Proposal.new core.app digests manifest) proposal)
      (unknown : core.proposals.get proposal.hash = none) (maxHeight : Nat) :
      Moves digests received core { core with
        maxHeight
        orphanAccepts := core.orphanAccepts.erase (core.app.hash manifest.content)
        proposals := core.proposals.insert proposal }

/-! ## What every move keeps -/

/-- The accepts that are stored with a proposal are valid and stand in their places. -/
def Proposal.Stocked (digests : Digests) (proposal : Proposal P S) : Prop :=
  ∀ skips peer accept, (proposal.acceptsAt skips)[peer]? = some accept →
    accept.skips = skips ∧ accept.fromPeer = peer ∧ accept.proposal.hash = proposal.hash ∧
      proposal.validateAccept digests accept = .ok ()

/-- What holds of a core at any time. -/
structure Sound (digests : Digests) (app : App P S) (limit : AcceptThreshold)
    (initial : Manifest P S) (core : SolidCore P S) (last : Proposal P S) : Prop where
  app_eq : core.app = app
  limit_eq : core.limit = limit
  rooted : core.proposals.Rooted last
  known : ∀ proposal, core.proposals.Has proposal →
    proposal.hash = app.hash proposal.manifest.content ∧
      proposal.orderedValidators = proposal.manifest.content.orderedValidators digests
  checked : ∀ proposal, core.proposals.Has proposal → proposal.manifest = initial ∨
    (Proposal.new app digests proposal.manifest).validateStructure digests app limit = .ok ()
  stocked : ∀ proposal, core.proposals.Has proposal → proposal.Stocked digests
  orphans : ∀ hash orphan, core.orphanAccepts.lookup hash = some orphan →
    ∀ accept ∈ orphan.accepts, accept.proposal.hash = hash

section

variable {digests : Digests} {app : App P S} {limit : AcceptThreshold} {initial : Manifest P S}
  {core : SolidCore P S} {last : Proposal P S} {received : Set (Manifest P S)}

/-- What is recorded in a proposal leaves it what it is. -/
theorem Records.same {proposal changed : Proposal P S}
    (records : Records digests proposal changed) :
    changed.hash = proposal.hash ∧ changed.manifest = proposal.manifest ∧
      changed.orderedValidators = proposal.orderedValidators := by
  cases records with
  | stores stores =>
      cases stores
      exact ⟨rfl, rfl, rfl⟩
  | validate => exact ⟨rfl, rfl, rfl⟩
  | raise _ => exact ⟨rfl, rfl, rfl⟩
  | send _ => exact ⟨rfl, rfl, rfl⟩

variable [Std.TransOrd P] [Std.LawfulEqOrd P]

theorem Proposal.Stocked.stores {proposal stored : Proposal P S}
    (stocked : proposal.Stocked digests) (stores : Stores digests proposal stored) :
    stored.Stocked digests := by
  obtain ⟨hashEq, valid⟩ := stores
  rename_i accept
  intro skips peer other found
  rw [Proposal.getElem?_acceptsAt_withAccept] at found
  split at found
  · rename_i same
    obtain ⟨rfl, rfl⟩ := same
    obtain rfl := Option.some.inj found
    exact ⟨rfl, rfl, hashEq, valid⟩
  · exact stocked skips peer other found

theorem Proposal.Stocked.records {proposal changed : Proposal P S}
    (stocked : proposal.Stocked digests) (records : Records digests proposal changed) :
    changed.Stocked digests := by
  cases records with
  | stores stores => exact stocked.stores stores
  | validate => exact stocked
  | raise _ => exact stocked
  | send _ => exact stocked

omit [Std.LawfulEqOrd P] in
/-- No accepts are stored with a new proposal. -/
theorem Proposal.Stocked.of_new (digests : Digests) (app : App P S) (manifest : Manifest P S) :
    (Proposal.new app digests manifest).Stocked digests := by
  intro skips peer accept stored
  have none : ((∅ : Std.TreeMap Nat (Std.TreeMap P (ProposalAccept P))).getD skips ∅)[peer]? =
      some accept := stored
  rw [Std.TreeMap.getD_emptyc, Std.TreeMap.getElem?_emptyc] at none
  cases none

/-- A proposal with accepts that have come before it. -/
theorem Stores.adopted {proposal stored : Proposal P S} (stocked : proposal.Stocked digests)
    (adopted : Relation.ReflTransGen (Stores digests) proposal stored) :
    stored.hash = proposal.hash ∧ stored.manifest = proposal.manifest ∧
      stored.orderedValidators = proposal.orderedValidators ∧ stored.Stocked digests := by
  induction adopted with
  | refl => exact ⟨rfl, rfl, rfl, stocked⟩
  | tail _ stores ih =>
      obtain ⟨hashEq, manifestEq, orderEq, before⟩ := ih
      obtain ⟨sameHash, sameManifest, sameOrder⟩ := (Records.stores stores).same
      exact ⟨sameHash.trans hashEq, sameManifest.trans manifestEq, sameOrder.trans orderEq,
        before.stores stores⟩

namespace Sound

open ProposalCache (changeAt)

omit [Std.LawfulEqOrd P] in
/-- At the start there is one proposal. -/
theorem withLastConfirmed (localPeerSigner : PeerSigner P) (app : App P S) (config : SolidConfig)
    (initial : Manifest P S) :
    Sound digests app config.acceptThreshold initial
      (.withLastConfirmed digests localPeerSigner initial app config)
      (Proposal.new app digests initial) := by
  let first := Proposal.new app digests initial
  have only : ∀ hash proposal, (ProposalCache.new first config.maxProposalHistory).get hash =
      some proposal → first.hash = hash ∧ proposal = first := by
    intro hash proposal found
    rw [ProposalCache.get_new] at found
    split at found
    · rename_i same
      exact ⟨same.symm, (Option.some.inj found).symm⟩
    · cases found
  exact {
    app_eq := rfl
    limit_eq := rfl
    rooted := {
      keyed := by
        intro hash proposal found
        obtain ⟨same, rfl⟩ := only hash proposal found
        exact same
      confirmed := by
        change (ProposalCache.new first _).get first.hash = some first
        rw [ProposalCache.get_new, if_pos rfl] }
    known := by
      intro proposal has
      obtain ⟨_, rfl⟩ := only _ proposal has
      exact ⟨rfl, rfl⟩
    checked := by
      intro proposal has
      obtain ⟨_, rfl⟩ := only _ proposal has
      exact .inl rfl
    stocked := by
      intro proposal has
      obtain ⟨_, rfl⟩ := only _ proposal has
      exact .of_new digests app initial
    orphans := by
      intro hash orphan found
      cases found }

omit [Std.TransOrd P] [Std.LawfulEqOrd P] in
theorem prune (sound : Sound digests app limit initial core last) {pruned : ProposalCache P S}
    (prunes : core.proposals.Prunes pruned) :
    Sound digests app limit initial (core.withProposals pruned) last where
  app_eq := sound.app_eq
  limit_eq := sound.limit_eq
  rooted := prunes.rooted sound.rooted
  known proposal has := sound.known proposal (prunes.has has)
  checked proposal has := sound.checked proposal (prunes.has has)
  stocked proposal has := sound.stocked proposal (prunes.has has)
  orphans := sound.orphans

theorem record (sound : Sound digests app limit initial core last)
    {proposal changed : Proposal P S} (has : core.proposals.Has proposal)
    (records : Records digests proposal changed) :
    Sound digests app limit initial (core.write proposal.hash changed)
      (changeAt proposal.hash changed last) := by
  obtain ⟨sameHash, sameManifest, sameOrder⟩ := records.same
  exact {
    app_eq := sound.app_eq
    limit_eq := sound.limit_eq
    rooted := sound.rooted.write has sameHash sameManifest
    known := by
      intro stored hasStored
      rcases Tracks.has_write has hasStored with rfl | ⟨_, hasOther⟩
      · rw [sameHash, sameManifest, sameOrder]
        exact sound.known proposal has
      · exact sound.known stored hasOther
    checked := by
      intro stored hasStored
      rcases Tracks.has_write has hasStored with rfl | ⟨_, hasOther⟩
      · rw [sameManifest]
        exact sound.checked proposal has
      · exact sound.checked stored hasOther
    stocked := by
      intro stored hasStored
      rcases Tracks.has_write has hasStored with rfl | ⟨_, hasOther⟩
      · exact (sound.stocked proposal has).records records
      · exact sound.stocked stored hasOther
    orphans := sound.orphans }

omit [Std.TransOrd P] [Std.LawfulEqOrd P] in
theorem hold (sound : Sound digests app limit initial core last) (now : Nat)
    (accept : ProposalAccept P) :
    Sound digests app limit initial
      { core with
        orphanAccepts := core.orphanAccepts.insert accept.proposal.hash
          (core.orphanWith now accept) }
      last where
  app_eq := sound.app_eq
  limit_eq := sound.limit_eq
  rooted := sound.rooted
  known := sound.known
  checked := sound.checked
  stocked := sound.stocked
  orphans hash orphan found stored mem := by
    by_cases same : hash = accept.proposal.hash
    · subst same
      rw [AList.lookup_insert] at found
      obtain rfl := Option.some.inj found
      rcases core.mem_orphanWith mem with rfl | ⟨before, isBefore, earlier⟩
      · rfl
      · exact sound.orphans _ before isBefore stored earlier
    · rw [AList.lookup_insert_ne same] at found
      exact sound.orphans hash orphan found stored mem

theorem insert (sound : Sound digests app limit initial core last) {manifest : Manifest P S}
    {proposal : Proposal P S}
    (valid : (Proposal.new core.app digests manifest).validateStructure digests core.app
      core.limit = .ok ())
    (adopted : Relation.ReflTransGen (Stores digests)
      (Proposal.new core.app digests manifest) proposal)
    (unknown : core.proposals.get proposal.hash = none) (maxHeight : Nat) :
    Sound digests app limit initial
      { core with
        maxHeight
        orphanAccepts := core.orphanAccepts.erase (core.app.hash manifest.content)
        proposals := core.proposals.insert proposal }
      last := by
  obtain ⟨hashEq, manifestEq, orderEq, stocked⟩ := Stores.adopted (.of_new _ _ _) adopted
  have has : ∀ stored, (core.proposals.insert proposal).Has stored →
      stored = proposal ∨ core.proposals.Has stored := by
    intro stored isStored
    rw [ProposalCache.Has, ProposalCache.get_insert] at isStored
    split at isStored
    · exact .inl (Option.some.inj isStored).symm
    · exact .inr isStored
  exact {
    app_eq := sound.app_eq
    limit_eq := sound.limit_eq
    rooted := sound.rooted.insert unknown
    known := by
      intro stored isStored
      rcases has stored isStored with rfl | before
      · rw [hashEq, manifestEq, orderEq, ← sound.app_eq]
        exact ⟨rfl, rfl⟩
      · exact sound.known stored before
    checked := by
      intro stored isStored
      rcases has stored isStored with rfl | before
      · rw [manifestEq, ← sound.app_eq, ← sound.limit_eq]
        exact .inr valid
      · exact sound.checked stored before
    stocked := by
      intro stored isStored
      rcases has stored isStored with rfl | before
      · exact stocked
      · exact sound.stocked stored before
    orphans := by
      intro hash orphan found
      apply sound.orphans hash orphan
      by_cases same : hash = core.app.hash manifest.content
      · subst same
        rw [AList.lookup_erase] at found
        cases found
      · rwa [AList.lookup_erase_ne same] at found }

omit [Std.TransOrd P] [Std.LawfulEqOrd P] in
theorem confirm (sound : Sound digests app limit initial core last)
    {proposal : Proposal P S} {confirmed : ProposalCache P S}
    (found : core.proposals.nextPendingProposal 0 = .ok (some proposal))
    (confirmedEq : core.proposals.confirm (core.app.hash proposal.manifest.content) =
      .ok confirmed) :
    Sound digests app limit initial (core.withProposals confirmed) proposal := by
  obtain ⟨top, isNext⟩ :=
    ProposalCache.isNext_of_some sound.rooted.keyed sound.rooted.confirmed found
  obtain ⟨cache, cacheEq, pointed, kept, sub⟩ := ProposalCache.exists_confirm isNext.has
  rw [sound.app_eq, ← (sound.known proposal isNext.has).1, cacheEq] at confirmedEq
  obtain rfl := Except.ok.inj confirmedEq
  exact {
    app_eq := sound.app_eq
    limit_eq := sound.limit_eq
    rooted := {
      keyed := fun hash stored isStored => sound.rooted.keyed hash stored (sub hash stored isStored)
      confirmed := pointed.symm ▸ kept }
    known := fun stored has => sound.known stored (sub _ _ has)
    checked := fun stored has => sound.checked stored (sub _ _ has)
    stocked := fun stored has => sound.stocked stored (sub _ _ has)
    orphans := sound.orphans }

/-- A move keeps a core sound, and what it has confirmed. -/
theorem of_move (sound : Sound digests app limit initial core last) {next : SolidCore P S}
    (moves : Moves digests received core next) :
    ∃ kept, Sound digests app limit initial next kept ∧ kept.manifest = last.manifest := by
  cases moves with
  | prune prunes => exact ⟨last, sound.prune prunes, rfl⟩
  | record has records =>
      exact ⟨_, sound.record has records, (ProposalCache.keeps_changeAt _ _ last).2⟩
  | hold now accept => exact ⟨last, sound.hold now accept, rfl⟩
  | see maxHeight =>
      refine ⟨last, ?_, rfl⟩
      exact ⟨sound.app_eq, sound.limit_eq, sound.rooted, sound.known, sound.checked,
        sound.stocked, sound.orphans⟩
  | insert _ valid adopted unknown maxHeight =>
      exact ⟨last, sound.insert valid adopted unknown maxHeight, rfl⟩

theorem of_moves (sound : Sound digests app limit initial core last) {next : SolidCore P S}
    (moves : Relation.ReflTransGen (Moves digests received) core next) :
    ∃ kept, Sound digests app limit initial next kept ∧ kept.manifest = last.manifest := by
  induction moves with
  | refl => exact ⟨last, sound, rfl⟩
  | tail _ move ih =>
      obtain ⟨middle, sound, manifestEq⟩ := ih
      obtain ⟨kept, sound, keptEq⟩ := sound.of_move move
      exact ⟨kept, sound, keptEq.trans manifestEq⟩

end Sound

omit [Std.TransOrd P] [Std.LawfulEqOrd P] in
/-- A node signs with one key. -/
theorem Moves.signer_eq {next : SolidCore P S}
    (moves : Relation.ReflTransGen (Moves digests received) core next) :
    next.localPeerSigner = core.localPeerSigner := by
  induction moves with
  | refl => rfl
  | tail _ move ih =>
      cases move <;> exact ih

/-! ## Calls are made of moves -/

/-- What an event of a node says, whatever the node has been called with: an accept of its
own for a proposal, or a threshold of accepts for one with the node as the leader after it. -/
def Grounded (digests : Digests) (app : App P S) (limit : AcceptThreshold)
    (signer : PeerSigner P) : SolidEvent P S → Prop
  | .propose lastProposalHash height skips accepts => ∃ proposal : Proposal P S,
      proposal.hash = app.hash proposal.manifest.content ∧
        proposal.orderedValidators = proposal.manifest.content.orderedValidators digests ∧
        proposal.Stocked digests ∧ proposal.hash = lastProposalHash ∧
        height = proposal.height + 1 ∧ accepts = (proposal.acceptsForSkip skips).getD [] ∧
        proposal.acceptThresholdBreached skips limit = true ∧
        proposal.manifest.content.getLeaderForSkip digests skips = .ok signer.peer
  | .accept accept => ∃ content : ManifestContent P S,
      accept.proposal = ⟨app.hash content, content.height, content.skips⟩ ∧
        content.getLeaderForSkip digests accept.skips = .ok accept.leaderId ∧
        accept.fromPeer = signer.peer ∧
        accept.signature = signer.sign (acceptSigHash digests accept.proposal accept.skips)
  | .commit _ _ => False
  | .outOfSync _ _ => True
  | .duplicateProposal _ => True

/-- A call that does not commit. -/
structure Does (digests : Digests) (received : Set (Manifest P S)) (app : App P S)
    (limit : AcceptThreshold)
    (core : SolidCore P S) (result : SolidCore P S) (event : Option (SolidEvent P S)) : Prop where
  moves : Relation.ReflTransGen (Moves digests received) core result
  grounded : ∀ happened, event = some happened →
    Grounded digests app limit core.localPeerSigner happened

/-- A commit of a child of the last confirmed proposal, with a child of its own. -/
structure Commits (core : SolidCore P S) (last proposal confirmedBy : Proposal P S)
    (result : SolidCore P S) (event : Option (SolidEvent P S)) : Prop where
  event : event = some (.commit proposal.manifest confirmedBy.manifest)
  signer : result.localPeerSigner = core.localPeerSigner
  sub : ∀ {stored}, result.proposals.Has stored → core.proposals.Has stored
  has : core.proposals.Has proposal
  hasAfter : core.proposals.Has confirmedBy
  link : proposal.lastHash = last.hash
  higher : proposal.height = last.height + 1
  linkAfter : confirmedBy.lastHash = proposal.hash
  higherAfter : confirmedBy.height = proposal.height + 1

omit [Std.TransOrd P] [Std.LawfulEqOrd P] in
theorem Does.after {middle result : SolidCore P S} {event : Option (SolidEvent P S)}
    (does : Does digests received app limit middle result event)
    (moves : Relation.ReflTransGen (Moves digests received) core middle) :
    Does digests received app limit core result event where
  moves := moves.trans does.moves
  grounded := by
    rw [← Moves.signer_eq moves]
    exact does.grounded

omit [Std.TransOrd P] [Std.LawfulEqOrd P] in
/-- A node may say that it lags behind at any time. -/
theorem Does.silent {result : SolidCore P S} {event : Option (SolidEvent P S)}
    (moves : Relation.ReflTransGen (Moves digests received) core result)
    (silent : ∀ happened, event = some happened →
      ∃ height seen, happened = .outOfSync height seen) :
    Does digests received app limit core result event where
  moves := moves
  grounded := by
    intro happened isEvent
    obtain ⟨height, seen, rfl⟩ := silent happened isEvent
    trivial

omit [Std.TransOrd P] [Std.LawfulEqOrd P] in
theorem Does.none {result : SolidCore P S}
    (moves : Relation.ReflTransGen (Moves digests received) core result) :
    Does digests received app limit core result none :=
  .silent moves fun _ otherwise => absurd otherwise (Option.some_ne_none _).symm

namespace Sound

variable {now : Nat} {result : SolidCore P S × Option (SolidEvent P S)}

theorem validatedCurrentProposal (sound : Sound digests app limit initial core last)
    {result : SolidCore P S × Proposal P S}
    (returned : core.validatedCurrentProposal digests = .ok result) :
    Relation.ReflTransGen (Moves digests received) core result.1 ∧
      ∃ kept, Sound digests app limit initial result.1 kept ∧
        SolidCore.Settled result.1 kept result.2 := by
  obtain ⟨pruned, found, prunes, has, marked, coreEq, settled⟩ :=
    SolidCore.validatedCurrentProposal_spec sound.rooted returned
  have records : Records digests found result.2 := by
    rw [marked]
    exact .validate
  rw [coreEq] at settled ⊢
  exact ⟨.tail (.single (.prune prunes)) (.record has records), _,
    (sound.prune prunes).record has records, settled⟩

/-- The next accept of a node is one of its own for a proposal that it knows. -/
theorem nextAccept (sound : Sound digests app limit initial core last) {skip : Bool}
    {result : SolidCore P S × ProposalAccept P}
    (returned : core.nextAccept digests skip = .ok result) :
    Relation.ReflTransGen (Moves digests received) core result.1 ∧
      Grounded digests app limit core.localPeerSigner (.accept result.2 : SolidEvent P S) := by
  obtain ⟨middle, current, validated, coreEq, headerEq, peerEq, skipsLe, isLeader, signed⟩ :=
    SolidCore.nextAccept_spec sound.rooted returned
  obtain ⟨moves, kept, keptSound, settled⟩ := sound.validatedCurrentProposal validated
  constructor
  · rw [coreEq]
    exact moves.tail (.record settled.has (.send skipsLe))
  · refine ⟨current.manifest.content, ?_, isLeader, peerEq, signed⟩
    rw [headerEq, (keptSound.known current settled.has).1]
    rfl

theorem addOrphan (sound : Sound digests app limit initial core last)
    {accept : ProposalAccept P} (returned : core.addOrphan digests now accept = .ok result) :
    Does digests received app limit core result.1 result.2 := by
  rw [SolidCore.addOrphan] at returned
  dsimp only at returned
  rw [bind_eq_ok_iff] at returned
  obtain ⟨⟨settledCore, current⟩, validated, returned⟩ := returned
  obtain ⟨moves, _⟩ := (sound.hold now accept).validatedCurrentProposal validated
  have held : Relation.ReflTransGen (Moves digests received) core settledCore :=
    (Relation.ReflTransGen.single (Moves.hold now accept)).trans moves
  dsimp only at returned
  split at returned
  · rw [bind_eq_ok_iff] at returned
    obtain ⟨height, _, returned⟩ := returned
    obtain rfl := Except.ok.inj returned
    exact .silent held fun _ isEvent => ⟨_, _, (Option.some.inj isEvent).symm⟩
  · obtain rfl := Except.ok.inj returned
    exact .none held

/-- What adding an accept to a cached proposal leaves of it. -/
structure Stored (digests : Digests) (limit : AcceptThreshold) (core : SolidCore P S)
    (proposal added : Proposal P S) : Prop extends Adds limit proposal added where
  has : (core.write added.hash added).proposals.Has added
  stocked : added.Stocked digests

omit [Std.TransOrd P] [Std.LawfulEqOrd P] in
/-- An accept that is not valid leaves its proposal as it is. -/
theorem addAccept_cases {core : SolidCore P S} {proposal : Proposal P S}
    (has : core.proposals.Has proposal) {accept : ProposalAccept P}
    (hashEq : accept.proposal.hash = proposal.hash) {added : Proposal P S} {breached : Bool}
    (addedEq : proposal.addAccept digests limit accept = .ok (added, breached)) :
    (added = proposal ∧ core.write proposal.hash added = core) ∨
      Stores digests proposal added := by
  rcases Proposal.addAccept_eq_ok addedEq with pairEq | ⟨valid, pairEq⟩
  · obtain ⟨rfl, rfl⟩ := Prod.mk.inj pairEq
    refine .inl ⟨rfl, ?_⟩
    rw [SolidCore.write, ProposalCache.write_self has]
  · obtain ⟨rfl, rfl⟩ := Prod.mk.inj pairEq
    exact .inr (.accept hashEq valid)

omit [Std.TransOrd P] [Std.LawfulEqOrd P] in
theorem addAccept_moves {core : SolidCore P S} {proposal : Proposal P S}
    (has : core.proposals.Has proposal) {accept : ProposalAccept P}
    (hashEq : accept.proposal.hash = proposal.hash) {added : Proposal P S} {breached : Bool}
    (addedEq : proposal.addAccept digests limit accept = .ok (added, breached)) :
    Relation.ReflTransGen (Moves digests received) core (core.write proposal.hash added) := by
  rcases addAccept_cases has hashEq addedEq with ⟨_, unchanged⟩ | stores
  · rw [unchanged]
  · exact .single (.record has (.stores stores))

theorem addAccept_spec (sound : Sound digests app limit initial core last)
    {proposal : Proposal P S} (has : core.proposals.Has proposal) {accept : ProposalAccept P}
    (hashEq : accept.proposal.hash = proposal.hash) {added : Proposal P S} {breached : Bool}
    (addedEq : proposal.addAccept digests limit accept = .ok (added, breached)) :
    ∃ last, Sound digests app limit initial (core.write proposal.hash added) last ∧
      Stored digests limit core proposal added := by
  have adds : Adds limit proposal added := .of_addAccept addedEq
  have isStored : (core.write added.hash added).proposals.Has added := by
    change (core.proposals.write added.hash added).get added.hash = some added
    rw [adds.hash, ProposalCache.get_write_self has]
  rcases addAccept_cases has hashEq addedEq with ⟨rfl, unchanged⟩ | stores
  · rw [unchanged]
    exact ⟨last, sound, adds, isStored, sound.stocked added has⟩
  · exact ⟨_, sound.record has (.stores stores), adds, isStored,
      (sound.stocked proposal has).stores stores⟩

/-- Adding an accept, if what follows a raise of the skips is made of moves. -/
theorem addAcceptThen (sound : Sound digests app limit initial core last)
    {next : SolidCore P S → Except String (SolidCore P S × Option (SolidEvent P S))}
    (continues : ∀ (middle : SolidCore P S) (kept : Proposal P S)
      (result : SolidCore P S × Option (SolidEvent P S)),
      Sound digests app limit initial middle kept → next middle = .ok result →
      Does digests received app limit middle result.1 result.2)
    {accept : ProposalAccept P}
    (returned : core.addAcceptThen digests next now accept = .ok result) :
    Does digests received app limit core result.1 result.2 := by
  rw [SolidCore.addAcceptThen, bind_eq_ok_iff] at returned
  obtain ⟨height, _, returned⟩ := returned
  split at returned
  · obtain rfl := Except.ok.inj returned
    exact .none .refl
  rw [bind_eq_ok_iff] at returned
  obtain ⟨outOfSync, _, returned⟩ := returned
  rw [bind_eq_ok_iff] at returned
  obtain ⟨⟨settledCore, current⟩, validated, returned⟩ := returned
  obtain ⟨moves, kept, keptSound, settled⟩ := sound.validatedCurrentProposal validated
  dsimp only at returned moves keptSound settled
  split at returned
  · exact (keptSound.addOrphan returned).after moves
  rename_i proposal found
  have has := keptSound.rooted.keyed.has found
  have hashEq : accept.proposal.hash = proposal.hash :=
    (keptSound.rooted.keyed _ _ found).symm
  rw [bind_eq_ok_iff, keptSound.limit_eq] at returned
  obtain ⟨⟨added, breached⟩, addedEq, returned⟩ := returned
  dsimp only at returned
  rw [bind_eq_ok_iff, hashEq] at returned
  obtain ⟨leads, leadsEq, returned⟩ := returned
  have storing : Relation.ReflTransGen (Moves digests received) settledCore
      (settledCore.write proposal.hash added) := addAccept_moves has hashEq addedEq
  obtain ⟨storedLast, storedSound, stored⟩ := keptSound.addAccept_spec has hashEq addedEq
  split at returned
  · -- the node leads, and its proposal has enough accepts
    rename_i propose
    obtain rfl := Except.ok.inj returned
    refine ⟨moves.trans storing, ?_⟩
    intro happened isEvent
    obtain rfl := Option.some.inj isEvent
    rw [Bool.and_eq_true] at propose
    rw [propose.1] at leadsEq
    obtain ⟨isBreached, isLeader⟩ := SolidCore.leads_eq_true leadsEq
    obtain ⟨keyEq, orderEq⟩ := keptSound.known proposal has
    refine ⟨added, ?_, ?_, stored.stocked, stored.hash, rfl, rfl,
      breached_of_addAccept addedEq isBreached, ?_⟩
    · rw [stored.hash, stored.manifest, keyEq]
    · rw [stored.order, stored.manifest, orderEq]
    · rw [isLeader, Moves.signer_eq (moves.trans storing)]
  · split at returned
    · -- a higher skip for the current proposal makes the node follow
      rename_i higher
      have raises : Records digests added { added with skipsSent := accept.skips } :=
        .raise (Nat.le_of_lt higher.2)
      rw [← stored.hash] at returned storing storedSound
      have raised := storedSound.record stored.has raises
      refine (continues _ _ result raised returned).after ?_
      exact (moves.trans storing).tail (.record stored.has raises)
    · obtain rfl := Except.ok.inj returned
      exact .none (moves.trans storing)

omit [Std.TransOrd P] [Std.LawfulEqOrd P] in
/-- Sending an accept, if adding one is made of moves. -/
theorem nextAcceptThen
    {add : ProposalAccept P → SolidCore P S →
      Except String (SolidCore P S × Option (SolidEvent P S))}
    (adds : ∀ (middle : SolidCore P S) (own : ProposalAccept P)
      (result : SolidCore P S × Option (SolidEvent P S)),
      Relation.ReflTransGen (Moves digests received) core middle → add own middle = .ok result →
      Does digests received app limit middle result.1 result.2)
    {skip : Bool}
    (sends : ∀ result, core.nextAccept digests skip = .ok result →
      Relation.ReflTransGen (Moves digests received) core result.1 ∧
        Grounded digests app limit core.localPeerSigner (.accept result.2 : SolidEvent P S))
    (returned : core.nextAcceptThen digests add skip = .ok result) :
    Does digests received app limit core result.1 result.2 := by
  rw [SolidCore.nextAcceptThen, bind_eq_ok_iff] at returned
  obtain ⟨⟨sent, own⟩, sentEq, returned⟩ := returned
  obtain ⟨moves, grounded⟩ := sends _ sentEq
  dsimp only at returned moves grounded
  rw [bind_eq_ok_iff] at returned
  obtain ⟨⟨added, event⟩, addedEq, returned⟩ := returned
  obtain rfl := Except.ok.inj returned
  have does := (adds sent own _ moves addedEq).after moves
  refine ⟨does.moves, ?_⟩
  intro happened isEvent
  cases event with
  | none =>
      obtain rfl := Option.some.inj isEvent
      exact grounded
  | some first =>
      obtain rfl := Option.some.inj isEvent
      exact does.grounded first rfl

theorem addAcceptWithin (sound : Sound digests app limit initial core last) {calls : Nat}
    {accept : ProposalAccept P}
    (returned : core.addAcceptWithin digests now calls accept = .ok result) :
    Does digests received app limit core result.1 result.2 := by
  induction calls generalizing core last accept result with
  | zero =>
      apply sound.addAcceptThen _ returned
      intro _ _ _ _ overflow
      cases overflow
  | succ calls ih =>
      apply sound.addAcceptThen _ returned
      intro middle kept result middleSound continued
      apply nextAcceptThen _ (fun _ => middleSound.nextAccept) continued
      intro later own result moves added
      obtain ⟨laterLast, laterSound, _⟩ := middleSound.of_moves moves
      exact ih laterSound added

theorem getNextAcceptEvent (sound : Sound digests app limit initial core last) {skip : Bool}
    (returned : core.getNextAcceptEvent digests now skip = .ok result) :
    Does digests received app limit core result.1 result.2 := by
  apply nextAcceptThen _ (fun _ => sound.nextAccept) returned
  intro middle own result moves added
  obtain ⟨middleLast, middleSound, _⟩ := sound.of_moves moves
  exact middleSound.addAcceptWithin added

theorem skip (sound : Sound digests app limit initial core last)
    (returned : core.skip digests now = .ok result) :
    Does digests received app limit core result.1 result.2 := by
  rw [SolidCore.skip, bind_eq_ok_iff] at returned
  obtain ⟨outOfSync, _, returned⟩ := returned
  split at returned
  · obtain rfl := Except.ok.inj returned
    exact .none .refl
  · exact sound.getNextAcceptEvent returned

theorem receiveAccept (sound : Sound digests app limit initial core last)
    {accept : ProposalAccept P}
    {result : SolidCore P S × Except Error (Option (SolidEvent P S))}
    (returned : core.receiveAccept digests now accept = .ok result) :
    Does digests received app limit core result.1 (eventOf result.2) := by
  rw [SolidCore.receiveAccept] at returned
  rcases orFail_eq_ok returned with ⟨_, returned⟩ | ⟨failure, rfl⟩
  case inr => exact .none .refl
  rw [bind_eq_ok_iff] at returned
  obtain ⟨⟨settledCore, earlier⟩, validated, returned⟩ := returned
  obtain ⟨moves, kept, keptSound, _⟩ := sound.validatedCurrentProposal validated
  dsimp only at returned moves keptSound
  rw [bind_eq_ok_iff] at returned
  obtain ⟨height, _, returned⟩ := returned
  have raised : Relation.ReflTransGen (Moves digests received) core
      (if accept.proposal.height > height then
        { settledCore with maxHeight := accept.proposal.height }
      else settledCore) := by
    split
    · exact moves.tail (.see _)
    · exact moves
  generalize (if accept.proposal.height > height then
      { settledCore with maxHeight := accept.proposal.height }
    else settledCore) = seen at returned raised
  rcases orFail_eq_ok returned with ⟨_, returned⟩ | ⟨failure, rfl⟩
  case inr => exact .none raised
  obtain ⟨_, seenSound, _⟩ := sound.of_moves raised
  rw [bind_eq_ok_iff] at returned
  obtain ⟨⟨added, event⟩, addedEq, returned⟩ := returned
  have does := (seenSound.addAcceptWithin addedEq).after raised
  cases event with
  | some happened =>
      obtain rfl := Except.ok.inj returned
      exact does
  | none =>
      obtain ⟨_, addedSound, _⟩ := sound.of_moves does.moves
      dsimp only at returned addedSound
      rw [bind_eq_ok_iff] at returned
      obtain ⟨⟨laterCore, later⟩, laterEq, returned⟩ := returned
      obtain ⟨laterMoves, _, laterSound, _⟩ := addedSound.validatedCurrentProposal laterEq
      have moved := does.moves.trans laterMoves
      dsimp only at returned laterSound
      split at returned
      · rw [bind_eq_ok_iff] at returned
        obtain ⟨⟨sent, event⟩, sentEq, returned⟩ := returned
        obtain rfl := Except.ok.inj returned
        exact (laterSound.getNextAcceptEvent sentEq).after moved
      · obtain rfl := Except.ok.inj returned
        exact .none moved

omit [Std.TransOrd P] [Std.LawfulEqOrd P] in
/-- Of the accepts that came before a proposal the valid ones are stored with it. -/
theorem stores_of_adoptOrphans {orphan : Option (ProposalOrphan P)}
    {proposal result : Proposal P S}
    (named : ∀ stored, orphan = some stored → ∀ accept ∈ stored.accepts,
      accept.proposal.hash = proposal.hash)
    (returned : SolidCore.adoptOrphans digests limit orphan proposal = .ok result) :
    Relation.ReflTransGen (Stores digests) proposal result := by
  rw [SolidCore.adoptOrphans.eq_def] at returned
  cases orphan with
  | none =>
      obtain rfl := Except.ok.inj returned
      exact .refl
  | some orphan =>
      have allNamed := named orphan rfl
      dsimp only at returned
      clear named
      generalize orphan.accepts = accepts at returned allNamed
      induction accepts generalizing proposal with
      | nil =>
          obtain rfl := Except.ok.inj returned
          exact .refl
      | cons accept accepts ih =>
          rw [List.foldlM_cons, bind_eq_ok_iff] at returned
          obtain ⟨added, addedEq, returned⟩ := returned
          rw [bind_eq_ok_iff] at addedEq
          obtain ⟨⟨stored, breached⟩, storedEq, addedEq⟩ := addedEq
          obtain rfl := Except.ok.inj addedEq
          have isNamed := allNamed accept List.mem_cons_self
          have rest := fun later mem => allNamed later (List.mem_cons_of_mem accept mem)
          rcases Proposal.addAccept_eq_ok storedEq with pairEq | ⟨valid, pairEq⟩
          · obtain ⟨rfl, rfl⟩ := Prod.mk.inj pairEq
            exact ih returned rest
          · obtain ⟨rfl, rfl⟩ := Prod.mk.inj pairEq
            exact .head (.accept isNamed valid) (ih returned rest)

theorem receiveProposal (sound : Sound digests app limit initial core last)
    {manifest : Manifest P S} (isReceived : manifest ∈ received)
    {result : SolidCore P S × Except Error Unit}
    (returned : core.receiveProposal digests manifest = .ok result) :
    Relation.ReflTransGen (Moves digests received) core result.1 := by
  rw [SolidCore.receiveProposal] at returned
  dsimp only at returned
  rcases orFail_eq_ok returned with ⟨valid, received⟩ | ⟨failure, rfl⟩
  case inr => exact .refl
  split at received
  · obtain rfl := Except.ok.inj received
    exact .refl
  rename_i unknown
  rw [bind_eq_ok_iff] at received
  obtain ⟨height, _, received⟩ := received
  split at received
  · obtain rfl := Except.ok.inj received
    exact .refl
  rw [bind_eq_ok_iff] at received
  obtain ⟨proposal, adoptedEq, received⟩ := received
  obtain rfl := Except.ok.inj received
  have adopted := stores_of_adoptOrphans
    (fun orphan found => sound.orphans _ orphan found) adoptedEq
  refine .single (.insert isReceived valid adopted ?_ _)
  rw [(Stores.adopted (.of_new _ _ _) adopted).1]
  rw [ProposalCache.contains, Option.isSome_iff_ne_none, not_not] at unknown
  exact unknown

omit [Std.TransOrd P] [Std.LawfulEqOrd P] in
/-- With two proposals pending the first one is committed. -/
theorem commits (sound : Sound digests app limit initial core last)
    {proposal confirmedBy : Proposal P S} {confirmed : ProposalCache P S}
    (found : core.proposals.nextPendingProposal 0 = .ok (some proposal))
    (foundAfter : core.proposals.nextPendingProposal 1 = .ok (some confirmedBy))
    (confirmedEq : core.proposals.confirm (core.app.hash proposal.manifest.content) =
      .ok confirmed) :
    Commits core last proposal confirmedBy (core.withProposals confirmed)
        (some (.commit proposal.manifest confirmedBy.manifest)) ∧
      Sound digests app limit initial (core.withProposals confirmed) proposal := by
  have keyed := sound.rooted.keyed
  obtain ⟨top, isNext⟩ := ProposalCache.isNext_of_some keyed sound.rooted.confirmed found
  obtain ⟨otherTop, isAfter⟩ :=
    ProposalCache.isNext_of_some keyed sound.rooted.confirmed foundAfter
  have stored : ∀ {stored}, confirmed.Has stored → core.proposals.Has stored := by
    obtain ⟨cache, cacheEq, _, _, sub⟩ := ProposalCache.exists_confirm isNext.has
    rw [sound.app_eq, ← (sound.known proposal isNext.has).1, cacheEq] at confirmedEq
    obtain rfl := Except.ok.inj confirmedEq
    exact fun has => sub _ _ has
  refine ⟨?_, sound.confirm found confirmedEq⟩
  exact {
    event := rfl
    signer := rfl
    sub := stored
    has := isNext.has
    hasAfter := isAfter.has
    link := isNext.lastHash_eq keyed sound.rooted.has
    higher := isNext.height_eq
    linkAfter :=
      ProposalCache.IsNext.lastHash_eq_next keyed sound.rooted.confirmed found foundAfter
    higherAfter := isAfter.height_eq.trans (congrArg (· + 1) isNext.height_eq.symm) }

/-- The next event is a commit, or it comes from moves. -/
theorem nextEvent (sound : Sound digests app limit initial core last)
    (returned : core.nextEvent digests now = .ok result) :
    (∃ proposal confirmedBy, Commits core last proposal confirmedBy result.1 result.2 ∧
      Sound digests app limit initial result.1 proposal) ∨
    Does digests received app limit core result.1 result.2 := by
  rw [SolidCore.nextEvent, bind_eq_ok_iff] at returned
  obtain ⟨ready, readyEq, returned⟩ := returned
  rcases SolidCore.committable_eq_ok readyEq with
    rfl | ⟨proposal, confirmedBy, rfl, found, foundAfter⟩
  · apply Or.inr
    dsimp only at returned
    rw [bind_eq_ok_iff] at returned
    obtain ⟨outOfSync, _, returned⟩ := returned
    split at returned
    · rw [bind_eq_ok_iff] at returned
      obtain ⟨height, _, returned⟩ := returned
      obtain rfl := Except.ok.inj returned
      exact .silent .refl fun _ isEvent => ⟨_, _, (Option.some.inj isEvent).symm⟩
    · rw [bind_eq_ok_iff] at returned
      obtain ⟨⟨settledCore, settled⟩, validated, returned⟩ := returned
      obtain ⟨moves, _, keptSound, _⟩ := sound.validatedCurrentProposal validated
      dsimp only at returned keptSound
      split at returned
      · exact (keptSound.getNextAcceptEvent returned).after moves
      · obtain rfl := Except.ok.inj returned
        exact .none moves
  · dsimp only at returned
    rw [bind_eq_ok_iff] at returned
    obtain ⟨cache, cacheEq, returned⟩ := returned
    obtain rfl := Except.ok.inj returned
    exact .inl ⟨proposal, confirmedBy, sound.commits found foundAfter cacheEq⟩

end Sound

end

end Ciphera.Solid
