import Ciphera.Lib.Returns
import Ciphera.Solid.Room

/-!
# No call panics

A leader is found by a remainder, so that a proposal without validators makes a node panic.
As long as every proposal has validators and there is room for sums, every call of a node
returns: the loop over invalid proposals ends, what a panic would guard is never missing, and an
accept of the node itself makes it send no further one.
-/

namespace Ciphera.Solid

open Ciphera.Lib

variable {P S : Type} [Peer P] [DecidableEq P]

/-- Every known proposal has validators. -/
def Manned (core : SolidCore P S) : Prop :=
  ∀ proposal, core.proposals.Has proposal → proposal.manifest.content.validators ≠ []

/-- A call with nothing but proposals that have validators. -/
def Call.Manned : Call P S → Prop
  | .receiveProposal manifest => manifest.content.validators ≠ []
  | _ => True

/-- The calls with nothing but proposals that have validators, within bounds. -/
def possible (P S : Type) (height skips : Nat) : Set (Call P S) :=
  { call | call.Manned ∧ call.Within height skips }

section

variable {digests : Digests} {app : App P S} {limit : AcceptThreshold} {initial : Manifest P S}
  {core : SolidCore P S} {last : Proposal P S}

omit [DecidableEq P] in
theorem succeeds_getLeaderForSkip {content : ManifestContent P S}
    (manned : content.validators ≠ []) (skip : Nat) :
    Succeeds (content.getLeaderForSkip digests skip) := by
  have nonempty : content.orderedValidators digests ≠ [] := by
    rw [← List.length_pos_iff, length_orderedValidators]
    exact List.length_pos_iff.mpr manned
  obtain ⟨peer, _, found⟩ := exists_leaderForSkip skip nonempty
  exact ⟨peer, found⟩

omit [DecidableEq P] in
theorem returns_liftPanic {α : Type} {result : Except String α} (succeeds : Succeeds result) :
    Returns (Proposal.liftPanic result) := by
  obtain ⟨value, rfl⟩ := succeeds
  exact returns_ok value

namespace Proposal

variable {proposal : Proposal P S}

theorem returns_validateAccept (manned : proposal.manifest.content.validators ≠ [])
    (accept : ProposalAccept P) : Returns (proposal.validateAccept digests accept) := by
  rw [validateAccept]
  apply (returns_check _ _).bind
  intro _ _
  apply (returns_liftPanic (succeeds_getLeaderForSkip manned accept.skips)).bind
  intro _ _
  apply (returns_check _ _).bind
  intro _ _
  exact returns_check _ _

theorem returns_validateContents {lastConfirmed : Proposal P S}
    (manned : lastConfirmed.manifest.content.validators ≠ []) :
    Returns (proposal.validateContents digests app lastConfirmed) := by
  rw [validateContents]
  apply (returns_check _ _).bind
  intro _ _
  apply (returns_liftPanic (succeeds_getLeaderForSkip manned proposal.skips)).bind
  intro _ _
  apply (returns_check _ _).bind
  intro _ _
  apply (returns_check _ _).bind
  intro _ _
  exact returns_forM fun _ _ => returns_check _ _

theorem returns_validateStructure :
    Returns (proposal.validateStructure digests app limit) := by
  rw [validateStructure]
  apply (returns_check _ _).bind
  intro _ _
  apply (returns_check _ _).bind
  intro _ _
  apply Returns.bind
  · apply returns_forM
    intro accept _
    rw [validateManifestAccept]
    apply (returns_check _ _).bind
    intro _ _
    apply (returns_check _ _).bind
    intro _ _
    exact returns_check _ _
  · intro _ _
    exact returns_check _ _

theorem succeeds_addAccept (manned : proposal.manifest.content.validators ≠ [])
    (accept : ProposalAccept P) : Succeeds (proposal.addAccept digests limit accept) := by
  have returns : Returns (proposal.validateAccept digests accept) :=
    returns_validateAccept manned accept
  rw [addAccept]
  cases valid : proposal.validateAccept digests accept with
  | ok _ => exact succeeds_ok _
  | error stop =>
      cases stop with
      | error _ => exact succeeds_ok _
      | panic message => exact absurd valid (returns message)

end Proposal

namespace Sound

theorem succeeds_hasValidContents (manned : last.manifest.content.validators ≠ [])
    (core : SolidCore P S) (proposal : Proposal P S) :
    Succeeds (core.hasValidContents digests last proposal) := by
  have returns : Returns (proposal.validateContents digests core.app last) :=
    Proposal.returns_validateContents manned
  rw [SolidCore.hasValidContents]
  split
  · exact succeeds_ok true
  · cases valid : proposal.validateContents digests core.app last with
    | ok _ => exact succeeds_ok true
    | error stop =>
        cases stop with
        | error _ => exact succeeds_ok false
        | panic message => exact absurd valid (returns message)

omit [DecidableEq P] in
theorem length_remove_lt {cache : ProposalCache P S} {proposal : Proposal P S}
    (has : cache.Has proposal) :
    (cache.remove proposal.hash).proposals.entries.length < cache.proposals.entries.length := by
  have mem := mem_entries_iff.mpr has
  have shorter : (cache.proposals.entries.kerase proposal.hash).length =
      cache.proposals.entries.length - 1 :=
    List.length_eraseP_of_mem mem (decide_eq_true rfl)
  change (cache.proposals.entries.kerase proposal.hash).length < _
  rw [shorter]
  exact Nat.sub_one_lt (List.length_pos_of_mem mem).ne'

/-- Every round removes a proposal, and the last confirmed one is never removed. -/
theorem succeeds_validatedWithin (rooted : core.proposals.Rooted last)
    (manned : last.manifest.content.validators ≠ []) {rounds : Nat}
    (enough : core.proposals.proposals.entries.length ≤ rounds) :
    Succeeds (core.validatedWithin digests rounds) := by
  induction rounds generalizing core with
  | zero =>
      have positive := List.length_pos_of_mem (mem_entries_iff.mpr rooted.confirmed)
      exact absurd enough (Nat.not_le.mpr positive)
  | succ rounds ih =>
      rw [SolidCore.validatedWithin, ProposalCache.lastConfirmedProposal_eq rooted.confirmed,
        ok_bind]
      rcases SolidCore.highestNextPending_eq rooted with
        ⟨proposal, found, isNext, _⟩ | ⟨absent, _⟩
      · rw [found, ok_bind]
        apply (succeeds_hasValidContents manned core proposal).bind
        intro valid validity
        cases valid with
        | true => exact succeeds_ok _
        | false =>
            obtain ⟨top, next⟩ := ProposalCache.isNext_of_some rooted.keyed rooted.confirmed isNext
            have kept : (core.withProposals (core.proposals.remove proposal.hash)).proposals.Rooted
                last := {
              keyed := rooted.keyed.remove proposal.hash
              confirmed := by
                change (core.proposals.remove proposal.hash).get
                  core.proposals.lastConfirmedProposalHash = _
                rw [ProposalCache.get_remove, if_neg]
                · exact rooted.confirmed
                · rw [rooted.lastHash]
                  exact (rooted.next_ne isNext).symm }
            exact ih kept (Nat.le_of_lt_succ ((length_remove_lt next.has).trans_le enough))
      · rw [absent, ok_bind]
        exact succeeds_ok _

theorem succeeds_validatedCurrentProposal (rooted : core.proposals.Rooted last)
    (manned : last.manifest.content.validators ≠ []) :
    Succeeds (core.validatedCurrentProposal digests) := by
  rw [SolidCore.validatedCurrentProposal]
  apply (succeeds_validatedWithin rooted manned (le_refl _)).bind
  rintro ⟨settledCore, hash⟩ validated
  obtain ⟨pruned, current, resultEq, prunes, isCurrent⟩ :=
    SolidCore.validatedWithin_spec rooted validated
  obtain ⟨rfl, rfl⟩ := Prod.mk.inj resultEq
  have has : (core.withProposals pruned).proposals.get current.hash = some current :=
    isCurrent.has (prunes.rooted rooted)
  dsimp only
  rw [has]
  exact succeeds_ok _

end Sound

/-! ## Moves keep the validators -/

/-- Proposals that are taken in have validators. -/
theorem Manned.of_move [Std.TransOrd P] [Std.LawfulEqOrd P] {received : Set (Manifest P S)}
    (all : ∀ manifest ∈ received, manifest.content.validators ≠ []) (manned : Manned core)
    {next : SolidCore P S} (moves : Moves digests received core next) : Manned next := by
  cases moves with
  | prune prunes => exact fun proposal has => manned proposal (prunes.has has)
  | record has records =>
      intro stored hasStored
      rcases Tracks.has_write has hasStored with rfl | ⟨_, hasOther⟩
      · rw [records.same.2.1]
        exact manned _ has
      · exact manned stored hasOther
  | hold now accept => exact manned
  | see maxHeight => exact manned
  | insert isReceived _ adopted unknown _ =>
      intro stored hasStored
      rw [ProposalCache.Has, ProposalCache.get_insert] at hasStored
      split at hasStored
      · obtain rfl := Option.some.inj hasStored
        rw [(Stores.adopted (.of_new _ _ _) adopted).2.1]
        exact all _ isReceived
      · exact manned stored hasStored

theorem Manned.of_moves [Std.TransOrd P] [Std.LawfulEqOrd P] {received : Set (Manifest P S)}
    (all : ∀ manifest ∈ received, manifest.content.validators ≠ []) (manned : Manned core)
    {next : SolidCore P S} (moves : Relation.ReflTransGen (Moves digests received) core next) :
    Manned next := by
  induction moves with
  | refl => exact manned
  | tail _ move ih => exact ih.of_move all move

/-! ## Calls succeed -/

variable [Std.TransOrd P] [Std.LawfulEqOrd P]

namespace Sound

/-- A core in good order returns its current proposal, and is in good order still. -/
theorem current (sound : Sound digests app limit initial core last) (manned : Manned core) :
    ∃ middle kept current, core.validatedCurrentProposal digests = .ok (middle, current) ∧
      Sound digests app limit initial middle kept ∧ Manned middle ∧
      SolidCore.Settled middle kept current := by
  obtain ⟨⟨middle, current⟩, returned⟩ : Succeeds (core.validatedCurrentProposal digests) :=
    succeeds_validatedCurrentProposal sound.rooted (manned last sound.rooted.has)
  obtain ⟨moves, kept, keptSound, settled⟩ := sound.validatedCurrentProposal returned
  have still : Manned middle :=
    Manned.of_moves (fun manifest mem => absurd mem (Set.notMem_empty manifest)) manned moves
  exact ⟨middle, kept, current, returned, keptSound, still, settled⟩

theorem succeeds_nextAccept (sound : Sound digests app limit initial core last)
    (manned : Manned core) (skip : Bool) : Succeeds (core.nextAccept digests skip) := by
  obtain ⟨middle, kept, current, returned, _, still, settled⟩ := sound.current manned
  rw [SolidCore.nextAccept, returned, ok_bind]
  dsimp only
  rw [settled.validatedCurrentProposal_eq, ok_bind]
  apply (succeeds_getLeaderForSkip (still current settled.has) _).bind
  intro _ _
  exact succeeds_ok _

omit [Std.TransOrd P] [Std.LawfulEqOrd P] in
theorem succeeds_leads {proposal : Proposal P S}
    (manned : proposal.manifest.content.validators ≠ []) (core : SolidCore P S) (breached : Bool)
    (skips : Nat) : Succeeds (core.leads digests breached proposal skips) := by
  rw [SolidCore.leads]
  split
  · apply (succeeds_getLeaderForSkip manned skips).bind
    intro _ _
    exact succeeds_ok _
  · exact succeeds_ok _

theorem succeeds_addOrphan (sound : Sound digests app limit initial core last)
    (manned : Manned core) (now : Nat) (accept : ProposalAccept P) :
    Succeeds (core.addOrphan digests now accept) := by
  obtain ⟨middle, kept, current, returned, keptSound, _, _⟩ :=
    (sound.hold now accept).current manned
  rw [SolidCore.addOrphan]
  dsimp only
  rw [returned, ok_bind]
  dsimp only
  split
  · rw [SolidCore.height, ProposalCache.height_eq keptSound.rooted.confirmed]
    exact succeeds_ok _
  · exact succeeds_ok _

omit [Std.TransOrd P] [Std.LawfulEqOrd P] in
/-- Asking for the current proposal changes no number of skips. -/
theorem skipsSent_of_current (rooted : core.proposals.Rooted last)
    {result : SolidCore P S × Proposal P S}
    (returned : core.validatedCurrentProposal digests = .ok result) {hash : ProposalHash}
    {proposal : Proposal P S} (stored : result.1.proposals.get hash = some proposal) :
    ∃ old, core.proposals.get hash = some old ∧ old.skipsSent = proposal.skipsSent := by
  obtain ⟨pruned, found, prunes, has, marked, coreEq, _⟩ :=
    SolidCore.validatedCurrentProposal_spec rooted returned
  rw [coreEq] at stored
  change (pruned.write found.hash result.2).get hash = some proposal at stored
  by_cases same : hash = found.hash
  · subst same
    rw [ProposalCache.get_write_self has, marked] at stored
    obtain rfl := Option.some.inj stored
    exact ⟨found, prunes.has has, rfl⟩
  · rw [ProposalCache.get_write_of_ne same] at stored
    exact ⟨proposal, prunes.sub hash proposal stored, rfl⟩

/-- Adding an accept succeeds, if what follows a raise of the skips does. -/
theorem succeeds_addAcceptThen (sound : Sound digests app limit initial core last)
    (manned : Manned core)
    {next : SolidCore P S → Except String (SolidCore P S × Option (SolidEvent P S))} {now : Nat}
    {accept : ProposalAccept P}
    (continues : (∃ old, core.proposals.get accept.proposal.hash = some old ∧
        old.skipsSent < accept.skips) →
      ∀ (middle : SolidCore P S) (kept : Proposal P S),
        Sound digests app limit initial middle kept → Manned middle → Succeeds (next middle)) :
    Succeeds (core.addAcceptThen digests next now accept) := by
  obtain ⟨settledCore, kept, current, returned, keptSound, still, settled⟩ := sound.current manned
  have height : core.height = .ok last.height := ProposalCache.height_eq sound.rooted.confirmed
  rw [SolidCore.addAcceptThen, height, ok_bind]
  split
  · exact succeeds_ok _
  rw [SolidCore.isOutOfSync, height, ok_bind]
  change Succeeds (core.validatedCurrentProposal digests >>= _)
  rw [returned, ok_bind]
  dsimp only
  split
  · exact keptSound.succeeds_addOrphan still now accept
  rename_i proposal found
  have has := keptSound.rooted.keyed.has found
  have hashEq : accept.proposal.hash = proposal.hash :=
    (keptSound.rooted.keyed _ _ found).symm
  obtain ⟨old, isOld, sameSkips⟩ := skipsSent_of_current sound.rooted returned found
  apply (Proposal.succeeds_addAccept (still proposal has) accept).bind
  rintro ⟨added, breached⟩ addedEq
  rw [keptSound.limit_eq] at addedEq
  dsimp only
  obtain ⟨storedLast, storedSound, stored⟩ := keptSound.addAccept_spec has hashEq addedEq
  have addedManned : added.manifest.content.validators ≠ [] := by
    rw [stored.manifest]
    exact still proposal has
  apply (succeeds_leads addedManned _ breached accept.skips).bind
  intro leads _
  split
  · exact succeeds_ok _
  · split
    · rename_i higher
      have raises : Records digests added { added with skipsSent := accept.skips } :=
        .raise (Nat.le_of_lt higher.2)
      have storing : Relation.ReflTransGen (Moves digests ∅) settledCore
          (settledCore.write proposal.hash added) :=
        Sound.addAccept_moves has hashEq addedEq
      rw [hashEq, ← stored.hash]
      rw [← stored.hash] at storing storedSound
      have raised := storedSound.record stored.has raises
      have raisedManned := Manned.of_moves (fun manifest mem =>
        absurd mem (Set.notMem_empty manifest)) still (storing.tail (.record stored.has raises))
      have fewer : old.skipsSent < accept.skips := by
        rw [sameSkips, ← stored.skipsSent]
        exact higher.2
      exact continues ⟨old, isOld, fewer⟩ _ _ raised raisedManned
    · exact succeeds_ok _

/-- A node has already recorded the skips of the accept that it has just sent. -/
theorem succeeds_nextAcceptThen (sound : Sound digests app limit initial core last)
    (manned : Manned core)
    {add : ProposalAccept P → SolidCore P S →
      Except String (SolidCore P S × Option (SolidEvent P S))}
    (adds : ∀ (middle : SolidCore P S) (kept : Proposal P S) (own : ProposalAccept P),
      Sound digests app limit initial middle kept → Manned middle →
      (∀ old, middle.proposals.get own.proposal.hash = some old → own.skips ≤ old.skipsSent) →
      Succeeds (add own middle))
    (skip : Bool) : Succeeds (core.nextAcceptThen digests add skip) := by
  rw [SolidCore.nextAcceptThen]
  apply (sound.succeeds_nextAccept manned skip).bind
  rintro ⟨sent, own⟩ sentEq
  obtain ⟨moves, _⟩ := sound.nextAccept sentEq
  obtain ⟨middle, current, validated, coreEq, headerEq, _⟩ :=
    SolidCore.nextAccept_spec sound.rooted sentEq
  obtain ⟨_, _, _, _, _, _, settled⟩ :=
    SolidCore.validatedCurrentProposal_spec sound.rooted validated
  obtain ⟨sentLast, sentSound, _⟩ := sound.of_moves moves
  have sentManned : Manned sent :=
    Manned.of_moves (fun manifest mem => absurd mem (Set.notMem_empty manifest)) manned moves
  have recorded : ∀ old, sent.proposals.get own.proposal.hash = some old →
      own.skips ≤ old.skipsSent := by
    intro old found
    dsimp only at coreEq headerEq
    rw [headerEq, coreEq] at found
    change (middle.proposals.write current.hash _).get current.hash = some old at found
    rw [ProposalCache.get_write_self settled.has] at found
    rw [← Option.some.inj found]
  apply (adds sent sentLast own sentSound sentManned recorded).bind
  intro _ _
  exact succeeds_ok _

/-- Of two accepts that a node adds one after the other the second one is its own. -/
theorem succeeds_addAcceptWithin (sound : Sound digests app limit initial core last)
    (manned : Manned core) {now calls : Nat} {accept : ProposalAccept P}
    (enough : 0 < calls ∨ ∀ old, core.proposals.get accept.proposal.hash = some old →
      accept.skips ≤ old.skipsSent) :
    Succeeds (core.addAcceptWithin digests now calls accept) := by
  induction calls generalizing core last accept with
  | zero =>
      apply sound.succeeds_addAcceptThen manned
      rintro ⟨old, found, fewer⟩
      have recorded := enough.resolve_left (Nat.lt_irrefl 0)
      exact absurd fewer (Nat.not_lt.mpr (recorded old found))
  | succ calls ih =>
      apply sound.succeeds_addAcceptThen manned
      intro _ middle kept middleSound middleManned
      apply middleSound.succeeds_nextAcceptThen middleManned
      intro later laterLast own laterSound laterManned recorded
      exact ih laterSound laterManned (.inr recorded)

theorem succeeds_getNextAcceptEvent (sound : Sound digests app limit initial core last)
    (manned : Manned core) (now : Nat) (skip : Bool) :
    Succeeds (core.getNextAcceptEvent digests now skip) := by
  apply sound.succeeds_nextAcceptThen manned
  intro middle kept own middleSound middleManned recorded
  exact middleSound.succeeds_addAcceptWithin middleManned (.inr recorded)

omit [DecidableEq P] [Std.TransOrd P] [Std.LawfulEqOrd P] in
/-- A check that returns leaves the call to what follows. -/
theorem succeeds_orFail {σ α : Type} {checked : Except (Stop Error) Unit} {state : σ}
    {rest : Except String (σ × Except Error α)} (returns : Returns checked)
    (succeeds : Succeeds rest) : Succeeds (orFail checked state rest) := by
  cases checked with
  | ok _ => exact succeeds
  | error stop =>
      cases stop with
      | error failure => exact succeeds_ok _
      | panic message => exact absurd rfl (returns message)

omit [Std.TransOrd P] [Std.LawfulEqOrd P] in
theorem succeeds_adoptOrphans {manifest : Manifest P S}
    (manned : manifest.content.validators ≠ []) (orphan : Option (ProposalOrphan P)) :
    Succeeds (SolidCore.adoptOrphans digests limit orphan (Proposal.new app digests manifest)) := by
  cases orphan with
  | none => exact succeeds_ok _
  | some orphan =>
      have steps : ∀ (proposal : Proposal P S) (accept : ProposalAccept P),
          proposal.manifest = manifest →
            Succeeds (proposal.addAccept digests limit accept >>= fun result => pure result.1) := by
        rintro proposal accept rfl
        apply (Proposal.succeeds_addAccept manned accept).bind
        intro _ _
        exact succeeds_ok _
      apply succeeds_foldlM steps _ rfl
      rintro proposal accept next rfl added
      rw [bind_eq_ok_iff] at added
      obtain ⟨⟨stored, breached⟩, storedEq, added⟩ := added
      obtain rfl := Except.ok.inj added
      rcases Proposal.addAccept_eq_ok storedEq with pairEq | ⟨_, pairEq⟩
      · rw [(Prod.mk.inj pairEq).1]
      · rw [(Prod.mk.inj pairEq).1]
        rfl

omit [Std.TransOrd P] [Std.LawfulEqOrd P] in
theorem succeeds_receiveProposal (sound : Sound digests app limit initial core last)
    {manifest : Manifest P S} (manned : manifest.content.validators ≠ []) :
    Succeeds (core.receiveProposal digests manifest) := by
  rw [SolidCore.receiveProposal]
  apply succeeds_orFail Proposal.returns_validateStructure
  split
  · exact succeeds_ok _
  rw [SolidCore.height, ProposalCache.height_eq sound.rooted.confirmed, ok_bind]
  split
  · exact succeeds_ok _
  dsimp only
  apply (succeeds_adoptOrphans manned _).bind
  intro _ _
  exact succeeds_ok _

theorem succeeds_nextEvent (sound : Sound digests app limit initial core last)
    (manned : Manned core) (now : Nat) : Succeeds (core.nextEvent digests now) := by
  have pending : ∀ offset, Succeeds (core.proposals.nextPendingProposal offset) := by
    intro offset
    rcases ProposalCache.nextPendingProposal_cases sound.rooted.keyed sound.rooted.confirmed
      offset with ⟨absent, _⟩ | ⟨_, next, found, _⟩
    · exact ⟨_, absent⟩
    · exact ⟨_, found⟩
  have ready : Succeeds core.committable := by
    rw [SolidCore.committable]
    apply (pending 0).bind
    intro next _
    cases next with
    | none => exact succeeds_ok _
    | some proposal =>
        apply (pending 1).bind
        intro after _
        cases after <;> exact succeeds_ok _
  have height : core.height = .ok last.height := ProposalCache.height_eq sound.rooted.confirmed
  rw [SolidCore.nextEvent]
  apply ready.bind
  intro committable isReady
  rcases SolidCore.committable_eq_ok isReady with
    rfl | ⟨proposal, confirmedBy, rfl, found, foundAfter⟩
  · dsimp only
    rw [SolidCore.isOutOfSync, height, ok_bind]
    change Succeeds (if _ then _ else _)
    split
    · exact succeeds_ok _
    · obtain ⟨middle, kept, current, returned, keptSound, still, _⟩ := sound.current manned
      rw [returned, ok_bind]
      dsimp only
      split
      · exact keptSound.succeeds_getNextAcceptEvent still now false
      · exact succeeds_ok _
  · obtain ⟨top, isNext⟩ :=
      ProposalCache.isNext_of_some sound.rooted.keyed sound.rooted.confirmed found
    obtain ⟨confirmed, confirmedEq, _⟩ := ProposalCache.exists_confirm isNext.has
    dsimp only
    rw [sound.app_eq, ← (sound.known proposal isNext.has).1, confirmedEq]
    exact succeeds_ok _

theorem succeeds_skip (sound : Sound digests app limit initial core last)
    (manned : Manned core) (now : Nat) : Succeeds (core.skip digests now) := by
  have height : core.height = .ok last.height := ProposalCache.height_eq sound.rooted.confirmed
  rw [SolidCore.skip, SolidCore.isOutOfSync, height, ok_bind]
  change Succeeds (if _ then _ else _)
  split
  · exact succeeds_ok _
  · exact sound.succeeds_getNextAcceptEvent manned now true

theorem succeeds_receiveAccept (sound : Sound digests app limit initial core last)
    (manned : Manned core) (now : Nat) (accept : ProposalAccept P) :
    Succeeds (core.receiveAccept digests now accept) := by
  obtain ⟨middle, kept, current, returned, keptSound, still, settled⟩ := sound.current manned
  rw [SolidCore.receiveAccept]
  apply succeeds_orFail (returns_check _ _)
  rw [returned, ok_bind]
  dsimp only
  rw [SolidCore.height, ProposalCache.height_eq keptSound.rooted.confirmed, ok_bind]
  have seen : ∃ core, (if accept.proposal.height > kept.height then
      { middle with maxHeight := accept.proposal.height } else middle) = core ∧
      Sound digests app limit initial core kept ∧ Manned core := by
    refine ⟨_, rfl, ?_⟩
    split
    · exact ⟨⟨keptSound.app_eq, keptSound.limit_eq, keptSound.rooted, keptSound.known,
        keptSound.checked, keptSound.stocked, keptSound.orphans⟩, still⟩
    · exact ⟨keptSound, still⟩
  obtain ⟨seenCore, seenEq, seenSound, seenManned⟩ := seen
  rw [seenEq]
  apply succeeds_orFail
  · rw [SolidCore.validateKnown]
    split
    · exact returns_ok _
    · rename_i proposal found
      exact Proposal.returns_validateAccept
        (seenManned proposal (seenSound.rooted.keyed.has found)) accept
  · apply (seenSound.succeeds_addAcceptWithin seenManned (.inl Nat.one_pos)).bind
    rintro ⟨added, event⟩ addedEq
    cases event with
    | some happened => exact succeeds_ok _
    | none =>
        have does : Does digests ∅ app limit seenCore added none :=
          seenSound.addAcceptWithin addedEq
        obtain ⟨_, addedSound, _⟩ := seenSound.of_moves does.moves
        have addedManned : Manned added := Manned.of_moves
          (fun manifest mem => absurd mem (Set.notMem_empty manifest)) seenManned does.moves
        obtain ⟨later, _, _, laterReturned, laterSound, laterManned, _⟩ :=
          addedSound.current addedManned
        dsimp only
        rw [laterReturned, ok_bind]
        dsimp only
        split
        · apply (laterSound.succeeds_getNextAcceptEvent laterManned now false).bind
          intro _ _
          exact succeeds_ok _
        · exact succeeds_ok _

/-- No call panics. -/
theorem succeeds_call (sound : Sound digests app limit initial core last) (manned : Manned core)
    (now : Nat) {call : Call P S} (mannedCall : call.Manned) :
    Succeeds (core.call digests now call) := by
  cases call with
  | receiveProposal manifest =>
      apply (sound.succeeds_receiveProposal mannedCall).bind
      intro _ _
      exact succeeds_ok _
  | receiveAccept accept =>
      apply (sound.succeeds_receiveAccept manned now accept).bind
      intro _ _
      exact succeeds_ok _
  | nextEvent => exact sound.succeeds_nextEvent manned now
  | skip => exact sound.succeeds_skip manned now

end Sound

theorem Manned.of_run {localPeerSigner : PeerSigner P} {config : SolidConfig}
    {events : List (Option (SolidEvent P S))} (manned : initial.content.validators ≠ [])
    {calls : Set (Call P S)} (all : ∀ call ∈ calls, call.Manned)
    (run : Run (SolidCore.Acts digests calls)
      (SolidCore.withLastConfirmed digests localPeerSigner initial app config) events core) :
    Manned core := by
  induction run with
  | nil =>
      intro proposal has
      change (ProposalCache.new _ _).get proposal.hash = some proposal at has
      rw [ProposalCache.get_new] at has
      split at has
      · rw [← Option.some.inj has]
        exact manned
      · cases has
  | @snoc _ middle _ next run acts ih =>
      obtain ⟨last, confirmed⟩ := Confirmed.of_run run
      rcases confirmed.sound.acts acts with ⟨_, _, taken, _⟩ | ⟨_, _, _, does⟩
      · exact fun proposal has => ih proposal (taken.sub has)
      · exact ih.of_moves (fun manifest mem => all (.receiveProposal manifest) mem) does.moves

omit [Std.TransOrd P] [Std.LawfulEqOrd P] in
/-- A node that is called within bounds stays within them, but for its own skips. -/
theorem within_of_run {height skips : Nat} {localPeerSigner : PeerSigner P} {config : SolidConfig}
    {events : List (Option (SolidEvent P S))} (low : initial.content.height ≤ height)
    (run : Run (SolidCore.Acts digests (possible P S height skips))
      (SolidCore.withLastConfirmed digests localPeerSigner initial app config) events core) :
    core.Within height (skips + events.length) config.maxProposalHistory := by
  have raises : ∀ call ∈ possible P S height skips, call.Within height skips ∧ call.raise ≤ 1 :=
    fun call mem => ⟨mem.2, call.raise_le_one⟩
  have within := (SolidCore.Within.withLastConfirmed localPeerSigner app config low).of_run raises
    run
  rwa [Nat.one_mul] at within

/-- As long as no proposal without validators arrives, and the heights and skips that arrive
leave room, every call of a node starts where all sums fit, and returns, whatever else the node
has been called with before. -/
theorem call_succeeds {height skips : Nat} {localPeerSigner : PeerSigner P} {config : SolidConfig}
    {events : List (Option (SolidEvent P S))} (manned : initial.content.validators ≠ [])
    (low : initial.content.height ≤ height)
    (room : Room height (skips + events.length) config.maxProposalHistory)
    (run : Run (SolidCore.Acts digests (possible P S height skips))
      (SolidCore.withLastConfirmed digests localPeerSigner initial app config) events core)
    (now : Nat) {call : Call P S} (isPossible : call ∈ possible P S height skips) :
    core.Fits ∧ ∃ next event, core.call digests now call = .ok (next, event) := by
  obtain ⟨last, confirmed⟩ := Confirmed.of_run run
  obtain ⟨⟨next, event⟩, returned⟩ := confirmed.sound.succeeds_call
    (.of_run manned (fun _ mem => mem.1) run) now isPossible.1
  exact ⟨(within_of_run low run).fits room, next, event, returned⟩

theorem testCalls_possible :
    ∀ call ∈ testCalls, call ∈ possible UncheckedPeerId Nat 2 0 := by
  intro call mem
  simp only [testCalls, List.mem_cons, List.not_mem_nil, or_false] at mem
  rcases mem with rfl | rfl | rfl | rfl | rfl | rfl | rfl
  · exact ⟨trivial, trivial⟩
  · exact ⟨trivial, le_refl 0⟩
  · exact ⟨List.cons_ne_nil _ _, Nat.le_succ 1⟩
  · exact ⟨trivial, trivial⟩
  · exact ⟨trivial, le_refl 0⟩
  · exact ⟨List.cons_ne_nil _ _, le_refl 2⟩
  · exact ⟨trivial, trivial⟩

/-- Calls of a node that has confirmed a proposal. -/
theorem call_succeeds_of_two :
    ∃ core next event, testCore.callAll testDigests 0 testCalls = .ok (core, testEvents) ∧
      core.Fits ∧ core.call testDigests 0 .skip = .ok (next, event) := by
  obtain ⟨core, returned⟩ := testCalls_run
  have run : Run (SolidCore.Acts testDigests (possible UncheckedPeerId Nat 2 0)) testCore testEvents
      core := SolidCore.run_of_callAll testCalls_possible returned
  have manned : (testManifest 0).content.validators ≠ [] := List.cons_ne_nil _ _
  have room : Room 2 (0 + testEvents.length) 1024 := ⟨by decide, by decide, by decide⟩
  have skips : (.skip : Call UncheckedPeerId Nat) ∈ possible UncheckedPeerId Nat 2 0 :=
    ⟨trivial, trivial⟩
  obtain ⟨fits, next, event, nextEq⟩ := call_succeeds manned (Nat.zero_le 2) room run 0 skips
  exact ⟨core, next, event, returned, fits, nextEq⟩

end

end Ciphera.Solid
