import Ciphera.Solid.Runs

/-!
# Room for sums

The heights of proposals and the numbers of skips are 64-bit numbers, and a node adds to them
without a check: up to two to a height, the size of the cache to a height, and one to the
skips that it has sent.  No height is higher than what the node has received, and no number of
skips is more than the highest one that it has received and one for each skip of its own.  As
long as these leave room, no sum is too large.
-/

namespace Ciphera.Solid

open Ciphera.Lib

variable {P S : Type} [Peer P] [DecidableEq P]

/-- A height and a number of skips to which a node may add. -/
structure Room (height skips cacheSize : Nat) : Prop where
  next : height + 2 < 2 ^ 64
  history : height + cacheSize < 2 ^ 64
  skip : skips + 1 < 2 ^ 64

theorem Room.mono {height skips cacheSize fewer : Nat} (room : Room height skips cacheSize)
    (le : fewer ≤ skips) : Room height fewer cacheSize where
  next := room.next
  history := room.history
  skip := (Nat.succ_le_succ le).trans_lt room.skip

/-- The sums that a call may form from the proposals that a core knows are 64-bit numbers. -/
def SolidCore.Fits (core : SolidCore P S) : Prop :=
  ∀ hash proposal, core.proposals.get hash = some proposal →
    Room proposal.height proposal.skipsSent core.proposals.cacheSize

/-- What a call brings is within bounds. -/
def Call.Within (height skips : Nat) : Call P S → Prop
  | .receiveProposal manifest => manifest.content.height ≤ height
  | .receiveAccept accept => accept.skips ≤ skips
  | _ => True

omit [Peer P] [DecidableEq P] in
theorem Call.Within.mono {height skips more : Nat} {call : Call P S}
    (within : call.Within height skips) (le : skips ≤ more) : call.Within height more := by
  cases call with
  | receiveProposal manifest => exact within
  | receiveAccept accept => exact Nat.le_trans within le
  | nextEvent | skip => trivial

/-- How much a call may add to the skips. -/
def Call.raise : Call P S → Nat
  | .skip => 1
  | _ => 0

omit [Peer P] [DecidableEq P] in
theorem Call.raise_le_one (call : Call P S) : call.raise ≤ 1 := by
  cases call with
  | skip => exact le_refl 1
  | receiveProposal | receiveAccept | nextEvent => exact Nat.zero_le 1

/-- The height of a proposal, and the skips of its accepts and those that have been sent for it,
are within bounds. -/
structure Proposal.Within (height skips : Nat) (proposal : Proposal P S) : Prop where
  height_le : proposal.height ≤ height
  sent_le : proposal.skipsSent ≤ skips
  heard_le : ∀ heard ∈ proposal.incomingAccepts, heard ≤ skips

/-- Nothing that the core keeps is above the given bounds. -/
structure SolidCore.Within (height skips cacheSize : Nat) (core : SolidCore P S) : Prop where
  proposals : ∀ hash proposal, core.proposals.get hash = some proposal →
    proposal.Within height skips
  orphans : ∀ hash orphan, core.orphanAccepts.lookup hash = some orphan →
    ∀ accept ∈ orphan.accepts, accept.skips ≤ skips
  cacheSize_eq : core.proposals.cacheSize = cacheSize

section

variable {digests : Digests} {limit : AcceptThreshold} {height skips more cacheSize : Nat}

/-! ## One proposal -/

namespace Proposal.Within

variable {proposal : Proposal P S}

omit [DecidableEq P] in
theorem mono (within : proposal.Within height skips) (le : skips ≤ more) :
    proposal.Within height more where
  height_le := within.height_le
  sent_le := within.sent_le.trans le
  heard_le heard mem := (within.heard_le heard mem).trans le

omit [DecidableEq P] in
theorem of_new (digests : Digests) (app : App P S) {manifest : Manifest P S}
    (low : manifest.content.height ≤ height) :
    (Proposal.new app digests manifest).Within height skips where
  height_le := low
  sent_le := Nat.zero_le _
  heard_le _ mem := absurd mem Std.TreeMap.not_mem_emptyc

omit [DecidableEq P] in
theorem highest_le (within : proposal.Within height skips) {highest : Nat}
    (found : proposal.highestSkipWithInverse limit = some highest) : highest ≤ skips := by
  rw [highestSkipWithInverse, Option.map_eq_some_iff] at found
  rcases found with ⟨entry, isEntry, rfl⟩
  have listed := List.mem_reverse.mp (List.mem_of_find?_eq_some isEntry)
  rw [Std.TreeMap.mem_toList_iff_getElem?_eq_some] at listed
  apply within.heard_le
  rw [Std.TreeMap.mem_iff_isSome_getElem?, listed]
  rfl

omit [DecidableEq P] in
/-- The number of skips of the next accept is at most one more. -/
theorem nextAcceptSkip_le (within : proposal.Within height skips) (skip : Bool) :
    proposal.nextAcceptSkip limit skip ≤ skips + skip.toNat := by
  have sent : (if skip = true then proposal.skipsSent + 1 else proposal.skipsSent) ≤
      skips + skip.toNat := by
    cases skip with
    | false => exact within.sent_le
    | true => exact Nat.succ_le_succ within.sent_le
  rw [nextAcceptSkip]
  split
  · exact Nat.zero_le _
  · generalize (if skip = true then proposal.skipsSent + 1 else proposal.skipsSent) =
      skipsSentWithSkip at sent
    cases found : proposal.highestSkipWithInverse limit with
    | none => exact sent
    | some highest =>
        dsimp only
        split
        · exact (within.highest_le found).trans (Nat.le_add_right _ _)
        · exact sent

omit [DecidableEq P] in
theorem withAccept (within : proposal.Within height skips) {accept : ProposalAccept P}
    (low : accept.skips ≤ skips) : (proposal.withAccept accept).Within height skips where
  height_le := within.height_le
  sent_le := within.sent_le
  heard_le heard mem := by
    rcases Std.TreeMap.mem_insert.mp mem with same | before
    · rwa [← Nat.compare_eq_eq.mp same]
    · exact within.heard_le heard before

theorem addAccept (within : proposal.Within height skips) {accept : ProposalAccept P}
    (low : accept.skips ≤ skips) {result : Proposal P S × Bool}
    (returned : proposal.addAccept digests limit accept = .ok result) :
    result.1.Within height skips := by
  rcases Proposal.addAccept_eq_ok returned with rfl | ⟨_, rfl⟩
  · exact within
  · exact within.withAccept low

/-- Accepts that came before their proposal are added to it. -/
theorem adoptOrphans (within : proposal.Within height skips) {orphan : Option (ProposalOrphan P)}
    (low : ∀ stored, orphan = some stored → ∀ accept ∈ stored.accepts, accept.skips ≤ skips)
    {result : Proposal P S}
    (returned : SolidCore.adoptOrphans digests limit orphan proposal = .ok result) :
    result.Within height skips := by
  rw [SolidCore.adoptOrphans.eq_def] at returned
  cases orphan with
  | none =>
      obtain rfl := Except.ok.inj returned
      exact within
  | some orphan =>
      have allLow := low orphan rfl
      dsimp only at returned
      clear low
      generalize orphan.accepts = accepts at returned allLow
      induction accepts generalizing proposal with
      | nil =>
          obtain rfl := Except.ok.inj returned
          exact within
      | cons accept accepts ih =>
          rw [List.foldlM_cons, bind_eq_ok_iff] at returned
          rcases returned with ⟨added, addedEq, returned⟩
          rw [bind_eq_ok_iff] at addedEq
          rcases addedEq with ⟨stored, storedEq, addedEq⟩
          obtain rfl := Except.ok.inj addedEq
          exact ih (within.addAccept (allLow accept List.mem_cons_self) storedEq) returned
            fun later mem => allLow later (List.mem_cons_of_mem _ mem)

end Proposal.Within

/-! ## The core -/

namespace SolidCore.Within

variable {core next : SolidCore P S}

omit [DecidableEq P] in
theorem mono (within : core.Within height skips cacheSize) (le : skips ≤ more) :
    core.Within height more cacheSize where
  proposals hash proposal found := (within.proposals hash proposal found).mono le
  orphans hash orphan found accept mem := (within.orphans hash orphan found accept mem).trans le
  cacheSize_eq := within.cacheSize_eq

omit [DecidableEq P] in
theorem fits (within : core.Within height skips cacheSize) (room : Room height skips cacheSize) :
    core.Fits := by
  intro hash proposal found
  have known := within.proposals hash proposal found
  rw [within.cacheSize_eq]
  constructor
  · exact (Nat.add_le_add_right known.height_le 2).trans_lt room.next
  · exact (Nat.add_le_add_right known.height_le cacheSize).trans_lt room.history
  · exact (Nat.succ_le_succ known.sent_le).trans_lt room.skip

omit [DecidableEq P] in
/-- Nothing that a core knows has changed, but for proposals that it has forgotten. -/
theorem of_subset (within : core.Within height skips cacheSize)
    (known : ∀ hash proposal, next.proposals.get hash = some proposal →
      core.proposals.get hash = some proposal)
    (orphans : next.orphanAccepts = core.orphanAccepts)
    (sameSize : next.proposals.cacheSize = core.proposals.cacheSize) :
    next.Within height skips cacheSize where
  proposals hash proposal found := within.proposals hash proposal (known hash proposal found)
  orphans := orphans ▸ within.orphans
  cacheSize_eq := sameSize.trans within.cacheSize_eq

omit [DecidableEq P] in
theorem write (within : core.Within height skips cacheSize) {changed : Proposal P S}
    (changedWithin : changed.Within height skips) (hash : ProposalHash) :
    (core.write hash changed).Within height skips cacheSize where
  proposals other stored found := by
    change (core.proposals.write hash changed).get other = some stored at found
    rw [ProposalCache.get_write, Option.map_eq_some_iff] at found
    rcases found with ⟨old, isOld, storedEq⟩
    split at storedEq
    · exact storedEq ▸ changedWithin
    · exact storedEq ▸ within.proposals other old isOld
  orphans := within.orphans
  cacheSize_eq := within.cacheSize_eq

omit [DecidableEq P] in
theorem remove (within : core.Within height skips cacheSize) (hash : ProposalHash) :
    SolidCore.Within height skips cacheSize
      { core with proposals := core.proposals.remove hash } := by
  have known : ∀ other stored, (core.proposals.remove hash).get other = some stored →
      core.proposals.get other = some stored := by
    intro other stored found
    rw [ProposalCache.get_remove] at found
    split at found
    · cases found
    · exact found
  exact within.of_subset known rfl rfl

theorem validatedWithin (within : core.Within height skips cacheSize) {rounds : Nat}
    {result : SolidCore P S × ProposalHash}
    (returned : core.validatedWithin digests rounds = .ok result) :
    result.1.Within height skips cacheSize := by
  induction rounds generalizing core with
  | zero =>
      rw [SolidCore.validatedWithin, bind_eq_ok_iff] at returned
      rcases returned with ⟨last, _, returned⟩
      rw [bind_eq_ok_iff] at returned
      rcases returned with ⟨_ | proposal, _, returned⟩
      · obtain rfl := Except.ok.inj returned
        exact within
      · dsimp only at returned
        rw [bind_eq_ok_iff] at returned
        rcases returned with ⟨_ | _, _, returned⟩
        · cases returned
        · obtain rfl := Except.ok.inj returned
          exact within
  | succ rounds ih =>
      rw [SolidCore.validatedWithin, bind_eq_ok_iff] at returned
      rcases returned with ⟨last, _, returned⟩
      rw [bind_eq_ok_iff] at returned
      rcases returned with ⟨_ | proposal, _, returned⟩
      · obtain rfl := Except.ok.inj returned
        exact within
      · dsimp only at returned
        rw [bind_eq_ok_iff] at returned
        rcases returned with ⟨_ | _, _, returned⟩
        · exact ih (within.remove proposal.hash) returned
        · obtain rfl := Except.ok.inj returned
          exact within

theorem validatedCurrentProposal (within : core.Within height skips cacheSize)
    {result : SolidCore P S × Proposal P S}
    (returned : core.validatedCurrentProposal digests = .ok result) :
    result.1.Within height skips cacheSize ∧ result.2.Within height skips := by
  rw [SolidCore.validatedCurrentProposal, bind_eq_ok_iff] at returned
  rcases returned with ⟨⟨settled, hash⟩, settledEq, returned⟩
  have settledWithin : settled.Within height skips cacheSize := within.validatedWithin settledEq
  dsimp only at returned
  split at returned
  · cases returned
  · rename_i proposal found
    have known := settledWithin.proposals hash proposal found
    have marked : Proposal.Within height skips { proposal with isValidated := true } :=
      ⟨known.height_le, known.sent_le, known.heard_le⟩
    obtain rfl := Except.ok.inj returned
    exact ⟨settledWithin.write marked hash, marked⟩

/-! ## Accepts -/

/-- The next accept raises the skips by one at most. -/
theorem nextAccept (within : core.Within height skips cacheSize) {skip : Bool}
    {result : SolidCore P S × ProposalAccept P}
    (returned : core.nextAccept digests skip = .ok result) :
    result.1.Within height (skips + skip.toNat) cacheSize ∧
      result.2.skips ≤ skips + skip.toNat := by
  rw [SolidCore.nextAccept] at returned
  dsimp only at returned
  rw [bind_eq_ok_iff] at returned
  rcases returned with ⟨⟨middle, current⟩, middleEq, returned⟩
  rcases within.validatedCurrentProposal middleEq with ⟨middleWithin, currentWithin⟩
  have atMost : current.nextAcceptSkip middle.limit skip ≤ skips + skip.toNat :=
    currentWithin.nextAcceptSkip_le skip
  dsimp only at returned
  rw [bind_eq_ok_iff] at returned
  rcases returned with ⟨⟨settled, again⟩, settledEq, returned⟩
  rcases middleWithin.validatedCurrentProposal settledEq with ⟨settledWithin, againWithin⟩
  dsimp only at returned
  rw [bind_eq_ok_iff] at returned
  rcases returned with ⟨leader, _, returned⟩
  obtain rfl := Except.ok.inj returned
  have raised := againWithin.mono (Nat.le_add_right skips skip.toNat)
  refine ⟨(settledWithin.mono (Nat.le_add_right _ _)).write ?_ _, atMost⟩
  exact ⟨raised.height_le, atMost, raised.heard_le⟩

theorem addOrphan (within : core.Within height skips cacheSize) {now : Nat}
    {accept : ProposalAccept P} (low : accept.skips ≤ skips)
    {result : SolidCore P S × Option (SolidEvent P S)}
    (returned : core.addOrphan digests now accept = .ok result) :
    result.1.Within height skips cacheSize := by
  have held : SolidCore.Within height skips cacheSize { core with
      orphanAccepts := core.orphanAccepts.insert accept.proposal.hash
        (core.orphanWith now accept) } := by
    constructor
    · exact within.proposals
    · intro hash orphan found stored mem
      by_cases same : hash = accept.proposal.hash
      · subst same
        rw [AList.lookup_insert] at found
        obtain rfl := Option.some.inj found
        rcases core.mem_orphanWith mem with rfl | ⟨before, isBefore, earlier⟩
        · exact low
        · exact within.orphans _ before isBefore stored earlier
      · rw [AList.lookup_insert_ne same] at found
        exact within.orphans hash orphan found stored mem
    · exact within.cacheSize_eq
  rw [SolidCore.addOrphan] at returned
  dsimp only at returned
  rw [bind_eq_ok_iff] at returned
  rcases returned with ⟨⟨settled, current⟩, settledEq, returned⟩
  have settledWithin := (held.validatedCurrentProposal settledEq).1
  dsimp only at returned settledWithin
  split at returned
  · rw [bind_eq_ok_iff] at returned
    rcases returned with ⟨_, _, returned⟩
    obtain rfl := Except.ok.inj returned
    exact settledWithin
  · obtain rfl := Except.ok.inj returned
    exact settledWithin

/-- Adding an accept, if what follows a raise of the skips stays within the bounds. -/
theorem addAcceptThen (within : core.Within height skips cacheSize)
    {after : SolidCore P S → Except String (SolidCore P S × Option (SolidEvent P S))}
    (continues : ∀ (middle : SolidCore P S) (result : SolidCore P S × Option (SolidEvent P S)),
      middle.Within height skips cacheSize → after middle = .ok result →
      result.1.Within height skips cacheSize)
    {now : Nat} {accept : ProposalAccept P} (low : accept.skips ≤ skips)
    {result : SolidCore P S × Option (SolidEvent P S)}
    (returned : core.addAcceptThen digests after now accept = .ok result) :
    result.1.Within height skips cacheSize := by
  rw [SolidCore.addAcceptThen, bind_eq_ok_iff] at returned
  rcases returned with ⟨_, _, returned⟩
  split at returned
  · obtain rfl := Except.ok.inj returned
    exact within
  rw [bind_eq_ok_iff] at returned
  rcases returned with ⟨_, _, returned⟩
  rw [bind_eq_ok_iff] at returned
  rcases returned with ⟨⟨settled, current⟩, settledEq, returned⟩
  have settledWithin := (within.validatedCurrentProposal settledEq).1
  dsimp only at returned settledWithin
  split at returned
  · exact settledWithin.addOrphan low returned
  rename_i proposal found
  rw [bind_eq_ok_iff] at returned
  rcases returned with ⟨⟨added, breached⟩, addedEq, returned⟩
  have addedWithin := (settledWithin.proposals _ _ found).addAccept low addedEq
  dsimp only at returned addedWithin
  have written := settledWithin.write addedWithin accept.proposal.hash
  rw [bind_eq_ok_iff] at returned
  rcases returned with ⟨_, _, returned⟩
  split at returned
  · obtain rfl := Except.ok.inj returned
    exact written
  · split at returned
    · have raised : Proposal.Within height skips { added with skipsSent := accept.skips } :=
        ⟨addedWithin.height_le, low, addedWithin.heard_le⟩
      exact continues _ result (written.write raised _) returned
    · obtain rfl := Except.ok.inj returned
      exact written

theorem nextAcceptThen (within : core.Within height skips cacheSize)
    {add : ProposalAccept P → SolidCore P S →
      Except String (SolidCore P S × Option (SolidEvent P S))} (skip : Bool)
    (adds : ∀ (own : ProposalAccept P) (middle : SolidCore P S)
      (result : SolidCore P S × Option (SolidEvent P S)),
      own.skips ≤ skips + skip.toNat → middle.Within height (skips + skip.toNat) cacheSize →
      add own middle = .ok result → result.1.Within height (skips + skip.toNat) cacheSize)
    {result : SolidCore P S × Option (SolidEvent P S)}
    (returned : core.nextAcceptThen digests add skip = .ok result) :
    result.1.Within height (skips + skip.toNat) cacheSize := by
  rw [SolidCore.nextAcceptThen, bind_eq_ok_iff] at returned
  rcases returned with ⟨⟨sent, own⟩, sentEq, returned⟩
  rcases within.nextAccept sentEq with ⟨sentWithin, low⟩
  dsimp only at returned
  rw [bind_eq_ok_iff] at returned
  rcases returned with ⟨added, addedEq, returned⟩
  obtain rfl := Except.ok.inj returned
  exact adds own sent added low sentWithin addedEq

theorem addAcceptWithin (within : core.Within height skips cacheSize) {now calls : Nat}
    {accept : ProposalAccept P} (low : accept.skips ≤ skips)
    {result : SolidCore P S × Option (SolidEvent P S)}
    (returned : core.addAcceptWithin digests now calls accept = .ok result) :
    result.1.Within height skips cacheSize := by
  induction calls generalizing core accept result with
  | zero =>
      apply within.addAcceptThen _ low returned
      intro middle other _ stopped
      cases stopped
  | succ calls ih =>
      apply within.addAcceptThen _ low returned
      intro middle other middleWithin nextEq
      have adds : ∀ (own : ProposalAccept P) (later : SolidCore P S)
          (result : SolidCore P S × Option (SolidEvent P S)), own.skips ≤ skips →
          later.Within height skips cacheSize →
          later.addAcceptWithin digests now calls own = .ok result →
          result.1.Within height skips cacheSize :=
        fun own later result ownLow laterWithin => ih laterWithin ownLow
      exact middleWithin.nextAcceptThen false adds nextEq

theorem getNextAcceptEvent (within : core.Within height skips cacheSize) {now : Nat} {skip : Bool}
    {result : SolidCore P S × Option (SolidEvent P S)}
    (returned : core.getNextAcceptEvent digests now skip = .ok result) :
    result.1.Within height (skips + skip.toNat) cacheSize :=
  within.nextAcceptThen skip (fun _ _ _ low middleWithin => middleWithin.addAcceptWithin low)
    returned

/-! ## Calls -/

theorem skip (within : core.Within height skips cacheSize) {now : Nat}
    {result : SolidCore P S × Option (SolidEvent P S)}
    (returned : core.skip digests now = .ok result) :
    result.1.Within height (skips + 1) cacheSize := by
  rw [SolidCore.skip, bind_eq_ok_iff] at returned
  rcases returned with ⟨_, _, returned⟩
  split at returned
  · obtain rfl := Except.ok.inj returned
    exact within.mono (Nat.le_succ skips)
  · exact within.getNextAcceptEvent returned

theorem receiveAccept (within : core.Within height skips cacheSize) {now : Nat}
    {accept : ProposalAccept P} (low : accept.skips ≤ skips)
    {result : SolidCore P S × Except Error (Option (SolidEvent P S))}
    (returned : core.receiveAccept digests now accept = .ok result) :
    result.1.Within height skips cacheSize := by
  rw [SolidCore.receiveAccept] at returned
  rcases orFail_eq_ok returned with ⟨_, returned⟩ | ⟨failure, rfl⟩
  case inr => exact within
  rw [bind_eq_ok_iff] at returned
  rcases returned with ⟨⟨settled, earlier⟩, settledEq, returned⟩
  have settledWithin := (within.validatedCurrentProposal settledEq).1
  dsimp only at returned settledWithin
  rw [bind_eq_ok_iff] at returned
  rcases returned with ⟨known, _, returned⟩
  have seenWithin : SolidCore.Within height skips cacheSize
      (if accept.proposal.height > known then
        { settled with maxHeight := accept.proposal.height }
      else settled) := by
    split
    · exact settledWithin.of_subset (fun _ _ => id) rfl rfl
    · exact settledWithin
  rcases orFail_eq_ok returned with ⟨_, returned⟩ | ⟨failure, rfl⟩
  case inr => exact seenWithin
  rw [bind_eq_ok_iff] at returned
  rcases returned with ⟨⟨added, event⟩, addedEq, returned⟩
  have addedWithin := seenWithin.addAcceptWithin low addedEq
  cases event with
  | some happened =>
      obtain rfl := Except.ok.inj returned
      exact addedWithin
  | none =>
      dsimp only at returned addedWithin
      rw [bind_eq_ok_iff] at returned
      rcases returned with ⟨⟨later, current⟩, laterEq, returned⟩
      have laterWithin := (addedWithin.validatedCurrentProposal laterEq).1
      dsimp only at returned laterWithin
      split at returned
      · rw [bind_eq_ok_iff] at returned
        rcases returned with ⟨sent, sentEq, returned⟩
        obtain rfl := Except.ok.inj returned
        exact laterWithin.getNextAcceptEvent sentEq
      · obtain rfl := Except.ok.inj returned
        exact laterWithin

theorem receiveProposal (within : core.Within height skips cacheSize) {manifest : Manifest P S}
    (low : manifest.content.height ≤ height) {result : SolidCore P S × Except Error Unit}
    (returned : core.receiveProposal digests manifest = .ok result) :
    result.1.Within height skips cacheSize := by
  rw [SolidCore.receiveProposal] at returned
  dsimp only at returned
  rcases orFail_eq_ok returned with ⟨_, returned⟩ | ⟨failure, rfl⟩
  case inr => exact within
  split at returned
  · obtain rfl := Except.ok.inj returned
    exact within
  rw [bind_eq_ok_iff] at returned
  rcases returned with ⟨_, _, returned⟩
  split at returned
  · obtain rfl := Except.ok.inj returned
    exact within
  rw [bind_eq_ok_iff] at returned
  rcases returned with ⟨proposal, adopted, returned⟩
  obtain rfl := Except.ok.inj returned
  have adoptedWithin : proposal.Within height skips :=
    (Proposal.Within.of_new digests core.app low).adoptOrphans
      (fun orphan found => within.orphans _ orphan found) adopted
  constructor
  · intro hash stored found
    change (core.proposals.insert proposal).get hash = some stored at found
    rw [ProposalCache.get_insert] at found
    split at found
    · exact Option.some.inj found ▸ adoptedWithin
    · exact within.proposals hash stored found
  · intro hash orphan found
    apply within.orphans hash orphan
    by_cases same : hash = (Proposal.new core.app digests manifest).hash
    · subst same
      rw [AList.lookup_erase] at found
      cases found
    · rwa [AList.lookup_erase_ne same] at found
  · exact within.cacheSize_eq

theorem nextEvent (within : core.Within height skips cacheSize) {now : Nat}
    {result : SolidCore P S × Option (SolidEvent P S)}
    (returned : core.nextEvent digests now = .ok result) :
    result.1.Within height skips cacheSize := by
  rw [SolidCore.nextEvent, bind_eq_ok_iff] at returned
  rcases returned with ⟨_ | ⟨proposal, confirmedBy⟩, _, returned⟩
  · dsimp only at returned
    rw [bind_eq_ok_iff] at returned
    rcases returned with ⟨_, _, returned⟩
    split at returned
    · rw [bind_eq_ok_iff] at returned
      rcases returned with ⟨_, _, returned⟩
      obtain rfl := Except.ok.inj returned
      exact within
    · rw [bind_eq_ok_iff] at returned
      rcases returned with ⟨⟨settled, current⟩, settledEq, returned⟩
      have settledWithin := (within.validatedCurrentProposal settledEq).1
      dsimp only at returned settledWithin
      split at returned
      · exact settledWithin.getNextAcceptEvent returned
      · obtain rfl := Except.ok.inj returned
        exact settledWithin
  · dsimp only at returned
    rw [bind_eq_ok_iff] at returned
    rcases returned with ⟨confirmed, confirmedEq, returned⟩
    obtain rfl := Except.ok.inj returned
    rcases ProposalCache.subset_of_confirm confirmedEq with ⟨known, sameSize⟩
    exact within.of_subset known rfl sameSize

theorem call (within : core.Within height skips cacheSize) {now : Nat} {call : Call P S}
    (low : call.Within height skips) {event : Option (SolidEvent P S)}
    (returned : core.call digests now call = .ok (next, event)) :
    next.Within height (skips + call.raise) cacheSize := by
  cases call with
  | receiveProposal manifest =>
      rw [SolidCore.call, bind_eq_ok_iff] at returned
      rcases returned with ⟨received, receivedEq, returned⟩
      obtain ⟨rfl, rfl⟩ := Prod.mk.inj (Except.ok.inj returned)
      exact within.receiveProposal low receivedEq
  | receiveAccept accept =>
      rw [SolidCore.call, bind_eq_ok_iff] at returned
      rcases returned with ⟨received, receivedEq, returned⟩
      obtain ⟨rfl, rfl⟩ := Prod.mk.inj (Except.ok.inj returned)
      exact within.receiveAccept low receivedEq
  | nextEvent => exact within.nextEvent returned
  | skip => exact within.skip returned

/-- A node that is called, or whose hash map comes in another order, stays within the bounds. -/
theorem acts {calls : Set (Call P S)} {raise : Nat} {event : Option (SolidEvent P S)}
    (within : core.Within height skips cacheSize)
    (low : ∀ call ∈ calls, call.Within height skips ∧ call.raise ≤ raise)
    (acts : SolidCore.Acts digests calls core event next) :
    next.Within height (skips + raise) cacheSize := by
  cases acts with
  | call mem returned =>
      rcases low _ mem with ⟨callWithin, raises⟩
      exact (within.call callWithin returned).mono (Nat.add_le_add_left raises skips)
  | @reorder cache _ sameSize permuted =>
      have known : ∀ hash proposal, cache.get hash = some proposal →
          core.proposals.get hash = some proposal :=
        fun hash proposal found => (AList.perm_lookup permuted).symm.trans found
      have reordered : (core.withProposals cache).Within height skips cacheSize :=
        within.of_subset known rfl sameSize
      exact reordered.mono (Nat.le_add_right _ _)

theorem of_run {calls : Set (Call P S)} {raise : Nat} {events : List (Option (SolidEvent P S))}
    (within : core.Within height skips cacheSize)
    (low : ∀ call ∈ calls, call.Within height skips ∧ call.raise ≤ raise)
    (run : Run (SolidCore.Acts digests calls) core events next) :
    next.Within height (skips + raise * events.length) cacheSize := by
  induction run with
  | nil => exact within
  | @snoc events middle event target _ taken ih =>
      have lowHere : ∀ call ∈ calls,
          call.Within height (skips + raise * events.length) ∧ call.raise ≤ raise :=
        fun call mem => (low call mem).imp_left fun isWithin =>
          isWithin.mono (Nat.le_add_right _ _)
      have after := ih.acts lowHere taken
      rwa [List.length_append, List.length_singleton, Nat.mul_succ, ← Nat.add_assoc]

omit [DecidableEq P] in
/-- At the start nothing has been skipped. -/
theorem withLastConfirmed (localPeerSigner : PeerSigner P) {initial : Manifest P S}
    (app : App P S) (config : SolidConfig) (low : initial.content.height ≤ height) :
    SolidCore.Within height skips config.maxProposalHistory
      (.withLastConfirmed digests localPeerSigner initial app config) where
  proposals hash proposal found := by
    change (ProposalCache.new _ _).get hash = some proposal at found
    rw [ProposalCache.get_new] at found
    split at found
    · exact Option.some.inj found ▸ .of_new digests app low
    · cases found
  orphans hash orphan found := by cases found
  cacheSize_eq := rfl

end SolidCore.Within

/-- A node does something, and all sums fit. -/
def SolidCore.FitActs (digests : Digests) (core : SolidCore P S)
    (event : Option (SolidEvent P S)) (next : SolidCore P S) : Prop :=
  core.Fits ∧ SolidCore.Acts digests Set.univ core event next

/-- As long as there is room, every call of a run starts where all sums fit. -/
theorem SolidCore.run_fits {calls : Set (Call P S)} {raise : Nat} {core next : SolidCore P S}
    {events : List (Option (SolidEvent P S))} (within : core.Within height skips cacheSize)
    (low : ∀ call ∈ calls, call.Within height skips ∧ call.raise ≤ raise)
    (room : Room height (skips + raise * events.length) cacheSize)
    (run : Run (SolidCore.Acts digests calls) core events next) :
    Run (SolidCore.FitActs digests) core events next := by
  induction run with
  | nil => exact .nil
  | @snoc events middle event target earlier taken ih =>
      have fewer : skips + raise * events.length ≤ skips + raise * (events ++ [event]).length := by
        rw [List.length_append]
        exact Nat.add_le_add_left (Nat.mul_le_mul_left raise (Nat.le_add_right _ _)) skips
      have earlierRoom := room.mono fewer
      have fits : middle.Fits := (within.of_run low earlier).fits earlierRoom
      exact .snoc (ih earlierRoom) ⟨fits, taken.mono (Set.subset_univ calls)⟩

end

end Ciphera.Solid
