import Mathlib.Data.List.Sort
import Ciphera.Keccak
import Ciphera.Lib.Check
import Ciphera.Lib.Map

/-!
# Proposals and accepts

A leader proposes a block for the next height, with the accepts for the block below it that
it has collected.  Other validators accept a proposal by sending the leader of the height
after it a signed accept, which also says how many leaders have been skipped since.

Heights and numbers of skips are 64-bit numbers in the source and natural numbers here.  What
a node adds to them stays below `2 ^ 64` in the runs of `Room`.  A map with ordered keys is a
tree map.  A panic is an error with its message.
-/

namespace Ciphera.Solid

open Ciphera.Lib

/-! ## Thresholds -/

/-- How many of the validators have to accept. -/
inductive AcceptThreshold
  | moreThanTwoThirds
  | majority
  deriving DecidableEq, Repr

namespace AcceptThreshold

/-- The least number of accepts that is enough. -/
def threshold : AcceptThreshold → Nat → Nat
  | moreThanTwoThirds, peers => peers * 2 / 3 + 1
  | majority, peers => peers / 2 + 1

/-- This many accepts are enough, and one less is not. -/
def isExactBreach (limit : AcceptThreshold) (accepts peers : Nat) : Bool :=
  limit.threshold peers = accepts

/-- So many are against that the others are not enough. -/
def inverseExceeded (limit : AcceptThreshold) (accepts peers : Nat) : Bool :=
  accepts > peers - limit.threshold peers

/-- This many accepts are enough. -/
def isExceeded (limit : AcceptThreshold) (accepts peers : Nat) : Bool :=
  accepts ≥ limit.threshold peers

/-- Two quorums of one set of peers overlap. -/
theorem lt_two_mul_threshold (limit : AcceptThreshold) (peers : Nat) :
    peers < 2 * limit.threshold peers := by
  cases limit <;> rw [threshold] <;> omega

/-- All peers together are a quorum. -/
theorem threshold_le (limit : AcceptThreshold) {peers : Nat} (positive : 0 < peers) :
    limit.threshold peers ≤ peers := by
  cases limit <;> rw [threshold] <;> omega

/-- Peers that exceed the inverse leave no quorum to the others. -/
theorem inverseExceeded_iff (limit : AcceptThreshold) {accepts peers : Nat}
    (positive : 0 < peers) :
    limit.inverseExceeded accepts peers = true ↔ peers < accepts + limit.threshold peers := by
  have below := limit.threshold_le positive
  rw [inverseExceeded, decide_eq_true_iff]
  omega

end AcceptThreshold

/-! ## Peers and the application -/

/-- Bytes of signatures and of signed texts. -/
abbrev Bytes := List (BitVec 8)

/-- Proposals are known by their hashes. -/
abbrev ProposalHash := BitVec 256

/-- The digests that are used here, each read with its first byte as the highest one. -/
structure Digests where
  sha256 : Bytes → BitVec 256
  keccak256 : Keccak

/-- A validator: it verifies its signatures, and it is ordered by its distance from a hash. -/
class Peer (P : Type) extends Ord P where
  verify : P → Bytes → BitVec 256 → Bool
  toU256 : P → BitVec 256
  display : P → String

/-- How far a validator is from a hash, as the exclusive or of the two. -/
def Peer.distance {P : Type} [Peer P] (peer : P) (other : BitVec 256) : BitVec 256 :=
  other ^^^ Peer.toU256 peer

/-- A validator that can sign. -/
structure PeerSigner (P : Type) where
  sign : BitVec 256 → Bytes
  peer : P

/-- Why a message is refused. -/
inductive Error
  | invalidAcceptSignature
  | invalidAcceptProposalHash
  | invalidAcceptValidator
  | invalidProposalLeader
  | invalidAcceptLeader (expected got : String)
  | insufficientAcceptsForProposal
  | invalidProposalSignature
  | proposalAlreadyExists (hash : ProposalHash)
  | proposalHeightTooLow
  | proposalPeerThresholdNotMet
  | proposalInvalidDecendent
  | proposalInvalidAppStructure
  | proposalInvalidAppContent
  deriving DecidableEq, Repr

/-- The position of a proposal in the sequence of blocks.  Both numbers are 64-bit numbers. -/
structure ProposalHeader where
  hash : ProposalHash
  height : Nat
  skips : Nat
  deriving DecidableEq, Repr

/-- An accept: a validator votes for a proposal, and for who leads after so many skips on
top of it. -/
structure ProposalAccept (P : Type) where
  leaderId : P
  proposal : ProposalHeader
  skips : Nat
  fromPeer : P
  signature : Bytes
  deriving DecidableEq, Repr

/-- What a proposer signs. -/
structure ManifestContent (P S : Type) where
  lastProposalHash : ProposalHash
  skips : Nat
  height : Nat
  leaderId : P
  state : S
  validators : List P
  accepts : List (ProposalAccept P)
  deriving DecidableEq, Repr

/-- A proposal as it is sent. -/
structure Manifest (P S : Type) where
  content : ManifestContent P S
  signature : Bytes
  deriving DecidableEq, Repr

/-- The application above the consensus: what it checks of a proposal and how it hashes one. -/
structure App (P S : Type) where
  validateStructure : ManifestContent P S → Bool
  validateContents : ManifestContent P S → ManifestContent P S → Bool
  hash : ManifestContent P S → ProposalHash

variable {P S : Type}

/-! ## Leaders -/

section Leaders

variable [Peer P] (digests : Digests)

/-- A digest as an integer with its first byte as the lowest one. -/
def fromLittleEndian (digest : BitVec 256) : BitVec 256 :=
  BitVec.ofNat 256 (fromBeBytes (leBytes 32 digest.toNat))

/-- The hash by which the validators of a height take turns. -/
def orderingHash (height skips : Nat) : BitVec 256 :=
  fromLittleEndian (digests.sha256 (beBytes 8 height ++ beBytes 8 skips))

/-- The validators in the order in which they lead, with equal distances left in place. -/
def ManifestContent.orderedValidators (content : ManifestContent P S) : List P :=
  let target := orderingHash digests content.height content.skips
  content.validators.insertionSort fun first second =>
    Peer.distance first target ≤ Peer.distance second target

/-- The validator whose turn it is after so many skips. -/
def leaderForSkip (skip : Nat) (orderedValidators : List P) : Except String P :=
  match orderedValidators[skip % orderedValidators.length]? with
  | some peer => pure peer
  | none => .error "attempt to calculate the remainder with a divisor of zero"

/-- The leader after so many skips, by the validators of the manifest itself. -/
def ManifestContent.getLeaderForSkip (content : ManifestContent P S) (skip : Nat) :
    Except String P :=
  leaderForSkip skip (content.orderedValidators digests)

@[simp]
theorem length_orderedValidators (content : ManifestContent P S) :
    (content.orderedValidators digests).length = content.validators.length :=
  List.length_insertionSort ..

omit [Peer P] in
/-- There is a leader as long as there are validators. -/
theorem exists_leaderForSkip (skip : Nat) {orderedValidators : List P}
    (nonempty : orderedValidators ≠ []) :
    ∃ peer ∈ orderedValidators, leaderForSkip skip orderedValidators = .ok peer := by
  have inRange := Nat.mod_lt skip (List.length_pos_iff.mpr nonempty)
  refine ⟨orderedValidators[skip % orderedValidators.length], List.getElem_mem inRange, ?_⟩
  rw [leaderForSkip, List.getElem?_eq_getElem inRange]
  rfl

end Leaders

/-! ## Accepts -/

section Accepts

variable [Peer P] (digests : Digests)

/-- What the signature of an accept covers. -/
def acceptSigHash (proposal : ProposalHeader) (skips : Nat) : BitVec 256 :=
  digests.keccak256 (beBytes 32 proposal.hash.toNat ++ beBytes 8 skips)

/-- The signature of an accept. -/
def ProposalAccept.verifySignature (accept : ProposalAccept P) : Except (Stop Error) Unit :=
  check (Peer.verify accept.fromPeer accept.signature
    (acceptSigHash digests accept.proposal accept.skips)) (.error .invalidAcceptSignature)

/-- The signature of a proposal, by the given signer. -/
def Manifest.verify (app : App P S) (manifest : Manifest P S) (signer : P) : Bool :=
  Peer.verify signer manifest.signature (app.hash manifest.content)

end Accepts

/-! ## Proposals -/

/-- A proposal as a node keeps it, with the accepts for it by their number of skips and
their sender. -/
structure Proposal (P S : Type) [Peer P] where
  incomingAccepts : Std.TreeMap Nat (Std.TreeMap P (ProposalAccept P)) := ∅
  hash : ProposalHash
  manifest : Manifest P S
  orderedValidators : List P
  initialAcceptSent : Bool := false
  skipsSent : Nat := 0
  isValidated : Bool := false

namespace Proposal

section

variable [Peer P]

/-- A proposal that no accept has come for. -/
def new (app : App P S) (digests : Digests) (manifest : Manifest P S) : Proposal P S where
  hash := app.hash manifest.content
  manifest := manifest
  orderedValidators := manifest.content.orderedValidators digests

/-- The hash of the parent. -/
def lastHash (proposal : Proposal P S) : ProposalHash :=
  proposal.manifest.content.lastProposalHash

/-- The height of the proposal. -/
def height (proposal : Proposal P S) : Nat := proposal.manifest.content.height

/-- The skips before the proposal. -/
def skips (proposal : Proposal P S) : Nat := proposal.manifest.content.skips

/-- The accepts with a number of skips, by their sender. -/
def acceptsAt (proposal : Proposal P S) (skips : Nat) : Std.TreeMap P (ProposalAccept P) :=
  proposal.incomingAccepts.getD skips ∅

/-- The accepts for one number of skips, if there are any. -/
def acceptsForSkip (proposal : Proposal P S) (skips : Nat) : Option (List (ProposalAccept P)) :=
  proposal.incomingAccepts[skips]?.map fun accepts => accepts.toList.map Prod.snd

/-- The accept that has just come makes the accepts enough. -/
def acceptThresholdBreached (proposal : Proposal P S) (skips : Nat) (limit : AcceptThreshold) :
    Bool :=
  limit.isExactBreach (proposal.acceptsAt skips).size proposal.orderedValidators.length

/-- The highest number of skips with accepts from so many that no quorum is left for less. -/
def highestSkipWithInverse (proposal : Proposal P S) (limit : AcceptThreshold) : Option Nat :=
  (proposal.incomingAccepts.toList.reverse.find? fun entry =>
    limit.inverseExceeded entry.2.size (max proposal.orderedValidators.length 1)).map Prod.fst

/-- The skips of the next accept.  The sum is one of those that `Room` bounds. -/
def nextAcceptSkip (proposal : Proposal P S) (limit : AcceptThreshold) (skip : Bool) : Nat :=
  if !proposal.initialAcceptSent && proposal.skipsSent = 0 then 0
  else
    let skipsSentWithSkip := if skip then proposal.skipsSent + 1 else proposal.skipsSent
    match proposal.highestSkipWithInverse limit with
    | some highest => if highest > skipsSentWithSkip then highest else skipsSentWithSkip
    | none => skipsSentWithSkip

variable [DecidableEq P] (digests : Digests)

/-- Check an accept that a manifest carries. -/
def validateManifestAccept (content : ManifestContent P S) (accept : ProposalAccept P) :
    Except (Stop Error) Unit := do
  accept.verifySignature digests
  check (accept.leaderId = content.leaderId) (.error (.invalidAcceptLeader
    (Peer.display content.leaderId) (Peer.display accept.leaderId)))
  check (accept.proposal.hash = content.lastProposalHash) (.error .invalidAcceptProposalHash)

/-- What can be checked of a proposal without its parent. -/
def validateStructure (app : App P S) (limit : AcceptThreshold) (proposal : Proposal P S) :
    Except (Stop Error) Unit := do
  let content := proposal.manifest.content
  check (limit.isExceeded content.accepts.length proposal.orderedValidators.length)
    (.error .insufficientAcceptsForProposal)
  check (proposal.manifest.verify app content.leaderId) (.error .invalidProposalSignature)
  content.accepts.forM (validateManifestAccept digests content)
  check (app.validateStructure content) (.error .proposalInvalidAppStructure)

/-- A panic stops a check as it stops everything else. -/
def liftPanic {α : Type} : Except String α → Except (Stop Error) α
  | .ok value => .ok value
  | .error message => .error (.panic message)

/-- What is checked of a proposal against its parent. -/
def validateContents (app : App P S) (proposal lastConfirmed : Proposal P S) :
    Except (Stop Error) Unit := do
  let content := proposal.manifest.content
  check (lastConfirmed.hash = content.lastProposalHash) (.error .proposalInvalidDecendent)
  let leader ← liftPanic
    (lastConfirmed.manifest.content.getLeaderForSkip digests proposal.skips)
  check (leader = content.leaderId) (.error .invalidProposalLeader)
  check (app.validateContents content lastConfirmed.manifest.content)
    (.error .proposalInvalidAppContent)
  content.accepts.forM fun accept =>
    check (accept.fromPeer ∈ lastConfirmed.manifest.content.validators)
      (.error .invalidAcceptValidator)

/-- Check an accept that is sent for this proposal. -/
def validateAccept (proposal : Proposal P S) (accept : ProposalAccept P) :
    Except (Stop Error) Unit := do
  accept.verifySignature digests
  let leader ← liftPanic (proposal.manifest.content.getLeaderForSkip digests accept.skips)
  check (leader = accept.leaderId)
    (.error (.invalidAcceptLeader (Peer.display leader) (Peer.display accept.leaderId)))
  check (accept.fromPeer ∈ proposal.manifest.content.validators) (.error .invalidAcceptValidator)

/-- The proposal with a valid accept added to it. -/
def withAccept (proposal : Proposal P S) (accept : ProposalAccept P) : Proposal P S :=
  { proposal with
    incomingAccepts := proposal.incomingAccepts.insert accept.skips
      ((proposal.acceptsAt accept.skips).insert accept.fromPeer accept) }

/-- Add an accept, and say whether a new proposal should be made. -/
def addAccept (limit : AcceptThreshold) (accept : ProposalAccept P) (proposal : Proposal P S) :
    Except String (Proposal P S × Bool) :=
  match proposal.validateAccept digests accept with
  | .error (.panic message) => .error message
  | .error (.error _) => pure (proposal, false)
  | .ok _ =>
      let added := (proposal.acceptsAt accept.skips)[accept.fromPeer]?
      let proposal := proposal.withAccept accept
      pure (proposal, added.isNone && proposal.acceptThresholdBreached accept.skips limit)

end

/-! ### What the operations do -/

section

variable [Peer P] {limit : AcceptThreshold} {proposal : Proposal P S}

/-- As many have sent an accept with some number of skips that no quorum is left for less. -/
def InverseExceeded (limit : AcceptThreshold) (proposal : Proposal P S) (skips : Nat) : Prop :=
  limit.inverseExceeded (proposal.acceptsAt skips).size
    (max proposal.orderedValidators.length 1) = true

theorem inverseExceeded_pos {skips : Nat} (exceeded : InverseExceeded limit proposal skips) :
    0 < (proposal.acceptsAt skips).size := by
  rw [InverseExceeded, AcceptThreshold.inverseExceeded, decide_eq_true_iff] at exceeded
  exact Nat.zero_lt_of_lt exceeded

theorem mem_of_inverseExceeded {skips : Nat} (exceeded : InverseExceeded limit proposal skips) :
    skips ∈ proposal.incomingAccepts := by
  by_contra absent
  have positive := inverseExceeded_pos exceeded
  rw [acceptsAt, Std.TreeMap.getD_eq_fallback absent, Std.TreeMap.size_emptyc] at positive
  exact Nat.lt_irrefl _ positive

/-- The number of skips that is found is the highest of all that so many have sent. -/
theorem highestSkipWithInverse_exceeds_iff {bound : Nat} :
    bound < (proposal.highestSkipWithInverse limit).getD 0 ↔
      ∃ skips > bound, InverseExceeded limit proposal skips := by
  have entryIff : ∀ entry ∈ proposal.incomingAccepts.toList.reverse,
      limit.inverseExceeded entry.2.size (max proposal.orderedValidators.length 1) = true ↔
        InverseExceeded limit proposal entry.1 := by
    rintro ⟨skips, accepts⟩ mem
    rw [List.mem_reverse, Std.TreeMap.mem_toList_iff_getElem?_eq_some] at mem
    rw [InverseExceeded, acceptsAt, Std.TreeMap.getD_eq_getD_getElem?, mem]
    rfl
  rw [highestSkipWithInverse]
  constructor
  · intro exceeds
    cases found : proposal.incomingAccepts.toList.reverse.find? fun entry =>
        limit.inverseExceeded entry.2.size (max proposal.orderedValidators.length 1) with
    | none =>
        rw [found] at exceeds
        exact absurd exceeds (Nat.not_lt_zero _)
    | some entry =>
        rw [found] at exceeds
        have exceeded := List.find?_some found
        exact ⟨entry.1, exceeds, (entryIff entry (List.mem_of_find?_eq_some found)).mp exceeded⟩
  · rintro ⟨skips, above, exceeded⟩
    have stored : (skips, proposal.acceptsAt skips) ∈
        proposal.incomingAccepts.toList.reverse := by
      rw [List.mem_reverse, Std.TreeMap.mem_toList_iff_getElem?_eq_some, acceptsAt,
        Std.TreeMap.getD_eq_getD_getElem?]
      have present := Std.TreeMap.getElem?_eq_some_getElem (mem_of_inverseExceeded exceeded)
      rw [present, Option.getD_some]
    cases found : proposal.incomingAccepts.toList.reverse.find? fun entry =>
        limit.inverseExceeded entry.2.size (max proposal.orderedValidators.length 1) with
    | none => exact absurd exceeded (List.find?_eq_none.mp found _ stored)
    | some entry =>
        -- the entries come in descending order, and those before the one found do not exceed
        obtain ⟨_, before, after, split, none⟩ := List.find?_eq_some_iff_append.mp found
        have descending := List.pairwise_reverse.mpr
          (Std.TreeMap.ordered_keys_toList (t := proposal.incomingAccepts))
        rw [split] at stored descending
        rw [List.pairwise_append, List.pairwise_cons] at descending
        rw [Option.map_some, Option.getD_some]
        rcases List.mem_append.mp stored with earlier | later
        · have otherwise := none _ earlier
          rw [Bool.not_eq_true', ← Bool.not_eq_true] at otherwise
          exact absurd exceeded otherwise
        · rcases List.mem_cons.mp later with isEntry | behind
          · rwa [← isEntry]
          · have below := Nat.compare_eq_lt.mp (descending.2.1.1 _ behind)
            exact Nat.lt_trans above below

theorem skipsSent_le_nextAcceptSkip (skip : Bool) :
    proposal.skipsSent ≤ proposal.nextAcceptSkip limit skip := by
  rw [nextAcceptSkip]
  split
  · rename_i first
    rw [Bool.and_eq_true, decide_eq_true_iff] at first
    exact Nat.le_of_eq first.2
  · have atLeast : proposal.skipsSent ≤
        if skip = true then proposal.skipsSent + 1 else proposal.skipsSent := by
      split
      · exact Nat.le_succ _
      · exact le_refl _
    generalize (if skip = true then proposal.skipsSent + 1 else proposal.skipsSent) = sent
      at atLeast
    cases proposal.highestSkipWithInverse limit with
    | none => exact atLeast
    | some highest =>
        dsimp only
        split
        · rename_i higher
          exact atLeast.trans (Nat.le_of_lt higher)
        · exact atLeast

variable [Std.TransOrd P] [Std.LawfulEqOrd P] [DecidableEq P] {accept : ProposalAccept P}

omit [Std.TransOrd P] [Std.LawfulEqOrd P] [DecidableEq P] in
theorem acceptsAt_withAccept (skips : Nat) :
    (proposal.withAccept accept).acceptsAt skips =
      if accept.skips = skips then
        (proposal.acceptsAt skips).insert accept.fromPeer accept
      else proposal.acceptsAt skips := by
  rw [withAccept, acceptsAt, Std.TreeMap.getD_insert]
  by_cases same : accept.skips = skips
  · subst same
    simp [acceptsAt]
  · have differ : compare accept.skips skips ≠ .eq := by
      rwa [Ne, Nat.compare_eq_eq]
    rw [if_neg differ, if_neg same, acceptsAt]

/-- The accept of one sender, after another accept has been added. -/
@[simp]
theorem getElem?_acceptsAt_withAccept (skips : Nat) (peer : P) :
    ((proposal.withAccept accept).acceptsAt skips)[peer]? =
      if accept.skips = skips ∧ accept.fromPeer = peer then some accept
      else (proposal.acceptsAt skips)[peer]? := by
  rw [acceptsAt_withAccept]
  by_cases same : accept.skips = skips
  · rw [if_pos same, getElem?_insert_eq]
    simp only [same, true_and]
  · rw [if_neg same, if_neg fun both => same both.1]

omit [Std.LawfulEqOrd P] [DecidableEq P] in
theorem size_le_size_withAccept (skips : Nat) :
    (proposal.acceptsAt skips).size ≤ ((proposal.withAccept accept).acceptsAt skips).size := by
  rw [acceptsAt_withAccept]
  split
  · exact Std.TreeMap.size_le_size_insert
  · exact le_refl _

omit [Std.LawfulEqOrd P] [DecidableEq P] in
theorem InverseExceeded.withAccept {skips : Nat}
    (exceeded : InverseExceeded limit proposal skips) :
    InverseExceeded limit (proposal.withAccept accept) skips := by
  have larger : (proposal.acceptsAt skips).size ≤
      ((proposal.withAccept accept).acceptsAt skips).size := size_le_size_withAccept skips
  rw [InverseExceeded, AcceptThreshold.inverseExceeded, decide_eq_true_iff] at exceeded ⊢
  exact Nat.lt_of_lt_of_le exceeded larger

variable {digests : Digests}

omit [Std.TransOrd P] [Std.LawfulEqOrd P] [DecidableEq P] in
@[simp]
theorem liftPanic_eq_ok_iff {α : Type} {result : Except String α} {value : α} :
    liftPanic result = .ok value ↔ result = .ok value := by
  cases result <;> simp [liftPanic]

omit [Std.TransOrd P] [Std.LawfulEqOrd P] in
@[simp]
theorem validateAccept_eq_ok_iff {done : Unit} :
    proposal.validateAccept digests accept = .ok done ↔
      Peer.verify accept.fromPeer accept.signature
          (acceptSigHash digests accept.proposal accept.skips) = true ∧
        proposal.manifest.content.getLeaderForSkip digests accept.skips = .ok accept.leaderId ∧
        accept.fromPeer ∈ proposal.manifest.content.validators := by
  simp [validateAccept, ProposalAccept.verifySignature]

omit [Std.TransOrd P] [Std.LawfulEqOrd P] in
/-- A valid accept is stored, any other one is ignored. -/
theorem addAccept_eq_ok {result : Proposal P S × Bool}
    (returned : proposal.addAccept digests limit accept = .ok result) :
    result = (proposal, false) ∨ proposal.validateAccept digests accept = .ok () ∧
      result = (proposal.withAccept accept,
        (proposal.acceptsAt accept.skips)[accept.fromPeer]?.isNone &&
          (proposal.withAccept accept).acceptThresholdBreached accept.skips limit) := by
  rw [addAccept] at returned
  cases valid : proposal.validateAccept digests accept with
  | error failure =>
      rw [valid] at returned
      cases failure with
      | error _ => exact .inl (Except.ok.inj returned).symm
      | panic _ => cases returned
  | ok _ =>
      rw [valid] at returned
      exact .inr ⟨rfl, (Except.ok.inj returned).symm⟩

end

end Proposal

end Ciphera.Solid
