import Mathlib.Algebra.BigOperators.Group.Finset.Basic
import Mathlib.Algebra.Order.BigOperators.Group.Finset
import Mathlib.Data.Finmap
import Ciphera.Lib.Check
import Ciphera.Lib.Machine
import Ciphera.Lib.Map
import Ciphera.Lib.Run
import Ciphera.Node.Peers

/-!
# Counting approvals

For each height and each parent, a tracker counts the stake of the validators that approve
of it.  A validator that changes its mind is withdrawn from one tracker before it is added
to another, and every tracker counts by the table of stakes that it was created with.

Stakes are 128-bit integers.  The counts are right as long as twice the total of a table
fits, and in a build with overflow checks also without that, for calls that return.
-/

namespace Ciphera.Node

open Ciphera.Lib
open Ciphera.Rollup (Address)

/-! ## Trackers -/

/-- Stakes, which fit into 128 bits. -/
abbrev Balance := Nat

/-- What makes a tracker ready: any approvals, or two thirds of the stakes. -/
inductive DoomslugThresholdMode
  | noApprovals
  | twoThirds
  deriving DecidableEq, Repr

/-- Whether a block may be produced, and since when. -/
inductive DoomslugBlockProductionReadiness
  | notReady
  | readySince (time : Nat)
  deriving DecidableEq, Repr

/-- A validator with its stakes in this epoch and the next one. -/
structure ApprovalStake where
  validator : Address
  stakeThisEpoch : Balance
  stakeNextEpoch : Balance
  deriving DecidableEq, Repr

/-- The stakes of validators in this epoch and the next one. -/
abbrev Stakes := Finmap fun _ : Address => Balance × Balance

/-- A validator that is not in the table has no stake. -/
def Stakes.of (stakes : Stakes) (validator : Address) : Balance × Balance :=
  (stakes.lookup validator).getD (0, 0)

/-- What validators have at stake together, in one of the epochs. -/
def Stakes.sum (stakes : Stakes) (epoch : Balance × Balance → Balance)
    (validators : Finset Address) : Nat :=
  ∑ validator ∈ validators, epoch (stakes.of validator)

/-- Everything at stake in one of the epochs. -/
def Stakes.total (stakes : Stakes) (epoch : Balance × Balance → Balance) : Nat :=
  stakes.sum epoch stakes.keys

/-- The approvals for one parent, each with the time of its arrival. -/
structure DoomslugApprovalsTracker where
  witness : Finmap fun _ : Address => ApprovalValidated × Nat := ∅
  accountIdToStakes : Stakes
  totalStakeThisEpoch : Balance
  approvedStakeThisEpoch : Balance := 0
  totalStakeNextEpoch : Balance
  approvedStakeNextEpoch : Balance := 0
  timePassedThreshold : Option Nat := none
  thresholdMode : DoomslugThresholdMode

section

variable (build : Build)

namespace DoomslugApprovalsTracker

/-- A tracker without approvals, which has added up the table. -/
def new (accountIdToStakes : Stakes) (thresholdMode : DoomslugThresholdMode) :
    Except String DoomslugApprovalsTracker := do
  let totalStakeThisEpoch ← build.narrow 128
    (accountIdToStakes.total Prod.fst) "attempt to add with overflow"
  let totalStakeNextEpoch ← build.narrow 128
    (accountIdToStakes.total Prod.snd) "attempt to add with overflow"
  pure { accountIdToStakes, totalStakeThisEpoch, totalStakeNextEpoch, thresholdMode }

/-- The comparison of the approved stakes with two thirds of the totals.  The next epoch is
looked at only if this one passes. -/
def crossesThreshold (tracker : DoomslugApprovalsTracker) : Except String Bool := do
  let doubled ← build.mul 128 tracker.totalStakeThisEpoch 2
  if tracker.approvedStakeThisEpoch > doubled / 3 then
    let doubled ← build.mul 128 tracker.totalStakeNextEpoch 2
    pure (tracker.approvedStakeNextEpoch > doubled / 3 || tracker.totalStakeNextEpoch = 0)
  else pure false

/-- The readiness of a tracker, which remembers when it became ready. -/
def getBlockProductionReadiness (now : Nat) (tracker : DoomslugApprovalsTracker) :
    Except String (DoomslugBlockProductionReadiness × DoomslugApprovalsTracker) := do
  let crosses ← tracker.crossesThreshold build
  if crosses || tracker.thresholdMode = .noApprovals then
    let since := tracker.timePassedThreshold.getD now
    pure (.readySince since, { tracker with timePassedThreshold := some since })
  else pure (.notReady, tracker)

/-- Count an approval, unless its validator has been counted already. -/
def processApproval (now arrival : Nat) (approval : ApprovalValidated)
    (tracker : DoomslugApprovalsTracker) :
    Except String (DoomslugBlockProductionReadiness × DoomslugApprovalsTracker) :=
  match tracker.witness.lookup approval.validator with
  | some _ => tracker.getBlockProductionReadiness build now
  | none => do
      let stakes := tracker.accountIdToStakes.of approval.validator
      let approvedStakeThisEpoch ← build.add 128 tracker.approvedStakeThisEpoch stakes.1
      let approvedStakeNextEpoch ← build.add 128 tracker.approvedStakeNextEpoch stakes.2
      getBlockProductionReadiness build now { tracker with
        witness := tracker.witness.insert approval.validator (approval, arrival)
        approvedStakeThisEpoch, approvedStakeNextEpoch }

/-- Take an approval back, with the stakes that were counted for it. -/
def withdrawApproval (validator : Address) (tracker : DoomslugApprovalsTracker) :
    Except String DoomslugApprovalsTracker :=
  match tracker.witness.lookup validator with
  | none => pure tracker
  | some (approval, _) => do
      let stakes := tracker.accountIdToStakes.of approval.validator
      let approvedStakeThisEpoch ← build.sub 128 tracker.approvedStakeThisEpoch stakes.1
      let approvedStakeNextEpoch ← build.sub 128 tracker.approvedStakeNextEpoch stakes.2
      pure { tracker with
        witness := tracker.witness.erase validator
        approvedStakeThisEpoch, approvedStakeNextEpoch }

end DoomslugApprovalsTracker

/-- The trackers of a height, and what each validator has approved of last. -/
structure DoomslugApprovalsTrackersAtHeight where
  approvalTrackers : Finmap fun _ : ApprovalInner => DoomslugApprovalsTracker := ∅
  lastApprovalPerAccount : Finmap fun _ : Address => ApprovalInner := ∅

namespace DoomslugApprovalsTrackersAtHeight

/-- Withdraw the last approval of a validator, and drop its tracker if that is empty then. -/
def withdrawLast (validator : Address) (trackers : DoomslugApprovalsTrackersAtHeight) :
    Except String DoomslugApprovalsTrackersAtHeight :=
  match trackers.lastApprovalPerAccount.lookup validator with
  | none => pure trackers
  | some lastParent =>
      match trackers.approvalTrackers.lookup lastParent with
      | none => pure trackers
      | some tracker => do
          let tracker ← tracker.withdrawApproval build validator
          if tracker.witness.keys.card = 0 then
            pure { trackers with approvalTrackers := trackers.approvalTrackers.erase lastParent }
          else
            pure { trackers with
              approvalTrackers := trackers.approvalTrackers.insert lastParent tracker }

/-- The stakes of the validators that are not slashed; the last entry for a validator counts. -/
def accountIdToStakes (stakes : List (ApprovalStake × Bool)) : Stakes :=
  (stakes.filter fun stake => !stake.2).foldl
    (fun table stake =>
      table.insert stake.1.validator (stake.1.stakeThisEpoch, stake.1.stakeNextEpoch)) ∅

/-- The tracker of a parent, or a new one that counts by the given table. -/
def trackerOf (inner : ApprovalInner) (accountIdToStakes : Stakes)
    (thresholdMode : DoomslugThresholdMode) (trackers : DoomslugApprovalsTrackersAtHeight) :
    Except String DoomslugApprovalsTracker :=
  match trackers.approvalTrackers.lookup inner with
  | some tracker => pure tracker
  | none => DoomslugApprovalsTracker.new build accountIdToStakes thresholdMode

/-- Move an approval to the tracker of its parent, which counts by the given stakes if it is
new. -/
def processApproval (now arrival : Nat) (approval : ApprovalValidated)
    (stakes : List (ApprovalStake × Bool)) (thresholdMode : DoomslugThresholdMode)
    (trackers : DoomslugApprovalsTrackersAtHeight) :
    Except String (DoomslugBlockProductionReadiness × DoomslugApprovalsTrackersAtHeight) := do
  let trackers ← trackers.withdrawLast build approval.validator
  let accountIdToStakes := accountIdToStakes stakes
  check (accountIdToStakes.keys.card = stakes.length) "assertion `left == right` failed"
  if approval.validator ∉ accountIdToStakes then pure (.notReady, trackers)
  else
    let inner := approval.content.inner
    let tracker ← trackers.trackerOf build inner accountIdToStakes thresholdMode
    let (readiness, tracker) ← tracker.processApproval build now arrival approval
    pure (readiness,
      { approvalTrackers := trackers.approvalTrackers.insert inner tracker
        lastApprovalPerAccount :=
          trackers.lastApprovalPerAccount.insert approval.validator inner })

end DoomslugApprovalsTrackersAtHeight

/-! ## Doomslug -/

/-- How far below the tip approvals are kept. -/
def MAX_HEIGHTS_BEFORE_TO_STORE_APPROVALS : Nat := 20

/-- The block that approvals are made for. -/
structure DoomslugTip where
  blockHash : CryptoHash
  height : Nat
  deriving DecidableEq, Repr

/-- When the waiting for a height started. -/
structure DoomslugTimer where
  started : Nat
  height : Nat
  deriving DecidableEq, Repr

/-- The trackers of all heights, with what the calls below read and write. -/
structure Doomslug where
  approvalTracking : Std.TreeMap Nat DoomslugApprovalsTrackersAtHeight := ∅
  largestFinalHeight : Nat
  largestThresholdApprovalsHeight : Nat
  largestApprovalTargetHeight : Nat
  tip : DoomslugTip
  endorsementPending : Bool
  timer : DoomslugTimer
  thresholdMode : DoomslugThresholdMode

namespace Doomslug

/-- Nothing is counted and the tip is at height zero. -/
def new (now : Nat) (thresholdMode : DoomslugThresholdMode) : Doomslug where
  largestFinalHeight := 0
  largestThresholdApprovalsHeight := 0
  largestApprovalTargetHeight := 0
  tip := ⟨0, 0⟩
  endorsementPending := false
  timer := ⟨now, 0⟩
  thresholdMode

/-- The heights that are near a new tip, counted up only where one is not too old. -/
def retain (height : Nat) (approvalTracking : Std.TreeMap Nat DoomslugApprovalsTrackersAtHeight) :
    Except String (Std.TreeMap Nat DoomslugApprovalsTrackersAtHeight) :=
  let oldest := height - MAX_HEIGHTS_BEFORE_TO_STORE_APPROVALS
  if approvalTracking.any fun tracked _ => oldest < tracked then do
    let newest ← build.add 64 height MAX_HEIGHTS_AHEAD_TO_STORE_APPROVALS
    pure (approvalTracking.filter fun tracked _ => oldest < tracked && tracked ≤ newest)
  else pure ∅

/-- A new tip.  The approvals for heights that are far from it are forgotten. -/
def onBlock (now : Nat) (blockHash : CryptoHash) (height lastFinalHeight : Nat)
    (doomslug : Doomslug) : Except String Doomslug := do
  check (build.debugAssertions = true → height > doomslug.tip.height ∨ doomslug.tip.height = 0)
    "assertion failed: height > self.tip.height || self.tip.height == 0"
  let timerHeight ← build.add 64 height 1
  let approvalTracking ← retain build height doomslug.approvalTracking
  pure { doomslug with
    tip := ⟨blockHash, height⟩
    largestFinalHeight := lastFinalHeight
    timer := ⟨now, timerHeight⟩
    approvalTracking
    endorsementPending := true }

/-- Count an approval at its height, and remember the heights that were asked for and
reached. -/
def onApprovalInternal (now arrival : Nat) (approval : ApprovalValidated)
    (stakes : List (ApprovalStake × Bool)) (doomslug : Doomslug) :
    Except String (DoomslugBlockProductionReadiness × Doomslug) := do
  let height := approval.content.targetHeight
  let trackers := (doomslug.approvalTracking[height]?).getD {}
  let (ret, trackers) ← trackers.processApproval build now arrival approval stakes
    doomslug.thresholdMode
  pure (ret, { doomslug with
    approvalTracking := doomslug.approvalTracking.insert height trackers
    largestApprovalTargetHeight := max doomslug.largestApprovalTargetHeight height
    largestThresholdApprovalsHeight :=
      if ret ≠ .notReady then max doomslug.largestThresholdApprovalsHeight height
      else doomslug.largestThresholdApprovalsHeight })

/-- Count an approval whose height is neither below the tip nor too far above it. -/
def onApproval (now arrival : Nat) (approval : ApprovalValidated)
    (stakes : List (ApprovalStake × Bool)) (doomslug : Doomslug) : Except String Doomslug := do
  if approval.content.targetHeight < doomslug.tip.height then pure doomslug
  else
    let newest ← build.add 64 doomslug.tip.height MAX_HEIGHTS_AHEAD_TO_STORE_APPROVALS
    if newest < approval.content.targetHeight then pure doomslug
    else
      let (_, doomslug) ← doomslug.onApprovalInternal build now arrival approval stakes
      pure doomslug

end Doomslug

/-- What happens to doomslug while it runs. -/
inductive DoomslugCall
  | onBlock (now : Nat) (blockHash : CryptoHash) (height lastFinalHeight : Nat)
  | onApproval (now arrival : Nat) (approval : ApprovalValidated)
      (stakes : List (ApprovalStake × Bool))

/-- A call that returns. -/
def DoomslugCall.Returns (doomslug : Doomslug) : DoomslugCall → Doomslug → Prop
  | .onBlock now blockHash height lastFinalHeight, next =>
      doomslug.onBlock build now blockHash height lastFinalHeight = .ok next
  | .onApproval now arrival approval stakes, next =>
      doomslug.onApproval build now arrival approval stakes = .ok next

/-- A list of stakes has one for each validator, and none that is slashed. -/
def DoomslugCall.Proper : DoomslugCall → Prop
  | .onBlock .. => True
  | .onApproval _ _ _ stakes =>
      (∀ stake ∈ stakes, stake.2 = false) ∧ (stakes.map (·.1.validator)).Nodup

end

/-! ## What a tracker counts -/

@[simp]
theorem keys_insert {κ : Type} {ν : κ → Type} [DecidableEq κ] (map : Finmap ν) (key : κ)
    (value : ν key) : (map.insert key value).keys = insert key map.keys := by
  ext other
  rw [Finmap.mem_keys, Finmap.mem_insert, Finset.mem_insert, Finmap.mem_keys]

@[simp]
theorem lookup_insert_eq_some_iff {κ ν : Type} [DecidableEq κ] {map : Finmap fun _ : κ => ν}
    {key other : κ} {value found : ν} :
    (map.insert key value).lookup other = some found ↔
      other = key ∧ value = found ∨ other ≠ key ∧ map.lookup other = some found := by
  by_cases same : other = key
  · subst same
    simp [Finmap.lookup_insert]
  · simp [Finmap.lookup_insert_of_ne _ same, same]

@[simp]
theorem lookup_erase_eq_some_iff {κ ν : Type} [DecidableEq κ] {map : Finmap fun _ : κ => ν}
    {key other : κ} {found : ν} :
    (map.erase key).lookup other = some found ↔ other ≠ key ∧ map.lookup other = some found := by
  by_cases same : other = key
  · subst same
    simp [Finmap.lookup_erase]
  · simp [Finmap.lookup_erase_ne same, same]

/-- Only validators of a table have a stake in it. -/
theorem Stakes.sum_le_total {epoch : Balance × Balance → Balance} (zero : epoch (0, 0) = 0)
    (stakes : Stakes) (validators : Finset Address) :
    stakes.sum epoch validators ≤ stakes.total epoch := by
  apply Finset.sum_le_sum_of_ne_zero
  intro validator _ staked
  rw [Finmap.mem_keys]
  by_contra absent
  rw [Stakes.of, Finmap.lookup_eq_none.mpr absent] at staked
  exact staked zero

theorem Stakes.sum_insert {epoch : Balance × Balance → Balance} {stakes : Stakes}
    {validators : Finset Address} {validator : Address} (absent : validator ∉ validators) :
    stakes.sum epoch (insert validator validators) =
      stakes.sum epoch validators + epoch (stakes.of validator) := by
  rw [Stakes.sum, Stakes.sum, Finset.sum_insert absent, Nat.add_comm]

theorem Stakes.sum_erase {epoch : Balance × Balance → Balance} {stakes : Stakes}
    {validators : Finset Address} {validator : Address} (present : validator ∈ validators) :
    stakes.sum epoch (validators.erase validator) + epoch (stakes.of validator) =
      stakes.sum epoch validators :=
  Finset.sum_erase_add _ _ present

/-- A strict comparison with the quotient is one without division. -/
theorem two_thirds_iff (approved total : Nat) :
    approved > total * 2 / 3 ↔ 3 * approved > 2 * total := by
  rw [gt_iff_lt, Nat.div_lt_iff_lt_mul (by decide), Nat.mul_comm total, Nat.mul_comm approved]

section

variable {build : Build}

namespace DoomslugApprovalsTracker

/-- A tracker counts the stakes of its witnesses by its own table. -/
structure Sound (build : Build) (tracker : DoomslugApprovalsTracker) : Prop where
  validators : ∀ {validator : Address} {entry : ApprovalValidated × Nat},
    tracker.witness.lookup validator = some entry → entry.1.validator = validator
  approvedThis : build.Counts 128 (tracker.accountIdToStakes.sum Prod.fst tracker.witness.keys)
    tracker.approvedStakeThisEpoch
  approvedNext : build.Counts 128 (tracker.accountIdToStakes.sum Prod.snd tracker.witness.keys)
    tracker.approvedStakeNextEpoch
  totalThis : build.Counts 128 (tracker.accountIdToStakes.total Prod.fst)
    tracker.totalStakeThisEpoch
  totalNext : build.Counts 128 (tracker.accountIdToStakes.total Prod.snd)
    tracker.totalStakeNextEpoch

variable {tracker next : DoomslugApprovalsTracker}

theorem Sound.of_new {accountIdToStakes : Stakes} {thresholdMode : DoomslugThresholdMode}
    (created : new build accountIdToStakes thresholdMode = .ok tracker) :
    tracker.Sound build ∧ tracker.witness = ∅ := by
  rcases bind_eq_ok_iff.mp created with ⟨totalThis, summedThis, rest⟩
  rcases bind_eq_ok_iff.mp rest with ⟨totalNext, summedNext, finished⟩
  rcases pure_eq_ok_iff.mp finished with rfl
  refine ⟨⟨?_, Build.Counts.zero, Build.Counts.zero, Build.narrow_eq_ok_iff.mp summedThis,
    Build.narrow_eq_ok_iff.mp summedNext⟩, rfl⟩
  intro validator entry found
  rw [Finmap.lookup_empty] at found
  cases found

/-- The readiness is reported from the counts, which stay as they are. -/
theorem of_getBlockProductionReadiness {now : Nat} {readiness : DoomslugBlockProductionReadiness}
    (reported : tracker.getBlockProductionReadiness build now = .ok (readiness, next)) :
    ∃ crosses since, tracker.crossesThreshold build = .ok crosses ∧
      next = { tracker with timePassedThreshold := since } ∧
      (readiness ≠ .notReady ↔
        crosses = true ∨ tracker.thresholdMode = .noApprovals) := by
  rcases bind_eq_ok_iff.mp reported with ⟨crosses, compared, finished⟩
  by_cases ready : crosses = true ∨ tracker.thresholdMode = .noApprovals
  · rw [if_pos (by simpa using ready)] at finished
    rcases Prod.mk.inj (pure_eq_ok_iff.mp finished) with ⟨rfl, rfl⟩
    exact ⟨crosses, _, compared, rfl, iff_of_true (by simp) ready⟩
  · rw [if_neg (by simpa using ready)] at finished
    rcases Prod.mk.inj (pure_eq_ok_iff.mp finished) with ⟨rfl, rfl⟩
    exact ⟨crosses, _, compared, rfl, iff_of_false (by simp) ready⟩

/-! Without overflow checks nothing panics. -/

theorem exists_new (unchecked : build.overflowChecks = false) (accountIdToStakes : Stakes)
    (thresholdMode : DoomslugThresholdMode) :
    ∃ tracker, new build accountIdToStakes thresholdMode = .ok tracker := by
  apply exists_bind (Build.exists_narrow (.inl unchecked))
  intro totalThis _
  apply exists_bind (Build.exists_narrow (.inl unchecked))
  intro totalNext _
  exact ⟨_, rfl⟩

theorem exists_getBlockProductionReadiness (unchecked : build.overflowChecks = false) (now : Nat)
    (tracker : DoomslugApprovalsTracker) :
    ∃ reported, tracker.getBlockProductionReadiness build now = .ok reported := by
  have compares : ∃ crosses, tracker.crossesThreshold build = .ok crosses := by
    apply exists_bind (Build.exists_narrow (.inl unchecked))
    intro doubledThis _
    split
    · apply exists_bind (Build.exists_narrow (.inl unchecked))
      exact fun _ _ => ⟨_, rfl⟩
    · exact ⟨_, rfl⟩
  apply exists_bind compares
  intro crosses _
  split
  · exact ⟨_, rfl⟩
  · exact ⟨_, rfl⟩

theorem exists_processApproval (unchecked : build.overflowChecks = false) (now arrival : Nat)
    (approval : ApprovalValidated) (tracker : DoomslugApprovalsTracker) :
    ∃ processed, tracker.processApproval build now arrival approval = .ok processed := by
  unfold DoomslugApprovalsTracker.processApproval
  split
  · exact exists_getBlockProductionReadiness unchecked now tracker
  · apply exists_bind (Build.exists_narrow (.inl unchecked))
    intro approvedThis _
    apply exists_bind (Build.exists_narrow (.inl unchecked))
    intro approvedNext _
    exact exists_getBlockProductionReadiness unchecked now _

/-- The comparison, where the doubled totals are not cut off. -/
theorem crosses_iff {crosses : Bool} (exactThis : build.Exact 128 (tracker.totalStakeThisEpoch * 2))
    (exactNext : build.Exact 128 (tracker.totalStakeNextEpoch * 2))
    (compared : tracker.crossesThreshold build = .ok crosses) :
    crosses = true ↔
      3 * tracker.approvedStakeThisEpoch > 2 * tracker.totalStakeThisEpoch ∧
      (tracker.totalStakeNextEpoch = 0 ∨
        3 * tracker.approvedStakeNextEpoch > 2 * tracker.totalStakeNextEpoch) := by
  rcases bind_eq_ok_iff.mp compared with ⟨doubledThis, multipliedThis, rest⟩
  have wholeThis := (Build.narrow_eq_ok_iff.mp multipliedThis).eq_of_exact exactThis
  rw [wholeThis] at rest
  rw [← two_thirds_iff, ← two_thirds_iff]
  by_cases enough : tracker.approvedStakeThisEpoch > tracker.totalStakeThisEpoch * 2 / 3
  · rw [if_pos enough] at rest
    rcases bind_eq_ok_iff.mp rest with ⟨doubledNext, multipliedNext, finished⟩
    have wholeNext := (Build.narrow_eq_ok_iff.mp multipliedNext).eq_of_exact exactNext
    rcases pure_eq_ok_iff.mp finished with rfl
    rw [wholeNext, Bool.or_eq_true, decide_eq_true_iff, decide_eq_true_iff, or_comm]
    exact (and_iff_right enough).symm
  · rw [if_neg enough] at rest
    rcases pure_eq_ok_iff.mp rest with rfl
    exact iff_of_false (by simp) fun both => enough both.1

theorem Sound.timed (sound : tracker.Sound build) (since : Option Nat) :
    Sound build { tracker with timePassedThreshold := since } :=
  ⟨sound.validators, sound.approvedThis, sound.approvedNext, sound.totalThis, sound.totalNext⟩

theorem Sound.processApproval {now arrival : Nat} {approval : ApprovalValidated}
    {readiness : DoomslugBlockProductionReadiness} (sound : tracker.Sound build)
    (processed : tracker.processApproval build now arrival approval = .ok (readiness, next)) :
    next.Sound build ∧
      ∀ validator, validator ∈ next.witness ↔
        validator = approval.validator ∨ validator ∈ tracker.witness := by
  unfold DoomslugApprovalsTracker.processApproval at processed
  cases known : tracker.witness.lookup approval.validator with
  | some entry =>
      simp only [known] at processed
      rcases of_getBlockProductionReadiness processed with ⟨_, since, _, rfl, _⟩
      refine ⟨sound.timed since, fun validator => (or_iff_right_of_imp ?_).symm⟩
      rintro rfl
      exact Finmap.mem_of_lookup_eq_some known
  | none =>
      have absent : approval.validator ∉ tracker.witness.keys :=
        fun present => Finmap.lookup_eq_none.mp known (Finmap.mem_keys.mp present)
      simp only [known] at processed
      rcases bind_eq_ok_iff.mp processed with ⟨approvedThis, addedThis, rest⟩
      rcases bind_eq_ok_iff.mp rest with ⟨approvedNext, addedNext, reported⟩
      rcases of_getBlockProductionReadiness reported with ⟨_, since, _, rfl, _⟩
      refine ⟨?_, fun validator => Finmap.mem_insert⟩
      apply Sound.timed
      refine ⟨?_, ?_, ?_, sound.totalThis, sound.totalNext⟩
      · intro validator entry found
        rcases lookup_insert_eq_some_iff.mp found with ⟨rfl, rfl⟩ | ⟨_, found⟩
        · rfl
        · exact sound.validators found
      · rw [keys_insert, Stakes.sum_insert absent]
        exact sound.approvedThis.add addedThis
      · rw [keys_insert, Stakes.sum_insert absent]
        exact sound.approvedNext.add addedNext

/-- A withdrawal returns, and takes away what the witness has at stake. -/
theorem Sound.withdrawApproval (sound : tracker.Sound build) (validator : Address) :
    ∃ next, tracker.withdrawApproval build validator = .ok next ∧ next.Sound build ∧
      ∀ other, other ∈ next.witness ↔ other ≠ validator ∧ other ∈ tracker.witness := by
  unfold DoomslugApprovalsTracker.withdrawApproval
  cases known : tracker.witness.lookup validator with
  | none =>
      refine ⟨tracker, rfl, sound, fun other => (and_iff_right_of_imp ?_).symm⟩
      rintro present rfl
      exact Finmap.lookup_eq_none.mp known present
  | some entry =>
      have present : validator ∈ tracker.witness.keys :=
        Finmap.mem_keys.mpr (Finmap.mem_of_lookup_eq_some known)
      have approvedThis := sound.approvedThis
      have approvedNext := sound.approvedNext
      rw [← Stakes.sum_erase present] at approvedThis approvedNext
      rcases approvedThis.sub with ⟨restThis, subtractedThis, countsThis⟩
      rcases approvedNext.sub with ⟨restNext, subtractedNext, countsNext⟩
      simp only [sound.validators known, subtractedThis, subtractedNext, ok_bind]
      refine ⟨_, rfl, ⟨?_, ?_, ?_, sound.totalThis, sound.totalNext⟩,
        fun other => Finmap.mem_erase⟩
      · intro other entry' found
        exact sound.validators (lookup_erase_eq_some_iff.mp found).2
      · rw [Finmap.keys_erase]
        exact countsThis
      · rw [Finmap.keys_erase]
        exact countsNext

/-- What the counts of a tracker mean.  Nothing is cut off where the totals of its table, or
for the comparison their doubles, fit into the width of a stake. -/
structure Accounted (build : Build) (tracker : DoomslugApprovalsTracker) : Prop where
  approvedThis : build.Exact 128 (tracker.accountIdToStakes.total Prod.fst) →
    tracker.approvedStakeThisEpoch =
      tracker.accountIdToStakes.sum Prod.fst tracker.witness.keys
  approvedNext : build.Exact 128 (tracker.accountIdToStakes.total Prod.snd) →
    tracker.approvedStakeNextEpoch =
      tracker.accountIdToStakes.sum Prod.snd tracker.witness.keys
  withdraws : ∀ validator, ∃ next, tracker.withdrawApproval build validator = .ok next
  noUnderflowThis : build.Exact 128 (tracker.accountIdToStakes.total Prod.fst) →
    ∀ validator ∈ tracker.witness,
      (tracker.accountIdToStakes.of validator).1 ≤ tracker.approvedStakeThisEpoch
  noUnderflowNext : build.Exact 128 (tracker.accountIdToStakes.total Prod.snd) →
    ∀ validator ∈ tracker.witness,
      (tracker.accountIdToStakes.of validator).2 ≤ tracker.approvedStakeNextEpoch
  ready_iff : build.Exact 128 (tracker.accountIdToStakes.total Prod.fst * 2) →
    build.Exact 128 (tracker.accountIdToStakes.total Prod.snd * 2) →
    tracker.thresholdMode ≠ .noApprovals → ∀ {now readiness next},
    tracker.getBlockProductionReadiness build now = .ok (readiness, next) →
    (readiness ≠ .notReady ↔
      3 * tracker.approvedStakeThisEpoch >
        2 * tracker.accountIdToStakes.total Prod.fst ∧
      (tracker.accountIdToStakes.total Prod.snd = 0 ∨
        3 * tracker.approvedStakeNextEpoch >
          2 * tracker.accountIdToStakes.total Prod.snd))

/-- An exact double is the double of an exact number. -/
theorem exact_of_doubled {number : Nat} (exact : build.Exact 128 (number * 2)) :
    build.Exact 128 number :=
  exact.mono (Nat.le_mul_of_pos_right _ (by decide))

theorem Sound.accounted (sound : tracker.Sound build) : tracker.Accounted build := by
  have countsThis (exact : build.Exact 128 (tracker.accountIdToStakes.total Prod.fst)) :=
    sound.approvedThis.eq_of_exact (exact.mono (Stakes.sum_le_total rfl _ _))
  have countsNext (exact : build.Exact 128 (tracker.accountIdToStakes.total Prod.snd)) :=
    sound.approvedNext.eq_of_exact (exact.mono (Stakes.sum_le_total rfl _ _))
  constructor
  case approvedThis => exact countsThis
  case approvedNext => exact countsNext
  case withdraws =>
    intro validator
    rcases sound.withdrawApproval validator with ⟨next, withdrawn, _⟩
    exact ⟨next, withdrawn⟩
  case noUnderflowThis =>
    intro exact validator witnessed
    rw [countsThis exact, ← Stakes.sum_erase (Finmap.mem_keys.mpr witnessed)]
    exact Nat.le_add_left _ _
  case noUnderflowNext =>
    intro exact validator witnessed
    rw [countsNext exact, ← Stakes.sum_erase (Finmap.mem_keys.mpr witnessed)]
    exact Nat.le_add_left _ _
  case ready_iff =>
    intro exactThis exactNext counting now readiness next reported
    rcases of_getBlockProductionReadiness reported with ⟨crosses, _, compared, _, ready⟩
    have totalThis := sound.totalThis.eq_of_exact (exact_of_doubled exactThis)
    have totalNext := sound.totalNext.eq_of_exact (exact_of_doubled exactNext)
    rw [ready, or_iff_left counting, ← totalThis, ← totalNext]
    rw [← totalThis] at exactThis
    rw [← totalNext] at exactNext
    exact crosses_iff exactThis exactNext compared

end DoomslugApprovalsTracker

/-! ## What is counted at a height -/

namespace DoomslugApprovalsTrackersAtHeight

/-- A validator is a witness only of what it has approved of last. -/
structure Sound (build : Build) (trackers : DoomslugApprovalsTrackersAtHeight) : Prop where
  sound : ∀ {inner : ApprovalInner} {tracker : DoomslugApprovalsTracker},
    trackers.approvalTrackers.lookup inner = some tracker → tracker.Sound build
  last : ∀ {inner : ApprovalInner} {tracker : DoomslugApprovalsTracker} {validator : Address},
    trackers.approvalTrackers.lookup inner = some tracker → validator ∈ tracker.witness →
    trackers.lastApprovalPerAccount.lookup validator = some inner

/-- Every validator is counted once, and everything that is counted is counted right. -/
structure Accounted (build : Build) (trackers : DoomslugApprovalsTrackersAtHeight) : Prop where
  once : ∀ {inner inner' : ApprovalInner} {tracker tracker' : DoomslugApprovalsTracker}
    {validator : Address}, trackers.approvalTrackers.lookup inner = some tracker →
    trackers.approvalTrackers.lookup inner' = some tracker' →
    validator ∈ tracker.witness → validator ∈ tracker'.witness → inner = inner'
  accounted : ∀ {inner : ApprovalInner} {tracker : DoomslugApprovalsTracker},
    trackers.approvalTrackers.lookup inner = some tracker → tracker.Accounted build

variable {trackers next : DoomslugApprovalsTrackersAtHeight}

theorem Sound.accounted (sound : trackers.Sound build) : trackers.Accounted build := by
  constructor
  · intro inner inner' tracker tracker' validator found found' witnessed witnessed'
    exact Option.some.inj ((sound.last found witnessed).symm.trans (sound.last found' witnessed'))
  · exact fun found => (sound.sound found).accounted

theorem Sound.empty : Sound build {} := by
  constructor
  · intro inner tracker found
    rw [Finmap.lookup_empty] at found
    cases found
  · intro inner tracker validator found
    rw [Finmap.lookup_empty] at found
    cases found

/-- After its last approval is withdrawn, a validator is the witness of nothing. -/
theorem Sound.withdrawLast (sound : trackers.Sound build) (validator : Address) :
    ∃ next, trackers.withdrawLast build validator = .ok next ∧ next.Sound build ∧
      ∀ {inner tracker}, next.approvalTrackers.lookup inner = some tracker →
        validator ∉ tracker.witness := by
  unfold DoomslugApprovalsTrackersAtHeight.withdrawLast
  cases approved : trackers.lastApprovalPerAccount.lookup validator with
  | none =>
      refine ⟨trackers, rfl, sound, fun found witnessed => ?_⟩
      cases approved.symm.trans (sound.last found witnessed)
  | some lastParent =>
      -- the validator is the witness of no other tracker
      have elsewhere {inner tracker} (found : trackers.approvalTrackers.lookup inner = some tracker)
          (differ : inner ≠ lastParent) : validator ∉ tracker.witness := fun witnessed =>
        differ (Option.some.inj ((sound.last found witnessed).symm.trans approved))
      cases known : trackers.approvalTrackers.lookup lastParent with
      | none =>
          refine ⟨trackers, by simp only [known]; rfl, sound, fun found witnessed => ?_⟩
          have same := Option.some.inj (approved.symm.trans (sound.last found witnessed))
          rw [← same, known] at found
          cases found
      | some tracker =>
          rcases (sound.sound known).withdrawApproval validator with
            ⟨rest, withdrawn, restSound, witnesses⟩
          simp only [known, withdrawn, ok_bind]
          by_cases empty : rest.witness.keys.card = 0
          · rw [if_pos empty]
            refine ⟨_, rfl, ⟨?_, ?_⟩, ?_⟩
            · exact fun found => sound.sound (lookup_erase_eq_some_iff.mp found).2
            · exact fun found => sound.last (lookup_erase_eq_some_iff.mp found).2
            · intro inner tracker' found
              rcases lookup_erase_eq_some_iff.mp found with ⟨differ, found⟩
              exact elsewhere found differ
          · rw [if_neg empty]
            refine ⟨_, rfl, ⟨?_, ?_⟩, ?_⟩
            · intro inner tracker' found
              rcases lookup_insert_eq_some_iff.mp found with ⟨_, rfl⟩ | ⟨_, found⟩
              · exact restSound
              · exact sound.sound found
            · intro inner tracker' other found witnessed
              rcases lookup_insert_eq_some_iff.mp found with ⟨rfl, rfl⟩ | ⟨_, found⟩
              · exact sound.last known ((witnesses other).mp witnessed).2
              · exact sound.last found witnessed
            · intro inner tracker' found witnessed
              rcases lookup_insert_eq_some_iff.mp found with ⟨_, rfl⟩ | ⟨differ, found⟩
              · exact ((witnesses validator).mp witnessed).1 rfl
              · exact elsewhere found differ witnessed

theorem Sound.processApproval {now arrival : Nat} {approval : ApprovalValidated}
    {stakes : List (ApprovalStake × Bool)} {thresholdMode : DoomslugThresholdMode}
    {readiness : DoomslugBlockProductionReadiness} (sound : trackers.Sound build)
    (processed : trackers.processApproval build now arrival approval stakes thresholdMode =
      .ok (readiness, next)) : next.Sound build := by
  rcases sound.withdrawLast approval.validator with ⟨rest, withdrawn, restSound, nowhere⟩
  rw [DoomslugApprovalsTrackersAtHeight.processApproval, withdrawn, ok_bind] at processed
  rcases bind_eq_ok_iff.mp processed with ⟨_, _, processed⟩
  by_cases member : approval.validator ∈ accountIdToStakes stakes
  case neg =>
    rw [if_pos member] at processed
    rcases Prod.mk.inj (pure_eq_ok_iff.mp processed) with ⟨_, rfl⟩
    exact restSound
  rw [if_neg (not_not_intro member)] at processed
  rcases bind_eq_ok_iff.mp processed with ⟨tracker, taken, processed⟩
  rcases bind_eq_ok_iff.mp processed with ⟨⟨ready, tracker'⟩, counted, finished⟩
  rcases Prod.mk.inj (pure_eq_ok_iff.mp finished) with ⟨_, rfl⟩
  unfold trackerOf at taken
  have takenSound : tracker.Sound build ∧ ∀ validator ∈ tracker.witness,
      validator ≠ approval.validator ∧
        rest.lastApprovalPerAccount.lookup validator = some approval.content.inner := by
    cases known : rest.approvalTrackers.lookup approval.content.inner with
    | some stored =>
        simp only [known, pure_eq_ok_iff] at taken
        subst taken
        refine ⟨restSound.sound known, fun validator witnessed =>
          ⟨?_, restSound.last known witnessed⟩⟩
        rintro rfl
        exact nowhere known witnessed
    | none =>
        simp only [known] at taken
        rcases DoomslugApprovalsTracker.Sound.of_new taken with ⟨newSound, fresh⟩
        refine ⟨newSound, fun validator witnessed => ?_⟩
        rw [fresh] at witnessed
        exact absurd witnessed Finmap.notMem_empty
  rcases takenSound.1.processApproval counted with ⟨countedSound, witnesses⟩
  constructor
  · intro inner stored found
    rcases lookup_insert_eq_some_iff.mp found with ⟨_, rfl⟩ | ⟨_, found⟩
    · exact countedSound
    · exact restSound.sound found
  · intro inner stored validator found witnessed
    rw [lookup_insert_eq_some_iff]
    rcases lookup_insert_eq_some_iff.mp found with ⟨rfl, rfl⟩ | ⟨_, found⟩
    · rcases (witnesses validator).mp witnessed with rfl | earlier
      · exact .inl ⟨rfl, rfl⟩
      · exact .inr (takenSound.2 validator earlier)
    · apply Or.inr
      constructor
      · rintro rfl
        exact nowhere found witnessed
      · exact restSound.last found witnessed

theorem exists_trackerOf (unchecked : build.overflowChecks = false) (inner : ApprovalInner)
    (accountIdToStakes : Stakes) (thresholdMode : DoomslugThresholdMode)
    (trackers : DoomslugApprovalsTrackersAtHeight) :
    ∃ tracker, trackers.trackerOf build inner accountIdToStakes thresholdMode = .ok tracker := by
  unfold trackerOf
  split
  · exact ⟨_, rfl⟩
  · exact DoomslugApprovalsTracker.exists_new unchecked accountIdToStakes thresholdMode

/-- Without slashed validators the table has all of the list. -/
theorem keys_accountIdToStakes {stakes : List (ApprovalStake × Bool)}
    (unslashed : ∀ stake ∈ stakes, stake.2 = false) :
    (accountIdToStakes stakes).keys = (stakes.map (·.1.validator)).toFinset := by
  have keys (table : Stakes) : (stakes.foldl (fun table stake =>
        table.insert stake.1.validator (stake.1.stakeThisEpoch, stake.1.stakeNextEpoch))
      table).keys = (stakes.map (·.1.validator)).toFinset ∪ table.keys := by
    clear unslashed
    induction stakes generalizing table with
    | nil => simp
    | cons stake stakes ih =>
        rw [List.foldl_cons, ih, keys_insert, List.map_cons, List.toFinset_cons,
          Finset.insert_union, Finset.union_insert]
  have all : stakes.filter (fun stake => !stake.2) = stakes :=
    List.filter_eq_self.mpr fun stake mem => by simp [unslashed stake mem]
  rw [accountIdToStakes, all, keys, Finmap.keys_empty, Finset.union_empty]

/-- The table is as long as a list without slashed validators if these are distinct. -/
theorem card_accountIdToStakes_iff {stakes : List (ApprovalStake × Bool)}
    (unslashed : ∀ stake ∈ stakes, stake.2 = false) :
    (accountIdToStakes stakes).keys.card = stakes.length ↔
      (stakes.map (·.1.validator)).Nodup := by
  rw [keys_accountIdToStakes unslashed, ← List.length_map (·.1.validator)]
  exact Multiset.toFinset_card_eq_card_iff_nodup

/-- Approvals are counted by every list that has each validator once, and by no other. -/
theorem Sound.exists_processApproval_iff (sound : trackers.Sound build)
    (unchecked : build.overflowChecks = false) {stakes : List (ApprovalStake × Bool)}
    (unslashed : ∀ stake ∈ stakes, stake.2 = false) (now arrival : Nat)
    (approval : ApprovalValidated) (thresholdMode : DoomslugThresholdMode) :
    (∃ processed, trackers.processApproval build now arrival approval stakes thresholdMode =
      .ok processed) ↔ (stakes.map (·.1.validator)).Nodup := by
  rw [← card_accountIdToStakes_iff unslashed]
  rcases sound.withdrawLast approval.validator with ⟨rest, withdrawn, _⟩
  rw [DoomslugApprovalsTrackersAtHeight.processApproval, withdrawn, ok_bind]
  constructor
  · rintro ⟨processed, returned⟩
    rcases bind_eq_ok_iff.mp returned with ⟨_, same, _⟩
    exact check_eq_ok_iff.mp same
  · intro same
    apply exists_bind ⟨_, check_of _ same⟩
    intro _ _
    split
    · exact ⟨_, rfl⟩
    · apply exists_bind (exists_trackerOf unchecked _ _ _ rest)
      intro tracker _
      apply exists_bind (DoomslugApprovalsTracker.exists_processApproval unchecked now arrival _ _)
      exact fun _ _ => ⟨_, rfl⟩

end DoomslugApprovalsTrackersAtHeight

/-! ## What is counted in a run -/

namespace Doomslug

variable {doomslug next : Doomslug}

/-- What is counted at every height is sound. -/
def Sound (build : Build) (doomslug : Doomslug) : Prop :=
  ∀ {height : Nat} {trackers : DoomslugApprovalsTrackersAtHeight},
    doomslug.approvalTracking[height]? = some trackers → trackers.Sound build

theorem retained_was_tracked {height tracked : Nat}
    {approvalTracking retained : Std.TreeMap Nat DoomslugApprovalsTrackersAtHeight}
    {trackers : DoomslugApprovalsTrackersAtHeight}
    (retaining : retain build height approvalTracking = .ok retained)
    (found : retained[tracked]? = some trackers) : approvalTracking[tracked]? = some trackers := by
  simp only [retain] at retaining
  split at retaining
  · rcases bind_eq_ok_iff.mp retaining with ⟨newest, _, finished⟩
    rcases pure_eq_ok_iff.mp finished with rfl
    rw [Std.TreeMap.getElem?_filter', Option.filter_eq_some_iff] at found
    exact found.1
  · rcases pure_eq_ok_iff.mp retaining with rfl
    rw [Std.TreeMap.getElem?_emptyc] at found
    cases found

theorem Sound.onBlock {now height lastFinalHeight : Nat} {blockHash : CryptoHash}
    (sound : doomslug.Sound build)
    (returned : doomslug.onBlock build now blockHash height lastFinalHeight = .ok next) :
    next.Sound build := by
  rcases bind_eq_ok_iff.mp returned with ⟨_, _, rest⟩
  rcases bind_eq_ok_iff.mp rest with ⟨timerHeight, _, rest⟩
  rcases bind_eq_ok_iff.mp rest with ⟨retained, retaining, finished⟩
  rcases pure_eq_ok_iff.mp finished with rfl
  intro tracked trackers found
  exact sound (retained_was_tracked retaining found)

theorem Sound.trackersAt (sound : doomslug.Sound build) (height : Nat) :
    DoomslugApprovalsTrackersAtHeight.Sound build
      ((doomslug.approvalTracking[height]?).getD {}) := by
  cases known : doomslug.approvalTracking[height]? with
  | none => exact .empty
  | some trackers => exact sound known

theorem Sound.onApproval {now arrival : Nat} {approval : ApprovalValidated}
    {stakes : List (ApprovalStake × Bool)} (sound : doomslug.Sound build)
    (returned : doomslug.onApproval build now arrival approval stakes = .ok next) :
    next.Sound build := by
  unfold Doomslug.onApproval at returned
  split at returned
  case isTrue => exact pure_eq_ok_iff.mp returned ▸ sound
  rcases bind_eq_ok_iff.mp returned with ⟨newest, _, returned⟩
  split at returned
  case isTrue => exact pure_eq_ok_iff.mp returned ▸ sound
  rcases bind_eq_ok_iff.mp returned with ⟨⟨_, counted⟩, internal, finished⟩
  rcases pure_eq_ok_iff.mp finished with rfl
  rcases bind_eq_ok_iff.mp internal with ⟨⟨ret, processed⟩, processing, finished⟩
  rcases Prod.mk.inj (pure_eq_ok_iff.mp finished) with ⟨_, rfl⟩
  intro height trackers found
  rw [getElem?_insert_eq] at found
  split at found
  · rcases Option.some.inj found with rfl
    exact (sound.trackersAt _).processApproval processing
  · exact sound found

theorem Sound.of_run {now : Nat} {thresholdMode : DoomslugThresholdMode}
    {calls : List DoomslugCall}
    (run : Run (fun doomslug call next => call.Returns build doomslug next)
      (new now thresholdMode) calls doomslug) : doomslug.Sound build := by
  apply run.invariant (motive := fun _ doomslug => doomslug.Sound build)
  · intro height trackers found
    rw [new, Std.TreeMap.getElem?_emptyc] at found
    cases found
  · intro _ doomslug call next _ sound returned
    cases call with
    | onBlock => exact sound.onBlock returned
    | onApproval => exact sound.onApproval returned

/-- Without overflow checks and debug assertions every call with a proper list returns. -/
theorem Sound.returns (sound : doomslug.Sound build) (unchecked : build.overflowChecks = false)
    (release : build.debugAssertions = false) {call : DoomslugCall} (proper : call.Proper) :
    ∃ next, call.Returns build doomslug next := by
  cases call with
  | onBlock now blockHash height lastFinalHeight =>
      apply exists_bind ⟨_, check_of _ fun asserts => absurd (release.symm.trans asserts) (by simp)⟩
      intro _ _
      apply exists_bind (Build.exists_narrow (.inl unchecked))
      intro timerHeight _
      have retains : ∃ retained, retain build height doomslug.approvalTracking = .ok retained := by
        simp only [retain]
        split
        · apply exists_bind (Build.exists_narrow (.inl unchecked))
          exact fun _ _ => ⟨_, rfl⟩
        · exact ⟨_, rfl⟩
      apply exists_bind retains
      exact fun _ _ => ⟨_, rfl⟩
  | onApproval now arrival approval stakes =>
      simp only [DoomslugCall.Returns, Doomslug.onApproval]
      split
      · exact ⟨_, rfl⟩
      · apply exists_bind (Build.exists_narrow (.inl unchecked))
        intro newest _
        split
        · exact ⟨_, rfl⟩
        · have counts := ((sound.trackersAt approval.content.targetHeight).exists_processApproval_iff
            unchecked proper.1 now arrival approval doomslug.thresholdMode).mpr proper.2
          apply exists_bind (exists_bind counts fun _ _ => ⟨_, rfl⟩)
          exact fun _ _ => ⟨_, rfl⟩

/-- After every run of calls, at every height a validator is the witness of one tracker at
most, and a tracker has counted the stakes of its witnesses by its own table, as far as the
totals of that table fit or the build checks that they do.  Without checks every call with a
proper list returns. -/
theorem approvals_accounted {now : Nat} {thresholdMode : DoomslugThresholdMode}
    {calls : List DoomslugCall} (run : Run (fun doomslug call next =>
      call.Returns build doomslug next) (new now thresholdMode) calls doomslug) :
    (∀ {height : Nat} {trackers : DoomslugApprovalsTrackersAtHeight},
      doomslug.approvalTracking[height]? = some trackers → trackers.Accounted build) ∧
    (build.overflowChecks = false → build.debugAssertions = false →
      ∀ call : DoomslugCall, call.Proper → ∃ next, call.Returns build doomslug next) := by
  have sound : doomslug.Sound build := Sound.of_run run
  constructor
  · exact fun found => (sound found).accounted
  · exact fun unchecked release call proper => sound.returns unchecked release proper

/-! ## What the handler of a node counts -/

/-- The stakes that a node gives to the validators of a height: one for each, and none of them
slashed. -/
def stakesOf (validators : List Address) : List (ApprovalStake × Bool) :=
  validators.map fun validator => (⟨validator, 1, 1⟩, false)

theorem unslashed_stakesOf (validators : List Address) :
    ∀ stake ∈ stakesOf validators, stake.2 = false := by
  intro stake mem
  rcases List.mem_map.mp mem with ⟨validator, _, rfl⟩
  rfl

@[simp]
theorem map_validator_stakesOf (validators : List Address) :
    (stakesOf validators).map (·.1.validator) = validators := by
  simp [stakesOf, Function.comp_def]

/-- An approval leaves the tip where it is. -/
theorem tip_of_onApproval {now arrival : Nat} {approval : ApprovalValidated}
    {stakes : List (ApprovalStake × Bool)}
    (returned : doomslug.onApproval build now arrival approval stakes = .ok next) :
    next.tip = doomslug.tip := by
  unfold Doomslug.onApproval at returned
  split at returned
  case isTrue => rw [pure_eq_ok_iff.mp returned]
  rcases bind_eq_ok_iff.mp returned with ⟨newest, _, returned⟩
  split at returned
  case isTrue => rw [pure_eq_ok_iff.mp returned]
  rcases bind_eq_ok_iff.mp returned with ⟨⟨_, counted⟩, internal, finished⟩
  rcases pure_eq_ok_iff.mp finished with rfl
  rcases bind_eq_ok_iff.mp internal with ⟨⟨ret, processed⟩, _, finished⟩
  rcases Prod.mk.inj (pure_eq_ok_iff.mp finished) with ⟨_, rfl⟩
  rfl

/-- Where the tip is at height zero, an approval is counted if the handler of the node lets it
pass. -/
theorem Sound.exists_onApproval_iff (sound : doomslug.Sound build)
    (unchecked : build.overflowChecks = false) (atGenesis : doomslug.tip.height = 0)
    (validators : List Address) (now arrival : Nat) (approval : ApprovalValidated) :
    (∃ next, doomslug.onApproval build now arrival approval (stakesOf validators) = .ok next) ↔
      Node.onApproval validators approval = .ok () := by
  have newest : build.add 64 0 MAX_HEIGHTS_AHEAD_TO_STORE_APPROVALS =
      .ok MAX_HEIGHTS_AHEAD_TO_STORE_APPROVALS := by
    rw [Build.add, Build.narrow, Nat.zero_add, if_pos (by decide)]
  rw [Doomslug.onApproval, atGenesis, if_neg (Nat.not_lt_zero _), newest, ok_bind,
    Node.onApproval]
  by_cases far : MAX_HEIGHTS_AHEAD_TO_STORE_APPROVALS < approval.content.targetHeight
  · rw [if_pos far, if_pos far]
    exact iff_of_true ⟨_, rfl⟩ rfl
  · rw [if_neg far, if_neg far, check_eq_ok_iff, ← List.card_toFinset]
    have counts := (sound.trackersAt approval.content.targetHeight).exists_processApproval_iff
      unchecked (unslashed_stakesOf validators) now arrival approval doomslug.thresholdMode
    rw [map_validator_stakesOf] at counts
    have distinct : validators.toFinset.card = validators.length ↔ validators.Nodup :=
      Multiset.toFinset_card_eq_card_iff_nodup
    rw [distinct, ← counts]
    constructor
    · rintro ⟨next, returned⟩
      rcases bind_eq_ok_iff.mp returned with ⟨_, internal, _⟩
      rcases bind_eq_ok_iff.mp internal with ⟨processed, processing, _⟩
      exact ⟨processed, processing⟩
    · intro processes
      apply exists_bind (exists_bind processes fun _ _ => ⟨_, rfl⟩)
      exact fun _ _ => ⟨_, rfl⟩

/-- A node counts approvals and never sets a tip, so that after every run of its handler the next
approval is counted if the handler lets it pass. -/
theorem exists_onApproval_iff_of_run {now : Nat} {thresholdMode : DoomslugThresholdMode}
    {calls : List DoomslugCall} (unchecked : build.overflowChecks = false)
    (counted : ∀ call ∈ calls, ∃ now arrival approval stakes,
      call = .onApproval now arrival approval stakes)
    (run : Run (fun doomslug call next => call.Returns build doomslug next)
      (new now thresholdMode) calls doomslug) (validators : List Address) (arrival : Nat)
    (approval : ApprovalValidated) :
    (∃ next, doomslug.onApproval build now arrival approval (stakesOf validators) = .ok next) ↔
      Node.onApproval validators approval = .ok () := by
  have atGenesis : (∀ call ∈ calls, ∃ now arrival approval stakes,
      call = .onApproval now arrival approval stakes) → doomslug.tip.height = 0 := by
    apply run.invariant (motive := fun calls doomslug => (∀ call ∈ calls,
      ∃ now arrival approval stakes, call = DoomslugCall.onApproval now arrival approval stakes) →
        doomslug.tip.height = 0)
    · exact fun _ => rfl
    · intro earlier doomslug call next _ ih returned counted
      rcases counted call (by simp) with ⟨now, arrival, approval, stakes, rfl⟩
      rw [tip_of_onApproval returned]
      exact ih fun call mem => counted call (by simp [mem])
  have sound : doomslug.Sound build := Sound.of_run run
  exact sound.exists_onApproval_iff unchecked (atGenesis counted) validators now arrival approval

/-! ## Two validators -/

/-- The vote of a validator for skipping from height zero to height one. -/
def skipping (validator : Address) : ApprovalValidated := ⟨⟨.skip 0, 1⟩, ⟨0, 0, 0⟩, validator⟩

/-- Two validators with the same stake. -/
def pair (stake : Balance) : List (ApprovalStake × Bool) :=
  [(⟨1, stake, 0⟩, false), (⟨2, stake, 0⟩, false)]

theorem pair_proper (stake : Balance) (now arrival : Nat) (approval : ApprovalValidated) :
    (DoomslugCall.onApproval now arrival approval (pair stake)).Proper := by
  constructor
  · intro entry mem
    rcases List.mem_pair.mp mem with rfl | rfl
    · rfl
    · rfl
  · exact show ([1, 2] : List Address).Nodup by decide

theorem exists_tracker {returned : Except String Doomslug} {height : Nat} {inner : ApprovalInner}
    {found : DoomslugApprovalsTracker → Bool}
    (evaluated : ((returned.toOption.bind fun doomslug => doomslug.approvalTracking[height]?).bind
      fun trackers => trackers.approvalTrackers.lookup inner).any found = true) :
    ∃ doomslug trackers tracker, returned = .ok doomslug ∧
      doomslug.approvalTracking[height]? = some trackers ∧
      trackers.approvalTrackers.lookup inner = some tracker ∧ found tracker = true := by
  rcases (Option.any_eq_true _ _).mp evaluated with ⟨tracker, reached, holds⟩
  rcases Option.bind_eq_some_iff.mp reached with ⟨trackers, tracked, known⟩
  rcases Option.bind_eq_some_iff.mp tracked with ⟨doomslug, isOk, tracked⟩
  cases returned with
  | error message => cases isOk
  | ok value =>
      rcases Option.some.inj isOk with rfl
      exact ⟨_, trackers, tracker, rfl, tracked, known, holds⟩

/-- One vote of two, each with a stake of one: its tracker is accounted, and it is not ready. -/
theorem one_vote_accounted :
    ∃ (doomslug : Doomslug) (trackers : DoomslugApprovalsTrackersAtHeight)
      (tracker : DoomslugApprovalsTracker), doomslug.approvalTracking[1]? = some trackers ∧
      trackers.approvalTrackers.lookup (.skip 0) = some tracker ∧
      tracker.approvedStakeThisEpoch = 1 ∧
      trackers.Accounted Build.release := by
  have voted : ((((new 0 .twoThirds).onApproval Build.release 0 0 (skipping 1)
      (pair 1)).toOption.bind fun doomslug => doomslug.approvalTracking[1]?).bind
      fun trackers => trackers.approvalTrackers.lookup (.skip 0)).any
      (fun tracker => tracker.approvedStakeThisEpoch = 1) = true := by decide +kernel
  rcases exists_tracker voted with ⟨doomslug, trackers, tracker, returned, tracked, known, one⟩
  have run : Run (fun doomslug call next => DoomslugCall.Returns Build.release doomslug call next)
      (new 0 .twoThirds) [.onApproval 0 0 (skipping 1) (pair 1)] doomslug :=
    .single returned
  exact ⟨doomslug, trackers, tracker, tracked, known, of_decide_eq_true one,
    (approvals_accounted run).1 tracked⟩

/-- Two stakes whose sum is cut off to zero: one vote of two makes a tracker ready. -/
theorem readiness_overflows :
    ∃ (doomslug : Doomslug) (trackers : DoomslugApprovalsTrackersAtHeight)
      (tracker ready : DoomslugApprovalsTracker),
      (DoomslugCall.onApproval 0 0 (skipping 1) (pair (2 ^ 127))).Proper ∧
      Run (fun doomslug call next => DoomslugCall.Returns Build.release doomslug call next)
        (new 0 .twoThirds) [.onApproval 0 0 (skipping 1) (pair (2 ^ 127))] doomslug ∧
      doomslug.approvalTracking[1]? = some trackers ∧
      trackers.approvalTrackers.lookup (.skip 0) = some tracker ∧
      tracker.thresholdMode ≠ .noApprovals ∧
      tracker.getBlockProductionReadiness Build.release 0 = .ok (.readySince 0, ready) ∧
      ¬3 * tracker.approvedStakeThisEpoch > 2 * tracker.accountIdToStakes.total Prod.fst := by
  have voted : ((((new 0 .twoThirds).onApproval Build.release 0 0 (skipping 1)
      (pair (2 ^ 127))).toOption.bind fun doomslug => doomslug.approvalTracking[1]?).bind
      fun trackers => trackers.approvalTrackers.lookup (.skip 0)).any
      (fun tracker => tracker.thresholdMode ≠ .noApprovals ∧
        (tracker.getBlockProductionReadiness Build.release 0).toOption.map Prod.fst =
          some (.readySince 0) ∧
        ¬3 * tracker.approvedStakeThisEpoch > 2 * tracker.accountIdToStakes.total Prod.fst) =
      true := by decide +kernel
  rcases exists_tracker voted with ⟨doomslug, trackers, tracker, returned, tracked, known, holds⟩
  rcases of_decide_eq_true holds with ⟨counting, reports, few⟩
  rcases Option.map_eq_some_iff.mp reports with ⟨⟨readiness, ready⟩, isOk, rfl⟩
  cases reported : tracker.getBlockProductionReadiness Build.release 0 with
  | error message => cases reported ▸ isOk
  | ok value =>
      rcases Option.some.inj (reported ▸ isOk) with rfl
      exact ⟨doomslug, trackers, tracker, ready, pair_proper _ _ _ _,
        .single returned, tracked, known, counting, reported, few⟩

end Doomslug

end

end Ciphera.Node
