import Ciphera.Lib.Ratchet
import Ciphera.Node.Doomslug

/-!
# What a validator sends

A validator endorses a new tip some time after it has come, and skips the next height when no
block has come for it in time.  A call of the timer catches up with what is due, up to a
bounded number of steps.

A validator never goes back: it does not endorse a tip at a height that it has skipped, or
endorsed before.
-/

namespace Ciphera.Node

open Ciphera.Lib
open Ciphera.Lib.Ratchet (Ballot)

/-- How many heights one call of the timer skips at most. -/
def MAX_TIMER_ITERS : Nat := 20

/-! ## Durations -/

/-- Instants and durations are in nanoseconds. -/
def addDuration (first second : Nat) : Except String Nat := do
  check (first + second < 2 ^ 64 * 10 ^ 9) "overflow when adding durations"
  pure (first + second)

/-- A multiple of a duration; one that leaves the range of durations panics. -/
def mulDuration (duration factor : Nat) : Except String Nat := do
  check (duration * factor < 2 ^ 64 * 10 ^ 9) "overflow when multiplying duration by scalar"
  pure (duration * factor)

/-- An instant later; one that leaves the range of instants panics. -/
def addInstant (instant duration : Nat) : Except String Nat := do
  check (instant + duration < 2 ^ 63 * 10 ^ 9) "overflow when adding duration to instant"
  pure (instant + duration)

/-! ## The timer -/

/-- An endorsement of the parent for the height after it, a skip for any other. -/
def ApprovalInner.new (build : Build) (parentHash : CryptoHash) (parentHeight targetHeight : Nat) :
    Except String ApprovalInner := do
  let next ← build.add 64 parentHeight 1
  pure (if targetHeight = next then .endorsement parentHash else .skip parentHeight)

/-- What is approved of: the parent itself, or a skip from its height. -/
def ApprovalContent.new (build : Build) (parentHash : CryptoHash)
    (parentHeight targetHeight : Nat) : Except String ApprovalContent := do
  let inner ← ApprovalInner.new build parentHash parentHeight targetHeight
  pure ⟨inner, targetHeight⟩

/-- Doomslug with what it sends approvals by. -/
structure SendingDoomslug extends Doomslug where
  largestSentTargetHeight : Nat
  lastEndorsementSent : Nat
  endorsementDelay : Nat
  minDelay : Nat
  delayStep : Nat
  maxDelay : Nat

namespace SendingDoomslug

/-- A doomslug that has sent nothing, with its delays. -/
def new (now largestSentTargetHeight endorsementDelay minDelay delayStep maxDelay : Nat)
    (thresholdMode : DoomslugThresholdMode) : SendingDoomslug where
  toDoomslug := .new now thresholdMode
  largestSentTargetHeight := largestSentTargetHeight
  lastEndorsementSent := now
  endorsementDelay := endorsementDelay
  minDelay := minDelay
  delayStep := delayStep
  maxDelay := maxDelay

/-- The time to wait after as many heights without a final block. -/
def getDelay (n : Nat) (doomslug : SendingDoomslug) : Except String Nat := do
  let n32 := min n (2 ^ 32 - 1)
  let steps ← mulDuration doomslug.delayStep (n32 - 2)
  let delay ← addDuration doomslug.minDelay steps
  pure (min doomslug.maxDelay delay)

/-- How long a height is waited for, which grows with its distance from the last final one. -/
def skipDelay (doomslug : SendingDoomslug) : Except String Nat :=
  doomslug.getDelay (doomslug.timer.height - doomslug.largestFinalHeight)

variable (build : Build)

/-- A debug assertion: two endorsements fit into the delay. -/
def assertDelays (skipDelay : Nat) (doomslug : SendingDoomslug) : Except String PUnit :=
  if build.debugAssertions then do
    let doubled ← mulDuration doomslug.endorsementDelay 2
    check (skipDelay ≥ doubled)
      "assertion failed: skip_delay >= 2 * self.timer.endorsement_delay"
  else pure ⟨⟩

/-- The approval of the tip for a height. -/
def createApproval (doomslug : SendingDoomslug) (targetHeight : Nat) :
    Except String ApprovalContent :=
  ApprovalContent.new build doomslug.tip.blockHash doomslug.tip.height targetHeight

/-- Endorse the tip, unless an approval for a height above it has been sent. -/
def endorse (curTime : Nat) (doomslug : SendingDoomslug) :
    Except String (SendingDoomslug × List ApprovalContent) :=
  let tipHeight := doomslug.tip.height
  let later := { doomslug with
    lastEndorsementSent := curTime
    endorsementPending := false }
  if tipHeight ≥ doomslug.largestSentTargetHeight then do
    let targetHeight ← build.add 64 tipHeight 1
    let approval ← createApproval build doomslug targetHeight
    pure ({ later with largestSentTargetHeight := targetHeight }, [approval])
  else pure (later, [])

/-- Endorse the tip if that is pending and the last endorsement was long enough ago. -/
def endorseIfDue (curTime : Nat) (doomslug : SendingDoomslug) :
    Except String (SendingDoomslug × List ApprovalContent) :=
  if doomslug.endorsementPending then do
    let due ← addInstant doomslug.lastEndorsementSent doomslug.endorsementDelay
    if curTime ≥ due then doomslug.endorse build curTime else pure (doomslug, [])
  else pure (doomslug, [])

/-- Skip the height of the timer, which then waits for the next one. -/
def skipHeight (due : Nat) (doomslug : SendingDoomslug) :
    Except String (SendingDoomslug × List ApprovalContent) := do
  check (build.debugAssertions = true → doomslug.endorsementPending = false)
    "assertion failed: !self.endorsement_pending"
  let targetHeight ← build.add 64 doomslug.timer.height 1
  let approval ← createApproval build doomslug targetHeight
  pure ({ doomslug with
    largestSentTargetHeight := max targetHeight doomslug.largestSentTargetHeight
    timer := ⟨due, targetHeight⟩ }, [approval])

/-- The rounds of `processTimer`, as many as there are at most. -/
def processTimerWithin (curTime : Nat) :
    Nat → SendingDoomslug → Except String (SendingDoomslug × List ApprovalContent)
  | 0, doomslug => pure (doomslug, [])
  | rounds + 1, doomslug => do
      let skipDelay ← doomslug.skipDelay
      doomslug.assertDelays build skipDelay
      let (doomslug, endorsed) ← doomslug.endorseIfDue build curTime
      let due ← addInstant doomslug.timer.started skipDelay
      if curTime ≥ due then
        let (doomslug, skipped) ← doomslug.skipHeight build due
        let (doomslug, later) ← processTimerWithin curTime rounds doomslug
        pure (doomslug, endorsed ++ skipped ++ later)
      else pure (doomslug, endorsed)

/-- Everything that is due at a time: an endorsement and skips. -/
def processTimer (curTime : Nat) (doomslug : SendingDoomslug) :
    Except String (SendingDoomslug × List ApprovalContent) :=
  doomslug.processTimerWithin build curTime MAX_TIMER_ITERS

/-! ## Blocks and approvals -/

/-- A new tip, with the trackers and the timer. -/
def onBlock (now : Nat) (blockHash : CryptoHash) (height lastFinalHeight : Nat)
    (doomslug : SendingDoomslug) : Except String SendingDoomslug := do
  let base ← doomslug.toDoomslug.onBlock build now blockHash height lastFinalHeight
  pure { doomslug with toDoomslug := base }

/-- An approval to be counted. -/
def onApproval (now arrival : Nat) (approval : ApprovalValidated)
    (stakes : List (ApprovalStake × Bool)) (doomslug : SendingDoomslug) :
    Except String SendingDoomslug := do
  let base ← doomslug.toDoomslug.onApproval build now arrival approval stakes
  pure { doomslug with toDoomslug := base }

/-- Whether a block for a height may be made on top of the tip. -/
def readyToProduceBlock (now targetHeight : Nat) (hasEnoughChunks : Bool)
    (doomslug : SendingDoomslug) : Except String (SendingDoomslug × Bool) := do
  let inner ← ApprovalInner.new build doomslug.tip.blockHash doomslug.tip.height targetHeight
  match doomslug.approvalTracking[targetHeight]? with
  | none => pure (doomslug, false)
  | some trackers =>
      match trackers.approvalTrackers.lookup inner with
      | none => pure (doomslug, false)
      | some tracker => do
          let (readiness, tracker) ← tracker.getBlockProductionReadiness build now
          let trackers := { trackers with
            approvalTrackers := trackers.approvalTrackers.insert inner tracker }
          let doomslug := { doomslug with
            approvalTracking := doomslug.approvalTracking.insert targetHeight trackers }
          match readiness with
          | .notReady => pure (doomslug, false)
          | .readySince since =>
              if hasEnoughChunks then pure (doomslug, true)
              else do
                let delay ← doomslug.skipDelay
                let due ← addInstant since (delay / 6)
                pure (doomslug, now > due)

end SendingDoomslug

/-! ## What is sent goes forward -/

/-- The height of the parent that is approved of. -/
def ApprovalContent.parentHeight (content : ApprovalContent) : Nat :=
  match content.inner with
  | .endorsement _ => content.targetHeight - 1
  | .skip height => height

/-- Approvals as votes, of which the endorsements are direct. -/
def approvalBallot : Ballot ApprovalContent where
  source := ApprovalContent.parentHeight
  target := ApprovalContent.targetHeight
  direct content := ∃ hash, content.inner = .endorsement hash

section

variable {build : Build} {parentHash : CryptoHash} {parentHeight targetHeight : Nat}

theorem ApprovalInner.new_eq_ok (small : parentHeight + 1 < 2 ^ 64) {inner : ApprovalInner}
    (created : ApprovalInner.new build parentHash parentHeight targetHeight = .ok inner) :
    inner = if targetHeight = parentHeight + 1 then .endorsement parentHash
      else .skip parentHeight := by
  rcases bind_eq_ok_iff.mp created with ⟨next, added, finished⟩
  rw [(Build.narrow_eq_ok_iff.mp added).eq_of_exact (.inr small)] at finished
  exact (pure_eq_ok_iff.mp finished).symm

theorem ApprovalContent.new_eq_ok (small : parentHeight + 1 < 2 ^ 64) {content : ApprovalContent}
    (created : ApprovalContent.new build parentHash parentHeight targetHeight = .ok content) :
    content.targetHeight = targetHeight ∧ content.parentHeight = parentHeight ∧
      (approvalBallot.direct content → targetHeight = parentHeight + 1) := by
  rcases bind_eq_ok_iff.mp created with ⟨inner, innerEq, finished⟩
  rcases pure_eq_ok_iff.mp finished with rfl
  rcases ApprovalInner.new_eq_ok small innerEq with rfl
  by_cases isNext : targetHeight = parentHeight + 1
  · rw [if_pos isNext]
    exact ⟨rfl, Nat.sub_eq_of_eq_add isNext, fun _ => isNext⟩
  · rw [if_neg isNext]
    refine ⟨rfl, rfl, ?_⟩
    rintro ⟨hash, isEndorsement⟩
    cases isEndorsement

end

namespace SendingDoomslug

variable {build : Build} {doomslug next : SendingDoomslug} {sent added : List ApprovalContent}

/-- What is known of a validator by what it has sent: its approvals go forward, and it can
only go on from there.  Before the first block the timer is not ahead of the tip. -/
structure Votes (sent : List ApprovalContent) (doomslug : SendingDoomslug) : Prop where
  forward : approvalBallot.Forward sent
  proper : ∀ content ∈ sent, content.parentHeight < content.targetHeight
  target_le : ∀ content ∈ sent, content.targetHeight ≤ doomslug.largestSentTargetHeight
  parent_le : ∀ content ∈ sent, content.parentHeight ≤ doomslug.tip.height
  tip_lt : doomslug.tip.height + 1 < 2 ^ 64
  timer_lt : doomslug.timer.height < 2 ^ 64
  ahead : doomslug.tip.height < doomslug.timer.height ∨
    sent = [] ∧ doomslug.timer.height = 0 ∧ doomslug.tip.height = 0 ∧
      doomslug.endorsementPending = false

theorem Votes.new (now largestSentTargetHeight endorsementDelay minDelay delayStep maxDelay : Nat)
    (thresholdMode : DoomslugThresholdMode) :
    Votes [] (.new now largestSentTargetHeight endorsementDelay minDelay delayStep maxDelay
      thresholdMode) where
  forward := .nil
  proper _ mem := absurd mem List.not_mem_nil
  target_le _ mem := absurd mem List.not_mem_nil
  parent_le _ mem := absurd mem List.not_mem_nil
  tip_lt := show 0 + 1 < 2 ^ 64 by decide
  timer_lt := Nat.two_pow_pos 64
  ahead := .inr ⟨rfl, rfl, rfl, rfl⟩

/-- One more approval of the tip. -/
theorem Votes.snoc (votes : Votes sent doomslug) {content : ApprovalContent}
    (parentEq : content.parentHeight = doomslug.tip.height)
    (above : doomslug.tip.height < content.targetHeight)
    (direct : approvalBallot.direct content →
      ∀ earlier ∈ sent, earlier.targetHeight < content.targetHeight)
    (sameTip : next.tip = doomslug.tip)
    (grows : doomslug.largestSentTargetHeight ≤ next.largestSentTargetHeight)
    (covers : content.targetHeight ≤ next.largestSentTargetHeight)
    (timer_lt : next.timer.height < 2 ^ 64) (ahead : doomslug.tip.height < next.timer.height) :
    Votes (sent ++ [content]) next where
  forward := by
    apply votes.forward.snoc
    intro earlier mem
    refine ⟨?_, fun isDirect => direct isDirect earlier mem⟩
    change earlier.parentHeight ≤ content.parentHeight
    rw [parentEq]
    exact votes.parent_le earlier mem
  proper other mem := by
    rcases List.mem_append.mp mem with before | now
    · exact votes.proper other before
    · rw [List.mem_singleton.mp now, parentEq]
      exact above
  target_le other mem := by
    rcases List.mem_append.mp mem with before | now
    · exact (votes.target_le other before).trans grows
    · rw [List.mem_singleton.mp now]
      exact covers
  parent_le other mem := by
    rw [sameTip]
    rcases List.mem_append.mp mem with before | now
    · exact votes.parent_le other before
    · rw [List.mem_singleton.mp now, parentEq]
  tip_lt := by
    rw [sameTip]
    exact votes.tip_lt
  timer_lt := timer_lt
  ahead := by
    rw [sameTip]
    exact .inl ahead

/-- An endorsement is for a height above all that approvals have been sent for. -/
theorem Votes.endorse (votes : Votes sent doomslug) {curTime : Nat}
    (pending : doomslug.endorsementPending = true)
    (returned : doomslug.endorse build curTime = .ok (next, added)) :
    Votes (sent ++ added) next := by
  have ahead : doomslug.tip.height < doomslug.timer.height := by
    apply votes.ahead.resolve_right
    rintro ⟨_, _, _, notPending⟩
    cases pending.symm.trans notPending
  unfold SendingDoomslug.endorse at returned
  dsimp only at returned
  split at returned
  · rename_i behind
    rcases bind_eq_ok_iff.mp returned with ⟨targetHeight, targetEq, rest⟩
    have exactTarget := (Build.narrow_eq_ok_iff.mp targetEq).eq_of_exact (.inr votes.tip_lt)
    rcases bind_eq_ok_iff.mp rest with ⟨approval, created, finished⟩
    rcases Prod.mk.inj (pure_eq_ok_iff.mp finished) with ⟨rfl, rfl⟩
    rcases ApprovalContent.new_eq_ok votes.tip_lt created with ⟨approvalTarget, parentEq, _⟩
    rw [exactTarget] at approvalTarget
    apply votes.snoc parentEq
    · rw [approvalTarget]
      exact Nat.lt_succ_self _
    · intro _ earlier mem
      rw [approvalTarget]
      exact Nat.lt_succ_of_le ((votes.target_le earlier mem).trans behind)
    · rfl
    · rw [exactTarget]
      exact Nat.le_succ_of_le behind
    · rw [approvalTarget, exactTarget]
    · exact votes.timer_lt
    · exact ahead
  · rcases Prod.mk.inj (pure_eq_ok_iff.mp returned) with ⟨rfl, rfl⟩
    rw [List.append_nil]
    exact ⟨votes.forward, votes.proper, votes.target_le, votes.parent_le, votes.tip_lt,
      votes.timer_lt, .inl ahead⟩

theorem Votes.endorseIfDue (votes : Votes sent doomslug) {curTime : Nat}
    (returned : doomslug.endorseIfDue build curTime = .ok (next, added)) :
    Votes (sent ++ added) next := by
  have same : pure (doomslug, ([] : List ApprovalContent)) = Except.ok (ε := String) (next, added) →
      Votes (sent ++ added) next := by
    intro finished
    rcases Prod.mk.inj (pure_eq_ok_iff.mp finished) with ⟨rfl, rfl⟩
    rw [List.append_nil]
    exact votes
  unfold SendingDoomslug.endorseIfDue at returned
  split at returned
  · rename_i pending
    rcases bind_eq_ok_iff.mp returned with ⟨due, _, rest⟩
    split at rest
    · exact votes.endorse pending rest
    · exact same rest
  · exact same returned

/-- A skip is for a height above the one after the tip, unless there is no block yet. -/
theorem Votes.skipHeight (votes : Votes sent doomslug) {due : Nat}
    (returned : doomslug.skipHeight build due = .ok (next, added))
    (fits : ∀ content ∈ added, content.targetHeight ≠ 0) : Votes (sent ++ added) next := by
  rcases bind_eq_ok_iff.mp returned with ⟨_, _, rest⟩
  rcases bind_eq_ok_iff.mp rest with ⟨targetHeight, targetEq, rest⟩
  rcases bind_eq_ok_iff.mp rest with ⟨approval, created, finished⟩
  rcases Prod.mk.inj (pure_eq_ok_iff.mp finished) with ⟨rfl, rfl⟩
  rcases ApprovalContent.new_eq_ok votes.tip_lt created with ⟨approvalTarget, parentEq, isNext⟩
  have positive := fits approval (List.mem_singleton_self _)
  rw [approvalTarget] at positive
  have targetMod := (Build.narrow_eq_ok_iff.mp targetEq).2
  -- only the height after the largest one would be zero
  have exactTarget : targetHeight = doomslug.timer.height + 1 := by
    rcases Nat.lt_or_ge (doomslug.timer.height + 1) (2 ^ 64) with fits | beyond
    · rw [targetMod, Nat.mod_eq_of_lt fits]
    · have last : doomslug.timer.height + 1 = 2 ^ 64 := Nat.le_antisymm votes.timer_lt beyond
      rw [last, Nat.mod_self] at targetMod
      exact absurd targetMod positive
  have tip_le : doomslug.tip.height ≤ doomslug.timer.height := by
    rcases votes.ahead with ahead | ⟨_, timerZero, tipZero, _⟩
    · exact Nat.le_of_lt ahead
    · rw [timerZero, tipZero]
  apply votes.snoc parentEq
  · rw [approvalTarget, exactTarget]
    exact Nat.lt_succ_of_le tip_le
  · intro isDirect earlier mem
    rcases votes.ahead with ahead | ⟨noneSent, _⟩
    · have same := isNext isDirect
      rw [exactTarget] at same
      exact absurd (Nat.succ.inj same).symm (Nat.ne_of_lt ahead)
    · rw [noneSent] at mem
      cases mem
  · rfl
  · exact Nat.le_max_right _ _
  · rw [approvalTarget]
    exact Nat.le_max_left _ _
  · rw [targetMod]
    exact Nat.mod_lt _ (Nat.two_pow_pos 64)
  · rw [exactTarget]
    exact Nat.lt_succ_of_le tip_le

theorem Votes.processTimerWithin {curTime : Nat} {rounds : Nat} (votes : Votes sent doomslug)
    (returned : doomslug.processTimerWithin build curTime rounds = .ok (next, added))
    (fits : ∀ content ∈ added, content.targetHeight ≠ 0) : Votes (sent ++ added) next := by
  induction rounds generalizing doomslug sent added with
  | zero =>
      rcases Prod.mk.inj (pure_eq_ok_iff.mp returned) with ⟨rfl, rfl⟩
      rw [List.append_nil]
      exact votes
  | succ rounds ih =>
      rcases bind_eq_ok_iff.mp returned with ⟨skipDelay, _, rest⟩
      rcases bind_eq_ok_iff.mp rest with ⟨_, _, rest⟩
      rcases bind_eq_ok_iff.mp rest with ⟨⟨middle, endorsed⟩, endorsedEq, rest⟩
      rcases bind_eq_ok_iff.mp rest with ⟨due, _, rest⟩
      have middleVotes := votes.endorseIfDue endorsedEq
      split at rest
      · rcases bind_eq_ok_iff.mp rest with ⟨⟨after, skipped⟩, skippedEq, rest⟩
        rcases bind_eq_ok_iff.mp rest with ⟨⟨last, later⟩, laterEq, finished⟩
        rcases Prod.mk.inj (pure_eq_ok_iff.mp finished) with ⟨rfl, rfl⟩
        have afterVotes := middleVotes.skipHeight skippedEq fun content mem =>
          fits content (List.mem_append_left _ (List.mem_append_right _ mem))
        have laterVotes := ih afterVotes laterEq fun content mem =>
          fits content (List.mem_append_right _ mem)
        simpa only [List.append_assoc] using laterVotes
      · rcases Prod.mk.inj (pure_eq_ok_iff.mp rest) with ⟨rfl, rfl⟩
        exact middleVotes

/-- Nothing else that a validator does counts. -/
theorem Votes.same (votes : Votes sent doomslug) (sameTip : next.tip = doomslug.tip)
    (sameTimer : next.timer = doomslug.timer)
    (sameLargest : next.largestSentTargetHeight = doomslug.largestSentTargetHeight)
    (samePending : next.endorsementPending = doomslug.endorsementPending) : Votes sent next where
  forward := votes.forward
  proper := votes.proper
  target_le := by
    rw [sameLargest]
    exact votes.target_le
  parent_le := by
    rw [sameTip]
    exact votes.parent_le
  tip_lt := by
    rw [sameTip]
    exact votes.tip_lt
  timer_lt := by
    rw [sameTimer]
    exact votes.timer_lt
  ahead := by
    rw [sameTip, sameTimer, samePending]
    exact votes.ahead

/-- Nothing is sent for a block, and the tip does not go down. -/
theorem Votes.onBlock (votes : Votes sent doomslug) {now height lastFinalHeight : Nat}
    {blockHash : CryptoHash}
    (returned : doomslug.onBlock build now blockHash height lastFinalHeight = .ok next)
    (higher : height > doomslug.tip.height ∨ doomslug.tip.height = 0)
    (small : height + 1 < 2 ^ 64) : Votes sent next := by
  rcases bind_eq_ok_iff.mp returned with ⟨base, baseEq, finished⟩
  rcases pure_eq_ok_iff.mp finished with rfl
  rcases bind_eq_ok_iff.mp baseEq with ⟨_, _, rest⟩
  rcases bind_eq_ok_iff.mp rest with ⟨timerHeight, timerEq, rest⟩
  rcases bind_eq_ok_iff.mp rest with ⟨retained, _, finished⟩
  rcases pure_eq_ok_iff.mp finished with rfl
  have exactTimer := (Build.narrow_eq_ok_iff.mp timerEq).eq_of_exact (.inr small)
  have tip_le : doomslug.tip.height ≤ height := by
    rcases higher with above | zero
    · exact Nat.le_of_lt above
    · rw [zero]
      exact Nat.zero_le _
  refine ⟨votes.forward, votes.proper, votes.target_le, ?_, small, ?_, .inl ?_⟩
  · exact fun content mem => (votes.parent_le content mem).trans tip_le
  · rw [exactTimer]
    exact small
  · rw [exactTimer]
    exact Nat.lt_succ_self _

theorem Votes.onApproval (votes : Votes sent doomslug) {now arrival : Nat}
    {approval : ApprovalValidated} {stakes : List (ApprovalStake × Bool)}
    (returned : doomslug.onApproval build now arrival approval stakes = .ok next) :
    Votes sent next := by
  rcases bind_eq_ok_iff.mp returned with ⟨base, baseEq, finished⟩
  rcases pure_eq_ok_iff.mp finished with rfl
  unfold Doomslug.onApproval at baseEq
  split at baseEq
  case isTrue =>
    rcases pure_eq_ok_iff.mp baseEq with rfl
    exact votes
  rcases bind_eq_ok_iff.mp baseEq with ⟨newest, _, baseEq⟩
  split at baseEq
  case isTrue =>
    rcases pure_eq_ok_iff.mp baseEq with rfl
    exact votes
  rcases bind_eq_ok_iff.mp baseEq with ⟨⟨_, counted⟩, internal, finished⟩
  rcases pure_eq_ok_iff.mp finished with rfl
  rcases bind_eq_ok_iff.mp internal with ⟨⟨ret, processed⟩, _, finished⟩
  rcases Prod.mk.inj (pure_eq_ok_iff.mp finished) with ⟨_, rfl⟩
  exact votes.same rfl rfl rfl rfl

/-! ## The timer does not count -/

/-- What is counted, and how. -/
def SameCounts (doomslug next : SendingDoomslug) : Prop :=
  next.approvalTracking = doomslug.approvalTracking ∧ next.thresholdMode = doomslug.thresholdMode

theorem sameCounts_endorseIfDue {curTime : Nat}
    (returned : doomslug.endorseIfDue build curTime = .ok (next, added)) :
    SameCounts doomslug next := by
  unfold SendingDoomslug.endorseIfDue at returned
  split at returned
  · rcases bind_eq_ok_iff.mp returned with ⟨due, _, rest⟩
    split at rest
    · unfold SendingDoomslug.endorse at rest
      dsimp only at rest
      split at rest
      · rcases bind_eq_ok_iff.mp rest with ⟨targetHeight, _, rest⟩
        rcases bind_eq_ok_iff.mp rest with ⟨approval, _, finished⟩
        rcases Prod.mk.inj (pure_eq_ok_iff.mp finished) with ⟨rfl, _⟩
        exact ⟨rfl, rfl⟩
      · rcases Prod.mk.inj (pure_eq_ok_iff.mp rest) with ⟨rfl, _⟩
        exact ⟨rfl, rfl⟩
    · rcases Prod.mk.inj (pure_eq_ok_iff.mp rest) with ⟨rfl, _⟩
      exact ⟨rfl, rfl⟩
  · rcases Prod.mk.inj (pure_eq_ok_iff.mp returned) with ⟨rfl, _⟩
    exact ⟨rfl, rfl⟩

theorem sameCounts_skipHeight {due : Nat}
    (returned : doomslug.skipHeight build due = .ok (next, added)) : SameCounts doomslug next := by
  rcases bind_eq_ok_iff.mp returned with ⟨_, _, rest⟩
  rcases bind_eq_ok_iff.mp rest with ⟨targetHeight, _, rest⟩
  rcases bind_eq_ok_iff.mp rest with ⟨approval, _, finished⟩
  rcases Prod.mk.inj (pure_eq_ok_iff.mp finished) with ⟨rfl, _⟩
  exact ⟨rfl, rfl⟩

theorem sameCounts_processTimerWithin {curTime : Nat} {rounds : Nat}
    (returned : doomslug.processTimerWithin build curTime rounds = .ok (next, added)) :
    SameCounts doomslug next := by
  induction rounds generalizing doomslug added with
  | zero =>
      rcases Prod.mk.inj (pure_eq_ok_iff.mp returned) with ⟨rfl, _⟩
      exact ⟨rfl, rfl⟩
  | succ rounds ih =>
      rcases bind_eq_ok_iff.mp returned with ⟨skipDelay, _, rest⟩
      rcases bind_eq_ok_iff.mp rest with ⟨_, _, rest⟩
      rcases bind_eq_ok_iff.mp rest with ⟨⟨middle, endorsed⟩, endorsedEq, rest⟩
      rcases bind_eq_ok_iff.mp rest with ⟨due, _, rest⟩
      have first := sameCounts_endorseIfDue endorsedEq
      split at rest
      · rcases bind_eq_ok_iff.mp rest with ⟨⟨after, skipped⟩, skippedEq, rest⟩
        rcases bind_eq_ok_iff.mp rest with ⟨⟨last, later⟩, laterEq, finished⟩
        rcases Prod.mk.inj (pure_eq_ok_iff.mp finished) with ⟨rfl, _⟩
        have second := sameCounts_skipHeight skippedEq
        have third := ih laterEq
        exact ⟨third.1.trans (second.1.trans first.1), third.2.trans (second.2.trans first.2)⟩
      · rcases Prod.mk.inj (pure_eq_ok_iff.mp rest) with ⟨rfl, _⟩
        exact first

end SendingDoomslug

end Ciphera.Node
