import Ciphera.Node.Timer

/-!
# What has been endorsed is not skipped

Validators send approvals to one another.  A leader that has counted approvals of more than
two thirds of the stake may make a block on top of its tip.  A faulty validator may approve of
anything, at any time.

As long as the faulty validators have no more than a third of the stake, a block that two
thirds have endorsed is not skipped: no chain of blocks, each with enough approvals, passes its
height by.  Approvals may arrive in any order, several times or never.
-/

namespace Ciphera.Node

open Ciphera.Lib
open Ciphera.Lib.Ratchet (Quorum Election Elected)
open Ciphera.Rollup (Address)

section

variable {build : Build}

/-! ## Whose approvals are counted -/

namespace DoomslugApprovalsTracker

variable {tracker next : DoomslugApprovalsTracker}

theorem of_processApproval {now arrival : Nat} {approval : ApprovalValidated}
    {readiness : DoomslugBlockProductionReadiness}
    (processed : tracker.processApproval build now arrival approval = .ok (readiness, next)) :
    next.accountIdToStakes = tracker.accountIdToStakes ∧
      next.thresholdMode = tracker.thresholdMode ∧
      ∀ validator ∈ next.witness,
        validator = approval.validator ∨ validator ∈ tracker.witness := by
  unfold DoomslugApprovalsTracker.processApproval at processed
  split at processed
  · rcases of_getBlockProductionReadiness processed with ⟨_, since, _, rfl, _⟩
    exact ⟨rfl, rfl, fun validator mem => .inr mem⟩
  · rcases bind_eq_ok_iff.mp processed with ⟨approvedThis, _, rest⟩
    rcases bind_eq_ok_iff.mp rest with ⟨approvedNext, _, reported⟩
    rcases of_getBlockProductionReadiness reported with ⟨_, since, _, rfl, _⟩
    exact ⟨rfl, rfl, fun validator mem => Finmap.mem_insert.mp mem⟩

theorem of_withdrawApproval {validator : Address}
    (withdrawn : tracker.withdrawApproval build validator = .ok next) :
    next.accountIdToStakes = tracker.accountIdToStakes ∧
      next.thresholdMode = tracker.thresholdMode ∧
      ∀ other ∈ next.witness, other ∈ tracker.witness := by
  unfold DoomslugApprovalsTracker.withdrawApproval at withdrawn
  split at withdrawn
  · rcases pure_eq_ok_iff.mp withdrawn with rfl
    exact ⟨rfl, rfl, fun other mem => mem⟩
  · rcases bind_eq_ok_iff.mp withdrawn with ⟨approvedThis, _, rest⟩
    rcases bind_eq_ok_iff.mp rest with ⟨approvedNext, _, finished⟩
    rcases pure_eq_ok_iff.mp finished with rfl
    exact ⟨rfl, rfl, fun other mem => (Finmap.mem_erase.mp mem).2⟩

theorem of_new {accountIdToStakes : Stakes} {thresholdMode : DoomslugThresholdMode}
    (created : new build accountIdToStakes thresholdMode = .ok tracker) :
    tracker.accountIdToStakes = accountIdToStakes ∧ tracker.thresholdMode = thresholdMode ∧
      tracker.witness = ∅ := by
  rcases bind_eq_ok_iff.mp created with ⟨totalThis, _, rest⟩
  rcases bind_eq_ok_iff.mp rest with ⟨totalNext, _, finished⟩
  rcases pure_eq_ok_iff.mp finished with rfl
  exact ⟨rfl, rfl, rfl⟩

/-- A tracker counts by the table, and only validators that have said what it is for. -/
structure Heard (table : Stakes) (mode : DoomslugThresholdMode) (said : Address → Prop)
    (tracker : DoomslugApprovalsTracker) : Prop where
  table_eq : tracker.accountIdToStakes = table
  mode_eq : tracker.thresholdMode = mode
  witnessed : ∀ validator ∈ tracker.witness, validator ∈ table ∧ said validator

end DoomslugApprovalsTracker

namespace DoomslugApprovalsTrackersAtHeight

variable {trackers next : DoomslugApprovalsTrackersAtHeight} {table : Stakes}
  {mode : DoomslugThresholdMode} {said : ApprovalInner → Address → Prop}

/-- Every tracker has only heard what was said of its parent. -/
def Heard (table : Stakes) (mode : DoomslugThresholdMode) (said : ApprovalInner → Address → Prop)
    (trackers : DoomslugApprovalsTrackersAtHeight) : Prop :=
  ∀ inner tracker, trackers.approvalTrackers.lookup inner = some tracker →
    tracker.Heard table mode (said inner)

theorem Heard.empty : Heard table mode said {} := by
  intro inner tracker found
  rw [Finmap.lookup_empty] at found
  cases found

theorem Heard.insert (heard : trackers.Heard table mode said) {inner : ApprovalInner}
    {tracker : DoomslugApprovalsTracker} (trackerHeard : tracker.Heard table mode (said inner))
    (last : Finmap fun _ : Address => ApprovalInner) :
    Heard table mode said ⟨trackers.approvalTrackers.insert inner tracker, last⟩ := by
  intro other found isFound
  rcases lookup_insert_eq_some_iff.mp isFound with ⟨rfl, rfl⟩ | ⟨_, isFound⟩
  · exact trackerHeard
  · exact heard other found isFound

theorem Heard.withdrawLast (heard : trackers.Heard table mode said) {validator : Address}
    (withdrawn : trackers.withdrawLast build validator = .ok next) :
    next.Heard table mode said := by
  unfold DoomslugApprovalsTrackersAtHeight.withdrawLast at withdrawn
  split at withdrawn
  · rcases pure_eq_ok_iff.mp withdrawn with rfl
    exact heard
  · split at withdrawn
    · rcases pure_eq_ok_iff.mp withdrawn with rfl
      exact heard
    · rename_i tracker known
      rcases bind_eq_ok_iff.mp withdrawn with ⟨rest, restEq, finished⟩
      rcases DoomslugApprovalsTracker.of_withdrawApproval restEq with ⟨tableEq, modeEq, kept⟩
      have trackerHeard := heard _ tracker known
      split at finished
      · rcases pure_eq_ok_iff.mp finished with rfl
        exact fun inner other found => heard inner other (lookup_erase_eq_some_iff.mp found).2
      · rcases pure_eq_ok_iff.mp finished with rfl
        apply heard.insert
        exact ⟨tableEq.trans trackerHeard.table_eq, modeEq.trans trackerHeard.mode_eq,
          fun other mem => trackerHeard.witnessed other (kept other mem)⟩

theorem Heard.processApproval {now arrival : Nat} {approval : ApprovalValidated}
    {stakes : List (ApprovalStake × Bool)} {readiness : DoomslugBlockProductionReadiness}
    (heard : trackers.Heard (accountIdToStakes stakes) mode said)
    (saying : said approval.content.inner approval.validator)
    (processed : trackers.processApproval build now arrival approval stakes mode =
      .ok (readiness, next)) : next.Heard (accountIdToStakes stakes) mode said := by
  rcases bind_eq_ok_iff.mp processed with ⟨rest, withdrawn, processed⟩
  have restHeard := heard.withdrawLast withdrawn
  rcases bind_eq_ok_iff.mp processed with ⟨_, _, processed⟩
  split at processed
  · rcases Prod.mk.inj (pure_eq_ok_iff.mp processed) with ⟨_, rfl⟩
    exact restHeard
  · rename_i member
    rcases bind_eq_ok_iff.mp processed with ⟨tracker, taken, processed⟩
    rcases bind_eq_ok_iff.mp processed with ⟨⟨ready, counted⟩, countedEq, finished⟩
    rcases Prod.mk.inj (pure_eq_ok_iff.mp finished) with ⟨_, rfl⟩
    have takenHeard : tracker.Heard (accountIdToStakes stakes) mode
        (said approval.content.inner) := by
      unfold trackerOf at taken
      split at taken
      · rename_i stored known
        rcases pure_eq_ok_iff.mp taken with rfl
        exact restHeard _ stored known
      · rcases DoomslugApprovalsTracker.of_new taken with ⟨tableEq, modeEq, fresh⟩
        refine ⟨tableEq, modeEq, ?_⟩
        rw [fresh]
        exact fun validator mem => absurd mem Finmap.notMem_empty
    rcases DoomslugApprovalsTracker.of_processApproval countedEq with ⟨tableEq, modeEq, witnesses⟩
    apply restHeard.insert
    refine ⟨tableEq.trans takenHeard.table_eq, modeEq.trans takenHeard.mode_eq, ?_⟩
    intro validator mem
    rcases witnesses validator mem with rfl | earlier
    · exact ⟨not_not.mp member, saying⟩
    · exact takenHeard.witnessed validator earlier

end DoomslugApprovalsTrackersAtHeight

namespace Doomslug

variable {doomslug next : Doomslug} {table : Stakes} {mode : DoomslugThresholdMode}
  {said more : ApprovalContent → Address → Prop}

/-- All that is counted, by one table, has been said. -/
structure Heard (table : Stakes) (mode : DoomslugThresholdMode)
    (said : ApprovalContent → Address → Prop) (doomslug : Doomslug) : Prop where
  mode_eq : doomslug.thresholdMode = mode
  heard : ∀ {height : Nat} {trackers : DoomslugApprovalsTrackersAtHeight},
    doomslug.approvalTracking[height]? = some trackers →
    trackers.Heard table mode fun inner => said ⟨inner, height⟩

theorem Heard.new (now : Nat) : Heard table mode said (new now mode) where
  mode_eq := rfl
  heard found := by
    rw [Doomslug.new, Std.TreeMap.getElem?_emptyc] at found
    cases found

theorem Heard.mono (heard : doomslug.Heard table mode said)
    (grows : ∀ content validator, said content validator → more content validator) :
    doomslug.Heard table mode more where
  mode_eq := heard.mode_eq
  heard := by
    intro height trackers found inner tracker isTracker
    have trackerHeard := heard.heard found inner tracker isTracker
    exact ⟨trackerHeard.table_eq, trackerHeard.mode_eq, fun validator mem =>
      (trackerHeard.witnessed validator mem).imp_right (grows _ _)⟩

theorem Heard.onBlock (heard : doomslug.Heard table mode said)
    {now height lastFinalHeight : Nat} {blockHash : CryptoHash}
    (returned : doomslug.onBlock build now blockHash height lastFinalHeight = .ok next) :
    next.Heard table mode said := by
  rcases bind_eq_ok_iff.mp returned with ⟨_, _, rest⟩
  rcases bind_eq_ok_iff.mp rest with ⟨timerHeight, _, rest⟩
  rcases bind_eq_ok_iff.mp rest with ⟨retained, retaining, finished⟩
  rcases pure_eq_ok_iff.mp finished with rfl
  exact ⟨heard.mode_eq, fun found => heard.heard (retained_was_tracked retaining found)⟩

theorem Heard.onApproval {now arrival : Nat} {approval : ApprovalValidated}
    {stakes : List (ApprovalStake × Bool)}
    (heard : doomslug.Heard (DoomslugApprovalsTrackersAtHeight.accountIdToStakes stakes) mode said)
    (saying : said approval.content approval.validator)
    (returned : doomslug.onApproval build now arrival approval stakes = .ok next) :
    next.Heard (DoomslugApprovalsTrackersAtHeight.accountIdToStakes stakes) mode said := by
  unfold Doomslug.onApproval at returned
  split at returned
  case isTrue => exact pure_eq_ok_iff.mp returned ▸ heard
  rcases bind_eq_ok_iff.mp returned with ⟨newest, _, returned⟩
  split at returned
  case isTrue => exact pure_eq_ok_iff.mp returned ▸ heard
  rcases bind_eq_ok_iff.mp returned with ⟨⟨_, counted⟩, internal, finished⟩
  rcases pure_eq_ok_iff.mp finished with rfl
  rcases bind_eq_ok_iff.mp internal with ⟨⟨ret, processed⟩, processing, finished⟩
  rcases Prod.mk.inj (pure_eq_ok_iff.mp finished) with ⟨_, rfl⟩
  refine ⟨heard.mode_eq, ?_⟩
  intro height trackers found
  rw [getElem?_insert_eq] at found
  split at found
  · rename_i isHeight
    rcases Option.some.inj found with rfl
    subst isHeight
    rw [heard.mode_eq] at processing
    have before : DoomslugApprovalsTrackersAtHeight.Heard
        (DoomslugApprovalsTrackersAtHeight.accountIdToStakes stakes) mode
        (fun inner => said ⟨inner, approval.content.targetHeight⟩)
        ((doomslug.approvalTracking[approval.content.targetHeight]?).getD {}) := by
      cases known : doomslug.approvalTracking[approval.content.targetHeight]? with
      | none => exact .empty
      | some stored => exact heard.heard known
    exact before.processApproval saying processing
  · exact heard.heard found

end Doomslug

/-! ## What a ready leader has counted -/

/-- The stakes of this epoch. -/
def Stakes.weight (table : Stakes) (validator : Address) : Nat := (table.of validator).1

/-- No more than a third of the stake is faulty. -/
def Stakes.FewFaulty (table : Stakes) (faulty : Finset Address) : Prop :=
  3 * ∑ validator ∈ faulty, table.weight validator ≤
    ∑ validator ∈ table.keys, table.weight validator

/-- The totals of a table can be doubled. -/
def Stakes.Doubles (build : Build) (table : Stakes) : Prop :=
  build.Exact 128 (table.total Prod.fst * 2) ∧ build.Exact 128 (table.total Prod.snd * 2)

/-- The witnesses of a tracker that is ready are a quorum. -/
theorem DoomslugApprovalsTracker.Sound.quorum {tracker next : DoomslugApprovalsTracker}
    {table : Stakes} {said : Address → Prop} {now : Nat}
    {readiness : DoomslugBlockProductionReadiness} (sound : tracker.Sound build)
    (heard : tracker.Heard table .twoThirds said) (doubles : table.Doubles build)
    (reported : tracker.getBlockProductionReadiness build now = .ok (readiness, next))
    (ready : readiness ≠ .notReady) :
    Quorum table.weight table.keys tracker.witness.keys := by
  have accounted := sound.accounted
  have counting : tracker.thresholdMode ≠ .noApprovals := by
    rw [heard.mode_eq]
    decide
  rw [← heard.table_eq] at doubles
  have enough := ((accounted.ready_iff doubles.1 doubles.2 counting reported).mp ready).1
  rw [accounted.approvedThis (exact_of_doubled doubles.1), heard.table_eq] at enough
  refine ⟨?_, enough⟩
  intro validator mem
  exact Finmap.mem_keys.mpr (heard.witnessed validator (Finmap.mem_keys.mp mem)).1

namespace SendingDoomslug

variable {doomslug next : SendingDoomslug} {now targetHeight : Nat} {hasEnoughChunks ready : Bool}

/-- Looking whether a block may be made starts a clock at most. -/
theorem readyToProduceBlock_cases
    (returned : doomslug.readyToProduceBlock build now targetHeight hasEnoughChunks =
      .ok (next, ready)) :
    next = doomslug ∧ ready = false ∨
    ∃ inner trackers tracker readiness counted,
      ApprovalInner.new build doomslug.tip.blockHash doomslug.tip.height targetHeight =
        .ok inner ∧
      doomslug.approvalTracking[targetHeight]? = some trackers ∧
      trackers.approvalTrackers.lookup inner = some tracker ∧
      tracker.getBlockProductionReadiness build now = .ok (readiness, counted) ∧
      next = { doomslug with
        approvalTracking := doomslug.approvalTracking.insert targetHeight
          ⟨trackers.approvalTrackers.insert inner counted, trackers.lastApprovalPerAccount⟩ } ∧
      (ready = true → readiness ≠ .notReady) := by
  rcases bind_eq_ok_iff.mp returned with ⟨inner, innerEq, rest⟩
  split at rest
  · rcases Prod.mk.inj (pure_eq_ok_iff.mp rest) with ⟨rfl, rfl⟩
    exact .inl ⟨rfl, rfl⟩
  · rename_i trackers tracked
    split at rest
    · rcases Prod.mk.inj (pure_eq_ok_iff.mp rest) with ⟨rfl, rfl⟩
      exact .inl ⟨rfl, rfl⟩
    · rename_i tracker known
      rcases bind_eq_ok_iff.mp rest with ⟨⟨readiness, counted⟩, reported, rest⟩
      refine .inr ⟨inner, trackers, tracker, readiness, counted, innerEq, tracked, known,
        reported, ?_⟩
      cases readiness with
      | notReady =>
          rcases Prod.mk.inj (pure_eq_ok_iff.mp rest) with ⟨rfl, rfl⟩
          exact ⟨rfl, fun otherwise => absurd otherwise Bool.false_ne_true⟩
      | readySince since =>
          refine ⟨?_, fun _ => by simp⟩
          dsimp only at rest
          split at rest
          · exact (Prod.mk.inj (pure_eq_ok_iff.mp rest)).1.symm
          · rcases bind_eq_ok_iff.mp rest with ⟨delay, _, rest⟩
            rcases bind_eq_ok_iff.mp rest with ⟨due, _, rest⟩
            exact (Prod.mk.inj (pure_eq_ok_iff.mp rest)).1.symm

/-- Nothing else of a node depends on when its clocks were started. -/
theorem Votes.readyToProduceBlock {sent : List ApprovalContent} (votes : Votes sent doomslug)
    (returned : doomslug.readyToProduceBlock build now targetHeight hasEnoughChunks =
      .ok (next, ready)) : Votes sent next := by
  rcases readyToProduceBlock_cases returned with
    ⟨rfl, _⟩ | ⟨inner, trackers, tracker, readiness, counted, _, _, _, _, rfl, _⟩
  · exact votes
  · exact votes.same rfl rfl rfl rfl

theorem sound_readyToProduceBlock (sound : doomslug.toDoomslug.Sound build)
    (returned : doomslug.readyToProduceBlock build now targetHeight hasEnoughChunks =
      .ok (next, ready)) : next.toDoomslug.Sound build := by
  rcases readyToProduceBlock_cases returned with
    ⟨rfl, _⟩ | ⟨inner, trackers, tracker, readiness, counted, _, tracked, known, reported, rfl, _⟩
  · exact sound
  · rcases DoomslugApprovalsTracker.of_getBlockProductionReadiness reported with
      ⟨_, since, _, rfl, _⟩
    have before := sound tracked
    intro height found isFound
    rw [getElem?_insert_eq] at isFound
    split at isFound
    · rcases Option.some.inj isFound with rfl
      constructor
      · intro other stored isStored
        rcases lookup_insert_eq_some_iff.mp isStored with ⟨_, rfl⟩ | ⟨_, isStored⟩
        · exact (before.sound known).timed since
        · exact before.sound isStored
      · intro other stored validator isStored witnessed
        rcases lookup_insert_eq_some_iff.mp isStored with ⟨rfl, rfl⟩ | ⟨_, isStored⟩
        · exact before.last known witnessed
        · exact before.last isStored witnessed
    · exact sound isFound

theorem heard_readyToProduceBlock {table : Stakes} {mode : DoomslugThresholdMode}
    {said : ApprovalContent → Address → Prop} (heard : doomslug.toDoomslug.Heard table mode said)
    (returned : doomslug.readyToProduceBlock build now targetHeight hasEnoughChunks =
      .ok (next, ready)) : next.toDoomslug.Heard table mode said := by
  rcases readyToProduceBlock_cases returned with
    ⟨rfl, _⟩ | ⟨inner, trackers, tracker, readiness, counted, _, tracked, known, reported, rfl, _⟩
  · exact heard
  · rcases DoomslugApprovalsTracker.of_getBlockProductionReadiness reported with
      ⟨_, since, _, rfl, _⟩
    have before := heard.heard tracked
    refine ⟨heard.mode_eq, ?_⟩
    intro height found isFound
    rw [getElem?_insert_eq] at isFound
    split at isFound
    · rename_i same
      subst same
      rcases Option.some.inj isFound with rfl
      apply before.insert
      have trackerHeard := before inner tracker known
      exact ⟨trackerHeard.table_eq, trackerHeard.mode_eq, trackerHeard.witnessed⟩
    · exact heard.heard isFound

end SendingDoomslug

/-! ## The network -/

/-- A block that a leader was ready to make. -/
structure ReadyBlock where
  parent : DoomslugTip
  targetHeight : Nat
  deriving DecidableEq, Repr

/-- The nodes, with all that they have sent and been ready to make. -/
structure DoomslugNetwork where
  nodes : Address → SendingDoomslug
  sent : Address → List ApprovalContent
  ready : List ReadyBlock

namespace DoomslugNetwork

/-- The network of given nodes, before anything is sent. -/
def start (nodes : Address → SendingDoomslug) : DoomslugNetwork where
  nodes := nodes
  sent _ := []
  ready := []

/-- What a call of a node leaves. -/
def after (network : DoomslugNetwork) (node : Address) (next : SendingDoomslug)
    (added : List ApprovalContent) (ready : List ReadyBlock) : DoomslugNetwork where
  nodes := Function.update network.nodes node next
  sent := Function.update network.sent node (network.sent node ++ added)
  ready := network.ready ++ ready

/-- A validator that is not faulty approves of what it has sent only. -/
def Said (network : DoomslugNetwork) (faulty : Finset Address) (content : ApprovalContent)
    (validator : Address) : Prop :=
  validator ∉ faulty → content ∈ network.sent validator

/-- A node that is not faulty acts.  Its tip goes up, and heights do not overflow. -/
inductive Acts (build : Build) (stakes : List (ApprovalStake × Bool)) (faulty : Finset Address) :
    DoomslugNetwork → DoomslugNetwork → Prop
  | block {network : DoomslugNetwork} {node : Address} {next : SendingDoomslug}
      {now height lastFinalHeight : Nat} {blockHash : CryptoHash} (honest : node ∉ faulty)
      (higher : height > (network.nodes node).tip.height ∨ (network.nodes node).tip.height = 0)
      (small : height + 1 < 2 ^ 64)
      (returned : (network.nodes node).onBlock build now blockHash height lastFinalHeight =
        .ok next) : Acts build stakes faulty network (network.after node next [] [])
  | approval {network : DoomslugNetwork} {node : Address} {next : SendingDoomslug}
      {now arrival : Nat} {approval : ApprovalValidated} (honest : node ∉ faulty)
      (said : network.Said faulty approval.content approval.validator)
      (returned : (network.nodes node).onApproval build now arrival approval stakes = .ok next) :
      Acts build stakes faulty network (network.after node next [] [])
  | timer {network : DoomslugNetwork} {node : Address} {next : SendingDoomslug} {curTime : Nat}
      {added : List ApprovalContent} (honest : node ∉ faulty)
      (returned : (network.nodes node).processTimer build curTime = .ok (next, added))
      (fits : ∀ content ∈ added, content.targetHeight ≠ 0) :
      Acts build stakes faulty network (network.after node next added [])
  | leader {network : DoomslugNetwork} {node : Address} {next : SendingDoomslug}
      {now targetHeight : Nat} {hasEnoughChunks ready : Bool} (honest : node ∉ faulty)
      (returned : (network.nodes node).readyToProduceBlock build now targetHeight
        hasEnoughChunks = .ok (next, ready)) :
      Acts build stakes faulty network (network.after node next []
        (if ready then [⟨(network.nodes node).tip, targetHeight⟩] else []))

/-- What is to happen next. -/
inductive Turn
  | block (node : Address) (now : Nat) (blockHash : CryptoHash) (height lastFinalHeight : Nat)
  | approval (node : Address) (now arrival : Nat) (approval : ApprovalValidated)
  | timer (node : Address) (curTime : Nat)
  | leader (node : Address) (now targetHeight : Nat) (hasEnoughChunks : Bool)

/-- The node whose turn it is. -/
def Turn.node : Turn → Address
  | block node .. | approval node .. | timer node .. | leader node .. => node

/-- One turn, if it is possible. -/
def take (build : Build) (stakes : List (ApprovalStake × Bool)) (faulty : Finset Address)
    (network : DoomslugNetwork) : Turn → Option DoomslugNetwork
  | .block node now blockHash height lastFinalHeight =>
      if (height > (network.nodes node).tip.height ∨ (network.nodes node).tip.height = 0) ∧
          height + 1 < 2 ^ 64 then
        match (network.nodes node).onBlock build now blockHash height lastFinalHeight with
        | .ok next => some (network.after node next [] [])
        | .error _ => none
      else none
  | .approval node now arrival approval =>
      if approval.validator ∉ faulty → approval.content ∈ network.sent approval.validator then
        match (network.nodes node).onApproval build now arrival approval stakes with
        | .ok next => some (network.after node next [] [])
        | .error _ => none
      else none
  | .timer node curTime =>
      match (network.nodes node).processTimer build curTime with
      | .ok (next, added) =>
          if ∀ content ∈ added, content.targetHeight ≠ 0 then
            some (network.after node next added [])
          else none
      | .error _ => none
  | .leader node now targetHeight hasEnoughChunks =>
      match (network.nodes node).readyToProduceBlock build now targetHeight hasEnoughChunks with
      | .ok (next, ready) =>
          some (network.after node next []
            (if ready then [⟨(network.nodes node).tip, targetHeight⟩] else []))
      | .error _ => none

/-- A turn of a node that is not faulty. -/
def play (build : Build) (stakes : List (ApprovalStake × Bool)) (faulty : Finset Address)
    (network : DoomslugNetwork) (turn : Turn) : Option DoomslugNetwork :=
  if turn.node ∈ faulty then none else network.take build stakes faulty turn

variable {stakes : List (ApprovalStake × Bool)} {faulty : Finset Address}
  {network next : DoomslugNetwork}

/-- A turn is a step of the network. -/
theorem Acts.of_take {turn : Turn} (honest : turn.node ∉ faulty)
    (played : network.take build stakes faulty turn = some next) :
    Acts build stakes faulty network next := by
  cases turn with
  | block node now blockHash height lastFinalHeight =>
      rw [take] at played
      split at played
      · rename_i possible
        split at played
        · rename_i doomslug returned
          obtain rfl := Option.some.inj played
          exact .block honest possible.1 possible.2 returned
        · cases played
      · cases played
  | approval node now arrival approval =>
      rw [take] at played
      split at played
      · rename_i sent
        split at played
        · rename_i doomslug returned
          obtain rfl := Option.some.inj played
          exact .approval honest sent returned
        · cases played
      · cases played
  | timer node curTime =>
      rw [take] at played
      split at played
      · rename_i doomslug added returned
        split at played
        · rename_i fits
          obtain rfl := Option.some.inj played
          exact .timer honest returned fits
        · cases played
      · cases played
  | leader node now targetHeight hasEnoughChunks =>
      rw [take] at played
      split at played
      · rename_i doomslug ready returned
        obtain rfl := Option.some.inj played
        exact .leader honest returned
      · cases played

theorem Acts.of_plays {turns : List Turn}
    (played : turns.foldlM (play build stakes faulty) network = some next) :
    Relation.ReflTransGen (Acts build stakes faulty) network next := by
  induction turns generalizing network with
  | nil =>
      obtain rfl := Option.some.inj played
      exact .refl
  | cons turn turns ih =>
      rw [List.foldlM_cons] at played
      obtain ⟨middle, taken, rest⟩ := Option.bind_eq_some_iff.mp played
      rw [play, Option.ite_none_left_eq_some] at taken
      exact .head (.of_take taken.1 taken.2) (ih rest)

/-- The approval that a block needs of its validators. -/
def ReadyBlock.content (block : ReadyBlock) : ApprovalContent :=
  ⟨if block.targetHeight = block.parent.height + 1 then .endorsement block.parent.blockHash
    else .skip block.parent.height, block.targetHeight⟩

/-- The table of stakes by which every tracker counts. -/
abbrev tableOf (stakes : List (ApprovalStake × Bool)) : Stakes :=
  DoomslugApprovalsTrackersAtHeight.accountIdToStakes stakes

/-- What holds of the nodes that are not faulty, and of what they have been ready to make. -/
structure Safe (build : Build) (stakes : List (ApprovalStake × Bool)) (faulty : Finset Address)
    (network : DoomslugNetwork) : Prop where
  votes : ∀ node ∉ faulty, (network.nodes node).Votes (network.sent node)
  sound : ∀ node ∉ faulty, (network.nodes node).toDoomslug.Sound build
  heard : ∀ node ∉ faulty, (network.nodes node).toDoomslug.Heard (tableOf stakes) .twoThirds
    (network.Said faulty)
  elected : ∀ block ∈ network.ready, block.parent.height + 1 < 2 ^ 64 ∧
    Elected (tableOf stakes).weight (tableOf stakes).keys faulty network.sent
      (ReadyBlock.content block)

theorem sent_subset (network : DoomslugNetwork) (node : Address) (next : SendingDoomslug)
    (added : List ApprovalContent) (ready : List ReadyBlock) (validator : Address) :
    network.sent validator ⊆ (network.after node next added ready).sent validator := by
  change network.sent validator ⊆
    Function.update network.sent node (network.sent node ++ added) validator
  rcases eq_or_ne validator node with rfl | differ
  · rw [Function.update_self]
    exact List.subset_append_left _ _
  · rw [Function.update_of_ne differ]
    exact List.Subset.refl _

/-- A call keeps the network safe if it keeps its node so, and blocks are ready by approvals
that have been sent. -/
theorem Safe.after (safe : Safe build stakes faulty network) {node : Address}
    {doomslug : SendingDoomslug} {added : List ApprovalContent} {ready : List ReadyBlock}
    (votes : doomslug.Votes (network.sent node ++ added))
    (sound : doomslug.toDoomslug.Sound build)
    (heard : doomslug.toDoomslug.Heard (tableOf stakes) .twoThirds (network.Said faulty))
    (elected : ∀ block ∈ ready, block.parent.height + 1 < 2 ^ 64 ∧
      Elected (tableOf stakes).weight (tableOf stakes).keys faulty network.sent
        (ReadyBlock.content block)) :
    Safe build stakes faulty (network.after node doomslug added ready) := by
  have grows : ∀ content validator, network.Said faulty content validator →
      (network.after node doomslug added ready).Said faulty content validator :=
    fun content validator said honest => sent_subset network node doomslug added ready validator
      (said honest)
  constructor
  · intro other honest
    simp only [DoomslugNetwork.after]
    rcases eq_or_ne other node with rfl | differ
    · rw [Function.update_self, Function.update_self]
      exact votes
    · rw [Function.update_of_ne differ, Function.update_of_ne differ]
      exact safe.votes other honest
  · intro other honest
    simp only [DoomslugNetwork.after]
    rcases eq_or_ne other node with rfl | differ
    · rw [Function.update_self]
      exact sound
    · rw [Function.update_of_ne differ]
      exact safe.sound other honest
  · intro other honest
    have before : ((network.after node doomslug added ready).nodes other).toDoomslug.Heard
        (tableOf stakes) .twoThirds (network.Said faulty) := by
      simp only [DoomslugNetwork.after]
      rcases eq_or_ne other node with rfl | differ
      · rw [Function.update_self]
        exact heard
      · rw [Function.update_of_ne differ]
        exact safe.heard other honest
    exact before.mono grows
  · intro block mem
    have before : block.parent.height + 1 < 2 ^ 64 ∧
        Elected (tableOf stakes).weight (tableOf stakes).keys faulty network.sent
          (ReadyBlock.content block) := by
      rcases List.mem_append.mp mem with earlier | now
      · exact safe.elected block earlier
      · exact elected block now
    exact before.imp_right fun isElected =>
      isElected.mono (sent_subset network node doomslug added ready)

/-- A leader that is ready has counted a quorum. -/
theorem Safe.elected_of_ready (safe : Safe build stakes faulty network)
    (doubles : (tableOf stakes).Doubles build) {node : Address} (honest : node ∉ faulty)
    {doomslug : SendingDoomslug} {now targetHeight : Nat} {hasEnoughChunks : Bool}
    (returned : (network.nodes node).readyToProduceBlock build now targetHeight
      hasEnoughChunks = .ok (doomslug, true)) :
    (network.nodes node).tip.height + 1 < 2 ^ 64 ∧
      Elected (tableOf stakes).weight (tableOf stakes).keys faulty network.sent
        (ReadyBlock.content ⟨(network.nodes node).tip, targetHeight⟩) := by
  have small := (safe.votes node honest).tip_lt
  refine ⟨small, ?_⟩
  rcases SendingDoomslug.readyToProduceBlock_cases returned with
    ⟨_, otherwise⟩ | ⟨inner, trackers, tracker, readiness, counted, innerEq, tracked, known,
      reported, _, isReady⟩
  · cases otherwise
  have trackerHeard := (safe.heard node honest).heard tracked inner tracker known
  refine ⟨tracker.witness.keys, ((safe.sound node honest tracked).sound known).quorum
    trackerHeard doubles reported (isReady rfl), ?_⟩
  intro voter mem voterHonest
  have said := (trackerHeard.witnessed voter (Finmap.mem_keys.mp mem)).2 voterHonest
  rwa [ApprovalInner.new_eq_ok small innerEq] at said

theorem Safe.acts (safe : Safe build stakes faulty network)
    (doubles : (tableOf stakes).Doubles build)
    (acts : Acts build stakes faulty network next) : Safe build stakes faulty next := by
  have none : ∀ block ∈ ([] : List ReadyBlock), block.parent.height + 1 < 2 ^ 64 ∧
      Elected (tableOf stakes).weight (tableOf stakes).keys faulty network.sent
        (ReadyBlock.content block) :=
    fun block mem => absurd mem List.not_mem_nil
  cases acts with
  | block honest higher small returned =>
      rename_i node doomslug now height lastFinalHeight blockHash
      have votes := (safe.votes node honest).onBlock returned higher small
      rw [← List.append_nil (network.sent node)] at votes
      rcases bind_eq_ok_iff.mp returned with ⟨base, baseEq, finished⟩
      rcases pure_eq_ok_iff.mp finished with rfl
      have sound : base.Sound build := Doomslug.Sound.onBlock (safe.sound node honest) baseEq
      exact safe.after votes sound ((safe.heard node honest).onBlock baseEq) none
  | approval honest said returned =>
      rename_i node doomslug now arrival approval
      rcases bind_eq_ok_iff.mp returned with ⟨base, baseEq, finished⟩
      rcases pure_eq_ok_iff.mp finished with rfl
      have votes := (safe.votes node honest).onApproval returned
      rw [← List.append_nil (network.sent node)] at votes
      have sound : base.Sound build := Doomslug.Sound.onApproval (safe.sound node honest) baseEq
      exact safe.after votes sound ((safe.heard node honest).onApproval said baseEq) none
  | timer honest returned fits =>
      rename_i node doomslug curTime added
      have votes := (safe.votes node honest).processTimerWithin returned fits
      obtain ⟨sameTracking, sameMode⟩ := SendingDoomslug.sameCounts_processTimerWithin returned
      have before := safe.heard node honest
      apply safe.after votes
      · intro height trackers found
        rw [sameTracking] at found
        exact safe.sound node honest found
      · refine ⟨sameMode.trans before.mode_eq, ?_⟩
        intro height trackers found
        rw [sameTracking] at found
        exact before.heard found
      · exact none
  | leader honest returned =>
      rename_i node doomslug now targetHeight hasEnoughChunks ready
      have votes := (safe.votes node honest).readyToProduceBlock returned
      rw [← List.append_nil (network.sent node)] at votes
      apply safe.after votes
        (SendingDoomslug.sound_readyToProduceBlock (safe.sound node honest) returned)
        (SendingDoomslug.heard_readyToProduceBlock (safe.heard node honest) returned)
      intro block mem
      cases ready with
      | false => cases mem
      | true =>
          rcases List.mem_singleton.mp mem with rfl
          exact safe.elected_of_ready doubles honest returned

/-- The nodes as they are started, each with its own settings. -/
def Fresh (nodes : Address → SendingDoomslug) : Prop :=
  ∀ node, ∃ now largestSentTargetHeight endorsementDelay minDelay delayStep maxDelay,
    nodes node = .new now largestSentTargetHeight endorsementDelay minDelay delayStep maxDelay
      .twoThirds

theorem Safe.of_run {nodes : Address → SendingDoomslug} (fresh : Fresh nodes)
    (doubles : (tableOf stakes).Doubles build)
    (run : Relation.ReflTransGen (Acts build stakes faulty) (start nodes) network) :
    Safe build stakes faulty network := by
  induction run with
  | refl =>
      constructor
      · intro node _
        obtain ⟨now, largest, endorsement, least, step, most, isNew⟩ := fresh node
        change (nodes node).Votes []
        rw [isNew]
        exact .new now largest endorsement least step most .twoThirds
      · intro node _ height trackers found
        obtain ⟨now, largest, endorsement, least, step, most, isNew⟩ := fresh node
        change (nodes node).approvalTracking[height]? = some trackers at found
        rw [isNew] at found
        change (∅ : Std.TreeMap Nat DoomslugApprovalsTrackersAtHeight)[height]? = _ at found
        rw [Std.TreeMap.getElem?_emptyc] at found
        cases found
      · intro node _
        obtain ⟨now, largest, endorsement, least, step, most, isNew⟩ := fresh node
        change (nodes node).toDoomslug.Heard _ _ _
        rw [isNew]
        exact Doomslug.Heard.new now
      · intro block mem
        cases mem
  | tail _ acts ih => exact ih.acts doubles acts

/-- The votes of the validators. -/
theorem Safe.election (safe : Safe build stakes faulty network) :
    Election approvalBallot faulty network.sent where
  forward node honest := (safe.votes node honest).forward
  proper node honest := (safe.votes node honest).proper

theorem ReadyBlock.content_parentHeight (block : ReadyBlock) :
    (ReadyBlock.content block).parentHeight = block.parent.height := by
  rw [ReadyBlock.content]
  by_cases isNext : block.targetHeight = block.parent.height + 1
  · rw [if_pos isNext]
    exact Nat.sub_eq_of_eq_add isNext
  · rw [if_neg isNext]
    rfl

theorem ReadyBlock.direct {block : ReadyBlock}
    (isNext : block.targetHeight = block.parent.height + 1) :
    approvalBallot.direct (ReadyBlock.content block) :=
  ⟨block.parent.blockHash, if_pos isNext⟩

/-- A block may be made on top of another one. -/
def Approved (network : DoomslugNetwork) (parent child : DoomslugTip) : Prop :=
  ∃ block ∈ network.ready, block.parent = parent ∧ block.targetHeight = child.height

/-- When a leader may make a block right above another one, nobody can go past the lower one
any more, and no other block can be made on top of something else at that height: this holds in
any order of messages, as long as the faulty validators have no more than a third of the
stake. -/
theorem endorsed_height_in_chain {nodes : Address → SendingDoomslug} (fresh : Fresh nodes)
    (doubles : (tableOf stakes).Doubles build) (few : (tableOf stakes).FewFaulty faulty)
    (run : Relation.ReflTransGen (Acts build stakes faulty) (start nodes) network)
    {block : ReadyBlock} (mem : block ∈ network.ready)
    (endorsed : block.targetHeight = block.parent.height + 1) :
    (∀ other ∈ network.ready, other.targetHeight = block.targetHeight →
      other.parent = block.parent) ∧
    ∀ {chain : List DoomslugTip} {lowest highest : DoomslugTip},
      chain.IsChain network.Approved → chain.head? = some lowest →
      chain.getLast? = some highest → lowest.height ≤ block.parent.height →
      block.parent.height < highest.height →
      ∃ tip ∈ chain, tip.height = block.parent.height := by
  have safe := Safe.of_run fresh doubles run
  have elected := (safe.elected block mem).2
  have direct := ReadyBlock.direct endorsed
  constructor
  · intro other otherMem sameTarget
    have otherElected := (safe.elected other otherMem).2
    have crosses : approvalBallot.target (ReadyBlock.content block) ≤
        approvalBallot.target (ReadyBlock.content other) := Nat.le_of_eq sameTarget.symm
    obtain ⟨below, same | follows⟩ :=
      safe.election.follows few elected otherElected direct crosses
    · have otherNext : other.targetHeight = other.parent.height + 1 := by
        by_contra notNext
        have otherInner := congrArg ApprovalContent.inner same
        simp [ReadyBlock.content, endorsed, notNext] at otherInner
      have sameInner := congrArg ApprovalContent.inner same
      simp only [ReadyBlock.content, if_pos endorsed, if_pos otherNext] at sameInner
      have sameHash := ApprovalInner.endorsement.inj sameInner
      have sameHeight : other.parent.height = block.parent.height := by omega
      cases other with
      | mk parent targetHeight =>
          cases parent
          cases block with
          | mk blockParent blockTarget =>
              cases blockParent
              simp_all
    · -- the other parent is as high as this one, and not as high as the target
      change (ReadyBlock.content other).parentHeight < other.targetHeight at below
      rw [ReadyBlock.content_parentHeight] at below
      have atLeast : (ReadyBlock.content block).parentHeight ≤
          (ReadyBlock.content other).parentHeight := follows.1
      rw [ReadyBlock.content_parentHeight, ReadyBlock.content_parentHeight] at atLeast
      have otherNext : other.targetHeight = other.parent.height + 1 := by omega
      have higher : block.targetHeight < other.targetHeight :=
        follows.2 (ReadyBlock.direct otherNext)
      omega
  · intro chain lowest highest approved begins ends from_ above
    have steps : (chain.map DoomslugTip.height).IsChain fun source target => ∃ vote,
        Elected (tableOf stakes).weight (tableOf stakes).keys faulty network.sent vote ∧
          approvalBallot.source vote = source ∧ approvalBallot.target vote = target := by
      apply List.isChain_map_of_isChain DoomslugTip.height ?_ approved
      rintro parent child ⟨step, stepMem, rfl, targetEq⟩
      exact ⟨_, (safe.elected step stepMem).2, ReadyBlock.content_parentHeight step, targetEq⟩
    have isNext : approvalBallot.target (ReadyBlock.content block) =
        approvalBallot.source (ReadyBlock.content block) + 1 := by
      change block.targetHeight = (ReadyBlock.content block).parentHeight + 1
      rw [ReadyBlock.content_parentHeight, endorsed]
    have heightEq : approvalBallot.source (ReadyBlock.content block) = block.parent.height :=
      ReadyBlock.content_parentHeight block
    rw [← heightEq] at from_ above ⊢
    have begins' : (chain.map DoomslugTip.height).head? = some lowest.height := by
      rw [List.head?_map, begins]
      rfl
    have ends' : (chain.map DoomslugTip.height).getLast? = some highest.height := by
      rw [List.getLast?_map, ends]
      rfl
    exact List.mem_map.mp
      (safe.election.mem_chain few elected direct isNext steps begins' ends' from_ above)

/-! ## Four validators -/

/-- Of four validators the last one is faulty, and approves of two blocks at one height.  The
others endorse two blocks, and the first of them may make one on top of each: it counts its own
approval and those of the second and of the faulty one. -/
def fourTurns : List Turn :=
  [.block 1 0 7 1 0, .block 2 0 7 1 0, .block 3 0 7 1 0, .timer 1 0, .timer 2 0, .timer 3 0,
    .approval 1 0 0 ⟨⟨.endorsement 7, 2⟩, ⟨0, 0, 0⟩, 1⟩,
    .approval 1 0 0 ⟨⟨.endorsement 7, 2⟩, ⟨0, 0, 0⟩, 2⟩,
    .approval 1 0 0 ⟨⟨.endorsement 7, 2⟩, ⟨0, 0, 0⟩, 3⟩, .leader 1 0 2 true,
    .block 1 1 8 2 1, .block 2 1 8 2 1, .timer 1 1, .timer 2 1,
    .approval 3 1 1 ⟨⟨.endorsement 9, 3⟩, ⟨0, 0, 0⟩, 4⟩,
    .approval 1 1 1 ⟨⟨.endorsement 8, 3⟩, ⟨0, 0, 0⟩, 1⟩,
    .approval 1 1 1 ⟨⟨.endorsement 8, 3⟩, ⟨0, 0, 0⟩, 2⟩,
    .approval 1 1 1 ⟨⟨.endorsement 8, 3⟩, ⟨0, 0, 0⟩, 4⟩, .leader 1 1 3 true]

/-- Four validators with a stake of one each. -/
def fourStakes : List (ApprovalStake × Bool) :=
  [(⟨1, 1, 1⟩, false), (⟨2, 1, 1⟩, false), (⟨3, 1, 1⟩, false), (⟨4, 1, 1⟩, false)]

/-- Their doomslugs, before the first block. -/
def fourNodes (_ : Address) : SendingDoomslug := .new 0 0 0 10 1 100 .twoThirds

theorem endorsed_height_in_chain_of_four :
    ∃ network, Relation.ReflTransGen (Acts .release fourStakes {4}) (start fourNodes) network ∧
      network.ready = [⟨⟨7, 1⟩, 2⟩, ⟨⟨8, 2⟩, 3⟩] ∧
      (∀ other ∈ network.ready, other.targetHeight = 3 → other.parent = ⟨8, 2⟩) ∧
      ∃ tip ∈ [(⟨7, 1⟩ : DoomslugTip), ⟨8, 2⟩, ⟨9, 3⟩], tip.height = 2 := by
  have played : (fourTurns.foldlM (play .release fourStakes {4}) (start fourNodes)).map
      DoomslugNetwork.ready = some [⟨⟨7, 1⟩, 2⟩, ⟨⟨8, 2⟩, 3⟩] := by decide +kernel
  obtain ⟨network, playedEq, readyEq⟩ := Option.map_eq_some_iff.mp played
  have run := Acts.of_plays playedEq
  have fresh : Fresh fourNodes := fun node => ⟨0, 0, 0, 10, 1, 100, rfl⟩
  have doubles : (tableOf fourStakes).Doubles .release := by
    constructor <;> exact .inr (by decide +kernel)
  have few : (tableOf fourStakes).FewFaulty {4} := by
    rw [Stakes.FewFaulty]
    decide +kernel
  have mem : (⟨⟨8, 2⟩, 3⟩ : ReadyBlock) ∈ network.ready := by
    rw [readyEq]
    decide
  obtain ⟨unique, inChain⟩ := endorsed_height_in_chain fresh doubles few run mem rfl
  have approved : [(⟨7, 1⟩ : DoomslugTip), ⟨8, 2⟩, ⟨9, 3⟩].IsChain network.Approved := by
    refine .cons_cons ⟨⟨⟨7, 1⟩, 2⟩, ?_, rfl, rfl⟩ (.cons_cons ⟨⟨⟨8, 2⟩, 3⟩, mem, rfl, rfl⟩
      (.singleton _))
    rw [readyEq]
    decide
  exact ⟨network, run, readyEq, unique, inChain approved rfl rfl (by decide) (by decide)⟩

end DoomslugNetwork

end

end Ciphera.Node
