import Ciphera.Lib.Run
import Ciphera.Node.Eviction
import Ciphera.Node.Peers
import Ciphera.Node.Replica

/-!
# The worker that catches up

A node that misses blocks tells its sync worker the highest height it has seen.  Such a
message waits in a channel while the node moves on, and when the worker comes to it, it
subtracts from the height in the message the height that the node has by then.

As long as the node has not passed that height, the subtraction is exact, and a fast
snapshot is only asked for by a node that is further behind than the threshold.  A node
that has passed it, and is out of sync again for another block, wraps around: it then takes
itself to be as far behind as can be.
-/

namespace Ciphera.Node

open Ciphera.Lib Ciphera.Noir Ciphera.Zk

/-! ## The worker -/

/-- The two kinds of provers. -/
def Mode.isProver : Mode → Bool
  | .prover | .mockProver => true
  | .validator | .node => false

/-- What the worker is built with. -/
structure SyncConfig where
  chunkSize : Nat
  fastSyncThreshold : Nat
  nodeMode : Mode
  overflowChecks : Bool

namespace SyncConfig

/-- The subtraction of 64-bit integers: a build with overflow checks panics, another one
wraps around. -/
def sub (config : SyncConfig) (first second : Nat) : Except String Nat :=
  if second ≤ first then .ok (first - second)
  else if config.overflowChecks then .error "attempt to subtract with overflow"
  else .ok (first + 2 ^ 64 - second)

/-- `far_enough_to_try_fast_sync` -/
def farEnough (config : SyncConfig) (maxSeenHeight height : Nat) : Except String Bool :=
  (config.sub maxSeenHeight height).map fun behind => behind > config.fastSyncThreshold

/-- The height that is asked for, and the kind of the snapshot.  The contract is asked for
its height only by a prover that is far behind, and may not answer. -/
def target (config : SyncConfig) (fromHeight : Nat) (far : Bool) (contractHeight : Option Nat) :
    Nat × SnapshotKind :=
  let toHeight := (fromHeight + config.chunkSize) % 2 ^ 64
  if config.nodeMode.isProver && far then
    match contractHeight with
    | some contractHeight =>
        if contractHeight > toHeight then (contractHeight, .fast) else (toHeight, .slow)
    | none => (toHeight, .slow)
  else (toHeight, .slow)

end SyncConfig

/-- A comparison of heights: the height of the message, and what the cache had then. -/
structure Measure where
  maxSeenHeight : Nat
  height : Nat
  maxHeight : Nat
  deriving DecidableEq, Repr

/-- The snapshot that was asked for, and the comparison that led to it. -/
structure SnapshotRequest where
  fromHeight : Nat
  toHeight : Nat
  kind : SnapshotKind
  measure : Measure
  deriving DecidableEq, Repr

namespace SyncWorker

/-- How far the worker has come with a message.  It reads the node anew each time. -/
inductive Stage
  | idle
  | received (maxSeenHeight : Nat)
  | outOfSync (maxSeenHeight : Nat)
  | starting (maxSeenHeight fromHeight : Nat)
  | measured (fromHeight : Nat) (far : Bool) (measure : Measure)
  | waiting
  | stopped
  deriving DecidableEq, Repr

/-- The cache of the node, the tasks that have found it out of sync and not yet said so,
their messages, the worker, and what it has compared and asked for. -/
structure System where
  cache : BlockCache
  reporters : Nat := 0
  channel : List Nat := []
  stage : Stage := .idle
  measures : List Measure := []
  requests : List SnapshotRequest := []

/-- What happens at a node while its worker runs, in any order. -/
inductive Event
  | node (op : BlockCache.Op)
  | notice
  | report
  | take
  | check
  | start
  | measure
  | request (contractHeight : Option Nat)
  | discard
  | resume

/-- The system after an event, if it can happen. -/
def System.step (keccak : Keccak) (config : SyncConfig) (system : System) : Event → Option System
  -- any other task of the node
  | .node op => some { system with cache := system.cache.apply keccak op }
  -- `is_out_of_sync` of a tick or after a slow chunk, and the message that follows
  | .notice =>
      match system.cache.isOutOfSync with
      | .ok true => some { system with reporters := system.reporters + 1 }
      | _ => none
  | .report =>
      match system.reporters with
      | 0 => none
      | reporters + 1 =>
          some { system with reporters, channel := system.channel ++ [system.cache.maxHeight] }
  -- `wait_for_out_of_sync`
  | .take =>
      match system.stage, system.channel with
      | .idle, maxSeenHeight :: channel =>
          some { system with channel, stage := .received maxSeenHeight }
      | _, _ => none
  -- `handle_out_of_sync`, up to the next time it reads the node
  | .check =>
      match system.stage with
      | .received maxSeenHeight =>
          match system.cache.isOutOfSync with
          | .ok true => some { system with stage := .outOfSync maxSeenHeight }
          | .ok false => some { system with stage := .idle }
          | .error _ => some { system with stage := .stopped }
      | _ => none
  | .start =>
      match system.stage with
      | .outOfSync maxSeenHeight =>
          some { system with stage := .starting maxSeenHeight (nextHeight system.cache.height) }
      | _ => none
  | .measure =>
      match system.stage with
      | .starting maxSeenHeight fromHeight =>
          let measure := ⟨maxSeenHeight, system.cache.height, system.cache.maxHeight⟩
          let measures := system.measures ++ [measure]
          match config.farEnough maxSeenHeight system.cache.height with
          | .ok far => some { system with measures, stage := .measured fromHeight far measure }
          | .error _ => some { system with measures, stage := .stopped }
      | _ => none
  | .request contractHeight =>
      match system.stage with
      | .measured fromHeight far measure =>
          let (toHeight, kind) := config.target fromHeight far contractHeight
          some { system with
            stage := .waiting
            requests := system.requests ++ [⟨fromHeight, toHeight, kind, measure⟩] }
      | _ => none
  -- waiting for an offer or a chunk throws other messages away
  | .discard =>
      match system.stage, system.channel with
      | .waiting, _ :: channel => some { system with channel }
      | _, _ => none
  | .resume =>
      match system.stage with
      | .waiting => some { system with stage := .idle }
      | _ => none

/-- The message that the worker is about to subtract from is not behind the node. -/
def System.Fresh (system : System) : Event → Prop
  | .measure => ∀ maxSeenHeight fromHeight, system.stage = .starting maxSeenHeight fromHeight →
      system.cache.height ≤ maxSeenHeight
  | _ => True

/-- No subtraction has gone below zero, and every fast snapshot was asked for by a node that
was further behind the highest height it had seen than the threshold. -/
structure System.Sound (config : SyncConfig) (system : System) : Prop where
  measures : ∀ measure ∈ system.measures, measure.height ≤ measure.maxSeenHeight
  requests : ∀ request ∈ system.requests, request.kind = .fast →
    request.measure.height + config.fastSyncThreshold < request.measure.maxHeight

/-- A node that has just started. -/
def System.new (keccak : Keccak) (startBlock : Block) (maxCacheSize : Nat) : System :=
  { cache := BlockCache.new keccak startBlock maxCacheSize }

end SyncWorker

/-! ## The highest height seen -/

namespace BlockCache

variable (keccak : Keccak) (cache : BlockCache)

@[simp]
theorem maxHeight_remove (hash : CryptoHash) : (cache.remove hash).maxHeight = cache.maxHeight := by
  unfold remove
  split <;> rfl

@[simp]
theorem maxHeight_confirm (height : Nat) : (cache.confirm height).maxHeight = cache.maxHeight := by
  have fold : ∀ (heights : List Nat) (cache : BlockCache),
      (heights.foldl forget cache).maxHeight = cache.maxHeight := by
    intro heights
    induction heights with
    | nil => exact fun _ => rfl
    | cons first rest ih =>
        intro cache
        rw [List.foldl_cons, ih]
        unfold forget
        split <;> rfl
  exact fold _ _

theorem maxHeight_le_insert (block : Block) :
    cache.maxHeight ≤ (cache.insert keccak block).maxHeight := by
  unfold insert
  dsimp only
  split_ifs
  · exact le_rfl
  · exact Nat.le_max_left _ _
  · change cache.maxHeight ≤ (remove _ _).maxHeight
    rw [maxHeight_remove]
    exact Nat.le_max_left _ _
  · exact Nat.le_max_left _ _

/-- The highest height seen never falls. -/
theorem maxHeight_le_apply (op : Op) : cache.maxHeight ≤ (cache.apply keccak op).maxHeight := by
  cases op with
  | insert block => exact cache.maxHeight_le_insert keccak block
  | confirm height => exact (cache.maxHeight_confirm height).ge
  | remove hash => exact (cache.maxHeight_remove hash).ge

end BlockCache

/-! ## The other tasks of the node -/

namespace NodeShared

variable {Key S : Type} {poseidon : Poseidon} {keccak : Keccak} {verify : Verify}
  {secp : Secp256k1 Key} {tempNoir : Bool} {node next : NodeShared Key S}

theorem CatchUp.exists_ops {commitTime : Nat} {blocks : List Block}
    (loop : node.CatchUp poseidon keccak verify secp tempNoir commitTime blocks next) :
    ∃ ops, next.blockCache = node.blockCache.run keccak ops := by
  induction loop with
  | stop => exact ⟨[], rfl⟩
  | @drop node next block blocks error _ _ _ ih =>
      rcases ih with ⟨ops, reached⟩
      exact ⟨.remove (block.hash keccak) :: ops, reached⟩
  | @commit node middle next block blocks _ _ done _ ih =>
      rcases ih with ⟨ops, reached⟩
      refine ⟨.confirm block.content.header.height :: ops, ?_⟩
      rw [reached, (commitProposal_frame done).2]
      rfl
  | @fail node next block stop _ _ failed =>
      refine ⟨[.confirm block.content.header.height], ?_⟩
      rw [(commitProposal_frame failed).2]
      rfl

variable (poseidon keccak) in
theorem exists_ops_receiveProposal (node : NodeShared Key S) (block : Block) :
    ∃ ops, (node.receiveProposal poseidon keccak block).1.blockCache =
      node.blockCache.run keccak ops := by
  unfold receiveProposal
  split_ifs
  · exact ⟨[], rfl⟩
  · exact ⟨[.insert block], rfl⟩

variable (poseidon keccak tempNoir) in
theorem exists_ops_handleSnapshotChunkFast (node : NodeShared Key S) (chunk : SnapshotChunkFast) :
    ∃ ops, (node.handleSnapshotChunkFast poseidon keccak tempNoir chunk).1.blockCache =
      node.blockCache.run keccak ops := by
  unfold handleSnapshotChunkFast
  split
  · exact ⟨[], rfl⟩
  · rename_i block _
    split
    · exact ⟨[], rfl⟩
    · rcases exists_ops_receiveProposal poseidon keccak
        { node with
          chain := { node.chain with notesTree := _ }
          blockCache := node.blockCache.confirm (prevHeight block.content.header.height) }
        block with ⟨ops, reached⟩
      exact ⟨.confirm (prevHeight block.content.header.height) :: ops, reached⟩

theorem Ticked.exists_ops {commitTime : Nat} {blocks : List Block}
    (ticked : node.Ticked poseidon keccak verify secp tempNoir commitTime blocks next) :
    ∃ ops, next.blockCache = node.blockCache.run keccak ops := by
  cases ticked with
  | idle _ same _ => exact ⟨[], same⟩
  | @proposed next block _ _ _ _ _ cache =>
      exact ⟨[.insert block, .confirm block.content.header.height], cache⟩
  | caughtUp _ loop => exact loop.exists_ops

end NodeShared

/-- Whatever happens to a node, its cache changes by insertions, confirmations and removals. -/
theorem Replica.exists_ops {Key S : Type} (poseidon : Poseidon) (keccak : Keccak) (verify : Verify)
    (secp : Secp256k1 Key) (tempNoir : Bool) (replica : Replica Key S) (event : Event S) :
    ∃ ops, (replica.step poseidon keccak verify secp tempNoir event).node.blockCache =
      replica.node.blockCache.run keccak ops := by
  have kept : ∀ result : Result (NodeMempool S),
      (replica.keep result).node.blockCache = replica.node.blockCache := by
    intro result
    cases result <;> rfl
  cases event with
  | submit contract utxo sender => exact ⟨[], kept _⟩
  | gossip contract txn => exact ⟨[], kept _⟩
  | receive block => exact replica.node.exists_ops_receiveProposal poseidon keccak block
  | tick contract commitTime =>
      exact (NodeShared.ticked_tick replica.node contract commitTime).exists_ops
  | snapshot chunk =>
      exact replica.node.exists_ops_handleSnapshotChunkFast poseidon keccak tempNoir chunk

/-! ## Sound measures -/

namespace SyncConfig

variable (config : SyncConfig)

@[simp]
theorem sub_of_le {first second : Nat} (enough : second ≤ first) :
    config.sub first second = .ok (first - second) :=
  if_pos enough

@[simp]
theorem farEnough_of_le {maxSeenHeight height : Nat} (fresh : height ≤ maxSeenHeight) :
    config.farEnough maxSeenHeight height =
      .ok (decide (maxSeenHeight - height > config.fastSyncThreshold)) := by
  rw [farEnough, config.sub_of_le fresh]
  rfl

/-- A fast snapshot is asked for only by a prover that is far behind. -/
theorem far_of_target_fast {fromHeight : Nat} {far : Bool} {contractHeight : Option Nat}
    (fast : (config.target fromHeight far contractHeight).2 = .fast) :
    config.nodeMode.isProver = true ∧ far = true := by
  unfold target at fast
  dsimp only at fast
  split_ifs at fast with behind
  exact Bool.and_eq_true_iff.mp behind

end SyncConfig

namespace SyncWorker

/-- The message that the worker has in hand. -/
def Stage.message : Stage → Option Nat
  | .received maxSeenHeight => some maxSeenHeight
  | .outOfSync maxSeenHeight => some maxSeenHeight
  | .starting maxSeenHeight _ => some maxSeenHeight
  | .idle | .measured _ _ _ | .waiting | .stopped => none

/-- The node has seen the height of every message, and what the worker has found out about
the distance is true. -/
structure System.Tracked (config : SyncConfig) (system : System) : Prop
    extends system.Sound config where
  queued : ∀ message ∈ system.channel, message ≤ system.cache.maxHeight
  inHand : ∀ message, system.stage.message = some message → message ≤ system.cache.maxHeight
  measured : ∀ fromHeight measure, system.stage = .measured fromHeight true measure →
    measure.height + config.fastSyncThreshold < measure.maxHeight

variable {keccak : Keccak} {config : SyncConfig} {system next : System} {event : Event}

theorem tracked_new (keccak : Keccak) (config : SyncConfig) (startBlock : Block)
    (maxCacheSize : Nat) : (System.new keccak startBlock maxCacheSize).Tracked config where
  measures _ mem := absurd mem List.not_mem_nil
  requests _ mem := absurd mem List.not_mem_nil
  queued _ mem := absurd mem List.not_mem_nil
  inHand _ none := by cases none
  measured _ _ stage := by cases stage

/-- Whatever other tasks do, the height of a message has been seen. -/
theorem System.Tracked.node (tracked : system.Tracked config) (keccak : Keccak)
    (op : BlockCache.Op) :
    ({ system with cache := system.cache.apply keccak op } : System).Tracked config := by
  have grows := system.cache.maxHeight_le_apply keccak op
  constructor
  · exact ⟨tracked.measures, tracked.requests⟩
  · exact fun message mem => (tracked.queued message mem).trans grows
  · exact fun message held => (tracked.inHand message held).trans grows
  · exact tracked.measured

/-- A fresh message is subtracted from, and its height is one that the node has seen. -/
theorem System.Tracked.measure {maxSeenHeight fromHeight : Nat} (tracked : system.Tracked config)
    (stage : system.stage = .starting maxSeenHeight fromHeight)
    (fresh : system.cache.height ≤ maxSeenHeight)
    (taken : system.step keccak config .measure = some next) : next.Tracked config := by
  have seen := tracked.inHand maxSeenHeight (by rw [stage]; rfl)
  simp only [step, stage, config.farEnough_of_le fresh, Option.some.injEq] at taken
  subst taken
  constructor
  · constructor
    · intro measure mem
      rcases List.mem_append.mp mem with old | new
      · exact tracked.measures measure old
      · rw [List.mem_singleton.mp new]
        exact fresh
    · exact tracked.requests
  · exact tracked.queued
  · intro message held
    cases held
  · intro start measure isMeasured
    simp only [Stage.measured.injEq, decide_eq_true_eq] at isMeasured
    rcases isMeasured with ⟨_, behind, rfl⟩
    dsimp only
    omega

theorem System.Tracked.request {fromHeight : Nat} {far : Bool} {measure : Measure}
    {contractHeight : Option Nat} (tracked : system.Tracked config)
    (stage : system.stage = .measured fromHeight far measure)
    (taken : system.step keccak config (.request contractHeight) = some next) :
    next.Tracked config := by
  simp only [step, stage, Option.some.injEq] at taken
  subst taken
  constructor
  · constructor
    · exact tracked.measures
    · intro request mem fast
      rcases List.mem_append.mp mem with old | new
      · exact tracked.requests request old fast
      · rw [List.mem_singleton.mp new] at fast ⊢
        have isFar := (config.far_of_target_fast fast).2
        exact tracked.measured fromHeight measure (isFar ▸ stage)
  · exact tracked.queued
  · intro message held
    cases held
  · intro start other isMeasured
    cases isMeasured

/-- What happens without a comparison or a request: the messages that come are heights that the
node has seen, and the one that is taken in hand comes from the channel. -/
structure System.GoesOn (system next : System) : Prop where
  cache : next.cache = system.cache
  measures : next.measures = system.measures
  requests : next.requests = system.requests
  queued : ∀ message ∈ next.channel,
    message ∈ system.channel ∨ message = system.cache.maxHeight
  inHand : ∀ message, next.stage.message = some message →
    system.stage.message = some message ∨ message ∈ system.channel
  unmeasured : ∀ fromHeight measure, next.stage = .measured fromHeight true measure →
    system.stage = .measured fromHeight true measure

theorem System.Tracked.goOn (tracked : system.Tracked config) (goesOn : system.GoesOn next) :
    next.Tracked config where
  measures := by
    rw [goesOn.measures]
    exact tracked.measures
  requests := by
    rw [goesOn.requests]
    exact tracked.requests
  queued := by
    intro message mem
    rw [goesOn.cache]
    rcases goesOn.queued message mem with old | new
    · exact tracked.queued message old
    · exact new.le
  inHand := by
    intro message held
    rw [goesOn.cache]
    rcases goesOn.inHand message held with old | taken
    · exact tracked.inHand message old
    · exact tracked.queued message taken
  measured fromHeight measure isMeasured :=
    tracked.measured fromHeight measure (goesOn.unmeasured fromHeight measure isMeasured)

/-- The worker enters a stage with the message that it has in hand, or without one. -/
theorem System.GoesOn.of_stage {stage : Stage}
    (inHand : ∀ message, stage.message = some message → system.stage.message = some message)
    (unmeasured : ∀ fromHeight measure, stage ≠ .measured fromHeight true measure) :
    system.GoesOn { system with stage } where
  cache := rfl
  measures := rfl
  requests := rfl
  queued _ mem := .inl mem
  inHand message held := .inl (inHand message held)
  unmeasured fromHeight measure isMeasured := absurd isMeasured (unmeasured fromHeight measure)

theorem System.goesOn_notice (taken : system.step keccak config .notice = some next) :
    system.GoesOn next := by
  simp only [System.step] at taken
  split at taken
  · rw [← Option.some.inj taken]
    exact ⟨rfl, rfl, rfl, fun _ mem => .inl mem, fun _ held => .inl held, fun _ _ same => same⟩
  · cases taken

theorem System.goesOn_report (taken : system.step keccak config .report = some next) :
    system.GoesOn next := by
  simp only [System.step] at taken
  split at taken
  · cases taken
  · rw [← Option.some.inj taken]
    refine ⟨rfl, rfl, rfl, fun message mem => ?_, fun _ held => .inl held, fun _ _ same => same⟩
    rcases List.mem_append.mp mem with old | new
    · exact .inl old
    · exact .inr (List.mem_singleton.mp new)

theorem System.goesOn_take (taken : system.step keccak config .take = some next) :
    system.GoesOn next := by
  simp only [System.step] at taken
  split at taken
  · rename_i maxSeenHeight channel _ channelEq
    rw [← Option.some.inj taken]
    refine ⟨rfl, rfl, rfl, fun message mem => ?_, fun message held => ?_, fun _ _ same => ?_⟩
    · rw [channelEq]
      exact .inl (List.mem_cons_of_mem _ mem)
    · rw [channelEq, ← Option.some.inj held]
      exact .inr List.mem_cons_self
    · cases same
  · cases taken

theorem System.goesOn_check (taken : system.step keccak config .check = some next) :
    system.GoesOn next := by
  simp only [System.step] at taken
  split at taken
  · rename_i maxSeenHeight stageEq
    split at taken
    · rw [← Option.some.inj taken]
      apply GoesOn.of_stage
      · intro message held
        rw [stageEq]
        exact held
      · simp
    · rw [← Option.some.inj taken]
      exact GoesOn.of_stage (by simp [Stage.message]) (by simp)
    · rw [← Option.some.inj taken]
      exact GoesOn.of_stage (by simp [Stage.message]) (by simp)
  · cases taken

theorem System.goesOn_start (taken : system.step keccak config .start = some next) :
    system.GoesOn next := by
  simp only [System.step] at taken
  split at taken
  · rename_i maxSeenHeight stageEq
    rw [← Option.some.inj taken]
    apply GoesOn.of_stage
    · intro message held
      rw [stageEq]
      exact held
    · simp
  · cases taken

theorem System.goesOn_discard (taken : system.step keccak config .discard = some next) :
    system.GoesOn next := by
  simp only [System.step] at taken
  split at taken
  · rename_i channelEq
    rw [← Option.some.inj taken]
    refine ⟨rfl, rfl, rfl, fun message mem => ?_, fun _ held => .inl held, fun _ _ same => same⟩
    rw [channelEq]
    exact .inl (List.mem_cons_of_mem _ mem)
  · cases taken

theorem System.goesOn_resume (taken : system.step keccak config .resume = some next) :
    system.GoesOn next := by
  simp only [System.step] at taken
  split at taken
  · rw [← Option.some.inj taken]
    exact GoesOn.of_stage (by simp [Stage.message]) (by simp)
  · cases taken

theorem System.Tracked.step (tracked : system.Tracked config) (fresh : system.Fresh event)
    (taken : system.step keccak config event = some next) : next.Tracked config := by
  cases event with
  | node op =>
      rw [← Option.some.inj taken]
      exact tracked.node keccak op
  | notice => exact tracked.goOn (system.goesOn_notice taken)
  | report => exact tracked.goOn (system.goesOn_report taken)
  | take => exact tracked.goOn (system.goesOn_take taken)
  | check => exact tracked.goOn (system.goesOn_check taken)
  | start => exact tracked.goOn (system.goesOn_start taken)
  | measure =>
      cases stageEq : system.stage with
      | starting maxSeenHeight fromHeight =>
          exact tracked.measure stageEq (fresh maxSeenHeight fromHeight stageEq) taken
      | _ => simp [System.step, stageEq] at taken
  | request contractHeight =>
      cases stageEq : system.stage with
      | measured fromHeight far measure => exact tracked.request stageEq taken
      | _ => simp [System.step, stageEq] at taken
  | discard => exact tracked.goOn (system.goesOn_discard taken)
  | resume => exact tracked.goOn (system.goesOn_resume taken)

/-- As long as the node has not passed the message that the worker subtracts from, no
subtraction goes below zero, and only a node that is far behind asks for a fast snapshot. -/
theorem sound_of_fresh_run {startBlock : Block} {maxCacheSize : Nat} {events : List Event}
    (run : Run (fun system event next =>
        system.Fresh event ∧ system.step keccak config event = some next)
      (System.new keccak startBlock maxCacheSize) events system) :
    system.Sound config := by
  have tracked : system.Tracked config := by
    induction run with
    | nil => exact tracked_new keccak config startBlock maxCacheSize
    | snoc _ taken ih => exact ih.step taken.1 taken.2
  exact tracked.toSound

/-! ## Handling one message -/

theorem isOutOfSync_of_missing {cache : BlockCache} (known missing : Nat)
    (present : known ∈ cache.blockHashHeights) (above : cache.height < missing)
    (seen : missing ≤ cache.maxHeight) (absent : missing ∉ cache.blockHashHeights) :
    cache.isOutOfSync = .ok true := by
  rcases Option.isSome_iff_exists.mp (Std.TreeMap.isSome_maxKey?_of_mem present) with
    ⟨last, greatest⟩
  have inRange : missing ∈ List.range' (cache.height + 1) (cache.maxHeight - cache.height) := by
    rw [List.mem_range'_1]
    omega
  have found : (List.range' (cache.height + 1) (cache.maxHeight - cache.height)).any
      (fun height => !cache.blockHashHeights.contains height) = true := by
    rw [List.any_eq_true]
    refine ⟨missing, inRange, ?_⟩
    rwa [Bool.not_eq_true', ← Bool.not_eq_true, Std.TreeMap.contains_iff_mem]
  simp only [BlockCache.isOutOfSync, greatest, found, Bool.or_true]

section

variable {allowed : System → Event → Prop}
  (others : ∀ system event, event ≠ .measure → allowed system event)
  {cache : BlockCache} {reporters maxHeight : Nat} {channel : List Nat} {stage : Stage}
  {measures : List Measure} {requests : List SnapshotRequest}

include others

/-- Other tasks of the node work on the cache. -/
theorem run_ops (ops : List BlockCache.Op) :
    Run (fun system event next =>
        allowed system event ∧ system.step keccak config event = some next)
      ⟨cache, reporters, channel, stage, measures, requests⟩ (ops.map Event.node)
      ⟨cache.run keccak ops, reporters, channel, stage, measures, requests⟩ := by
  induction ops using List.reverseRecOn with
  | nil => exact .nil
  | append_singleton ops op ih =>
      rw [List.map_append, BlockCache.run_snoc]
      exact .snoc ih ⟨others _ (.node op) (by simp), rfl⟩

variable (missing : cache.isOutOfSync = .ok true) (greatest : cache.maxHeight = maxHeight)

include missing greatest

/-- A node that is out of sync says so. -/
theorem run_report :
    Run (fun system event next =>
        allowed system event ∧ system.step keccak config event = some next)
      ⟨cache, reporters, channel, stage, measures, requests⟩ [.notice, .report]
      ⟨cache, reporters, channel ++ [maxHeight], stage, measures, requests⟩ := by
  subst greatest
  have noticed : System.step keccak config
      ⟨cache, reporters, channel, stage, measures, requests⟩ .notice =
        some ⟨cache, reporters + 1, channel, stage, measures, requests⟩ := by
    simp only [System.step, missing]
  refine .snoc (.snoc .nil ⟨others _ .notice (by simp), noticed⟩) ?_
  exact ⟨others _ .report (by simp), rfl⟩

/-- The worker takes a message, compares heights and asks for a snapshot. -/
theorem run_request {message height fromHeight toHeight : Nat} {far : Bool}
    {contractHeight : Option Nat} {kind : SnapshotKind} (heightEq : cache.height = height)
    (next : nextHeight height = fromHeight) (distance : config.farEnough message height = .ok far)
    (target : config.target fromHeight far contractHeight = (toHeight, kind))
    (mayMeasure : allowed ⟨cache, reporters, channel, .starting message fromHeight, measures,
      requests⟩ .measure) :
    Run (fun system event next =>
        allowed system event ∧ system.step keccak config event = some next)
      ⟨cache, reporters, message :: channel, .idle, measures, requests⟩
      [.take, .check, .start, .measure, .request contractHeight]
      ⟨cache, reporters, channel, .waiting, measures ++ [⟨message, height, maxHeight⟩],
        requests ++ [⟨fromHeight, toHeight, kind, ⟨message, height, maxHeight⟩⟩]⟩ := by
  subst greatest heightEq next
  have checked : System.step keccak config
      ⟨cache, reporters, channel, .received message, measures, requests⟩ .check =
        some ⟨cache, reporters, channel, .outOfSync message, measures, requests⟩ := by
    simp only [System.step, missing]
  have measured : System.step keccak config
      ⟨cache, reporters, channel, .starting message (nextHeight cache.height), measures, requests⟩
        .measure = some ⟨cache, reporters, channel,
          .measured (nextHeight cache.height) far ⟨message, cache.height, cache.maxHeight⟩,
          measures ++ [⟨message, cache.height, cache.maxHeight⟩], requests⟩ := by
    simp only [System.step, distance]
  have requested : System.step keccak config
      ⟨cache, reporters, channel,
        .measured (nextHeight cache.height) far ⟨message, cache.height, cache.maxHeight⟩,
        measures ++ [⟨message, cache.height, cache.maxHeight⟩], requests⟩
        (.request contractHeight) = some ⟨cache, reporters, channel, .waiting,
          measures ++ [⟨message, cache.height, cache.maxHeight⟩],
          requests ++ [⟨nextHeight cache.height, toHeight, kind,
            ⟨message, cache.height, cache.maxHeight⟩⟩]⟩ := by
    simp only [System.step, target]
  have toStart : Run (fun system event next =>
        allowed system event ∧ system.step keccak config event = some next)
      ⟨cache, reporters, message :: channel, .idle, measures, requests⟩ [.take, .check]
      ⟨cache, reporters, channel, .outOfSync message, measures, requests⟩ :=
    .snoc (.snoc .nil ⟨others _ .take (by simp), rfl⟩) ⟨others _ .check (by simp), checked⟩
  refine .snoc (.snoc (.snoc toStart ⟨others _ .start (by simp), rfl⟩) ⟨mayMeasure, measured⟩) ?_
  exact ⟨others _ (.request contractHeight) (by simp), requested⟩

end

/-- A prover that asks for a fast snapshot when it is more than five blocks behind. -/
def prover : SyncConfig where
  chunkSize := 1
  fastSyncThreshold := 5
  nodeMode := .prover
  overflowChecks := false

/-- A node at the start of the chain, and its cache when it has been told of the ninth block. -/
def start : System := System.new BlockCache.mixing (BlockCache.emptyAt 0 0) 10000

/-- The cache after a block at height nine. -/
def told : BlockCache := start.cache.insert BlockCache.mixing (BlockCache.emptyAt 9 0)

/-- A fast snapshot brings the tenth block, and the node is told of the thirteenth. -/
def movingOn : List BlockCache.Op :=
  [.confirm 9, .insert (BlockCache.emptyAt 10 0), .confirm 10, .insert (BlockCache.emptyAt 13 0)]

/-- The cache after the node has moved on. -/
def moved : BlockCache := told.run BlockCache.mixing movingOn

@[simp]
theorem isOutOfSync_told : told.isOutOfSync = .ok true := by
  apply isOutOfSync_of_missing 0 1 <;> decide +kernel

@[simp]
theorem isOutOfSync_moved : moved.isOutOfSync = .ok true := by
  apply isOutOfSync_of_missing 10 11 <;> decide +kernel

/-- What the prover does when it is first told of the ninth block. -/
theorem run_first {allowed : System → Event → Prop}
    (others : ∀ system event, event ≠ .measure → allowed system event)
    (mayMeasure : ∀ system fromHeight, system.cache = told →
      system.stage = .starting 9 fromHeight → allowed system .measure) :
    ∃ events, Run (fun system event next =>
        allowed system event ∧ system.step BlockCache.mixing prover event = some next)
      start events
      ⟨told, 0, [], .waiting, [⟨9, 0, 9⟩], [⟨1, 10, .fast, ⟨9, 0, 9⟩⟩]⟩ := by
  have heard : Run (fun system event next =>
        allowed system event ∧ system.step BlockCache.mixing prover event = some next)
      start [.node (.insert (BlockCache.emptyAt 9 0))] ⟨told, 0, [], .idle, [], []⟩ :=
    .snoc .nil ⟨others _ _ (by simp), rfl⟩
  have height : told.height = 0 := by decide +kernel
  have maxHeight : told.maxHeight = 9 := by decide +kernel
  exact ⟨_, (heard.trans (run_report others isOutOfSync_told maxHeight)).trans
    (run_request others isOutOfSync_told maxHeight height rfl rfl
      (show prover.target 1 true (some 10) = _ from rfl) (mayMeasure _ _ rfl rfl))⟩

/-- A message that is handled at once. -/
theorem first_message_sound :
    ∃ events, Run (fun system event next =>
        system.Fresh event ∧ system.step BlockCache.mixing prover event = some next)
      start events ⟨told, 0, [], .waiting, [⟨9, 0, 9⟩], [⟨1, 10, .fast, ⟨9, 0, 9⟩⟩]⟩ ∧
      System.Sound prover
        ⟨told, 0, [], .waiting, [⟨9, 0, 9⟩], [⟨1, 10, .fast, ⟨9, 0, 9⟩⟩]⟩ := by
  have others : ∀ (system : System) event, event ≠ .measure → system.Fresh event := by
    intro system event differs
    cases event <;> trivial
  have fresh : ∀ (system : System) fromHeight, system.cache = told →
      system.stage = .starting 9 fromHeight → system.Fresh .measure := by
    intro system fromHeight cacheEq stageEq maxSeenHeight other same
    rw [cacheEq, show told.height = 0 by decide +kernel]
    exact Nat.zero_le _
  rcases run_first others fresh with ⟨events, run⟩
  exact ⟨events, run, sound_of_fresh_run run⟩

/-- A message of which the node has passed the height when it is handled: three blocks
behind, the prover asks for a fast snapshot. -/
theorem passed_message_wraps :
    ∃ events, Run (fun system event next =>
        system.step BlockCache.mixing prover event = some next) start events
      ⟨moved, 0, [], .waiting, [⟨9, 0, 9⟩, ⟨9, 10, 13⟩],
        [⟨1, 10, .fast, ⟨9, 0, 9⟩⟩, ⟨11, 20, .fast, ⟨9, 10, 13⟩⟩]⟩ ∧
      ¬System.Sound prover ⟨moved, 0, [], .waiting, [⟨9, 0, 9⟩, ⟨9, 10, 13⟩],
        [⟨1, 10, .fast, ⟨9, 0, 9⟩⟩, ⟨11, 20, .fast, ⟨9, 10, 13⟩⟩]⟩ := by
  have others : ∀ (system : System) (event : Event), event ≠ .measure → True :=
    fun _ _ _ => trivial
  rcases run_first others fun _ _ _ _ => trivial with ⟨events, requested⟩
  have height : moved.height = 10 := by decide +kernel
  have maxHeight : moved.maxHeight = 13 := by decide +kernel
  -- a second message comes while the snapshot is on its way
  have reported := requested.trans (run_report others isOutOfSync_told
    (show told.maxHeight = 9 by decide +kernel))
  have movedOn : Run (fun system event next =>
        True ∧ system.step BlockCache.mixing prover event = some next) start _
      ⟨moved, 0, [9], .waiting, [⟨9, 0, 9⟩], [⟨1, 10, .fast, ⟨9, 0, 9⟩⟩]⟩ :=
    reported.trans (run_ops others movingOn)
  have resume : ∀ cache, System.step BlockCache.mixing prover
      ⟨cache, 0, [9], .waiting, [⟨9, 0, 9⟩], [⟨1, 10, .fast, ⟨9, 0, 9⟩⟩]⟩ .resume =
        some ⟨cache, 0, [9], .idle, [⟨9, 0, 9⟩], [⟨1, 10, .fast, ⟨9, 0, 9⟩⟩]⟩ := fun _ => rfl
  have resumed := movedOn.snoc ⟨trivial, resume moved⟩
  have requestedAgain := resumed.trans (run_request others isOutOfSync_moved maxHeight height
    (show nextHeight 10 = 11 by decide)
    (show prover.farEnough 9 10 = .ok true by decide +kernel)
    (show prover.target 11 true (some 20) = _ from rfl) trivial)
  refine ⟨_, requestedAgain.mono fun _ _ _ taken => taken.2, ?_⟩
  intro sound
  have fresh := sound.measures ⟨9, 10, 13⟩ (by simp)
  exact absurd fresh (by decide)

end SyncWorker

end Ciphera.Node
