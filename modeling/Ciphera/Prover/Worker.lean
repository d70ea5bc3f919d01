import Ciphera.Node.Recovery
import Ciphera.Noir.AggAgg
import Ciphera.Prover.Packing
import Ciphera.Prover.Prove
import Ciphera.Prover.Rollup

/-!
# The worker of a prover

A prover follows its own node.  Its worker has a notes tree of its own and a record
of the block that it has seen last, in two databases.  It goes through the blocks
that the node commits, and through the stored ones before them, and stores a rollup
for each block that it has to prove.  The process may stop between any two writes;
on restart the record is compared with the tree, and if they differ then the worker
starts again from nothing.
-/

namespace Ciphera.Prover

open Ciphera.Lib Ciphera.Noir Ciphera.Smirk Ciphera.Zk
open Ciphera.Node (MERKLE_TREE_DEPTH PersistentMerkleTree Block BlockFormat Store Mode Progress
  applyBlockToTree emptyTree)

/-- How far the prover has come. -/
structure LastSeenBlock where
  height : Nat
  rootHash : Element
  deriving DecidableEq, Repr

/-- What the prover has on its disk. -/
structure ProverDb where
  lastSeenBlock : Option LastSeenBlock := none
  rollups : Std.TreeMap Nat RollupInput := ∅

/-- The record of a worker that has seen nothing. -/
def LastSeenBlock.nothing (poseidon : Poseidon) : LastSeenBlock where
  height := 0
  rootHash := emptyTreeHash (Node.merge poseidon) MERKLE_TREE_DEPTH

/-- How far the prover has come, or nowhere on a fresh disk. -/
def ProverDb.getLastSeenBlock (poseidon : Poseidon) (proverStateDb : ProverDb) : LastSeenBlock :=
  proverStateDb.lastSeenBlock.getD (.nothing poseidon)

/-- The two databases of the worker. -/
structure Disk where
  proverStateDb : ProverDb := {}
  notesTree : PersistentMerkleTree := emptyTree

/-- A write to one of the databases.  A tree that has been deleted is empty when it is
loaded again. -/
inductive Write
  | setLastSeenBlock (lastSeenBlock : LastSeenBlock)
  | setRollup (height : Nat) (value : RollupInput)
  | insertBatch (changed : PersistentMerkleTree)
  | deleteSmirk

/-- The disk after one write. -/
def Disk.write (disk : Disk) : Write → Disk
  | .setLastSeenBlock lastSeenBlock =>
      { disk with
        proverStateDb := { disk.proverStateDb with lastSeenBlock := some lastSeenBlock } }
  | .setRollup height value =>
      { disk with
        proverStateDb :=
          { disk.proverStateDb with
            rollups := disk.proverStateDb.rollups.insert height value } }
  | .insertBatch changed => { disk with notesTree := changed }
  | .deleteSmirk => { disk with notesTree := emptyTree }

/-! ## Proving a block -/

/-- Why the worker stops. -/
inductive WorkerError
  | node (stop : Stop Node.Error)
  | prover (stop : Stop CollisionError)
  | barretenbergProve (message : String)
  | panic (message : String)
  | rootMismatch (got expected : Element)
  | proverTreeRootDoesNotMatchBlockStateRoot (proverTree blockTree : Element)
  deriving DecidableEq, Repr

/-- The mode of the worker, and the heights that it passes over. -/
structure ProverConfig where
  mode : Mode
  badBlocks : List Nat

/-- What the worker finds outside: whether the database of the provers lets it have the
block, and the hashes that are cached with its tree. -/
structure Outside where
  weAreTheProverForThisBlock : Bool
  hashCache : SimpleHashCache

/-- The roots among the public inputs of a proof. -/
structure AggAggRoots where
  oldRoot : Element
  newRoot : Element
  deriving DecidableEq, Repr

/-- The roots of an aggregation as the second circuit chains them. -/
def AggUtxoPublicInput.transition (inputs : AggUtxoPublicInput) : AggAgg.UtxoAggProof where
  proof := Vector.replicate 508 0
  oldRoot := inputs.oldRoot.toBase
  newRoot := inputs.newRoot.toBase
  commitHash := 0

/-- `AggAgg::prove`, as far as the roots go: they must chain, and are read back from
the field. -/
def proveAggAgg (first second : AggUtxoPublicInput) : Except WorkerError AggAggRoots := do
  let root ← ([first, second].foldlM
    (fun root inputs => AggAgg.applyTransition root inputs.transition)
      first.oldRoot.toBase).mapError .barretenbergProve
  check ((newRoot first second).toBase = root) (.barretenbergProve "Roots must match")
  pure ⟨.fromBase first.oldRoot.toBase, .fromBase (newRoot first second).toBase⟩

section

variable (poseidon : Poseidon) (keccak : Keccak) (tempNoir : Bool) (config : ProverConfig)

/-- Both aggregations of a block, and the roots that lead over it. -/
def prove (tree : NotesTree) (commit : Block) : Except WorkerError AggAggRoots := do
  let (first, second) ← (generateAggregateProof poseidon tempNoir commit.content.header.height
    tree commit.content.state.txns).mapError .prover
  proveAggAgg (publicInputs first) (publicInputs second)

/-- The proof of a block, or what stands for it in `MockProver` mode. -/
def proof (outside : Outside) (notesTree : PersistentMerkleTree) (commit : Block) :
    Except WorkerError AggAggRoots :=
  match config.mode with
  | .mockProver => do
      let _ ← (mockMessages commit.content.state.txns).mapError .panic
      pure ⟨notesTree.tree.rootHash (Node.merge poseidon), commit.content.state.rootHash⟩
  | _ => prove poseidon tempNoir ⟨notesTree.tree, outside.hashCache⟩ commit

/-- The record of a block that has been seen. -/
def seen (commit : Block) : Write :=
  .setLastSeenBlock ⟨commit.content.header.height, commit.content.state.rootHash⟩

/-- What the worker writes for a block, and how it ends. -/
abbrev Effect := List Write × Except WorkerError Unit

/-- A block without a proof of ours only changes the tree. -/
def passCommit (disk : Disk) (commit : Block) : Effect :=
  match applyBlockToTree poseidon tempNoir disk.notesTree commit.content.state
      commit.content.header.height with
  | .error stop => ([], .error (.node stop))
  | .ok notesTree => ([.insertBatch notesTree, seen commit], .ok ())

/-- A proved block is stored as a rollup before it changes the tree. -/
def proveCommit (outside : Outside) (disk : Disk) (commit nextCommit : Block) : Effect :=
  match proof poseidon tempNoir config outside disk.notesTree commit with
  | .error error => ([], .error error)
  | .ok roots =>
      if roots.newRoot ≠ commit.content.state.rootHash then
        ([], .error (.rootMismatch roots.newRoot commit.content.state.rootHash))
      else
        let rollup : Write := .setRollup commit.content.header.height
          (rollupInput keccak roots.oldRoot commit nextCommit)
        match applyBlockToTree poseidon tempNoir disk.notesTree commit.content.state
            commit.content.header.height with
        | .error stop => ([rollup], .error (.node stop))
        | .ok notesTree =>
            ([rollup, .insertBatch notesTree, seen commit],
              if commit.content.state.rootHash ≠ notesTree.tree.rootHash (Node.merge poseidon) then
                .error (.proverTreeRootDoesNotMatchBlockStateRoot
                  (notesTree.tree.rootHash (Node.merge poseidon)) commit.content.state.rootHash)
              else .ok ())

/-! ## The worker -/

/-- Where the worker stands.  While it runs it remembers the height of the contract at
its start; a worker that listens has asked for the commits from a height on and waits
for the first one. -/
inductive Worker
  | stopped
  | syncing (initialContractBlockHeight : Nat)
  | listening (initialContractBlockHeight fromHeight : Nat)
  | following (initialContractBlockHeight fromHeight : Nat) (stream : List Block)

/-- `fetch_blocks` from the lowest to the highest block of a range. -/
def fetchBlocks (store : Store) (fromHeight maxExclusive : Nat) : List Block :=
  (store.blocks.toList.filter fun entry =>
    fromHeight ≤ entry.1 && entry.1 < maxExclusive).map fun entry => entry.2.intoBlock

/-- `commit_stream`: the first commit that is heard is preceded by the stored blocks. -/
def Worker.hear (store : Store) (commit : Block) : Worker → Worker
  | .listening initial fromHeight =>
      .following initial fromHeight
        ((fetchBlocks store fromHeight commit.content.header.height ++ [commit]).filter
          fun block => fromHeight ≤ block.content.header.height)
  | .following initial fromHeight stream =>
      .following initial fromHeight
        (stream ++ [commit].filter fun block => fromHeight ≤ block.content.header.height)
  | .stopped => .stopped
  | .syncing initial => .syncing initial

/-- What the worker does next: its writes, where it stands after them, and the height
of the block that it leaves to another prover, if there is one. -/
structure Plan where
  writes : List Write
  worker : Worker
  left : List Nat := []

/-- The worker goes on, or stops with an error. -/
def Plan.of (effect : Effect) (worker : Worker) (left : List Nat) : Plan where
  writes := effect.1
  worker :=
    match effect.2 with
    | .ok _ => worker
    | .error _ => .stopped
  left := left

/-- The loop body of `run_prover_worker` for the first block of the stream.  To prove a
block the worker waits for the next one, which carries the approvals. -/
def planCommit (outside : Outside) (disk : Disk) (initial fromHeight : Nat) (commit : Block)
    (rest : List Block) : Plan :=
  let height := commit.content.header.height
  let worker := Worker.following initial fromHeight rest
  if commit.content.state.txns.isEmpty then .of ([seen commit], .ok ()) worker []
  else if height ≤ initial || config.badBlocks.contains height then
    .of (passCommit poseidon tempNoir disk commit) worker []
  else if !outside.weAreTheProverForThisBlock then
    .of (passCommit poseidon tempNoir disk commit) worker [height]
  else
    match rest with
    | [] => ⟨[], .following initial fromHeight [commit], []⟩
    | nextCommit :: _ =>
        .of (proveCommit poseidon keccak tempNoir config outside disk commit nextCommit) worker []

/-- `run_prover_worker`, one step after the other. -/
def plan (outside : Outside) (contractHeight : Nat) (disk : Disk) : Worker → Plan
  | .stopped => ⟨[], .syncing contractHeight, []⟩
  | .syncing initial =>
      let lastSeenBlock := disk.proverStateDb.getLastSeenBlock poseidon
      if lastSeenBlock.rootHash ≠ disk.notesTree.tree.rootHash (Node.merge poseidon) then
        ⟨[.setLastSeenBlock (.nothing poseidon), .deleteSmirk], .stopped, []⟩
      else ⟨[], .listening initial (lastSeenBlock.height + 1), []⟩
  | .listening initial fromHeight => ⟨[], .listening initial fromHeight, []⟩
  | .following initial fromHeight [] => ⟨[], .following initial fromHeight [], []⟩
  | .following initial fromHeight (commit :: rest) =>
      planCommit poseidon keccak tempNoir config outside disk initial fromHeight commit rest

end

/-! ## The old root of a proof -/

section

variable {poseidon : Poseidon} {tempNoir : Bool} {tree changed : NotesTree}
  {aggregation : AggUtxo} {currentBlock : Nat}

/-- An aggregation starts from the root of the tree. -/
theorem oldRoot_of_aggregateUtxo {utxos : List UtxoProof}
    (done : aggregateUtxo poseidon tempNoir currentBlock tree utxos =
      .ok (changed, some aggregation)) :
    aggregation.oldRoot = tree.tree.rootHash (Node.merge poseidon) := by
  unfold aggregateUtxo at done
  split_ifs at done with padding
  · cases pure_eq_ok_iff.mp done
  · rcases bind_eq_ok_iff.mp done with ⟨⟨next, bundles⟩, _, finished⟩
    cases pure_eq_ok_iff.mp finished
    rfl

theorem applyTransition_of_padding {proof : AggAgg.UtxoAggProof} (root : Base)
    (padding : proof.oldRoot = 0) : AggAgg.applyTransition root proof = .ok root :=
  if_neg (not_not.mpr padding)

theorem oldRoot_of_applyTransition {proof : AggAgg.UtxoAggProof} {root next : Base}
    (chained : AggAgg.applyTransition root proof = .ok next) :
    proof.oldRoot = 0 ∨ proof.oldRoot = root := by
  by_cases padding : proof.oldRoot = 0
  · exact .inl padding
  · rw [AggAgg.applyTransition, if_pos padding] at chained
    rcases bind_eq_ok_iff.mp chained with ⟨_, continues, _⟩
    exact .inr (check_eq_ok_iff.mp continues)

/-- Nothing but padding chains with a first group of padding. -/
theorem newRoot_of_padding {second : AggUtxoPublicInput} {roots : AggAggRoots}
    (canonical : second.oldRoot.toBase = 0 → second.oldRoot = Element.ZERO)
    (proved : proveAggAgg {} second = .ok roots) : roots.newRoot = Element.ZERO := by
  simp only [proveAggAgg, bind_eq_ok_iff, mapError_eq_ok_iff, check_eq_ok_iff,
    pure_eq_ok_iff, List.foldlM_cons, List.foldlM_nil] at proved
  rcases proved with ⟨_, ⟨middle, firstChained, last, secondChained, _⟩, _, _, rfl⟩
  rw [applyTransition_of_padding _ rfl] at firstChained
  cases firstChained
  have padding : second.oldRoot.toBase = 0 := by
    rcases oldRoot_of_applyTransition secondChained with padding | continues
    · exact padding
    · exact continues
  have isPadding : second.isPadding = true := decide_eq_true (canonical padding)
  rw [newRoot, isPadding]
  rfl

/-- What is read back from the field is zero only as the word zero. -/
theorem oldRoot_publicInputs_eq_zero {result : Option AggUtxo}
    (zero : (publicInputs result).oldRoot.toBase = 0) :
    (publicInputs result).oldRoot = Element.ZERO := by
  cases result with
  | none => rfl
  | some aggregation =>
      rw [publicInputs, Element.toBase_fromBase] at zero
      rw [publicInputs, zero]
      rfl

variable {config : ProverConfig} {outside : Outside} {notesTree : PersistentMerkleTree}
  {commit : Block} {roots : AggAggRoots}

/-- A proof that leads to a root other than zero starts from the root of the tree. -/
theorem oldRoot_of_prove (wellFormed : tree.tree.WellFormed (Node.merge poseidon))
    (proved : prove poseidon tempNoir tree commit = .ok roots)
    (nonzero : roots.newRoot ≠ Element.ZERO) :
    roots.oldRoot = tree.tree.rootHash (Node.merge poseidon) := by
  simp only [prove, bind_eq_ok_iff, mapError_eq_ok_iff, Prod.exists] at proved
  rcases proved with ⟨first, second, generated, chained⟩
  simp only [generateAggregateProof, bind_eq_ok_iff, pure_eq_ok_iff, Prod.exists] at generated
  rcases generated with ⟨_, _, middle, first', firstDone, _, second', _, same⟩
  cases same
  cases first with
  | none => exact absurd (newRoot_of_padding oldRoot_publicInputs_eq_zero chained) nonzero
  | some aggregation =>
      simp only [proveAggAgg, bind_eq_ok_iff, pure_eq_ok_iff] at chained
      rcases chained with ⟨_, _, _, _, rfl⟩
      rw [publicInputs, Element.toBase_fromBase, oldRoot_of_aggregateUtxo firstDone,
        wellFormed.rootHash_eq, fromBase_toBase_root]

theorem oldRoot_of_proof (wellFormed : notesTree.tree.WellFormed (Node.merge poseidon))
    (proved : proof poseidon tempNoir config outside notesTree commit = .ok roots)
    (nonzero : roots.newRoot ≠ Element.ZERO) :
    roots.oldRoot = notesTree.tree.rootHash (Node.merge poseidon) := by
  unfold proof at proved
  split at proved
  · rcases bind_eq_ok_iff.mp proved with ⟨_, _, done⟩
    cases pure_eq_ok_iff.mp done
    rfl
  · exact oldRoot_of_prove wellFormed proved nonzero

end

/-! ## The prover and its node -/

/-- A node in prover mode with its worker.  The height of the contract grows as
rollups are settled, by whichever prover. -/
structure ProverNode where
  progress : Progress
  disk : Disk
  worker : Worker
  contractHeight : Nat
  left : List Nat

namespace ProverNode

/-- A prover that has never run. -/
def start : ProverNode where
  progress := .start
  disk := {}
  worker := .stopped
  contractHeight := 0
  left := []

/-- The worker does what it has planned. -/
def carryOut (prover : ProverNode) (plan : Plan) : ProverNode :=
  { prover with
    disk := plan.writes.foldl Disk.write prover.disk
    worker := plan.worker
    left := prover.left ++ plan.left }

/-- The worker stops after some of the writes that it has planned. -/
def breakOff (prover : ProverNode) (plan : Plan) (count : Nat) : ProverNode :=
  { prover with
    disk := (plan.writes.take count).foldl Disk.write prover.disk
    worker := .stopped
    left := prover.left ++ plan.left }

/-- The worker hears of commits, does not notice snapshots, and stops with the node. -/
def afterNode (prover : ProverNode) (progress : Progress) : Progress.Event → ProverNode
  | .commit block _ =>
      { prover with progress, worker := prover.worker.hear progress.chain.store block }
  | .snapshot _ _ => { prover with progress }
  | .restart _ _ _ => { prover with progress, worker := .stopped }

/-- What may happen: an event of the node, a rollup that is settled, a step of the
worker, or a stop of the worker in the middle of a step. -/
inductive Event
  | node (event : Progress.Event)
  | settle (height : Nat)
  | advance (outside : Outside)
  | stop (outside : Outside) (count : Nat)

/-- The node commits blocks of the chain only. -/
def OnChain (commits : List (Block × Nat)) : Progress.Event → Prop
  | .commit block _ => ∃ commit ∈ commits, commit.1 = block
  | .snapshot _ _ => True
  | .restart block _ point => point = .beforeStore ∨ ∃ commit ∈ commits, commit.1 = block

variable (poseidon : Poseidon) (keccak : Keccak) (tempNoir : Bool) (config : ProverConfig)

/-- The effect of an event, where `commits` is the chain.  When the worker begins to
listen is left open: that the node is in sync by then excludes some of the cases. -/
inductive Step (commits : List (Block × Nat)) : ProverNode → Event → ProverNode → Prop
  | node {prover : ProverNode} {event : Progress.Event} {progress : Progress} :
      OnChain commits event →
      Progress.Step poseidon keccak tempNoir prover.progress event progress →
      Step commits prover (.node event) (prover.afterNode progress event)
  | settle {prover : ProverNode} {height : Nat} :
      prover.contractHeight ≤ height →
      Step commits prover (.settle height) { prover with contractHeight := height }
  | advance {prover : ProverNode} {outside : Outside} :
      Step commits prover (.advance outside)
        (prover.carryOut (plan poseidon keccak tempNoir config outside prover.contractHeight
          prover.disk prover.worker))
  | stop {prover : ProverNode} {outside : Outside} {count : Nat} :
      Step commits prover (.stop outside count)
        (prover.breakOff (plan poseidon keccak tempNoir config outside prover.contractHeight
          prover.disk prover.worker) count)

end ProverNode

end Ciphera.Prover
