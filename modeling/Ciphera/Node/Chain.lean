import Ciphera.Node.Commit
import Ciphera.Lib.Lifecycle

/-!
# Runs of committed blocks

A node starts with an empty store and an empty tree and commits blocks one
after the other: each is validated, then written to the store, then applied to
the tree.  Whole runs are related to the registry of items that are created once
and consumed once: the tree holds the live commitments, and the index of
outputs in the store knows all that were ever created.
-/

namespace Ciphera.Node

open Ciphera.Lib Ciphera.Noir Ciphera.Smirk Ciphera.Zk

/-- What a node keeps of the chain. -/
structure Chain where
  store : Store
  notesTree : PersistentMerkleTree

namespace Chain

/-- Nothing is stored and the tree is empty. -/
def genesis : Chain := ⟨{}, emptyTree⟩

/-- `commit_proposal`.  The store is written first, so a block that the tree
refuses stays in the store. -/
def commitProposal (poseidon : Poseidon) (keccak : Keccak) (tempNoir : Bool) (chain : Chain)
    (block : Block) (commitTime : Nat) : Chain × Result Unit :=
  if block.content.state.removeLeaves.any fun inputCommitment =>
      !chain.notesTree.tree.containsElement inputCommitment then
    (chain, .error (.panic "Double-spend detected -> input note NOT in tree"))
  else
    let store := chain.store.set (BlockFormat.indexing poseidon keccak) (.v2 block (some commitTime))
    match applyBlockToTree poseidon tempNoir chain.notesTree block.content.state
        block.content.header.height with
    | .ok notesTree => (⟨store, notesTree⟩, .ok ())
    | .error stop => (⟨store, chain.notesTree⟩, .error stop)

variable (poseidon : Poseidon) (keccak : Keccak) (verify : Verify) (tempNoir : Bool)

/-- A block with the time of its commit is validated and committed. -/
def Step (chain : Chain) (commit : Block × Nat) (next : Chain) : Prop :=
  commit.1.content.validate poseidon verify chain.store chain.notesTree = .ok () ∧
    chain.commitProposal poseidon keccak tempNoir commit.1 commit.2 = (next, .ok ())

/-- The non-zero commitments that the commits of a run insert into the tree. -/
def inserted (commits : List (Block × Nat)) : List Element :=
  commits.flatMap fun commit => commit.1.content.state.insertLeaves

/-- The non-zero commitments that the commits of a run remove from the tree. -/
def removed (commits : List (Block × Nat)) : List Element :=
  commits.flatMap fun commit => commit.1.content.state.removeLeaves

variable {poseidon keccak verify tempNoir}

/-- A committed block is in the store and its commitments are in the tree. -/
theorem commitProposal_eq_ok_iff {chain next : Chain} {block : Block} {commitTime : Nat} :
    chain.commitProposal poseidon keccak tempNoir block commitTime = (next, .ok ()) ↔
      (∀ leaf ∈ block.content.state.removeLeaves, leaf ∈ chain.notesTree.tree.entries) ∧
        next.store = chain.store.set (BlockFormat.indexing poseidon keccak)
          (.v2 block (some commitTime)) ∧
        applyBlockToTree poseidon tempNoir chain.notesTree block.content.state
          block.content.header.height = .ok next.notesTree := by
  have presentIff : (¬(block.content.state.removeLeaves.any fun leaf =>
      !chain.notesTree.tree.containsElement leaf) = true) ↔
        ∀ leaf ∈ block.content.state.removeLeaves, leaf ∈ chain.notesTree.tree.entries := by
    simp [Tree.containsElement_iff]
  rw [commitProposal, ← presentIff]
  split_ifs with missing
  · simp [missing]
  · cases applied : applyBlockToTree poseidon tempNoir chain.notesTree block.content.state
        block.content.header.height with
    | error stop => simp
    | ok notesTree =>
        obtain ⟨nextStore, nextTree⟩ := next
        constructor
        · intro committed
          cases committed
          exact ⟨missing, rfl, rfl⟩
        · rintro ⟨_, storeEq, treeEq⟩
          cases storeEq
          cases treeEq
          rfl

/-- The chain as a registry of commitments. -/
def registry (chain : Chain) : Registry Element where
  live := {element | element ∈ chain.notesTree.tree.entries}
  known := {element | chain.store.Recorded element}

/-- A commit as a round of the registry. -/
def round (commit : Block × Nat) : Round Element where
  creates := commit.1.content.state.insertLeaves
  consumes := commit.1.content.state.removeLeaves

@[simp]
theorem registry_genesis : genesis.registry = Registry.empty := by
  simp only [registry, genesis, Registry.empty, not_mem_emptyTree, BlockStore.not_recorded_empty]
  rfl

/-- A step of the chain is a step of the registry. -/
theorem Step.registry_step {chain next : Chain} {commit : Block × Nat}
    (step : Step poseidon keccak verify tempNoir chain commit next) :
    chain.registry.Step (round commit) next.registry := by
  obtain ⟨validated, committed⟩ := step
  have valid := validate_eq_ok_iff.mp validated
  obtain ⟨_, storeEq, applied⟩ := commitProposal_eq_ok_iff.mp committed
  constructor
  · exact valid.distinct
  · exact fun item mem => (valid.insertLeaf_valid mem).2
  · exact fun item mem => (valid.removeLeaf_valid mem).2
  · exact fun item => mem_of_applyBlockToTree applied item
  · intro item
    change next.store.Recorded item ↔ _
    rw [storeEq, BlockFormat.recorded_set_iff]
    rfl

/-- Over every run a commitment enters the tree at most once, leaves it at most
once and in a later block than it entered, and the tree holds exactly those
that entered and did not leave. -/
theorem commitments_spent_once {commits : List (Block × Nat)} {chain : Chain}
    (run : Run (Step poseidon keccak verify tempNoir) genesis commits chain) :
    (inserted commits).Nodup ∧ (removed commits).Nodup ∧
      (∀ (index : Nat) (commit : Block × Nat), commits[index]? = some commit →
        ∀ leaf ∈ commit.1.content.state.removeLeaves,
          ∃ earlier < index, ∃ creator : Block × Nat, commits[earlier]? = some creator ∧
            leaf ∈ creator.1.content.state.insertLeaves) ∧
      ∀ element, element ∈ chain.notesTree.tree.entries ↔
        element ∈ inserted commits ∧ element ∉ removed commits := by
  have history := Registry.history_of_run registry round registry_genesis
    (fun _ _ _ taken => taken.registry_step) run
  have createdEq : Registry.created (commits.map round) = inserted commits := by
    simp [Registry.created, inserted, List.flatMap_map, round]
  have consumedEq : Registry.consumed (commits.map round) = removed commits := by
    simp [Registry.consumed, removed, List.flatMap_map, round]
  refine ⟨createdEq ▸ history.createdOnce, consumedEq ▸ history.consumedOnce, ?_, ?_⟩
  · intro index commit found leaf mem
    obtain ⟨earlier, earlierLt, creator, creatorEq, made⟩ :=
      history.consumedLater index (round commit) (by simp [found]) leaf mem
    rw [List.getElem?_map, Option.map_eq_some_iff] at creatorEq
    obtain ⟨creator, creatorEq, rfl⟩ := creatorEq
    exact ⟨earlier, earlierLt, creator, creatorEq, made⟩
  · intro element
    rw [← createdEq, ← consumedEq]
    exact history.live_iff element

/-- A valid block with one output, on a free slot, commits. -/
theorem exists_step_output {chain : Chain} {height : Nat} {rootHash leaf : Element}
    (keccak : Keccak) (tempNoir : Bool) (signature : Signature) (commitTime : Nat)
    (wellFormed : chain.notesTree.tree.WellFormed (merge poseidon))
    (validated : (outputBlock height rootHash leaf).validate poseidon verify chain.store
      chain.notesTree = .ok ())
    (free : ¬chain.notesTree.tree.Collides (outputBlock height rootHash leaf).state.insertLeaves) :
    ∃ next, Step poseidon keccak verify tempNoir chain
      (⟨outputBlock height rootHash leaf, signature⟩, commitTime) next := by
  obtain ⟨notesTree, applied, _⟩ :=
    (validate_eq_ok_iff.mp validated).commits tempNoir wellFormed free
  refine ⟨⟨_, notesTree⟩, validated, commitProposal_eq_ok_iff.mpr ⟨?_, rfl, applied⟩⟩
  rw [removeLeaves_outputBlock]
  exact fun leaf mem => absurd mem List.not_mem_nil

/-- A first block with one output, under any signature, commits. -/
theorem exists_run_firstOutput (poseidon : Poseidon) (keccak : Keccak)
    (sign : BlockContent → Signature) :
    ∃ rootHash chain,
      Run (Step poseidon keccak (fun _ => true) false) genesis
        [(⟨outputBlock 1 rootHash 1, sign (outputBlock 1 rootHash 1)⟩, 0)] chain := by
  have nonzero : (1 : Element) ≠ Element.ZERO := by decide
  have txnValid : TxnValid (fun _ => true) genesis.store genesis.notesTree (outputTxn 1) :=
    outputTxn_valid rfl (by decide) (not_mem_emptyTree 1) (BlockStore.not_recorded_empty 1)
  obtain ⟨rootHash, validated⟩ := exists_outputBlock_validate 1
    (show emptyTree.tree.WellFormed (merge poseidon) from emptyTree_wellFormed) txnValid nonzero
  have wellFormed : genesis.notesTree.tree.WellFormed (merge poseidon) := emptyTree_wellFormed
  obtain ⟨chain, taken⟩ := exists_step_output keccak false (sign (outputBlock 1 rootHash 1)) 0
    wellFormed validated (not_collides_emptyTree _)
  exact ⟨rootHash, chain, .snoc .nil taken⟩

/-- A chain whose first block creates one commitment. -/
theorem firstOutput_live :
    ∃ rootHash chain,
      Run (Step (fun _ => 0) (fun _ => 0) (fun _ => true) false) genesis
          [(⟨outputBlock 1 rootHash 1, ⟨0, 0, 0⟩⟩, 0)] chain ∧
        (1 : Element) ∈ chain.notesTree.tree.entries := by
  have nonzero : (1 : Element) ≠ Element.ZERO := by decide
  obtain ⟨rootHash, chain, run⟩ :=
    exists_run_firstOutput (fun _ => 0) (fun _ => 0) fun _ => ⟨0, 0, 0⟩
  refine ⟨rootHash, chain, run, ?_⟩
  obtain ⟨_, _, _, live_iff⟩ := commitments_spent_once run
  rw [live_iff, inserted, removed, List.flatMap_singleton, List.flatMap_singleton,
    insertLeaves_outputBlock nonzero, removeLeaves_outputBlock]
  simp

end Chain

end Ciphera.Node
