import Ciphera.Node.Chain
import Ciphera.Smirk.HashCache

/-!
# The history of a chain

What a node finds in its tree and in its store after it has committed a numbered
sequence of blocks: the tree has the root that the last block announces, every
element carries the height of the block that inserted it, and every block is
stored at its height.
-/

namespace Ciphera.Node

open Ciphera.Lib Ciphera.Noir Ciphera.Smirk Ciphera.Zk

/-- The metadata of an element after a block. -/
theorem getElem?_of_applyBlockToTree {poseidon : Poseidon} {tempNoir : Bool}
    {notesTree after : PersistentMerkleTree} {state : BlockState} {currentHeight : Nat}
    (applied : applyBlockToTree poseidon tempNoir notesTree state currentHeight = .ok after)
    (element : Element) :
    after.tree.entries[element]? =
      if element ∈ state.removeLeaves then none
      else if element ∈ state.insertLeaves then some ⟨currentHeight⟩
      else notesTree.tree.entries[element]? := by
  rcases applyBlockToTree_eq_ok_iff.mp applied with ⟨_, inserted⟩
  rw [Persistent.insertBatch] at inserted
  split at inserted
  · rename_i empty
    obtain rfl := pure_eq_ok_iff.mp inserted
    rcases (state.isEmpty_batch currentHeight).mp empty with ⟨noInserts, noRemoves⟩
    simp [noInserts, noRemoves]
  · rcases bind_eq_ok_iff.mp inserted with ⟨tree, changed, done⟩
    obtain rfl := pure_eq_ok_iff.mp done
    rw [Tree.entries_of_insertBatch changed, Tree.entriesAfter, getElem?_foldl_erase]
    simp only [BlockState.batch, List.foldl_map]
    have looked := getElem?_foldl_insert id (SmirkMetadata.mk currentHeight) state.insertLeaves
      notesTree.tree.entries element
    rw [List.map_id] at looked
    exact if_congr Iff.rfl rfl looked

namespace Chain

variable {poseidon : Poseidon} {keccak : Keccak} {verify : Verify} {tempNoir : Bool}
  {chain next : Chain} {commit : Block × Nat} {commits : List (Block × Nat)}

/-- The blocks are numbered upwards from a height. -/
def Numbered (first : Nat) (commits : List (Block × Nat)) : Prop :=
  ∀ index commit, commits[index]? = some commit →
    commit.1.content.header.height = first + index

@[simp]
theorem numbered_append_iff {first : Nat} {earlier later : List (Block × Nat)} :
    Numbered first (earlier ++ later) ↔
      Numbered first earlier ∧ Numbered (first + earlier.length) later := by
  constructor
  · intro numbered
    constructor
    · intro index commit found
      apply numbered
      rw [List.getElem?_append_left (List.getElem?_eq_some_iff.mp found).1, found]
    · intro index commit found
      rw [Nat.add_assoc]
      apply numbered
      rw [List.getElem?_append_right (Nat.le_add_right _ _), Nat.add_sub_cancel_left, found]
  · rintro ⟨earlierNumbered, laterNumbered⟩ index commit found
    by_cases within : index < earlier.length
    · rw [List.getElem?_append_left within] at found
      exact earlierNumbered index commit found
    · rw [List.getElem?_append_right (Nat.le_of_not_lt within)] at found
      have height := laterNumbered _ commit found
      omega

@[simp]
theorem numbered_singleton_iff {first : Nat} :
    Numbered first [commit] ↔ commit.1.content.header.height = first := by
  constructor
  · intro numbered
    exact numbered 0 commit rfl
  · intro height index other found
    match index, found with
    | 0, found =>
        obtain rfl := Option.some.inj found
        exact height

/-! ## Blocks without commitments -/

/-- A valid block without commitments extends the chain and leaves its tree alone. -/
theorem exists_step_leafless (keccak : Keccak) (tempNoir : Bool) {chain : Chain} {block : Block}
    (commitTime : Nat)
    (valid : BlockValid poseidon verify chain.store chain.notesTree block.content)
    (leaves : block.content.state.insertLeaves = [] ∧ block.content.state.removeLeaves = []) :
    ∃ next, Step poseidon keccak verify tempNoir chain (block, commitTime) next ∧
      next.notesTree = chain.notesTree := by
  have applied : applyBlockToTree poseidon tempNoir chain.notesTree block.content.state
      block.content.header.height = .ok chain.notesTree := by
    apply applyBlockToTree_eq_ok_iff.mpr
    constructor
    · simp [leaves.1, leaves.2, Batch.slots]
    · rw [Persistent.insertBatch, if_pos ((block.content.state.isEmpty_batch _).mpr leaves)]
      rfl
  refine ⟨⟨_, chain.notesTree⟩, ⟨validate_eq_ok_iff.mpr valid,
    commitProposal_eq_ok_iff.mpr ⟨?_, rfl, applied⟩⟩, rfl⟩
  rw [leaves.2]
  exact fun leaf mem => absurd mem List.not_mem_nil

/-- An empty block extends every chain. -/
theorem exists_step_empty (poseidon : Poseidon) (keccak : Keccak) (verify : Verify)
    (tempNoir : Bool) (chain : Chain) (block : Block) (commitTime : Nat)
    (empty : block.content.state.txns = [])
    (root : block.content.state.rootHash = chain.notesTree.tree.rootHash (merge poseidon)) :
    ∃ next, Step poseidon keccak verify tempNoir chain (block, commitTime) next ∧
      next.notesTree = chain.notesTree := by
  have valid : BlockValid poseidon verify chain.store chain.notesTree block.content :=
    emptyBlock_valid empty root
  apply exists_step_leafless keccak tempNoir commitTime valid
  simp [BlockState.insertLeaves, BlockState.removeLeaves, empty]

/-! ## The tree -/

theorem Step.reachable (step : Step poseidon keccak verify tempNoir chain commit next)
    (reachable : Tree.Reachable (merge poseidon) tempNoir chain.notesTree.tree) :
    Tree.Reachable (merge poseidon) tempNoir next.notesTree.tree := by
  rcases commitProposal_eq_ok_iff.mp step.2 with ⟨_, _, applied⟩
  exact applyBlockToTree_reachable reachable applied

theorem reachable_of_run (reachable : Tree.Reachable (merge poseidon) tempNoir chain.notesTree.tree)
    (run : Run (Step poseidon keccak verify tempNoir) chain commits next) :
    Tree.Reachable (merge poseidon) tempNoir next.notesTree.tree := by
  induction run with
  | nil => exact reachable
  | snoc _ taken ih => exact taken.reachable ih

theorem reachable_genesis : Tree.Reachable (merge poseidon) tempNoir genesis.notesTree.tree := .new

/-- A committed block leads to the root that it announces. -/
theorem Step.rootHash_eq (step : Step poseidon keccak verify tempNoir chain commit next)
    (reachable : Tree.Reachable (merge poseidon) tempNoir chain.notesTree.tree) :
    next.notesTree.tree.rootHash (merge poseidon) = commit.1.content.state.rootHash := by
  rcases commitProposal_eq_ok_iff.mp step.2 with ⟨_, _, applied⟩
  exact (validate_eq_ok_iff.mp step.1).rootHash_eq (reachable.wellFormed MERKLE_TREE_DEPTH_pos)
    applied

/-- The elements after a block. -/
theorem Step.mem_iff (step : Step poseidon keccak verify tempNoir chain commit next)
    (element : Element) :
    element ∈ next.notesTree.tree.entries ↔ element ∉ commit.1.content.state.removeLeaves ∧
      (element ∈ commit.1.content.state.insertLeaves ∨
        element ∈ chain.notesTree.tree.entries) := by
  rcases commitProposal_eq_ok_iff.mp step.2 with ⟨_, _, applied⟩
  exact mem_of_applyBlockToTree applied element

/-- No element was inserted after the last block. -/
theorem insertedIn_le_of_run (numbered : Numbered 1 commits)
    (run : Run (Step poseidon keccak verify tempNoir) genesis commits next) {element : Element}
    {metadata : SmirkMetadata} (found : next.notesTree.tree.entries[element]? = some metadata) :
    metadata.insertedIn ≤ commits.length := by
  induction run with
  | nil => exact absurd found (by simp [genesis, emptyTree, Tree.new])
  | @snoc labels middle label target _ taken ih =>
      rcases numbered_append_iff.mp numbered with ⟨before, last⟩
      rcases commitProposal_eq_ok_iff.mp taken.2 with ⟨_, _, applied⟩
      rw [getElem?_of_applyBlockToTree applied] at found
      split_ifs at found with _ inserted
      · obtain rfl := Option.some.inj found
        have height := numbered_singleton_iff.mp last
        simp only [List.length_append, List.length_singleton]
        omega
      · have earlier := ih before found
        simp only [List.length_append, List.length_singleton]
        omega

/-- Among the elements of the tree, those that were inserted up to a height are
the ones that were there at that height and have not been removed since. -/
theorem insertedIn_le_iff {height : Nat} {later : List (Block × Nat)} {sender : Chain}
    (bounded : ∀ (element : Element) (metadata : SmirkMetadata),
      chain.notesTree.tree.entries[element]? = some metadata → metadata.insertedIn ≤ height)
    (numbered : Numbered (height + 1) later)
    (run : Run (Step poseidon keccak verify tempNoir) chain later sender) (element : Element) :
    (∃ metadata : SmirkMetadata, sender.notesTree.tree.entries[element]? = some metadata ∧
        metadata.insertedIn ≤ height) ↔
      element ∈ chain.notesTree.tree.entries ∧ element ∉ removed later := by
  induction run with
  | nil =>
      simp only [removed, List.flatMap_nil, List.not_mem_nil, not_false_eq_true, and_true]
      rw [← Std.TreeMap.isSome_getElem?_iff_mem, Option.isSome_iff_exists]
      constructor
      · rintro ⟨metadata, found, _⟩
        exact ⟨metadata, found⟩
      · rintro ⟨metadata, found⟩
        exact ⟨metadata, found, bounded element metadata found⟩
  | @snoc labels middle label target _ taken ih =>
      rcases numbered_append_iff.mp numbered with ⟨before, last⟩
      have labelHeight := numbered_singleton_iff.mp last
      rcases commitProposal_eq_ok_iff.mp taken.2 with ⟨_, _, applied⟩
      have valid := validate_eq_ok_iff.mp taken.1
      have history := ih before
      simp only [getElem?_of_applyBlockToTree applied]
      have removedEq : removed (labels ++ [label]) =
          removed labels ++ label.1.content.state.removeLeaves := by
        simp [removed]
      rw [removedEq, List.mem_append, not_or, ← and_assoc, ← history]
      by_cases isRemoved : element ∈ label.1.content.state.removeLeaves
      · simp [isRemoved]
      · by_cases isInserted : element ∈ label.1.content.state.insertLeaves
        · -- a new element was not in the tree before, and its height is too large
          have fresh := (valid.insertLeaf_valid isInserted).2.1
          have absent : middle.notesTree.tree.entries[element]? = none :=
            Std.TreeMap.getElem?_eq_none fresh
          simp only [isRemoved, isInserted, if_true, if_false, absent]
          simp
          omega
        · simp [isRemoved, isInserted]

/-! ## The store -/

/-- Every element of the tree is recorded as an output. -/
theorem recorded_of_mem (run : Run (Step poseidon keccak verify tempNoir) genesis commits next)
    {element : Element} (mem : element ∈ next.notesTree.tree.entries) :
    next.store.Recorded element := by
  have history := Registry.history_of_run registry round registry_genesis
    (fun _ _ _ taken => taken.registry_step) run
  exact (history.known_iff element).mpr ((history.live_iff element).mp mem).1

/-- What is recorded stays recorded. -/
theorem recorded_of_run (run : Run (Step poseidon keccak verify tempNoir) chain commits next)
    {element : Element} (recorded : chain.store.Recorded element) :
    next.store.Recorded element := by
  induction run with
  | nil => exact recorded
  | snoc _ taken ih => exact (taken.registry_step.known_iff element).mpr (.inr ih)

theorem Step.blocks_eq (step : Step poseidon keccak verify tempNoir chain commit next) :
    next.store.blocks = chain.store.blocks.insert commit.1.content.header.height
      (.v2 commit.1 (some commit.2)) := by
  rcases commitProposal_eq_ok_iff.mp step.2 with ⟨_, storeEq, _⟩
  rw [storeEq]
  rfl

/-- Blocks of other heights leave a stored block alone. -/
theorem blocks_of_run {height : Nat} (above : ∀ commit ∈ commits,
      commit.1.content.header.height ≠ height)
    (run : Run (Step poseidon keccak verify tempNoir) chain commits next) :
    next.store.blocks[height]? = chain.store.blocks[height]? := by
  induction run with
  | nil => rfl
  | @snoc labels middle label target _ taken ih =>
      rw [taken.blocks_eq, getElem?_insert_eq, if_neg (above label (by simp))]
      exact ih fun commit mem => above commit (List.mem_append_left _ mem)

theorem Numbered.height_ge {first : Nat} (numbered : Numbered first commits)
    (mem : commit ∈ commits) : first ≤ commit.1.content.header.height := by
  rcases List.getElem?_of_mem mem with ⟨index, found⟩
  rw [numbered index commit found]
  exact Nat.le_add_right _ _

end Chain

/-! ## A hash that tells whether a tree is empty -/

/-- One if any input is not zero. -/
def anyInput : Poseidon := fun inputs => if inputs.all (· = 0) then 0 else 1

@[simp]
theorem toBase_merge_anyInput (left right : Element) :
    (merge anyInput left right).toBase = 0 ↔ left.toBase = 0 ∧ right.toBase = 0 := by
  have one : (1 : Base) ≠ 0 := by decide
  rw [merge, hashMerge, Element.toBase_fromBase, anyInput]
  split_ifs with zeros
  · simpa using zeros
  · simpa [one] using zeros

@[simp]
theorem toBase_root_anyInput (depth : Nat) (leaves : Nat → Element) :
    (Merkle.root (merge anyInput) depth leaves).toBase = 0 ↔
      ∀ slot < 2 ^ depth, (leaves slot).toBase = 0 := by
  induction depth generalizing leaves with
  | zero => simp
  | succ depth ih =>
      rw [Merkle.root_succ, toBase_merge_anyInput, ih, ih]
      constructor
      · rintro ⟨left, right⟩ slot slotLt
        by_cases low : slot < 2 ^ depth
        · exact left slot low
        · rw [show slot = 2 ^ depth + (slot - 2 ^ depth) by omega]
          exact right _ (by omega)
      · intro all
        exact ⟨fun slot slotLt => all slot (by omega),
          fun slot slotLt => all _ (by omega)⟩

/-- Under this hash the root of an empty tree is not that of a tree with the
element one. -/
theorem rootHash_ne_of_mem_one {notesTree : PersistentMerkleTree}
    (wellFormed : notesTree.tree.WellFormed (merge anyInput))
    (mem : (1 : Element) ∈ notesTree.tree.entries) :
    emptyTree.tree.rootHash (merge anyInput) ≠ notesTree.tree.rootHash (merge anyInput) := by
  intro same
  rw [emptyTree_wellFormed.rootHash_eq, wellFormed.rootHash_eq] at same
  have empty : (Merkle.root (merge anyInput) (MERKLE_TREE_DEPTH - 1)
      emptyTree.tree.leaves).toBase = 0 := by
    rw [toBase_root_anyInput]
    intro slot _
    rw [Tree.leaves_of_vacant fun element found => absurd found (not_mem_emptyTree element)]
    rfl
  rw [same, toBase_root_anyInput] at empty
  have leaf := empty _ (Element.slot_lt 1 (MERKLE_TREE_DEPTH - 1))
  rw [Tree.leaves_of_mem wellFormed.distinct mem] at leaf
  exact absurd leaf (by decide)

end Ciphera.Node
