import Ciphera.Node.BlockHash
import Ciphera.Node.Mints

/-!
# Two ways to the same height

A node may skip blocks by taking a fast snapshot.  It then has the elements of the
chain and not the indexes of the skipped blocks: the commitments that these
created and the mint hashes that they used are unknown to it.
-/

namespace Ciphera.Node

open Ciphera.Lib Ciphera.Lib.Merkle Ciphera.Noir Ciphera.Smirk Ciphera.Zk
open Chain

/-- A node that validates and commits blocks and takes fast snapshots in between,
with the commits that it has made. -/
inductive Follows (poseidon : Poseidon) (keccak : Keccak) (verify : Verify) (tempNoir : Bool) :
    List (Block × Nat) → Chain → Prop
  | genesis : Follows poseidon keccak verify tempNoir [] genesis
  | commit {commits : List (Block × Nat)} {chain next : Chain} {commit : Block × Nat} :
      Follows poseidon keccak verify tempNoir commits chain →
      Chain.Step poseidon keccak verify tempNoir chain commit next →
      Follows poseidon keccak verify tempNoir (commits ++ [commit]) next
  | snapshot {commits : List (Block × Nat)} {chain : Chain} {block : Block}
      {elements : List Element} {notesTree : PersistentMerkleTree} :
      Follows poseidon keccak verify tempNoir commits chain →
      chunkOutcome poseidon tempNoir chain.notesTree block elements = .ok (.applied notesTree) →
      Follows poseidon keccak verify tempNoir commits { chain with notesTree }

/-- The mint hashes that the commits of a run use. -/
def Chain.minted (commits : List (Block × Nat)) : List Element :=
  commits.flatMap fun commit => commit.1.content.mintHashes

/-- The block creates a commitment or uses a mint hash of the chain that none of
the commits of the node has. -/
def Reuses (commits stored : List (Block × Nat)) (content : BlockContent) : Prop :=
  (∃ leaf ∈ content.state.insertLeaves, leaf ∈ inserted commits ∧ leaf ∉ inserted stored) ∨
    ∃ mintHash ∈ content.mintHashes, mintHash ∈ minted commits ∧ mintHash ∉ minted stored

section

variable {poseidon : Poseidon} {keccak : Keccak} {verify : Verify} {tempNoir : Bool}
  {commits stored : List (Block × Nat)} {chain next : Chain} {commit : Block × Nat}

theorem Chain.Step.recorded_iff (step : Chain.Step poseidon keccak verify tempNoir chain commit next)
    (element : Element) :
    next.store.Recorded element ↔
      element ∈ commit.1.content.state.insertLeaves ∨ chain.store.Recorded element := by
  rcases commitProposal_eq_ok_iff.mp step.2 with ⟨_, storeEq, _⟩
  rw [storeEq]
  exact BlockFormat.recorded_set_iff

theorem Chain.Step.minted_iff (step : Chain.Step poseidon keccak verify tempNoir chain commit next)
    (mintHash : Element) :
    next.store.Minted mintHash ↔
      mintHash ∈ commit.1.content.mintHashes ∨ chain.store.Minted mintHash := by
  rcases commitProposal_eq_ok_iff.mp step.2 with ⟨_, storeEq, _⟩
  rw [storeEq]
  exact BlockFormat.minted_set_iff

theorem Chain.Step.wellFormed (step : Chain.Step poseidon keccak verify tempNoir chain commit next)
    (wellFormed : chain.notesTree.tree.WellFormed (merge poseidon)) :
    next.notesTree.tree.WellFormed (merge poseidon) := by
  rcases commitProposal_eq_ok_iff.mp step.2 with ⟨_, _, applied⟩
  exact wellFormed_of_applyBlockToTree wellFormed applied

namespace Follows

/-- A node that only commits follows the chain. -/
theorem of_run (run : Run (Chain.Step poseidon keccak verify tempNoir) Chain.genesis commits chain) :
    Follows poseidon keccak verify tempNoir commits chain := by
  induction run with
  | nil => exact .genesis
  | snoc _ taken ih => exact .commit ih taken

theorem wellFormed (follows : Follows poseidon keccak verify tempNoir commits chain) :
    chain.notesTree.tree.WellFormed (merge poseidon) := by
  induction follows with
  | genesis => exact emptyTree_wellFormed
  | commit _ step ih => exact step.wellFormed ih
  | snapshot _ applied ih =>
      exact wellFormed_of_applyFastSnapshotChunk ih (applyFastSnapshotChunk_of_applied applied)

/-- The node knows the commitments that its commits have created. -/
theorem recorded_iff (follows : Follows poseidon keccak verify tempNoir commits chain)
    (element : Element) : chain.store.Recorded element ↔ element ∈ inserted commits := by
  induction follows with
  | genesis => exact iff_of_false (BlockStore.not_recorded_empty element) List.not_mem_nil
  | commit _ step ih =>
      rw [step.recorded_iff, ih, inserted, inserted, List.flatMap_append, List.flatMap_singleton,
        List.mem_append]
      exact or_comm
  | snapshot _ _ ih => exact ih

/-- The node knows the mint hashes that its commits have used. -/
theorem minted_iff (follows : Follows poseidon keccak verify tempNoir commits chain)
    (mintHash : Element) : chain.store.Minted mintHash ↔ mintHash ∈ minted commits := by
  induction follows with
  | genesis => exact iff_of_false (BlockStore.not_minted_empty mintHash) List.not_mem_nil
  | commit _ step ih =>
      rw [step.minted_iff, ih, minted, minted, List.flatMap_append, List.flatMap_singleton,
        List.mem_append]
      exact or_comm
  | snapshot _ _ ih => exact ih

end Follows

/-! ## Trees with the same elements -/

/-- The leaves depend on the elements alone. -/
theorem leaves_eq_of_same {first second : PersistentMerkleTree}
    (firstDistinct : first.tree.DistinctElements) (secondDistinct : second.tree.DistinctElements)
    (same : ∀ element, element ∈ first.tree.entries ↔ element ∈ second.tree.entries) :
    first.tree.leaves = second.tree.leaves := by
  funext slot
  by_cases occupied : ∃ element ∈ first.tree.entries,
      element.slot (MERKLE_TREE_DEPTH - 1) = slot
  · rcases occupied with ⟨element, mem, rfl⟩
    rw [Tree.leaves_of_mem firstDistinct mem,
      Tree.leaves_of_mem secondDistinct ((same element).mp mem)]
  · push Not at occupied
    rw [Tree.leaves_of_vacant occupied,
      Tree.leaves_of_vacant fun element mem => occupied element ((same element).mpr mem)]

/-- Trees with one root have the same elements. -/
theorem same_of_rootHash_eq {first second : PersistentMerkleTree}
    (firstWellFormed : first.tree.WellFormed (merge poseidon))
    (secondWellFormed : second.tree.WellFormed (merge poseidon))
    (free : Set.InjOn (Function.uncurry (merge poseidon))
      (nodes (merge poseidon) (MERKLE_TREE_DEPTH - 1) first.tree.leaves ∪
        nodes (merge poseidon) (MERKLE_TREE_DEPTH - 1) second.tree.leaves))
    (sameRoot : first.tree.rootHash (merge poseidon) = second.tree.rootHash (merge poseidon))
    (element : Element) : element ∈ first.tree.entries ↔ element ∈ second.tree.entries := by
  rw [firstWellFormed.rootHash_eq, secondWellFormed.rootHash_eq] at sameRoot
  have sameLeaf := eq_of_root_eq free sameRoot _ (element.slot_lt (MERKLE_TREE_DEPTH - 1))
  have inside : ∀ {tree : PersistentMerkleTree}, tree.tree.WellFormed (merge poseidon) →
      (element ∈ tree.tree.entries ↔ element ≠ Element.ZERO ∧
        tree.tree.leaves (element.slot (MERKLE_TREE_DEPTH - 1)) = element) := by
    intro tree wellFormed
    constructor
    · intro mem
      exact ⟨wellFormed.nonzero element mem, Tree.leaves_of_mem wellFormed.distinct mem⟩
    · rintro ⟨nonzero, leaf⟩
      have mem := (Tree.mem_of_leaves (leaf.symm ▸ nonzero)).1
      rwa [leaf] at mem
  rw [inside firstWellFormed, inside secondWellFormed, sameLeaf]

/-- A valid block stays valid on a tree with the same elements, with a store that
knows none of its outputs and mint hashes. -/
theorem BlockValid.transfer {firstStore secondStore : Store}
    {firstTree secondTree : PersistentMerkleTree} {content : BlockContent}
    (firstWellFormed : firstTree.tree.WellFormed (merge poseidon))
    (secondWellFormed : secondTree.tree.WellFormed (merge poseidon))
    (same : ∀ element, element ∈ firstTree.tree.entries ↔ element ∈ secondTree.tree.entries)
    (unrecorded : ∀ leaf ∈ content.state.insertLeaves, ¬secondStore.Recorded leaf)
    (unminted : ∀ mintHash ∈ content.mintHashes, ¬secondStore.Minted mintHash)
    (valid : BlockValid poseidon verify firstStore firstTree content) :
    BlockValid poseidon verify secondStore secondTree content := by
  have leaves := leaves_eq_of_same firstWellFormed.distinct secondWellFormed.distinct same
  constructor
  · exact valid.distinct
  · intro txn mem
    have txnValid := valid.txns txn mem
    constructor
    · exact txnValid.verified
    · exact txnValid.inputsDiffer
    · exact txnValid.outputsDiffer
    · intro leaf isOutput
      rcases txnValid.outputs leaf isOutput with ⟨canonical, fresh⟩
      refine ⟨canonical, fun nonzero => ⟨?_, ?_⟩⟩
      · exact mt (same leaf).mpr (fresh nonzero).1
      · apply unrecorded
        rw [BlockState.insertLeaves, List.mem_filter]
        exact ⟨List.mem_flatMap.mpr ⟨txn, mem, isOutput⟩, by simpa using nonzero⟩
    · intro leaf isInput
      rcases txnValid.inputs leaf isInput with ⟨canonical, present⟩
      exact ⟨canonical, fun nonzero => (same leaf).mp (present nonzero)⟩
    · intro mintHash minted
      exact unminted mintHash (List.mem_filterMap.mpr ⟨txn, mem, minted⟩)
  · have root := valid.root
    unfold AnnouncesRoot at root ⊢
    split_ifs at root ⊢ with empty
    · rwa [secondWellFormed.rootHash_eq, ← leaves, ← firstWellFormed.rootHash_eq]
    · rw [secondWellFormed.rootHashWith_eq_ok_iff MERKLE_TREE_DEPTH_pos, ← leaves]
      exact (firstWellFormed.rootHashWith_eq_ok_iff MERKLE_TREE_DEPTH_pos).mp root

/-! ## What two nodes accept -/

section

variable {block : Block} {fullTime fastTime : Nat} {full node fast : Chain}
  (honest : Run (Chain.Step poseidon keccak verify tempNoir) genesis
    (commits ++ [(block, fullTime)]) full)
  (follows : Follows poseidon keccak verify tempNoir stored node)
  (reached : Chain.Step poseidon keccak verify tempNoir node (block, fastTime) fast)
  (free : Set.InjOn (Function.uncurry (merge poseidon))
    (nodes (merge poseidon) (MERKLE_TREE_DEPTH - 1) fast.notesTree.tree.leaves ∪
      nodes (merge poseidon) (MERKLE_TREE_DEPTH - 1) full.notesTree.tree.leaves))

include honest follows reached free

/-- Both nodes have the root that the last block announces. -/
theorem same_of_last (element : Element) :
    element ∈ fast.notesTree.tree.entries ↔ element ∈ full.notesTree.tree.entries := by
  rcases Run.of_snoc honest with ⟨before, earlier, last⟩
  have fastRoot : fast.notesTree.tree.rootHash (merge poseidon) =
      block.content.state.rootHash := by
    rcases commitProposal_eq_ok_iff.mp reached.2 with ⟨_, _, applied⟩
    exact (validate_eq_ok_iff.mp reached.1).rootHash_eq follows.wellFormed applied
  have fullRoot := last.rootHash_eq (reachable_of_run reachable_genesis earlier)
  exact same_of_rootHash_eq (reached.wellFormed follows.wellFormed)
    (Follows.of_run honest).wellFormed free (fastRoot.trans fullRoot.symm) element

/-- The node that has every block accepts what the other accepts and what reuses
nothing of the skipped blocks. -/
theorem full_accepts_iff
    (onChain : ∀ commit ∈ stored, ∃ other ∈ commits, other.1 = commit.1)
    (content : BlockContent) :
    content.validate poseidon verify full.store full.notesTree = .ok () ↔
      content.validate poseidon verify fast.store fast.notesTree = .ok () ∧
        ¬Reuses (commits ++ [(block, fullTime)]) (stored ++ [(block, fastTime)]) content := by
  have same := same_of_last honest follows reached free
  have fullFollows := Follows.of_run honest
  have fastFollows := Follows.commit follows reached
  -- what the node has committed is on the chain
  have included : ∀ commit ∈ stored ++ [(block, fastTime)],
      ∃ other ∈ commits ++ [(block, fullTime)], other.1 = commit.1 := by
    intro commit mem
    rcases List.mem_append.mp mem with earlier | last
    · rcases onChain commit earlier with ⟨other, otherMem, sameBlock⟩
      exact ⟨other, List.mem_append_left _ otherMem, sameBlock⟩
    · obtain rfl := List.mem_singleton.mp last
      exact ⟨_, List.mem_append_right _ (List.mem_singleton_self _), rfl⟩
  have insertedSub : ∀ leaf ∈ inserted (stored ++ [(block, fastTime)]),
      leaf ∈ inserted (commits ++ [(block, fullTime)]) := by
    intro leaf mem
    rcases List.mem_flatMap.mp mem with ⟨commit, commitMem, leafMem⟩
    rcases included commit commitMem with ⟨other, otherMem, sameBlock⟩
    exact List.mem_flatMap.mpr ⟨other, otherMem, sameBlock ▸ leafMem⟩
  have mintedSub : ∀ mintHash ∈ minted (stored ++ [(block, fastTime)]),
      mintHash ∈ minted (commits ++ [(block, fullTime)]) := by
    intro mintHash mem
    rcases List.mem_flatMap.mp mem with ⟨commit, commitMem, hashMem⟩
    rcases included commit commitMem with ⟨other, otherMem, sameBlock⟩
    exact List.mem_flatMap.mpr ⟨other, otherMem, sameBlock ▸ hashMem⟩
  simp only [validate_eq_ok_iff]
  constructor
  · intro valid
    constructor
    · apply valid.transfer fullFollows.wellFormed fastFollows.wellFormed
        (fun element => (same element).symm)
      · intro leaf mem
        rw [fastFollows.recorded_iff]
        exact mt (insertedSub leaf)
          (mt (fullFollows.recorded_iff leaf).mpr (valid.insertLeaf_valid mem).2.2)
      · intro mintHash mem
        rw [fastFollows.minted_iff]
        exact mt (mintedSub mintHash)
          (mt (fullFollows.minted_iff mintHash).mpr (valid.mintHash_fresh mem))
    · rintro (⟨leaf, mem, known, _⟩ | ⟨mintHash, mem, known, _⟩)
      · exact (valid.insertLeaf_valid mem).2.2 ((fullFollows.recorded_iff leaf).mpr known)
      · exact valid.mintHash_fresh mem ((fullFollows.minted_iff mintHash).mpr known)
  · rintro ⟨valid, reusesNothing⟩
    apply valid.transfer fastFollows.wellFormed fullFollows.wellFormed same
    · intro leaf mem recorded
      apply reusesNothing
      refine .inl ⟨leaf, mem, (fullFollows.recorded_iff leaf).mp recorded, ?_⟩
      exact mt (fastFollows.recorded_iff leaf).mpr (valid.insertLeaf_valid mem).2.2
    · intro mintHash mem used
      apply reusesNothing
      refine .inr ⟨mintHash, mem, (fullFollows.minted_iff mintHash).mp used, ?_⟩
      exact mt (fastFollows.minted_iff mintHash).mpr (valid.mintHash_fresh mem)

end

/-- On an honest chain, a node that has reached the last block by whatever way has
the elements of a node that has committed every block.  The two nodes agree on a
next block exactly when it reuses nothing of the skipped blocks, as far as the
first node accepts it at all. -/
theorem accepts_same_iff_not_reuses {block : Block} {fullTime fastTime : Nat}
    {full node fast : Chain}
    (honest : Run (Chain.Step poseidon keccak verify tempNoir) genesis
      (commits ++ [(block, fullTime)]) full)
    (follows : Follows poseidon keccak verify tempNoir stored node)
    (onChain : ∀ commit ∈ stored, ∃ other ∈ commits, other.1 = commit.1)
    (reached : Chain.Step poseidon keccak verify tempNoir node (block, fastTime) fast)
    (free : Set.InjOn (Function.uncurry (merge poseidon))
      (nodes (merge poseidon) (MERKLE_TREE_DEPTH - 1) fast.notesTree.tree.leaves ∪
        nodes (merge poseidon) (MERKLE_TREE_DEPTH - 1) full.notesTree.tree.leaves)) :
    (∀ element, element ∈ fast.notesTree.tree.entries ↔ element ∈ full.notesTree.tree.entries) ∧
      ∀ content : BlockContent,
        (content.validate poseidon verify fast.store fast.notesTree = .ok () ↔
            content.validate poseidon verify full.store full.notesTree = .ok ()) ↔
          (content.validate poseidon verify fast.store fast.notesTree = .ok () →
            ¬Reuses (commits ++ [(block, fullTime)]) (stored ++ [(block, fastTime)]) content) := by
  refine ⟨same_of_last honest follows reached free, fun content => ?_⟩
  rw [full_accepts_iff honest follows reached free onChain content]
  exact iff_self_and

/-! ## A mint in a skipped block -/

/-- A mint of nothing, whose mint hash is that of two blank notes. -/
def emptyMint : UtxoProof := leaflessTxn [] 2 1 0

@[simp]
theorem emptyMint_accepted : Utxo.main levelHash (leaflessWitness 2 1 0) = .ok () :=
  leaflessWitness_accepted (.mint rfl rfl rfl rfl)

@[simp]
theorem mintHash_emptyMint : emptyMint.mintHash = some 1 := by
  simp [emptyMint, leaflessTxn, UtxoProof.mintHash, UtxoPublicInput.single,
    UtxoPublicInput.mintHash, UtxoPublicInput.kindMessages, UtxoPublicInput.kind, UtxoKind.ofByte,
    get_eq_getElem]

/-- A block whose only transaction is a mint of nothing. -/
def emptyMintBlock (height : Nat) : Block :=
  leaflessBlock height (emptyTree.tree.rootHash (merge levelHash)) emptyMint

/-- A block without transactions. -/
def emptyBlock (height : Nat) : Block where
  content := ⟨⟨height, 0, 0, 0, []⟩, ⟨emptyTree.tree.rootHash (merge levelHash), []⟩⟩
  signature := ⟨0, 0, 0⟩

/-- The snapshot of an empty tree changes nothing. -/
@[simp]
theorem chunkOutcome_emptyBlock (height : Nat) :
    chunkOutcome levelHash false emptyTree (emptyBlock height) [] = .ok (.applied emptyTree) := by
  have nothingNew : newElements emptyTree [] = [] := rfl
  have nothingMissing : missingElements emptyTree [] = [] := by
    rw [missingElements, List.filter_eq_nil_iff]
    intro element mem
    exact absurd (Std.TreeMap.mem_keys.mp mem) (not_mem_emptyTree element)
  apply chunkOutcome_eq_ok_iff.mpr
  rw [nothingNew, nothingMissing]
  refine ⟨emptyTree.tree.rootHash (merge levelHash), ?_, .inr ⟨rfl, {}, ∅, rfl, .inr ⟨rfl, ?_⟩⟩⟩
  · apply (emptyTree_wellFormed.rootHashWith_eq_ok_iff MERKLE_TREE_DEPTH_pos).mpr
    exact ⟨List.nodup_nil, emptyTree_wellFormed.rootHash_eq.symm⟩
  · exact ⟨emptyTree, rfl, rfl⟩

/-- A chain whose first block mints nothing and whose second block is empty, and a
node that has skipped the first block. -/
theorem exists_skippedMint :
    ∃ full fast,
      Run (Chain.Step levelHash (fun _ => 0) (fun _ => true) false) genesis
          [(emptyMintBlock 1, 0), (emptyBlock 2, 0)] full ∧
        Follows levelHash (fun _ => 0) (fun _ => true) false []
          { genesis with notesTree := emptyTree } ∧
        Chain.Step levelHash (fun _ => 0) (fun _ => true) false
          { genesis with notesTree := emptyTree } (emptyBlock 2, 0) fast ∧
        full.notesTree = emptyTree ∧ fast.notesTree = emptyTree := by
  have mintValid : BlockValid levelHash (fun _ => true) genesis.store genesis.notesTree
      (emptyMintBlock 1).content :=
    leaflessBlock_valid 1 rfl fun mintHash _ => BlockStore.not_minted_empty mintHash
  rcases exists_step_leafless (fun _ => 0) false 0 mintValid
    (leaves_leaflessBlock 1 _ [] 2 1 0) with ⟨first, minted, firstTree⟩
  rcases exists_step_empty levelHash (fun _ => 0) (fun _ => true) false first (emptyBlock 2) 0 rfl
    (by rw [firstTree]; rfl) with ⟨full, last, fullTree⟩
  rcases exists_step_empty levelHash (fun _ => 0) (fun _ => true) false genesis (emptyBlock 2) 0
    rfl rfl with ⟨fast, reached, fastTree⟩
  refine ⟨full, fast, .snoc (.snoc .nil minted) last, ?_, reached, fullTree.trans firstTree,
    fastTree⟩
  exact .snapshot .genesis (chunkOutcome_emptyBlock 2)

/-- Nothing collides in two empty trees. -/
theorem injOn_nodes_emptyTrees {first second : PersistentMerkleTree} (firstEq : first = emptyTree)
    (secondEq : second = emptyTree) :
    Set.InjOn (Function.uncurry (merge levelHash))
      (nodes (merge levelHash) (MERKLE_TREE_DEPTH - 1) first.tree.leaves ∪
        nodes (merge levelHash) (MERKLE_TREE_DEPTH - 1) second.tree.leaves) := by
  rw [firstEq, secondEq, leaves_emptyTree, Set.union_self]
  exact injOn_nodes_levelHash

/-- Both nodes accept a next block that creates a commitment. -/
theorem output_accepted_by_both :
    ∃ full fast rootHash,
      Run (Chain.Step levelHash (fun _ => 0) (fun _ => true) false) genesis
          [(emptyMintBlock 1, 0), (emptyBlock 2, 0)] full ∧
        Chain.Step levelHash (fun _ => 0) (fun _ => true) false
          { genesis with notesTree := emptyTree } (emptyBlock 2, 0) fast ∧
        (outputBlock 3 rootHash 1).validate levelHash (fun _ => true) fast.store fast.notesTree =
          .ok () ∧
        (outputBlock 3 rootHash 1).validate levelHash (fun _ => true) full.store full.notesTree =
          .ok () := by
  rcases exists_skippedMint with ⟨full, fast, honest, follows, reached, fullTree, fastTree⟩
  have honest : Run (Chain.Step levelHash (fun _ => 0) (fun _ => true) false) genesis
      ([(emptyMintBlock 1, 0)] ++ [(emptyBlock 2, 0)]) full := honest
  have nonzero : (1 : Element) ≠ Element.ZERO := by decide
  have unrecorded : ¬fast.store.Recorded 1 := by
    rw [(Follows.commit follows reached).recorded_iff]
    exact List.not_mem_nil
  have valid : TxnValid (fun _ => true) fast.store emptyTree (outputTxn 1) :=
    outputTxn_valid rfl (by decide) (not_mem_emptyTree 1) unrecorded
  have wellFormed : emptyTree.tree.WellFormed (merge levelHash) := emptyTree_wellFormed
  rcases exists_outputBlock_validate 3 wellFormed valid nonzero with ⟨rootHash, accepted⟩
  rw [← fastTree] at accepted
  refine ⟨full, fast, rootHash, honest, reached, accepted,
    (((accepts_same_iff_not_reuses honest follows (fun commit mem => absurd mem List.not_mem_nil)
      reached (injOn_nodes_emptyTrees fastTree fullTree)).2 (outputBlock 3 rootHash 1)).mpr
        ?_).mp accepted⟩
  rintro _ (⟨leaf, _, known, _⟩ | ⟨mintHash, mem, _⟩)
  · have none : inserted ([(emptyMintBlock 1, 0)] ++ [(emptyBlock 2, 0)]) = [] := rfl
    rw [none] at known
    exact absurd known List.not_mem_nil
  · rw [BlockContent.mintHashes, outputBlock] at mem
    simp [mintHash_outputTxn] at mem

/-- The mint of the skipped block, which the circuit accepts, is accepted again by
the node that has skipped it and refused by the node that has not. -/
theorem skippedMint_accepted_again :
    (Utxo.main levelHash (leaflessWitness 2 1 0) = .ok () ∧
        (leaflessWitness 2 1 0).publicInputs = emptyMint.publicInputs.residues) ∧
      ∃ full fast,
        Run (Chain.Step levelHash (fun _ => 0) (fun _ => true) false) genesis
            [(emptyMintBlock 1, 0), (emptyBlock 2, 0)] full ∧
          chunkOutcome levelHash false genesis.notesTree (emptyBlock 2) [] =
            .ok (.applied emptyTree) ∧
          Chain.Step levelHash (fun _ => 0) (fun _ => true) false
            { genesis with notesTree := emptyTree } (emptyBlock 2, 0) fast ∧
          (emptyMintBlock 3).content.validate levelHash (fun _ => true) fast.store fast.notesTree =
            .ok () ∧
          (emptyMintBlock 3).content.validate levelHash (fun _ => true) full.store full.notesTree ≠
            .ok () := by
  rcases exists_skippedMint with ⟨full, fast, honest, follows, reached, fullTree, fastTree⟩
  refine ⟨⟨emptyMint_accepted, publicInputs_leaflessWitness [] 2 1 0⟩, full, fast, honest,
    chunkOutcome_emptyBlock 2, reached, ?_, ?_⟩
  · have valid : BlockValid levelHash (fun _ => true) fast.store emptyTree
        (emptyMintBlock 3).content := by
      apply leaflessBlock_valid 3 rfl
      intro mintHash _
      rw [(Follows.commit follows reached).minted_iff]
      exact List.not_mem_nil
    rw [fastTree]
    exact validate_eq_ok_iff.mpr valid
  · intro accepted
    have used : (1 : Element) ∈ (emptyMintBlock 3).content.mintHashes :=
      List.mem_filterMap.mpr ⟨emptyMint, List.mem_singleton_self _, mintHash_emptyMint⟩
    apply (validate_eq_ok_iff.mp accepted).mintHash_fresh used
    rw [(Follows.of_run honest).minted_iff]
    exact List.mem_flatMap.mpr ⟨(emptyMintBlock 1, 0), List.mem_cons_self, used⟩

end

end Ciphera.Node
