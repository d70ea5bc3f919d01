import Ciphera.Node.Validate

/-!
# Committing a validated block

Validation predicts the root of a block by replacing whatever occupies the slot
of an output, and it compares elements and not slots.  Applying the block
compares slots.  The two agree exactly on the blocks none of whose outputs
falls on the slot of an element already in the tree.
-/

namespace Ciphera.Node

open Ciphera.Lib Ciphera.Lib.Merkle Ciphera.Noir Ciphera.Smirk Ciphera.Zk

variable {poseidon : Poseidon} {verify : Verify} {store : Store}
  {notesTree : PersistentMerkleTree} {content : BlockContent}

namespace BlockFormat

@[simp]
theorem map_txn_txns (keccak : Keccak) (format : BlockFormat) :
    (format.txns keccak).map TxnFormat.txn = format.intoBlock.content.state.txns := by
  simp only [txns, List.map_map, Function.comp_def]
  exact List.zipIdx_map_fst _ _

@[simp]
theorem recorded_set_iff {keccak : Keccak} {format : BlockFormat} {element : Element} :
    (store.set (indexing poseidon keccak) format).Recorded element ↔
      element ∈ format.intoBlock.content.state.insertLeaves ∨ store.Recorded element := by
  rw [BlockStore.recorded_set_iff, BlockState.insertLeaves_eq, ← map_txn_txns keccak,
    List.flatMap_map]
  rfl

@[simp]
theorem minted_set_iff {keccak : Keccak} {format : BlockFormat} {mintHash : Element} :
    (store.set (indexing poseidon keccak) format).Minted mintHash ↔
      mintHash ∈ format.intoBlock.content.state.txns.filterMap UtxoProof.mintHash ∨
        store.Minted mintHash := by
  rw [BlockStore.minted_set_iff, ← map_txn_txns keccak, List.filterMap_map]
  rfl

end BlockFormat

/-- The batch that a block is applied with. -/
def BlockState.batch (state : BlockState) (currentHeight : Nat) :
    Batch MERKLE_TREE_DEPTH SmirkMetadata where
  entries := state.insertLeaves.map fun leaf => (leaf, ⟨currentHeight⟩)
  removeEntries := state.removeLeaves
  lsbs := Batch.slots MERKLE_TREE_DEPTH (state.insertLeaves ++ state.removeLeaves)

@[simp]
theorem BlockState.insertElements_batch (state : BlockState) (currentHeight : Nat) :
    (state.batch currentHeight).insertElements = state.insertLeaves := by
  simp [batch, Batch.insertElements, Function.comp_def]

@[simp]
theorem BlockState.fromEntries_eq_ok_iff {state : BlockState} {currentHeight : Nat}
    {batch : Batch MERKLE_TREE_DEPTH SmirkMetadata} :
    Batch.fromEntries (state.insertLeaves.map fun leaf => (leaf, SmirkMetadata.mk currentHeight))
        state.removeLeaves = .ok batch ↔
      (Batch.slots MERKLE_TREE_DEPTH (state.insertLeaves ++ state.removeLeaves)).Nodup ∧
        state.batch currentHeight = batch := by
  have elements : (state.insertLeaves.map fun leaf => (leaf, SmirkMetadata.mk currentHeight)).map
      Prod.fst = state.insertLeaves := by
    simp [Function.comp_def]
  rw [Batch.fromEntries_eq_ok_iff_of_narrow (by decide), elements]
  rfl

@[simp]
theorem BlockState.isEmpty_batch (state : BlockState) (currentHeight : Nat) :
    (state.batch currentHeight).isEmpty = true ↔
      state.insertLeaves = [] ∧ state.removeLeaves = [] := by
  simp [batch, Batch.isEmpty]

/-- Applying a block succeeds exactly when its slots are distinct and the tree
accepts its batch. -/
theorem applyBlockToTree_eq_ok_iff {tempNoir : Bool} {state : BlockState} {currentHeight : Nat}
    {after : PersistentMerkleTree} :
    applyBlockToTree poseidon tempNoir notesTree state currentHeight = .ok after ↔
      (Batch.slots MERKLE_TREE_DEPTH (state.insertLeaves ++ state.removeLeaves)).Nodup ∧
        notesTree.insertBatch (merge poseidon) tempNoir (state.batch currentHeight) =
          .ok after := by
  simp only [applyBlockToTree, bind_eq_ok_iff, liftCollision_eq_ok_iff,
    BlockState.fromEntries_eq_ok_iff]
  constructor
  · rintro ⟨_, ⟨slots, rfl⟩, applied⟩
    exact ⟨slots, applied⟩
  · rintro ⟨slots, applied⟩
    exact ⟨_, ⟨slots, rfl⟩, applied⟩

/-- The elements of a kept tree after a batch. -/
theorem mem_of_persistent_insertBatch {tempNoir : Bool}
    {notesTree after : PersistentMerkleTree} {batch : Batch MERKLE_TREE_DEPTH SmirkMetadata}
    (applied : notesTree.insertBatch (merge poseidon) tempNoir batch = .ok after)
    (element : Element) :
    element ∈ after.tree.entries ↔ element ∉ batch.removeEntries ∧
      (element ∈ batch.insertElements ∨ element ∈ notesTree.tree.entries) := by
  unfold Persistent.insertBatch at applied
  split_ifs at applied with empty
  · obtain rfl := pure_eq_ok_iff.mp applied
    simp only [Batch.isEmpty, Bool.and_eq_true, List.isEmpty_iff] at empty
    simp [Batch.insertElements, empty.1, empty.2]
  · rcases bind_eq_ok_iff.mp applied with ⟨tree, inserted, done⟩
    obtain rfl := pure_eq_ok_iff.mp done
    rw [Tree.entries_of_insertBatch inserted, Tree.mem_entriesAfter]

/-- The elements of the tree after a block. -/
theorem mem_of_applyBlockToTree {tempNoir : Bool} {state : BlockState} {currentHeight : Nat}
    {after : PersistentMerkleTree}
    (applied : applyBlockToTree poseidon tempNoir notesTree state currentHeight = .ok after)
    (element : Element) :
    element ∈ after.tree.entries ↔ element ∉ state.removeLeaves ∧
      (element ∈ state.insertLeaves ∨ element ∈ notesTree.tree.entries) := by
  rcases applyBlockToTree_eq_ok_iff.mp applied with ⟨_, applied⟩
  rw [mem_of_persistent_insertBatch applied, BlockState.insertElements_batch]
  rfl

theorem applyBlockToTree_reachable {tempNoir : Bool} {state : BlockState} {currentHeight : Nat}
    {after : PersistentMerkleTree}
    (reachable : Tree.Reachable (merge poseidon) tempNoir notesTree.tree)
    (applied : applyBlockToTree poseidon tempNoir notesTree state currentHeight = .ok after) :
    Tree.Reachable (merge poseidon) tempNoir after.tree := by
  obtain ⟨slots, applied⟩ := applyBlockToTree_eq_ok_iff.mp applied
  rw [Persistent.insertBatch] at applied
  split at applied
  · obtain rfl := pure_eq_ok_iff.mp applied
    exact reachable
  · obtain ⟨tree, inserted, done⟩ := bind_eq_ok_iff.mp applied
    obtain rfl := pure_eq_ok_iff.mp done
    exact .insertBatch reachable (BlockState.fromEntries_eq_ok_iff.mpr ⟨slots, rfl⟩) inserted

namespace BlockValid

theorem insertLeaf_valid (valid : BlockValid poseidon verify store notesTree content)
    {leaf : Element} (mem : leaf ∈ content.state.insertLeaves) :
    leaf ≠ Element.ZERO ∧ leaf ∉ notesTree.tree.entries ∧ ¬store.Recorded leaf := by
  obtain ⟨mem, nonzero⟩ := List.mem_filter.mp mem
  obtain ⟨txn, txnMem, leafMem⟩ := List.mem_flatMap.mp mem
  have nonzero : leaf ≠ Element.ZERO := by simpa using nonzero
  exact ⟨nonzero, ((valid.txns txn txnMem).outputs leaf leafMem).2 nonzero⟩

theorem removeLeaf_valid (valid : BlockValid poseidon verify store notesTree content)
    {leaf : Element} (mem : leaf ∈ content.state.removeLeaves) :
    leaf ≠ Element.ZERO ∧ leaf ∈ notesTree.tree.entries := by
  obtain ⟨mem, nonzero⟩ := List.mem_filter.mp mem
  obtain ⟨txn, txnMem, leafMem⟩ := List.mem_flatMap.mp mem
  have nonzero : leaf ≠ Element.ZERO := by simpa using nonzero
  exact ⟨nonzero, ((valid.txns txn txnMem).inputs leaf leafMem).2 nonzero⟩

/-- A valid block fits the tree unless an output falls on an occupied slot. -/
theorem fits (valid : BlockValid poseidon verify store notesTree content) (currentHeight : Nat)
    (slots : (Batch.slots MERKLE_TREE_DEPTH
      (content.state.insertLeaves ++ content.state.removeLeaves)).Nodup)
    (free : ¬notesTree.tree.Collides content.state.insertLeaves) :
    notesTree.tree.Fits (content.state.batch currentHeight) := by
  constructor
  · rwa [BlockState.insertElements_batch]
  · intro element mem
    rw [BlockState.insertElements_batch] at mem
    rcases List.mem_append.mp mem with inserted | removed
    · exact (valid.insertLeaf_valid inserted).1
    · exact (valid.removeLeaf_valid removed).1
  · rwa [BlockState.insertElements_batch]
  · exact fun element mem => (valid.removeLeaf_valid mem).2

end BlockValid

/-- The block commits: it is applied and leads to the root it announces. -/
def Commits (poseidon : Poseidon) (tempNoir : Bool) (notesTree : PersistentMerkleTree)
    (content : BlockContent) : Prop :=
  ∃ after, applyBlockToTree poseidon tempNoir notesTree content.state content.header.height =
      .ok after ∧ after.tree.rootHash (merge poseidon) = content.state.rootHash

theorem MERKLE_TREE_DEPTH_pos : 0 < MERKLE_TREE_DEPTH := by decide

/-- A block without transactions is valid if it announces the root of the tree. -/
theorem emptyBlock_valid (empty : content.state.txns = [])
    (root : content.state.rootHash = notesTree.tree.rootHash (merge poseidon)) :
    BlockValid poseidon verify store notesTree content := by
  have leaves : content.state.insertLeaves = [] ∧ content.state.removeLeaves = [] := by
    simp [BlockState.insertLeaves, BlockState.removeLeaves, empty]
  refine ⟨by simp [leaves], by simp [empty], ?_⟩
  rw [AnnouncesRoot, if_pos leaves, root]

/-- A block without commitments commits and changes nothing. -/
theorem BlockValid.commits_of_empty (valid : BlockValid poseidon verify store notesTree content)
    (tempNoir : Bool) (empty : content.state.insertLeaves = [] ∧ content.state.removeLeaves = []) :
    Commits poseidon tempNoir notesTree content := by
  have root := valid.root
  rw [AnnouncesRoot, if_pos empty] at root
  refine ⟨notesTree, applyBlockToTree_eq_ok_iff.mpr ⟨?_, ?_⟩, root⟩
  · simp [empty.1, empty.2, Batch.slots]
  · rw [Persistent.insertBatch, if_pos ((content.state.isEmpty_batch _).mpr empty)]
    rfl

/-- A valid block commits when its outputs fall on vacant slots. -/
theorem BlockValid.commits (valid : BlockValid poseidon verify store notesTree content)
    (tempNoir : Bool) (wellFormed : notesTree.tree.WellFormed (merge poseidon))
    (free : ¬notesTree.tree.Collides content.state.insertLeaves) :
    Commits poseidon tempNoir notesTree content := by
  by_cases empty : content.state.insertLeaves = [] ∧ content.state.removeLeaves = []
  · exact valid.commits_of_empty tempNoir empty
  · have nonempty : (content.state.batch content.header.height).isEmpty = false := by
      rw [← Bool.not_eq_true, BlockState.isEmpty_batch]
      exact empty
    have root := valid.root
    rw [AnnouncesRoot, if_neg empty, wellFormed.rootHashWith_eq_ok_iff MERKLE_TREE_DEPTH_pos]
      at root
    obtain ⟨slots, rootEq⟩ := root
    obtain ⟨tree, inserted, _, _, treeRoot⟩ :=
      (valid.fits content.header.height slots free).insertBatch_eq_ok tempNoir
        MERKLE_TREE_DEPTH_pos wellFormed nonempty
    refine ⟨⟨tree⟩, applyBlockToTree_eq_ok_iff.mpr ⟨slots, ?_⟩, ?_⟩
    · rw [Persistent.insertBatch, nonempty, if_neg Bool.false_ne_true, inserted]
      rfl
    · rw [treeRoot, BlockState.insertElements_batch]
      exact rootEq

/-- A block that was applied had no output on an occupied slot. -/
theorem not_collides_of_applyBlockToTree {tempNoir : Bool} {state : BlockState}
    {currentHeight : Nat} {after : PersistentMerkleTree}
    (applied : applyBlockToTree poseidon tempNoir notesTree state currentHeight = .ok after) :
    ¬notesTree.tree.Collides state.insertLeaves := by
  intro collides
  obtain ⟨_, applied⟩ := applyBlockToTree_eq_ok_iff.mp applied
  have nonempty : ¬(state.batch currentHeight).isEmpty = true := by
    rw [BlockState.isEmpty_batch]
    rintro ⟨noInserts, _⟩
    obtain ⟨element, mem, _⟩ := collides
    simp [noInserts] at mem
  rw [Persistent.insertBatch, if_neg nonempty, bind_eq_ok_iff] at applied
  obtain ⟨tree, inserted, _⟩ := applied
  rw [← BlockState.insertElements_batch _ currentHeight] at collides
  exact collides.insertBatch_ne_ok tempNoir inserted

/-- A block with an output on an occupied slot does not commit. -/
theorem not_commits_of_collides {tempNoir : Bool}
    (collides : notesTree.tree.Collides content.state.insertLeaves) :
    ¬Commits poseidon tempNoir notesTree content := by
  rintro ⟨after, applied, _⟩
  exact not_collides_of_applyBlockToTree applied collides

/-- A valid block that was applied leads to the root it announces. -/
theorem BlockValid.rootHash_eq (valid : BlockValid poseidon verify store notesTree content)
    {tempNoir : Bool} {after : PersistentMerkleTree}
    (wellFormed : notesTree.tree.WellFormed (merge poseidon))
    (applied : applyBlockToTree poseidon tempNoir notesTree content.state content.header.height =
      .ok after) : after.tree.rootHash (merge poseidon) = content.state.rootHash := by
  obtain ⟨reached, reachedEq, rooted⟩ :=
    valid.commits tempNoir wellFormed (not_collides_of_applyBlockToTree applied)
  obtain rfl : reached = after := Except.ok.inj (reachedEq.symm.trans applied)
  exact rooted

/-- A validated block commits exactly when none of its outputs falls on the
slot of an element in the tree. -/
theorem commits_iff_not_collides {tempNoir : Bool}
    (reachable : Tree.Reachable (merge poseidon) tempNoir notesTree.tree)
    (validated : content.validate poseidon verify store notesTree = .ok ()) :
    Commits poseidon tempNoir notesTree content ↔
      ¬notesTree.tree.Collides content.state.insertLeaves := by
  have wellFormed := reachable.wellFormed MERKLE_TREE_DEPTH_pos
  constructor
  · exact fun commits collides => not_commits_of_collides collides commits
  · exact fun free => (validate_eq_ok_iff.mp validated).commits tempNoir wellFormed free

/-- Valid transactions on distinct slots make a valid block, with the root that
the tree predicts. -/
theorem exists_validate {header : BlockHeader} {txns : List UtxoProof}
    (wellFormed : notesTree.tree.WellFormed (merge poseidon))
    (valid : ∀ txn ∈ txns, TxnValid verify store notesTree txn)
    (slots : (Batch.slots MERKLE_TREE_DEPTH
      ((BlockState.mk 0 txns).insertLeaves ++ (BlockState.mk 0 txns).removeLeaves)).Nodup) :
    ∃ rootHash, (BlockContent.mk header ⟨rootHash, txns⟩).validate poseidon verify store
      notesTree = .ok () := by
  by_cases empty : (BlockState.mk 0 txns).insertLeaves = [] ∧
      (BlockState.mk 0 txns).removeLeaves = []
  · refine ⟨notesTree.tree.rootHash (merge poseidon), validate_eq_ok_iff.mpr
      ⟨slots.of_map, valid, ?_⟩⟩
    exact (if_pos empty).mpr rfl
  · obtain ⟨rootHash, predicted⟩ : ∃ rootHash, notesTree.tree.rootHashWith (merge poseidon)
        (BlockState.mk 0 txns).insertLeaves (BlockState.mk 0 txns).removeLeaves = .ok rootHash :=
      ⟨_, (wellFormed.rootHashWith_eq_ok_iff MERKLE_TREE_DEPTH_pos).mpr ⟨slots, rfl⟩⟩
    refine ⟨rootHash, validate_eq_ok_iff.mpr ⟨slots.of_map, valid, ?_⟩⟩
    exact (if_neg empty).mpr predicted

/-! ## Blocks with a single output -/

/-- A send without inputs and with one output. -/
def outputTxn (leaf : Element) : UtxoProof where
  proof := []
  publicInputs := .single leaf 1 0 0 0 0

/-- A block that creates one element. -/
def outputBlock (height : Nat) (rootHash leaf : Element) : BlockContent where
  header := ⟨height, 0, 0, 0, []⟩
  state := ⟨rootHash, [outputTxn leaf]⟩

@[simp]
theorem insertLeaves_outputBlock {height : Nat} {rootHash leaf : Element}
    (nonzero : leaf ≠ Element.ZERO) :
    (outputBlock height rootHash leaf).state.insertLeaves = [leaf] := by
  simp [outputBlock, outputTxn, UtxoPublicInput.single, BlockState.insertLeaves, nonzero]

@[simp]
theorem removeLeaves_outputBlock (height : Nat) (rootHash leaf : Element) :
    (outputBlock height rootHash leaf).state.removeLeaves = [] := by
  simp [outputBlock, outputTxn, UtxoPublicInput.single, BlockState.removeLeaves]

/-- A transaction without inputs and with one new output is valid if it mints
nothing that was minted before. -/
theorem singleOutput_valid {leaf : Element} {bytes : List (BitVec 8)}
    {kind noteKind value hash address : Element}
    (verified : verify ⟨bytes, .single leaf kind noteKind value hash address⟩ = true)
    (canonical : leaf < Element.MODULUS) (absent : leaf ∉ notesTree.tree.entries)
    (unrecorded : ¬store.Recorded leaf)
    (mintFresh : ∀ mintHash,
      UtxoProof.mintHash ⟨bytes, .single leaf kind noteKind value hash address⟩ =
        some mintHash → ¬store.Minted mintHash) :
    TxnValid verify store notesTree ⟨bytes, .single leaf kind noteKind value hash address⟩ where
  verified := verified
  inputsDiffer := Or.inl rfl
  outputsDiffer := by
    by_cases zero : leaf = Element.ZERO
    · exact Or.inl zero
    · exact Or.inr zero
  outputs := by
    intro element mem
    rcases List.mem_pair.mp mem with rfl | rfl
    · exact ⟨canonical, fun _ => ⟨absent, unrecorded⟩⟩
    · exact ⟨by decide, fun nonzero => absurd rfl nonzero⟩
  inputs := by
    intro element mem
    rcases List.mem_pair.mp mem with rfl | rfl <;>
      exact ⟨by decide, fun nonzero => absurd rfl nonzero⟩
  mintFresh := mintFresh

@[simp]
theorem mintHash_outputTxn (leaf : Element) : (outputTxn leaf).mintHash = none := by
  simp [UtxoProof.mintHash, outputTxn, UtxoPublicInput.single, UtxoPublicInput.mintHash,
    UtxoPublicInput.kindMessages, UtxoPublicInput.kind, UtxoKind.ofByte, get_eq_getElem]

theorem outputTxn_valid {leaf : Element} (verified : verify (outputTxn leaf) = true)
    (canonical : leaf < Element.MODULUS) (absent : leaf ∉ notesTree.tree.entries)
    (unrecorded : ¬store.Recorded leaf) : TxnValid verify store notesTree (outputTxn leaf) :=
  singleOutput_valid verified canonical absent unrecorded fun mintHash minted => by
    rw [← outputTxn, mintHash_outputTxn] at minted
    cases minted

/-- Some root makes such a block valid on every well-formed tree without its
output, whatever occupies the slot. -/
theorem exists_outputBlock_validate {leaf : Element} (height : Nat)
    (wellFormed : notesTree.tree.WellFormed (merge poseidon))
    (valid : TxnValid verify store notesTree (outputTxn leaf)) (nonzero : leaf ≠ Element.ZERO) :
    ∃ rootHash,
      (outputBlock height rootHash leaf).validate poseidon verify store notesTree = .ok () := by
  refine exists_validate wellFormed (fun txn mem => ?_) ?_
  · rw [List.mem_singleton.mp mem]
    exact valid
  · have inserts : (outputBlock height 0 leaf).state.insertLeaves = [leaf] :=
      insertLeaves_outputBlock nonzero
    have removes := removeLeaves_outputBlock height 0 leaf
    rw [outputBlock] at inserts removes
    rw [inserts, removes]
    simp [Batch.slots]

/-! ## Blocks without commitments -/

/-- A transaction of a kind, without inputs, outputs and value. -/
def leaflessTxn (proof : List (BitVec 8)) (kind hash address : Element) : UtxoProof where
  proof := proof
  publicInputs := .single 0 kind 0 0 hash address

/-- A block of one transaction, with given height and root. -/
def leaflessBlock (height : Nat) (rootHash : Element) (txn : UtxoProof) : Block where
  content := ⟨⟨height, 0, 0, 0, []⟩, ⟨rootHash, [txn]⟩⟩
  signature := ⟨0, 0, 0⟩

@[simp]
theorem leaves_leaflessBlock (height : Nat) (rootHash : Element) (proof : List (BitVec 8))
    (kind hash address : Element) :
    (leaflessBlock height rootHash
        (leaflessTxn proof kind hash address)).content.state.insertLeaves = [] ∧
      (leaflessBlock height rootHash
        (leaflessTxn proof kind hash address)).content.state.removeLeaves = [] := by
  simp [leaflessBlock, leaflessTxn, UtxoPublicInput.single, BlockState.insertLeaves,
    BlockState.removeLeaves]

/-- Such a transaction makes a valid block on the root of the tree unless it is a
mint that was there before. -/
theorem leaflessBlock_valid {proof : List (BitVec 8)} {kind hash address : Element} (height : Nat)
    (verified : verify (leaflessTxn proof kind hash address) = true)
    (mintFresh : ∀ mintHash, (leaflessTxn proof kind hash address).mintHash = some mintHash →
      ¬store.Minted mintHash) :
    BlockValid poseidon verify store notesTree
      (leaflessBlock height (notesTree.tree.rootHash (merge poseidon))
        (leaflessTxn proof kind hash address)).content := by
  have leaves := leaves_leaflessBlock height (notesTree.tree.rootHash (merge poseidon)) proof kind
    hash address
  have padding : ∀ leaf ∈ [(0 : Element), 0], leaf = Element.ZERO := by
    intro leaf mem
    rcases List.mem_pair.mp mem with rfl | rfl <;> rfl
  have canonical : Element.ZERO < Element.MODULUS := by decide
  constructor
  · simp [leaves.1, leaves.2]
  · intro txn mem
    obtain rfl := List.mem_singleton.mp mem
    constructor
    · exact verified
    · exact .inl rfl
    · exact .inl rfl
    · intro leaf mem
      obtain rfl := padding leaf mem
      exact ⟨canonical, fun nonzero => absurd rfl nonzero⟩
    · intro leaf mem
      obtain rfl := padding leaf mem
      exact ⟨canonical, fun nonzero => absurd rfl nonzero⟩
    · exact mintFresh
  · rw [AnnouncesRoot, if_pos leaves]
    rfl

/-- The tree before the first block. -/
def emptyTree : PersistentMerkleTree := ⟨Tree.new⟩

theorem emptyTree_wellFormed : emptyTree.tree.WellFormed (merge poseidon) :=
  Tree.new_wellFormed MERKLE_TREE_DEPTH_pos

theorem not_mem_emptyTree (element : Element) : element ∉ emptyTree.tree.entries :=
  Std.TreeMap.not_mem_emptyc

theorem not_collides_emptyTree (elements : List Element) : ¬emptyTree.tree.Collides elements := by
  rintro ⟨_, _, other, mem, _⟩
  exact not_mem_emptyTree other mem

/-- The first output of a chain commits. -/
theorem outputBlock_commits :
    ∃ rootHash, Commits (fun _ => 0) false emptyTree (outputBlock 1 rootHash 1) := by
  have exists_validated : ∃ rootHash, (outputBlock 1 rootHash 1).validate (fun _ => 0)
      (fun _ => true) {} emptyTree = .ok () :=
    exists_outputBlock_validate 1 emptyTree_wellFormed
      (outputTxn_valid rfl (by decide) (not_mem_emptyTree 1) (BlockStore.not_recorded_empty 1))
      (by decide)
  obtain ⟨rootHash, validated⟩ := exists_validated
  exact ⟨rootHash, (commits_iff_not_collides .new validated).mpr (not_collides_emptyTree _)⟩

/-- Another element on the slot of the element one. -/
def slotOfOne : Element := BitVec.ofNat 256 (2 ^ 160 + 1)

/-- The first output of a chain is the only element of the tree. -/
theorem mem_firstOutput {tempNoir : Bool} {rootHash : Element} {notesTree : PersistentMerkleTree}
    (applied : applyBlockToTree poseidon tempNoir emptyTree (outputBlock 1 rootHash 1).state 1 =
      .ok notesTree) (element : Element) : element ∈ notesTree.tree.entries ↔ element = 1 := by
  have nonzero : (1 : Element) ≠ Element.ZERO := by decide
  rw [mem_of_applyBlockToTree applied, insertLeaves_outputBlock nonzero, removeLeaves_outputBlock]
  simp [not_mem_emptyTree]

/-- On a tree that holds the element one and nothing else, the other element of its
slot makes a valid block which collides. -/
theorem exists_collidingBlock {store : Store} {notesTree : PersistentMerkleTree} (height : Nat)
    (wellFormed : notesTree.tree.WellFormed (merge poseidon))
    (holdsOne : ∀ element, element ∈ notesTree.tree.entries ↔ element = 1)
    (unrecorded : ¬store.Recorded slotOfOne) (verified : verify (outputTxn slotOfOne) = true) :
    ∃ rootHash,
      (outputBlock height rootHash slotOfOne).validate poseidon verify store notesTree = .ok () ∧
        notesTree.tree.Collides (outputBlock height rootHash slotOfOne).state.insertLeaves := by
  have nonzero : slotOfOne ≠ Element.ZERO := by decide
  have differ : slotOfOne ≠ 1 := by decide
  obtain ⟨rootHash, validated⟩ := exists_outputBlock_validate height wellFormed
    (outputTxn_valid verified (by decide) (mt (holdsOne slotOfOne).mp differ) unrecorded) nonzero
  refine ⟨rootHash, validated, ?_⟩
  rw [insertLeaves_outputBlock nonzero]
  exact ⟨slotOfOne, List.mem_singleton_self _, 1, (holdsOne 1).mpr rfl, by decide⟩

/-- A second block whose output falls on the slot of the first block's output
is validated and then refused by the tree, after it has been stored. -/
theorem collidingOutput_not_committed :
    slotOfOne.slot (MERKLE_TREE_DEPTH - 1) = Element.slot 1 (MERKLE_TREE_DEPTH - 1) ∧
      ∀ (poseidon : Poseidon) (keccak : Keccak) (verify : Verify) (signature : Signature),
        verify (outputTxn 1) = true → verify (outputTxn slotOfOne) = true →
          ∃ firstRoot secondRoot notesTree,
            (outputBlock 1 firstRoot 1).validate poseidon verify {} emptyTree = .ok () ∧
            applyBlockToTree poseidon false emptyTree (outputBlock 1 firstRoot 1).state 1 =
              .ok notesTree ∧
            (outputBlock 2 secondRoot slotOfOne).validate poseidon verify
              (BlockStore.set (BlockFormat.indexing poseidon keccak) {}
                (.v2 ⟨outputBlock 1 firstRoot 1, signature⟩ none)) notesTree = .ok () ∧
            ¬Commits poseidon false notesTree (outputBlock 2 secondRoot slotOfOne) := by
  refine ⟨by decide, fun poseidon keccak verify signature firstVerified secondVerified => ?_⟩
  have firstNonzero : (1 : Element) ≠ Element.ZERO := by decide
  have differ : slotOfOne ≠ 1 := by decide
  obtain ⟨firstRoot, firstValidated⟩ := exists_outputBlock_validate 1
    (show emptyTree.tree.WellFormed (merge poseidon) from emptyTree_wellFormed)
    (outputTxn_valid firstVerified (by decide) (not_mem_emptyTree 1)
      (BlockStore.not_recorded_empty 1)) firstNonzero
  obtain ⟨notesTree, applied, _⟩ := (validate_eq_ok_iff.mp firstValidated).commits false
    emptyTree_wellFormed (not_collides_emptyTree _)
  have wellFormed := (applyBlockToTree_reachable .new applied).wellFormed MERKLE_TREE_DEPTH_pos
  have unrecorded : ¬(BlockStore.set (BlockFormat.indexing poseidon keccak) {}
      (.v2 ⟨outputBlock 1 firstRoot 1, signature⟩ none)).Recorded slotOfOne := by
    rw [BlockFormat.recorded_set_iff, BlockFormat.intoBlock, insertLeaves_outputBlock firstNonzero]
    simpa using differ
  obtain ⟨secondRoot, secondValidated, collides⟩ := exists_collidingBlock 2 wellFormed
    (mem_firstOutput applied) unrecorded secondVerified
  exact ⟨firstRoot, secondRoot, notesTree, firstValidated, applied, secondValidated,
    not_commits_of_collides collides⟩

/-! ## A hash that counts levels -/

/-- The hash of a pair is one more than its first part, so that the levels of an
empty tree have different roots. -/
def levelHash : Poseidon := fun inputs => Fin.ofNat modulus ((inputs.headD 0).val + 1)

@[simp]
theorem toBase_merge_levelHash {first second : Element} (small : first.toBase.val + 1 < modulus) :
    (merge levelHash first second).toBase.val = first.toBase.val + 1 := by
  rw [merge, hashMerge, Element.toBase_fromBase, levelHash, List.map_cons, List.headD_cons,
    Fin.val_ofNat, Nat.mod_eq_of_lt small]

/-- The root tells its level and the first leaf. -/
@[simp]
theorem toBase_root_levelHash {leaves : Nat → Element} {level : Nat}
    (small : (leaves 0).toBase.val + level < modulus) :
    (root (merge levelHash) level leaves).toBase.val = (leaves 0).toBase.val + level := by
  induction level with
  | zero => rfl
  | succ level ih =>
      have below := ih (Nat.lt_of_succ_lt small)
      rw [root_succ, toBase_merge_levelHash (by rwa [below]), below]
      rfl

@[simp]
theorem toBase_emptyRoot_levelHash {level : Nat} (small : level < modulus) :
    (emptyRoot (merge levelHash) Element.ZERO level).toBase.val = level := by
  have zero : Element.ZERO.toBase.val = 0 := rfl
  have known := @toBase_root_levelHash (fun _ => Element.ZERO) level
  rw [root_null, zero, Nat.zero_add] at known
  exact known small

/-- An element on the slot of zero. -/
def slotOfZero : Element := BitVec.ofNat 256 (2 ^ 160)

@[simp]
theorem toBase_slotOfZero : slotOfZero.toBase.val = 2 ^ 160 := by
  decide

/-- The leaves of a tree that holds this element alone. -/
def onSlotZero : Nat → Element := Function.update (fun _ => Element.ZERO) 0 slotOfZero

theorem toBase_root_onSlotZero {level : Nat} (small : 2 ^ 160 + level < modulus) :
    (root (merge levelHash) level onSlotZero).toBase.val = 2 ^ 160 + level := by
  have first : (onSlotZero 0).toBase.val = 2 ^ 160 := toBase_slotOfZero
  rw [← first] at small ⊢
  exact toBase_root_levelHash small

/-- Under this hash no two nodes of an empty tree and of the tree with that leaf collide. -/
theorem injOn_nodes_onSlotZero :
    Set.InjOn (Function.uncurry (merge levelHash))
      (nodes (merge levelHash) (MERKLE_TREE_DEPTH - 1) (fun _ => Element.ZERO) ∪
        nodes (merge levelHash) (MERKLE_TREE_DEPTH - 1) onSlotZero) := by
  have small : 2 ^ 160 + MERKLE_TREE_DEPTH < modulus := by decide
  have narrow : MERKLE_TREE_DEPTH < 2 ^ 160 := by decide
  -- the first part of a pair tells its level, and whether the leaf is below it
  have known : ∀ pair ∈ nodes (merge levelHash) (MERKLE_TREE_DEPTH - 1) (fun _ => Element.ZERO) ∪
      nodes (merge levelHash) (MERKLE_TREE_DEPTH - 1) onSlotZero,
      ∃ level < MERKLE_TREE_DEPTH - 1,
        pair.2 = emptyRoot (merge levelHash) Element.ZERO level ∧
          (pair.1 = emptyRoot (merge levelHash) Element.ZERO level ∧ pair.1.toBase.val = level ∨
            pair.1 = root (merge levelHash) level onSlotZero ∧
              pair.1.toBase.val = 2 ^ 160 + level) := by
    rintro pair (mem | mem)
    · rw [nodes_null] at mem
      rcases mem with ⟨level, levelLt, rfl⟩
      exact ⟨level, levelLt, rfl, .inl ⟨rfl, toBase_emptyRoot_levelHash (by omega)⟩⟩
    · rcases nodes_update_zero _ _ _ mem with ⟨level, levelLt, rfl | rfl⟩
      · exact ⟨level, levelLt, rfl, .inl ⟨rfl, toBase_emptyRoot_levelHash (by omega)⟩⟩
      · exact ⟨level, levelLt, rfl, .inr ⟨rfl, toBase_root_onSlotZero (by omega)⟩⟩
  intro pair mem other otherMem same
  rcases known pair mem with ⟨level, levelLt, second, first⟩
  rcases known other otherMem with ⟨otherLevel, otherLt, otherSecond, otherFirst⟩
  have sameVal : pair.1.toBase.val = other.1.toBase.val := by
    have equal : (merge levelHash pair.1 pair.2).toBase.val =
        (merge levelHash other.1 other.2).toBase.val :=
      congrArg (fun element => (Element.toBase element).val) same
    have pairSmall : pair.1.toBase.val + 1 < modulus := by omega
    have otherSmall : other.1.toBase.val + 1 < modulus := by omega
    rw [toBase_merge_levelHash pairSmall, toBase_merge_levelHash otherSmall] at equal
    exact Nat.succ.inj equal
  have sameLevel : level = otherLevel := by omega
  subst sameLevel
  have sameFirst : pair.1 = other.1 := by
    rcases first with ⟨isEmpty, height⟩ | ⟨isLeaf, height⟩
    · rcases otherFirst with ⟨otherEmpty, _⟩ | ⟨_, otherHeight⟩
      · rw [isEmpty, otherEmpty]
      · omega
    · rcases otherFirst with ⟨_, otherHeight⟩ | ⟨otherLeaf, _⟩
      · omega
      · rw [isLeaf, otherLeaf]
  exact Prod.ext sameFirst (second.trans otherSecond.symm)

theorem injOn_nodes_levelHash :
    Set.InjOn (Function.uncurry (merge levelHash))
      (nodes (merge levelHash) (MERKLE_TREE_DEPTH - 1) fun _ => Element.ZERO) :=
  injOn_nodes_onSlotZero.mono Set.subset_union_left

/-- Under this hash no root is zero. -/
theorem root_levelHash_ne_zero {leaves : Nat → Element}
    (small : (leaves 0).toBase.val + (MERKLE_TREE_DEPTH - 1) < modulus) :
    root (merge levelHash) (MERKLE_TREE_DEPTH - 1) leaves ≠ Element.ZERO := by
  intro isZero
  have known := toBase_root_levelHash small
  have zero : Element.ZERO.toBase.val = 0 := rfl
  have deep : 0 < MERKLE_TREE_DEPTH - 1 := by decide
  rw [isZero, zero] at known
  omega

theorem root_vacant_ne_zero :
    root (merge levelHash) (MERKLE_TREE_DEPTH - 1) (fun _ => Element.ZERO) ≠ Element.ZERO := by
  apply root_levelHash_ne_zero
  decide

theorem root_onSlotZero_ne_zero :
    root (merge levelHash) (MERKLE_TREE_DEPTH - 1) onSlotZero ≠ Element.ZERO := by
  apply root_levelHash_ne_zero
  change slotOfZero.toBase.val + _ < modulus
  decide

/-- The root of a tree tells the element on its first slot. -/
theorem toBase_rootHash_levelHash (wellFormed : notesTree.tree.WellFormed (merge levelHash))
    {first : Element} (onFirst : notesTree.tree.leaves 0 = first)
    (small : first.toBase.val + (MERKLE_TREE_DEPTH - 1) < modulus) :
    (notesTree.tree.rootHash (merge levelHash)).toBase.val =
      first.toBase.val + (MERKLE_TREE_DEPTH - 1) := by
  rw [← onFirst] at small
  rw [wellFormed.rootHash_eq, toBase_root_levelHash small, onFirst]

@[simp]
theorem leaves_emptyTree : emptyTree.tree.leaves = fun _ => Element.ZERO := by
  funext slot
  exact Tree.leaves_of_vacant fun element mem => absurd mem (not_mem_emptyTree element)

end Ciphera.Node
