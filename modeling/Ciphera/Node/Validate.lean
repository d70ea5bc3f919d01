import Ciphera.Node.Block
import Ciphera.Smirk.WellFormed

/-!
# Validation of transactions and blocks

A transaction is checked against the notes tree and the indexes of the store.
A block is checked transaction by transaction, its commitments are kept
disjoint, and the root it announces is compared with a predicted one.

Each validator is characterised exactly: it returns successfully if and only if
the conjunction of its checks holds.
-/

namespace Ciphera.Node

open Ciphera.Lib Ciphera.Noir Ciphera.Smirk Ciphera.Zk

/-! ## Transactions -/

/-- The checks of one output commitment. -/
def checkOutput (store : Store) (notesTree : PersistentMerkleTree) (leaf : Element) :
    Result Unit := do
  ensure (¬Element.MODULUS ≤ leaf) (.invalidElementSize leaf)
  if leaf ≠ Element.ZERO then do
    ensure (notesTree.tree.containsElement leaf = false) (.txnOutputCommitmentsExist [leaf])
    -- the note used to be in the tree but was spent since
    ensure ((store.getElementHistory leaf).2.isSome = false)
      (.txnOutputCommitmentsExistedRecently [leaf])
  else
    pure ()

/-- The checks of one input commitment. -/
def checkInput (notesTree : PersistentMerkleTree) (leaf : Element) : Result Unit := do
  ensure (¬Element.MODULUS ≤ leaf) (.invalidElementSize leaf)
  ensure (leaf = Element.ZERO ∨ notesTree.tree.containsElement leaf = true)
    (.txnInputCommitmentsNotInTree [leaf])

/-- The checks of one transaction against the store and the tree. -/
def validateTxn (verify : Verify) (store : Store) (notesTree : PersistentMerkleTree)
    (utxoProof : UtxoProof) : Result Unit := do
  ensure (verify utxoProof = true) .invalidProof
  let inputs := utxoProof.publicInputs.inputCommitments
  ensure (inputs.get 0 = Element.ZERO ∨ inputs.get 0 ≠ inputs.get 1)
    (.txnDuplicateInputCommitments [inputs.get 0])
  let outputs := utxoProof.publicInputs.outputCommitments
  ensure (outputs.get 0 = Element.ZERO ∨ outputs.get 0 ≠ outputs.get 1)
    (.txnDuplicateOutputCommitments [outputs.get 0])
  outputs.toList.forM (checkOutput store notesTree)
  inputs.toList.forM (checkInput notesTree)
  match utxoProof.mintHash with
  | some mintHash =>
      ensure ((store.getMintHash mintHash).isSome = false) (.mintHashAlreadyExists mintHash)
  | none => pure ()

/-- Everything validation establishes of a transaction. -/
structure TxnValid (verify : Verify) (store : Store) (notesTree : PersistentMerkleTree)
    (utxoProof : UtxoProof) : Prop where
  verified : verify utxoProof = true
  inputsDiffer : utxoProof.publicInputs.inputCommitments.get 0 = Element.ZERO ∨
    utxoProof.publicInputs.inputCommitments.get 0 ≠ utxoProof.publicInputs.inputCommitments.get 1
  outputsDiffer : utxoProof.publicInputs.outputCommitments.get 0 = Element.ZERO ∨
    utxoProof.publicInputs.outputCommitments.get 0 ≠
      utxoProof.publicInputs.outputCommitments.get 1
  outputs : ∀ leaf ∈ utxoProof.publicInputs.outputCommitments.toList,
    leaf < Element.MODULUS ∧ (leaf ≠ Element.ZERO →
      leaf ∉ notesTree.tree.entries ∧ ¬store.Recorded leaf)
  inputs : ∀ leaf ∈ utxoProof.publicInputs.inputCommitments.toList,
    leaf < Element.MODULUS ∧ (leaf ≠ Element.ZERO → leaf ∈ notesTree.tree.entries)
  mintFresh : ∀ mintHash, utxoProof.mintHash = some mintHash → ¬store.Minted mintHash

variable {verify : Verify} {store : Store} {notesTree : PersistentMerkleTree}

@[simp]
theorem checkOutput_eq_ok_iff {leaf : Element} {done : Unit} :
    checkOutput store notesTree leaf = .ok done ↔
      leaf < Element.MODULUS ∧ (leaf ≠ Element.ZERO →
        leaf ∉ notesTree.tree.entries ∧ ¬store.Recorded leaf) := by
  unfold checkOutput
  by_cases zero : leaf = Element.ZERO
  · simp only [bind_eq_ok_iff, ensure_eq_ok_iff, BitVec.not_le, ne_eq, zero, not_true_eq_false,
      if_false, pure_eq_ok_iff, exists_const, false_implies, and_true]
  · simp only [bind_eq_ok_iff, ensure_eq_ok_iff, BitVec.not_le, ne_eq, zero, not_false_eq_true,
      if_true, forall_const, exists_and_left, exists_const]
    rw [Bool.eq_false_iff, Bool.eq_false_iff, ne_eq, ne_eq, Tree.containsElement_iff,
      BlockStore.getElementHistory_isSome]

@[simp]
theorem checkInput_eq_ok_iff {leaf : Element} {done : Unit} :
    checkInput notesTree leaf = .ok done ↔
      leaf < Element.MODULUS ∧ (leaf ≠ Element.ZERO → leaf ∈ notesTree.tree.entries) := by
  simp only [checkInput, bind_eq_ok_iff, ensure_eq_ok_iff, BitVec.not_le, exists_and_left,
    exists_const, Tree.containsElement_iff, ne_eq, or_iff_not_imp_left]

/-- A transaction is admitted exactly when it is valid. -/
@[simp]
theorem validateTxn_eq_ok_iff {utxoProof : UtxoProof} {done : Unit} :
    validateTxn verify store notesTree utxoProof = .ok done ↔
      TxnValid verify store notesTree utxoProof := by
  have mintIff : (match utxoProof.mintHash with
      | some mintHash =>
          ensure ((store.getMintHash mintHash).isSome = false) (.mintHashAlreadyExists mintHash)
      | none => pure ()) = .ok done ↔
        ∀ mintHash, utxoProof.mintHash = some mintHash → ¬store.Minted mintHash := by
    cases utxoProof.mintHash with
    | none => simp
    | some mintHash =>
        simp only [ensure_eq_ok_iff, Option.some.injEq, forall_eq', Bool.eq_false_iff, ne_eq,
          BlockStore.getMintHash_isSome]
  simp only [validateTxn, bind_eq_ok_iff, ensure_eq_ok_iff, forM_eq_ok_iff,
    checkOutput_eq_ok_iff, checkInput_eq_ok_iff, exists_and_left, exists_const, mintIff]
  constructor
  · rintro ⟨verified, inputsDiffer, outputsDiffer, outputs, inputs, mintFresh⟩
    exact ⟨verified, inputsDiffer, outputsDiffer, outputs, inputs, mintFresh⟩
  · rintro ⟨verified, inputsDiffer, outputsDiffer, outputs, inputs, mintFresh⟩
    exact ⟨verified, inputsDiffer, outputsDiffer, outputs, inputs, mintFresh⟩

/-! ## Blocks -/

/-- The commitments of the transactions seen so far, each with the hash of its
transaction. -/
structure BlockLeaves where
  insertTxnLeaves : List (Element × Element) := []
  removeTxnLeaves : List (Element × Element) := []

namespace BlockLeaves

/-- All elements that the transactions of a block create or consume. -/
def elements (leaves : BlockLeaves) : List Element :=
  leaves.insertTxnLeaves.map Prod.fst ++ leaves.removeTxnLeaves.map Prod.fst

/-- One more element that a transaction creates. -/
def addInsert (txnHash : Element) (leaves : BlockLeaves) (leaf : Element) : BlockLeaves :=
  { leaves with insertTxnLeaves := leaves.insertTxnLeaves ++ [(leaf, txnHash)] }

/-- One more element that a transaction consumes. -/
def addRemove (txnHash : Element) (leaves : BlockLeaves) (leaf : Element) : BlockLeaves :=
  { leaves with removeTxnLeaves := leaves.removeTxnLeaves ++ [(leaf, txnHash)] }

/-- Take note of a commitment that is not padding unless it has been seen. -/
def claim (add : BlockLeaves → Element → BlockLeaves) (leaves : BlockLeaves) (leaf : Element) :
    Result BlockLeaves :=
  if leaf = Element.ZERO then pure leaves
  else do
    let existingLeafTxnHash :=
      (leaves.insertTxnLeaves.lookup leaf).or (leaves.removeTxnLeaves.lookup leaf)
    ensure (existingLeafTxnHash.isSome = false) (.conflictingElementsInBlock [leaf])
    pure (add leaves leaf)

end BlockLeaves

namespace BlockState

/-- The output commitments of a block, without padding. -/
def insertLeaves (state : BlockState) : List Element :=
  (state.txns.flatMap fun txn => txn.publicInputs.outputCommitments.toList).filter
    (· ≠ Element.ZERO)

/-- The input commitments of a block, without padding. -/
def removeLeaves (state : BlockState) : List Element :=
  (state.txns.flatMap fun txn => txn.publicInputs.inputCommitments.toList).filter
    (· ≠ Element.ZERO)

end BlockState

/-- One round of the loop over the transactions of a block. -/
def validateRound (poseidon : Poseidon) (verify : Verify) (store : Store)
    (notesTree : PersistentMerkleTree) (leaves : BlockLeaves) (utxoProof : UtxoProof) :
    Result BlockLeaves := do
  let txnHash := utxoProof.hash poseidon
  let leaves ← utxoProof.publicInputs.outputCommitments.toList.foldlM
    (BlockLeaves.claim (BlockLeaves.addInsert txnHash)) leaves
  let leaves ← utxoProof.publicInputs.inputCommitments.toList.foldlM
    (BlockLeaves.claim (BlockLeaves.addRemove txnHash)) leaves
  validateTxn verify store notesTree utxoProof
  pure leaves

/-- The root after the noted commitments; without any it does not change. -/
def newRootHash (poseidon : Poseidon) (notesTree : PersistentMerkleTree) (leaves : BlockLeaves) :
    Result Element :=
  if leaves.insertTxnLeaves.isEmpty && leaves.removeTxnLeaves.isEmpty then
    pure (notesTree.tree.rootHash (merge poseidon))
  else
    orPanic (notesTree.tree.rootHashWith (merge poseidon)
      (leaves.insertTxnLeaves.map Prod.fst) (leaves.removeTxnLeaves.map Prod.fst))

/-- The checks of all transactions in turn, and of the root after them. -/
def BlockContent.validate (poseidon : Poseidon) (verify : Verify) (store : Store)
    (notesTree : PersistentMerkleTree) (content : BlockContent) : Result Unit := do
  let leaves ← content.state.txns.foldlM (validateRound poseidon verify store notesTree) {}
  let newRootHash ← newRootHash poseidon notesTree leaves
  check (newRootHash = content.state.rootHash)
    (.error (.invalidBlockRoot newRootHash content.state.rootHash))

/-- The tree after a block. -/
def applyBlockToTree (poseidon : Poseidon) (tempNoir : Bool) (notesTree : PersistentMerkleTree)
    (state : BlockState) (currentHeight : Nat) : Result PersistentMerkleTree := do
  let leavesWithHeight := state.insertLeaves.map fun leaf => (leaf, SmirkMetadata.mk currentHeight)
  let batch ← liftCollision (Batch.fromEntries leavesWithHeight state.removeLeaves)
  liftCollision (notesTree.insertBatch (merge poseidon) tempNoir batch)

/-! ## What a validated block satisfies -/

theorem BlockState.insertLeaves_eq (state : BlockState) :
    state.insertLeaves = state.txns.flatMap fun txn => txn.publicInputs.outputElements :=
  List.filter_flatMap

theorem BlockState.removeLeaves_eq (state : BlockState) :
    state.removeLeaves = state.txns.flatMap fun txn => txn.publicInputs.inputElements :=
  List.filter_flatMap

namespace BlockLeaves

@[simp]
theorem claim_eq_ok_iff {add : BlockLeaves → Element → BlockLeaves} {leaves claimed : BlockLeaves}
    {leaf : Element} :
    claim add leaves leaf = .ok claimed ↔
      if leaf = Element.ZERO then leaves = claimed
      else leaf ∉ leaves.elements ∧ add leaves leaf = claimed := by
  unfold claim
  by_cases zero : leaf = Element.ZERO
  · simp [zero]
  · simp only [zero, if_false, bind_eq_ok_iff, ensure_eq_ok_iff, pure_eq_ok_iff, exists_and_left,
      exists_const, Bool.eq_false_iff, ne_eq, Option.isSome_or, Bool.or_eq_true,
      lookup_isSome_iff, elements, List.mem_append]

/-- Claiming commitments one by one succeeds exactly when those that are not
padding are new and distinct. -/
theorem foldlM_claim_eq_ok_iff {add : BlockLeaves → Element → BlockLeaves}
    (add_elements : ∀ leaves leaf, (add leaves leaf).elements.Perm (leaf :: leaves.elements))
    {leaves claimed : BlockLeaves} {commitments : List Element} (nodup : leaves.elements.Nodup) :
    commitments.foldlM (claim add) leaves = .ok claimed ↔
      (commitments.filter (· ≠ Element.ZERO) ++ leaves.elements).Nodup ∧
        (commitments.filter (· ≠ Element.ZERO)).foldl add leaves = claimed := by
  induction commitments generalizing leaves with
  | nil => simp [nodup]
  | cons leaf commitments ih =>
      rw [List.foldlM_cons, bind_eq_ok_iff]
      simp only [claim_eq_ok_iff]
      by_cases zero : leaf = Element.ZERO
      · simpa [zero] using ih nodup
      · have regroup : (commitments.filter (· ≠ Element.ZERO) ++ (add leaves leaf).elements).Nodup ↔
            ((leaf :: commitments).filter (· ≠ Element.ZERO) ++ leaves.elements).Nodup := by
          rw [List.filter_cons_of_pos (by simpa using zero)]
          exact (((add_elements leaves leaf).append_left _).trans List.perm_middle).nodup_iff
        simp only [zero, if_false]
        constructor
        · rintro ⟨_, ⟨new, rfl⟩, finished⟩
          have added : (add leaves leaf).elements.Nodup :=
            (add_elements leaves leaf).nodup_iff.mpr (List.nodup_cons.mpr ⟨new, nodup⟩)
          rw [ih added, regroup] at finished
          rwa [List.filter_cons_of_pos (by simpa using zero)] at finished ⊢
        · intro finished
          have added : (add leaves leaf).elements.Nodup :=
            (List.nodup_append.mp (regroup.mpr finished.1)).2.1
          have new : leaf ∉ leaves.elements :=
            (List.nodup_cons.mp ((add_elements leaves leaf).nodup_iff.mp added)).1
          refine ⟨_, ⟨new, rfl⟩, ?_⟩
          rw [ih added, regroup]
          rwa [List.filter_cons_of_pos (by simpa using zero)] at finished ⊢

theorem elements_addInsert (txnHash : Element) (leaves : BlockLeaves) (leaf : Element) :
    (addInsert txnHash leaves leaf).elements.Perm (leaf :: leaves.elements) := by
  simp only [elements, addInsert, List.map_append, List.map_cons, List.map_nil, List.append_assoc,
    List.singleton_append]
  exact List.perm_middle

theorem elements_addRemove (txnHash : Element) (leaves : BlockLeaves) (leaf : Element) :
    (addRemove txnHash leaves leaf).elements.Perm (leaf :: leaves.elements) := by
  simp only [elements, addRemove, List.map_append, List.map_cons, List.map_nil,
    ← List.append_assoc]
  exact List.perm_append_singleton _ _

theorem foldl_addInsert (txnHash : Element) (leaves : BlockLeaves) (elements : List Element) :
    elements.foldl (addInsert txnHash) leaves =
      { leaves with
        insertTxnLeaves := leaves.insertTxnLeaves ++ elements.map (·, txnHash) } := by
  induction elements generalizing leaves with
  | nil => simp
  | cons element elements ih => simp [ih, addInsert]

theorem elements_foldl_addInsert (txnHash : Element) (leaves : BlockLeaves)
    (commitments : List Element) :
    (commitments.foldl (addInsert txnHash) leaves).elements.Perm (commitments ++ leaves.elements) := by
  rw [foldl_addInsert, List.perm_iff_count]
  intro element
  simp only [elements, List.map_append, List.map_map, Function.comp_def, List.map_id',
    List.count_append]
  omega

theorem foldl_addRemove (txnHash : Element) (leaves : BlockLeaves) (elements : List Element) :
    elements.foldl (addRemove txnHash) leaves =
      { leaves with
        removeTxnLeaves := leaves.removeTxnLeaves ++ elements.map (·, txnHash) } := by
  induction elements generalizing leaves with
  | nil => simp
  | cons element elements ih => simp [ih, addRemove]

/-- The commitments of one more transaction. -/
def addTxn (poseidon : Poseidon) (leaves : BlockLeaves) (txn : UtxoProof) : BlockLeaves where
  insertTxnLeaves :=
    leaves.insertTxnLeaves ++ txn.publicInputs.outputElements.map (·, txn.hash poseidon)
  removeTxnLeaves :=
    leaves.removeTxnLeaves ++ txn.publicInputs.inputElements.map (·, txn.hash poseidon)

/-- The commitments of a transaction that are not padding. -/
def txnElements (txn : UtxoProof) : List Element :=
  txn.publicInputs.outputElements ++ txn.publicInputs.inputElements

theorem elements_addTxn (poseidon : Poseidon) (leaves : BlockLeaves) (txn : UtxoProof) :
    (leaves.addTxn poseidon txn).elements.Perm (txnElements txn ++ leaves.elements) := by
  have fst : ∀ elements : List Element,
      (elements.map (·, txn.hash poseidon)).map Prod.fst = elements := by
    simp [Function.comp_def]
  simp only [elements, addTxn, txnElements, List.map_append, fst]
  -- both sides count the same four lists
  rw [List.perm_iff_count]
  intro element
  simp only [List.count_append]
  omega

theorem foldl_addTxn_inserts (poseidon : Poseidon) (leaves : BlockLeaves)
    (txns : List UtxoProof) :
    (txns.foldl (addTxn poseidon) leaves).insertTxnLeaves.map Prod.fst =
      leaves.insertTxnLeaves.map Prod.fst ++
        txns.flatMap fun txn => txn.publicInputs.outputElements := by
  induction txns generalizing leaves with
  | nil => simp
  | cons txn txns ih => simp [ih, addTxn, Function.comp_def]

theorem foldl_addTxn_removes (poseidon : Poseidon) (leaves : BlockLeaves)
    (txns : List UtxoProof) :
    (txns.foldl (addTxn poseidon) leaves).removeTxnLeaves.map Prod.fst =
      leaves.removeTxnLeaves.map Prod.fst ++
        txns.flatMap fun txn => txn.publicInputs.inputElements := by
  induction txns generalizing leaves with
  | nil => simp
  | cons txn txns ih => simp [ih, addTxn, Function.comp_def]

end BlockLeaves

open BlockLeaves

variable {poseidon : Poseidon}

theorem validateRound_eq_ok_iff {leaves next : BlockLeaves} {utxoProof : UtxoProof}
    (nodup : leaves.elements.Nodup) :
    validateRound poseidon verify store notesTree leaves utxoProof = .ok next ↔
      (txnElements utxoProof ++ leaves.elements).Nodup ∧
        TxnValid verify store notesTree utxoProof ∧ leaves.addTxn poseidon utxoProof = next := by
  have inserted := elements_foldl_addInsert (utxoProof.hash poseidon) leaves
  simp only [validateRound, bind_eq_ok_iff, pure_eq_ok_iff, validateTxn_eq_ok_iff,
    foldlM_claim_eq_ok_iff (elements_addInsert _) nodup]
  constructor
  · rintro ⟨_, ⟨outputsNew, rfl⟩, _, claimed, _, valid, rfl⟩
    rw [foldlM_claim_eq_ok_iff (elements_addRemove _) ((inserted _).nodup_iff.mpr outputsNew)]
      at claimed
    obtain ⟨inputsNew, rfl⟩ := claimed
    refine ⟨?_, valid, ?_⟩
    · rw [((inserted _).append_left _).nodup_iff] at inputsNew
      refine (List.Perm.nodup_iff ?_).mp inputsNew
      rw [List.perm_iff_count]
      intro element
      simp only [txnElements, UtxoPublicInput.outputElements, UtxoPublicInput.inputElements,
        List.count_append]
      omega
    · rw [foldl_addRemove, foldl_addInsert]
      rfl
  · rintro ⟨fresh, valid, rfl⟩
    have regrouped : (utxoProof.publicInputs.inputElements ++
        (utxoProof.publicInputs.outputElements ++ leaves.elements)).Nodup := by
      refine (List.Perm.nodup_iff ?_).mp fresh
      rw [List.perm_iff_count]
      intro element
      simp only [txnElements, List.count_append]
      omega
    have outputsNew : (utxoProof.publicInputs.outputCommitments.toList.filter
        (· ≠ Element.ZERO) ++ leaves.elements).Nodup := (List.nodup_append.mp regrouped).2.1
    refine ⟨_, ⟨outputsNew, rfl⟩, _, ?_, (), valid, rfl⟩
    rw [foldlM_claim_eq_ok_iff (elements_addRemove _) ((inserted _).nodup_iff.mpr outputsNew),
      ((inserted _).append_left _).nodup_iff]
    refine ⟨regrouped, ?_⟩
    rw [foldl_addRemove, foldl_addInsert]
    rfl

/-- The commitments of several transactions that are not padding. -/
def blockElements (txns : List UtxoProof) : List Element := txns.flatMap txnElements

theorem foldlM_validateRound_eq_ok_iff {leaves next : BlockLeaves} {txns : List UtxoProof}
    (nodup : leaves.elements.Nodup) :
    txns.foldlM (validateRound poseidon verify store notesTree) leaves = .ok next ↔
      (blockElements txns ++ leaves.elements).Nodup ∧
        (∀ txn ∈ txns, TxnValid verify store notesTree txn) ∧
          txns.foldl (addTxn poseidon) leaves = next := by
  induction txns generalizing leaves with
  | nil => simp [blockElements, nodup]
  | cons txn txns ih =>
      have regroup : (blockElements txns ++ (leaves.addTxn poseidon txn).elements).Perm
          (blockElements (txn :: txns) ++ leaves.elements) := by
        refine ((elements_addTxn poseidon leaves txn).append_left _).trans ?_
        rw [List.perm_iff_count]
        intro element
        simp only [blockElements, List.flatMap_cons, List.count_append]
        omega
      simp only [List.foldlM_cons, bind_eq_ok_iff, validateRound_eq_ok_iff nodup,
        List.forall_mem_cons, List.foldl_cons]
      constructor
      · rintro ⟨_, ⟨fresh, valid, rfl⟩, finished⟩
        rw [ih ((elements_addTxn poseidon leaves txn).nodup_iff.mpr fresh), regroup.nodup_iff]
          at finished
        exact ⟨finished.1, ⟨valid, finished.2.1⟩, finished.2.2⟩
      · rintro ⟨distinct, ⟨valid, rest⟩, nextEq⟩
        have added : (leaves.addTxn poseidon txn).elements.Nodup :=
          (List.nodup_append.mp (regroup.nodup_iff.mpr distinct)).2.1
        refine ⟨_, ⟨(elements_addTxn poseidon leaves txn).nodup_iff.mp added, valid, rfl⟩, ?_⟩
        rw [ih added, regroup.nodup_iff]
        exact ⟨distinct, rest, nextEq⟩

/-- The root a block must announce. -/
def AnnouncesRoot (poseidon : Poseidon) (notesTree : PersistentMerkleTree) (state : BlockState) :
    Prop :=
  if state.insertLeaves = [] ∧ state.removeLeaves = [] then
    notesTree.tree.rootHash (merge poseidon) = state.rootHash
  else
    notesTree.tree.rootHashWith (merge poseidon) state.insertLeaves state.removeLeaves =
      .ok state.rootHash

/-- Everything validation establishes of a block. -/
structure BlockValid (poseidon : Poseidon) (verify : Verify) (store : Store)
    (notesTree : PersistentMerkleTree) (content : BlockContent) : Prop where
  distinct : (content.state.insertLeaves ++ content.state.removeLeaves).Nodup
  txns : ∀ txn ∈ content.state.txns, TxnValid verify store notesTree txn
  root : AnnouncesRoot poseidon notesTree content.state

theorem blockElements_perm (state : BlockState) :
    (blockElements state.txns).Perm (state.insertLeaves ++ state.removeLeaves) := by
  rw [state.insertLeaves_eq, state.removeLeaves_eq]
  induction state.txns with
  | nil => simp [blockElements]
  | cons txn txns ih =>
      rw [List.perm_iff_count] at ih ⊢
      intro element
      have rest := ih element
      simp only [blockElements, txnElements, List.flatMap_cons, List.count_append] at rest ⊢
      omega

theorem newRootHash_eq_ok_iff {leaves : BlockLeaves} {state : BlockState}
    (inserts : leaves.insertTxnLeaves.map Prod.fst = state.insertLeaves)
    (removes : leaves.removeTxnLeaves.map Prod.fst = state.removeLeaves) :
    newRootHash poseidon notesTree leaves = .ok state.rootHash ↔
      AnnouncesRoot poseidon notesTree state := by
  have emptyIff : (leaves.insertTxnLeaves.isEmpty && leaves.removeTxnLeaves.isEmpty) = true ↔
      state.insertLeaves = [] ∧ state.removeLeaves = [] := by
    rw [← inserts, ← removes, Bool.and_eq_true, List.isEmpty_iff, List.isEmpty_iff,
      List.map_eq_nil_iff, List.map_eq_nil_iff]
  rw [newRootHash, AnnouncesRoot, inserts, removes]
  by_cases empty : state.insertLeaves = [] ∧ state.removeLeaves = []
  · rw [if_pos (emptyIff.mpr empty), if_pos empty, pure_eq_ok_iff]
  · rw [if_neg (mt emptyIff.mp empty), if_neg empty, orPanic_eq_ok_iff]

/-- The commitments that are collected are those of the block. -/
@[simp]
theorem map_insertTxnLeaves (poseidon : Poseidon) (state : BlockState) :
    (state.txns.foldl (addTxn poseidon) {}).insertTxnLeaves.map Prod.fst = state.insertLeaves := by
  rw [foldl_addTxn_inserts, state.insertLeaves_eq]
  rfl

@[simp]
theorem map_removeTxnLeaves (poseidon : Poseidon) (state : BlockState) :
    (state.txns.foldl (addTxn poseidon) {}).removeTxnLeaves.map Prod.fst = state.removeLeaves := by
  rw [foldl_addTxn_removes, state.removeLeaves_eq]
  rfl

@[simp]
theorem nodup_blockElements_iff (state : BlockState) :
    (blockElements state.txns ++ ({} : BlockLeaves).elements).Nodup ↔
      (state.insertLeaves ++ state.removeLeaves).Nodup := by
  rw [← (blockElements_perm state).nodup_iff]
  exact (List.append_nil (blockElements state.txns)).symm ▸ Iff.rfl

/-- A block is accepted exactly when it is valid. -/
@[simp]
theorem validate_eq_ok_iff {content : BlockContent} {done : Unit} :
    content.validate poseidon verify store notesTree = .ok done ↔
      BlockValid poseidon verify store notesTree content := by
  have start : ({} : BlockLeaves).elements.Nodup := List.nodup_nil
  have inserts := map_insertTxnLeaves poseidon content.state
  have removes := map_removeTxnLeaves poseidon content.state
  simp only [BlockContent.validate, bind_eq_ok_iff, foldlM_validateRound_eq_ok_iff start,
    nodup_blockElements_iff, check_eq_ok_iff]
  constructor
  · rintro ⟨_, ⟨distinct, valid, rfl⟩, _, rooted, rfl⟩
    exact ⟨distinct, valid, (newRootHash_eq_ok_iff inserts removes).mp rooted⟩
  · rintro ⟨distinct, valid, rooted⟩
    exact ⟨_, ⟨distinct, valid, rfl⟩, _, (newRootHash_eq_ok_iff inserts removes).mpr rooted, rfl⟩

end Ciphera.Node
