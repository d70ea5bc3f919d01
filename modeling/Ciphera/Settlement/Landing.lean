import Ciphera.Node.BlockHash
import Ciphera.Prover.Prove
import Ciphera.Settlement.Aggregable
import Mathlib.Data.Set.Lattice

/-!
# Where the aggregation of a block lands

The node applies a validated block to the tree in one batch; the prover applies
it transaction by transaction and skips in the circuit what counts as padding.
Both come to the same root unless a transaction of the block counts as padding
and is not.
-/

namespace Ciphera.Settlement

open Ciphera.Lib Ciphera.Lib.Merkle Ciphera.Noir Ciphera.Node Ciphera.Prover Ciphera.Smirk
  Ciphera.Zk

/-- The leaves of the tree after some of the transactions. -/
def stageLeaves (tree : NotesTree) (txns : List UtxoProof) (count : Nat) : Nat → Element :=
  changed (groupChanges (txns.take count)) tree.tree.leaves

/-- No two pairs of nodes that the prover hashes for a block collide, and the root
is never zero, which stands for padding. -/
structure StagesBind (poseidon : Poseidon) (tree : NotesTree) (txns : List UtxoProof) : Prop where
  collisionFree : Set.InjOn (Function.uncurry (merge poseidon))
    (⋃ count, nodes (merge poseidon) (MERKLE_TREE_DEPTH - 1) (stageLeaves tree txns count))
  nonzero : ∀ count,
    root (merge poseidon) (MERKLE_TREE_DEPTH - 1) (stageLeaves tree txns count) ≠ Element.ZERO

/-- The circuit replays each aggregation, the second goes on where the first
ends, and together they lead to the root. -/
structure LeadsTo (poseidon : Poseidon) (proofFields : UtxoProof → Vector Base 508)
    (first second : Option AggUtxo) (root : Element) : Prop where
  replays : ∀ aggregation, first = some aggregation ∨ second = some aggregation →
    aggregation.Replays proofFields poseidon
  continues : (publicInputs second).isPadding = false →
    (publicInputs first).newRoot = (publicInputs second).oldRoot
  newRoot : newRoot (publicInputs first) (publicInputs second) = root

/-- The prover finds the paths of a block, and its aggregations lead to the root of
the tree after the block. -/
def Lands (poseidon : Poseidon) (tempNoir : Bool) (proofFields : UtxoProof → Vector Base 508)
    (tree : NotesTree) (content : BlockContent) : Prop :=
  ∃ first second after,
    generateAggregateProof poseidon tempNoir content.header.height tree content.state.txns =
        .ok (first, second) ∧
      applyBlockToTree poseidon tempNoir ⟨tree.tree⟩ content.state content.header.height =
        .ok after ∧
      LeadsTo poseidon proofFields first second (after.tree.rootHash (merge poseidon))

/-! ## The changes of a block -/

theorem txnChanges_eq (txn : UtxoProof) :
    txnChanges txn = txn.publicInputs.inputElements.map (Smirk.Change.remove, ·) ++
      txn.publicInputs.outputElements.map (Smirk.Change.insert, ·) := by
  have pair : ∀ (kind : Smirk.Change) (commitments : Vector Element 2),
      (commitments.toList.filter (· ≠ Element.ZERO)).map (kind, ·) =
        changeOf kind (commitments.get 0) ++ changeOf kind (commitments.get 1) := by
    intro kind commitments
    have both : commitments.toList = [commitments.get 0, commitments.get 1] :=
      congrArg Vector.toList (pair_eq commitments).symm
    rw [both, changeOf, changeOf]
    split_ifs with first second second <;> simp [first, second]
  rw [UtxoPublicInput.inputElements, UtxoPublicInput.outputElements, pair, pair, txnChanges]
  simp only [List.append_assoc]

/-- A transaction changes nothing exactly when its commitments are padding. -/
@[simp]
theorem txnChanges_eq_nil_iff (txn : UtxoProof) :
    txnChanges txn = [] ↔ BlockLeaves.txnElements txn = [] := by
  rw [txnChanges_eq, BlockLeaves.txnElements]
  simp only [List.append_eq_nil_iff, List.map_eq_nil_iff]
  exact and_comm

/-- The changes of the transactions are the changes of the block. -/
theorem groupChanges_perm (state : BlockState) :
    (groupChanges state.txns).Perm (Smirk.changesOf state.insertLeaves state.removeLeaves) := by
  rw [state.insertLeaves_eq, state.removeLeaves_eq]
  induction state.txns with
  | nil => exact .refl _
  | cons txn txns ih =>
      rw [List.perm_iff_count] at ih ⊢
      intro change
      have rest := ih change
      simp only [groupChanges, Smirk.changesOf, List.flatMap_cons, List.map_append, List.count_append,
        txnChanges_eq] at rest ⊢
      omega

@[simp]
theorem txnChanges_paddingProof : txnChanges paddingProof = [] := rfl

/-- Padding a block adds no changes. -/
@[simp]
theorem groupChanges_padded (txns : List UtxoProof) :
    groupChanges (padded txns) = groupChanges txns := by
  have none : groupChanges (List.replicate (MAXIMUM_TXNS - txns.length) paddingProof) = [] := by
    rw [groupChanges, List.flatMap_eq_nil_iff]
    intro txn mem
    rw [List.eq_of_mem_replicate mem, txnChanges_paddingProof]
  rw [padded, groupChanges, List.flatMap_append, ← groupChanges, ← groupChanges, none,
    List.append_nil]

/-- A valid block without collisions can be applied one change at a time. -/
theorem ready_of_valid {poseidon : Poseidon} {verify : Verify} {store : Store} {tree : NotesTree}
    {content : BlockContent} (wellFormed : tree.tree.WellFormed (merge poseidon))
    (valid : BlockValid poseidon verify store ⟨tree.tree⟩ content)
    (free : ¬tree.tree.Collides content.state.insertLeaves) :
    Ready tree.tree.leaves (groupChanges content.state.txns) := by
  have slots := (valid.root_changedLeaves wellFormed).1
  have fits := valid.fits 0 slots free
  have perm := (groupChanges_perm content.state).trans
    (sortChanges_perm MERKLE_TREE_DEPTH _).symm
  constructor
  · exact (perm.pairwise_iff fun ne => ne.symm).mpr
      ((Batch.distinctSlots_changesOf_iff _ _).mpr slots)
  · intro change mem
    have applicable := fits.applicable wellFormed.distinct
    rw [BlockState.insertElements_batch] at applicable
    exact applicable change (perm.mem_iff.mp mem)
  · rintro ⟨kind, leaf⟩ mem
    have small : leaf < Element.MODULUS := by
      rcases List.mem_flatMap.mp mem with ⟨txn, txnMem, changeMem⟩
      rw [txnChanges_eq, List.mem_append, List.mem_map, List.mem_map] at changeMem
      have txnValid := valid.txns txn txnMem
      rcases changeMem with ⟨_, leafMem, same⟩ | ⟨_, leafMem, same⟩
      · obtain rfl := (Prod.mk.inj same).2
        exact (txnValid.inputs _ (List.mem_of_mem_filter leafMem)).1
      · obtain rfl := (Prod.mk.inj same).2
        exact (txnValid.outputs _ (List.mem_of_mem_filter leafMem)).1
    rwa [BitVec.lt_def, Element.MODULUS_toNat] at small

/-- The tree after a block has the leaves of all its changes. -/
theorem rootHash_of_valid {poseidon : Poseidon} {verify : Verify} {store : Store}
    {tree : NotesTree} {content : BlockContent}
    (wellFormed : tree.tree.WellFormed (merge poseidon))
    (valid : BlockValid poseidon verify store ⟨tree.tree⟩ content) :
    content.state.rootHash = root (merge poseidon) (MERKLE_TREE_DEPTH - 1)
      (changed (groupChanges content.state.txns) tree.tree.leaves) := by
  rcases valid.root_changedLeaves wellFormed with ⟨slots, rooted⟩
  have perm := (groupChanges_perm content.state).trans
    (sortChanges_perm MERKLE_TREE_DEPTH _).symm
  have distinct := (Batch.distinctSlots_changesOf_iff _ _).mpr slots
  have same : changed (groupChanges content.state.txns) tree.tree.leaves =
      changedLeaves ⟨tree.tree⟩ content.state := by
    rw [changed, changedLeaves, applyChanges, applyChanges, ← writeAll_perm _ perm.symm distinct,
      writeAll_perm _ (sortChanges_perm MERKLE_TREE_DEPTH _) distinct]
  rw [same, rooted]

/-! ## The roots on the way -/

@[simp]
theorem groupChanges_take_padded (txns : List UtxoProof) (count : Nat) :
    groupChanges ((padded txns).take count) = groupChanges (txns.take count) := by
  have none : groupChanges ((List.replicate (MAXIMUM_TXNS - txns.length) paddingProof).take
      (count - txns.length)) = [] := by
    rw [groupChanges, List.flatMap_eq_nil_iff]
    intro txn mem
    rw [List.eq_of_mem_replicate (List.mem_of_mem_take mem), txnChanges_paddingProof]
  rw [padded, List.take_append, groupChanges_append, none, List.append_nil]

section

variable {poseidon : Poseidon} {tree : NotesTree} {txns : List UtxoProof}

theorem changed_eq_stageLeaves {done rest : List UtxoProof} (split : padded txns = done ++ rest) :
    changed (groupChanges done) tree.tree.leaves = stageLeaves tree txns done.length := by
  have taken : (padded txns).take done.length = done := by
    rw [split, List.take_left]
  rw [stageLeaves, ← groupChanges_take_padded, taken]

/-- Without collisions the root differs before and after a change. -/
theorem StagesBind.rootsDiffer (binding : StagesBind poseidon tree txns)
    (ready : Ready tree.tree.leaves (groupChanges (padded txns))) :
    RootsDiffer poseidon tree.tree.leaves (padded txns) := by
  intro before step rest split touched same
  have sameRoot : root (merge poseidon) (MERKLE_TREE_DEPTH - 1)
        (changed (groupChanges before) tree.tree.leaves) =
      root (merge poseidon) (MERKLE_TREE_DEPTH - 1)
        (changed (groupChanges (before ++ step)) tree.tree.leaves) := by
    rw [← fromBase_toBase_root, ← rootOf, same, rootOf, fromBase_toBase_root]
  rw [split, groupChanges_append] at ready
  rcases List.exists_mem_of_ne_nil _ touched with ⟨change, mem⟩
  have readyBoth := ready.left
  have readyNext := readyBoth
  rw [groupChanges_append] at readyNext
  rw [changed_eq_stageLeaves (show padded txns = before ++ (step ++ rest) by simp [split]),
    changed_eq_stageLeaves split] at sameRoot
  have stage : ∀ count, nodes (merge poseidon) (MERKLE_TREE_DEPTH - 1)
      (stageLeaves tree txns count) ⊆ ⋃ count, nodes (merge poseidon) (MERKLE_TREE_DEPTH - 1)
        (stageLeaves tree txns count) :=
    Set.subset_iUnion fun count =>
      nodes (merge poseidon) (MERKLE_TREE_DEPTH - 1) (stageLeaves tree txns count)
  have free : Set.InjOn (Function.uncurry (merge poseidon))
      (nodes (merge poseidon) (MERKLE_TREE_DEPTH - 1) (stageLeaves tree txns before.length) ∪
        nodes (merge poseidon) (MERKLE_TREE_DEPTH - 1)
          (stageLeaves tree txns (before ++ step).length)) :=
    binding.collisionFree.mono (Set.union_subset (stage _) (stage _))
  have sameLeaf := eq_of_root_eq free sameRoot _ (change.2.slot_lt (MERKLE_TREE_DEPTH - 1))
  rw [← changed_eq_stageLeaves split, ← changed_eq_stageLeaves
    (show padded txns = before ++ (step ++ rest) by simp [split]),
    readyBoth.changed_groupChanges_append] at sameLeaf
  exact readyNext.right.changed_ne mem sameLeaf.symm

/-! ## Both groups -/

/-- The padding among the transactions changes nothing. -/
def Quiet (txns : List UtxoProof) : Prop :=
  ∀ txn ∈ txns, isPadding txn = true → txnChanges txn = []

@[simp]
theorem quiet_append_iff {first second : List UtxoProof} :
    Quiet (first ++ second) ↔ Quiet first ∧ Quiet second :=
  List.forall_mem_append

theorem groupChanges_of_quiet {utxos : List UtxoProof} (quiet : Quiet utxos)
    (padding : utxos.all isPadding = true) : groupChanges utxos = [] := by
  rw [groupChanges, List.flatMap_eq_nil_iff]
  intro txn mem
  exact quiet txn mem (List.all_eq_true.mp padding txn mem)

theorem quiet_padded_iff :
    Quiet (padded txns) ↔
      ∀ txn ∈ txns, txn.kind = .null → BlockLeaves.txnElements txn = [] := by
  have paddingQuiet : Quiet (List.replicate (MAXIMUM_TXNS - txns.length) paddingProof) := by
    intro txn mem _
    rw [List.eq_of_mem_replicate mem, txnChanges_paddingProof]
  rw [padded, quiet_append_iff, and_iff_left paddingQuiet]
  simp only [Quiet, isPadding, decide_eq_true_iff, txnChanges_eq_nil_iff]

/-- The first group is aggregated exactly when one of the first transactions is
not null. -/
theorem first_all_isPadding_iff :
    ((padded txns).take UTXO_AGG_NUMBER).all isPadding = false ↔
      ∃ txn ∈ txns.take UTXO_AGG_NUMBER, txn.kind ≠ .null := by
  rw [padded, List.take_append, List.all_append, Bool.and_eq_false_iff]
  have padding : ((List.replicate (MAXIMUM_TXNS - txns.length) paddingProof).take
      (UTXO_AGG_NUMBER - txns.length)).all isPadding = true := by
    rw [List.all_eq_true]
    intro txn mem
    rw [List.eq_of_mem_replicate (List.mem_of_mem_take mem)]
    rfl
  rw [padding, or_iff_left Bool.false_ne_true.symm, List.all_eq_false]
  simp only [isPadding, decide_eq_true_iff, ne_eq]

@[simp]
theorem isPadding_eq_false_iff {inputs : AggUtxoPublicInput} :
    inputs.isPadding = false ↔ inputs.oldRoot ≠ Element.ZERO :=
  decide_eq_false_iff_not

@[simp]
theorem stageLeaves_length :
    stageLeaves tree txns txns.length = changed (groupChanges txns) tree.tree.leaves := by
  rw [stageLeaves, List.take_length]

@[simp]
theorem stageLeaves_first :
    changed (groupChanges ((padded txns).take UTXO_AGG_NUMBER)) tree.tree.leaves =
      stageLeaves tree txns UTXO_AGG_NUMBER := by
  rw [stageLeaves, groupChanges_take_padded]

section

variable {proofFields : UtxoProof → Vector Base 508} {leaves : Nat → Element}
  {utxos utxosNext : List UtxoProof} {first second : AggUtxo} {last : Element}

/-- Nothing leads on from a first group of padding. -/
theorem not_leadsTo_of_padding {second : Option AggUtxo} (nonzero : last ≠ Element.ZERO) :
    ¬LeadsTo poseidon proofFields none second last := by
  intro leads
  cases padding : (publicInputs second).isPadding with
  | false =>
      have oldRoot := leads.continues padding
      exact isPadding_eq_false_iff.mp padding oldRoot.symm
  | true =>
      have reached := leads.newRoot
      rw [newRoot, padding, if_pos rfl] at reached
      exact nonzero reached.symm

/-- A single aggregation leads to the last root exactly when all padding changes
nothing. -/
theorem leadsTo_first_iff (aggregates : AggregationOf proofFields poseidon leaves utxos first)
    (ready : Ready leaves (groupChanges (utxos ++ utxosNext)))
    (differ : RootsDiffer poseidon leaves (utxos ++ utxosNext))
    (padding : utxosNext.all isPadding = true)
    (lastEq : last = root (merge poseidon) (MERKLE_TREE_DEPTH - 1)
      (changed (groupChanges (utxos ++ utxosNext)) leaves)) :
    LeadsTo poseidon proofFields (some first) none last ↔ Quiet (utxos ++ utxosNext) := by
  have readyFirst : Ready leaves (groupChanges utxos) := by
    rw [groupChanges_append] at ready
    exact ready.left
  have replays := aggregates.replays_iff readyFirst differ.left
  have reached : newRoot (publicInputs (some first)) (publicInputs none) =
      root (merge poseidon) (MERKLE_TREE_DEPTH - 1) (changed (groupChanges utxos) leaves) := by
    rw [aggregates.publicInputs_eq]
    rfl
  rw [quiet_append_iff]
  constructor
  · intro leads
    have sameRoot := leads.newRoot
    rw [reached, lastEq] at sameRoot
    refine ⟨replays.mp (leads.replays first (.inl rfl)), ?_⟩
    intro txn mem _
    have unchanged : groupChanges utxosNext = [] := by
      by_contra touched
      exact differ utxos utxosNext [] (List.append_nil _).symm touched
        (congrArg Element.toBase sameRoot)
    exact List.flatMap_eq_nil_iff.mp unchanged txn mem
  · rintro ⟨quiet, quietNext⟩
    refine ⟨?_, ?_, ?_⟩
    · rintro aggregation (same | same)
      · obtain rfl := Option.some.inj same
        exact replays.mpr quiet
      · cases same
    · intro notPadding
      cases notPadding
    · rw [reached, lastEq, ready.changed_groupChanges_append, groupChanges_of_quiet quietNext padding]
      rfl

/-- Two aggregations lead to the last root exactly when all padding changes
nothing. -/
theorem leadsTo_both_iff (aggregates : AggregationOf proofFields poseidon leaves utxos first)
    (aggregatesNext : AggregationOf proofFields poseidon (changed (groupChanges utxos) leaves)
      utxosNext second)
    (ready : Ready leaves (groupChanges (utxos ++ utxosNext)))
    (differ : RootsDiffer poseidon leaves (utxos ++ utxosNext))
    (nonzero : root (merge poseidon) (MERKLE_TREE_DEPTH - 1)
      (changed (groupChanges utxos) leaves) ≠ Element.ZERO)
    (lastEq : last = root (merge poseidon) (MERKLE_TREE_DEPTH - 1)
      (changed (groupChanges (utxos ++ utxosNext)) leaves)) :
    LeadsTo poseidon proofFields (some first) (some second) last ↔ Quiet (utxos ++ utxosNext) := by
  have readyBoth := ready
  rw [groupChanges_append] at readyBoth
  have replays := aggregates.replays_iff readyBoth.left differ.left
  have replaysNext := aggregatesNext.replays_iff readyBoth.right (differ.right ready)
  rw [quiet_append_iff]
  constructor
  · intro leads
    exact ⟨replays.mp (leads.replays first (.inl rfl)),
      replaysNext.mp (leads.replays second (.inr rfl))⟩
  · rintro ⟨quiet, quietNext⟩
    have notPadding : (publicInputs (some second)).isPadding = false := by
      rw [isPadding_eq_false_iff, aggregatesNext.publicInputs_eq]
      exact nonzero
    refine ⟨?_, ?_, ?_⟩
    · rintro aggregation (same | same)
      · obtain rfl := Option.some.inj same
        exact replays.mpr quiet
      · obtain rfl := Option.some.inj same
        exact replaysNext.mpr quietNext
    · intro _
      rw [aggregates.publicInputs_eq, aggregatesNext.publicInputs_eq]
    · rw [newRoot, notPadding, if_neg Bool.false_ne_true, aggregatesNext.publicInputs_eq, lastEq,
        ready.changed_groupChanges_append]

end

/-- The prover takes the groups one after the other. -/
theorem generateAggregateProof_eq {tempNoir : Bool} {currentBlock : Nat}
    {middle next : NotesTree} {first second : Option AggUtxo} (short : txns.length ≤ MAXIMUM_TXNS)
    (firstDone : aggregateUtxo poseidon tempNoir currentBlock tree
      ((padded txns).take UTXO_AGG_NUMBER) = .ok (middle, first))
    (secondDone : aggregateUtxo poseidon tempNoir currentBlock middle
      ((padded txns).drop UTXO_AGG_NUMBER) = .ok (next, second)) :
    generateAggregateProof poseidon tempNoir currentBlock tree txns = .ok (first, second) := by
  have six : (padded txns).length = MAXIMUM_TXNS := by
    rw [padded, List.length_append, List.length_replicate, Nat.add_sub_of_le short]
  simp only [generateAggregateProof, check_of _ six, firstDone, secondDone, ok_bind]
  rfl

/-- The aggregations of a block lead to the last root exactly when the first group
is not padding and all padding changes nothing. -/
theorem exists_generateAggregateProof (tempNoir : Bool)
    (proofFields : UtxoProof → Vector Base 508) (currentBlock : Nat)
    (sound : tree.Sound (merge poseidon) (SimpleHashCache.hash (merge poseidon)))
    (short : txns.length ≤ MAXIMUM_TXNS)
    (ready : Ready tree.tree.leaves (groupChanges (padded txns)))
    (binding : StagesBind poseidon tree txns) :
    ∃ first second,
      generateAggregateProof poseidon tempNoir currentBlock tree txns = .ok (first, second) ∧
        (LeadsTo poseidon proofFields first second
            (root (merge poseidon) (MERKLE_TREE_DEPTH - 1)
              (changed (groupChanges (padded txns)) tree.tree.leaves)) ↔
          ((padded txns).take UTXO_AGG_NUMBER).all isPadding = false ∧ Quiet (padded txns)) := by
  have differ := binding.rootsDiffer ready
  have middleNonzero := binding.nonzero UTXO_AGG_NUMBER
  have lastNonzero := binding.nonzero txns.length
  rw [← stageLeaves_first] at middleNonzero
  rw [stageLeaves_length, ← groupChanges_padded] at lastNonzero
  have split := List.take_append_drop UTXO_AGG_NUMBER (padded txns)
  rw [← split] at ready differ
  have readyBoth := ready
  rw [groupChanges_append] at readyBoth
  cases firstPadding : ((padded txns).take UTXO_AGG_NUMBER).all isPadding with
  | true =>
      have firstDone : aggregateUtxo poseidon tempNoir currentBlock tree
          ((padded txns).take UTXO_AGG_NUMBER) = .ok (tree, none) :=
        aggregateUtxo_of_padding currentBlock tree firstPadding
      have nothing : ∀ second, (LeadsTo poseidon proofFields none second
          (root (merge poseidon) (MERKLE_TREE_DEPTH - 1)
            (changed (groupChanges (padded txns)) tree.tree.leaves)) ↔
          true = false ∧ Quiet (padded txns)) := by
        intro second
        exact iff_of_false (not_leadsTo_of_padding lastNonzero) fun both =>
          Bool.false_ne_true both.1.symm
      cases secondPadding : ((padded txns).drop UTXO_AGG_NUMBER).all isPadding with
      | true =>
          exact ⟨none, none, generateAggregateProof_eq short firstDone
            (aggregateUtxo_of_padding currentBlock tree secondPadding), nothing none⟩
      | false =>
          rcases exists_aggregateUtxo proofFields tempNoir currentBlock sound readyBoth.skip
            secondPadding with ⟨next, second, secondDone, _⟩
          exact ⟨none, some second, generateAggregateProof_eq short firstDone secondDone,
            nothing _⟩
  | false =>
      rcases exists_aggregateUtxo proofFields tempNoir currentBlock sound readyBoth.left
        firstPadding with ⟨middle, first, firstDone, middleSound, middleLeaves, aggregates⟩
      cases secondPadding : ((padded txns).drop UTXO_AGG_NUMBER).all isPadding with
      | true =>
          refine ⟨some first, none, generateAggregateProof_eq short firstDone
            (aggregateUtxo_of_padding currentBlock middle secondPadding), ?_⟩
          have leads := leadsTo_first_iff aggregates ready differ secondPadding rfl
          rw [split] at leads
          rw [and_iff_right rfl]
          exact leads
      | false =>
          have readyNext := readyBoth.right
          rw [← middleLeaves] at readyNext
          rcases exists_aggregateUtxo proofFields tempNoir currentBlock middleSound readyNext
            secondPadding with ⟨next, second, secondDone, _, _, aggregatesNext⟩
          refine ⟨some first, some second, generateAggregateProof_eq short firstDone secondDone, ?_⟩
          rw [middleLeaves] at aggregatesNext
          have leads := leadsTo_both_iff aggregates aggregatesNext ready differ middleNonzero rfl
          rw [split] at leads
          rw [and_iff_right rfl]
          exact leads

/-- A validated block without collisions lands on its root exactly when one of the
first three transactions is not null and the null ones have no commitments. -/
theorem lands_iff (tempNoir : Bool) (proofFields : UtxoProof → Vector Base 508) {verify : Verify}
    {store : Store} {content : BlockContent}
    (sound : tree.Sound (merge poseidon) (SimpleHashCache.hash (merge poseidon)))
    (validated : content.validate poseidon verify store ⟨tree.tree⟩ = .ok ())
    (short : content.state.txns.length ≤ MAXIMUM_TXNS)
    (free : ¬tree.tree.Collides content.state.insertLeaves)
    (binding : StagesBind poseidon tree content.state.txns) :
    Lands poseidon tempNoir proofFields tree content ↔
      (∃ txn ∈ content.state.txns.take UTXO_AGG_NUMBER, txn.kind ≠ .null) ∧
        ∀ txn ∈ content.state.txns, txn.kind = .null → BlockLeaves.txnElements txn = [] := by
  have valid := validate_eq_ok_iff.mp validated
  rcases valid.commits tempNoir sound.wellFormed free with ⟨after, applied, rooted⟩
  have lastEq := rooted.trans (rootHash_of_valid sound.wellFormed valid)
  have ready := ready_of_valid sound.wellFormed valid free
  rw [← groupChanges_padded] at ready lastEq
  rcases exists_generateAggregateProof tempNoir proofFields content.header.height sound short ready
    binding with ⟨first, second, generated, leadsIff⟩
  rw [← first_all_isPadding_iff, ← quiet_padded_iff, ← leadsIff, ← lastEq]
  constructor
  · rintro ⟨_, _, _, generatedToo, appliedToo, leads⟩
    obtain ⟨rfl, rfl⟩ := Prod.mk.inj (Except.ok.inj (generated.symm.trans generatedToo))
    obtain rfl := Except.ok.inj (applied.symm.trans appliedToo)
    exact leads
  · intro leads
    exact ⟨first, second, after, generated, applied, leads⟩

/-! ## Padding sends -/

/-- The notes tree before the first block. -/
def emptyNotes : NotesTree := CachedTree.newWithCache {}

theorem emptyNotes_sound :
    emptyNotes.Sound (merge poseidon) (SimpleHashCache.hash (merge poseidon)) := by
  have cacheSound : ({} : SimpleHashCache).Sound (merge poseidon) := by
    constructor
    · intro known mem
      exact absurd mem List.not_mem_nil
    · intro pair result found
      simp at found
  exact ⟨Tree.new_wellFormed MERKLE_TREE_DEPTH_pos, cacheSound.truthful⟩

/-- Transactions without commitments pass through one tree only. -/
theorem stagesBind_emptyNotes (unchanged : ∀ txn ∈ txns, txnChanges txn = []) :
    StagesBind levelHash emptyNotes txns := by
  have same : ∀ count, stageLeaves emptyNotes txns count = fun _ => Element.ZERO := by
    intro count
    have none : groupChanges (txns.take count) = [] := by
      rw [groupChanges, List.flatMap_eq_nil_iff]
      intro txn mem
      exact unchanged txn (List.mem_of_mem_take mem)
    rw [stageLeaves, none]
    exact leaves_emptyTree
  constructor
  · simp only [same, Set.iUnion_const]
    exact injOn_nodes_levelHash
  · intro count
    rw [same]
    exact root_vacant_ne_zero

/-- The block that creates an element on the slot of zero passes through the empty tree and
the tree with that leaf. -/
theorem stageLeaves_slotOfZero (count : Nat) :
    stageLeaves emptyNotes [outputTxn slotOfZero] count = (fun _ => Element.ZERO) ∨
      stageLeaves emptyNotes [outputTxn slotOfZero] count = onSlotZero := by
  have vacant : emptyNotes.tree.leaves = fun _ => Element.ZERO := leaves_emptyTree
  cases count with
  | zero =>
      left
      rw [stageLeaves, List.take_zero, vacant]
      rfl
  | succ count =>
      right
      have changes : groupChanges ([outputTxn slotOfZero].take (count + 1)) =
          [(.insert, slotOfZero)] := by
        rw [List.take_succ_cons, List.take_nil]
        decide
      have onFirst : changeKey (.insert, slotOfZero) % 2 ^ (MERKLE_TREE_DEPTH - 1) = 0 := by decide
      rw [stageLeaves, changes, vacant]
      funext slot
      rw [changed, applyChanges, writeAll, List.find?_singleton, onSlotZero]
      by_cases isZero : slot = 0
      · subst isZero
        simp [onFirst, changeEffect]
      · simp [onFirst, isZero, Ne.symm isZero]

theorem stagesBind_slotOfZero : StagesBind levelHash emptyNotes [outputTxn slotOfZero] where
  collisionFree := by
    apply injOn_nodes_onSlotZero.mono
    apply Set.iUnion_subset
    intro count
    rcases stageLeaves_slotOfZero count with same | same
    · rw [same]
      exact Set.subset_union_left
    · rw [same]
      exact Set.subset_union_right
  nonzero count := by
    rcases stageLeaves_slotOfZero count with same | same
    · rw [same]
      exact root_vacant_ne_zero
    · rw [same]
      exact root_onSlotZero_ne_zero

/-- A block that creates an element lands. -/
theorem firstOutput_lands :
    ∃ rootHash, Lands levelHash false (fun _ => Vector.replicate 508 0) emptyNotes
      (outputBlock 1 rootHash slotOfZero) := by
  have nonzero : slotOfZero ≠ Element.ZERO := by decide
  have valid : TxnValid (fun _ => true) {} emptyTree (outputTxn slotOfZero) :=
    outputTxn_valid rfl (by decide) (not_mem_emptyTree slotOfZero)
      (BlockStore.not_recorded_empty slotOfZero)
  have wellFormed : emptyTree.tree.WellFormed (merge levelHash) := emptyTree_wellFormed
  obtain ⟨rootHash, validated⟩ := exists_outputBlock_validate 1 wellFormed valid nonzero
  have short : [outputTxn slotOfZero].length ≤ MAXIMUM_TXNS := by decide
  have isSend : (outputTxn slotOfZero).kind ≠ .null := by decide
  refine ⟨rootHash, (lands_iff false _ emptyNotes_sound validated short
    (not_collides_emptyTree _) stagesBind_slotOfZero).mpr ⟨?_, ?_⟩⟩
  · exact ⟨outputTxn slotOfZero, List.mem_singleton_self _, isSend⟩
  · intro txn mem isNull
    obtain rfl := List.mem_singleton.mp mem
    exact absurd isNull isSend

/-- The kind of a send as a word that reads as null. -/
def nullSend : Element := 4 * Element.MODULUS + 1

/-- The circuit accepts a padding send whose kind is written so, and validation
accepts a block of it; the prover takes the block for padding and its proof does
not lead to the root of the block. -/
theorem nullSend_not_lands :
    (∀ poseidon, Utxo.main poseidon (paddingWitness 1 0) = .ok () ∧
        (paddingWitness 1 0).publicInputs = (paddingTxn nullSend 0).publicInputs.residues) ∧
      ∀ verify : Verify, verify (paddingTxn nullSend 0) = true → ∃ content : BlockContent,
        content.state.txns = [paddingTxn nullSend 0] ∧
          content.validate levelHash verify {} ⟨emptyNotes.tree⟩ = .ok () ∧
          emptyNotes.Sound (merge levelHash) (SimpleHashCache.hash (merge levelHash)) ∧
          ¬emptyNotes.tree.Collides content.state.insertLeaves ∧
          StagesBind levelHash emptyNotes content.state.txns ∧
          ∀ tempNoir proofFields, ¬Lands levelHash tempNoir proofFields emptyNotes content := by
  constructor
  · intro poseidon
    rcases paddingWitness_accepted poseidon 0 (Or.inl rfl) with ⟨accepted, inputs⟩
    have messages : (paddingTxn 1 0).publicInputs.messages.map Element.toBase =
        (paddingTxn nullSend 0).publicInputs.messages.map Element.toBase := by
      have residue : Element.toBase 1 = Element.toBase nullSend := by decide
      simpa [paddingTxn, UtxoPublicInput.single] using residue
    refine ⟨accepted, ?_⟩
    rw [inputs, UtxoPublicInput.residues, UtxoPublicInput.residues, UtxoPublicInput.fields,
      UtxoPublicInput.fields, Vector.map_append, Vector.map_append, messages]
    rfl
  · intro verify verified
    rcases exists_validate_paddingTxn verified 1 with ⟨rootHash, validated⟩
    have binding : StagesBind levelHash emptyNotes [paddingTxn nullSend 0] := by
      apply stagesBind_emptyNotes
      intro txn mem
      rw [List.mem_singleton.mp mem]
      rfl
    refine ⟨_, rfl, validated, emptyNotes_sound, not_collides_emptyTree _, binding, ?_⟩
    rintro tempNoir proofFields ⟨first, second, after, generated, applied, leads⟩
    have valid := validate_eq_ok_iff.mp validated
    have padding : aggregateUtxo levelHash tempNoir 1 emptyNotes
        [paddingTxn nullSend 0, paddingProof, paddingProof] = .ok (emptyNotes, none) :=
      aggregateUtxo_of_padding 1 emptyNotes (by decide)
    have nothing : aggregateUtxo levelHash tempNoir 1 emptyNotes
        [paddingProof, paddingProof, paddingProof] = .ok (emptyNotes, none) :=
      aggregateUtxo_of_padding 1 emptyNotes (by decide)
    have unproved : generateAggregateProof levelHash tempNoir 1 emptyNotes
        [paddingTxn nullSend 0] = .ok (none, none) :=
      generateAggregateProof_eq (by decide) padding nothing
    obtain ⟨rfl, rfl⟩ := Prod.mk.inj (Except.ok.inj (unproved.symm.trans generated))
    apply not_leadsTo_of_padding _ leads
    rw [valid.rootHash_eq emptyTree_wellFormed applied,
      rootHash_of_valid emptyNotes_sound.wellFormed valid]
    exact binding.nonzero 1

end

end Ciphera.Settlement
