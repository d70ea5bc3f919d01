import Ciphera.Node.FastSync
import Ciphera.Node.Recovery

/-!
# Accepted snapshot chunks

A chunk is accepted on the strength of a predicted root.  The prediction replaces whatever
occupies a slot, a zero in the chunk included, whereas the block is applied by comparing
slots.  The two agree as long as no output of the block, and no zero of the chunk, wants
the slot of an element that the tree keeps.
-/

namespace Ciphera.Node

open Ciphera.Lib Ciphera.Lib.Merkle Ciphera.Noir Ciphera.Smirk Ciphera.Zk

/-- The slot of an element in the notes tree. -/
abbrev noteSlot (element : Element) : Nat := element.slot (MERKLE_TREE_DEPTH - 1)

/-! ## Leaves of a set -/

theorem sparseLeaves_of_mem {DEPTH : Nat} {set : Set Element} {element : Element}
    (distinct : ∀ first ∈ set, ∀ second ∈ set,
      first.slot (DEPTH - 1) = second.slot (DEPTH - 1) → first = second)
    (mem : element ∈ set) : sparseLeaves DEPTH set (element.slot (DEPTH - 1)) = element := by
  have occupied : ∃ other ∈ set, other.slot (DEPTH - 1) = element.slot (DEPTH - 1) :=
    ⟨element, mem, rfl⟩
  rw [sparseLeaves, dif_pos occupied]
  exact distinct _ occupied.choose_spec.1 _ mem occupied.choose_spec.2

theorem sparseLeaves_of_vacant {DEPTH slot : Nat} {set : Set Element}
    (vacant : ∀ element ∈ set, element.slot (DEPTH - 1) ≠ slot) :
    sparseLeaves DEPTH set slot = Element.ZERO := by
  rw [sparseLeaves, dif_neg]
  rintro ⟨element, mem, atSlot⟩
  exact vacant element mem atSlot

/-! ## What an accepted chunk has passed -/

section

variable {poseidon : Poseidon} {tempNoir : Bool} {notesTree after : PersistentMerkleTree}
  {block : Block} {elements : List Element}

/-- The checks that an accepted chunk has passed, and the tree that it leaves. -/
structure Accepted (poseidon : Poseidon) (notesTree : PersistentMerkleTree) (block : Block)
    (elements : List Element) (after : PersistentMerkleTree) : Prop where
  slots : (Batch.slots MERKLE_TREE_DEPTH
    (newElements notesTree elements ++ missingElements notesTree elements)).Nodup
  root : root (merge poseidon) (MERKLE_TREE_DEPTH - 1) (applyChanges (MERKLE_TREE_DEPTH - 1)
      (changesOf (newElements notesTree elements) (missingElements notesTree elements))
      notesTree.tree.leaves) = block.content.state.rootHash
  outputs : ∀ element ∈ block.content.state.insertLeaves,
    element ∈ newElements notesTree elements
  inputs : ∀ element ∈ block.content.state.removeLeaves,
    element ∈ missingElements notesTree elements
  vacant : ∀ element ∈ newElements notesTree elements, element ≠ Element.ZERO →
    element ∉ block.content.state.insertLeaves →
    ∀ other ∈ notesTree.tree.entries, noteSlot other ≠ noteSlot element
  entries : ∀ element, element ∈ after.tree.entries ↔
    (element ∈ notesTree.tree.entries ∧
        (element ∈ elements ∨ element ∈ block.content.state.removeLeaves)) ∨
      element ∈ elements ∧ element ≠ Element.ZERO ∧ element ∉ notesTree.tree.entries ∧
        element ∉ block.content.state.insertLeaves

theorem not_collides_of_persistent_insertBatch {batch : Batch MERKLE_TREE_DEPTH SmirkMetadata}
    (applied : notesTree.insertBatch (merge poseidon) tempNoir batch = .ok after) :
    ¬notesTree.tree.Collides batch.insertElements := by
  intro collides
  unfold Persistent.insertBatch at applied
  split_ifs at applied with empty
  · rcases collides with ⟨element, inserted, _⟩
    simp only [Batch.isEmpty, Bool.and_eq_true, List.isEmpty_iff] at empty
    simp [Batch.insertElements, empty.1] at inserted
  · rcases bind_eq_ok_iff.mp applied with ⟨tree, inserted, _⟩
    exact collides.insertBatch_ne_ok tempNoir inserted

theorem accepted_of_applied (wellFormed : notesTree.tree.WellFormed (merge poseidon))
    (distinctLeaves :
      (block.content.state.insertLeaves ++ block.content.state.removeLeaves).Nodup)
    (applied : chunkOutcome poseidon tempNoir notesTree block elements = .ok (.applied after)) :
    Accepted poseidon notesTree block elements after := by
  rcases chunkOutcome_eq_ok_iff.mp applied with
    ⟨rootHash, predicted, ⟨_, other⟩ | ⟨sameRoot, batch, left, collected, ⟨_, other⟩ |
      ⟨nothingLeft, changed, inserted, isApplied⟩⟩⟩
  · cases other
  · cases other
  · cases isApplied
    rcases (wellFormed.rootHashWith_eq_ok_iff MERKLE_TREE_DEPTH_pos).mp predicted with
      ⟨slots, rooted⟩
    rcases collectChanges_eq_ok_iff.mp collected with ⟨keptSlots, rfl, rfl⟩
    rcases (left_isEmpty_iff distinctLeaves).mp nothingLeft with ⟨notPadded, outputs, inputs⟩
    refine ⟨slots, rooted.trans sameRoot, outputs, inputs, ?_, ?_⟩
    · intro element isNew nonzero notOutput other inTree sameSlot
      have isKept : element ∈ kept true (lastBlockElements block)
          (newElements notesTree elements) :=
        mem_kept_iff.mpr ⟨isNew, nonzero, fun noted =>
          notOutput ((lastBlockElements_eq_true_iff distinctLeaves nonzero).mp noted)⟩
      rw [← insertElements_keptBatch _ _ (missingElements notesTree elements)] at isKept
      exact not_collides_of_persistent_insertBatch inserted
        ⟨element, isKept, other, inTree, sameSlot⟩
    · intro element
      rw [mem_of_persistent_insertBatch inserted, insertElements_keptBatch]
      show element ∉ kept false _ _ ∧ _ ↔ _
      rw [mem_kept_iff, mem_kept_iff, mem_newElements_iff, mem_missingElements_iff]
      by_cases zero : element = Element.ZERO
      · have notInTree : element ∉ notesTree.tree.entries := fun mem =>
          wellFormed.nonzero element mem zero
        clear * - zero notInTree
        tauto
      · rw [ne_eq, ne_eq, ne_eq, lastBlockElements_eq_true_iff distinctLeaves zero,
          lastBlockElements_eq_false_iff distinctLeaves zero]
        clear * - zero
        tauto

/-! ## The block behind the chunk -/

/-- No output of the block wants the slot of an element that the tree keeps. -/
def OutputsApart (notesTree : PersistentMerkleTree) (block : Block) (elements : List Element) :
    Prop :=
  ∀ output ∈ block.content.state.insertLeaves, ∀ other ∈ notesTree.tree.entries,
    other ∈ elements → noteSlot other ≠ noteSlot output

/-- The elements of the chunk. -/
def chunkSet (elements : List Element) : Set Element :=
  {element | element ∈ elements ∧ element ≠ Element.ZERO}

/-- The elements whose root is predicted: a zero in the chunk clears its slot. -/
def predictedSet (elements : List Element) : Set Element :=
  {element | element ∈ chunkSet elements ∧
    (Element.ZERO ∈ elements → noteSlot element ≠ noteSlot Element.ZERO)}

namespace Accepted

variable (accepted : Accepted poseidon notesTree block elements after)

include accepted

/-- New and missing elements are determined by their slots. -/
theorem eq_of_slot {first second : Element}
    (firstMem : first ∈ newElements notesTree elements ++ missingElements notesTree elements)
    (secondMem : second ∈ newElements notesTree elements ++ missingElements notesTree elements)
    (sameSlot : noteSlot first = noteSlot second) : first = second :=
  List.inj_on_of_nodup_map accepted.slots firstMem secondMem sameSlot

theorem slot_ne {created spent : Element} (isNew : created ∈ newElements notesTree elements)
    (isMissing : spent ∈ missingElements notesTree elements) :
    noteSlot spent ≠ noteSlot created := by
  intro sameSlot
  have same := accepted.eq_of_slot (List.mem_append_right _ isMissing)
    (List.mem_append_left _ isNew) sameSlot
  exact (mem_newElements_iff.mp isNew).2 (same ▸ (mem_missingElements_iff.mp isMissing).1)

/-- The elements of the chunk are on distinct slots. -/
theorem distinct_chunkSet (treeDistinct : notesTree.tree.DistinctElements)
    (apart : OutputsApart notesTree block elements) :
    ∀ first ∈ chunkSet elements, ∀ second ∈ chunkSet elements,
      noteSlot first = noteSlot second → first = second := by
  -- a new element and one that the tree keeps
  have mixed : ∀ created ∈ chunkSet elements, ∀ other ∈ elements,
      created ∉ notesTree.tree.entries → other ∈ notesTree.tree.entries →
      noteSlot other ≠ noteSlot created := by
    rintro created ⟨inChunk, nonzero⟩ other otherInChunk notInTree inTree
    have isNew := mem_newElements_iff.mpr ⟨inChunk, notInTree⟩
    by_cases isOutput : created ∈ block.content.state.insertLeaves
    · exact apart created isOutput other inTree otherInChunk
    · exact accepted.vacant created isNew nonzero isOutput other inTree
  intro first firstMem second secondMem sameSlot
  by_cases firstInTree : first ∈ notesTree.tree.entries
  · by_cases secondInTree : second ∈ notesTree.tree.entries
    · exact treeDistinct first firstInTree second secondInTree sameSlot
    · exact absurd sameSlot (mixed second secondMem first firstMem.1 secondInTree firstInTree)
  · by_cases secondInTree : second ∈ notesTree.tree.entries
    · exact absurd sameSlot.symm
        (mixed first firstMem second secondMem.1 firstInTree secondInTree)
    · exact accepted.eq_of_slot
        (List.mem_append_left _ (mem_newElements_iff.mpr ⟨firstMem.1, firstInTree⟩))
        (List.mem_append_left _ (mem_newElements_iff.mpr ⟨secondMem.1, secondInTree⟩)) sameSlot

theorem distinct_predictedSet (wellFormed : notesTree.tree.WellFormed (merge poseidon))
    (apart : OutputsApart notesTree block elements) :
    ∀ first ∈ predictedSet elements, ∀ second ∈ predictedSet elements,
      noteSlot first = noteSlot second → first = second :=
  fun first firstMem second secondMem =>
    accepted.distinct_chunkSet wellFormed.distinct apart first firstMem.1 second secondMem.1

omit accepted in
theorem zero_mem_newElements (wellFormed : notesTree.tree.WellFormed (merge poseidon))
    (inChunk : Element.ZERO ∈ elements) : Element.ZERO ∈ newElements notesTree elements :=
  mem_newElements_iff.mpr ⟨inChunk, fun inTree => wellFormed.nonzero _ inTree rfl⟩

theorem distinctSlots_changes : DistinctSlots changeKey (MERKLE_TREE_DEPTH - 1)
    (changesOf (newElements notesTree elements) (missingElements notesTree elements)) :=
  ((sortChanges_perm MERKLE_TREE_DEPTH _).pairwise_iff fun ne => ne.symm).mp
    ((Batch.distinctSlots_changesOf_iff _ _).mpr accepted.slots)

/-- An insertion replaces what is on its slot. -/
theorem leaf_of_created (wellFormed : notesTree.tree.WellFormed (merge poseidon))
    (apart : OutputsApart notesTree block elements) {element : Element}
    (isNew : element ∈ newElements notesTree elements) :
    applyChanges (MERKLE_TREE_DEPTH - 1)
        (changesOf (newElements notesTree elements) (missingElements notesTree elements))
        notesTree.tree.leaves (noteSlot element) =
      sparseLeaves MERKLE_TREE_DEPTH (predictedSet elements) (noteSlot element) := by
  have change : (Change.insert, element) ∈
      changesOf (newElements notesTree elements) (missingElements notesTree elements) :=
    List.mem_append_left _ (List.mem_map_of_mem isNew)
  have written : applyChanges (MERKLE_TREE_DEPTH - 1) _ notesTree.tree.leaves (noteSlot element) =
      element := writeAll_of_mem _ accepted.distinctSlots_changes change
  rw [written]
  by_cases zero : element = Element.ZERO
  · rw [sparseLeaves_of_vacant, zero]
    intro other otherMem
    exact zero ▸ otherMem.2 (zero ▸ (mem_newElements_iff.mp isNew).1)
  · apply (sparseLeaves_of_mem (accepted.distinct_predictedSet wellFormed apart) _).symm
    refine ⟨⟨(mem_newElements_iff.mp isNew).1, zero⟩, ?_⟩
    intro zeroInChunk sameSlot
    exact zero (accepted.eq_of_slot (List.mem_append_left _ isNew)
      (List.mem_append_left _ (zero_mem_newElements wellFormed zeroInChunk)) sameSlot)

/-- A removal clears its slot. -/
theorem leaf_of_spent (wellFormed : notesTree.tree.WellFormed (merge poseidon))
    {element : Element} (isMissing : element ∈ missingElements notesTree elements) :
    applyChanges (MERKLE_TREE_DEPTH - 1)
        (changesOf (newElements notesTree elements) (missingElements notesTree elements))
        notesTree.tree.leaves (noteSlot element) =
      sparseLeaves MERKLE_TREE_DEPTH (predictedSet elements) (noteSlot element) := by
  have change : (Change.remove, element) ∈
      changesOf (newElements notesTree elements) (missingElements notesTree elements) :=
    List.mem_append_right _ (List.mem_map_of_mem isMissing)
  rcases mem_missingElements_iff.mp isMissing with ⟨inTree, notInChunk⟩
  have written : applyChanges (MERKLE_TREE_DEPTH - 1) _ notesTree.tree.leaves
      (noteSlot element) = changeEffect (.remove, element)
        (notesTree.tree.leaves (noteSlot element)) :=
    writeAll_of_mem _ accepted.distinctSlots_changes change
  rw [written, Tree.leaves_of_mem wellFormed.distinct inTree, sparseLeaves_of_vacant]
  · simp [changeEffect]
  · intro other otherMem sameSlot
    by_cases otherInTree : other ∈ notesTree.tree.entries
    · exact notInChunk
        (wellFormed.distinct other otherInTree element inTree sameSlot ▸ otherMem.1.1)
    · exact accepted.slot_ne (mem_newElements_iff.mpr ⟨otherMem.1.1, otherInTree⟩) isMissing
        sameSlot.symm

/-- Other slots stay as they are. -/
theorem leaf_of_untouched (wellFormed : notesTree.tree.WellFormed (merge poseidon))
    (apart : OutputsApart notesTree block elements) {slot : Nat}
    (created : ¬∃ element ∈ newElements notesTree elements, noteSlot element = slot)
    (spent : ¬∃ element ∈ missingElements notesTree elements, noteSlot element = slot) :
    applyChanges (MERKLE_TREE_DEPTH - 1)
        (changesOf (newElements notesTree elements) (missingElements notesTree elements))
        notesTree.tree.leaves slot =
      sparseLeaves MERKLE_TREE_DEPTH (predictedSet elements) slot := by
  have untouched : applyChanges (MERKLE_TREE_DEPTH - 1)
      (changesOf (newElements notesTree elements) (missingElements notesTree elements))
      notesTree.tree.leaves slot = notesTree.tree.leaves slot := by
    apply writeAll_of_notMem
    intro write mem atSlot
    rcases List.mem_append.mp mem with inserted | removed
    · rcases List.mem_map.mp inserted with ⟨element, isNew, rfl⟩
      exact created ⟨element, isNew, atSlot⟩
    · rcases List.mem_map.mp removed with ⟨element, isMissing, rfl⟩
      exact spent ⟨element, isMissing, atSlot⟩
  rw [untouched]
  by_cases occupied : ∃ element ∈ notesTree.tree.entries, noteSlot element = slot
  · rcases occupied with ⟨element, inTree, rfl⟩
    rw [Tree.leaves_of_mem wellFormed.distinct inTree]
    have inChunk : element ∈ elements := by
      by_contra notInChunk
      exact spent ⟨element, mem_missingElements_iff.mpr ⟨inTree, notInChunk⟩, rfl⟩
    apply (sparseLeaves_of_mem (accepted.distinct_predictedSet wellFormed apart) _).symm
    refine ⟨⟨inChunk, wellFormed.nonzero element inTree⟩, ?_⟩
    intro zeroInChunk sameSlot
    exact created ⟨Element.ZERO, zero_mem_newElements wellFormed zeroInChunk, sameSlot.symm⟩
  · rw [Tree.leaves_of_vacant fun element mem atSlot => occupied ⟨element, mem, atSlot⟩,
      sparseLeaves_of_vacant]
    intro element mem atSlot
    by_cases inTree : element ∈ notesTree.tree.entries
    · exact occupied ⟨element, inTree, atSlot⟩
    · exact created ⟨element, mem_newElements_iff.mpr ⟨mem.1.1, inTree⟩, atSlot⟩

/-- The leaves whose root was compared. -/
theorem predicted_leaves (wellFormed : notesTree.tree.WellFormed (merge poseidon))
    (apart : OutputsApart notesTree block elements) (slot : Nat) :
    applyChanges (MERKLE_TREE_DEPTH - 1)
        (changesOf (newElements notesTree elements) (missingElements notesTree elements))
        notesTree.tree.leaves slot =
      sparseLeaves MERKLE_TREE_DEPTH (predictedSet elements) slot := by
  by_cases created : ∃ element ∈ newElements notesTree elements, noteSlot element = slot
  · rcases created with ⟨element, isNew, rfl⟩
    exact accepted.leaf_of_created wellFormed apart isNew
  · by_cases spent : ∃ element ∈ missingElements notesTree elements, noteSlot element = slot
    · rcases spent with ⟨element, isMissing, rfl⟩
      exact accepted.leaf_of_spent wellFormed isMissing
    · exact accepted.leaf_of_untouched wellFormed apart created spent

theorem rootHash_eq (wellFormed : notesTree.tree.WellFormed (merge poseidon))
    (apart : OutputsApart notesTree block elements) :
    sparseRoot (merge poseidon) MERKLE_TREE_DEPTH (predictedSet elements) =
      block.content.state.rootHash := by
  rw [← accepted.root]
  apply root_congr
  intro slot _
  exact (accepted.predicted_leaves wellFormed apart slot).symm

/-- A block that is applied finds the slots of its outputs free. -/
theorem outputsApart {final : PersistentMerkleTree} {currentHeight : Nat}
    (done : applyBlockToTree poseidon tempNoir after block.content.state currentHeight =
      .ok final) : OutputsApart notesTree block elements := by
  intro output isOutput other inTree inChunk sameSlot
  rcases applyBlockToTree_eq_ok_iff.mp done with ⟨_, inserted⟩
  apply not_collides_of_persistent_insertBatch inserted
  rw [BlockState.insertElements_batch]
  exact ⟨output, isOutput, other, (accepted.entries other).mpr (.inl ⟨inTree, .inl inChunk⟩),
    sameSlot⟩

/-- After the block the tree has the elements of the chunk. -/
theorem mem_final_iff (wellFormed : notesTree.tree.WellFormed (merge poseidon))
    {final : PersistentMerkleTree} {currentHeight : Nat}
    (done : applyBlockToTree poseidon tempNoir after block.content.state currentHeight =
      .ok final) (element : Element) :
    element ∈ final.tree.entries ↔ element ∈ chunkSet elements := by
  rw [mem_of_applyBlockToTree done, accepted.entries]
  change _ ↔ element ∈ elements ∧ element ≠ Element.ZERO
  have outputInChunk : element ∈ block.content.state.insertLeaves →
      element ∈ elements ∧ element ∉ notesTree.tree.entries ∧ element ≠ Element.ZERO :=
    fun isOutput => ⟨(mem_newElements_iff.mp (accepted.outputs element isOutput)).1,
      (mem_newElements_iff.mp (accepted.outputs element isOutput)).2,
      (mem_insertLeaves_iff.mp isOutput).2⟩
  have inputNotInChunk : element ∈ block.content.state.removeLeaves →
      element ∈ notesTree.tree.entries ∧ element ∉ elements :=
    fun isInput => mem_missingElements_iff.mp (accepted.inputs element isInput)
  have treeNonzero := wellFormed.nonzero element
  clear * - outputInChunk inputNotInChunk treeNonzero
  tauto

variable (distinctLeaves :
  (block.content.state.insertLeaves ++ block.content.state.removeLeaves).Nodup)

include distinctLeaves

theorem slots_block :
    (Batch.slots MERKLE_TREE_DEPTH
      (block.content.state.insertLeaves ++ block.content.state.removeLeaves)).Nodup := by
  apply List.Nodup.map_on _ distinctLeaves
  have changed : ∀ element,
      element ∈ block.content.state.insertLeaves ++ block.content.state.removeLeaves →
      element ∈ newElements notesTree elements ++ missingElements notesTree elements := by
    intro element mem
    rcases List.mem_append.mp mem with isOutput | isInput
    · exact List.mem_append_left _ (accepted.outputs element isOutput)
    · exact List.mem_append_right _ (accepted.inputs element isInput)
  intro first firstMem second secondMem
  exact accepted.eq_of_slot (changed first firstMem) (changed second secondMem)

theorem fits_block (apart : OutputsApart notesTree block elements) (currentHeight : Nat) :
    after.tree.Fits (block.content.state.batch currentHeight) where
  slots := by
    rw [BlockState.insertElements_batch]
    exact accepted.slots_block distinctLeaves
  nonzero := by
    intro element mem
    rw [BlockState.insertElements_batch] at mem
    rcases List.mem_append.mp mem with isOutput | isInput
    · exact (mem_insertLeaves_iff.mp isOutput).2
    · exact (mem_removeLeaves_iff.mp isInput).2
  vacant := by
    rw [BlockState.insertElements_batch]
    rintro ⟨output, isOutput, other, mem, sameSlot⟩
    have isNew := accepted.outputs output isOutput
    rcases (accepted.entries other).mp mem with ⟨inTree, inChunk | isInput⟩ |
      ⟨inChunk, _, notInTree, notOutput⟩
    · exact apart output isOutput other inTree inChunk sameSlot
    · exact accepted.slot_ne isNew (accepted.inputs other isInput) sameSlot
    · have same := accepted.eq_of_slot
        (List.mem_append_left _ (mem_newElements_iff.mpr ⟨inChunk, notInTree⟩))
        (List.mem_append_left _ isNew) sameSlot
      exact notOutput (same ▸ isOutput)
  present := by
    intro element isInput
    exact (accepted.entries element).mpr
      (.inl ⟨(mem_missingElements_iff.mp (accepted.inputs element isInput)).1, .inr isInput⟩)

end Accepted

/-- Applying the block leaves exactly the elements of the chunk, on distinct slots, with the
root that the block announces. -/
def LeadsToBlock (poseidon : Poseidon) (tempNoir : Bool) (after : PersistentMerkleTree)
    (block : Block) (elements : List Element) : Prop :=
  ∀ currentHeight, ∃ final,
    applyBlockToTree poseidon tempNoir after block.content.state currentHeight = .ok final ∧
      (∀ element, element ∈ final.tree.entries ↔ element ∈ elements ∧ element ≠ Element.ZERO) ∧
      final.tree.rootHash (merge poseidon) = block.content.state.rootHash ∧
      final.tree.DistinctElements

/-- An accepted chunk leads to its block exactly when no output of the block wants the slot
of an element that the tree keeps, and a zero in the chunk makes no difference to the
root. -/
theorem leadsToBlock_iff
    (reachable : Tree.Reachable (merge poseidon) tempNoir notesTree.tree)
    (distinctLeaves :
      (block.content.state.insertLeaves ++ block.content.state.removeLeaves).Nodup)
    (applied : chunkOutcome poseidon tempNoir notesTree block elements = .ok (.applied after)) :
    LeadsToBlock poseidon tempNoir after block elements ↔
      OutputsApart notesTree block elements ∧
        sparseRoot (merge poseidon) MERKLE_TREE_DEPTH (chunkSet elements) =
          sparseRoot (merge poseidon) MERKLE_TREE_DEPTH (predictedSet elements) := by
  have wellFormed := reachable.wellFormed MERKLE_TREE_DEPTH_pos
  have afterWellFormed := wellFormed_of_applyFastSnapshotChunk wellFormed
    (applyFastSnapshotChunk_of_applied applied)
  have accepted := accepted_of_applied wellFormed distinctLeaves applied
  have rootOf : ∀ {final : PersistentMerkleTree} {currentHeight : Nat},
      applyBlockToTree poseidon tempNoir after block.content.state currentHeight = .ok final →
      final.tree.rootHash (merge poseidon) =
        sparseRoot (merge poseidon) MERKLE_TREE_DEPTH (chunkSet elements) := by
    intro final currentHeight done
    rw [(wellFormed_of_applyBlockToTree afterWellFormed done).rootHash_eq_sparseRoot]
    congr 1
    exact Set.ext (accepted.mem_final_iff wellFormed done)
  constructor
  · intro leads
    rcases leads 0 with ⟨final, done, _, rooted, _⟩
    have apart := accepted.outputsApart done
    exact ⟨apart, by rw [← rootOf done, rooted, accepted.rootHash_eq wellFormed apart]⟩
  · rintro ⟨apart, sameRoot⟩ currentHeight
    rcases exists_insertBatch_of_fits tempNoir afterWellFormed
      (accepted.fits_block distinctLeaves apart currentHeight) with ⟨final, inserted⟩
    have done : applyBlockToTree poseidon tempNoir after block.content.state currentHeight =
        .ok final :=
      applyBlockToTree_eq_ok_iff.mpr ⟨accepted.slots_block distinctLeaves, inserted⟩
    exact ⟨final, done, accepted.mem_final_iff wellFormed done,
      by rw [rootOf done, sameRoot, accepted.rootHash_eq wellFormed apart],
      (wellFormed_of_applyBlockToTree afterWellFormed done).distinct⟩

end

/-! ## Chunks for a block of given transactions -/

/-- A block with some transactions and the root that it announces. -/
def blockOf (rootHash : Element) (txns : List UtxoProof) : Block where
  content := ⟨⟨1, 0, 0, 0, []⟩, ⟨rootHash, txns⟩⟩
  signature := ⟨0, 0, 0⟩

/-- A root can be announced for which a chunk with distinct slots is accepted. -/
theorem exists_accepted {poseidon : Poseidon} {tempNoir : Bool} {notesTree : PersistentMerkleTree}
    {txns : List UtxoProof} {elements : List Element}
    (wellFormed : notesTree.tree.WellFormed (merge poseidon))
    (slots : (Batch.slots MERKLE_TREE_DEPTH
      (newElements notesTree elements ++ missingElements notesTree elements)).Nodup)
    (distinctLeaves :
      ((blockOf 0 txns).content.state.insertLeaves ++
        (blockOf 0 txns).content.state.removeLeaves).Nodup)
    (notPadded : ¬Padded (blockOf 0 txns))
    (outputs : ∀ element ∈ (blockOf 0 txns).content.state.insertLeaves,
      element ∈ newElements notesTree elements)
    (inputs : ∀ element ∈ (blockOf 0 txns).content.state.removeLeaves,
      element ∈ missingElements notesTree elements)
    (vacant : ¬notesTree.tree.Collides (kept true (lastBlockElements (blockOf 0 txns))
      (newElements notesTree elements))) :
    ∃ rootHash after, chunkOutcome poseidon tempNoir notesTree (blockOf rootHash txns) elements =
      .ok (.applied after) := by
  have keptSlots : (Batch.slots MERKLE_TREE_DEPTH
      (kept true (lastBlockElements (blockOf 0 txns)) (newElements notesTree elements) ++
        kept false (lastBlockElements (blockOf 0 txns))
          (missingElements notesTree elements))).Nodup :=
    slots.sublist ((List.filter_sublist.append List.filter_sublist).map _)
  have fits : notesTree.tree.Fits (keptBatch (lastBlockElements (blockOf 0 txns))
      (newElements notesTree elements) (missingElements notesTree elements)) := by
    constructor
    · rwa [insertElements_keptBatch]
    · rw [insertElements_keptBatch]
      intro element mem
      rcases List.mem_append.mp mem with inserted | removed
      · exact (mem_kept_iff.mp inserted).2.1
      · exact (mem_kept_iff.mp removed).2.1
    · rwa [insertElements_keptBatch]
    · intro element mem
      exact (mem_missingElements_iff.mp (mem_kept_iff.mp mem).1).1
  rcases exists_insertBatch_of_fits tempNoir wellFormed fits with ⟨after, inserted⟩
  have predicted := (wellFormed.rootHashWith_eq_ok_iff MERKLE_TREE_DEPTH_pos).mpr ⟨slots, rfl⟩
  have nothingLeft := (left_isEmpty_iff distinctLeaves).mpr ⟨notPadded, outputs, inputs⟩
  exact ⟨_, after, chunkOutcome_eq_ok_iff.mpr ⟨_, predicted, .inr ⟨rfl, _, _,
    collectChanges_eq_ok_iff.mpr ⟨keptSlots, rfl, rfl⟩, .inr ⟨nothingLeft, after, inserted,
      rfl⟩⟩⟩⟩

/-! ## A send in a tree of three elements -/

/-- A send of the elements two and three to four and to an output. -/
def sendTo (output : Element) : UtxoProof where
  proof := []
  publicInputs := ⟨#v[2, 3], #v[output, 4], #v[1, 0, 0, 0, 0]⟩

/-- The elements of a chunk with the outputs of the send and the element five. -/
def elementsWith (output : Element) : List Element := [1, output, 4, 5]

/-- A tree of three elements. -/
theorem exists_threeElements :
    ∃ notesTree : PersistentMerkleTree,
      Tree.Reachable (merge fun _ => 0) false notesTree.tree ∧
        ∀ element, element ∈ notesTree.tree.entries ↔ element ∈ [(1 : Element), 2, 3] := by
  have slots : (Batch.slots MERKLE_TREE_DEPTH [(1 : Element), 2, 3]).Nodup := by decide
  have built : Batch.fromEntries [((1 : Element), SmirkMetadata.mk 0), (2, ⟨0⟩), (3, ⟨0⟩)] [] =
      .ok (⟨[(1, ⟨0⟩), (2, ⟨0⟩), (3, ⟨0⟩)], [], Batch.slots MERKLE_TREE_DEPTH [1, 2, 3]⟩ :
        Batch MERKLE_TREE_DEPTH SmirkMetadata) :=
    (Batch.fromEntries_eq_ok_iff_of_narrow (by decide)).mpr ⟨slots, rfl⟩
  have fits : (Tree.new : Tree MERKLE_TREE_DEPTH SmirkMetadata).Fits
      ⟨[(1, ⟨0⟩), (2, ⟨0⟩), (3, ⟨0⟩)], [], Batch.slots MERKLE_TREE_DEPTH [1, 2, 3]⟩ := by
    refine ⟨slots, ?_, not_collides_emptyTree _, nofun⟩
    intro element mem
    have listed : element ∈ [(1 : Element), 2, 3] := by simpa [Batch.insertElements] using mem
    simp only [List.mem_cons, List.not_mem_nil, or_false] at listed
    rcases listed with rfl | rfl | rfl
    · decide
    · decide
    · decide
  have wellFormed : (Tree.new : Tree MERKLE_TREE_DEPTH SmirkMetadata).WellFormed
      (merge fun _ => 0) := Tree.new_wellFormed MERKLE_TREE_DEPTH_pos
  rcases fits.exists_insertBatch false MERKLE_TREE_DEPTH_pos wellFormed with ⟨after, inserted⟩
  refine ⟨⟨after⟩, .insertBatch .new built inserted, ?_⟩
  intro element
  have notBefore := not_mem_emptyTree element
  rw [Tree.entries_of_insertBatch inserted, Tree.mem_entriesAfter]
  constructor
  · rintro ⟨_, added | before⟩
    · simpa [Batch.insertElements] using added
    · exact absurd before notBefore
  · intro listed
    exact ⟨List.not_mem_nil, .inl (by simpa [Batch.insertElements] using listed)⟩

section

variable {output : Element} {notesTree : PersistentMerkleTree}
  (holds : ∀ element, element ∈ notesTree.tree.entries ↔ element ∈ [(1 : Element), 2, 3])
  (isNew : output ∉ [(1 : Element), 2, 3])
  (slots : (([output, 4, 5] ++ [2, 3]).map noteSlot).Nodup)

section

include holds isNew

theorem mem_new_sendTo (element : Element) :
    element ∈ newElements notesTree (elementsWith output) ↔ element ∈ [output, 4, 5] := by
  rw [mem_newElements_iff, holds]
  constructor
  · rintro ⟨inChunk, notInTree⟩
    rcases List.mem_cons.mp inChunk with rfl | others
    · exact absurd List.mem_cons_self notInTree
    · exact others
  · intro created
    refine ⟨List.mem_cons_of_mem _ created, ?_⟩
    simp only [List.mem_cons, List.not_mem_nil, or_false] at created
    rcases created with rfl | rfl | rfl
    · exact isNew
    · decide
    · decide

theorem mem_missing_sendTo (element : Element) :
    element ∈ missingElements notesTree (elementsWith output) ↔ element ∈ [(2 : Element), 3] := by
  rw [mem_missingElements_iff, holds]
  constructor
  · rintro ⟨inTree, notInChunk⟩
    rcases List.mem_cons.mp inTree with rfl | others
    · exact absurd List.mem_cons_self notInChunk
    · exact others
  · intro spent
    refine ⟨List.mem_cons_of_mem _ spent, fun inChunk => ?_⟩
    rcases List.mem_cons.mp inChunk with rfl | others
    · exact absurd spent (by decide)
    · rcases List.mem_cons.mp others with rfl | others
      · exact isNew (List.mem_cons_of_mem _ spent)
      · simp only [List.mem_cons, List.not_mem_nil, or_false] at others
        rcases others with rfl | rfl
        · exact absurd spent (by decide)
        · exact absurd spent (by decide)

end

section

include holds isNew slots

theorem slots_sendTo :
    (Batch.slots MERKLE_TREE_DEPTH (newElements notesTree (elementsWith output) ++
      missingElements notesTree (elementsWith output))).Nodup := by
  have changed : ∀ element ∈ newElements notesTree (elementsWith output) ++
      missingElements notesTree (elementsWith output),
      element ∈ [output, (4 : Element), 5] ++ [2, 3] := by
    intro element mem
    rcases List.mem_append.mp mem with created | spent
    · exact List.mem_append_left _ ((mem_new_sendTo holds isNew element).mp created)
    · exact List.mem_append_right _ ((mem_missing_sendTo holds isNew element).mp spent)
  have nodup : (newElements notesTree (elementsWith output) ++
      missingElements notesTree (elementsWith output)).Nodup := by
    apply ((List.nodup_dedup _).filter _).append (Std.TreeMap.nodup_keys.filter _)
    intro element created spent
    exact (mem_newElements_iff.mp created).2 (mem_missingElements_iff.mp spent).1
  apply nodup.map_on
  intro first firstMem second secondMem
  exact List.inj_on_of_nodup_map slots (changed first firstMem) (changed second secondMem)

end

@[simp]
theorem removeLeaves_sendTo (rootHash : Element) :
    (blockOf rootHash [sendTo output]).content.state.removeLeaves = [2, 3] := rfl

@[simp]
theorem insertLeaves_sendTo (nonzero : output ≠ Element.ZERO) (rootHash : Element) :
    (blockOf rootHash [sendTo output]).content.state.insertLeaves = [output, 4] := by
  have outputs : (blockOf rootHash [sendTo output]).content.state.insertLeaves =
      [output, 4].filter (· ≠ Element.ZERO) := rfl
  rw [outputs, List.filter_cons_of_pos (by exact decide_eq_true nonzero)]
  rfl

include slots in
theorem distinctLeaves_sendTo (nonzero : output ≠ Element.ZERO) (rootHash : Element) :
    ((blockOf rootHash [sendTo output]).content.state.insertLeaves ++
      (blockOf rootHash [sendTo output]).content.state.removeLeaves).Nodup := by
  rw [insertLeaves_sendTo nonzero, removeLeaves_sendTo]
  have distinct := slots.of_map
  simp only [List.cons_append, List.nil_append, List.nodup_cons, List.mem_cons,
    List.not_mem_nil] at distinct ⊢
  tauto

include holds isNew slots

/-- Besides the outputs of the block only the element five is new, on a free slot. -/
theorem not_collides_kept_sendTo (nonzero : output ≠ Element.ZERO) :
    ¬notesTree.tree.Collides (kept true (lastBlockElements (blockOf 0 [sendTo output]))
      (newElements notesTree (elementsWith output))) := by
  rintro ⟨element, isKept, other, inTree, sameSlot⟩
  rcases mem_kept_iff.mp isKept with ⟨created, elementNonzero, notNoted⟩
  have notOutput : element ∉ [output, 4] := by
    rw [← insertLeaves_sendTo nonzero 0]
    exact mt (lastBlockElements_eq_true_iff (distinctLeaves_sendTo slots nonzero 0)
      elementNonzero).mpr notNoted
  have isFive : element = 5 := by
    have listed := (mem_new_sendTo holds isNew element).mp created
    simp only [List.mem_cons, List.not_mem_nil, or_false, not_or] at listed notOutput
    exact (listed.resolve_left notOutput.1).resolve_left notOutput.2
  subst isFive
  have listed := (holds other).mp inTree
  simp only [List.mem_cons, List.not_mem_nil, or_false] at listed
  rcases listed with rfl | rfl | rfl
  · exact absurd sameSlot (by decide)
  · exact absurd sameSlot (by decide)
  · exact absurd sameSlot (by decide)

/-- The chunk is accepted. -/
theorem exists_accepted_sendTo (wellFormed : notesTree.tree.WellFormed (merge poseidon))
    (tempNoir : Bool) (nonzero : output ≠ Element.ZERO) :
    ∃ rootHash after, chunkOutcome poseidon tempNoir notesTree (blockOf rootHash [sendTo output])
      (elementsWith output) = .ok (.applied after) := by
  have inserted := insertLeaves_sendTo nonzero 0
  have notPadded : ¬Padded (blockOf 0 [sendTo output]) := by
    rintro (mem | mem)
    · have noZero : Element.ZERO ∉ [(2 : Element), 3] := by decide
      exact noZero mem
    · have noZero : Element.ZERO ∉ [(4 : Element)] := by decide
      rcases List.mem_cons.mp mem with isZero | others
      · exact nonzero isZero.symm
      · exact noZero others
  apply exists_accepted wellFormed (slots_sendTo holds isNew slots)
    (distinctLeaves_sendTo slots nonzero 0) notPadded
  · intro element isOutput
    rw [inserted] at isOutput
    exact (mem_new_sendTo holds isNew element).mpr (List.mem_append_left [5] isOutput)
  · intro element isInput
    exact (mem_missing_sendTo holds isNew element).mpr isInput
  · exact not_collides_kept_sendTo holds isNew slots nonzero

end

/-- A chunk for a block that spends two elements and creates two, on free slots. -/
theorem freeSend_leadsToBlock :
    ∃ (notesTree after : PersistentMerkleTree) (rootHash : Element),
      (blockOf rootHash [sendTo 6]).content.state.removeLeaves = [2, 3] ∧
        (blockOf rootHash [sendTo 6]).content.state.insertLeaves = [6, 4] ∧
        chunkOutcome (fun _ => 0) false notesTree (blockOf rootHash [sendTo 6])
          (elementsWith 6) = .ok (.applied after) ∧
        LeadsToBlock (fun _ => 0) false after (blockOf rootHash [sendTo 6]) (elementsWith 6) := by
  rcases exists_threeElements with ⟨notesTree, reachable, holds⟩
  have nonzero : (6 : Element) ≠ Element.ZERO := by decide
  have slots : (([(6 : Element), 4, 5] ++ [2, 3]).map noteSlot).Nodup := by decide
  rcases exists_accepted_sendTo holds (by decide) slots
    (reachable.wellFormed MERKLE_TREE_DEPTH_pos) false nonzero with ⟨rootHash, after, applied⟩
  have sameSet : chunkSet (elementsWith 6) = predictedSet (elementsWith 6) := by
    have noZero : Element.ZERO ∉ elementsWith 6 := by decide
    ext element
    exact ⟨fun mem => ⟨mem, fun zero => absurd zero noZero⟩, fun mem => mem.1⟩
  refine ⟨notesTree, after, rootHash, rfl, insertLeaves_sendTo nonzero rootHash, applied, ?_⟩
  apply (leadsToBlock_iff reachable (distinctLeaves_sendTo slots nonzero rootHash) applied).mpr
  constructor
  · have apart : ([(6 : Element), 4].map noteSlot ++ [(1 : Element), 2, 3].map noteSlot).Nodup := by
      decide
    intro output isOutput other mem _
    rw [insertLeaves_sendTo nonzero rootHash] at isOutput
    have listed := (holds other).mp mem
    exact ((List.nodup_append.mp apart).2.2 _ (List.mem_map_of_mem isOutput) _
      (List.mem_map_of_mem listed)).symm
  · rw [sameSet]

/-! ## A chunk that leads nowhere -/

/-- A send of the elements two and three to four and to another element on the slot of
one. -/
def collidingSend : UtxoProof := sendTo slotOfOne

/-- The elements of a chunk with both elements on the slot of one. -/
def collidingElements : List Element := elementsWith slotOfOne

/-- The chunk is accepted and changes the tree, but the block cannot be applied. -/
theorem collidingSend_not_applied :
    ∃ (notesTree after : PersistentMerkleTree) (rootHash : Element),
      Tree.Reachable (merge fun _ => 0) false notesTree.tree ∧
      ((blockOf rootHash [collidingSend]).content.state.insertLeaves ++
        (blockOf rootHash [collidingSend]).content.state.removeLeaves).Nodup ∧
      chunkOutcome (fun _ => 0) false notesTree (blockOf rootHash [collidingSend])
        collidingElements = .ok (.applied after) ∧
      5 ∉ notesTree.tree.entries ∧ 5 ∈ after.tree.entries ∧
      ¬LeadsToBlock (fun _ => 0) false after (blockOf rootHash [collidingSend])
        collidingElements := by
  rcases exists_threeElements with ⟨notesTree, reachable, holds⟩
  have wellFormed := reachable.wellFormed MERKLE_TREE_DEPTH_pos
  have nonzero : slotOfOne ≠ Element.ZERO := by decide
  have slots : (([slotOfOne, (4 : Element), 5] ++ [2, 3]).map noteSlot).Nodup := by decide
  rcases exists_accepted_sendTo holds (by decide) slots wellFormed false nonzero with
    ⟨rootHash, after, applied⟩
  have distinctLeaves := distinctLeaves_sendTo slots nonzero rootHash
  have passed := accepted_of_applied wellFormed distinctLeaves applied
  have notBefore : 5 ∉ notesTree.tree.entries := by
    rw [holds]
    decide
  refine ⟨notesTree, after, rootHash, reachable, distinctLeaves, applied, notBefore, ?_, ?_⟩
  · have inChunk : (5 : Element) ∈ collidingElements := by decide
    have notOutput : 5 ∉ (blockOf rootHash [collidingSend]).content.state.insertLeaves := by
      rw [collidingSend, insertLeaves_sendTo nonzero]
      decide
    exact (passed.entries 5).mpr (.inr ⟨inChunk, by decide, notBefore, notOutput⟩)
  · intro leads
    rcases leads 0 with ⟨final, done, _⟩
    have kept : (1 : Element) ∈ collidingElements := List.mem_cons_self
    exact passed.outputsApart done slotOfOne List.mem_cons_self 1
      ((holds 1).mpr List.mem_cons_self) kept (by decide)

end Ciphera.Node
