import Ciphera.Node.History
import Ciphera.Node.Snapshot

/-!
# Fast sync from an honest sender

The sender derives the elements of a past height from its present tree: those
that are there and were inserted up to that height.  Elements that were spent
since are missing.  The receiver moves its tree towards these elements, less the
changes of the block itself, and insists on meeting every element of the block,
its padding included.
-/

namespace Ciphera.Node

open Ciphera.Lib Ciphera.Lib.Merkle Ciphera.Noir Ciphera.Smirk Ciphera.Zk

/-! ## Collecting the changes -/

/-- The elements that are not left to the block. -/
def kept (isAdd : Bool) (noted : Std.TreeMap Element Bool) (elements : List Element) :
    List Element :=
  elements.filter fun element => element ≠ Element.ZERO && noted[element]? ≠ some isAdd

/-- The elements that the block takes care of. -/
def met (isAdd : Bool) (noted : Std.TreeMap Element Bool) (elements : List Element) :
    List Element :=
  elements.filter fun element => element ≠ Element.ZERO && noted[element]? = some isAdd

theorem foldlM_collect_eq (isAdd : Bool)
    (add : Batch MERKLE_TREE_DEPTH SmirkMetadata → Element →
      Except (Stop CollisionError) (Batch MERKLE_TREE_DEPTH SmirkMetadata))
    (noted left : Std.TreeMap Element Bool) (batch : Batch MERKLE_TREE_DEPTH SmirkMetadata)
    (elements : List Element) :
    elements.foldlM (collect isAdd add noted) (batch, left) =
      (kept isAdd noted elements).foldlM add batch >>= fun batch =>
        pure (batch, (met isAdd noted elements).foldl (fun left element => left.erase element)
          left) := by
  induction elements generalizing batch left with
  | nil => rfl
  | cons element elements ih =>
      rw [List.foldlM_cons, collect]
      by_cases zero : element = Element.ZERO
      · simpa [zero, kept, met] using ih left batch
      · by_cases isNoted : noted[element]? = some isAdd
        · simpa [zero, isNoted, kept, met] using ih (left.erase element) batch
        · have keptEq : kept isAdd noted (element :: elements) =
              element :: kept isAdd noted elements := by
            simp [kept, zero, isNoted]
          have metEq : met isAdd noted (element :: elements) = met isAdd noted elements := by
            simp [met, isNoted]
          rw [keptEq, metEq, List.foldlM_cons, if_neg zero, if_neg isNoted]
          simp only [bind_assoc, pure_bind]
          apply bind_congr
          intro changed
          exact ih left changed

/-- The changes that are not left to the block, as a batch. -/
def keptBatch (noted : Std.TreeMap Element Bool) (inserts removes : List Element) :
    Batch MERKLE_TREE_DEPTH SmirkMetadata where
  entries := (kept true noted inserts).map fun element => (element, ⟨0⟩)
  removeEntries := kept false noted removes
  lsbs := Batch.slots MERKLE_TREE_DEPTH (kept true noted inserts ++ kept false noted removes)

@[simp]
theorem insertElements_keptBatch (noted : Std.TreeMap Element Bool)
    (inserts removes : List Element) :
    (keptBatch noted inserts removes).insertElements = kept true noted inserts := by
  simp [keptBatch, Batch.insertElements, Function.comp_def]

/-- The changes can be collected exactly when their slots are distinct. -/
theorem collectChanges_eq_ok_iff {noted left : Std.TreeMap Element Bool}
    {inserts removes : List Element} {batch : Batch MERKLE_TREE_DEPTH SmirkMetadata} :
    collectChanges noted inserts removes = .ok (batch, left) ↔
      (Batch.slots MERKLE_TREE_DEPTH (kept true noted inserts ++ kept false noted removes)).Nodup ∧
        batch = keptBatch noted inserts removes ∧
        left = (met true noted inserts ++ met false noted removes).foldl
          (fun left element => left.erase element) noted := by
  have asEntries : collectChanges noted inserts removes =
      Batch.fromEntries ((kept true noted inserts).map fun element => (element, ⟨0⟩))
          (kept false noted removes) >>= fun batch =>
        pure (batch, (met true noted inserts ++ met false noted removes).foldl
          (fun left element => left.erase element) noted) := by
    simp only [collectChanges, Batch.fromEntries, foldlM_collect_eq, bind_assoc, pure_bind,
      List.foldlM_map, List.foldl_append]
  have elements : ((kept true noted inserts).map fun element =>
      (element, SmirkMetadata.mk 0)).map Prod.fst = kept true noted inserts := by
    simp [Function.comp_def]
  have narrow : MERKLE_TREE_DEPTH ≤ 257 := by decide
  rw [asEntries]
  simp only [bind_eq_ok_iff, Batch.fromEntries_eq_ok_iff_of_narrow narrow, elements, pure_eq_ok_iff,
    Prod.mk.injEq]
  constructor
  · rintro ⟨_, ⟨nodup, rfl⟩, rfl, rfl⟩
    exact ⟨nodup, rfl, rfl⟩
  · rintro ⟨nodup, rfl, rfl⟩
    exact ⟨_, ⟨nodup, rfl⟩, rfl, rfl⟩

/-! ## The elements of the block -/

theorem getElem?_noteAll (isAdd : Bool) (elements : List Element)
    (noted : Std.TreeMap Element Bool) (element : Element) :
    (noteAll isAdd elements noted)[element]? =
      if element ∈ elements then some isAdd else noted[element]? := by
  simpa [noteAll] using getElem?_foldl_insert id isAdd elements noted element

/-- The elements of transactions as they are noted. -/
def noteTxns (txns : List UtxoProof) : Std.TreeMap Element Bool :=
  txns.foldl
    (fun noted utxo =>
      noteAll true utxo.publicInputs.outputCommitments.toList
        (noteAll false utxo.publicInputs.inputCommitments.toList noted)) ∅

/-- All input commitments, padding included. -/
def inputsOf (txns : List UtxoProof) : List Element :=
  txns.flatMap fun txn => txn.publicInputs.inputCommitments.toList

/-- All output commitments, padding included. -/
def outputsOf (txns : List UtxoProof) : List Element :=
  txns.flatMap fun txn => txn.publicInputs.outputCommitments.toList

@[simp]
theorem getElem?_noteTxns_snoc (txns : List UtxoProof) (txn : UtxoProof) (element : Element) :
    (noteTxns (txns ++ [txn]))[element]? =
      if element ∈ txn.publicInputs.outputCommitments.toList then some true
      else if element ∈ txn.publicInputs.inputCommitments.toList then some false
      else (noteTxns txns)[element]? := by
  rw [noteTxns, List.foldl_concat, getElem?_noteAll, getElem?_noteAll]
  rfl

@[simp]
theorem mem_noteTxns_iff (txns : List UtxoProof) (element : Element) :
    element ∈ noteTxns txns ↔ element ∈ inputsOf txns ∨ element ∈ outputsOf txns := by
  rw [← Std.TreeMap.isSome_getElem?_iff_mem]
  induction txns using List.reverseRecOn with
  | nil => simp [noteTxns, inputsOf, outputsOf]
  | append_singleton txns txn ih =>
      rw [getElem?_noteTxns_snoc]
      simp only [inputsOf, outputsOf, List.flatMap_append, List.flatMap_singleton,
        List.mem_append] at ih ⊢
      by_cases isOutput : element ∈ txn.publicInputs.outputCommitments.toList
      · simp [isOutput]
      · by_cases isInput : element ∈ txn.publicInputs.inputCommitments.toList
        · simp [isOutput, isInput]
        · simpa [isOutput, isInput] using ih

/-- An element that is only an output is noted as added. -/
theorem getElem?_noteTxns_of_output {txns : List UtxoProof} {element : Element}
    (isOutput : element ∈ outputsOf txns) (notInput : element ∉ inputsOf txns) :
    (noteTxns txns)[element]? = some true := by
  induction txns using List.reverseRecOn with
  | nil => simp [outputsOf] at isOutput
  | append_singleton txns txn ih =>
      rw [getElem?_noteTxns_snoc]
      simp only [inputsOf, outputsOf, List.flatMap_append, List.flatMap_singleton,
        List.mem_append, not_or] at isOutput notInput ih
      rcases isOutput with earlier | last
      · rw [if_neg notInput.2, ih earlier notInput.1, ite_self]
      · rw [if_pos last]

/-- An element that is only an input is noted as removed. -/
theorem getElem?_noteTxns_of_input {txns : List UtxoProof} {element : Element}
    (isInput : element ∈ inputsOf txns) (notOutput : element ∉ outputsOf txns) :
    (noteTxns txns)[element]? = some false := by
  induction txns using List.reverseRecOn with
  | nil => simp [inputsOf] at isInput
  | append_singleton txns txn ih =>
      rw [getElem?_noteTxns_snoc]
      simp only [inputsOf, outputsOf, List.flatMap_append, List.flatMap_singleton,
        List.mem_append, not_or] at isInput notOutput ih
      rw [if_neg notOutput.2]
      rcases isInput with earlier | last
      · rw [ih earlier notOutput.1, ite_self]
      · rw [if_pos last]

/-- Some commitment of the block is padding. -/
def Padded (block : Block) : Prop :=
  Element.ZERO ∈ inputsOf block.content.state.txns ∨
    Element.ZERO ∈ outputsOf block.content.state.txns

theorem mem_insertLeaves_iff {state : BlockState} {element : Element} :
    element ∈ state.insertLeaves ↔ element ∈ outputsOf state.txns ∧ element ≠ Element.ZERO := by
  simp [BlockState.insertLeaves, outputsOf]

theorem mem_removeLeaves_iff {state : BlockState} {element : Element} :
    element ∈ state.removeLeaves ↔ element ∈ inputsOf state.txns ∧ element ≠ Element.ZERO := by
  simp [BlockState.removeLeaves, inputsOf]

section Noted

variable {block : Block} {element : Element}
  (distinct : (block.content.state.insertLeaves ++ block.content.state.removeLeaves).Nodup)
  (nonzero : element ≠ Element.ZERO)

include distinct nonzero

/-- No element is both an input and an output of the block. -/
theorem not_mem_inputsOf (isOutput : element ∈ outputsOf block.content.state.txns) :
    element ∉ inputsOf block.content.state.txns := by
  intro isInput
  exact (List.nodup_append.mp distinct).2.2 element (mem_insertLeaves_iff.mpr ⟨isOutput, nonzero⟩)
    element (mem_removeLeaves_iff.mpr ⟨isInput, nonzero⟩) rfl

@[simp]
theorem lastBlockElements_eq_true_iff :
    (lastBlockElements block)[element]? = some true ↔
      element ∈ block.content.state.insertLeaves := by
  rw [mem_insertLeaves_iff]
  constructor
  · intro noted
    have mem : element ∈ noteTxns block.content.state.txns :=
      Std.TreeMap.isSome_getElem?_iff_mem.mp (Option.isSome_of_eq_some noted)
    by_contra notOutput
    have notOutput : element ∉ outputsOf block.content.state.txns := fun isOutput =>
      notOutput ⟨isOutput, nonzero⟩
    have isInput := ((mem_noteTxns_iff _ _).mp mem).resolve_right notOutput
    have removed := getElem?_noteTxns_of_input isInput notOutput
    exact absurd (noted.symm.trans removed) (by simp)
  · rintro ⟨isOutput, _⟩
    exact getElem?_noteTxns_of_output isOutput (not_mem_inputsOf distinct nonzero isOutput)

@[simp]
theorem lastBlockElements_eq_false_iff :
    (lastBlockElements block)[element]? = some false ↔
      element ∈ block.content.state.removeLeaves := by
  rw [mem_removeLeaves_iff]
  constructor
  · intro noted
    have mem : element ∈ noteTxns block.content.state.txns :=
      Std.TreeMap.isSome_getElem?_iff_mem.mp (Option.isSome_of_eq_some noted)
    by_contra notInput
    have notInput : element ∉ inputsOf block.content.state.txns := fun isInput =>
      notInput ⟨isInput, nonzero⟩
    have isOutput := ((mem_noteTxns_iff _ _).mp mem).resolve_left notInput
    have added := getElem?_noteTxns_of_output isOutput notInput
    exact absurd (noted.symm.trans added) (by simp)
  · rintro ⟨isInput, _⟩
    exact getElem?_noteTxns_of_input isInput fun isOutput =>
      not_mem_inputsOf distinct nonzero isOutput isInput

end Noted

/-- Nothing of the block is left to find exactly when it has no padding, its
outputs are new and its inputs are missing. -/
theorem left_isEmpty_iff {block : Block} {inserts removes : List Element}
    (distinct : (block.content.state.insertLeaves ++ block.content.state.removeLeaves).Nodup) :
    ((met true (lastBlockElements block) inserts ++
        met false (lastBlockElements block) removes).foldl
          (fun left element => left.erase element) (lastBlockElements block)).isEmpty = true ↔
      ¬Padded block ∧ (∀ element ∈ block.content.state.insertLeaves, element ∈ inserts) ∧
        ∀ element ∈ block.content.state.removeLeaves, element ∈ removes := by
  have mem_iff : ∀ element, element ∈ lastBlockElements block ↔
      element ∈ inputsOf block.content.state.txns ∨ element ∈ outputsOf block.content.state.txns :=
    mem_noteTxns_iff _
  rw [Std.TreeMap.isEmpty_iff_forall_not_mem]
  simp only [mem_foldl_erase, not_and, mem_iff, List.mem_append, met, List.mem_filter,
    Bool.and_eq_true, decide_eq_true_eq, ne_eq]
  constructor
  · intro found
    refine ⟨?_, ?_, ?_⟩
    · apply found Element.ZERO
      rintro (⟨_, nonzero, _⟩ | ⟨_, nonzero, _⟩) <;> exact nonzero rfl
    · intro element mem
      have nonzero := (mem_insertLeaves_iff.mp mem).2
      by_contra absent
      apply found element _ (.inr (mem_insertLeaves_iff.mp mem).1)
      rintro (⟨inserted, _⟩ | ⟨_, _, isFalse⟩)
      · exact absent inserted
      · rw [(lastBlockElements_eq_true_iff distinct nonzero).mpr mem] at isFalse
        cases isFalse
    · intro element mem
      have nonzero := (mem_removeLeaves_iff.mp mem).2
      by_contra absent
      apply found element _ (.inl (mem_removeLeaves_iff.mp mem).1)
      rintro (⟨_, _, isTrue⟩ | ⟨removed, _⟩)
      · rw [(lastBlockElements_eq_false_iff distinct nonzero).mpr mem] at isTrue
        cases isTrue
      · exact absent removed
  · rintro ⟨notPadded, outputs, inputs⟩ element notMet noted
    have nonzero : element ≠ Element.ZERO := by
      rintro rfl
      exact notPadded noted
    rcases noted with isInput | isOutput
    · have mem := mem_removeLeaves_iff.mpr ⟨isInput, nonzero⟩
      exact notMet (.inr ⟨inputs element mem, nonzero,
        (lastBlockElements_eq_false_iff distinct nonzero).mpr mem⟩)
    · have mem := mem_insertLeaves_iff.mpr ⟨isOutput, nonzero⟩
      exact notMet (.inl ⟨outputs element mem, nonzero,
        (lastBlockElements_eq_true_iff distinct nonzero).mpr mem⟩)

/-! ## When a chunk is applied -/

/-- A batch that fits a kept tree is applied. -/
theorem exists_insertBatch_of_fits {poseidon : Poseidon} {notesTree : PersistentMerkleTree}
    {batch : Batch MERKLE_TREE_DEPTH SmirkMetadata} (tempNoir : Bool)
    (wellFormed : notesTree.tree.WellFormed (merge poseidon)) (fits : notesTree.tree.Fits batch) :
    ∃ after, notesTree.insertBatch (merge poseidon) tempNoir batch = .ok after := by
  unfold Persistent.insertBatch
  split_ifs with empty
  · exact ⟨notesTree, rfl⟩
  · rcases fits.insertBatch_eq_ok tempNoir MERKLE_TREE_DEPTH_pos wellFormed (by simpa using empty)
      with ⟨tree, inserted, _⟩
    exact ⟨⟨tree⟩, by rw [inserted]; rfl⟩

@[simp]
theorem mem_newElements_iff {notesTree : PersistentMerkleTree} {elements : List Element}
    {element : Element} :
    element ∈ newElements notesTree elements ↔
      element ∈ elements ∧ element ∉ notesTree.tree.entries := by
  rw [newElements, List.mem_filter, List.mem_dedup, Bool.not_eq_true', ← Bool.not_eq_true,
    Tree.containsElement_iff]

@[simp]
theorem mem_missingElements_iff {notesTree : PersistentMerkleTree} {elements : List Element}
    {element : Element} :
    element ∈ missingElements notesTree elements ↔
      element ∈ notesTree.tree.entries ∧ element ∉ elements := by
  simp [missingElements]

/-- What a chunk and its block must satisfy to be applied to a tree. -/
structure Applies (poseidon : Poseidon) (notesTree : PersistentMerkleTree) (block : Block)
    (elements : List Element) : Prop where
  slots : (Batch.slots MERKLE_TREE_DEPTH
    (newElements notesTree elements ++ missingElements notesTree elements)).Nodup
  root : sparseRoot (merge poseidon) MERKLE_TREE_DEPTH {element | element ∈ elements} =
    block.content.state.rootHash
  notPadded : ¬Padded block
  outputs : ∀ element ∈ block.content.state.insertLeaves,
    element ∈ newElements notesTree elements
  inputs : ∀ element ∈ block.content.state.removeLeaves,
    element ∈ missingElements notesTree elements

section Applied

variable {poseidon : Poseidon} {tempNoir : Bool} {notesTree : PersistentMerkleTree}
  {block : Block} {elements : List Element}

/-- The changes of a chunk as one batch. -/
def chunkBatch (notesTree : PersistentMerkleTree) (elements : List Element) :
    Batch MERKLE_TREE_DEPTH SmirkMetadata where
  entries := (newElements notesTree elements).map fun element => (element, ⟨0⟩)
  removeEntries := missingElements notesTree elements

@[simp]
theorem insertElements_chunkBatch :
    (chunkBatch notesTree elements).insertElements = newElements notesTree elements := by
  simp [chunkBatch, Batch.insertElements, Function.comp_def]

/-- Elements on distinct slots that are not in the tree fall on vacant slots,
unless a missing element is in the way. -/
theorem not_collides_newElements
    (distinct : ∀ first ∈ elements, ∀ second ∈ elements,
      first.slot (MERKLE_TREE_DEPTH - 1) = second.slot (MERKLE_TREE_DEPTH - 1) → first = second)
    (slots : (Batch.slots MERKLE_TREE_DEPTH
      (newElements notesTree elements ++ missingElements notesTree elements)).Nodup) :
    ¬notesTree.tree.Collides (newElements notesTree elements) := by
  rintro ⟨element, isNew, other, inTree, sameSlot⟩
  rcases mem_newElements_iff.mp isNew with ⟨inChunk, notInTree⟩
  by_cases otherInChunk : other ∈ elements
  · exact notInTree (distinct other otherInChunk element inChunk sameSlot ▸ inTree)
  · have isMissing := mem_missingElements_iff.mpr ⟨inTree, otherInChunk⟩
    rw [Batch.slots, List.map_append, List.nodup_append] at slots
    exact slots.2.2 _ (List.mem_map_of_mem isNew) _ (List.mem_map_of_mem isMissing) sameSlot.symm

theorem fits_chunkBatch (wellFormed : notesTree.tree.WellFormed (merge poseidon))
    (nonzero : ∀ element ∈ elements, element ≠ Element.ZERO)
    (distinct : ∀ first ∈ elements, ∀ second ∈ elements,
      first.slot (MERKLE_TREE_DEPTH - 1) = second.slot (MERKLE_TREE_DEPTH - 1) → first = second)
    (slots : (Batch.slots MERKLE_TREE_DEPTH
      (newElements notesTree elements ++ missingElements notesTree elements)).Nodup) :
    notesTree.tree.Fits (chunkBatch notesTree elements) := by
  constructor
  · rwa [insertElements_chunkBatch]
  · intro element mem
    rw [insertElements_chunkBatch] at mem
    rcases List.mem_append.mp mem with isNew | isMissing
    · exact nonzero element (mem_newElements_iff.mp isNew).1
    · exact wellFormed.nonzero element (mem_missingElements_iff.mp isMissing).1
  · rw [insertElements_chunkBatch]
    exact not_collides_newElements distinct slots
  · intro element mem
    exact (mem_missingElements_iff.mp mem).1

/-- The root predicted for a chunk is that of its elements. -/
theorem rootHashWith_chunk (wellFormed : notesTree.tree.WellFormed (merge poseidon))
    (nonzero : ∀ element ∈ elements, element ≠ Element.ZERO)
    (distinct : ∀ first ∈ elements, ∀ second ∈ elements,
      first.slot (MERKLE_TREE_DEPTH - 1) = second.slot (MERKLE_TREE_DEPTH - 1) → first = second)
    {rootHash : Element} :
    notesTree.tree.rootHashWith (merge poseidon) (newElements notesTree elements)
        (missingElements notesTree elements) = .ok rootHash ↔
      (Batch.slots MERKLE_TREE_DEPTH
        (newElements notesTree elements ++ missingElements notesTree elements)).Nodup ∧
        sparseRoot (merge poseidon) MERKLE_TREE_DEPTH {element | element ∈ elements} =
          rootHash := by
  have predicted : (Batch.slots MERKLE_TREE_DEPTH
        (newElements notesTree elements ++ missingElements notesTree elements)).Nodup →
      notesTree.tree.rootHashWith (merge poseidon) (newElements notesTree elements)
        (missingElements notesTree elements) =
      .ok (sparseRoot (merge poseidon) MERKLE_TREE_DEPTH {element | element ∈ elements}) := by
    intro slots
    have fits := fits_chunkBatch wellFormed nonzero distinct slots
    have rooted := fits.rootHashWith_eq MERKLE_TREE_DEPTH_pos wellFormed
    rw [insertElements_chunkBatch] at rooted
    rw [show (missingElements notesTree elements) = (chunkBatch notesTree elements).removeEntries
      from rfl, rooted]
    congr 2
    ext element
    rw [Set.mem_ofPred_eq, Set.mem_ofPred_eq, Tree.mem_entriesAfter, insertElements_chunkBatch]
    show element ∉ missingElements notesTree elements ∧ _ ↔ _
    rw [mem_missingElements_iff, mem_newElements_iff]
    clear * -
    tauto
  constructor
  · intro rooted
    have slots := ((wellFormed.rootHashWith_eq_ok_iff MERKLE_TREE_DEPTH_pos).mp rooted).1
    exact ⟨slots, Except.ok.inj ((predicted slots).symm.trans rooted)⟩
  · rintro ⟨slots, rfl⟩
    exact predicted slots

/-- New and missing elements are on distinct slots exactly when no new element is
on the slot of a missing one. -/
theorem slots_nodup_iff (treeDistinct : notesTree.tree.DistinctElements)
    (distinct : ∀ first ∈ elements, ∀ second ∈ elements,
      first.slot (MERKLE_TREE_DEPTH - 1) = second.slot (MERKLE_TREE_DEPTH - 1) → first = second) :
    (Batch.slots MERKLE_TREE_DEPTH
        (newElements notesTree elements ++ missingElements notesTree elements)).Nodup ↔
      ∀ created ∈ newElements notesTree elements, ∀ spent ∈ missingElements notesTree elements,
        created.slot (MERKLE_TREE_DEPTH - 1) ≠ spent.slot (MERKLE_TREE_DEPTH - 1) := by
  rw [Batch.slots, List.map_append, List.nodup_append]
  constructor
  · rintro ⟨_, _, apart⟩ created isNew spent isMissing
    exact apart _ (List.mem_map_of_mem isNew) _ (List.mem_map_of_mem isMissing)
  · intro apart
    refine ⟨?_, ?_, ?_⟩
    · apply List.Nodup.map_on
      · intro first firstMem second secondMem
        exact distinct first (mem_newElements_iff.mp firstMem).1 second
          (mem_newElements_iff.mp secondMem).1
      · exact (List.nodup_dedup elements).filter _
    · apply List.Nodup.map_on
      · intro first firstMem second secondMem
        exact treeDistinct first (mem_missingElements_iff.mp firstMem).1 second
          (mem_missingElements_iff.mp secondMem).1
      · exact Std.TreeMap.nodup_keys.filter _
    · intro first firstMem second secondMem
      rcases List.mem_map.mp firstMem with ⟨created, isNew, rfl⟩
      rcases List.mem_map.mp secondMem with ⟨spent, isMissing, rfl⟩
      exact apart created isNew spent isMissing

@[simp]
theorem mem_kept_iff {isAdd : Bool} {noted : Std.TreeMap Element Bool} {element : Element} :
    element ∈ kept isAdd noted elements ↔
      element ∈ elements ∧ element ≠ Element.ZERO ∧ noted[element]? ≠ some isAdd := by
  simp [kept]

/-- The changes that are not left to the block still fit the tree. -/
theorem fits_keptBatch (noted : Std.TreeMap Element Bool)
    (fits : notesTree.tree.Fits (chunkBatch notesTree elements)) :
    notesTree.tree.Fits
      (keptBatch noted (newElements notesTree elements) (missingElements notesTree elements)) := by
  have newSublist : (kept true noted (newElements notesTree elements)).Sublist
      (chunkBatch notesTree elements).insertElements := by
    rw [insertElements_chunkBatch]
    exact List.filter_sublist
  have missingSublist : (kept false noted (missingElements notesTree elements)).Sublist
      (chunkBatch notesTree elements).removeEntries := List.filter_sublist
  have all := newSublist.append missingSublist
  constructor
  · rw [insertElements_keptBatch]
    exact fits.slots.sublist (all.map _)
  · rw [insertElements_keptBatch]
    exact fun element mem => fits.nonzero element (all.subset mem)
  · rw [insertElements_keptBatch]
    rintro ⟨element, mem, collides⟩
    exact fits.vacant ⟨element, newSublist.subset mem, collides⟩
  · exact fun element mem => fits.present element (missingSublist.subset mem)

section Chunk

variable (wellFormed : notesTree.tree.WellFormed (merge poseidon))
  (distinctLeaves : (block.content.state.insertLeaves ++ block.content.state.removeLeaves).Nodup)
  (nonzero : ∀ element ∈ elements, element ≠ Element.ZERO)
  (distinct : ∀ first ∈ elements, ∀ second ∈ elements,
    first.slot (MERKLE_TREE_DEPTH - 1) = second.slot (MERKLE_TREE_DEPTH - 1) → first = second)

include wellFormed distinctLeaves nonzero distinct

/-- A chunk that applies is applied. -/
theorem Applies.exists_applied (applies : Applies poseidon notesTree block elements) :
    ∃ after, chunkOutcome poseidon tempNoir notesTree block elements = .ok (.applied after) := by
  have fits := fits_chunkBatch wellFormed nonzero distinct applies.slots
  have keptSlots : (Batch.slots MERKLE_TREE_DEPTH
      (kept true (lastBlockElements block) (newElements notesTree elements) ++
        kept false (lastBlockElements block) (missingElements notesTree elements))).Nodup :=
    applies.slots.sublist ((List.filter_sublist.append List.filter_sublist).map _)
  rcases exists_insertBatch_of_fits tempNoir wellFormed
    (fits_keptBatch (lastBlockElements block) fits) with
    ⟨after, inserted⟩
  refine ⟨after, chunkOutcome_eq_ok_iff.mpr ⟨block.content.state.rootHash, ?_, .inr ⟨rfl, _, _,
    collectChanges_eq_ok_iff.mpr ⟨keptSlots, rfl, rfl⟩, .inr ⟨?_, after, inserted, rfl⟩⟩⟩⟩
  · exact (rootHashWith_chunk wellFormed nonzero distinct).mpr ⟨applies.slots, applies.root⟩
  · exact (left_isEmpty_iff distinctLeaves).mpr
      ⟨applies.notPadded, applies.outputs, applies.inputs⟩

/-- A chunk that was applied does apply, and leaves the block its changes. -/
theorem applies_of_applied {after : PersistentMerkleTree}
    (applied : chunkOutcome poseidon tempNoir notesTree block elements = .ok (.applied after)) :
    Applies poseidon notesTree block elements ∧ ∀ element, element ∈ after.tree.entries ↔
      (element ∈ notesTree.tree.entries ∧
          (element ∈ elements ∨ element ∈ block.content.state.removeLeaves)) ∨
        element ∈ elements ∧ element ∉ notesTree.tree.entries ∧
          element ∉ block.content.state.insertLeaves := by
  rcases chunkOutcome_eq_ok_iff.mp applied with
    ⟨rootHash, predicted, ⟨_, other⟩ | ⟨sameRoot, batch, left, collected, ⟨_, other⟩ |
      ⟨nothingLeft, changed, inserted, isApplied⟩⟩⟩
  · cases other
  · cases other
  · cases isApplied
    rcases (rootHashWith_chunk wellFormed nonzero distinct).mp predicted with ⟨slots, rooted⟩
    rcases collectChanges_eq_ok_iff.mp collected with ⟨_, rfl, rfl⟩
    rcases (left_isEmpty_iff distinctLeaves).mp nothingLeft with ⟨notPadded, outputs, inputs⟩
    refine ⟨⟨slots, rooted.trans sameRoot, notPadded, outputs, inputs⟩, ?_⟩
    intro element
    rw [mem_of_persistent_insertBatch inserted]
    rw [insertElements_keptBatch]
    show element ∉ kept false _ _ ∧ _ ↔ _
    rw [mem_kept_iff, mem_kept_iff, mem_newElements_iff, mem_missingElements_iff]
    by_cases zero : element = Element.ZERO
    · have notInChunk : element ∉ elements := fun mem => nonzero element mem zero
      have notInTree : element ∉ notesTree.tree.entries := fun mem =>
        wellFormed.nonzero element mem zero
      simp [notInChunk, notInTree]
    · rw [ne_eq, ne_eq, ne_eq, lastBlockElements_eq_true_iff distinctLeaves zero,
        lastBlockElements_eq_false_iff distinctLeaves zero]
      clear * - zero outputs inputs
      tauto

end Chunk

end Applied

/-! ## An honest chain -/

open Chain

/-- A chain with a receiver on an early prefix of it, the block at the height to
sync to, and a sender that may be further: the receiver has committed the blocks
`before`, and has missed the blocks of the `gap`. -/
structure Synced (poseidon : Poseidon) (keccak : Keccak) (verify : Verify) (tempNoir : Bool)
    (before gap later : List (Block × Nat)) (commit : Block × Nat)
    (receiver middle reached sender : Chain) : Prop where
  numbered : Numbered 1 (before ++ gap ++ [commit] ++ later)
  received : Run (Step poseidon keccak verify tempNoir) genesis before receiver
  missed : Run (Step poseidon keccak verify tempNoir) receiver gap middle
  announced : Step poseidon keccak verify tempNoir middle commit reached
  sent : Run (Step poseidon keccak verify tempNoir) reached later sender

/-- Fast sync reaches the state before the block: the chunk that the sender
builds is applied and leaves the elements of the chain just before the block. -/
def Completes {Key S : Type} (poseidon : Poseidon) (tempNoir : Bool)
    (receiver middle : Chain) (sender : NodeShared Key S) (toHeight : Nat) : Prop :=
  ∃ block notesTree, (sender.sendSnapshotChunkFast toHeight).block = some block ∧
    chunkOutcome poseidon tempNoir receiver.notesTree block
        (sender.sendSnapshotChunkFast toHeight).elements = .ok (.applied notesTree) ∧
    ∀ element, element ∈ notesTree.tree.entries ↔ element ∈ middle.notesTree.tree.entries

/-- When fast sync completes: the block has no padding, none of its inputs was
created in the gap, nothing of the tree after the block has been spent since, and
no element created since the receiver's height is on the slot of one that was
spent since. -/
structure Completable (block : Block) (later : List (Block × Nat))
    (receiver reached : Chain) : Prop where
  notPadded : ¬Padded block
  inputs : ∀ element ∈ block.content.state.removeLeaves,
    element ∈ receiver.notesTree.tree.entries
  unspent : ∀ element ∈ reached.notesTree.tree.entries, element ∉ removed later
  slots : ∀ created ∈ reached.notesTree.tree.entries, created ∉ receiver.notesTree.tree.entries →
    ∀ spent ∈ receiver.notesTree.tree.entries, spent ∉ reached.notesTree.tree.entries →
      created.slot (MERKLE_TREE_DEPTH - 1) ≠ spent.slot (MERKLE_TREE_DEPTH - 1)

namespace Synced

variable {poseidon : Poseidon} {keccak : Keccak} {verify : Verify} {tempNoir : Bool}
  {before gap later : List (Block × Nat)} {commit : Block × Nat}
  {receiver middle reached : Chain} {Key S : Type} {sender : NodeShared Key S}
  (synced : Synced poseidon keccak verify tempNoir before gap later commit receiver middle reached
    sender.chain)

include synced

theorem runMiddle : Run (Step poseidon keccak verify tempNoir) genesis (before ++ gap) middle :=
  synced.received.trans synced.missed

theorem runReached :
    Run (Step poseidon keccak verify tempNoir) genesis (before ++ gap ++ [commit]) reached :=
  .snoc synced.runMiddle synced.announced

theorem height_eq : commit.1.content.header.height = (before ++ gap ++ [commit]).length := by
  have height := numbered_singleton_iff.mp
    (numbered_append_iff.mp (numbered_append_iff.mp synced.numbered).1).2
  simp only [List.length_append, List.length_singleton] at height ⊢
  omega

theorem numberedLater : Numbered (commit.1.content.header.height + 1) later := by
  have numbered := (numbered_append_iff.mp synced.numbered).2
  rwa [Nat.add_comm, ← synced.height_eq] at numbered

/-- The sender sends the block of the height. -/
theorem chunk_block :
    (sender.sendSnapshotChunkFast commit.1.content.header.height).block = some commit.1 := by
  have above : ∀ other ∈ later,
      other.1.content.header.height ≠ commit.1.content.header.height := by
    intro other mem sameHeight
    have height := synced.numberedLater.height_ge mem
    omega
  have stored := blocks_of_run above synced.sent
  rw [synced.announced.blocks_eq, getElem?_insert_eq, if_pos rfl] at stored
  simp only [NodeShared.sendSnapshotChunkFast, stored, Option.map_some]
  rfl

/-- The sender sends what is left of the tree after the block. -/
theorem mem_chunk_iff (element : Element) :
    element ∈ (sender.sendSnapshotChunkFast commit.1.content.header.height).elements ↔
      element ∈ reached.notesTree.tree.entries ∧ element ∉ removed later := by
  have bounded : ∀ (element : Element) (metadata : SmirkMetadata),
      reached.notesTree.tree.entries[element]? = some metadata →
        metadata.insertedIn ≤ commit.1.content.header.height := by
    intro element metadata found
    rw [synced.height_eq]
    exact insertedIn_le_of_run (numbered_append_iff.mp synced.numbered).1 synced.runReached found
  rw [← insertedIn_le_iff bounded synced.numberedLater synced.sent element]
  simp only [NodeShared.sendSnapshotChunkFast, List.mem_map, List.mem_filter, Prod.exists,
    Std.TreeMap.mem_toList_iff_getElem?_eq_some, decide_eq_true_eq]
  constructor
  · rintro ⟨_, metadata, ⟨found, early⟩, rfl⟩
    exact ⟨metadata, found, early⟩
  · rintro ⟨metadata, found, early⟩
    exact ⟨element, metadata, ⟨found, early⟩, rfl⟩

theorem wellFormed_receiver : receiver.notesTree.tree.WellFormed (merge poseidon) :=
  (reachable_of_run reachable_genesis synced.received).wellFormed MERKLE_TREE_DEPTH_pos

theorem wellFormed_reached : reached.notesTree.tree.WellFormed (merge poseidon) :=
  (reachable_of_run reachable_genesis synced.runReached).wellFormed MERKLE_TREE_DEPTH_pos

theorem valid : BlockValid poseidon verify middle.store middle.notesTree commit.1.content :=
  validate_eq_ok_iff.mp synced.announced.1

/-- An output of the block was never in the receiver's tree. -/
theorem not_mem_receiver {element : Element}
    (isOutput : element ∈ commit.1.content.state.insertLeaves) :
    element ∉ receiver.notesTree.tree.entries := by
  intro mem
  exact (synced.valid.insertLeaf_valid isOutput).2.2
    (recorded_of_run synced.missed (recorded_of_mem synced.received mem))

/-- The root that the block announces is that of the elements after it. -/
theorem root_eq : sparseRoot (merge poseidon) MERKLE_TREE_DEPTH
      {element | element ∈ reached.notesTree.tree.entries} = commit.1.content.state.rootHash := by
  rw [← synced.wellFormed_reached.rootHash_eq_sparseRoot]
  exact synced.announced.rootHash_eq (reachable_of_run reachable_genesis synced.runMiddle)

/-- The elements of the chunk are on distinct slots and not zero. -/
theorem chunk_distinct :
    (∀ element ∈ (sender.sendSnapshotChunkFast commit.1.content.header.height).elements,
        element ≠ Element.ZERO) ∧
      ∀ first ∈ (sender.sendSnapshotChunkFast commit.1.content.header.height).elements,
        ∀ second ∈ (sender.sendSnapshotChunkFast commit.1.content.header.height).elements,
          first.slot (MERKLE_TREE_DEPTH - 1) = second.slot (MERKLE_TREE_DEPTH - 1) →
            first = second := by
  constructor
  · intro element mem
    exact synced.wellFormed_reached.nonzero element ((synced.mem_chunk_iff element).mp mem).1
  · intro first firstMem second secondMem
    exact synced.wellFormed_reached.distinct first ((synced.mem_chunk_iff first).mp firstMem).1
      second ((synced.mem_chunk_iff second).mp secondMem).1

theorem completes_of_completable (completable : Completable commit.1 later receiver reached) :
    Completes poseidon tempNoir receiver middle sender commit.1.content.header.height := by
  rcases synced.chunk_distinct with ⟨nonzero, distinct⟩
  have mem_iff : ∀ element,
      element ∈ (sender.sendSnapshotChunkFast commit.1.content.header.height).elements ↔
        element ∈ reached.notesTree.tree.entries := by
    intro element
    rw [synced.mem_chunk_iff]
    exact and_iff_left_of_imp (completable.unspent element)
  have reached_iff := synced.announced.mem_iff
  have applies : Applies poseidon receiver.notesTree commit.1
      (sender.sendSnapshotChunkFast commit.1.content.header.height).elements := by
    constructor
    · apply (slots_nodup_iff synced.wellFormed_receiver.distinct distinct).mpr
      intro created isNew spent isMissing
      rw [mem_newElements_iff, mem_iff] at isNew
      rw [mem_missingElements_iff, mem_iff] at isMissing
      exact completable.slots created isNew.1 isNew.2 spent isMissing.1 isMissing.2
    · rw [← synced.root_eq]
      congr 1
      exact Set.ext mem_iff
    · exact completable.notPadded
    · intro element isOutput
      rw [mem_newElements_iff, mem_iff, reached_iff]
      refine ⟨⟨?_, .inl isOutput⟩, synced.not_mem_receiver isOutput⟩
      intro isInput
      exact (List.nodup_append.mp synced.valid.distinct).2.2 element isOutput element isInput rfl
    · intro element isInput
      rw [mem_missingElements_iff, mem_iff, reached_iff]
      exact ⟨completable.inputs element isInput, fun still => still.1 isInput⟩
  rcases applies.exists_applied synced.wellFormed_receiver synced.valid.distinct nonzero distinct
    with ⟨after, applied⟩
  refine ⟨commit.1, after, synced.chunk_block, applied, ?_⟩
  intro element
  rw [(applies_of_applied synced.wellFormed_receiver synced.valid.distinct nonzero distinct
    applied).2, mem_iff, reached_iff]
  have fromReceiver := completable.inputs element
  have spent : element ∈ commit.1.content.state.removeLeaves →
      element ∈ middle.notesTree.tree.entries := fun isInput =>
    (synced.valid.removeLeaf_valid isInput).2
  have fresh : element ∈ commit.1.content.state.insertLeaves →
      element ∉ middle.notesTree.tree.entries := fun isOutput =>
    (synced.valid.insertLeaf_valid isOutput).2.1
  have notReceived : element ∈ commit.1.content.state.insertLeaves →
      element ∉ receiver.notesTree.tree.entries := fun isOutput =>
    synced.not_mem_receiver isOutput
  clear * - fromReceiver spent fresh notReceived
  tauto

theorem completable_of_completes
    (completes : Completes poseidon tempNoir receiver middle sender
      commit.1.content.header.height) :
    Completable commit.1 later receiver reached := by
  rcases synced.chunk_distinct with ⟨nonzero, distinct⟩
  rcases completes with ⟨block, after, sent, applied, elements⟩
  obtain rfl : commit.1 = block := Option.some.inj (synced.chunk_block.symm.trans sent)
  rcases applies_of_applied synced.wellFormed_receiver synced.valid.distinct nonzero distinct
    applied with ⟨applies, after_iff⟩
  have reached_iff := synced.announced.mem_iff
  -- what is missing in the chunk would be missing before the block as well
  have unspent : ∀ element ∈ reached.notesTree.tree.entries, element ∉ removed later := by
    intro element mem
    have inChunk : element ∈
        (sender.sendSnapshotChunkFast commit.1.content.header.height).elements := by
      rcases (reached_iff element).mp mem with ⟨notInput, isOutput | inMiddle⟩
      · exact (mem_newElements_iff.mp (applies.outputs element isOutput)).1
      · rcases (after_iff element).mp ((elements element).mpr inMiddle) with
          ⟨_, inChunk | isInput⟩ | ⟨inChunk, _⟩
        · exact inChunk
        · exact absurd isInput notInput
        · exact inChunk
    exact ((synced.mem_chunk_iff element).mp inChunk).2
  have mem_iff : ∀ element,
      element ∈ (sender.sendSnapshotChunkFast commit.1.content.header.height).elements ↔
        element ∈ reached.notesTree.tree.entries := by
    intro element
    rw [synced.mem_chunk_iff]
    exact and_iff_left_of_imp (unspent element)
  constructor
  · exact applies.notPadded
  · intro element isInput
    exact (mem_missingElements_iff.mp (applies.inputs element isInput)).1
  · exact unspent
  · intro created isReached notReceived spent isReceived notReached
    apply (slots_nodup_iff synced.wellFormed_receiver.distinct distinct).mp applies.slots
    · exact mem_newElements_iff.mpr ⟨(mem_iff created).mpr isReached, notReceived⟩
    · exact mem_missingElements_iff.mpr ⟨isReceived, mt (mem_iff spent).mp notReached⟩

end Synced

/-- Fast sync from an honest sender completes exactly when the block and the
blocks around it allow for it. -/
theorem fastSync_completes_iff {poseidon : Poseidon} {keccak : Keccak} {verify : Verify}
    {tempNoir : Bool} {before gap later : List (Block × Nat)} {commit : Block × Nat}
    {receiver middle reached : Chain} {Key S : Type} {sender : NodeShared Key S}
    (synced : Synced poseidon keccak verify tempNoir before gap later commit receiver middle
      reached sender.chain) :
    Completes poseidon tempNoir receiver middle sender commit.1.content.header.height ↔
      Completable commit.1 later receiver reached :=
  ⟨synced.completable_of_completes, synced.completes_of_completable⟩

/-- A node that has followed a chain. -/
def nodeOn (chain : Chain) : NodeShared Unit Unit := { NodeShared.newProver with chain }

/-- A chain of one block, with a receiver that has nothing yet. -/
theorem exists_synced_firstOutput (poseidon : Poseidon) :
    ∃ rootHash reached,
      Synced poseidon (fun _ => 0) (fun _ => true) false [] [] []
        (⟨outputBlock 1 rootHash 1, ⟨0, 0, 0⟩⟩, 0) genesis genesis reached reached := by
  rcases exists_run_firstOutput poseidon (fun _ => 0) fun _ => ⟨0, 0, 0⟩ with
    ⟨rootHash, reached, run⟩
  rcases Run.of_snoc (show Run _ genesis ([] ++ [_]) reached from run) with
    ⟨middle, nothing, taken⟩
  obtain rfl := Run.eq_of_nil nothing
  exact ⟨rootHash, reached, numbered_singleton_iff.mpr rfl, .nil, .nil, taken, .nil⟩

/-- A chain of one block and an empty one, at which a receiver may skip the first. -/
theorem exists_synced_empty (poseidon : Poseidon) :
    ∃ rootHash middle reached,
      Synced poseidon (fun _ => 0) (fun _ => true) false []
          [(⟨outputBlock 1 rootHash 1, ⟨0, 0, 0⟩⟩, 0)] []
          (⟨⟨⟨2, 0, 0, 0, []⟩, ⟨rootHash, []⟩⟩, ⟨0, 0, 0⟩⟩, 0) genesis middle reached
          (nodeOn reached).chain ∧
        Completable ⟨⟨⟨2, 0, 0, 0, []⟩, ⟨rootHash, []⟩⟩, ⟨0, 0, 0⟩⟩ [] genesis reached := by
  rcases exists_synced_firstOutput poseidon with ⟨rootHash, middle, first⟩
  have rooted : rootHash = middle.notesTree.tree.rootHash (merge poseidon) :=
    (first.announced.rootHash_eq reachable_genesis).symm
  rcases exists_step_empty poseidon (fun _ => 0) (fun _ => true) false middle
    ⟨⟨⟨2, 0, 0, 0, []⟩, ⟨rootHash, []⟩⟩, ⟨0, 0, 0⟩⟩ 0 rfl rooted with
    ⟨reached, taken, _⟩
  refine ⟨rootHash, middle, reached, ⟨?_, .nil, .snoc .nil first.announced, taken, .nil⟩, ?_⟩
  · exact numbered_append_iff.mpr ⟨numbered_append_iff.mpr ⟨numbered_singleton_iff.mpr rfl,
      numbered_singleton_iff.mpr rfl⟩, fun _ _ found => by simp at found⟩
  · constructor
    · rintro (padding | padding) <;> simp [inputsOf, outputsOf] at padding
    · intro element isInput
      simp [BlockState.removeLeaves] at isInput
    · intro element _ spent
      simp [removed] at spent
    · intro created _ _ spent isReceived
      exact absurd isReceived (not_mem_emptyTree spent)

/-- The block of the first output has padding, and so its chunk is refused. -/
theorem padded_block_not_completed :
    ∃ rootHash reached,
      Synced (fun _ => 0) (fun _ => 0) (fun _ => true) false [] [] []
          (⟨outputBlock 1 rootHash 1, ⟨0, 0, 0⟩⟩, 0) genesis genesis reached reached ∧
        ¬Completes (fun _ => 0) false genesis genesis (nodeOn reached) 1 := by
  rcases exists_synced_firstOutput fun _ => 0 with ⟨rootHash, reached, synced⟩
  refine ⟨rootHash, reached, synced, ?_⟩
  intro completes
  have synced : Synced (fun _ => 0) (fun _ => 0) (fun _ => true) false [] [] []
      (⟨outputBlock 1 rootHash 1, ⟨0, 0, 0⟩⟩, 0) genesis genesis reached (nodeOn reached).chain :=
    synced
  apply (synced.completable_of_completes completes).notPadded
  have padding : Element.ZERO ∈ inputsOf [outputTxn 1] := by decide
  exact .inl padding

/-- A receiver that has missed the first output completes at an empty block. -/
theorem empty_block_completed :
    ∃ rootHash middle reached,
      Synced (fun _ => 0) (fun _ => 0) (fun _ => true) false []
          [(⟨outputBlock 1 rootHash 1, ⟨0, 0, 0⟩⟩, 0)] []
          (⟨⟨⟨2, 0, 0, 0, []⟩, ⟨rootHash, []⟩⟩, ⟨0, 0, 0⟩⟩, 0) genesis middle reached reached ∧
        Completes (fun _ => 0) false genesis middle (nodeOn reached) 2 := by
  rcases exists_synced_empty fun _ => 0 with ⟨rootHash, middle, reached, synced, completable⟩
  exact ⟨rootHash, middle, reached, synced, (fastSync_completes_iff synced).mpr completable⟩

end Ciphera.Node
