import Ciphera.Noir.Ledger

/-!
# The supply of the notes tree

Along every sequence of aggregations that starts from the empty tree, the
value of the committed notes changes in each step by what the step's public
messages mint and burn, and by nothing else.

The verifier is assumed to be sound with an extractor, which names the notes
behind a verified transaction.  Collisions are excluded only among the notes
and the pairs that the run evaluates, since a hash into a finite field has
collisions somewhere.
-/

namespace Ciphera.Settlement

open Ciphera.Lib Ciphera.Noir Ciphera.Rollup

/-- Recovers a transaction from its proof and public inputs. -/
abbrev Extractor := Vector Base 115 → Vector Base 508 → List Base → Utxo.Witness

/-- Every verified transaction proof extracts to an accepted witness with the
verified public inputs. -/
def Extracts (poseidon : Poseidon) (verifyProof : VerifyProof) (extract : Extractor) : Prop :=
  ∀ key proof inputs,
    verifyProof key proof inputs AggUtxo.UTXO_VERIFICATION_KEY_HASH 7 = true →
      Utxo.main poseidon (extract key proof inputs) = .ok () ∧
        (extract key proof inputs).publicInputs.toList = inputs

/-- One aggregation takes the root of the tree to the next. -/
structure Aggregates (poseidon : Poseidon) (verifyProof : VerifyProof) (root : Base)
    (witness : AggUtxo.Witness) (next : Base) : Prop where
  accepted : AggUtxo.main poseidon verifyProof witness = .ok ()
  oldRoot : witness.oldRoot = root
  newRoot : witness.newRoot = next

/-- The value minted by the public messages of an aggregation. -/
def mintedBy (witness : AggUtxo.Witness) : Nat :=
  (((readMessages witness.messages.toList).getD []).map Message.minted).sum

/-- The value burned by the public messages of an aggregation. -/
def burnedBy (witness : AggUtxo.Witness) : Nat :=
  (((readMessages witness.messages.toList).getD []).map Message.burned).sum

/-! ## The changes of a transaction -/

/-- The four notes of a transaction with their paths, padding included. -/
def candidates (transaction : Utxo.Witness) (proof : AggUtxo.AggUtxoProofInput) : List Change :=
  [⟨false, (transaction.inputNotes.get 0).note, (proof.inputMerklePaths.get 0)⟩,
    ⟨false, (transaction.inputNotes.get 1).note, (proof.inputMerklePaths.get 1)⟩,
    ⟨true, (transaction.outputNotes.get 0), (proof.outputMerklePaths.get 0)⟩,
    ⟨true, (transaction.outputNotes.get 1), (proof.outputMerklePaths.get 1)⟩]

/-- The changes a transaction makes: its notes that are not padding. -/
def changesOf (transaction : Utxo.Witness) (proof : AggUtxo.AggUtxoProofInput) : List Change :=
  (candidates transaction proof).filter fun change => change.note.kind ≠ 0

/-- What ties an accepted transaction to the arguments of its aggregation. -/
structure Aggregated (poseidon : Poseidon) (transaction : Utxo.Witness)
    (proof : AggUtxo.AggUtxoProofInput) (fields : AggUtxo.Fields) : Prop where
  accepted : Utxo.Accepted poseidon transaction
  commitments : transaction.commitments =
    #v[proof.inputCommitments.get 0, proof.inputCommitments.get 1,
      proof.outputCommitments.get 0, proof.outputCommitments.get 1]
  messages : transaction.messages =
    #v[proof.utxoKind, fields.noteKind, fields.value, fields.hash, fields.burnAddr]

variable {poseidon : Poseidon}

/-- A sum over the elements that count is the sum over all elements. -/
theorem sum_map_filter {α : Type} (keep : α → Bool) {value : α → Nat} {entries : List α}
    (dropped : ∀ entry ∈ entries, keep entry = false → value entry = 0) :
    ((entries.filter keep).map value).sum = (entries.map value).sum := by
  induction entries with
  | nil => rfl
  | cons entry entries ih =>
      have rest := ih fun other mem => dropped other (List.mem_cons_of_mem _ mem)
      cases kept : keep entry with
      | false =>
          rw [List.filter_cons_of_neg (by simp [kept]), rest, List.map_cons, List.sum_cons,
            dropped entry List.mem_cons_self kept, Nat.zero_add]
      | true =>
          rw [List.filter_cons_of_pos kept, List.map_cons, List.sum_cons, rest, List.map_cons,
            List.sum_cons]

theorem removeInput_eq_step {note : Note} {commitment : Base}
    (commits : Commits poseidon note commitment) (root : Base) (merklePath : Vector Base 160) :
    AggUtxo.removeInput poseidon root commitment merklePath =
      if note.kind ≠ 0 then Change.step poseidon root ⟨false, note, merklePath⟩
      else pure root := by
  by_cases padding : note.kind = 0
  · simp [padding, AggUtxo.removeInput, commits.commitment_eq_zero padding]
  · simp [padding, Change.step, commits.eq_noteHash padding]

theorem insertOutput_eq_step {note : Note} {commitment : Base}
    (commits : Commits poseidon note commitment) (root : Base) (merklePath : Vector Base 160) :
    AggUtxo.insertOutput poseidon root commitment merklePath =
      if note.kind ≠ 0 then Change.step poseidon root ⟨true, note, merklePath⟩
      else pure root := by
  by_cases padding : note.kind = 0
  · simp [padding, AggUtxo.insertOutput, commits.commitment_eq_zero padding]
  · simp [padding, Change.step, commits.eq_noteHash padding]

namespace Aggregated

variable {transaction : Utxo.Witness} {proof : AggUtxo.AggUtxoProofInput}
  {fields : AggUtxo.Fields}

theorem applyCommitments_eq (aggregated : Aggregated poseidon transaction proof fields)
    (real : proof.utxoKind ≠ 0) (root : Base) :
    AggUtxo.applyCommitments poseidon root proof =
      (changesOf transaction proof).foldlM (fun root change => change.step poseidon root) root := by
  obtain ⟨accepted, commitmentsEq, _⟩ := aggregated
  have input0 : Commits poseidon (transaction.inputNotes.get 0).note (proof.inputCommitments.get 0) := by
    simpa [commitmentsEq, get_eq_getElem] using accepted.input0
  have input1 : Commits poseidon (transaction.inputNotes.get 1).note (proof.inputCommitments.get 1) := by
    simpa [commitmentsEq, get_eq_getElem] using accepted.input1
  have output0 : Commits poseidon (transaction.outputNotes.get 0) (proof.outputCommitments.get 0) := by
    simpa [commitmentsEq, get_eq_getElem] using accepted.output0
  have output1 : Commits poseidon (transaction.outputNotes.get 1) (proof.outputCommitments.get 1) := by
    simpa [commitmentsEq, get_eq_getElem] using accepted.output1
  rw [changesOf, List.foldlM_filter, AggUtxo.applyCommitments, if_pos real]
  simp only [candidates, List.foldlM_cons, List.foldlM_nil, decide_eq_true_eq, bind_pure,
    removeInput_eq_step input0, removeInput_eq_step input1, insertOutput_eq_step output0,
    insertOutput_eq_step output1]

/-- A padding candidate has no value. -/
theorem candidate_value (aggregated : Aggregated poseidon transaction proof fields) :
    ∀ change ∈ candidates transaction proof, change.note.kind = 0 → change.note.value = 0 := by
  have accepted := aggregated.accepted
  intro change mem padding
  simp only [candidates, List.mem_cons, List.not_mem_nil, or_false] at mem
  rcases mem with rfl | rfl | rfl | rfl
  · exact accepted.input0.value_eq_zero padding
  · exact accepted.input1.value_eq_zero padding
  · exact accepted.output0.value_eq_zero padding
  · exact accepted.output1.value_eq_zero padding

theorem removed_sum (aggregated : Aggregated poseidon transaction proof fields) :
    ((changesOf transaction proof).map Change.removed).sum = transaction.inputTotal := by
  rw [changesOf, sum_map_filter]
  · simp [candidates, Change.removed, Utxo.Witness.inputTotal]
  · intro change mem padding
    have valueEq := aggregated.candidate_value change mem (by simpa using padding)
    simp [Change.removed, valueEq]

theorem inserted_sum (aggregated : Aggregated poseidon transaction proof fields) :
    ((changesOf transaction proof).map Change.inserted).sum = transaction.outputTotal := by
  rw [changesOf, sum_map_filter]
  · simp [candidates, Change.inserted, Utxo.Witness.outputTotal]
  · intro change mem padding
    have valueEq := aggregated.candidate_value change mem (by simpa using padding)
    simp [Change.inserted, valueEq]

/-- The changes of a transaction concern its own notes, and the notes it
creates are bounded. -/
theorem valid (aggregated : Aggregated poseidon transaction proof fields) {notes : Set Note}
    (notesMem : ∀ note ∈ transaction.notes, note.kind ≠ 0 → note ∈ notes) :
    ∀ change ∈ changesOf transaction proof, change.Valid notes := by
  have accepted := aggregated.accepted
  intro change mem
  obtain ⟨candidate, real⟩ := List.mem_filter.mp mem
  have notPadding : change.note.kind ≠ 0 := by simpa using real
  simp only [candidates, List.mem_cons, List.not_mem_nil, or_false] at candidate
  rcases candidate with rfl | rfl | rfl | rfl
  · exact ⟨notesMem _ (by simp [Utxo.Witness.notes]) notPadding, notPadding, by simp⟩
  · exact ⟨notesMem _ (by simp [Utxo.Witness.notes]) notPadding, notPadding, by simp⟩
  · exact ⟨notesMem _ (by simp [Utxo.Witness.notes]) notPadding, notPadding,
      fun _ => accepted.output0_lt⟩
  · exact ⟨notesMem _ (by simp [Utxo.Witness.notes]) notPadding, notPadding,
      fun _ => accepted.output1_lt⟩

theorem inputsBounded {transaction : Utxo.Witness} {proof : AggUtxo.AggUtxoProofInput}
    (removedLt : ∀ change ∈ changesOf transaction proof, change.removed < 2 ^ 240) :
    transaction.InputsBounded := by
  intro inputNote mem notPadding
  have memPair : inputNote = (transaction.inputNotes.get 0) ∨ inputNote = (transaction.inputNotes.get 1) := by
    obtain ⟨position, positionLt, rfl⟩ := List.mem_iff_getElem.mp mem
    simp only [Vector.length_toList] at positionLt
    obtain rfl | rfl : position = 0 ∨ position = 1 := by omega
    · exact Or.inl (by simp [get_eq_getElem])
    · exact Or.inr (by simp [get_eq_getElem])
  rcases memPair with rfl | rfl
  · exact removedLt ⟨false, (transaction.inputNotes.get 0).note, (proof.inputMerklePaths.get 0)⟩
      (List.mem_filter.mpr ⟨by simp [candidates], by simpa using notPadding⟩)
  · exact removedLt ⟨false, (transaction.inputNotes.get 1).note, (proof.inputMerklePaths.get 1)⟩
      (List.mem_filter.mpr ⟨by simp [candidates], by simpa using notPadding⟩)

/-- A transaction moves the total of the ledger by its mint and burn values. -/
theorem follows (aggregated : Aggregated poseidon transaction proof fields)
    (real : proof.utxoKind ≠ 0) {notes : Set Note} (separated : NotesSeparated poseidon notes)
    (notesMem : ∀ note ∈ transaction.notes, note.kind ≠ 0 → note ∈ notes)
    {ledger : Ledger} (bounded : ledger.Bounded notes)
    (collisionFree : Set.InjOn (Function.uncurry (AggUtxo.merge poseidon))
      (ledger.allPairs poseidon (changesOf transaction proof)))
    {next : Base}
    (applied : AggUtxo.applyCommitments poseidon (ledger.root poseidon) proof = .ok next) :
    next = (ledger.applyAll poseidon (changesOf transaction proof)).root poseidon ∧
      (ledger.applyAll poseidon (changesOf transaction proof)).Bounded notes ∧
      (ledger.applyAll poseidon (changesOf transaction proof)).total + transaction.burnValue =
        ledger.total + transaction.mintValue := by
  rw [aggregated.applyCommitments_eq real] at applied
  obtain ⟨rootEq, finalBounded, totalEq, removedLt⟩ :=
    Change.foldlM_step_follows separated (aggregated.valid notesMem) bounded collisionFree applied
  rw [aggregated.removed_sum, aggregated.inserted_sum] at totalEq
  have balance := aggregated.accepted.total_eq (inputsBounded removedLt)
  exact ⟨rootEq, finalBounded, by omega⟩

/-- The contract's view of the transaction has the circuit's values. -/
theorem settledMessages_values (aggregated : Aggregated poseidon transaction proof fields) :
    ((AggUtxo.settledMessages proof.utxoKind fields).map Message.minted).sum =
        transaction.mintValue ∧
      ((AggUtxo.settledMessages proof.utxoKind fields).map Message.burned).sum =
        transaction.burnValue := by
  have kindEq : transaction.kind = proof.utxoKind := by
    simp [Utxo.Witness.kind, aggregated.messages, get_eq_getElem]
  have valueEq : transaction.msgValue = fields.value := by
    simp [Utxo.Witness.msgValue, aggregated.messages, get_eq_getElem]
  unfold AggUtxo.settledMessages Utxo.Witness.mintValue Utxo.Witness.burnValue
  rw [kindEq, valueEq]
  by_cases mint : proof.utxoKind = 2
  · simp [mint, Message.minted, Message.burned]
  by_cases burn : proof.utxoKind = 3
  · simp [burn, Message.minted, Message.burned]
  by_cases crossChain : proof.utxoKind = 4
  · simp [crossChain, Message.minted, Message.burned]
  simp [mint, burn, crossChain]

end Aggregated

/-! ## The changes of an aggregation -/

section History

variable (extract : Extractor)

/-- The transaction behind one of the three proofs of an aggregation. -/
def transactionAt (witness : AggUtxo.Witness) (index : Fin 3) : Utxo.Witness :=
  extract witness.verificationKey (witness.proofs.get index).proof
    (AggUtxo.rebuilt witness index).toList

/-- The transactions of an aggregation that are not padding. -/
def realIndices (witness : AggUtxo.Witness) : List (Fin 3) :=
  (List.finRange 3).filter fun index => (witness.proofs.get index).utxoKind ≠ 0

/-- What the transaction at an index changes in the ledger. -/
def changesAt (witness : AggUtxo.Witness) (index : Fin 3) : List Change :=
  changesOf (transactionAt extract witness index) (witness.proofs.get index)

/-- All changes of an aggregation, in program order. -/
def aggregationChanges (witness : AggUtxo.Witness) : List Change :=
  (realIndices witness).flatMap (changesAt extract witness)

/-- The notes, other than padding, of the transactions of a history. -/
def historyNotes (history : List AggUtxo.Witness) : Set Note :=
  {note | note.kind ≠ 0 ∧ ∃ witness ∈ history, ∃ index ∈ realIndices witness,
    note ∈ (transactionAt extract witness index).notes}

variable (poseidon : Poseidon)

/-- The notes in the tree after a history of aggregations. -/
def ledgerAfter (history : List AggUtxo.Witness) : Ledger :=
  Ledger.empty.applyAll poseidon (history.flatMap (aggregationChanges extract))

/-- No two notes and no two merged pairs that the history evaluates collide,
and no note commits to the padding commitment. -/
structure CollisionFree (history : List AggUtxo.Witness) : Prop where
  merges : Set.InjOn (Function.uncurry (AggUtxo.merge poseidon))
    (Ledger.empty.allPairs poseidon (history.flatMap (aggregationChanges extract)))
  notes : NotesSeparated poseidon (historyNotes extract history)

end History

variable {verifyProof : VerifyProof} {extract : Extractor}

@[simp]
theorem ledgerAfter_append (history rest : List AggUtxo.Witness) :
    ledgerAfter extract poseidon (history ++ rest) =
      (ledgerAfter extract poseidon history).applyAll poseidon
        (rest.flatMap (aggregationChanges extract)) := by
  rw [ledgerAfter, List.flatMap_append, Ledger.applyAll_append]
  rfl

theorem historyNotes_append_left (history rest : List AggUtxo.Witness) :
    historyNotes extract history ⊆ historyNotes extract (history ++ rest) := by
  rintro note ⟨notPadding, witness, mem, found⟩
  exact ⟨notPadding, witness, List.mem_append_left _ mem, found⟩

theorem NotesSeparated.mono {small large : Set Note} (subset : small ⊆ large)
    (separated : NotesSeparated poseidon large) : NotesSeparated poseidon small :=
  ⟨separated.injOn.mono subset, fun note mem => separated.nonzero note (subset mem)⟩

/-- Every prefix of a collision free history is collision free. -/
theorem CollisionFree.of_append {history rest : List AggUtxo.Witness}
    (free : CollisionFree extract poseidon (history ++ rest)) :
    CollisionFree extract poseidon history := by
  refine ⟨free.merges.mono ?_, NotesSeparated.mono (historyNotes_append_left _ _) free.notes⟩
  rw [List.flatMap_append, Ledger.allPairs_append]
  exact Set.subset_union_left

/-- The extractor returns the transaction that the aggregation rebuilt. -/
theorem aggregated_transactionAt (extracts : Extracts poseidon verifyProof extract)
    {witness : AggUtxo.Witness} (accepted : AggUtxo.Accepted poseidon verifyProof witness)
    {index : Fin 3} (real : (witness.proofs.get index).utxoKind ≠ 0) :
    Aggregated poseidon (transactionAt extract witness index) (witness.proofs.get index)
      (AggUtxo.fieldsOf witness index) := by
  obtain ⟨transactionAccepted, inputsEq⟩ := extracts _ _ _ (accepted.verified index real)
  have publicInputsEq := Vector.toList_inj.mp inputsEq
  rw [Utxo.Witness.publicInputs, AggUtxo.rebuilt, AggUtxo.rebuild_eq_append] at publicInputsEq
  obtain ⟨commitmentsEq, messagesEq⟩ := Vector.append_inj publicInputsEq
  exact ⟨Utxo.main_eq_ok_iff.mp transactionAccepted, commitmentsEq, messagesEq⟩

/-- A list of transactions of one aggregation moves the total by the sum of
their mint and burn values. -/
theorem foldlM_applyCommitments_follows (extracts : Extracts poseidon verifyProof extract)
    {witness : AggUtxo.Witness} (accepted : AggUtxo.Accepted poseidon verifyProof witness)
    {notes : Set Note} (separated : NotesSeparated poseidon notes) {indices : List (Fin 3)}
    (real : ∀ index ∈ indices, (witness.proofs.get index).utxoKind ≠ 0)
    (notesMem : ∀ index ∈ indices, ∀ note ∈ (transactionAt extract witness index).notes,
      note.kind ≠ 0 → note ∈ notes)
    {ledger : Ledger} (bounded : ledger.Bounded notes)
    (collisionFree : Set.InjOn (Function.uncurry (AggUtxo.merge poseidon))
      (ledger.allPairs poseidon (indices.flatMap (changesAt extract witness))))
    {next : Base}
    (applied : indices.foldlM
      (fun root index => AggUtxo.applyCommitments poseidon root (witness.proofs.get index))
      (ledger.root poseidon) = .ok next) :
    let final := ledger.applyAll poseidon (indices.flatMap (changesAt extract witness))
    next = final.root poseidon ∧ final.Bounded notes ∧
      final.total +
          (indices.map fun index => (transactionAt extract witness index).burnValue).sum =
        ledger.total +
          (indices.map fun index => (transactionAt extract witness index).mintValue).sum := by
  induction indices generalizing ledger with
  | nil =>
      have nextEq : ledger.root poseidon = next := by simpa using applied
      exact ⟨nextEq.symm, bounded, rfl⟩
  | cons index indices ih =>
      rw [List.foldlM_cons, bind_eq_ok_iff] at applied
      obtain ⟨middle, first, rest⟩ := applied
      rw [List.flatMap_cons, Ledger.allPairs_append] at collisionFree
      have indexReal := real index List.mem_cons_self
      obtain ⟨rfl, middleBounded, firstTotal⟩ :=
        (aggregated_transactionAt extracts accepted indexReal).follows indexReal separated
          (notesMem index List.mem_cons_self) bounded
          (collisionFree.mono Set.subset_union_left) first
      obtain ⟨rootEq, finalBounded, restTotal⟩ :=
        ih (fun other mem => real other (List.mem_cons_of_mem _ mem))
          (fun other mem => notesMem other (List.mem_cons_of_mem _ mem)) middleBounded
          (collisionFree.mono Set.subset_union_right) rest
      simp only [List.flatMap_cons, Ledger.applyAll_append, List.map_cons, List.sum_cons]
      exact ⟨rootEq, finalBounded, by
        simp only [changesAt] at restTotal firstTotal ⊢
        omega⟩

/-! ## Runs of aggregations -/

theorem sum_flatMap {α β : Type} (values : β → Nat) (expand : α → List β) (entries : List α) :
    ((entries.flatMap expand).map values).sum =
      (entries.map fun entry => ((expand entry).map values).sum).sum := by
  induction entries with
  | nil => rfl
  | cons entry entries ih => simp [List.flatMap_cons, ih]

/-- The public messages carry the values of the transactions that are not
padding. -/
theorem mintedBy_burnedBy_eq (extracts : Extracts poseidon verifyProof extract)
    {witness : AggUtxo.Witness} (accepted : AggUtxo.Accepted poseidon verifyProof witness) :
    mintedBy witness = ((realIndices witness).map fun index =>
        (transactionAt extract witness index).mintValue).sum ∧
      burnedBy witness = ((realIndices witness).map fun index =>
        (transactionAt extract witness index).burnValue).sum := by
  have parsed : readMessages witness.messages.toList = some (AggUtxo.settled witness) :=
    accepted.frames.parseMessages_eq
  have none_of_padding : ∀ index : Fin 3, (witness.proofs.get index).utxoKind = 0 →
      AggUtxo.settledMessages (witness.proofs.get index).utxoKind
        (AggUtxo.fieldsOf witness index) = [] := by
    intro index padding
    rw [padding]
    rfl
  have values : ∀ index ∈ realIndices witness, _ := fun index mem =>
    (aggregated_transactionAt extracts accepted
      (by simpa [realIndices] using mem)).settledMessages_values
  unfold mintedBy burnedBy
  rw [parsed, Option.getD_some, AggUtxo.settled, sum_flatMap, sum_flatMap]
  constructor
  · rw [← sum_map_filter fun index : Fin 3 => (witness.proofs.get index).utxoKind ≠ 0]
    · exact congrArg List.sum (List.map_congr_left fun index mem => (values index mem).1)
    · intro index _ padding
      rw [none_of_padding index (by simpa using padding)]
      rfl
  · rw [← sum_map_filter fun index : Fin 3 => (witness.proofs.get index).utxoKind ≠ 0]
    · exact congrArg List.sum (List.map_congr_left fun index mem => (values index mem).2)
    · intro index _ padding
      rw [none_of_padding index (by simpa using padding)]
      rfl

/-- One aggregation moves the total of the ledger by what its public messages
mint and burn. -/
theorem aggregation_follows (extracts : Extracts poseidon verifyProof extract)
    {history : List AggUtxo.Witness} {witness : AggUtxo.Witness}
    (free : CollisionFree extract poseidon (history ++ [witness]))
    (bounded : (ledgerAfter extract poseidon history).Bounded
      (historyNotes extract (history ++ [witness])))
    {next : Base}
    (step : Aggregates poseidon verifyProof
      ((ledgerAfter extract poseidon history).root poseidon) witness next) :
    next = (ledgerAfter extract poseidon (history ++ [witness])).root poseidon ∧
      (ledgerAfter extract poseidon (history ++ [witness])).Bounded
        (historyNotes extract (history ++ [witness])) ∧
      (ledgerAfter extract poseidon (history ++ [witness])).total + burnedBy witness =
        (ledgerAfter extract poseidon history).total + mintedBy witness := by
  obtain ⟨accepted, oldRootEq, rfl⟩ := step
  have conditions := AggUtxo.main_eq_ok accepted
  have merges := free.merges
  rw [List.flatMap_append, Ledger.allPairs_append, List.flatMap_cons, List.flatMap_nil,
    List.append_nil] at merges
  have real : ∀ index ∈ realIndices witness, (witness.proofs.get index).utxoKind ≠ 0 :=
    fun index mem => by simpa [realIndices] using mem
  have notesMem : ∀ index ∈ realIndices witness,
      ∀ note ∈ (transactionAt extract witness index).notes, note.kind ≠ 0 →
        note ∈ historyNotes extract (history ++ [witness]) :=
    fun index indexMem note noteMem notPadding =>
      ⟨notPadding, witness, by simp, index, indexMem, noteMem⟩
  have applied := conditions.root
  rw [oldRootEq] at applied
  have realApplied : (realIndices witness).foldlM
      (fun root index => AggUtxo.applyCommitments poseidon root (witness.proofs.get index))
      ((ledgerAfter extract poseidon history).root poseidon) = .ok witness.newRoot := by
    rw [← applied, realIndices, List.foldlM_filter]
    congr 1
    funext root index
    generalize (witness.proofs.get index) = proof
    by_cases padding : proof.utxoKind = 0
    · simp [padding, AggUtxo.applyCommitments]
    · simp [padding]
  obtain ⟨rootEq, finalBounded, totalEq⟩ :=
    foldlM_applyCommitments_follows extracts conditions free.notes real notesMem bounded
      (merges.mono Set.subset_union_right) realApplied
  obtain ⟨mintedEq, burnedEq⟩ := mintedBy_burnedBy_eq extracts conditions
  rw [ledgerAfter_append, List.flatMap_cons, List.flatMap_nil, List.append_nil, mintedEq,
    burnedEq]
  exact ⟨rootEq, finalBounded, totalEq⟩

theorem Bounded.mono {small large : Set Note} (subset : small ⊆ large) {ledger : Ledger}
    (bounded : ledger.Bounded small) : ledger.Bounded large := by
  intro slot note found
  obtain ⟨mem, rest⟩ := bounded slot note found
  exact ⟨subset mem, rest⟩

/-- Along every collision free run the root is the root of the ledger. -/
theorem run_follows (extracts : Extracts poseidon verifyProof extract)
    {history : List AggUtxo.Witness} {root : Base}
    (run : Run (Aggregates poseidon verifyProof)
      (Merkle.emptyRoot (AggUtxo.merge poseidon) 0 160) history root)
    (free : CollisionFree extract poseidon history) :
    root = (ledgerAfter extract poseidon history).root poseidon ∧
      (ledgerAfter extract poseidon history).Bounded (historyNotes extract history) := by
  induction run with
  | nil => exact ⟨Ledger.empty_root.symm, Ledger.empty_bounded _⟩
  | snoc run step ih =>
      obtain ⟨rfl, bounded⟩ := ih free.of_append
      obtain ⟨rootEq, finalBounded, _⟩ := aggregation_follows extracts free
        (Bounded.mono (historyNotes_append_left _ _) bounded) step
      exact ⟨rootEq, finalBounded⟩

/-- Value is conserved by every transaction, between natural numbers, and
along every run of aggregations from the empty tree: the ledger follows the
root, and each step changes its total by exactly the minted minus the burned
value of the step's public messages. -/
theorem value_conserved :
    (∀ (poseidon : Poseidon) (witness : Utxo.Witness),
      Utxo.main poseidon witness = .ok () → witness.InputsBounded →
        Utxo.UniformKinds witness.notes ∧
          (∀ note ∈ witness.outputNotes.toList, note.value.val < 2 ^ 240) ∧
          witness.inputTotal + witness.mintValue = witness.outputTotal + witness.burnValue) ∧
    ∀ (poseidon : Poseidon) (verifyProof : VerifyProof) (extract : Extractor),
      Extracts poseidon verifyProof extract →
        ∀ (history : List AggUtxo.Witness) (root : Base),
          Run (Aggregates poseidon verifyProof)
              (Merkle.emptyRoot (AggUtxo.merge poseidon) 0 160) history root →
            CollisionFree extract poseidon history →
              root = (ledgerAfter extract poseidon history).root poseidon ∧
                ∀ before witness after, history = before ++ witness :: after →
                  (ledgerAfter extract poseidon (before ++ [witness])).total +
                      burnedBy witness =
                    (ledgerAfter extract poseidon before).total + mintedBy witness := by
  refine ⟨?_, ?_⟩
  · intro poseidon witness accepted bounded
    have conditions := Utxo.main_eq_ok_iff.mp accepted
    refine ⟨conditions.uniform, fun note mem => ?_, conditions.total_eq bounded⟩
    obtain ⟨position, positionLt, rfl⟩ := List.mem_iff_getElem.mp mem
    simp only [Vector.length_toList] at positionLt
    obtain rfl | rfl : position = 0 ∨ position = 1 := by omega
    · exact conditions.output0_lt
    · exact conditions.output1_lt
  · intro poseidon verifyProof extract extracts history root run free
    refine ⟨(run_follows extracts run free).1, ?_⟩
    rintro before witness after rfl
    rw [List.append_cons] at run free
    have stepFree := free.of_append
    obtain ⟨middle, stepRun⟩ := Run.of_append run
    obtain ⟨previous, beforeRun, step⟩ := Run.of_snoc stepRun
    obtain ⟨rfl, bounded⟩ := run_follows extracts beforeRun stepFree.of_append
    exact (aggregation_follows extracts stepFree
      (Bounded.mono (historyNotes_append_left _ _) bounded) step).2.2

/-! ## A mint into the empty tree -/

/-- A hash that can be evaluated, standing for the sponge. -/
def tallyHash : Poseidon := fun words => words.foldl (fun total word => total + word + 1) 0

/-- A note of value nine. -/
def mintedNote : Note := ⟨7, 5, 9, 1⟩

/-- Mint five units of kind seven. -/
def mintTransaction : Utxo.Witness where
  inputNotes := Vector.replicate 2 ⟨⟨0, 0, 0, 0⟩, 0⟩
  outputNotes := #v[mintedNote, ⟨0, 0, 0, 0⟩]
  pmessage4 := 0
  commitments := #v[0, 0, noteHash tallyHash mintedNote, 0]
  messages := #v[2, 7, 5, tallyHash [1, 0], 0]

/-- The proof of a transaction that creates one note on an empty place. -/
def mintInput (utxoKind commitment : Base) (merklePath : Vector Base 160) :
    AggUtxo.AggUtxoProofInput where
  proof := Vector.replicate 508 0
  utxoKind := utxoKind
  inputMerklePaths := Vector.replicate 2 merklePath
  outputMerklePaths := Vector.replicate 2 merklePath
  inputCommitments := Vector.replicate 2 0
  outputCommitments := #v[commitment, 0]

/-- The root of a tree after the minted note was written along a path. -/
def mintedRoot (merklePath : Vector Base 160) : Base :=
  AggUtxo.getMerkleRoot tallyHash (noteHash tallyHash mintedNote)
    (toLeBits (noteHash tallyHash mintedNote)) merklePath

/-- The mint aggregated with two padding transactions. -/
def mintAggregationAt (root : Base) (merklePath : Vector Base 160) : AggUtxo.Witness where
  verificationKey := Vector.replicate 115 0
  verificationKeyHash := AggUtxo.UTXO_VERIFICATION_KEY_HASH
  proofs :=
    #v[mintInput 2 (noteHash tallyHash mintedNote) merklePath, mintInput 0 0 merklePath,
      mintInput 0 0 merklePath]
  messages := #v[2, 7, 5, tallyHash [1, 0], 0, 0, 0, 0, 0, 0, 0, 0, 0, 0, 0]
  oldRoot := root
  newRoot := mintedRoot merklePath
  commitHash := tallyHash
    [AggUtxo.utxoHash tallyHash (mintInput 2 (noteHash tallyHash mintedNote) merklePath),
      AggUtxo.utxoHash tallyHash (mintInput 0 0 merklePath),
      AggUtxo.utxoHash tallyHash (mintInput 0 0 merklePath)]

/-- The path beside an empty tree. -/
def emptyPath : Vector Base 160 :=
  Vector.ofFn fun level => Merkle.emptyRoot (AggUtxo.merge tallyHash) 0 level.val

/-- The mint into the empty tree. -/
def mintAggregation : AggUtxo.Witness :=
  mintAggregationAt (Merkle.emptyRoot (AggUtxo.merge tallyHash) 0 160) emptyPath

/-- A verifier that knows the mint only. -/
def mintVerifier : VerifyProof := fun _ _ inputs keyHash _ =>
  keyHash = AggUtxo.UTXO_VERIFICATION_KEY_HASH ∧ inputs = mintTransaction.publicInputs.toList

/-- Every proof proves the mint of the note. -/
def mintExtractor : Extractor := fun _ _ _ => mintTransaction

@[simp]
theorem mintTransaction_accepted : Utxo.main tallyHash mintTransaction = .ok () := by
  decide +kernel

set_option maxRecDepth 4000 in
/-- The mint is accepted wherever its path shows an empty slot. -/
theorem mintAggregationAt_accepted {verifyProof : VerifyProof} {root : Base}
    {merklePath : Vector Base 160}
    (knows : ∀ key proof, verifyProof key proof mintTransaction.publicInputs.toList
      AggUtxo.UTXO_VERIFICATION_KEY_HASH 7 = true)
    (nullRoot : AggUtxo.getNullRoot tallyHash (toLeBits (noteHash tallyHash mintedNote))
      merklePath = root) :
    AggUtxo.main tallyHash verifyProof (mintAggregationAt root merklePath) = .ok () := by
  have inserted : AggUtxo.insertOutput tallyHash root (noteHash tallyHash mintedNote)
      merklePath = .ok (mintedRoot merklePath) := by
    rw [AggUtxo.insertOutput, if_pos (by decide), AggUtxo.validateNull, check_of _ nullRoot]
    rfl
  have applied : AggUtxo.applyCommitments tallyHash root
      (mintInput 2 (noteHash tallyHash mintedNote) merklePath) = .ok (mintedRoot merklePath) := by
    have removed : ∀ root, AggUtxo.removeInput tallyHash root 0 merklePath = .ok root :=
      fun _ => if_neg (not_not_intro rfl)
    have skipped : ∀ root, AggUtxo.insertOutput tallyHash root 0 merklePath = .ok root :=
      fun _ => if_neg (not_not_intro rfl)
    have real : (mintInput 2 (noteHash tallyHash mintedNote) merklePath).utxoKind ≠ 0 :=
      (by decide : (2 : Base) ≠ 0)
    rw [AggUtxo.applyCommitments, if_pos real]
    change (do
      let root ← AggUtxo.removeInput tallyHash root 0 merklePath
      let root ← AggUtxo.removeInput tallyHash root 0 merklePath
      let root ← AggUtxo.insertOutput tallyHash root (noteHash tallyHash mintedNote) merklePath
      AggUtxo.insertOutput tallyHash root 0 merklePath) = _
    rw [removed, ok_bind, removed, ok_bind, inserted, ok_bind, skipped]
  let minted := mintInput 2 (noteHash tallyHash mintedNote) merklePath
  let idle := mintInput 0 0 merklePath
  let loop : AggUtxo.Loop :=
    ⟨mintedRoot merklePath, (Vector.replicate 3 0).set 0 (AggUtxo.utxoHash tallyHash minted), 4,
      mintTransaction.publicInputs⟩
  have first : AggUtxo.iteration tallyHash verifyProof (mintAggregationAt root merklePath)
      (AggUtxo.start root) 0 = .ok loop :=
    AggUtxo.iteration_eq_ok_iff.mpr ⟨⟨7, 5, tallyHash [1, 0], 0⟩, 4, mintedRoot merklePath, rfl,
      fun _ => (by decide : (2 : Base) ≠ 0), knows _ _, applied, rfl⟩
  have padding : ∀ (index : Fin 3) (utxoHashes : Vector Base 3), index ≠ 0 →
      ((mintAggregationAt root merklePath).proofs.get index) = idle →
      AggUtxo.iteration tallyHash verifyProof (mintAggregationAt root merklePath)
        { loop with utxoHashes } index =
          .ok { loop with utxoHashes := utxoHashes.set index (AggUtxo.utxoHash tallyHash idle) } := by
    intro index utxoHashes notFirst proofEq
    rw [AggUtxo.iteration_padding (by rw [proofEq]; rfl) notFirst (knows _ _), proofEq]
  have zero : ∀ index : Fin 15, 4 ≤ index.val →
      (#v[2, 7, 5, tallyHash [1, 0], 0, 0, 0, 0, 0, 0, 0, 0, 0, 0, 0] : Vector Base 15).get index =
        0 := by
    decide
  have looped := Run.foldlM_eq_ok_iff.mpr
    (.snoc (.snoc (.snoc .nil first) (padding 1 _ (by decide) rfl)) (padding 2 _ (by decide) rfl))
  exact AggUtxo.main_eq_ok_iff.mpr ⟨rfl, _, looped, zero, rfl, congrArg tallyHash rfl⟩

theorem emptyPath_getD (level : Nat) (levelLt : level < 160) :
    emptyPath[level]?.getD 0 = Merkle.emptyRoot (AggUtxo.merge tallyHash) 0 level := by
  simp [emptyPath, levelLt]

@[simp]
theorem emptyPath_nullRoot :
    AggUtxo.getNullRoot tallyHash (toLeBits (noteHash tallyHash mintedNote)) emptyPath =
      Merkle.emptyRoot (AggUtxo.merge tallyHash) 0 160 := by
  rw [AggUtxo.getNullRoot, AggUtxo.getMerkleRoot_eq_climb]
  exact Merkle.climb_null _ emptyPath_getD

@[simp]
theorem mintAggregation_accepted :
    AggUtxo.main tallyHash mintVerifier mintAggregation = .ok () :=
  mintAggregationAt_accepted (fun _ _ => decide_eq_true ⟨rfl, rfl⟩) emptyPath_nullRoot

theorem mintExtractor_extracts : Extracts tallyHash mintVerifier mintExtractor := by
  intro key proof inputs verified
  have inputsEq : inputs = mintTransaction.publicInputs.toList := by
    simpa [mintVerifier] using verified
  exact ⟨mintTransaction_accepted, inputsEq.symm⟩

/-- The empty roots of the evaluated tree grow with the level. -/
theorem emptyRoots_nodup :
    ((List.range 161).map (Merkle.emptyRoot (AggUtxo.merge tallyHash) 0)).Nodup := by
  have increasing : ((List.range 161).map
      (Merkle.emptyRoot (AggUtxo.merge tallyHash) 0)).IsChain (· < ·) := by
    decide +kernel
  exact (List.isChain_iff_pairwise.mp increasing).imp fun less => ne_of_lt less

/-- The only change is the write of the minted note. -/
@[simp]
theorem mintAggregation_changes :
    aggregationChanges mintExtractor mintAggregation = [⟨true, mintedNote, emptyPath⟩] :=
  rfl

theorem mintAggregation_collisionFree :
    CollisionFree mintExtractor tallyHash [mintAggregation] := by
  constructor
  · have pairs : Ledger.empty.allPairs tallyHash
        ([mintAggregation].flatMap (aggregationChanges mintExtractor)) ⊆
          Merkle.nodes (AggUtxo.merge tallyHash) 160 fun _ => 0 := by
      rw [List.flatMap_singleton, mintAggregation_changes]
      rintro pair ((mem | mem) | mem)
      · exact mem
      · exact Merkle.climbNodes_null _ emptyPath_getD mem
      · exact absurd mem (Set.notMem_empty pair)
    refine Set.InjOn.mono pairs ?_
    rw [Merkle.nodes_null]
    rintro _ ⟨first, firstLt, rfl⟩ _ ⟨second, secondLt, rfl⟩ equal
    have levelEq : first + 1 = second + 1 :=
      List.inj_on_of_nodup_map emptyRoots_nodup (List.mem_range.mpr (by omega))
        (List.mem_range.mpr (by omega)) equal
    rw [Nat.succ.inj levelEq]
  · have notesEq : ∀ note ∈ historyNotes mintExtractor [mintAggregation], note = mintedNote := by
      rintro note ⟨notPadding, witness, _, index, _, mem⟩
      simp only [transactionAt, mintExtractor, Utxo.Witness.notes, mintTransaction] at mem
      simp [get_eq_getElem] at mem
      rcases mem with rfl | rfl | rfl
      · exact absurd rfl notPadding
      · rfl
      · exact absurd rfl notPadding
    refine ⟨fun first firstMem second secondMem _ => ?_, fun note mem => ?_⟩
    · rw [notesEq first firstMem, notesEq second secondMem]
    · rw [notesEq note mem]
      decide

theorem mintAggregation_run :
    Run (Aggregates tallyHash mintVerifier)
      (Merkle.emptyRoot (AggUtxo.merge tallyHash) 0 160) [mintAggregation]
      mintAggregation.newRoot :=
  .snoc .nil ⟨mintAggregation_accepted, rfl, rfl⟩

/-- A mint of five into the empty tree leaves a total of five. -/
theorem mint_total : (ledgerAfter mintExtractor tallyHash [mintAggregation]).total = 5 := by
  have conserved := (value_conserved.2 tallyHash mintVerifier mintExtractor
    mintExtractor_extracts [mintAggregation] mintAggregation.newRoot mintAggregation_run
    mintAggregation_collisionFree).2 [] mintAggregation [] rfl
  have parsed : readMessages mintAggregation.messages.toList =
      some [.mint 7 5 (.fromBase (tallyHash [1, 0]))] := by
    decide +kernel
  have minted : mintedBy mintAggregation = 5 := by
    simp [mintedBy, parsed, Message.minted]
  have burned : burnedBy mintAggregation = 0 := by
    simp [burnedBy, parsed, Message.burned]
  have ledgerEq : ledgerAfter mintExtractor tallyHash [] = Ledger.empty := rfl
  rw [burned, minted, ledgerEq, Ledger.empty_total, List.nil_append, Nat.add_zero,
    Nat.zero_add] at conserved
  exact conserved

end Ciphera.Settlement
