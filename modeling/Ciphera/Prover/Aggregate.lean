import Ciphera.Noir.AggUtxo
import Ciphera.Zk.Utxo
import Mathlib.Data.List.Forall2

/-!
# Bundling a block for aggregation

The prover fills the transactions of a block up to six, splits them into two
groups of three and hands each group to the first aggregation circuit.  The
message words go into one array per group, mints with four words and burns with
five; the circuit rebuilds the public inputs of each transaction from that
array.  A transaction whose kind reads as null counts as padding.
-/

namespace Ciphera.Prover

open Ciphera.Lib Ciphera.Noir Ciphera.Noir.AggUtxo Ciphera.Zk

/-- The aggregations of a rollup. -/
def UTXO_AGGREGATIONS : Nat := 2

/-- The transactions of an aggregation. -/
def UTXO_AGG_NUMBER : Nat := 3

/-- The transactions of a rollup. -/
def MAXIMUM_TXNS : Nat := UTXO_AGG_NUMBER * UTXO_AGGREGATIONS

/-- `UtxoProof::default`, the padding transaction. -/
def paddingProof : UtxoProof where
  proof := List.replicate (32 * 508) 0
  publicInputs := .single 0 0 0 0 0 0

/-- The transaction only fills a free place. -/
def isPadding (utxo : UtxoProof) : Bool := utxo.kind = .null

/-- The words a transaction puts into the messages of its group. -/
def messageWords (inputs : UtxoPublicInput) : List Element :=
  match inputs.kind with
  | .null | .send => []
  | .mint => inputs.messages.toList.take 4
  | .burn | .noSub => inputs.messages.toList

/-- The messages of a group: the words of its transactions in a row, and zeros
behind them. -/
def messages (proofs : List UtxoProof) : Vector Element 15 :=
  Vector.ofFn fun index =>
    (proofs.flatMap fun proof => messageWords proof.publicInputs)[index.val]?.getD Element.ZERO

/-- What the prover adds to a transaction: the words of the proof and the
Merkle paths of its commitments. -/
structure Attachment where
  proof : Vector Base 508
  inputMerklePaths : Vector (Vector Base 160) 2
  outputMerklePaths : Vector (Vector Base 160) 2

variable (attach : UtxoProof → Attachment)

/-- The arguments of the circuit for one transaction. -/
def proofInput (utxo : UtxoProof) : AggUtxoProofInput where
  proof := (attach utxo).proof
  utxoKind := utxo.kind.toElement.toBase
  inputMerklePaths := (attach utxo).inputMerklePaths
  outputMerklePaths := (attach utxo).outputMerklePaths
  inputCommitments := utxo.publicInputs.inputCommitments.map Element.toBase
  outputCommitments := utxo.publicInputs.outputCommitments.map Element.toBase

/-- The bundle of a transaction; padding is replaced by the padding proof. -/
def bundle (utxo : UtxoProof) : UtxoProof := if isPadding utxo then paddingProof else utxo

/-- The public inputs that the circuit rebuilds, one transaction after the
other. -/
def rebuildFrom (words : Vector Base 15) : Nat → List UtxoProof → Circuit (List (Vector Base 9))
  | _, [] => .ok []
  | index, utxo :: rest => do
      let (fields, next) ← readFields words (proofInput attach utxo).utxoKind index
      let rebuilt ← rebuildFrom words next rest
      pure (rebuild (proofInput attach utxo) fields :: rebuilt)

/-- `aggregate_utxo`, as far as the rebuilt public inputs go. -/
def rebuildGroup (utxos : List UtxoProof) : Circuit (List (Vector Base 9)) :=
  rebuildFrom attach ((messages (utxos.map bundle)).map Element.toBase) 0 (utxos.map bundle)

/-- The transactions of a block, filled up with padding. -/
def padded (txns : List UtxoProof) : List UtxoProof :=
  txns ++ List.replicate (MAXIMUM_TXNS - txns.length) paddingProof

/-- The rebuilt public inputs of a block.  The worker unwraps the conversion of
its transactions into an array of six. -/
def rebuildBlock (txns : List UtxoProof) : Circuit (List (Vector Base 9)) :=
  if (padded txns).length = MAXIMUM_TXNS then do
    let first ← rebuildGroup attach ((padded txns).take UTXO_AGG_NUMBER)
    let second ← rebuildGroup attach ((padded txns).drop UTXO_AGG_NUMBER)
    pure (first ++ second)
  else
    .error "called unwrap on an Err value"

/-- A block that the prover can aggregate: it fits, and the public inputs
rebuilt for its transactions are those of their proofs. -/
def Aggregable (txns : List UtxoProof) : Prop :=
  txns.length ≤ MAXIMUM_TXNS ∧
    ∃ rebuilt, rebuildBlock attach txns = .ok rebuilt ∧
      rebuilt.take txns.length = txns.map fun txn => txn.publicInputs.residues

/-- The message words of the proof of a block, as its verifier reads them. -/
def blockMessages (txns : List UtxoProof) : List Element :=
  ((messages (((padded txns).take UTXO_AGG_NUMBER).map bundle)).toList ++
    (messages (((padded txns).drop UTXO_AGG_NUMBER).map bundle)).toList).map fun word =>
      Element.fromBase word.toBase

/-- The words with which a block settles.  A block that cannot be aggregated has
no proof and no words. -/
def Settles (txns : List UtxoProof) (words : List Element) : Prop :=
  Aggregable attach txns ∧ words = blockMessages txns

/-- The first message word is the kind the node reads, and the words that the
kind does not use are zero in the field. -/
structure Regular (inputs : UtxoPublicInput) : Prop where
  kind : (inputs.messages.get 0).toBase = inputs.kind.toElement.toBase
  words : inputs.kind = .null ∨ inputs.kind = .send →
    (inputs.messages.get 1).toBase = 0 ∧ (inputs.messages.get 2).toBase = 0 ∧
      (inputs.messages.get 3).toBase = 0
  address : inputs.kind = .null ∨ inputs.kind = .send ∨ inputs.kind = .mint →
    (inputs.messages.get 4).toBase = 0

/-! ## Rebuilding -/

theorem five_eq_iff {α : Type} {first second third fourth fifth : α} {vector : Vector α 5} :
    #v[first, second, third, fourth, fifth] = vector ↔
      first = vector.get 0 ∧ second = vector.get 1 ∧ third = vector.get 2 ∧
        fourth = vector.get 3 ∧ fifth = vector.get 4 := by
  constructor
  · rintro rfl
    exact ⟨rfl, rfl, rfl, rfl, rfl⟩
  · rintro ⟨rfl, rfl, rfl, rfl, rfl⟩
    apply Vector.ext
    intro index indexLt
    match index, indexLt with
    | 0, _ | 1, _ | 2, _ | 3, _ | 4, _ => rfl

theorem pair_eq {α : Type} (vector : Vector α 2) : #v[vector.get 0, vector.get 1] = vector := by
  apply Vector.ext
  intro index indexLt
  match index, indexLt with
  | 0, _ | 1, _ => rfl

variable {attach}

/-- The rebuilt public inputs are those of the proof when the kind and the four
other words are. -/
theorem rebuild_eq_residues_iff {utxo : UtxoProof} {fields : Fields} :
    rebuild (proofInput attach utxo) fields = utxo.publicInputs.residues ↔
      utxo.kind.toElement.toBase = (utxo.publicInputs.messages.get 0).toBase ∧
        fields.noteKind = (utxo.publicInputs.messages.get 1).toBase ∧
        fields.value = (utxo.publicInputs.messages.get 2).toBase ∧
        fields.hash = (utxo.publicInputs.messages.get 3).toBase ∧
        fields.burnAddr = (utxo.publicInputs.messages.get 4).toBase := by
  have commitments : #v[(proofInput attach utxo).inputCommitments.get 0,
      (proofInput attach utxo).inputCommitments.get 1,
      (proofInput attach utxo).outputCommitments.get 0,
      (proofInput attach utxo).outputCommitments.get 1] =
        utxo.publicInputs.commitments.map Element.toBase := by
    rw [UtxoPublicInput.commitments, Vector.map_append]
    conv_rhs => rw [← pair_eq (utxo.publicInputs.inputCommitments.map Element.toBase),
      ← pair_eq (utxo.publicInputs.outputCommitments.map Element.toBase)]
    rfl
  have messages : ∀ index, (utxo.publicInputs.messages.map Element.toBase).get index =
      (utxo.publicInputs.messages.get index).toBase := by
    intro index
    simp [get_eq_getElem]
  rw [rebuild_eq_append, commitments, UtxoPublicInput.residues, UtxoPublicInput.fields,
    Vector.map_append, Vector.append_right_inj, five_eq_iff]
  simp only [messages]
  rfl

/-- The residues of the four words behind the kind. -/
def wordFields (inputs : UtxoPublicInput) : Fields where
  noteKind := (inputs.messages.get 1).toBase
  value := (inputs.messages.get 2).toBase
  hash := (inputs.messages.get 3).toBase
  burnAddr := (inputs.messages.get 4).toBase

theorem toList_five {α : Type} (vector : Vector α 5) :
    vector.toList =
      [vector.get 0, vector.get 1, vector.get 2, vector.get 3, vector.get 4] := by
  conv_lhs => rw [← five_eq_iff.mpr
    (show vector.get 0 = vector.get 0 ∧ vector.get 1 = vector.get 1 ∧
      vector.get 2 = vector.get 2 ∧ vector.get 3 = vector.get 3 ∧ vector.get 4 = vector.get 4 from
        ⟨rfl, rfl, rfl, rfl, rfl⟩)]
  rfl

theorem Regular.fits {inputs : UtxoPublicInput} (regular : Regular inputs) :
    Fits inputs.kind.toElement.toBase (wordFields inputs) := by
  have words := regular.words
  have address := regular.address
  cases kind : inputs.kind with
  | null =>
      exact ⟨fun _ => address (Or.inl kind), fun _ => words (Or.inl kind)⟩
  | send =>
      exact ⟨fun _ => address (Or.inr (Or.inl kind)), fun _ => words (Or.inr kind)⟩
  | mint =>
      exact ⟨fun _ => address (Or.inr (Or.inr kind)), fun other => absurd rfl other.1⟩
  | burn => exact ⟨fun other => absurd rfl other.1, fun other => absurd rfl other.2.1⟩
  | noSub => exact ⟨fun other => absurd rfl other.2, fun other => absurd rfl other.2.2⟩

/-- A transaction contributes the words that the circuit reads for it. -/
theorem Regular.messageWords_eq {inputs : UtxoPublicInput} (regular : Regular inputs) :
    (messageWords inputs).map Element.toBase =
      fieldWords inputs.kind.toElement.toBase (wordFields inputs) := by
  have first := regular.kind
  rw [messageWords, toList_five]
  cases kind : inputs.kind with
  | null => rfl
  | send => rfl
  | mint =>
      rw [kind] at first
      simp only [List.take_succ_cons, List.take_zero, List.map_cons, List.map_nil, first]
      rfl
  | burn =>
      rw [kind] at first
      simp only [List.map_cons, List.map_nil, first]
      rfl
  | noSub =>
      rw [kind] at first
      simp only [List.map_cons, List.map_nil, first]
      rfl

/-- Regular transactions are rebuilt from the words they contribute. -/
theorem rebuildFrom_eq_ok {words : Vector Base 15} {index : Nat} {proofs : List UtxoProof}
    {rest : List Base} (regular : ∀ proof ∈ proofs, Regular proof.publicInputs)
    (dropped : words.toList.drop index =
      (proofs.flatMap fun proof => messageWords proof.publicInputs).map Element.toBase ++ rest) :
    rebuildFrom attach words index proofs =
      .ok (proofs.map fun proof => proof.publicInputs.residues) := by
  induction proofs generalizing index with
  | nil => rfl
  | cons proof proofs ih =>
      obtain ⟨first, others⟩ := List.forall_mem_cons.mp regular
      rw [List.flatMap_cons, List.map_append, List.append_assoc, first.messageWords_eq] at dropped
      have behind : words.toList.drop (index +
          (fieldWords proof.kind.toElement.toBase (wordFields proof.publicInputs)).length) =
            (proofs.flatMap fun proof => messageWords proof.publicInputs).map Element.toBase ++
              rest := by
        rw [← List.drop_drop, dropped]
        exact List.drop_left
      have read : readFields words proof.kind.toElement.toBase index =
          .ok (wordFields proof.publicInputs, _) :=
        readFields_eq_ok_iff.mpr ⟨by rw [behind]; exact dropped, rfl, first.fits⟩
      have rebuilt : rebuild (proofInput attach proof) (wordFields proof.publicInputs) =
          proof.publicInputs.residues :=
        rebuild_eq_residues_iff.mpr ⟨first.kind.symm, rfl, rfl, rfl, rfl⟩
      rw [rebuildFrom]
      change (readFields words proof.kind.toElement.toBase index >>= _) = _
      rw [read, ok_bind]
      simp only [ih others behind, ok_bind, rebuilt]
      rfl

/-- Whatever is rebuilt has zeros where the kind has no words. -/
theorem forall₂_of_rebuildFrom {words : Vector Base 15} {index : Nat} {proofs : List UtxoProof}
    {rebuilt : List (Vector Base 9)}
    (finished : rebuildFrom attach words index proofs = .ok rebuilt) :
    List.Forall₂ (fun proof row => ∃ fields, Fits proof.kind.toElement.toBase fields ∧
      rebuild (proofInput attach proof) fields = row) proofs rebuilt := by
  induction proofs generalizing index rebuilt with
  | nil =>
      obtain rfl := Except.ok.inj finished
      exact .nil
  | cons proof proofs ih =>
      simp only [rebuildFrom, bind_eq_ok_iff, pure_eq_ok_iff] at finished
      obtain ⟨⟨fields, next⟩, read, others, remaining, rfl⟩ := finished
      exact .cons ⟨fields, (readFields_eq_ok_iff.mp read).2.2, rfl⟩ (ih remaining)

/-! ## Groups and blocks -/

theorem length_messageWords_le (inputs : UtxoPublicInput) : (messageWords inputs).length ≤ 5 := by
  rw [messageWords]
  cases inputs.kind <;> simp

theorem length_flatMap_messageWords_le (proofs : List UtxoProof) :
    (proofs.flatMap fun proof => messageWords proof.publicInputs).length ≤ 5 * proofs.length := by
  induction proofs with
  | nil => simp
  | cons proof proofs ih =>
      rw [List.flatMap_cons, List.length_append, List.length_cons]
      have first := length_messageWords_le proof.publicInputs
      omega

/-- An array with some words in front and zeros behind them. -/
theorem toList_ofFn_getD {size : Nat} {words : List Element} (fits : words.length ≤ size) :
    (Vector.ofFn fun index : Fin size => words[index.val]?.getD Element.ZERO).toList =
      words ++ List.replicate (size - words.length) Element.ZERO := by
  apply List.ext_getElem
  · simp
    omega
  · intro index left right
    simp only [Vector.toList_ofFn, List.getElem_ofFn]
    by_cases inside : index < words.length
    · simp [List.getElem_append_left inside, inside]
    · simp [List.getElem_append_right (Nat.le_of_not_lt inside), inside]

/-- The words of a group fit into its messages. -/
theorem toList_messages {proofs : List UtxoProof} (short : proofs.length ≤ UTXO_AGG_NUMBER) :
    ∃ count, (messages proofs).toList =
      (proofs.flatMap fun proof => messageWords proof.publicInputs) ++
        List.replicate count Element.ZERO := by
  have limit : 5 * proofs.length ≤ 15 := Nat.mul_le_mul_left 5 short
  have fits := (length_flatMap_messageWords_le proofs).trans limit
  exact ⟨_, toList_ofFn_getD fits⟩

theorem rebuildGroup_eq_ok {utxos : List UtxoProof} (short : utxos.length ≤ UTXO_AGG_NUMBER)
    (regular : ∀ proof ∈ utxos.map bundle, Regular proof.publicInputs) :
    rebuildGroup attach utxos =
      .ok ((utxos.map bundle).map fun proof => proof.publicInputs.residues) := by
  obtain ⟨count, messagesEq⟩ := toList_messages
    (show (utxos.map bundle).length ≤ UTXO_AGG_NUMBER by rwa [List.length_map])
  have dropped : ((messages (utxos.map bundle)).map Element.toBase).toList.drop 0 =
      ((utxos.map bundle).flatMap fun proof => messageWords proof.publicInputs).map
        Element.toBase ++ (List.replicate count Element.ZERO).map Element.toBase := by
    rw [List.drop_zero, Vector.toList_map, messagesEq, List.map_append]
  exact rebuildFrom_eq_ok regular dropped

theorem regular_paddingProof : Regular paddingProof.publicInputs where
  kind := rfl
  words _ := ⟨rfl, rfl, rfl⟩
  address _ := rfl

@[simp]
theorem bundle_eq_self {utxo : UtxoProof} (kind : utxo.kind ≠ .null) : bundle utxo = utxo := by
  simp [bundle, isPadding, kind]

@[simp]
theorem bundle_paddingProof : bundle paddingProof = paddingProof := by
  simp [bundle]

/-- The kind given to the circuit is the kind word of the rebuilt inputs. -/
theorem kind_of_rebuild_eq {utxo txn : UtxoProof} {fields : Fields}
    (rebuilt : rebuild (proofInput attach utxo) fields = txn.publicInputs.residues) :
    utxo.kind.toElement.toBase = (txn.publicInputs.messages.get 0).toBase := by
  rw [rebuild_eq_append, UtxoPublicInput.residues, UtxoPublicInput.fields,
    Vector.map_append] at rebuilt
  have kindEq := (five_eq_iff.mp (Vector.append_inj rebuilt).2).1
  rw [get_eq_getElem, Vector.getElem_map] at kindEq
  exact kindEq

@[simp]
theorem length_padded {txns : List UtxoProof} (short : txns.length ≤ MAXIMUM_TXNS) :
    (padded txns).length = MAXIMUM_TXNS := by
  rw [padded, List.length_append, List.length_replicate]
  omega

theorem rebuildBlock_eq_ok {txns : List UtxoProof} (short : txns.length ≤ MAXIMUM_TXNS)
    (regular : ∀ proof ∈ (padded txns).map bundle, Regular proof.publicInputs) :
    rebuildBlock attach txns =
      .ok (((padded txns).map bundle).map fun proof => proof.publicInputs.residues) := by
  have length := length_padded short
  have first : rebuildGroup attach ((padded txns).take UTXO_AGG_NUMBER) = .ok _ :=
    rebuildGroup_eq_ok (by simp) fun proof mem =>
      regular proof (List.map_subset _ (List.take_subset _ _) mem)
  have second : rebuildGroup attach ((padded txns).drop UTXO_AGG_NUMBER) = .ok _ :=
    rebuildGroup_eq_ok (by rw [List.length_drop, length]; decide) fun proof mem =>
      regular proof (List.map_subset _ (List.drop_subset _ _) mem)
  rw [rebuildBlock, if_pos length, first, ok_bind, second, ok_bind, ← List.map_append,
    ← List.map_append, List.take_append_drop]
  rfl

theorem forall₂_of_rebuildBlock {txns : List UtxoProof} {rebuilt : List (Vector Base 9)}
    (finished : rebuildBlock attach txns = .ok rebuilt) :
    List.Forall₂ (fun proof row => ∃ fields, Fits proof.kind.toElement.toBase fields ∧
      rebuild (proofInput attach proof) fields = row) ((padded txns).map bundle) rebuilt := by
  rw [rebuildBlock] at finished
  split at finished
  · simp only [bind_eq_ok_iff, pure_eq_ok_iff] at finished
    obtain ⟨first, firstGroup, second, secondGroup, rfl⟩ := finished
    rw [← List.take_append_drop UTXO_AGG_NUMBER (padded txns), List.map_append]
    exact List.rel_append (forall₂_of_rebuildFrom firstGroup) (forall₂_of_rebuildFrom secondGroup)
  · cases finished

/-- A rebuilt transaction that is not padding is regular. -/
theorem regular_of_rebuild {txn : UtxoProof} {fields : Fields}
    (kind : (txn.publicInputs.messages.get 0).toBase ≠ 0)
    (fits : Fits (bundle txn).kind.toElement.toBase fields)
    (rebuilt : rebuild (proofInput attach (bundle txn)) fields = txn.publicInputs.residues) :
    Regular txn.publicInputs := by
  have notNull : txn.kind ≠ .null := by
    intro null
    have kindEq := kind_of_rebuild_eq rebuilt
    rw [bundle, isPadding, null] at kindEq
    exact kind kindEq.symm
  rw [bundle_eq_self notNull] at fits rebuilt
  obtain ⟨kindEq, noteKindEq, valueEq, hashEq, addressEq⟩ := rebuild_eq_residues_iff.mp rebuilt
  rw [Fits, addressEq, noteKindEq, valueEq, hashEq] at fits
  refine ⟨kindEq.symm, fun silent => fits.2 ?_, fun noAddress => fits.1 ?_⟩
  · rcases silent with null | send
    · exact absurd null notNull
    · rw [UtxoProof.kind, send]
      decide
  · rcases noAddress with null | send | mint
    · exact absurd null notNull
    · rw [UtxoProof.kind, send]
      decide
    · rw [UtxoProof.kind, mint]
      decide

/-- Regular transactions with a kind are bundled as they are. -/
theorem map_bundle_padded {txns : List UtxoProof}
    (kinds : ∀ txn ∈ txns, (txn.publicInputs.messages.get 0).toBase ≠ 0)
    (regular : ∀ txn ∈ txns, Regular txn.publicInputs) :
    (padded txns).map bundle = padded txns := by
  have bundled : ∀ txn ∈ txns, bundle txn = txn := by
    intro txn mem
    refine bundle_eq_self fun null => kinds txn mem ?_
    have kindEq := (regular txn mem).kind
    rw [UtxoProof.kind] at null
    rw [null] at kindEq
    exact kindEq
  rw [padded, List.map_append, List.map_replicate, bundle_paddingProof,
    List.map_congr_left bundled, List.map_id']

theorem regular_padded {txns : List UtxoProof}
    (regular : ∀ txn ∈ txns, Regular txn.publicInputs) :
    ∀ proof ∈ padded txns, Regular proof.publicInputs := by
  intro proof mem
  rcases List.mem_append.mp mem with own | padding
  · exact regular proof own
  · rw [List.eq_of_mem_replicate padding]
    exact regular_paddingProof

/-- A block of proven transactions can be aggregated exactly when it fits and
its transactions are regular. -/
theorem aggregable_iff_regular {txns : List UtxoProof}
    (kinds : ∀ txn ∈ txns, (txn.publicInputs.messages.get 0).toBase ≠ 0) :
    Aggregable attach txns ↔
      txns.length ≤ MAXIMUM_TXNS ∧ ∀ txn ∈ txns, Regular txn.publicInputs := by
  constructor
  · rintro ⟨short, rebuilt, finished, rows⟩
    refine ⟨short, ?_⟩
    have pairs := List.forall₂_take txns.length (forall₂_of_rebuildBlock finished)
    rw [rows, ← List.map_take, padded, List.take_left, List.forall₂_map_left_iff,
      List.forall₂_map_right_iff, List.forall₂_same] at pairs
    intro txn mem
    obtain ⟨fields, fits, row⟩ := pairs txn mem
    exact regular_of_rebuild (kinds txn mem) fits row
  · rintro ⟨short, regular⟩
    have bundleEq := map_bundle_padded kinds regular
    refine ⟨short, _, rebuildBlock_eq_ok short fun proof mem => ?_, ?_⟩
    · rw [bundleEq] at mem
      exact regular_padded regular proof mem
    · rw [bundleEq, ← List.map_take, padded, List.take_left]

/-! ## Messages of a block -/

/-- The message that the contract settles for a transaction, if it has one. -/
def settledMessages (inputs : UtxoPublicInput) : List Rollup.Message :=
  AggUtxo.settledMessages inputs.kind.toElement.toBase (wordFields inputs)

/-- The words of a group frame the messages of its transactions. -/
theorem frames_messages {proofs : List UtxoProof} (short : proofs.length ≤ UTXO_AGG_NUMBER)
    (regular : ∀ proof ∈ proofs, Regular proof.publicInputs) :
    Rollup.Frames ((messages proofs).toList.map fun word => Element.fromBase word.toBase)
      (proofs.flatMap fun proof => settledMessages proof.publicInputs) := by
  obtain ⟨count, messagesEq⟩ := toList_messages short
  refine ⟨count, ?_⟩
  rw [messagesEq, List.map_append, List.map_replicate]
  congr 1
  rw [List.map_flatMap, List.flatMap_assoc]
  refine List.flatMap_congr fun proof mem => ?_
  have wordsEq := congrArg (List.map Element.fromBase) (regular proof mem).messageWords_eq
  rw [List.map_map, fieldWords_map_fromBase] at wordsEq
  exact wordsEq

@[simp]
theorem settledMessages_paddingProof : settledMessages paddingProof.publicInputs = [] := by
  decide

@[simp]
theorem flatMap_settledMessages_padded (txns : List UtxoProof) :
    ((padded txns).flatMap fun proof => settledMessages proof.publicInputs) =
      txns.flatMap fun txn => settledMessages txn.publicInputs := by
  have padding : ((List.replicate (MAXIMUM_TXNS - txns.length) paddingProof).flatMap
      fun proof => settledMessages proof.publicInputs) = [] := by
    rw [List.flatMap_eq_nil_iff]
    intro proof mem
    rw [List.eq_of_mem_replicate mem]
    exact settledMessages_paddingProof
  rw [padded, List.flatMap_append, padding, List.append_nil]

/-- The contract reads from the words of a block the messages of its
transactions. -/
theorem parseMessages_blockMessages {txns : List UtxoProof} (short : txns.length ≤ MAXIMUM_TXNS)
    (kinds : ∀ txn ∈ txns, (txn.publicInputs.messages.get 0).toBase ≠ 0)
    (regular : ∀ txn ∈ txns, Regular txn.publicInputs) :
    Rollup.parseMessages (blockMessages txns) =
      some (txns.flatMap fun txn => settledMessages txn.publicInputs) := by
  have length := length_padded short
  have allRegular := regular_padded regular
  have first := frames_messages (show ((padded txns).take UTXO_AGG_NUMBER).length ≤ _ by simp)
    fun proof mem => allRegular proof (List.mem_of_mem_take mem)
  have second := frames_messages
    (show ((padded txns).drop UTXO_AGG_NUMBER).length ≤ UTXO_AGG_NUMBER by
      rw [List.length_drop, length]
      decide)
    fun proof mem => allRegular proof (List.mem_of_mem_drop mem)
  rw [blockMessages, List.map_take, List.map_drop, map_bundle_padded kinds regular,
    List.map_append, first.parseMessages_append, second.parseMessages_eq, Option.map_some,
    ← List.flatMap_append, List.take_append_drop, flatMap_settledMessages_padded]

@[simp]
theorem length_blockMessages (txns : List UtxoProof) : (blockMessages txns).length = 30 := by
  simp [blockMessages]

end Ciphera.Prover
