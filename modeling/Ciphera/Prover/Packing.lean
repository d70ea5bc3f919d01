import Ciphera.Prover.Aggregate
import Ciphera.Rollup.Cursor

/-!
# The message words of a block

The words of the transactions of a block are laid out in two halves of fifteen,
one for each group of the aggregation, or packed in a row when the prover is a
mock.  The contract reads the same messages from both.
-/

namespace Ciphera.Prover

open Ciphera.Lib Ciphera.Zk

/-- `AggAgg::messages`: the words of one group behind those of the other. -/
def aggAggMessages (first second : Vector Element 15) : List Element :=
  first.toList ++ second.toList

/-- The words of a block of at most six transactions, filled up with padding. -/
def aggregatedWords (txns : List UtxoProof) : List Element :=
  aggAggMessages (messages ((padded txns).take UTXO_AGG_NUMBER))
    (messages ((padded txns).drop UTXO_AGG_NUMBER))

/-- The words that the worker writes in `MockProver` mode; behind the last place of the array
it panics. -/
def mockMessages (txns : List UtxoProof) : Except String (Vector Element 30) :=
  let words := txns.flatMap fun txn => messageWords txn.publicInputs
  if words.length ≤ 30 then .ok (Vector.ofFn fun index => words[index.val]?.getD Element.ZERO)
  else .error "index out of bounds"

/-- The mint or burn of a transaction, with the fields that are its own. -/
def ownMessages (inputs : UtxoPublicInput) : List Rollup.Message :=
  match inputs.kindMessages with
  | .none => []
  | .mint fields => [.mint fields.noteKind fields.value fields.mintHash]
  | .burn fields =>
      [.burn (fields.utxoKind = UtxoKind.noSub.toElement) fields.noteKind fields.value
        fields.burnHash fields.burnAddress]

/-- The kind word is one of a transaction, without anything in front of it. -/
def CanonicalKind (inputs : UtxoPublicInput) : Prop :=
  inputs.messages.get 0 ∈ [(1 : Element), 2, 3, 4]

/-- A transaction contributes the words of its own message. -/
theorem messageWords_eq_of_canonicalKind {inputs : UtxoPublicInput}
    (canonical : CanonicalKind inputs) :
    messageWords inputs = (ownMessages inputs).flatMap Rollup.Message.words := by
  have kindEq : inputs.kind = UtxoKind.ofByte ((inputs.messages.get 0).setWidth 8) := rfl
  rw [messageWords, ownMessages, UtxoPublicInput.kindMessages, kindEq, toList_five]
  unfold CanonicalKind at canonical
  generalize inputs.messages.get 0 = word at canonical
  simp only [List.mem_cons, List.not_mem_nil, or_false] at canonical
  rcases canonical with rfl | rfl | rfl | rfl <;> rfl

/-- The entries of a group: its messages and the zeros behind them. -/
def groupEntries (proofs : List UtxoProof) (count : Nat) : List (Option Rollup.Message) :=
  (proofs.flatMap fun proof => ownMessages proof.publicInputs).map some ++
    List.replicate count none

@[simp]
theorem reduceOption_groupEntries (proofs : List UtxoProof) (count : Nat) :
    (groupEntries proofs count).reduceOption =
      proofs.flatMap fun proof => ownMessages proof.publicInputs := by
  rw [groupEntries, List.reduceOption_append, List.reduceOption_replicate_none, List.append_nil,
    List.reduceOption, List.filterMap_map]
  exact List.filterMap_some

@[simp]
theorem flatMap_map_some_entryWords (messages : List Rollup.Message) :
    (messages.map some).flatMap Rollup.entryWords = messages.flatMap Rollup.Message.words := by
  rw [List.flatMap_map]
  rfl

@[simp]
theorem flatMap_replicate_none_entryWords (count : Nat) :
    (List.replicate count none).flatMap Rollup.entryWords = List.replicate count Element.ZERO := by
  induction count with
  | zero => rfl
  | succ count ih =>
      rw [List.replicate_succ, List.flatMap_cons, ih]
      rfl

/-- The words of a group are those of its entries. -/
theorem flatMap_groupEntries {proofs : List UtxoProof}
    (words : ∀ proof ∈ proofs, messageWords proof.publicInputs =
      (ownMessages proof.publicInputs).flatMap Rollup.Message.words) (count : Nat) :
    (groupEntries proofs count).flatMap Rollup.entryWords =
      (proofs.flatMap fun proof => messageWords proof.publicInputs) ++
        List.replicate count Element.ZERO := by
  rw [groupEntries, List.flatMap_append, flatMap_map_some_entryWords,
    flatMap_replicate_none_entryWords, List.flatMap_assoc]
  congr 1
  apply List.flatMap_congr
  intro proof mem
  exact (words proof mem).symm

@[simp]
theorem messageWords_paddingProof : messageWords paddingProof.publicInputs =
    (ownMessages paddingProof.publicInputs).flatMap Rollup.Message.words := by
  decide

@[simp]
theorem flatMap_ownMessages_padded (txns : List UtxoProof) :
    ((padded txns).flatMap fun proof => ownMessages proof.publicInputs) =
      txns.flatMap fun txn => ownMessages txn.publicInputs := by
  have padding : ((List.replicate (MAXIMUM_TXNS - txns.length) paddingProof).flatMap
      fun proof => ownMessages proof.publicInputs) = [] := by
    rw [List.flatMap_eq_nil_iff]
    intro proof mem
    rw [List.eq_of_mem_replicate mem]
    decide
  rw [padded, List.flatMap_append, padding, List.append_nil]

/-- The contract reads the messages of the transactions back from the two halves of an
aggregation. -/
theorem readsBack_aggregatedWords {txns : List UtxoProof} (short : txns.length ≤ MAXIMUM_TXNS)
    (canonical : ∀ txn ∈ txns, CanonicalKind txn.publicInputs) :
    ∃ entries, Rollup.ReadsBack (aggregatedWords txns)
      (txns.flatMap fun txn => ownMessages txn.publicInputs) entries := by
  have words : ∀ proof ∈ padded txns, messageWords proof.publicInputs =
      (ownMessages proof.publicInputs).flatMap Rollup.Message.words := by
    intro proof mem
    rcases List.mem_append.mp mem with own | padding
    · exact messageWords_eq_of_canonicalKind (canonical proof own)
    · rw [List.eq_of_mem_replicate padding]
      exact messageWords_paddingProof
  have half : ((padded txns).drop UTXO_AGG_NUMBER).length ≤ UTXO_AGG_NUMBER := by
    rw [List.length_drop, length_padded short]
    decide
  rcases toList_messages (List.length_take_le UTXO_AGG_NUMBER (padded txns)) with
    ⟨firstCount, firstEq⟩
  rcases toList_messages half with ⟨secondCount, secondEq⟩
  rw [← flatMap_groupEntries fun proof mem => words proof (List.mem_of_mem_take mem)] at firstEq
  rw [← flatMap_groupEntries fun proof mem => words proof (List.mem_of_mem_drop mem)] at secondEq
  have reads := Rollup.readsBack_entries
    (groupEntries ((padded txns).take UTXO_AGG_NUMBER) firstCount ++
      groupEntries ((padded txns).drop UTXO_AGG_NUMBER) secondCount)
  rw [List.flatMap_append, ← firstEq, ← secondEq, List.reduceOption_append,
    reduceOption_groupEntries, reduceOption_groupEntries, ← List.flatMap_append,
    List.take_append_drop, flatMap_ownMessages_padded] at reads
  exact ⟨_, reads⟩

/-- And from the words of the mock prover, which writes them without a panic. -/
theorem readsBack_mockMessages {txns : List UtxoProof} (short : txns.length ≤ MAXIMUM_TXNS)
    (canonical : ∀ txn ∈ txns, CanonicalKind txn.publicInputs) :
    ∃ words entries, mockMessages txns = .ok words ∧ Rollup.ReadsBack words.toList
      (txns.flatMap fun txn => ownMessages txn.publicInputs) entries := by
  have fits : (txns.flatMap fun txn => messageWords txn.publicInputs).length ≤ 30 :=
    (length_flatMap_messageWords_le txns).trans (Nat.mul_le_mul_left 5 short)
  have reads := Rollup.readsBack_entries (groupEntries txns
    (30 - (txns.flatMap fun txn => messageWords txn.publicInputs).length))
  rw [flatMap_groupEntries fun txn mem => messageWords_eq_of_canonicalKind (canonical txn mem),
    reduceOption_groupEntries, ← toList_ofFn_getD fits] at reads
  exact ⟨_, _, if_pos fits, reads⟩

/-- For at most six transactions with canonical kinds, the contract reads exactly their mints and
burns, in order and with their own fields, from the words of an aggregation and from those of the
mock prover. -/
theorem messages_read_back {txns : List UtxoProof} (short : txns.length ≤ MAXIMUM_TXNS)
    (canonical : ∀ txn ∈ txns, CanonicalKind txn.publicInputs) :
    (aggregatedWords txns).length = 30 ∧
      (∃ entries, Rollup.ReadsBack (aggregatedWords txns)
        (txns.flatMap fun txn => ownMessages txn.publicInputs) entries) ∧
      ∃ words entries, mockMessages txns = .ok words ∧ Rollup.ReadsBack words.toList
        (txns.flatMap fun txn => ownMessages txn.publicInputs) entries := by
  refine ⟨?_, readsBack_aggregatedWords short canonical, readsBack_mockMessages short canonical⟩
  rw [aggregatedWords, aggAggMessages, List.length_append, Vector.length_toList,
    Vector.length_toList]

/-- A burn, a send and a mint. -/
def threeTxns : List UtxoProof :=
  [⟨[], .single 0 3 7 20 12 21⟩, ⟨[], .single 5 1 0 0 0 0⟩, ⟨[], .single 6 2 7 50 11 0⟩]

theorem threeTxns_read_back :
    (∃ entries, Rollup.ReadsBack (aggregatedWords threeTxns)
        [.burn false 7 20 12 21, .mint 7 50 11] entries) ∧
      ∃ words entries, mockMessages threeTxns = .ok words ∧
        Rollup.ReadsBack words.toList [.burn false 7 20 12 21, .mint 7 50 11] entries := by
  have short : threeTxns.length ≤ MAXIMUM_TXNS := by decide
  have canonical : ∀ txn ∈ threeTxns, CanonicalKind txn.publicInputs := by
    unfold CanonicalKind
    decide
  exact (messages_read_back short canonical).2

end Ciphera.Prover
