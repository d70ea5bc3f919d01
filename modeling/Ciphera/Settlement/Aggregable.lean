import Ciphera.Node.Commit
import Ciphera.Prover.Aggregate
import Ciphera.Settlement.Backing

/-!
# Validated blocks and aggregation

A block is committed when the node's validation accepts it; it settles only
when the prover can aggregate it.  Validation neither counts the transactions
nor looks at message words, and the transaction circuit leaves the words that a
kind does not use free, while aggregation takes them to be zero.
-/

namespace Ciphera.Settlement

open Ciphera.Lib Ciphera.Noir Ciphera.Node Ciphera.Prover Ciphera.Smirk Ciphera.Zk

variable {poseidon : Poseidon} {verify : Verify}

/-- A validated block can be aggregated exactly when it has at most six
transactions and all of them are regular. -/
theorem validated_aggregable_iff {attach : UtxoProof → Attachment} {store : Store}
    {notesTree : PersistentMerkleTree} {content : BlockContent}
    (sound : verify.Sound poseidon)
    (validated : content.validate poseidon verify store notesTree = .ok ()) :
    Aggregable attach content.state.txns ↔
      content.state.txns.length ≤ MAXIMUM_TXNS ∧
        ∀ txn ∈ content.state.txns, Regular txn.publicInputs := by
  have valid := validate_eq_ok_iff.mp validated
  exact aggregable_iff_regular fun txn mem =>
    sound.kind_ne_zero (valid.txns txn mem).verified

/-- A transaction of padding notes, with a kind and an address word. -/
def paddingTxn (kind address : Element) : UtxoProof where
  proof := []
  publicInputs := .single 0 kind 0 0 0 address

/-- The witness of such a transaction. -/
def paddingWitness (kind address : Element) : Utxo.Witness :=
  { paddingSend with
    pmessage4 := address.toBase
    commitments := (paddingTxn kind address).publicInputs.commitments.map Element.toBase
    messages := (paddingTxn kind address).publicInputs.messages.map Element.toBase }

/-- The circuit accepts padding notes as a send and as a burn. -/
theorem paddingWitness_accepted (poseidon : Poseidon) {kind : Element} (address : Element)
    (sendOrBurn : kind = 1 ∨ kind = 3) :
    Utxo.main poseidon (paddingWitness kind address) = .ok () ∧
      (paddingWitness kind address).publicInputs =
        (paddingTxn kind address).publicInputs.residues := by
  have commitments : ∀ index, (paddingWitness kind address).commitments.get index = 0 := by
    intro index
    rw [get_eq_getElem, paddingWitness, Vector.getElem_map]
    fin_cases index <;> rfl
  have messages : ∀ index, (paddingWitness kind address).messages.get index =
      ((paddingTxn kind address).publicInputs.messages.get index).toBase := by
    intro index
    rw [get_eq_getElem, paddingWitness, Vector.getElem_map]
    rfl
  have padding : ∀ index, Commits poseidon Utxo.paddingNote
      ((paddingWitness kind address).commitments.get index) :=
    fun index => Or.inl ⟨rfl, rfl, commitments index⟩
  have worthless : Utxo.paddingNote.value.val < 2 ^ 240 := by decide
  have rule : Utxo.KindRule poseidon (paddingWitness kind address) := by
    rcases sendOrBurn with rfl | rfl
    · exact .send (messages 0) rfl
    · exact .burn (Or.inl (messages 0)) (messages 4).symm ((commitments 0).trans (messages 3).symm)
        (by rw [Utxo.Witness.msgValue, messages 2]; rfl) (messages 1).symm
  constructor
  · refine Utxo.main_eq_ok_iff.mpr ⟨padding 0, padding 1, padding 2, padding 3, worthless,
      worthless, ⟨0, fun note mem notPadding => ?_⟩, ?_, rule,
      fun value => absurd rfl value, fun value => absurd rfl value⟩
    · have kinds : ∀ note ∈ paddingSend.notes, note.kind = 0 := by decide
      exact kinds note mem
    · rw [Utxo.Witness.msgValue, messages]
      change (Element.toBase 0).val < 2 ^ 240
      decide
  · rw [UtxoPublicInput.residues, UtxoPublicInput.fields, Vector.map_append]
    rfl

theorem exists_validate_paddingTxn {kind address : Element}
    (verified : verify (paddingTxn kind address) = true) (count : Nat) :
    ∃ rootHash, (BlockContent.mk ⟨1, 0, 0, 0, []⟩
      ⟨rootHash, List.replicate count (paddingTxn kind address)⟩).validate poseidon verify {}
        emptyTree = .ok () := by
  refine exists_validate emptyTree_wellFormed (fun txn mem => ?_) ?_
  · rw [List.eq_of_mem_replicate mem]
    exact singleOutput_valid verified (by decide) (not_mem_emptyTree 0)
      (BlockStore.not_recorded_empty 0) fun mintHash _ => BlockStore.not_minted_empty mintHash
  · have inserts : (BlockState.mk 0 (List.replicate count (paddingTxn kind address))).insertLeaves =
        [] := by
      simp [BlockState.insertLeaves, paddingTxn, UtxoPublicInput.single]
    have removes : (BlockState.mk 0 (List.replicate count (paddingTxn kind address))).removeLeaves =
        [] := by
      simp [BlockState.removeLeaves, paddingTxn, UtxoPublicInput.single]
    rw [inserts, removes]
    exact List.nodup_nil

/-- A block of one padding send, with a verifier that knows its proof. -/
theorem paddingTxn_aggregable :
    ∃ verify rootHash, Verify.Sound (fun _ => 0) verify ∧
      (BlockContent.mk ⟨1, 0, 0, 0, []⟩ ⟨rootHash, List.replicate 1 (paddingTxn 1 0)⟩).validate
        (fun _ => 0) verify {} emptyTree = .ok () ∧
      ∀ attach, Aggregable attach (List.replicate 1 (paddingTxn 1 0)) := by
  let verify : Verify := fun proof => proof = paddingTxn 1 0
  have sound : verify.Sound fun _ => 0 := by
    intro proof verified
    obtain rfl : proof = paddingTxn 1 0 := of_decide_eq_true verified
    exact ⟨_, paddingWitness_accepted _ 0 (Or.inl rfl)⟩
  have verified : verify (paddingTxn 1 0) = true := decide_eq_true rfl
  obtain ⟨rootHash, validated⟩ : ∃ rootHash, (BlockContent.mk ⟨1, 0, 0, 0, []⟩
      ⟨rootHash, List.replicate 1 (paddingTxn 1 0)⟩).validate (fun _ => 0) verify {} emptyTree =
        .ok () :=
    exists_validate_paddingTxn verified 1
  have short : (List.replicate 1 (paddingTxn 1 0)).length ≤ MAXIMUM_TXNS := by decide
  refine ⟨verify, rootHash, sound, validated, fun attach =>
    (validated_aggregable_iff sound validated).mpr ⟨short, fun txn mem => ?_⟩⟩
  rw [List.eq_of_mem_replicate mem]
  exact ⟨rfl, fun _ => ⟨rfl, rfl, rfl⟩, fun _ => rfl⟩

theorem not_aggregable_stray (attach : UtxoProof → Attachment) :
    ¬Aggregable attach (List.replicate 1 (paddingTxn 1 9)) := by
  intro aggregable
  have kinds : ∀ txn ∈ List.replicate 1 (paddingTxn 1 9),
      (txn.publicInputs.messages.get 0).toBase ≠ 0 := by
    intro txn mem
    rw [List.eq_of_mem_replicate mem]
    decide
  have regular := ((aggregable_iff_regular kinds).mp aggregable).2 (paddingTxn 1 9)
    (List.mem_singleton_self _)
  exact absurd (regular.address (Or.inr (Or.inl rfl))) (by decide)

/-- The circuit accepts a send with a stray address word, and validation
accepts it in a block, as well as a block of seven sends; neither block can be
aggregated. -/
theorem paddingTxn_not_aggregable :
    (∀ poseidon address, Utxo.main poseidon (paddingWitness 1 address) = .ok () ∧
        (paddingWitness 1 address).publicInputs =
          (paddingTxn 1 address).publicInputs.residues) ∧
      ∀ (poseidon : Poseidon) (verify : Verify) (attach : UtxoProof → Attachment),
        verify (paddingTxn 1 0) = true → verify (paddingTxn 1 9) = true →
          (∃ rootHash, (BlockContent.mk ⟨1, 0, 0, 0, []⟩
              ⟨rootHash, List.replicate 1 (paddingTxn 1 9)⟩).validate poseidon verify {} emptyTree =
                .ok () ∧
            ¬Aggregable attach (List.replicate 1 (paddingTxn 1 9))) ∧
          ∃ rootHash, (BlockContent.mk ⟨1, 0, 0, 0, []⟩
              ⟨rootHash, List.replicate 7 (paddingTxn 1 0)⟩).validate poseidon verify {} emptyTree =
                .ok () ∧
            ¬Aggregable attach (List.replicate 7 (paddingTxn 1 0)) := by
  refine ⟨fun poseidon address => paddingWitness_accepted poseidon address (Or.inl rfl),
    fun poseidon verify attach regular stray => ⟨?_, ?_⟩⟩
  · obtain ⟨rootHash, validated⟩ := exists_validate_paddingTxn stray 1
    exact ⟨rootHash, validated, not_aggregable_stray attach⟩
  · obtain ⟨rootHash, validated⟩ := exists_validate_paddingTxn regular 7
    exact ⟨rootHash, validated, fun aggregable => absurd aggregable.1 (by decide)⟩

end Ciphera.Settlement
