import Ciphera.Noir.AggAgg
import Ciphera.Settlement.Supply

/-!
# Settled messages and the proofs behind them

The contract settles every mint and burn it reads from the thirty message
words of a rollup proof.  The words of an aggregation are tied to a verified
proof only when its transition is applied; a padding aggregation repeats the
verification of the first one, and its own fifteen words are checked by nobody.
-/

namespace Ciphera.Settlement

open Ciphera.Lib Ciphera.Noir Ciphera.Rollup

section Soundness

variable (poseidon : Poseidon) (verifyProof : VerifyProof)

/-- The verifier accepts a transaction proof only for public inputs that some
accepted witness of the transaction circuit has. -/
def UtxoSound : Prop :=
  ∀ key proof inputs,
    verifyProof key proof inputs AggUtxo.UTXO_VERIFICATION_KEY_HASH 7 = true →
      ∃ witness, Utxo.main poseidon witness = .ok () ∧ witness.publicInputs.toList = inputs

/-- The verifier accepts an aggregation proof only for public inputs that some
accepted witness of the first aggregation circuit has. -/
def AggSound : Prop :=
  ∀ key proof inputs,
    verifyProof key proof inputs AggAgg.AGG_UTXO_VERIFICATION_KEY_HASH 7 = true →
      ∃ witness, AggUtxo.main poseidon verifyProof witness = .ok () ∧
        witness.publicInputs.toList = inputs

/-- `aggregation` is an accepted witness of the first aggregation circuit whose
public inputs were verified in the given iteration and whose root transition
was applied there. -/
structure Backs (witness : AggAgg.Witness) (index : Fin 2) (aggregation : AggUtxo.Witness) :
    Prop where
  accepted : AggUtxo.main poseidon verifyProof aggregation = .ok ()
  verified : aggregation.publicInputs = witness.verifiedInputs index
  applied : (witness.utxoAggProofs.get index).oldRoot ≠ 0

/-- Every message word that is not zero, and with it every mint and burn that
the contract reads, comes from a verified and applied aggregation. -/
structure MessagesBacked (witness : AggAgg.Witness) : Prop where
  words : ∀ (index : Fin 2) (offset : Fin 15), (witness.half index).get offset ≠ 0 →
    ∃ aggregation, Backs poseidon verifyProof witness index aggregation ∧
      (aggregation.messages.get offset) = (witness.half index).get offset
  messages : ∃ messages, readMessages witness.messages.toList = some messages ∧
    ∀ message ∈ messages, ∃ index aggregation settled,
      Backs poseidon verifyProof witness index aggregation ∧
        readMessages aggregation.messages.toList = some settled ∧ message ∈ settled

end Soundness

variable {poseidon : Poseidon} {verifyProof : VerifyProof}

theorem publicInputs_messages {aggregation : AggUtxo.Witness} {witness : AggAgg.Witness}
    {index : Fin 2} (inputsEq : aggregation.publicInputs = witness.publicInputs index) :
    aggregation.messages = witness.half index := by
  unfold AggUtxo.Witness.publicInputs AggAgg.Witness.publicInputs at inputsEq
  exact (Vector.append_inj inputsEq).1

/-- The verifier's soundness turns an applied aggregation into a witness whose
messages are the fifteen words. -/
theorem exists_backs (sound : AggSound poseidon verifyProof) {witness : AggAgg.Witness}
    (accepted : AggAgg.Accepted poseidon verifyProof witness) {index : Fin 2}
    (applied : (witness.utxoAggProofs.get index).oldRoot ≠ 0) :
    ∃ aggregation, Backs poseidon verifyProof witness index aggregation ∧
      aggregation.messages = witness.half index := by
  obtain ⟨aggregation, aggregated, inputsEq⟩ := sound _ _ _ (accepted.verified_half applied)
  have publicInputsEq : aggregation.publicInputs = witness.publicInputs index :=
    Vector.toList_inj.mp inputsEq
  refine ⟨aggregation, ⟨aggregated, ?_, applied⟩, publicInputs_messages publicInputsEq⟩
  rw [AggAgg.Witness.verifiedInputs, if_pos applied, publicInputsEq]

theorem half_eq_zero {witness : AggAgg.Witness} {index : Fin 2}
    (zero : ∀ offset : Fin 15, (witness.half index).get offset = 0) :
    (witness.half index).toList = List.replicate 15 0 := by
  apply List.ext_getElem (by simp)
  intro offset offsetLt _
  rw [List.getElem_replicate]
  simpa [get_eq_getElem] using zero ⟨offset, by simpa using offsetLt⟩

/-- The words of one aggregation frame messages of backing proofs only, as
soon as padding aggregations have no words. -/
theorem half_frames (sound : AggSound poseidon verifyProof) {witness : AggAgg.Witness}
    (accepted : AggAgg.Accepted poseidon verifyProof witness) (index : Fin 2)
    (paddingZero : (witness.utxoAggProofs.get index).oldRoot = 0 →
      ∀ offset : Fin 15, (witness.half index).get offset = 0) :
    ∃ messages, Frames (streamWords (witness.half index).toList) messages ∧
      ∀ message ∈ messages, ∃ aggregation settled,
        Backs poseidon verifyProof witness index aggregation ∧
          readMessages aggregation.messages.toList = some settled ∧ message ∈ settled := by
  by_cases padding : (witness.utxoAggProofs.get index).oldRoot = 0
  · refine ⟨[], ⟨15, ?_⟩, by simp⟩
    rw [half_eq_zero (paddingZero padding), streamWords, List.map_replicate]
    rfl
  · obtain ⟨aggregation, backs, messagesEq⟩ := exists_backs sound accepted padding
    have conditions := AggUtxo.main_eq_ok backs.accepted
    refine ⟨AggUtxo.settled aggregation, ?_, fun message mem => ?_⟩
    · rw [← messagesEq]
      exact conditions.frames
    · exact ⟨aggregation, _, backs, conditions.frames.parseMessages_eq, mem⟩

/-- The settled messages of an accepted rollup proof are backed by verified
aggregations exactly when the fifteen words of every padding aggregation are
zero. -/
theorem messagesBacked_iff (sound : AggSound poseidon verifyProof) {witness : AggAgg.Witness}
    (accepted : AggAgg.main poseidon verifyProof witness = .ok ()) :
    MessagesBacked poseidon verifyProof witness ↔
      ∀ index : Fin 2, (witness.utxoAggProofs.get index).oldRoot = 0 →
        ∀ offset : Fin 15, (witness.half index).get offset = 0 := by
  have conditions := AggAgg.main_eq_ok_iff.mp accepted
  constructor
  · intro backed index padding offset
    by_contra nonzero
    obtain ⟨aggregation, backs, _⟩ := backed.words index offset nonzero
    exact backs.applied padding
  · intro paddingZero
    refine ⟨fun index offset nonzero => ?_, ?_⟩
    · have applied : (witness.utxoAggProofs.get index).oldRoot ≠ 0 :=
        fun padding => nonzero (paddingZero index padding offset)
      obtain ⟨aggregation, backs, messagesEq⟩ := exists_backs sound conditions applied
      exact ⟨aggregation, backs, by rw [messagesEq]⟩
    · obtain ⟨first, firstFrames, firstBacked⟩ :=
        half_frames sound conditions 0 (paddingZero 0)
      obtain ⟨second, secondFrames, secondBacked⟩ :=
        half_frames sound conditions 1 (paddingZero 1)
      refine ⟨first ++ second, ?_, fun message mem => ?_⟩
      · rw [readMessages, AggAgg.messages_toList, streamWords, List.map_append]
        change parseMessages (streamWords _ ++ streamWords _) = _
        rw [firstFrames.parseMessages_append, secondFrames.parseMessages_eq]
        rfl
      · rcases List.mem_append.mp mem with mem | mem
        · exact ⟨0, firstBacked message mem⟩
        · exact ⟨1, secondBacked message mem⟩

/-! ## One aggregation and padding -/

/-- A verifier that knows a single proof of each circuit. -/
def knowsOnly (transaction : Utxo.Witness) (aggregation : AggUtxo.Witness) : VerifyProof :=
  fun _ _ inputs keyHash _ =>
    (keyHash = AggUtxo.UTXO_VERIFICATION_KEY_HASH ∧
        inputs = transaction.publicInputs.toList) ∨
      (keyHash = AggAgg.AGG_UTXO_VERIFICATION_KEY_HASH ∧
        inputs = aggregation.publicInputs.toList)

/-- An aggregation settled with a padding aggregation that has the given words. -/
def withPadding (poseidon : Poseidon) (aggregation : AggUtxo.Witness)
    (paddingWords : Vector Base 15) : AggAgg.Witness where
  verificationKey := Vector.replicate 115 0
  verificationKeyHash := AggAgg.AGG_UTXO_VERIFICATION_KEY_HASH
  utxoAggProofs :=
    #v[⟨Vector.replicate 508 0, aggregation.oldRoot, aggregation.newRoot,
        aggregation.commitHash⟩,
      ⟨Vector.replicate 508 0, 0, 0, 0⟩]
  oldRoot := aggregation.oldRoot
  newRoot := aggregation.newRoot
  commitHash := poseidon [aggregation.commitHash, 0]
  messages := aggregation.messages ++ paddingWords

section

variable {transaction : Utxo.Witness} {aggregation : AggUtxo.Witness}

theorem keyHashes_ne :
    AggAgg.AGG_UTXO_VERIFICATION_KEY_HASH ≠ AggUtxo.UTXO_VERIFICATION_KEY_HASH := by
  decide

theorem utxoSound_knowsOnly (accepted : Utxo.main poseidon transaction = .ok ()) :
    UtxoSound poseidon (knowsOnly transaction aggregation) := by
  intro key proof inputs verified
  have inputsEq : inputs = transaction.publicInputs.toList := by
    simpa [knowsOnly, keyHashes_ne.symm] using verified
  exact ⟨transaction, accepted, inputsEq.symm⟩

theorem aggSound_knowsOnly
    (accepted : AggUtxo.main poseidon (knowsOnly transaction aggregation) aggregation = .ok ()) :
    AggSound poseidon (knowsOnly transaction aggregation) := by
  intro key proof inputs verified
  have inputsEq : inputs = aggregation.publicInputs.toList := by
    simpa [knowsOnly, keyHashes_ne] using verified
  exact ⟨aggregation, accepted, inputsEq.symm⟩

@[simp]
theorem withPadding_half_zero (paddingWords : Vector Base 15) :
    (withPadding poseidon aggregation paddingWords).half 0 = aggregation.messages := by
  apply Vector.ext
  intro offset offsetLt
  rw [AggAgg.Witness.half, Vector.getElem_ofFn]
  simp only [Fin.val_zero, Nat.mul_zero, Nat.zero_add]
  exact Vector.getElem_append_left offsetLt

@[simp]
theorem withPadding_half_one (paddingWords : Vector Base 15) :
    (withPadding poseidon aggregation paddingWords).half 1 = paddingWords := by
  apply Vector.ext
  intro offset offsetLt
  rw [AggAgg.Witness.half, Vector.getElem_ofFn]
  simp only [Fin.val_one, Nat.mul_one]
  refine (Vector.getElem_append_right (by omega) (by omega)).trans ?_
  simp only [Nat.add_sub_cancel_left]

/-- The circuit accepts the rollup proof whatever the words of the padding
aggregation are. -/
@[simp]
theorem withPadding_accepted (nonzero : aggregation.oldRoot ≠ 0) (paddingWords : Vector Base 15) :
    AggAgg.main poseidon (knowsOnly transaction aggregation)
      (withPadding poseidon aggregation paddingWords) = .ok () := by
  have inputsEq : (withPadding poseidon aggregation paddingWords).publicInputs 0 =
      aggregation.publicInputs := by
    rw [AggAgg.Witness.publicInputs, withPadding_half_zero]
    rfl
  apply AggAgg.main_eq_ok_iff.mpr
  refine ⟨rfl, fun index => ?_, ?_, rfl⟩
  · have verifiedEq : (withPadding poseidon aggregation paddingWords).verifiedInputs index =
        aggregation.publicInputs := by
      rw [AggAgg.Witness.verifiedInputs]
      split
      · fin_cases index
        · exact inputsEq
        · contradiction
      · exact inputsEq
    simp [verifiedEq, knowsOnly]
  · have first : AggAgg.applyTransition aggregation.oldRoot
        ⟨Vector.replicate 508 0, aggregation.oldRoot, aggregation.newRoot,
          aggregation.commitHash⟩ = .ok aggregation.newRoot := by
      rw [AggAgg.applyTransition, if_pos nonzero, check_of _ rfl]
      rfl
    have second : AggAgg.applyTransition aggregation.newRoot
        ⟨Vector.replicate 508 0, 0, 0, 0⟩ = .ok aggregation.newRoot :=
      if_neg (not_not_intro rfl)
    have finRangeEq : List.finRange 2 = [0, 1] := by decide
    rw [finRangeEq, List.foldlM_cons]
    change (AggAgg.applyTransition aggregation.oldRoot _ >>= fun root =>
      List.foldlM _ root [1]) = _
    rw [show AggAgg.applyTransition aggregation.oldRoot
        ((withPadding poseidon aggregation paddingWords).utxoAggProofs.get 0) = _ from first,
      ok_bind, List.foldlM_cons]
    rw [show AggAgg.applyTransition aggregation.newRoot
        ((withPadding poseidon aggregation paddingWords).utxoAggProofs.get 1) = _ from second]
    rfl

end

/-- The mint is settled with padding that has no words: the contract reads it, and
it is backed. -/
theorem messagesBacked_of_mint :
    AggSound tallyHash (knowsOnly mintTransaction mintAggregation) ∧
      readMessages (withPadding tallyHash mintAggregation (Vector.replicate 15 0)).messages.toList =
        some [.mint 7 5 (.fromBase (tallyHash [1, 0]))] ∧
      MessagesBacked tallyHash (knowsOnly mintTransaction mintAggregation)
        (withPadding tallyHash mintAggregation (Vector.replicate 15 0)) := by
  have sound : AggSound tallyHash (knowsOnly mintTransaction mintAggregation) := by
    apply aggSound_knowsOnly
    apply mintAggregationAt_accepted
    · intro key proof
      exact decide_eq_true (.inl ⟨rfl, rfl⟩)
    · exact emptyPath_nullRoot
  have nonzero : mintAggregation.oldRoot ≠ 0 := by
    decide +kernel
  refine ⟨sound, by decide +kernel, ?_⟩
  apply (messagesBacked_iff sound (withPadding_accepted nonzero _)).mpr
  intro index padding offset
  fin_cases index
  · exact absurd padding nonzero
  · change ((withPadding tallyHash mintAggregation (Vector.replicate 15 0)).half 1).get offset = 0
    rw [withPadding_half_one, get_eq_getElem]
    simp

/-! ## A padding aggregation with words of its own -/

/-- A send of padding notes only. -/
def paddingSend : Utxo.Witness where
  inputNotes := Vector.replicate 2 ⟨Utxo.paddingNote, 0⟩
  outputNotes := Vector.replicate 2 Utxo.paddingNote
  pmessage4 := 0
  commitments := Vector.replicate 4 0
  messages := #v[1, 0, 0, 0, 0]

/-- The aggregation argument of a transaction of padding notes. -/
def paddingInput (utxoKind : Base) : AggUtxo.AggUtxoProofInput where
  proof := Vector.replicate 508 0
  utxoKind := utxoKind
  inputMerklePaths := Vector.replicate 2 (Vector.replicate 160 0)
  outputMerklePaths := Vector.replicate 2 (Vector.replicate 160 0)
  inputCommitments := Vector.replicate 2 0
  outputCommitments := Vector.replicate 2 0

/-- The send aggregated with two padding transactions, at root one. -/
def sendAggregation (poseidon : Poseidon) : AggUtxo.Witness where
  verificationKey := Vector.replicate 115 0
  verificationKeyHash := AggUtxo.UTXO_VERIFICATION_KEY_HASH
  proofs := #v[paddingInput 1, paddingInput 0, paddingInput 0]
  messages := Vector.replicate 15 0
  oldRoot := 1
  newRoot := 1
  commitHash := poseidon (List.replicate 3 (poseidon (List.replicate 4 0)))

/-- A verifier that knows the send only. -/
def sendVerifier (poseidon : Poseidon) : VerifyProof :=
  knowsOnly paddingSend (sendAggregation poseidon)

/-- The send settled with a padding aggregation that has the given words. -/
def rollupProof (poseidon : Poseidon) (paddingWords : Vector Base 15) : AggAgg.Witness :=
  withPadding poseidon (sendAggregation poseidon) paddingWords

@[simp]
theorem paddingSend_accepted (poseidon : Poseidon) : Utxo.main poseidon paddingSend = .ok () := by
  rfl

@[simp]
theorem sendAggregation_accepted (poseidon : Poseidon) :
    AggUtxo.main poseidon (sendVerifier poseidon) (sendAggregation poseidon) = .ok () := by
  have loop : (List.finRange 3).foldlM
      (AggUtxo.iteration poseidon (sendVerifier poseidon) (sendAggregation poseidon))
      (AggUtxo.start 1) =
        .ok ⟨1, Vector.replicate 3 (poseidon (List.replicate 4 0)), 0, paddingSend.publicInputs⟩ :=
    rfl
  exact AggUtxo.main_eq_ok_iff.mpr ⟨rfl, _, loop, by simp [sendAggregation, get_eq_getElem], rfl, rfl⟩

/-- The words of a burn of five units of kind seven to address nine. -/
def burnWords : Vector Base 15 := #v[3, 7, 5, 0, 9, 0, 0, 0, 0, 0, 0, 0, 0, 0, 0]

/-- The verifier accepts no aggregation with a mint or burn. -/
theorem sendVerifier_no_messages {poseidon : Poseidon} {key : Vector Base 115}
    {proof : Vector Base 508} {aggregation : AggUtxo.Witness}
    (verified : sendVerifier poseidon key proof aggregation.publicInputs.toList
      AggAgg.AGG_UTXO_VERIFICATION_KEY_HASH 7 = true) :
    readMessages aggregation.messages.toList = some [] := by
  have inputsEq : aggregation.publicInputs = (sendAggregation poseidon).publicInputs := by
    simpa [sendVerifier, knowsOnly, keyHashes_ne, Vector.toList_inj] using verified
  have messagesEq : aggregation.messages = (sendAggregation poseidon).messages :=
    (Vector.append_inj inputsEq).1
  rw [messagesEq]
  rfl

/-- With a sound verifier that knows no burn at all, the contract still reads
one from an accepted rollup proof. -/
theorem burnWords_not_backed :
    (∀ poseidon, UtxoSound poseidon (sendVerifier poseidon) ∧
      AggSound poseidon (sendVerifier poseidon) ∧
      AggAgg.main poseidon (sendVerifier poseidon) (rollupProof poseidon burnWords) = .ok ()) ∧
    (∀ poseidon key proof aggregation,
      sendVerifier poseidon key proof (AggUtxo.Witness.publicInputs aggregation).toList
          AggAgg.AGG_UTXO_VERIFICATION_KEY_HASH 7 = true →
        readMessages aggregation.messages.toList = some []) ∧
    ∀ poseidon,
      readMessages (rollupProof poseidon burnWords).messages.toList =
          some [.burn false 7 5 0 9] ∧
        ¬MessagesBacked poseidon (sendVerifier poseidon) (rollupProof poseidon burnWords) := by
  refine ⟨fun poseidon => ⟨utxoSound_knowsOnly (paddingSend_accepted poseidon),
    aggSound_knowsOnly (sendAggregation_accepted poseidon),
    withPadding_accepted (by decide : (1 : Base) ≠ 0) burnWords⟩,
    fun _ _ _ _ => sendVerifier_no_messages, fun poseidon => ⟨?_, fun backed => ?_⟩⟩
  · change readMessages (Vector.replicate 15 (0 : Base) ++ burnWords).toList = _
    decide
  · obtain ⟨aggregation, backs, _⟩ := backed.words 1 0 (by
      simp [rollupProof, withPadding_half_one, burnWords, get_eq_getElem])
    exact backs.applied rfl

end Ciphera.Settlement
