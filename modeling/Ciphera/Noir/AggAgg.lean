import Ciphera.Noir.AggUtxo

/-!
# The second aggregation circuit

Two aggregations are verified recursively and their root transitions are
chained.  An aggregation whose old root is zero is padding: its transition is
skipped and the verification of the first aggregation is repeated in its place.
-/

namespace Ciphera.Noir.AggAgg

open Ciphera.Lib

/-- The hash of the only key that the circuit accepts. -/
def AGG_UTXO_VERIFICATION_KEY_HASH : Base :=
  Fin.ofNat modulus
    20568466210044186534443751402702726563221429495170229651617041695720756765724

/-- The proof of an aggregation, with its public inputs. -/
structure UtxoAggProof where
  proof : Vector Base 508
  oldRoot : Base
  newRoot : Base
  commitHash : Base
  deriving DecidableEq, Repr

/-- The arguments of the circuit.  The last four are public. -/
structure Witness where
  verificationKey : Vector Base 115
  verificationKeyHash : Base
  utxoAggProofs : Vector UtxoAggProof 2
  oldRoot : Base
  newRoot : Base
  commitHash : Base
  messages : Vector Base 30
  deriving DecidableEq, Repr

namespace Witness

/-- The fifteen message words of one aggregation. -/
def half (witness : Witness) (index : Fin 2) : Vector Base 15 :=
  Vector.ofFn fun offset => witness.messages[15 * index.val + offset.val]

/-- The public inputs built for one aggregation. -/
def publicInputs (witness : Witness) (index : Fin 2) : Vector Base 18 :=
  let proof := witness.utxoAggProofs.get index
  witness.half index ++ #v[proof.oldRoot, proof.newRoot, proof.commitHash]

end Witness

/-- The variables of the loop over the two aggregations. -/
structure Loop where
  root : Base
  firstPublicInputs : Vector Base 18
  deriving DecidableEq, Repr

variable (poseidon : Poseidon) (verifyProof : VerifyProof)

/-- Chain the transition of an aggregation that is not padding. -/
def applyTransition (root : Base) (proof : UtxoAggProof) : Circuit Base :=
  if proof.oldRoot ≠ 0 then do
    check (proof.oldRoot = root) "proof old_root must match previous root"
    pure proof.newRoot
  else
    pure root

/-- One proof of the loop: its verification, and the root after it. -/
def iteration (witness : Witness) (loop : Loop) (index : Fin 2) : Circuit Loop := do
  let proof := witness.utxoAggProofs.get index
  let publicInputs := witness.publicInputs index
  let firstPublicInputs := if index = 0 then publicInputs else loop.firstPublicInputs
  check
    (verifyProof witness.verificationKey
      (if proof.oldRoot ≠ 0 then proof.proof else (witness.utxoAggProofs.get 0).proof)
      (if proof.oldRoot ≠ 0 then publicInputs else firstPublicInputs).toList
      witness.verificationKeyHash 7 = true)
    "proof verification failed"
  let root ← applyTransition loop.root proof
  pure ⟨root, firstPublicInputs⟩

/-- The circuit: two aggregations in turn lead from the old root to the new one. -/
def main (witness : Witness) : Circuit Unit := do
  check (witness.verificationKeyHash = AGG_UTXO_VERIFICATION_KEY_HASH)
    "only agg_utxo proof allowed"
  let loop ← (List.finRange 2).foldlM (iteration verifyProof witness)
    ⟨witness.oldRoot, Vector.replicate 18 0⟩
  check
    (witness.commitHash =
      poseidon [(witness.utxoAggProofs.get 0).commitHash, (witness.utxoAggProofs.get 1).commitHash])
    "Failed assertion"
  check (witness.newRoot = loop.root) "Roots must match"

/-! ## What an accepted witness satisfies -/

/-- The public inputs that the iteration hands to the verifier. -/
def Witness.verifiedInputs (witness : Witness) (index : Fin 2) : Vector Base 18 :=
  if (witness.utxoAggProofs.get index).oldRoot ≠ 0 then witness.publicInputs index
  else witness.publicInputs 0

/-- Everything the circuit asserts of its arguments. -/
structure Accepted (witness : Witness) : Prop where
  keyHash : witness.verificationKeyHash = AGG_UTXO_VERIFICATION_KEY_HASH
  verified : ∀ index : Fin 2,
    verifyProof witness.verificationKey
      (if (witness.utxoAggProofs.get index).oldRoot ≠ 0 then (witness.utxoAggProofs.get index).proof
        else (witness.utxoAggProofs.get 0).proof)
      (witness.verifiedInputs index).toList AGG_UTXO_VERIFICATION_KEY_HASH 7 = true
  root : (List.finRange 2).foldlM
    (fun root index => applyTransition root (witness.utxoAggProofs.get index)) witness.oldRoot =
      .ok witness.newRoot
  commitHash : witness.commitHash =
    poseidon [(witness.utxoAggProofs.get 0).commitHash, (witness.utxoAggProofs.get 1).commitHash]

variable {poseidon} {verifyProof}

@[simp]
theorem main_eq_ok_iff {witness : Witness} {done : Unit} :
    main poseidon verifyProof witness = .ok done ↔ Accepted poseidon verifyProof witness := by
  have finRangeEq : List.finRange 2 = [0, 1] := by decide
  simp only [main, iteration, bind_eq_ok_iff, check_eq_ok_iff, finRangeEq, List.foldlM_cons,
    List.foldlM_nil, pure_eq_ok_iff]
  constructor
  · rintro ⟨_, keyHash, _, ⟨_, ⟨_, verified0, root1, applied0, rfl⟩, _,
      ⟨_, verified1, root2, applied1, rfl⟩, rfl⟩, _, commitHash, rootEq⟩
    rw [keyHash] at verified0 verified1
    refine ⟨keyHash, ?_, ?_, commitHash⟩
    · intro index
      fin_cases index
      · simpa [Witness.verifiedInputs] using verified0
      · simpa [Witness.verifiedInputs] using verified1
    · rw [finRangeEq]
      simp only [List.foldlM_cons, List.foldlM_nil]
      rw [applied0, ok_bind, applied1, ok_bind, rootEq]
      rfl
  · rintro ⟨keyHash, verified, root, commitHash⟩
    simp only [finRangeEq, List.foldlM_cons, List.foldlM_nil, bind_eq_ok_iff,
      pure_eq_ok_iff] at root
    obtain ⟨root1, applied0, root2, applied1, rootEq⟩ := root
    have verified0 := verified 0
    have verified1 := verified 1
    rw [← keyHash] at verified0 verified1
    simp only [Witness.verifiedInputs] at verified0 verified1
    refine ⟨⟨⟩, keyHash, _, ⟨_, ⟨⟨⟩, ?_, root1, applied0, rfl⟩, _,
      ⟨⟨⟩, verified1, root2, applied1, rfl⟩, rfl⟩, ⟨⟩, commitHash, rootEq.symm⟩
    simpa using verified0

/-- The thirty words are the words of the two aggregations. -/
theorem messages_toList (witness : Witness) :
    witness.messages.toList = (witness.half 0).toList ++ (witness.half 1).toList := by
  apply List.ext_getElem
  · simp
  · intro position _ _
    by_cases left : position < 15
    · rw [List.getElem_append_left (by simpa using left)]
      simp [Witness.half]
    · rw [List.getElem_append_right (by simpa using left)]
      have positionEq : 15 + (position - 15) = position := by omega
      simp [Witness.half, positionEq]

/-- A padding aggregation leaves its message words unconstrained: only the
words of the other ones reach the verifier. -/
theorem Accepted.verified_half {witness : Witness}
    (accepted : Accepted poseidon verifyProof witness) {index : Fin 2}
    (applied : (witness.utxoAggProofs.get index).oldRoot ≠ 0) :
    verifyProof witness.verificationKey (witness.utxoAggProofs.get index).proof
      (witness.publicInputs index).toList AGG_UTXO_VERIFICATION_KEY_HASH 7 = true := by
  have verified := accepted.verified index
  rwa [if_pos applied, Witness.verifiedInputs, if_pos applied] at verified

end Ciphera.Noir.AggAgg
