import Ciphera.Node.Commit

/-!
# Words and residues

A verifier reads the public words of a transaction modulo the field order,
while the node branches on the words themselves.  Commitments are checked to be
canonical; message words are not, so one proof stands for several transactions.
-/

namespace Ciphera.Node

open Ciphera.Lib Ciphera.Noir Ciphera.Smirk Ciphera.Zk

/-- What the node reads of two transactions is the same. -/
structure Agree (poseidon : Poseidon) (first second : UtxoPublicInput) : Prop where
  fields : first.fields = second.fields
  commitments : first.commitments = second.commitments
  kind : first.kind = second.kind
  kindMessages : first.kindMessages = second.kindMessages
  mintHash : first.mintHash = second.mintHash
  hash : first.hash poseidon = second.hash poseidon

/-- The message words are below the field order, as the commitments have to be. -/
def Canonical (inputs : UtxoPublicInput) : Prop :=
  ∀ index, inputs.messages.get index < Element.MODULUS

theorem eq_of_toBase_eq {first second : Element} (residue : first.toBase = second.toBase)
    (firstLt : first < Element.MODULUS) (secondLt : second < Element.MODULUS) :
    first = second := by
  rw [BitVec.lt_def, Element.MODULUS_toNat] at firstLt secondLt
  have remainder : first.toNat % modulus = second.toNat % modulus := by
    rw [← Element.toBase_val, ← Element.toBase_val, residue]
  rw [Nat.mod_eq_of_lt firstLt, Nat.mod_eq_of_lt secondLt] at remainder
  exact BitVec.eq_of_toNat_eq remainder

/-- Vectors of words below the field order are equal when their residues are. -/
theorem eq_of_map_toBase_eq {count : Nat} {first second : Vector Element count}
    (residues : first.map Element.toBase = second.map Element.toBase)
    (firstLt : ∀ index, first.get index < Element.MODULUS)
    (secondLt : ∀ index, second.get index < Element.MODULUS) : first = second := by
  apply Vector.ext
  intro index indexLt
  apply eq_of_toBase_eq
  · have residue := congrArg (fun words => words[index]) residues
    simpa using residue
  · exact firstLt ⟨index, indexLt⟩
  · exact secondLt ⟨index, indexLt⟩

/-! ## The twin of a transaction -/

/-- Another word with the same residue.  Words are wide enough for each residue to have two
that are not below the field order. -/
def shifted (word : Element) : Element :=
  let lifted := word.toNat % modulus + modulus
  BitVec.ofNat 256 (if word.toNat = lifted then lifted + modulus else lifted)

theorem toNat_shifted (word : Element) :
    (shifted word).toNat = if word.toNat = word.toNat % modulus + modulus then
      word.toNat % modulus + modulus + modulus else word.toNat % modulus + modulus := by
  have residueLt : word.toNat % modulus < modulus := Nat.mod_lt _ (by decide)
  have wide : 3 * modulus < 2 ^ 256 := by decide
  rw [shifted, BitVec.toNat_ofNat]
  apply Nat.mod_eq_of_lt
  split <;> omega

@[simp]
theorem toBase_shifted (word : Element) : (shifted word).toBase = word.toBase := by
  apply Fin.ext
  rw [Element.toBase_val, Element.toBase_val, toNat_shifted]
  split
  · rw [Nat.add_mod_right, Nat.add_mod_right, Nat.mod_mod]
  · rw [Nat.add_mod_right, Nat.mod_mod]

theorem shifted_ne (word : Element) : shifted word ≠ word := by
  intro same
  have equal := congrArg BitVec.toNat same
  have positive : 0 < modulus := by decide
  rw [toNat_shifted] at equal
  split at equal <;> omega

theorem not_shifted_lt (word : Element) : ¬shifted word < Element.MODULUS := by
  rw [BitVec.lt_def, Element.MODULUS_toNat, toNat_shifted]
  split <;> omega

/-- The same proof with another word as the last message. -/
def twinTxn (utxoProof : UtxoProof) : UtxoProof :=
  let messages := utxoProof.publicInputs.messages
  { utxoProof with
    publicInputs := { utxoProof.publicInputs with
      messages := messages.set 4 (shifted (messages.get 4)) } }

@[simp]
theorem residues_twinTxn (utxoProof : UtxoProof) :
    (twinTxn utxoProof).publicInputs.residues = utxoProof.publicInputs.residues := by
  have messages : (twinTxn utxoProof).publicInputs.messages.map Element.toBase =
      utxoProof.publicInputs.messages.map Element.toBase := by
    apply Vector.ext
    intro index indexLt
    by_cases last : 4 = index
    · subst last
      simp [twinTxn, get_eq_getElem]
    · simp [twinTxn, Vector.getElem_set_ne, last]
  rw [UtxoPublicInput.residues, UtxoPublicInput.residues, UtxoPublicInput.fields,
    UtxoPublicInput.fields, Vector.map_append, Vector.map_append, messages]
  rfl

/-- The last message says nothing about mints. -/
@[simp]
theorem mintHash_twinTxn (utxoProof : UtxoProof) :
    (twinTxn utxoProof).mintHash = utxoProof.mintHash := by
  have earlier : ∀ index : Fin 5, index.val ≠ 4 →
      (twinTxn utxoProof).publicInputs.messages.get index =
        utxoProof.publicInputs.messages.get index := by
    intro index notLast
    simp [twinTxn, get_eq_getElem, Vector.getElem_set_ne, Ne.symm notLast]
  have kind : (twinTxn utxoProof).publicInputs.kind = utxoProof.publicInputs.kind := by
    rw [UtxoPublicInput.kind, UtxoPublicInput.kind, earlier 0 (by decide)]
  simp only [UtxoProof.mintHash, UtxoPublicInput.mintHash, UtxoPublicInput.kindMessages, kind]
  cases utxoProof.publicInputs.kind <;> simp [earlier]

theorem not_canonical_twinTxn (utxoProof : UtxoProof) :
    ¬Canonical (twinTxn utxoProof).publicInputs := by
  intro canonical
  have last := canonical 4
  have isShifted : (twinTxn utxoProof).publicInputs.messages.get 4 =
      shifted (utxoProof.publicInputs.messages.get 4) := by
    simp [twinTxn, get_eq_getElem]
  rw [isShifted] at last
  exact not_shifted_lt _ last

variable {poseidon : Poseidon} {verify : Verify}

theorem TxnValid.commitments_lt {store : Store} {notesTree : PersistentMerkleTree}
    {utxoProof : UtxoProof} (valid : TxnValid verify store notesTree utxoProof) :
    (∀ index, utxoProof.publicInputs.inputCommitments.get index < Element.MODULUS) ∧
      ∀ index, utxoProof.publicInputs.outputCommitments.get index < Element.MODULUS :=
  ⟨fun index => (valid.inputs _ (by simp [get_eq_getElem])).1,
    fun index => (valid.outputs _ (by simp [get_eq_getElem])).1⟩

/-- The twin of an accepted transaction is accepted. -/
theorem TxnValid.twin {store : Store} {notesTree : PersistentMerkleTree} {utxoProof : UtxoProof}
    (reads : verify.ReadsResidues) (valid : TxnValid verify store notesTree utxoProof) :
    TxnValid verify store notesTree (twinTxn utxoProof) where
  verified := by
    rw [reads (twinTxn utxoProof) utxoProof rfl (residues_twinTxn utxoProof)]
    exact valid.verified
  inputsDiffer := valid.inputsDiffer
  outputsDiffer := valid.outputsDiffer
  outputs := valid.outputs
  inputs := valid.inputs
  mintFresh := by
    rw [mintHash_twinTxn]
    exact valid.mintFresh

/-- The twin of a transaction is another one for the node. -/
theorem not_agree_twinTxn (utxoProof : UtxoProof) :
    ¬Agree poseidon utxoProof.publicInputs (twinTxn utxoProof).publicInputs := by
  intro agree
  have messages := (Vector.append_inj agree.fields).2
  have last := congrArg (fun words => Vector.get words 4) messages
  have isShifted : (twinTxn utxoProof).publicInputs.messages.get 4 =
      shifted (utxoProof.publicInputs.messages.get 4) := by
    simp [twinTxn, get_eq_getElem]
  rw [isShifted] at last
  exact shifted_ne _ last.symm

/-- Two accepted transactions whose message words are below the field order are the same for the
node if a verifier cannot tell them apart. -/
theorem agree_of_canonical {firstStore secondStore : Store}
    {firstTree secondTree : PersistentMerkleTree} {first second : UtxoProof}
    (firstAccepted : validateTxn verify firstStore firstTree first = .ok ())
    (secondAccepted : validateTxn verify secondStore secondTree second = .ok ())
    (residues : first.publicInputs.residues = second.publicInputs.residues)
    (firstCanonical : Canonical first.publicInputs)
    (secondCanonical : Canonical second.publicInputs) :
    Agree poseidon first.publicInputs second.publicInputs := by
  have firstLt := (validateTxn_eq_ok_iff.mp firstAccepted).commitments_lt
  have secondLt := (validateTxn_eq_ok_iff.mp secondAccepted).commitments_lt
  simp only [UtxoPublicInput.residues, UtxoPublicInput.fields, UtxoPublicInput.commitments,
    Vector.map_append] at residues
  obtain ⟨commitments, messages⟩ := Vector.append_inj residues
  obtain ⟨inputs, outputs⟩ := Vector.append_inj commitments
  have inputsEq := eq_of_map_toBase_eq inputs firstLt.1 secondLt.1
  have outputsEq := eq_of_map_toBase_eq outputs firstLt.2 secondLt.2
  have messagesEq := eq_of_map_toBase_eq messages firstCanonical secondCanonical
  have inputEq : first.publicInputs = second.publicInputs := by
    rcases firstInputs : first.publicInputs with ⟨_, _, _⟩
    rcases secondInputs : second.publicInputs with ⟨_, _, _⟩
    rw [firstInputs, secondInputs] at inputsEq outputsEq messagesEq
    exact (UtxoPublicInput.mk.injEq ..).mpr ⟨inputsEq, outputsEq, messagesEq⟩
  rw [inputEq]
  exact ⟨rfl, rfl, rfl, rfl, rfl, rfl⟩

/-- Of two accepted transactions that a verifier cannot tell apart, one with its message words
below the field order is for the node the same as the other exactly when the words of that are
below it too; and for every accepted transaction there is an accepted one that only the node
tells apart from it. -/
theorem agree_iff_canonical (reads : verify.ReadsResidues) {firstStore secondStore : Store}
    {firstTree secondTree : PersistentMerkleTree} {first second : UtxoProof}
    (firstAccepted : validateTxn verify firstStore firstTree first = .ok ())
    (secondAccepted : validateTxn verify secondStore secondTree second = .ok ())
    (residues : first.publicInputs.residues = second.publicInputs.residues) :
    (Canonical first.publicInputs →
      (Agree poseidon first.publicInputs second.publicInputs ↔
        Canonical second.publicInputs)) ∧
      ∃ twin, validateTxn verify firstStore firstTree twin = .ok () ∧
        twin.publicInputs.residues = first.publicInputs.residues ∧
        ¬Canonical twin.publicInputs ∧
        ¬Agree poseidon first.publicInputs twin.publicInputs := by
  constructor
  · intro canonical
    constructor
    · intro agree index
      rw [← (Vector.append_inj agree.fields).2]
      exact canonical index
    · exact agree_of_canonical firstAccepted secondAccepted residues canonical
  · have valid := validateTxn_eq_ok_iff.mp firstAccepted
    exact ⟨twinTxn first, validateTxn_eq_ok_iff.mpr (valid.twin reads),
      residues_twinTxn first, not_canonical_twinTxn first, not_agree_twinTxn first⟩

/-- A send of nothing, with its kind written as the word `kind`. -/
def emptySend (kind : Element) : UtxoProof where
  proof := []
  publicInputs := .single 0 kind 0 0 0 0

@[simp]
theorem residues_emptySend :
    (emptySend 1).publicInputs.residues =
      (emptySend (Element.MODULUS + 1)).publicInputs.residues := by
  have kindResidue : Element.toBase 1 = Element.toBase (Element.MODULUS + 1) := by decide
  have messages : (emptySend 1).publicInputs.messages.map Element.toBase =
      (emptySend (Element.MODULUS + 1)).publicInputs.messages.map Element.toBase := by
    simpa [emptySend, UtxoPublicInput.single] using kindResidue
  rw [UtxoPublicInput.residues, UtxoPublicInput.residues, UtxoPublicInput.fields,
    UtxoPublicInput.fields, Vector.map_append, Vector.map_append, messages]
  rfl

/-- Two proofs that a verifier cannot tell apart, of a send and of a mint: only the kind of the
send is below the field order, and the node takes them for different transactions.  Two proofs
with the kind of the send are the same for the node. -/
theorem emptySend_agree_iff :
    ¬Agree (fun _ => 0) (emptySend 1).publicInputs
        (emptySend (Element.MODULUS + 1)).publicInputs ∧
      Agree (fun _ => 0) (emptySend 1).publicInputs
        (⟨[0], (emptySend 1).publicInputs⟩ : UtxoProof).publicInputs := by
  have reads : Verify.ReadsResidues fun _ => true := fun _ _ _ _ => rfl
  have sendAccepted : validateTxn (fun _ => true) {} emptyTree (emptySend 1) = .ok () := by
    decide
  have mintAccepted : validateTxn (fun _ => true) {} emptyTree
      (emptySend (Element.MODULUS + 1)) = .ok () := by
    decide
  have againAccepted : validateTxn (fun _ => true) {} emptyTree
      ⟨[0], (emptySend 1).publicInputs⟩ = .ok () := by
    decide
  have canonical : Canonical (emptySend 1).publicInputs := by
    unfold Canonical
    decide
  have notCanonical : ¬Canonical (emptySend (Element.MODULUS + 1)).publicInputs := by
    intro below
    exact absurd (below 0) (by decide)
  constructor
  · intro agree
    exact notCanonical
      (((agree_iff_canonical reads sendAccepted mintAccepted residues_emptySend).1 canonical).mp
        agree)
  · exact ((agree_iff_canonical reads sendAccepted againAccepted rfl).1 canonical).mpr canonical

/-- The field order ends in the byte one, so the same proof is a send and, with
the field order added to its kind, a mint. -/
theorem emptySend_as_mint :
    (emptySend 1).publicInputs.residues = (emptySend (Element.MODULUS + 1)).publicInputs.residues ∧
      (emptySend 1).kind = .send ∧ (emptySend (Element.MODULUS + 1)).kind = .mint ∧
      (∀ poseidon, ¬Agree poseidon (emptySend 1).publicInputs
        (emptySend (Element.MODULUS + 1)).publicInputs) ∧
      ∀ verify : Verify, verify.ReadsResidues → verify (emptySend 1) = true →
        validateTxn verify {} emptyTree (emptySend 1) = .ok () ∧
          validateTxn verify {} emptyTree (emptySend (Element.MODULUS + 1)) = .ok () := by
  have firstKind : (emptySend 1).kind = .send := by decide
  have secondKind : (emptySend (Element.MODULUS + 1)).kind = .mint := by decide
  refine ⟨residues_emptySend, firstKind, secondKind, fun poseidon agree => ?_, ?_⟩
  · have kindEq := agree.kind
    rw [UtxoProof.kind] at firstKind secondKind
    rw [firstKind, secondKind] at kindEq
    cases kindEq
  · intro verify reads verified
    have twinVerified : verify (emptySend (Element.MODULUS + 1)) = true := by
      rw [← reads (emptySend 1) (emptySend (Element.MODULUS + 1)) rfl residues_emptySend]
      exact verified
    exact ⟨validateTxn_eq_ok_iff.mpr (singleOutput_valid verified (by decide)
        (not_mem_emptyTree 0) (BlockStore.not_recorded_empty 0)
        fun mintHash _ => BlockStore.not_minted_empty mintHash),
      validateTxn_eq_ok_iff.mpr (singleOutput_valid twinVerified (by decide)
        (not_mem_emptyTree 0) (BlockStore.not_recorded_empty 0)
        fun mintHash _ => BlockStore.not_minted_empty mintHash)⟩

end Ciphera.Node
