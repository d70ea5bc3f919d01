import Ciphera.Noir.Utxo

/-!
# Transactions outside the circuits

The node, the prover and the wallet handle a transaction as its nine public
words and the bytes of a proof.  The words are 256-bit integers; what a proof
establishes concerns their residues only.
-/

namespace Ciphera.Zk

open Ciphera.Noir

/-- The kind of a transaction. -/
inductive UtxoKind
  | null
  | send
  | mint
  | burn
  | noSub
  deriving DecidableEq, Repr

namespace UtxoKind

/-- `From<u8>`: every other byte reads as a null transaction. -/
def ofByte (value : BitVec 8) : UtxoKind :=
  match value.toNat with
  | 1 => send
  | 2 => mint
  | 3 => burn
  | 4 => noSub
  | _ => null

/-- The byte of a kind; `null` has zero. -/
def toByte : UtxoKind → BitVec 8
  | send => 1
  | mint => 2
  | burn => 3
  | noSub => 4
  | null => 0

/-- The kind as an element. -/
def toElement (kind : UtxoKind) : Element := kind.toByte.setWidth 256

end UtxoKind

/-- Structured messages of a burn. -/
structure UtxoKindBurnMessages where
  utxoKind : Element
  noteKind : Element
  value : Element
  burnHash : Element
  burnAddress : Element
  deriving DecidableEq, Repr

/-- Structured messages of a mint. -/
structure UtxoKindMintMessages where
  noteKind : Element
  value : Element
  mintHash : Element
  deriving DecidableEq, Repr

/-- What the messages of a transaction say, by its kind. -/
inductive UtxoKindMessages
  | none
  | burn (messages : UtxoKindBurnMessages)
  | mint (messages : UtxoKindMintMessages)
  deriving DecidableEq, Repr

/-- The public inputs of the proof of a transaction. -/
structure UtxoPublicInput where
  inputCommitments : Vector Element 2
  outputCommitments : Vector Element 2
  messages : Vector Element 5
  deriving DecidableEq, Repr

/-- Public inputs that create at most one note and spend none. -/
def UtxoPublicInput.single (output kind noteKind value hash address : Element) :
    UtxoPublicInput where
  inputCommitments := #v[0, 0]
  outputCommitments := #v[output, 0]
  messages := #v[kind, noteKind, value, hash, address]

/-- `hash_merge`: the hash only sees residues and its result is canonical. -/
def hashMerge (poseidon : Poseidon) (elements : List Element) : Element :=
  Element.fromBase (poseidon (elements.map Element.toBase))

namespace UtxoPublicInput

/-- The commitments of the inputs, then those of the outputs. -/
def commitments (inputs : UtxoPublicInput) : Vector Element 4 :=
  inputs.inputCommitments ++ inputs.outputCommitments

/-- All public inputs, in the order of the circuit. -/
def fields (inputs : UtxoPublicInput) : Vector Element 9 :=
  inputs.commitments ++ inputs.messages

/-- The residues of the nine words, which is what a verifier reads. -/
def residues (inputs : UtxoPublicInput) : Vector Base 9 :=
  inputs.fields.map Element.toBase

/-- The hash of a transaction is the one of its public inputs. -/
def hash (poseidon : Poseidon) (inputs : UtxoPublicInput) : Element :=
  hashMerge poseidon inputs.fields.toList

/-- The kind is read from the last byte of the first message. -/
def kind (inputs : UtxoPublicInput) : UtxoKind :=
  UtxoKind.ofByte ((inputs.messages.get 0).setWidth 8)

/-- Read the messages by the kind in the first of them. -/
def kindMessages (inputs : UtxoPublicInput) : UtxoKindMessages :=
  match inputs.kind with
  | .null | .send => .none
  | .mint =>
      .mint
        { noteKind := inputs.messages.get 1
          value := inputs.messages.get 2
          mintHash := inputs.messages.get 3 }
  | .burn | .noSub =>
      .burn
        { utxoKind := inputs.messages.get 0
          noteKind := inputs.messages.get 1
          value := inputs.messages.get 2
          burnHash := inputs.messages.get 3
          burnAddress := inputs.messages.get 4 }

/-- The mint hash of a mint; other transactions have none. -/
def mintHash (inputs : UtxoPublicInput) : Option Element :=
  match inputs.kindMessages with
  | .mint messages => some messages.mintHash
  | .burn _ => none
  | .none => none

/-- The input commitments that are not padding. -/
def inputElements (inputs : UtxoPublicInput) : List Element :=
  inputs.inputCommitments.toList.filter (· ≠ Element.ZERO)

/-- The output commitments that are not padding. -/
def outputElements (inputs : UtxoPublicInput) : List Element :=
  inputs.outputCommitments.toList.filter (· ≠ Element.ZERO)

end UtxoPublicInput

/-- A transaction: the bytes of a proof and its public words. -/
structure UtxoProof where
  proof : List (BitVec 8)
  publicInputs : UtxoPublicInput
  deriving DecidableEq, Repr

/-- `UtxoProof::verify`, which hands the concatenated bytes to the proving
backend. -/
abbrev Verify := UtxoProof → Bool

namespace UtxoProof

/-- The hash of the transaction. -/
def hash (poseidon : Poseidon) (proof : UtxoProof) : Element := proof.publicInputs.hash poseidon

/-- The kind of the transaction. -/
def kind (proof : UtxoProof) : UtxoKind := proof.publicInputs.kind

/-- What its messages say. -/
def kindMessages (proof : UtxoProof) : UtxoKindMessages := proof.publicInputs.kindMessages

/-- The hash of the mint, if it is one. -/
def mintHash (proof : UtxoProof) : Option Element := proof.publicInputs.mintHash

end UtxoProof

/-- The backend reads each public word modulo the field order. -/
def Verify.ReadsResidues (verify : Verify) : Prop :=
  ∀ first second : UtxoProof, first.proof = second.proof →
    first.publicInputs.residues = second.publicInputs.residues → verify first = verify second

/-- The backend accepts a proof only for public inputs that some accepted
witness of the transaction circuit has. -/
def Verify.Sound (poseidon : Poseidon) (verify : Verify) : Prop :=
  ∀ proof, verify proof = true →
    ∃ witness, Utxo.main poseidon witness = .ok () ∧
      witness.publicInputs = proof.publicInputs.residues

/-- The witness behind a verified proof has the residues of its words. -/
theorem Verify.Sound.exists_accepted {poseidon : Poseidon} {verify : Verify}
    (sound : verify.Sound poseidon) {proof : UtxoProof} (verified : verify proof = true) :
    ∃ witness, Utxo.Accepted poseidon witness ∧
      witness.commitments = proof.publicInputs.commitments.map Element.toBase ∧
      witness.messages = proof.publicInputs.messages.map Element.toBase := by
  obtain ⟨witness, accepted, inputsEq⟩ := sound proof verified
  rw [UtxoPublicInput.residues, UtxoPublicInput.fields, Vector.map_append] at inputsEq
  exact ⟨witness, Utxo.main_eq_ok_iff.mp accepted, Vector.append_inj inputsEq⟩

/-- A verified proof has a kind in the field. -/
theorem Verify.Sound.kind_ne_zero {poseidon : Poseidon} {verify : Verify}
    (sound : verify.Sound poseidon) {proof : UtxoProof} (verified : verify proof = true) :
    (proof.publicInputs.messages.get 0).toBase ≠ 0 := by
  obtain ⟨witness, accepted, _, messagesEq⟩ := sound.exists_accepted verified
  have kindEq : witness.kind = (proof.publicInputs.messages.get 0).toBase := by
    simp [Utxo.Witness.kind, messagesEq, get_eq_getElem]
  rw [← kindEq]
  cases accepted.rule with
  | send kindEq _ => rw [kindEq]; decide
  | mint kindEq _ _ _ => rw [kindEq]; decide
  | burn kindEq _ _ _ _ => rcases kindEq with kindEq | kindEq <;> rw [kindEq] <;> decide

end Ciphera.Zk
