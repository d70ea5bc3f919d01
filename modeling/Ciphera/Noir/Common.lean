import Ciphera.Element
import Ciphera.Lib.Check

/-!
# Notes and their commitments

The definitions shared by the circuits.  A circuit is a checked computation: a
witness is accepted when every assertion holds, and a failing assertion
carries the message of the source.

The sponge hash and the recursive verifier are parameters: the circuits call
external implementations.  Nothing is used of the hash beyond its being a
function of the absorbed words, and nothing of the verifier beyond what a
theorem assumes of it.
-/

namespace Ciphera.Noir

open Ciphera.Lib

/-! ## Array lengths

Circuit arrays have literal lengths and are indexed by `Fin`. -/

/-- Indices below two exist. -/
instance neZeroTwo : NeZero 2 := ⟨by decide⟩

/-- Indices below three exist. -/
instance neZeroThree : NeZero 3 := ⟨by decide⟩

/-- Indices below four exist. -/
instance neZeroFour : NeZero 4 := ⟨by decide⟩

/-- Indices below five exist. -/
instance neZeroFive : NeZero 5 := ⟨by decide⟩

/-- Indices below fifteen exist. -/
instance neZeroFifteen : NeZero 15 := ⟨by decide⟩

theorem get_eq_getElem {α : Type} {length : Nat} (array : Vector α length) (index : Fin length) :
    array.get index = GetElem.getElem array index.val index.isLt :=
  rfl

/-! ## Circuits and notes -/

/-- A circuit run, failing with the message of the first failed assertion. -/
abbrev Circuit := Except String

/-- The hash of a list of field elements, absorbed with its length. -/
abbrev Poseidon := List Base → Base

/-- `std::verify_proof_with_type`: verification key, proof, public inputs, hash
of the key and type of the proof. -/
abbrev VerifyProof := Vector Base 115 → Vector Base 508 → List Base → Base → Nat → Bool

/-- A note; kind zero marks padding. -/
structure Note where
  kind : Base
  value : Base
  address : Base
  psi : Base
  deriving DecidableEq, Repr

/-- A note together with the key that may spend it. -/
structure InputNote where
  note : Note
  secretKey : Base
  deriving DecidableEq, Repr

/-- `Field::assert_max_bit_size`. -/
def assertMaxBitSize (value : Base) (bits : Nat) : Circuit Unit :=
  check (value.val < 2 ^ bits) "call to assert_max_bit_size"

/-- `Field::to_le_bits` at the width of the field: the bits of the canonical
representative, least significant first. -/
def toLeBits (value : Base) : Vector Bool 254 :=
  Vector.ofFn fun index => value.val.testBit index

variable (poseidon : Poseidon)

/-- The hash that commits to a note which is not padding. -/
def noteHash (note : Note) : Base :=
  poseidon [2, note.kind, note.value, note.address, note.psi, 0, 0]

/-- The commitment of a note, zero for padding. -/
def getNoteCommitment (note : Note) : Circuit Base :=
  if note.kind = 0 then do
    check (note.value = 0) "Padding notes must be zero value"
    pure 0
  else
    pure (noteHash poseidon note)

/-- The note has the commitment. -/
def checkCommitment (note : Note) (commitment : Base) : Circuit Unit := do
  let computed ← getNoteCommitment poseidon note
  check (computed = commitment) "Note commitment is not valid"

/-- The address of a secret key. -/
def getAddress (secretKey : Base) : Base :=
  poseidon [secretKey, 0]

/-- A note of any value is spent with the key of its address. -/
def checkInputNoteOwnership (inputNote : InputNote) : Circuit Unit :=
  if inputNote.note.value ≠ 0 then
    check (getAddress poseidon inputNote.secretKey = inputNote.note.address)
      "Input note is not owned by the owner"
  else
    pure ()

/-- What a checked commitment says about its note. -/
def Commits (note : Note) (commitment : Base) : Prop :=
  (note.kind = 0 ∧ note.value = 0 ∧ commitment = 0) ∨
    (note.kind ≠ 0 ∧ commitment = noteHash poseidon note)

variable {poseidon}

@[simp]
theorem assertMaxBitSize_eq_ok_iff {value : Base} {bits : Nat} {done : Unit} :
    assertMaxBitSize value bits = .ok done ↔ value.val < 2 ^ bits :=
  check_eq_ok_iff

/-- What a note is committed to. -/
@[simp]
theorem getNoteCommitment_eq_ok_iff {note : Note} {commitment : Base} :
    getNoteCommitment poseidon note = .ok commitment ↔ Commits poseidon note commitment := by
  unfold getNoteCommitment Commits
  by_cases padding : note.kind = 0
  · simp [padding, eq_comm (a := commitment)]
  · simp [padding, eq_comm (a := commitment)]

@[simp]
theorem checkCommitment_eq_ok_iff {note : Note} {commitment : Base} {done : Unit} :
    checkCommitment poseidon note commitment = .ok done ↔ Commits poseidon note commitment := by
  rw [checkCommitment, bind_eq_ok_iff, ← getNoteCommitment_eq_ok_iff]
  simp only [check_eq_ok_iff, exists_eq_right]

/-- A note with a padding kind has no value. -/
theorem Commits.value_eq_zero {note : Note} {commitment : Base}
    (commits : Commits poseidon note commitment) (padding : note.kind = 0) : note.value = 0 := by
  rcases commits with ⟨_, valueEq, _⟩ | ⟨notPadding, _⟩
  · exact valueEq
  · exact absurd padding notPadding

theorem Commits.commitment_eq_zero {note : Note} {commitment : Base}
    (commits : Commits poseidon note commitment) (padding : note.kind = 0) : commitment = 0 := by
  rcases commits with ⟨_, _, commitmentEq⟩ | ⟨notPadding, _⟩
  · exact commitmentEq
  · exact absurd padding notPadding

theorem Commits.eq_noteHash {note : Note} {commitment : Base}
    (commits : Commits poseidon note commitment) (notPadding : note.kind ≠ 0) :
    commitment = noteHash poseidon note := by
  rcases commits with ⟨padding, _⟩ | ⟨_, commitmentEq⟩
  · exact absurd padding notPadding
  · exact commitmentEq

end Ciphera.Noir
