import Ciphera.Cli.Note

/-!
# Commitments of the wallet and of the circuit

The wallet and the circuit both hash a note to commit to it, and both have notes whose
commitment is zero.  The wallet looks at the value to find them, as a 256-bit integer;
the circuit looks at the contract, as a field element.
-/

namespace Ciphera.Cli

open Ciphera.Noir (Poseidon)

/-- `BNote::from`: the circuit reads the contract as the kind of the note. -/
def Note.bNote (note : Note) : Noir.Note where
  kind := note.contract.toBase
  value := note.value.toBase
  address := note.address.toBase
  psi := note.psi.toBase

/-- `BInputNote::from` -/
def InputNote.bInputNote (inputNote : InputNote) : Noir.InputNote where
  note := inputNote.note.bNote
  secretKey := inputNote.secretKey.toBase

variable {poseidon : Poseidon} {note : Note}

theorem toBase_commitment_of_value_eq_zero (worthless : note.value = Element.ZERO) :
    (note.commitment poseidon).toBase = 0 := by
  rw [Note.commitment, if_pos worthless]
  rfl

/-- A note with value is committed to by the hash of the circuit. -/
theorem toBase_commitment_of_value_ne_zero (kind : note.kind = 2)
    (valuable : note.value ≠ Element.ZERO) :
    (note.commitment poseidon).toBase = Noir.noteHash poseidon note.bNote := by
  rw [Note.commitment, if_neg valuable, Zk.hashMerge, Element.toBase_fromBase, kind]
  rfl

/-- The wallet commits to a note as the circuit does exactly when the contract of the
note is zero in the field where its value is zero, and nowhere else; or when the hash of
the note is zero by chance. -/
theorem commitment_eq_iff {commitment : Base} (kind : note.kind = 2)
    (committed : Noir.getNoteCommitment poseidon note.bNote = .ok commitment) :
    (note.commitment poseidon).toBase = commitment ↔
      (note.contract.toBase = 0 ↔ note.value = Element.ZERO) ∨
        Noir.noteHash poseidon note.bNote = 0 := by
  by_cases worthless : note.value = Element.ZERO
  · rw [toBase_commitment_of_value_eq_zero worthless, iff_true_right worthless]
    rcases Noir.getNoteCommitment_eq_ok_iff.mp committed with ⟨padding, _, rfl⟩ | ⟨notPadding, rfl⟩
    · exact iff_of_true rfl (.inl padding)
    · rw [eq_comm]
      exact ⟨.inr, fun agree => agree.resolve_left notPadding⟩
  · rw [toBase_commitment_of_value_ne_zero kind worthless, iff_false_right worthless]
    rcases Noir.getNoteCommitment_eq_ok_iff.mp committed with ⟨padding, _, rfl⟩ | ⟨notPadding, rfl⟩
    · exact ⟨.inr, fun agree => agree.resolve_left fun notPadding => notPadding padding⟩
    · exact iff_of_true rfl (.inl notPadding)

/-- A note of one token. -/
def tokenNote (value : Element) : Note := ⟨2, citreaWcbtcNoteKind, 7, 1, value⟩

theorem citreaWcbtcNoteKind_toBase_ne_zero : citreaWcbtcNoteKind.toBase ≠ 0 := by decide

/-- The circuit takes such a note for no padding, whatever its value is. -/
theorem getNoteCommitment_tokenNote (poseidon : Poseidon) (value : Element) :
    Noir.getNoteCommitment poseidon (tokenNote value).bNote =
      .ok (Noir.noteHash poseidon (tokenNote value).bNote) :=
  Noir.getNoteCommitment_eq_ok_iff.mpr (.inr ⟨citreaWcbtcNoteKind_toBase_ne_zero, rfl⟩)

/-- A hash that is easy to compute. -/
def firstWord : Poseidon := fun inputs => inputs.headD 0

/-- With some value, both commit to it by its hash. -/
theorem tokenNote_commitment_eq :
    ((tokenNote 5).commitment firstWord).toBase =
      Noir.noteHash firstWord (tokenNote 5).bNote := by
  apply (commitment_eq_iff rfl (getNoteCommitment_tokenNote firstWord 5)).mpr
  exact .inl (iff_of_false citreaWcbtcNoteKind_toBase_ne_zero (by decide))

/-- Without value, the wallet takes it for padding and the circuit does not. -/
theorem worthless_commitment_ne :
    (∀ poseidon : Poseidon, Noir.noteHash poseidon (tokenNote 0).bNote ≠ 0 →
        ∃ commitment, Noir.getNoteCommitment poseidon (tokenNote 0).bNote = .ok commitment ∧
          ((tokenNote 0).commitment poseidon).toBase ≠ commitment) ∧
      ∃ poseidon : Poseidon, Noir.noteHash poseidon (tokenNote 0).bNote ≠ 0 := by
  constructor
  · intro poseidon nonzero
    refine ⟨_, getNoteCommitment_tokenNote poseidon 0, ?_⟩
    rw [toBase_commitment_of_value_eq_zero rfl]
    exact nonzero.symm
  · exact ⟨firstWord, show (2 : Base) ≠ 0 by decide⟩

end Ciphera.Cli
