import Ciphera.Cli.Commitments

/-!
# Transactions that prove

The wallet computes the public words of a transaction in 256-bit integers and hands
their residues to the circuit, which computes them again in the field.  A transaction
with honest notes is accepted unless its token is padding in the field, it has no
address to burn to, or it mints or burns more than the circuit lets through.
-/

namespace Ciphera.Cli

open Ciphera.Lib Ciphera.Zk
open Ciphera.Noir (Poseidon)

/-- The address of a key. -/
def getAddressForPrivateKey (poseidon : Poseidon) (privateKey : Element) : Element :=
  hashMerge poseidon [privateKey, Element.ZERO]

namespace Utxo

variable (poseidon : Poseidon)

/-- The hash of a mint, over the secrets of its outputs. -/
def mintHash (utxo : Utxo) : Element :=
  hashMerge poseidon [(utxo.outputNotes.get 0).psi, (utxo.outputNotes.get 1).psi]

/-- The hash of a burn, the commitment of its first input. -/
def burnHash (utxo : Utxo) : Element := (utxo.inputNotes.get 0).note.commitment poseidon

/-- The messages of a burn, whose first word is its kind. -/
def burnMessages (kind : Element) (utxo : Utxo) : Except String (Vector Element 5) :=
  match utxo.burnAddress with
  | some burnAddress =>
      .ok #v[kind, (utxo.inputNotes.get 0).note.contract, utxo.inputValue - utxo.outputValue,
        utxo.burnHash poseidon, burnAddress]
  | none => .error "called `Option::unwrap()` on a `None` value"

/-- The messages of a transaction, by its kind. -/
def messages (utxo : Utxo) : Except String (Vector Element 5) :=
  match utxo.kind with
  | .send => .ok #v[1, Element.ZERO, Element.ZERO, Element.ZERO, Element.ZERO]
  | .mint =>
      .ok #v[2, (utxo.outputNotes.get 0).contract, utxo.outputValue - utxo.inputValue,
        utxo.mintHash poseidon, Element.ZERO]
  | .burn => utxo.burnMessages poseidon 3
  | .noSub => utxo.burnMessages poseidon 4
  | .null => .ok #v[Element.ZERO, Element.ZERO, Element.ZERO, Element.ZERO, Element.ZERO]

/-- The public inputs, with given messages. -/
def publicWords (messages : Vector Element 5) (utxo : Utxo) : UtxoPublicInput where
  inputCommitments :=
    #v[(utxo.inputNotes.get 0).note.commitment poseidon,
      (utxo.inputNotes.get 1).note.commitment poseidon]
  outputCommitments :=
    #v[(utxo.outputNotes.get 0).commitment poseidon, (utxo.outputNotes.get 1).commitment poseidon]
  messages := messages

/-- The public inputs of a transaction. -/
def publicInputs (utxo : Utxo) : Except String UtxoPublicInput := do
  let messages ← utxo.messages poseidon
  pure (utxo.publicWords poseidon messages)

/-- The arguments of the circuit, with given messages. -/
def arguments (messages : Vector Element 5) (utxo : Utxo) : Noir.Utxo.Witness where
  inputNotes := utxo.inputNotes.map InputNote.bInputNote
  outputNotes := utxo.outputNotes.map Note.bNote
  pmessage4 := (messages.get 4).toBase
  commitments :=
    #v[((utxo.inputNotes.get 0).note.commitment poseidon).toBase,
      ((utxo.inputNotes.get 1).note.commitment poseidon).toBase,
      ((utxo.outputNotes.get 0).commitment poseidon).toBase,
      ((utxo.outputNotes.get 1).commitment poseidon).toBase]
  messages := messages.map Element.toBase

/-- `UtxoInput::from` -/
def utxoInput (utxo : Utxo) : Except String Noir.Utxo.Witness := do
  let messages ← utxo.messages poseidon
  pure (utxo.arguments poseidon messages)

end Utxo

/-! ## Honest transactions -/

/-- A note of some value and of a token. -/
structure Note.Honest (contract : Element) (note : Note) : Prop where
  kind : note.kind = 2
  contract : note.contract = contract
  valuable : note.value ≠ Element.ZERO
  small : note.value.toNat < 2 ^ 240

/-- A note that the wallet can spend, or padding. -/
def InputNote.Honest (poseidon : Poseidon) (contract : Element) (inputNote : InputNote) : Prop :=
  inputNote.note = Note.paddingNote ∨
    inputNote.note.Honest contract ∧
      inputNote.note.address = getAddressForPrivateKey poseidon inputNote.secretKey

/-- The sums of the values, which the wallet compares. -/
def Utxo.totalIn (utxo : Utxo) : Nat :=
  (utxo.inputNotes.get 0).note.value.toNat + (utxo.inputNotes.get 1).note.value.toNat

/-- What the outputs are worth together, without overflow. -/
def Utxo.totalOut (utxo : Utxo) : Nat :=
  (utxo.outputNotes.get 0).value.toNat + (utxo.outputNotes.get 1).value.toNat

/-- What a transaction of each kind needs beyond its notes. -/
def Utxo.Covers (utxo : Utxo) : Prop :=
  match utxo.kind with
  | .send => utxo.totalIn = utxo.totalOut
  | .mint => utxo.outputNotes.get 0 ≠ Note.paddingNote ∧ utxo.totalIn ≤ utxo.totalOut
  | .burn | .noSub =>
      (utxo.inputNotes.get 0).note ≠ Note.paddingNote ∧ utxo.totalOut ≤ utxo.totalIn
  | .null => False

/-- A transaction of one kind of notes that an honest wallet makes. -/
structure Utxo.Honest (poseidon : Poseidon) (contract : Element) (utxo : Utxo) : Prop where
  inputs : ∀ index, (utxo.inputNotes.get index).Honest poseidon contract
  outputs : ∀ index, utxo.outputNotes.get index = Note.paddingNote ∨
    (utxo.outputNotes.get index).Honest contract
  covers : utxo.Covers

/-- All notes of a transaction are padding. -/
def Utxo.Blank (utxo : Utxo) : Prop :=
  (∀ index, (utxo.inputNotes.get index).note = Note.paddingNote) ∧
    ∀ index, utxo.outputNotes.get index = Note.paddingNote

/-- What the circuit asks of an honest transaction. -/
structure Utxo.Provable (contract : Element) (utxo : Utxo) : Prop where
  token : utxo.Blank ∨ contract.toBase ≠ 0
  addressed : utxo.kind = .burn ∨ utxo.kind = .noSub → utxo.burnAddress.isSome
  bounded : utxo.minted.toNat < 2 ^ 240 ∧ utxo.burned.toNat < 2 ^ 240

/-! ## Notes -/

section

variable {poseidon : Poseidon} {contract : Element} {note : Note}

@[simp]
theorem val_toBase_of_lt {element : Element} (small : element.toNat < 2 ^ 241) :
    element.toBase.val = element.toNat := by
  rw [Element.toBase_val]
  exact Nat.mod_eq_of_lt (Nat.lt_trans small (by decide))

theorem toBase_add {first second : Element} (fits : first.toNat + second.toNat < 2 ^ 256) :
    (first + second).toBase = first.toBase + second.toBase := by
  apply Fin.ext
  rw [Fin.val_add, Element.toBase_val, Element.toBase_val, Element.toBase_val,
    BitVec.toNat_add_of_lt fits, Nat.add_mod]

theorem Note.Honest.ne_paddingNote (honest : note.Honest contract) : note ≠ Note.paddingNote := by
  rintro rfl
  exact honest.valuable rfl

theorem Note.Honest.kind_bNote (honest : note.Honest contract) :
    note.bNote.kind = contract.toBase := by
  rw [← honest.contract]
  rfl

theorem value_lt_of_honest (honest : note = Note.paddingNote ∨ note.Honest contract) :
    note.value.toNat < 2 ^ 240 := by
  rcases honest with rfl | honest
  · decide
  · exact honest.small

/-- The circuit accepts the commitment of the wallet where the token is no padding. -/
theorem commits_iff_of_honest (honest : note = Note.paddingNote ∨ note.Honest contract) :
    Noir.Commits poseidon note.bNote (note.commitment poseidon).toBase ↔
      note = Note.paddingNote ∨ contract.toBase ≠ 0 := by
  rcases honest with rfl | honest
  · exact iff_of_true (.inl ⟨rfl, rfl, toBase_commitment_of_value_eq_zero rfl⟩) (.inl rfl)
  rw [toBase_commitment_of_value_ne_zero honest.kind honest.valuable,
    or_iff_right honest.ne_paddingNote]
  constructor
  · intro commits padding
    have worthless : note.value.toBase = 0 :=
      commits.value_eq_zero (honest.kind_bNote.trans padding)
    have valueEq := congrArg Fin.val worthless
    rw [val_toBase_of_lt (Nat.lt_trans honest.small (by decide))] at valueEq
    exact honest.valuable (BitVec.eq_of_toNat_eq valueEq)
  · intro notPadding
    exact .inr ⟨honest.kind_bNote ▸ notPadding, rfl⟩

theorem kind_bNote_of_honest (honest : note = Note.paddingNote ∨ note.Honest contract)
    (notPadding : note.bNote.kind ≠ 0) : note.bNote.kind = contract.toBase := by
  rcases honest with rfl | honest
  · exact absurd rfl notPadding
  · exact honest.kind_bNote

theorem InputNote.Honest.noteHonest {inputNote : InputNote}
    (honest : inputNote.Honest poseidon contract) :
    inputNote.note = Note.paddingNote ∨ inputNote.note.Honest contract :=
  honest.imp_right And.left

/-- The circuit derives the address of an honest note from its key. -/
theorem InputNote.Honest.owned {inputNote : InputNote}
    (honest : inputNote.Honest poseidon contract) :
    Noir.Utxo.Owned poseidon inputNote.bInputNote := by
  rcases honest with padding | ⟨_, addressEq⟩
  · intro valuable
    exact absurd (show inputNote.note.value.toBase = 0 by rw [padding]; rfl) valuable
  · intro _
    change Noir.getAddress poseidon inputNote.secretKey.toBase = inputNote.note.address.toBase
    rw [addressEq, getAddressForPrivateKey, hashMerge, Element.toBase_fromBase]
    rfl

end

/-! ## The rule of each kind -/

section

variable {poseidon : Poseidon} {contract : Element} {utxo : Utxo} {messages : Vector Element 5}

@[simp]
theorem inputNotes_arguments (index : Fin 2) :
    (utxo.arguments poseidon messages).inputNotes.get index =
      (utxo.inputNotes.get index).bInputNote := by
  simp [Utxo.arguments, Noir.get_eq_getElem]

@[simp]
theorem outputNotes_arguments (index : Fin 2) :
    (utxo.arguments poseidon messages).outputNotes.get index =
      (utxo.outputNotes.get index).bNote := by
  simp [Utxo.arguments, Noir.get_eq_getElem]

@[simp]
theorem messages_arguments (index : Fin 5) :
    (utxo.arguments poseidon messages).messages.get index = (messages.get index).toBase := by
  simp [Utxo.arguments, Noir.get_eq_getElem]

namespace Utxo.Honest

theorem totalIn_lt (honest : utxo.Honest poseidon contract) : utxo.totalIn < 2 ^ 241 := by
  have first := value_lt_of_honest (honest.inputs 0).noteHonest
  have second := value_lt_of_honest (honest.inputs 1).noteHonest
  rw [Utxo.totalIn]
  omega

theorem totalOut_lt (honest : utxo.Honest poseidon contract) : utxo.totalOut < 2 ^ 241 := by
  have first := value_lt_of_honest (honest.outputs 0)
  have second := value_lt_of_honest (honest.outputs 1)
  rw [Utxo.totalOut]
  omega

theorem toNat_inputValue (honest : utxo.Honest poseidon contract) :
    utxo.inputValue.toNat = utxo.totalIn :=
  BitVec.toNat_add_of_lt (Nat.lt_trans honest.totalIn_lt (by decide))

theorem toNat_outputValue (honest : utxo.Honest poseidon contract) :
    utxo.outputValue.toNat = utxo.totalOut :=
  BitVec.toNat_add_of_lt (Nat.lt_trans honest.totalOut_lt (by decide))

theorem inputValue_arguments (honest : utxo.Honest poseidon contract) :
    (utxo.arguments poseidon messages).inputValue = utxo.inputValue.toBase := by
  rw [Noir.Utxo.Witness.inputValue, inputNotes_arguments, inputNotes_arguments]
  exact (toBase_add (Nat.lt_trans honest.totalIn_lt (by decide))).symm

theorem outputValue_arguments (honest : utxo.Honest poseidon contract) :
    (utxo.arguments poseidon messages).outputValue = utxo.outputValue.toBase := by
  rw [Noir.Utxo.Witness.outputValue, outputNotes_arguments, outputNotes_arguments]
  exact (toBase_add (Nat.lt_trans honest.totalOut_lt (by decide))).symm

end Utxo.Honest

/-- What is left of the greater sum balances the two, in the field too. -/
theorem toBase_eq_add_sub {greater smaller : Element} (le : smaller.toNat ≤ greater.toNat) :
    greater.toBase = smaller.toBase + (greater - smaller).toBase := by
  have sub : (greater - smaller).toNat = greater.toNat - smaller.toNat :=
    BitVec.toNat_sub_of_le (BitVec.le_def.mpr le)
  have sum : smaller.toNat + (greater - smaller).toNat = greater.toNat := by
    rw [sub, Nat.add_sub_cancel' le]
  rw [← toBase_add (sum ▸ greater.isLt)]
  congr 1
  rw [BitVec.add_comm, BitVec.sub_add_cancel]

namespace Utxo.Honest

/-- A burn satisfies the rule of its kind. -/
theorem burn_rule (honest : utxo.Honest poseidon contract) {kind : Element}
    (kindEq : kind.toBase = 3 ∨ kind.toBase = 4) (le : utxo.totalOut ≤ utxo.totalIn)
    (built : utxo.burnMessages poseidon kind = .ok messages) :
    Noir.Utxo.KindRule poseidon (utxo.arguments poseidon messages) := by
  rw [Utxo.burnMessages] at built
  split at built
  · cases built
    apply Noir.Utxo.KindRule.burn
    · rw [Noir.Utxo.Witness.kind, messages_arguments]
      exact kindEq
    · rw [Noir.Utxo.Witness.burnAddr, messages_arguments]
      rfl
    · rw [Noir.Utxo.Witness.msgHash, messages_arguments]
      rfl
    · rw [honest.inputValue_arguments, honest.outputValue_arguments, Noir.Utxo.Witness.msgValue,
        messages_arguments]
      apply toBase_eq_add_sub
      rwa [honest.toNat_inputValue, honest.toNat_outputValue]
    · rw [Noir.Utxo.Witness.msgNoteKind, messages_arguments, inputNotes_arguments]
      rfl
  · cases built

theorem rule (honest : utxo.Honest poseidon contract)
    (built : utxo.messages poseidon = .ok messages) :
    Noir.Utxo.KindRule poseidon (utxo.arguments poseidon messages) := by
  have covers := honest.covers
  rw [Utxo.messages] at built
  rw [Utxo.Covers] at covers
  split at built
  · next kindEq =>
      rw [kindEq] at covers
      cases built
      apply Noir.Utxo.KindRule.send
      · rw [Noir.Utxo.Witness.kind, messages_arguments]
        rfl
      · rw [honest.inputValue_arguments, honest.outputValue_arguments]
        congr 1
        apply BitVec.eq_of_toNat_eq
        rwa [honest.toNat_inputValue, honest.toNat_outputValue]
  · next kindEq =>
      rw [kindEq] at covers
      cases built
      apply Noir.Utxo.KindRule.mint
      · rw [Noir.Utxo.Witness.kind, messages_arguments]
        rfl
      · rw [honest.inputValue_arguments, honest.outputValue_arguments,
          Noir.Utxo.Witness.msgValue, messages_arguments]
        apply toBase_eq_add_sub
        rw [honest.toNat_inputValue, honest.toNat_outputValue]
        exact covers.2
      · rw [Noir.Utxo.Witness.msgHash, messages_arguments, Noir.Utxo.mintHash,
          outputNotes_arguments, outputNotes_arguments]
        exact (Element.toBase_fromBase _).symm
      · rw [Noir.Utxo.Witness.msgNoteKind, messages_arguments, outputNotes_arguments]
        rfl
  · next kindEq =>
      rw [kindEq] at covers
      exact honest.burn_rule (.inl rfl) covers.2 built
  · next kindEq =>
      rw [kindEq] at covers
      exact honest.burn_rule (.inr rfl) covers.2 built
  · next kindEq =>
      rw [kindEq] at covers
      exact covers.elim

/-- The difference of the sums is as small as the greater of them. -/
theorem val_toBase_sub {greater smaller : Element} (le : smaller.toNat ≤ greater.toNat)
    (small : greater.toNat < 2 ^ 241) :
    (greater - smaller).toBase.val = (greater - smaller).toNat := by
  apply val_toBase_of_lt
  rw [BitVec.toNat_sub_of_le (BitVec.le_def.mpr le)]
  exact Nat.lt_of_le_of_lt (Nat.sub_le _ _) small

/-- The third message is what is minted or burned. -/
theorem msgValue_lt_iff (honest : utxo.Honest poseidon contract)
    (built : utxo.messages poseidon = .ok messages) :
    (utxo.arguments poseidon messages).msgValue.val < 2 ^ 240 ↔
      utxo.minted.toNat < 2 ^ 240 ∧ utxo.burned.toNat < 2 ^ 240 := by
  have covers := honest.covers
  have zeroLt : Element.ZERO.toNat < 2 ^ 240 := by decide
  have outputLe := honest.toNat_outputValue
  have inputLe := honest.toNat_inputValue
  rw [Noir.Utxo.Witness.msgValue, messages_arguments, Utxo.minted, Utxo.burned]
  rw [Utxo.Covers] at covers
  have burns : ∀ kind, utxo.burnMessages poseidon kind = .ok messages →
      utxo.totalOut ≤ utxo.totalIn →
        (messages.get 2).toBase.val = (utxo.inputValue - utxo.outputValue).toNat := by
    intro kind made le
    rw [Utxo.burnMessages] at made
    split at made
    · cases made
      apply val_toBase_sub
      · rwa [inputLe, outputLe]
      · rw [inputLe]
        exact honest.totalIn_lt
    · cases made
  cases kindEq : utxo.kind with
  | send =>
      rw [Utxo.messages, kindEq] at built
      cases built
      exact iff_of_true zeroLt ⟨zeroLt, zeroLt⟩
  | mint =>
      rw [kindEq] at covers
      rw [Utxo.messages, kindEq] at built
      cases built
      have minted : (utxo.outputValue - utxo.inputValue).toBase.val =
          (utxo.outputValue - utxo.inputValue).toNat := by
        apply val_toBase_sub
        · rw [inputLe, outputLe]
          exact covers.2
        · rw [outputLe]
          exact honest.totalOut_lt
      rw [and_iff_left zeroLt, ← minted]
      rfl
  | burn =>
      rw [kindEq] at covers
      rw [Utxo.messages, kindEq] at built
      rw [and_iff_right zeroLt, burns 3 built covers.2]
  | noSub =>
      rw [kindEq] at covers
      rw [Utxo.messages, kindEq] at built
      rw [and_iff_right zeroLt, burns 4 built covers.2]
  | null =>
      rw [kindEq] at covers
      exact covers.elim

/-- The notes that are not padding have the kind of the token. -/
theorem uniform (honest : utxo.Honest poseidon contract) :
    Noir.Utxo.UniformKinds (utxo.arguments poseidon messages).notes := by
  refine ⟨contract.toBase, ?_⟩
  intro note mem notPadding
  simp only [Noir.Utxo.Witness.notes, inputNotes_arguments, outputNotes_arguments,
    List.mem_cons, List.not_mem_nil, or_false] at mem
  rcases mem with rfl | rfl | rfl | rfl
  · exact kind_bNote_of_honest (honest.inputs 0).noteHonest notPadding
  · exact kind_bNote_of_honest (honest.inputs 1).noteHonest notPadding
  · exact kind_bNote_of_honest (honest.outputs 0) notPadding
  · exact kind_bNote_of_honest (honest.outputs 1) notPadding

/-- The commitments of the four notes are accepted where the token is no padding. -/
theorem commits_iff (honest : utxo.Honest poseidon contract) :
    ((∀ index, Noir.Commits poseidon (utxo.inputNotes.get index).note.bNote
          ((utxo.inputNotes.get index).note.commitment poseidon).toBase) ∧
        ∀ index, Noir.Commits poseidon (utxo.outputNotes.get index).bNote
          ((utxo.outputNotes.get index).commitment poseidon).toBase) ↔
      utxo.Blank ∨ contract.toBase ≠ 0 := by
  simp only [commits_iff_of_honest (honest.inputs _).noteHonest,
    commits_iff_of_honest (honest.outputs _), forall_or_right, Utxo.Blank]
  tauto

/-- The arguments of an honest transaction pass all checks but those of the token and of
the third message. -/
theorem accepted_iff (honest : utxo.Honest poseidon contract)
    (built : utxo.messages poseidon = .ok messages) :
    Noir.Utxo.Accepted poseidon (utxo.arguments poseidon messages) ↔
      (utxo.Blank ∨ contract.toBase ≠ 0) ∧
        utxo.minted.toNat < 2 ^ 240 ∧ utxo.burned.toNat < 2 ^ 240 := by
  have output_lt : ∀ index,
      ((utxo.arguments poseidon messages).outputNotes.get index).value.val < 2 ^ 240 := by
    intro index
    have small := value_lt_of_honest (honest.outputs index)
    rw [outputNotes_arguments]
    exact (val_toBase_of_lt (Nat.lt_trans small (by decide))).trans_lt small
  have owned : ∀ index, Noir.Utxo.Owned poseidon
      ((utxo.arguments poseidon messages).inputNotes.get index) := by
    intro index
    rw [inputNotes_arguments]
    exact (honest.inputs index).owned
  rw [← honest.msgValue_lt_iff built, ← honest.commits_iff, Fin.forall_fin_two,
    Fin.forall_fin_two]
  constructor
  · intro accepted
    have input0 := accepted.input0
    have input1 := accepted.input1
    have output0 := accepted.output0
    have output1 := accepted.output1
    rw [inputNotes_arguments] at input0 input1
    rw [outputNotes_arguments] at output0 output1
    exact ⟨⟨⟨input0, input1⟩, output0, output1⟩, accepted.msgValue_lt⟩
  · rintro ⟨⟨⟨input0, input1⟩, output0, output1⟩, msgValue_lt⟩
    constructor
    · rw [inputNotes_arguments]
      exact input0
    · rw [inputNotes_arguments]
      exact input1
    · rw [outputNotes_arguments]
      exact output0
    · rw [outputNotes_arguments]
      exact output1
    · exact output_lt 0
    · exact output_lt 1
    · exact honest.uniform
    · exact msgValue_lt
    · exact honest.rule built
    · exact owned 0
    · exact owned 1

end Utxo.Honest

/-- The messages of a transaction can be computed unless it burns to nowhere. -/
theorem exists_messages_iff :
    (∃ messages, utxo.messages poseidon = .ok messages) ↔
      (utxo.kind = .burn ∨ utxo.kind = .noSub → utxo.burnAddress.isSome) := by
  have burns : ∀ kind, (∃ messages, utxo.burnMessages poseidon kind = .ok messages) ↔
      utxo.burnAddress.isSome := by
    intro kind
    rw [Utxo.burnMessages]
    cases utxo.burnAddress with
    | none => exact iff_of_false (fun ⟨_, made⟩ => nomatch made) nofun
    | some burnAddress => exact iff_of_true ⟨_, rfl⟩ rfl
  rw [Utxo.messages]
  cases utxo.kind with
  | send | mint | null => exact iff_of_true ⟨_, rfl⟩ nofun
  | burn => exact (burns 3).trans ⟨fun isSome _ => isSome, fun isSome => isSome (.inl rfl)⟩
  | noSub => exact (burns 4).trans ⟨fun isSome _ => isSome, fun isSome => isSome (.inr rfl)⟩

/-- The circuit's public inputs are the residues of those of the transaction. -/
@[simp]
theorem publicInputs_arguments :
    (utxo.arguments poseidon messages).publicInputs =
      (utxo.publicWords poseidon messages).residues := by
  have pair : ∀ first second : Element,
      Vector.map Element.toBase #v[first, second] = #v[first.toBase, second.toBase] := by simp
  rw [UtxoPublicInput.residues, UtxoPublicInput.fields, Vector.map_append,
    UtxoPublicInput.commitments, Vector.map_append, Utxo.publicWords, pair, pair]
  rfl

end

/-- For every transaction of honest notes whose values cover its kind: the arguments that
the wallet builds are accepted by the circuit, with the residues of the transaction's
public inputs, exactly when the token is no padding, a burn has an address and what is
minted or burned is below the bound of the circuit. -/
theorem honest_proves_iff {poseidon : Poseidon} {contract : Element} {utxo : Utxo}
    (honest : utxo.Honest poseidon contract) :
    (∃ witness inputs, utxo.utxoInput poseidon = .ok witness ∧
        utxo.publicInputs poseidon = .ok inputs ∧
        Noir.Utxo.main poseidon witness = .ok () ∧ witness.publicInputs = inputs.residues) ↔
      utxo.Provable contract := by
  constructor
  · rintro ⟨witness, inputs, witnessEq, _, accepted, _⟩
    rcases bind_eq_ok_iff.mp witnessEq with ⟨messages, built, argumentsEq⟩
    cases argumentsEq
    rcases (honest.accepted_iff built).mp (Noir.Utxo.main_eq_ok_iff.mp accepted) with
      ⟨token, bounded⟩
    exact ⟨token, exists_messages_iff.mp ⟨messages, built⟩, bounded⟩
  · intro provable
    have computed : ∃ messages, utxo.messages poseidon = .ok messages :=
      exists_messages_iff.mpr provable.addressed
    rcases computed with ⟨messages, built⟩
    have accepted := (honest.accepted_iff built).mpr ⟨provable.token, provable.bounded⟩
    refine ⟨utxo.arguments poseidon messages, utxo.publicWords poseidon messages, ?_, ?_,
      Noir.Utxo.main_eq_ok_iff.mpr accepted, publicInputs_arguments⟩
    · rw [Utxo.utxoInput, built]
      rfl
    · rw [Utxo.publicInputs, built]
      rfl

/-! ## Mints and burns of one token -/

/-- A mint of two notes of one value. -/
def twoNoteMint (contract value : Element) : Utxo :=
  Utxo.newMint #v[⟨2, contract, 7, 1, value⟩, ⟨2, contract, 7, 1, value⟩]

theorem twoNoteMint_honest {value : Element} (valuable : value ≠ Element.ZERO)
    (small : value.toNat < 2 ^ 240) (poseidon : Poseidon) (contract : Element) :
    (twoNoteMint contract value).Honest poseidon contract := by
  have note : (⟨2, contract, 7, 1, value⟩ : Note).Honest contract := ⟨rfl, rfl, valuable, small⟩
  constructor
  · exact Fin.forall_fin_two.mpr ⟨.inl rfl, .inl rfl⟩
  · exact Fin.forall_fin_two.mpr ⟨.inr note, .inr note⟩
  · exact ⟨note.ne_paddingNote, Nat.zero_le _⟩

/-- Two notes of five are minted. -/
theorem smallMint_proves :
    (twoNoteMint citreaWcbtcNoteKind 5).Honest firstWord citreaWcbtcNoteKind ∧
      ∃ witness inputs,
        (twoNoteMint citreaWcbtcNoteKind 5).utxoInput firstWord = .ok witness ∧
          (twoNoteMint citreaWcbtcNoteKind 5).publicInputs firstWord = .ok inputs ∧
          Noir.Utxo.main firstWord witness = .ok () ∧
          witness.publicInputs = inputs.residues := by
  have honest := twoNoteMint_honest (show (5 : Element) ≠ Element.ZERO by decide) (by decide)
    firstWord citreaWcbtcNoteKind
  refine ⟨honest, (honest_proves_iff honest).mpr ?_⟩
  constructor
  · exact .inr citreaWcbtcNoteKind_toBase_ne_zero
  · exact nofun
  · decide

/-- A burn of one note without an address. -/
def burnToNowhere (poseidon : Poseidon) : Utxo :=
  { Utxo.newBurn
      #v[⟨⟨2, citreaWcbtcNoteKind, getAddressForPrivateKey poseidon 9, 1, 5⟩, 9⟩,
        InputNote.paddingNote] Element.ZERO with
    burnAddress := none }

theorem burnToNowhere_honest (poseidon : Poseidon) :
    (burnToNowhere poseidon).Honest poseidon citreaWcbtcNoteKind := by
  have note : ((burnToNowhere poseidon).inputNotes.get 0).note.Honest citreaWcbtcNoteKind :=
    ⟨rfl, rfl, show (5 : Element) ≠ Element.ZERO by decide,
      show (5 : Element).toNat < 2 ^ 240 by decide⟩
  constructor
  · exact Fin.forall_fin_two.mpr ⟨.inr ⟨note, rfl⟩, .inl rfl⟩
  · exact Fin.forall_fin_two.mpr ⟨.inl rfl, .inl rfl⟩
  · exact ⟨note.ne_paddingNote, Nat.zero_le _⟩

/-- Honest transactions that do not prove: two notes of half the bound are minted, the
token is the order of the field, a burn has no address. -/
theorem honest_not_accepted :
    (∀ poseidon : Poseidon,
      (twoNoteMint citreaWcbtcNoteKind (1 <<< 239)).Honest poseidon citreaWcbtcNoteKind ∧
        ∀ witness,
          (twoNoteMint citreaWcbtcNoteKind (1 <<< 239)).utxoInput poseidon = .ok witness →
            Noir.Utxo.main poseidon witness ≠ .ok ()) ∧
      (∀ poseidon : Poseidon, (twoNoteMint Element.MODULUS 5).Honest poseidon Element.MODULUS ∧
        ∀ witness, (twoNoteMint Element.MODULUS 5).utxoInput poseidon = .ok witness →
          Noir.Utxo.main poseidon witness ≠ .ok ()) ∧
      ∀ poseidon : Poseidon, (burnToNowhere poseidon).Honest poseidon citreaWcbtcNoteKind ∧
        (burnToNowhere poseidon).utxoInput poseidon =
          .error "called `Option::unwrap()` on a `None` value" := by
  refine ⟨fun poseidon => ?_, fun poseidon => ?_,
    fun poseidon => ⟨burnToNowhere_honest poseidon, rfl⟩⟩
  · have large := twoNoteMint_honest (show (1 <<< 239 : Element) ≠ Element.ZERO by decide)
      (by decide) poseidon citreaWcbtcNoteKind
    refine ⟨large, fun witness witnessEq accepted => ?_⟩
    rcases bind_eq_ok_iff.mp witnessEq with ⟨messages, built, argumentsEq⟩
    cases argumentsEq
    have bounded := ((large.accepted_iff built).mp (Noir.Utxo.main_eq_ok_iff.mp accepted)).2.1
    exact absurd bounded (by decide)
  · have unknown := twoNoteMint_honest (show (5 : Element) ≠ Element.ZERO by decide) (by decide)
      poseidon Element.MODULUS
    refine ⟨unknown, fun witness witnessEq accepted => ?_⟩
    rcases bind_eq_ok_iff.mp witnessEq with ⟨messages, built, argumentsEq⟩
    cases argumentsEq
    rcases ((unknown.accepted_iff built).mp (Noir.Utxo.main_eq_ok_iff.mp accepted)).1 with
      blank | notPadding
    · exact absurd (blank.2 0) (by decide)
    · exact notPadding (by decide)

end Ciphera.Cli
