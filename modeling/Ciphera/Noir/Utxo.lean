import Ciphera.Noir.Common

/-!
# The transaction circuit

A transaction spends two notes and creates two; padding notes stand for the
missing ones.  The first public message selects the rule that balances the
two sides: a send, a mint or one of two kinds of burn.
-/

namespace Ciphera.Noir.Utxo

open Ciphera.Lib

/-- The arguments of the circuit.  `commitments` and `messages` are public. -/
structure Witness where
  inputNotes : Vector InputNote 2
  outputNotes : Vector Note 2
  pmessage4 : Base
  commitments : Vector Base 4
  messages : Vector Base 5
  deriving DecidableEq, Repr

namespace Witness

/-- The public inputs in the order of the circuit's declaration. -/
def publicInputs (witness : Witness) : Vector Base 9 :=
  witness.commitments ++ witness.messages

/-- The four notes, inputs before outputs. -/
def notes (witness : Witness) : List Note :=
  [(witness.inputNotes.get 0).note, (witness.inputNotes.get 1).note,
    witness.outputNotes.get 0, witness.outputNotes.get 1]

/-- The sum of the values of the inputs. -/
def inputValue (witness : Witness) : Base :=
  (witness.inputNotes.get 0).note.value + (witness.inputNotes.get 1).note.value

/-- The sum of the values of the outputs. -/
def outputValue (witness : Witness) : Base :=
  (witness.outputNotes.get 0).value + (witness.outputNotes.get 1).value

/-- The first message, which selects the balancing rule. -/
def kind (witness : Witness) : Base := witness.messages.get 0

/-- The kind of notes in the messages. -/
def msgNoteKind (witness : Witness) : Base := witness.messages.get 1

/-- The value in the messages. -/
def msgValue (witness : Witness) : Base := witness.messages.get 2

/-- The hash in the messages. -/
def msgHash (witness : Witness) : Base := witness.messages.get 3

/-- The address of a burn in the messages. -/
def burnAddr (witness : Witness) : Base := witness.messages.get 4

end Witness

/-- One round of the scan for mismatched kinds: the flag raised so far and the
first kind that is not padding. -/
def multipleKindsStep (found : Bool × Base) (note : Note) : Bool × Base :=
  if found.1 then found
  else if note.kind ≠ 0 then
    if found.2 = 0 then (found.1, note.kind)
    else if found.2 ≠ note.kind then (true, found.2)
    else found
  else found

/-- Whether the notes that are not padding differ in kind, and the first such kind. -/
def isMultipleKinds (notes : List Note) : Bool × Base :=
  notes.foldl multipleKindsStep (false, 0)

variable (poseidon : Poseidon)

/-- The hash of a mint, over the secrets of its outputs. -/
def mintHash (witness : Witness) : Base :=
  poseidon [(witness.outputNotes.get 0).psi, (witness.outputNotes.get 1).psi]

/-- The balancing rule of each kind of transaction. -/
def checkKind (witness : Witness) : Circuit Unit :=
  if witness.kind = 1 then
    check (witness.inputValue = witness.outputValue) "Input and output totals do not match"
  else if witness.kind = 2 then do
    check (witness.outputValue = witness.inputValue + witness.msgValue)
      "Mint output must match value message"
    check (mintHash poseidon witness = witness.msgHash) "Mint hash must match message"
    check ((witness.outputNotes.get 0).kind = witness.msgNoteKind)
      "Mint note kind must match message"
  else if witness.kind = 3 ∨ witness.kind = 4 then do
    check (witness.pmessage4 = witness.burnAddr) "messages[4] must match private input"
    check (witness.commitments.get 0 = witness.msgHash) "Burn hash must match message"
    check (witness.inputValue = witness.outputValue + witness.msgValue)
      "Burn output must match value message"
    check ((witness.inputNotes.get 0).note.kind = witness.msgNoteKind)
      "Burn note kind must match message"
  else
    .error "Invalid kind"

/-- The circuit: commitments, ranges, kinds, keys, and the balance that the kind of the
transaction asks for. -/
def main (witness : Witness) : Circuit Unit := do
  checkCommitment poseidon (witness.inputNotes.get 0).note (witness.commitments.get 0)
  checkCommitment poseidon (witness.inputNotes.get 1).note (witness.commitments.get 1)
  checkCommitment poseidon (witness.outputNotes.get 0) (witness.commitments.get 2)
  checkCommitment poseidon (witness.outputNotes.get 1) (witness.commitments.get 3)
  assertMaxBitSize (witness.outputNotes.get 0).value 240
  assertMaxBitSize (witness.outputNotes.get 1).value 240
  check ((isMultipleKinds witness.notes).1 = false) "Inconsistent kinds are not allowed"
  assertMaxBitSize witness.msgValue 240
  checkKind poseidon witness
  checkInputNoteOwnership poseidon (witness.inputNotes.get 0)
  checkInputNoteOwnership poseidon (witness.inputNotes.get 1)

/-! ## What an accepted witness satisfies -/

/-- The notes that are not padding share one kind. -/
def UniformKinds (notes : List Note) : Prop :=
  ∃ kind, ∀ note ∈ notes, note.kind ≠ 0 → note.kind = kind

/-- The rule of the kind selected by the first message. -/
inductive KindRule (witness : Witness) : Prop
  | send (kindEq : witness.kind = 1) (balance : witness.inputValue = witness.outputValue)
  | mint (kindEq : witness.kind = 2)
      (balance : witness.outputValue = witness.inputValue + witness.msgValue)
      (hashEq : mintHash poseidon witness = witness.msgHash)
      (noteKindEq : (witness.outputNotes.get 0).kind = witness.msgNoteKind)
  | burn (kindEq : witness.kind = 3 ∨ witness.kind = 4)
      (addressEq : witness.pmessage4 = witness.burnAddr)
      (hashEq : witness.commitments.get 0 = witness.msgHash)
      (balance : witness.inputValue = witness.outputValue + witness.msgValue)
      (noteKindEq : (witness.inputNotes.get 0).note.kind = witness.msgNoteKind)

/-- A note with value is spent by the holder of its key. -/
def Owned (inputNote : InputNote) : Prop :=
  inputNote.note.value ≠ 0 → getAddress poseidon inputNote.secretKey = inputNote.note.address

/-- Everything the circuit asserts of its arguments. -/
structure Accepted (witness : Witness) : Prop where
  input0 : Commits poseidon (witness.inputNotes.get 0).note (witness.commitments.get 0)
  input1 : Commits poseidon (witness.inputNotes.get 1).note (witness.commitments.get 1)
  output0 : Commits poseidon (witness.outputNotes.get 0) (witness.commitments.get 2)
  output1 : Commits poseidon (witness.outputNotes.get 1) (witness.commitments.get 3)
  output0_lt : (witness.outputNotes.get 0).value.val < 2 ^ 240
  output1_lt : (witness.outputNotes.get 1).value.val < 2 ^ 240
  uniform : UniformKinds witness.notes
  msgValue_lt : witness.msgValue.val < 2 ^ 240
  rule : KindRule poseidon witness
  owned0 : Owned poseidon (witness.inputNotes.get 0)
  owned1 : Owned poseidon (witness.inputNotes.get 1)

variable {poseidon}

/-- Once raised, the flag stays raised. -/
@[simp]
theorem foldl_multipleKindsStep_raised (notes : List Note) (kind : Base) :
    (notes.foldl multipleKindsStep (true, kind)).1 = true := by
  induction notes with
  | nil => rfl
  | cons note notes ih => simpa [multipleKindsStep] using ih

/-- The scan after a first kind has been found. -/
theorem foldl_multipleKindsStep_found {kind : Base} (found : kind ≠ 0) (notes : List Note) :
    (notes.foldl multipleKindsStep (false, kind)).1 = false ↔
      ∀ note ∈ notes, note.kind ≠ 0 → note.kind = kind := by
  induction notes with
  | nil => simp
  | cons note notes ih =>
      by_cases padding : note.kind = 0
      · simpa [multipleKindsStep, padding] using ih
      · by_cases same : kind = note.kind
        · subst kind
          simpa [multipleKindsStep, padding] using ih
        · have raised := foldl_multipleKindsStep_raised notes kind
          simp only [List.foldl_cons, multipleKindsStep, Bool.false_eq_true, if_false, ne_eq,
            padding, not_false_eq_true, if_true, found, same, raised, List.mem_cons,
            forall_eq_or_imp, Bool.true_eq_false, false_iff, not_and]
          exact fun equal => absurd (equal trivial).symm same

@[simp]
theorem isMultipleKinds_eq_false_iff (notes : List Note) :
    (isMultipleKinds notes).1 = false ↔ UniformKinds notes := by
  unfold isMultipleKinds
  induction notes with
  | nil => simp [UniformKinds]
  | cons note notes ih =>
      by_cases padding : note.kind = 0
      · simpa [multipleKindsStep, padding, UniformKinds] using ih
      · have step : multipleKindsStep (false, 0) note = (false, note.kind) := by
          simp [multipleKindsStep, padding]
        rw [List.foldl_cons, step, foldl_multipleKindsStep_found padding]
        constructor
        · intro agree
          exact ⟨note.kind, fun other mem notPadding => by
            rcases List.mem_cons.mp mem with rfl | mem
            · rfl
            · exact agree other mem notPadding⟩
        · rintro ⟨kind, agree⟩ other mem notPadding
          rw [agree other (List.mem_cons_of_mem _ mem) notPadding,
            agree note List.mem_cons_self padding]

@[simp]
theorem checkKind_eq_ok_iff {witness : Witness} {done : Unit} :
    checkKind poseidon witness = .ok done ↔ KindRule poseidon witness := by
  unfold checkKind
  constructor
  · intro accepted
    split_ifs at accepted with send mint burn
    · exact .send send (by simpa using accepted)
    · simp only [bind_eq_ok_iff, check_eq_ok_iff, exists_and_left, exists_const] at accepted
      exact .mint mint accepted.1 accepted.2.1 accepted.2.2
    · simp only [bind_eq_ok_iff, check_eq_ok_iff, exists_and_left, exists_const] at accepted
      exact .burn burn accepted.1 accepted.2.1 accepted.2.2.1 accepted.2.2.2
  · intro rule
    cases rule with
    | send kindEq balance => simp [kindEq, balance]
    | mint kindEq balance hashEq noteKindEq => simp [kindEq, balance, hashEq, noteKindEq]
    | burn kindEq addressEq hashEq balance noteKindEq =>
        rcases kindEq with kindEq | kindEq <;>
          simp [kindEq, balance, addressEq, hashEq, noteKindEq]

@[simp]
theorem checkInputNoteOwnership_eq_ok_iff {inputNote : InputNote} {done : Unit} :
    checkInputNoteOwnership poseidon inputNote = .ok done ↔ Owned poseidon inputNote := by
  unfold checkInputNoteOwnership Owned
  by_cases worthless : inputNote.note.value = 0 <;> simp [worthless]

/-- The circuit accepts exactly the witnesses that satisfy all its
assertions. -/
@[simp]
theorem main_eq_ok_iff {witness : Witness} {done : Unit} :
    main poseidon witness = .ok done ↔ Accepted poseidon witness := by
  simp only [main, bind_eq_ok_iff, checkCommitment_eq_ok_iff, assertMaxBitSize_eq_ok_iff,
    check_eq_ok_iff, isMultipleKinds_eq_false_iff, checkKind_eq_ok_iff,
    checkInputNoteOwnership_eq_ok_iff, exists_and_left, exists_const]
  constructor
  · rintro ⟨input0, input1, output0, output1, lt0, lt1, uniform, valueLt, rule, owned0, owned1⟩
    exact ⟨input0, input1, output0, output1, lt0, lt1, uniform, valueLt, rule, owned0, owned1⟩
  · rintro ⟨input0, input1, output0, output1, lt0, lt1, uniform, valueLt, rule, owned0, owned1⟩
    exact ⟨input0, input1, output0, output1, lt0, lt1, uniform, valueLt, rule, owned0, owned1⟩

end Ciphera.Noir.Utxo
