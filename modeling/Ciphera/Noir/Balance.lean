import Ciphera.Noir.Utxo

/-!
# What a transaction conserves

The circuit balances field sums.  Because every output, every message value
and every note already in the tree is below `2 ^ 240`, no sum reaches the
field order and the balance holds between natural numbers.

The second part compares the note kind announced to the contract with the
kind of the notes.  The circuit reads the announced kind off one fixed note,
which may be padding.
-/

namespace Ciphera.Noir.Utxo

open Ciphera.Lib

variable {poseidon : Poseidon}

/-! ## Natural number balance -/

theorem val_add_of_lt {first second : Base} {bits : Nat} (bits_le : bits ≤ 242)
    (first_lt : first.val < 2 ^ bits) (second_lt : second.val < 2 ^ bits) :
    (first + second).val = first.val + second.val := by
  have pow_le : 2 ^ bits ≤ 2 ^ 242 := Nat.pow_le_pow_right (by omega) bits_le
  have room : 2 ^ 242 + 2 ^ 242 ≤ modulus := by decide
  rw [Fin.val_add, Nat.mod_eq_of_lt (by omega)]

namespace Witness

/-- The total value of the spent notes, as a natural number. -/
def inputTotal (witness : Witness) : Nat :=
  (witness.inputNotes.get 0).note.value.val + (witness.inputNotes.get 1).note.value.val

/-- The total value of the created notes, as a natural number. -/
def outputTotal (witness : Witness) : Nat :=
  (witness.outputNotes.get 0).value.val + (witness.outputNotes.get 1).value.val

/-- The value that enters through a mint message. -/
def mintValue (witness : Witness) : Nat :=
  if witness.kind = 2 then witness.msgValue.val else 0

/-- The value that leaves through a burn message. -/
def burnValue (witness : Witness) : Nat :=
  if witness.kind = 3 ∨ witness.kind = 4 then witness.msgValue.val else 0

/-- The bound that the tree guarantees for spent notes. -/
def InputsBounded (witness : Witness) : Prop :=
  ∀ inputNote ∈ witness.inputNotes.toList,
    inputNote.note.kind ≠ 0 → inputNote.note.value.val < 2 ^ 240

end Witness

theorem Commits.value_lt {note : Note} {commitment : Base}
    (commits : Commits poseidon note commitment)
    (bounded : note.kind ≠ 0 → note.value.val < 2 ^ 240) : note.value.val < 2 ^ 240 := by
  by_cases padding : note.kind = 0
  · rw [commits.value_eq_zero padding]
    exact Nat.two_pow_pos 240
  · exact bounded padding

/-- Field balance is natural number balance as long as every summand is below
`2 ^ 240`. -/
theorem Accepted.total_eq {witness : Witness} (accepted : Accepted poseidon witness)
    (bounded : witness.InputsBounded) :
    witness.inputTotal + witness.mintValue = witness.outputTotal + witness.burnValue := by
  have mem0 : witness.inputNotes.get 0 ∈ witness.inputNotes.toList := by
    simp [get_eq_getElem]
  have mem1 : witness.inputNotes.get 1 ∈ witness.inputNotes.toList := by
    simp [get_eq_getElem]
  have input0_lt := Commits.value_lt accepted.input0 (bounded _ mem0)
  have input1_lt := Commits.value_lt accepted.input1 (bounded _ mem1)
  have inputEq : witness.inputValue.val = witness.inputTotal :=
    val_add_of_lt (by omega) input0_lt input1_lt
  have outputEq : witness.outputValue.val = witness.outputTotal :=
    val_add_of_lt (by omega) accepted.output0_lt accepted.output1_lt
  have inputLt : witness.inputValue.val < 2 ^ 241 := by
    rw [inputEq, Witness.inputTotal]
    omega
  have outputLt : witness.outputValue.val < 2 ^ 241 := by
    rw [outputEq, Witness.outputTotal]
    have lt0 := accepted.output0_lt
    have lt1 := accepted.output1_lt
    omega
  have valueLt : witness.msgValue.val < 2 ^ 241 :=
    accepted.msgValue_lt.trans_le (Nat.pow_le_pow_right (by omega) (by omega))
  cases accepted.rule with
  | send kindEq balance =>
      have totals := congrArg Fin.val balance
      rw [inputEq, outputEq] at totals
      simp [Witness.mintValue, Witness.burnValue, kindEq, totals]
  | mint kindEq balance hashEq noteKindEq =>
      have totals := congrArg Fin.val balance
      rw [val_add_of_lt (by omega) inputLt valueLt, inputEq, outputEq] at totals
      simp [Witness.mintValue, Witness.burnValue, kindEq, totals]
  | burn kindEq addressEq hashEq balance noteKindEq =>
      have totals := congrArg Fin.val balance
      rw [val_add_of_lt (by omega) outputLt valueLt, inputEq, outputEq] at totals
      rcases kindEq with kindEq | kindEq <;>
        simp [Witness.mintValue, Witness.burnValue, kindEq, totals]

/-! ## The announced note kind -/

/-- `kind` is the one kind, other than padding, that occurs among the notes. -/
def AssetOf (notes : List Note) (kind : Base) : Prop :=
  kind ≠ 0 ∧ (∃ note ∈ notes, note.kind = kind) ∧
    ∀ note ∈ notes, note.kind ≠ 0 → note.kind = kind

theorem UniformKinds.assetOf {notes : List Note} (uniform : UniformKinds notes)
    {note : Note} (mem : note ∈ notes) (notPadding : note.kind ≠ 0) :
    AssetOf notes note.kind := by
  obtain ⟨kind, agree⟩ := uniform
  refine ⟨notPadding, ⟨note, mem, rfl⟩, fun other otherMem otherNotPadding => ?_⟩
  rw [agree other otherMem otherNotPadding, agree note mem notPadding]

/-- The announced kind is the kind of the notes exactly when the note it is
read from, the first output of a mint or the first input of a burn, is not
padding. -/
theorem msgNoteKind_assetOf_iff {witness : Witness}
    (accepted : main poseidon witness = .ok ())
    (mintOrBurn : witness.kind = 2 ∨ witness.kind = 3 ∨ witness.kind = 4) :
    AssetOf witness.notes witness.msgNoteKind ↔
      (witness.kind = 2 → (witness.outputNotes.get 0).kind ≠ 0) ∧
        (witness.kind = 3 ∨ witness.kind = 4 → (witness.inputNotes.get 0).note.kind ≠ 0) := by
  have conditions := main_eq_ok_iff.mp accepted
  cases conditions.rule with
  | send kindEq balance => rw [kindEq] at mintOrBurn; exact absurd mintOrBurn (by decide)
  | mint kindEq balance hashEq noteKindEq =>
      rw [← noteKindEq, kindEq]
      have notBurn : ¬((2 : Base) = 3 ∨ (2 : Base) = 4) := by decide
      constructor
      · intro asset
        exact ⟨fun _ => asset.1, fun burn => absurd burn notBurn⟩
      · rintro ⟨notPadding, _⟩
        exact conditions.uniform.assetOf (by simp [Witness.notes]) (notPadding rfl)
  | burn kindEq addressEq hashEq balance noteKindEq =>
      rw [← noteKindEq]
      have notMint : witness.kind ≠ 2 := by rcases kindEq with kindEq | kindEq <;> simp [kindEq]
      constructor
      · intro asset
        exact ⟨fun mint => absurd mint notMint, fun _ => asset.1⟩
      · rintro ⟨_, notPadding⟩
        exact conditions.uniform.assetOf (by simp [Witness.notes]) (notPadding kindEq)

/-- The note that fills a free place. -/
def paddingNote : Note := ⟨0, 0, 0, 0⟩

/-- A note of kind seven and value five held by key one. -/
def heldNote (poseidon : Poseidon) : InputNote :=
  ⟨⟨7, 5, getAddress poseidon 1, 0⟩, 1⟩

/-- Burn the held note to address nine, with padding in the second position. -/
def burnFromFirst (poseidon : Poseidon) : Witness where
  inputNotes := #v[heldNote poseidon, ⟨paddingNote, 0⟩]
  outputNotes := #v[paddingNote, paddingNote]
  pmessage4 := 9
  commitments := #v[noteHash poseidon (heldNote poseidon).note, 0, 0, 0]
  messages := #v[3, 7, 5, noteHash poseidon (heldNote poseidon).note, 9]

/-- Burn the held note to address nine, with padding in the first position.
The circuit then forces the announced kind and hash to be zero. -/
def burnFromSecond (poseidon : Poseidon) : Witness where
  inputNotes := #v[⟨paddingNote, 0⟩, heldNote poseidon]
  outputNotes := #v[paddingNote, paddingNote]
  pmessage4 := 9
  commitments := #v[0, noteHash poseidon (heldNote poseidon).note, 0, 0]
  messages := #v[3, 0, 5, 0, 9]

theorem burnFromFirst_accepted (poseidon : Poseidon) :
    main poseidon (burnFromFirst poseidon) = .ok () := by
  apply main_eq_ok_iff.mpr
  constructor
  case uniform => exact ⟨7, by simp [Witness.notes, burnFromFirst, heldNote, paddingNote, get_eq_getElem]⟩
  case rule => exact .burn (Or.inl rfl) rfl rfl rfl rfl
  case msgValue_lt => exact (by decide : (5 : Base).val < 2 ^ 240)
  all_goals
    simp [burnFromFirst, heldNote, paddingNote, Commits, Owned, get_eq_getElem]

theorem burnFromSecond_accepted (poseidon : Poseidon) :
    main poseidon (burnFromSecond poseidon) = .ok () := by
  apply main_eq_ok_iff.mpr
  constructor
  case uniform => exact ⟨7, by simp [Witness.notes, burnFromSecond, heldNote, paddingNote, get_eq_getElem]⟩
  case rule => exact .burn (Or.inl rfl) rfl rfl rfl rfl
  case msgValue_lt => exact (by decide : (5 : Base).val < 2 ^ 240)
  all_goals
    simp [burnFromSecond, heldNote, paddingNote, Commits, Owned, get_eq_getElem]

theorem burnFromFirst_assetOf :
    (∀ poseidon, main poseidon (burnFromFirst poseidon) = .ok ()) ∧
      ∀ poseidon, (burnFromFirst poseidon).msgValue ≠ 0 ∧
        AssetOf (burnFromFirst poseidon).notes (burnFromFirst poseidon).msgNoteKind := by
  refine ⟨burnFromFirst_accepted, fun poseidon => ⟨by simp [burnFromFirst, Witness.msgValue, get_eq_getElem], ?_⟩⟩
  apply (msgNoteKind_assetOf_iff (burnFromFirst_accepted poseidon) (Or.inr (Or.inl rfl))).mpr
  simp [burnFromFirst, heldNote, Witness.kind, get_eq_getElem]

/-- Whatever the hash, five units of kind seven leave under kind zero. -/
theorem burnFromSecond_not_assetOf :
    (∀ poseidon, main poseidon (burnFromSecond poseidon) = .ok ()) ∧
      ∀ poseidon, (burnFromSecond poseidon).kind = 3 ∧ (burnFromSecond poseidon).msgValue ≠ 0 ∧
        ¬AssetOf (burnFromSecond poseidon).notes (burnFromSecond poseidon).msgNoteKind := by
  refine ⟨burnFromSecond_accepted, fun poseidon => ⟨rfl, ?_, fun asset => asset.1 rfl⟩⟩
  simp [burnFromSecond, Witness.msgValue, get_eq_getElem]

end Ciphera.Noir.Utxo
