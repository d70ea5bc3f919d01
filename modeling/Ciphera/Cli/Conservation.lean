import Ciphera.Cli.Effects
import Ciphera.Lib.Run

/-!
# Conservation of value in a wallet

A transaction of the wallet puts out what it takes in and what it mints, less what it
burns.  The wallet gives up the notes that it spends, keeps the change and what it
receives, and its balance is the value of all its notes.  The wallet reads one limb of a
value, and adds up in one limb: this holds as long as the values fit into it.
-/

namespace Ciphera.Cli

open Ciphera.Lib Ciphera.Zk
open Ciphera.Noir (Poseidon)

/-- The value of some notes. -/
def total (notes : Multiset Note) : Nat := (notes.map fun note => note.value.toNat).sum

@[simp]
theorem total_add (first second : Multiset Note) :
    total (first + second) = total first + total second := by
  rw [total, Multiset.map_add, Multiset.sum_add]
  rfl

@[simp]
theorem total_singleton (note : Note) : total {note} = note.value.toNat := by
  rw [total, Multiset.map_singleton, Multiset.sum_singleton]

@[simp]
theorem total_cons (note : Note) (notes : List Note) :
    total ↑(note :: notes) = note.value.toNat + total ↑notes := by
  rw [← Multiset.cons_coe, ← Multiset.singleton_add, total_add, total_singleton]

@[simp]
theorem toNat_amount (note : Note) : note.amount.toNat = note.value.toNat % 2 ^ 64 :=
  BitVec.toNat_setWidth _ _

/-- The amount is the value exactly when the value fits into one limb. -/
@[simp]
theorem toNat_amount_eq_iff (note : Note) :
    note.amount.toNat = note.value.toNat ↔ note.value.toNat < 2 ^ 64 := by
  rw [toNat_amount]
  constructor
  · intro same
    rw [← same]
    exact Nat.mod_lt _ (Nat.two_pow_pos 64)
  · exact Nat.mod_eq_of_lt

/-- The amounts add up to the value, up to overflow. -/
theorem toNat_sum_amount (notes : Multiset Note) :
    (notes.map Note.amount).sum.toNat = total notes % 2 ^ 64 := by
  induction notes using Multiset.induction_on with
  | empty => rfl
  | cons note notes ih =>
      rw [← Multiset.singleton_add, total_add, total_singleton, Multiset.map_add,
        Multiset.map_singleton, Multiset.sum_add, Multiset.sum_singleton, BitVec.toNat_add, ih,
        toNat_amount, ← Nat.add_mod]

theorem sum_toNat_amount {notes : List InputNote}
    (small : total ↑(notes.map InputNote.note) < 2 ^ 64) :
    (notes.map fun other => other.note.amount.toNat).sum = total ↑(notes.map InputNote.note) := by
  induction notes with
  | nil => rfl
  | cons first notes ih =>
      rw [List.map_cons, total_cons] at small
      rw [List.map_cons, List.sum_cons, List.map_cons, total_cons, ih (by omega),
        (toNat_amount_eq_iff first.note).mpr (by omega)]

/-! ## Balanced transactions -/

namespace Utxo

variable {inputs : Vector InputNote 2} {outputs : Vector Note 2} {note : Note}

@[simp]
theorem balanced_newSend_iff :
    (newSend inputs outputs).Balanced ↔
      (inputs.get 0).note.value.toNat + (inputs.get 1).note.value.toNat =
        (outputs.get 0).value.toNat + (outputs.get 1).value.toNat :=
  Iff.rfl

@[simp]
theorem balanced_newMint : (newMint #v[note, Note.paddingNote]).Balanced := by
  change 0 + 0 + ((note.value + 0#256) - (0#256 + 0#256)).toNat = note.value.toNat + 0 + 0
  simp

@[simp]
theorem balanced_newBurn {burnerNote : InputNote} {evmAddress : Element} :
    (newBurn #v[burnerNote, InputNote.paddingNote] evmAddress).Balanced := by
  change burnerNote.note.value.toNat + 0 + 0 =
    0 + 0 + ((burnerNote.note.value + 0#256) - (0#256 + 0#256)).toNat
  simp

@[simp]
theorem balanced_newBurnNoSub {burnerNote : InputNote} {evmAddress : Element} :
    (newBurnNoSub #v[burnerNote, InputNote.paddingNote] evmAddress).Balanced := by
  change burnerNote.note.value.toNat + 0 + 0 =
    0 + 0 + ((burnerNote.note.value + 0#256) - (0#256 + 0#256)).toNat
  simp

end Utxo

/-- The value of the inputs is that of the chosen notes. -/
theorem value_of_inputsOf {selected : List InputNote} {inputs : Vector InputNote 2}
    (chosen : inputsOf selected = .ok inputs) :
    (inputs.get 0).note.value.toNat + (inputs.get 1).note.value.toNat =
      total ↑(selected.map InputNote.note) := by
  unfold inputsOf at chosen
  split at chosen
  · obtain rfl := pure_eq_ok_iff.mp chosen
    rfl
  · obtain rfl := pure_eq_ok_iff.mp chosen
    rfl
  · cases chosen

namespace Wallet

variable (poseidon : Poseidon)

/-- The balance is the value of all available notes. -/
def Sound (wallet : Wallet) : Prop := wallet.balance.toNat = total wallet.notes

/-- How a call changes the available notes: those that its transaction spends go, and the
change, the minted, received or claimed notes come. -/
def Moves (before after : Wallet) (built : Option Utxo) : Call → Prop
  | .spendTo note _ => ∃ utxo selected change, built = some utxo ∧ utxo.kind = .send ∧
      inputsOf selected = .ok utxo.inputNotes ∧ utxo.outputNotes.toList = [note, change] ∧
      ↑(selected.map InputNote.note) ≤ before.notes ∧
      after.notes = before.notes - ↑(selected.map InputNote.note) +
        (if change = Note.paddingNote then 0 else {change})
  | .receive inputNote _ => ∃ utxo received, built = some utxo ∧ utxo.kind = .send ∧
      utxo.inputNotes.toList = [inputNote, InputNote.paddingNote] ∧
      utxo.outputNotes.toList = [received, Note.paddingNote] ∧
      after.notes = before.notes - {inputNote.note} + {received}
  | .mint _ _ _ => ∃ utxo minted, built = some utxo ∧ utxo.kind = .mint ∧
      utxo.outputNotes.toList = [minted, Note.paddingNote] ∧
      after.notes = before.notes + {minted}
  | .burn burnerNote evmAddress nativelySubstitute => ∃ utxo, built = some utxo ∧
      utxo.kind = (if nativelySubstitute then .burn else .noSub) ∧
      utxo.inputNotes.toList = [burnerNote, InputNote.paddingNote] ∧
      utxo.burnAddress = some evmAddress ∧
      burnerNote.note ∈ before.notes ∧ after.notes = before.notes - {burnerNote.note}
  | .importNote note => built = none ∧ after.notes = before.notes + {note}
  | .addToAvail inputNote => built = none ∧ after.notes = before.notes + {inputNote.note}
  | .getAddress _ _ _ _ => built = none ∧ after.notes = before.notes
  | .sync txns => built = none ∧ after.notes =
      before.notes + (before.claimed poseidon (outputCommitments txns)).map InputNote.note

/-- What a call conserves. -/
structure Conserves (before after : Wallet) (call : Call) (built : Option Utxo) : Prop where
  balanced : ∀ utxo ∈ built, utxo.Balanced
  moves : Moves poseidon before after built call
  sound : after.Sound

/-- A call whose values, added to the balance, fit into one limb, and which does not receive
a note that the wallet has. -/
def Fits (wallet : Wallet) : Call → Prop
  | .spendTo note _ => note.value.toNat < 2 ^ 64
  | .receive inputNote _ => inputNote.note ∉ wallet.notes ∧
      wallet.balance.toNat + inputNote.note.value.toNat < 2 ^ 64
  | .mint amount _ _ => wallet.balance.toNat + amount.toNat < 2 ^ 64
  | .burn _ _ _ => True
  | .importNote note => wallet.balance.toNat + note.value.toNat < 2 ^ 64
  | .addToAvail inputNote => wallet.balance.toNat + inputNote.note.value.toNat < 2 ^ 64
  | .getAddress _ _ _ _ => True
  | .sync txns => wallet.balance.toNat +
      total ((wallet.claimed poseidon (outputCommitments txns)).map InputNote.note) < 2 ^ 64

variable {poseidon} {wallet after : Wallet}

/-! ## The balance -/

theorem Sound.total_lt (sound : wallet.Sound) : total wallet.notes < 2 ^ 64 :=
  sound ▸ wallet.balance.isLt

/-- Added notes keep the balance exact if and only if they fit. -/
theorem Sound.push_iff (sound : wallet.Sound) {added : Multiset Note}
    (balance : after.balance = wallet.balance + (added.map Note.amount).sum)
    (notesEq : after.notes = wallet.notes + added) :
    after.Sound ↔ wallet.balance.toNat + total added < 2 ^ 64 := by
  unfold Sound
  rw [balance, notesEq, total_add, ← sound, BitVec.toNat_add, toNat_sum_amount, Nat.add_mod_mod]
  constructor
  · intro same
    rw [← same]
    exact Nat.mod_lt _ (Nat.two_pow_pos 64)
  · exact Nat.mod_eq_of_lt

theorem Sound.pull (sound : wallet.Sound) {spent : Multiset Note}
    (pulls : wallet.Pulls after spent) : after.Sound := by
  have small := sound.total_lt
  unfold Sound at sound ⊢
  rw [← pulls.notes, total_add] at small sound
  have balance : after.balance = wallet.balance - (spent.map Note.amount).sum :=
    (BitVec.eq_sub_iff_add_eq).mpr pulls.balance
  have spentEq : (spent.map Note.amount).sum.toNat = total spent := by
    rw [toNat_sum_amount, Nat.mod_eq_of_lt (by omega)]
  rw [balance, BitVec.toNat_sub_of_le (BitVec.le_def.mpr (by omega))]
  omega

theorem Sound.pushes_iff (sound : wallet.Sound) {added : Multiset InputNote}
    (pushes : wallet.Pushes after added) :
    after.Sound ↔ wallet.balance.toNat + total (added.map InputNote.note) < 2 ^ 64 := by
  apply sound.push_iff
  · rw [Multiset.map_map]
    exact pushes.balance
  · exact pushes.notes_eq

/-! ## One call -/

section

variable {note : Note} {inputNote : InputNote} {pk : Element}

/-- What is spent is available, and stays so but for the change. -/
theorem Selects.moves {amount : BitVec 64} {inputs : Vector InputNote 2} {change : Note}
    {selected : List InputNote}
    (selects : wallet.Selects after amount pk inputs change selected) :
    ↑(selected.map InputNote.note) ≤ wallet.notes ∧
      after.notes = wallet.notes - ↑(selected.map InputNote.note) +
        (if change = Note.paddingNote then 0 else {change}) := by
  rcases selects.exchanged with ⟨middle, pulls, pushes⟩
  have kept : middle.notes = wallet.notes - ↑(selected.map InputNote.note) := by
    rw [← pulls.notes, add_tsub_cancel_right]
  constructor
  · rw [← pulls.notes]
    exact Multiset.le_add_left _ _
  · rw [pushes.notes_eq, kept]
    split_ifs with padding
    · rfl
    · rw [Multiset.map_singleton]

/-- The amounts of the selected notes are their values. -/
theorem Selects.value_eq {amount : BitVec 64} {inputs : Vector InputNote 2} {change : Note}
    {selected : List InputNote} (sound : wallet.Sound)
    (selects : wallet.Selects after amount pk inputs change selected) :
    change.value.toNat + amount.toNat = total ↑(selected.map InputNote.note) := by
  rcases selects.exchanged with ⟨middle, pulls, _⟩
  have small := sound.total_lt
  rw [← pulls.notes, total_add] at small
  rw [selects.value, sum_toNat_amount (by omega)]

theorem Selects.sound {amount : BitVec 64} {inputs : Vector InputNote 2} {change : Note}
    {selected : List InputNote} (sound : wallet.Sound)
    (selects : wallet.Selects after amount pk inputs change selected) : after.Sound := by
  have valueEq := selects.value_eq sound
  have small := sound.total_lt
  rcases selects.exchanged with ⟨middle, pulls, pushes⟩
  have middleSound := sound.pull pulls
  apply (middleSound.pushes_iff pushes).mpr
  have added : total (Multiset.map InputNote.note
      (if change = Note.paddingNote then 0 else {⟨change, pk⟩})) ≤ change.value.toNat := by
    split_ifs with padding
    · exact Nat.zero_le _
    · rw [Multiset.map_singleton, total_singleton]
  rw [← pulls.notes, total_add] at small
  unfold Sound at middleSound
  omega

theorem conserves_spendTo_iff (sound : wallet.Sound) {inputs : Vector InputNote 2}
    {change : Note} {selected : List InputNote}
    (selects : wallet.Selects after note.amount pk inputs change selected) :
    Conserves poseidon wallet after (.spendTo note pk)
        (some (.newSend inputs #v[note, change])) ↔
      note.value.toNat < 2 ^ 64 := by
  have balancedIff : (Utxo.newSend inputs #v[note, change]).Balanced ↔
      note.value.toNat < 2 ^ 64 := by
    rw [Utxo.balanced_newSend_iff, value_of_inputsOf selects.inputs, ← selects.value_eq sound,
      ← toNat_amount_eq_iff]
    change _ = note.value.toNat + change.value.toNat ↔ _
    omega
  constructor
  · intro conserves
    exact balancedIff.mp (conserves.balanced _ rfl)
  · intro fits
    exact
      { balanced := by
          rintro utxo ⟨⟩
          exact balancedIff.mpr fits
        moves := ⟨_, selected, change, rfl, rfl, selects.inputs, rfl, selects.moves⟩
        sound := selects.sound sound }

theorem conserves_receive_iff (sound : wallet.Sound) {receivedNote : InputNote}
    (valueEq : receivedNote.note.value = inputNote.note.amount.setWidth 256)
    (pushes : wallet.Pushes after {receivedNote}) :
    Conserves poseidon wallet after (.receive inputNote pk)
        (some (.newSend #v[inputNote, InputNote.paddingNote]
          #v[receivedNote.note, Note.paddingNote])) ↔
      inputNote.note ∉ wallet.notes ∧
        wallet.balance.toNat + inputNote.note.value.toNat < 2 ^ 64 := by
  have receivedEq : receivedNote.note.value.toNat = inputNote.note.amount.toNat := by
    rw [valueEq]
    exact BitVec.toNat_setWidth_of_le (by decide)
  have soundIff := sound.pushes_iff pushes
  rw [Multiset.map_singleton, total_singleton, receivedEq] at soundIff
  have notesEq := pushes.notes_eq
  rw [Multiset.map_singleton] at notesEq
  have balancedIff : (Utxo.newSend #v[inputNote, InputNote.paddingNote]
      #v[receivedNote.note, Note.paddingNote]).Balanced ↔
        inputNote.note.amount.toNat = inputNote.note.value.toNat := by
    rw [Utxo.balanced_newSend_iff, ← receivedEq]
    change inputNote.note.value.toNat + 0 = receivedNote.note.value.toNat + 0 ↔ _
    exact eq_comm
  constructor
  · intro conserves
    have whole := balancedIff.mp (conserves.balanced _ rfl)
    have fits := soundIff.mp conserves.sound
    rw [whole] at fits
    rcases conserves.moves with ⟨_, received, _, _, _, _, moved⟩
    refine ⟨?_, fits⟩
    intro available
    have cards := congrArg Multiset.card (notesEq.symm.trans moved)
    rw [Multiset.card_add, Multiset.card_add, Multiset.card_singleton, Multiset.card_singleton,
      Multiset.sub_singleton] at cards
    have fewer := Multiset.card_erase_lt_of_mem available
    omega
  · rintro ⟨fresh, fits⟩
    have whole := (toNat_amount_eq_iff inputNote.note).mpr (by omega)
    exact
      { balanced := by
          rintro utxo ⟨⟩
          exact balancedIff.mpr whole
        moves := ⟨_, receivedNote.note, rfl, rfl, rfl, rfl, by
          rw [notesEq, Multiset.sub_singleton, Multiset.erase_of_notMem fresh]⟩
        sound := soundIff.mpr (whole ▸ fits) }

theorem conserves_burn {evmAddress : Element} {nativelySubstitute : Bool}
    (sound : wallet.Sound) (pulls : wallet.Pulls after {inputNote.note}) :
    Conserves poseidon wallet after (.burn inputNote evmAddress nativelySubstitute)
      (some (if nativelySubstitute then
          .newBurn #v[inputNote, InputNote.paddingNote] evmAddress
        else .newBurnNoSub #v[inputNote, InputNote.paddingNote] evmAddress)) where
  balanced := by
    rintro utxo ⟨⟩
    split_ifs
    · exact Utxo.balanced_newBurn
    · exact Utxo.balanced_newBurnNoSub
  moves := by
    refine ⟨_, rfl, ?_, ?_, ?_, ?_, ?_⟩
    · cases nativelySubstitute <;> rfl
    · cases nativelySubstitute <;> rfl
    · cases nativelySubstitute <;> rfl
    · rw [← pulls.notes]
      exact Multiset.mem_add.mpr (.inr (Multiset.mem_singleton_self _))
    · rw [← pulls.notes, add_tsub_cancel_right]
  sound := sound.pull pulls

end

/-- Without a transaction only the balance can go wrong. -/
theorem conserves_none_iff {call : Call} (moves : Moves poseidon wallet after none call) :
    Conserves poseidon wallet after call none ↔ after.Sound := by
  constructor
  · exact Conserves.sound
  · intro kept
    exact ⟨(fun _ built => nomatch built), moves, kept⟩

/-- A call conserves value if and only if its values fit. -/
theorem Effect.conserves_iff (sound : wallet.Sound) {call : Call} {built : Option Utxo}
    (effect : Effect poseidon wallet after call built) :
    Conserves poseidon wallet after call built ↔ Fits poseidon wallet call := by
  cases effect with
  | spendTo selects => exact conserves_spendTo_iff sound selects
  | receive valueEq pushes => exact conserves_receive_iff sound valueEq pushes
  | @mint amount ticker receivedNote pk valueEq pushes =>
      have soundIff := sound.pushes_iff pushes
      have receivedEq : receivedNote.note.value.toNat = amount.toNat := by
        rw [valueEq]
        exact BitVec.toNat_setWidth_of_le (by decide)
      rw [Multiset.map_singleton, total_singleton, receivedEq] at soundIff
      apply Iff.trans _ soundIff
      constructor
      · exact Conserves.sound
      · intro kept
        refine ⟨?_, ⟨_, receivedNote.note, rfl, rfl, rfl, pushes.notes_eq⟩, kept⟩
        rintro utxo ⟨⟩
        exact Utxo.balanced_newMint
  | burn pulls => exact iff_of_true (conserves_burn sound pulls) trivial
  | @importNote note pendingNote imports =>
      have notesEq : after.notes = wallet.notes + {note} := by
        rw [notes, imports.avail, Multiset.map_add, Multiset.map_singleton]
        rfl
      have soundIff := sound.push_iff (by simpa using imports.balance) notesEq
      rw [total_singleton] at soundIff
      apply (conserves_none_iff _).trans soundIff
      exact ⟨rfl, notesEq⟩
  | addToAvail pushes =>
      have soundIff := sound.pushes_iff pushes
      rw [Multiset.map_singleton, total_singleton] at soundIff
      apply (conserves_none_iff _).trans soundIff
      exact ⟨rfl, pushes.notes_eq⟩
  | getAddress _ handsOut =>
      have notesEq : after.notes = wallet.notes := by rw [notes, handsOut.avail, notes]
      have kept : after.Sound := by
        rw [Sound, handsOut.balance, notesEq]
        exact sound
      apply iff_of_true ((conserves_none_iff _).mpr kept) trivial
      exact ⟨rfl, notesEq⟩
  | @sync txns claims =>
      have notesEq : after.notes = wallet.notes +
          (wallet.claimed poseidon (outputCommitments txns)).map InputNote.note := by
        rw [notes, claims.avail, Multiset.map_add]
        rfl
      have soundIff := sound.push_iff (by simpa using claims.balance) notesEq
      apply (conserves_none_iff _).trans soundIff
      exact ⟨rfl, notesEq⟩

/-! ## Runs -/

variable {poseidon : Poseidon} {before : Wallet}

theorem claimed_of_perm {pending : Bags String InputNote} (perm : pending.Perm before.pending)
    (commitments : List Element) :
    { before with pending }.claimed poseidon commitments =
      before.claimed poseidon commitments := by
  rw [claimed, Bags.all_of_perm perm, claimed]

theorem moves_iff_of_perm {pending : Bags String InputNote} {built : Option Utxo} (call : Call)
    (perm : pending.Perm before.pending) :
    Moves poseidon { before with pending } after built call ↔
      Moves poseidon before after built call := by
  cases call with
  | sync txns =>
      dsimp only [Moves]
      rw [claimed_of_perm perm]
      rfl
  | _ => exact Iff.rfl

theorem fits_iff_of_perm {pending : Bags String InputNote} (call : Call)
    (perm : pending.Perm before.pending) :
    Fits poseidon { before with pending } call ↔ Fits poseidon before call := by
  cases call with
  | sync txns =>
      dsimp only [Fits]
      rw [claimed_of_perm perm]
  | _ => exact Iff.rfl

theorem Step.conserves_iff (sound : before.Sound) {call : Call} {built : Option Utxo}
    (step : before.Step poseidon (call, built) after) :
    Conserves poseidon before after call built ↔ Fits poseidon before call := by
  rcases step with ⟨pending, perm, applied⟩
  have shuffledSound : { before with pending }.Sound := sound
  have shuffled := (effect_of_apply applied).conserves_iff shuffledSound
  rw [fits_iff_of_perm call perm] at shuffled
  rw [← shuffled]
  constructor
  · intro conserves
    exact ⟨conserves.balanced, (moves_iff_of_perm call perm).mpr conserves.moves, conserves.sound⟩
  · intro conserves
    exact ⟨conserves.balanced, (moves_iff_of_perm call perm).mp conserves.moves, conserves.sound⟩

/-- A step whose values fit. -/
def FittingStep (poseidon : Poseidon) (before : Wallet) (label : Call × Option Utxo)
    (after : Wallet) : Prop :=
  before.Step poseidon label after ∧ Fits poseidon before label.1

@[simp]
theorem sound_new (name : Option String) : (Wallet.new name).Sound := rfl

theorem sound_of_run {name : Option String} {labels : List (Call × Option Utxo)}
    (run : Run (FittingStep poseidon) (Wallet.new name) labels wallet) : wallet.Sound := by
  induction run with
  | nil => exact sound_new name
  | snoc _ taken ih => exact ((taken.1.conserves_iff ih).mpr taken.2).sound

/-- As long as the values fit, every wallet has an exact balance, and the calls that
conserve value are those whose values fit. -/
theorem wallet_conserves_value {name : Option String} {labels : List (Call × Option Utxo)}
    (run : Run (FittingStep poseidon) (Wallet.new name) labels wallet) :
    wallet.balance.toNat = total wallet.notes ∧
      ∀ (call : Call) (built : Option Utxo) (after : Wallet),
        wallet.Step poseidon (call, built) after →
          (Conserves poseidon wallet after call built ↔ Fits poseidon wallet call) := by
  have sound := sound_of_run run
  exact ⟨sound, fun _ _ _ step => step.conserves_iff sound⟩

/-- The note of a mint. -/
def mintedNote (amount : BitVec 64) (pk : Element) : InputNote where
  note :=
    { kind := 2
      contract := citreaWcbtcNoteKind
      address := hashMerge List.sum [pk, Element.ZERO]
      psi := hashMerge List.sum [pk, pk]
      value := amount.setWidth 256 }
  secretKey := pk

/-- A wallet after its first mint. -/
def afterMint : Wallet where
  avail := [("WCBTC", [mintedNote 1000 1])]
  name := none
  balance := 1000

/-- The payment of 600 from this wallet. -/
def payment : Utxo :=
  .newSend #v[mintedNote 1000 1, InputNote.paddingNote]
    #v[(mintedNote 600 2).note, (mintedNote 400 3).note]

theorem pays : afterMint.Step List.sum (.spendTo (mintedNote 600 2).note 3, some payment)
    { afterMint with avail := [("WCBTC", [mintedNote 400 3])], balance := 400 } :=
  ⟨[], .nil, rfl⟩

theorem payment_conserves_value :
    ∃ after, Run (FittingStep List.sum) (Wallet.new none)
        [(.mint 1000 "WCBTC" 1, some (.newMint #v[(mintedNote 1000 1).note, Note.paddingNote]))]
        afterMint ∧
      afterMint.Step List.sum (.spendTo (mintedNote 600 2).note 3, some payment) after ∧
      Conserves List.sum afterMint after (.spendTo (mintedNote 600 2).note 3) (some payment) := by
  have run : Run (FittingStep List.sum) (Wallet.new none)
      [(.mint 1000 "WCBTC" 1, some (.newMint #v[(mintedNote 1000 1).note, Note.paddingNote]))]
      afterMint := by
    have fits : 0 + 1000 < 2 ^ 64 := by decide
    apply Run.snoc (Run.nil : Run _ _ [] _)
    exact ⟨⟨[], .nil, rfl⟩, fits⟩
  have fits : (mintedNote 600 2).note.value.toNat < 2 ^ 64 := by decide
  exact ⟨_, run, pays, ((wallet_conserves_value run).2 _ _ _ pays).mpr fits⟩

/-- A note whose value has a second limb. -/
def largeNote : InputNote := ⟨{ (mintedNote 0 1).note with value := 0x10000000000000000 }, 1⟩

/-- The transaction that receives this note pays out nothing. -/
theorem received_value_lost :
    largeNote.note.value.toNat < 2 ^ 240 ∧
      (Wallet.new none).Step List.sum
        (.receive largeNote 2, some (.newSend #v[largeNote, InputNote.paddingNote]
          #v[(mintedNote 0 2).note, Note.paddingNote]))
        { avail := [("WCBTC", [mintedNote 0 2])], name := none, balance := 0 } ∧
      ¬(Utxo.newSend #v[largeNote, InputNote.paddingNote]
          #v[(mintedNote 0 2).note, Note.paddingNote]).Balanced :=
  ⟨by decide, ⟨[], .nil, rfl⟩, by decide⟩


end Wallet

end Ciphera.Cli
