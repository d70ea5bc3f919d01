import Ciphera.Cli.Note
import Ciphera.Lib.Bags

/-!
# The wallet

The available notes of a wallet and the addresses that it has handed out are kept by
ticker, beside a balance that each operation adjusts.  The amount of a note is the least
significant limb of its value.  Every operation works on a copy of the wallet, so that an
error leaves the wallet alone.

Secret keys are drawn at random; here they are arguments.  Sums of amounts wrap around.
-/

namespace Ciphera.Cli

open Ciphera.Lib Ciphera.Zk
open Ciphera.Noir (Poseidon)

/-- Why the wallet refuses an operation. -/
inductive WalletError
  | lowBalance (message : String)
  | cantPullNote
  | cantReadNoteValue
  | keyNotFound (note : Note)
  deriving DecidableEq, Repr

/-- What an operation comes to, with the reason of a failure or a panic. -/
abbrev WalletResult (α : Type) := Except (Stop WalletError) α

/-- Notes that are on their way, notes that can be spent, and what these are worth. -/
structure Wallet where
  pending : Bags String InputNote := []
  avail : Bags String InputNote := []
  name : Option String
  balance : BitVec 64
  deriving DecidableEq, Repr

/-- Notes to spend, with their total amount. -/
abbrev Selection := List InputNote × BitVec 64

/-- The sum, unless it leaves 64 bits. -/
def checkedAdd (first second : BitVec 64) : Option (BitVec 64) :=
  if first.toNat + second.toNat < 2 ^ 64 then some (first + second) else none

/-- Single notes and pairs of notes, in the order in which they are considered. -/
def candidates : List (InputNote × BitVec 64) → List Selection
  | [] => []
  | first :: rest =>
      ([first.1], first.2) ::
        rest.filterMap (fun second =>
          (checkedAdd first.2 second.2).map fun total => ([first.1, second.1], total)) ++
      candidates rest

/-- A candidate replaces the best selection if it covers the amount with less excess, or
with the same excess and fewer notes. -/
def considerCandidate (amount : BitVec 64) (best : Option Selection) (candidate : Selection) :
    Option Selection :=
  if candidate.2 < amount then best
  else
    match best with
    | none => some candidate
    | some (bestNotes, bestTotal) =>
        let excess := candidate.2 - amount
        let bestExcess := bestTotal - amount
        if excess < bestExcess ∨ excess = bestExcess ∧ candidate.1.length < bestNotes.length then
          some candidate
        else best

/-- One or two notes as the inputs of a transaction. -/
def inputsOf : List InputNote → WalletResult (Vector InputNote 2)
  | [note1] => pure #v[note1, InputNote.paddingNote]
  | [note1, note2] => pure #v[note1, note2]
  | _ => .error (.panic "wallet input selection only supports one or two notes")

/-- The amount of a note, in its lowest 64 bits. -/
def getNoteAmount (note : Note) : WalletResult (BitVec 64) :=
  match (toU64Array note.value).toList.head? with
  | some amount => pure amount
  | none => .error (.error .cantReadNoteValue)

/-- The least significant limb of the value. -/
def Note.amount (note : Note) : BitVec 64 := note.value.setWidth 64

@[simp]
theorem getNoteAmount_eq (note : Note) : getNoteAmount note = .ok note.amount := rfl

namespace Wallet

/-- A wallet without notes. -/
def new (name : Option String) : Wallet where
  name := name
  balance := 0

/-- The name that is shown. -/
def displayName (wallet : Wallet) : String := wallet.name.getD "Noname"

/-- The new balance is returned in the wallet. -/
def pushToAvail (ticker : String) (note : InputNote) (wallet : Wallet) : WalletResult Wallet := do
  let avail := wallet.avail.put ticker (wallet.avail.get ticker ++ [note])
  let noteAmount ← getNoteAmount note.note
  pure { wallet with avail, balance := wallet.balance + noteAmount }

/-- Remove the first note that equals the given one. -/
def pullFromAvail (ticker : String) (note : InputNote) (wallet : Wallet) :
    WalletResult Wallet :=
  let notes := wallet.avail.get ticker
  match notes.find? fun other => other.note = note.note with
  | none => .error (.error .cantPullNote)
  | some removedNote =>
      match (toU64Array removedNote.note.value).toList.head? with
      | none => .error (.error .cantPullNote)
      | some noteAmount =>
          pure
            { wallet with
              avail := wallet.avail.put ticker (notes.eraseP fun other => other.note = note.note)
              balance := wallet.balance - noteAmount }

section

variable (poseidon : Poseidon) (pk : Element)

/-- The note that gives back what a payment does not need. -/
def makeChangeNote (originNote : Note) (changeAmount : BitVec 64) : InputNote where
  note :=
    { kind := originNote.kind
      contract := originNote.contract
      address := hashMerge poseidon [pk, Element.ZERO]
      psi := hashMerge poseidon [pk, pk]
      value := changeAmount.setWidth 256 }
  secretKey := pk

/-- Choose one or two notes for an amount, and replace them by a note for the change. -/
def selectInputNotes (ticker : String) (amount : BitVec 64) (wallet : Wallet) :
    WalletResult (Wallet × Vector InputNote 2 × Note) := do
  let assetNotes := wallet.avail.get ticker
  check (assetNotes ≠ [])
    (.error (.lowBalance ("Wallet " ++ wallet.displayName ++ " has 0 balance")))
  let noteAmounts ← assetNotes.mapM fun note => getNoteAmount note.note
  match (candidates (assetNotes.zip noteAmounts)).foldl (considerCandidate amount) none with
  | none =>
      .error (.error (.lowBalance "Insufficient balance even with two notes, consolidate"))
  | some (selectedNotes, totalInput) =>
      let wallet ← selectedNotes.foldlM (fun wallet note => wallet.pullFromAvail ticker note) wallet
      let (wallet, change) ←
        if totalInput = amount then pure (wallet, Note.paddingNote)
        else do
          let originNote := (selectedNotes.headD InputNote.paddingNote).note
          let changeNote := makeChangeNote poseidon pk originNote (totalInput - amount)
          let wallet ← wallet.pushToAvail ticker changeNote
          pure (wallet, changeNote.note)
      let inputs ← inputsOf selectedNotes
      pure (wallet, inputs, change)

/-- Pay a note, with the change going back to the wallet. -/
def spendTo (note : Note) (wallet : Wallet) : WalletResult (Wallet × Utxo) := do
  let ticker ← citreaTickerFromContract note.contract
  let amount ← getNoteAmount note
  check (amount ≤ wallet.balance)
    (.error (.lowBalance ("Wallet " ++ wallet.displayName ++ " has only " ++
      toString wallet.balance.toNat ++ " while " ++ toString amount.toNat ++ " requested")))
  let (wallet, inputs, change) ← wallet.selectInputNotes poseidon pk ticker amount
  pure (wallet, .newSend inputs #v[note, change])

/-- A note of the wallet itself, for a fresh key. -/
def receiveNote (amount : BitVec 64) (ticker : String) : WalletResult InputNote := do
  let (kind, contract) ← citreaTokenData ticker
  let note : Note :=
    { kind
      contract
      address := hashMerge poseidon [pk, Element.ZERO]
      psi := hashMerge poseidon [pk, pk]
      value := amount.setWidth 256 }
  pure ⟨note, pk⟩

/-- Spend a note whose key has come with it to a note of the wallet. -/
def receive (inputNote : InputNote) (wallet : Wallet) : WalletResult (Wallet × Utxo) := do
  let ticker ← citreaTickerFromContract inputNote.note.contract
  let amount ← getNoteAmount inputNote.note
  let receivedNote ← receiveNote poseidon pk amount ticker
  let wallet ← wallet.pushToAvail ticker receivedNote
  pure (wallet, .newSend #v[inputNote, InputNote.paddingNote]
    #v[receivedNote.note, Note.paddingNote])

/-- Mint an amount: the note to receive it, and the transaction. -/
def mint (amount : BitVec 64) (ticker : String) (wallet : Wallet) :
    WalletResult (Wallet × Utxo) := do
  let receivedNote ← receiveNote poseidon pk amount ticker
  let wallet ← wallet.pushToAvail ticker receivedNote
  pure (wallet, .newMint #v[receivedNote.note, Note.paddingNote])

/-- Hand out an address, whose note is then the only pending one of its ticker. -/
def getAddress (psi : Element) (amount : BitVec 64) (ticker : String) (wallet : Wallet) :
    WalletResult (Wallet × CipheraAddress) := do
  let (kind, contract) ← citreaTokenData ticker
  let note : Note :=
    { kind
      contract
      address := hashMerge poseidon [pk, Element.ZERO]
      psi
      value := amount.setWidth 256 }
  let address ← CipheraAddress.ofNote note
  pure ({ wallet with pending := wallet.pending.put ticker [⟨note, pk⟩] }, address)

end

/-- Spend a note in a burn, with or without the substitutor. -/
def burn (burnerNote : InputNote) (evmAddress : Element) (nativelySubstitute : Bool)
    (wallet : Wallet) : WalletResult (Wallet × Utxo) := do
  let ticker ← citreaTickerFromContract burnerNote.note.contract
  let wallet ← wallet.pullFromAvail ticker burnerNote
  if nativelySubstitute then
    pure (wallet, .newBurn #v[burnerNote, InputNote.paddingNote] evmAddress)
  else pure (wallet, .newBurnNoSub #v[burnerNote, InputNote.paddingNote] evmAddress)

/-- The search of `import_note` through the tickers. -/
def importFrom (note : Note) (wallet : Wallet) : List String → WalletResult Wallet
  | [] => .error (.error (.keyNotFound note))
  | ticker :: tickers =>
      let assetNotes := wallet.pending.get ticker
      match assetNotes.find? fun other => other.note.address = note.address with
      | none => importFrom note wallet tickers
      | some pendingNote => do
          let rest := assetNotes.eraseP fun other => other.note.address = note.address
          let wallet := { wallet with pending := wallet.pending.put ticker rest }
          wallet.pushToAvail ticker ⟨note, pendingNote.secretKey⟩

/-- Move a paid note from the pending addresses to the available notes. -/
def importNote (note : Note) (wallet : Wallet) : WalletResult Wallet :=
  wallet.importFrom note (wallet.pending.map Prod.fst)

/-- A note that can be spent, under the ticker of its kind. -/
def addToAvail (inputNote : InputNote) (wallet : Wallet) : WalletResult Wallet := do
  let ticker ← citreaTickerFromContract inputNote.note.contract
  wallet.pushToAvail ticker inputNote

section

variable (poseidon : Poseidon)

/-- Move the pending notes with a commitment to the available ones. -/
def claim (wallet : Wallet) (commitment : Element) : WalletResult Wallet :=
  if commitment = Element.ZERO then pure wallet
  else
    let newNotes := wallet.pending.flatMap fun entry =>
      entry.2.filter fun other => commitment = other.note.commitment poseidon
    let pending := wallet.pending.map fun entry =>
      (entry.1, entry.2.filter fun other => commitment ≠ other.note.commitment poseidon)
    newNotes.foldlM (fun wallet note => wallet.addToAvail note) { wallet with pending }

/-- Look for the pending notes among the outputs of transactions. -/
def sync (txns : List UtxoProof) (wallet : Wallet) : WalletResult Wallet :=
  txns.foldlM
    (fun wallet tx => tx.publicInputs.outputCommitments.toList.foldlM (claim poseidon) wallet)
    wallet

end

end Wallet

/-! ## Calls -/

/-- The operations that change a wallet, with the random elements that they draw. -/
inductive Call
  | spendTo (note : Note) (pk : Element)
  | receive (inputNote : InputNote) (pk : Element)
  | mint (amount : BitVec 64) (ticker : String) (pk : Element)
  | burn (burnerNote : InputNote) (evmAddress : Element) (nativelySubstitute : Bool)
  | importNote (note : Note)
  | addToAvail (inputNote : InputNote)
  | getAddress (amount : BitVec 64) (ticker : String) (pk psi : Element)
  | sync (txns : List UtxoProof)

namespace Wallet

variable (poseidon : Poseidon)

/-- The wallet after a call, and the transaction that it has built. -/
def apply (wallet : Wallet) : Call → WalletResult (Wallet × Option Utxo)
  | .spendTo note pk => do
      let (wallet, utxo) ← wallet.spendTo poseidon pk note
      pure (wallet, some utxo)
  | .receive inputNote pk => do
      let (wallet, utxo) ← wallet.receive poseidon pk inputNote
      pure (wallet, some utxo)
  | .mint amount ticker pk => do
      let (wallet, utxo) ← wallet.mint poseidon pk amount ticker
      pure (wallet, some utxo)
  | .burn burnerNote evmAddress nativelySubstitute => do
      let (wallet, utxo) ← wallet.burn burnerNote evmAddress nativelySubstitute
      pure (wallet, some utxo)
  | .importNote note => do
      let wallet ← wallet.importNote note
      pure (wallet, none)
  | .addToAvail inputNote => do
      let wallet ← wallet.addToAvail inputNote
      pure (wallet, none)
  | .getAddress amount ticker pk psi => do
      let (wallet, _) ← wallet.getAddress poseidon pk psi amount ticker
      pure (wallet, none)
  | .sync txns => do
      let wallet ← wallet.sync poseidon txns
      pure (wallet, none)

/-- A call that succeeds.  Pending notes are in a hash map, which comes in any order. -/
def Step (before : Wallet) (label : Call × Option Utxo) (after : Wallet) : Prop :=
  ∃ pending, pending.Perm before.pending ∧
    apply poseidon { before with pending } label.1 = .ok (after, label.2)

end Wallet

end Ciphera.Cli
