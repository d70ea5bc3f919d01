import Ciphera.Lib.Check
import Ciphera.Zk.Utxo

/-!
# Notes of a wallet

A wallet keeps the notes that it can spend, each with its secret key, and builds
transactions of two input and two output notes.  Values are 256-bit integers here; the
command line and the balance of a wallet have 64-bit ones.
-/

namespace Ciphera.Cli

open Ciphera.Lib Ciphera.Zk
open Ciphera.Noir (Poseidon)

/-- The four limbs of an element, the least significant first. -/
def toU64Array (element : Element) : Vector (BitVec 64) 4 :=
  #v[element.setWidth 64, (element >>> 64).setWidth 64, (element >>> 128).setWidth 64,
    (element >>> 192).setWidth 64]

/-- A note of the wallet. -/
structure Note where
  kind : Element
  contract : Element
  address : Element
  psi : Element
  value : Element
  deriving DecidableEq, Repr

/-- The empty note, which fills a free place of a transaction. -/
def Note.paddingNote : Note where
  kind := 2
  contract := Element.ZERO
  address := Element.ZERO
  psi := Element.ZERO
  value := Element.ZERO

/-- What the tree keeps of a note; a note without value has no commitment. -/
def Note.commitment (poseidon : Poseidon) (note : Note) : Element :=
  if note.value = Element.ZERO then Element.ZERO
  else hashMerge poseidon
    [note.kind, note.contract, note.value, note.address, note.psi, Element.ZERO, Element.ZERO]

/-- A note with the key that may spend it. -/
structure InputNote where
  note : Note
  secretKey : Element
  deriving DecidableEq, Repr

/-- The empty note as an input, with the secret key zero. -/
def InputNote.paddingNote : InputNote := ⟨Note.paddingNote, Element.ZERO⟩

/-! ## Transactions -/

/-- A transaction of the wallet, with the secrets of its inputs. -/
structure Utxo where
  kind : UtxoKind
  inputNotes : Vector InputNote 2
  outputNotes : Vector Note 2
  burnAddress : Option Element
  deriving DecidableEq, Repr

namespace Utxo

/-- A transaction from notes to notes. -/
def newSend (inputNotes : Vector InputNote 2) (outputNotes : Vector Note 2) : Utxo where
  kind := .send
  inputNotes := inputNotes
  outputNotes := outputNotes
  burnAddress := none

/-- A transaction that burns its inputs for an address of the chain. -/
def newBurn (inputNotes : Vector InputNote 2) (evmAddress : Element) : Utxo where
  kind := .burn
  inputNotes := inputNotes
  outputNotes := #v[Note.paddingNote, Note.paddingNote]
  burnAddress := some evmAddress

/-- A burn that the substitutor does not pay out itself. -/
def newBurnNoSub (inputNotes : Vector InputNote 2) (evmAddress : Element) : Utxo where
  kind := .noSub
  inputNotes := inputNotes
  outputNotes := #v[Note.paddingNote, Note.paddingNote]
  burnAddress := some evmAddress

/-- A transaction that makes notes of a deposit. -/
def newMint (outputNotes : Vector Note 2) : Utxo where
  kind := .mint
  inputNotes := #v[InputNote.paddingNote, InputNote.paddingNote]
  outputNotes := outputNotes
  burnAddress := none

/-- What the inputs are worth together. -/
def inputValue (utxo : Utxo) : Element :=
  (utxo.inputNotes.get 0).note.value + (utxo.inputNotes.get 1).note.value

/-- What the outputs are worth together. -/
def outputValue (utxo : Utxo) : Element :=
  (utxo.outputNotes.get 0).value + (utxo.outputNotes.get 1).value

/-- The third message of a mint. -/
def minted (utxo : Utxo) : Element :=
  match utxo.kind with
  | .mint => utxo.outputValue - utxo.inputValue
  | .null | .send | .burn | .noSub => Element.ZERO

/-- The third message of a burn. -/
def burned (utxo : Utxo) : Element :=
  match utxo.kind with
  | .burn | .noSub => utxo.inputValue - utxo.outputValue
  | .null | .send | .mint => Element.ZERO

/-- What goes in and what is minted comes out or is burned. -/
def Balanced (utxo : Utxo) : Prop :=
  (utxo.inputNotes.get 0).note.value.toNat + (utxo.inputNotes.get 1).note.value.toNat +
      utxo.minted.toNat =
    (utxo.outputNotes.get 0).value.toNat + (utxo.outputNotes.get 1).value.toNat +
      utxo.burned.toNat

/-- The balance is a comparison of two sums. -/
instance (utxo : Utxo) : Decidable utxo.Balanced := inferInstanceAs (Decidable (_ = _))

end Utxo

/-! ## Tokens -/

/-- `generate_note_kind_bridge_evm`: the format of the kind, the chain and the address of
the token. -/
def generateNoteKindBridgeEvm (chain : BitVec 64) (address : BitVec 160) : Element :=
  (2#16 ++ chain ++ address ++ 0#16).setWidth 256

/-- The kind of notes of wrapped bitcoin on Citrea. -/
def citreaWcbtcNoteKind : Element :=
  generateNoteKindBridgeEvm 5115 0x8d0c9d1c17aE5e40ffF9bE350f57840E9E66Cd93

/-- The kind of notes of dollars on Citrea. -/
def citreaUsdcNoteKind : Element :=
  generateNoteKindBridgeEvm 5115 0x52f74a8f9bdd29f77a5efd7f6cb44dcf6906a4b6

/-- `to_uppercase`, for the letters that can make up the ticker of a token. -/
def toUppercase (ticker : String) : String :=
  String.ofList (ticker.toList.map fun letter => if letter = 'ſ' then 'S' else letter.toUpper)

/-- Why a note of another kind has no ticker. -/
def unsupported : String := "only WCBTC and USDC tokens are supported"

section

variable {ε : Type}

/-- The kind of a note and its contract, by the ticker of the token. -/
def citreaTokenData (ticker : String) : Except (Stop ε) (Element × Element) :=
  if toUppercase ticker = "WCBTC" then pure (2, citreaWcbtcNoteKind)
  else if toUppercase ticker = "USDC" then pure (2, citreaUsdcNoteKind)
  else .error (.panic unsupported)

/-- The ticker of a kind of notes; other kinds panic. -/
def citreaTickerFromContract (contract : Element) : Except (Stop ε) String :=
  if contract = citreaWcbtcNoteKind then pure "WCBTC"
  else if contract = citreaUsdcNoteKind then pure "USDC"
  else .error (.panic unsupported)

/-- The byte of a currency in addresses; other kinds panic. -/
def citreaCurrencyFromContract (contract : Element) : Except (Stop ε) (BitVec 8) :=
  if contract = citreaWcbtcNoteKind then pure 1
  else if contract = citreaUsdcNoteKind then pure 2
  else .error (.panic unsupported)

/-- An address to pay to, with the value that is asked for. -/
structure CipheraAddress where
  version : BitVec 8
  currency : BitVec 8
  publicKey : Element
  psi : Option Element
  value : Element
  deriving DecidableEq, Repr

/-- The address under which a note is handed over. -/
def CipheraAddress.ofNote (note : Note) : Except (Stop ε) CipheraAddress := do
  let currency ← citreaCurrencyFromContract note.contract
  pure ⟨0, currency, note.address, some note.psi, note.value⟩

end

end Ciphera.Cli
