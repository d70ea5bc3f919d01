import Ciphera.Cli.Payload

/-!
# Addresses and links of the wallet

An address says where and what to pay; a link carries the key of a note, from which whoever
opens it computes the note again.
-/

namespace Ciphera.Cli

open Ciphera.Lib Ciphera.Zk
open Ciphera.Noir (Poseidon)

variable {ε : Type} {bs58 : Bs58}

namespace CipheraAddress

/-- The bytes of an address. -/
def payload (address : CipheraAddress) : Bytes :=
  [address.version, address.currency] ++ address.publicKey.toBeBytes ++
    encodePsi address.version address.psi ++ encodeValue address.value

/-- The text of an address. -/
def encodeAddress (bs58 : Bs58) (address : CipheraAddress) : String :=
  bs58.encode address.payload

end CipheraAddress

/-- Read an address; a version other than zero panics. -/
def decodeAddress (bs58 : Bs58) (address : String) : Except (Stop ε) CipheraAddress := do
  let rest ← bs58.intoVec address
  let (version, rest) ← splitFirst rest
  let (currency, rest) ← splitFirst rest
  let (publicKey, rest) ← readElement rest
  check (version = 0) (.panic "only version 1, 2 or 3 is supported")
  let (psi, rest) ← readElement rest
  let (value, _) ← decodeValue rest
  pure ⟨version, currency, publicKey, some psi, value⟩

theorem decodeAddress_encodeAddress (inverts : bs58.Inverts) (currency : BitVec 8)
    (publicKey psi value : Element) :
    decodeAddress bs58
        (CipheraAddress.encodeAddress bs58 ⟨0, currency, publicKey, some psi, value⟩) =
      (.ok ⟨0, currency, publicKey, some psi, value⟩ : Except (Stop ε) _) := by
  have decoded : (decodeValue (encodeValue value) : Except (Stop ε) _) = pure (value, []) := by
    rw [← List.append_nil (encodeValue value), decodeValue_append]
  simp only [decodeAddress, CipheraAddress.encodeAddress, inverts.intoVec, pure_bind,
    CipheraAddress.payload, encodePsi, if_pos, List.cons_append, List.nil_append, List.append_assoc,
    splitFirst_cons, readElement_append, check_of, ok_bind, decoded]
  rfl

/-! ## Links -/

/-- A note that is handed over with its key. -/
structure CipheraURL where
  currency : BitVec 8
  privateKey : Element
  value : Element
  deriving DecidableEq, Repr

namespace CipheraURL

/-- The contract of a currency. -/
def contract (url : CipheraURL) : Except (Stop ε) Element :=
  match url.currency.toNat with
  | 1 => pure citreaWcbtcNoteKind
  | 2 => pure citreaUsdcNoteKind
  | _ => .error (.panic "currency code must be 1 or 2")

/-- The note of a link. -/
def inputNote (poseidon : Poseidon) (url : CipheraURL) : Except (Stop ε) InputNote := do
  let contract ← url.contract
  pure
    { secretKey := url.privateKey
      note :=
        { kind := 2
          contract
          address := hashMerge poseidon [url.privateKey, Element.ZERO]
          psi := hashMerge poseidon [url.privateKey, url.privateKey]
          value := url.value } }

/-- The link of a note. -/
def ofInputNote (note : InputNote) : Except (Stop ε) CipheraURL := do
  let currency ← citreaCurrencyFromContract note.note.contract
  pure ⟨currency, note.secretKey, note.note.value⟩

/-- The text of a link. -/
def encodeUrl (bs58 : Bs58) (url : CipheraURL) : String :=
  bs58.encode ([url.currency] ++ url.privateKey.toBeBytes ++ encodeValue url.value)

end CipheraURL

/-- Read a link; what stands behind the value is ignored. -/
def decodeUrl (bs58 : Bs58) (address : String) : Except (Stop ε) CipheraURL := do
  let rest ← bs58.intoVec address
  let (currency, rest) ← splitFirst rest
  let (privateKey, rest) ← readElement rest
  let (value, _) ← decodeValue rest
  pure ⟨currency, privateKey, value⟩

theorem decodeUrl_encodeUrl (inverts : bs58.Inverts) (url : CipheraURL) :
    decodeUrl bs58 (url.encodeUrl bs58) = (.ok url : Except (Stop ε) _) := by
  have decoded : (decodeValue (encodeValue url.value) : Except (Stop ε) _) =
      pure (url.value, []) := by
    rw [← List.append_nil (encodeValue url.value), decodeValue_append]
  simp only [decodeUrl, CipheraURL.encodeUrl, inverts.intoVec, pure_bind, List.cons_append,
    List.nil_append, splitFirst_cons, readElement_append, decoded]
  rfl

/-- The note that is read from the link of a note. -/
def throughUrl (bs58 : Bs58) (poseidon : Poseidon) (note : InputNote) :
    Except (Stop ε) InputNote := do
  let url ← CipheraURL.ofInputNote note
  let decoded ← decodeUrl bs58 (url.encodeUrl bs58)
  decoded.inputNote poseidon

/-- The contract is one of a token of the wallet, and the address and the psi are derived
from the key. -/
structure InputNote.Derived (poseidon : Poseidon) (note : InputNote) : Prop where
  supported : note.note.contract = citreaWcbtcNoteKind ∨ note.note.contract = citreaUsdcNoteKind
  address : note.note.address = hashMerge poseidon [note.secretKey, Element.ZERO]
  psi : note.note.psi = hashMerge poseidon [note.secretKey, note.secretKey]

/-- A currency stands for the contract it was chosen for. -/
theorem CipheraURL.inputNote_of_ofInputNote (poseidon : Poseidon) {note : InputNote}
    (supported : note.note.contract = citreaWcbtcNoteKind ∨
      note.note.contract = citreaUsdcNoteKind) :
    ∃ url : CipheraURL, (ofInputNote note : Except (Stop ε) _) = .ok url ∧
      (url.inputNote poseidon : Except (Stop ε) _) =
        .ok ⟨⟨2, note.note.contract, hashMerge poseidon [note.secretKey, Element.ZERO],
          hashMerge poseidon [note.secretKey, note.secretKey], note.note.value⟩,
            note.secretKey⟩ := by
  rcases supported with wcbtc | usdc
  · refine ⟨⟨1, note.secretKey, note.note.value⟩, ?_, ?_⟩
    · rw [ofInputNote, citreaCurrencyFromContract, if_pos wcbtc]
      rfl
    · rw [wcbtc]
      rfl
  · have differ : citreaUsdcNoteKind ≠ citreaWcbtcNoteKind := by decide
    refine ⟨⟨2, note.secretKey, note.note.value⟩, ?_, ?_⟩
    · rw [ofInputNote, citreaCurrencyFromContract, usdc, if_neg differ, if_pos rfl]
      rfl
    · rw [usdc]
      rfl

/-- The note of its link has the kind of all notes of the wallet, and else is the note. -/
theorem throughUrl_eq {poseidon : Poseidon} {note : InputNote} (inverts : bs58.Inverts)
    (derived : note.Derived poseidon) :
    throughUrl bs58 poseidon note =
      (.ok { note with note := { note.note with kind := 2 } } : Except (Stop ε) _) := by
  rcases CipheraURL.inputNote_of_ofInputNote (ε := ε) poseidon derived.supported with
    ⟨url, urlEq, noteEq⟩
  rw [throughUrl, urlEq, ok_bind, decodeUrl_encodeUrl inverts, ok_bind, noteEq,
    ← derived.address, ← derived.psi]

/-- Addresses and links are read back as they were written, and a derived note comes back
through its link exactly if it has the kind of the wallet's notes. -/
theorem payloads_read_back (inverts : bs58.Inverts) :
    (∀ address : CipheraAddress, address.version = 0 → address.psi.isSome →
        decodeAddress bs58 (address.encodeAddress bs58) = (.ok address : Except (Stop ε) _)) ∧
      (∀ url : CipheraURL, decodeUrl bs58 (url.encodeUrl bs58) = (.ok url : Except (Stop ε) _)) ∧
      ∀ (poseidon : Poseidon) (note : InputNote), note.Derived poseidon →
        (throughUrl bs58 poseidon note = (.ok note : Except (Stop ε) _) ↔ note.note.kind = 2) := by
  refine ⟨?_, decodeUrl_encodeUrl inverts, ?_⟩
  · rintro ⟨version, currency, publicKey, _ | psi, value⟩ rfl explicit
    · cases explicit
    · exact decodeAddress_encodeAddress inverts currency publicKey psi value
  · intro poseidon note derived
    rw [throughUrl_eq inverts derived, Except.ok.injEq]
    constructor
    · intro same
      rw [← same]
    · intro kindEq
      rw [← kindEq]

/-- A note of one token whose address and psi are derived from its key. -/
def derivedNote (kind value : Element) : InputNote where
  secretKey := 101
  note :=
    { kind
      contract := citreaWcbtcNoteKind
      address := hashMerge List.sum [101, Element.ZERO]
      psi := hashMerge List.sum [101, 101]
      value }

theorem derivedNote_derived (kind value : Element) : (derivedNote kind value).Derived List.sum :=
  ⟨.inl rfl, rfl, rfl⟩

theorem zeroValue_read_back :
    decodeAddress bitcoinBs58 (CipheraAddress.encodeAddress bitcoinBs58 ⟨0, 1, 7, some 0, 0⟩) =
        (.ok ⟨0, 1, 7, some 0, 0⟩ : Except (Stop Empty) _) ∧
      throughUrl bitcoinBs58 List.sum (derivedNote 2 0) =
        (.ok (derivedNote 2 0) : Except (Stop Empty) _) := by
  have readBack := payloads_read_back (ε := Empty) bitcoinBs58_inverts
  constructor
  · exact readBack.1 _ rfl rfl
  · exact (readBack.2.2 _ _ (derivedNote_derived 2 0)).mpr rfl

/-- Another kind is lost. -/
theorem otherKind_not_restored :
    (derivedNote 3 0).Derived List.sum ∧
      throughUrl bitcoinBs58 List.sum (derivedNote 3 0) ≠
        (.ok (derivedNote 3 0) : Except (Stop Empty) _) := by
  refine ⟨derivedNote_derived 3 0, ?_⟩
  rw [throughUrl_eq bitcoinBs58_inverts (derivedNote_derived 3 0), Ne, Except.ok.injEq]
  intro same
  exact absurd (congrArg (fun note => note.note.kind) same) (by decide)

end Ciphera.Cli
