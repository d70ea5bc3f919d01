import Ciphera.Cli.Payload

/-!
# Links of activities

A link of an activity has one of three versions, which differ in where the psi of its note
comes from: the link itself, one hash of the key or another one.  The decoder, `psi()` and
the conversion into a note each decide this for themselves.
-/

namespace Ciphera.Cli

open Ciphera.Lib Ciphera.Zk
open Ciphera.Noir (Poseidon)

/-- `String::as_bytes` -/
def asBytes (text : String) : Bytes := text.toUTF8.data.toList.map UInt8.toBitVec

/-- `String::from_utf8` -/
def fromUtf8 (bytes : Bytes) : Option String :=
  String.fromUTF8? ⟨(bytes.map UInt8.ofBitVec).toArray⟩

@[simp]
theorem fromUtf8_asBytes (text : String) : fromUtf8 (asBytes text) = some text := by
  have bytesEq : (asBytes text).map UInt8.ofBitVec = text.toUTF8.data.toList := by
    rw [asBytes, List.map_map]
    exact List.map_id'' (fun _ => rfl) _
  have arrayEq : ByteArray.mk ((asBytes text).map UInt8.ofBitVec).toArray = text.toByteArray := by
    rw [bytesEq]
    rfl
  rw [fromUtf8, arrayEq, String.fromUTF8?, dif_pos text.isValidUTF8]
  rfl

/-- The contract that all links of activities are for. -/
def bridgedPolygonUsdcNoteKind : Element :=
  generateNoteKindBridgeEvm 137 0x3c499c542cef5e3811e1192ce70d8cc03d5c3359

/-- The two hashes of bytes that a psi is derived with, `keccak256` and `Sha3_256`. -/
structure PsiHashes where
  keccak256 : Keccak
  sha3 : Keccak

namespace PsiHashes

variable (hashes : PsiHashes)

/-- The psi of version 1; writing the digest in hexadecimal digits and reading them gives it
back. -/
def keccakPsi (privateKey : Element) : Element := hashes.keccak256 privateKey.toBeBytes

/-- The second step of the derivation of a secret from a key. -/
def hashPrivateKeyForPsi (privateKey : Element) : Element := hashes.sha3 privateKey.toBeBytes

end PsiHashes

/-- What a link says about a note. -/
structure NoteURLPayload where
  version : BitVec 8
  privateKey : Element
  psi : Option Element
  value : Element
  referralCode : String
  deriving DecidableEq, Repr

namespace NoteURLPayload

variable {ε : Type} (hashes : PsiHashes)

/-- `InputNote::from` -/
def inputNote (poseidon : Poseidon) (payload : NoteURLPayload) : InputNote where
  secretKey := payload.privateKey
  note :=
    { kind := 2
      contract := bridgedPolygonUsdcNoteKind
      address := hashMerge poseidon [payload.privateKey, Element.ZERO]
      psi := payload.psi.getD (hashes.hashPrivateKeyForPsi payload.privateKey)
      value := payload.value }

/-- `NoteURLPayload::psi` -/
def notePsi (payload : NoteURLPayload) : Except (Stop ε) Element :=
  match payload.version.toNat with
  | 0 =>
      match payload.psi with
      | some psi => pure psi
      | none => .error (.panic "version 1 should have explicit psi")
  | 1 => pure (hashes.keccakPsi payload.privateKey)
  | 2 => pure (hashes.hashPrivateKeyForPsi payload.privateKey)
  | _ => .error (.panic "only version 1, 2 or 3 is supported")

/-- The text of a link. -/
def encodeActivityUrlPayload (bs58 : Bs58) (payload : NoteURLPayload) : String :=
  bs58.encode ([payload.version] ++ payload.privateKey.toBeBytes ++
    encodePsi payload.version payload.psi ++ encodeValue payload.value ++
    asBytes payload.referralCode)

end NoteURLPayload

section

variable {ε : Type}

/-- The psi of a decoded payload, and the bytes after it. -/
def decodePsi (hashes : PsiHashes) (version : BitVec 8) (privateKey : Element) (rest : Bytes) :
    Except (Stop ε) (Option Element × Bytes) :=
  match version.toNat with
  | 0 => do
      let (psi, rest) ← readElement rest
      pure (some psi, rest)
  | 1 => pure (some (hashes.keccakPsi privateKey), rest)
  | 2 => pure (some (hashes.hashPrivateKeyForPsi privateKey), rest)
  | _ => .error (.panic "only version 1, 2 or 3 is supported")

/-- Read a link, whose rest is the referral code. -/
def decodeActivityUrlPayload (hashes : PsiHashes) (bs58 : Bs58) (payload : String) :
    Except (Stop ε) NoteURLPayload := do
  let rest ← bs58.intoVec payload
  let (version, rest) ← splitFirst rest
  let (privateKey, rest) ← readElement rest
  let (psi, rest) ← decodePsi hashes version privateKey rest
  let (value, rest) ← decodeValue rest
  match fromUtf8 rest with
  | some referralCode => pure ⟨version, privateKey, psi, value, referralCode⟩
  | none => .error (.panic "Invalid UTF-8 in referral code")

end

namespace NoteURLPayload

variable {ε : Type} {hashes : PsiHashes} {bs58 : Bs58} {payload : NoteURLPayload}

/-- The versions there are; version 0 comes with its psi. -/
def Supported (payload : NoteURLPayload) : Prop :=
  payload.version = 0 ∧ payload.psi.isSome ∨ payload.version = 1 ∨ payload.version = 2

/-- The psi of a payload of a supported version. -/
theorem Supported.exists_notePsi (supported : payload.Supported) (hashes : PsiHashes) :
    ∃ psi, (payload.notePsi hashes : Except (Stop ε) _) = .ok psi := by
  rcases payload with ⟨version, privateKey, explicit, value, referralCode⟩
  rcases supported with ⟨rfl, isSome⟩ | rfl | rfl
  · cases explicit with
    | none => cases isSome
    | some psi => exact ⟨psi, rfl⟩
  · exact ⟨_, rfl⟩
  · exact ⟨_, rfl⟩

/-- The decoder finds the psi of `psi()`, in the link or by the key. -/
theorem decodePsi_append (supported : payload.Supported) {psi : Element}
    (psiEq : (payload.notePsi hashes : Except (Stop ε) _) = .ok psi) (rest : Bytes) :
    decodePsi hashes payload.version payload.privateKey
        (encodePsi payload.version payload.psi ++ rest) =
      (pure (some psi, rest) : Except (Stop ε) _) := by
  rcases payload with ⟨version, privateKey, explicit, value, referralCode⟩
  rcases supported with ⟨rfl, isSome⟩ | rfl | rfl
  · cases explicit with
    | none => cases isSome
    | some explicit =>
        cases psiEq
        change (readElement (psi.toBeBytes ++ rest) >>= _) = _
        rw [readElement_append]
        rfl
  · cases psiEq
    rw [encodePsi_of_ne_zero (show (1 : BitVec 8) ≠ 0 by decide)]
    rfl
  · cases psiEq
    rw [encodePsi_of_ne_zero (show (2 : BitVec 8) ≠ 0 by decide)]
    rfl

/-- A decoded payload is the payload with its psi made explicit. -/
theorem decode_encode (supported : payload.Supported) (inverts : bs58.Inverts) {psi : Element}
    (psiEq : (payload.notePsi hashes : Except (Stop ε) _) = .ok psi) :
    decodeActivityUrlPayload hashes bs58 (payload.encodeActivityUrlPayload bs58) =
      (.ok { payload with psi := some psi } : Except (Stop ε) _) := by
  simp only [decodeActivityUrlPayload, encodeActivityUrlPayload, inverts.intoVec, pure_bind,
    List.append_assoc, List.cons_append, List.nil_append, splitFirst_cons, readElement_append,
    decodePsi_append supported psiEq, decodeValue_append, fromUtf8_asBytes]
  rfl

/-- Making the psi explicit leaves it as it is. -/
theorem notePsi_explicit (supported : payload.Supported) {psi : Element}
    (psiEq : (payload.notePsi hashes : Except (Stop ε) _) = .ok psi) :
    (notePsi hashes { payload with psi := some psi } : Except (Stop ε) _) = .ok psi := by
  rcases payload with ⟨version, privateKey, explicit, value, referralCode⟩
  rcases supported with ⟨rfl, _⟩ | rfl | rfl
  · rfl
  · exact psiEq
  · exact psiEq

/-- The link keeps the payload apart from how its psi is written, and the notes of sender and
recipient have that psi. -/
def KeepsMeaning (hashes : PsiHashes) (bs58 : Bs58) (poseidon : Poseidon)
    (payload : NoteURLPayload) : Prop :=
  ∃ psi decoded, (payload.notePsi hashes : Except (Stop Empty) _) = .ok psi ∧
    decodeActivityUrlPayload hashes bs58 (payload.encodeActivityUrlPayload bs58) =
      (.ok decoded : Except (Stop Empty) _) ∧
    decoded.version = payload.version ∧ decoded.privateKey = payload.privateKey ∧
    decoded.value = payload.value ∧ decoded.referralCode = payload.referralCode ∧
    (decoded.notePsi hashes : Except (Stop Empty) _) = .ok psi ∧
    (payload.inputNote hashes poseidon).note.psi = psi ∧
    (decoded.inputNote hashes poseidon).note.psi = psi ∧
    (payload.inputNote hashes poseidon).note.commitment poseidon =
      (decoded.inputNote hashes poseidon).note.commitment poseidon

/-- An explicit psi is the one that the version derives, and an absent one is not left to
version 1. -/
def PsiFits (hashes : PsiHashes) (payload : NoteURLPayload) : Prop :=
  match payload.version.toNat, payload.psi with
  | 1, some psi => psi = hashes.keccakPsi payload.privateKey
  | 1, none =>
      hashes.hashPrivateKeyForPsi payload.privateKey = hashes.keccakPsi payload.privateKey
  | 2, some psi => psi = hashes.hashPrivateKeyForPsi payload.privateKey
  | _, _ => True

/-- The note of the sender has the psi of `psi()` exactly where the psi fits the version. -/
theorem psi_inputNote_iff (supported : payload.Supported) (poseidon : Poseidon) {psi : Element}
    (psiEq : (payload.notePsi hashes : Except (Stop ε) _) = .ok psi) :
    (payload.inputNote hashes poseidon).note.psi = psi ↔ payload.PsiFits hashes := by
  rcases payload with ⟨version, privateKey, explicit, value, referralCode⟩
  rcases supported with ⟨rfl, isSome⟩ | rfl | rfl
  · cases explicit with
    | none => cases isSome
    | some explicit =>
        cases psiEq
        exact iff_of_true rfl trivial
  · cases psiEq
    cases explicit <;> exact Iff.rfl
  · cases psiEq
    cases explicit with
    | none => exact iff_of_true rfl trivial
    | some explicit => exact Iff.rfl

/-- A link keeps its meaning exactly where its psi fits its version. -/
theorem keepsMeaning_iff {poseidon : Poseidon} (supported : payload.Supported)
    (inverts : bs58.Inverts) :
    payload.KeepsMeaning hashes bs58 poseidon ↔ payload.PsiFits hashes := by
  rcases supported.exists_notePsi (ε := Empty) hashes with ⟨psi, psiEq⟩
  constructor
  · rintro ⟨_, decoded, same, _, _, _, _, _, _, psiOfNote, _⟩
    exact (psi_inputNote_iff supported poseidon same).mp psiOfNote
  · intro fits
    have psiOfNote := (psi_inputNote_iff supported poseidon psiEq).mpr fits
    refine ⟨psi, { payload with psi := some psi }, psiEq, decode_encode supported inverts psiEq,
      rfl, rfl, rfl, rfl, notePsi_explicit supported psiEq, psiOfNote, rfl, ?_⟩
    apply congrArg (Note.commitment poseidon)
    exact congrArg (fun psi => Note.mk 2 bridgedPolygonUsdcNoteKind
      (hashMerge poseidon [payload.privateKey, Element.ZERO]) psi payload.value) psiOfNote

/-- A payload of version 1 for the key 101. -/
def firstVersion (psi : Option Element) : NoteURLPayload := ⟨1, 101, psi, 1, "friend"⟩

theorem firstVersion_supported (psi : Option Element) : (firstVersion psi).Supported :=
  .inr (.inl rfl)

/-- Two hashes that differ. -/
def lengthHashes : PsiHashes := ⟨fun bytes => BitVec.ofNat 256 bytes.length, fun _ => 7⟩

theorem explicitPsi_keepsMeaning :
    (firstVersion (some 32)).KeepsMeaning lengthHashes bitcoinBs58 List.sum :=
  (keepsMeaning_iff (firstVersion_supported _) bitcoinBs58_inverts).mpr
    (show (32 : Element) = lengthHashes.keccakPsi 101 by decide)

/-- Without its psi, a payload of version 1 stands for two different notes. -/
theorem absentPsi_changes :
    (firstVersion none).Supported ∧
      (∀ hashes : PsiHashes,
        hashes.hashPrivateKeyForPsi 101 ≠ hashes.keccakPsi 101 →
          ((firstVersion none).inputNote hashes List.sum).note.psi ≠ hashes.keccakPsi 101 ∧
            ¬(firstVersion none).KeepsMeaning hashes bitcoinBs58 List.sum) ∧
      ∃ hashes : PsiHashes, hashes.hashPrivateKeyForPsi 101 ≠ hashes.keccakPsi 101 := by
  refine ⟨firstVersion_supported _, ?_, lengthHashes, by decide⟩
  intro hashes differ
  refine ⟨differ, ?_⟩
  rintro ⟨_, _, psiEq, _, _, _, _, _, _, psiOfNote, _⟩
  exact differ ((psi_inputNote_iff (firstVersion_supported _) List.sum psiEq).mp psiOfNote)

end NoteURLPayload

end Ciphera.Cli
