import Ciphera.Cli.Note
import Ciphera.Keccak
import Ciphera.Lib.Base58

/-!
# Fields of a payload

Addresses and links are byte strings in base 58.  An element takes 32 bytes, except for the
value, which comes last: the number of its leading zero bytes is written in one byte, and
they are left out.
-/

namespace Ciphera

/-- `Element::to_be_bytes` -/
def Element.toBeBytes (element : Element) : List (BitVec 8) := beBytes 32 element.toNat

/-- `Element::from_be_bytes` -/
def Element.fromBeBytes (bytes : List (BitVec 8)) : Element :=
  BitVec.ofNat 256 (Ciphera.fromBeBytes bytes)

@[simp]
theorem Element.length_toBeBytes (element : Element) : element.toBeBytes.length = 32 :=
  length_beBytes 32 _

@[simp]
theorem Element.fromBeBytes_toBeBytes (element : Element) :
    Element.fromBeBytes element.toBeBytes = element := by
  rw [fromBeBytes, toBeBytes, fromBeBytes_beBytes element.isLt]
  exact (BitVec.ofNat_toNat 256 element).trans (BitVec.setWidth_eq element)

end Ciphera

namespace Ciphera.Cli

open Ciphera.Lib Ciphera.Lib.Numerals

/-- The bytes of a payload. -/
abbrev Bytes := List (BitVec 8)

/-- The base 58 of a library. -/
structure Bs58 where
  encode : Bytes → String
  decode : String → Option Bytes

/-- Decoding inverts encoding. -/
def Bs58.Inverts (bs58 : Bs58) : Prop := ∀ bytes, bs58.decode (bs58.encode bytes) = some bytes

/-- The base 58 that is in use, with the letters of Bitcoin addresses. -/
def bitcoinBs58 : Bs58 := ⟨Base58.encode, Base58.decode⟩

theorem bitcoinBs58_inverts : bitcoinBs58.Inverts := Base58.decode_encode

section

variable {ε : Type}

/-- The bytes of a text; one that is not in base 58 panics. -/
def Bs58.intoVec (bs58 : Bs58) (text : String) : Except (Stop ε) Bytes :=
  match bs58.decode text with
  | some bytes => pure bytes
  | none => .error (.panic "Failed to decode base58 payload")

theorem Bs58.Inverts.intoVec {bs58 : Bs58} (inverts : bs58.Inverts) (bytes : Bytes) :
    bs58.intoVec (bs58.encode bytes) = (pure bytes : Except (Stop ε) Bytes) := by
  rw [Bs58.intoVec, inverts]

/-- `rest[0]` and what comes after it. -/
def splitFirst : Bytes → Except (Stop ε) (BitVec 8 × Bytes)
  | [] => .error (.panic "index out of bounds")
  | byte :: rest => pure (byte, rest)

/-- `rest[..count]` and what comes after it. -/
def splitBytes (count : Nat) (rest : Bytes) : Except (Stop ε) (Bytes × Bytes) :=
  if count ≤ rest.length then pure (rest.take count, rest.drop count)
  else .error (.panic "range end index out of range for slice")

/-- Read an element of 32 bytes. -/
def readElement (rest : Bytes) : Except (Stop ε) (Element × Bytes) := do
  let (bytes, rest) ← splitBytes 32 rest
  pure (Element.fromBeBytes bytes, rest)

/-- A psi is written in version 0 only. -/
def encodePsi (version : BitVec 8) : Option Element → Bytes
  | some psi => if version = 0 then psi.toBeBytes else []
  | none => []

/-- A value without its leading zeros, behind their number. -/
def encodeValue (value : Element) : Bytes :=
  BitVec.ofNat 8 (leadingZeros value.toBeBytes) ::
    value.toBeBytes.drop (leadingZeros value.toBeBytes)

/-- Read a value behind the number of its leading zeros. -/
def decodeValue (rest : Bytes) : Except (Stop ε) (Element × Bytes) := do
  let (zeros, rest) ← splitFirst rest
  -- Where the subtraction wraps, the slice below panics.
  check (zeros.toNat ≤ 32) (.panic "attempt to subtract with overflow")
  let (valueWithoutLeadingZeros, rest) ← splitBytes (32 - zeros.toNat) rest
  pure (Element.fromBeBytes (List.replicate zeros.toNat 0 ++ valueWithoutLeadingZeros), rest)

@[simp]
theorem splitFirst_cons (byte : BitVec 8) (rest : Bytes) :
    (splitFirst (byte :: rest) : Except (Stop ε) _) = pure (byte, rest) :=
  rfl

@[simp]
theorem splitBytes_append {count : Nat} {bytes : Bytes} (lengthEq : bytes.length = count)
    (rest : Bytes) :
    (splitBytes count (bytes ++ rest) : Except (Stop ε) _) = pure (bytes, rest) := by
  have enough : count ≤ (bytes ++ rest).length := by
    rw [List.length_append, lengthEq]
    exact Nat.le_add_right _ _
  rw [splitBytes, if_pos enough, List.take_left' lengthEq, List.drop_left' lengthEq]

@[simp]
theorem readElement_append (element : Element) (rest : Bytes) :
    (readElement (element.toBeBytes ++ rest) : Except (Stop ε) _) = pure (element, rest) := by
  rw [readElement, splitBytes_append element.length_toBeBytes]
  exact congrArg (fun read => Except.ok (read, rest)) element.fromBeBytes_toBeBytes

@[simp]
theorem encodePsi_of_ne_zero {version : BitVec 8} (nonzero : version ≠ 0) (psi : Option Element) :
    encodePsi version psi = [] := by
  cases psi with
  | none => rfl
  | some psi => exact if_neg nonzero

/-- A value is read back, whatever comes after it. -/
@[simp]
theorem decodeValue_append (value : Element) (rest : Bytes) :
    (decodeValue (encodeValue value ++ rest) : Except (Stop ε) _) = pure (value, rest) := by
  have zerosLe : leadingZeros value.toBeBytes ≤ 32 := by
    rw [← value.length_toBeBytes]
    exact leadingZeros_le_length _
  have byteEq : (BitVec.ofNat 8 (leadingZeros value.toBeBytes)).toNat =
      leadingZeros value.toBeBytes :=
    Nat.mod_eq_of_lt (Nat.lt_of_le_of_lt zerosLe (by decide))
  have lengthEq : (value.toBeBytes.drop (leadingZeros value.toBeBytes)).length =
      32 - leadingZeros value.toBeBytes := by
    rw [List.length_drop, value.length_toBeBytes]
  simp only [decodeValue, encodeValue, List.cons_append, splitFirst_cons, pure_bind, byteEq,
    check_of _ zerosLe, ok_bind, splitBytes_append lengthEq, replicate_append_drop,
    Element.fromBeBytes_toBeBytes]

end

end Ciphera.Cli
