import Ciphera.Node.Block
import Ciphera.Rollup.Contract

/-!
# Approvals and leaders

A validator approves a block by signing its hash together with the height of the
next block.  Every signature of a node is over a digest that starts with the
name of the network.

Which validators there are at a height is read from the sets that the node has
loaded from the rollup contract; the leader changes with the height.
-/

namespace Ciphera.Node

open Ciphera.Rollup (Address)

/-- The name of the network in the texts that are signed. -/
def NETWORK : List (BitVec 8) := asciiBytes "Ciphera"

/-- The curve with recoverable signatures, as the node uses it. -/
structure Secp256k1 (Key : Type) where
  address : Key → Address
  signEcdsaRecoverable : Key → BitVec 256 → Signature
  fromCompact : Signature → Bool
  recoverEcdsa : BitVec 256 → Signature → Option Address

/-- A signature parses, and the address of its key is recovered from it. -/
structure Secp256k1.Lawful {Key : Type} (secp : Secp256k1 Key) : Prop where
  recoveryId : ∀ key digest, (secp.signEcdsaRecoverable key digest).v.toNat ≤ 3
  compact : ∀ key digest, secp.fromCompact (secp.signEcdsaRecoverable key digest) = true
  recovers : ∀ key digest,
    secp.recoverEcdsa digest (secp.signEcdsaRecoverable key digest) = some (secp.address key)

section Signing

variable {Key : Type} (keccak : Keccak) (secp : Secp256k1 Key)

/-- The digest that is signed for a message. -/
def signingDigest (msg : CryptoHash) : BitVec 256 :=
  keccak (beBytes 8 NETWORK.length ++ NETWORK ++ beBytes 32 msg.toNat)

/-- The signature of a hash, for this network. -/
def sign (localPeer : Key) (msg : CryptoHash) : Signature :=
  secp.signEcdsaRecoverable localPeer (signingDigest keccak msg)

/-- The signer of a message.  An unknown recovery id is no signature; other
malformed signatures panic. -/
def Signature.verify (signature : Signature) (msg : CryptoHash) :
    Except String (Option Address) :=
  if 3 < signature.v.toNat then .ok none
  else if secp.fromCompact signature then
    .ok (secp.recoverEcdsa (signingDigest keccak msg) signature)
  else .error "called unwrap on an Err value"

/-- An approval endorses its parent or skips from a height. -/
inductive ApprovalInner
  | endorsement (hash : CryptoHash)
  | skip (height : Nat)
  deriving DecidableEq, Repr

/-- What is approved of, and for which height. -/
structure ApprovalContent where
  inner : ApprovalInner
  targetHeight : Nat
  deriving DecidableEq, Repr

/-- An approval whose signer is known. -/
structure ApprovalValidated where
  content : ApprovalContent
  signature : Signature
  validator : Address
  deriving DecidableEq, Repr

/-- The endorsement of a parent. -/
def ApprovalContent.newEndorsement (parentHash : CryptoHash) (targetHeight : Nat) :
    ApprovalContent :=
  ⟨.endorsement parentHash, targetHeight⟩

/-- The hash that is signed; the one of a skip is not implemented. -/
def ApprovalContent.hash (content : ApprovalContent) : Except String CryptoHash :=
  match content.inner with
  | .endorsement hash =>
      .ok (keccak (beBytes 32 content.targetHeight ++ beBytes 32 hash.toNat))
  | .skip _ => .error "not yet implemented"

/-- An approval of the node itself, signed with its key. -/
def ApprovalContent.toApprovalValidated (localPeer : Key) (content : ApprovalContent) :
    Except String ApprovalValidated := do
  let hash ← content.hash keccak
  pure ⟨content, sign keccak secp localPeer hash, secp.address localPeer⟩

/-- A block signed by its proposer. -/
def BlockContent.toBlock (localPeer : Key) (content : BlockContent) : Block :=
  ⟨content, sign keccak secp localPeer (content.hash keccak)⟩

/-- The approval of a parent block by a node. -/
def endorsement (localPeer : Key) (parentHash : CryptoHash) (targetHeight : Nat) :
    ApprovalValidated where
  content := .newEndorsement parentHash targetHeight
  signature :=
    sign keccak secp localPeer
      (keccak (beBytes 32 targetHeight ++ beBytes 32 parentHash.toNat))
  validator := secp.address localPeer

variable {keccak secp}

@[simp]
theorem verify_sign (lawful : secp.Lawful) (localPeer : Key) (msg : CryptoHash) :
    (sign keccak secp localPeer msg).verify keccak secp msg =
      .ok (some (secp.address localPeer)) := by
  have known : ¬3 < (sign keccak secp localPeer msg).v.toNat :=
    Nat.not_lt_of_le (lawful.recoveryId localPeer _)
  rw [Signature.verify, if_neg known, sign, if_pos (lawful.compact localPeer _),
    lawful.recovers]

end Signing

/-! ## Validators -/

/-- A validator set as the node reads it from the contract. -/
structure ValidatorSet where
  validators : List Address
  validFrom : Element
  deriving DecidableEq, Repr

/-- The 64-bit number of a word, as the ethereum client reads it. -/
def asU64 (word : Element) : Except String Nat :=
  if word.toNat < 2 ^ 64 then .ok word.toNat else .error "Integer overflow when casting to u64"

/-- The first set of a list that is valid at a height. -/
def firstValid (height : Nat) : List ValidatorSet → Except String (Option ValidatorSet)
  | [] => .ok none
  | set :: rest => do
      let validFrom ← asU64 set.validFrom
      if validFrom ≤ height then pure (some set) else firstValid height rest

/-- `validators_for_height` of a signed contract: the sets are searched from the
back, and without validators the signer is the only one. -/
def validatorsForHeight (signerAddress : Address) (validatorSets : List ValidatorSet)
    (height : Nat) : Except String (List Address) := do
  let found ← firstValid height validatorSets.reverse
  let validators := (found.map ValidatorSet.validators).getD []
  pure (if validators.isEmpty then [signerAddress] else validators)

/-- The validators of a height take turns. -/
def leaderAmong (validators : List Address) (height : Nat) : Except String Address :=
  match validators[height % validators.length]? with
  | some leader => .ok leader
  | none => .error "attempt to calculate the remainder with a divisor of zero"

end Ciphera.Node
