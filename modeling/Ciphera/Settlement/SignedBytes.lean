import Ciphera.Settlement.Approvals

/-!
# The signed bytes

The node hashes a block, an approval and the network's name into the digest it
signs; the contract hashes three byte strings into the digest it recovers the
signers from.  Here both sides are written as the byte strings they hash, and
these are the same.
-/

namespace Ciphera.Node

/-! ## The byte strings of the node -/

/-- The bytes under a block hash. -/
def BlockContent.hashedBytes (keccak : Keccak) (content : BlockContent) : List (BitVec 8) :=
  beBytes 32 content.state.rootHash.toNat ++
    (beBytes 32 content.header.height ++ beBytes 32 (content.headerHash keccak).toNat)

theorem BlockContent.hash_eq_keccak (keccak : Keccak) (content : BlockContent) :
    content.hash keccak = keccak (content.hashedBytes keccak) := by
  rw [BlockContent.hash, BlockContent.hashedBytes, List.append_assoc]

/-- The bytes under the hash of an approval. -/
def ApprovalContent.hashedBytes (content : ApprovalContent) : Except String (List (BitVec 8)) :=
  match content.inner with
  | .endorsement hash => .ok (beBytes 32 content.targetHeight ++ beBytes 32 hash.toNat)
  | .skip _ => .error "not yet implemented"

theorem ApprovalContent.hash_eq_keccak (keccak : Keccak) (content : ApprovalContent) :
    content.hash keccak = content.hashedBytes.map keccak := by
  rcases content with ⟨_ | _, targetHeight⟩
  · rfl
  · rfl

/-- The bytes under the digest that is signed for a message. -/
def signedBytes (msg : CryptoHash) : List (BitVec 8) :=
  beBytes 8 NETWORK.length ++ (NETWORK ++ beBytes 32 msg.toNat)

theorem signingDigest_eq_keccak (keccak : Keccak) (msg : CryptoHash) :
    signingDigest keccak msg = keccak (signedBytes msg) := by
  rw [signingDigest, signedBytes, List.append_assoc]

/-- An approval is signed over the digest of its bytes. -/
theorem ApprovalContent.toApprovalValidated_of_hashedBytes {Key : Type} {keccak : Keccak}
    {secp : Secp256k1 Key} {content : ApprovalContent} {bytes : List (BitVec 8)}
    (hashed : content.hashedBytes = .ok bytes) (localPeer : Key) :
    content.toApprovalValidated keccak secp localPeer =
      .ok ⟨content,
        secp.signEcdsaRecoverable localPeer (signingDigest keccak (keccak bytes)),
        secp.address localPeer⟩ := by
  rw [ApprovalContent.toApprovalValidated, ApprovalContent.hash_eq_keccak, hashed]
  rfl

end Ciphera.Node

namespace Ciphera.Rollup

/-! ## The byte strings of the contract -/

/-- `abi.encode` of values that take one word each. -/
def abiEncode (words : List Element) : List (BitVec 8) :=
  words.flatMap fun word => beBytes 32 word.toNat

/-- An argument of `abi.encodePacked`. -/
inductive PackedValue
  | uint64 (value : BitVec 64)
  | string (text : List (BitVec 8))
  | bytes32 (word : Element)
  deriving DecidableEq, Repr

/-- Values are packed in their own width, and a text without its length. -/
def PackedValue.bytes : PackedValue → List (BitVec 8)
  | uint64 value => beBytes 8 value.toNat
  | string text => text
  | bytes32 word => beBytes 32 word.toNat

/-- The bytes of values, one after another. -/
def abiEncodePacked (values : List PackedValue) : List (BitVec 8) :=
  values.flatMap PackedValue.bytes

section SignatureMessage

variable (keccak : Keccak) (newRoot height otherHashFromBlockHash : Element)

/-- The preimage of `proposalHash`. -/
def proposalBytes : List (BitVec 8) := abiEncode [newRoot, height, otherHashFromBlockHash]

/-- The preimage of `acceptMsg`. -/
def acceptBytes : Outcome (List (BitVec 8)) := do
  let nextHeight ← checkedAdd height 1
  pure (abiEncode [nextHeight, keccak (proposalBytes newRoot height otherHashFromBlockHash)])

/-- The preimage of `sigMsg`. -/
def sigBytes : Outcome (List (BitVec 8)) := do
  let accepted ← acceptBytes keccak newRoot height otherHashFromBlockHash
  pure
    (abiEncodePacked
      [.uint64 (BitVec.ofNat 64 NETWORK_LEN), .string NETWORK, .bytes32 (keccak accepted)])

/-- The digest of the contract is the hash of its last byte string. -/
theorem getSignatureMessageHash_eq_keccak :
    getSignatureMessageHash keccak newRoot height otherHashFromBlockHash =
      (sigBytes keccak newRoot height otherHashFromBlockHash).map keccak := by
  rw [getSignatureMessageHash, sigBytes, acceptBytes]
  cases checkedAdd height 1 with
  | error stop => rfl
  | ok nextHeight =>
      simp only [proposalBytes, abiEncode, abiEncodePacked, PackedValue.bytes, List.flatMap_cons,
        List.flatMap_nil, List.append_nil, List.append_assoc]
      rfl

variable {height}

theorem acceptBytes_of_lt (fits : height.toNat + 1 < 2 ^ 256) :
    acceptBytes keccak newRoot height otherHashFromBlockHash =
      .ok (abiEncode
        [height + 1, keccak (proposalBytes newRoot height otherHashFromBlockHash)]) := by
  have added : checkedAdd height 1 = .ok (height + 1) := checkedAdd_eq_ok_iff.mpr ⟨fits, rfl⟩
  rw [acceptBytes, added]
  rfl

theorem sigBytes_of_lt (fits : height.toNat + 1 < 2 ^ 256) :
    sigBytes keccak newRoot height otherHashFromBlockHash =
      .ok (abiEncodePacked
        [.uint64 (BitVec.ofNat 64 NETWORK_LEN), .string NETWORK,
          .bytes32 (keccak (abiEncode
            [height + 1, keccak (proposalBytes newRoot height otherHashFromBlockHash)]))]) := by
  rw [sigBytes, acceptBytes_of_lt keccak newRoot otherHashFromBlockHash fits]
  rfl

end SignatureMessage

end Ciphera.Rollup

namespace Ciphera.Settlement

open Ciphera.Zk Ciphera.Node Ciphera.Prover
open Ciphera.Rollup (Recover)

section SignedBytes

variable {keccak : Keccak} {content : BlockContent}

theorem toNat_height (fits : content.header.height + 1 < 2 ^ 64) :
    (BitVec.ofNat 256 content.header.height).toNat = content.header.height := by
  rw [BitVec.toNat_ofNat]
  exact Nat.mod_eq_of_lt (by omega)

theorem toNat_height_succ (fits : content.header.height + 1 < 2 ^ 64) :
    (BitVec.ofNat 256 content.header.height + 1).toNat = content.header.height + 1 := by
  have one : (1 : Element).toNat = 1 := rfl
  rw [BitVec.toNat_add, toNat_height fits, one]
  exact Nat.mod_eq_of_lt (by omega)

/-- The contract hashes the bytes of the block. -/
theorem proposalBytes_eq_hashedBytes (fits : content.header.height + 1 < 2 ^ 64) :
    Rollup.proposalBytes content.state.rootHash (BitVec.ofNat 256 content.header.height)
      (content.headerHash keccak) = content.hashedBytes keccak := by
  simp only [Rollup.proposalBytes, Rollup.abiEncode, List.flatMap_cons, List.flatMap_nil,
    List.append_nil, toNat_height fits]
  rfl

/-- The contract hashes the bytes of the endorsement of the block. -/
theorem abiEncode_eq_hashedBytes (fits : content.header.height + 1 < 2 ^ 64) :
    (ApprovalContent.newEndorsement (content.hash keccak)
        (content.header.height + 1)).hashedBytes =
      .ok (Rollup.abiEncode
        [BitVec.ofNat 256 content.header.height + 1, keccak (content.hashedBytes keccak)]) := by
  simp only [Rollup.abiEncode, List.flatMap_cons, List.flatMap_nil, List.append_nil,
    toNat_height_succ fits, ← BlockContent.hash_eq_keccak]
  rfl

/-- The contract puts the same bytes in front of a message as a signing node. -/
theorem abiEncodePacked_eq_signedBytes (msg : CryptoHash) :
    Rollup.abiEncodePacked
        [.uint64 (BitVec.ofNat 64 Rollup.NETWORK_LEN), .string Rollup.NETWORK, .bytes32 msg] =
      signedBytes msg := by
  simp only [Rollup.abiEncodePacked, Rollup.PackedValue.bytes, List.flatMap_cons,
    List.flatMap_nil, List.append_nil]
  rfl

end SignedBytes

/-- For every block: the three byte strings that the node hashes to approve it
are the three that the contract hashes for its root, height and header hash, and
the contract recovers the approving node from the digest of the last. -/
theorem signed_bytes_agree {Key : Type} (keccak : Keccak) (secp : Secp256k1 Key)
    (content : BlockContent) (fits : content.header.height + 1 < 2 ^ 64) :
    let root := content.state.rootHash
    let height := BitVec.ofNat 256 content.header.height
    let headerHash := content.headerHash keccak
    let approval :=
      ApprovalContent.newEndorsement (content.hash keccak) (content.header.height + 1)
    ∃ approvalBytes,
      Rollup.proposalBytes root height headerHash = content.hashedBytes keccak ∧
        approval.hashedBytes = .ok approvalBytes ∧
        Rollup.acceptBytes keccak root height headerHash = .ok approvalBytes ∧
        Rollup.sigBytes keccak root height headerHash =
          .ok (signedBytes (keccak approvalBytes)) ∧
        ∃ digest,
          Rollup.getSignatureMessageHash keccak root height headerHash = .ok digest ∧
            digest = signingDigest keccak (keccak approvalBytes) ∧
            ∀ localPeer, ∃ validated,
              approval.toApprovalValidated keccak secp localPeer = .ok validated ∧
                validated.signature = secp.signEcdsaRecoverable localPeer digest ∧
                ∀ recover, RecoversSigners secp recover →
                  recover digest ((contractSignature validated.signature).v.setWidth 8)
                    (contractSignature validated.signature).r
                    (contractSignature validated.signature).s =
                      .ok (secp.address localPeer) := by
  intro root height headerHash approval
  have wordFits : height.toNat + 1 < 2 ^ 256 := by
    rw [toNat_height fits]
    exact Nat.lt_trans fits (by decide)
  have proposal : Rollup.proposalBytes root height headerHash = content.hashedBytes keccak :=
    proposalBytes_eq_hashedBytes fits
  have accepted := Rollup.acceptBytes_of_lt keccak root headerHash wordFits
  have signed := Rollup.sigBytes_of_lt keccak root headerHash wordFits
  rw [abiEncodePacked_eq_signedBytes] at signed
  rw [proposal] at accepted signed
  have approved : approval.hashedBytes =
      .ok (Rollup.abiEncode [height + 1, keccak (content.hashedBytes keccak)]) :=
    abiEncode_eq_hashedBytes fits
  refine ⟨_, proposal, approved, accepted, signed, _, ?_, rfl, ?_⟩
  · rw [Rollup.getSignatureMessageHash_eq_keccak, signed, signingDigest_eq_keccak]
    rfl
  · intro localPeer
    have validated : approval.toApprovalValidated keccak secp localPeer = _ :=
      ApprovalContent.toApprovalValidated_of_hashedBytes approved localPeer
    exact ⟨_, validated, rfl, fun recover recovers =>
      recover_contractSignature recovers localPeer _⟩

/-- A block at a height of two bytes. -/
def twoByteHeight : BlockContent where
  header := ⟨258, 7, 0, 0, []⟩
  state := ⟨5, []⟩

/-- The contract finds the first key under the approval of such a block. -/
theorem twoByteHeight_recovered :
    twoByteHeight.header.height + 1 < 2 ^ 64 ∧ RecoversSigners twoKeys recoverTwoKeys ∧
      ∀ keccak : Keccak, ∃ digest validated,
        Rollup.getSignatureMessageHash keccak 5 258 (twoByteHeight.headerHash keccak) =
            .ok digest ∧
          (ApprovalContent.newEndorsement (twoByteHeight.hash keccak) 259).toApprovalValidated
            keccak twoKeys false = .ok validated ∧
          recoverTwoKeys digest ((contractSignature validated.signature).v.setWidth 8)
            (contractSignature validated.signature).r
            (contractSignature validated.signature).s = .ok 1 := by
  have fits : twoByteHeight.header.height + 1 < 2 ^ 64 := by decide
  refine ⟨fits, recoversSigners_twoKeys, fun keccak => ?_⟩
  rcases signed_bytes_agree keccak twoKeys twoByteHeight fits with
    ⟨_, _, _, _, _, digest, hashed, _, approves⟩
  rcases approves false with ⟨validated, approved, _, recovered⟩
  exact ⟨digest, validated, hashed, approved, recovered _ recoversSigners_twoKeys⟩

end Ciphera.Settlement
