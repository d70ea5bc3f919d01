import Ciphera.Node.Proposal
import Ciphera.Prover.Rollup
import Ciphera.Rollup.Verify

/-!
# Approvals against the validator sets

A block is submitted with the approvals in the header of the next block.  The
next block's proposer is the only one who approves, and it is chosen among the
validators of its own height; the contract looks for two thirds of the
validators of the submitted block.
-/

namespace Ciphera.Settlement

open Ciphera.Lib Ciphera.Zk Ciphera.Node Ciphera.Prover
open Ciphera.Noir (Poseidon)
open Ciphera.Rollup (Address Contract Recover Transfer ProofVerifier)

/-- `ECDSA.recover` of the contract finds the signer of a node's signature, and
never the zero address. -/
structure RecoversSigners {Key : Type} (secp : Secp256k1 Key) (recover : Recover) : Prop where
  lawful : secp.Lawful
  recovers : ∀ key digest,
    recover digest ((secp.signEcdsaRecoverable key digest).v + 27)
      (secp.signEcdsaRecoverable key digest).r (secp.signEcdsaRecoverable key digest).s =
        .ok (secp.address key)
  nonzero : ∀ digest v r s signer, recover digest v r s = .ok signer → signer ≠ 0

/-- The contract accepts the signatures of a submission. -/
def SignaturesPass {W : Type} (keccak : Keccak) (recover : Recover) (timestamp : Element)
    (contract : Contract W) (input : RollupInput) : Prop :=
  ∃ settled, contract.verifyValidatorSignatures keccak recover timestamp input.newRoot
    (BitVec.ofNat 256 input.height) input.otherHash (input.signatures.map contractSignature) =
      .ok settled

section Approvals

variable {W Key : Type} {keccak : Keccak} {secp : Secp256k1 Key} {recover : Recover}

/-- A node's signature keeps its parts on the way to the contract. -/
theorem recover_contractSignature (recovers : RecoversSigners secp recover) (key : Key)
    (digest : BitVec 256) :
    recover digest ((contractSignature (secp.signEcdsaRecoverable key digest)).v.setWidth 8)
        (contractSignature (secp.signEcdsaRecoverable key digest)).r
        (contractSignature (secp.signEcdsaRecoverable key digest)).s =
      .ok (secp.address key) := by
  have small : (secp.signEcdsaRecoverable key digest).v < 27 := by
    rw [BitVec.lt_def]
    exact Nat.lt_of_le_of_lt (recovers.lawful.recoveryId key digest) (by decide)
  rw [contractSignature, if_pos small, BitVec.setWidth_setWidth_of_le _ (by decide),
    BitVec.setWidth_eq]
  exact recovers.recovers key digest

/-- The digest of the contract is the one a node signs to endorse the block. -/
theorem getSignatureMessageHash_block {block : Block}
    (fits : block.content.header.height + 1 < 2 ^ 64) :
    Rollup.getSignatureMessageHash keccak block.content.state.rootHash
        (BitVec.ofNat 256 block.content.header.height) (block.content.headerHash keccak) =
      .ok (signingDigest keccak (keccak (beBytes 32 (block.content.header.height + 1) ++
        beBytes 32 (block.hash keccak).toNat))) := by
  have heightEq : (BitVec.ofNat 256 block.content.header.height).toNat =
      block.content.header.height := by
    rw [BitVec.toNat_ofNat]
    exact Nat.mod_eq_of_lt (by omega)
  refine Rollup.getSignatureMessageHash_eq_ok_iff.mpr ⟨by rw [heightEq]; omega, ?_⟩
  rw [heightEq]
  rfl

/-- One endorsement by one node passes exactly where it is all there is to ask
for. -/
theorem endorsement_passes_iff {contract : Contract W} {timestamp oldRoot : Element}
    {block next : Block} {localPeer : Key} (recovers : RecoversSigners secp recover)
    (valid : contract.Valid) (fits : block.content.header.height + 1 < 2 ^ 64)
    (unsettled : contract.blockHeight.toNat ≤ block.content.header.height)
    (approvals : next.content.header.approvals =
      [(endorsement keccak secp localPeer (block.hash keccak)
        (block.content.header.height + 1)).signature]) :
    SignaturesPass keccak recover timestamp contract (rollupInput keccak oldRoot block next) ↔
      contract.isProvingOpen timestamp = .ok true ∨
        contract.isProvingOpen timestamp = .ok false ∧
          contract.validators.validatorsAt block.content.header.height =
            some [secp.address localPeer] := by
  have heightEq : (BitVec.ofNat 256 block.content.header.height).toNat =
      block.content.header.height := by
    rw [BitVec.toNat_ofNat]
    exact Nat.mod_eq_of_lt (by omega)
  have recovered := recover_contractSignature recovers localPeer
    (signingDigest keccak (keccak (beBytes 32 (block.content.header.height + 1) ++
      beBytes 32 (block.hash keccak).toNat)))
  have checked := Rollup.Validators.Valid.verifySignatures_singleton_iff valid
    (show contract.blockHeight.toNat ≤
      (BitVec.ofNat 256 block.content.header.height).toNat by rwa [heightEq])
    (getSignatureMessageHash_block fits) recovered
    (recovers.nonzero _ _ _ _ _ recovered)
  rw [heightEq] at checked
  rw [← checked, SignaturesPass, rollupInput, approvals]
  simp only [Contract.verifyValidatorSignatures_eq_ok_iff]
  constructor
  · rintro ⟨settled, ⟨provingOpen, _⟩ | ⟨notOpen, validators, verified, _⟩⟩
    · exact Or.inl provingOpen
    · exact Or.inr ⟨notOpen, validators, verified⟩
  · rintro (provingOpen | ⟨notOpen, validators, verified⟩)
    · exact ⟨contract, Or.inl ⟨provingOpen, rfl⟩⟩
    · exact ⟨_, Or.inr ⟨notOpen, validators, verified, rfl⟩⟩

/-- A proposed block carries its proposer's approval of its predecessor. -/
theorem approvals_of_tick {S : Type} {poseidon : Poseidon} {verify : Verify} {tempNoir : Bool}
    {node after : NodeShared Key S} {storage : Rollup.Storage} {commitTime : Nat}
    {block next : Block}
    (proposed : node.tick poseidon keccak verify secp tempNoir storage commitTime =
      (after, .ok (some next)))
    (linked : next.content.header.lastBlockHash = block.hash keccak)
    (successor : next.content.header.height = block.content.header.height + 1) :
    next.content.header.approvals =
        [(endorsement keccak secp node.localPeer (block.hash keccak)
          (block.content.header.height + 1)).signature] ∧
      block.content.header.height + 1 < 2 ^ 64 := by
  obtain ⟨lastConfirmed, _, headerEq, _⟩ := NodeShared.propose_eq_ok (NodeShared.tick_eq_ok proposed)
  rw [← linked, ← successor, headerEq]
  exact ⟨rfl, Nat.mod_lt _ (by decide)⟩

end Approvals

/-- For every sequence of calls of the contract and every block above the
settled height whose successor is proposed by the leader of its height: the
approvals settle the block exactly while proving is open, or when the set in
force at the block consists of that leader. -/
theorem approvals_settle_iff {W Key S : Type} {poseidon : Poseidon} {keccak : Keccak}
    {verify : Verify} {secp : Secp256k1 Key} {tempNoir : Bool} {transfer : Transfer W}
    {recover : Recover} {verifyProof : ProofVerifier} (recovers : RecoversSigners secp recover)
    {world : W} {blockNumber : Element} {tokenAddress verifierAddress prover : Address}
    {initialValidators : List Address} {verifierKeyHash : Element} {start contract : Contract W}
    (deployed : Contract.initializeContract world blockNumber tokenAddress verifierAddress prover
      initialValidators verifierKeyHash = .ok start)
    {calls : List Contract.Call}
    (run : Run (Contract.Step keccak transfer recover verifyProof) start calls contract)
    {node after : NodeShared Key S} {storage : Rollup.Storage} {commitTime : Nat}
    {block next : Block}
    (proposed : node.tick poseidon keccak verify secp tempNoir storage commitTime =
      (after, .ok (some next)))
    (leads : node.getLeaderForBlockHeight next.content.header.height =
      .ok (secp.address node.localPeer))
    (linked : next.content.header.lastBlockHash = block.hash keccak)
    (successor : next.content.header.height = block.content.header.height + 1)
    (unsettled : contract.blockHeight.toNat < block.content.header.height)
    (timestamp oldRoot : Element) :
    SignaturesPass keccak recover timestamp contract (rollupInput keccak oldRoot block next) ↔
      contract.isProvingOpen timestamp = .ok true ∨
        contract.isProvingOpen timestamp = .ok false ∧
          ∃ leader, node.getLeaderForBlockHeight (block.content.header.height + 1) = .ok leader ∧
            contract.validators.validatorsAt block.content.header.height = some [leader] := by
  obtain ⟨approvals, fits⟩ := approvals_of_tick proposed linked successor
  rw [successor] at leads
  have valid := Contract.valid_of_run (Contract.valid_of_initializeContract deployed) run
  rw [endorsement_passes_iff recovers valid fits (Nat.le_of_lt unsettled) approvals]
  simp [leads]

/-! ## One and two validators -/

/-- A curve with two keys, whose signatures carry the address and the digest. -/
def twoKeys : Secp256k1 Bool where
  address key := if key then 2 else 1
  signEcdsaRecoverable key digest := ⟨if key then 2 else 1, digest, 0⟩
  fromCompact _ := true
  recoverEcdsa digest signature :=
    if signature.s = digest then some (signature.r.setWidth 160) else none

/-- Two keys whose signatures repeat the digest. -/
def recoverTwoKeys : Recover := fun digest v r s =>
  if s = digest ∧ v = 27 ∧ r.setWidth 160 ≠ 0#160 then .ok (r.setWidth 160)
  else .error (.error "ECDSAInvalidSignature")

theorem recoversSigners_twoKeys : RecoversSigners twoKeys recoverTwoKeys where
  lawful :=
    { recoveryId := fun key digest => Nat.zero_le 3
      compact := fun key digest => rfl
      recovers := fun key digest => by
        cases key <;> exact if_pos rfl }
  recovers := by
    intro key digest
    have nonzero : (1#256).setWidth 160 ≠ 0#160 ∧ (2#256).setWidth 160 ≠ 0#160 := by decide
    cases key with
    | false => exact if_pos ⟨rfl, rfl, nonzero.1⟩
    | true => exact if_pos ⟨rfl, rfl, nonzero.2⟩
  nonzero := by
    intro digest v r s signer recovered
    unfold recoverTwoKeys at recovered
    split_ifs at recovered with known
    rw [← Except.ok.inj recovered]
    exact known.2.2

/-- A validator with the first key, at the first block of its chain. -/
def firstValidator (keccak : Keccak) (validators : List Address) (chain : Chain) (block : Block) :
    NodeShared Bool Unit where
  localPeer := false
  signerAddress := 1
  validatorSets := [⟨validators, 0⟩]
  mode := .validator
  blockTxnsCount := 6
  badBlocks := []
  mempool := {}
  blockCache := BlockCache.new keccak block 10000
  chain := chain

/-- The first block of a chain, signed with the first key, and the second block,
which the first validator proposes. -/
def SecondProposed (poseidon : Poseidon) (keccak : Keccak) (validators : List Address)
    (block next : Block) : Prop :=
  ∃ chain after,
    Run (Chain.Step poseidon keccak (fun _ => true) false) Chain.genesis [(block, 0)] chain ∧
      (firstValidator keccak validators chain block).tick poseidon keccak (fun _ => true) twoKeys
        false {} 1 = (after, .ok (some next)) ∧
      next.content.header.lastBlockHash = block.hash keccak ∧
      next.content.header.height = 2 ∧ block.content.header.height = 1 ∧
      block.content.state.txns ≠ [] ∧
      (firstValidator keccak validators chain block).getLeaderForBlockHeight 2 = .ok 1

theorem exists_secondProposed (poseidon : Poseidon) (keccak : Keccak) {validators : List Address}
    (first : validators = [1] ∨ validators = [1, 2]) :
    ∃ block next, SecondProposed poseidon keccak validators block next := by
  obtain ⟨rootHash, chain, run⟩ := Chain.exists_run_firstOutput poseidon keccak
    fun content => (content.toBlock keccak twoKeys false).signature
  let block : Block := (outputBlock 1 rootHash 1).toBlock keccak twoKeys false
  have leads : (firstValidator keccak validators chain block).getLeaderForBlockHeight 2 =
      .ok 1 := by
    rcases first with rfl | rfl
    · exact show (orPanic (Node.validatorsForHeight 1 [⟨[1], 0⟩] 2) >>= fun validators =>
        orPanic (leaderAmong validators 2)) = .ok 1 from rfl
    · exact show (orPanic (Node.validatorsForHeight 1 [⟨[1, 2], 0⟩] 2) >>= fun validators =>
        orPanic (leaderAmong validators 2)) = .ok 1 from rfl
  have height : (firstValidator keccak validators chain block).blockCache.height = 1 :=
    BlockCache.height_new keccak block 10000
  have confirmed : (firstValidator keccak validators chain block).blockCache.hash =
      .ok (block.hash keccak) :=
    show (BlockCache.new keccak block 10000).hash = .ok (block.hash keccak) from
      BlockCache.hash_new (by decide)
  obtain ⟨after, next, ticked⟩ : ∃ after next,
      (firstValidator keccak validators chain block).tick poseidon keccak (fun _ => true) twoKeys
        false {} 1 = (after, .ok (some next)) := by
    apply NodeShared.exists_tick_idle recoversSigners_twoKeys.lawful rfl _ confirmed rfl
    rw [height]
    exact leads
  obtain ⟨lastConfirmed, lastEq, headerEq, _⟩ :=
    NodeShared.propose_eq_ok (NodeShared.tick_eq_ok ticked)
  obtain rfl := Except.ok.inj (lastEq.symm.trans confirmed)
  refine ⟨block, next, chain, after, run, ticked, ?_, ?_, rfl, ?_, leads⟩
  · rw [headerEq]
    rfl
  · rw [headerEq]
    change nextHeight (firstValidator keccak validators chain block).blockCache.height = 2
    rw [height]
    rfl
  · exact List.cons_ne_nil _ _

/-- A contract deployed with distinct validators. -/
theorem exists_deployed {validators : List Address} (distinct : validators.Nodup) :
    ∃ start : Contract Unit,
      Contract.initializeContract () 0 1 1 1 validators 0 = .ok start ∧
        start.blockHeight = 0 ∧ start.openProvingDelay = 0 ∧
        ∀ height, start.validators.validatorsAt height = some validators := by
  obtain ⟨initial, done, inForce⟩ := Rollup.Validators.exists_initial 0 distinct
  rw [Contract.initializeContract, done]
  exact ⟨_, rfl, rfl, rfl, inForce⟩

/-- With a single validator, the second block settles the first. -/
theorem oneValidator_settled :
    RecoversSigners twoKeys recoverTwoKeys ∧
      ∀ (poseidon : Poseidon) (keccak : Keccak), ∃ (start : Contract Unit) (block next : Block),
        Contract.initializeContract () 0 1 1 1 [1] 0 = .ok start ∧
          SecondProposed poseidon keccak [1] block next ∧
          SignaturesPass keccak recoverTwoKeys 0 start (rollupInput keccak 0 block next) := by
  refine ⟨recoversSigners_twoKeys, fun poseidon keccak => ?_⟩
  obtain ⟨start, deployed, blockHeight, delay, inForce⟩ :=
    exists_deployed (List.nodup_singleton (1 : Address))
  obtain ⟨block, next, second⟩ := exists_secondProposed poseidon keccak (Or.inl rfl)
  refine ⟨start, block, next, deployed, second, ?_⟩
  obtain ⟨chain, after, _, ticked, linked, nextHeight, height, _, leads⟩ := second
  have run : Run (Contract.Step keccak (fun (_ : Unit) _ _ _ => ((), ⟨false, []⟩)) recoverTwoKeys
      fun _ _ _ => false) start [] start := .nil
  refine (approvals_settle_iff recoversSigners_twoKeys deployed run ticked
    (by rw [nextHeight]; exact leads) linked (by rw [nextHeight, height])
    (by rw [blockHeight, height]; decide) 0 0).mpr (Or.inr ⟨?_, 1, ?_, inForce _⟩)
  · rw [Contract.isProvingOpen, delay]
    rfl
  · rw [height]
    exact leads

/-- With two validators the proposer's approval is not enough: the first block,
which is not empty, never settles by its signatures. -/
theorem twoValidators_not_settled :
    RecoversSigners twoKeys recoverTwoKeys ∧
      ∀ (poseidon : Poseidon) (keccak : Keccak), ∃ (start : Contract Unit) (block next : Block),
        Contract.initializeContract () 0 1 1 1 [1, 2] 0 = .ok start ∧
          SecondProposed poseidon keccak [1, 2] block next ∧
          ∀ timestamp oldRoot, ¬SignaturesPass keccak recoverTwoKeys timestamp start
            (rollupInput keccak oldRoot block next) := by
  refine ⟨recoversSigners_twoKeys, fun poseidon keccak => ?_⟩
  obtain ⟨start, deployed, blockHeight, delay, inForce⟩ :=
    exists_deployed (show ([1, 2] : List Address).Nodup by decide)
  obtain ⟨block, next, second⟩ := exists_secondProposed poseidon keccak (Or.inr rfl)
  refine ⟨start, block, next, deployed, second, ?_⟩
  obtain ⟨chain, after, _, ticked, linked, nextHeight, height, _, leads⟩ := second
  intro timestamp oldRoot passes
  obtain ⟨approvals, fits⟩ := approvals_of_tick ticked linked (by rw [nextHeight, height])
  have notOpen : start.isProvingOpen timestamp = .ok false := by
    rw [Contract.isProvingOpen, delay]
    rfl
  rw [endorsement_passes_iff recoversSigners_twoKeys
    (Contract.valid_of_initializeContract deployed) fits
    (by rw [blockHeight, height]; decide) approvals, notOpen, inForce] at passes
  simp at passes

end Ciphera.Settlement
