import Ciphera.Node.Transaction
import Ciphera.Rollup.Settle
import Ciphera.Settlement.Aggregable

/-!
# Admitted transactions and the contract

The node checks the deposit of each mint on its own and nothing about burns.
The contract also refuses a deposit that is used twice in one settlement, a
token it does not know, and, since it sees the proven residues only, a mint
whose words are not canonical.
-/

namespace Ciphera.Settlement

open Ciphera.Lib Ciphera.Noir Ciphera.Node Ciphera.Prover Ciphera.Rollup Ciphera.Smirk Ciphera.Zk

/-- A word as it comes out of a proof. -/
def proven (word : Element) : Element := Element.fromBase word.toBase

/-- The deposit that a transaction uses in the contract. -/
def provenMintHash (txn : UtxoProof) : Option Element := txn.mintHash.map proven

/-- Burns are of supported tokens, mints have their deposits, also after
reduction of their words, and no deposit is used twice. -/
structure Backed (storage : Storage) (txns : List UtxoProof) : Prop where
  burns : ∀ txn ∈ txns, txn.kind = .burn ∨ txn.kind = .noSub →
    storage.tokens (proven (txn.publicInputs.messages.get 1)) ≠ 0
  mints : ∀ txn ∈ txns, txn.kind = .mint →
    storage.mints (proven (txn.publicInputs.messages.get 3)) =
      ⟨proven (txn.publicInputs.messages.get 1), proven (txn.publicInputs.messages.get 2), false⟩
  distinct : (txns.filterMap provenMintHash).Nodup

/-- The message of each kind of transaction. -/
theorem settledMessages_eq (txn : UtxoProof) :
    settledMessages txn.publicInputs =
      match txn.kind with
      | .null | .send => []
      | .mint =>
          [.mint (proven (txn.publicInputs.messages.get 1))
            (proven (txn.publicInputs.messages.get 2)) (proven (txn.publicInputs.messages.get 3))]
      | .burn =>
          [.burn false (proven (txn.publicInputs.messages.get 1))
            (proven (txn.publicInputs.messages.get 2)) (proven (txn.publicInputs.messages.get 3))
            (proven (txn.publicInputs.messages.get 4))]
      | .noSub =>
          [.burn true (proven (txn.publicInputs.messages.get 1))
            (proven (txn.publicInputs.messages.get 2)) (proven (txn.publicInputs.messages.get 3))
            (proven (txn.publicInputs.messages.get 4))] := by
  rw [settledMessages, UtxoProof.kind]
  cases txn.publicInputs.kind <;> rfl

theorem provenMintHash_eq (txn : UtxoProof) :
    provenMintHash txn =
      if txn.kind = .mint then some (proven (txn.publicInputs.messages.get 3)) else none := by
  rw [provenMintHash, UtxoProof.mintHash, UtxoPublicInput.mintHash, UtxoPublicInput.kindMessages,
    UtxoProof.kind]
  cases txn.publicInputs.kind <;> rfl

/-- A transaction uses at most one deposit. -/
@[simp]
theorem filterMap_settledMessages (txn : UtxoProof) :
    (settledMessages txn.publicInputs).filterMap Message.mintHash =
      (provenMintHash txn).toList := by
  rw [settledMessages_eq, provenMintHash_eq]
  cases txn.kind <;> rfl

@[simp]
theorem filterMap_flatMap_settledMessages (txns : List UtxoProof) :
    (txns.flatMap fun txn => settledMessages txn.publicInputs).filterMap Message.mintHash =
      txns.filterMap provenMintHash := by
  induction txns with
  | nil => rfl
  | cons txn txns ih =>
      rw [List.flatMap_cons, List.filterMap_append, filterMap_settledMessages, ih]
      cases found : provenMintHash txn <;> simp [found]

/-- What the messages of one transaction ask of the contract. -/
theorem payable_settledMessages_iff {storage : Storage} {txn : UtxoProof} :
    (∀ message ∈ settledMessages txn.publicInputs, Payable storage message) ↔
      (txn.kind = .burn ∨ txn.kind = .noSub →
        storage.tokens (proven (txn.publicInputs.messages.get 1)) ≠ 0) ∧
      (txn.kind = .mint →
        storage.mints (proven (txn.publicInputs.messages.get 3)) =
          ⟨proven (txn.publicInputs.messages.get 1), proven (txn.publicInputs.messages.get 2),
            false⟩) := by
  rw [settledMessages_eq]
  cases txn.kind <;> simp [Payable]

theorem backed_iff {storage : Storage} {txns : List UtxoProof} :
    Backed storage txns ↔
      (∀ message ∈ txns.flatMap fun txn => settledMessages txn.publicInputs,
        Payable storage message) ∧
      ((txns.flatMap fun txn => settledMessages txn.publicInputs).filterMap
        Message.mintHash).Nodup := by
  rw [filterMap_flatMap_settledMessages, List.forall_mem_flatMap]
  simp only [payable_settledMessages_iff]
  constructor
  · rintro ⟨burns, mints, distinct⟩
    exact ⟨fun txn mem => ⟨burns txn mem, mints txn mem⟩, distinct⟩
  · rintro ⟨payable, distinct⟩
    exact ⟨fun txn mem => (payable txn mem).1, fun txn mem => (payable txn mem).2, distinct⟩

section Settling

variable {W : Type} {keccak : Keccak} {transfer : Transfer W} {poseidon : Poseidon}
  {verify : Verify} {attach : UtxoProof → Attachment} {txns : List UtxoProof}
  {words : List Element} {state : State W} {oldRoot newRoot commitHash height : Element}

/-- The contract settles the words of an aggregated block exactly when its
transactions are backed. -/
theorem settles_iff_backed (standard : transfer.Standard)
    (kinds : ∀ txn ∈ txns, (txn.publicInputs.messages.get 0).toBase ≠ 0)
    (settles : Settles attach txns words) :
    (∃ after, verifyAllMessages keccak transfer 3 (oldRoot :: newRoot :: commitHash :: words) 30
        height state = .ok after) ↔ Backed state.storage txns := by
  rcases settles with ⟨aggregable, wordsEq⟩
  rcases (aggregable_iff_regular kinds).mp aggregable with ⟨short, regular⟩
  rw [wordsEq]
  have length : (oldRoot :: newRoot :: commitHash :: blockMessages txns).length = 3 + 30 := by
    simp [length_blockMessages]
  have parsed := parseMessages_blockMessages short kinds regular
  rw [backed_iff, ← foldlM_settleMessage_eq_ok_iff standard]
  constructor
  · rintro ⟨after, settled⟩
    rcases (verifyAllMessages_eq_ok_iff length).mp settled with ⟨messages, read, folded⟩
    have messagesEq := Option.some.inj (parsed.symm.trans read)
    rw [← messagesEq] at folded
    exact ⟨after, folded⟩
  · rintro ⟨after, folded⟩
    exact ⟨after, (verifyAllMessages_eq_ok_iff length).mpr ⟨_, parsed, folded⟩⟩

/-- Admitted transactions settle exactly when they are backed. -/
theorem admitted_settle_iff {store : Store} {notesTree : PersistentMerkleTree}
    (standard : transfer.Standard) (sound : verify.Sound poseidon)
    (admitted : ∀ txn ∈ txns,
      validateTransaction verify state.storage store notesTree txn = .ok ())
    (settles : Settles attach txns words) :
    (∃ after, verifyAllMessages keccak transfer 3 (oldRoot :: newRoot :: commitHash :: words) 30
        height state = .ok after) ↔ Backed state.storage txns := by
  refine settles_iff_backed standard (fun txn mem => ?_) settles
  exact sound.kind_ne_zero (validateTransaction_eq_ok_iff.mp (admitted txn mem)).2.verified

end Settling

/-! ## A burn of nothing -/

/-- A burn of padding notes: its note kind is zero. -/
def paddingBurn : UtxoProof := paddingTxn 3 9

theorem paddingBurn_settles (attach : UtxoProof → Attachment) :
    Settles attach [paddingBurn] (blockMessages [paddingBurn]) := by
  have kinds : ∀ txn ∈ [paddingBurn], (txn.publicInputs.messages.get 0).toBase ≠ 0 := by
    intro txn mem
    rw [List.mem_singleton.mp mem]
    decide
  refine ⟨(aggregable_iff_regular kinds).mpr ⟨by decide, fun txn mem => ?_⟩, rfl⟩
  rw [List.mem_singleton.mp mem]
  exact ⟨rfl, by decide, by decide⟩

theorem validateTransaction_paddingBurn {verify : Verify} (storage : Storage)
    (verified : verify paddingBurn = true) :
    validateTransaction verify storage {} emptyTree paddingBurn = .ok () := by
  refine validateTransaction_eq_ok_iff.mpr ⟨fun mintMsgs messages => ?_, ?_⟩
  · cases messages
  · exact singleOutput_valid verified (by decide) (not_mem_emptyTree 0)
      (BlockStore.not_recorded_empty 0) fun mintHash _ => BlockStore.not_minted_empty mintHash

/-- With every token supported it settles, here with a token that refuses. -/
theorem paddingBurn_settled :
    ∃ verify, Verify.Sound (fun _ => 0) verify ∧
      validateTransaction verify { tokens := fun _ => 1 } {} emptyTree paddingBurn = .ok () ∧
      ∃ after, verifyAllMessages (fun _ => 0)
        (fun (_ : Unit) _ _ _ => ((), ⟨false, []⟩)) 3
        (0 :: 0 :: 0 :: blockMessages [paddingBurn]) 30 1 ⟨{ tokens := fun _ => 1 }, ()⟩ =
          .ok after := by
  let verify : Verify := fun proof => proof = paddingBurn
  let attach : UtxoProof → Attachment := fun _ =>
    ⟨Vector.replicate 508 0, Vector.replicate 2 (Vector.replicate 160 0),
      Vector.replicate 2 (Vector.replicate 160 0)⟩
  have sound : verify.Sound fun _ => 0 := by
    intro proof verified
    have same : proof = paddingBurn := decide_eq_true_iff.mp verified
    rw [same]
    exact ⟨_, paddingWitness_accepted _ 9 (Or.inr rfl)⟩
  have admitted : validateTransaction verify { tokens := fun _ => 1 } {} emptyTree paddingBurn =
      .ok () := validateTransaction_paddingBurn _ (decide_eq_true rfl)
  have standard : Transfer.Standard fun (_ : Unit) _ _ _ => ((), ⟨false, []⟩) := by
    intro world token recipient amount success
    cases success
  have allAdmitted : ∀ txn ∈ [paddingBurn],
      validateTransaction verify { tokens := fun _ => 1 } {} emptyTree txn = .ok () := by
    intro txn mem
    rw [List.mem_singleton.mp mem]
    exact admitted
  refine ⟨verify, sound, admitted, (admitted_settle_iff standard sound allAdmitted
    (paddingBurn_settles attach)).mpr ⟨fun _ _ _ => ?_, fun txn mem mint => ?_, ?_⟩⟩
  · exact show (1 : Address) ≠ 0 by decide
  · rw [List.mem_singleton.mp mem] at mint
    cases mint
  · exact List.nodup_nil

/-- The circuit accepts a burn of padding notes and the node admits it against
the contract as it is initialised, but the contract knows no token for its note
kind. -/
theorem paddingBurn_reverts :
    (∀ poseidon, Utxo.main poseidon (paddingWitness 3 9) = .ok () ∧
        (paddingWitness 3 9).publicInputs = paddingBurn.publicInputs.residues) ∧
      ∀ (verify : Verify) (token : Address) (attach : UtxoProof → Attachment),
        verify paddingBurn = true →
          validateTransaction verify (initialStorage token) {} emptyTree paddingBurn = .ok () ∧
          Settles attach [paddingBurn] (blockMessages [paddingBurn]) ∧
          ∀ (W : Type) (keccak : Keccak) (transfer : Transfer W) (world : W)
            (oldRoot newRoot commitHash height : Element), transfer.Standard →
              ¬∃ after, verifyAllMessages keccak transfer 3
                (oldRoot :: newRoot :: commitHash :: blockMessages [paddingBurn]) 30 height
                ⟨initialStorage token, world⟩ = .ok after := by
  refine ⟨fun poseidon => paddingWitness_accepted poseidon 9 (Or.inr rfl),
    fun verify token attach verified => ⟨validateTransaction_paddingBurn _ verified,
      paddingBurn_settles attach, ?_⟩⟩
  intro W keccak transfer world oldRoot newRoot commitHash height standard settled
  have kinds : ∀ txn ∈ [paddingBurn], (txn.publicInputs.messages.get 0).toBase ≠ 0 := by
    intro txn mem
    rw [List.mem_singleton.mp mem]
    decide
  have backed := (settles_iff_backed standard kinds (paddingBurn_settles attach)).mp settled
  exact backed.burns paddingBurn (List.mem_singleton_self _) (Or.inl rfl) rfl

end Ciphera.Settlement
