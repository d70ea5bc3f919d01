import Ciphera.Rollup.Calls

/-!
# Signatures and heights over every sequence of calls

While proving is not open, an accepted rollup carries signatures of more than
two thirds of the validators in force at its height.  The index of the set in
use only moves forward, up to the heights that were accepted.

The height is an argument that no proof binds.  While proving is open nothing
bounds it from above.
-/

namespace Ciphera.Rollup

open Ciphera.Lib

/-! ## Signers -/

/-- At least `2n/3 + 1` distinct validators out of `n` have signed the digest of a
block. -/
structure Endorsed (keccak : Keccak) (recover : Recover)
    (newRoot height otherHashFromBlockHash : Element) (signatures : List Signature)
    (validators signers : List Address) : Prop where
  distinct : signers.Nodup
  members : ∀ signer ∈ signers, signer ∈ validators
  enough : validators.length * 2 / 3 + 1 ≤ signers.length
  signed : ∃ digest,
    getSignatureMessageHash keccak newRoot height otherHashFromBlockHash = .ok digest ∧
      ∀ signer ∈ signers, ∃ signature ∈ signatures,
        recover digest (signature.v.setWidth 8) signature.r signature.s = .ok signer

section

variable {keccak : Keccak} {recover : Recover}

/-- The loop over the signatures meets increasing members, one for each
signature. -/
theorem exists_signers_of_checkSigner {validatorSet : ValidatorSet} {sigHash : Element}
    {previous last : Address} {signatures : List Signature}
    (checked : signatures.foldlM (checkSigner recover validatorSet sigHash) previous = .ok last) :
    ∃ signers : List Address, signers.length = signatures.length ∧
      (previous :: signers).Pairwise (· < ·) ∧
      ∀ signer ∈ signers, validatorSet.validators signer = true ∧
        ∃ signature ∈ signatures,
          recover sigHash (signature.v.setWidth 8) signature.r signature.s = .ok signer := by
  induction signatures generalizing previous with
  | nil => exact ⟨[], rfl, List.pairwise_singleton _ _, fun _ mem => absurd mem List.not_mem_nil⟩
  | cons signature signatures ih =>
      rw [List.foldlM_cons, bind_eq_ok_iff] at checked
      rcases checked with ⟨signer, first, rest⟩
      rcases checkSigner_eq_ok_iff.mp first with ⟨recovered, member, above⟩
      rcases ih rest with ⟨signers, length, sorted, found⟩
      refine ⟨signer :: signers, congrArg (· + 1) length, ?_, ?_⟩
      · rw [List.pairwise_cons]
        refine ⟨?_, sorted⟩
        intro other mem
        rcases List.mem_cons.mp mem with rfl | behind
        · exact above
        · exact BitVec.lt_trans above ((List.pairwise_cons.mp sorted).1 other behind)
      · intro other mem
        rcases List.mem_cons.mp mem with rfl | behind
        · exact ⟨member, signature, List.mem_cons_self, recovered⟩
        · rcases found other behind with ⟨otherMember, otherSignature, otherMem, otherRecovered⟩
          exact ⟨otherMember, otherSignature, List.mem_cons_of_mem _ otherMem, otherRecovered⟩

/-- Checked signatures endorse the block, against the set in force at its height. -/
theorem Validators.Valid.endorsed {storage next : Validators}
    {blockHeight newRoot height otherHashFromBlockHash : Element} {signatures : List Signature}
    (valid : storage.Valid blockHeight) (above : blockHeight.toNat ≤ height.toNat)
    (verified : storage.verifySignatures keccak recover newRoot height otherHashFromBlockHash
      signatures = .ok next) :
    ∃ validators signers, storage.validatorsAt height.toNat = some validators ∧
      Endorsed keccak recover newRoot height otherHashFromBlockHash signatures validators
        signers := by
  simp only [verifySignatures, bind_eq_ok_iff, require_eq_ok_iff,
    valid.getValidators_update_eq_ok_iff above] at verified
  rcases verified with ⟨set, found, _, _, _, enough, digest, hashed, _, checked, _⟩
  have consistent := valid.consistent set (mem_of_inForce found).1
  rcases exists_signers_of_checkSigner checked with ⟨signers, length, sorted, members⟩
  refine ⟨set.validatorsArray, signers, by rw [validatorsAt, found]; rfl, ?_, ?_, ?_, ?_⟩
  · apply (List.pairwise_cons.mp sorted).2.imp
    intro first second less same
    rw [same] at less
    exact BitVec.lt_irrefl second less
  · intro signer mem
    exact (consistent.member_iff signer).mp (members signer mem).1
  · rw [length]
    exact enough
  · exact ⟨digest, hashed, fun signer mem => (members signer mem).2⟩

end

/-! ## Steps of the whole contract -/

/-- The heights of accepted rollups. -/
def RollupV1.Action.heights {W : Type} : Action W → List Element
  | accepted _ (.verifyRollup rollup) => [rollup.height]
  | _ => []

namespace RollupV1

variable {W : Type} {externals : Externals W} {here : Address} {env : Env}
  {start contract next : RollupV1 W}

/-- A call that is not a rollup keeps the height; all but `setValidators` keep the
validator sets. -/
theorem blockHeight_of_call {request : Call}
    (done : contract.call externals here env request = .ok next)
    (notRollup : ∀ rollup, request ≠ .verifyRollup rollup) :
    next.blockHeight = contract.blockHeight ∧
      (next.validators = contract.validators ∨
        ∃ validFrom validators sets,
          contract.validators.setValidators env.blockNumber validFrom validators = .ok sets ∧
            next.toContract = { contract.toContract with validators := sets }) := by
  cases request with
  | mint mintHash value noteKind =>
      rcases mint_eq_ok_iff.mp done with ⟨_, _, _, rfl⟩
      exact ⟨rfl, .inl rfl⟩
  | mintClaimed mintHash value noteKind =>
      rcases mintClaimed_eq_ok_iff.mp done with ⟨_, _, rfl⟩
      exact ⟨rfl, .inl rfl⟩
  | verifyRollup rollup => exact absurd rfl (notRollup rollup)
  | substituteBurn burnAddress noteKind hash amount burnBlockHeight =>
      rcases (substitutes_of_substituteBurn done).paid with ⟨_, _, _, _, rfl⟩
      exact ⟨rfl, .inl rfl⟩
  | initializeV2 arguments =>
      obtain ⟨_, _, rfl⟩ := eq_upgraded_of_initializeV2 done
      exact ⟨rfl, .inl rfl⟩
  | burnClaimed substituteAddress substituteBurnKey =>
      obtain rfl := eq_of_burnClaimed done
      exact ⟨rfl, .inl rfl⟩
  | setValidators validFrom validators =>
      obtain ⟨sets, added, rfl⟩ := setValidators_eq_ok done
      exact ⟨rfl, .inr ⟨validFrom, validators, sets, added, rfl⟩⟩
  | _ =>
      have frame := frame_of_setting rfl done
      exact ⟨frame.blockHeight, .inl frame.validators⟩

/-- What a step does to the validator sets and the height, as a step of the
contract without its other calls. -/
theorem Step.toContract {action : Action W} (taken : Step externals here contract action next) :
    ∃ call, Contract.Step externals.keccak externals.transfer externals.recover
      externals.verifyProof contract.toContract call next.toContract := by
  cases taken with
  | @accepted _ env request done =>
      by_cases isRollup : ∃ rollup, request = .verifyRollup rollup
      · rcases isRollup with ⟨rollup, rfl⟩
        rcases bind_eq_ok_iff.mp done with ⟨after, verified, result⟩
        obtain rfl := pure_eq_ok_iff.mp result
        exact ⟨_, .verifyRollup verified⟩
      · rcases blockHeight_of_call done fun rollup same => isRollup ⟨rollup, same⟩ with
          ⟨height, kept | ⟨validFrom, validators, sets, added, result⟩⟩
        · exact ⟨_, .other kept height⟩
        · rw [result]
          exact ⟨_, .setValidators added⟩
  | reverted _ => exact ⟨_, .other rfl rfl⟩
  | elsewhere => exact ⟨_, .other rfl rfl⟩

theorem valid_of_initializeV1 {world : W} {blockNumber : Element}
    {owner escrowManager tokenAddress verifierAddress prover : Address}
    {initialValidators : List Address} {verifierKeyHash : Element}
    (initial : initializeV1 world blockNumber owner escrowManager tokenAddress verifierAddress
      prover initialValidators verifierKeyHash = .ok start) :
    start.toContract.Valid ∧ start.blockHeight = 0 := by
  rcases bind_eq_ok_iff.mp initial with ⟨created, initialized, result⟩
  obtain rfl := pure_eq_ok_iff.mp result
  refine ⟨Contract.valid_of_initializeContract initialized, ?_⟩
  rcases bind_eq_ok_iff.mp initialized with ⟨_, _, created⟩
  obtain rfl := pure_eq_ok_iff.mp created
  rfl

theorem valid_of_run {actions : List (Action W)} (initial : start.toContract.Valid)
    (run : Run (Step externals here) start actions contract) : contract.toContract.Valid := by
  induction run with
  | nil => exact initial
  | snoc _ taken ih =>
      rcases taken.toContract with ⟨_, taken⟩
      exact taken.valid ih

/-- The index of the validator set in use does not go back. -/
theorem Step.validatorSetIndex_le {action : Action W}
    (taken : Step externals here contract action next) :
    contract.validators.validatorSetIndex ≤ next.validators.validatorSetIndex := by
  rcases taken.toContract with ⟨_, taken⟩
  generalize contract.toContract = before at taken
  generalize next.toContract = after at taken
  cases taken with
  | setValidators done =>
      rcases Validators.setValidators_spec done with ⟨_, _, _, _, _, rfl⟩
      exact Nat.le_refl _
  | verifyRollup done =>
      rcases (Contract.verifyRollup_spec done).1 with kept | updated
      · rw [kept]
      · rw [updated]
        exact le_advance _ _ _ _
  | other kept _ => rw [kept]

theorem validatorSetIndex_le_of_run {actions : List (Action W)}
    (run : Run (Step externals here) start actions contract) :
    start.validators.validatorSetIndex ≤ contract.validators.validatorSetIndex := by
  induction run with
  | nil => exact Nat.le_refl _
  | snoc _ taken ih => exact ih.trans taken.validatorSetIndex_le

/-- Nor does the height. -/
theorem Step.blockHeight_le {action : Action W}
    (taken : Step externals here contract action next) :
    contract.blockHeight.toNat ≤ next.blockHeight.toNat := by
  rcases taken.toContract with ⟨_, taken⟩
  generalize contract.toContract = before at taken
  generalize next.toContract = after at taken
  cases taken with
  | setValidators done => exact Nat.le_refl _
  | verifyRollup done =>
      rcases Contract.verifyRollup_spec done with ⟨_, moved, above⟩
      rw [moved]
      exact Nat.le_of_lt (BitVec.lt_def.mp above)
  | other _ kept => rw [kept]

/-- The height of the contract against the heights that were accepted. -/
structure Highest (heights : List Element) (blockHeight : Element) : Prop where
  le : ∀ height ∈ heights, height.toNat ≤ blockHeight.toNat
  reached : blockHeight = 0 ∨ blockHeight ∈ heights

theorem Highest.step {heights : List Element} {action : Action W}
    (highest : Highest heights contract.blockHeight)
    (taken : Step externals here contract action next) :
    Highest (heights ++ action.heights) next.blockHeight := by
  have kept : action.heights = [] → next.blockHeight = contract.blockHeight →
      Highest (heights ++ action.heights) next.blockHeight := by
    intro none same
    rw [none, List.append_nil, same]
    exact highest
  cases taken with
  | @accepted _ env request done =>
      cases request with
      | verifyRollup rollup =>
          rcases accepts_of_verifyRollup done with ⟨messages, accepts, _⟩
          have moved : next.blockHeight = rollup.height := by rw [accepts.effect]
          have above := BitVec.lt_def.mp accepts.above
          rw [Action.heights, moved]
          refine ⟨?_, .inr (List.mem_append_right _ List.mem_cons_self)⟩
          intro height mem
          rcases List.mem_append.mp mem with old | new
          · exact (highest.le height old).trans (Nat.le_of_lt above)
          · rw [List.mem_singleton.mp new]
      | _ => exact kept rfl (blockHeight_of_call done (by rintro _ ⟨⟩)).1
  | reverted _ | elsewhere => exact kept rfl rfl

theorem highest_of_run {actions : List (Action W)} (initial : start.blockHeight = 0)
    (run : Run (Step externals here) start actions contract) :
    Highest (actions.flatMap Action.heights) contract.blockHeight := by
  induction run with
  | nil => exact ⟨fun _ mem => absurd mem List.not_mem_nil, .inl initial⟩
  | snoc _ taken ih =>
      rw [List.flatMap_append, List.flatMap_singleton]
      exact ih.step taken

/-- The sets that the index has reached or passed were valid at a height that was
accepted. -/
theorem started_of_valid {position : Nat} {set : ValidatorSet} (valid : contract.toContract.Valid)
    (le : position ≤ contract.validators.validatorSetIndex)
    (found : contract.validators.validatorSets[position]? = some set) :
    set.start ≤ contract.blockHeight.toNat := by
  rcases valid.current with ⟨current, currentFound, started⟩
  rcases List.getElem?_eq_some_iff.mp found with ⟨bound, rfl⟩
  rcases List.getElem?_eq_some_iff.mp currentFound with ⟨currentBound, rfl⟩
  rcases Nat.lt_or_eq_of_le le with less | rfl
  · have ordered := List.pairwise_iff_getElem.mp valid.ordered _ _ bound currentBound less
    exact (Nat.le_of_lt ordered).trans started
  · exact started

end RollupV1

/-- Over every sequence of calls: a rollup that is accepted while proving is not open is
endorsed by enough of the validators in force at its height; the index of the set in use never
decreases; and it never passes a set that becomes valid above every accepted height. -/
theorem signature_threshold {W : Type} {externals : Externals W} {here : Address}
    {start contract : RollupV1 W} {actions : List (RollupV1.Action W)} {world : W}
    {blockNumber : Element} {owner escrowManager tokenAddress verifierAddress prover : Address}
    {initialValidators : List Address} {verifierKeyHash : Element}
    (initial : RollupV1.initializeV1 world blockNumber owner escrowManager tokenAddress
      verifierAddress prover initialValidators verifierKeyHash = .ok start)
    (run : Run (RollupV1.Step externals here) start actions contract) :
    (∀ env rollup next, contract.call externals here env (.verifyRollup rollup) = .ok next →
      contract.isProvingOpen env.timestamp ≠ .ok true →
      ∃ validators signers,
        contract.validators.validatorsAt rollup.height.toNat = some validators ∧
          Endorsed externals.keccak externals.recover next.rootHash rollup.height
            rollup.otherHashFromBlockHash rollup.signatures validators signers) ∧
      (∀ later final, Run (RollupV1.Step externals here) contract later final →
        contract.validators.validatorSetIndex ≤ final.validators.validatorSetIndex) ∧
      ∀ position set, position ≤ contract.validators.validatorSetIndex →
        contract.validators.validatorSets[position]? = some set →
        set.validFrom = 0 ∨ ∃ height ∈ actions.flatMap RollupV1.Action.heights,
          set.validFrom ≤ height ∧ height = contract.blockHeight := by
  rcases RollupV1.valid_of_initializeV1 initial with ⟨startValid, startHeight⟩
  have valid := RollupV1.valid_of_run startValid run
  have highest := RollupV1.highest_of_run startHeight run
  refine ⟨?_, fun later final run => RollupV1.validatorSetIndex_le_of_run run, ?_⟩
  · intro env rollup next done closed
    rcases RollupV1.accepts_of_verifyRollup done with ⟨messages, accepts, _⟩
    rcases Contract.verifyValidatorSignatures_eq_ok_iff.mp accepts.signed with
      ⟨provingOpen, _⟩ | ⟨_, validators, verified, _⟩
    · exact absurd provingOpen closed
    · exact Validators.Valid.endorsed valid (Nat.le_of_lt (BitVec.lt_def.mp accepts.above)) verified
  · intro position set le found
    have started := RollupV1.started_of_valid valid le found
    rcases highest.reached with zero | reached
    · left
      rw [zero] at started
      exact BitVec.eq_of_toNat_eq (Nat.le_zero.mp started)
    · exact .inr ⟨_, reached, started, rfl⟩

/-- The upgraded contract takes the first rollup with the signature of its validator. -/
theorem firstRollup_accepted :
    ∃ start, deploy () = .ok start ∧ ∃ contract, start.calls agreeable 10 [upgradeCall 0] = .ok contract ∧
      contract.isProvingOpen 100 = .ok false ∧
      ∃ next, contract.call agreeable 10 ⟨9, 100, 0⟩ (.verifyRollup (rollupWith 1 [])) = .ok next :=
  ⟨_, rfl, _, rfl, rfl, _, rfl⟩

theorem firstRollup_endorsed :
    ∃ start contract actions next validators signers, deploy () = .ok start ∧
      Run (RollupV1.Step agreeable 10) start actions contract ∧
      contract.call agreeable 10 ⟨9, 100, 0⟩ (.verifyRollup (rollupWith 1 [])) = .ok next ∧
      contract.validators.validatorsAt 1 = some validators ∧
      Endorsed agreeable.keccak agreeable.recover next.rootHash 1 0 [⟨0, 0, 0⟩] validators
        signers := by
  rcases firstRollup_accepted with ⟨start, deployed, contract, upgraded, closed, next, done⟩
  have run := RollupV1.run_of_calls upgraded
  have closed : contract.isProvingOpen 100 ≠ .ok true := by
    rw [closed]
    rintro ⟨⟩
  rcases (signature_threshold deployed run).1 _ _ next done closed with
    ⟨validators, signers, inForce, endorsed⟩
  exact ⟨start, contract, _, next, validators, signers, deployed, run, done, inForce, endorsed⟩

/-! ## Heights that remain -/

namespace Contract

variable {W : Type}

/-- The checks of `verifyRollup` on its height: it is above the last one and, unless
proving is open, there is a digest to sign for it. -/
structure PassesHeightChecks (keccak : Keccak) (timestamp height : Element)
    (contract : Contract W) : Prop where
  above : contract.blockHeight < height
  digest : contract.isProvingOpen timestamp ≠ .ok true → ∀ newRoot otherHashFromBlockHash,
    ∃ digest, getSignatureMessageHash keccak newRoot height otherHashFromBlockHash = .ok digest

variable {keccak : Keccak} {contract : Contract W}

/-- The last rollup has just closed proving, or proving was not open before either. -/
theorem isProvingOpen_lastVerifiedAt (contract : Contract W) :
    contract.isProvingOpen contract.lastVerifiedAt ≠ .ok true := by
  intro provingOpen
  unfold isProvingOpen at provingOpen
  split_ifs at provingOpen with unset
  · cases provingOpen
  · rcases bind_eq_ok_iff.mp provingOpen with ⟨opensAt, added, compared⟩
    rcases checkedAdd_eq_ok_iff.mp added with ⟨fits, rfl⟩
    have le := BitVec.le_def.mp (of_decide_eq_true (pure_eq_ok_iff.mp compared))
    rw [BitVec.toNat_add, Nat.mod_eq_of_lt fits] at le
    apply unset
    apply BitVec.eq_of_toNat_eq
    exact Nat.le_zero.mp (Nat.le_of_add_le_add_left (le.trans (Nat.le_add_right _ 0)))

/-- There is room above the height, for one signed rollup at least. -/
theorem exists_passesHeightChecks_iff :
    (∀ timestamp, contract.lastVerifiedAt ≤ timestamp →
        ∃ height, contract.PassesHeightChecks keccak timestamp height) ↔
      contract.blockHeight.toNat < 2 ^ 256 - 2 := by
  constructor
  · intro remains
    rcases remains _ (BitVec.le_refl _) with ⟨height, passes⟩
    rcases passes.digest contract.isProvingOpen_lastVerifiedAt 0 0 with ⟨digest, hashed⟩
    have fits := (getSignatureMessageHash_eq_ok_iff.mp hashed).1
    have above := BitVec.lt_def.mp passes.above
    omega
  · intro room timestamp _
    have one : (1 : Element).toNat = 1 := rfl
    have sum : (contract.blockHeight + 1).toNat = contract.blockHeight.toNat + 1 := by
      rw [BitVec.toNat_add, one]
      exact Nat.mod_eq_of_lt (by omega)
    refine ⟨contract.blockHeight + 1, ?_, ?_⟩
    · rw [BitVec.lt_def, sum]
      exact Nat.lt_succ_self _
    · intro _ newRoot otherHashFromBlockHash
      refine ⟨_, getSignatureMessageHash_eq_ok_iff.mpr ⟨?_, rfl⟩⟩
      rw [sum]
      omega

end Contract

/-- An accepted rollup has passed them. -/
theorem RollupV1.passesHeightChecks_of_call {W : Type} {externals : Externals W} {here : Address}
    {env : Env} {rollup : RollupCall} {contract next : RollupV1 W}
    (done : contract.call externals here env (.verifyRollup rollup) = .ok next) :
    contract.blockHeight < rollup.height ∧
      (contract.isProvingOpen env.timestamp ≠ .ok true →
        ∃ digest, getSignatureMessageHash externals.keccak next.rootHash rollup.height
          rollup.otherHashFromBlockHash = .ok digest) := by
  rcases accepts_of_verifyRollup done with ⟨messages, accepts, _⟩
  refine ⟨accepts.above, ?_⟩
  intro closed
  rcases Contract.verifyValidatorSignatures_eq_ok_iff.mp accepts.signed with
    ⟨provingOpen, _⟩ | ⟨_, validators, verified, _⟩
  · exact absurd provingOpen closed
  · simp only [Validators.verifySignatures, bind_eq_ok_iff] at verified
    rcases verified with ⟨_, _, _, _, _, _, digest, hashed, _⟩
    exact ⟨digest, hashed⟩

/-- A further height is left in every state of a run, at every time, exactly when no rollup
was accepted at one of the last two heights. -/
theorem height_remains_iff {W : Type} {externals : Externals W} {here : Address}
    {start contract : RollupV1 W} {actions : List (RollupV1.Action W)} {world : W}
    {blockNumber : Element} {owner escrowManager tokenAddress verifierAddress prover : Address}
    {initialValidators : List Address} {verifierKeyHash : Element}
    (initial : RollupV1.initializeV1 world blockNumber owner escrowManager tokenAddress
      verifierAddress prover initialValidators verifierKeyHash = .ok start)
    (run : Run (RollupV1.Step externals here) start actions contract) :
    (∀ timestamp, contract.lastVerifiedAt ≤ timestamp →
        ∃ height, contract.toContract.PassesHeightChecks externals.keccak timestamp height) ↔
      ∀ height ∈ actions.flatMap RollupV1.Action.heights, height.toNat < 2 ^ 256 - 2 := by
  have highest := RollupV1.highest_of_run (RollupV1.valid_of_initializeV1 initial).2 run
  rw [Contract.exists_passesHeightChecks_iff]
  constructor
  · intro room height mem
    exact (highest.le height mem).trans_lt room
  · intro below
    rcases highest.reached with zero | reached
    · rw [zero]
      change 0 < 2 ^ 256 - 2
      decide
    · exact below _ reached

theorem firstRollup_height_remains :
    ∃ start contract actions, deploy () = .ok start ∧
      Run (RollupV1.Step agreeable 10) start actions contract ∧
      actions.flatMap RollupV1.Action.heights = [1] ∧
      ∀ timestamp, contract.lastVerifiedAt ≤ timestamp →
        ∃ height, contract.toContract.PassesHeightChecks agreeable.keccak timestamp height := by
  rcases firstRollup_accepted with ⟨start, deployed, contract, upgraded, _, next, done⟩
  have run := (RollupV1.run_of_calls upgraded).snoc (.accepted done)
  refine ⟨start, next, _, deployed, run, rfl, (height_remains_iff deployed run).mpr ?_⟩
  intro height mem
  obtain rfl := List.mem_singleton.mp mem
  decide

/-- Only the rollup of nothing but padding has a proof. -/
def paddingOnly : Externals Unit :=
  { agreeable with
    verifyProof := fun _ _ publicInputs =>
      publicInputs[0]? = publicInputs[1]? ∧ (publicInputs.drop 2).all (· = 0) }

/-- A stranger proves after a week without rollups, at the last height there is. -/
def strangerRollup : List (Env × RollupV1.Call) :=
  [upgradeCall 0, (⟨77, 100 + sevenDays, 0⟩,
    .verifyRollup { rollupWith (BitVec.allOnes 256) [] with signatures := [] })]

theorem strangerRollup_accepted :
    ∃ start, deploy () = .ok start ∧
      ∃ contract, start.calls paddingOnly 10 strangerRollup = .ok contract ∧
        contract.blockHeight = BitVec.allOnes 256 :=
  ⟨_, rfl, _, rfl, rfl⟩

/-- After that no rollup is accepted, at no height and at no time. -/
theorem strangerRollup_bricks :
    ∃ start contract actions, deploy () = .ok start ∧
      Run (RollupV1.Step paddingOnly 10) start actions contract ∧
      (∀ timestamp height,
        ¬contract.toContract.PassesHeightChecks paddingOnly.keccak timestamp height) ∧
      ∀ env rollup, ∃ stop,
        contract.call paddingOnly 10 env (.verifyRollup rollup) = .error stop := by
  rcases strangerRollup_accepted with ⟨start, deployed, contract, done, height⟩
  have highest : ∀ other : Element, ¬contract.blockHeight < other := by
    intro other above
    rw [height] at above
    exact BitVec.not_allOnes_lt above
  refine ⟨start, contract, _, deployed, RollupV1.run_of_calls done, ?_, ?_⟩
  · intro timestamp other passes
    exact highest other passes.above
  · intro env rollup
    cases result : contract.call paddingOnly 10 env (.verifyRollup rollup) with
    | error stop => exact ⟨stop, rfl⟩
    | ok next => exact absurd (RollupV1.passesHeightChecks_of_call result).1 (highest _)

end Ciphera.Rollup
