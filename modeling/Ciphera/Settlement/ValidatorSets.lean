import Ciphera.Node.Approval
import Ciphera.Rollup.Threshold

/-!
# The validators of a height, on both sides

The node picks the validators of a height from the list of sets it has read from
the contract, from the back; the contract moves an index forward.  Above the
verified heights both find the set in force.  The node takes itself for the only
validator when it finds none, which it also does when the set in force is empty.
-/

namespace Ciphera.Settlement

open Ciphera.Lib Ciphera.Node
open Ciphera.Rollup (Address Outcome RollupV1 Externals)

/-- A set as the contract shows it. -/
def publicValidatorSet (set : Rollup.ValidatorSet) : Node.ValidatorSet :=
  ⟨set.validatorsArray, set.validFrom⟩

/-- `getValidatorSets`: all sets from an index on. -/
def getValidatorSets (first : Nat) (storage : Rollup.Validators) :
    Outcome (List Node.ValidatorSet) :=
  if first ≤ storage.validatorSets.length then
    .ok ((storage.validatorSets.drop first).map publicValidatorSet)
  else .error (.panic "arithmetic underflow")

/-- The validators whose signatures `verifyRollup` asks for at a height. -/
def checkedValidators (storage : Rollup.Validators) (height : Element) : Outcome (List Address) := do
  let set ← (storage.updateValidatorSetIndex height).getValidators
  pure set.validatorsArray

@[simp]
theorem getValidatorSets_zero (storage : Rollup.Validators) :
    getValidatorSets 0 storage = .ok (storage.validatorSets.map publicValidatorSet) :=
  if_pos (Nat.zero_le _)

/-! ## The search of the node -/

@[simp]
theorem asU64_eq_ok {word : Element} (fits : word.toNat < 2 ^ 64) :
    asU64 word = .ok word.toNat :=
  if_pos fits

/-- The search from the back finds the set in force. -/
theorem firstValid_reverse {sets : List Rollup.ValidatorSet} {height : Nat}
    (fits : ∀ set ∈ sets, set.start < 2 ^ 64) :
    firstValid height (sets.map publicValidatorSet).reverse =
      .ok ((inForce Rollup.ValidatorSet.start sets height).map publicValidatorSet) := by
  induction sets using List.reverseRecOn with
  | nil => rfl
  | append_singleton sets last ih =>
      have lastFits := fits last (List.mem_append_right _ List.mem_cons_self)
      have others := fun set mem => fits set (List.mem_append_left _ mem)
      rw [List.map_append, List.reverse_append]
      change (asU64 last.validFrom >>= fun validFrom => if validFrom ≤ height then
        pure (some (publicValidatorSet last)) else
          firstValid height (sets.map publicValidatorSet).reverse) = _
      rw [asU64_eq_ok lastFits, ok_bind, ih others]
      by_cases started : last.start ≤ height
      · rw [if_pos (show last.validFrom.toNat ≤ height from started),
          inForce_append_cons started (fun _ mem => absurd mem List.not_mem_nil)]
        rfl
      · rw [if_neg (show ¬last.validFrom.toNat ≤ height from started), inForce, inForce,
          List.filter_append, List.filter_cons_of_neg (by simpa using started), List.filter_nil,
          List.append_nil]

/-- A set that becomes valid too late stops the search, as it comes last. -/
theorem firstValid_reverse_error {sets : List Rollup.ValidatorSet} (height : Nat)
    (ordered : sets.Pairwise fun first second => first.start < second.start)
    (late : ∃ set ∈ sets, 2 ^ 64 ≤ set.start) :
    ∃ failure, firstValid height (sets.map publicValidatorSet).reverse = .error failure := by
  rcases sets.eq_nil_or_concat with rfl | ⟨front, last, rfl⟩
  · rcases late with ⟨set, mem, _⟩
    cases mem
  · have lastLate : ¬last.validFrom.toNat < 2 ^ 64 := by
      rcases late with ⟨set, mem, setLate⟩
      rw [List.concat_eq_append] at mem ordered
      rcases List.mem_append.mp mem with inFront | isLast
      · have less := (List.pairwise_append.mp ordered).2.2 set inFront last List.mem_cons_self
        exact Nat.not_lt.mpr (setLate.trans (Nat.le_of_lt less))
      · rw [List.mem_singleton.mp isLast] at setLate
        exact Nat.not_lt.mpr setLate
    refine ⟨"Integer overflow when casting to u64", ?_⟩
    rw [List.concat_eq_append, List.map_append, List.reverse_append]
    change (asU64 last.validFrom >>= _) = _
    rw [asU64, if_neg lastLate]
    rfl

theorem leaderAmong_eq_ok {validators : List Address} (height : Nat) (nonempty : validators ≠ []) :
    ∃ leader ∈ validators, leaderAmong validators height = .ok leader := by
  have bound : height % validators.length < validators.length :=
    Nat.mod_lt _ (List.length_pos_iff.mpr nonempty)
  refine ⟨_, List.getElem_mem bound, ?_⟩
  rw [leaderAmong, List.getElem?_eq_getElem bound]

/-! ## Agreement -/

section

variable {storage : Rollup.Validators} {blockHeight : Element} {height : Nat}

/-- Above the verified heights the contract asks for the set in force. -/
theorem checkedValidators_eq_ok_iff (valid : storage.Valid blockHeight) (small : height < 2 ^ 64)
    (above : blockHeight.toNat < height) {validators : List Address} :
    checkedValidators storage (BitVec.ofNat 256 height) = .ok validators ↔
      storage.validatorsAt height = some validators := by
  have heightEq : (BitVec.ofNat 256 height).toNat = height := by
    rw [BitVec.toNat_ofNat]
    exact Nat.mod_eq_of_lt (small.trans (by decide))
  have le : blockHeight.toNat ≤ (BitVec.ofNat 256 height).toNat := by
    rw [heightEq]
    exact Nat.le_of_lt above
  rw [checkedValidators, bind_eq_ok_iff, Rollup.Validators.validatorsAt, Option.map_eq_some_iff]
  simp only [valid.getValidators_update_eq_ok_iff le, heightEq, pure_eq_ok_iff]

/-- So does the node, apart from an empty set. -/
theorem validatorsForHeight_eq {validators : List Address} (signerAddress : Address)
    (fits : ∀ set ∈ storage.validatorSets, set.start < 2 ^ 64)
    (inForce : storage.validatorsAt height = some validators) :
    validatorsForHeight signerAddress (storage.validatorSets.map publicValidatorSet) height =
      .ok (if validators.isEmpty then [signerAddress] else validators) := by
  rcases Option.map_eq_some_iff.mp inForce with ⟨set, found, rfl⟩
  rw [validatorsForHeight, firstValid_reverse fits, found]
  rfl

theorem exists_validatorsAt (valid : storage.Valid blockHeight) (above : blockHeight.toNat < height) :
    ∃ validators, storage.validatorsAt height = some validators := by
  rcases valid.current with ⟨current, found, started⟩
  cases result : storage.validatorsAt height with
  | some validators => exact ⟨validators, rfl⟩
  | none =>
      rw [Rollup.Validators.validatorsAt, Option.map_eq_none_iff, inForce,
        List.getLast?_eq_none_iff, List.filter_eq_nil_iff] at result
      have late := result current (List.mem_of_getElem? found)
      exact absurd (decide_eq_true (started.trans (Nat.le_of_lt above))) late

end

/-- Over every sequence of calls and at every height above the verified ones, the node finds the
validators that the contract asks for, and a leader among them, exactly when the set in force is
not empty and no set becomes valid beyond 64 bits. -/
theorem validators_agree_iff {W : Type} {externals : Externals W} {here : Address}
    {start contract : RollupV1 W} {actions : List (RollupV1.Action W)} {world : W}
    {blockNumber : Element} {owner escrowManager tokenAddress verifierAddress prover : Address}
    {initialValidators : List Address} {verifierKeyHash : Element} {height : Nat}
    (initial : RollupV1.initializeV1 world blockNumber owner escrowManager tokenAddress
      verifierAddress prover initialValidators verifierKeyHash = .ok start)
    (run : Run (RollupV1.Step externals here) start actions contract) (small : height < 2 ^ 64)
    (above : contract.blockHeight.toNat < height) (signerAddress : Address) :
    (∃ sets validators leader, getValidatorSets 0 contract.validators = .ok sets ∧
        validatorsForHeight signerAddress sets height = .ok validators ∧
        checkedValidators contract.validators (BitVec.ofNat 256 height) = .ok validators ∧
        leaderAmong validators height = .ok leader ∧ leader ∈ validators) ↔
      (∀ set ∈ contract.validators.validatorSets, set.validFrom.toNat < 2 ^ 64) ∧
        contract.validators.validatorsAt height ≠ some [] := by
  have valid := RollupV1.valid_of_run (RollupV1.valid_of_initializeV1 initial).1 run
  simp only [checkedValidators_eq_ok_iff valid small above, getValidatorSets_zero,
    Except.ok.injEq]
  constructor
  · rintro ⟨_, validators, leader, rfl, found, inForce, _, mem⟩
    constructor
    · by_contra late
      push Not at late
      rcases firstValid_reverse_error height valid.ordered late with ⟨failure, failed⟩
      rw [validatorsForHeight, failed] at found
      cases found
    · intro empty
      rw [inForce] at empty
      obtain rfl := Option.some.inj empty
      cases mem
  · rintro ⟨fits, nonempty⟩
    rcases exists_validatorsAt valid above with ⟨validators, inForce⟩
    have some : validators ≠ [] := by
      rintro rfl
      exact nonempty inForce
    rcases leaderAmong_eq_ok height some with ⟨leader, mem, leads⟩
    refine ⟨_, validators, leader, rfl, ?_, inForce, leads, mem⟩
    rw [validatorsForHeight_eq signerAddress fits inForce, if_neg]
    rwa [List.isEmpty_iff]

/-- The validator of a deployment leads the first block. -/
theorem deploy_validators_agree :
    ∃ start : RollupV1 Unit, Rollup.deploy () = .ok start ∧
      ∃ sets validators leader, getValidatorSets 0 start.validators = .ok sets ∧
        validatorsForHeight 2 sets 1 = .ok validators ∧
        checkedValidators start.validators (BitVec.ofNat 256 1) = .ok validators ∧
        leaderAmong validators 1 = .ok leader ∧ leader ∈ validators := by
  have deployed : ∃ start : RollupV1 Unit, Rollup.deploy () = .ok start ∧ start.blockHeight = 0 ∧
      (∀ set ∈ start.validators.validatorSets, set.validFrom.toNat < 2 ^ 64) ∧
      start.validators.validatorsAt 1 = some [1] := by
    refine ⟨_, rfl, rfl, ?_, rfl⟩
    intro set mem
    rw [List.mem_singleton.mp mem]
    decide
  rcases deployed with ⟨start, deployed, zero, fits, inForce⟩
  have above : start.blockHeight.toNat < 1 := by
    rw [zero]
    decide
  have run : Run (RollupV1.Step Rollup.agreeable 10) start [] start := .nil
  refine ⟨start, deployed, ?_⟩
  apply (validators_agree_iff deployed run (by decide) above 2).mpr
  refine ⟨fits, ?_⟩
  rw [inForce]
  decide

/-- The owner sets no validators from the first block on: the contract asks for signatures of an
empty set and the node takes itself for the validator. -/
theorem emptySet_disagrees :
    ∃ start, Rollup.deploy () = .ok start ∧ ∃ contract, start.calls Rollup.agreeable 10
        [(⟨5, 100, 0⟩, .setValidators 1 [])] = .ok contract ∧
      contract.blockHeight = 0 ∧
      ∃ sets, getValidatorSets 0 contract.validators = .ok sets ∧
        validatorsForHeight 2 sets 1 = .ok [2] ∧
        checkedValidators contract.validators 1 = .ok [] :=
  ⟨_, rfl, _, rfl, rfl, _, rfl, rfl, rfl⟩

end Ciphera.Settlement
