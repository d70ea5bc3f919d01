import Ciphera.Lib.Schedule
import Ciphera.Rollup.Contract
import Mathlib.Data.List.Nodup

/-!
# Validator sets of the contract

The owner appends sets of validators, each with the height from which it is
valid.  A stored index names the set in use; it moves forward with the heights
that are verified and never back.  The signatures of a block are checked against
that set: there must be enough of them, from members, in increasing order.
-/

namespace Ciphera.Rollup

open Ciphera.Lib

/-- Addition of unsigned words. -/
def checkedAdd (left right : Element) : Outcome Element :=
  if left.toNat + right.toNat < 2 ^ 256 then .ok (left + right)
  else .error (.panic "arithmetic overflow")

@[simp]
theorem checkedAdd_eq_ok_iff {left right sum : Element} :
    checkedAdd left right = .ok sum ↔ left.toNat + right.toNat < 2 ^ 256 ∧ left + right = sum := by
  unfold checkedAdd
  split_ifs with fits
  · rw [Except.ok.injEq]
    exact ⟨fun sumEq => ⟨fits, sumEq⟩, fun done => done.2⟩
  · exact ⟨fun done => (by cases done), fun done => absurd done.1 fits⟩

/-- A signature as the contract receives it. -/
structure Signature where
  r : Element
  s : Element
  v : Element
  deriving DecidableEq, Repr

/-- A set of validators, as a mapping and as an array, with the height at which
it becomes valid, inclusive. -/
structure ValidatorSet where
  validators : Address → Bool
  validatorsArray : List Address
  validFrom : Element

/-- The first height at which the set may sign. -/
def ValidatorSet.start (set : ValidatorSet) : Nat := set.validFrom.toNat

/-- The name of the network in the text that validators sign. -/
def NETWORK : List (BitVec 8) := asciiBytes "Ciphera"

/-- The length of this name. -/
def NETWORK_LEN : Nat := 7

/-- 30 days of blocks. -/
def MAX_FUTURE_BLOCKS : Element := 2592000

/-- `ECDSA.recover` with its arguments `hash`, `v`, `r` and `s`. -/
abbrev Recover := Element → BitVec 8 → Element → Element → Outcome Address

/-- The storage of the validator sets. -/
structure Validators where
  validatorSets : List ValidatorSet := []
  validatorSetIndex : Nat := 0

/-- One round of the loop that fills the mapping of a new set. -/
def markValidator (marked : Address → Bool) (validator : Address) : Outcome (Address → Bool) := do
  require (marked validator = false) "RollupV1: Validator already exists"
  pure (Function.update marked validator true)

/-- A set may become valid at most 30 days in the future. -/
def checkValidFrom (blockNumber validFrom : Element) : Outcome Unit :=
  if validFrom = 0 then pure ()
  else do
    let latest ← checkedAdd blockNumber MAX_FUTURE_BLOCKS
    require (validFrom ≤ latest) "RollupV1: validFrom cannot be more than 30 days in the future"

namespace Validators

/-- Append a set of distinct validators that starts later than the last one. -/
def setValidators (blockNumber validFrom : Element) (validators : List Address)
    (storage : Validators) : Outcome Validators := do
  require (storage.validatorSets.getLast?.all fun last => last.validFrom < validFrom)
    "RollupV1: New validator set must have a validFrom greater than the last set"
  checkValidFrom blockNumber validFrom
  let marked ← validators.foldlM markValidator fun _ => false
  pure { storage with validatorSets := storage.validatorSets ++ [⟨marked, validators, validFrom⟩] }

/-- The loop runs over the sets behind the current one and stops at the first
that becomes valid above the height. -/
def updateValidatorSetIndex (height : Element) (storage : Validators) : Validators :=
  { storage with
    validatorSetIndex :=
      advance ValidatorSet.start height.toNat
        (storage.validatorSets.drop (storage.validatorSetIndex + 1)) storage.validatorSetIndex }

/-- The current set, which exists once one has been added. -/
def getValidators (storage : Validators) : Outcome ValidatorSet :=
  match storage.validatorSets[storage.validatorSetIndex]? with
  | some set => .ok set
  | none => .error (.panic "array out-of-bounds access")

/-- The validators in force at a height: the last set that is valid from it or
from below. -/
def validatorsAt (storage : Validators) (height : Nat) : Option (List Address) :=
  (inForce ValidatorSet.start storage.validatorSets height).map ValidatorSet.validatorsArray

end Validators

/-- The hash that the validators sign for a block, under the height of the next
block. -/
def getSignatureMessageHash (keccak : Keccak) (newRoot height otherHashFromBlockHash : Element) :
    Outcome Element := do
  let proposalHash :=
    keccak
      (beBytes 32 newRoot.toNat ++ beBytes 32 height.toNat ++
        beBytes 32 otherHashFromBlockHash.toNat)
  let nextHeight ← checkedAdd height 1
  let acceptMsg := keccak (beBytes 32 nextHeight.toNat ++ beBytes 32 proposalHash.toNat)
  pure (keccak (beBytes 8 NETWORK_LEN ++ NETWORK ++ beBytes 32 acceptMsg.toNat))

/-- One round of the loop over the signatures: the signer is a member and comes
after the previous one. -/
def checkSigner (recover : Recover) (validatorSet : ValidatorSet) (sigHash : Element)
    (previous : Address) (signature : Signature) : Outcome Address := do
  let signer ← recover sigHash (signature.v.setWidth 8) signature.r signature.s
  require (validatorSet.validators signer = true) "RollupV1: Signer is not a validator"
  require (previous < signer) "RollupV1: Signers are not sorted"
  pure signer

/-- `verifyValidatorSignatures` while proving is not open. -/
def Validators.verifySignatures (keccak : Keccak) (recover : Recover)
    (newRoot height otherHashFromBlockHash : Element) (signatures : List Signature)
    (storage : Validators) : Outcome Validators := do
  let storage := storage.updateValidatorSetIndex height
  let validatorSet ← storage.getValidators
  require (0 < signatures.length) "RollupV1: No signatures"
  let minValidators := validatorSet.validatorsArray.length * 2 / 3 + 1
  require (minValidators ≤ signatures.length)
    "RollupV1: Not enough signatures from validators to verify block"
  let sigHash ← getSignatureMessageHash keccak newRoot height otherHashFromBlockHash
  let _ ← signatures.foldlM (checkSigner recover validatorSet sigHash) 0
  pure storage

/-! ## Sets -/

/-- The mapping of a set has the members of its array, which are distinct. -/
structure ValidatorSet.Consistent (set : ValidatorSet) : Prop where
  distinct : set.validatorsArray.Nodup
  member_iff : ∀ validator, set.validators validator = true ↔ validator ∈ set.validatorsArray

@[simp]
theorem markValidator_eq_ok_iff {marked next : Address → Bool} {validator : Address} :
    markValidator marked validator = .ok next ↔
      marked validator = false ∧ next = Function.update marked validator true := by
  rw [markValidator, bind_eq_ok_iff]
  simp only [require_eq_ok_iff, pure_eq_ok_iff]
  constructor
  · rintro ⟨_, fresh, updated⟩
    exact ⟨fresh, updated.symm⟩
  · rintro ⟨fresh, updated⟩
    exact ⟨(), fresh, updated.symm⟩

/-- The loop marks exactly the validators it is given, on top of those marked
before, and meets none twice. -/
theorem foldlM_markValidator_spec {marked final : Address → Bool} {validators : List Address}
    (filled : validators.foldlM markValidator marked = .ok final) :
    validators.Nodup ∧ (∀ validator ∈ validators, marked validator = false) ∧
      ∀ validator, final validator = true ↔ marked validator = true ∨ validator ∈ validators := by
  induction validators generalizing marked with
  | nil =>
      obtain rfl : marked = final := by simpa using filled
      simp
  | cons first rest ih =>
      rw [List.foldlM_cons, bind_eq_ok_iff] at filled
      obtain ⟨middle, firstMarked, restFilled⟩ := filled
      obtain ⟨fresh, rfl⟩ := markValidator_eq_ok_iff.mp firstMarked
      obtain ⟨restNodup, restFresh, final_iff⟩ := ih restFilled
      have firstNotMem : first ∉ rest := by
        intro mem
        have markedAgain := restFresh first mem
        simp at markedAgain
      refine ⟨List.nodup_cons.mpr ⟨firstNotMem, restNodup⟩, ?_, ?_⟩
      · intro validator mem
        rcases List.mem_cons.mp mem with rfl | behind
        · exact fresh
        · have differ : validator ≠ first := fun same => firstNotMem (same ▸ behind)
          simpa [differ] using restFresh validator behind
      · intro validator
        rw [final_iff, List.mem_cons]
        by_cases same : validator = first
        · simp [same]
        · simp [same]

/-- Distinct validators that are not marked yet can all be marked. -/
theorem exists_foldlM_markValidator {marked : Address → Bool} {validators : List Address}
    (distinct : validators.Nodup) (fresh : ∀ validator ∈ validators, marked validator = false) :
    ∃ final, validators.foldlM markValidator marked = .ok final := by
  induction validators generalizing marked with
  | nil => exact ⟨marked, rfl⟩
  | cons first rest ih =>
      obtain ⟨firstNotMem, restDistinct⟩ := List.nodup_cons.mp distinct
      have firstMarked : markValidator marked first = .ok (Function.update marked first true) :=
        markValidator_eq_ok_iff.mpr ⟨fresh first List.mem_cons_self, rfl⟩
      rw [List.foldlM_cons, firstMarked]
      apply ih restDistinct
      intro validator mem
      have differ : validator ≠ first := fun same => firstNotMem (same ▸ mem)
      rw [Function.update_of_ne differ]
      exact fresh validator (List.mem_cons_of_mem first mem)

namespace Validators

variable {storage next : Validators} {blockNumber validFrom blockHeight height : Element}
  {validators : List Address}

/-- What `setValidators` appends. -/
theorem setValidators_spec
    (done : storage.setValidators blockNumber validFrom validators = .ok next) :
    ∃ set : ValidatorSet, set.Consistent ∧ set.validatorsArray = validators ∧
      set.validFrom = validFrom ∧
      (∀ last, storage.validatorSets.getLast? = some last → last.start < set.start) ∧
      next = { storage with validatorSets := storage.validatorSets ++ [set] } := by
  simp only [setValidators, bind_eq_ok_iff, require_eq_ok_iff, pure_eq_ok_iff] at done
  obtain ⟨_, later, _, _, marked, filled, rfl⟩ := done
  obtain ⟨distinct, _, marked_iff⟩ := foldlM_markValidator_spec filled
  refine ⟨⟨marked, validators, validFrom⟩, ⟨distinct, ?_⟩, rfl, rfl, ?_, rfl⟩
  · intro validator
    simpa using marked_iff validator
  · intro last lastEq
    change last.validFrom.toNat < validFrom.toNat
    simpa [lastEq, BitVec.lt_def] using later

/-- What holds of the sets after every call: they are ordered and consistent,
and the set in use is valid at the last verified height. -/
structure Valid (storage : Validators) (blockHeight : Element) : Prop where
  ordered : storage.validatorSets.Pairwise fun first second => first.start < second.start
  consistent : ∀ set ∈ storage.validatorSets, set.Consistent
  current : ∃ set, storage.validatorSets[storage.validatorSetIndex]? = some set ∧
    set.start ≤ blockHeight.toNat

/-- The first set, which is valid from the first height. -/
theorem valid_of_initial
    (done : setValidators blockNumber 0 validators {} = .ok next) : next.Valid 0 := by
  obtain ⟨set, consistent, _, validFromEq, _, rfl⟩ := setValidators_spec done
  refine ⟨by simp, by simpa using consistent, set, by simp, ?_⟩
  rw [ValidatorSet.start, validFromEq]

/-- A first set of distinct validators is in force at every height. -/
theorem exists_initial (blockNumber : Element) (distinct : validators.Nodup) :
    ∃ initial, setValidators blockNumber 0 validators {} = .ok initial ∧
      ∀ height, initial.validatorsAt height = some validators := by
  obtain ⟨marked, filled⟩ :
      ∃ marked, validators.foldlM markValidator (fun _ => false) = .ok marked :=
    exists_foldlM_markValidator distinct fun _ _ => rfl
  refine ⟨{ validatorSets := [⟨marked, validators, 0⟩] }, ?_, fun height => rfl⟩
  rw [setValidators, filled]
  rfl

theorem Valid.setValidators (valid : storage.Valid blockHeight)
    (done : storage.setValidators blockNumber validFrom validators = .ok next) :
    next.Valid blockHeight := by
  obtain ⟨set, consistent, _, _, later, rfl⟩ := setValidators_spec done
  obtain ⟨current, currentEq, started⟩ := valid.current
  refine ⟨?_, ?_, current, ?_, started⟩
  · rw [List.pairwise_append]
    refine ⟨valid.ordered, List.pairwise_singleton _ _, fun first firstMem second secondMem => ?_⟩
    rw [List.mem_singleton.mp secondMem]
    obtain ⟨last, lastEq⟩ : ∃ last, storage.validatorSets.getLast? = some last :=
      ⟨_, List.getLast?_eq_some_getLast (List.ne_nil_of_mem firstMem)⟩
    have firstLe : first.start ≤ last.start := by
      obtain ⟨front, frontEq⟩ := List.getLast?_eq_some_iff.mp lastEq
      rw [frontEq] at firstMem
      have ordered := valid.ordered
      rw [frontEq] at ordered
      rcases List.mem_append.mp firstMem with inFront | isLast
      · exact le_of_lt ((List.pairwise_append.mp ordered).2.2 first inFront last (by simp))
      · rw [List.mem_singleton.mp isLast]
    exact lt_of_le_of_lt firstLe (later last lastEq)
  · intro other mem
    rcases List.mem_append.mp mem with old | new
    · exact valid.consistent other old
    · rw [List.mem_singleton.mp new]
      exact consistent
  · rw [List.getElem?_append_left (List.getElem?_eq_some_iff.mp currentEq).1]
    exact currentEq

theorem Valid.mono {later : Element} (valid : storage.Valid blockHeight)
    (le : blockHeight.toNat ≤ later.toNat) : storage.Valid later := by
  obtain ⟨current, currentEq, started⟩ := valid.current
  exact ⟨valid.ordered, valid.consistent, current, currentEq, started.trans le⟩

/-- Above the verified heights, the index moves to the set in force. -/
theorem Valid.getElem?_update (valid : storage.Valid blockHeight)
    (above : blockHeight.toNat ≤ height.toNat) :
    (storage.updateValidatorSetIndex height).validatorSets[
        (storage.updateValidatorSetIndex height).validatorSetIndex]? =
      inForce ValidatorSet.start storage.validatorSets height.toNat := by
  obtain ⟨current, currentEq, started⟩ := valid.current
  exact getElem?_advance valid.ordered currentEq (started.trans above)

theorem Valid.getValidators_update_eq_ok_iff {set : ValidatorSet}
    (valid : storage.Valid blockHeight) (above : blockHeight.toNat ≤ height.toNat) :
    (storage.updateValidatorSetIndex height).getValidators = .ok set ↔
      inForce ValidatorSet.start storage.validatorSets height.toNat = some set := by
  rw [← valid.getElem?_update above, getValidators]
  cases (storage.updateValidatorSetIndex height).validatorSets[
      (storage.updateValidatorSetIndex height).validatorSetIndex]? with
  | none => simp
  | some found => simp

/-- Moving the index to a verified height keeps the sets valid. -/
theorem Valid.updateValidatorSetIndex (valid : storage.Valid blockHeight)
    (above : blockHeight.toNat ≤ height.toNat) :
    (storage.updateValidatorSetIndex height).Valid height := by
  obtain ⟨current, currentEq, started⟩ := valid.current
  have here := valid.getElem?_update above
  cases found : inForce ValidatorSet.start storage.validatorSets height.toNat with
  | none =>
      have mem := List.mem_of_getElem? currentEq
      rw [inForce, List.getLast?_eq_none_iff, List.filter_eq_nil_iff] at found
      exact absurd (decide_eq_true (started.trans above)) (found current mem)
  | some set =>
      rw [found] at here
      exact ⟨valid.ordered, valid.consistent, set, here, (mem_of_inForce found).2⟩

end Validators

/-! ## Signatures -/

section Signatures

variable {keccak : Keccak} {recover : Recover}

theorem getSignatureMessageHash_eq_ok_iff
    {newRoot height otherHashFromBlockHash sigHash : Element} :
    getSignatureMessageHash keccak newRoot height otherHashFromBlockHash = .ok sigHash ↔
      height.toNat + 1 < 2 ^ 256 ∧
        sigHash = keccak (beBytes 8 NETWORK_LEN ++ NETWORK ++
          beBytes 32 (keccak (beBytes 32 (height.toNat + 1) ++
            beBytes 32 (keccak (beBytes 32 newRoot.toNat ++ beBytes 32 height.toNat ++
              beBytes 32 otherHashFromBlockHash.toNat)).toNat)).toNat) := by
  rw [getSignatureMessageHash, bind_eq_ok_iff]
  have one : (1 : Element).toNat = 1 := rfl
  constructor
  · rintro ⟨nextHeight, added, hashed⟩
    obtain ⟨fits, rfl⟩ := checkedAdd_eq_ok_iff.mp added
    rw [one] at fits
    have sumEq : (height + 1).toNat = height.toNat + 1 := by
      rw [BitVec.toNat_add, one, Nat.mod_eq_of_lt fits]
    rw [sumEq, pure_eq_ok_iff] at hashed
    exact ⟨fits, hashed.symm⟩
  · rintro ⟨fits, rfl⟩
    have sumEq : (height + 1).toNat = height.toNat + 1 := by
      rw [BitVec.toNat_add, one, Nat.mod_eq_of_lt fits]
    refine ⟨height + 1, checkedAdd_eq_ok_iff.mpr ⟨by rwa [one], rfl⟩, ?_⟩
    rw [sumEq]
    rfl

@[simp]
theorem checkSigner_eq_ok_iff {validatorSet : ValidatorSet} {sigHash : Element}
    {previous signer : Address} {signature : Signature} :
    checkSigner recover validatorSet sigHash previous signature = .ok signer ↔
      recover sigHash (signature.v.setWidth 8) signature.r signature.s = .ok signer ∧
        validatorSet.validators signer = true ∧ previous < signer := by
  simp only [checkSigner, bind_eq_ok_iff, require_eq_ok_iff, pure_eq_ok_iff]
  constructor
  · rintro ⟨recovered, recoveredEq, _, member, _, sorted, rfl⟩
    exact ⟨recoveredEq, member, sorted⟩
  · rintro ⟨recoveredEq, member, sorted⟩
    exact ⟨signer, recoveredEq, (), member, (), sorted, rfl⟩

/-- One signature is enough exactly for the set whose only member signed. -/
theorem Validators.Valid.verifySignatures_singleton_iff {storage : Validators}
    {newRoot blockHeight height otherHashFromBlockHash sigHash : Element} {signature : Signature}
    {signer : Address} (valid : storage.Valid blockHeight)
    (above : blockHeight.toNat ≤ height.toNat)
    (hashed : getSignatureMessageHash keccak newRoot height otherHashFromBlockHash = .ok sigHash)
    (recovered : recover sigHash (signature.v.setWidth 8) signature.r signature.s = .ok signer)
    (nonzero : signer ≠ 0) :
    (∃ next, storage.verifySignatures keccak recover newRoot height otherHashFromBlockHash
        [signature] = .ok next) ↔
      storage.validatorsAt height.toNat = some [signer] := by
  have positive : (0 : Address) < signer := by
    rw [BitVec.lt_def]
    exact Nat.pos_of_ne_zero fun zero => nonzero (BitVec.eq_of_toNat_eq zero)
  simp only [verifySignatures, bind_eq_ok_iff, require_eq_ok_iff, pure_eq_ok_iff, hashed,
    valid.getValidators_update_eq_ok_iff above, List.foldlM_cons, List.foldlM_nil, bind_pure,
    checkSigner_eq_ok_iff, Except.ok.injEq, validatorsAt, Option.map_eq_some_iff,
    List.length_singleton]
  constructor
  · rintro ⟨_, set, found, _, _, _, enough, _, rfl, last, ⟨lastEq, member, _⟩, _⟩
    obtain rfl : signer = last := Except.ok.inj (recovered.symm.trans lastEq)
    have consistent := valid.consistent set (mem_of_inForce found).1
    have mem := (consistent.member_iff _).mp member
    have single : set.validatorsArray.length = 1 := by
      have positive := List.length_pos_of_mem mem
      omega
    obtain ⟨only, onlyEq⟩ := List.length_eq_one_iff.mp single
    rw [onlyEq, List.mem_singleton] at mem
    exact ⟨set, found, by rw [onlyEq, mem]⟩
  · rintro ⟨set, found, arrayEq⟩
    have consistent := valid.consistent set (mem_of_inForce found).1
    have member : set.validators signer = true := by
      rw [consistent.member_iff, arrayEq]
      exact List.mem_singleton_self signer
    refine ⟨_, set, found, (), Nat.one_pos, (), ?_, sigHash, rfl, signer,
      ⟨recovered, member, positive⟩, rfl⟩
    rw [arrayEq, List.length_singleton]

end Signatures

end Ciphera.Rollup
