import Ciphera.Noir.PoseidonAlt
import Ciphera.MinimalPoseidon.Bn256
import Mathlib.Tactic.Ring

/-!
# Migration

The migration circuit derives the old address of a key with its own Poseidon, while the old
addresses were derived by the Poseidon of the wallet.  Both absorb in blocks, with the same
permutation: the circuit reads its constants by a counter, the wallet zips them with the
rounds, and the two tables hold the same residues.

They differ on the empty message, which panics the wallet's Poseidon.
-/

namespace Ciphera.Noir.PoseidonAlt

open Ciphera.Lib Ciphera.MinimalPoseidon

open scoped Fin.CommRing

theorem MDS_eq : MinimalPoseidon.MDS = MDS := by decide +kernel

theorem ROUND_CONSTANTS_eq : MinimalPoseidon.ROUND_CONSTANTS = ROUND_CONSTANTS.toList := by
  decide +kernel

theorem sbox_eq (x : Base) : sbox x = p128Pow5T3.sbox x := by
  change x * x * (x * x) * x = x ^ 5
  ring

theorem applyMds_eq (state : Vector Base 3) :
    MinimalPoseidon.applyMds p128Pow5T3 state = applyMds state := by
  rw [applyMds, ← MDS_eq]
  rfl

theorem fullRound_eq : MinimalPoseidon.fullRound p128Pow5T3 = fullRound := by
  funext state constants
  rw [MinimalPoseidon.fullRound, applyMds_eq, fullRound]
  simp only [sbox_eq]

theorem partRound_eq : MinimalPoseidon.partRound p128Pow5T3 = partialRound := by
  funext state constants
  rw [MinimalPoseidon.partRound, applyMds_eq, partialRound, sbox_eq]
  rfl

/-- A loop over the rounds reads a stretch of the constants. -/
theorem rounds_eq (round : Vector Base 3 → Vector Base 3 → Vector Base 3) {count index : Nat}
    (inside : index + count ≤ 65) (state : Vector Base 3) :
    rounds round count (state, index) =
      .ok (((ROUND_CONSTANTS.toList.drop index).take count).foldl round state,
        index + count) := by
  induction count with
  | zero => rfl
  | succ count ih =>
      have here : index + count < ROUND_CONSTANTS.toList.length := by
        rw [Vector.length_toList]
        omega
      have read : ROUND_CONSTANTS[index + count]? =
          some (ROUND_CONSTANTS.toList[index + count]) :=
        Vector.getElem?_eq_getElem (by omega)
      have before := ih (by omega)
      rw [rounds] at before
      rw [rounds, List.range_succ, List.foldlM_append, before]
      change (roundStep round (_, index + count) >>= pure) = _
      rw [roundStep, read, List.take_add_one, List.getElem?_drop,
        List.getElem?_eq_getElem here, List.foldl_append]
      rfl

/-- Equal rounds zipped with constants take a stretch of them. -/
theorem foldl_zip_replicate {State Constants : Type} (round : State → Constants → State)
    {count : Nat} {constants : List Constants} (enough : count ≤ constants.length)
    (others : List (State → Constants → State)) (state : State) :
    ((List.replicate count round ++ others).zip constants).foldl
        (fun state step => step.1 state step.2) state =
      (others.zip (constants.drop count)).foldl (fun state step => step.1 state step.2)
        ((constants.take count).foldl round state) := by
  induction count generalizing constants state with
  | zero => rfl
  | succ count ih =>
      cases constants with
      | nil => exact absurd enough (Nat.not_succ_le_zero count)
      | cons first constants =>
          exact ih (Nat.le_of_succ_le_succ enough) (round state first)

/-- The rounds of both kinds, zipped with enough constants. -/
theorem foldl_zip_rounds {State Constants : Type} (full part : State → Constants → State)
    {r_f r_p : Nat} {constants : List Constants} (enough : r_f + r_p + r_f ≤ constants.length)
    (state : State) :
    ((List.replicate r_f full ++ List.replicate r_p part ++ List.replicate r_f full).zip
        constants).foldl (fun state step => step.1 state step.2) state =
      ((constants.drop (r_f + r_p)).take r_f).foldl full
        (((constants.drop r_f).take r_p).foldl part ((constants.take r_f).foldl full state)) := by
  have last : List.replicate r_f full = List.replicate r_f full ++ [] :=
    (List.append_nil _).symm
  rw [List.append_assoc, foldl_zip_replicate full (by omega),
    foldl_zip_replicate part (by rw [List.length_drop]; omega), last,
    foldl_zip_replicate full (by rw [List.length_drop, List.length_drop]; omega),
    List.drop_drop]
  rfl

/-- What 65 rounds make of a state. -/
def permuted (constants : List (Vector Base 3)) (state : Vector Base 3) : Vector Base 3 :=
  ((constants.drop 61).take 4).foldl fullRound
    (((constants.drop 4).take 57).foldl partialRound ((constants.take 4).foldl fullRound state))

theorem permute_eq_permuted (state : Vector Base 3) :
    permute state = .ok (permuted ROUND_CONSTANTS.toList state) := by
  have loops : permute state = (do
      let loop ← rounds fullRound 4 (state, 0)
      let loop ← rounds partialRound 57 loop
      let loop ← rounds fullRound 4 loop
      pure loop.1) := rfl
  rw [loops, rounds_eq fullRound (show 0 + 4 ≤ 65 by omega), ok_bind,
    rounds_eq partialRound (show 0 + 4 + 57 ≤ 65 by omega), ok_bind,
    rounds_eq fullRound (show 0 + 4 + 57 + 4 ≤ 65 by omega), ok_bind, List.drop_zero]
  exact congrArg Except.ok (by rw [permuted])

/-- The permutations agree: 65 rounds read 65 rows of constants. -/
theorem permute_eq (state : Vector Base 3) :
    permute state = .ok (MinimalPoseidon.permute p128Pow5T3 state) := by
  have enough : 4 + 57 + 4 ≤ ROUND_CONSTANTS.toList.length := by
    rw [Vector.length_toList]
  have zipped := foldl_zip_rounds fullRound partialRound enough state
  rw [permute_eq_permuted, permuted, ← zipped, ← fullRound_eq, ← partRound_eq,
    ← ROUND_CONSTANTS_eq]
  rfl

/-! ## The sponge -/

/-- The cache holds the pending words. -/
structure Represents (buffer : Sponge.Buffer Base (Vector Base 3)) (sponge : PoseidonSponge) :
    Prop where
  state_eq : sponge.state = buffer.state
  size_eq : sponge.cacheSize = buffer.pending.length
  cached : sponge.cache.toList.take sponge.cacheSize = buffer.pending
  fits : buffer.pending.length ≤ 2

/-- The sponge of the wallet over three words. -/
abbrev wallet : Sponge Base (Vector Base 3) := spongeOf p128Pow5T3 2 Nat.two_pos

variable {buffer : Sponge.Buffer Base (Vector Base 3)} {sponge : PoseidonSponge}

/-- Word by word, the words in the cache are added to the first words of the state. -/
theorem addCache_eq_addValues (sponge : PoseidonSponge) :
    sponge.addCache =
      addValues 0 sponge.state (sponge.cache.toList.take sponge.cacheSize) := by
  obtain ⟨state, cache, cacheSize⟩ := sponge
  have both : List.finRange 2 = [0, 1] := rfl
  apply Vector.ext
  intro index inside
  have caseOf : index = 0 ∨ index = 1 ∨ index = 2 := by omega
  rw [PoseidonSponge.addCache, both, List.foldl_cons, List.foldl_cons, List.foldl_nil]
  rcases caseOf with rfl | rfl | rfl <;> rcases cacheSize with _ | _ | cacheSize <;>
    simp [addValues, get_eq_getElem]

theorem addCache_eq (represents : Represents buffer sponge) :
    sponge.addCache = addValues 0 buffer.state buffer.pending := by
  rw [addCache_eq_addValues, represents.cached, represents.state_eq]

/-- A duplex absorbs the pending words as a block. -/
theorem performDuplex_eq (represents : Represents buffer sponge) :
    sponge.performDuplex = .ok { sponge with
      state := wallet.absorbBlock buffer.state buffer.pending, cacheSize := 0 } := by
  rw [PoseidonSponge.performDuplex, permute_eq, addCache_eq represents]
  rfl

theorem absorb_eq (represents : Represents buffer sponge) (input : Base) :
    ∃ next, sponge.absorb input = .ok next ∧ Represents (wallet.feed buffer input) next := by
  rcases Nat.lt_or_eq_of_le represents.fits with room | full
  · have inside : sponge.cacheSize < 2 := by rw [represents.size_eq]; exact room
    have notFull : sponge.cacheSize ≠ RATE := Nat.ne_of_lt inside
    refine ⟨_, by rw [PoseidonSponge.absorb, if_neg notFull, dif_pos inside]; rfl, ?_⟩
    rw [Sponge.feed_of_lt room]
    constructor
    · exact represents.state_eq
    · rw [List.length_append, List.length_singleton, ← represents.size_eq]
    · change (sponge.cache.set sponge.cacheSize input).toList.take (sponge.cacheSize + 1) =
        buffer.pending ++ [input]
      rw [Vector.toList_set, List.take_add_one, List.take_set_of_le (Nat.le_refl _),
        represents.cached, List.getElem?_set_self]
      · rfl
      · rw [Vector.length_toList]
        exact inside
    · rw [List.length_append, List.length_singleton]
      exact room
  · have isFull : sponge.cacheSize = RATE := represents.size_eq.trans full
    refine ⟨_, by
      rw [PoseidonSponge.absorb, if_pos isFull, performDuplex_eq represents, ok_bind]
      rfl, ?_⟩
    rw [Sponge.feed_of_full full]
    constructor
    · rfl
    · rfl
    · change (sponge.cache.set 0 input).toList.take 1 = [input]
      rw [Vector.toList_set, List.take_add_one, List.take_zero, List.getElem?_set_self]
      · rfl
      · rw [Vector.length_toList]
        exact Nat.two_pos
    · exact Nat.le_succ 1

theorem foldlM_absorb_eq (represents : Represents buffer sponge) (inputs : List Base) :
    ∃ last, inputs.foldlM PoseidonSponge.absorb sponge = .ok last ∧
      Represents (inputs.foldl wallet.feed buffer) last := by
  induction inputs generalizing buffer sponge with
  | nil => exact ⟨sponge, rfl, represents⟩
  | cons input inputs ih =>
      obtain ⟨next, absorbed, nextRepresents⟩ := absorb_eq represents input
      obtain ⟨last, rest, lastRepresents⟩ := ih nextRepresents
      refine ⟨last, ?_, lastRepresents⟩
      rw [List.foldlM_cons, absorbed, ok_bind]
      exact rest

/-- The loop that pads absorbs a list of zeros. -/
theorem foldlM_zeros (count : Nat) (sponge : PoseidonSponge) :
    (List.range count).foldlM (fun sponge _ => sponge.absorb 0) sponge =
      (List.replicate count 0).foldlM PoseidonSponge.absorb sponge := by
  have zeros : List.replicate count (0 : Base) = (List.range count).map fun _ => 0 := by
    rw [List.map_const', List.length_range]
  rw [zeros, List.foldlM_map]

theorem capacity_eq (count : Nat) :
    base count * base 0x10000000000000000 = initialCapacityElement count := by
  apply Fin.ext
  rw [initialCapacityElement, Nat.shiftLeft_eq]
  exact (Nat.mul_mod count (2 ^ 64) modulus).symm

/-- The new sponge is the one of the capacity element. -/
theorem new_represents (capacity : Base) :
    Represents { state := initialState 2 capacity, pending := [] }
      (PoseidonSponge.new capacity) := by
  constructor
  · rfl
  · rfl
  · rfl
  · exact Nat.zero_le 2

/-- The circuit hashes every message that is not too long as the wallet absorbs it. -/
theorem hash_eq_absorbed {inputs : List Base} (short : inputs.length + 2 < 2 ^ 32) :
    hash inputs = .ok ((absorbed p128Pow5T3 2 Nat.two_pos inputs).get 0) := by
  let start : Sponge.Buffer Base (Vector Base 3) :=
    { state := initialState 2 (initialCapacityElement inputs.length), pending := [] }
  obtain ⟨middle, absorbedInputs, middleRepresents⟩ :=
    foldlM_absorb_eq (new_represents (initialCapacityElement inputs.length)) inputs
  obtain ⟨last, absorbedPadding, lastRepresents⟩ :=
    foldlM_absorb_eq middleRepresents (padding 2 inputs.length)
  have counted : paddingCount inputs.length =
      .ok ((inputs.length + 2 - 1) / 2 * 2 - inputs.length) := by
    have added : check (inputs.length + 2 < 2 ^ 32) "attempt to add with overflow" =
        .ok PUnit.unit := check_eq_ok_iff.mpr short
    rw [paddingCount, RATE, added]
    rfl
  rw [hash, capacity_eq, absorbedInputs, ok_bind, counted, ok_bind, foldlM_zeros]
  change ((padding 2 inputs.length).foldlM PoseidonSponge.absorb middle >>= _) = _
  rw [absorbedPadding, ok_bind, PoseidonSponge.squeeze, performDuplex_eq lastRepresents, ok_bind]
  have startFits : start.pending.length ≤ wallet.rate := Nat.zero_le 2
  have finished : wallet.finish ((inputs ++ padding 2 inputs.length).foldl wallet.feed start) =
      absorbed p128Pow5T3 2 Nat.two_pos inputs :=
    Sponge.finish_foldl_feed startFits
  rw [List.foldl_append] at finished
  exact congrArg (fun state => Except.ok (Vector.get state 0)) finished

/-- Two words fill a block. -/
theorem hash2_eq_hash (left right : Base) : hash2 left right = hash [left, right] := by
  have noPadding : paddingCount [left, right].length = .ok 0 := by
    have added : check (2 + 2 < 2 ^ 32) "attempt to add with overflow" = .ok PUnit.unit :=
      check_eq_ok_iff.mpr (by decide)
    rw [paddingCount, RATE, List.length_cons, List.length_singleton, added]
    rfl
  rw [hash2, hash, noPadding, List.foldlM_cons]
  change (PoseidonSponge.new (base 2 * base 0x10000000000000000)).absorb left >>= _ =
    ((PoseidonSponge.new (base 2 * base 0x10000000000000000)).absorb left >>= _) >>= _
  rw [bind_assoc]
  congr 1
  funext first
  cases absorbed : first.absorb right with
  | error failure =>
      rw [List.foldlM_cons, absorbed]
      rfl
  | ok second =>
      rw [List.foldlM_cons, absorbed]
      rfl

/-- The circuit hashes every message that is not too long, and the wallet hashes it to the same
element unless the message is empty; two elements are merged to the hash of their message. -/
theorem hash_eq_wallet_iff {message : List Base} (short : message.length + 2 < 2 ^ 32)
    (fuel : Nat) :
    (∃ digest, hash message = .ok digest) ∧
      (MinimalPoseidon.hash p128Pow5T3 2 (fuel + 1) message = hash message ↔ message ≠ []) ∧
      ∀ left right, message = [left, right] → hashMerge left right = hash message := by
  refine ⟨⟨_, hash_eq_absorbed short⟩, ?_, fun left right pair => ?_⟩
  case refine_2 => rw [pair, hashMerge, hash2_eq_hash]
  rw [hash_eq_absorbed short]
  constructor
  · rintro sameResult rfl
    rw [hash_nil Nat.two_pos] at sameResult
    cases sameResult
  · exact hash_of_ne_nil Nat.two_pos fuel

theorem hash_eq_wallet_of_zeros :
    MinimalPoseidon.hash p128Pow5T3 2 1 [0, 0] = hash [0, 0] :=
  (hash_eq_wallet_iff (by decide) 0).2.1.mpr (List.cons_ne_nil 0 [0])

end Ciphera.Noir.PoseidonAlt

namespace Ciphera.Noir.Migrate

open Ciphera.Lib Ciphera.MinimalPoseidon

open scoped Fin.CommRing

variable (poseidon : Poseidon)

/-- The address of a key under the Poseidon of old notes. -/
def getOldAddress (ownerPk : Base) : Circuit Base :=
  PoseidonAlt.hash [ownerPk, 0]

/-- The circuit: the old address and the new one belong to one key. -/
def main (ownerPk oldAddress newAddress : Base) : Circuit Unit := do
  let calcNewAddress := getAddress poseidon ownerPk
  check (calcNewAddress = newAddress) "New address is not owned by the owner"
  let calcOldAddress ← getOldAddress ownerPk
  check (calcOldAddress = oldAddress) "Old address is not owned by the owner"

variable {poseidon}

/-- The circuit derives the old address that the wallet's hash gives for the key, whatever the
fuel of the wallet's loop. -/
theorem exists_oldAddress (ownerPk : Element) :
    ∃ digest, getOldAddress ownerPk.toBase = .ok digest ∧
      ∀ fuel, hashMerge (fuel + 1) [ownerPk, Element.ZERO] = .ok (Element.fromBase digest) := by
  have zero : Element.ZERO.toBase = 0 := by decide
  have short : [ownerPk.toBase, 0].length + 2 < 2 ^ 32 := by
    rw [List.length_cons, List.length_singleton]
    omega
  refine ⟨_, PoseidonAlt.hash_eq_absorbed short, ?_⟩
  intro fuel
  have wallet : MinimalPoseidon.hash p128Pow5T3 2 (fuel + 1) [ownerPk.toBase, 0] = .ok _ :=
    hash_of_ne_nil Nat.two_pos fuel (List.cons_ne_nil ownerPk.toBase [0])
  rw [hashMerge, List.map_cons, List.map_cons, List.map_nil, zero, wallet, ok_bind]
  rfl

/-- The wallet hashes every key, to the same element whatever the fuel of its loop, and the
circuit accepts an old address exactly if it is this element. -/
theorem main_ok_iff_hashMerge (ownerPk : Element) (oldAddress newAddress : Base) (done : Unit) :
    ∃ digest, (∀ fuel, hashMerge (fuel + 1) [ownerPk, Element.ZERO] = .ok digest) ∧
      (main poseidon ownerPk.toBase oldAddress newAddress = .ok done ↔
        getAddress poseidon ownerPk.toBase = newAddress ∧ digest = Element.fromBase oldAddress) := by
  rcases exists_oldAddress ownerPk with ⟨digest, circuit, wallet⟩
  refine ⟨Element.fromBase digest, wallet, ?_⟩
  rw [main, bind_eq_ok_iff, circuit, Element.fromBase_injective.eq_iff]
  simp only [check_eq_ok_iff, ok_bind, exists_const]

end Ciphera.Noir.Migrate
