import Ciphera.Noir.Common
import Ciphera.Noir.PoseidonConstants

/-!
# The Poseidon of the migration circuit

The circuit counts its rounds to read the constants, and its sponge counts the words in its
cache.  An index that is out of bounds fails the circuit, and so does a sum that leaves 32
bits.
-/

namespace Ciphera.Noir.PoseidonAlt

open Ciphera.Lib

/-- The fifth power, the S-box of the permutation. -/
def sbox (x : Base) : Base :=
  let x2 := x * x
  let x4 := x2 * x2
  x4 * x

/-- The product of the MDS matrix with the state. -/
def applyMds (state : Vector Base 3) : Vector Base 3 :=
  Vector.ofFn fun i =>
    (List.finRange 3).foldl (fun result j => result + (MDS.get i).get j * state.get j) 0

/-- A round that sends every word of the state through the S-box. -/
def fullRound (state roundConstants : Vector Base 3) : Vector Base 3 :=
  applyMds (Vector.ofFn fun i => sbox (state.get i + roundConstants.get i))

/-- A round that sends only the first word through the S-box. -/
def partialRound (state roundConstants : Vector Base 3) : Vector Base 3 :=
  let state := Vector.ofFn fun i => state.get i + roundConstants.get i
  applyMds (state.set 0 (sbox (state.get 0)))

/-- One turn of a loop over the rounds: the state and the index of the next constants. -/
def roundStep (round : Vector Base 3 → Vector Base 3 → Vector Base 3)
    (loop : Vector Base 3 × Nat) : Circuit (Vector Base 3 × Nat) :=
  match ROUND_CONSTANTS[loop.2]? with
  | some roundConstants => .ok (round loop.1 roundConstants, loop.2 + 1)
  | none => .error "Index out of bounds"

/-- A number of rounds of one kind, each with the next row of constants. -/
def rounds (round : Vector Base 3 → Vector Base 3 → Vector Base 3) (count : Nat)
    (loop : Vector Base 3 × Nat) : Circuit (Vector Base 3 × Nat) :=
  (List.range count).foldlM (fun loop _ => roundStep round loop) loop

/-- The permutation: half of the full rounds, the partial rounds, and the other half. -/
def permute (state : Vector Base 3) : Circuit (Vector Base 3) := do
  let r_f := FULL_ROUNDS / 2
  let r_p := PARTIAL_ROUNDS
  let loop ← rounds fullRound r_f (state, 0)
  let loop ← rounds partialRound r_p loop
  let loop ← rounds fullRound r_f loop
  pure loop.1

/-- The sponge of the circuits, with the inputs that wait for the next permutation. -/
structure PoseidonSponge where
  state : Vector Base 3
  cache : Vector Base 2
  cacheSize : Nat
  deriving DecidableEq

namespace PoseidonSponge

/-- The capacity element is the last word of the state. -/
def new (initialCapacity : Base) : PoseidonSponge where
  state := (Vector.replicate 3 0).set 2 initialCapacity
  cache := Vector.replicate 2 0
  cacheSize := 0

/-- The first words of the state are increased by the words in the cache. -/
def addCache (sponge : PoseidonSponge) : Vector Base 3 :=
  (List.finRange 2).foldl
    (fun state i =>
      if i.val < sponge.cacheSize then
        state.set i.val (state.get i.castSucc + sponge.cache.get i)
      else state)
    sponge.state

/-- Add the waiting inputs to the state and permute it. -/
def performDuplex (sponge : PoseidonSponge) : Circuit PoseidonSponge := do
  let state ← permute sponge.addCache
  pure { sponge with state := state, cacheSize := 0 }

/-- Take one more input; a full cache is permuted into the state first. -/
def absorb (sponge : PoseidonSponge) (input : Base) : Circuit PoseidonSponge := do
  if sponge.cacheSize = RATE then
    let sponge ← sponge.performDuplex
    pure { sponge with cache := sponge.cache.set 0 input, cacheSize := 1 }
  else if inside : sponge.cacheSize < 2 then
    pure { sponge with
      cache := sponge.cache.set sponge.cacheSize input
      cacheSize := sponge.cacheSize + 1 }
  else
    throw "Index out of bounds"

/-- The first word of the state, after what waits has been permuted into it. -/
def squeeze (sponge : PoseidonSponge) : Circuit Base := do
  let sponge ← sponge.performDuplex
  pure (sponge.state.get 0)

end PoseidonSponge

/-- The hash of two elements, whose capacity records their number. -/
def hash2 (left right : Base) : Circuit Base := do
  let initialCapacity := base 2 * base 0x10000000000000000
  let sponge ← (PoseidonSponge.new initialCapacity).absorb left
  let sponge ← sponge.absorb right
  sponge.squeeze

/-- The number of zeros that fill the last block, in 32-bit arithmetic. -/
def paddingCount (n : Nat) : Circuit Nat := do
  check (n + RATE < 2 ^ 32) "attempt to add with overflow"
  let k := (n + RATE - 1) / RATE
  pure (k * RATE - n)

/-- The hash of a list, padded with zeros to a multiple of the rate. -/
def hash (inputs : List Base) : Circuit Base := do
  let initialCapacity := base inputs.length * base 0x10000000000000000
  let sponge ← inputs.foldlM PoseidonSponge.absorb (PoseidonSponge.new initialCapacity)
  let padding ← paddingCount inputs.length
  let sponge ← (List.range padding).foldlM (fun sponge _ => sponge.absorb 0) sponge
  sponge.squeeze

/-- The name that the Merkle paths use for the hash of two elements. -/
def hashMerge (left right : Base) : Circuit Base := hash2 left right

end Ciphera.Noir.PoseidonAlt
