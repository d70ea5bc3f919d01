import Ciphera.Lib.Check
import Ciphera.Lib.Sponge
import Mathlib.Algebra.GroupWithZero.Nat
import Mathlib.Data.Nat.Cast.Defs

/-!
# The Poseidon sponge

The permutation is read off a specification: the rounds, the S-box and the two tables.  The
sponge buffers in a row of entries that are empty or hold a value, and the same row is what
it is squeezed from.

A message is padded with zeros to full blocks, and its length is where the state starts.
The sponge then is the one that absorbs block by block.  An empty message leaves the row
empty, and absorbing an empty row panics.
-/

namespace Ciphera.MinimalPoseidon

open Ciphera.Lib

/-- `Spec` and `CachedSpec`; the inverse of the matrix is never read. -/
structure Spec (F : Type) (width : Nat) where
  fullRounds : Nat
  partialRounds : Nat
  sbox : F → F
  roundConstants : List (Vector F width)
  mds : Vector (Vector F width) width

/-- A sponge, absorbing or squeezing. -/
structure Sponge (F : Type) (width : Nat) where
  mode : List (Option F)
  state : Vector F width
  layout : Nat

section Permutation

variable {F : Type} [Zero F] [Add F] [Mul F] {width : Nat} (spec : Spec F width)

/-- The product of the MDS matrix with the state. -/
def applyMds (state : Vector F width) : Vector F width :=
  Vector.ofFn fun row =>
    (List.finRange width).foldl
      (fun word column => word + (spec.mds.get row).get column * state.get column) 0

/-- A round that sends every word through the S-box. -/
def fullRound (state constants : Vector F width) : Vector F width :=
  applyMds spec (Vector.ofFn fun index => spec.sbox (state.get index + constants.get index))

/-- Only the first word goes through the S-box. -/
def partRound (state constants : Vector F width) : Vector F width :=
  let state := Vector.ofFn fun index => state.get index + constants.get index
  applyMds spec
    (Vector.ofFn fun index =>
      if index.val = 0 then spec.sbox (state.get index) else state.get index)

/-- The rounds are zipped with the constants, so that the shorter of the two lists ends
the permutation. -/
def permute (state : Vector F width) : Vector F width :=
  ((List.replicate (spec.fullRounds / 2) (fullRound spec) ++
      List.replicate spec.partialRounds (partRound spec) ++
      List.replicate (spec.fullRounds / 2) (fullRound spec)).zip spec.roundConstants).foldl
    (fun state round => round.1 state round.2) state

end Permutation

section Sponge

variable {F : Type} [Zero F] [Add F] [Mul F] [NatCast F] {width : Nat} (spec : Spec F width)
  (rate : Nat)

/-- The words from the offset on are increased by the values they are zipped with. -/
def addValues (layoutOffset : Nat) (state : Vector F width) (values : List F) :
    Vector F width :=
  Vector.ofFn fun index =>
    if layoutOffset ≤ index.val then
      match values[index.val - layoutOffset]? with
      | some value => state.get index + value
      | none => state.get index
    else
      state.get index

/-- Every entry that is zipped with a word is expected to hold a value. -/
def addEntries (layoutOffset : Nat) (state : Vector F width) (entries : List (Option F)) :
    Except String (Vector F width) :=
  match (entries.take (width - layoutOffset)).mapM id with
  | some values => .ok (addValues layoutOffset state values)
  | none => .error "poseidon_sponge is called with a padded input"

/-- Add the inputs of a block to the state. -/
def absorbInput (state : Vector F width) :
    Option (List (Option F) × Nat) → Except String (Vector F width)
  | some (entries, layoutOffset) => do
      check (layoutOffset ≤ width - rate) "assertion failed: layout_offset <= T - RATE"
      addEntries layoutOffset state entries
  | none => pure state

/-- The state after the permutation, and the row of its first words. -/
def poseidonSpongeInternal (state : Vector F width) (input : Option (List (Option F) × Nat)) :
    Except String (Vector F width × List (Option F)) := do
  let state ← absorbInput rate state input
  let state := permute spec state
  pure (state, (List.range rate).map fun index => state[index]?)

/-- The value is stored in the first empty entry. -/
def storeFirst (value : F) : List (Option F) → Option (List (Option F))
  | [] => none
  | none :: entries => some (some value :: entries)
  | some stored :: entries => (storeFirst value entries).map (some stored :: ·)

/-- The value of the first entry that holds one. -/
def takeFirst : List (Option F) → Option (F × List (Option F))
  | [] => none
  | some value :: entries => some (value, none :: entries)
  | none :: entries => (takeFirst entries).map fun taken => (taken.1, none :: taken.2)

/-- `Absorbing::init_with`. -/
def initWith (value : F) : List (Option F) :=
  some value :: List.replicate (rate - 1) none

namespace Sponge

/-- The sponge of a capacity element. -/
def new [NeZero width] (initialCapacityElement : F) (layout : Nat) : Sponge F width where
  mode := List.replicate rate none
  state := (Vector.replicate width 0).set ((rate + layout) % width) initialCapacityElement
    (Nat.mod_lt _ (Nat.pos_of_neZero width))
  layout := layout

/-- Take one more input; full ones are absorbed first. -/
def absorb (sponge : Sponge F width) (value : F) : Except String (Sponge F width) :=
  match storeFirst value sponge.mode with
  | some mode => .ok { sponge with mode := mode }
  | none => do
      let (state, _) ←
        poseidonSpongeInternal spec rate sponge.state (some (sponge.mode, sponge.layout))
      pure { sponge with state := state, mode := initWith rate value }

/-- Absorb what is left, and turn to squeezing. -/
def finishAbsorbing (sponge : Sponge F width) : Except String (Sponge F width) := do
  let (state, mode) ←
    poseidonSpongeInternal spec rate sponge.state (some (sponge.mode, sponge.layout))
  pure { sponge with state := state, mode := mode }

/-- The loop refills an empty row; at a rate of zero it would not end. -/
def squeeze : Nat → Sponge F width → Except String (F × Sponge F width)
  | 0, _ => .error "the loop is still running"
  | fuel + 1, sponge =>
      match takeFirst sponge.mode with
      | some (value, mode) => .ok (value, { sponge with mode := mode })
      | none => do
          let (state, mode) ← poseidonSpongeInternal spec rate sponge.state none
          squeeze fuel { sponge with state := state, mode := mode }

end Sponge

/-- `ConstantLength::initial_capacity_element`. -/
def initialCapacityElement (length : Nat) : F :=
  ((length <<< 64 : Nat) : F)

/-- `ConstantLength::padding`: zeros up to the next full block. -/
def padding (length : Nat) : List F :=
  List.replicate ((length + rate - 1) / rate * rate - length) 0

/-- `Hash::hash` in the domain of the message's length. -/
def hash [NeZero width] (fuel : Nat) (message : List F) : Except String F := do
  let sponge ← (message ++ padding rate message.length).foldlM (Sponge.absorb spec rate)
    (Sponge.new rate (initialCapacityElement message.length) 0)
  let sponge ← sponge.finishAbsorbing spec rate
  let (value, _) ← sponge.squeeze spec rate fuel
  pure value

end Sponge

end Ciphera.MinimalPoseidon
