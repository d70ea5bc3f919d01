import Ciphera.Lib.Machine
import Ciphera.Smirk.Path

/-!
# Roots from siblings

The siblings of a leaf are climbed deepest first.  Where a sibling stands is read off the
low bits of an element.  There are 256 of them: with more siblings the subtraction that says
how many bits to skip overflows.

The root of an empty tree is climbed as well, from a null leaf past null leaves.
-/

namespace Ciphera.Hash

open Ciphera.Lib Ciphera.Lib.Merkle

section

variable (build : Build) (merge : Element → Element → Element)

/-- The bits of the element are skipped from the front up to the last `depth`. -/
def leastSignificantBits (element : Element) (depth : Nat) : Except String (List Bool) := do
  let skip ← build.sub 64 256 depth
  pure ((element.lsb 256).drop skip).reverse

/-- A bit is set where the sibling is on the left. -/
def computeMerkleRootFromIter (leaf : Element) (siblings : List (Element × Bool)) : Element :=
  siblings.foldl (fun leaf step => if step.2 then merge step.1 leaf else merge leaf step.1) leaf

/-- The root over a leaf, along the path that an element chooses. -/
def computeMerkleRoot (leaf pathElement : Element) (siblings : List Element) :
    Except String Element := do
  let bits ← leastSignificantBits build pathElement siblings.length
  pure (computeMerkleRootFromIter merge leaf (siblings.zip bits))

/-- The leaf and every hash of the way up. -/
def computeMerklePathForLeaf (leaf : Element) (siblings : List Element) :
    Except String (List Element) := do
  let bits ← leastSignificantBits build leaf siblings.length
  let state := (siblings.zip bits).foldl
    (fun state step =>
      let hash := if step.2 then merge step.1 state.2 else merge state.2 step.1
      (state.1 ++ [hash], hash))
    ([leaf], leaf)
  pure state.1

/-- The sibling is the null hash on every level. -/
def emptyTreeRoot (depth : Nat) : Except String Element := do
  check (depth ≠ 0) "the smallest possible tree has depth 1"
  pure (computeMerkleRootFromIter merge Element.ZERO
    ((List.range' 1 (depth - 1)).map fun _ => (Element.ZERO, false)))

end

variable {build : Build} {merge : Element → Element → Element}

/-- There are never as many steps, and one more. -/
theorem length_bits_ne {element : Element} {depth : Nat} {bits : List Bool}
    (read : leastSignificantBits build element depth = .ok bits) :
    min depth bits.length + 1 ≠ depth := by
  rcases bind_eq_ok_iff.mp read with ⟨skip, skipped, same⟩
  obtain rfl := pure_eq_ok_iff.mp same
  rw [List.length_reverse, List.length_drop, Element.lsb_length]
  rw [Build.sub] at skipped
  split_ifs at skipped
  all_goals
    obtain rfl := Except.ok.inj skipped
    omega

/-- The loop keeps one hash for every step. -/
theorem length_foldl_hashes (steps : List (Element × Bool)) (state : List Element × Element) :
    (steps.foldl
      (fun state step =>
        let hash := if step.2 then merge step.1 state.2 else merge state.2 step.1
        (state.1 ++ [hash], hash))
      state).1.length = state.1.length + steps.length := by
  induction steps generalizing state with
  | nil => rfl
  | cons step steps ih =>
      rw [List.foldl_cons, ih, List.length_append, List.length_singleton, List.length_cons,
        Nat.add_assoc, Nat.add_comm 1]

/-- No path for a leaf is as long as the path it is computed from. -/
theorem length_computeMerklePathForLeaf_ne {leaf : Element} {siblings path : List Element}
    (computed : computeMerklePathForLeaf build merge leaf siblings = .ok path) :
    path.length ≠ siblings.length := by
  rcases bind_eq_ok_iff.mp computed with ⟨bits, read, same⟩
  obtain rfl := pure_eq_ok_iff.mp same
  rw [length_foldl_hashes, List.length_zip, List.length_singleton, Nat.add_comm]
  exact length_bits_ne read

theorem emptyTreeRoot_eq_climb {depth : Nat} (positive : 1 ≤ depth) :
    emptyTreeRoot merge depth =
      .ok (climb merge Element.ZERO (fun _ => false) (fun _ => Element.ZERO) (depth - 1)) := by
  rw [emptyTreeRoot, check_of _ (Nat.ne_of_gt positive), ok_bind, ← foldl_range_eq_climb,
    computeMerkleRootFromIter, List.range'_eq_map_range, List.map_map, List.foldl_map]
  rfl

end Ciphera.Hash
