import Ciphera.Node.BlockHash
import Ciphera.Prover.Prove
import Ciphera.Smirk.Predict

/-!
# Paths prove what is in the tree

A path lets its holder recompute the root of the tree with any value in the slot of
the element.  The tree collects the siblings from the root downwards, the wallet and
the prover hash them from the slot upwards, and so does the circuit, with its own
order of the bits.

The three agree: the occupant of the slot leads to the root of the tree, in the
program and in the circuit, and no other value does unless two of the hashed pairs
collide.
-/

namespace Ciphera.Prover

open Ciphera.Lib Ciphera.Lib.Merkle Ciphera.Noir Ciphera.Smirk Ciphera.Zk

section

variable (poseidon : Poseidon)

/-- The pairs that are hashed on the way from a value to the root. -/
def hashedPairs (path : Path) (value : Element) : Set (Element × Element) :=
  climbNodes (Node.merge poseidon) value path.element.toNat.testBit
    (fun level => path.siblings[level]?.getD Element.ZERO) path.siblings.length

end

variable {poseidon : Poseidon} {DEPTH : Nat} {V C : Type} {hash : CacheHash C} {tempNoir : Bool}

/-- Above the leaves all nodes are canonical. -/
@[simp]
theorem fromBase_toBase_climb (value : Element) (side : Nat → Bool) (sibling : Nat → Element)
    (depth : Nat) :
    Element.fromBase (climb (Node.merge poseidon) value side sibling (depth + 1)).toBase =
      climb (Node.merge poseidon) value side sibling (depth + 1) := by
  rw [climb]
  split_ifs <;> rw [Node.merge, hashMerge, Element.toBase_fromBase]

/-- The path of an element has a sibling for each level below the root.  It leads from
the occupant of the slot to the root of the tree, and from no other value without a
collision; the circuit computes the same roots from it. -/
theorem pathFor_proves_occupant {cache : C} {uses : List (CachedTree.Use DEPTH V)}
    {cached : CachedTree DEPTH V C} (levels : 1 ≤ DEPTH ∧ DEPTH ≤ 257)
    (truthful : Truthful (Node.merge poseidon) hash cache)
    (run : Run (CachedTree.UseStep (Node.merge poseidon) hash tempNoir)
      (CachedTree.newWithCache cache) uses cached) (element : Element) :
    ∃ path : Path,
      cached.tree.pathFor (Node.merge poseidon) element = (.ok path : Result Path) ∧
        path.siblings.length = DEPTH - 1 ∧
        (∀ occupant, cached.tree.Occupies element occupant →
          path.computeRootHash (Node.merge poseidon) occupant =
              cached.tree.rootHash (Node.merge poseidon) ∧
            ∀ value, Set.InjOn (Function.uncurry (Node.merge poseidon))
                (hashedPairs poseidon path value ∪ hashedPairs poseidon path occupant) →
              path.computeRootHash (Node.merge poseidon) value =
                cached.tree.rootHash (Node.merge poseidon) → value = occupant) ∧
        (DEPTH = 161 → ∀ (value : Element) (bits : Vector Bool 254),
          (∀ level (levelLt : level < 160), bits[level] = element.toNat.testBit level) →
            Element.fromBase (AggUtxo.getMerkleRoot poseidon value.toBase bits
                (MerklePath.mk path.siblings).words) =
              path.computeRootHash (Node.merge poseidon) value) := by
  have wellFormed := (CachedTree.sound_of_uses levels.1 truthful run).wellFormed
  have length := length_path (Node.merge poseidon) (DEPTH - 1) cached.tree.leaves element.toNat
  refine ⟨_, wellFormed.pathFor_eq levels element, length, ?_, ?_⟩
  · intro occupant occupies
    have leaf := wellFormed.distinct.occupies_iff.mp occupies
    have reaches : Path.computeRootHash (Node.merge poseidon) ⟨path (Node.merge poseidon)
        (DEPTH - 1) cached.tree.leaves element.toNat, element,
          cached.tree.rootHash (Node.merge poseidon)⟩ occupant =
          cached.tree.rootHash (Node.merge poseidon) := by
      rw [Path.computeRootHash, computeMerkleRoot_path, ← leaf, Function.update_eq_self,
        wellFormed.rootHash_eq]
    refine ⟨reaches, ?_⟩
    intro value collisionFree same
    rw [← reaches, Path.computeRootHash, Path.computeRootHash, computeMerkleRoot_eq_climb,
      computeMerkleRoot_eq_climb] at same
    exact eq_of_climb_eq _ collisionFree same
  · rintro rfl value bits sides
    rw [getMerkleRoot_words length sides, fromBase_toBase_climb, Path.computeRootHash,
      computeMerkleRoot_eq_climb, length]

/-- In the tree of one element its path leads to the root. -/
theorem oneElement_path :
    ∃ (cached : CachedTree 161 Unit Unit) (path : Path),
      Run (CachedTree.UseStep (Node.merge Node.levelHash)
          (CachedTree.noopHash (Node.merge Node.levelHash)) false) (CachedTree.newWithCache ())
          [.change (.insert 1 ())] cached ∧
        cached.tree.pathFor (Node.merge Node.levelHash) 1 = (.ok path : Result Path) ∧
        path.siblings.length = 160 ∧
        path.computeRootHash (Node.merge Node.levelHash) 1 =
          cached.tree.rootHash (Node.merge Node.levelHash) := by
  have one : (1 : Element) ≠ 0 := by decide
  have inserted : ∃ cached, Run (CachedTree.Step (Node.merge Node.levelHash)
      (CachedTree.noopHash (Node.merge Node.levelHash)) false) (CachedTree.newWithCache ())
        [(.insert 1 () : Call 161 Unit)] cached ∧
      ∀ other, other ∈ cached.tree.entries ↔ other = 1 :=
    CachedTree.exists_run_insert () () (by decide) (by decide) CachedTree.noopHash_truthful one
  rcases inserted with ⟨cached, run, elements⟩
  have uses := CachedTree.uses_of_run run
  rcases pathFor_proves_occupant (by decide) CachedTree.noopHash_truthful uses 1 with
    ⟨path, found, length, occupied, _⟩
  have occupies : cached.tree.Occupies 1 1 := .inl ⟨(elements 1).mpr rfl, rfl⟩
  exact ⟨cached, path, uses, found, length, (occupied 1 occupies).1⟩

/-- An element has too few bits for a deeper tree. -/
theorem deeper_tree_panics :
    ∃ cached : CachedTree 258 Unit Unit,
      Run (CachedTree.UseStep (Node.merge Node.levelHash)
          (CachedTree.noopHash (Node.merge Node.levelHash)) false) (CachedTree.newWithCache ())
          [] cached ∧
        cached.tree.pathFor (Node.merge Node.levelHash) 1 =
          (.error (.panic "attempt to subtract with overflow") : Result Path) :=
  ⟨_, .nil, rfl⟩

end Ciphera.Prover
