import Ciphera.Smirk.HashCache

/-!
# Merkle paths

The path of an element leads from its slot to the root.  The tree collects the
hashes beside it on the way down: where it reaches a subtree without leaves it
fills in the hashes of empty trees.

In a well-formed tree these are the siblings that the Merkle tree of its leaves
has, so that any element can be put in place of the one in the slot and the root
recomputed.
-/

namespace Ciphera.Smirk

open Ciphera.Lib Ciphera.Lib.Merkle

/-- The siblings on the way from an element to the root, deepest first. -/
structure Path where
  siblings : List Element
  element : Element
  rootHash : Element
  deriving DecidableEq, Repr

section

variable (merge : Element → Element → Element) {ε : Type}

/-- The siblings below a node along a list of turns, from the top.  What an empty
node does not fill in stays null. -/
def Node.siblings : Node → List Bool → Except (Stop ε) (List Element)
  | _, [] => pure []
  | .parent left right _ _, bit :: bits =>
      if bit then do
        let below ← right.siblings bits
        pure (left.hash merge :: below)
      else do
        let below ← left.siblings bits
        pure (right.hash merge :: below)
  | .empty depth, bit :: bits => do
      let hashes := (List.range (depth - 1)).reverse.map fun level => emptyTreeHash merge (level + 1)
      check (hashes.length ≤ (bit :: bits).length) (.panic "index out of bounds")
      pure (hashes ++ List.replicate ((bit :: bits).length - hashes.length) Element.ZERO)
  | .leaf _, _ :: _ => .error (.panic "uh oh")

/-- The turns are read off the 256 bits of the element: there are none below the root of
a tree of depth zero, and too few in a tree that is deeper. -/
def Tree.pathFor {DEPTH : Nat} {V : Type} (tree : Tree DEPTH V) (element : Element) :
    Except (Stop ε) Path := do
  check (1 ≤ DEPTH ∧ DEPTH ≤ 257) (.panic "attempt to subtract with overflow")
  let siblings ← tree.tree.siblings merge (element.lsb (DEPTH - 1))
  pure ⟨siblings.reverse, element, tree.rootHash merge⟩

/-- The turns of an element from its slot upwards. -/
def leastSignificantBits (element : Element) (depth : Nat) : List Bool :=
  (element.lsb depth).reverse

/-- The root over a leaf, along the path that an element chooses. -/
def computeMerkleRoot (leaf pathElement : Element) (siblings : List Element) : Element :=
  (siblings.zip (leastSignificantBits pathElement siblings.length)).foldl
    (fun leaf step => if step.2 then merge step.1 leaf else merge leaf step.1) leaf

/-- The root that the tree has if the element is the one in the slot of the path. -/
def Path.computeRootHash (path : Path) (element : Element) : Element :=
  computeMerkleRoot merge element path.element path.siblings

end

variable {merge : Element → Element → Element} {ε : Type}

theorem lsb_succ (element : Element) (count : Nat) :
    element.lsb (count + 1) = element.toNat.testBit count :: element.lsb count := by
  rw [Element.lsb, List.range_succ, List.reverse_append, List.reverse_singleton,
    List.singleton_append, List.map_cons]
  rfl

/-- The siblings of a clean node are those of the tree it stands for. -/
theorem Represents.siblings_eq {node : Node} {depth : Nat} {leaves : Nat → Element}
    (represents : Represents node depth leaves) (clean : node.Clean merge) (element : Element) :
    (node.siblings merge (element.lsb depth) : Except (Stop ε) (List Element)) =
      .ok (path merge depth leaves element.toNat).reverse := by
  induction represents with
  | leaf _ _ => rfl
  | @empty depth leaves vacant =>
      rw [path_congr merge _ vacant, path_null]
      cases depth with
      | zero => rfl
      | succ depth =>
          have hashes : ((List.range (depth + 2 - 1)).reverse.map fun level =>
              emptyTreeHash merge (level + 1)) =
                ((List.range (depth + 1)).map (emptyRoot merge Element.ZERO)).reverse := by
            rw [← List.map_reverse]
            exact List.map_congr_left fun level _ => emptyTreeHash_succ level
          rw [lsb_succ, Node.siblings, hashes, check_of _ (by simp), ok_bind]
          simp [pure, Except.pure]
  | @parent left right hash hashDirty depth leaves leftRepresents rightRepresents leftIH rightIH =>
      rcases clean with ⟨_, _, leftClean, rightClean⟩
      rw [lsb_succ, Node.siblings, path]
      split_ifs
      · rw [rightIH rightClean, ok_bind, leftRepresents.hash_eq leftClean]
        simp [pure, Except.pure]
      · rw [leftIH leftClean, ok_bind, rightRepresents.hash_eq rightClean]
        simp [pure, Except.pure]

/-- Paths always exist, and carry the siblings of the leaves of the tree. -/
theorem Tree.WellFormed.pathFor_eq {DEPTH : Nat} {V : Type} {tree : Tree DEPTH V}
    (wellFormed : tree.WellFormed merge) (levels : 1 ≤ DEPTH ∧ DEPTH ≤ 257) (element : Element) :
    (tree.pathFor merge element : Except (Stop ε) Path) =
      .ok ⟨path merge (DEPTH - 1) tree.leaves element.toNat, element, tree.rootHash merge⟩ := by
  rw [pathFor, check_of _ levels, ok_bind, wellFormed.represents.siblings_eq wellFormed.clean,
    ok_bind, List.reverse_reverse]
  rfl

/-- What the loop over the siblings goes through. -/
@[simp]
theorem zip_leastSignificantBits (pathElement : Element) (siblings : List Element) :
    siblings.zip (leastSignificantBits pathElement siblings.length) =
      (List.range siblings.length).map fun level =>
        (siblings[level]?.getD Element.ZERO, pathElement.toNat.testBit level) := by
  apply List.ext_getElem
  · simp [leastSignificantBits]
  · intro level levelLt _
    have inside : level < siblings.length := by
      rw [List.length_zip] at levelLt
      exact levelLt.trans_le (min_le_left _ _)
    simp [leastSignificantBits, Element.lsb, List.getElem?_eq_getElem inside, BitVec.getLsbD]

/-- The loop over the siblings climbs the path of the slot. -/
theorem computeMerkleRoot_eq_climb (leaf pathElement : Element) (siblings : List Element) :
    computeMerkleRoot merge leaf pathElement siblings =
      climb merge leaf pathElement.toNat.testBit (fun level => siblings[level]?.getD Element.ZERO)
        siblings.length := by
  rw [computeMerkleRoot, zip_leastSignificantBits, List.foldl_map, foldl_range_eq_climb]

/-- The siblings of a slot lead to the root of the tree with the value in the slot. -/
theorem computeMerkleRoot_path (depth : Nat) (leaves : Nat → Element) (element value : Element) :
    computeMerkleRoot merge value element (path merge depth leaves element.toNat) =
      root merge depth (Function.update leaves (element.slot depth) value) := by
  have length := length_path merge depth leaves element.toNat
  rw [computeMerkleRoot_eq_climb, length]
  apply climb_path
  intro level levelLt
  rw [List.getElem?_eq_getElem (length.symm ▸ levelLt), Option.getD_some]

/-- What the slot of an element holds: an element of the tree, or null. -/
def Tree.Occupies {DEPTH : Nat} {V : Type} (tree : Tree DEPTH V) (element occupant : Element) :
    Prop :=
  (occupant ∈ tree.entries ∧ occupant.slot (DEPTH - 1) = element.slot (DEPTH - 1)) ∨
    (occupant = Element.ZERO ∧
      ∀ other ∈ tree.entries, other.slot (DEPTH - 1) ≠ element.slot (DEPTH - 1))

theorem Tree.DistinctElements.occupies_iff {DEPTH : Nat} {V : Type} {tree : Tree DEPTH V}
    (distinct : tree.DistinctElements) {element occupant : Element} :
    tree.Occupies element occupant ↔ tree.leaves (element.slot (DEPTH - 1)) = occupant := by
  constructor
  · rintro (⟨mem, sameSlot⟩ | ⟨rfl, vacant⟩)
    · rw [← sameSlot]
      exact leaves_of_mem distinct mem
    · exact leaves_of_vacant vacant
  · rintro rfl
    by_cases taken : ∃ other ∈ tree.entries, other.slot (DEPTH - 1) = element.slot (DEPTH - 1)
    · rcases taken with ⟨other, mem, sameSlot⟩
      rw [← sameSlot, leaves_of_mem distinct mem]
      exact .inl ⟨mem, sameSlot⟩
    · have vacant : ∀ other ∈ tree.entries, other.slot (DEPTH - 1) ≠ element.slot (DEPTH - 1) :=
        fun other mem sameSlot => taken ⟨other, mem, sameSlot⟩
      exact .inr ⟨leaves_of_vacant vacant, vacant⟩

/-! ## Single changes -/

namespace CachedTree

variable {DEPTH : Nat} {V C : Type} {hash : CacheHash C} {cached : CachedTree DEPTH V C}

/-- A batch that fits changes the leaves it names and no others. -/
theorem Sound.exists_of_fits {batch : Batch DEPTH V} (sound : cached.Sound merge hash)
    (positive : 0 < DEPTH) (tempNoir : Bool) (fits : cached.tree.Fits batch)
    (nonempty : batch.isEmpty = false) :
    ∃ next, cached.insertBatch merge hash tempNoir batch = .ok next ∧ next.Sound merge hash ∧
      next.tree.leaves = applyChanges (DEPTH - 1)
        (changesOf batch.insertElements batch.removeEntries) cached.tree.leaves := by
  rcases fits.insertBatch_eq_ok tempNoir positive sound.wellFormed nonempty with
    ⟨after, applied, wellFormed, entries, _⟩
  rcases exists_insertBatch sound.truthful applied with ⟨next, inserted, rfl⟩
  refine ⟨next, inserted, ⟨wellFormed, (insertBatch_eq_ok sound.truthful inserted).2⟩, ?_⟩
  have perm := sortChanges_perm DEPTH (changesOf batch.insertElements batch.removeEntries)
  have distinct := (Batch.distinctSlots_changesOf_iff _ _).mpr fits.slots
  funext slot
  rw [applyChanges, ← writeAll_perm _ perm distinct]
  have changed := fits.leaves_entriesAfter next.tree.tree sound.wellFormed.distinct slot
  rw [← entries] at changed
  exact changed.symm

/-- An element that is there can be removed. -/
theorem Sound.exists_remove {element : Element} (sound : cached.Sound merge hash)
    (positive : 0 < DEPTH) (narrow : DEPTH ≤ 257) (tempNoir : Bool)
    (applicable : Applicable (DEPTH - 1) [(.remove, element)] cached.tree.leaves) :
    ∃ next, cached.remove merge hash tempNoir element = .ok next ∧ next.Sound merge hash ∧
      next.tree.leaves =
        applyChanges (DEPTH - 1) [(.remove, element)] cached.tree.leaves := by
  rcases applicable _ List.mem_cons_self with ⟨nonzero, found⟩
  dsimp only at nonzero found
  have present : element ∈ cached.tree.entries := by
    have mem := (Tree.mem_of_leaves (found.trans_ne nonzero)).1
    rwa [found] at mem
  have fits : cached.tree.Fits (({} : Batch DEPTH V).pushRemove element) := by
    constructor
    · simp [Batch.pushRemove, Batch.insertElements, Batch.slots]
    · simpa [Batch.pushRemove, Batch.insertElements] using nonzero
    · rintro ⟨_, mem, _⟩
      exact absurd mem List.not_mem_nil
    · simpa [Batch.pushRemove] using present
  rcases sound.exists_of_fits positive tempNoir fits rfl with ⟨next, inserted, nextSound, leaves⟩
  have built : ({} : Batch DEPTH V).remove element = .ok _ :=
    Batch.remove_eq_ok_iff.mpr ⟨narrow, List.not_mem_nil, rfl⟩
  exact ⟨next, bind_eq_ok_iff.mpr ⟨_, built, inserted⟩, nextSound, leaves⟩

/-- An element whose slot is vacant can be inserted. -/
theorem Sound.exists_insert {element : Element} (value : V) (sound : cached.Sound merge hash)
    (positive : 0 < DEPTH) (narrow : DEPTH ≤ 257) (tempNoir : Bool)
    (applicable : Applicable (DEPTH - 1) [(.insert, element)] cached.tree.leaves) :
    ∃ next, cached.insert merge hash tempNoir element value = .ok next ∧ next.Sound merge hash ∧
      next.tree.leaves =
        applyChanges (DEPTH - 1) [(.insert, element)] cached.tree.leaves := by
  rcases applicable _ List.mem_cons_self with ⟨nonzero, vacant⟩
  dsimp only at nonzero vacant
  have fits : cached.tree.Fits (({} : Batch DEPTH V).push (element, value)) := by
    constructor
    · simp [Batch.push, Batch.insertElements, Batch.slots]
    · simpa [Batch.push, Batch.insertElements] using nonzero
    · rintro ⟨_, mem, other, otherMem, sameSlot⟩
      obtain rfl := List.mem_singleton.mp mem
      rw [← sameSlot, Tree.leaves_of_mem sound.wellFormed.distinct otherMem] at vacant
      exact sound.wellFormed.nonzero other otherMem vacant
    · intro other mem
      exact absurd mem List.not_mem_nil
  have built : ({} : Batch DEPTH V).insert (element, value).1 (element, value).2 = .ok _ :=
    Batch.insert_eq_ok_iff.mpr ⟨narrow, List.not_mem_nil, rfl⟩
  rcases sound.exists_of_fits positive tempNoir fits rfl with ⟨next, inserted, nextSound, leaves⟩
  exact ⟨next, bind_eq_ok_iff.mpr ⟨_, built, inserted⟩, nextSound, leaves⟩

end CachedTree

end Ciphera.Smirk
