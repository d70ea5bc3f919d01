import Ciphera.Element
import Ciphera.Lib.Batch
import Ciphera.Lib.Check
import Mathlib.Data.List.Sort

/-!
# Nodes of the notes tree

The tree keeps its leaves at the slot given by the low bits of an element.  A
subtree without leaves is a single node; every other inner node caches the hash
of its children.  A batch of changes is applied in one pass that only marks the
nodes it has changed, and a second pass recomputes the marked hashes.  A third
function predicts the root of a batch without applying it.

Both passes divide the changes of a node, which are sorted by slot, at the
first one whose path turns right.
-/

namespace Ciphera.Smirk

open Ciphera.Lib

/-- What happens to a leaf. -/
inductive Change
  | insert
  | remove
  deriving DecidableEq, Repr

/-- Whether a collision was found in a batch or in a tree. -/
inductive StructName
  | batch
  | tree
  deriving DecidableEq, Repr

/-- Two elements that ask for one slot. -/
structure Collision where
  inTree : Element
  inserted : Element
  depth : Nat
  structName : StructName
  deriving DecidableEq, Repr

/-- A subtree; `empty depth` stands for one of that depth without leaves. -/
inductive Node
  | leaf (element : Element)
  | empty (depth : Nat)
  | parent (left right : Node) (hash : Element) (hashDirty : Bool)
  deriving DecidableEq, Repr

/-- The bit of an element's path that decides the branching `pathDepth` levels
below the root of a tree of depth `DEPTH`. -/
def goesRight (DEPTH pathDepth : Nat) (change : Change × Element) : Bool :=
  (change.2.lsb (DEPTH - 1)).getD pathDepth false

/-- The changes that turn left and those that turn right, of a sorted list. -/
def splitChanges (DEPTH pathDepth : Nat) (changes : List (Change × Element)) :
    List (Change × Element) × List (Change × Element) :=
  let rightStart := changes.findIdx (goesRight DEPTH pathDepth)
  (changes.take rightStart, changes.drop rightStart)

/-- Insertions before removals. -/
def changesOf (insertElements removeElements : List Element) : List (Change × Element) :=
  insertElements.map (Change.insert, ·) ++ removeElements.map (Change.remove, ·)

/-- Comparing paths bit by bit, the first branching first, compares the slots
they lead to. -/
def sortChanges (DEPTH : Nat) (changes : List (Change × Element)) : List (Change × Element) :=
  changes.insertionSort fun first second =>
    first.2.slot (DEPTH - 1) ≤ second.2.slot (DEPTH - 1)

variable (merge : Element → Element → Element)

/-- The hash of a tree of the given depth without leaves; there is no tree of
depth zero. -/
def emptyTreeHash : Nat → Element
  | 0 => Element.ZERO
  | 1 => Element.ZERO
  | depth + 2 => merge (emptyTreeHash (depth + 1)) (emptyTreeHash (depth + 1))

namespace Node

/-- The hash that a node stands for. -/
def hash : Node → Element
  | leaf element => element
  | empty depth => emptyTreeHash merge depth
  | parent _ _ hash _ => hash

/-! ## Predicting a root -/

/-- `hash_with_inner` on an empty node, which is expanded as far as changes
reach into it. -/
def hashWithEmpty (DEPTH : Nat) :
    Nat → List (Change × Element) → Nat → Except String Element
  | 0, _, _ => .error "the smallest possible tree has depth 1"
  | 1, changes, _ => do
      check (changes.length ≤ 1)
        "Logic error: Multiple changes target the same empty leaf path"
      match changes.head? with
      | some (.insert, element) => pure element
      | some (.remove, _) => pure (emptyTreeHash merge 1)
      | none => pure (emptyTreeHash merge 1)
  | depth + 2, changes, pathDepth =>
      if changes.isEmpty then pure (emptyTreeHash merge (depth + 2))
      else do
        let (lefts, rights) := splitChanges DEPTH pathDepth changes
        let leftHash ← hashWithEmpty DEPTH (depth + 1) lefts (pathDepth + 1)
        let rightHash ← hashWithEmpty DEPTH (depth + 1) rights (pathDepth + 1)
        pure (merge leftHash rightHash)

/-- The hash that a node would have after changes, at its depth below the root. -/
def hashWithInner (DEPTH : Nat) :
    Node → List (Change × Element) → Nat → Except String Element
  | leaf currentElement, changes, _ => do
      check (changes.length ≤ 1)
        "Logic error: Multiple changes target the same leaf path in hash_with_inner"
      match changes.head? with
      -- an insertion replaces whatever element occupies the slot
      | some (.insert, newElement) => pure newElement
      | some (.remove, removedElement) =>
          if currentElement = removedElement then pure (emptyTreeHash merge 1)
          else pure currentElement
      | none => pure currentElement
  | parent left right _ _, changes, pathDepth => do
      let (lefts, rights) := splitChanges DEPTH pathDepth changes
      let leftHash ← hashWithInner DEPTH left lefts (pathDepth + 1)
      let rightHash ← hashWithInner DEPTH right rights (pathDepth + 1)
      pure (merge leftHash rightHash)
  | empty depth, changes, pathDepth => hashWithEmpty merge DEPTH depth changes pathDepth

/-- The root hash as if the insertions and removals were applied. -/
def hashWith (DEPTH : Nat) (node : Node) (insertElements removeElements : List Element) :
    Except String Element :=
  hashWithInner merge DEPTH node (sortChanges DEPTH (changesOf insertElements removeElements)) 0

/-! ## Applying a batch -/

/-- The result of applying changes to a node: the new node and whether it has
changed. -/
abbrev Applied := Except (Stop Collision) (Node × Bool)

/-- Apply changes to the children of an inner node.  The right subtree goes
first when both are affected. -/
def insertParent (DEPTH pathDepth : Nat) (left right : Node) (hash : Element) (hashDirty : Bool)
    (insertLeft insertRight : List (Change × Element) → Applied)
    (elements : List (Change × Element)) : Applied :=
  let (lefts, rights) := splitChanges DEPTH pathDepth elements
  match lefts.isEmpty, rights.isEmpty with
  | true, true => pure (parent left right hash hashDirty, false)
  | false, true => do
      let (left, changed) ← insertLeft lefts
      pure (parent left right hash changed, changed)
  | true, false => do
      let (right, changed) ← insertRight rights
      pure (parent left right hash changed, changed)
  | false, false => do
      let (right, rightChanged) ← insertRight rights
      let (left, leftChanged) ← insertLeft lefts
      pure (parent left right hash (rightChanged || leftChanged), rightChanged || leftChanged)

/-- `insert_without_hashing` on an empty node, which is split into two empty
halves before the changes are applied to it. -/
def insertEmpty (DEPTH : Nat) : Nat → List (Change × Element) → Nat → Applied
  | 0, _, _ => .error (.panic "the smallest possible tree has depth 1")
  | 1, elements, _ =>
      match elements with
      | [(.insert, element)] => pure (leaf element, true)
      | [(.remove, _)] => pure (empty 1, false)
      | _ => .error (.panic "assertion `left == right` failed")
  | depth + 2, elements, pathDepth =>
      insertParent DEPTH pathDepth (empty (depth + 1)) (empty (depth + 1))
        (emptyTreeHash merge (depth + 2)) false
        (fun lefts => insertEmpty DEPTH (depth + 1) lefts (pathDepth + 1))
        (fun rights => insertEmpty DEPTH (depth + 1) rights (pathDepth + 1)) elements

/-- Apply sorted changes, marking the nodes whose hashes become stale. -/
def insertWithoutHashing (DEPTH : Nat) : Node → List (Change × Element) → Nat → Applied
  | leaf element, elements, _ =>
      match elements.find? (·.2 = element) with
      | some (.insert, _) => pure (leaf element, false)
      | some (.remove, _) => pure (empty 1, true)
      | none =>
          match elements.find? fun other =>
            other.2.slot (DEPTH - 1) = element.slot (DEPTH - 1) with
          | some (_, inserted) => .error (.error ⟨element, inserted, DEPTH, .tree⟩)
          | none => .error (.panic "internal error: entered unreachable code")
  | parent left right hash hashDirty, elements, pathDepth =>
      insertParent DEPTH pathDepth left right hash hashDirty
        (fun lefts => insertWithoutHashing DEPTH left lefts (pathDepth + 1))
        (fun rights => insertWithoutHashing DEPTH right rights (pathDepth + 1)) elements
  | empty depth, elements, pathDepth => insertEmpty merge DEPTH depth elements pathDepth

/-- Recompute the hashes of the marked nodes from the leaves upwards. -/
def recalculateHashes : Node → Node
  | parent left right hash hashDirty =>
      if hashDirty then
        let left := recalculateHashes left
        let right := recalculateHashes right
        parent left right (merge (left.hash merge) (right.hash merge)) false
      else parent left right hash hashDirty
  | leaf element => leaf element
  | empty depth => empty depth

end Node

end Ciphera.Smirk
