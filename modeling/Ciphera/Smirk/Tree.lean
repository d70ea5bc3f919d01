import Ciphera.Smirk.Represents

/-!
# The notes tree and its batches

A tree keeps its elements in an ordered map beside the nodes that hash them.
A batch collects insertions and removals with pairwise distinct slots; applying
it first compares its slots with those of the elements in the tree.

Applying a batch that passes this comparison may still panic: several internal
expectations are unwrapped.  The results below say when it does not.
-/

namespace Ciphera.Smirk

open Ciphera.Lib Ciphera.Lib.Merkle

/-- All collisions found at once. -/
structure CollisionError where
  collisions : List Collision
  deriving DecidableEq, Repr

/-- Insertions and removals for a tree of depth `DEPTH`, with the slots they
occupy. -/
structure Batch (DEPTH : Nat) (V : Type) where
  entries : List (Element × V) := []
  removeEntries : List Element := []
  lsbs : List Nat := []

namespace Batch

variable {DEPTH : Nat} {V : Type}

/-- The elements that a batch inserts. -/
def insertElements (batch : Batch DEPTH V) : List Element := batch.entries.map Prod.fst

/-- The batch does nothing. -/
def isEmpty (batch : Batch DEPTH V) : Bool := batch.entries.isEmpty && batch.removeEntries.isEmpty

/-- The element of the batch at a slot. -/
def findElementWithLsb (batch : Batch DEPTH V) (lsb : Nat) : Option Element :=
  (batch.insertElements ++ batch.removeEntries).find? (·.slot (DEPTH - 1) = lsb)

/-- Occupy the slot of an element unless it is taken.  The last `DEPTH - 1` bits are cut
out of the 256 of the element when they are hashed into the set. -/
def claimSlot (batch : Batch DEPTH V) (element : Element) :
    Except (Stop CollisionError) (Batch DEPTH V) :=
  let lsb := element.slot (DEPTH - 1)
  if 256 < DEPTH - 1 then
    .error (.panic "attempt to subtract with overflow")
  else if lsb ∈ batch.lsbs then
    match batch.findElementWithLsb lsb with
    | some inTree => .error (.error ⟨[⟨inTree, element, DEPTH, .batch⟩]⟩)
    | none => .error (.panic "called `Option::unwrap()` on a `None` value")
  else
    .ok { batch with lsbs := batch.lsbs ++ [lsb] }

/-- Add an insertion, if no other element of the batch has its slot. -/
def insert (batch : Batch DEPTH V) (element : Element) (value : V) :
    Except (Stop CollisionError) (Batch DEPTH V) := do
  let batch ← batch.claimSlot element
  pure { batch with entries := batch.entries ++ [(element, value)] }

/-- Add a removal, under the same condition. -/
def remove (batch : Batch DEPTH V) (element : Element) :
    Except (Stop CollisionError) (Batch DEPTH V) := do
  let batch ← batch.claimSlot element
  pure { batch with removeEntries := batch.removeEntries ++ [element] }

/-- The batch of a list of insertions and a list of removals, added one by one. -/
def fromEntries (entries : List (Element × V)) (removeEntries : List Element) :
    Except (Stop CollisionError) (Batch DEPTH V) := do
  let batch ← entries.foldlM (fun batch entry => batch.insert entry.1 entry.2) {}
  removeEntries.foldlM (fun batch element => batch.remove element) batch

end Batch

/-- A sparse Merkle tree: the nodes, and the elements with their metadata. -/
structure Tree (DEPTH : Nat) (V : Type) where
  tree : Node
  entries : Std.TreeMap Element V

namespace Tree

variable {DEPTH : Nat} {V : Type}

/-- The tree without elements. -/
def new : Tree DEPTH V := ⟨.empty DEPTH, ∅⟩

/-- The element is in the tree. -/
def containsElement (tree : Tree DEPTH V) (element : Element) : Bool :=
  tree.entries.contains element

/-- The collisions between the insertions of a batch and the tree, one for each
element of the tree whose slot is wanted. -/
def collisions (tree : Tree DEPTH V) (batch : Batch DEPTH V) : List Collision :=
  tree.entries.keys.filterMap fun treeElement =>
    let treeLsb := treeElement.slot (DEPTH - 1)
    if batch.insertElements.any (·.slot (DEPTH - 1) = treeLsb) then
      (batch.findElementWithLsb treeLsb).map fun batchElement =>
        ⟨treeElement, batchElement, DEPTH, .tree⟩
    else none

/-- The removals of a batch whose slot is vacant in the tree. -/
def missing (tree : Tree DEPTH V) (batch : Batch DEPTH V) : List Element :=
  batch.removeEntries.filter fun element =>
    !tree.entries.keys.any (·.slot (DEPTH - 1) = element.slot (DEPTH - 1))

/-- A removal from a vacant slot is an unfinished case of the source, unless it
was built with `TEMP_NOIR`. -/
def checkCollisions (tempNoir : Bool) (tree : Tree DEPTH V) (batch : Batch DEPTH V) :
    Except (Stop CollisionError) Unit := do
  check (tree.missing batch = [] ∨ tempNoir = true)
    (.panic "not yet implemented: we should return something else than collision error here")
  let all := tree.collisions batch ++
    (tree.missing batch).map fun element => ⟨Element.ZERO, element, DEPTH, .tree⟩
  check (all = []) (.error ⟨all⟩)

variable (merge : Element → Element → Element)

/-- The hash of the root. -/
def rootHash (tree : Tree DEPTH V) : Element := tree.tree.hash merge

/-- The hash that the root would have after insertions and removals. -/
def rootHashWith (tree : Tree DEPTH V) (insertElements removeElements : List Element) :
    Except String Element :=
  tree.tree.hashWith merge DEPTH insertElements removeElements

/-- Apply a batch to the nodes and to the map, leaving stale hashes marked. -/
def insertWithoutHashing (tree : Tree DEPTH V) (batch : Batch DEPTH V) :
    Except (Stop Collision) (Tree DEPTH V) :=
  if batch.isEmpty then pure tree
  else do
    check (∀ element ∈ batch.insertElements ++ batch.removeEntries, element ≠ Element.ZERO)
      (.error ⟨Element.ZERO, Element.ZERO, DEPTH, .tree⟩)
    match batch.insertElements.find? tree.containsElement with
    | some element => .error (.error ⟨element, element, DEPTH, .tree⟩)
    | none => do
        check (∀ element ∈ batch.removeEntries, tree.containsElement element = true)
          (.panic "not yet implemented: return error that we can't remove this element")
        let (node, changed) ←
          tree.tree.insertWithoutHashing merge DEPTH
            (sortChanges DEPTH (changesOf batch.insertElements batch.removeEntries)) 0
        check (changed = true) (.panic "internal error: entered unreachable code")
        let inserted :=
          batch.entries.foldl (fun entries entry => entries.insert entry.1 entry.2) tree.entries
        pure ⟨node, batch.removeEntries.foldl (fun entries element => entries.erase element) inserted⟩

/-- A collision reported by the nodes is unwrapped. -/
def insertBatch (tempNoir : Bool) (tree : Tree DEPTH V) (batch : Batch DEPTH V) :
    Except (Stop CollisionError) (Tree DEPTH V) := do
  tree.checkCollisions tempNoir batch
  match tree.insertWithoutHashing merge batch with
  | .ok changed => pure { changed with tree := changed.tree.recalculateHashes merge }
  | .error (.error _) => .error (.panic "called `Result::unwrap()` on an `Err` value")
  | .error (.panic message) => .error (.panic message)

end Tree

/-- A tree that is kept in a database; the database mirrors it. -/
structure Persistent (DEPTH : Nat) (V : Type) where
  tree : Tree DEPTH V

/-- An empty batch does not reach the tree. -/
def Persistent.insertBatch {DEPTH : Nat} {V : Type} (merge : Element → Element → Element)
    (tempNoir : Bool) (persistent : Persistent DEPTH V) (batch : Batch DEPTH V) :
    Except (Stop CollisionError) (Persistent DEPTH V) :=
  if batch.isEmpty then pure persistent
  else do
    let tree ← persistent.tree.insertBatch merge tempNoir batch
    pure ⟨tree⟩

end Ciphera.Smirk
