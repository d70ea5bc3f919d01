import Ciphera.Hash
import Ciphera.Lib.Run
import Ciphera.Smirk.EmptyTree

/-!
# Merkle paths of a fixed depth

A path for a tree of `DEPTH` levels is meant to hold `DEPTH - 1` siblings, which
`MerklePath::new` asserts.  The path of an empty slot would do for a leaf that is inserted
there, but `apply_leaf` does not return it.  What it puts in the place of the siblings are
the hashes from the leaf to the new root, one more than there were siblings.
-/

namespace Ciphera.Zk

open Ciphera.Lib Ciphera.Lib.Merkle
open Ciphera.Smirk.EmptyTree (recordedMerge)

/-- The siblings of a leaf, from the bottom up. -/
structure MerklePath (DEPTH : Nat) where
  siblings : List Element
  deriving DecidableEq, Repr

namespace MerklePath

variable {DEPTH : Nat}

section

variable (build : Build) (merge : Element → Element → Element)

/-- The path of zeros. -/
def default : Except String (MerklePath DEPTH) := do
  let siblings := (List.range' 1 (DEPTH - 1)).map fun _ => Element.ZERO
  let size ← build.sub 64 DEPTH 1
  check (siblings.length = size) "assertion `left == right` failed"
  pure ⟨siblings⟩

/-- The path of given siblings, whose number is checked. -/
def new (siblings : List Element) : Except String (MerklePath DEPTH) := do
  let size ← build.sub 64 DEPTH 1
  check (size = siblings.length) "Merkle path invalid size"
  pure ⟨siblings⟩

/-- The root with the hash at the path. -/
def computeBeforeRoot (path : MerklePath DEPTH) (hash : Element) : Except String Element :=
  Hash.computeMerkleRoot build merge hash hash path.siblings

/-- The path after the insertion of a leaf, as the source computes it. -/
def applyLeaf (path : MerklePath DEPTH) (leaf : Element) : Except String (MerklePath DEPTH) := do
  let siblings ← Hash.computeMerklePathForLeaf build merge leaf path.siblings
  pure ⟨siblings⟩

/-- The last element of the array is left out. -/
def fromBases (elements : Vector Base DEPTH) : Except String (MerklePath DEPTH) := do
  let size ← build.sub 64 DEPTH 1
  check (size ≤ DEPTH) "range end index out of range for slice"
  new build ((elements.toList.take size).map Element.fromBase)

/-- The array has room for one element more than the path is meant to hold. -/
def intoBases (path : MerklePath DEPTH) : Except String (Vector Base DEPTH) :=
  if fits : path.siblings.length = DEPTH then
    .ok ⟨(path.siblings.map Element.toBase).toArray, by simpa using fits⟩
  else .error "called `Result::unwrap()` on an `Err` value"

/-! ## Sequences of calls -/

/-- The calls that make a path or read one. -/
inductive Call (DEPTH : Nat)
  | new (siblings : List Element)
  | default
  | applyLeaf (path : MerklePath DEPTH) (leaf : Element)
  | fromBases (elements : Vector Base DEPTH)
  | intoBases (path : MerklePath DEPTH)

/-- The call is `apply_leaf`. -/
def Call.appliesLeaf : Call DEPTH → Bool
  | applyLeaf _ _ => true
  | _ => false

/-- A call that returns adds the path it returns to those at hand.  The path it is given is
one of these, or a copy. -/
inductive Step (paths : List (MerklePath DEPTH)) :
    Call DEPTH → List (MerklePath DEPTH) → Prop
  | new {siblings : List Element} {path : MerklePath DEPTH} :
      MerklePath.new build siblings = .ok path → Step paths (.new siblings) (path :: paths)
  | default {path : MerklePath DEPTH} :
      MerklePath.default build = .ok path → Step paths .default (path :: paths)
  | applyLeaf {path applied : MerklePath DEPTH} {leaf : Element} : path ∈ paths →
      path.applyLeaf build merge leaf = .ok applied →
      Step paths (.applyLeaf path leaf) (applied :: paths)
  | fromBases {elements : Vector Base DEPTH} {path : MerklePath DEPTH} :
      MerklePath.fromBases build elements = .ok path →
      Step paths (.fromBases elements) (path :: paths)
  | intoBases {path : MerklePath DEPTH} {elements : Vector Base DEPTH} : path ∈ paths →
      path.intoBases = .ok elements → Step paths (.intoBases path) paths

/-- The siblings are those of the slot of an element. -/
def IsPathOf (path : MerklePath DEPTH) (element : Element) (leaves : Nat → Element) : Prop :=
  path.siblings = Merkle.path merge (DEPTH - 1) leaves element.toNat

/-- The leaves with one more in the slot of its element. -/
def inserted (DEPTH : Nat) (leaves : Nat → Element) (leaf : Element) : Nat → Element :=
  Function.update leaves (leaf.slot (DEPTH - 1)) leaf

/-- The path leads from the leaf to the root, and is as long as the tree is deep. -/
structure Includes (path : MerklePath DEPTH) (leaf : Element) (leaves : Nat → Element) :
    Prop where
  size : path.siblings.length = DEPTH - 1
  root : path.computeBeforeRoot build merge leaf = .ok (Merkle.root merge (DEPTH - 1) leaves)

end

variable {build : Build} {merge : Element → Element → Element}

/-! ## The size of a path -/

theorem sub_one_eq (positive : 1 ≤ DEPTH) : build.sub 64 DEPTH 1 = .ok (DEPTH - 1) :=
  if_pos positive

theorem length_new {siblings : List Element} {path : MerklePath DEPTH} (positive : 1 ≤ DEPTH)
    (returned : new build siblings = .ok path) : path.siblings.length = DEPTH - 1 := by
  rw [new, sub_one_eq positive, ok_bind] at returned
  rcases bind_eq_ok_iff.mp returned with ⟨_, fits, same⟩
  obtain rfl := pure_eq_ok_iff.mp same
  exact (check_eq_ok_iff.mp fits).symm

theorem new_of_length {siblings : List Element} (positive : 1 ≤ DEPTH)
    (size : siblings.length = DEPTH - 1) :
    new build siblings = .ok (⟨siblings⟩ : MerklePath DEPTH) := by
  rw [new, sub_one_eq positive, ok_bind, check_of _ size.symm]
  rfl

/-- The default path is one of zeros, and passes the check it makes. -/
theorem default_eq (positive : 1 ≤ DEPTH) :
    default build = .ok (⟨List.replicate (DEPTH - 1) Element.ZERO⟩ : MerklePath DEPTH) := by
  rw [default, sub_one_eq positive, ok_bind, List.map_const', List.length_range',
    check_of _ List.length_replicate]
  rfl

theorem length_fromBases {elements : Vector Base DEPTH} {path : MerklePath DEPTH}
    (positive : 1 ≤ DEPTH) (returned : fromBases build elements = .ok path) :
    path.siblings.length = DEPTH - 1 := by
  rcases bind_eq_ok_iff.mp returned with ⟨size, _, rest⟩
  rcases bind_eq_ok_iff.mp rest with ⟨_, _, created⟩
  exact length_new positive created

theorem length_applyLeaf_ne {path applied : MerklePath DEPTH} {leaf : Element}
    (returned : path.applyLeaf build merge leaf = .ok applied) :
    applied.siblings.length ≠ path.siblings.length := by
  rcases bind_eq_ok_iff.mp returned with ⟨siblings, computed, same⟩
  obtain rfl := pure_eq_ok_iff.mp same
  exact Hash.length_computeMerklePathForLeaf_ne computed

theorem forall_length_cons_iff {path : MerklePath DEPTH} {paths : List (MerklePath DEPTH)}
    (size : path.siblings.length = DEPTH - 1) :
    (∀ other ∈ path :: paths, other.siblings.length = DEPTH - 1) ↔
      ∀ other ∈ paths, other.siblings.length = DEPTH - 1 := by
  rw [List.forall_mem_cons, and_iff_right size]

/-- A call keeps all paths at their size unless it applies a leaf, and then it does not. -/
theorem Step.length_iff {paths next : List (MerklePath DEPTH)} {call : Call DEPTH}
    (positive : 1 ≤ DEPTH) (step : Step build merge paths call next) :
    (∀ path ∈ next, path.siblings.length = DEPTH - 1) ↔
      (∀ path ∈ paths, path.siblings.length = DEPTH - 1) ∧ call.appliesLeaf = false := by
  cases step with
  | new returned =>
      rw [forall_length_cons_iff (length_new positive returned)]
      exact (and_iff_left rfl).symm
  | default returned =>
      obtain rfl := Except.ok.inj ((default_eq positive).symm.trans returned)
      rw [forall_length_cons_iff List.length_replicate]
      exact (and_iff_left rfl).symm
  | fromBases returned =>
      rw [forall_length_cons_iff (length_fromBases positive returned)]
      exact (and_iff_left rfl).symm
  | intoBases mem returned => exact (and_iff_left rfl).symm
  | applyLeaf mem returned =>
      constructor
      · intro sized
        rcases List.forall_mem_cons.mp sized with ⟨applied, before⟩
        exact absurd (applied.trans (before _ mem).symm) (length_applyLeaf_ne returned)
      · rintro ⟨_, other⟩
        exact absurd other Bool.noConfusion

/-- All paths of a run are of the right size as long as no leaf is applied, and no longer. -/
theorem length_iff_of_run {calls : List (Call DEPTH)} {paths : List (MerklePath DEPTH)}
    (positive : 1 ≤ DEPTH) (run : Run (Step build merge) [] calls paths) :
    (∀ path ∈ paths, path.siblings.length = DEPTH - 1) ↔
      ∀ call ∈ calls, call.appliesLeaf = false := by
  induction run with
  | nil => simp
  | snoc run step ih =>
      rw [step.length_iff positive, ih, List.forall_mem_append, List.forall_mem_singleton]

/-! ## What a path proves -/

section

variable {path : MerklePath DEPTH} {leaf : Element} {leaves : Nat → Element}

theorem IsPathOf.length_eq (isPath : path.IsPathOf merge leaf leaves) :
    path.siblings.length = DEPTH - 1 := by
  rw [isPath, length_path]

/-- The tree gives out the path of the slot of an element. -/
theorem isPathOf_of_pathFor {V ε : Type} {tree : Smirk.Tree DEPTH V} {found : Smirk.Path}
    (wellFormed : tree.WellFormed merge) (levels : 1 ≤ DEPTH ∧ DEPTH ≤ 257)
    (returned : (tree.pathFor merge leaf : Except (Stop ε) Smirk.Path) = .ok found) :
    (⟨found.siblings⟩ : MerklePath DEPTH).IsPathOf merge leaf tree.leaves := by
  rw [wellFormed.pathFor_eq levels] at returned
  obtain rfl := Except.ok.inj returned
  rfl

theorem IsPathOf.computeMerkleRoot_eq (isPath : path.IsPathOf merge leaf leaves)
    (value : Element) :
    Smirk.computeMerkleRoot merge value leaf path.siblings =
      root merge (DEPTH - 1) (Function.update leaves (leaf.slot (DEPTH - 1)) value) := by
  rw [isPath, Smirk.computeMerkleRoot_path]

/-- The path that a leaf is applied to does not come back as one of its size. -/
theorem IsPathOf.not_includes_applyLeaf (isPath : path.IsPathOf merge leaf leaves)
    {applied : MerklePath DEPTH} (returned : path.applyLeaf build merge leaf = .ok applied)
    (other : Nat → Element) : ¬applied.Includes build merge leaf other := by
  intro includes
  exact length_applyLeaf_ne returned (includes.size.trans isPath.length_eq.symm)

end

/-- Paths keep their size exactly in the runs that apply no leaf.  The path that comes from
applying a leaf to the path of its empty slot never is one of the leaf. -/
theorem keepsShape_iff (levels : 2 ≤ DEPTH) :
    (∀ (calls : List (Call DEPTH)) (paths : List (MerklePath DEPTH)),
      Run (Step build merge) [] calls paths →
        ((∀ path ∈ paths, path.siblings.length = DEPTH - 1) ↔
          ∀ call ∈ calls, call.appliesLeaf = false)) ∧
      ∀ (path applied : MerklePath DEPTH) (leaf : Element) (leaves : Nat → Element),
        path.IsPathOf merge leaf leaves → leaves (leaf.slot (DEPTH - 1)) = Element.ZERO →
          path.applyLeaf build merge leaf = .ok applied →
            ¬applied.Includes build merge leaf (inserted DEPTH leaves leaf) := by
  constructor
  · intro calls paths run
    exact length_iff_of_run (Nat.le_of_succ_le levels) run
  · intro path applied leaf leaves isPath _ returned
    exact isPath.not_includes_applyLeaf returned _

theorem keepsShape_two :
    ((∀ path ∈ ([⟨[0]⟩] : List (MerklePath 2)), path.siblings.length = 1) ↔
        ∀ call ∈ ([.default] : List (Call 2)), call.appliesLeaf = false) ∧
      ¬(⟨[5, recordedMerge 0 5]⟩ : MerklePath 2).Includes .release
        recordedMerge 5 (inserted 2 (fun _ => 0) 5) := by
  have run : Run (Step .release recordedMerge) [] [.default]
      ([⟨[0]⟩] : List (MerklePath 2)) := Run.single (.default rfl)
  constructor
  · exact (keepsShape_iff (by decide)).1 _ _ run
  · exact (keepsShape_iff (by decide)).2 ⟨[0]⟩ _ 5 (fun _ => 0) rfl rfl (by decide +kernel)

/-- One sibling becomes two hashes, which lead to another root. -/
theorem not_keepsShape_two :
    ∃ applied : MerklePath 2,
      Run (Step .release recordedMerge) [] [.default, .applyLeaf ⟨[0]⟩ 5]
          [applied, ⟨[0]⟩] ∧
        applied.siblings.length ≠ 2 - 1 ∧
        (⟨[0]⟩ : MerklePath 2).IsPathOf recordedMerge 5 (fun _ => 0) ∧
        applied.computeBeforeRoot .release recordedMerge 5 ≠
          .ok (root recordedMerge 1 (inserted 2 (fun _ => 0) 5)) := by
  refine ⟨⟨[5, recordedMerge 0 5]⟩, ?_, by decide, rfl, by decide +kernel⟩
  have defaulted : Run (Step .release recordedMerge) [] [.default]
      ([⟨[0]⟩] : List (MerklePath 2)) := Run.single (.default rfl)
  exact defaulted.trans
    (Run.single (.applyLeaf (List.mem_singleton.mpr rfl) (by decide +kernel)))

end MerklePath

end Ciphera.Zk
