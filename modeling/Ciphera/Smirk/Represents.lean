import Ciphera.Smirk.Node

/-!
# What a node stands for

A node represents an assignment of elements to the slots below it, with zero in
the empty ones.  Over this meaning the predicted root is the Merkle root of the
changed assignment, and applying a batch followed by recomputing the marked
hashes leads to a node that represents the changed assignment and caches its
root.
-/

namespace Ciphera.Smirk

open Ciphera.Lib Ciphera.Lib.Merkle

/-! ## Changes as writes -/

/-- The number whose low bits are the slot of a change. -/
def changeKey (change : Change × Element) : Nat := change.2.toNat

/-- What a change does to the element in its slot. -/
def changeEffect (change : Change × Element) (current : Element) : Element :=
  match change.1 with
  | .insert => change.2
  | .remove => if current = change.2 then Element.ZERO else current

/-- The assignment after a list of changes. -/
abbrev applyChanges (depth : Nat) (changes : List (Change × Element)) (leaves : Nat → Element) :
    Nat → Element :=
  writeAll changeKey changeEffect depth changes leaves

@[simp]
theorem changeKey_mod (change : Change × Element) (depth : Nat) :
    changeKey change % 2 ^ depth = change.2.slot depth :=
  rfl

@[simp]
theorem goesRight_eq {DEPTH pathDepth depth : Nat} (levels : pathDepth + depth + 2 = DEPTH)
    (change : Change × Element) :
    goesRight DEPTH pathDepth change = (changeKey change).testBit depth := by
  have bit : (Element.lsb change.2 (DEPTH - 1))[pathDepth]? =
      some (change.2.toNat.testBit (DEPTH - 1 - 1 - pathDepth)) :=
    Element.lsb_getElem? (show pathDepth < DEPTH - 1 by omega)
  rw [goesRight, List.getD_eq_getElem?_getD, bit, Option.getD_some]
  congr 1
  omega

theorem splitChanges_eq {DEPTH pathDepth depth : Nat} {changes : List (Change × Element)}
    (levels : pathDepth + depth + 2 = DEPTH)
    (sorted : SortedSlots changeKey (depth + 1) changes) :
    splitChanges DEPTH pathDepth changes =
      (leftWrites changeKey depth changes, rightWrites changeKey depth changes) := by
  have bits : goesRight DEPTH pathDepth = fun change => (changeKey change).testBit depth :=
    funext (goesRight_eq levels)
  simp only [splitChanges, bits, take_findIdx_eq_filter sorted.monotone,
    drop_findIdx_eq_filter sorted.monotone]
  rfl

theorem sortedSlots_sortChanges (DEPTH : Nat) (changes : List (Change × Element)) :
    SortedSlots changeKey (DEPTH - 1) (sortChanges DEPTH changes) := by
  have total : Std.Total fun first second : Change × Element =>
      first.2.slot (DEPTH - 1) ≤ second.2.slot (DEPTH - 1) := ⟨fun _ _ => Nat.le_total _ _⟩
  have transitive : IsTrans (Change × Element) fun first second =>
      first.2.slot (DEPTH - 1) ≤ second.2.slot (DEPTH - 1) := ⟨fun _ _ _ => Nat.le_trans⟩
  exact List.pairwise_insertionSort _ changes

theorem sortChanges_perm (DEPTH : Nat) (changes : List (Change × Element)) :
    (sortChanges DEPTH changes).Perm changes :=
  List.perm_insertionSort _ changes

variable {merge : Element → Element → Element}

@[simp]
theorem emptyTreeHash_succ (depth : Nat) :
    emptyTreeHash merge (depth + 1) = emptyRoot merge Element.ZERO depth := by
  induction depth with
  | zero => rfl
  | succ depth ih => rw [emptyTreeHash, ih, emptyRoot]

/-! ## Representation -/

/-- The node stands for a tree with `depth` branchings over the given leaves. -/
inductive Represents : Node → Nat → (Nat → Element) → Prop
  | leaf {element : Element} {leaves : Nat → Element} (occupied : leaves 0 = element)
      (nonzero : element ≠ Element.ZERO) : Represents (.leaf element) 0 leaves
  | empty {depth : Nat} {leaves : Nat → Element}
      (vacant : ∀ slot < 2 ^ depth, leaves slot = Element.ZERO) :
      Represents (.empty (depth + 1)) depth leaves
  | parent {left right : Node} {hash : Element} {hashDirty : Bool} {depth : Nat}
      {leaves : Nat → Element} (leftRepresents : Represents left depth leaves)
      (rightRepresents : Represents right depth (rightLeaves depth leaves)) :
      Represents (.parent left right hash hashDirty) (depth + 1) leaves

/-- Only the slots of the tree matter. -/
theorem Represents.congr {node : Node} {depth : Nat} {first second : Nat → Element}
    (represents : Represents node depth first)
    (agree : ∀ slot < 2 ^ depth, first slot = second slot) : Represents node depth second := by
  induction represents generalizing second with
  | leaf occupied nonzero => exact .leaf ((agree 0 (by simp)).symm.trans occupied) nonzero
  | empty vacant =>
      exact .empty fun slot slotLt => (agree slot slotLt).symm.trans (vacant slot slotLt)
  | parent left right leftIH rightIH =>
      refine .parent (leftIH fun slot slotLt => agree slot ?_)
        (rightIH fun slot slotLt => agree _ ?_)
      · exact slotLt.trans (by rw [pow_succ]; omega)
      · rw [pow_succ]
        omega

variable (merge) in
/-- Every cached hash is up to date. -/
def Node.Clean : Node → Prop
  | .leaf _ => True
  | .empty _ => True
  | .parent left right hash hashDirty =>
      hashDirty = false ∧ hash = merge (left.hash merge) (right.hash merge) ∧
        left.Clean ∧ right.Clean

variable (merge) in
/-- Every cached hash that is not up to date is marked. -/
def Node.Marked : Node → Prop
  | .leaf _ => True
  | .empty _ => True
  | .parent left right _ true => left.Marked ∧ right.Marked
  | .parent left right hash false => (Node.parent left right hash false).Clean merge

theorem Node.Clean.marked {node : Node} (clean : node.Clean merge) : node.Marked merge := by
  cases node with
  | leaf element => trivial
  | empty depth => trivial
  | parent left right hash hashDirty =>
      obtain rfl : hashDirty = false := clean.1
      exact clean

/-- The cached hash of a clean node is the Merkle root of its leaves. -/
theorem Represents.hash_eq {node : Node} {depth : Nat} {leaves : Nat → Element}
    (represents : Represents node depth leaves) (clean : node.Clean merge) :
    node.hash merge = root merge depth leaves := by
  induction represents with
  | leaf occupied nonzero => exact occupied.symm
  | @empty depth leaves vacant =>
      rw [Node.hash, emptyTreeHash_succ, ← root_null]
      exact root_congr merge fun slot slotLt => (vacant slot slotLt).symm
  | parent left right leftIH rightIH =>
      obtain ⟨_, hashEq, leftClean, rightClean⟩ := clean
      rw [Node.hash, hashEq, root_succ, leftIH leftClean, rightIH rightClean]

/-- Recomputing marked hashes makes a node clean and keeps its meaning. -/
theorem Node.recalculateHashes_clean {node : Node} (marked : node.Marked merge) :
    (node.recalculateHashes merge).Clean merge := by
  induction node with
  | leaf element => trivial
  | empty depth => trivial
  | parent left right hash hashDirty leftIH rightIH =>
      cases hashDirty with
      | false => exact marked
      | true =>
          rw [Node.recalculateHashes, if_pos rfl]
          exact ⟨rfl, rfl, leftIH marked.1, rightIH marked.2⟩

theorem Represents.recalculateHashes {node : Node} {depth : Nat} {leaves : Nat → Element}
    (represents : Represents node depth leaves) :
    Represents (node.recalculateHashes merge) depth leaves := by
  induction represents with
  | leaf occupied nonzero => exact .leaf occupied nonzero
  | empty vacant => exact .empty vacant
  | @parent _ _ _ hashDirty _ _ left right leftIH rightIH =>
      rw [Node.recalculateHashes]
      cases hashDirty with
      | true => exact .parent leftIH rightIH
      | false => exact .parent left right

/-! ## The predicted root -/

/-- At a leaf position at most one change may arrive. -/
theorem Node.hashWithEmpty_eq_ok_iff {DEPTH depth pathDepth : Nat}
    {changes : List (Change × Element)} {result : Element}
    (levels : pathDepth + depth + 1 = DEPTH) (sorted : SortedSlots changeKey depth changes) :
    Node.hashWithEmpty merge DEPTH (depth + 1) changes pathDepth = .ok result ↔
      DistinctSlots changeKey depth changes ∧
        root merge depth (applyChanges depth changes fun _ => Element.ZERO) = result := by
  induction depth generalizing pathDepth changes result with
  | zero =>
      rw [distinctSlots_zero_iff]
      match changes with
      | [] => simp [Node.hashWithEmpty, emptyTreeHash]
      | [(.insert, element)] =>
          simp [Node.hashWithEmpty, writeAll, changeEffect, Nat.mod_one]
      | [(.remove, element)] =>
          simp [Node.hashWithEmpty, writeAll, changeEffect, Nat.mod_one, emptyTreeHash]
      | first :: second :: rest => simp [Node.hashWithEmpty]
  | succ depth ih =>
      cases changes with
      | nil =>
          simp only [Node.hashWithEmpty, List.isEmpty_nil, if_true, pure_eq_ok_iff, writeAll_nil,
            root_null, emptyTreeHash_succ, DistinctSlots, List.Pairwise.nil, true_and]
      | cons change rest =>
          simp only [Node.hashWithEmpty, List.isEmpty_cons, Bool.false_eq_true, if_false,
            splitChanges_eq (by omega) sorted, bind_eq_ok_iff, pure_eq_ok_iff,
            ih (show pathDepth + 1 + depth + 1 = DEPTH by omega) sorted.left,
            ih (show pathDepth + 1 + depth + 1 = DEPTH by omega) sorted.right,
            distinctSlots_succ_iff, root_writeAll_succ]
          constructor
          · rintro ⟨_, ⟨leftDistinct, rfl⟩, _, ⟨rightDistinct, rfl⟩, rfl⟩
            exact ⟨⟨leftDistinct, rightDistinct⟩, rfl⟩
          · rintro ⟨⟨leftDistinct, rightDistinct⟩, rfl⟩
            exact ⟨_, ⟨leftDistinct, rfl⟩, _, ⟨rightDistinct, rfl⟩, rfl⟩

/-- The prediction fails exactly when two changes fall on one slot, and
otherwise it is the root of the changed leaves. -/
theorem Represents.hashWithInner_eq_ok_iff {DEPTH depth pathDepth : Nat} {node : Node}
    {leaves : Nat → Element} {changes : List (Change × Element)} {result : Element}
    (represents : Represents node depth leaves) (levels : pathDepth + depth + 1 = DEPTH)
    (sorted : SortedSlots changeKey depth changes) :
    node.hashWithInner merge DEPTH changes pathDepth = .ok result ↔
      DistinctSlots changeKey depth changes ∧
        root merge depth (applyChanges depth changes leaves) = result := by
  induction represents generalizing pathDepth changes result with
  | @leaf element leaves occupied nonzero =>
      rw [distinctSlots_zero_iff]
      subst occupied
      match changes with
      | [] => simp [Node.hashWithInner]
      | [(.insert, element)] =>
          simp [Node.hashWithInner, writeAll, changeEffect, Nat.mod_one]
      | [(.remove, element)] =>
          by_cases same : leaves 0 = element <;>
            simp [Node.hashWithInner, writeAll, changeEffect, Nat.mod_one, emptyTreeHash, same]
      | first :: second :: rest => simp [Node.hashWithInner]
  | @empty depth leaves vacant =>
      rw [Node.hashWithInner, Node.hashWithEmpty_eq_ok_iff levels sorted]
      have same : root merge depth (applyChanges depth changes fun _ => Element.ZERO) =
          root merge depth (applyChanges depth changes leaves) :=
        root_congr merge fun slot slotLt => writeAll_congr changes (vacant slot slotLt).symm
      rw [same]
  | @parent _ _ _ _ depth leaves left right leftIH rightIH =>
      simp only [Node.hashWithInner, splitChanges_eq (by omega) sorted, bind_eq_ok_iff,
        pure_eq_ok_iff, leftIH (show pathDepth + 1 + depth + 1 = DEPTH by omega) sorted.left,
        rightIH (show pathDepth + 1 + depth + 1 = DEPTH by omega) sorted.right,
        distinctSlots_succ_iff, root_writeAll_succ]
      constructor
      · rintro ⟨_, ⟨leftDistinct, rfl⟩, _, ⟨rightDistinct, rfl⟩, rfl⟩
        exact ⟨⟨leftDistinct, rightDistinct⟩, rfl⟩
      · rintro ⟨⟨leftDistinct, rightDistinct⟩, rfl⟩
        exact ⟨_, ⟨leftDistinct, rfl⟩, _, ⟨rightDistinct, rfl⟩, rfl⟩

/-! ## Applying changes -/

/-- Every insertion finds its slot vacant and every removal finds its element
there. -/
def Applicable (depth : Nat) (changes : List (Change × Element)) (leaves : Nat → Element) :
    Prop :=
  ∀ change ∈ changes, change.2 ≠ Element.ZERO ∧
    leaves (change.2.slot depth) =
      match change.1 with
      | .insert => Element.ZERO
      | .remove => change.2

theorem Applicable.left {depth : Nat} {changes : List (Change × Element)}
    {leaves : Nat → Element} (applicable : Applicable (depth + 1) changes leaves) :
    Applicable depth (leftWrites changeKey depth changes) leaves := by
  intro change mem
  obtain ⟨mem, bit⟩ := mem_leftWrites.mp mem
  have slotEq : change.2.slot (depth + 1) = change.2.slot depth := key_mod_of_left bit
  rw [← slotEq]
  exact applicable change mem

theorem Applicable.right {depth : Nat} {changes : List (Change × Element)}
    {leaves : Nat → Element} (applicable : Applicable (depth + 1) changes leaves) :
    Applicable depth (rightWrites changeKey depth changes) (rightLeaves depth leaves) := by
  intro change mem
  obtain ⟨mem, bit⟩ := mem_rightWrites.mp mem
  have slotEq : change.2.slot (depth + 1) = 2 ^ depth + change.2.slot depth :=
    key_mod_of_right bit
  rw [rightLeaves, ← slotEq]
  exact applicable change mem

variable (merge) in
/-- The changes were applied: the result has changed, represents the given
leaves, and marks every stale hash. -/
def ChangedTo (applied : Node.Applied) (depth : Nat) (leaves : Nat → Element) : Prop :=
  ∃ node, applied = .ok (node, true) ∧ Represents node depth leaves ∧ node.Marked merge

/-- The children of a parent whose changes are those of its two halves. -/
theorem Represents.parent_applyChanges {left right : Node} {hash : Element} {hashDirty : Bool}
    {depth : Nat} {leaves : Nat → Element} {changes : List (Change × Element)}
    (leftRepresents : Represents left depth
      (applyChanges depth (leftWrites changeKey depth changes) leaves))
    (rightRepresents : Represents right depth
      (applyChanges depth (rightWrites changeKey depth changes) (rightLeaves depth leaves))) :
    Represents (.parent left right hash hashDirty) (depth + 1)
      (applyChanges (depth + 1) changes leaves) :=
  .parent (leftRepresents.congr fun _ slotLt => (writeAll_left changes leaves slotLt).symm)
    (rightRepresents.congr fun _ _ => (writeAll_right changes leaves).symm)

/-- Changes that reach neither half are no changes. -/
theorem eq_nil_of_halves {depth : Nat} {changes : List (Change × Element)}
    (lefts : leftWrites changeKey depth changes = [])
    (rights : rightWrites changeKey depth changes = []) : changes = [] := by
  cases changes with
  | nil => rfl
  | cons change rest =>
      cases bit : (changeKey change).testBit depth with
      | false =>
          have mem : change ∈ leftWrites changeKey depth (change :: rest) :=
            mem_leftWrites.mpr ⟨List.mem_cons_self, bit⟩
          simp [lefts] at mem
      | true =>
          have mem : change ∈ rightWrites changeKey depth (change :: rest) :=
            mem_rightWrites.mpr ⟨List.mem_cons_self, bit⟩
          simp [rights] at mem

theorem Node.insertParent_changedTo {DEPTH depth pathDepth : Nat} {left right : Node}
    {hash : Element} {hashDirty : Bool} {leaves : Nat → Element}
    {insertLeft insertRight : List (Change × Element) → Node.Applied}
    {changes : List (Change × Element)} (levels : pathDepth + depth + 2 = DEPTH)
    (sorted : SortedSlots changeKey (depth + 1) changes) (nonempty : changes ≠ [])
    (leftRepresents : Represents left depth leaves) (leftClean : left.Clean merge)
    (rightRepresents : Represents right depth (rightLeaves depth leaves))
    (rightClean : right.Clean merge)
    (insertLeft_changedTo : leftWrites changeKey depth changes ≠ [] →
      ChangedTo merge (insertLeft (leftWrites changeKey depth changes)) depth
        (applyChanges depth (leftWrites changeKey depth changes) leaves))
    (insertRight_changedTo : rightWrites changeKey depth changes ≠ [] →
      ChangedTo merge (insertRight (rightWrites changeKey depth changes)) depth
        (applyChanges depth (rightWrites changeKey depth changes) (rightLeaves depth leaves))) :
    ChangedTo merge
      (Node.insertParent DEPTH pathDepth left right hash hashDirty insertLeft insertRight changes)
      (depth + 1) (applyChanges (depth + 1) changes leaves) := by
  simp only [Node.insertParent, splitChanges_eq levels sorted]
  cases lefts : leftWrites changeKey depth changes with
  | nil =>
      have leftAfter : Represents left depth
          (applyChanges depth (leftWrites changeKey depth changes) leaves) := by
        rw [lefts]
        exact leftRepresents
      cases rights : rightWrites changeKey depth changes with
      | nil => exact absurd (eq_nil_of_halves lefts rights) nonempty
      | cons change rest =>
          obtain ⟨node, applied, represents, marked⟩ :=
            insertRight_changedTo (by simp [rights])
          rw [rights] at applied
          refine ⟨.parent left node hash true, ?_,
            leftAfter.parent_applyChanges represents, leftClean.marked, marked⟩
          simp [applied, pure, Except.pure]
  | cons leftChange leftRest =>
      obtain ⟨leftNode, leftApplied, leftAfter, leftMarked⟩ :=
        insertLeft_changedTo (by simp [lefts])
      rw [lefts] at leftApplied
      cases rights : rightWrites changeKey depth changes with
      | nil =>
          have rightAfter : Represents right depth
              (applyChanges depth (rightWrites changeKey depth changes)
                (rightLeaves depth leaves)) := by
            rw [rights]
            exact rightRepresents
          refine ⟨.parent leftNode right hash true, ?_,
            leftAfter.parent_applyChanges rightAfter, leftMarked, rightClean.marked⟩
          simp [leftApplied, pure, Except.pure]
      | cons rightChange rightRest =>
          obtain ⟨rightNode, rightApplied, rightAfter, rightMarked⟩ :=
            insertRight_changedTo (by simp [rights])
          rw [rights] at rightApplied
          refine ⟨.parent leftNode rightNode hash true, ?_,
            leftAfter.parent_applyChanges rightAfter, leftMarked, rightMarked⟩
          simp [leftApplied, rightApplied, pure, Except.pure]

theorem Node.empty_clean (depth : Nat) : (Node.empty depth).Clean merge :=
  trivial

/-- A list of changes on one slot, of which there is exactly one. -/
theorem exists_singleton {changes : List (Change × Element)} (nonempty : changes ≠ [])
    (distinct : DistinctSlots changeKey 0 changes) : ∃ change, changes = [change] := by
  rw [distinctSlots_zero_iff] at distinct
  match changes with
  | [] => exact absurd rfl nonempty
  | [change] => exact ⟨change, rfl⟩
  | first :: second :: rest => simp at distinct

theorem Node.insertEmpty_changedTo {DEPTH depth pathDepth : Nat}
    {changes : List (Change × Element)} {leaves : Nat → Element}
    (levels : pathDepth + depth + 1 = DEPTH) (sorted : SortedSlots changeKey depth changes)
    (distinct : DistinctSlots changeKey depth changes) (nonempty : changes ≠ [])
    (vacant : ∀ slot < 2 ^ depth, leaves slot = Element.ZERO)
    (applicable : Applicable depth changes leaves) :
    ChangedTo merge (Node.insertEmpty merge DEPTH (depth + 1) changes pathDepth) depth
      (applyChanges depth changes leaves) := by
  induction depth generalizing pathDepth changes leaves with
  | zero =>
      obtain ⟨⟨kind, element⟩, rfl⟩ := exists_singleton nonempty distinct
      obtain ⟨nonzero, found⟩ := applicable _ List.mem_cons_self
      cases kind with
      | insert =>
          refine ⟨.leaf element, rfl, .leaf ?_ nonzero, trivial⟩
          simp [writeAll, changeEffect, Nat.mod_one]
      | remove => exact absurd (found.symm.trans (vacant _ (Element.slot_lt _ _))) nonzero
  | succ depth ih =>
      rw [distinctSlots_succ_iff] at distinct
      have leftVacant : ∀ slot < 2 ^ depth, leaves slot = Element.ZERO :=
        fun slot slotLt => vacant slot (slotLt.trans (by rw [pow_succ]; omega))
      have rightVacant : ∀ slot < 2 ^ depth, rightLeaves depth leaves slot = Element.ZERO :=
        fun slot slotLt => vacant _ (by rw [pow_succ]; omega)
      exact Node.insertParent_changedTo (by omega) sorted nonempty (.empty leftVacant)
        (Node.empty_clean _) (.empty rightVacant) (Node.empty_clean _)
        (fun nonempty => ih (by omega) sorted.left distinct.1 nonempty leftVacant applicable.left)
        (fun nonempty =>
          ih (by omega) sorted.right distinct.2 nonempty rightVacant applicable.right)

/-- Applicable changes are applied, without a collision and without a panic. -/
theorem Represents.insertWithoutHashing_changedTo {DEPTH depth pathDepth : Nat} {node : Node}
    {leaves : Nat → Element} {changes : List (Change × Element)}
    (represents : Represents node depth leaves) (clean : node.Clean merge)
    (levels : pathDepth + depth + 1 = DEPTH) (sorted : SortedSlots changeKey depth changes)
    (distinct : DistinctSlots changeKey depth changes) (nonempty : changes ≠ [])
    (applicable : Applicable depth changes leaves) :
    ChangedTo merge (node.insertWithoutHashing merge DEPTH changes pathDepth) depth
      (applyChanges depth changes leaves) := by
  induction represents generalizing pathDepth changes with
  | @leaf element leaves occupied nonzero =>
      obtain ⟨⟨kind, changed⟩, rfl⟩ := exists_singleton nonempty distinct
      obtain ⟨_, found⟩ := applicable _ List.mem_cons_self
      have slotZero : changed.slot 0 = 0 := Nat.mod_one _
      rw [slotZero, occupied] at found
      cases kind with
      | insert => exact absurd found nonzero
      | remove =>
          obtain rfl : element = changed := found
          refine ⟨.empty 1, ?_, .empty fun slot slotLt => ?_, trivial⟩
          · simp [Node.insertWithoutHashing, pure, Except.pure]
          · obtain rfl : slot = 0 := by simpa using slotLt
            simp [writeAll, changeEffect, Nat.mod_one, occupied]
  | empty vacant =>
      exact Node.insertEmpty_changedTo levels sorted distinct nonempty vacant applicable
  | parent leftRepresents rightRepresents leftIH rightIH =>
      obtain ⟨_, _, leftClean, rightClean⟩ := clean
      rw [distinctSlots_succ_iff] at distinct
      exact Node.insertParent_changedTo (by omega) sorted nonempty leftRepresents leftClean
        rightRepresents rightClean
        (fun nonempty =>
          leftIH leftClean (by omega) sorted.left distinct.1 nonempty applicable.left)
        (fun nonempty =>
          rightIH rightClean (by omega) sorted.right distinct.2 nonempty applicable.right)

end Ciphera.Smirk
