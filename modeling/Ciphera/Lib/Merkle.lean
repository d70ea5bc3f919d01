import Mathlib.Data.Set.Function
import Mathlib.Logic.Function.Basic
import Mathlib.Data.Nat.Bitwise

/-!
# Perfect binary hash trees

A tree of `depth` levels has `2 ^ depth` slots.  Its root is computed from the
leaves by a two-argument compression, and the bit `depth` of a slot number
selects the half of the tree of `depth + 1` levels it lies in.  A path is
climbed from the leaf towards the root, with bit `i` of the slot at level `i`.

The central result is position binding: a path that climbs to the root of a
tree carries the leaf of that tree, and climbing the same path with another
leaf gives the root of the updated tree.  The only assumption is that the
compression has no collision among the pairs that the tree and the path
themselves evaluate; a compression of a finite type has collisions somewhere.
-/

namespace Ciphera.Lib.Merkle

universe u

variable {α : Type u} (hash : α → α → α)

/-- The leaves of the right half of a tree of `depth + 1` levels. -/
def rightLeaves (depth : Nat) (leaves : Nat → α) : Nat → α :=
  fun slot => leaves (2 ^ depth + slot)

/-- The root of the tree of `depth` levels over the given leaves. -/
def root : Nat → (Nat → α) → α
  | 0, leaves => leaves 0
  | depth + 1, leaves =>
      hash (root depth leaves) (root depth (rightLeaves depth leaves))

/-- The root of the tree whose leaves are all `null`. -/
def emptyRoot (null : α) : Nat → α
  | 0 => null
  | depth + 1 => hash (emptyRoot null depth) (emptyRoot null depth)

/-- The pairs compressed by the inner nodes of a tree. -/
def nodes : Nat → (Nat → α) → Set (α × α)
  | 0, _ => ∅
  | depth + 1, leaves =>
      insert (root hash depth leaves, root hash depth (rightLeaves depth leaves))
        (nodes depth leaves ∪ nodes depth (rightLeaves depth leaves))

/-- Climb `depth` levels from a leaf; a set side bit puts the sibling on the
left. -/
def climb (leaf : α) (side : Nat → Bool) (sibling : Nat → α) : Nat → α
  | 0 => leaf
  | depth + 1 =>
      if side depth then hash (sibling depth) (climb leaf side sibling depth)
      else hash (climb leaf side sibling depth) (sibling depth)

/-- The roots of the subtrees beside the way from a slot to the root, deepest
first.  The slot is given by the low bits of a key. -/
def path : Nat → (Nat → α) → Nat → List α
  | 0, _, _ => []
  | depth + 1, leaves, key =>
      if key.testBit depth then
        path depth (rightLeaves depth leaves) key ++ [root hash depth leaves]
      else path depth leaves key ++ [root hash depth (rightLeaves depth leaves)]

/-- The pairs compressed while climbing. -/
def climbNodes (leaf : α) (side : Nat → Bool) (sibling : Nat → α) : Nat → Set (α × α)
  | 0 => ∅
  | depth + 1 =>
      insert
        (if side depth then (sibling depth, climb hash leaf side sibling depth)
          else (climb hash leaf side sibling depth, sibling depth))
        (climbNodes leaf side sibling depth)

@[simp]
theorem root_zero (leaves : Nat → α) : root hash 0 leaves = leaves 0 :=
  rfl

theorem root_succ (depth : Nat) (leaves : Nat → α) :
    root hash (depth + 1) leaves =
      hash (root hash depth leaves) (root hash depth (rightLeaves depth leaves)) :=
  rfl

@[simp]
theorem emptyRoot_zero (null : α) : emptyRoot hash null 0 = null :=
  rfl

/-- The root only reads the slots of its tree. -/
theorem root_congr {depth : Nat} {first second : Nat → α}
    (agree : ∀ slot < 2 ^ depth, first slot = second slot) :
    root hash depth first = root hash depth second := by
  induction depth generalizing first second with
  | zero => exact agree 0 (by simp)
  | succ depth ih =>
      rw [root_succ, root_succ]
      congr 1
      · exact ih fun slot slotLt => agree slot (by omega)
      · exact ih fun slot slotLt => agree (2 ^ depth + slot) (by omega)

@[simp]
theorem root_null (null : α) (depth : Nat) :
    root hash depth (fun _ => null) = emptyRoot hash null depth := by
  induction depth with
  | zero => rfl
  | succ depth ih =>
      rw [root_succ, emptyRoot, ih]
      exact congrArg _ ih

/-- An empty tree compresses only equal pairs of empty roots. -/
@[simp]
theorem nodes_null (null : α) (depth : Nat) :
    nodes hash depth (fun _ => null) =
      {pair | ∃ level < depth,
        pair = (emptyRoot hash null level, emptyRoot hash null level)} := by
  induction depth with
  | zero => simp [nodes]
  | succ depth ih =>
      have rightEq : rightLeaves depth (fun _ => null) = fun _ => null := rfl
      ext pair
      simp only [nodes, rightEq, root_null, ih, Set.union_self, Set.mem_insert_iff,
        Set.mem_ofPred_eq]
      constructor
      · rintro (rfl | ⟨level, levelLt, rfl⟩)
        · exact ⟨depth, by omega, rfl⟩
        · exact ⟨level, by omega, rfl⟩
      · rintro ⟨level, levelLt, rfl⟩
        by_cases levelEq : level = depth
        · subst level
          exact Or.inl rfl
        · exact Or.inr ⟨level, by omega, rfl⟩

/-- A loop from the leaf upwards climbs the path. -/
theorem foldl_range_eq_climb (leaf : α) (side : Nat → Bool) (sibling : Nat → α) (depth : Nat) :
    (List.range depth).foldl
        (fun node level =>
          if side level then hash (sibling level) node else hash node (sibling level))
        leaf =
      climb hash leaf side sibling depth := by
  induction depth with
  | zero => rfl
  | succ depth ih => simp [List.range_succ, List.foldl_append, ih, climb]

theorem climb_congr {depth : Nat} (leaf : α) {first second : Nat → Bool}
    (sibling : Nat → α) (agree : ∀ level < depth, first level = second level) :
    climb hash leaf first sibling depth = climb hash leaf second sibling depth := by
  induction depth with
  | zero => rfl
  | succ depth ih =>
      simp only [climb]
      rw [agree depth (by omega), ih fun level levelLt => agree level (by omega)]

theorem climbNodes_congr {depth : Nat} (leaf : α) {first second : Nat → Bool}
    (sibling : Nat → α) (agree : ∀ level < depth, first level = second level) :
    climbNodes hash leaf first sibling depth = climbNodes hash leaf second sibling depth := by
  induction depth with
  | zero => rfl
  | succ depth ih =>
      have below : ∀ level < depth, first level = second level :=
        fun level levelLt => agree level (by omega)
      simp only [climbNodes]
      rw [agree depth (by omega), climb_congr hash leaf sibling below, ih below]

/-- No two leaves climb to the same root, unless two of the pairs on the way collide. -/
theorem eq_of_climb_eq {depth : Nat} {first second : α} {side : Nat → Bool} {sibling : Nat → α}
    (collisionFree : Set.InjOn (Function.uncurry hash)
      (climbNodes hash first side sibling depth ∪ climbNodes hash second side sibling depth))
    (same : climb hash first side sibling depth = climb hash second side sibling depth) :
    first = second := by
  induction depth with
  | zero => exact same
  | succ depth ih =>
      have below := collisionFree.mono
        (Set.union_subset_union (Set.subset_insert _ _) (Set.subset_insert _ _))
      have pairs := collisionFree (.inl (Set.mem_insert _ _)) (.inr (Set.mem_insert _ _))
      rw [climb, climb] at same
      cases bit : side depth with
      | false =>
          rw [bit] at same pairs
          exact ih below (Prod.mk.inj (pairs same)).1
      | true =>
          rw [bit] at same pairs
          exact ih below (Prod.mk.inj (pairs same)).2

/-- In an empty tree every path climbs through the empty roots. -/
theorem climb_null {null : α} {side : Nat → Bool} {sibling : Nat → α} {depth : Nat}
    (siblings : ∀ level < depth, sibling level = emptyRoot hash null level) :
    climb hash null side sibling depth = emptyRoot hash null depth := by
  induction depth with
  | zero => rfl
  | succ depth ih =>
      rw [climb, ih fun level levelLt => siblings level (by omega), siblings depth (by omega)]
      cases side depth <;> rfl

theorem climbNodes_null {null : α} {side : Nat → Bool} {sibling : Nat → α} {depth : Nat}
    (siblings : ∀ level < depth, sibling level = emptyRoot hash null level) :
    climbNodes hash null side sibling depth ⊆ nodes hash depth (fun _ => null) := by
  rw [nodes_null]
  induction depth with
  | zero => exact Set.empty_subset _
  | succ depth ih =>
      have below : ∀ level < depth, sibling level = emptyRoot hash null level :=
        fun level levelLt => siblings level (by omega)
      rintro pair (rfl | mem)
      · refine ⟨depth, by omega, ?_⟩
        rw [climb_null hash below, siblings depth (by omega)]
        cases side depth <;> rfl
      · obtain ⟨level, levelLt, pairEq⟩ := ih below mem
        exact ⟨level, by omega, pairEq⟩

theorem emptyRoots_mem_nodes {null : α} {level depth : Nat} (levelLt : level < depth) :
    (emptyRoot hash null level, emptyRoot hash null level) ∈
      nodes hash depth (fun _ => null) := by
  rw [nodes_null]
  exact ⟨level, levelLt, rfl⟩

/-- Null leaves beside the way, in the place of empty trees, are right as long as there are
at most two leaves.  Above that only a collision, or a pair that compresses to the null leaf,
makes the root the empty one. -/
theorem climb_null_leaves_eq_iff {null : α} {side : Nat → Bool} {depth : Nat}
    (collisionFree : Set.InjOn (Function.uncurry hash)
      (nodes hash depth (fun _ => null) ∪ climbNodes hash null side (fun _ => null) depth))
    (nullFree : ∀ pair ∈ nodes hash depth (fun _ => null), Function.uncurry hash pair ≠ null) :
    climb hash null side (fun _ => null) depth = emptyRoot hash null depth ↔ depth ≤ 1 := by
  constructor
  · intro same
    by_contra deeper
    obtain ⟨level, rfl⟩ := Nat.exists_eq_add_of_le' (Nat.lt_of_not_le deeper)
    have half : emptyRoot hash null (level + 1) ≠ null :=
      nullFree _ (emptyRoots_mem_nodes hash (Nat.lt_add_of_pos_right Nat.two_pos))
    have pairs := collisionFree (.inr (Set.mem_insert _ _))
      (.inl (emptyRoots_mem_nodes hash (Nat.lt_succ_self (level + 1))))
    rw [climb] at same
    cases bit : side (level + 1) with
    | false =>
        rw [bit] at same pairs
        exact half (Prod.mk.inj (pairs same)).2.symm
    | true =>
        rw [bit] at same pairs
        exact half (Prod.mk.inj (pairs same)).1.symm
  · intro shallow
    rcases Nat.le_one_iff_eq_zero_or_eq_one.mp shallow with rfl | rfl
    · rfl
    · rw [climb]
      split_ifs <;> rfl

@[simp]
theorem length_path (depth : Nat) (leaves : Nat → α) (key : Nat) :
    (path hash depth leaves key).length = depth := by
  induction depth generalizing leaves with
  | zero => rfl
  | succ depth ih =>
      rw [path]
      split_ifs <;> simp [ih]

/-- Beside every way through an empty tree there are empty trees. -/
@[simp]
theorem path_null (null : α) (depth key : Nat) :
    path hash depth (fun _ => null) key = (List.range depth).map (emptyRoot hash null) := by
  induction depth with
  | zero => rfl
  | succ depth ih =>
      have rightEq : rightLeaves depth (fun _ => null) = fun _ => null := rfl
      rw [path, rightEq, ih, root_null, ite_self, List.range_succ, List.map_append]
      rfl

theorem path_congr {depth : Nat} {first second : Nat → α} (key : Nat)
    (agree : ∀ slot < 2 ^ depth, first slot = second slot) :
    path hash depth first key = path hash depth second key := by
  induction depth generalizing first second with
  | zero => rfl
  | succ depth ih =>
      have left : ∀ slot < 2 ^ depth, first slot = second slot :=
        fun slot slotLt => agree slot (by omega)
      have right : ∀ slot < 2 ^ depth,
          rightLeaves depth first slot = rightLeaves depth second slot :=
        fun slot slotLt => agree (2 ^ depth + slot) (by omega)
      rw [path, path, ih left, ih right, root_congr hash left, root_congr hash right]

theorem map_climb {β : Type u} {image : α → β} {imageHash : β → β → β}
    (respects : ∀ left right, image (hash left right) = imageHash (image left) (image right))
    (leaf : α) (side : Nat → Bool) (sibling : Nat → α) (depth : Nat) :
    image (climb hash leaf side sibling depth) =
      climb imageHash (image leaf) side (fun level => image (sibling level)) depth := by
  induction depth with
  | zero => rfl
  | succ depth ih =>
      rw [climb, climb]
      split_ifs <;> rw [respects, ih]

variable {hash}

/-- Writing a slot of the left half leaves the right half unchanged. -/
@[simp]
theorem rightLeaves_update_left {depth slot : Nat} (leaves : Nat → α) (value : α)
    (slotLt : slot < 2 ^ depth) :
    rightLeaves depth (Function.update leaves slot value) = rightLeaves depth leaves := by
  funext other
  have other_ne : 2 ^ depth + other ≠ slot := by omega
  simp [rightLeaves, Function.update_of_ne other_ne]

/-- A tree with one leaf, on the first slot, compresses pairs of empty roots, and what
lies on the way from the leaf to the root with an empty root. -/
theorem nodes_update_zero (null leaf : α) (depth : Nat) :
    nodes hash depth (Function.update (fun _ => null) 0 leaf) ⊆
      {pair | ∃ level < depth,
        pair = (emptyRoot hash null level, emptyRoot hash null level) ∨
          pair = (root hash level (Function.update (fun _ => null) 0 leaf),
            emptyRoot hash null level)} := by
  induction depth with
  | zero => exact Set.empty_subset _
  | succ depth ih =>
      have right : rightLeaves depth (Function.update (fun _ => null) 0 leaf) = fun _ => null :=
        rightLeaves_update_left _ leaf (Nat.two_pow_pos depth)
      rw [nodes, right, root_null, nodes_null]
      rintro pair (rfl | mem | ⟨level, levelLt, rfl⟩)
      · exact ⟨depth, Nat.lt_succ_self depth, .inr rfl⟩
      · rcases ih mem with ⟨level, levelLt, isPair⟩
        exact ⟨level, Nat.lt_succ_of_lt levelLt, isPair⟩
      · exact ⟨level, Nat.lt_succ_of_lt levelLt, .inl rfl⟩

@[simp]
theorem rightLeaves_update_right {depth slot : Nat} (leaves : Nat → α) (value : α) :
    rightLeaves depth (Function.update leaves (2 ^ depth + slot) value) =
      Function.update (rightLeaves depth leaves) slot value := by
  funext other
  by_cases equal : other = slot
  · subst other
    simp [rightLeaves]
  · have other_ne : 2 ^ depth + other ≠ 2 ^ depth + slot := by omega
    simp [rightLeaves, Function.update_of_ne other_ne, Function.update_of_ne equal]

private theorem slot_lt_or_eq_add {depth slot : Nat} (slotLt : slot < 2 ^ (depth + 1)) :
    slot < 2 ^ depth ∨ ∃ rest < 2 ^ depth, slot = 2 ^ depth + rest := by
  by_cases left : slot < 2 ^ depth
  · exact Or.inl left
  · refine Or.inr ⟨slot - 2 ^ depth, ?_, by omega⟩
    rw [pow_succ] at slotLt
    omega

theorem key_mod_of_left {depth number : Nat} (bit : number.testBit depth = false) :
    number % 2 ^ (depth + 1) = number % 2 ^ depth := by
  have digit : number / 2 ^ depth % 2 = 0 := by
    rw [Nat.testBit_eq_decide_div_mod_eq, decide_eq_false_iff_not] at bit
    omega
  rw [Nat.mod_pow_succ, digit, Nat.mul_zero, Nat.add_zero]

theorem key_mod_of_right {depth number : Nat} (bit : number.testBit depth = true) :
    number % 2 ^ (depth + 1) = 2 ^ depth + number % 2 ^ depth := by
  have digit : number / 2 ^ depth % 2 = 1 := by
    rwa [Nat.testBit_eq_decide_div_mod_eq, decide_eq_true_iff] at bit
  rw [Nat.mod_pow_succ, digit, Nat.mul_one, Nat.add_comm]

/-- The root binds the leaves. -/
theorem eq_of_root_eq {depth : Nat} {first second : Nat → α}
    (collisionFree : Set.InjOn (Function.uncurry hash)
      (nodes hash depth first ∪ nodes hash depth second))
    (same : root hash depth first = root hash depth second) :
    ∀ slot < 2 ^ depth, first slot = second slot := by
  induction depth generalizing first second with
  | zero =>
      intro slot slotLt
      obtain rfl : slot = 0 := by simpa using slotLt
      exact same
  | succ depth ih =>
      rw [root_succ, root_succ] at same
      have firstMem : (root hash depth first, root hash depth (rightLeaves depth first)) ∈
          nodes hash (depth + 1) first ∪ nodes hash (depth + 1) second :=
        Or.inl (Set.mem_insert _ _)
      have secondMem : (root hash depth second, root hash depth (rightLeaves depth second)) ∈
          nodes hash (depth + 1) first ∪ nodes hash (depth + 1) second :=
        Or.inr (Set.mem_insert _ _)
      have pairEq := Prod.mk.inj (collisionFree firstMem secondMem same)
      have leftFree := collisionFree.mono (Set.union_subset_union
        (fun pair (mem : pair ∈ nodes hash depth first) => Or.inr (Or.inl mem))
        (fun pair (mem : pair ∈ nodes hash depth second) => Or.inr (Or.inl mem)))
      have rightFree := collisionFree.mono (Set.union_subset_union
        (fun pair (mem : pair ∈ nodes hash depth (rightLeaves depth first)) =>
          Or.inr (Or.inr mem))
        (fun pair (mem : pair ∈ nodes hash depth (rightLeaves depth second)) =>
          Or.inr (Or.inr mem)))
      intro slot slotLt
      rcases slot_lt_or_eq_add slotLt with left | ⟨rest, restLt, rfl⟩
      · exact ih leftFree pairEq.1 slot left
      · exact ih rightFree pairEq.2 rest restLt

/-- Climbing the path of a slot from any value gives the root of the tree with the
value written into the slot. -/
theorem climb_path {depth key : Nat} {leaves : Nat → α} {sibling : Nat → α}
    (siblings : ∀ level < depth, (path hash depth leaves key)[level]? = some (sibling level))
    (value : α) :
    climb hash value key.testBit sibling depth =
      root hash depth (Function.update leaves (key % 2 ^ depth) value) := by
  induction depth generalizing leaves with
  | zero => simp [climb, Nat.mod_one]
  | succ depth ih =>
      have top := siblings depth (Nat.lt_succ_self depth)
      have slotLt := Nat.mod_lt key (Nat.two_pow_pos depth)
      cases bit : key.testBit depth with
      | false =>
          have pathEq : path hash (depth + 1) leaves key =
              path hash depth leaves key ++ [root hash depth (rightLeaves depth leaves)] := by
            rw [path, bit]
            rfl
          have below : ∀ level < depth,
              (path hash depth leaves key)[level]? = some (sibling level) := by
            intro level levelLt
            rw [← siblings level (Nat.lt_succ_of_lt levelLt), pathEq,
              List.getElem?_append_left (by simpa using levelLt)]
          have topEq : root hash depth (rightLeaves depth leaves) = sibling depth := by
            simpa [pathEq] using top
          rw [climb, bit, if_neg Bool.false_ne_true, ih below, ← topEq, root_succ,
            key_mod_of_left bit, rightLeaves_update_left leaves value slotLt]
      | true =>
          have pathEq : path hash (depth + 1) leaves key =
              path hash depth (rightLeaves depth leaves) key ++ [root hash depth leaves] := by
            rw [path, bit]
            rfl
          have below : ∀ level < depth,
              (path hash depth (rightLeaves depth leaves) key)[level]? = some (sibling level) := by
            intro level levelLt
            rw [← siblings level (Nat.lt_succ_of_lt levelLt), pathEq,
              List.getElem?_append_left (by simpa using levelLt)]
          have topEq : root hash depth leaves = sibling depth := by
            simpa [pathEq] using top
          have leftEq : root hash depth (Function.update leaves (2 ^ depth + key % 2 ^ depth) value) =
              root hash depth leaves :=
            root_congr hash fun slot slotLt =>
              Function.update_of_ne (show slot ≠ 2 ^ depth + key % 2 ^ depth by omega) value leaves
          rw [climb, bit, if_pos rfl, ih below, ← topEq, root_succ, key_mod_of_right bit, leftEq,
            rightLeaves_update_right]

/-- Position binding: a path that reaches the root of a tree carries the leaf
of the tree at its slot, and the path climbed with another leaf reaches the
root of the tree with that leaf written into the slot. -/
theorem climb_eq_root_binding {depth slot : Nat} {leaves : Nat → α} {leaf : α}
    {sibling : Nat → α} (slotLt : slot < 2 ^ depth)
    (collisionFree : Set.InjOn (Function.uncurry hash)
      (nodes hash depth leaves ∪ climbNodes hash leaf slot.testBit sibling depth))
    (reaches : climb hash leaf slot.testBit sibling depth = root hash depth leaves) :
    leaves slot = leaf ∧
      ∀ value, climb hash value slot.testBit sibling depth =
        root hash depth (Function.update leaves slot value) := by
  induction depth generalizing slot leaves with
  | zero =>
      have slotEq : slot = 0 := by simpa using slotLt
      subst slot
      exact ⟨reaches.symm, fun value => by simp [climb]⟩
  | succ depth ih =>
      have treeMem : (root hash depth leaves, root hash depth (rightLeaves depth leaves)) ∈
          nodes hash (depth + 1) leaves ∪
            climbNodes hash leaf slot.testBit sibling (depth + 1) :=
        Or.inl (Set.mem_insert _ _)
      have pathSub : climbNodes hash leaf slot.testBit sibling depth ⊆
          climbNodes hash leaf slot.testBit sibling (depth + 1) := Set.subset_insert _ _
      rw [root_succ, climb] at reaches
      rcases slot_lt_or_eq_add slotLt with left | ⟨rest, restLt, rfl⟩
      · have bit : slot.testBit depth = false := Nat.testBit_lt_two_pow left
        have pathMem : (climb hash leaf slot.testBit sibling depth, sibling depth) ∈
            nodes hash (depth + 1) leaves ∪
              climbNodes hash leaf slot.testBit sibling (depth + 1) :=
          Or.inr (by simp [climbNodes, bit])
        simp only [bit, Bool.false_eq_true, if_false] at reaches
        have pairEq := Prod.mk.inj (collisionFree pathMem treeMem reaches)
        have subtreeFree : Set.InjOn (Function.uncurry hash)
            (nodes hash depth leaves ∪ climbNodes hash leaf slot.testBit sibling depth) :=
          collisionFree.mono (Set.union_subset_union
            (fun _ mem => Or.inr (Or.inl mem)) pathSub)
        obtain ⟨leafEq, updated⟩ := ih left subtreeFree pairEq.1
        refine ⟨leafEq, fun value => ?_⟩
        simp only [climb, bit, Bool.false_eq_true, if_false]
        rw [root_succ, rightLeaves_update_left leaves value left, updated value, pairEq.2]
      · have bit : (2 ^ depth + rest).testBit depth = true := by
          rw [Nat.testBit_two_pow_add_eq, Nat.testBit_lt_two_pow restLt]
          rfl
        have below : ∀ level < depth,
            (2 ^ depth + rest).testBit level = rest.testBit level :=
          fun level levelLt => Nat.testBit_two_pow_add_gt levelLt rest
        have pathMem :
            (sibling depth, climb hash leaf (2 ^ depth + rest).testBit sibling depth) ∈
              nodes hash (depth + 1) leaves ∪
                climbNodes hash leaf (2 ^ depth + rest).testBit sibling (depth + 1) :=
          Or.inr (by simp [climbNodes, bit])
        simp only [bit, if_true] at reaches
        have pairEq := Prod.mk.inj (collisionFree pathMem treeMem reaches)
        rw [climb_congr hash leaf sibling below] at pairEq
        rw [climbNodes_congr hash leaf sibling below] at pathSub
        have subtreeFree : Set.InjOn (Function.uncurry hash)
            (nodes hash depth (rightLeaves depth leaves) ∪
              climbNodes hash leaf rest.testBit sibling depth) :=
          collisionFree.mono (Set.union_subset_union
            (fun _ mem => Or.inr (Or.inr mem)) pathSub)
        obtain ⟨leafEq, updated⟩ := ih restLt subtreeFree pairEq.2
        refine ⟨leafEq, fun value => ?_⟩
        have leftEq : root hash depth (Function.update leaves (2 ^ depth + rest) value) =
            root hash depth leaves :=
          root_congr hash fun slot slotLt =>
            Function.update_of_ne (show slot ≠ 2 ^ depth + rest by omega) value leaves
        simp only [climb, bit, if_true]
        rw [climb_congr hash value sibling below, root_succ, leftEq,
          rightLeaves_update_right, updated value, pairEq.1]

end Ciphera.Lib.Merkle
