import Ciphera.Hash
import Ciphera.Zk.Utxo

/-!
# Hashes of empty trees

The hash of an empty tree has a recursion that two functions are documented to follow.
The one of the tree reads it from a table, which is filled once, and falls back on the
recursion behind the end of the table.  The other climbs past null hashes, where the
recursion has empty trees: the two part from the third level on.
-/

namespace Ciphera.Smirk.EmptyTree

open Ciphera.Lib Ciphera.Lib.Merkle

/-- The number of hashes that are computed ahead. -/
def COMPUTE_DEPTH : Nat := 257

section

variable (merge : Element → Element → Element)

/-- One more level of the table. -/
def pushHash (cache : List Element) : Except String (List Element) :=
  match cache.getLast? with
  | some hash => .ok (cache ++ [merge hash hash])
  | none => .error "called `Option::unwrap()` on a `None` value"

/-- The hashes of empty trees, from the leaf upwards. -/
def getCache : Except String (List Element) :=
  (List.range' 1 (COMPUTE_DEPTH - 1)).foldlM (fun cache _ => pushHash merge cache) [Element.ZERO]

/-- Behind the table the hashes of all levels down to its end are computed. -/
def fallback : Nat → Except String Element
  | 0 => .error "attempt to subtract with overflow"
  | level + 1 =>
      if level + 1 ≤ COMPUTE_DEPTH then do
        let cache ← getCache merge
        match cache[level]? with
        | some hash => pure hash
        | none => .error "index out of bounds"
      else do
        let hashed ← fallback level
        pure (merge hashed hashed)

/-- The hash of the empty tree of a depth, from the table where it reaches. -/
def emptyTreeHash (depth : Nat) : Except String Element := do
  check (depth ≠ 0) "the smallest possible tree has depth 1"
  let cache ← getCache merge
  match cache[depth - 1]? with
  | some hash => pure hash
  | none => fallback merge depth

/-- Both functions follow the recursion, the second with its table and without it. -/
structure Agree (depth : Nat) : Prop where
  root : Hash.emptyTreeRoot merge depth = .ok (Smirk.emptyTreeHash merge depth)
  hash : emptyTreeHash merge depth = .ok (Smirk.emptyTreeHash merge depth)
  fallback : fallback merge depth = .ok (Smirk.emptyTreeHash merge depth)

/-- The pairs compressed by the recursion and by the climb. -/
def compressed (depth : Nat) : Set (Element × Element) :=
  nodes merge (depth - 1) (fun _ => Element.ZERO) ∪
    climbNodes merge Element.ZERO (fun _ => false) (fun _ => Element.ZERO) (depth - 1)

end

variable {merge : Element → Element → Element} {depth : Nat}

/-! ## The table -/

theorem pushHash_table (level : Nat) :
    pushHash merge ((List.range (level + 1)).map (emptyRoot merge Element.ZERO)) =
      .ok ((List.range (level + 2)).map (emptyRoot merge Element.ZERO)) := by
  rw [pushHash, List.range_succ (n := level + 1), List.range_succ (n := level)]
  simp [emptyRoot]

/-- The loop fills the table level by level, whatever it counts. -/
theorem foldlM_pushHash (rounds : List Nat) (level : Nat) :
    rounds.foldlM (fun cache _ => pushHash merge cache)
        ((List.range (level + 1)).map (emptyRoot merge Element.ZERO)) =
      .ok ((List.range (level + rounds.length + 1)).map (emptyRoot merge Element.ZERO)) := by
  induction rounds generalizing level with
  | nil => rfl
  | cons round rounds ih =>
      rw [List.foldlM_cons, pushHash_table, ok_bind, ih (level + 1), List.length_cons,
        Nat.add_assoc level 1, Nat.add_comm 1]

@[simp]
theorem getCache_eq :
    getCache merge = .ok ((List.range COMPUTE_DEPTH).map (emptyRoot merge Element.ZERO)) := by
  apply (foldlM_pushHash (List.range' 1 (COMPUTE_DEPTH - 1)) 0).trans
  rw [List.length_range']
  rfl

theorem table_getElem? {level : Nat} (inside : level < COMPUTE_DEPTH) :
    ((List.range COMPUTE_DEPTH).map (emptyRoot merge Element.ZERO))[level]? =
      some (Smirk.emptyTreeHash merge (level + 1)) := by
  rw [List.getElem?_map, List.getElem?_range inside, emptyTreeHash_succ]
  rfl

/-- The fallback follows the recursion down to the table, which holds its values. -/
theorem fallback_eq (positive : 1 ≤ depth) :
    fallback merge depth = .ok (Smirk.emptyTreeHash merge depth) := by
  obtain ⟨level, rfl⟩ := Nat.exists_eq_add_of_le' positive
  induction level with
  | zero =>
      rw [fallback, if_pos (by decide), getCache_eq, ok_bind, table_getElem? (by decide)]
      rfl
  | succ level ih =>
      rw [fallback]
      split_ifs with inside
      · rw [getCache_eq, ok_bind, table_getElem? inside]
        rfl
      · rw [ih (Nat.le_add_left _ _), ok_bind]
        rfl

theorem emptyTreeHash_eq (positive : 1 ≤ depth) :
    emptyTreeHash merge depth = .ok (Smirk.emptyTreeHash merge depth) := by
  rw [emptyTreeHash, check_of _ (Nat.ne_of_gt positive), ok_bind, getCache_eq, ok_bind]
  by_cases inside : depth - 1 < COMPUTE_DEPTH
  · rw [table_getElem? inside, Nat.sub_add_cancel positive]
    rfl
  · rw [List.getElem?_eq_none (by simpa using inside)]
    exact fallback_eq positive

/-! ## The climb -/

/-- Where the compression of the pairs that come up has no collision and is never null, the
functions agree on trees of one and of two levels only. -/
theorem agree_iff (positive : 1 ≤ depth)
    (collisionFree : Set.InjOn (Function.uncurry merge) (compressed merge depth))
    (nullFree : ∀ pair ∈ compressed merge depth, Function.uncurry merge pair ≠ Element.ZERO) :
    Agree merge depth ↔ depth ≤ 2 := by
  have climbed : Hash.emptyTreeRoot merge depth = _ := Hash.emptyTreeRoot_eq_climb positive
  have recursion : Smirk.emptyTreeHash merge depth = emptyRoot merge Element.ZERO (depth - 1) := by
    rw [← emptyTreeHash_succ, Nat.sub_add_cancel positive]
  have shallow := (climb_null_leaves_eq_iff merge collisionFree
    fun pair mem => nullFree pair (.inl mem)).trans Nat.sub_le_iff_le_add
  apply Iff.trans _ shallow
  constructor
  · intro agree
    have same := agree.root
    rw [climbed, recursion] at same
    exact Except.ok.inj same
  · intro same
    exact ⟨by rw [climbed, recursion, same], emptyTreeHash_eq positive, fallback_eq positive⟩

/-- Two null hashes compress to the value that is on record for them; the rest is made up. -/
def recordedPoseidon (words : List Base) : Base :=
  if words = [0, 0] then 0x0b63a53787021a4a962a452c2921b3663aff1ffd8d5510540f8e659e782956f1
  else words.foldl (fun sum word => 2 * sum + word) 1

/-- The hash of two elements, for the hashes that are recorded. -/
def recordedMerge (left right : Element) : Element := Zk.hashMerge recordedPoseidon [left, right]

/-- The pairs that come up below the root of three levels. -/
theorem compressed_three_subset :
    compressed recordedMerge 3 ⊆
      {(0, 0), (recordedMerge 0 0, recordedMerge 0 0), (recordedMerge 0 0, 0)} := by
  rw [compressed, nodes_null]
  rintro pair (⟨level, levelLt, rfl⟩ | rfl | rfl | mem)
  · rcases Nat.le_one_iff_eq_zero_or_eq_one.mp (Nat.le_of_lt_succ levelLt) with rfl | rfl
    · exact .inl rfl
    · exact .inr (.inl rfl)
  · exact .inr (.inr rfl)
  · exact .inl rfl
  · exact absurd mem (Set.notMem_empty pair)

theorem agree_three_iff : Agree recordedMerge 3 ↔ 3 ≤ 2 := by
  apply agree_iff (by decide)
  · apply Set.InjOn.mono compressed_three_subset
    rintro first (rfl | rfl | rfl) second (rfl | rfl | rfl) same
    all_goals first
      | rfl
      | exact absurd same (by decide +kernel)
  · intro pair mem
    rcases compressed_three_subset mem with rfl | rfl | rfl <;> decide +kernel

theorem not_agree_three : ¬Agree recordedMerge 3 := by
  intro agree
  exact absurd agree.root (by decide +kernel)

end Ciphera.Smirk.EmptyTree
