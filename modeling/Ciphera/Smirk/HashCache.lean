import Ciphera.Lib.Run
import Ciphera.Smirk.WellFormed

/-!
# Trees with a hash cache

The tree recomputes the hashes of marked nodes through a cache, which may answer
from what it remembers.  As long as every answer is the true hash the cache does
not show: the nodes are those of the tree without one.

Whatever insertions, removals and batches have led to a tree, its nodes then have
exactly its elements as leaves, none of them is marked, and the root is that of
the sparse Merkle tree of the set of its elements.
-/

namespace Ciphera.Smirk

open Ciphera.Lib Ciphera.Lib.Merkle

/-- `HashCache::hash`: the answer of a cache, and the cache afterwards. -/
abbrev CacheHash (C : Type) := C → Element → Element → Element × C

/-- A known result of the compression. -/
structure KnownHash where
  left : Element
  right : Element
  result : Element
  deriving DecidableEq, Repr

/-- The cache of the persistent tree: the hashes it was loaded with, and those it
has computed. -/
structure SimpleHashCache where
  inner : Std.HashMap (Element × Element) Element := ∅
  initial : List KnownHash := []

section

variable (merge : Element → Element → Element)

/-- Look the hash up among the known ones and the cached ones, or compute and cache it. -/
def SimpleHashCache.hash : CacheHash SimpleHashCache := fun cache left right =>
  match cache.initial.find? fun known => known.left = left && known.right = right with
  | some known => (known.result, cache)
  | none =>
      match cache.inner[(left, right)]? with
      | some result => (result, cache)
      | none =>
          let result := merge left right
          (result, { cache with inner := cache.inner.insert (left, right) result })

/-- From this state on, all answers of the cache are true. -/
def Truthful {C : Type} (hash : CacheHash C) (cache : C) : Prop :=
  ∃ good : C → Prop, good cache ∧ ∀ state, good state → ∀ left right,
    (hash state left right).1 = merge left right ∧ good (hash state left right).2

variable {C : Type} (hash : CacheHash C)

/-- Recompute the hashes of the marked nodes through the cache.  The source
recomputes the two halves at the same time, in either order. -/
def Node.recalculateHashesWith : Node → C → Node × C
  | .parent left right cached hashDirty, cache =>
      if hashDirty then
        let (left, cache) := recalculateHashesWith left cache
        let (right, cache) := recalculateHashesWith right cache
        let (result, cache) := hash cache (left.hash merge) (right.hash merge)
        (.parent left right result false, cache)
      else (.parent left right cached hashDirty, cache)
  | .leaf element, cache => (.leaf element, cache)
  | .empty depth, cache => (.empty depth, cache)

end

/-! ## Building batches -/

namespace Batch

variable {DEPTH : Nat} {V : Type}

/-- The entries of both batches.  The removals of the second are not taken over,
only their slots are. -/
def merge (batch other : Batch DEPTH V) : Except (Stop CollisionError) (Batch DEPTH V) :=
  let colliding := batch.lsbs.filter fun lsb => other.lsbs.contains lsb
  if colliding.isEmpty then
    pure { batch with
      entries := batch.entries ++ other.entries
      lsbs := batch.lsbs ++ other.lsbs }
  else
    match colliding.mapM fun lsb => do
        let inSelf ← batch.findElementWithLsb lsb
        let inOther ← other.findElementWithLsb lsb
        some (Collision.mk inSelf inOther DEPTH .batch) with
    | some collisions => .error (.error ⟨collisions⟩)
    | none => .error (.panic "called `Option::unwrap()` on a `None` value")

/-- The batches that callers can build. -/
inductive Built : Batch DEPTH V → Prop
  | new : Built {}
  | insert {batch result : Batch DEPTH V} {element : Element} {value : V} :
      Built batch → batch.insert element value = .ok result → Built result
  | remove {batch result : Batch DEPTH V} {element : Element} :
      Built batch → batch.remove element = .ok result → Built result
  | merge {batch other result : Batch DEPTH V} :
      Built batch → Built other → batch.merge other = .ok result → Built result

end Batch

/-! ## The tree and its cache -/

/-- A tree together with its hash cache. -/
structure CachedTree (DEPTH : Nat) (V C : Type) where
  tree : Tree DEPTH V
  cache : C

/-- The calls that change a tree. -/
inductive Call (DEPTH : Nat) (V : Type)
  | insert (element : Element) (value : V)
  | remove (element : Element)
  | insertBatch (batch : Batch DEPTH V) (built : batch.Built)

namespace CachedTree

variable {DEPTH : Nat} {V C : Type} (merge : Element → Element → Element) (hash : CacheHash C)
  (tempNoir : Bool)

/-- The tree without elements, with a given cache. -/
def newWithCache (cache : C) : CachedTree DEPTH V C := ⟨.new, cache⟩

/-- Insert a batch, with the hashes on the way taken from the cache. -/
def insertBatch (cached : CachedTree DEPTH V C) (batch : Batch DEPTH V) :
    Except (Stop CollisionError) (CachedTree DEPTH V C) := do
  cached.tree.checkCollisions tempNoir batch
  match cached.tree.insertWithoutHashing merge batch with
  | .ok changed =>
      let (node, cache) := changed.tree.recalculateHashesWith merge hash cached.cache
      pure ⟨{ changed with tree := node }, cache⟩
  | .error (.error _) => .error (.panic "called `Result::unwrap()` on an `Err` value")
  | .error (.panic message) => .error (.panic message)

/-- Insert one element. -/
def insert (cached : CachedTree DEPTH V C) (element : Element) (value : V) :
    Except (Stop CollisionError) (CachedTree DEPTH V C) := do
  let batch ← ({} : Batch DEPTH V).insert element value
  cached.insertBatch merge hash tempNoir batch

/-- Remove one element. -/
def remove (cached : CachedTree DEPTH V C) (element : Element) :
    Except (Stop CollisionError) (CachedTree DEPTH V C) := do
  let batch ← ({} : Batch DEPTH V).remove element
  cached.insertBatch merge hash tempNoir batch

/-- One of the calls that change the tree. -/
def call (cached : CachedTree DEPTH V C) :
    Call DEPTH V → Except (Stop CollisionError) (CachedTree DEPTH V C)
  | .insert element value => cached.insert merge hash tempNoir element value
  | .remove element => cached.remove merge hash tempNoir element
  | .insertBatch batch _ => cached.insertBatch merge hash tempNoir batch

/-- A call that succeeds. -/
def Step (cached : CachedTree DEPTH V C) (call : Call DEPTH V) (next : CachedTree DEPTH V C) :
    Prop :=
  cached.call merge hash tempNoir call = .ok next

end CachedTree

/-! ## Caches do not show -/

section

variable {merge : Element → Element → Element} {C : Type} {hash : CacheHash C} {cache : C}

theorem Truthful.answer (truthful : Truthful merge hash cache) (left right : Element) :
    (hash cache left right).1 = merge left right := by
  rcases truthful with ⟨good, now, always⟩
  exact (always cache now left right).1

theorem Truthful.next (truthful : Truthful merge hash cache) (left right : Element) :
    Truthful merge hash (hash cache left right).2 := by
  rcases truthful with ⟨good, now, always⟩
  exact ⟨good, (always cache now left right).2, always⟩

variable (merge) in
/-- Everything that the cache remembers is true. -/
structure SimpleHashCache.Sound (cache : SimpleHashCache) : Prop where
  initial : ∀ known ∈ cache.initial, known.result = merge known.left known.right
  inner : ∀ (pair : Element × Element) (result : Element), cache.inner[pair]? = some result →
    result = merge pair.1 pair.2

theorem SimpleHashCache.Sound.truthful {cache : SimpleHashCache} (sound : cache.Sound merge) :
    Truthful merge (SimpleHashCache.hash merge) cache := by
  refine ⟨SimpleHashCache.Sound merge, sound, ?_⟩
  intro state sound left right
  unfold SimpleHashCache.hash
  dsimp only
  split
  · rename_i known found
    have isKey := List.find?_some found
    simp only [Bool.and_eq_true, decide_eq_true_eq] at isKey
    refine ⟨?_, sound⟩
    rw [sound.initial known (List.mem_of_find?_eq_some found), isKey.1, isKey.2]
  · split
    · rename_i result found
      exact ⟨sound.inner (left, right) result found, sound⟩
    · refine ⟨rfl, sound.initial, ?_⟩
      intro pair result found
      rw [Std.HashMap.getElem?_insert] at found
      split_ifs at found with same
      · rw [← Option.some.inj found, ← beq_iff_eq.mp same]
      · exact sound.inner pair result found

/-- Recomputing through a truthful cache gives the nodes that recomputing without
one gives. -/
theorem Node.recalculateHashesWith_eq (truthful : Truthful merge hash cache) (node : Node) :
    (node.recalculateHashesWith merge hash cache).1 = node.recalculateHashes merge ∧
      Truthful merge hash (node.recalculateHashesWith merge hash cache).2 := by
  induction node generalizing cache with
  | leaf element => exact ⟨rfl, truthful⟩
  | empty depth => exact ⟨rfl, truthful⟩
  | parent left right cached hashDirty leftIH rightIH =>
      unfold recalculateHashesWith recalculateHashes
      split_ifs
      · rcases leftIH truthful with ⟨leftEq, leftTruthful⟩
        rcases rightIH leftTruthful with ⟨rightEq, rightTruthful⟩
        dsimp only
        rw [leftEq, rightEq]
        exact ⟨by rw [rightTruthful.answer], rightTruthful.next _ _⟩
      · exact ⟨rfl, truthful⟩

theorem CachedTree.insertBatch_eq_ok {DEPTH : Nat} {V : Type} {tempNoir : Bool}
    {cached next : CachedTree DEPTH V C} {batch : Batch DEPTH V}
    (truthful : Truthful merge hash cached.cache)
    (applied : cached.insertBatch merge hash tempNoir batch = .ok next) :
    cached.tree.insertBatch merge tempNoir batch = .ok next.tree ∧
      Truthful merge hash next.cache := by
  simp only [insertBatch, bind_eq_ok_iff] at applied
  rcases applied with ⟨_, checked, applied⟩
  simp only [Tree.insertBatch, checked, ok_bind]
  cases inserted : cached.tree.insertWithoutHashing merge batch with
  | error stop => cases stop <;> simp [inserted] at applied
  | ok changed =>
      simp only [inserted, pure_eq_ok_iff] at applied
      subst applied
      rcases Node.recalculateHashesWith_eq truthful changed.tree with ⟨sameNode, after⟩
      exact ⟨by rw [sameNode]; rfl, after⟩

end

/-! ## Batches have distinct slots -/

namespace Batch

variable {DEPTH : Nat} {V : Type}

/-- Every element of the batch has claimed its slot. -/
structure Claimed (batch : Batch DEPTH V) : Prop where
  nodup : (slots DEPTH (batch.insertElements ++ batch.removeEntries)).Nodup
  claimed : ∀ slot ∈ slots DEPTH (batch.insertElements ++ batch.removeEntries), slot ∈ batch.lsbs

/-- One more element in a vacant slot. -/
theorem Claimed.add {batch larger : Batch DEPTH V} (claims : batch.Claimed) {slot : Nat}
    (vacant : slot ∉ batch.lsbs) (lsbs : larger.lsbs = batch.lsbs ++ [slot])
    (regroup : (slots DEPTH (larger.insertElements ++ larger.removeEntries)).Perm
      (slot :: slots DEPTH (batch.insertElements ++ batch.removeEntries))) :
    larger.Claimed := by
  constructor
  · rw [regroup.nodup_iff, List.nodup_cons]
    exact ⟨fun mem => vacant (claims.claimed _ mem), claims.nodup⟩
  · intro other mem
    rw [lsbs]
    rw [regroup.mem_iff, List.mem_cons] at mem
    rcases mem with rfl | mem
    · simp
    · exact List.mem_append_left _ (claims.claimed other mem)

theorem Claimed.merge {batch other result : Batch DEPTH V} (claims : batch.Claimed)
    (otherClaims : other.Claimed) (merged : batch.merge other = .ok result) : result.Claimed := by
  simp only [Batch.merge] at merged
  split_ifs at merged with apart
  · obtain rfl := pure_eq_ok_iff.mp merged
    simp only [List.isEmpty_iff, List.filter_eq_nil_iff, List.contains_iff_mem] at apart
    have regroup : (slots DEPTH ((batch.entries ++ other.entries).map Prod.fst ++
        batch.removeEntries)).Perm (slots DEPTH (batch.insertElements ++ batch.removeEntries) ++
          slots DEPTH other.insertElements) := by
      simp only [insertElements, slots, List.map_append, List.append_assoc]
      exact List.perm_append_comm.append_left _
    have inOther : ∀ slot ∈ slots DEPTH other.insertElements, slot ∈ other.lsbs := by
      intro slot mem
      apply otherClaims.claimed
      rw [slots, List.map_append]
      exact List.mem_append_left _ mem
    constructor
    · have otherNodup := otherClaims.nodup
      rw [slots, List.map_append] at otherNodup
      refine regroup.nodup_iff.mpr (claims.nodup.append (List.nodup_append.mp otherNodup).1 ?_)
      intro slot first second
      exact apart slot (claims.claimed slot first) (inOther slot second)
    · intro slot mem
      rcases List.mem_append.mp (regroup.mem_iff.mp mem) with first | second
      · exact List.mem_append_left _ (claims.claimed slot first)
      · exact List.mem_append_right _ (inOther slot second)
  · split at merged <;> cases merged

theorem Built.claimed {batch : Batch DEPTH V} (built : batch.Built) : batch.Claimed := by
  induction built with
  | new => exact ⟨List.nodup_nil, fun _ mem => absurd mem List.not_mem_nil⟩
  | @insert batch result element value _ inserted ih =>
      have inserted : batch.insert (element, value).1 (element, value).2 = .ok result := inserted
      rcases insert_eq_ok_iff.mp inserted with ⟨_, vacant, rfl⟩
      apply ih.add vacant rfl
      simp only [push, insertElements, slots, List.map_append, List.map_cons, List.map_nil,
        List.append_assoc, List.singleton_append]
      exact List.perm_middle
  | remove _ removed ih =>
      rcases remove_eq_ok_iff.mp removed with ⟨_, vacant, rfl⟩
      apply ih.add vacant rfl
      simp only [pushRemove, insertElements, slots, ← List.append_assoc, List.map_append,
        List.map_cons, List.map_nil]
      exact List.perm_append_singleton _ _
  | merge _ _ merged ih otherIH => exact ih.merge otherIH merged

/-- Only in trees that are not too deep a batch has elements. -/
theorem Built.narrow {batch : Batch DEPTH V} (built : batch.Built) :
    batch.insertElements ++ batch.removeEntries ≠ [] → DEPTH ≤ 257 := by
  induction built with
  | new => exact fun nonempty => absurd rfl nonempty
  | @insert batch result element value _ inserted _ =>
      have inserted : batch.insert (element, value).1 (element, value).2 = .ok result := inserted
      exact fun _ => (insert_eq_ok_iff.mp inserted).1
  | remove _ removed _ => exact fun _ => (remove_eq_ok_iff.mp removed).1
  | merge _ _ merged ih otherIH =>
      simp only [Batch.merge] at merged
      split_ifs at merged
      · obtain rfl := pure_eq_ok_iff.mp merged
        intro nonempty
        by_contra deep
        have first := not_imp_not.mpr ih deep
        have second := not_imp_not.mpr otherIH deep
        simp_all [insertElements]
      · split at merged <;> cases merged

end Batch

/-! ## The leaves of the nodes -/

namespace Node

/-- The leaves below a node, from left to right. -/
def elements : Node → List Element
  | leaf element => [element]
  | empty _ => []
  | parent left right _ _ => left.elements ++ right.elements

/-- Some hash below the node is marked as stale. -/
def anyDirty : Node → Bool
  | leaf _ => false
  | empty _ => false
  | parent left right _ hashDirty => hashDirty || left.anyDirty || right.anyDirty

theorem Clean.anyDirty_eq {merge : Element → Element → Element} {node : Node}
    (clean : node.Clean merge) : node.anyDirty = false := by
  induction node with
  | leaf element => rfl
  | empty depth => rfl
  | parent left right hash hashDirty leftIH rightIH =>
      rcases clean with ⟨notDirty, _, leftClean, rightClean⟩
      rw [anyDirty, notDirty, leftIH leftClean, rightIH rightClean]
      rfl

end Node

/-- The leaves of a node are the elements of the slots that are not empty. -/
theorem Represents.mem_elements_iff {node : Node} {depth : Nat} {leaves : Nat → Element}
    (represents : Represents node depth leaves) (element : Element) :
    element ∈ node.elements ↔
      element ≠ Element.ZERO ∧ ∃ slot < 2 ^ depth, leaves slot = element := by
  induction represents with
  | @leaf occupant leaves occupied nonzero =>
      constructor
      · intro mem
        obtain rfl := List.mem_singleton.mp mem
        exact ⟨nonzero, 0, by simp, occupied⟩
      · rintro ⟨_, slot, slotLt, atSlot⟩
        obtain rfl : slot = 0 := by simpa using slotLt
        exact List.mem_singleton.mpr (atSlot.symm.trans occupied)
  | @empty depth leaves vacant =>
      constructor
      · intro mem
        exact absurd mem List.not_mem_nil
      · rintro ⟨nonzero, slot, slotLt, atSlot⟩
        exact absurd (atSlot.symm.trans (vacant slot slotLt)) nonzero
  | @parent left right hash hashDirty depth leaves _ _ leftIH rightIH =>
      rw [Node.elements, List.mem_append, leftIH, rightIH]
      constructor
      · rintro (⟨nonzero, slot, slotLt, atSlot⟩ | ⟨nonzero, slot, slotLt, atSlot⟩)
        · exact ⟨nonzero, slot, slotLt.trans (by rw [pow_succ]; omega), atSlot⟩
        · exact ⟨nonzero, 2 ^ depth + slot, by rw [pow_succ]; omega, atSlot⟩
      · rintro ⟨nonzero, slot, slotLt, atSlot⟩
        by_cases inLeft : slot < 2 ^ depth
        · exact .inl ⟨nonzero, slot, inLeft, atSlot⟩
        · refine .inr ⟨nonzero, slot - 2 ^ depth, by rw [pow_succ] at slotLt; omega, ?_⟩
          rw [rightLeaves, show 2 ^ depth + (slot - 2 ^ depth) = slot by omega, atSlot]

/-- No leaf occurs twice when no element is in two slots. -/
theorem Represents.nodup_elements {node : Node} {depth : Nat} {leaves : Nat → Element}
    (represents : Represents node depth leaves)
    (once : ∀ first < 2 ^ depth, ∀ second < 2 ^ depth, leaves first = leaves second →
      leaves first ≠ Element.ZERO → first = second) : node.elements.Nodup := by
  induction represents with
  | leaf _ _ => exact List.nodup_singleton _
  | empty _ => exact List.nodup_nil
  | @parent left right hash hashDirty depth leaves leftRepresents rightRepresents leftIH rightIH =>
      have half : 2 ^ (depth + 1) = 2 ^ depth + 2 ^ depth := by rw [pow_succ]; omega
      apply List.Nodup.append
      · exact leftIH fun first firstLt second secondLt =>
          once first (by omega) second (by omega)
      · apply rightIH
        intro first firstLt second secondLt same nonzero
        have equal := once (2 ^ depth + first) (by omega) (2 ^ depth + second) (by omega) same
          nonzero
        omega
      · intro element inLeft inRight
        rcases (leftRepresents.mem_elements_iff element).mp inLeft with
          ⟨nonzero, first, firstLt, atFirst⟩
        rcases (rightRepresents.mem_elements_iff element).mp inRight with
          ⟨_, second, secondLt, atSecond⟩
        have equal := once first (by omega) (2 ^ depth + second) (by omega)
          (atFirst.trans atSecond.symm) (atFirst ▸ nonzero)
        omega

namespace Tree

variable {DEPTH : Nat} {V : Type} {merge : Element → Element → Element}

/-- An element that is not padding sits in its own slot. -/
theorem mem_of_leaves {tree : Tree DEPTH V} {slot : Nat} (occupied : tree.leaves slot ≠ Element.ZERO) :
    tree.leaves slot ∈ tree.entries ∧ (tree.leaves slot).slot (DEPTH - 1) = slot := by
  unfold leaves at occupied ⊢
  cases found : tree.entries.keys.find? (·.slot (DEPTH - 1) = slot) with
  | none => simp [found] at occupied
  | some element =>
      rw [Option.getD_some]
      exact ⟨Std.TreeMap.mem_keys.mp (List.mem_of_find?_eq_some found), by
        simpa using List.find?_some found⟩

/-- The leaves of the nodes are the elements of the map. -/
theorem WellFormed.elements_perm {tree : Tree DEPTH V} (wellFormed : tree.WellFormed merge) :
    tree.tree.elements.Perm tree.entries.keys := by
  have nodup : tree.tree.elements.Nodup := by
    apply wellFormed.represents.nodup_elements
    intro first _ second _ same nonzero
    rw [← (mem_of_leaves nonzero).2, same, (mem_of_leaves (same ▸ nonzero)).2]
  rw [List.perm_ext_iff_of_nodup nodup Std.TreeMap.nodup_keys]
  intro element
  rw [wellFormed.represents.mem_elements_iff, Std.TreeMap.mem_keys]
  constructor
  · rintro ⟨nonzero, slot, _, rfl⟩
    exact (mem_of_leaves nonzero).1
  · intro mem
    exact ⟨wellFormed.nonzero element mem, element.slot (DEPTH - 1), element.slot_lt _,
      leaves_of_mem wellFormed.distinct mem⟩

end Tree

/-! ## The sparse Merkle tree of a set -/

section

open Classical in
/-- The element of the set in a slot, zero where there is none. -/
noncomputable def sparseLeaves (DEPTH : Nat) (elements : Set Element) (slot : Nat) : Element :=
  if occupied : ∃ element ∈ elements, element.slot (DEPTH - 1) = slot then occupied.choose
  else Element.ZERO

/-- The root of the sparse Merkle tree of a set of elements. -/
noncomputable def sparseRoot (merge : Element → Element → Element) (DEPTH : Nat)
    (elements : Set Element) : Element :=
  root merge (DEPTH - 1) (sparseLeaves DEPTH elements)

end

/-- The Merkle root of the elements of a tree depends on their set alone. -/
theorem Tree.DistinctElements.root_leaves {DEPTH : Nat} {V : Type}
    (merge : Element → Element → Element) {tree : Tree DEPTH V}
    (distinct : tree.DistinctElements) :
    root merge (DEPTH - 1) tree.leaves =
      sparseRoot merge DEPTH {element | element ∈ tree.entries} := by
  apply root_congr
  intro slot _
  unfold sparseLeaves
  split_ifs with occupied
  · rcases occupied.choose_spec with ⟨mem, atSlot⟩
    rw [← leaves_of_mem distinct mem, atSlot]
  · apply leaves_of_vacant
    intro element mem atSlot
    exact occupied ⟨element, mem, atSlot⟩

theorem Tree.WellFormed.rootHash_eq_sparseRoot {DEPTH : Nat} {V : Type}
    {merge : Element → Element → Element} {tree : Tree DEPTH V}
    (wellFormed : tree.WellFormed merge) :
    tree.rootHash merge = sparseRoot merge DEPTH {element | element ∈ tree.entries} :=
  wellFormed.rootHash_eq.trans (wellFormed.distinct.root_leaves merge)

/-- The root predicted for a batch that fits is that of the changed set. -/
theorem Tree.Fits.rootHashWith_eq {DEPTH : Nat} {V : Type} {merge : Element → Element → Element}
    {tree : Tree DEPTH V} {batch : Batch DEPTH V} (fits : tree.Fits batch) (positive : 0 < DEPTH)
    (wellFormed : tree.WellFormed merge) :
    tree.rootHashWith merge batch.insertElements batch.removeEntries =
      .ok (sparseRoot merge DEPTH {element | element ∈ tree.entriesAfter batch}) := by
  apply (wellFormed.rootHashWith_eq_ok_iff positive).mpr
  refine ⟨fits.slots, ?_⟩
  have distinctAfter := fits.distinct_entriesAfter tree.tree wellFormed.distinct
  calc
    root merge (DEPTH - 1) (applyChanges (DEPTH - 1)
        (changesOf batch.insertElements batch.removeEntries) tree.leaves) =
        root merge (DEPTH - 1) (applyChanges (DEPTH - 1) (sortChanges DEPTH
          (changesOf batch.insertElements batch.removeEntries)) tree.leaves) := by
      rw [applyChanges, applyChanges, writeAll_perm _ (sortChanges_perm DEPTH _)
        ((Batch.distinctSlots_changesOf_iff _ _).mpr fits.slots)]
    _ = root merge (DEPTH - 1)
          (⟨tree.tree, tree.entriesAfter batch⟩ : Tree DEPTH V).leaves :=
      root_congr merge fun slot _ =>
        fits.leaves_entriesAfter tree.tree wellFormed.distinct slot
    _ = sparseRoot merge DEPTH {element | element ∈ tree.entriesAfter batch} :=
      distinctAfter.root_leaves merge

/-! ## Every sequence of calls -/

namespace CachedTree

variable {DEPTH : Nat} {V C : Type} {merge : Element → Element → Element} {hash : CacheHash C}
  {tempNoir : Bool}

/-- What every call preserves. -/
structure Sound (merge : Element → Element → Element) (hash : CacheHash C)
    (cached : CachedTree DEPTH V C) : Prop where
  wellFormed : cached.tree.WellFormed merge
  truthful : Truthful merge hash cached.cache

/-- Every call applies a batch. -/
theorem Step.exists_batch {cached next : CachedTree DEPTH V C} {call : Call DEPTH V}
    (taken : Step merge hash tempNoir cached call next) :
    ∃ batch : Batch DEPTH V, batch.Built ∧
      cached.insertBatch merge hash tempNoir batch = .ok next := by
  cases call with
  | insert element value =>
      rcases bind_eq_ok_iff.mp taken with ⟨batch, inserted, applied⟩
      exact ⟨batch, .insert .new inserted, applied⟩
  | remove element =>
      rcases bind_eq_ok_iff.mp taken with ⟨batch, removed, applied⟩
      exact ⟨batch, .remove .new removed, applied⟩
  | insertBatch batch built => exact ⟨batch, built, taken⟩

theorem Sound.step {cached next : CachedTree DEPTH V C} {call : Call DEPTH V} (positive : 0 < DEPTH)
    (sound : cached.Sound merge hash) (taken : Step merge hash tempNoir cached call next) :
    next.Sound merge hash := by
  rcases taken.exists_batch with ⟨batch, built, applied⟩
  rcases insertBatch_eq_ok sound.truthful applied with ⟨inserted, truthful⟩
  exact ⟨sound.wellFormed.insertBatch positive built.claimed.nodup inserted, truthful⟩

theorem sound_of_run {cache : C} {calls : List (Call DEPTH V)} {cached : CachedTree DEPTH V C}
    (positive : 0 < DEPTH) (truthful : Truthful merge hash cache)
    (run : Run (Step merge hash tempNoir) (newWithCache cache) calls cached) :
    cached.Sound merge hash := by
  induction run with
  | nil => exact ⟨Tree.new_wellFormed positive, truthful⟩
  | snoc _ taken ih => exact ih.step positive taken

/-- The root is a function of the set of elements, whatever calls have led to it
and whatever true cache was used. -/
theorem rootHash_of_run {cache : C} {calls : List (Call DEPTH V)} {cached : CachedTree DEPTH V C}
    (deep : 2 ≤ DEPTH) (truthful : Truthful merge hash cache)
    (run : Run (Step merge hash tempNoir) (newWithCache cache) calls cached) :
    cached.tree.tree.elements.Perm cached.tree.entries.keys ∧
      cached.tree.tree.anyDirty = false ∧
      cached.tree.rootHash merge =
        sparseRoot merge DEPTH {element | element ∈ cached.tree.entries} ∧
      ∀ (V' C' : Type) (hash' : CacheHash C') (cache' : C') (calls' : List (Call DEPTH V'))
        (cached' : CachedTree DEPTH V' C'), Truthful merge hash' cache' →
        Run (Step merge hash' tempNoir) (newWithCache cache') calls' cached' →
        (∀ element, element ∈ cached.tree.entries ↔ element ∈ cached'.tree.entries) →
        cached.tree.rootHash merge = cached'.tree.rootHash merge := by
  have positive : 0 < DEPTH := Nat.lt_of_lt_of_le Nat.two_pos deep
  have wellFormed := (sound_of_run positive truthful run).wellFormed
  refine ⟨wellFormed.elements_perm, wellFormed.clean.anyDirty_eq,
    wellFormed.rootHash_eq_sparseRoot, ?_⟩
  intro V' C' hash' cache' calls' cached' truthful' run' sameElements
  have wellFormed' := (sound_of_run positive truthful' run').wellFormed
  rw [wellFormed.rootHash_eq_sparseRoot, wellFormed'.rootHash_eq_sparseRoot]
  congr 1
  exact Set.ext sameElements

/-- The cache that remembers nothing. -/
def noopHash (merge : Element → Element → Element) : CacheHash Unit := fun cache left right =>
  (merge left right, cache)

theorem noopHash_truthful : Truthful merge (noopHash merge) () :=
  ⟨fun _ => True, trivial, fun _ _ _ _ => ⟨rfl, trivial⟩⟩

/-- What the plain tree accepts, the tree with a truthful cache accepts. -/
theorem exists_insertBatch {cached : CachedTree DEPTH V C} {batch : Batch DEPTH V}
    {after : Tree DEPTH V} (truthful : Truthful merge hash cached.cache)
    (applied : cached.tree.insertBatch merge tempNoir batch = .ok after) :
    ∃ next, cached.insertBatch merge hash tempNoir batch = .ok next ∧ next.tree = after := by
  simp only [Tree.insertBatch, bind_eq_ok_iff] at applied
  rcases applied with ⟨_, checked, applied⟩
  simp only [insertBatch, checked, ok_bind]
  cases inserted : cached.tree.insertWithoutHashing merge batch with
  | error stop => cases stop <;> simp [inserted] at applied
  | ok changed =>
      simp only [inserted, pure_eq_ok_iff] at applied
      subst applied
      refine ⟨_, rfl, ?_⟩
      rw [(Node.recalculateHashesWith_eq truthful changed.tree).1]

/-- An element can be inserted into the empty tree. -/
theorem exists_run_insert {element : Element} (value : V) (cache : C) (positive : 0 < DEPTH)
    (narrow : DEPTH ≤ 257) (truthful : Truthful merge hash cache) (nonzero : element ≠ Element.ZERO) :
    ∃ cached, Run (Step merge hash tempNoir) (newWithCache cache)
        [(.insert element value : Call DEPTH V)] cached ∧
      ∀ other, other ∈ cached.tree.entries ↔ other = element := by
  have built : ({} : Batch DEPTH V).insert (element, value).1 (element, value).2 =
      .ok (({} : Batch DEPTH V).push (element, value)) :=
    Batch.insert_eq_ok_iff.mpr ⟨narrow, List.not_mem_nil, rfl⟩
  have fits : (Tree.new : Tree DEPTH V).Fits (({} : Batch DEPTH V).push (element, value)) := by
    constructor
    · simp [Batch.push, Batch.insertElements, Batch.slots]
    · simpa [Batch.push, Batch.insertElements] using nonzero
    · rintro ⟨_, _, other, mem, _⟩
      exact absurd mem Std.TreeMap.not_mem_emptyc
    · intro other mem
      exact absurd mem List.not_mem_nil
  rcases fits.insertBatch_eq_ok tempNoir positive (Tree.new_wellFormed positive) rfl with
    ⟨after, applied, _, entries, _⟩
  have start : Truthful merge hash (newWithCache cache : CachedTree DEPTH V C).cache := truthful
  rcases exists_insertBatch start applied with ⟨next, inserted, rfl⟩
  refine ⟨next, .snoc .nil ?_, ?_⟩
  · exact bind_eq_ok_iff.mpr ⟨_, built, inserted⟩
  · intro other
    rw [entries, Tree.mem_entriesAfter]
    simp [Batch.push, Batch.insertElements, Tree.new]

/-- The root of the tree of one element. -/
theorem oneElement_rootHash :
    ∃ cached, Run (Step (· + ·) (noopHash (· + ·)) false) (newWithCache ())
        [(.insert 1 () : Call 161 Unit)] cached ∧
      cached.tree.rootHash (· + ·) = sparseRoot (· + ·) 161 {1} := by
  have positive : 0 < 161 := by decide
  rcases exists_run_insert () () positive (by decide) noopHash_truthful (by decide : (1 : Element) ≠ 0) with
    ⟨cached, run, elements⟩
  refine ⟨cached, run, ?_⟩
  rw [(rootHash_of_run (by decide) noopHash_truthful run).2.2.1]
  congr 1
  exact Set.ext elements

end CachedTree

end Ciphera.Smirk
