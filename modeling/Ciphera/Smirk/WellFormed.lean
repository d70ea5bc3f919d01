import Ciphera.Smirk.Tree
import Ciphera.Lib.Map

/-!
# Well-formed trees

In a well-formed tree the nodes represent the elements of the map, each at its
own slot, and all cached hashes are up to date.  The empty tree is well formed,
and a batch that fits the tree leads to a well-formed tree again, whose root is
the one that was predicted.
-/

namespace Ciphera.Smirk

open Ciphera.Lib Ciphera.Lib.Merkle

/-! ## Batches -/

namespace Batch

variable {DEPTH : Nat} {V : Type}

/-- The slots of elements in a tree of depth `DEPTH`. -/
def slots (DEPTH : Nat) (elements : List Element) : List Nat :=
  elements.map (·.slot (DEPTH - 1))

@[simp]
theorem claimSlot_eq_ok_iff {batch claimed : Batch DEPTH V} {element : Element} :
    batch.claimSlot element = .ok claimed ↔
      DEPTH ≤ 257 ∧ element.slot (DEPTH - 1) ∉ batch.lsbs ∧
        { batch with lsbs := batch.lsbs ++ [element.slot (DEPTH - 1)] } = claimed := by
  unfold claimSlot
  by_cases deep : 256 < DEPTH - 1
  · have beyond : ¬DEPTH ≤ 257 := by omega
    simp [deep, beyond]
  · have narrow : DEPTH ≤ 257 := by omega
    by_cases taken : element.slot (DEPTH - 1) ∈ batch.lsbs
    · simp only [deep, narrow, taken, if_true, if_false, not_true_eq_false, false_and, and_false,
        iff_false]
      cases batch.findElementWithLsb (element.slot (DEPTH - 1)) <;> simp
    · simp [deep, narrow, taken]

/-- A batch with an insertion in a vacant slot added. -/
def push (batch : Batch DEPTH V) (entry : Element × V) : Batch DEPTH V :=
  ⟨batch.entries ++ [entry], batch.removeEntries, batch.lsbs ++ [entry.1.slot (DEPTH - 1)]⟩

/-- A batch with a removal from a vacant slot added. -/
def pushRemove (batch : Batch DEPTH V) (element : Element) : Batch DEPTH V :=
  ⟨batch.entries, batch.removeEntries ++ [element], batch.lsbs ++ [element.slot (DEPTH - 1)]⟩

@[simp]
theorem insert_eq_ok_iff {batch result : Batch DEPTH V} {entry : Element × V} :
    batch.insert entry.1 entry.2 = .ok result ↔
      DEPTH ≤ 257 ∧ entry.1.slot (DEPTH - 1) ∉ batch.lsbs ∧ batch.push entry = result := by
  simp [insert, claimSlot_eq_ok_iff, push, and_assoc]

@[simp]
theorem remove_eq_ok_iff {batch result : Batch DEPTH V} {element : Element} :
    batch.remove element = .ok result ↔
      DEPTH ≤ 257 ∧ element.slot (DEPTH - 1) ∉ batch.lsbs ∧ batch.pushRemove element = result := by
  simp [remove, claimSlot_eq_ok_iff, pushRemove, and_assoc]

/-- Adding items one by one succeeds exactly when the slots stay distinct, in a tree that is
not too deep to have any. -/
theorem foldlM_eq_ok_iff {ι : Type} (element : ι → Element)
    {step : Batch DEPTH V → ι → Except (Stop CollisionError) (Batch DEPTH V)}
    {add : Batch DEPTH V → ι → Batch DEPTH V}
    (step_eq_ok_iff : ∀ batch item result, step batch item = .ok result ↔
      DEPTH ≤ 257 ∧ (element item).slot (DEPTH - 1) ∉ batch.lsbs ∧ add batch item = result)
    (add_lsbs : ∀ batch item,
      (add batch item).lsbs = batch.lsbs ++ [(element item).slot (DEPTH - 1)])
    {batch filled : Batch DEPTH V} {items : List ι} (nodup : batch.lsbs.Nodup) :
    items.foldlM step batch = .ok filled ↔
      (items ≠ [] → DEPTH ≤ 257) ∧ (batch.lsbs ++ slots DEPTH (items.map element)).Nodup ∧
        items.foldl add batch = filled := by
  induction items generalizing batch with
  | nil => simp [slots, nodup]
  | cons item items ih =>
      have regroup : (add batch item).lsbs ++ slots DEPTH (items.map element) =
          batch.lsbs ++ slots DEPTH ((item :: items).map element) := by
        simp [add_lsbs, slots]
      simp only [List.foldlM_cons, bind_eq_ok_iff, step_eq_ok_iff, List.foldl_cons]
      constructor
      · rintro ⟨_, ⟨narrow, vacant, rfl⟩, finished⟩
        have added : (add batch item).lsbs.Nodup := by
          rw [add_lsbs]
          exact nodup.append (List.nodup_singleton _) (by simpa using vacant)
        rw [ih added, regroup] at finished
        exact ⟨fun _ => narrow, finished.2⟩
      · rintro ⟨narrow, distinct, filledEq⟩
        have narrow := narrow (List.cons_ne_nil item items)
        have added : (add batch item).lsbs.Nodup := by
          rw [← regroup] at distinct
          exact (List.nodup_append.mp distinct).1
        have vacant : (element item).slot (DEPTH - 1) ∉ batch.lsbs := by
          rw [add_lsbs, List.nodup_append] at added
          exact fun mem => added.2.2 _ mem _ (List.mem_singleton_self _) rfl
        refine ⟨_, ⟨narrow, vacant, rfl⟩, ?_⟩
        rw [ih added, regroup]
        exact ⟨fun _ => narrow, distinct, filledEq⟩

theorem foldl_push (batch : Batch DEPTH V) (entries : List (Element × V)) :
    entries.foldl push batch =
      ⟨batch.entries ++ entries, batch.removeEntries,
        batch.lsbs ++ slots DEPTH (entries.map Prod.fst)⟩ := by
  induction entries generalizing batch with
  | nil => simp [slots]
  | cons entry entries ih => simp [ih, push, slots]

theorem foldl_pushRemove (batch : Batch DEPTH V) (removeEntries : List Element) :
    removeEntries.foldl pushRemove batch =
      ⟨batch.entries, batch.removeEntries ++ removeEntries,
        batch.lsbs ++ slots DEPTH removeEntries⟩ := by
  induction removeEntries generalizing batch with
  | nil => simp [slots]
  | cons element removeEntries ih => simp [ih, pushRemove, slots]

/-- A batch can be built exactly from entries with pairwise distinct slots, in a tree that is
not too deep to have any. -/
@[simp]
theorem fromEntries_eq_ok_iff {entries : List (Element × V)} {removeEntries : List Element}
    {batch : Batch DEPTH V} :
    fromEntries entries removeEntries = .ok batch ↔
      (entries.map Prod.fst ++ removeEntries ≠ [] → DEPTH ≤ 257) ∧
        (slots DEPTH (entries.map Prod.fst ++ removeEntries)).Nodup ∧
        (⟨entries, removeEntries, slots DEPTH (entries.map Prod.fst ++ removeEntries)⟩ :
          Batch DEPTH V) = batch := by
  have inserts : ∀ filled : Batch DEPTH V,
      entries.foldlM (fun (batch : Batch DEPTH V) entry => batch.insert entry.1 entry.2) {} =
          .ok filled ↔
        (entries ≠ [] → DEPTH ≤ 257) ∧ (slots DEPTH (entries.map Prod.fst)).Nodup ∧
          entries.foldl push {} = filled :=
    fun filled => foldlM_eq_ok_iff Prod.fst (fun _ _ _ => insert_eq_ok_iff) (fun _ _ => rfl)
      List.nodup_nil
  have removes : ∀ inserted filled : Batch DEPTH V, inserted.lsbs.Nodup →
      (removeEntries.foldlM (fun (batch : Batch DEPTH V) element => batch.remove element) inserted =
          .ok filled ↔
        (removeEntries ≠ [] → DEPTH ≤ 257) ∧
          (inserted.lsbs ++ slots DEPTH (removeEntries.map id)).Nodup ∧
          removeEntries.foldl pushRemove inserted = filled) :=
    fun inserted filled => foldlM_eq_ok_iff id (fun _ _ _ => remove_eq_ok_iff) fun _ _ => rfl
  simp only [fromEntries, bind_eq_ok_iff, inserts, foldl_push]
  constructor
  · rintro ⟨_, ⟨narrow, nodup, rfl⟩, finished⟩
    rw [removes _ _ (by simpa using nodup), foldl_pushRemove] at finished
    refine ⟨?_, by simpa [slots] using finished.2⟩
    intro nonempty
    by_cases entriesEmpty : entries = []
    · exact finished.1 fun removesEmpty => nonempty (by simp [entriesEmpty, removesEmpty])
    · exact narrow entriesEmpty
  · rintro ⟨narrow, nodup, rfl⟩
    have inserted : (slots DEPTH (entries.map Prod.fst)).Nodup := by
      rw [slots, List.map_append] at nodup
      exact (List.nodup_append.mp nodup).1
    refine ⟨_, ⟨fun entriesNe => narrow (by simp [entriesNe]), inserted, rfl⟩, ?_⟩
    rw [removes _ _ (by simpa using inserted), foldl_pushRemove]
    exact ⟨fun removesNe => narrow (by simp [removesNe]), by simpa [slots] using nodup⟩

theorem fromEntries_eq_ok_iff_of_narrow (narrow : DEPTH ≤ 257) {entries : List (Element × V)}
    {removeEntries : List Element} {batch : Batch DEPTH V} :
    fromEntries entries removeEntries = .ok batch ↔
      (slots DEPTH (entries.map Prod.fst ++ removeEntries)).Nodup ∧
        (⟨entries, removeEntries, slots DEPTH (entries.map Prod.fst ++ removeEntries)⟩ :
          Batch DEPTH V) = batch := by
  rw [fromEntries_eq_ok_iff]
  exact and_iff_right fun _ => narrow

@[simp]
theorem mem_sortChanges_changesOf {insertElements removeElements : List Element}
    {change : Change × Element} :
    change ∈ sortChanges DEPTH (changesOf insertElements removeElements) ↔
      (change.1 = .insert ∧ change.2 ∈ insertElements) ∨
        (change.1 = .remove ∧ change.2 ∈ removeElements) := by
  obtain ⟨kind, element⟩ := change
  rw [(sortChanges_perm DEPTH _).mem_iff]
  cases kind <;> simp [changesOf]

/-- The slots of sorted changes are those of their elements. -/
@[simp]
theorem distinctSlots_changesOf_iff (insertElements removeElements : List Element) :
    DistinctSlots changeKey (DEPTH - 1)
        (sortChanges DEPTH (changesOf insertElements removeElements)) ↔
      (slots DEPTH (insertElements ++ removeElements)).Nodup := by
  have slotsEq : (changesOf insertElements removeElements).map (fun change =>
      change.2.slot (DEPTH - 1)) = slots DEPTH (insertElements ++ removeElements) := by
    simp [changesOf, slots, Function.comp_def]
  rw [DistinctSlots, (sortChanges_perm DEPTH _).pairwise_iff fun ne => ne.symm, ← slotsEq,
    List.Nodup, List.pairwise_map]
  rfl

end Batch

/-! ## Trees -/

namespace Tree

variable {DEPTH : Nat} {V : Type} {merge : Element → Element → Element}

/-- The element in each slot, zero where there is none. -/
def leaves (tree : Tree DEPTH V) (slot : Nat) : Element :=
  (tree.entries.keys.find? (·.slot (DEPTH - 1) = slot)).getD Element.ZERO

/-- No two elements share a slot. -/
def DistinctElements (tree : Tree DEPTH V) : Prop :=
  ∀ first ∈ tree.entries, ∀ second ∈ tree.entries,
    first.slot (DEPTH - 1) = second.slot (DEPTH - 1) → first = second

variable (merge) in

/-- The nodes, the hashes and the entries of a tree agree. -/
structure WellFormed (tree : Tree DEPTH V) : Prop where
  represents : Represents tree.tree (DEPTH - 1) tree.leaves
  clean : tree.tree.Clean merge
  nonzero : ∀ element ∈ tree.entries, element ≠ Element.ZERO
  distinct : tree.DistinctElements

@[simp]
theorem containsElement_iff {tree : Tree DEPTH V} {element : Element} :
    tree.containsElement element = true ↔ element ∈ tree.entries :=
  Std.TreeMap.contains_iff_mem

theorem leaves_of_mem {tree : Tree DEPTH V} (distinct : tree.DistinctElements)
    {element : Element} (mem : element ∈ tree.entries) :
    tree.leaves (element.slot (DEPTH - 1)) = element := by
  have some : (tree.entries.keys.find? (·.slot (DEPTH - 1) = element.slot (DEPTH - 1))).isSome := by
    rw [List.find?_isSome]
    exact ⟨element, Std.TreeMap.mem_keys.mpr mem, by simp⟩
  obtain ⟨found, foundEq⟩ := Option.isSome_iff_exists.mp some
  have foundMem := Std.TreeMap.mem_keys.mp (List.mem_of_find?_eq_some foundEq)
  have sameSlot : found.slot (DEPTH - 1) = element.slot (DEPTH - 1) := by
    simpa using List.find?_some foundEq
  rw [leaves, foundEq, Option.getD_some]
  exact distinct found foundMem element mem sameSlot

@[simp]
theorem leaves_of_vacant {tree : Tree DEPTH V} {slot : Nat}
    (vacant : ∀ element ∈ tree.entries, element.slot (DEPTH - 1) ≠ slot) :
    tree.leaves slot = Element.ZERO := by
  have none : tree.entries.keys.find? (·.slot (DEPTH - 1) = slot) = none := by
    simpa using vacant
  rw [leaves, none, Option.getD_none]

theorem new_wellFormed (positive : 0 < DEPTH) : (new : Tree DEPTH V).WellFormed merge where
  represents := by
    obtain ⟨depth, rfl⟩ : ∃ depth, DEPTH = depth + 1 := ⟨DEPTH - 1, by omega⟩
    exact .empty fun slot _ => leaves_of_vacant fun element mem =>
      absurd mem Std.TreeMap.not_mem_emptyc
  clean := trivial
  nonzero _ mem := absurd mem Std.TreeMap.not_mem_emptyc
  distinct _ mem := absurd mem Std.TreeMap.not_mem_emptyc

/-- The root of a well-formed tree is the Merkle root of its elements. -/
theorem WellFormed.rootHash_eq {tree : Tree DEPTH V} (wellFormed : tree.WellFormed merge) :
    tree.rootHash merge = root merge (DEPTH - 1) tree.leaves :=
  wellFormed.represents.hash_eq wellFormed.clean

/-- A root is predicted exactly when all slots are distinct, and it is the
Merkle root of the changed elements. -/
theorem WellFormed.rootHashWith_eq_ok_iff {tree : Tree DEPTH V} (positive : 0 < DEPTH)
    (wellFormed : tree.WellFormed merge) {insertElements removeElements : List Element}
    {result : Element} :
    tree.rootHashWith merge insertElements removeElements = .ok result ↔
      (Batch.slots DEPTH (insertElements ++ removeElements)).Nodup ∧
        root merge (DEPTH - 1)
          (applyChanges (DEPTH - 1) (changesOf insertElements removeElements) tree.leaves) =
            result := by
  have levels : 0 + (DEPTH - 1) + 1 = DEPTH := by omega
  rw [rootHashWith, Node.hashWith, wellFormed.represents.hashWithInner_eq_ok_iff levels
    (sortedSlots_sortChanges DEPTH _), Batch.distinctSlots_changesOf_iff]
  apply and_congr_right
  intro nodup
  rw [applyChanges, writeAll_perm _ (sortChanges_perm DEPTH _)
    (Batch.distinctSlots_changesOf_iff _ _ |>.mpr nodup)]

/-! ## Batches that fit -/

/-- The map after a batch. -/
def entriesAfter (tree : Tree DEPTH V) (batch : Batch DEPTH V) : Std.TreeMap Element V :=
  batch.removeEntries.foldl (fun entries element => entries.erase element)
    (batch.entries.foldl (fun entries entry => entries.insert entry.1 entry.2) tree.entries)

@[simp]
theorem mem_entriesAfter {tree : Tree DEPTH V} {batch : Batch DEPTH V} {element : Element} :
    element ∈ tree.entriesAfter batch ↔
      element ∉ batch.removeEntries ∧ (element ∈ batch.insertElements ∨ element ∈ tree.entries) := by
  rw [entriesAfter, mem_foldl_erase, mem_foldl_insert]
  rfl

/-- Some insertion wants the slot of an element in the tree. -/
def Collides (tree : Tree DEPTH V) (insertElements : List Element) : Prop :=
  ∃ element ∈ insertElements, ∃ other ∈ tree.entries,
    other.slot (DEPTH - 1) = element.slot (DEPTH - 1)

@[simp]
theorem collisions_eq_nil_iff {tree : Tree DEPTH V} {batch : Batch DEPTH V} :
    tree.collisions batch = [] ↔ ¬tree.Collides batch.insertElements := by
  rw [collisions, List.filterMap_eq_nil_iff]
  constructor
  · rintro none ⟨element, elementMem, other, otherMem, sameSlot⟩
    have wanted : batch.insertElements.any (·.slot (DEPTH - 1) = other.slot (DEPTH - 1)) = true :=
      List.any_eq_true.mpr ⟨element, elementMem, by simp [sameSlot]⟩
    have missing := none other (Std.TreeMap.mem_keys.mpr otherMem)
    rw [if_pos wanted, Option.map_eq_none_iff, Batch.findElementWithLsb, List.find?_eq_none] at missing
    exact missing element (List.mem_append_left _ elementMem) (by simp [sameSlot])
  · intro free other otherMem
    have unwanted : ¬batch.insertElements.any (·.slot (DEPTH - 1) = other.slot (DEPTH - 1)) = true := by
      rw [List.any_eq_true]
      rintro ⟨element, elementMem, sameSlot⟩
      exact free ⟨element, elementMem, other, Std.TreeMap.mem_keys.mp otherMem,
        by simpa using (Eq.symm (by simpa using sameSlot))⟩
    exact if_neg unwanted

/-- What a batch must satisfy to be applied. -/
structure Fits (tree : Tree DEPTH V) (batch : Batch DEPTH V) : Prop where
  slots : (Batch.slots DEPTH (batch.insertElements ++ batch.removeEntries)).Nodup
  nonzero : ∀ element ∈ batch.insertElements ++ batch.removeEntries, element ≠ Element.ZERO
  vacant : ¬tree.Collides batch.insertElements
  present : ∀ element ∈ batch.removeEntries, element ∈ tree.entries

theorem Fits.disjoint {tree : Tree DEPTH V} {batch : Batch DEPTH V} (fits : tree.Fits batch)
    {inserted removed : Element} (insertedMem : inserted ∈ batch.insertElements)
    (removedMem : removed ∈ batch.removeEntries) :
    inserted.slot (DEPTH - 1) ≠ removed.slot (DEPTH - 1) := by
  have nodup := fits.slots
  rw [Batch.slots, List.map_append, List.nodup_append] at nodup
  exact nodup.2.2 _ (List.mem_map_of_mem insertedMem) _ (List.mem_map_of_mem removedMem)

theorem Fits.eq_of_slot {tree : Tree DEPTH V} {batch : Batch DEPTH V} (fits : tree.Fits batch)
    {first second : Element} (firstMem : first ∈ batch.insertElements)
    (secondMem : second ∈ batch.insertElements)
    (sameSlot : first.slot (DEPTH - 1) = second.slot (DEPTH - 1)) : first = second := by
  have nodup := fits.slots
  rw [Batch.slots, List.map_append, List.nodup_append] at nodup
  exact List.inj_on_of_nodup_map nodup.1 firstMem secondMem sameSlot

theorem Fits.distinct_entriesAfter {tree : Tree DEPTH V} {batch : Batch DEPTH V}
    (fits : tree.Fits batch) (node : Node) (distinct : tree.DistinctElements) :
    (⟨node, tree.entriesAfter batch⟩ : Tree DEPTH V).DistinctElements := by
  intro first firstMem second secondMem sameSlot
  obtain ⟨_, firstMem⟩ := mem_entriesAfter.mp firstMem
  obtain ⟨_, secondMem⟩ := mem_entriesAfter.mp secondMem
  rcases firstMem with firstNew | firstOld
  · rcases secondMem with secondNew | secondOld
    · exact fits.eq_of_slot firstNew secondNew sameSlot
    · exact absurd ⟨first, firstNew, second, secondOld, sameSlot.symm⟩ fits.vacant
  · rcases secondMem with secondNew | secondOld
    · exact absurd ⟨second, secondNew, first, firstOld, sameSlot⟩ fits.vacant
    · exact distinct first firstOld second secondOld sameSlot

/-- The slots of the map after a batch are the changed slots of the map. -/
theorem Fits.leaves_entriesAfter {tree : Tree DEPTH V} {batch : Batch DEPTH V}
    (fits : tree.Fits batch) (node : Node) (distinct : tree.DistinctElements) (slot : Nat) :
    applyChanges (DEPTH - 1) (sortChanges DEPTH
        (changesOf batch.insertElements batch.removeEntries)) tree.leaves slot =
      (⟨node, tree.entriesAfter batch⟩ : Tree DEPTH V).leaves slot := by
  have distinctAfter := fits.distinct_entriesAfter node distinct
  have distinctSlots := (Batch.distinctSlots_changesOf_iff _ _).mpr fits.slots
  by_cases hit : ∃ change ∈ sortChanges DEPTH
      (changesOf batch.insertElements batch.removeEntries), changeKey change % 2 ^ (DEPTH - 1) = slot
  · obtain ⟨⟨kind, element⟩, mem, rfl⟩ := hit
    rw [applyChanges, writeAll_of_mem _ distinctSlots mem]
    simp only [changeKey_mod]
    rcases Batch.mem_sortChanges_changesOf.mp mem with ⟨rfl, inserted⟩ | ⟨rfl, removed⟩
    · have after : element ∈ tree.entriesAfter batch :=
        mem_entriesAfter.mpr ⟨fun removed => fits.disjoint inserted removed rfl, Or.inl inserted⟩
      exact (leaves_of_mem distinctAfter after).symm
    · rw [leaves_of_mem distinct (fits.present element removed), leaves_of_vacant]
      · simp [changeEffect]
      · intro other otherMem sameSlot
        obtain ⟨kept, otherMem⟩ := mem_entriesAfter.mp otherMem
        rcases otherMem with new | old
        · exact fits.disjoint new removed sameSlot
        · exact kept (distinct other old element (fits.present element removed) sameSlot ▸ removed)
  · push Not at hit
    rw [applyChanges, writeAll_of_notMem _ hit]
    by_cases occupied : ∃ element ∈ tree.entries, element.slot (DEPTH - 1) = slot
    · obtain ⟨element, mem, rfl⟩ := occupied
      have after : element ∈ tree.entriesAfter batch :=
        mem_entriesAfter.mpr ⟨fun removed =>
          hit (.remove, element) (Batch.mem_sortChanges_changesOf.mpr (Or.inr ⟨rfl, removed⟩)) rfl, Or.inr mem⟩
      rw [leaves_of_mem distinct mem]
      exact (leaves_of_mem distinctAfter after).symm
    · push Not at occupied
      rw [leaves_of_vacant occupied, leaves_of_vacant]
      intro element mem sameSlot
      rcases (mem_entriesAfter.mp mem).2 with new | old
      · exact hit (.insert, element) (Batch.mem_sortChanges_changesOf.mpr (Or.inl ⟨rfl, new⟩)) sameSlot
      · exact occupied element old sameSlot

theorem Fits.applicable {tree : Tree DEPTH V} {batch : Batch DEPTH V} (fits : tree.Fits batch)
    (distinct : tree.DistinctElements) :
    Applicable (DEPTH - 1)
      (sortChanges DEPTH (changesOf batch.insertElements batch.removeEntries)) tree.leaves := by
  rintro ⟨kind, element⟩ mem
  rcases Batch.mem_sortChanges_changesOf.mp mem with ⟨rfl, inserted⟩ | ⟨rfl, removed⟩
  · refine ⟨fits.nonzero element (List.mem_append_left _ inserted), leaves_of_vacant ?_⟩
    intro other otherMem sameSlot
    exact fits.vacant ⟨element, inserted, other, otherMem, sameSlot⟩
  · exact ⟨fits.nonzero element (List.mem_append_right _ removed),
      leaves_of_mem distinct (fits.present element removed)⟩

theorem Fits.checkCollisions_eq_ok {tree : Tree DEPTH V} {batch : Batch DEPTH V}
    (fits : tree.Fits batch) (tempNoir : Bool) : tree.checkCollisions tempNoir batch = .ok () := by
  have none : tree.missing batch = [] := by
    rw [missing, List.filter_eq_nil_iff]
    intro element mem
    simpa using ⟨element, fits.present element mem, rfl⟩
  simp [checkCollisions, none, collisions_eq_nil_iff.mpr fits.vacant, check]

/-- A batch that fits is applied; the tree stays well formed. -/
theorem Fits.insertBatch_eq_ok {tree : Tree DEPTH V} {batch : Batch DEPTH V}
    (fits : tree.Fits batch) (tempNoir : Bool) (positive : 0 < DEPTH)
    (wellFormed : tree.WellFormed merge) (nonempty : batch.isEmpty = false) :
    ∃ after : Tree DEPTH V, tree.insertBatch merge tempNoir batch = .ok after ∧
      after.WellFormed merge ∧ after.entries = tree.entriesAfter batch ∧
        after.rootHash merge = root merge (DEPTH - 1)
          (applyChanges (DEPTH - 1) (changesOf batch.insertElements batch.removeEntries)
            tree.leaves) := by
  have levels : 0 + (DEPTH - 1) + 1 = DEPTH := by omega
  have perm := sortChanges_perm DEPTH (changesOf batch.insertElements batch.removeEntries)
  have distinctSlots := (Batch.distinctSlots_changesOf_iff _ _).mpr fits.slots
  have changesNonempty :
      sortChanges DEPTH (changesOf batch.insertElements batch.removeEntries) ≠ [] := by
    intro nil
    rw [nil] at perm
    simp_all [changesOf, Batch.isEmpty, Batch.insertElements]
  obtain ⟨node, inserted, represents, marked⟩ :=
    wellFormed.represents.insertWithoutHashing_changedTo wellFormed.clean levels
      (sortedSlots_sortChanges DEPTH _) distinctSlots changesNonempty
      (fits.applicable wellFormed.distinct)
  have fresh : batch.insertElements.find? tree.containsElement = none := by
    rw [List.find?_eq_none]
    intro element mem
    rw [containsElement_iff]
    exact fun old => fits.vacant ⟨element, mem, element, old, rfl⟩
  have present : ∀ element ∈ batch.removeEntries, tree.containsElement element = true :=
    fun element mem => containsElement_iff.mpr (fits.present element mem)
  have applied : tree.insertWithoutHashing merge batch =
      .ok ⟨node, tree.entriesAfter batch⟩ := by
    simp only [insertWithoutHashing, nonempty, Bool.false_eq_true, if_false, fresh,
      check_of _ fits.nonzero, check_of _ present, ok_bind, inserted]
    rfl
  have after : Represents (node.recalculateHashes merge) (DEPTH - 1)
      (⟨node.recalculateHashes merge, tree.entriesAfter batch⟩ : Tree DEPTH V).leaves :=
    represents.recalculateHashes.congr fun slot _ =>
      fits.leaves_entriesAfter _ wellFormed.distinct slot
  have clean := Node.recalculateHashes_clean marked
  refine ⟨⟨node.recalculateHashes merge, tree.entriesAfter batch⟩, ?_,
    ⟨after, clean, ?_, fits.distinct_entriesAfter _ wellFormed.distinct⟩, rfl, ?_⟩
  · simp only [insertBatch, fits.checkCollisions_eq_ok, ok_bind, applied]
    rfl
  · intro element mem
    rcases (mem_entriesAfter.mp mem).2 with new | old
    · exact fits.nonzero element (List.mem_append_left _ new)
    · exact wellFormed.nonzero element old
  · rw [rootHash, represents.recalculateHashes.hash_eq clean, applyChanges,
      writeAll_perm _ perm distinctSlots]

theorem Fits.exists_insertBatch {tree : Tree DEPTH V} {batch : Batch DEPTH V}
    (fits : tree.Fits batch) (tempNoir : Bool) (positive : 0 < DEPTH)
    (wellFormed : tree.WellFormed merge) :
    ∃ after : Tree DEPTH V, tree.insertBatch merge tempNoir batch = .ok after := by
  cases empty : batch.isEmpty with
  | true =>
      simp only [insertBatch, fits.checkCollisions_eq_ok, ok_bind, insertWithoutHashing, empty,
        if_true]
      exact ⟨_, rfl⟩
  | false =>
      rcases fits.insertBatch_eq_ok tempNoir positive wellFormed empty with ⟨after, applied, _⟩
      exact ⟨after, applied⟩

/-- A batch that wants the slot of an element in the tree is not applied. -/
theorem Collides.insertBatch_ne_ok {tree after : Tree DEPTH V} {batch : Batch DEPTH V}
    (collides : tree.Collides batch.insertElements) (tempNoir : Bool) :
    tree.insertBatch merge tempNoir batch ≠ .ok after := by
  intro applied
  simp only [insertBatch, bind_eq_ok_iff, checkCollisions, check_eq_ok_iff,
    List.append_eq_nil_iff, collisions_eq_nil_iff] at applied
  obtain ⟨_, ⟨_, _, free, _⟩, _⟩ := applied
  exact free collides

/-- Whatever batch was applied, the map holds its insertions and not its
removals. -/
theorem entries_of_insertBatch {tree after : Tree DEPTH V} {batch : Batch DEPTH V}
    {tempNoir : Bool} (applied : tree.insertBatch merge tempNoir batch = .ok after) :
    after.entries = tree.entriesAfter batch := by
  simp only [insertBatch, bind_eq_ok_iff] at applied
  obtain ⟨_, _, applied⟩ := applied
  cases inserted : tree.insertWithoutHashing merge batch with
  | error stop => cases stop <;> simp [inserted] at applied
  | ok changed =>
      simp only [inserted, pure_eq_ok_iff] at applied
      subst applied
      unfold insertWithoutHashing at inserted
      split at inserted
      · rename_i empty
        obtain rfl := pure_eq_ok_iff.mp inserted
        simp_all [entriesAfter, Batch.isEmpty]
      · simp only [bind_eq_ok_iff, check_eq_ok_iff] at inserted
        obtain ⟨_, _, inserted⟩ := inserted
        split at inserted
        · simp at inserted
        · simp only [bind_eq_ok_iff, check_eq_ok_iff, pure_eq_ok_iff] at inserted
          obtain ⟨_, _, _, _, _, _, rfl⟩ := inserted
          rfl

/-- A batch that was applied did fit. -/
theorem fits_of_insertBatch {tree after : Tree DEPTH V} {batch : Batch DEPTH V}
    {tempNoir : Bool} (nonempty : batch.isEmpty = false)
    (slots : (Batch.slots DEPTH (batch.insertElements ++ batch.removeEntries)).Nodup)
    (applied : tree.insertBatch merge tempNoir batch = .ok after) : tree.Fits batch := by
  have vacant : ¬tree.Collides batch.insertElements :=
    fun collides => collides.insertBatch_ne_ok tempNoir applied
  simp only [insertBatch, bind_eq_ok_iff] at applied
  obtain ⟨_, _, applied⟩ := applied
  cases inserted : tree.insertWithoutHashing merge batch with
  | error stop => cases stop <;> simp [inserted] at applied
  | ok changed =>
      simp only [insertWithoutHashing, nonempty, Bool.false_eq_true, if_false, bind_eq_ok_iff,
        check_eq_ok_iff] at inserted
      obtain ⟨_, nonzero, inserted⟩ := inserted
      split at inserted
      · simp at inserted
      · simp only [bind_eq_ok_iff, check_eq_ok_iff, pure_eq_ok_iff] at inserted
        obtain ⟨_, present, _⟩ := inserted
        exact ⟨slots, nonzero, vacant, fun element mem =>
          containsElement_iff.mp (present element mem)⟩

/-- An empty batch changes nothing. -/
theorem WellFormed.insertBatch_empty {tree after : Tree DEPTH V} {batch : Batch DEPTH V}
    {tempNoir : Bool} (wellFormed : tree.WellFormed merge) (empty : batch.isEmpty = true)
    (applied : tree.insertBatch merge tempNoir batch = .ok after) : after = tree := by
  have unchanged : tree.tree.recalculateHashes merge = tree.tree := by
    cases node : tree.tree with
    | leaf element => rfl
    | empty depth => rfl
    | parent left right hash hashDirty =>
        have clean := wellFormed.clean
        rw [node] at clean
        rw [Node.recalculateHashes, clean.1]
        rfl
  simp only [insertBatch, insertWithoutHashing, empty, if_true, bind_eq_ok_iff] at applied
  obtain ⟨_, _, applied⟩ := applied
  rw [← pure_eq_ok_iff.mp applied, unchanged]

theorem WellFormed.insertBatch {tree after : Tree DEPTH V} {batch : Batch DEPTH V}
    {tempNoir : Bool} (wellFormed : tree.WellFormed merge) (positive : 0 < DEPTH)
    (slots : (Batch.slots DEPTH (batch.insertElements ++ batch.removeEntries)).Nodup)
    (applied : tree.insertBatch merge tempNoir batch = .ok after) : after.WellFormed merge := by
  cases empty : batch.isEmpty with
  | true => rwa [wellFormed.insertBatch_empty empty applied]
  | false =>
      obtain ⟨result, resultEq, resultWellFormed, _⟩ :=
        (fits_of_insertBatch empty slots applied).insertBatch_eq_ok tempNoir positive wellFormed
          empty
      rw [resultEq] at applied
      rwa [← Except.ok.inj applied]

variable (merge) in
/-- The trees that batches can build. -/
inductive Reachable (tempNoir : Bool) : Tree DEPTH V → Prop
  | new : Reachable tempNoir new
  | insertBatch {tree after : Tree DEPTH V} {batch : Batch DEPTH V}
      {entries : List (Element × V)} {removeEntries : List Element} :
      Reachable tempNoir tree → Batch.fromEntries entries removeEntries = .ok batch →
      tree.insertBatch merge tempNoir batch = .ok after → Reachable tempNoir after

theorem Reachable.wellFormed {tempNoir : Bool} {tree : Tree DEPTH V} (positive : 0 < DEPTH)
    (reachable : Reachable merge tempNoir tree) : tree.WellFormed merge := by
  induction reachable with
  | new => exact new_wellFormed positive
  | insertBatch _ built applied ih =>
      obtain ⟨_, slots, rfl⟩ := Batch.fromEntries_eq_ok_iff.mp built
      refine ih.insertBatch positive ?_ applied
      exact slots

end Tree

end Ciphera.Smirk
