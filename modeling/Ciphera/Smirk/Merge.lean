import Ciphera.Smirk.HashCache

/-!
# Merging batches

A merge takes over the insertions of the second batch and the slots of everything in it,
but not its removals.  When there are none to take over, the merged batch means both:
wherever the two can be applied one after the other, it can be applied at once, and the
elements and the root come out the same.  Otherwise the elements to be removed stay in
the tree.
-/

namespace Ciphera.Smirk

open Ciphera.Lib

variable {DEPTH : Nat} {V C : Type}

namespace Batch

/-- The insertions and the removals are those of the two batches. -/
structure HoldsBoth (merged batch other : Batch DEPTH V) : Prop where
  entries : merged.entries.Perm (batch.entries ++ other.entries)
  removeEntries : merged.removeEntries.Perm (batch.removeEntries ++ other.removeEntries)

/-- In every tree to which the two batches can be applied in turn, the merged batch can
be applied, with the same entries and the same root. -/
def ActsAsBoth (merge : Element → Element → Element) (hash : CacheHash C) (tempNoir : Bool)
    (merged batch other : Batch DEPTH V) : Prop :=
  ∀ (cache : C) (calls : List (Call DEPTH V)) (cached first second : CachedTree DEPTH V C),
    Truthful merge hash cache →
    Run (CachedTree.Step merge hash tempNoir) (CachedTree.newWithCache cache) calls cached →
    cached.insertBatch merge hash tempNoir batch = .ok first →
    first.insertBatch merge hash tempNoir other = .ok second →
    ∃ after, cached.insertBatch merge hash tempNoir merged = .ok after ∧
      (∀ element : Element, after.tree.entries[element]? = second.tree.entries[element]?) ∧
      after.tree.rootHash merge = second.tree.rootHash merge

/-! ## What a merge is -/

@[simp]
theorem merge_eq_ok_iff {batch other merged : Batch DEPTH V} :
    batch.merge other = .ok merged ↔
      (∀ slot ∈ batch.lsbs, slot ∉ other.lsbs) ∧
        merged = { batch with
          entries := batch.entries ++ other.entries
          lsbs := batch.lsbs ++ other.lsbs } := by
  simp only [merge]
  split_ifs with apart
  · simp only [List.isEmpty_iff, List.filter_eq_nil_iff, List.contains_iff_mem] at apart
    rw [pure_eq_ok_iff, eq_comm (b := merged)]
    exact (and_iff_right apart).symm
  · simp only [List.isEmpty_iff, List.filter_eq_nil_iff, List.contains_iff_mem] at apart
    apply iff_of_false
    · intro isOk
      split at isOk
      · cases isOk
      · cases isOk
    · exact fun mergeable => apart mergeable.1

theorem holdsBoth_iff {batch other merged : Batch DEPTH V}
    (isMerge : batch.merge other = .ok merged) :
    merged.HoldsBoth batch other ↔ other.removeEntries = [] := by
  rcases merge_eq_ok_iff.mp isMerge with ⟨_, rfl⟩
  constructor
  · intro holds
    have lengths : batch.removeEntries.length =
        (batch.removeEntries ++ other.removeEntries).length := holds.removeEntries.length_eq
    rw [List.length_append] at lengths
    exact List.eq_nil_of_length_eq_zero (by omega)
  · intro none
    exact ⟨.refl _, by rw [none, List.append_nil]⟩

/-- Elements of two batches that can be merged have different slots. -/
theorem Claimed.apart {batch other : Batch DEPTH V} (claims : batch.Claimed)
    (otherClaims : other.Claimed) (disjoint : ∀ slot ∈ batch.lsbs, slot ∉ other.lsbs)
    {element otherElement : Element}
    (mem : element ∈ batch.insertElements ++ batch.removeEntries)
    (otherMem : otherElement ∈ other.insertElements ++ other.removeEntries) :
    element.slot (DEPTH - 1) ≠ otherElement.slot (DEPTH - 1) := by
  intro sameSlot
  have inBatch := claims.claimed _ (List.mem_map_of_mem mem)
  have inOther := otherClaims.claimed _ (List.mem_map_of_mem otherMem)
  exact disjoint _ inBatch (sameSlot ▸ inOther)

end Batch

namespace Tree

/-! ## Entries after two batches -/

/-- Insertions give the same value at a key where they start from the same value. -/
theorem getElem?_foldl_insert_congr (entries : List (Element × V)) {element : Element}
    {map map' : Std.TreeMap Element V} (same : map[element]? = map'[element]?) :
    (entries.foldl (fun entries entry => entries.insert entry.1 entry.2) map)[element]? =
      (entries.foldl (fun entries entry => entries.insert entry.1 entry.2) map')[element]? := by
  induction entries generalizing map map' with
  | nil => exact same
  | cons entry entries ih =>
      apply ih
      rw [getElem?_insert_eq, getElem?_insert_eq, same]

theorem getElem?_foldl_insert_of_notMem {entries : List (Element × V)} {element : Element}
    (absent : element ∉ entries.map Prod.fst) (map : Std.TreeMap Element V) :
    (entries.foldl (fun entries entry => entries.insert entry.1 entry.2) map)[element]? =
      map[element]? := by
  induction entries generalizing map with
  | nil => rfl
  | cons entry entries ih =>
      rw [List.map_cons, List.mem_cons, not_or] at absent
      rw [List.foldl_cons, ih absent.2, getElem?_insert_eq, if_neg (Ne.symm absent.1)]

/-- The removals of the first batch may wait until the second has been inserted. -/
theorem getElem?_entriesAfter_merged {tree first : Tree DEPTH V}
    {batch other merged : Batch DEPTH V} (claims : batch.Claimed) (otherClaims : other.Claimed)
    (isMerge : batch.merge other = .ok merged)
    (firstEntries : first.entries = tree.entriesAfter batch) (noRemovals : other.removeEntries = [])
    (element : Element) :
    (tree.entriesAfter merged)[element]? = (first.entriesAfter other)[element]? := by
  rcases Batch.merge_eq_ok_iff.mp isMerge with ⟨disjoint, rfl⟩
  simp only [entriesAfter, noRemovals, firstEntries, List.foldl_append, List.foldl_nil,
    getElem?_foldl_erase]
  split_ifs with removed
  · have absent : element ∉ other.insertElements := by
      intro inserted
      exact claims.apart otherClaims disjoint (List.mem_append_right _ removed)
        (List.mem_append_left _ inserted) rfl
    rw [getElem?_foldl_insert_of_notMem absent, getElem?_foldl_erase, if_pos removed]
  · apply getElem?_foldl_insert_congr
    rw [getElem?_foldl_erase, if_neg removed]

/-! ## Applying the merged batch -/

variable {merge : Element → Element → Element} {tempNoir : Bool}

/-- A batch that was applied to a well-formed tree did fit, also when it is empty. -/
theorem fits_of_applied {tree after : Tree DEPTH V} {batch : Batch DEPTH V}
    (claims : batch.Claimed) (applied : tree.insertBatch merge tempNoir batch = .ok after) :
    tree.Fits batch := by
  cases empty : batch.isEmpty with
  | false => exact fits_of_insertBatch empty claims.nodup applied
  | true =>
      rw [Batch.isEmpty, Bool.and_eq_true, List.isEmpty_iff, List.isEmpty_iff] at empty
      constructor
      · exact claims.nodup
      · simp [Batch.insertElements, empty.1, empty.2]
      · simp [Collides, Batch.insertElements, empty.1]
      · simp [empty.2]

/-- A merged batch fits where the two fit in turn. -/
theorem Fits.merged {tree first : Tree DEPTH V} {batch other merged : Batch DEPTH V}
    (fits : tree.Fits batch) (otherFits : first.Fits other)
    (firstEntries : first.entries = tree.entriesAfter batch) (claims : batch.Claimed)
    (otherClaims : other.Claimed) (isMerge : batch.merge other = .ok merged) :
    tree.Fits merged := by
  have mergedClaims := claims.merge otherClaims isMerge
  rcases Batch.merge_eq_ok_iff.mp isMerge with ⟨disjoint, rfl⟩
  have inserted : ∀ element,
      element ∈ (batch.entries ++ other.entries).map Prod.fst ↔
        element ∈ batch.insertElements ∨ element ∈ other.insertElements := by
    intro element
    rw [List.map_append, List.mem_append]
    rfl
  constructor
  · exact mergedClaims.nodup
  · intro element mem
    rcases List.mem_append.mp mem with new | removed
    · rcases (inserted element).mp new with mine | others
      · exact fits.nonzero element (List.mem_append_left _ mine)
      · exact otherFits.nonzero element (List.mem_append_left _ others)
    · exact fits.nonzero element (List.mem_append_right _ removed)
  · rintro ⟨element, mem, occupant, present, sameSlot⟩
    rcases (inserted element).mp mem with mine | others
    · exact fits.vacant ⟨element, mine, occupant, present, sameSlot⟩
    · by_cases removed : occupant ∈ batch.removeEntries
      · -- the slot would be claimed by both batches
        exact claims.apart otherClaims disjoint (List.mem_append_right _ removed)
          (List.mem_append_left _ others) sameSlot
      · apply otherFits.vacant
        refine ⟨element, others, occupant, ?_, sameSlot⟩
        rw [firstEntries, mem_entriesAfter]
        exact ⟨removed, .inr present⟩
  · exact fits.present

end Tree

namespace CachedTree

variable {merge : Element → Element → Element} {hash : CacheHash C} {tempNoir : Bool}

/-- A batch that is applied to a sound tree: it fits, and what comes out. -/
theorem Sound.applied {cached after : CachedTree DEPTH V C} {batch : Batch DEPTH V}
    (positive : 0 < DEPTH) (sound : cached.Sound merge hash) (claims : batch.Claimed)
    (applied : cached.insertBatch merge hash tempNoir batch = .ok after) :
    cached.tree.Fits batch ∧ after.tree.entries = cached.tree.entriesAfter batch ∧
      after.Sound merge hash := by
  rcases insertBatch_eq_ok sound.truthful applied with ⟨inserted, truthful⟩
  exact ⟨Tree.fits_of_applied claims inserted, Tree.entries_of_insertBatch inserted,
    sound.wellFormed.insertBatch positive claims.nodup inserted, truthful⟩

theorem Sound.actsAsBoth {cached first second : CachedTree DEPTH V C}
    {batch other merged : Batch DEPTH V} (positive : 0 < DEPTH)
    (sound : cached.Sound merge hash) (claims : batch.Claimed) (otherClaims : other.Claimed)
    (isMerge : batch.merge other = .ok merged) (noRemovals : other.removeEntries = [])
    (applied : cached.insertBatch merge hash tempNoir batch = .ok first)
    (otherApplied : first.insertBatch merge hash tempNoir other = .ok second) :
    ∃ after, cached.insertBatch merge hash tempNoir merged = .ok after ∧
      (∀ element : Element, after.tree.entries[element]? = second.tree.entries[element]?) ∧
      after.tree.rootHash merge = second.tree.rootHash merge := by
  rcases sound.applied positive claims applied with ⟨fits, firstEntries, firstSound⟩
  rcases firstSound.applied positive otherClaims otherApplied with
    ⟨otherFits, secondEntries, secondSound⟩
  have mergedClaims := claims.merge otherClaims isMerge
  have mergedFits := fits.merged otherFits firstEntries claims otherClaims isMerge
  rcases mergedFits.exists_insertBatch tempNoir positive sound.wellFormed with ⟨tree, inserted⟩
  rcases exists_insertBatch sound.truthful inserted with ⟨after, accepted, _⟩
  rcases sound.applied positive mergedClaims accepted with ⟨_, afterEntries, afterSound⟩
  have sameEntries : ∀ element : Element,
      after.tree.entries[element]? = second.tree.entries[element]? := by
    intro element
    rw [afterEntries, secondEntries]
    exact Tree.getElem?_entriesAfter_merged claims otherClaims isMerge firstEntries noRemovals
      element
  refine ⟨after, accepted, sameEntries, ?_⟩
  rw [afterSound.wellFormed.rootHash_eq_sparseRoot, secondSound.wellFormed.rootHash_eq_sparseRoot]
  congr 1
  apply Set.ext
  intro element
  rw [Set.mem_ofPred_eq, Set.mem_ofPred_eq, Std.TreeMap.mem_iff_isSome_getElem?,
    Std.TreeMap.mem_iff_isSome_getElem?, sameEntries]

/-- What the second batch removes stays in the tree when the batches are merged. -/
theorem Sound.removal_lost {cached first second after : CachedTree DEPTH V C}
    {batch other merged : Batch DEPTH V} (positive : 0 < DEPTH)
    (sound : cached.Sound merge hash) (claims : batch.Claimed) (otherClaims : other.Claimed)
    (isMerge : batch.merge other = .ok merged)
    (applied : cached.insertBatch merge hash tempNoir batch = .ok first)
    (otherApplied : first.insertBatch merge hash tempNoir other = .ok second)
    (accepted : cached.insertBatch merge hash tempNoir merged = .ok after) {element : Element}
    (removed : element ∈ other.removeEntries) :
    element ∈ after.tree.entries ∧ element ∉ second.tree.entries := by
  rcases sound.applied positive claims applied with ⟨_, firstEntries, firstSound⟩
  rcases firstSound.applied positive otherClaims otherApplied with ⟨otherFits, secondEntries, _⟩
  rcases sound.applied positive (claims.merge otherClaims isMerge) accepted with
    ⟨_, afterEntries, _⟩
  rcases Batch.merge_eq_ok_iff.mp isMerge with ⟨_, rfl⟩
  have present := otherFits.present element removed
  rw [firstEntries, Tree.mem_entriesAfter] at present
  constructor
  · rw [afterEntries, Tree.mem_entriesAfter]
    refine ⟨present.1, present.2.imp_left ?_⟩
    intro mine
    rw [Batch.insertElements, List.map_append]
    exact List.mem_append_left _ mine
  · rw [secondEntries, Tree.mem_entriesAfter]
    exact fun kept => kept.1 removed

end CachedTree

namespace Batch

variable {merge : Element → Element → Element} {hash : CacheHash C} {tempNoir : Bool}

/-- A merged batch means both batches exactly when the second one removes nothing. -/
theorem merge_means_both_iff (positive : 0 < DEPTH) {batch other merged : Batch DEPTH V}
    (built : batch.Built) (otherBuilt : other.Built) (isMerge : batch.merge other = .ok merged) :
    merged.HoldsBoth batch other ∧ ActsAsBoth merge hash tempNoir merged batch other ↔
      other.removeEntries = [] := by
  constructor
  · rintro ⟨holds, _⟩
    exact (holdsBoth_iff isMerge).mp holds
  · intro noRemovals
    refine ⟨(holdsBoth_iff isMerge).mpr noRemovals, ?_⟩
    intro cache calls cached first second truthful run applied otherApplied
    exact (CachedTree.sound_of_run positive truthful run).actsAsBoth positive built.claimed
      otherBuilt.claimed isMerge noRemovals applied otherApplied

/-- The batch of one insertion. -/
def insertion (element : Element) : Batch 161 Unit := ({} : Batch 161 Unit).push (element, ())

/-- The batch of one removal. -/
def removal (element : Element) : Batch 161 Unit := ({} : Batch 161 Unit).pushRemove element

theorem insertion_built (element : Element) : (insertion element).Built := by
  have inserted : ({} : Batch 161 Unit).insert element () = .ok (insertion element) := rfl
  exact .insert .new inserted

theorem removal_built (element : Element) : (removal element).Built := by
  have removed : ({} : Batch 161 Unit).remove element = .ok (removal element) := rfl
  exact .remove .new removed

/-- Two insertions are merged faithfully. -/
theorem insertions_mean_both :
    ({ entries := [(1, ()), (2, ())], lsbs := [1, 2] } : Batch 161 Unit).HoldsBoth
        (insertion 1) (insertion 2) ∧
      ActsAsBoth (· + ·) (CachedTree.noopHash (· + ·)) false
        { entries := [(1, ()), (2, ())], lsbs := [1, 2] } (insertion 1) (insertion 2) :=
  (merge_means_both_iff (by decide) (insertion_built 1) (insertion_built 2) (by rfl)).mpr rfl

/-- A removal is lost when it is merged into an insertion, and it shows in the tree. -/
theorem removal_not_merged :
    ∃ merged, (insertion 2).merge (removal 1) = .ok merged ∧
      ¬merged.HoldsBoth (insertion 2) (removal 1) ∧
      ¬ActsAsBoth (· + ·) (CachedTree.noopHash (· + ·)) false merged (insertion 2)
        (removal 1) := by
  have positive : 0 < 161 := by decide
  have isMerge : (insertion 2).merge (removal 1) =
      .ok { entries := [(2, ())], lsbs := [2, 1] } := by rfl
  refine ⟨_, isMerge, ?_, ?_⟩
  · rw [holdsBoth_iff isMerge]
    exact List.cons_ne_nil _ _
  · intro actsAsBoth
    have start : ∃ cached, Run (CachedTree.Step (· + ·) (CachedTree.noopHash (· + ·)) false)
        (CachedTree.newWithCache ()) [(.insert 1 () : Call 161 Unit)] cached ∧
          ∀ other, other ∈ cached.tree.entries ↔ other = 1 :=
      CachedTree.exists_run_insert () () positive (by decide) CachedTree.noopHash_truthful (by decide)
    rcases start with ⟨cached, run, elements⟩
    have sound := CachedTree.sound_of_run positive CachedTree.noopHash_truthful run
    have fits : cached.tree.Fits (insertion 2) := by
      constructor
      · exact (insertion_built 2).claimed.nodup
      · intro element mem
        obtain rfl := List.mem_singleton.mp mem
        decide
      · rintro ⟨element, mem, other, present, sameSlot⟩
        obtain rfl := List.mem_singleton.mp mem
        obtain rfl := (elements other).mp present
        exact absurd sameSlot (by decide)
      · exact fun _ mem => absurd mem List.not_mem_nil
    rcases fits.exists_insertBatch false positive sound.wellFormed with ⟨tree, inserted⟩
    rcases CachedTree.exists_insertBatch sound.truthful inserted with ⟨first, applied, _⟩
    rcases sound.applied positive (insertion_built 2).claimed applied with
      ⟨_, firstEntries, firstSound⟩
    have otherFits : first.tree.Fits (removal 1) := by
      constructor
      · exact (removal_built 1).claimed.nodup
      · intro element mem
        obtain rfl := List.mem_singleton.mp mem
        decide
      · rintro ⟨element, mem, _⟩
        exact absurd mem List.not_mem_nil
      · intro element mem
        obtain rfl := List.mem_singleton.mp mem
        rw [firstEntries, Tree.mem_entriesAfter]
        exact ⟨List.not_mem_nil, .inr ((elements 1).mpr rfl)⟩
    rcases otherFits.exists_insertBatch false positive firstSound.wellFormed with
      ⟨otherTree, otherInserted⟩
    rcases CachedTree.exists_insertBatch firstSound.truthful otherInserted with
      ⟨second, otherApplied, _⟩
    rcases actsAsBoth () _ cached first second CachedTree.noopHash_truthful run applied
      otherApplied with ⟨after, accepted, sameEntries, _⟩
    rcases sound.removal_lost positive (insertion_built 2).claimed (removal_built 1).claimed
      isMerge applied otherApplied accepted (List.mem_singleton_self 1) with ⟨kept, gone⟩
    rw [Std.TreeMap.mem_iff_isSome_getElem?] at kept gone
    exact gone (sameEntries 1 ▸ kept)

end Batch

end Ciphera.Smirk
