import Ciphera.Smirk.Storage
import Mathlib.Data.List.Pairwise

/-!
# Loading the tree again

Records that mirror a tree can be loaded, and what is loaded has the elements,
the metadata and the root of the tree.

Whatever batches are inserted and whenever the hashes are persisted, the records
of a database that started empty or in the older format mirror the tree.
-/

namespace Ciphera.Smirk.Storage

open Ciphera.Lib

/-! ## Loading what was written -/

section

variable {DEPTH : Nat} {V : Type}

@[simp]
theorem collisions_eq_ok_iff {α : Type} {computed : Except (Stop CollisionError) α} {result : α} :
    collisions computed = .ok result ↔ computed = .ok result := by
  cases computed with
  | ok value => simp [collisions]
  | error stop => cases stop <;> simp [collisions]

/-- The element of a record and its metadata. -/
def kvOf (record : KeyFormat × ValueFormat V) : Option (Element × V) :=
  (entry record).toOption.bind RocksbEntry.kv?

@[simp]
theorem kvOf_eq_some_iff {record : KeyFormat × ValueFormat V} {pair : Element × V} :
    kvOf record = some pair ↔
      record.1.element? = some pair.1 ∧ record.2.metadata? = some pair.2 := by
  rw [← entry_eq_smirkKv_iff, kvOf]
  cases read : entry record with
  | error failure => simp [Except.toOption]
  | ok value => cases value <;> simp [Except.toOption, RocksbEntry.kv?, Prod.ext_iff]

/-- The elements that a database is loaded with. -/
def pairs (db : Database V) : List (Element × V) := db.toList.filterMap kvOf

@[simp]
theorem filterMap_kv? (db : Database V) :
    (db.toList.filterMap fun record => (entry record).toOption).filterMap RocksbEntry.kv? =
      pairs db :=
  List.filterMap_filterMap

@[simp]
theorem mem_pairs_iff {db : Database V} {pair : Element × V} :
    pair ∈ pairs db ↔ ∃ (key : KeyFormat) (value : ValueFormat V), db[key]? = some value ∧
      key.element? = some pair.1 ∧ value.metadata? = some pair.2 := by
  rw [pairs, List.mem_filterMap]
  constructor
  · rintro ⟨⟨key, value⟩, mem, read⟩
    exact ⟨key, value, Std.HashMap.mem_toList_iff_getElem?_eq_some.mp mem,
      kvOf_eq_some_iff.mp read⟩
  · rintro ⟨key, value, found, read⟩
    exact ⟨(key, value), Std.HashMap.mem_toList_iff_getElem?_eq_some.mpr found,
      kvOf_eq_some_iff.mpr read⟩

/-- Two records are not about the same element. -/
def Apart (first second : KeyFormat × ValueFormat V) : Prop :=
  ∀ pair, kvOf first = some pair → ∀ other, kvOf second = some other → pair.1 ≠ other.1

/-- Being apart is symmetric. -/
instance : Std.Symm (Apart (V := V)) :=
  ⟨fun _ _ apart pair isPair other isOther => (apart other isOther pair isPair).symm⟩

theorem nodup_pairs_iff {db : Database V} :
    ((pairs db).map Prod.fst).Nodup ↔ db.toList.Pairwise Apart := by
  rw [List.Nodup, List.pairwise_map, pairs, List.pairwise_filterMap]
  rfl

variable {merge : Element → Element → Element} {tempNoir : Bool} {db : Database V}

/-- The cache that a database with true hashes is loaded with. -/
theorem TrueHashes.truthful (hashes : TrueHashes merge db) {cache : SimpleHashCache}
    (provided : provideKnownHashes {} ((db.toList.filterMap fun record =>
      (entry record).toOption).filterMap RocksbEntry.hash?) = .ok cache) :
    Truthful merge (SimpleHashCache.hash merge) cache := by
  apply SimpleHashCache.Sound.truthful
  simp only [provideKnownHashes, bind_eq_ok_iff, pure_eq_ok_iff] at provided
  rcases provided with ⟨_, _, rfl⟩
  constructor
  · intro known mem
    rw [List.mem_mergeSort, List.filterMap_filterMap, List.mem_filterMap] at mem
    rcases mem with ⟨record, inDb, read⟩
    have isHash : entry record = .ok (.knownHash known) := by
      cases value : entry record with
      | error failure => simp [value, Except.toOption] at read
      | ok loaded => cases loaded <;> simp_all [Except.toOption, RocksbEntry.hash?]
    rw [entry_eq_knownHash_iff] at isHash
    subst isHash
    have stored := hashes _ _ _ (Std.HashMap.mem_toList_iff_getElem?_eq_some.mp inDb)
    simpa using stored
  · intro pair result found
    simp at found

/-- What was loaded is what the records say. -/
theorem TrueHashes.of_loadTree (hashes : TrueHashes merge db) (positive : 0 < DEPTH)
    {loaded : CachedTree DEPTH V SimpleHashCache} (load : loadTree merge tempNoir db = .ok loaded) :
    Mirrors merge db loaded.tree.entries ∧ loaded.Sound merge (SimpleHashCache.hash merge) ∧
      ∀ element ∈ loaded.tree.entries, DEPTH ≤ 257 := by
  simp only [loadTree, bind_eq_ok_iff, mapM_eq_ok_iff, collisions_eq_ok_iff] at load
  rcases load with ⟨_, ⟨readable, rfl⟩, cache, provided, batch, built, applied⟩
  rw [filterMap_kv?, Batch.fromEntries_eq_ok_iff, List.append_nil] at built
  rcases built with ⟨narrow, slots, rfl⟩
  rcases CachedTree.insertBatch_eq_ok (hashes.truthful provided) applied with ⟨inserted, truthful⟩
  have distinct : ((pairs db).map Prod.fst).Nodup := List.Nodup.of_map _ slots
  have lookup : ∀ (element : Element) (metadata : V),
      loaded.tree.entries[element]? = some metadata ↔ (element, metadata) ∈ pairs db := by
    intro element metadata
    rw [Tree.entries_of_insertBatch inserted, Tree.entriesAfter, List.foldl_nil,
      getElem?_foldl_insert_pairs distinct]
    simp [CachedTree.newWithCache, Tree.new]
  have read : ∀ {key : KeyFormat} {value : ValueFormat V} {element : Element},
      key.element? = some element → db[key]? = some value →
        ∃ metadata, value.metadata? = some metadata := by
    intro key value element about found
    rcases readable (key, value) (Std.HashMap.mem_toList_iff_getElem?_eq_some.mpr found) with
      ⟨meaning, readEq⟩
    cases meaning with
    | smirkKv other metadata => exact ⟨metadata, (entry_eq_smirkKv_iff.mp readEq).2⟩
    | knownHash known =>
        rw [entry_eq_knownHash_iff, Prod.mk.injEq] at readEq
        rw [readEq.1] at about
        cases about
  have bounded : ∀ element ∈ loaded.tree.entries, DEPTH ≤ 257 := by
    intro element mem
    rcases Std.TreeMap.isSome_getElem?_iff_mem.mpr mem |> Option.isSome_iff_exists.mp with
      ⟨metadata, found⟩
    exact narrow (List.ne_nil_of_mem (List.mem_map_of_mem ((lookup element metadata).mp found)))
  refine ⟨⟨?_, ?_, ?_, hashes⟩, ⟨?_, truthful⟩, bounded⟩
  · intro key value element about found
    rcases read about found with ⟨metadata, valueRead⟩
    exact ⟨metadata, valueRead, (lookup element metadata).mpr
      (mem_pairs_iff.mpr ⟨key, value, found, about, valueRead⟩)⟩
  · intro element metadata found
    rcases mem_pairs_iff.mp ((lookup element metadata).mp found) with
      ⟨key, value, atKey, about, _⟩
    exact ⟨key, about, value, atKey⟩
  · -- two records of one element would have claimed its slot twice
    intro first second element value other aboutFirst aboutSecond atFirst atSecond
    by_contra differ
    rcases read aboutFirst atFirst with ⟨metadata, valueRead⟩
    rcases read aboutSecond atSecond with ⟨otherMetadata, otherRead⟩
    have apart := (nodup_pairs_iff.mp distinct).forall
      (Std.HashMap.mem_toList_iff_getElem?_eq_some.mpr atFirst)
      (Std.HashMap.mem_toList_iff_getElem?_eq_some.mpr atSecond)
      (fun equal => differ (congrArg Prod.fst equal))
    exact apart (element, metadata) (kvOf_eq_some_iff.mpr ⟨aboutFirst, valueRead⟩)
      (element, otherMetadata) (kvOf_eq_some_iff.mpr ⟨aboutSecond, otherRead⟩) rfl
  · apply (Tree.new_wellFormed positive).insertBatch positive _ inserted
    simpa [Batch.insertElements] using slots

/-- Records that mirror a tree can be loaded. -/
theorem Mirrors.exists_loadTree {tree : Tree DEPTH V} (mirrors : Mirrors merge db tree.entries)
    (positive : 0 < DEPTH) (wellFormed : tree.WellFormed merge)
    (narrow : ∀ element ∈ tree.entries, DEPTH ≤ 257) :
    ∃ loaded : CachedTree DEPTH V SimpleHashCache, loadTree merge tempNoir db = .ok loaded := by
  have readable : ∀ record ∈ db.toList, ∃ meaning, entry record = .ok meaning := by
    rintro ⟨key, value⟩ inDb
    have found := Std.HashMap.mem_toList_iff_getElem?_eq_some.mp inDb
    have ofElement : ∀ {element : Element}, key.element? = some element →
        ∃ meaning, entry (key, value) = .ok meaning := by
      intro element about
      rcases mirrors.element about found with ⟨metadata, valueRead, _⟩
      exact ⟨_, entry_eq_smirkKv_iff.mpr ⟨about, valueRead⟩⟩
    cases key with
    | v1 element => exact ofElement rfl
    | v2 key => cases key with
      | element element => exact ofElement rfl
      | knownHash left right =>
          obtain rfl := mirrors.hashes left right value found
          exact ⟨_, rfl⟩
  have inTree : ∀ pair ∈ pairs db, tree.entries[pair.1]? = some pair.2 := by
    intro pair mem
    rcases mem_pairs_iff.mp mem with ⟨key, value, found, about, valueRead⟩
    rcases mirrors.element about found with ⟨metadata, metadataRead, lookup⟩
    rw [lookup, ← metadataRead, valueRead]
  have distinct : ((pairs db).map Prod.fst).Nodup := by
    apply nodup_pairs_iff.mpr
    apply Std.HashMap.distinct_keys_toList.imp_of_mem
    rintro ⟨first, value⟩ ⟨second, other⟩ firstMem secondMem differ pair isPair otherPair isOther same
    have keysEqual : first = second := mirrors.once (kvOf_eq_some_iff.mp isPair).1
      (same ▸ (kvOf_eq_some_iff.mp isOther).1)
      (Std.HashMap.mem_toList_iff_getElem?_eq_some.mp firstMem)
      (Std.HashMap.mem_toList_iff_getElem?_eq_some.mp secondMem)
    exact ne_of_beq_false differ keysEqual
  have keyInTree : ∀ element ∈ (pairs db).map Prod.fst, element ∈ tree.entries := by
    intro element mem
    rcases List.mem_map.mp mem with ⟨pair, inPairs, rfl⟩
    exact (Std.TreeMap.getElem?_eq_some_iff.mp (inTree pair inPairs)).1
  have slots : (Batch.slots DEPTH ((pairs db).map Prod.fst)).Nodup := by
    apply distinct.map_on
    intro first firstMem second secondMem
    exact wellFormed.distinct first (keyInTree first firstMem) second (keyInTree second secondMem)
  have fits : (Tree.new : Tree DEPTH V).Fits
      ⟨pairs db, [], Batch.slots DEPTH ((pairs db).map Prod.fst)⟩ := by
    constructor
    · simpa [Batch.insertElements] using slots
    · simp only [Batch.insertElements, List.append_nil]
      exact fun element mem => wellFormed.nonzero element (keyInTree element mem)
    · rintro ⟨_, _, other, mem, _⟩
      exact absurd mem Std.TreeMap.not_mem_emptyc
    · intro element mem
      exact absurd mem List.not_mem_nil
  rcases fits.exists_insertBatch tempNoir positive (Tree.new_wellFormed positive) with
    ⟨after, inserted⟩
  obtain ⟨cache, provided⟩ : ∃ cache, provideKnownHashes {} ((db.toList.filterMap fun record =>
      (entry record).toOption).filterMap RocksbEntry.hash?) = .ok cache := ⟨_, rfl⟩
  have start : Truthful merge (SimpleHashCache.hash merge)
      (CachedTree.newWithCache cache : CachedTree DEPTH V SimpleHashCache).cache :=
    mirrors.hashes.truthful provided
  rcases CachedTree.exists_insertBatch start inserted with ⟨loaded, applied, _⟩
  refine ⟨loaded, ?_⟩
  simp only [loadTree, bind_eq_ok_iff, mapM_eq_ok_iff, collisions_eq_ok_iff]
  refine ⟨_, ⟨readable, rfl⟩, _, provided, _, ?_, applied⟩
  rw [filterMap_kv?, Batch.fromEntries_eq_ok_iff, List.append_nil]
  refine ⟨?_, slots, rfl⟩
  intro nonempty
  rcases List.exists_mem_of_ne_nil _ nonempty with ⟨element, mem⟩
  exact narrow element (keyInTree element mem)

end

/-! ## Every sequence of calls -/

namespace Persistent

variable {DEPTH : Nat} {V : Type} {merge : Element → Element → Element} {tempNoir : Bool}

/-- The tree is sound and its database mirrors it. -/
structure Sound (merge : Element → Element → Element) (persistent : Persistent DEPTH V) : Prop where
  tree : persistent.tree.Sound merge (SimpleHashCache.hash merge)
  narrow : ∀ element ∈ persistent.tree.tree.entries, DEPTH ≤ 257
  mirrors : Mirrors merge persistent.db persistent.tree.tree.entries

theorem new_sound (positive : 0 < DEPTH) : (new : Persistent DEPTH V).Sound merge where
  tree := by
    refine ⟨Tree.new_wellFormed positive, SimpleHashCache.Sound.truthful ⟨?_, ?_⟩⟩
    · intro known mem
      exact absurd mem List.not_mem_nil
    · intro pair result found
      simp [new, CachedTree.newWithCache] at found
  narrow := fun _ mem => absurd mem Std.TreeMap.not_mem_emptyc
  mirrors := by
    constructor
    · intro key value element _ found
      simp [new] at found
    · intro element metadata found
      simp [new, CachedTree.newWithCache, Tree.new] at found
    · intro first second element value other _ _ found
      simp [new] at found
    · intro left right value found
      simp [new] at found

theorem load_sound {db : Database V} {persistent : Persistent DEPTH V} (positive : 0 < DEPTH)
    (hashes : TrueHashes merge db) (loaded : load merge tempNoir db = .ok persistent) :
    persistent.Sound merge ∧ persistent.db = db := by
  rcases bind_eq_ok_iff.mp loaded with ⟨tree, load, done⟩
  obtain rfl := pure_eq_ok_iff.mp done
  rcases hashes.of_loadTree positive load with ⟨mirrors, sound, narrow⟩
  exact ⟨⟨sound, narrow, mirrors⟩, rfl⟩

theorem OldFormat.trueHashes {db : Database V} (oldFormat : OldFormat db) :
    TrueHashes merge db := by
  intro left right value found
  rcases oldFormat _ _ found with ⟨element, metadata, isOld, _⟩
  cases isOld

theorem Opened.sound {persistent : Persistent DEPTH V} (positive : 0 < DEPTH)
    (opened : Opened merge tempNoir persistent) : persistent.Sound merge := by
  cases opened with
  | new => exact new_sound positive
  | load oldFormat loaded => exact (load_sound positive oldFormat.trueHashes loaded).1

/-- A batch with a database behind it changes the tree as one without. -/
theorem insertBatch_eq_ok {persistent next : Persistent DEPTH V} {batch : Batch DEPTH V}
    {changes : List HashChange} (sound : persistent.Sound merge)
    (inserted : persistent.insertBatch merge tempNoir batch changes = .ok next) :
    (⟨persistent.tree.tree⟩ : Smirk.Persistent DEPTH V).insertBatch merge tempNoir batch =
      .ok ⟨next.tree.tree⟩ := by
  unfold insertBatch at inserted
  unfold Smirk.Persistent.insertBatch
  split_ifs at inserted ⊢ with empty
  · rw [pure_eq_ok_iff.mp inserted]
    rfl
  · simp only [bind_eq_ok_iff, collisions_eq_ok_iff, pure_eq_ok_iff] at inserted
    rcases inserted with ⟨tree, applied, rfl⟩
    rw [(CachedTree.insertBatch_eq_ok sound.tree.truthful applied).1]
    rfl

/-- A batch that the tree accepts is written, whatever was reported meanwhile. -/
theorem exists_step_insertBatch {persistent : Persistent DEPTH V} {batch : Batch DEPTH V}
    {tree : CachedTree DEPTH V SimpleHashCache} (built : batch.Built)
    (nonempty : batch.isEmpty = false)
    (inserted : persistent.tree.insertBatch merge (SimpleHashCache.hash merge) tempNoir batch =
      .ok tree) :
    ∃ db, Step merge tempNoir persistent (.insertBatch batch built) ⟨tree, db⟩ := by
  have applied := inserted
  simp only [CachedTree.insertBatch, bind_eq_ok_iff] at applied
  rcases applied with ⟨_, _, applied⟩
  cases changes : persistent.tree.tree.insertWithoutHashing merge batch with
  | error stop => cases stop <;> simp [changes] at applied
  | ok changed =>
      simp only [changes, pure_eq_ok_iff] at applied
      subst applied
      rcases exists_reports (SimpleHashCache.hash merge) changed.tree persistent.tree.cache with
        ⟨reported, reports⟩
      refine ⟨writeBatch persistent.db batch reported,
        .insertBatch (fun _ => ⟨changed, changes, reports⟩) ?_⟩
      rw [insertBatch, nonempty, if_neg Bool.false_ne_true, collisions_eq_ok_iff.mpr inserted]
      rfl

theorem Sound.step {persistent next : Persistent DEPTH V} {call : Call DEPTH V}
    (positive : 0 < DEPTH) (sound : persistent.Sound merge)
    (taken : Step merge tempNoir persistent call next) : next.Sound merge := by
  cases taken with
  | @insertBatch batch built _ changes reports inserted =>
      unfold insertBatch at inserted
      split_ifs at inserted with empty
      · rwa [← pure_eq_ok_iff.mp inserted]
      · simp only [bind_eq_ok_iff, collisions_eq_ok_iff, pure_eq_ok_iff] at inserted
        rcases inserted with ⟨tree, applied, rfl⟩
        rcases CachedTree.insertBatch_eq_ok sound.tree.truthful applied with ⟨plain, truthful⟩
        have slots := built.claimed.nodup
        have wellFormed := sound.tree.wellFormed.insertBatch positive slots plain
        have distinct : batch.insertElements.Nodup := by
          rw [Batch.slots, List.map_append] at slots
          exact List.Nodup.of_map _ (List.nodup_append.mp slots).1
        rcases reports (Bool.eq_false_iff.mpr empty) with ⟨changed, _, reported⟩
        refine ⟨⟨wellFormed, truthful⟩, ?_, ?_⟩
        · intro element mem
          rw [Tree.entries_of_insertBatch plain, Tree.mem_entriesAfter] at mem
          rcases mem with ⟨_, inserted | old⟩
          · exact built.narrow (List.ne_nil_of_mem (List.mem_append_left _ inserted))
          · exact sound.narrow element old
        · rw [Tree.entries_of_insertBatch plain]
          exact sound.mirrors.writeBatch distinct fun known mem =>
            reported.of_set wellFormed.clean mem
  | persistHashes persisted =>
      rcases sound.mirrors.synchronizeHashes sound.tree.wellFormed.clean with
        ⟨written, synchronized, mirrors⟩
      rw [persistHashes, synchronized, ok_bind] at persisted
      obtain rfl := pure_eq_ok_iff.mp persisted
      exact ⟨sound.tree, sound.narrow, mirrors⟩
  | load loaded => exact (load_sound positive sound.mirrors.hashes loaded).1

theorem sound_of_run {start persistent : Persistent DEPTH V} {calls : List (Call DEPTH V)}
    (positive : 0 < DEPTH) (opened : Opened merge tempNoir start)
    (run : Run (Step merge tempNoir) start calls persistent) : persistent.Sound merge := by
  induction run with
  | nil => exact opened.sound positive
  | snoc _ taken ih => exact ih.step positive taken

/-- The database of a sound tree loads to the same elements, metadata and root. -/
theorem Sound.exists_loadTree {persistent : Persistent DEPTH V} (positive : 0 < DEPTH)
    (sound : persistent.Sound merge) :
    ∃ loaded : CachedTree DEPTH V SimpleHashCache,
      loadTree merge tempNoir persistent.db = .ok loaded ∧
        (∀ element : Element,
          loaded.tree.entries[element]? = persistent.tree.tree.entries[element]?) ∧
        loaded.tree.rootHash merge = persistent.tree.tree.rootHash merge := by
  rcases sound.mirrors.exists_loadTree positive sound.tree.wellFormed sound.narrow with ⟨loaded, load⟩
  rcases sound.mirrors.hashes.of_loadTree positive load with ⟨mirrors, loadedSound, _⟩
  have same := mirrors.unique sound.mirrors
  refine ⟨loaded, load, same, ?_⟩
  rw [loadedSound.wellFormed.rootHash_eq_sparseRoot,
    sound.tree.wellFormed.rootHash_eq_sparseRoot]
  congr 1
  ext element
  rw [Set.mem_ofPred_eq, Set.mem_ofPred_eq, ← Std.TreeMap.isSome_getElem?_iff_mem,
    ← Std.TreeMap.isSome_getElem?_iff_mem, same]

/-- Whatever is inserted, removed and persisted, the database loads to the same
tree again and all hashes in it are true. -/
theorem loadTree_of_run {start persistent : Persistent DEPTH V} {calls : List (Call DEPTH V)}
    (positive : 0 < DEPTH) (opened : Opened merge tempNoir start)
    (run : Run (Step merge tempNoir) start calls persistent) :
    (∃ loaded : CachedTree DEPTH V SimpleHashCache,
      loadTree merge tempNoir persistent.db = .ok loaded ∧
        (∀ element : Element,
          loaded.tree.entries[element]? = persistent.tree.tree.entries[element]?) ∧
        loaded.tree.rootHash merge = persistent.tree.tree.rootHash merge) ∧
      ∀ (left right : Element) (value : ValueFormat V),
        persistent.db[KeyFormat.v2 (.knownHash left right)]? = some value →
          value = .v2 (.knownHash (merge left right)) := by
  have sound := sound_of_run positive opened run
  exact ⟨sound.exists_loadTree positive, sound.mirrors.hashes⟩

/-- An element and the hashes above it, loaded with its metadata. -/
theorem oneElement_loaded :
    ∃ (batch : Batch 161 Nat) (built : batch.Built) (persistent : Persistent 161 Nat)
      (loaded : CachedTree 161 Nat SimpleHashCache),
      Run (Step (· + ·) false) new [.insertBatch batch built, .persistHashes] persistent ∧
        loadTree (· + ·) false persistent.db = .ok loaded ∧ loaded.tree.entries[(1 : Element)]? = some 7 := by
  have positive : 0 < 161 := by decide
  have opened : Opened (· + ·) false (new : Persistent 161 Nat) := .new
  have inserted : ({} : Batch 161 Nat).insert ((1 : Element), 7).1 ((1 : Element), 7).2 =
      .ok (({} : Batch 161 Nat).push (1, 7)) :=
    Batch.insert_eq_ok_iff.mpr ⟨by decide, List.not_mem_nil, rfl⟩
  have fits : (Tree.new : Tree 161 Nat).Fits (({} : Batch 161 Nat).push (1, 7)) := by
    constructor
    · simp [Batch.push, Batch.insertElements, Batch.slots]
    · simp [Batch.push, Batch.insertElements]
    · rintro ⟨_, _, other, mem, _⟩
      exact absurd mem Std.TreeMap.not_mem_emptyc
    · intro other mem
      exact absurd mem List.not_mem_nil
  rcases fits.insertBatch_eq_ok false positive
    (Tree.new_wellFormed positive : Tree.new.WellFormed (· + ·)) rfl with ⟨after, applied, _, entries, _⟩
  rcases CachedTree.exists_insertBatch (opened.sound positive).tree.truthful applied with
    ⟨tree, treeInserted, rfl⟩
  rcases exists_step_insertBatch (.insert .new inserted) rfl treeInserted with ⟨db, first⟩
  have sound := (opened.sound positive).step positive first
  rcases sound.mirrors.synchronizeHashes sound.tree.wellFormed.clean with ⟨written, persisted, _⟩
  have second : Step (· + ·) false (⟨tree, db⟩ : Persistent 161 Nat) .persistHashes ⟨tree, written⟩ := by
    apply Step.persistHashes
    rw [persistHashes, persisted]
    rfl
  have run := Run.snoc (.snoc .nil first) second
  rcases (loadTree_of_run positive opened run).1 with ⟨loaded, load, same, _⟩
  refine ⟨_, _, _, loaded, run, load, ?_⟩
  rw [same, entries]
  rfl

end Persistent

end Ciphera.Smirk.Storage
