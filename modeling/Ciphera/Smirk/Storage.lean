import Ciphera.Smirk.HashCache

/-!
# The tree in its database

A persistent tree writes every batch through to a key-value database and is
loaded from there again.  The database holds records of two formats: older ones
have an element as key and its metadata as value, newer ones say of either what
they are, and also keep hashes that have been computed.  The loader trusts these
hashes.

The records mirror the tree when each element has one of them, of either format,
and each hash is a true one.  Every single write keeps this up, and so do the
writes that follow a batch.
-/

namespace Ciphera.Smirk.Storage

open Ciphera.Lib

/-! ## Records -/

/-- Keys of the second format: elements, and pairs whose hash is known. -/
inductive KeyV2
  | element (element : Element)
  | knownHash (left right : Element)
  deriving DecidableEq, Hashable, Repr

/-- The keys of both formats, which one database may hold side by side. -/
inductive KeyFormat
  | v1 (element : Element)
  | v2 (key : KeyV2)
  deriving DecidableEq, Hashable, Repr

/-- Values of the second format, one kind for each kind of keys. -/
inductive ValueV2 (V : Type)
  | metadata (metadata : V)
  | knownHash (result : Element)
  deriving DecidableEq, Repr

/-- The values of both formats. -/
inductive ValueFormat (V : Type)
  | v1 (metadata : V)
  | v2 (value : ValueV2 V)
  deriving DecidableEq, Repr

/-- The records, in no particular order. -/
abbrev Database (V : Type) := Std.HashMap KeyFormat (ValueFormat V)

/-- Why a tree cannot be loaded or changed. -/
inductive Error
  | collision (failure : CollisionError)
  | databaseConsistency
  deriving DecidableEq, Repr

/-- What a record means. -/
inductive RocksbEntry (V : Type)
  | smirkKv (key : Element) (value : V)
  | knownHash (hash : KnownHash)
  deriving DecidableEq, Repr

section

variable {DEPTH : Nat} {V : Type}

/-- A collision of the tree as an error of the database. -/
def collisions {α : Type} : Except (Stop CollisionError) α → Except (Stop Error) α
  | .ok result => .ok result
  | .error (.error failure) => .error (.error (.collision failure))
  | .error (.panic message) => .error (.panic message)

/-- What a record says, if its value is of the kind that its key asks for. -/
def entry (record : KeyFormat × ValueFormat V) : Except (Stop Error) (RocksbEntry V) :=
  match record.1, record.2 with
  | .v1 key, .v1 metadata => pure (.smirkKv key metadata)
  | .v1 key, .v2 (.metadata metadata) => pure (.smirkKv key metadata)
  | .v2 (.element key), .v1 metadata => pure (.smirkKv key metadata)
  | .v2 (.element key), .v2 (.metadata metadata) => pure (.smirkKv key metadata)
  | .v2 (.knownHash left right), .v2 (.knownHash result) =>
      pure (.knownHash ⟨left, right, result⟩)
  | _, _ => .error (.error .databaseConsistency)

/-- The known hash of a record. -/
def RocksbEntry.hash? : RocksbEntry V → Option KnownHash
  | smirkKv _ _ => none
  | knownHash hash => some hash

/-- The element of a record, with its metadata. -/
def RocksbEntry.kv? : RocksbEntry V → Option (Element × V)
  | smirkKv key value => some (key, value)
  | knownHash _ => none

/-! ## Loading -/

/-- The cache looks the hashes up in the order of their keys. -/
def provideKnownHashes (cache : SimpleHashCache) (hashes : List KnownHash) :
    Except (Stop Error) SimpleHashCache := do
  check (cache.initial.isEmpty = true)
    (.panic "provide_known_hashes should only be called once")
  pure { cache with initial := hashes.mergeSort fun first second =>
    first.left < second.left || (first.left = second.left && first.right ≤ second.right) }

variable (merge : Element → Element → Element) (tempNoir : Bool)

/-- The tree with all elements of the database, hashed with the help of the known hashes. -/
def loadTree (db : Database V) :
    Except (Stop Error) (CachedTree DEPTH V SimpleHashCache) := do
  let entries ← db.toList.mapM entry
  let cache ← provideKnownHashes {} (entries.filterMap RocksbEntry.hash?)
  let batch ← collisions (Batch.fromEntries (entries.filterMap RocksbEntry.kv?) [])
  collisions ((CachedTree.newWithCache cache).insertBatch merge (SimpleHashCache.hash merge) tempNoir
    batch)

/-! ## Hashes that change -/

/-- What the callbacks of `recalculate_hashes` report. -/
inductive HashChange
  | remove (left right : Element)
  | set (known : KnownHash)
  deriving DecidableEq, Repr

/-- The halves below a node are recomputed at the same time, so that what they
report may alternate in any way. -/
inductive Interleaves : List HashChange → List HashChange → List HashChange → Prop
  | nil : Interleaves [] [] []
  | left {change : HashChange} {lefts rights both : List HashChange} :
      Interleaves lefts rights both → Interleaves (change :: lefts) rights (change :: both)
  | right {change : HashChange} {lefts rights both : List HashChange} :
      Interleaves lefts rights both → Interleaves lefts (change :: rights) (change :: both)

/-- What recomputing a node may report.  A marked node reports the hashes its
children had before and, once both are recomputed, those they have then. -/
inductive Reports : Node → Node → List HashChange → Prop
  | leaf {element : Element} : Reports (.leaf element) (.leaf element) []
  | empty {depth : Nat} : Reports (.empty depth) (.empty depth) []
  | clean {left right : Node} {hash : Element} :
      Reports (.parent left right hash false) (.parent left right hash false) []
  | dirty {left right newLeft newRight : Node} {hash newHash : Element}
      {lefts rights both : List HashChange} :
      Reports left newLeft lefts → Reports right newRight rights → Interleaves lefts rights both →
      Reports (.parent left right hash true) (.parent newLeft newRight newHash false)
        (.remove (left.hash merge) (right.hash merge) :: both ++
          [.set ⟨newLeft.hash merge, newRight.hash merge, newHash⟩])

/-- The last report for every pair of hashes. -/
def hashChanges (changes : List HashChange) : Std.HashMap (Element × Element) (Option Element) :=
  changes.foldl (fun map change =>
    match change with
    | .remove left right => map.insert (left, right) none
    | .set known => map.insert (known.left, known.right) (some known.result)) ∅

/-! ## Writing -/

/-- Write an element in the second format, and drop it in the first. -/
def putEntry (db : Database V) (pair : Element × V) : Database V :=
  (db.insert (.v2 (.element pair.1)) (.v2 (.metadata pair.2))).erase (.v1 pair.1)

/-- Drop an element in both formats. -/
def deleteEntry (db : Database V) (element : Element) : Database V :=
  (db.erase (.v2 (.element element))).erase (.v1 element)

/-- Drop the known hash of a pair. -/
def deleteHash (db : Database V) (pair : Element × Element) : Database V :=
  db.erase (.v2 (.knownHash pair.1 pair.2))

/-- Write the known hash of a pair. -/
def putHash (db : Database V) (known : KnownHash) : Database V :=
  db.insert (.v2 (.knownHash known.left known.right)) (.v2 (.knownHash known.result))

/-- The write that follows a batch. -/
def writeBatch (db : Database V) (batch : Batch DEPTH V) (changes : List HashChange) :
    Database V :=
  let newKvPairs := (Std.HashMap.ofList batch.entries).toList
  let hashes := (hashChanges changes).toList
  let hashesToRemove := hashes.filterMap fun change =>
    if change.2.isNone then some change.1 else none
  let hashesToInsert := hashes.filterMap fun change =>
    change.2.map (KnownHash.mk change.1.1 change.1.2)
  hashesToInsert.foldl putHash (hashesToRemove.foldl deleteHash
    (batch.removeEntries.foldl deleteEntry (newKvPairs.foldl putEntry db)))

/-- The hashes below a node, from the top. -/
def knownHashes : Node → Except (Stop Error) (List KnownHash)
  | .leaf _ => pure []
  | .empty _ => pure []
  | .parent left right hash hashDirty => do
      check (hashDirty = false) (.panic "hash should never be dirty in normal use")
      let lefts ← knownHashes left
      let rights ← knownHashes right
      pure (⟨left.hash merge, right.hash merge, hash⟩ :: (lefts ++ rights))

/-- Add the hashes of the nodes that are not in the database. -/
def synchronizeHashes (db : Database V) (node : Node) : Except (Stop Error) (Database V) := do
  let inMemoryHashes ← knownHashes merge node
  let missing := inMemoryHashes.filter fun known =>
    match db[KeyFormat.v2 (.knownHash known.left known.right)]? with
    | some (.v2 (.knownHash result)) => result ≠ known.result
    | _ => true
  pure (missing.foldl putHash db)

end

/-! ## The persistent tree -/

/-- A tree and the database that it is kept in. -/
structure Persistent (DEPTH : Nat) (V : Type) where
  tree : CachedTree DEPTH V SimpleHashCache
  db : Database V

/-- The calls that change the tree or the database; a tree may also be dropped and
loaded again. -/
inductive Call (DEPTH : Nat) (V : Type)
  | insertBatch (batch : Batch DEPTH V) (built : batch.Built)
  | persistHashes
  | load

namespace Persistent

variable {DEPTH : Nat} {V : Type} (merge : Element → Element → Element) (tempNoir : Bool)

/-- A tree without elements in a new database. -/
def new : Persistent DEPTH V := ⟨CachedTree.newWithCache {}, ∅⟩

/-- The tree that a database holds, together with the database. -/
def load (db : Database V) : Except (Stop Error) (Persistent DEPTH V) := do
  let tree ← loadTree merge tempNoir db
  pure ⟨tree, db⟩

/-- Insert a batch while recomputing the hashes has reported `changes`. -/
def insertBatch (persistent : Persistent DEPTH V) (batch : Batch DEPTH V)
    (changes : List HashChange) : Except (Stop Error) (Persistent DEPTH V) :=
  if batch.isEmpty then pure persistent
  else do
    let tree ← collisions
      (persistent.tree.insertBatch merge (SimpleHashCache.hash merge) tempNoir batch)
    pure ⟨tree, writeBatch persistent.db batch changes⟩

/-- Bring the known hashes of the database up to date with the tree. -/
def persistHashes (persistent : Persistent DEPTH V) : Except (Stop Error) (Persistent DEPTH V) := do
  let db ← synchronizeHashes merge persistent.db persistent.tree.tree.tree
  pure { persistent with db := db }

/-- A call that succeeds. -/
inductive Step (persistent : Persistent DEPTH V) : Call DEPTH V → Persistent DEPTH V → Prop
  | insertBatch {batch : Batch DEPTH V} {built : batch.Built} {next : Persistent DEPTH V}
      {changes : List HashChange} :
      (batch.isEmpty = false → ∃ changed : Tree DEPTH V,
        persistent.tree.tree.insertWithoutHashing merge batch = .ok changed ∧
          Reports merge changed.tree next.tree.tree.tree changes) →
      persistent.insertBatch merge tempNoir batch changes = .ok next →
      Step persistent (.insertBatch batch built) next
  | persistHashes {next : Persistent DEPTH V} :
      persistent.persistHashes merge = .ok next → Step persistent .persistHashes next
  | load {next : Persistent DEPTH V} :
      load merge tempNoir persistent.db = .ok next → Step persistent .load next

/-- The records of an older version: elements with their metadata. -/
def OldFormat (db : Database V) : Prop :=
  ∀ key value, db[key]? = some value →
    ∃ element metadata, key = KeyFormat.v1 element ∧ value = ValueFormat.v1 metadata

/-- A tree in a new database or loaded from one in the older format. -/
inductive Opened : Persistent DEPTH V → Prop
  | new : Opened new
  | load {db : Database V} {persistent : Persistent DEPTH V} :
      OldFormat db → load merge tempNoir db = .ok persistent → Opened persistent

end Persistent

/-! ## What the records say -/

section

variable {V : Type}

/-- The element that a key is about. -/
def KeyFormat.element? : KeyFormat → Option Element
  | v1 element => some element
  | v2 (.element element) => some element
  | v2 (.knownHash _ _) => none

/-- The metadata of a value, in either format. -/
def ValueFormat.metadata? : ValueFormat V → Option V
  | v1 metadata => some metadata
  | v2 (.metadata metadata) => some metadata
  | v2 (.knownHash _) => none

@[simp]
theorem KeyFormat.element?_eq_some_iff {key : KeyFormat} {element : Element} :
    key.element? = some element ↔ key = .v2 (.element element) ∨ key = .v1 element := by
  fun_cases KeyFormat.element? <;> simp [eq_comm]

@[simp]
theorem entry_eq_smirkKv_iff {record : KeyFormat × ValueFormat V} {key : Element} {value : V} :
    entry record = .ok (.smirkKv key value) ↔
      record.1.element? = some key ∧ record.2.metadata? = some value := by
  obtain ⟨keyFormat, valueFormat⟩ := record
  cases keyFormat with
  | v1 element => cases valueFormat with
    | v1 metadata => simp [entry, KeyFormat.element?, ValueFormat.metadata?]
    | v2 value => cases value <;> simp [entry, KeyFormat.element?, ValueFormat.metadata?]
  | v2 key => cases key with
    | element element => cases valueFormat with
      | v1 metadata => simp [entry, KeyFormat.element?, ValueFormat.metadata?]
      | v2 value => cases value <;> simp [entry, KeyFormat.element?, ValueFormat.metadata?]
    | knownHash left right => cases valueFormat with
      | v1 metadata => simp [entry, KeyFormat.element?]
      | v2 value => cases value <;> simp [entry, KeyFormat.element?]

@[simp]
theorem entry_eq_knownHash_iff {record : KeyFormat × ValueFormat V} {hash : KnownHash} :
    entry record = .ok (.knownHash hash) ↔
      record = (.v2 (.knownHash hash.left hash.right), .v2 (.knownHash hash.result)) := by
  obtain ⟨keyFormat, valueFormat⟩ := record
  obtain ⟨hashLeft, hashRight, result⟩ := hash
  cases keyFormat with
  | v1 element => cases valueFormat with
    | v1 metadata => simp [entry]
    | v2 value => cases value <;> simp [entry]
  | v2 key => cases key with
    | element element => cases valueFormat with
      | v1 metadata => simp [entry]
      | v2 value => cases value <;> simp [entry]
    | knownHash left right => cases valueFormat with
      | v1 metadata => simp [entry]
      | v2 value => cases value <;> simp [entry, and_assoc]

/-- Every stored hash is that of the pair in its key. -/
def TrueHashes (merge : Element → Element → Element) (db : Database V) : Prop :=
  ∀ (left right : Element) (value : ValueFormat V),
    db[KeyFormat.v2 (.knownHash left right)]? = some value →
      value = .v2 (.knownHash (merge left right))

/-- The records are those of the elements of a tree, one for each, and true
hashes. -/
structure Mirrors (merge : Element → Element → Element) (db : Database V)
    (entries : Std.TreeMap Element V) : Prop where
  element : ∀ {key : KeyFormat} {value : ValueFormat V} {element : Element},
    key.element? = some element → db[key]? = some value →
      ∃ metadata, value.metadata? = some metadata ∧ entries[element]? = some metadata
  stored : ∀ {element : Element} {metadata : V}, entries[element]? = some metadata →
    ∃ key : KeyFormat, key.element? = some element ∧ ∃ value, db[key]? = some value
  once : ∀ {first second : KeyFormat} {element : Element} {value other : ValueFormat V},
    first.element? = some element → second.element? = some element →
      db[first]? = some value → db[second]? = some other → first = second
  hashes : TrueHashes merge db

end

/-! ## What a write does -/

section

variable {V : Type} (db : Database V)

@[simp]
theorem getElem?_putEntry (pair : Element × V) (key : KeyFormat) :
    (putEntry db pair)[key]? =
      if key.element? = some pair.1 then
        if key = .v2 (.element pair.1) then some (.v2 (.metadata pair.2)) else none
      else db[key]? := by
  rw [putEntry, Std.HashMap.getElem?_erase, Std.HashMap.getElem?_insert]
  by_cases about : key.element? = some pair.1
  · rcases KeyFormat.element?_eq_some_iff.mp about with rfl | rfl <;> simp [about]
  · have differ := about
    rw [KeyFormat.element?_eq_some_iff, not_or] at differ
    simp [about, Ne.symm differ.1, Ne.symm differ.2]

@[simp]
theorem getElem?_deleteEntry (element : Element) (key : KeyFormat) :
    (deleteEntry db element)[key]? = if key.element? = some element then none else db[key]? := by
  rw [deleteEntry, Std.HashMap.getElem?_erase, Std.HashMap.getElem?_erase]
  by_cases about : key.element? = some element
  · rcases KeyFormat.element?_eq_some_iff.mp about with rfl | rfl <;> simp [about]
  · have differ := about
    rw [KeyFormat.element?_eq_some_iff, not_or] at differ
    simp [about, Ne.symm differ.1, Ne.symm differ.2]

@[simp]
theorem getElem?_deleteHash (pair : Element × Element) (key : KeyFormat) :
    (deleteHash db pair)[key]? =
      if key = .v2 (.knownHash pair.1 pair.2) then none else db[key]? := by
  rw [deleteHash, Std.HashMap.getElem?_erase]
  exact if_congr (beq_iff_eq.trans eq_comm) rfl rfl

@[simp]
theorem getElem?_putHash (known : KnownHash) (key : KeyFormat) :
    (putHash db known)[key]? =
      if key = .v2 (.knownHash known.left known.right) then some (.v2 (.knownHash known.result))
      else db[key]? := by
  rw [putHash, Std.HashMap.getElem?_insert]
  exact if_congr (beq_iff_eq.trans eq_comm) rfl rfl

variable {db} {merge : Element → Element → Element} {entries : Std.TreeMap Element V}

theorem Mirrors.putEntry (mirrors : Mirrors merge db entries) (pair : Element × V) :
    Mirrors merge (putEntry db pair) (entries.insert pair.1 pair.2) where
  element := by
    intro key value element about found
    rw [getElem?_putEntry] at found
    rw [getElem?_insert_eq]
    by_cases same : pair.1 = element
    · subst same
      rw [if_pos about] at found
      split_ifs at found
      obtain rfl := Option.some.inj found
      exact ⟨pair.2, rfl, if_pos rfl⟩
    · have other : key.element? ≠ some pair.1 := by
        rw [about]
        exact fun equal => same (Option.some.inj equal).symm
      rw [if_neg other] at found
      rw [if_neg same]
      exact mirrors.element about found
  stored := by
    intro element metadata found
    rw [getElem?_insert_eq] at found
    by_cases same : pair.1 = element
    · subst same
      exact ⟨.v2 (.element pair.1), rfl, .v2 (.metadata pair.2), by
        simp [getElem?_putEntry, KeyFormat.element?]⟩
    · rw [if_neg same] at found
      rcases mirrors.stored found with ⟨key, about, value, atKey⟩
      have other : key.element? ≠ some pair.1 := by
        rw [about]
        exact fun equal => same (Option.some.inj equal).symm
      exact ⟨key, about, value, by rw [getElem?_putEntry, if_neg other, atKey]⟩
  once := by
    intro first second element value other aboutFirst aboutSecond atFirst atSecond
    rw [getElem?_putEntry] at atFirst atSecond
    rw [aboutFirst] at atFirst
    rw [aboutSecond] at atSecond
    split_ifs at atFirst atSecond with same isFirst isSecond
    · rw [isFirst, isSecond]
    · exact mirrors.once aboutFirst aboutSecond atFirst atSecond
  hashes := by
    intro left right value found
    rw [getElem?_putEntry, if_neg (by simp [KeyFormat.element?])] at found
    exact mirrors.hashes left right value found

theorem Mirrors.deleteEntry (mirrors : Mirrors merge db entries) (removed : Element) :
    Mirrors merge (deleteEntry db removed) (entries.erase removed) where
  element := by
    intro key value element about found
    rw [getElem?_deleteEntry, about] at found
    rw [getElem?_erase_eq]
    split_ifs at found with same
    rw [if_neg fun equal => same (congrArg some equal.symm)]
    exact mirrors.element about found
  stored := by
    intro element metadata found
    rw [getElem?_erase_eq] at found
    split_ifs at found with same
    rcases mirrors.stored found with ⟨key, about, value, atKey⟩
    refine ⟨key, about, value, ?_⟩
    rw [getElem?_deleteEntry, about, if_neg fun equal => same (Option.some.inj equal).symm, atKey]
  once := by
    intro first second element value other aboutFirst aboutSecond atFirst atSecond
    rw [getElem?_deleteEntry] at atFirst atSecond
    split_ifs at atFirst atSecond
    exact mirrors.once aboutFirst aboutSecond atFirst atSecond
  hashes := by
    intro left right value found
    rw [getElem?_deleteEntry, if_neg (by simp [KeyFormat.element?])] at found
    exact mirrors.hashes left right value found

/-- A write that leaves the records of elements alone and keeps the hashes true. -/
theorem Mirrors.of_frame {written : Database V} (mirrors : Mirrors merge db entries)
    (frame : ∀ key : KeyFormat, key.element? ≠ none → written[key]? = db[key]?)
    (hashes : TrueHashes merge written) : Mirrors merge written entries where
  element := by
    intro key value element about found
    rw [frame key (by simp [about])] at found
    exact mirrors.element about found
  stored := by
    intro element metadata found
    rcases mirrors.stored found with ⟨key, about, value, atKey⟩
    exact ⟨key, about, value, by rw [frame key (by simp [about]), atKey]⟩
  once := by
    intro first second element value other aboutFirst aboutSecond atFirst atSecond
    rw [frame first (by simp [aboutFirst])] at atFirst
    rw [frame second (by simp [aboutSecond])] at atSecond
    exact mirrors.once aboutFirst aboutSecond atFirst atSecond
  hashes := hashes

theorem Mirrors.deleteHash (mirrors : Mirrors merge db entries) (pair : Element × Element) :
    Mirrors merge (deleteHash db pair) entries := by
  apply mirrors.of_frame
  · intro key isElement
    rw [getElem?_deleteHash, if_neg]
    rintro rfl
    exact isElement rfl
  · intro left right value found
    rw [getElem?_deleteHash] at found
    split_ifs at found
    exact mirrors.hashes left right value found

theorem Mirrors.putHash (mirrors : Mirrors merge db entries) {known : KnownHash}
    (isTrue : known.result = merge known.left known.right) :
    Mirrors merge (putHash db known) entries := by
  apply mirrors.of_frame
  · intro key isElement
    rw [getElem?_putHash, if_neg]
    rintro rfl
    exact isElement rfl
  · intro left right value found
    rw [getElem?_putHash] at found
    split_ifs at found with same
    · obtain rfl := Option.some.inj found
      simp only [KeyFormat.v2.injEq, KeyV2.knownHash.injEq] at same
      rw [isTrue, same.1, same.2]
    · exact mirrors.hashes left right value found

theorem Mirrors.congr {others : Std.TreeMap Element V} (mirrors : Mirrors merge db entries)
    (same : ∀ element : Element, entries[element]? = others[element]?) :
    Mirrors merge db others where
  element := by
    intro key value element about found
    rw [← same]
    exact mirrors.element about found
  stored := by
    intro element metadata found
    exact mirrors.stored ((same element).trans found)
  once := mirrors.once
  hashes := mirrors.hashes

/-- The records determine the elements and their metadata. -/
theorem Mirrors.unique {others : Std.TreeMap Element V} (mirrors : Mirrors merge db entries)
    (mirrorsOthers : Mirrors merge db others) (element : Element) :
    entries[element]? = others[element]? := by
  have subset : ∀ {first second : Std.TreeMap Element V}, Mirrors merge db first →
      Mirrors merge db second → ∀ metadata : V, first[element]? = some metadata →
        second[element]? = some metadata := by
    intro first second ofFirst ofSecond metadata found
    rcases ofFirst.stored found with ⟨key, about, value, atKey⟩
    rcases ofFirst.element about atKey with ⟨read, valueRead, inFirst⟩
    rcases ofSecond.element about atKey with ⟨again, valueAgain, inSecond⟩
    rw [inSecond, ← valueAgain, valueRead, ← inFirst, found]
  apply Option.ext
  intro metadata
  exact ⟨subset mirrors mirrorsOthers metadata, subset mirrorsOthers mirrors metadata⟩

end

/-! ## Hashes that change -/

section

variable {merge : Element → Element → Element}

theorem Interleaves.mem {lefts rights both : List HashChange}
    (interleaves : Interleaves lefts rights both) {change : HashChange} (mem : change ∈ both) :
    change ∈ lefts ∨ change ∈ rights := by
  induction interleaves with
  | nil => exact absurd mem List.not_mem_nil
  | left _ ih =>
      rcases List.mem_cons.mp mem with rfl | later
      · exact .inl List.mem_cons_self
      · exact (ih later).imp_left (List.mem_cons_of_mem _)
  | right _ ih =>
      rcases List.mem_cons.mp mem with rfl | later
      · exact .inr List.mem_cons_self
      · exact (ih later).imp_right (List.mem_cons_of_mem _)

/-- The halves may be recomputed one after the other. -/
theorem Interleaves.append (lefts rights : List HashChange) :
    Interleaves lefts rights (lefts ++ rights) := by
  induction lefts with
  | cons change lefts ih => exact .left ih
  | nil =>
      induction rights with
      | nil => exact .nil
      | cons change rights ih => exact .right ih

/-- The hashes reported as set are those of the recomputed nodes. -/
theorem Reports.of_set {node after : Node} {changes : List HashChange}
    (reports : Reports merge node after changes) (clean : after.Clean merge) {known : KnownHash}
    (mem : .set known ∈ changes) : known.result = merge known.left known.right := by
  induction reports with
  | leaf => exact absurd mem List.not_mem_nil
  | empty => exact absurd mem List.not_mem_nil
  | clean => exact absurd mem List.not_mem_nil
  | dirty _ _ interleaves leftIH rightIH =>
      rcases clean with ⟨_, hashEq, leftClean, rightClean⟩
      simp only [List.cons_append, List.mem_cons, reduceCtorEq, false_or, List.mem_append,
        HashChange.set.injEq, List.not_mem_nil, or_false] at mem
      rcases mem with between | rfl
      · rcases interleaves.mem between with inLeft | inRight
        · exact leftIH leftClean inLeft
        · exact rightIH rightClean inRight
      · exact hashEq

/-- Recomputing always reports something in this way. -/
theorem exists_reports {C : Type} (hash : CacheHash C) (node : Node) (cache : C) :
    ∃ changes, Reports merge node (node.recalculateHashesWith merge hash cache).1 changes := by
  induction node generalizing cache with
  | leaf element => exact ⟨[], .leaf⟩
  | empty depth => exact ⟨[], .empty⟩
  | parent left right cached hashDirty leftIH rightIH =>
      unfold Node.recalculateHashesWith
      cases hashDirty with
      | false => exact ⟨[], .clean⟩
      | true =>
          rcases leftIH cache with ⟨lefts, leftReports⟩
          rcases rightIH (left.recalculateHashesWith merge hash cache).2 with
            ⟨rights, rightReports⟩
          exact ⟨_, .dirty leftReports rightReports (.append lefts rights)⟩

/-- A hash to be inserted was reported as set. -/
theorem mem_of_hashChanges {changes : List HashChange} {pair : Element × Element}
    {result : Element} (found : (hashChanges changes)[pair]? = some (some result)) :
    .set ⟨pair.1, pair.2, result⟩ ∈ changes := by
  induction changes using List.reverseRecOn with
  | nil => simp [hashChanges] at found
  | append_singleton changes change ih =>
      rw [hashChanges, List.foldl_append, List.foldl_cons, List.foldl_nil] at found
      apply List.mem_append.mpr
      cases change with
      | remove left right =>
          rw [Std.HashMap.getElem?_insert] at found
          split_ifs at found
          · cases found
          · exact .inl (ih found)
      | set known =>
          rw [Std.HashMap.getElem?_insert] at found
          split_ifs at found with same
          · rw [← eq_of_beq same, ← Option.some.inj (Option.some.inj found)]
            exact .inr List.mem_cons_self
          · exact .inl (ih found)

/-- Nodes without stale hashes can be persisted, and their hashes are true. -/
theorem exists_knownHashes {node : Node} (clean : node.Clean merge) :
    ∃ hashes, knownHashes merge node = .ok hashes ∧
      ∀ known ∈ hashes, known.result = merge known.left known.right := by
  induction node with
  | leaf element => exact ⟨[], rfl, by simp⟩
  | empty depth => exact ⟨[], rfl, by simp⟩
  | parent left right hash hashDirty leftIH rightIH =>
      rcases clean with ⟨notDirty, hashEq, leftClean, rightClean⟩
      rcases leftIH leftClean with ⟨lefts, leftKnown, leftTrue⟩
      rcases rightIH rightClean with ⟨rights, rightKnown, rightTrue⟩
      refine ⟨⟨left.hash merge, right.hash merge, hash⟩ :: (lefts ++ rights), ?_, ?_⟩
      · rw [knownHashes, check_of _ notDirty, ok_bind, leftKnown, ok_bind, rightKnown, ok_bind]
        rfl
      · intro known mem
        rcases List.mem_cons.mp mem with rfl | below
        · exact hashEq
        · rcases List.mem_append.mp below with inLeft | inRight
          · exact leftTrue known inLeft
          · exact rightTrue known inRight

end

/-! ## What a batch writes -/

section

variable {DEPTH : Nat} {V : Type} {merge : Element → Element → Element} {db : Database V}
  {entries : Std.TreeMap Element V}

theorem Mirrors.foldl_putEntry (mirrors : Mirrors merge db entries) (pairs : List (Element × V)) :
    Mirrors merge (pairs.foldl Storage.putEntry db)
      (pairs.foldl (fun entries pair => entries.insert pair.1 pair.2) entries) := by
  induction pairs generalizing db entries with
  | nil => exact mirrors
  | cons pair pairs ih => exact ih (mirrors.putEntry pair)

theorem Mirrors.foldl_deleteEntry (mirrors : Mirrors merge db entries) (elements : List Element) :
    Mirrors merge (elements.foldl Storage.deleteEntry db)
      (elements.foldl (fun entries element => entries.erase element) entries) := by
  induction elements generalizing db entries with
  | nil => exact mirrors
  | cons element elements ih => exact ih (mirrors.deleteEntry element)

theorem Mirrors.foldl_deleteHash (mirrors : Mirrors merge db entries)
    (pairs : List (Element × Element)) :
    Mirrors merge (pairs.foldl Storage.deleteHash db) entries := by
  induction pairs generalizing db with
  | nil => exact mirrors
  | cons pair pairs ih => exact ih (mirrors.deleteHash pair)

theorem Mirrors.foldl_putHash (mirrors : Mirrors merge db entries) {hashes : List KnownHash}
    (areTrue : ∀ known ∈ hashes, known.result = merge known.left known.right) :
    Mirrors merge (hashes.foldl Storage.putHash db) entries := by
  induction hashes generalizing db with
  | nil => exact mirrors
  | cons known hashes ih =>
      rw [List.forall_mem_cons] at areTrue
      exact ih (mirrors.putHash areTrue.1) areTrue.2

/-- The records follow the tree through a batch. -/
theorem Mirrors.writeBatch {tree : Tree DEPTH V} (mirrors : Mirrors merge db tree.entries)
    {batch : Batch DEPTH V} (distinct : batch.insertElements.Nodup) {changes : List HashChange}
    (areTrue : ∀ known, .set known ∈ changes → known.result = merge known.left known.right) :
    Mirrors merge (writeBatch db batch changes) (tree.entriesAfter batch) := by
  have pairsPerm := toList_ofList_perm distinct
  have pairsDistinct : ((Std.HashMap.ofList batch.entries).toList.map Prod.fst).Nodup :=
    (pairsPerm.map Prod.fst).nodup_iff.mpr distinct
  have sameEntries : ∀ element : Element,
      (batch.removeEntries.foldl (fun entries element => entries.erase element)
        ((Std.HashMap.ofList batch.entries).toList.foldl
          (fun entries pair => entries.insert pair.1 pair.2) tree.entries))[element]? =
        (tree.entriesAfter batch)[element]? := by
    intro element
    rw [Tree.entriesAfter, getElem?_foldl_erase, getElem?_foldl_erase]
    congr 1
    apply Option.ext
    intro metadata
    rw [getElem?_foldl_insert_pairs pairsDistinct, getElem?_foldl_insert_pairs distinct,
      pairsPerm.mem_iff, (pairsPerm.map Prod.fst).mem_iff]
  have elements := ((mirrors.foldl_putEntry _).foldl_deleteEntry _).congr sameEntries
  have written := elements.foldl_deleteHash ((hashChanges changes).toList.filterMap fun change =>
    if change.2.isNone then some change.1 else none)
  apply written.foldl_putHash
  intro known mem
  rcases List.mem_filterMap.mp mem with ⟨⟨pair, result⟩, inMap, isSome⟩
  rcases Option.map_eq_some_iff.mp isSome with ⟨value, rfl, rfl⟩
  exact areTrue _ (mem_of_hashChanges (Std.HashMap.mem_toList_iff_getElem?_eq_some.mp inMap))

/-- Persisting the hashes of up-to-date nodes succeeds and keeps the mirror. -/
theorem Mirrors.synchronizeHashes (mirrors : Mirrors merge db entries) {node : Node}
    (clean : node.Clean merge) :
    ∃ written, synchronizeHashes merge db node = .ok written ∧ Mirrors merge written entries := by
  rcases exists_knownHashes clean with ⟨hashes, known, areTrue⟩
  rw [Storage.synchronizeHashes, known, ok_bind]
  refine ⟨_, rfl, mirrors.foldl_putHash ?_⟩
  intro hash mem
  exact areTrue hash (List.mem_filter.mp mem).1

end

end Ciphera.Smirk.Storage
