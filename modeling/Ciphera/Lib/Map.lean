import Mathlib.Data.List.Basic

/-!
# Finite maps

Membership in an ordered map after inserting or erasing a whole list of keys,
and lookups in association lists.
-/

namespace Ciphera.Lib

open Std

universe u v w

section Ordered

variable {κ : Type u} {ν : Type v} {ι : Type w} {cmp : κ → κ → Ordering} [TransCmp cmp]
  [LawfulEqCmp cmp]

@[simp]
theorem mem_foldl_insert (key : ι → κ) (value : ι → ν) (items : List ι) (map : TreeMap κ ν cmp)
    (wanted : κ) :
    wanted ∈ items.foldl (fun map item => map.insert (key item) (value item)) map ↔
      wanted ∈ items.map key ∨ wanted ∈ map := by
  induction items generalizing map with
  | nil => simp
  | cons item items ih =>
      rw [List.foldl_cons, ih, TreeMap.mem_insert, LawfulEqCmp.compare_eq_iff_eq, List.map_cons,
        List.mem_cons, eq_comm]
      exact or_left_comm.trans or_assoc.symm

@[simp]
theorem mem_foldl_erase (keys : List κ) (map : TreeMap κ ν cmp) (wanted : κ) :
    wanted ∈ keys.foldl (fun map key => map.erase key) map ↔ wanted ∉ keys ∧ wanted ∈ map := by
  induction keys generalizing map with
  | nil => simp
  | cons key keys ih =>
      rw [List.foldl_cons, ih, TreeMap.mem_erase, ne_eq, LawfulEqCmp.compare_eq_iff_eq,
        List.mem_cons, not_or, eq_comm]
      exact and_left_comm.trans and_assoc.symm

/-- Lookup after an insertion, with keys compared by equality. -/
theorem getElem?_insert_eq [DecidableEq κ] (map : TreeMap κ ν cmp) (key wanted : κ) (value : ν) :
    (map.insert key value)[wanted]? = if key = wanted then some value else map[wanted]? := by
  rw [TreeMap.getElem?_insert]
  exact if_congr LawfulEqCmp.compare_eq_iff_eq rfl rfl

/-- Lookup after an erasure, with keys compared by equality. -/
theorem getElem?_erase_eq [DecidableEq κ] (map : TreeMap κ ν cmp) (key wanted : κ) :
    (map.erase key)[wanted]? = if key = wanted then none else map[wanted]? := by
  rw [TreeMap.getElem?_erase]
  exact if_congr LawfulEqCmp.compare_eq_iff_eq rfl rfl

/-- Lookup after inserting one value at every key of a list. -/
theorem getElem?_foldl_insert [DecidableEq κ] (key : ι → κ) (value : ν) (items : List ι)
    (map : TreeMap κ ν cmp) (wanted : κ) :
    (items.foldl (fun map item => map.insert (key item) value) map)[wanted]? =
      if wanted ∈ items.map key then some value else map[wanted]? := by
  induction items generalizing map with
  | nil => simp
  | cons item items ih =>
      rw [List.foldl_cons, ih, getElem?_insert_eq, List.map_cons]
      by_cases later : wanted ∈ items.map key
      · rw [if_pos later, if_pos (List.mem_cons_of_mem _ later)]
      · by_cases same : key item = wanted
        · simp [same]
        · have absent : wanted ∉ key item :: items.map key := by
            rw [List.mem_cons, not_or]
            exact ⟨Ne.symm same, later⟩
          rw [if_neg later, if_neg same, if_neg absent]

/-- Lookup after inserting pairs with distinct keys. -/
theorem getElem?_foldl_insert_pairs [DecidableEq κ] {pairs : List (κ × ν)}
    (distinct : (pairs.map Prod.fst).Nodup) (map : TreeMap κ ν cmp) (wanted : κ) (value : ν) :
    (pairs.foldl (fun map pair => map.insert pair.1 pair.2) map)[wanted]? = some value ↔
      (wanted, value) ∈ pairs ∨ (wanted ∉ pairs.map Prod.fst ∧ map[wanted]? = some value) := by
  induction pairs generalizing map with
  | nil => simp
  | cons pair pairs ih =>
      obtain ⟨key, stored⟩ := pair
      rw [List.map_cons, List.nodup_cons] at distinct
      rw [List.foldl_cons, ih distinct.2, getElem?_insert_eq, List.map_cons]
      by_cases same : key = wanted
      · subst same
        have notLater : (key, value) ∉ pairs := fun later =>
          distinct.1 (List.mem_map.mpr ⟨_, later, rfl⟩)
        simp [notLater, distinct.1, eq_comm]
      · have differ : wanted ≠ key := fun equal => same equal.symm
        simp [same, differ]

/-- Lookup after erasing every key of a list. -/
theorem getElem?_foldl_erase [DecidableEq κ] (keys : List κ) (map : TreeMap κ ν cmp) (wanted : κ) :
    (keys.foldl (fun map key => map.erase key) map)[wanted]? =
      if wanted ∈ keys then none else map[wanted]? := by
  induction keys generalizing map with
  | nil => simp
  | cons key keys ih =>
      rw [List.foldl_cons, ih, getElem?_erase_eq]
      by_cases later : wanted ∈ keys
      · rw [if_pos later, if_pos (List.mem_cons_of_mem _ later)]
      · by_cases same : key = wanted
        · simp [same]
        · have absent : wanted ∉ key :: keys := by
            rw [List.mem_cons, not_or]
            exact ⟨Ne.symm same, later⟩
          rw [if_neg later, if_neg same, if_neg absent]

omit [TransCmp cmp] [LawfulEqCmp cmp] in
/-- The greatest entry is the last one in order. -/
theorem maxEntry?_eq_getLast?_toList (map : TreeMap κ ν cmp) :
    map.maxEntry? = map.toList.getLast? := by
  have ofNode : ∀ node : DTreeMap.Internal.Impl κ fun _ => ν,
      DTreeMap.Internal.Impl.Const.maxEntry? node =
        (node.toListModel.map fun entry => (entry.1, entry.2)).getLast? := by
    intro node
    induction node with
    | leaf => simp [DTreeMap.Internal.Impl.Const.maxEntry?]
    | inner size key value left right _ ih =>
        rw [DTreeMap.Internal.Impl.toListModel_inner]
        cases right with
        | leaf => simp [DTreeMap.Internal.Impl.Const.maxEntry?]
        | inner _ _ _ _ _ =>
            rw [DTreeMap.Internal.Impl.Const.maxEntry?, ih]
            simp [List.getLast?_append, List.getLast?_cons]
  have ofMap := ofNode map.inner.inner
  rw [← DTreeMap.Internal.Impl.Const.toList_eq_toListModel_map] at ofMap
  exact ofMap

/-- The greatest entry is an entry, and no key is above it. -/
theorem of_maxEntry? {map : TreeMap κ ν cmp} {key : κ} {value : ν}
    (greatest : map.maxEntry? = some (key, value)) :
    map[key]? = some value ∧ ∀ other ∈ map, (cmp other key).isLE := by
  rw [maxEntry?_eq_getLast?_toList] at greatest
  have maxKey : map.maxKey? = some key := by
    rw [TreeMap.maxKey?_eq_getLast?_keys, ← TreeMap.map_fst_toList_eq_keys, List.getLast?_map,
      greatest]
    rfl
  constructor
  · exact TreeMap.mem_toList_iff_getElem?_eq_some.mp (List.mem_of_getLast? greatest)
  · exact (TreeMap.maxKey?_eq_some_iff_mem_and_forall.mp maxKey).2

omit [LawfulEqCmp cmp] in
/-- A map with an entry has a greatest one. -/
theorem exists_maxEntry? {map : TreeMap κ ν cmp} {key : κ} (present : key ∈ map) :
    ∃ entry, map.maxEntry? = some entry := by
  rw [maxEntry?_eq_getLast?_toList]
  have nonempty : map.toList ≠ [] := by
    intro empty
    rw [← List.isEmpty_iff, TreeMap.isEmpty_toList] at empty
    exact TreeMap.not_mem_of_isEmpty empty present
  exact ⟨_, List.getLast?_eq_some_getLast nonempty⟩

/-- A map all of whose keys are alike has at most one entry. -/
theorem size_le_one_of_alike {map : TreeMap κ ν cmp}
    (alike : ∀ first ∈ map, ∀ second ∈ map, first = second) : map.size ≤ 1 := by
  rw [← TreeMap.length_keys]
  have distinct : map.keys.Nodup := TreeMap.nodup_keys
  have keysAlike : ∀ first ∈ map.keys, ∀ second ∈ map.keys, first = second :=
    fun first isFirst second isSecond =>
      alike first (TreeMap.mem_keys.mp isFirst) second (TreeMap.mem_keys.mp isSecond)
  generalize map.keys = keys at distinct keysAlike
  match keys, distinct, keysAlike with
  | [], _, _ => exact Nat.zero_le 1
  | [_], _, _ => exact Nat.le_refl 1
  | first :: second :: rest, distinct, keysAlike =>
      have same : first = second := keysAlike first (by simp) second (by simp)
      exact absurd (by simp [same]) (List.nodup_cons.mp distinct).1

end Ordered

section Hashed

variable {κ : Type u} {ν : Type v} [BEq κ] [LawfulBEq κ] [Hashable κ]

/-- Collecting pairs with distinct keys only reorders them. -/
theorem toList_ofList_perm {pairs : List (κ × ν)} (distinct : (pairs.map Prod.fst).Nodup) :
    (HashMap.ofList pairs).toList.Perm pairs := by
  have apart : pairs.Pairwise fun first second => (first.1 == second.1) = false := by
    rw [List.Nodup, List.pairwise_map] at distinct
    exact distinct.imp fun differ => beq_false_of_ne differ
  have nodup : ∀ {items : List (κ × ν)},
      items.Pairwise (fun first second => (first.1 == second.1) = false) → items.Nodup :=
    fun differ => differ.imp fun keysDiffer equal => by simp [equal] at keysDiffer
  rw [List.perm_ext_iff_of_nodup (nodup HashMap.distinct_keys_toList) (nodup apart)]
  rintro ⟨key, value⟩
  rw [HashMap.mem_toList_iff_getElem?_eq_some]
  constructor
  · intro found
    have present : key ∈ pairs.map Prod.fst := by
      by_contra absent
      rw [HashMap.getElem?_ofList_of_contains_eq_false (by simpa using absent)] at found
      cases found
    rcases List.mem_map.mp present with ⟨⟨_, stored⟩, mem, rfl⟩
    rw [HashMap.getElem?_ofList_of_mem BEq.rfl apart mem] at found
    rwa [← Option.some.inj found]
  · exact HashMap.getElem?_ofList_of_mem BEq.rfl apart

end Hashed

section Association

variable {κ : Type u} {ν : Type v} [DecidableEq κ] {entries : List (κ × ν)} {key : κ}

theorem lookup_isSome_iff : (entries.lookup key).isSome = true ↔ key ∈ entries.map Prod.fst := by
  induction entries with
  | nil => simp
  | cons entry entries ih =>
      obtain ⟨first, value⟩ := entry
      by_cases same : key = first
      · simp [same]
      · have differ : (key == first) = false := beq_false_of_ne same
        simp only [List.lookup_cons, differ, ih, List.map_cons, List.mem_cons, same, false_or]

theorem mem_of_lookup {value : ν} (found : entries.lookup key = some value) :
    (key, value) ∈ entries := by
  induction entries with
  | nil => simp at found
  | cons entry entries ih =>
      obtain ⟨first, other⟩ := entry
      by_cases same : key = first
      · subst same
        obtain rfl : other = value := by simpa using found
        exact List.mem_cons_self
      · have differ : (key == first) = false := beq_false_of_ne same
        rw [List.lookup_cons, differ] at found
        exact List.mem_cons_of_mem _ (ih found)

theorem lookup_eq_none_iff : entries.lookup key = none ↔ key ∉ entries.map Prod.fst := by
  rw [← lookup_isSome_iff, Bool.not_eq_true, Option.isSome_eq_false_iff, Option.isNone_iff_eq_none]

/-- Forgetting a key leaves the entries of the others. -/
theorem lookup_filter_ne {other : κ} (differ : other ≠ key) :
    (entries.filter (·.1 ≠ other)).lookup key = entries.lookup key := by
  induction entries with
  | nil => rfl
  | cons entry entries ih =>
      rcases entry with ⟨first, value⟩
      by_cases forgotten : first = other
      · have notFirst : (key == first) = false :=
          beq_false_of_ne fun same => differ (same.trans forgotten).symm
        rw [List.filter_cons_of_neg (by simpa using forgotten), ih, List.lookup_cons, notFirst]
      · rw [List.filter_cons_of_pos (by simpa using forgotten), List.lookup_cons,
          List.lookup_cons, ih]

end Association

end Ciphera.Lib
