import Mathlib.Data.List.AList
import Mathlib.Data.List.MinMax

/-!
# Hash maps in the order of their iteration

A hash map is an association list without repeated keys; iterating it gives the entries in
the order of the list.  Writing through a reference changes a value in its place.
-/

namespace Ciphera.Lib

universe u v w

/-- The greatest item of a list of images, under a rank that the images keep. -/
theorem argmax_map {α : Type u} {β : Type v} {γ : Type w} [LinearOrder γ] (change : α → β)
    (rank : β → γ) (items : List α) :
    (items.map change).argmax rank = (items.argmax (rank ∘ change)).map change := by
  induction items with
  | nil => rfl
  | cons item items ih =>
      rw [List.map_cons, List.argmax_cons, List.argmax_cons, ih]
      cases items.argmax (rank ∘ change) with
      | none => rfl
      | some best =>
          simp only [Option.map_some, Function.comp_apply]
          split <;> rfl

variable {κ : Type u} {ν : Type v} [DecidableEq κ]

@[simp]
theorem kreplace_cons (key : κ) (value : ν) (entry : Sigma fun _ : κ => ν)
    (entries : List (Sigma fun _ : κ => ν)) :
    (entry :: entries).kreplace key value =
      if key = entry.1 then ⟨key, value⟩ :: entries
      else entry :: entries.kreplace key value := by
  by_cases same : key = entry.1
  · rw [if_pos same]
    exact List.lookmap_cons_some _ _ (if_pos same)
  · rw [if_neg same]
    exact List.lookmap_cons_none _ _ (if_neg same)

/-- Replacing the value of a key leaves the entries of the others in place. -/
theorem kreplace_eq_map (key : κ) (value : ν) {entries : List (Sigma fun _ : κ => ν)}
    (distinct : entries.NodupKeys) :
    entries.kreplace key value =
      entries.map (Sigma.map id fun other old => if other = key then value else old) := by
  induction entries with
  | nil => rfl
  | cons entry entries ih =>
      obtain ⟨first, old⟩ := entry
      rw [List.nodupKeys_cons] at distinct
      rw [kreplace_cons, List.map_cons]
      by_cases same : key = first
      · subst same
        have unchanged : entries.map (Sigma.map id fun other old =>
            if other = key then value else old) = entries := by
          apply (List.map_congr_left _).trans (List.map_id _)
          rintro ⟨other, kept⟩ mem
          have differ : other ≠ key := by
            rintro rfl
            exact distinct.1 (List.mem_keys.mpr ⟨kept, mem⟩)
          simp [Sigma.map, differ]
        rw [if_pos rfl, unchanged]
        simp [Sigma.map]
      · rw [if_neg same, ih distinct.2]
        simp [Sigma.map, Ne.symm same]

/-- What is found after a value has been replaced. -/
@[simp]
theorem lookup_replace (key wanted : κ) (value : ν) (map : AList fun _ : κ => ν) :
    (map.replace key value).lookup wanted =
      (map.lookup wanted).map fun old => if wanted = key then value else old := by
  change ((map.entries.kreplace key value).dlookup wanted) = _
  rw [kreplace_eq_map key value map.nodupKeys, List.dlookup_map₂]
  rfl

theorem mem_entries_iff {key : κ} {value : ν} {map : AList fun _ : κ => ν} :
    (⟨key, value⟩ : Sigma fun _ : κ => ν) ∈ map.entries ↔ map.lookup key = some value :=
  (List.mem_dlookup_iff map.nodupKeys).symm

end Ciphera.Lib
