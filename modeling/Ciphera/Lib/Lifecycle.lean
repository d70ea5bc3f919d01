import Ciphera.Lib.Run
import Mathlib.Data.List.Nodup
import Mathlib.Data.Set.Basic

/-!
# Items that are created once and consumed once

A registry knows which items are live and which have ever been created.  A round
creates items that are neither live nor known and consumes items that were live
before it.  Over whole runs every item is then created at most once, consumed
at most once, and consumed in a later round than the one that created it.
-/

namespace Ciphera.Lib

universe u v

/-- The keys that are live, among all keys that were ever created. -/
structure Registry (κ : Type u) where
  live : Set κ
  known : Set κ

/-- The items one round creates and consumes. -/
structure Round (κ : Type u) where
  creates : List κ
  consumes : List κ

namespace Registry

variable {κ : Type u}

/-- Nothing was created. -/
def empty : Registry κ := ⟨∅, ∅⟩

/-- One round takes a registry to the next. -/
structure Step (registry : Registry κ) (round : Round κ) (next : Registry κ) : Prop where
  distinct : (round.creates ++ round.consumes).Nodup
  fresh : ∀ item ∈ round.creates, item ∉ registry.live ∧ item ∉ registry.known
  available : ∀ item ∈ round.consumes, item ∈ registry.live
  live_iff : ∀ item, item ∈ next.live ↔
    item ∉ round.consumes ∧ (item ∈ round.creates ∨ item ∈ registry.live)
  known_iff : ∀ item, item ∈ next.known ↔ item ∈ round.creates ∨ item ∈ registry.known

/-- The keys that rounds create. -/
def created (rounds : List (Round κ)) : List κ := rounds.flatMap Round.creates

/-- The keys that rounds consume. -/
def consumed (rounds : List (Round κ)) : List κ := rounds.flatMap Round.consumes

/-- What every run of rounds satisfies. -/
structure History (rounds : List (Round κ)) (registry : Registry κ) : Prop where
  createdOnce : (created rounds).Nodup
  consumedOnce : (consumed rounds).Nodup
  consumedLater : ∀ (index : Nat) (round : Round κ), rounds[index]? = some round →
    ∀ item ∈ round.consumes, ∃ earlier < index, ∃ creator, rounds[earlier]? = some creator ∧
      item ∈ creator.creates
  live_iff : ∀ item, item ∈ registry.live ↔ item ∈ created rounds ∧ item ∉ consumed rounds
  known_iff : ∀ item, item ∈ registry.known ↔ item ∈ created rounds

@[simp]
theorem created_snoc (rounds : List (Round κ)) (round : Round κ) :
    created (rounds ++ [round]) = created rounds ++ round.creates := by
  simp [created]

@[simp]
theorem consumed_snoc (rounds : List (Round κ)) (round : Round κ) :
    consumed (rounds ++ [round]) = consumed rounds ++ round.consumes := by
  simp [consumed]

/-- A created item has a round that created it. -/
theorem exists_of_mem_created {rounds : List (Round κ)} {item : κ}
    (mem : item ∈ created rounds) :
    ∃ index < rounds.length, ∃ round, rounds[index]? = some round ∧ item ∈ round.creates := by
  obtain ⟨round, roundMem, itemMem⟩ := List.mem_flatMap.mp mem
  obtain ⟨index, indexLt, rfl⟩ := List.mem_iff_getElem.mp roundMem
  exact ⟨index, indexLt, _, List.getElem?_eq_getElem indexLt, itemMem⟩

theorem History.empty : History [] (empty : Registry κ) where
  createdOnce := List.nodup_nil
  consumedOnce := List.nodup_nil
  consumedLater _ _ found := by simp at found
  live_iff item := by simp [Registry.empty, created]
  known_iff item := by simp [Registry.empty, created]

theorem History.snoc {rounds : List (Round κ)} {registry next : Registry κ} {round : Round κ}
    (history : History rounds registry) (step : registry.Step round next) :
    History (rounds ++ [round]) next := by
  have creates : ∀ item ∈ round.creates, item ∉ created rounds :=
    fun item mem old => (step.fresh item mem).2 ((history.known_iff item).mpr old)
  have consumes : ∀ item ∈ round.consumes, item ∈ created rounds ∧ item ∉ consumed rounds :=
    fun item mem => (history.live_iff item).mp (step.available item mem)
  have distinct := List.nodup_append.mp step.distinct
  constructor
  · rw [created_snoc]
    exact history.createdOnce.append distinct.1 fun item old new => creates item new old
  · rw [consumed_snoc]
    exact history.consumedOnce.append distinct.2.1 fun item old new => (consumes item new).2 old
  · intro index last found item mem
    by_cases old : index < rounds.length
    · rw [List.getElem?_append_left old] at found
      obtain ⟨earlier, earlierLt, creator, creatorEq, created⟩ :=
        history.consumedLater index last found item mem
      exact ⟨earlier, earlierLt, creator,
        by rwa [List.getElem?_append_left (by omega)], created⟩
    · rw [List.getElem?_append_right (by omega)] at found
      obtain ⟨indexEq, rfl⟩ : index - rounds.length = 0 ∧ round = last := by
        cases position : index - rounds.length with
        | zero => simpa [position] using found
        | succ rest => simp [position] at found
      obtain ⟨earlier, earlierLt, creator, creatorEq, created⟩ :=
        exists_of_mem_created (consumes item mem).1
      exact ⟨earlier, by omega, creator, by rwa [List.getElem?_append_left earlierLt], created⟩
  · intro item
    rw [step.live_iff, history.live_iff, created_snoc, consumed_snoc, List.mem_append,
      List.mem_append]
    constructor
    · rintro ⟨kept, new | ⟨old, unspent⟩⟩
      · refine ⟨Or.inr new, ?_⟩
        rintro (spent | spent)
        · -- an item consumed before was created before
          obtain ⟨spender, spenderMem, itemMem⟩ := List.mem_flatMap.mp spent
          obtain ⟨index, indexLt, rfl⟩ := List.mem_iff_getElem.mp spenderMem
          obtain ⟨_, _, creator, creatorEq, made⟩ := history.consumedLater index _
            (List.getElem?_eq_getElem indexLt) item itemMem
          exact creates item new (List.mem_flatMap.mpr
            ⟨creator, List.mem_of_getElem? creatorEq, made⟩)
        · exact kept spent
      · exact ⟨Or.inl old, fun spent => spent.elim unspent kept⟩
    · rintro ⟨old | new, unspent⟩
      · exact ⟨fun spent => unspent (Or.inr spent),
          Or.inr ⟨old, fun spent => unspent (Or.inl spent)⟩⟩
      · exact ⟨fun spent => unspent (Or.inr spent), Or.inl new⟩
  · intro item
    rw [step.known_iff, history.known_iff, created_snoc, List.mem_append]
    exact or_comm

/-- A system whose steps are rounds of a registry has the history of a registry. -/
theorem history_of_run {σ : Type u} {ι : Type v} {step : σ → ι → σ → Prop} {source : σ}
    (registry : σ → Registry κ) (round : ι → Round κ) (start : registry source = empty)
    (refines : ∀ state label next, step state label next →
      (registry state).Step (round label) (registry next))
    {labels : List ι} {target : σ} (run : Run step source labels target) :
    History (labels.map round) (registry target) := by
  refine run.invariant (motive := fun labels target =>
    History (labels.map round) (registry target)) ?_ ?_
  · rw [start]
    exact History.empty
  · intro labels middle label target _ history taken
    rw [List.map_append]
    exact history.snoc (refines middle label target taken)

end Registry

end Ciphera.Lib
