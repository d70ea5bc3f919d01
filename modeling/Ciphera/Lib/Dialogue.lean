import Mathlib.Data.List.Flatten
import Ciphera.Lib.Check

/-!
# Programs that call others

What a program does that calls others depends on their answers.  A dialogue is such a
program, up to the next call; a transcript lists the calls with their answers.  A dialogue
plays a transcript to a result, and whatever the others answer, there is a transcript of it.
The lemmas take the transcript of a composed dialogue apart.
-/

namespace Ciphera.Lib

/-- A program that is done, or makes a call and goes on with the answer. -/
inductive Dialogue (Call : Type) (Answer : Call → Type) (ε α : Type)
  | done (result : Except ε α)
  | ask (call : Call) (next : Answer call → Dialogue Call Answer ε α)

/-- A call and its answer. -/
abbrev Exchange {Call : Type} (Answer : Call → Type) := (call : Call) × Answer call

namespace Dialogue

variable {Call : Type} {Answer : Call → Type} {ε δ α β ι : Type}

/-- One dialogue after the other. -/
def bind : Dialogue Call Answer ε α → (α → Dialogue Call Answer ε β) → Dialogue Call Answer ε β
  | done (.ok value), rest => rest value
  | done (.error failure), _ => done (.error failure)
  | ask call next, rest => ask call fun answer => (next answer).bind rest

/-- Dialogues compose as computations that ask. -/
instance : Monad (Dialogue Call Answer ε) where
  pure value := done (.ok value)
  bind := bind

/-- The result as a value. -/
def attempt : Dialogue Call Answer ε α → Dialogue Call Answer δ (Except ε α)
  | done result => done (.ok result)
  | ask call next => ask call fun answer => (next answer).attempt

/-- Run the body until it finds something, as often as is allowed. -/
def retryUntilSome (body : Dialogue Call Answer ε (Option α)) :
    Nat → Dialogue Call Answer ε (Option α)
  | 0 => pure none
  | attempts + 1 => do
      match ← body with
      | some value => pure (some value)
      | none => retryUntilSome body attempts

/-- Run the body for every item. -/
def forEach (body : ι → Dialogue Call Answer ε β) : List ι → Dialogue Call Answer ε (List β)
  | [] => pure []
  | item :: items => do
      let result ← body item
      let results ← forEach body items
      pure (result :: results)

/-- A transcript answers the calls of a dialogue, which then has a result. -/
inductive Plays : Dialogue Call Answer ε α → List (Exchange Answer) → Except ε α → Prop
  | done (result : Except ε α) : Plays (done result) [] result
  | ask {call : Call} {next : Answer call → Dialogue Call Answer ε α} {answer : Answer call}
      {transcript : List (Exchange Answer)} {result : Except ε α} :
      Plays (next answer) transcript result →
      Plays (ask call next) (⟨call, answer⟩ :: transcript) result

variable {transcript : List (Exchange Answer)} {dialogue : Dialogue Call Answer ε α}
  {rest : α → Dialogue Call Answer ε β}

/-! ## Taking transcripts apart -/

@[simp]
theorem plays_done_iff {result actual : Except ε α} :
    Plays (done result : Dialogue Call Answer ε α) transcript actual ↔
      transcript = [] ∧ actual = result := by
  constructor
  · intro plays
    cases plays
    exact ⟨rfl, rfl⟩
  · rintro ⟨rfl, rfl⟩
    exact .done _

@[simp]
theorem plays_pure_iff {value : α} {actual : Except ε α} :
    Plays (pure value : Dialogue Call Answer ε α) transcript actual ↔
      transcript = [] ∧ actual = .ok value :=
  plays_done_iff

@[simp]
theorem plays_ask_iff {call : Call} {next : Answer call → Dialogue Call Answer ε α}
    {result : Except ε α} :
    Plays (ask call next) transcript result ↔ ∃ answer later,
      transcript = ⟨call, answer⟩ :: later ∧ Plays (next answer) later result := by
  constructor
  · intro plays
    cases plays with
    | ask plays => exact ⟨_, _, rfl, plays⟩
  · rintro ⟨answer, later, rfl, plays⟩
    exact .ask plays

/-- A call whose answer is all that matters. -/
@[simp]
theorem plays_asking_iff {call : Call} {value : Answer call → Except ε α}
    {result : Except ε α} :
    Plays (ask call fun answer => done (value answer)) transcript result ↔
      ∃ answer, transcript = [⟨call, answer⟩] ∧ result = value answer := by
  rw [plays_ask_iff]
  constructor
  · rintro ⟨answer, later, rfl, plays⟩
    rcases plays_done_iff.mp plays with ⟨rfl, rfl⟩
    exact ⟨answer, rfl, rfl⟩
  · rintro ⟨answer, rfl, rfl⟩
    exact ⟨answer, [], rfl, .done _⟩

theorem Plays.bind {before after : List (Exchange Answer)} {value : α} {result : Except ε β}
    (first : Plays dialogue before (.ok value)) (second : Plays (rest value) after result) :
    Plays (dialogue >>= rest) (before ++ after) result := by
  generalize isOk : Except.ok value = outcome at first
  induction first with
  | done outcome =>
      subst isOk
      exact second
  | ask _ ih => exact .ask (ih isOk)

theorem Plays.bind_error {failure : ε} (first : Plays dialogue transcript (.error failure)) :
    Plays (dialogue >>= rest) transcript (.error failure) := by
  generalize isError : Except.error failure = outcome at first
  induction first with
  | done outcome =>
      subst isError
      exact .done _
  | ask _ ih => exact .ask (ih isError)

theorem plays_bind_iff {result : Except ε β} :
    Plays (dialogue >>= rest) transcript result ↔
      (∃ value before after, transcript = before ++ after ∧
        Plays dialogue before (.ok value) ∧ Plays (rest value) after result) ∨
      ∃ failure, result = .error failure ∧ Plays dialogue transcript (.error failure) := by
  constructor
  · intro plays
    induction dialogue generalizing transcript with
    | done outcome =>
        cases outcome with
        | ok value => exact .inl ⟨value, [], transcript, rfl, .done _, plays⟩
        | error failure =>
            rcases plays_done_iff.mp plays with ⟨rfl, rfl⟩
            exact .inr ⟨failure, rfl, .done _⟩
    | ask call next ih =>
        rcases plays_ask_iff.mp plays with ⟨answer, later, rfl, continued⟩
        rcases ih answer continued with ⟨value, before, after, rfl, first, second⟩ |
          ⟨failure, rfl, first⟩
        · exact .inl ⟨value, ⟨call, answer⟩ :: before, after, rfl, .ask first, second⟩
        · exact .inr ⟨failure, rfl, .ask first⟩
  · rintro (⟨value, before, after, rfl, first, second⟩ | ⟨failure, rfl, first⟩)
    · exact first.bind second
    · exact first.bind_error

/-- A composition succeeds when both of its parts do. -/
theorem plays_bind_ok_iff {value : β} :
    Plays (dialogue >>= rest) transcript (.ok value) ↔
      ∃ middle before after, transcript = before ++ after ∧
        Plays dialogue before (.ok middle) ∧ Plays (rest middle) after (.ok value) := by
  rw [plays_bind_iff]
  constructor
  · rintro (parts | ⟨failure, isError, _⟩)
    · exact parts
    · cases isError
  · exact .inl

theorem plays_attempt_iff {result : Except δ (Except ε α)} :
    Plays (dialogue.attempt : Dialogue Call Answer δ (Except ε α)) transcript result ↔
      ∃ outcome, result = .ok outcome ∧ Plays dialogue transcript outcome := by
  induction dialogue generalizing transcript with
  | done outcome =>
      rw [attempt, plays_done_iff]
      constructor
      · rintro ⟨rfl, rfl⟩
        exact ⟨outcome, rfl, .done _⟩
      · rintro ⟨outcome, rfl, plays⟩
        rcases plays_done_iff.mp plays with ⟨rfl, rfl⟩
        exact ⟨rfl, rfl⟩
  | ask call next ih =>
      rw [attempt, plays_ask_iff]
      constructor
      · rintro ⟨answer, later, rfl, attempted⟩
        rcases (ih answer).mp attempted with ⟨outcome, rfl, continued⟩
        exact ⟨outcome, rfl, .ask continued⟩
      · rintro ⟨outcome, rfl, plays⟩
        rcases plays_ask_iff.mp plays with ⟨answer, later, rfl, continued⟩
        exact ⟨answer, later, rfl, (ih answer).mpr ⟨outcome, rfl, continued⟩⟩

section Loops

variable {body : Dialogue Call Answer ε (Option α)} {attempts : Nat}

/-- The first attempt may be the last. -/
theorem Plays.retry {value : α} (plays : Plays body transcript (.ok (some value))) :
    Plays (retryUntilSome body (attempts + 1)) transcript (.ok (some value)) := by
  have tried : Plays (retryUntilSome body (attempts + 1)) (transcript ++ []) (.ok (some value)) :=
    plays.bind (.done (.ok (some value)))
  rwa [List.append_nil] at tried

/-- What was found was found by the last attempt. -/
theorem of_retry_some {value : α}
    (plays : Plays (retryUntilSome body attempts) transcript (.ok (some value))) :
    ∃ before last, transcript = before ++ last ∧ Plays body last (.ok (some value)) := by
  induction attempts generalizing transcript with
  | zero => cases (plays_pure_iff.mp plays).2
  | succ attempts ih =>
      rcases plays_bind_ok_iff.mp plays with ⟨found, first, later, rfl, tried, plays⟩
      cases found with
      | some found =>
          rcases plays_pure_iff.mp plays with ⟨rfl, same⟩
          rcases Option.some.inj (Except.ok.inj same) with rfl
          exact ⟨[], first, List.append_nil first, tried⟩
      | none =>
          rcases ih plays with ⟨before, last, rfl, tried⟩
          exact ⟨first ++ before, last, (List.append_assoc ..).symm, tried⟩

/-- If nothing was found, all attempts were made. -/
theorem of_retry_none (plays : Plays (retryUntilSome body attempts) transcript (.ok none)) :
    ∃ tries : List (List (Exchange Answer)), tries.length = attempts ∧
      transcript = tries.flatten ∧ ∀ tried ∈ tries, Plays body tried (.ok none) := by
  induction attempts generalizing transcript with
  | zero =>
      rcases plays_pure_iff.mp plays with ⟨rfl, _⟩
      exact ⟨[], rfl, rfl, fun _ mem => absurd mem List.not_mem_nil⟩
  | succ attempts ih =>
      rcases plays_bind_ok_iff.mp plays with ⟨found, first, later, rfl, tried, plays⟩
      cases found with
      | some found => cases (plays_pure_iff.mp plays).2
      | none =>
          rcases ih plays with ⟨tries, rfl, rfl, all⟩
          exact ⟨first :: tries, rfl, rfl, List.forall_mem_cons.mpr ⟨tried, all⟩⟩

variable {each : ι → Dialogue Call Answer ε β} {items : List ι}

/-- A loop that succeeds has a part of the transcript for every item. -/
theorem of_forEach {results : List β}
    (plays : Plays (forEach each items) transcript (.ok results)) :
    ∃ parts : List (ι × List (Exchange Answer)), parts.map Prod.fst = items ∧
      transcript = (parts.map Prod.snd).flatten ∧
      ∀ part ∈ parts, ∃ result, Plays (each part.1) part.2 (.ok result) := by
  induction items generalizing transcript results with
  | nil =>
      rcases plays_pure_iff.mp plays with ⟨rfl, _⟩
      exact ⟨[], rfl, rfl, fun _ mem => absurd mem List.not_mem_nil⟩
  | cons item items ih =>
      rcases plays_bind_ok_iff.mp plays with ⟨result, first, later, rfl, played, plays⟩
      rcases plays_bind_ok_iff.mp plays with ⟨results, middle, last, rfl, others, finished⟩
      rcases plays_pure_iff.mp finished with ⟨rfl, _⟩
      rcases ih others with ⟨parts, rfl, rfl, all⟩
      exact ⟨(item, first) :: parts, rfl, by simp,
        List.forall_mem_cons.mpr ⟨⟨result, played⟩, all⟩⟩

end Loops

/-! ## Dialogues that cannot fail -/

/-- If all answers are good, there is no failure. -/
def Sure (good : Exchange Answer → Prop) (dialogue : Dialogue Call Answer ε α) : Prop :=
  ∀ transcript failure, Plays dialogue transcript (.error failure) →
    ∃ exchange ∈ transcript, ¬good exchange

variable {good : Exchange Answer → Prop}

theorem sure_pure (value : α) : Sure good (pure value : Dialogue Call Answer ε α) :=
  fun _ _ plays => by cases (plays_pure_iff.mp plays).2

theorem sure_asking {call : Call} {value : Answer call → Except ε α}
    (fails : ∀ answer failure, value answer = .error failure → ¬good ⟨call, answer⟩) :
    Sure good (ask call fun answer => done (value answer)) := by
  intro transcript failure plays
  rcases plays_asking_iff.mp plays with ⟨answer, rfl, isFailure⟩
  exact ⟨_, List.mem_singleton_self _, fails answer failure isFailure.symm⟩

/-- The second part may rely on the answers to the first. -/
theorem Sure.bind (first : Sure good dialogue)
    (second : ∀ value transcript, Plays dialogue transcript (.ok value) →
      (∀ exchange ∈ transcript, good exchange) → Sure good (rest value)) :
    Sure good (dialogue >>= rest) := by
  intro transcript failure plays
  rcases plays_bind_iff.mp plays with ⟨value, before, after, rfl, played, plays⟩ |
    ⟨failure', _, played⟩
  · by_cases allGood : ∀ exchange ∈ before, good exchange
    · rcases second value before played allGood after failure plays with ⟨exchange, mem, isBad⟩
      exact ⟨exchange, List.mem_append_right _ mem, isBad⟩
    · rcases not_forall.mp allGood with ⟨exchange, isBad⟩
      rcases Classical.not_imp.mp isBad with ⟨mem, isBad⟩
      exact ⟨exchange, List.mem_append_left _ mem, isBad⟩
  · exact first transcript failure' played

theorem Sure.retry {body : Dialogue Call Answer ε (Option α)} (sure : Sure good body) :
    ∀ attempts, Sure good (retryUntilSome body attempts)
  | 0 => sure_pure none
  | attempts + 1 => by
      apply sure.bind
      intro found transcript _ _
      cases found with
      | some value => exact sure_pure _
      | none => exact sure.retry attempts

theorem sure_forEach {each : ι → Dialogue Call Answer ε β} (sure : ∀ item, Sure good (each item)) :
    ∀ items, Sure good (forEach each items)
  | [] => sure_pure []
  | item :: items => by
      apply (sure item).bind
      intro result _ _ _
      apply (sure_forEach sure items).bind
      intro results _ _ _
      exact sure_pure _

/-! ## Properties of transcripts -/

/-- However it ends, the transcript has the property. -/
def Always (holds : List (Exchange Answer) → Prop) (dialogue : Dialogue Call Answer ε α) : Prop :=
  ∀ transcript result, Plays dialogue transcript result → holds transcript

/-- Transcripts with the property can be joined. -/
structure Additive (holds : List (Exchange Answer) → Prop) : Prop where
  nil : holds []
  append {before after : List (Exchange Answer)} :
    holds before → holds after → holds (before ++ after)

variable {holds others : List (Exchange Answer) → Prop}

/-- A property of everything that is picked from a transcript. -/
theorem additive_filterMap {β : Type} (pick : Exchange Answer → Option β) (allowed : β → Prop) :
    Additive fun transcript => ∀ picked ∈ transcript.filterMap pick, allowed picked where
  nil := fun _ mem => absurd mem List.not_mem_nil
  append before after := by
    rw [List.filterMap_append]
    exact List.forall_mem_append.mpr ⟨before, after⟩

theorem Always.mono (always : Always holds dialogue)
    (weaken : ∀ transcript, holds transcript → others transcript) : Always others dialogue :=
  fun transcript result plays => weaken transcript (always transcript result plays)

theorem always_asking {call : Call} {value : Answer call → Except ε α}
    (each : ∀ answer, holds [⟨call, answer⟩]) :
    Always holds (ask call fun answer => done (value answer)) := by
  intro transcript result plays
  rcases plays_asking_iff.mp plays with ⟨answer, rfl, _⟩
  exact each answer

namespace Additive

variable (additive : Additive holds)

include additive

theorem flatten : ∀ {parts : List (List (Exchange Answer))}, (∀ part ∈ parts, holds part) →
    holds parts.flatten
  | [], _ => additive.nil
  | part :: parts, all => by
      rw [List.forall_mem_cons] at all
      exact additive.append all.1 (flatten all.2)

theorem done (result : Except ε α) : Always holds (done result : Dialogue Call Answer ε α) := by
  intro transcript actual plays
  rw [(plays_done_iff.mp plays).1]
  exact additive.nil

theorem bind (first : Always holds dialogue) (second : ∀ value, Always holds (rest value)) :
    Always holds (dialogue >>= rest) := by
  intro transcript result plays
  rcases plays_bind_iff.mp plays with ⟨value, before, after, rfl, played, continued⟩ |
    ⟨failure, _, played⟩
  · exact additive.append (first before _ played) (second value after _ continued)
  · exact first transcript _ played

theorem retry {body : Dialogue Call Answer ε (Option α)} (always : Always holds body) :
    ∀ attempts, Always holds (retryUntilSome body attempts)
  | 0 => additive.done _
  | attempts + 1 => by
      apply additive.bind always
      intro found
      cases found with
      | some value => exact additive.done _
      | none => exact retry always attempts

theorem forEach {each : ι → Dialogue Call Answer ε β} :
    ∀ {items : List ι}, (∀ item ∈ items, Always holds (each item)) →
      Always holds (forEach each items)
  | [], _ => additive.done _
  | item :: items, always => by
      apply additive.bind (always item List.mem_cons_self)
      intro result
      apply additive.bind (forEach fun other mem => always other (List.mem_cons_of_mem item mem))
      exact fun results => additive.done _

end Additive

end Dialogue

end Ciphera.Lib
