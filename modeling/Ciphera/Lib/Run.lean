import Mathlib.Data.List.Induction

/-!
# Runs of labelled transition relations

A run records the labels it has consumed, so that an invariant may speak about
the whole history and not only about the state reached.
-/

namespace Ciphera.Lib

universe u v w

/-- `Run step source labels target` holds when the labels lead from `source`
to `target`, one step for each label. -/
inductive Run {σ : Type u} {ι : Type v} (step : σ → ι → σ → Prop) (source : σ) :
    List ι → σ → Prop
  | nil : Run step source [] source
  | snoc {labels : List ι} {middle : σ} {label : ι} {target : σ} :
      Run step source labels middle → step middle label target →
      Run step source (labels ++ [label]) target

namespace Run

variable {σ : Type u} {ι : Type v} {step : σ → ι → σ → Prop} {source : σ}

/-- A property of history and state that holds at the start and is preserved
by every step holds after every run. -/
theorem invariant {motive : List ι → σ → Prop} (initial : motive [] source)
    (preserved : ∀ labels middle label target, Run step source labels middle →
      motive labels middle → step middle label target → motive (labels ++ [label]) target)
    {labels : List ι} {target : σ} (run : Run step source labels target) :
    motive labels target := by
  induction run with
  | nil => exact initial
  | snoc run taken ih => exact preserved _ _ _ _ run ih taken

/-- A run of a relation is one of every weaker relation. -/
theorem mono {weaker : σ → ι → σ → Prop}
    (weaken : ∀ state label next, step state label next → weaker state label next)
    {labels : List ι} {target : σ} (run : Run step source labels target) :
    Run weaker source labels target := by
  induction run with
  | nil => exact .nil
  | snoc _ taken ih => exact .snoc ih (weaken _ _ _ taken)

theorem single {label : ι} {target : σ} (taken : step source label target) :
    Run step source [label] target := by
  have run : Run step source ([] ++ [label]) target := .snoc .nil taken
  exact run

/-- One run after another. -/
theorem trans {first second : List ι} {middle target : σ} (earlier : Run step source first middle)
    (later : Run step middle second target) : Run step source (first ++ second) target := by
  induction later with
  | nil => rwa [List.append_nil]
  | snoc _ taken ih =>
      rw [← List.append_assoc]
      exact .snoc ih taken

/-- The part of a run before its last label. -/
theorem of_snoc {labels : List ι} {label : ι} {target : σ}
    (run : Run step source (labels ++ [label]) target) :
    ∃ middle, Run step source labels middle ∧ step middle label target := by
  generalize historyEq : labels ++ [label] = history at run
  cases run with
  | nil => simp at historyEq
  | snoc run taken =>
      obtain ⟨rfl, labelEq⟩ := List.append_inj' historyEq rfl
      obtain rfl := List.singleton_inj.mp labelEq
      exact ⟨_, run, taken⟩

/-- Without labels a run stays where it started. -/
theorem eq_of_nil {target : σ} (run : Run step source [] target) : target = source := by
  generalize historyEq : ([] : List ι) = history at run
  cases run with
  | nil => rfl
  | snoc run taken => simp at historyEq

/-- Every prefix of the history of a run is the history of a run. -/
theorem of_append {labels rest : List ι} {target : σ}
    (run : Run step source (labels ++ rest) target) :
    ∃ middle, Run step source labels middle := by
  induction rest using List.reverseRecOn generalizing target with
  | nil => exact ⟨target, by simpa using run⟩
  | append_singleton rest label ih =>
      rw [← List.append_assoc] at run
      obtain ⟨middle, before, _⟩ := of_snoc run
      exact ih before

/-- What holds at the start holds until an event, if a step that is no event keeps it. -/
theorem holds_until {held : σ → Prop} {event : σ → ι → σ → Prop} (start : held source)
    (kept : ∀ middle label target, held middle → step middle label target →
      held target ∨ event middle label target)
    {labels : List ι} {target : σ} (run : Run step source labels target) :
    held target ∨ ∃ first label second before after, labels = first ++ label :: second ∧
      Run step source first before ∧ step before label after ∧ event before label after ∧
      Run step after second target := by
  induction run with
  | nil => exact .inl start
  | @snoc labels middle last target run taken ih =>
      rcases ih with held | ⟨first, label, second, before, after, rfl, earlier, happened, rest⟩
      · rcases kept _ _ _ held taken with still | happened
        · exact .inl still
        · exact .inr ⟨labels, last, [], middle, target, rfl, run, taken, happened, .nil⟩
      · refine .inr ⟨first, label, second ++ [last], before, after, ?_, earlier, happened,
          rest.1, .snoc rest.2 taken⟩
        rw [List.append_assoc, List.cons_append]

/-- A loop that may fail succeeds exactly when its iterations form a run. -/
theorem foldlM_eq_ok_iff {ε : Type w} {body : σ → ι → Except ε σ} {labels : List ι}
    {target : σ} :
    labels.foldlM body source = .ok target ↔
      Run (fun state label next => body state label = .ok next) source labels target := by
  induction labels using List.reverseRecOn generalizing target with
  | nil =>
      constructor
      · intro finished
        obtain rfl : source = target := by simpa [pure, Except.pure] using finished
        exact .nil
      · intro run
        rw [eq_of_nil run]
        rfl
  | append_singleton labels label ih =>
      rw [List.foldlM_append]
      constructor
      · intro finished
        cases first : labels.foldlM body source with
        | error failure => simp [first, bind, Except.bind] at finished
        | ok middle =>
            simp only [first, List.foldlM_cons, List.foldlM_nil, bind_pure] at finished
            exact .snoc (ih.mp first) finished
      · intro run
        obtain ⟨middle, before, taken⟩ := of_snoc run
        rw [ih.mpr before]
        simp only [List.foldlM_cons, List.foldlM_nil, bind_pure]
        exact taken

end Run

end Ciphera.Lib
