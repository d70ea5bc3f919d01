import Ciphera.Lib.Check

/-!
# Computations that return

A computation that may panic returns when it ends with a value or with an error for its
caller.  The lemmas follow the shape of a program: it returns if each of its steps does,
given that the steps before it have succeeded.
-/

namespace Ciphera.Lib

variable {ε δ ι α β : Type}

/-- The computation does not panic. -/
def Returns (result : Except (Stop ε) α) : Prop := ∀ message, result ≠ .error (.panic message)

theorem returns_ok (value : α) : Returns (.ok value : Except (Stop ε) α) := nofun

theorem returns_error (failure : ε) : Returns (.error (.error failure) : Except (Stop ε) α) := nofun

theorem not_returns_panic (message : String) :
    ¬Returns (.error (.panic message) : Except (Stop ε) α) :=
  fun returns => returns message rfl

theorem returns_of_eq_ok {result : Except (Stop ε) α} {value : α} (succeeds : result = .ok value) :
    Returns result :=
  succeeds ▸ returns_ok value

theorem Returns.bind {first : Except (Stop ε) α} {rest : α → Except (Stop ε) β}
    (returns : Returns first) (next : ∀ value, first = .ok value → Returns (rest value)) :
    Returns (first >>= rest) := by
  cases first with
  | ok value => exact next value rfl
  | error stop =>
      cases stop with
      | error failure => exact returns_error failure
      | panic message => exact absurd rfl (returns message)

/-- A check whose failure is an error returns. -/
theorem returns_check (condition : Prop) [Decidable condition] (failure : ε) :
    Returns (check condition (.error failure)) := by
  intro message failed
  rcases check_eq_error_iff.mp failed with ⟨_, stop⟩
  cases stop

theorem returns_forM {items : List ι} {body : ι → Except (Stop ε) Unit}
    (returns : ∀ item ∈ items, Returns (body item)) : Returns (items.forM body) := by
  induction items with
  | nil => exact returns_ok ()
  | cons item items ih =>
      change Returns (body item >>= fun _ => items.forM body)
      apply (returns item List.mem_cons_self).bind
      intro _ _
      exact ih fun other mem => returns other (List.mem_cons_of_mem item mem)

/-- A loop returns if its body does in every state that keeps an invariant, and leaves
such a state. -/
theorem returns_foldlM {items : List ι} {body : α → ι → Except (Stop ε) α}
    {invariant : α → Prop}
    (returns : ∀ state item, invariant state → Returns (body state item))
    (kept : ∀ state item next, invariant state → body state item = .ok next → invariant next)
    {start : α} (holds : invariant start) : Returns (items.foldlM body start) := by
  induction items generalizing start with
  | nil => exact returns_ok start
  | cons item items ih =>
      rw [List.foldlM_cons]
      apply (returns start item holds).bind
      intro next done
      exact ih (kept start item next holds done)

/-- The invariant holds after the loop. -/
theorem invariant_of_foldlM {items : List ι} {body : α → ι → Except δ α} {invariant : α → Prop}
    (kept : ∀ state item next, invariant state → body state item = .ok next → invariant next)
    {start finish : α} (holds : invariant start) (done : items.foldlM body start = .ok finish) :
    invariant finish := by
  induction items generalizing start with
  | nil =>
      rcases pure_eq_ok_iff.mp done with rfl
      exact holds
  | cons item items ih =>
      rw [List.foldlM_cons, bind_eq_ok_iff] at done
      rcases done with ⟨next, first, rest⟩
      exact ih (kept start item next holds first) rest

/-! ## Computations that succeed -/

/-- The computation ends with a value. -/
def Succeeds (result : Except δ α) : Prop := ∃ value, result = .ok value

theorem succeeds_ok (value : α) : Succeeds (.ok value : Except δ α) := ⟨value, rfl⟩

theorem Succeeds.bind {first : Except δ α} {rest : α → Except δ β} (succeeds : Succeeds first)
    (next : ∀ value, first = .ok value → Succeeds (rest value)) : Succeeds (first >>= rest) := by
  obtain ⟨value, isValue⟩ := succeeds
  rw [isValue, ok_bind]
  exact next value isValue

/-- A loop succeeds if its body does in every state that keeps an invariant, and leaves
such a state. -/
theorem succeeds_foldlM {items : List ι} {body : α → ι → Except δ α} {invariant : α → Prop}
    (succeeds : ∀ state item, invariant state → Succeeds (body state item))
    (kept : ∀ state item next, invariant state → body state item = .ok next → invariant next)
    {start : α} (holds : invariant start) : Succeeds (items.foldlM body start) := by
  induction items generalizing start with
  | nil => exact succeeds_ok start
  | cons item items ih =>
      rw [List.foldlM_cons]
      apply (succeeds start item holds).bind
      intro next done
      exact ih (kept start item next holds done)

end Ciphera.Lib
