import Mathlib.Logic.Basic

/-!
# Checked computations

Assertions of a circuit, `require` of a contract and early returns of a
validator are all computations in `Except`.  The lemmas below turn a
successful run into the conjunction of everything it checked, one check at a
time and in program order.
-/

namespace Ciphera.Lib

universe u

variable {ε : Type u} {α β : Type u}

/-- Why a computation stops without a result: it returns an error to its
caller, or it panics. -/
inductive Stop (ε : Type u)
  | error (failure : ε)
  | panic (message : String)
  deriving DecidableEq, Repr

/-- Fail with `failure` unless the condition holds. -/
def check (condition : Prop) [Decidable condition] (failure : ε) : Except ε PUnit :=
  if condition then .ok ⟨⟩ else .error failure

@[simp]
theorem check_eq_ok_iff {condition : Prop} [Decidable condition] {failure : ε} {done : PUnit} :
    check condition failure = .ok done ↔ condition := by
  by_cases holds : condition <;> simp [check, holds]

@[simp]
theorem check_eq_error_iff {condition : Prop} [Decidable condition] {failure actual : ε} :
    check condition failure = .error actual ↔ ¬condition ∧ failure = actual := by
  by_cases holds : condition <;> simp [check, holds]

@[simp]
theorem pure_eq_ok_iff {value result : α} :
    (pure value : Except ε α) = .ok result ↔ value = result := by
  simp [pure, Except.pure]

@[simp]
theorem bind_eq_ok_iff {first : Except ε α} {rest : α → Except ε β} {result : β} :
    (first >>= rest) = .ok result ↔ ∃ value, first = .ok value ∧ rest value = .ok result := by
  cases first <;> simp [bind, Except.bind]

@[simp]
theorem map_eq_ok_iff {first : Except ε α} {rest : α → β} {result : β} :
    (rest <$> first) = .ok result ↔ ∃ value, first = .ok value ∧ rest value = result := by
  cases first <;> simp [Functor.map, Except.map]

@[simp]
theorem mapError_eq_ok_iff {first : Except ε α} {translate : ε → δ} {result : α} :
    first.mapError translate = .ok result ↔ first = .ok result := by
  cases first with
  | error failure =>
      change (Except.error (translate failure) : Except δ α) = .ok result ↔ _
      simp only [reduceCtorEq]
  | ok value =>
      change (Except.ok value : Except δ α) = .ok result ↔ _
      simp only [Except.ok.injEq]

@[simp]
theorem ok_bind (value : α) (rest : α → Except ε β) :
    ((.ok value : Except ε α) >>= rest) = rest value :=
  rfl

@[simp]
theorem error_bind (failure : ε) (rest : α → Except ε β) :
    ((.error failure : Except ε α) >>= rest) = .error failure :=
  rfl

/-- A loop of checks succeeds when every one of them does. -/
@[simp]
theorem forM_eq_ok_iff {ε ι : Type} {items : List ι} {body : ι → Except ε Unit} {done : Unit} :
    items.forM body = .ok done ↔ ∀ item ∈ items, body item = .ok () := by
  induction items with
  | nil => simp [pure, Except.pure]
  | cons item items ih =>
      change (body item >>= fun _ => items.forM body) = .ok done ↔ _
      rw [bind_eq_ok_iff, List.forall_mem_cons, ← ih]
      constructor
      · rintro ⟨_, first, rest⟩
        exact ⟨first, rest⟩
      · rintro ⟨first, rest⟩
        exact ⟨_, first, rest⟩

/-- A loop that collects results succeeds when every iteration does. -/
@[simp]
theorem mapM_eq_ok_iff {ε ι α : Type} {items : List ι} {body : ι → Except ε α} {results : List α} :
    items.mapM body = .ok results ↔
      (∀ item ∈ items, ∃ result, body item = .ok result) ∧
        items.filterMap (fun item => (body item).toOption) = results := by
  induction items generalizing results with
  | nil => simp [pure, Except.pure]
  | cons item items ih =>
      cases first : body item with
      | error failure =>
          simp only [List.mapM_cons, first, error_bind, List.forall_mem_cons]
          simp
      | ok result =>
          simp only [List.mapM_cons, first, ok_bind, bind_eq_ok_iff, pure_eq_ok_iff, ih,
            List.forall_mem_cons, List.filterMap_cons, Except.toOption]
          constructor
          · rintro ⟨_, ⟨all, rfl⟩, rfl⟩
            exact ⟨⟨⟨result, rfl⟩, all⟩, rfl⟩
          · rintro ⟨⟨_, all⟩, rfl⟩
            exact ⟨_, ⟨all, rfl⟩, rfl⟩

/-- Collecting results of which none failed. -/
@[simp]
theorem mapM_id_map_ok {α ε : Type} (items : List α) :
    (items.map (Except.ok (ε := ε))).mapM id = .ok items := by
  induction items with
  | nil => rfl
  | cons item items ih =>
      rw [List.map_cons, List.mapM_cons, ih]
      rfl

theorem check_of {condition : Prop} [Decidable condition] (failure : ε)
    (holds : condition) : check condition failure = .ok ⟨⟩ :=
  check_eq_ok_iff.mpr holds

end Ciphera.Lib
