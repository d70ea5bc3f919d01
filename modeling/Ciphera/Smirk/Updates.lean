import Ciphera.Smirk.HashCache

/-!
# Updates of a tree in place

An update either goes through, or reports its collisions and leaves the tree alone.  The
tree is compared with the batch before it is touched, and whatever this comparison lets
through is unwrapped.  An update panics where an insertion of zero, or the removal of an
element that the tree does not have, meets no other obstacle; and in a tree that is deeper
than an element is wide no element can be inserted or removed at all.
-/

namespace Ciphera.Smirk

open Ciphera.Lib

variable {DEPTH : Nat} {V C : Type}

/-- The batch of a call. -/
def Call.batch : Call DEPTH V → Batch DEPTH V
  | .insert element value => ({} : Batch DEPTH V).push (element, value)
  | .remove element => ({} : Batch DEPTH V).pushRemove element
  | .insertBatch batch _ => batch

/-- Unless the batch is empty, an element has a bit for each level of the tree. -/
def Call.Narrow (call : Call DEPTH V) : Prop :=
  call.batch.insertElements ++ call.batch.removeEntries ≠ [] → DEPTH ≤ 257

/-- The slot of an element is taken. -/
def Tree.Occupied (tree : Tree DEPTH V) (element : Element) : Prop :=
  ∃ other ∈ tree.entries, other.slot (DEPTH - 1) = element.slot (DEPTH - 1)

namespace CachedTree

/-- What a call leaves behind: a panic, or the tree with the result of the call. -/
abbrev Outcome (DEPTH : Nat) (V C : Type) :=
  Except String (CachedTree DEPTH V C × Except CollisionError Unit)

section

variable (merge : Element → Element → Element) (hash : CacheHash C) (tempNoir : Bool)

/-- `insert_batch` on a mutable tree.  The comparison with the batch only reads the tree. -/
def insertBatchInPlace (cached : CachedTree DEPTH V C) (batch : Batch DEPTH V) :
    Outcome DEPTH V C :=
  match cached.tree.checkCollisions tempNoir batch with
  | .error (.panic message) => .error message
  | .error (.error collisions) => .ok (cached, .error collisions)
  | .ok () =>
      match cached.tree.insertWithoutHashing merge batch with
      | .error (.panic message) => .error message
      | .error (.error _) => .error "called `Result::unwrap()` on an `Err` value"
      | .ok changed =>
          let (node, cache) := changed.tree.recalculateHashesWith merge hash cached.cache
          .ok (⟨{ changed with tree := node }, cache⟩, .ok ())

/-- A call with all it leaves behind, also where it fails. -/
def callInPlace (cached : CachedTree DEPTH V C) : Call DEPTH V → Outcome DEPTH V C
  | .insert element value =>
      match ({} : Batch DEPTH V).insert element value with
      | .ok batch => cached.insertBatchInPlace merge hash tempNoir batch
      | .error (.panic message) => .error message
      | .error (.error _) => .error "called `Result::unwrap()` on an `Err` value"
  | .remove element =>
      match ({} : Batch DEPTH V).remove element with
      | .ok batch => cached.insertBatchInPlace merge hash tempNoir batch
      | .error (.error collisions) => .ok (cached, .error collisions)
      | .error (.panic message) => .error message
  | .insertBatch batch _ => cached.insertBatchInPlace merge hash tempNoir batch

end

/-- The call is accepted: its insertions are not zero and fall on free slots, and the tree
has the elements that it removes. -/
def Admissible (cached : CachedTree DEPTH V C) (call : Call DEPTH V) : Prop :=
  (∀ element ∈ call.batch.insertElements,
      element ≠ Element.ZERO ∧ ¬cached.tree.Occupied element) ∧
    ∀ element ∈ call.batch.removeEntries, element ∈ cached.tree.entries

/-- The call returns, it succeeds exactly when it is accepted, and otherwise it leaves
everything as it was. -/
def Atomic (cached : CachedTree DEPTH V C) (call : Call DEPTH V) (outcome : Outcome DEPTH V C) :
    Prop :=
  ∃ after result, outcome = .ok (after, result) ∧
    (result = .ok () ↔ cached.Admissible call) ∧ (result ≠ .ok () → after = cached)

/-- The tree is not too deep; removals from free slots come only in a build with `TEMP_NOIR`;
and unless a collision or such a removal is found, no insertion is zero and the tree has the
removed elements. -/
def Handled (tempNoir : Bool) (cached : CachedTree DEPTH V C) (call : Call DEPTH V) : Prop :=
  call.Narrow ∧
  (tempNoir = true ∨ ∀ element ∈ call.batch.removeEntries, cached.tree.Occupied element) ∧
    ((∃ element ∈ call.batch.insertElements, cached.tree.Occupied element) ∨
      (∃ element ∈ call.batch.removeEntries, ¬cached.tree.Occupied element) ∨
      (∀ element ∈ call.batch.insertElements, element ≠ Element.ZERO) ∧
        ∀ element ∈ call.batch.removeEntries, element ∈ cached.tree.entries)

variable {merge : Element → Element → Element} {hash : CacheHash C} {tempNoir : Bool}
  {cached : CachedTree DEPTH V C}

/-! ## Every call is a batch -/

/-- The first element of a batch finds all slots free. -/
@[simp]
theorem insert_empty (narrow : DEPTH ≤ 257) (element : Element) (value : V) :
    ({} : Batch DEPTH V).insert element value =
      .ok (({} : Batch DEPTH V).push (element, value)) := by
  have inserted := fun result => @Batch.insert_eq_ok_iff DEPTH V {} result (element, value)
  exact (inserted _).mpr ⟨narrow, List.not_mem_nil, rfl⟩

@[simp]
theorem remove_empty (narrow : DEPTH ≤ 257) (element : Element) :
    ({} : Batch DEPTH V).remove element = .ok (({} : Batch DEPTH V).pushRemove element) :=
  Batch.remove_eq_ok_iff.mpr ⟨narrow, List.not_mem_nil, rfl⟩

@[simp]
theorem callInPlace_eq {call : Call DEPTH V} (narrow : call.Narrow) :
    cached.callInPlace merge hash tempNoir call =
      cached.insertBatchInPlace merge hash tempNoir call.batch := by
  cases call with
  | insert element value =>
      rw [callInPlace, insert_empty (narrow (List.cons_ne_nil _ _))]
      rfl
  | remove element =>
      rw [callInPlace, remove_empty (narrow (List.cons_ne_nil _ _))]
      rfl
  | insertBatch batch built => rfl

theorem built_batch {call : Call DEPTH V} (narrow : call.Narrow) : call.batch.Built := by
  cases call with
  | insert element value => exact .insert .new (insert_empty (narrow (List.cons_ne_nil _ _)) _ _)
  | remove element => exact .remove .new (remove_empty (narrow (List.cons_ne_nil _ _)) _)
  | insertBatch batch built => exact built

/-- In a tree that is too deep, the bits of the slot cannot be cut out of an element. -/
theorem callInPlace_of_deep {call : Call DEPTH V} (deep : ¬call.Narrow) :
    ∃ message, cached.callInPlace merge hash tempNoir call = .error message := by
  cases call with
  | insert element value =>
      have beyond : 256 < DEPTH - 1 := by
        by_contra within
        exact deep fun _ => by omega
      refine ⟨"attempt to subtract with overflow", ?_⟩
      rw [callInPlace, Batch.insert, Batch.claimSlot, if_pos beyond]
      rfl
  | remove element =>
      have beyond : 256 < DEPTH - 1 := by
        by_contra within
        exact deep fun _ => by omega
      refine ⟨"attempt to subtract with overflow", ?_⟩
      rw [callInPlace, Batch.remove, Batch.claimSlot, if_pos beyond]
      rfl
  | insertBatch batch built => exact absurd built.narrow deep

/-- The update in place succeeds exactly when the update does. -/
@[simp]
theorem insertBatchInPlace_eq_ok_iff {batch : Batch DEPTH V} {after : CachedTree DEPTH V C} :
    cached.insertBatchInPlace merge hash tempNoir batch = .ok (after, .ok ()) ↔
      cached.insertBatch merge hash tempNoir batch = .ok after := by
  unfold insertBatchInPlace insertBatch
  cases cached.tree.checkCollisions tempNoir batch with
  | error stop => cases stop <;> simp [bind, Except.bind]
  | ok done =>
      cases cached.tree.insertWithoutHashing merge batch with
      | error stop => cases stop <;> simp [bind, Except.bind]
      | ok changed => simp [bind, Except.bind, pure, Except.pure]

/-! ## The comparison with the tree -/

@[simp]
theorem missing_eq_nil_iff {tree : Tree DEPTH V} {batch : Batch DEPTH V} :
    tree.missing batch = [] ↔ ∀ element ∈ batch.removeEntries, tree.Occupied element := by
  rw [Tree.missing, List.filter_eq_nil_iff]
  simp [Tree.Occupied]

/-- A removal from a free slot panics in an ordinary build. -/
theorem insertBatchInPlace_of_unfinished {batch : Batch DEPTH V} (ordinary : tempNoir = false)
    (vacant : cached.tree.missing batch ≠ []) :
    ∃ message, cached.insertBatchInPlace merge hash tempNoir batch = .error message := by
  unfold insertBatchInPlace Tree.checkCollisions
  rw [check, if_neg (by simp [ordinary, vacant])]
  exact ⟨_, rfl⟩

/-- What the comparison finds is reported, and nothing is changed. -/
theorem insertBatchInPlace_of_found {batch : Batch DEPTH V}
    (finished : cached.tree.missing batch = [] ∨ tempNoir = true)
    (found : ¬(cached.tree.collisions batch = [] ∧ cached.tree.missing batch = [])) :
    ∃ collisions, cached.insertBatchInPlace merge hash tempNoir batch =
      .ok (cached, .error collisions) := by
  unfold insertBatchInPlace Tree.checkCollisions
  rw [check, if_pos finished, check, if_neg (by simpa using found)]
  exact ⟨_, rfl⟩

/-- Behind the comparison there is no error to report. -/
theorem insertBatchInPlace_of_clear {batch : Batch DEPTH V} {after : CachedTree DEPTH V C}
    {result : Except CollisionError Unit}
    (clear : cached.tree.collisions batch = [] ∧ cached.tree.missing batch = [])
    (returned : cached.insertBatchInPlace merge hash tempNoir batch = .ok (after, result)) :
    result = .ok () := by
  have passed : cached.tree.checkCollisions tempNoir batch = .ok () := by
    simp [Tree.checkCollisions, check, clear.1, clear.2]
  unfold insertBatchInPlace at returned
  rw [passed] at returned
  dsimp only at returned
  cases inserted : cached.tree.insertWithoutHashing merge batch with
  | error stop =>
      rw [inserted] at returned
      cases stop <;> cases returned
  | ok changed =>
      rw [inserted] at returned
      cases returned
      rfl

/-! ## Accepted calls -/

theorem Admissible.fits {call : Call DEPTH V} (narrow : call.Narrow)
    (wellFormed : cached.tree.WellFormed merge) (admissible : cached.Admissible call) :
    cached.tree.Fits call.batch where
  slots := (built_batch narrow).claimed.nodup
  nonzero := by
    intro element mem
    rcases List.mem_append.mp mem with inserted | removed
    · exact (admissible.1 element inserted).1
    · exact wellFormed.nonzero element (admissible.2 element removed)
  vacant := fun ⟨element, inserted, taken⟩ => (admissible.1 element inserted).2 taken
  present := admissible.2

/-- In a sound tree an update is total and atomic exactly when it is handled. -/
theorem Sound.atomic_iff (positive : 0 < DEPTH) (sound : cached.Sound merge hash)
    (call : Call DEPTH V) :
    cached.Atomic call (cached.callInPlace merge hash tempNoir call) ↔
      cached.Handled tempNoir call := by
  by_cases narrow : call.Narrow
  case neg =>
    obtain ⟨message, panics⟩ : ∃ message,
        cached.callInPlace merge hash tempNoir call = .error message := callInPlace_of_deep narrow
    apply iff_of_false
    · rintro ⟨after, result, returned, _⟩
      rw [panics] at returned
      cases returned
    · exact fun handled => narrow handled.1
  rw [callInPlace_eq narrow]
  have collisionsIff : cached.tree.collisions call.batch = [] ↔
      ¬∃ element ∈ call.batch.insertElements, cached.tree.Occupied element :=
    Tree.collisions_eq_nil_iff
  have missingIff : cached.tree.missing call.batch = [] ↔
      ∀ element ∈ call.batch.removeEntries, cached.tree.Occupied element :=
    missing_eq_nil_iff
  by_cases finished : cached.tree.missing call.batch = [] ∨ tempNoir = true
  · by_cases clear : cached.tree.collisions call.batch = [] ∧ cached.tree.missing call.batch = []
    · -- nothing is found, so that the call succeeds or panics
      have free := collisionsIff.mp clear.1
      have occupied := missingIff.mp clear.2
      constructor
      · rintro ⟨after, result, returned, succeeds, _⟩
        have admissible := succeeds.mp (insertBatchInPlace_of_clear clear returned)
        exact ⟨narrow, .inr occupied,
          .inr (.inr ⟨fun element mem => (admissible.1 element mem).1, admissible.2⟩)⟩
      · rintro ⟨_, _, taken | ⟨element, mem, vacant⟩ | ⟨nonzero, present⟩⟩
        · exact absurd taken free
        · exact absurd (occupied element mem) vacant
        · have admissible : cached.Admissible call :=
            ⟨fun element mem => ⟨nonzero element mem, fun taken => free ⟨element, mem, taken⟩⟩,
              present⟩
          rcases (admissible.fits narrow sound.wellFormed).exists_insertBatch tempNoir positive
            sound.wellFormed with ⟨tree, inserted⟩
          rcases exists_insertBatch sound.truthful inserted with ⟨after, applied, _⟩
          exact ⟨after, .ok (), insertBatchInPlace_eq_ok_iff.mpr applied,
            iff_of_true rfl admissible, fun failed => absurd rfl failed⟩
    · -- what is found is reported
      rcases insertBatchInPlace_of_found finished clear with ⟨collisions, reported⟩
      have found : (∃ element ∈ call.batch.insertElements, cached.tree.Occupied element) ∨
          ∃ element ∈ call.batch.removeEntries, ¬cached.tree.Occupied element := by
        rw [collisionsIff, missingIff] at clear
        by_contra nothing
        push Not at nothing
        exact clear ⟨fun ⟨element, mem, taken⟩ => nothing.1 element mem taken, nothing.2⟩
      apply iff_of_true
      · refine ⟨cached, .error collisions, reported, ?_, fun _ => rfl⟩
        apply iff_of_false nofun
        intro admissible
        rcases found with ⟨element, mem, taken⟩ | ⟨element, mem, vacant⟩
        · exact (admissible.1 element mem).2 taken
        · exact vacant ⟨element, admissible.2 element mem, rfl⟩
      · refine ⟨narrow, finished.symm.imp_right missingIff.mp, ?_⟩
        exact found.imp_right .inl
  · rw [not_or, Bool.not_eq_true] at finished
    rcases insertBatchInPlace_of_unfinished finished.2 finished.1 with ⟨message, panics⟩
    apply iff_of_false
    · rintro ⟨after, result, returned, _⟩
      rw [panics] at returned
      cases returned
    · rintro ⟨_, isNoir | occupied, _⟩
      · exact absurd isNoir (by simp [finished.2])
      · exact finished.1 (missingIff.mpr occupied)

/-- After any calls, an update is total and atomic exactly when it is handled. -/
theorem update_atomic_iff {cache : C} {calls : List (Call DEPTH V)} (positive : 0 < DEPTH)
    (truthful : Truthful merge hash cache)
    (run : Run (Step merge hash tempNoir) (newWithCache cache) calls cached)
    (call : Call DEPTH V) :
    cached.Atomic call (cached.callInPlace merge hash tempNoir call) ↔
      cached.Handled tempNoir call :=
  (sound_of_run positive truthful run).atomic_iff positive call

/-- An insertion into an empty tree is handled. -/
theorem insertion_atomic :
    (newWithCache () : CachedTree 161 Unit Unit).Atomic (.insert 1 ())
      ((newWithCache ()).callInPlace (· + ·) (noopHash (· + ·)) false (.insert 1 ())) := by
  have run : Run (Step (· + ·) (noopHash (· + ·)) false) (newWithCache ()) []
      (newWithCache () : CachedTree 161 Unit Unit) := .nil
  apply (update_atomic_iff (by decide) noopHash_truthful run _).mpr
  refine ⟨fun _ => (by decide : 161 ≤ 257), .inr (fun _ mem => absurd mem List.not_mem_nil),
    .inr (.inr ⟨?_, ?_⟩)⟩
  · intro element mem
    obtain rfl := List.mem_singleton.mp mem
    decide
  · exact fun _ mem => absurd mem List.not_mem_nil

/-- The insertion of zero and the removal of an absent element panic. -/
theorem update_panics :
    ¬(newWithCache () : CachedTree 161 Unit Unit).Atomic (.insert 0 ())
        ((newWithCache ()).callInPlace (· + ·) (noopHash (· + ·)) false (.insert 0 ())) ∧
      ¬(newWithCache () : CachedTree 161 Unit Unit).Atomic (.remove 1)
        ((newWithCache ()).callInPlace (· + ·) (noopHash (· + ·)) false (.remove 1)) := by
  have run : Run (Step (· + ·) (noopHash (· + ·)) false) (newWithCache ()) []
      (newWithCache () : CachedTree 161 Unit Unit) := .nil
  have sound := sound_of_run (by decide) noopHash_truthful run
  have vacant : ∀ element,
      ¬(newWithCache () : CachedTree 161 Unit Unit).tree.Occupied element :=
    fun _ ⟨_, mem, _⟩ => absurd mem Std.TreeMap.not_mem_emptyc
  rw [sound.atomic_iff (by decide), sound.atomic_iff (by decide)]
  constructor
  · rintro ⟨_, _, ⟨element, _, taken⟩ | ⟨element, mem, _⟩ | ⟨nonzero, _⟩⟩
    · exact vacant element taken
    · exact absurd mem List.not_mem_nil
    · exact nonzero 0 (List.mem_singleton_self _) rfl
  · rintro ⟨_, isNoir | occupied, _⟩
    · cases isNoir
    · exact vacant 1 (occupied 1 (List.mem_singleton_self _))

end CachedTree

end Ciphera.Smirk
