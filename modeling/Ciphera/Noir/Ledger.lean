import Ciphera.Noir.AggUtxo
import Ciphera.Noir.Balance
import Mathlib.Algebra.BigOperators.Group.Finset.Basic

/-!
# The notes committed in the tree

A root says nothing about the notes below it.  The ledger is the history
variable that does: it holds, for every slot of the tree, the note whose
commitment was written there.  Each nonzero commitment of an aggregated
transaction is one change of the ledger, and the circuit's path checks make
the root follow the ledger as long as the hash does not collide.
-/

namespace Ciphera.Noir

open Ciphera.Lib

/-- The note committed in each slot of the tree. -/
abbrev Ledger := Nat → Option Note

/-- The slot of a commitment: its low 160 bits. -/
def slotOf (commitment : Base) : Nat := commitment.val % 2 ^ 160

/-- One commitment removed from or written into the tree, with the path that
shows its slot. -/
structure Change where
  insertion : Bool
  note : Note
  merklePath : Vector Base 160

namespace Ledger

/-- The ledger without notes. -/
def empty : Ledger := fun _ => none

/-- The value of a slot. -/
def slotValue (entry : Option Note) : Nat := entry.elim 0 fun note => note.value.val

/-- The total value of the committed notes. -/
def total (ledger : Ledger) : Nat := ∑ slot ∈ Finset.range (2 ^ 160), slotValue (ledger slot)

variable (poseidon : Poseidon)

/-- The leaf of every slot, zero where no note is. -/
def leaves (ledger : Ledger) : Nat → Base :=
  fun slot => (ledger slot).elim 0 (noteHash poseidon)

/-- The root of the tree of these leaves. -/
def root (ledger : Ledger) : Base :=
  Merkle.root (AggUtxo.merge poseidon) 160 (ledger.leaves poseidon)

/-- The ledger after a change. -/
def apply (ledger : Ledger) (change : Change) : Ledger :=
  Function.update ledger (slotOf (noteHash poseidon change.note))
    (if change.insertion then some change.note else none)

/-- The pairs compressed when the path of a change is checked against the tree:
those of the tree and those of the path. -/
def mergePairs (ledger : Ledger) (change : Change) : Set (Base × Base) :=
  Merkle.nodes (AggUtxo.merge poseidon) 160 (ledger.leaves poseidon) ∪
    Merkle.climbNodes (AggUtxo.merge poseidon)
      (if change.insertion then 0 else noteHash poseidon change.note)
      (slotOf (noteHash poseidon change.note)).testBit
      (fun level => change.merklePath[level]?.getD 0) 160

/-- The ledger after a list of changes. -/
def applyAll (ledger : Ledger) (changes : List Change) : Ledger :=
  changes.foldl (apply poseidon) ledger

/-- The pairs compressed when a list of changes is checked, each against the
tree its predecessors leave. -/
def allPairs : Ledger → List Change → Set (Base × Base)
  | _, [] => ∅
  | ledger, change :: changes =>
      ledger.mergePairs poseidon change ∪ allPairs (ledger.apply poseidon change) changes

/-- What every reachable ledger satisfies: its notes are among the given ones,
are not padding and have a bounded value. -/
def Bounded (notes : Set Note) (ledger : Ledger) : Prop :=
  ∀ slot note, ledger slot = some note →
    note ∈ notes ∧ note.kind ≠ 0 ∧ note.value.val < 2 ^ 240

variable {poseidon}

/-- Writing a slot trades its old value for the new one. -/
theorem total_update (ledger : Ledger) {slot : Nat} (slotLt : slot < 2 ^ 160)
    (entry : Option Note) :
    total (Function.update ledger slot entry) + slotValue (ledger slot) =
      total ledger + slotValue entry := by
  have mem : slot ∈ Finset.range (2 ^ 160) := Finset.mem_range.mpr slotLt
  have others : ∑ other ∈ (Finset.range (2 ^ 160)).erase slot,
      slotValue (Function.update ledger slot entry other) =
        ∑ other ∈ (Finset.range (2 ^ 160)).erase slot, slotValue (ledger other) := by
    apply Finset.sum_congr rfl
    intro other otherMem
    rw [Function.update_of_ne (Finset.ne_of_mem_erase otherMem)]
  unfold total
  rw [← Finset.add_sum_erase _ _ mem, ← Finset.add_sum_erase _ (fun other => slotValue
    (ledger other)) mem, others, Function.update_self]
  omega

@[simp]
theorem leaves_update (ledger : Ledger) (slot : Nat) (entry : Option Note) :
    leaves poseidon (Function.update ledger slot entry) =
      Function.update (leaves poseidon ledger) slot (entry.elim 0 (noteHash poseidon)) := by
  funext other
  by_cases equal : other = slot
  · subst other
    simp [leaves]
  · simp [leaves, Function.update_of_ne equal]

theorem slotOf_lt (commitment : Base) : slotOf commitment < 2 ^ 160 :=
  Nat.mod_lt _ (Nat.two_pow_pos 160)

@[simp]
theorem applyAll_append (ledger : Ledger) (first second : List Change) :
    ledger.applyAll poseidon (first ++ second) =
      (ledger.applyAll poseidon first).applyAll poseidon second :=
  List.foldl_append

@[simp]
theorem allPairs_append (ledger : Ledger) (first second : List Change) :
    ledger.allPairs poseidon (first ++ second) =
      ledger.allPairs poseidon first ∪
        (ledger.applyAll poseidon first).allPairs poseidon second := by
  induction first generalizing ledger with
  | nil => simp [allPairs, applyAll]
  | cons change changes ih =>
      simp only [List.cons_append, allPairs, ih, Set.union_assoc]
      rfl

@[simp]
theorem empty_root : root poseidon empty = Merkle.emptyRoot (AggUtxo.merge poseidon) 0 160 :=
  Merkle.root_null _ _ _

@[simp]
theorem empty_total : empty.total = 0 := by
  unfold total
  exact Finset.sum_eq_zero fun slot _ => rfl

theorem empty_bounded (notes : Set Note) : Bounded notes empty := by
  intro slot note found
  simp [empty] at found

theorem Bounded.update {notes : Set Note} {ledger : Ledger} (bounded : Bounded notes ledger)
    (slot : Nat) {entry : Option Note}
    (entryBounded : ∀ note, entry = some note →
      note ∈ notes ∧ note.kind ≠ 0 ∧ note.value.val < 2 ^ 240) :
    Bounded notes (Function.update ledger slot entry) := by
  intro other note found
  by_cases equal : other = slot
  · subst other
    rw [Function.update_self] at found
    exact entryBounded note found
  · rw [Function.update_of_ne equal] at found
    exact bounded other note found

end Ledger

namespace AggUtxo

variable {poseidon : Poseidon}

/-- The loop of the circuit climbs the path given by the bits. -/
theorem getMerkleRoot_of_bits (leaf : Base) {bits : Vector Bool 254} {key : Nat}
    (merklePath : Vector Base 160)
    (sides : ∀ level (levelLt : level < 160), bits[level] = key.testBit level) :
    getMerkleRoot poseidon leaf bits merklePath =
      Merkle.climb (merge poseidon) leaf key.testBit
        (fun level => merklePath[level]?.getD 0) 160 := by
  rw [← Merkle.foldl_range_eq_climb, ← List.map_coe_finRange_eq_range, List.foldl_map,
    getMerkleRoot]
  apply List.foldl_ext
  intro hash level _
  have side := sides level level.isLt
  cases bit : key.testBit level <;> simp [side, merge, bit, get_eq_getElem]

/-- The bits of a commitment lead to its slot. -/
theorem getMerkleRoot_eq_climb (leaf commitment : Base) (merklePath : Vector Base 160) :
    getMerkleRoot poseidon leaf (toLeBits commitment) merklePath =
      Merkle.climb (merge poseidon) leaf (slotOf commitment).testBit
        (fun level => merklePath[level]?.getD 0) 160 := by
  apply getMerkleRoot_of_bits
  intro level levelLt
  rw [slotOf, Nat.testBit_mod_two_pow]
  simp [toLeBits, levelLt]

end AggUtxo

/-! ## The root follows the ledger -/

/-- The hash separates the given notes from each other and from padding. -/
structure NotesSeparated (poseidon : Poseidon) (notes : Set Note) : Prop where
  injOn : Set.InjOn (noteHash poseidon) notes
  nonzero : ∀ note ∈ notes, noteHash poseidon note ≠ 0

namespace Change

variable (poseidon : Poseidon)

/-- The circuit's step for one commitment. -/
def step (root : Base) (change : Change) : Circuit Base :=
  if change.insertion then
    AggUtxo.insertOutput poseidon root (noteHash poseidon change.note) change.merklePath
  else
    AggUtxo.removeInput poseidon root (noteHash poseidon change.note) change.merklePath

/-- The root reached from a leaf along the path of the change. -/
def climb (change : Change) (leaf : Base) : Base :=
  Merkle.climb (AggUtxo.merge poseidon) leaf
    (slotOf (noteHash poseidon change.note)).testBit
    (fun level => change.merklePath[level]?.getD 0) 160

/-- The value taken out of the tree. -/
def removed (change : Change) : Nat := if change.insertion then 0 else change.note.value.val

/-- The value put into the tree. -/
def inserted (change : Change) : Nat := if change.insertion then change.note.value.val else 0

/-- A change of a note that is not padding, bounded if it is created. -/
structure Valid (notes : Set Note) (change : Change) : Prop where
  mem : change.note ∈ notes
  notPadding : change.note.kind ≠ 0
  bounded : change.insertion = true → change.note.value.val < 2 ^ 240

variable {poseidon}

/-- A successful step checks the leaf below its path and writes the other one. -/
theorem step_eq_ok {root next : Base} {change : Change}
    (nonzero : noteHash poseidon change.note ≠ 0)
    (stepped : change.step poseidon root = .ok next) :
    change.climb poseidon (if change.insertion then 0 else noteHash poseidon change.note) =
        root ∧
      change.climb poseidon (if change.insertion then noteHash poseidon change.note else 0) =
        next := by
  unfold step at stepped
  cases insertion : change.insertion with
  | false =>
      simp only [insertion, Bool.false_eq_true, if_false, AggUtxo.removeInput, nonzero, ne_eq,
        not_false_eq_true, if_true, AggUtxo.validateInclusion, AggUtxo.getNullRoot,
        AggUtxo.getMerkleRoot_eq_climb, bind_eq_ok_iff, check_eq_ok_iff, pure_eq_ok_iff,
        exists_const, climb] at stepped ⊢
      exact stepped
  | true =>
      simp only [insertion, if_true, AggUtxo.insertOutput, nonzero, ne_eq,
        not_false_eq_true, AggUtxo.validateNull, AggUtxo.getNullRoot,
        AggUtxo.getMerkleRoot_eq_climb, bind_eq_ok_iff, check_eq_ok_iff, pure_eq_ok_iff,
        exists_const, climb] at stepped ⊢
      exact stepped

/-- One step moves the root from a ledger to the changed ledger, and the slot
it changes held exactly the removed note, or nothing. -/
theorem step_follows {notes : Set Note} (separated : NotesSeparated poseidon notes)
    {ledger : Ledger} (bounded : ledger.Bounded notes) {change : Change}
    (valid : change.Valid notes)
    (collisionFree : Set.InjOn (Function.uncurry (AggUtxo.merge poseidon))
      (ledger.mergePairs poseidon change))
    {next : Base} (stepped : change.step poseidon (ledger.root poseidon) = .ok next) :
    next = (ledger.apply poseidon change).root poseidon ∧
      ledger (slotOf (noteHash poseidon change.note)) =
        if change.insertion then none else some change.note := by
  have nonzero := separated.nonzero _ valid.mem
  obtain ⟨checked, written⟩ := step_eq_ok nonzero stepped
  obtain ⟨leafEq, updated⟩ :=
    Merkle.climb_eq_root_binding (Ledger.slotOf_lt _) collisionFree checked
  refine ⟨?_, ?_⟩
  · rw [← written, climb, updated, Ledger.root, Ledger.apply, Ledger.leaves_update]
    cases change.insertion <;> rfl
  · unfold Ledger.leaves at leafEq
    cases found : ledger (slotOf (noteHash poseidon change.note)) with
    | none =>
        cases insertion : change.insertion with
        | false => simp [found, insertion, nonzero.symm] at leafEq
        | true => rfl
    | some other =>
        have otherMem := (bounded _ _ found).1
        cases insertion : change.insertion with
        | false =>
            have hashEq : noteHash poseidon other = noteHash poseidon change.note := by
              simpa [found, insertion] using leafEq
            rw [separated.injOn otherMem valid.mem hashEq]
            rfl
        | true =>
            have hashEq : noteHash poseidon other = 0 := by simpa [found, insertion] using leafEq
            exact absurd hashEq (separated.nonzero _ otherMem)

/-- One step keeps the ledger bounded and moves the total by the note's value. -/
theorem apply_total (poseidon : Poseidon) {notes : Set Note} {ledger : Ledger} (bounded : ledger.Bounded notes)
    {change : Change} (valid : change.Valid notes)
    (slotEq : ledger (slotOf (noteHash poseidon change.note)) =
      if change.insertion then none else some change.note) :
    (ledger.apply poseidon change).Bounded notes ∧
      (ledger.apply poseidon change).total + change.removed =
        ledger.total + change.inserted ∧
      change.removed < 2 ^ 240 := by
  have traded := Ledger.total_update ledger
    (Ledger.slotOf_lt (noteHash poseidon change.note))
    (if change.insertion then some change.note else none)
  rw [slotEq] at traded
  cases insertion : change.insertion with
  | false =>
      simp only [insertion, Bool.false_eq_true, if_false] at traded slotEq
      refine ⟨?_, ?_, ?_⟩
      · unfold Ledger.apply
        exact bounded.update _ (by simp [insertion])
      · simpa [Ledger.apply, removed, inserted, insertion, Ledger.slotValue] using traded
      · simpa [removed, insertion] using (bounded _ _ slotEq).2.2
  | true =>
      simp only [insertion, if_true] at traded
      refine ⟨?_, ?_, ?_⟩
      · unfold Ledger.apply
        refine bounded.update _ fun note noteEq => ?_
        obtain rfl : change.note = note := by simpa [insertion] using noteEq
        exact ⟨valid.mem, valid.notPadding, valid.bounded insertion⟩
      · simpa [Ledger.apply, removed, inserted, insertion, Ledger.slotValue] using traded
      · simp [removed, insertion]

/-- A successful list of steps moves the root from a ledger to the changed
ledger, keeps it bounded and moves its total by the values of the notes. -/
theorem foldlM_step_follows {notes : Set Note} (separated : NotesSeparated poseidon notes)
    {changes : List Change} (valid : ∀ change ∈ changes, change.Valid notes)
    {ledger : Ledger} (bounded : ledger.Bounded notes)
    (collisionFree : Set.InjOn (Function.uncurry (AggUtxo.merge poseidon))
      (ledger.allPairs poseidon changes))
    {next : Base}
    (stepped : changes.foldlM (fun root change => change.step poseidon root)
      (ledger.root poseidon) = .ok next) :
    next = (ledger.applyAll poseidon changes).root poseidon ∧
      (ledger.applyAll poseidon changes).Bounded notes ∧
      (ledger.applyAll poseidon changes).total + (changes.map removed).sum =
        ledger.total + (changes.map inserted).sum ∧
      ∀ change ∈ changes, change.removed < 2 ^ 240 := by
  induction changes generalizing ledger with
  | nil =>
      have nextEq : ledger.root poseidon = next := by simpa using stepped
      exact ⟨nextEq.symm, bounded, rfl, by simp⟩
  | cons change changes ih =>
      rw [List.foldlM_cons, bind_eq_ok_iff] at stepped
      obtain ⟨middle, first, rest⟩ := stepped
      have changeValid := valid change List.mem_cons_self
      obtain ⟨rfl, slotEq⟩ := step_follows separated bounded changeValid
        (collisionFree.mono Set.subset_union_left) first
      obtain ⟨changeBounded, changeTotal, removedLt⟩ :=
        apply_total poseidon bounded changeValid slotEq
      obtain ⟨rootEq, finalBounded, restTotal, restLt⟩ :=
        ih (fun other mem => valid other (List.mem_cons_of_mem _ mem)) changeBounded
          (collisionFree.mono Set.subset_union_right) rest
      refine ⟨rootEq, finalBounded, ?_, ?_⟩
      · simp only [List.map_cons, List.sum_cons]
        change ((ledger.apply poseidon change).applyAll poseidon changes).total + _ = _
        omega
      · intro other mem
        rcases List.mem_cons.mp mem with rfl | mem
        · exact removedLt
        · exact restLt other mem

end Change

end Ciphera.Noir
