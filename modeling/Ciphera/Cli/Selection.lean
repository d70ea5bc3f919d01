import Ciphera.Cli.Effects
import Mathlib.Algebra.Order.BigOperators.Group.List
import Mathlib.Algebra.Order.Group.Nat
import Mathlib.Data.List.Sublists

/-!
# The choice of input notes

The search goes through single notes and pairs of notes and keeps the one with the least
excess, and of two with the same excess the one with fewer notes.  As long as no sum of
amounts overflows it considers every note and every pair, so that it finds a choice if
there is one, and a best one.
-/

namespace Ciphera.Cli

open Ciphera.Lib Ciphera.Zk
open Ciphera.Noir (Poseidon)

/-! ## Choices -/

/-- What notes are worth together. -/
def totalAmount (notes : List InputNote) : Nat :=
  (notes.map fun other => other.note.amount.toNat).sum

/-- One note, or two different ones, that cover the amount. -/
structure Choice (notes : List InputNote) (amount : BitVec 64) (chosen : List InputNote) :
    Prop where
  few : chosen.length = 1 ∨ chosen.length = 2
  different : (chosen.map InputNote.note).Nodup
  available : ∀ note ∈ chosen, note ∈ notes
  covers : amount.toNat ≤ totalAmount chosen

/-- What chosen notes are worth beyond an amount. -/
def excess (amount : BitVec 64) (chosen : List InputNote) : Nat :=
  totalAmount chosen - amount.toNat

/-- Less excess, or the same excess with no more notes. -/
def AtLeastAsGood (amount : BitVec 64) (chosen other : List InputNote) : Prop :=
  excess amount chosen < excess amount other ∨
    excess amount chosen = excess amount other ∧ chosen.length ≤ other.length

section

variable {notes chosen : List InputNote} {amount : BitVec 64} {selection : Selection}

/-- The candidates are the one or two notes of the list whose amounts can be added. -/
theorem mem_candidates_iff :
    selection ∈ candidates (notes.map fun other => (other, other.note.amount)) ↔
      Wallet.Candidate selection ∧ selection.1.Sublist notes := by
  constructor
  · intro member
    refine ⟨Wallet.candidate_of_mem member, ?_⟩
    induction notes with
    | nil => cases member
    | cons first notes ih =>
        rw [List.map_cons, candidates, List.cons_append, List.mem_cons, List.mem_append] at member
        rcases member with rfl | pair | later
        · exact List.cons_sublist_cons.mpr (List.nil_sublist notes)
        · rcases List.mem_filterMap.mp pair with ⟨entry, listed, combined⟩
          rcases List.mem_map.mp listed with ⟨second, secondMem, rfl⟩
          rcases Option.map_eq_some_iff.mp combined with ⟨total, _, rfl⟩
          exact List.cons_sublist_cons.mpr (List.singleton_sublist.mpr secondMem)
        · exact (ih later).cons first
  · rintro ⟨⟨few, totalEq⟩, sublist⟩
    rcases selection with ⟨selected, total⟩
    dsimp only at few totalEq sublist
    induction notes with
    | nil =>
        obtain rfl := List.sublist_nil.mp sublist
        simp at few
    | cons first notes ih =>
        rw [List.map_cons, candidates, List.cons_append, List.mem_cons, List.mem_append]
        rcases List.sublist_cons_iff.mp sublist with later | ⟨rest, rfl, restSublist⟩
        · exact .inr (.inr (ih later))
        · rcases rest with _ | ⟨second, _ | ⟨third, rest⟩⟩
          · left
            have same : total = first.note.amount :=
              BitVec.eq_of_toNat_eq (totalEq.trans (add_zero _))
            rw [same]
          · right
            left
            have secondMem := List.singleton_sublist.mp restSublist
            have sumEq : total.toNat = first.note.amount.toNat + second.note.amount.toNat := by
              simpa using totalEq
            have fits : first.note.amount.toNat + second.note.amount.toNat < 2 ^ 64 :=
              sumEq ▸ total.isLt
            have same : total = first.note.amount + second.note.amount :=
              BitVec.eq_of_toNat_eq (sumEq.trans (BitVec.toNat_add_of_lt fits).symm)
            refine List.mem_filterMap.mpr ⟨_, List.mem_map_of_mem secondMem, ?_⟩
            rw [checkedAdd, if_pos fits, same]
            rfl
          · simp at few

/-! ## The search -/

theorem Choice.notes_nodup (choice : Choice notes amount chosen) : chosen.Nodup :=
  .of_map InputNote.note choice.different

theorem Choice.notes_ne_nil (choice : Choice notes amount chosen) : notes ≠ [] := by
  rintro rfl
  have none : chosen = [] :=
    List.eq_nil_iff_forall_not_mem.mpr fun note mem => List.not_mem_nil (choice.available note mem)
  rcases choice.few with one | two
  · rw [none] at one
    cases one
  · rw [none] at two
    cases two

/-- A choice is considered, with its notes in some order. -/
theorem Choice.exists_candidate (choice : Choice notes amount chosen)
    (small : totalAmount notes < 2 ^ 64) :
    ∃ selection ∈ candidates (notes.map fun other => (other, other.note.amount)),
      amount ≤ selection.2 ∧ selection.2.toNat = totalAmount chosen ∧
        selection.1.length = chosen.length := by
  rcases List.subperm_of_subset choice.notes_nodup choice.available with ⟨selected, perm, sublist⟩
  have totalEq : totalAmount selected = totalAmount chosen := (perm.map _).sum_eq
  have fits : totalAmount selected < 2 ^ 64 :=
    Nat.lt_of_le_of_lt ((sublist.map _).sum_le_sum fun _ _ => Nat.zero_le _) small
  have toNatEq : (BitVec.ofNat 64 (totalAmount selected)).toNat = totalAmount selected := by
    rw [BitVec.toNat_ofNat, Nat.mod_eq_of_lt fits]
  refine ⟨(selected, BitVec.ofNat 64 (totalAmount selected)), ?_, ?_, toNatEq.trans totalEq,
    perm.length_eq⟩
  · exact mem_candidates_iff.mpr ⟨⟨perm.length_eq ▸ choice.few, toNatEq⟩, sublist⟩
  · rw [BitVec.le_def, toNatEq, totalEq]
    exact choice.covers

/-- The search fails exactly if nothing covers the amount. -/
theorem foldl_eq_none (small : totalAmount notes < 2 ^ 64)
    (failed : (candidates (notes.map fun other => (other, other.note.amount))).foldl
      (considerCandidate amount) none = none) : ¬Choice notes amount chosen := by
  intro choice
  rcases choice.exists_candidate small with ⟨candidate, mem, covers, _⟩
  have outcome := Wallet.outcome_foldl amount
    (candidates (notes.map fun other => (other, other.note.amount)))
  rw [failed] at outcome
  exact of_decide_eq_false (outcome candidate mem) covers

/-- What the search finds is a choice, and none is better. -/
theorem foldl_eq_some (distinct : (notes.map InputNote.note).Nodup)
    (small : totalAmount notes < 2 ^ 64)
    (found : (candidates (notes.map fun other => (other, other.note.amount))).foldl
      (considerCandidate amount) none = some selection) :
    Choice notes amount selection.1 ∧ selection.2.toNat = totalAmount selection.1 ∧
      ∀ other, Choice notes amount other → AtLeastAsGood amount selection.1 other := by
  rcases Wallet.best_of_foldl found with ⟨mem, accepted, least⟩
  rcases mem_candidates_iff.mp mem with ⟨⟨few, totalEq⟩, sublist⟩
  have covers : amount ≤ selection.2 := of_decide_eq_true accepted
  have choice : Choice notes amount selection.1 :=
    { few := few
      different := distinct.sublist (sublist.map _)
      available := fun note mem => sublist.subset mem
      covers := (BitVec.le_def.mp covers).trans_eq totalEq }
  refine ⟨choice, totalEq, fun other otherChoice => ?_⟩
  rcases otherChoice.exists_candidate small with
    ⟨candidate, candidateMem, candidateCovers, candidateTotal, candidateLength⟩
  have ranked := least candidate candidateMem (decide_eq_true candidateCovers)
  rw [Wallet.rank, Wallet.rank, Prod.Lex.toLex_le_toLex, BitVec.toNat_sub_of_le covers,
    BitVec.toNat_sub_of_le candidateCovers, totalEq, candidateTotal, candidateLength] at ranked
  exact ranked

end

/-! ## Taking the notes -/

namespace Wallet

variable {poseidon : Poseidon} {pk : Element} {ticker : String} {wallet after : Wallet}
  {inputNote : InputNote} {amount : BitVec 64}

/-- Only the notes of a ticker are different, and the balance. -/
structure Touches (ticker : String) (before after : Wallet) : Prop where
  others : ∀ other, other ≠ ticker → after.avail.get other = before.avail.get other
  pending : after.pending = before.pending
  name : after.name = before.name

theorem Touches.trans {middle : Wallet} (first : Touches ticker wallet middle)
    (second : Touches ticker middle after) : Touches ticker wallet after where
  others other differ := (second.others other differ).trans (first.others other differ)
  pending := second.pending.trans first.pending
  name := second.name.trans first.name

theorem exists_pullFromAvail
    (distinct : ((wallet.avail.get ticker).map InputNote.note).Nodup)
    (mem : inputNote ∈ wallet.avail.get ticker) :
    ∃ after, wallet.pullFromAvail ticker inputNote = .ok after ∧
      after.avail.get ticker =
        (wallet.avail.get ticker).filter (fun other => decide (other ≠ inputNote)) ∧
      Touches ticker wallet after := by
  rcases find?_eq_of_nodup distinct mem with ⟨found, erased⟩
  refine ⟨{ wallet with
    avail := wallet.avail.put ticker ((wallet.avail.get ticker).eraseP fun other =>
      other.note = inputNote.note)
    balance := wallet.balance - inputNote.note.amount }, ?_, ?_, ?_⟩
  · unfold pullFromAvail
    dsimp only
    rw [found]
    rfl
  · exact (Bags.get_put _ _ _).trans erased
  · exact ⟨fun other differ => Bags.get_put_of_ne _ _ differ, rfl, rfl⟩

/-- Pulling different notes one after another takes exactly these. -/
theorem exists_foldlM_pullFromAvail {chosen : List InputNote}
    (distinct : ((wallet.avail.get ticker).map InputNote.note).Nodup) (nodup : chosen.Nodup)
    (available : ∀ note ∈ chosen, note ∈ wallet.avail.get ticker) :
    ∃ after, chosen.foldlM (fun wallet note => wallet.pullFromAvail ticker note) wallet =
        .ok after ∧
      after.avail.get ticker =
        (wallet.avail.get ticker).filter (fun other => decide (other ∉ chosen)) ∧
      Touches ticker wallet after := by
  induction chosen generalizing wallet with
  | nil => exact ⟨wallet, rfl, by simp, ⟨fun _ _ => rfl, rfl, rfl⟩⟩
  | cons first chosen ih =>
      rw [List.nodup_cons] at nodup
      rcases exists_pullFromAvail distinct (available first List.mem_cons_self) with
        ⟨middle, pulled, left, touches⟩
      have stillDistinct : ((middle.avail.get ticker).map InputNote.note).Nodup := by
        rw [left]
        exact distinct.sublist (List.filter_sublist.map _)
      have stillAvailable : ∀ note ∈ chosen, note ∈ middle.avail.get ticker := by
        intro note mem
        rw [left, List.mem_filter]
        refine ⟨available note (List.mem_cons_of_mem first mem), decide_eq_true ?_⟩
        rintro rfl
        exact nodup.1 mem
      rcases ih stillDistinct nodup.2 stillAvailable with ⟨after, rest, leftAfter, touchesAfter⟩
      refine ⟨after, ?_, ?_, touches.trans touchesAfter⟩
      · rw [List.foldlM_cons, pulled]
        exact rest
      · rw [leftAfter, left, List.filter_filter]
        apply List.filter_congr
        intro other _
        simp [Bool.and_comm]

/-! ## The choice -/

/-- The chosen notes are the inputs and leave the wallet, and a note with the excess comes
in for them. -/
structure Takes (poseidon : Poseidon) (pk : Element) (ticker : String) (before after : Wallet)
    (amount : BitVec 64) (inputs : Vector InputNote 2) (change : Note)
    (chosen : List InputNote) : Prop where
  inputsEq : inputsOf chosen = .ok inputs
  changeEq : change =
    if excess amount chosen = 0 then Note.paddingNote
    else (makeChangeNote poseidon pk (chosen.headD InputNote.paddingNote).note
      (BitVec.ofNat 64 (excess amount chosen))).note
  value : change.value.toNat = excess amount chosen
  avail : after.avail.get ticker =
    (before.avail.get ticker).filter (fun other => decide (other ∉ chosen)) ++
      if excess amount chosen = 0 then [] else [⟨change, pk⟩]
  touches : Touches ticker before after

theorem exists_inputsOf {chosen : List InputNote} (few : chosen.length = 1 ∨ chosen.length = 2) :
    ∃ inputs, inputsOf chosen = .ok inputs := by
  rcases few with one | two
  · rcases List.length_eq_one_iff.mp one with ⟨note1, rfl⟩
    exact ⟨_, rfl⟩
  · rcases List.length_eq_two.mp two with ⟨note1, note2, rfl⟩
    exact ⟨_, rfl⟩

theorem touches_pushToAvail (ticker : String) (inputNote : InputNote) (wallet : Wallet) :
    ∃ after, wallet.pushToAvail ticker inputNote = .ok after ∧
      after.avail.get ticker = wallet.avail.get ticker ++ [inputNote] ∧
      Touches ticker wallet after :=
  ⟨_, rfl, Bags.get_put _ _ _,
    ⟨fun _ differ => Bags.get_put_of_ne _ _ differ, rfl, rfl⟩⟩

section

variable {selected : List InputNote} {total : BitVec 64} {middle : Wallet}
  {inputs : Vector InputNote 2}

/-- Notes that have the amount leave no change. -/
theorem selectInputNotes_exact (nonempty : wallet.avail.get ticker ≠ [])
    (found : (candidates ((wallet.avail.get ticker).map fun other =>
      (other, other.note.amount))).foldl (considerCandidate amount) none = some (selected, total))
    (pulled : selected.foldlM (fun wallet note => wallet.pullFromAvail ticker note) wallet =
      .ok middle)
    (inputsEq : inputsOf selected = .ok inputs) (same : total = amount) :
    wallet.selectInputNotes poseidon pk ticker amount = .ok (middle, inputs, Note.paddingNote) := by
  unfold selectInputNotes
  dsimp only
  rw [check_of _ nonempty, mapM_getNoteAmount]
  simp only [ok_bind, zip_amounts, found, pulled, if_pos same, inputsEq, pure_bind]
  rfl

/-- Of other notes the change goes back to the wallet. -/
theorem selectInputNotes_change (nonempty : wallet.avail.get ticker ≠ [])
    (found : (candidates ((wallet.avail.get ticker).map fun other =>
      (other, other.note.amount))).foldl (considerCandidate amount) none = some (selected, total))
    (pulled : selected.foldlM (fun wallet note => wallet.pullFromAvail ticker note) wallet =
      .ok middle)
    (inputsEq : inputsOf selected = .ok inputs) (differ : total ≠ amount)
    (pushed : middle.pushToAvail ticker (makeChangeNote poseidon pk
      (selected.headD InputNote.paddingNote).note (total - amount)) = .ok after) :
    wallet.selectInputNotes poseidon pk ticker amount =
      .ok (after, inputs, (makeChangeNote poseidon pk
        (selected.headD InputNote.paddingNote).note (total - amount)).note) := by
  unfold selectInputNotes
  dsimp only
  rw [check_of _ nonempty, mapM_getNoteAmount]
  simp only [ok_bind, zip_amounts, found, pulled, if_neg differ, inputsEq, pure_bind]
  rw [pushed]
  rfl

end

/-- What the search finds is taken. -/
theorem exists_selectInputNotes {selection : Selection} (poseidon : Poseidon) (pk : Element)
    (distinct : ((wallet.avail.get ticker).map InputNote.note).Nodup)
    (choice : Choice (wallet.avail.get ticker) amount selection.1)
    (totalEq : selection.2.toNat = totalAmount selection.1)
    (found : (candidates ((wallet.avail.get ticker).map fun other =>
      (other, other.note.amount))).foldl (considerCandidate amount) none = some selection) :
    ∃ after inputs change,
      wallet.selectInputNotes poseidon pk ticker amount = .ok (after, inputs, change) ∧
        Takes poseidon pk ticker wallet after amount inputs change selection.1 := by
  rcases selection with ⟨selected, total⟩
  dsimp only at choice totalEq ⊢
  rcases exists_foldlM_pullFromAvail distinct choice.notes_nodup choice.available with
    ⟨middle, pulled, left, touches⟩
  rcases exists_inputsOf choice.few with ⟨inputs, inputsEq⟩
  have covers : amount ≤ total := BitVec.le_def.mpr (totalEq ▸ choice.covers)
  have excessEq : (total - amount).toNat = excess amount selected := by
    rw [BitVec.toNat_sub_of_le covers, totalEq, excess]
  by_cases same : total = amount
  · have noExcess : excess amount selected = 0 := by
      rw [← excessEq, same, BitVec.sub_self]
      rfl
    refine ⟨middle, inputs, Note.paddingNote,
      selectInputNotes_exact choice.notes_ne_nil found pulled inputsEq same, ?_⟩
    exact
      { inputsEq := inputsEq
        changeEq := by rw [if_pos noExcess]
        value := noExcess.symm
        avail := by rw [left, if_pos noExcess, List.append_nil]
        touches := touches }
  · have someExcess : excess amount selected ≠ 0 := by
      intro noExcess
      apply same
      apply BitVec.eq_of_toNat_eq
      exact Nat.le_antisymm (totalEq ▸ Nat.sub_eq_zero_iff_le.mp noExcess)
        (BitVec.le_def.mp covers)
    have changeAmount : BitVec.ofNat 64 (excess amount selected) = total - amount := by
      rw [← excessEq, BitVec.ofNat_toNat, BitVec.setWidth_eq]
    rcases touches_pushToAvail ticker (makeChangeNote poseidon pk
      (selected.headD InputNote.paddingNote).note (total - amount)) middle with
      ⟨after, pushed, added, touchesAfter⟩
    refine ⟨after, inputs, _,
      selectInputNotes_change choice.notes_ne_nil found pulled inputsEq same pushed, ?_⟩
    exact
      { inputsEq := inputsEq
        changeEq := by rw [if_neg someExcess, changeAmount]
        value := (value_makeChangeNote _ _).trans excessEq
        avail := by
          rw [added, left, if_neg someExcess]
          rfl
        touches := touches.trans touchesAfter }

/-- Without a selection there is no result. -/
theorem exists_selection {result : Wallet × Vector InputNote 2 × Note}
    (done : wallet.selectInputNotes poseidon pk ticker amount = .ok result) :
    ∃ selection, (candidates ((wallet.avail.get ticker).map fun other =>
      (other, other.note.amount))).foldl (considerCandidate amount) none = some selection := by
  unfold selectInputNotes at done
  rcases bind_eq_ok_iff.mp done with ⟨_, _, done⟩
  rw [mapM_getNoteAmount, ok_bind, zip_amounts] at done
  split at done
  · cases done
  · rename_i selected total found
    exact ⟨_, found⟩

/-- The selection succeeds exactly if one or two notes cover the amount, and takes a best
choice of them. -/
theorem selection_best (poseidon : Poseidon) (pk : Element) (ticker : String)
    (amount : BitVec 64) (wallet : Wallet)
    (distinct : ((wallet.avail.get ticker).map InputNote.note).Nodup)
    (small : totalAmount (wallet.avail.get ticker) < 2 ^ 64) :
    ((∃ result, wallet.selectInputNotes poseidon pk ticker amount = .ok result) ↔
      ∃ chosen, Choice (wallet.avail.get ticker) amount chosen) ∧
    ∀ after inputs change,
      wallet.selectInputNotes poseidon pk ticker amount = .ok (after, inputs, change) →
        ∃ chosen, Choice (wallet.avail.get ticker) amount chosen ∧
          (∀ other, Choice (wallet.avail.get ticker) amount other →
            AtLeastAsGood amount chosen other) ∧
          Takes poseidon pk ticker wallet after amount inputs change chosen := by
  constructor
  · constructor
    · rintro ⟨result, done⟩
      rcases exists_selection done with ⟨selection, found⟩
      exact ⟨selection.1, (foldl_eq_some distinct small found).1⟩
    · rintro ⟨chosen, choice⟩
      rcases searchEq : (candidates ((wallet.avail.get ticker).map fun other =>
        (other, other.note.amount))).foldl (considerCandidate amount) none with _ | selection
      · exact absurd choice (foldl_eq_none small searchEq)
      · rcases foldl_eq_some distinct small searchEq with ⟨found, totalEq, _⟩
        rcases exists_selectInputNotes poseidon pk distinct found totalEq searchEq with
          ⟨after, inputs, change, done, _⟩
        exact ⟨_, done⟩
  · intro after inputs change done
    rcases exists_selection done with ⟨selection, found⟩
    rcases foldl_eq_some distinct small found with ⟨choice, totalEq, best⟩
    rcases exists_selectInputNotes poseidon pk distinct choice totalEq found with
      ⟨_, _, _, same, takes⟩
    rw [same] at done
    cases done
    exact ⟨selection.1, choice, best, takes⟩

/-- A note that covers the amount beside a smaller one. -/
def twoNotes : Wallet where
  avail :=
    [("WCBTC",
      [⟨⟨2, citreaWcbtcNoteKind, 7, 0, 42⟩, 1⟩, ⟨⟨2, citreaWcbtcNoteKind, 7, 0, 3⟩, 1⟩])]
  name := some "test"
  balance := 45

theorem twoNotes_selection :
    ∃ result, twoNotes.selectInputNotes (fun _ => 0) 1 "WCBTC" 14 = .ok result := by
  have distinct : ((twoNotes.avail.get "WCBTC").map InputNote.note).Nodup := by decide
  have small : totalAmount (twoNotes.avail.get "WCBTC") < 2 ^ 64 := by decide
  have choice : Choice (twoNotes.avail.get "WCBTC") 14
      [⟨⟨2, citreaWcbtcNoteKind, 7, 0, 42⟩, 1⟩] :=
    { few := .inl rfl
      different := List.nodup_singleton _
      available := by decide
      covers := by decide }
  exact (selection_best (fun _ => 0) 1 "WCBTC" 14 twoNotes distinct small).1.mpr ⟨_, choice⟩

end Wallet

end Ciphera.Cli
