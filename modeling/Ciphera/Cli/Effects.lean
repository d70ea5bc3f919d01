import Ciphera.Cli.Wallet
import Ciphera.Lib.Best
import Mathlib.Data.Prod.Lex

/-!
# What the operations of a wallet do

Each operation takes notes out of the available ones, puts notes in, and adjusts the
balance by their amounts.  Only the import, the synchronisation and a new address touch the
pending notes.
-/

namespace Ciphera.Cli.Wallet

open Ciphera.Lib Ciphera.Zk
open Ciphera.Noir (Poseidon)

/-- The available notes. -/
def notes (wallet : Wallet) : Multiset Note := wallet.avail.all.map InputNote.note

/-- Notes are added to the available ones. -/
structure Pushes (before after : Wallet) (notes : Multiset InputNote) : Prop where
  avail : after.avail.all = before.avail.all + notes
  pending : after.pending = before.pending
  balance : after.balance = before.balance + (notes.map fun other => other.note.amount).sum

/-- Notes are taken from the available ones. -/
structure Pulls (before after : Wallet) (spent : Multiset Note) : Prop where
  notes : after.notes + spent = before.notes
  pending : after.pending = before.pending
  balance : after.balance + (spent.map Note.amount).sum = before.balance

variable {poseidon : Poseidon} {pk : Element} {ticker : String} {note : Note}
  {inputNote : InputNote} {wallet after : Wallet} {utxo : Utxo}

/-! ## One note -/

theorem Pushes.refl (wallet : Wallet) : wallet.Pushes wallet 0 :=
  ⟨(add_zero _).symm, rfl, by simp⟩

theorem Pushes.trans {middle : Wallet} {first second : Multiset InputNote}
    (earlier : wallet.Pushes middle first) (later : middle.Pushes after second) :
    wallet.Pushes after (first + second) where
  avail := by rw [later.avail, earlier.avail, add_assoc]
  pending := later.pending.trans earlier.pending
  balance := by rw [later.balance, earlier.balance, Multiset.map_add, Multiset.sum_add, add_assoc]

theorem Pushes.notes_eq {added : Multiset InputNote} (pushes : wallet.Pushes after added) :
    after.notes = wallet.notes + added.map InputNote.note := by
  rw [notes, pushes.avail, Multiset.map_add]
  rfl

theorem Pulls.refl (wallet : Wallet) : wallet.Pulls wallet 0 :=
  ⟨add_zero _, rfl, by simp⟩

theorem Pulls.trans {middle : Wallet} {first second : Multiset Note}
    (earlier : wallet.Pulls middle first) (later : middle.Pulls after second) :
    wallet.Pulls after (first + second) where
  notes := by rw [← earlier.notes, ← later.notes, add_right_comm, add_assoc]
  pending := later.pending.trans earlier.pending
  balance := by
    rw [← earlier.balance, ← later.balance, Multiset.map_add, Multiset.sum_add, add_right_comm,
      add_assoc]

theorem pushes_of_pushToAvail (pushed : wallet.pushToAvail ticker inputNote = .ok after) :
    wallet.Pushes after {inputNote} := by
  rcases bind_eq_ok_iff.mp pushed with ⟨amount, read, done⟩
  rw [getNoteAmount_eq] at read
  obtain rfl := Except.ok.inj read
  obtain rfl := pure_eq_ok_iff.mp done
  have exchanged := Bags.all_put ticker (wallet.avail.get ticker ++ [inputNote]) wallet.avail
  rw [← Multiset.coe_add, Multiset.coe_singleton, ← add_assoc, add_right_comm] at exchanged
  exact
    { avail := add_right_cancel exchanged
      pending := rfl
      balance := by rw [Multiset.map_singleton, Multiset.sum_singleton] }

theorem pulls_of_pullFromAvail (pulled : wallet.pullFromAvail ticker inputNote = .ok after) :
    wallet.Pulls after {inputNote.note} := by
  unfold pullFromAvail at pulled
  dsimp only at pulled
  split at pulled
  · cases pulled
  · rename_i removed found
    have same : removed.note = inputNote.note := by simpa using List.find?_some found
    obtain rfl := pure_eq_ok_iff.mp pulled
    have exchanged := Bags.all_put ticker ((wallet.avail.get ticker).eraseP fun other =>
      other.note = inputNote.note) wallet.avail
    rw [← coe_eraseP_of_find found, ← add_assoc, add_right_comm] at exchanged
    have taken := congrArg (Multiset.map InputNote.note) (add_right_cancel exchanged)
    rw [Multiset.map_add, Multiset.map_singleton, same] at taken
    exact
      { notes := taken
        pending := rfl
        balance := by
          rw [Multiset.map_singleton, Multiset.sum_singleton, ← same]
          exact BitVec.sub_add_cancel _ _ }

theorem pushes_of_addToAvail (added : wallet.addToAvail inputNote = .ok after) :
    wallet.Pushes after {inputNote} := by
  rcases bind_eq_ok_iff.mp added with ⟨ticker, _, pushed⟩
  exact pushes_of_pushToAvail pushed

/-! ## Loops -/

theorem pushes_of_foldlM {notes : List InputNote}
    (added : notes.foldlM (fun wallet note => wallet.addToAvail note) wallet = .ok after) :
    wallet.Pushes after notes := by
  induction notes generalizing wallet with
  | nil =>
      obtain rfl := pure_eq_ok_iff.mp added
      exact .refl wallet
  | cons first notes ih =>
      rw [List.foldlM_cons, bind_eq_ok_iff] at added
      rcases added with ⟨middle, pushed, rest⟩
      exact (pushes_of_addToAvail pushed).trans (ih rest)

theorem pulls_of_foldlM {selected : List InputNote}
    (pulled : selected.foldlM (fun wallet note => wallet.pullFromAvail ticker note) wallet =
      .ok after) :
    wallet.Pulls after (selected.map InputNote.note) := by
  induction selected generalizing wallet with
  | nil =>
      obtain rfl := pure_eq_ok_iff.mp pulled
      exact .refl wallet
  | cons first selected ih =>
      rw [List.foldlM_cons, bind_eq_ok_iff] at pulled
      rcases pulled with ⟨middle, one, rest⟩
      exact (pulls_of_pullFromAvail one).trans (ih rest)

/-! ## Import and synchronisation -/

/-- A note is added to the available ones with the key of the pending note of its address. -/
structure Imports (before after : Wallet) (note : Note) (pendingNote : InputNote) : Prop where
  address : pendingNote.note.address = note.address
  avail : after.avail.all = before.avail.all + {⟨note, pendingNote.secretKey⟩}
  pending : after.pending.all + {pendingNote} = before.pending.all
  tickers : (before.pending.map Prod.fst).Nodup → (after.pending.map Prod.fst).Nodup
  balance : after.balance = before.balance + note.amount

theorem imports_of_importNote (imported : wallet.importNote note = .ok after) :
    ∃ pendingNote, wallet.Imports after note pendingNote := by
  unfold importNote at imported
  generalize wallet.pending.map Prod.fst = tickers at imported
  induction tickers with
  | nil => cases imported
  | cons ticker tickers ih =>
      unfold importFrom at imported
      dsimp only at imported
      cases found : (wallet.pending.get ticker).find? fun other =>
          other.note.address = note.address with
      | none =>
          rw [found] at imported
          exact ih imported
      | some pendingNote =>
          rw [found] at imported
          have pushes := pushes_of_pushToAvail imported
          have exchanged := Bags.all_put ticker ((wallet.pending.get ticker).eraseP fun other =>
            other.note.address = note.address) wallet.pending
          rw [← coe_eraseP_of_find found, ← add_assoc, add_right_comm] at exchanged
          exact
            ⟨pendingNote,
              { address := by simpa using List.find?_some found
                avail := pushes.avail
                pending := by
                  rw [pushes.pending]
                  exact add_right_cancel exchanged
                tickers := by
                  rw [pushes.pending]
                  exact Bags.nodup_put
                balance := by simpa using pushes.balance }⟩

/-- Claimed notes are added to the available ones, and the other ones stay pending. -/
structure Claims (before after : Wallet) (notes : Multiset InputNote) : Prop where
  avail : after.avail.all = before.avail.all + notes
  pending : after.pending.all + notes = before.pending.all
  tickers : after.pending.map Prod.fst = before.pending.map Prod.fst
  balance : after.balance = before.balance + (notes.map fun other => other.note.amount).sum

variable (poseidon) in
/-- A note with a commitment from a list. -/
def Claimable (commitments : List Element) (other : InputNote) : Prop :=
  other.note.commitment poseidon ≠ Element.ZERO ∧
    commitments.contains (other.note.commitment poseidon)

/-- Both conditions are decided. -/
instance (commitments : List Element) : DecidablePred (Claimable poseidon commitments) :=
  fun _ => instDecidableAnd

@[simp]
theorem claimable_append {first second : List Element} {other : InputNote} :
    Claimable poseidon (first ++ second) other ↔
      Claimable poseidon first other ∨ Claimable poseidon second other := by
  unfold Claimable
  rw [List.contains_iff_mem, List.contains_iff_mem, List.contains_iff_mem, List.mem_append]
  exact and_or_left

variable (poseidon) in
/-- The pending notes with a commitment from a list. -/
def claimed (wallet : Wallet) (commitments : List Element) : Multiset InputNote :=
  wallet.pending.all.filter (Claimable poseidon commitments)

theorem Claims.nil (wallet : Wallet) : wallet.Claims wallet (wallet.claimed poseidon []) := by
  have nothing : wallet.claimed poseidon [] = 0 := by simp [claimed, Claimable]
  rw [nothing]
  exact ⟨(add_zero _).symm, add_zero _, rfl, by simp⟩

/-- What one list claims and what another one claims of the rest. -/
theorem Claims.append {middle : Wallet} {first second : List Element}
    (earlier : wallet.Claims middle (wallet.claimed poseidon first))
    (later : middle.Claims after (middle.claimed poseidon second)) :
    wallet.Claims after (wallet.claimed poseidon (first ++ second)) := by
  have rest : middle.pending.all =
      wallet.pending.all.filter fun other => ¬Claimable poseidon first other := by
    have split := earlier.pending
    rw [← Multiset.filter_add_not (Claimable poseidon first) wallet.pending.all, add_comm] at split
    exact add_left_cancel split
  have both : wallet.claimed poseidon (first ++ second) =
      wallet.claimed poseidon first + middle.claimed poseidon second := by
    unfold claimed
    rw [rest, Multiset.filter_filter, Multiset.filter_add_filter]
    have disjoint : wallet.pending.all.filter (fun other => Claimable poseidon first other ∧
        Claimable poseidon second other ∧ ¬Claimable poseidon first other) = 0 := by
      apply Multiset.filter_eq_nil.mpr
      rintro other - ⟨claims, _, not⟩
      exact not claims
    rw [disjoint, add_zero]
    apply Multiset.filter_congr
    intro other _
    rw [claimable_append]
    tauto
  rw [both]
  exact
    { avail := by rw [later.avail, earlier.avail, add_assoc]
      pending := by rw [← earlier.pending, ← later.pending, add_right_comm, add_assoc]
      tickers := later.tickers.trans earlier.tickers
      balance := by
        rw [later.balance, earlier.balance, Multiset.map_add, Multiset.sum_add, add_assoc] }

theorem claims_of_claim {commitment : Element}
    (done : wallet.claim poseidon commitment = .ok after) :
    wallet.Claims after (wallet.claimed poseidon [commitment]) := by
  have claimableIff : ∀ other : InputNote, Claimable poseidon [commitment] other ↔
      commitment ≠ Element.ZERO ∧ commitment = other.note.commitment poseidon := by
    intro other
    rw [Claimable, List.contains_iff_mem, List.mem_singleton]
    constructor
    · rintro ⟨real, same⟩
      exact ⟨same ▸ real, same.symm⟩
    · rintro ⟨real, rfl⟩
      exact ⟨real, rfl⟩
  unfold claim at done
  split_ifs at done with isZero
  · obtain rfl := pure_eq_ok_iff.mp done
    have nothing : wallet.claimed poseidon [commitment] = wallet.claimed poseidon [] := by
      apply Multiset.filter_congr
      intro other _
      simp [isZero, Claimable]
    rw [nothing]
    exact .nil wallet
  · have pushes := pushes_of_foldlM done
    have claims : wallet.claimed poseidon [commitment] =
        wallet.pending.all.filter fun other => commitment = other.note.commitment poseidon := by
      apply Multiset.filter_congr
      intro other _
      rw [claimableIff, and_iff_right isZero]
    rw [Bags.coe_flatMap_filter, ← claims] at pushes
    refine ⟨pushes.avail, ?_, ?_, pushes.balance⟩
    · rw [pushes.pending, Bags.all_filter, claims, add_comm]
      exact Multiset.filter_add_not _ _
    · rw [pushes.pending, List.map_map]
      rfl

/-- A transaction claims the notes of its outputs. -/
theorem claims_of_foldlM {commitments : List Element}
    (done : commitments.foldlM (claim poseidon) wallet = .ok after) :
    wallet.Claims after (wallet.claimed poseidon commitments) := by
  induction commitments generalizing wallet with
  | nil =>
      obtain rfl := pure_eq_ok_iff.mp done
      exact .nil wallet
  | cons commitment commitments ih =>
      rw [List.foldlM_cons, bind_eq_ok_iff] at done
      rcases done with ⟨middle, first, rest⟩
      exact (claims_of_claim first).append (ih rest)

/-- The outputs of a list of transactions. -/
def outputCommitments (txns : List UtxoProof) : List Element :=
  txns.flatMap fun tx => tx.publicInputs.outputCommitments.toList

theorem claims_of_sync {txns : List UtxoProof} (synced : wallet.sync poseidon txns = .ok after) :
    wallet.Claims after (wallet.claimed poseidon (outputCommitments txns)) := by
  unfold sync at synced
  induction txns generalizing wallet with
  | nil =>
      obtain rfl := pure_eq_ok_iff.mp synced
      exact .nil wallet
  | cons tx txns ih =>
      rw [List.foldlM_cons, bind_eq_ok_iff] at synced
      rcases synced with ⟨middle, first, rest⟩
      exact (claims_of_foldlM first).append (ih rest)

/-! ## Selection -/

/-- One or two notes and the sum of their amounts. -/
def Candidate (selection : Selection) : Prop :=
  (selection.1.length = 1 ∨ selection.1.length = 2) ∧
    selection.2.toNat = (selection.1.map fun other => other.note.amount.toNat).sum

theorem toNat_of_checkedAdd {first second total : BitVec 64}
    (added : checkedAdd first second = some total) :
    total.toNat = first.toNat + second.toNat := by
  unfold checkedAdd at added
  split_ifs at added with fits
  obtain rfl := Option.some.inj added
  exact BitVec.toNat_add_of_lt fits

theorem candidate_of_mem {notes : List InputNote} {selection : Selection}
    (member : selection ∈ candidates (notes.map fun other => (other, other.note.amount))) :
    Candidate selection := by
  induction notes with
  | nil => cases member
  | cons first notes ih =>
      rw [List.map_cons, candidates, List.cons_append, List.mem_cons, List.mem_append] at member
      rcases member with rfl | pair | later
      · exact ⟨.inl rfl, (add_zero _).symm⟩
      · rcases List.mem_filterMap.mp pair with ⟨entry, listed, combined⟩
        rcases List.mem_map.mp listed with ⟨second, _, rfl⟩
        rcases Option.map_eq_some_iff.mp combined with ⟨total, added, rfl⟩
        exact ⟨.inr rfl, toNat_of_checkedAdd added⟩
      · exact ih later

/-- Selections are ranked by their excess, and then by the number of notes. -/
def rank (amount : BitVec 64) (selection : Selection) : Lex (Nat × Nat) :=
  toLex ((selection.2 - amount).toNat, selection.1.length)

theorem considerCandidate_eq (amount : BitVec 64) :
    considerCandidate amount =
      keepBest (fun selection => decide (amount ≤ selection.2)) (rank amount) := by
  funext best candidate
  unfold considerCandidate keepBest
  by_cases covers : amount ≤ candidate.2
  · rw [if_neg (BitVec.not_lt.mpr covers), if_pos (decide_eq_true covers)]
    cases best with
    | none => rfl
    | some held =>
        dsimp only
        apply if_congr _ rfl rfl
        rw [rank, rank, Prod.Lex.toLex_lt_toLex, BitVec.lt_def, ← BitVec.toNat_inj]
  · rw [if_pos (BitVec.not_le.mp covers), if_neg (by simpa using covers)]

/-- The selection is the best one that covers the amount. -/
theorem outcome_foldl (amount : BitVec 64) (options : List Selection) :
    Outcome (fun selection => decide (amount ≤ selection.2)) (rank amount) options
      (options.foldl (considerCandidate amount) none) := by
  rw [considerCandidate_eq]
  exact outcome_foldl_keepBest _ _ options

theorem best_of_foldl {amount : BitVec 64} {options : List Selection} {best : Selection}
    (found : options.foldl (considerCandidate amount) none = some best) :
    IsBest (fun selection => decide (amount ≤ selection.2)) (rank amount) options best := by
  have outcome := outcome_foldl amount options
  rwa [found] at outcome

@[simp]
theorem mapM_getNoteAmount (notes : List InputNote) :
    notes.mapM (fun other => getNoteAmount other.note) =
      .ok (notes.map fun other => other.note.amount) := by
  induction notes with
  | nil => rfl
  | cons first notes ih =>
      rw [List.mapM_cons, ih, getNoteAmount_eq]
      rfl

@[simp]
theorem value_makeChangeNote (originNote : Note) (changeAmount : BitVec 64) :
    (makeChangeNote poseidon pk originNote changeAmount).note.value.toNat = changeAmount.toNat :=
  BitVec.toNat_setWidth_of_le (by decide)

@[simp]
theorem zip_amounts (notes : List InputNote) :
    notes.zip (notes.map fun other => other.note.amount) =
      notes.map fun other => (other, other.note.amount) := by
  have zipped := List.zip_map' (f := id) (g := fun other : InputNote => other.note.amount)
    (l := notes)
  rwa [List.map_id] at zipped

/-- The notes that are taken for an amount, and the note for the rest of them. -/
structure Selects (before after : Wallet) (amount : BitVec 64) (pk : Element)
    (inputs : Vector InputNote 2) (change : Note) (selected : List InputNote) : Prop where
  inputs : inputsOf selected = .ok inputs
  small : (selected.map fun other => other.note.amount.toNat).sum < 2 ^ 64
  value : change.value.toNat + amount.toNat =
    (selected.map fun other => other.note.amount.toNat).sum
  exchanged : ∃ middle, before.Pulls middle (selected.map InputNote.note) ∧
    middle.Pushes after (if change = Note.paddingNote then 0 else {⟨change, pk⟩})

theorem selects_of_selectInputNotes {amount : BitVec 64} {inputs : Vector InputNote 2}
    {change : Note}
    (done : wallet.selectInputNotes poseidon pk ticker amount = .ok (after, inputs, change)) :
    ∃ selected, wallet.Selects after amount pk inputs change selected := by
  unfold selectInputNotes at done
  rcases bind_eq_ok_iff.mp done with ⟨_, _, done⟩
  rw [mapM_getNoteAmount] at done
  rcases bind_eq_ok_iff.mp done with ⟨amounts, read, done⟩
  obtain rfl := Except.ok.inj read
  split at done
  · cases done
  · rename_i selected total best
    rcases best_of_foldl best with ⟨member, accepted, _⟩
    have covers : amount ≤ total := of_decide_eq_true accepted
    rw [zip_amounts] at member
    rcases candidate_of_mem member with ⟨_, totalEq⟩
    rcases bind_eq_ok_iff.mp done with ⟨middle, pulled, done⟩
    have pulls := pulls_of_foldlM pulled
    have leSum := BitVec.le_def.mp covers
    dsimp only at done
    split_ifs at done with same
    · rcases bind_eq_ok_iff.mp done with ⟨⟨last, rest⟩, changed, done⟩
      cases pure_eq_ok_iff.mp changed
      rcases bind_eq_ok_iff.mp done with ⟨chosen, inputsEq, done⟩
      cases pure_eq_ok_iff.mp done
      subst same
      exact
        ⟨selected,
          { inputs := inputsEq
            small := totalEq ▸ total.isLt
            value := (Nat.zero_add _).trans totalEq
            exchanged := ⟨_, pulls, (if_pos rfl).symm ▸ .refl _⟩ }⟩
    · rcases bind_eq_ok_iff.mp done with ⟨last, pushed, done⟩
      rcases bind_eq_ok_iff.mp done with ⟨⟨_, rest⟩, changed, done⟩
      cases pure_eq_ok_iff.mp changed
      rcases bind_eq_ok_iff.mp done with ⟨chosen, inputsEq, done⟩
      cases pure_eq_ok_iff.mp done
      have value : (makeChangeNote poseidon pk (selected.headD InputNote.paddingNote).note
          (total - amount)).note.value.toNat = total.toNat - amount.toNat := by
        rw [value_makeChangeNote, BitVec.toNat_sub_of_le covers]
      have real : (makeChangeNote poseidon pk (selected.headD InputNote.paddingNote).note
          (total - amount)).note ≠ Note.paddingNote := by
        intro padding
        rw [padding] at value
        exact same (BitVec.eq_of_toNat_eq (Nat.le_antisymm
          (Nat.sub_eq_zero_iff_le.mp value.symm) leSum))
      exact
        ⟨selected,
          { inputs := inputsEq
            small := totalEq ▸ total.isLt
            value := by rw [value, Nat.sub_add_cancel leSum, totalEq]
            exchanged := ⟨_, pulls, (if_neg real).symm ▸ pushes_of_pushToAvail pushed⟩ }⟩

/-! ## Calls -/

theorem value_of_receiveNote {amount : BitVec 64} {receivedNote : InputNote}
    (received : receiveNote poseidon pk amount ticker = .ok receivedNote) :
    receivedNote.note.value = amount.setWidth 256 := by
  rcases bind_eq_ok_iff.mp received with ⟨data, _, done⟩
  obtain rfl := pure_eq_ok_iff.mp done
  rfl

/-- A new address replaces the pending notes of its ticker. -/
structure HandsOut (poseidon : Poseidon) (before after : Wallet) (ticker : String)
    (handedOut : InputNote) : Prop where
  address : handedOut.note.address = hashMerge poseidon [handedOut.secretKey, Element.ZERO]
  pending : after.pending = before.pending.put ticker [handedOut]
  avail : after.avail = before.avail
  balance : after.balance = before.balance

/-- What a call that succeeds does, and the transaction that it builds. -/
inductive Effect (poseidon : Poseidon) (before after : Wallet) : Call → Option Utxo → Prop
  | spendTo {note : Note} {pk : Element} {inputs : Vector InputNote 2} {change : Note}
      {selected : List InputNote} :
      before.Selects after note.amount pk inputs change selected →
      Effect poseidon before after (.spendTo note pk) (some (.newSend inputs #v[note, change]))
  | receive {inputNote receivedNote : InputNote} {pk : Element} :
      receivedNote.note.value = inputNote.note.amount.setWidth 256 →
      before.Pushes after {receivedNote} →
      Effect poseidon before after (.receive inputNote pk)
        (some (.newSend #v[inputNote, InputNote.paddingNote]
          #v[receivedNote.note, Note.paddingNote]))
  | mint {amount : BitVec 64} {ticker : String} {receivedNote : InputNote} {pk : Element} :
      receivedNote.note.value = amount.setWidth 256 →
      before.Pushes after {receivedNote} →
      Effect poseidon before after (.mint amount ticker pk)
        (some (.newMint #v[receivedNote.note, Note.paddingNote]))
  | burn {burnerNote : InputNote} {evmAddress : Element} {nativelySubstitute : Bool} :
      before.Pulls after {burnerNote.note} →
      Effect poseidon before after (.burn burnerNote evmAddress nativelySubstitute)
        (some (if nativelySubstitute then
            .newBurn #v[burnerNote, InputNote.paddingNote] evmAddress
          else .newBurnNoSub #v[burnerNote, InputNote.paddingNote] evmAddress))
  | importNote {note : Note} {pendingNote : InputNote} :
      before.Imports after note pendingNote →
      Effect poseidon before after (.importNote note) none
  | addToAvail {inputNote : InputNote} :
      before.Pushes after {inputNote} →
      Effect poseidon before after (.addToAvail inputNote) none
  | getAddress {amount : BitVec 64} {ticker : String} {pk psi : Element}
      {handedOut : InputNote} :
      handedOut.secretKey = pk → HandsOut poseidon before after ticker handedOut →
      Effect poseidon before after (.getAddress amount ticker pk psi) none
  | sync {txns : List UtxoProof} :
      before.Claims after (before.claimed poseidon (outputCommitments txns)) →
      Effect poseidon before after (.sync txns) none

theorem effect_of_spendTo (done : wallet.spendTo poseidon pk note = .ok (after, utxo)) :
    Effect poseidon wallet after (.spendTo note pk) (some utxo) := by
  rcases bind_eq_ok_iff.mp done with ⟨ticker, _, done⟩
  rcases bind_eq_ok_iff.mp done with ⟨amount, read, done⟩
  obtain rfl := Except.ok.inj read
  rcases bind_eq_ok_iff.mp done with ⟨_, _, done⟩
  rcases bind_eq_ok_iff.mp done with ⟨⟨last, inputs, change⟩, selected, done⟩
  cases pure_eq_ok_iff.mp done
  rcases selects_of_selectInputNotes selected with ⟨notes, selects⟩
  exact .spendTo selects

theorem effect_of_receive (done : wallet.receive poseidon pk inputNote = .ok (after, utxo)) :
    Effect poseidon wallet after (.receive inputNote pk) (some utxo) := by
  rcases bind_eq_ok_iff.mp done with ⟨ticker, _, done⟩
  rcases bind_eq_ok_iff.mp done with ⟨amount, read, done⟩
  obtain rfl := Except.ok.inj read
  rcases bind_eq_ok_iff.mp done with ⟨receivedNote, received, done⟩
  rcases bind_eq_ok_iff.mp done with ⟨last, pushed, done⟩
  cases pure_eq_ok_iff.mp done
  exact .receive (value_of_receiveNote received) (pushes_of_pushToAvail pushed)

theorem effect_of_mint {amount : BitVec 64}
    (done : wallet.mint poseidon pk amount ticker = .ok (after, utxo)) :
    Effect poseidon wallet after (.mint amount ticker pk) (some utxo) := by
  rcases bind_eq_ok_iff.mp done with ⟨receivedNote, received, done⟩
  rcases bind_eq_ok_iff.mp done with ⟨last, pushed, done⟩
  cases pure_eq_ok_iff.mp done
  exact .mint (value_of_receiveNote received) (pushes_of_pushToAvail pushed)

theorem effect_of_burn {evmAddress : Element} {nativelySubstitute : Bool}
    (done : wallet.burn inputNote evmAddress nativelySubstitute = .ok (after, utxo)) :
    Effect poseidon wallet after (.burn inputNote evmAddress nativelySubstitute) (some utxo) := by
  rcases bind_eq_ok_iff.mp done with ⟨ticker, _, done⟩
  rcases bind_eq_ok_iff.mp done with ⟨last, pulled, done⟩
  have pulls := pulls_of_pullFromAvail pulled
  cases nativelySubstitute with
  | true =>
      cases pure_eq_ok_iff.mp done
      exact .burn pulls
  | false =>
      cases pure_eq_ok_iff.mp done
      exact .burn pulls

theorem effect_of_getAddress {amount : BitVec 64} {psi : Element} {address : CipheraAddress}
    (done : wallet.getAddress poseidon pk psi amount ticker = .ok (after, address)) :
    Effect poseidon wallet after (.getAddress amount ticker pk psi) none := by
  rcases bind_eq_ok_iff.mp done with ⟨data, _, done⟩
  rcases bind_eq_ok_iff.mp done with ⟨encoded, _, done⟩
  cases pure_eq_ok_iff.mp done
  exact .getAddress rfl ⟨rfl, rfl, rfl, rfl⟩

theorem effect_of_apply {call : Call} {built : Option Utxo}
    (done : apply poseidon wallet call = .ok (after, built)) :
    Effect poseidon wallet after call built := by
  cases call with
  | spendTo note pk =>
      rcases bind_eq_ok_iff.mp done with ⟨⟨last, utxo⟩, spent, done⟩
      cases pure_eq_ok_iff.mp done
      exact effect_of_spendTo spent
  | receive inputNote pk =>
      rcases bind_eq_ok_iff.mp done with ⟨⟨last, utxo⟩, received, done⟩
      cases pure_eq_ok_iff.mp done
      exact effect_of_receive received
  | mint amount ticker pk =>
      rcases bind_eq_ok_iff.mp done with ⟨⟨last, utxo⟩, minted, done⟩
      cases pure_eq_ok_iff.mp done
      exact effect_of_mint minted
  | burn burnerNote evmAddress nativelySubstitute =>
      rcases bind_eq_ok_iff.mp done with ⟨⟨last, utxo⟩, burned, done⟩
      cases pure_eq_ok_iff.mp done
      exact effect_of_burn burned
  | importNote note =>
      rcases bind_eq_ok_iff.mp done with ⟨last, imported, done⟩
      cases pure_eq_ok_iff.mp done
      rcases imports_of_importNote imported with ⟨pendingNote, imports⟩
      exact .importNote imports
  | addToAvail inputNote =>
      rcases bind_eq_ok_iff.mp done with ⟨last, added, done⟩
      cases pure_eq_ok_iff.mp done
      exact .addToAvail (pushes_of_addToAvail added)
  | getAddress amount ticker pk psi =>
      rcases bind_eq_ok_iff.mp done with ⟨⟨last, address⟩, handedOut, done⟩
      cases pure_eq_ok_iff.mp done
      exact effect_of_getAddress handedOut
  | sync txns =>
      rcases bind_eq_ok_iff.mp done with ⟨last, synced, done⟩
      cases pure_eq_ok_iff.mp done
      exact .sync (claims_of_sync synced)

end Ciphera.Cli.Wallet
