import Ciphera.Lib.Bags
import Ciphera.Substitutor.Payments

/-!
# Burns are paid once

A burn that is paid ahead is paid once, because the contract has a record of it.  There is no
record of the swaps: a tick that fails after it has sent a commitment commits the next swap of
the same amount for the same burn.  When a tick that commits does not fail, and no swap is
offered again after it was committed, each burn is paid once, and all payments together are
covered by the burns.
-/

namespace Ciphera.Substitutor

open Ciphera.Lib Ciphera.Zk
open Ciphera.Node (ListTxnsPosition TxnWithInfo)
open Ciphera.Rollup (Address Burn)

namespace World

/-- What was put into escrow for swaps and what was paid ahead. -/
def paid (world : World) : Nat :=
  (world.commits.map fun commit => commit.txParams.escrowed).sum +
    (world.substituted.map fun key => key.1.amount.toNat).sum

/-- A swap was committed for the burn, or it was paid ahead. -/
def isHandled (world : World) (item : ListTxnsPosition × UtxoProof) : Bool :=
  world.commits.any (fun commit => commit.origin = item.1) ||
    world.substituted.any fun key => burnKey? item = some key

/-- The value of the burns that were handled. -/
def handled (world : World) : Nat :=
  ((world.listing.filter world.isHandled).map Payment.burnAmount).sum

/-- A burn is paid ahead once, has one swap at most, and no swap is for two burns; what was paid
is covered by the burns. -/
structure PaidOnce (world : World) : Prop where
  substituted : world.substituted.Nodup
  committed : ∀ first ∈ world.commits, ∀ second ∈ world.commits,
    first.origin = second.origin ↔ first.swapId = second.swapId
  covered : world.paid ≤ world.handled

end World

/-- Once something was signed every call of the tick is answered, and offered swaps are fresh. -/
structure Meets (decoders : Decoders) (world : World) (transcript : Transcript) : Prop where
  answered : Signed transcript →
    ∀ exchange ∈ transcript, Answered decoders world.substitutor.substitutorAddress exchange
  fresh : Fresh decoders world.commits transcript

/-- A step whose answers meet the condition. -/
def World.MeetingStep (decoders : Decoders) (source : World) (event : Event) (target : World) :
    Prop :=
  World.Step decoders source event target ∧
    ∀ transcript, event = .ticked transcript → Meets decoders source transcript

variable {decoders : Decoders} {substitutorAddress : Address} {next : BurnSubstitutor}
  {transcript : Transcript}

/-! ## All runs -/

/-- The swaps that were committed, in the order of their burns, and the burns that were paid
ahead. -/
structure Accounted (world : World) (payments : List Payment) (ahead : Listing) : Prop where
  sorted : world.listing.Sorted
  commits : world.commits = payments.flatMap Payment.commits
  covered : ∀ payment ∈ payments, payment.item ∈ world.listing ∧ payment.Covered
  ordered : Listing.Sorted (payments.map Payment.item)
  swapIds : (payments.map Payment.swapId).Nodup
  passed : ∀ payment ∈ payments, ∃ cursor, world.substitutor.cursor = some cursor ∧
    isBefore cursor.inner payment.item.1 = false
  burns : ∀ sent ∈ world.burns, Listed world.listing sent
  listed : ahead ⊆ world.listing
  ahead : ahead.map burnKey? = world.substituted.map some
  once : world.substituted.Nodup

namespace Accounted

variable {world : World} {payments : List Payment} {ahead : Listing}

theorem new (substitutorAddress : Address) : Accounted (.new substitutorAddress) [] [] where
  sorted := .nil
  commits := rfl
  covered _ mem := absurd mem List.not_mem_nil
  ordered := .nil
  swapIds := .nil
  passed _ mem := absurd mem List.not_mem_nil
  burns _ mem := absurd mem List.not_mem_nil
  listed := List.nil_subset _
  ahead := rfl
  once := .nil

/-- The listing grows at its end. -/
theorem grows (accounted : Accounted world payments ahead) {more : Listing}
    (sorted : Listing.Sorted (world.listing ++ more)) :
    Accounted { world with listing := world.listing ++ more } payments ahead where
  sorted := sorted
  commits := accounted.commits
  covered payment mem :=
    ⟨List.mem_append_left more (accounted.covered payment mem).1, (accounted.covered payment mem).2⟩
  ordered := accounted.ordered
  swapIds := accounted.swapIds
  passed := accounted.passed
  burns := by
    intro sent mem
    rcases accounted.burns sent mem with ⟨item, listed, isKey⟩
    exact ⟨item, List.mem_append_left more listed, isKey⟩
  listed := List.subset_append_of_subset_left more accounted.listed
  ahead := accounted.ahead
  once := accounted.once

/-- The contract pays ahead for a burn that was sent, unless it has done so before. -/
theorem substituted (accounted : Accounted world payments ahead) {origin : ListTxnsPosition}
    {burn : Burn} {burnBlockHeight : Nat} (sent : (origin, burn, burnBlockHeight) ∈ world.burns)
    (first : (burn, burnBlockHeight) ∉ world.substituted) :
    ∃ ahead, Accounted { world with
      substituted := world.substituted ++ [(burn, burnBlockHeight)] } payments ahead := by
  rcases accounted.burns _ sent with ⟨item, listed, isKey⟩
  refine ⟨ahead ++ [item], { accounted with
    listed := List.append_subset.mpr
      ⟨accounted.listed, List.cons_subset.mpr ⟨listed, List.nil_subset _⟩⟩
    ahead := ?_
    once := ?_ }⟩
  · rw [List.map_append, List.map_append, accounted.ahead, List.map_singleton, isKey]
    rfl
  · exact List.nodup_append_comm.mpr (List.nodup_cons.mpr ⟨first, accounted.once⟩)

/-- A tick pays for burns behind those that were paid for before. -/
theorem ticked (accounted : Accounted world payments ahead) {more : List Payment}
    (pays : Pays world.listing world.commits world.substitutor next transcript more)
    (burns : BurnsOnly (Listed world.listing) transcript) :
    Accounted { world with
      substitutor := next
      commits := world.commits ++ commitsOf transcript
      burns := world.burns ++ burnsOf transcript } (payments ++ more) ahead where
  sorted := accounted.sorted
  commits := by rw [accounted.commits, pays.commits, List.flatMap_append]
  covered := List.forall_mem_append.mpr ⟨accounted.covered, pays.covered⟩
  ordered := by
    rw [List.map_append]
    apply List.pairwise_append.mpr
    refine ⟨accounted.ordered, pays.ordered, ?_⟩
    intro earlier isEarlier later isLater
    rcases List.mem_map.mp isEarlier with ⟨payment, mem, rfl⟩
    rcases List.mem_map.mp isLater with ⟨other, otherMem, rfl⟩
    rcases accounted.passed payment mem with ⟨cursor, isCursor, notBehind⟩
    exact isBefore_of_not_before notBehind (pays.behind other otherMem cursor isCursor)
  swapIds := by
    rw [List.map_append]
    apply List.nodup_append.mpr
    refine ⟨accounted.swapIds, pays.swapIds, ?_⟩
    intro earlier isEarlier later isLater
    rcases List.mem_map.mp isEarlier with ⟨payment, mem, rfl⟩
    rcases List.mem_map.mp isLater with ⟨other, otherMem, rfl⟩
    rcases (accounted.covered payment mem).2.exists_commit with ⟨commit, isCommit⟩
    rw [← swapId_of_mem_commits isCommit]
    apply pays.fresh other otherMem commit
    rw [accounted.commits]
    exact List.mem_flatMap_of_mem mem isCommit
  passed := by
    intro payment mem
    rcases List.mem_append.mp mem with old | new
    · rcases accounted.passed payment old with ⟨cursor, isCursor, notBehind⟩
      rcases pays.onward cursor isCursor with ⟨later, isLater, stays⟩
      exact ⟨later, isLater, stays _ notBehind⟩
    · exact pays.passed payment new
  burns := List.forall_mem_append.mpr ⟨accounted.burns, burns⟩
  listed := accounted.listed
  ahead := accounted.ahead
  once := accounted.once

theorem step {event : Event} {target : World} (accounted : Accounted world payments ahead)
    (taken : World.MeetingStep decoders world event target) :
    ∃ payments ahead, Accounted target payments ahead := by
  rcases taken with ⟨taken, meets⟩
  cases taken with
  | listed sorted => exact ⟨payments, ahead, accounted.grows sorted⟩
  | ticked plays honest =>
      have ticked := ticked_of_tick plays
      rcases meets _ rfl with ⟨answered, fresh⟩
      rcases pays_of_ticked accounted.sorted honest answered fresh ticked with ⟨more, pays⟩
      exact ⟨payments ++ more, ahead,
        accounted.ticked pays (ticked.burnsOnly accounted.sorted honest)⟩
  | substituted sent first =>
      rcases accounted.substituted sent first with ⟨ahead, accounted⟩
      exact ⟨payments, ahead, accounted⟩

/-- Commits come from a payment. -/
theorem exists_payment (accounted : Accounted world payments ahead) {commit : Commit}
    (mem : commit ∈ world.commits) : ∃ payment ∈ payments,
      commit.origin = payment.item.1 ∧ commit.swapId = payment.swapId := by
  rw [accounted.commits] at mem
  rcases List.mem_flatMap.mp mem with ⟨payment, isPayment, isCommit⟩
  exact ⟨payment, isPayment, origin_of_mem_commits isCommit, swapId_of_mem_commits isCommit⟩

theorem positions_nodup (accounted : Accounted world payments ahead) :
    (payments.map fun payment => payment.item.1).Nodup := by
  have ordered := accounted.ordered
  rw [Listing.Sorted, List.pairwise_map] at ordered
  rw [List.Nodup, List.pairwise_map]
  apply ordered.imp
  intro first second before same
  rw [same, isBefore_irrefl] at before
  cases before

theorem oneSwap (accounted : Accounted world payments ahead) :
    ∀ first ∈ world.commits, ∀ second ∈ world.commits,
      first.origin = second.origin ↔ first.swapId = second.swapId := by
  intro first isFirst second isSecond
  rcases accounted.exists_payment isFirst with ⟨payment, mem, origin, swapId⟩
  rcases accounted.exists_payment isSecond with ⟨other, otherMem, otherOrigin, otherSwapId⟩
  rw [origin, otherOrigin, swapId, otherSwapId]
  constructor
  · intro same
    rw [List.inj_on_of_nodup_map accounted.positions_nodup mem otherMem same]
  · intro same
    rw [List.inj_on_of_nodup_map accounted.swapIds mem otherMem same]

/-- What was sent for the swaps is covered by their burns. -/
theorem escrowed_le (covered : ∀ payment ∈ payments, payment.Covered) :
    ((payments.flatMap Payment.commits).map fun commit => commit.txParams.escrowed).sum ≤
      ((payments.map Payment.item).map Payment.burnAmount).sum := by
  induction payments with
  | nil => exact Nat.le_refl _
  | cons payment payments ih =>
      rw [List.forall_mem_cons] at covered
      rw [List.flatMap_cons, List.map_append, List.sum_append, List.map_cons, List.map_cons,
        List.sum_cons]
      have own := covered.1.amount
      have same : (payment.commits.map fun commit => commit.txParams.escrowed) =
          payment.sent.map TransactionParameters.escrowed := by
        rw [Payment.commits, List.map_map]
        rfl
      rw [same]
      exact Nat.add_le_add own (ih covered.2)

theorem burnAmount_of_burnKey? {item : ListTxnsPosition × UtxoProof} {key : Burn × Nat}
    (isKey : burnKey? item = some key) : Payment.burnAmount item = key.1.amount.toNat := by
  rw [burnKey?] at isKey
  rw [Payment.burnAmount]
  split at isKey
  case h_1 messages isBurn =>
    split at isKey
    case isTrue =>
      rw [← Option.some.inj isKey]
      rfl
    case isFalse => cases isKey
  · cases isKey
  · cases isKey

/-- What was paid ahead is what the burns are worth. -/
theorem paidAhead_eq {keys : List (Burn × Nat)} (areKeys : ahead.map burnKey? = keys.map some) :
    (ahead.map Payment.burnAmount).sum = (keys.map fun key => key.1.amount.toNat).sum := by
  induction ahead generalizing keys with
  | nil =>
      rw [List.map_eq_nil_iff.mp areKeys.symm]
      rfl
  | cons item ahead ih =>
      cases keys with
      | nil => cases areKeys
      | cons key keys =>
          rw [List.map_cons, List.map_cons, List.cons.injEq] at areKeys
          rw [List.map_cons, List.map_cons, List.sum_cons, List.sum_cons, ih areKeys.2,
            burnAmount_of_burnKey? areKeys.1]

theorem handled_of_payment (accounted : Accounted world payments ahead) {payment : Payment}
    (mem : payment ∈ payments) : payment.item ∈ world.listing.filter world.isHandled := by
  rcases accounted.covered payment mem with ⟨listed, covered⟩
  apply List.mem_filter.mpr
  refine ⟨listed, ?_⟩
  rcases covered.exists_commit with ⟨commit, isCommit⟩
  have inCommits : commit ∈ world.commits := by
    rw [accounted.commits]
    exact List.mem_flatMap_of_mem mem isCommit
  rw [World.isHandled, Bool.or_eq_true, List.any_eq_true]
  exact .inl ⟨commit, inCommits, decide_eq_true (origin_of_mem_commits isCommit)⟩

theorem handled_of_ahead (accounted : Accounted world payments ahead)
    {item : ListTxnsPosition × UtxoProof} (mem : item ∈ ahead) :
    item ∈ world.listing.filter world.isHandled := by
  have isKey : burnKey? item ∈ world.substituted.map some := by
    rw [← accounted.ahead]
    exact List.mem_map_of_mem mem
  rcases List.mem_map.mp isKey with ⟨key, isSubstituted, same⟩
  apply List.mem_filter.mpr
  refine ⟨accounted.listed mem, ?_⟩
  rw [World.isHandled, Bool.or_eq_true, List.any_eq_true, List.any_eq_true]
  exact .inr ⟨key, isSubstituted, decide_eq_true same.symm⟩

/-- The burns that were swapped and those that were paid ahead are different ones. -/
theorem distinct (accounted : Accounted world payments ahead) :
    (payments.map Payment.item ++ ahead).Nodup := by
  have aheadNodup : (ahead.map burnKey?).Nodup := by
    rw [accounted.ahead]
    exact accounted.once.map (Option.some_injective _)
  have itemsNodup : (payments.map Payment.item).Nodup := by
    have positions := accounted.positions_nodup
    rw [← Function.comp_def Prod.fst Payment.item, ← List.map_map] at positions
    exact positions.of_map
  apply List.nodup_append.mpr
  refine ⟨itemsNodup, aheadNodup.of_map, ?_⟩
  rintro item isPayment other isAhead rfl
  rcases List.mem_map.mp isPayment with ⟨payment, mem, rfl⟩
  have isKey : burnKey? payment.item ∈ world.substituted.map some := by
    rw [← accounted.ahead]
    exact List.mem_map_of_mem isAhead
  rw [(accounted.covered payment mem).2.notAhead] at isKey
  rcases List.mem_map.mp isKey with ⟨key, _, isNone⟩
  cases isNone

theorem paidOnce (accounted : Accounted world payments ahead) : world.PaidOnce where
  substituted := accounted.once
  committed := accounted.oneSwap
  covered := by
    have subset : payments.map Payment.item ++ ahead ⊆ world.listing.filter world.isHandled := by
      intro item mem
      rcases List.mem_append.mp mem with isPayment | isAhead
      · rcases List.mem_map.mp isPayment with ⟨payment, isMade, rfl⟩
        exact accounted.handled_of_payment isMade
      · exact accounted.handled_of_ahead isAhead
    calc world.paid
        ≤ ((payments.map Payment.item).map Payment.burnAmount).sum +
            (ahead.map Payment.burnAmount).sum := by
          rw [World.paid, accounted.commits, paidAhead_eq accounted.ahead]
          exact Nat.add_le_add_right
            (escrowed_le fun payment mem => (accounted.covered payment mem).2) _
      _ = ((payments.map Payment.item ++ ahead).map Payment.burnAmount).sum := by
          rw [List.map_append, List.sum_append]
      _ ≤ world.handled := sum_map_le_of_subset accounted.distinct subset _

end Accounted

/-- In every run in which no call fails once a commitment was signed, and no swap is offered again
after it was committed, every burn is paid once at most, no swap is for two burns, and what was
paid is covered by the burns. -/
theorem burns_paid_once {events : List Event} {world : World}
    (run : Run (World.MeetingStep decoders) (.new substitutorAddress) events world) :
    world.PaidOnce := by
  have accounted : ∃ payments ahead, Accounted world payments ahead := by
    apply run.invariant (motive := fun _ world => ∃ payments ahead, Accounted world payments ahead)
    · exact ⟨[], [], .new substitutorAddress⟩
    · rintro _ _ _ _ _ ⟨payments, ahead, accounted⟩ taken
      exact accounted.step taken
  rcases accounted with ⟨payments, ahead, accounted⟩
  exact accounted.paidOnce

/-! ## A burn of five tokens -/

/-- A word of zeros. -/
def zeros : Bytes32 := ⟨List.replicate 32 0, List.length_replicate⟩

/-- An escrow of the substitutor over five tokens. -/
def fiveTokens : EscrowData :=
  ⟨1, 2, 5, 3, ⟨false, false, false, 0⟩, 4, zeros, 4, zeros, 0, 0, 3, zeros⟩

/-- The call that opens the escrow of five tokens. -/
def calldata : Bytes := [0x12, 0x34, 0x56, 0x78] ++ fiveTokens.toAbiEncoded

/-- Its hexadecimal digits. -/
def calldataDigits : List Char :=
  calldata.flatMap fun byte =>
    [Nat.digitChar (byte.toNat / 16), Nat.digitChar (byte.toNat % 16)]

/-- The texts that are read in the runs below. -/
def fewTexts : Decoders where
  fromDecStr text := if text = "5" then .ok 5 else if text = "0" then .ok 0 else .error []
  parseAddress text := if text = formatAddress 2 then .ok 2 else .error []
  hexDecode text := if text = String.ofList calldataDigits then .ok calldata else .error []
  displayStatus _ := ""

/-- The call, as the swap service asks for it. -/
def commitFive : CommitTx :=
  ⟨formatAddress 2, String.ofList ('0' :: 'x' :: calldataDigits), "0", none, none, none, none⟩

/-- The call, as it is sent. -/
def sentFive : TransactionParameters := ⟨none, some 2, 1000000, 0, calldata, none, none⟩

@[simp]
theorem fromTransactionCalldata_calldata :
    EscrowData.fromTransactionCalldata calldata = .ok fiveTokens :=
  EscrowData.fromTransactionCalldata_selector rfl fiveTokens

@[simp]
theorem escrowed_sentFive : sentFive.escrowed = 5 := by
  rw [TransactionParameters.escrowed, sentFive, fromTransactionCalldata_calldata]
  rfl

@[simp]
theorem trimStart0x_calldataDigits :
    trimStart0x ('0' :: 'x' :: calldataDigits) = calldataDigits :=
  rfl

@[simp]
theorem liftReport_ok {α : Type} (message : String) (value : α) :
    liftReport message (.ok value) = .ok value :=
  rfl

@[simp]
theorem prepare_commitFive (burnValue : BitVec 256) :
    commitFive.prepare fewTexts 1 burnValue =
      .ok (if burnValue = 5 then some sentFive else none) := by
  have readTo : fewTexts.parseAddress commitFive.«to» = .ok 2 := by
    simp only [fewTexts, commitFive, if_true]
  have readData : fewTexts.hexDecode
      (String.ofList (trimStart0x commitFive.data.toList)) = .ok calldata := by
    simp only [fewTexts, commitFive, String.toList_ofList, trimStart0x_calldataDigits, if_true]
  have readValue : fewTexts.fromDecStr commitFive.value = .ok 0 := rfl
  simp only [CommitTx.prepare, readTo, readData, readValue, liftReport_ok, ok_bind,
    fromTransactionCalldata_calldata]
  by_cases same : burnValue = 5
  · subst same
    rfl
  · have otherAmount : fiveTokens.amount ≠ burnValue := fun isSame => same isSame.symm
    rw [if_neg same, if_neg (by decide), if_pos otherAmount]
    rfl

/-- An open swap of five tokens. -/
def fiveSwap (swapId : String) : SwapEntry := ⟨swapId, 0, formatAddress 1, "5"⟩

/-- The swap service waits for the call. -/
def fiveOffer : OfframpResponse := ⟨0, [commitFive], none⟩

@[simp]
theorem swapsOutcome_five (swapId : String) :
    swapsOutcome fewTexts 1 5 (.ok ⟨200, .ok [fiveSwap swapId]⟩) =
      .ok (some (fiveSwap swapId)) := by
  have isMatch : (fiveSwap swapId).isMatch fewTexts 1 5 = true := by
    simp [SwapEntry.isMatch, eqIgnoreAsciiCase, fiveSwap, fewTexts, Except.toOption]
  have found : [fiveSwap swapId].find? (SwapEntry.isMatch fewTexts 1 5) =
      some (fiveSwap swapId) := by
    rw [List.find?_cons, isMatch]
  exact congrArg Except.ok found

@[simp]
theorem offrampOutcome_five :
    offrampOutcome fewTexts (.ok ⟨200, .ok fiveOffer⟩) = .ok (some fiveOffer) :=
  rfl

/-- The page with a burn of five tokens that is not paid ahead. -/
def fivePage : List TxnWithInfo × Cursor ListTxnsPosition :=
  ([burnTxn 4 5], ⟨some (.afterInclusive ⟨1, 0⟩), none⟩)

/-- The swap is found and committed, and the confirmation may fail. -/
def paysFive (swapId : String) (confirmed : Except Report Unit) : Transcript :=
  [⟨.swaps 5 (formatAddress 1), .ok ⟨200, .ok [fiveSwap swapId]⟩⟩,
    ⟨.offramp swapId, .ok ⟨200, .ok fiveOffer⟩⟩,
    ⟨.signTransaction sentFive, .ok []⟩,
    ⟨.sendRawTransaction ⟨⟨1, 0⟩, swapId, sentFive⟩ [], .ok 0⟩,
    ⟨.waitForConfirm 0, confirmed⟩]

theorem plays_paysFive (swapId : String) (confirmed : Except Report Unit) :
    (handleNosubBurn fewTexts 1 ⟨1, 0⟩ 5).Plays (paysFive swapId confirmed)
      (confirmed.mapError fun report =>
        .error (context "Failed to wait for commitTx confirmation" report)) := by
  have searched : (Dialogue.retryUntilSome (findSwap fewTexts 1 5) MAX_ATTEMPTS).Plays
      [⟨.swaps 5 (formatAddress 1), .ok ⟨200, .ok [fiveSwap swapId]⟩⟩]
      (.ok (some (fiveSwap swapId))) :=
    .retry (Dialogue.plays_asking_iff.mpr ⟨_, rfl, (swapsOutcome_five swapId).symm⟩)
  have read : (Dialogue.retryUntilSome (readOfframp fewTexts swapId) MAX_ATTEMPTS).Plays
      [⟨.offramp swapId, .ok ⟨200, .ok fiveOffer⟩⟩] (.ok (some fiveOffer)) :=
    .retry (Dialogue.plays_asking_iff.mpr ⟨_, rfl, offrampOutcome_five.symm⟩)
  have sends : (sendCommitTxs fewTexts 1 ⟨1, 0⟩ swapId 5 [commitFive]).Plays
      [⟨.signTransaction sentFive, .ok []⟩,
        ⟨.sendRawTransaction ⟨⟨1, 0⟩, swapId, sentFive⟩ [], .ok 0⟩,
        ⟨.waitForConfirm 0, confirmed⟩]
      (confirmed.mapError fun report =>
        .error (context "Failed to wait for commitTx confirmation" report)) := by
    rw [sendCommitTxs, prepare_commitFive, if_pos rfl]
    cases confirmed with
    | ok => exact .ask (.ask (.ask (.done _)))
    | error report => exact .ask (.ask (.ask (.done _)))
  exact searched.bind (read.bind sends)

/-- The first page has the burn of five tokens. -/
def fetchesFive : Exchange Call.Answer :=
  ⟨.fetchTransactions (some (BurnSubstitutor.afterRollup 0)), .ok ⟨200, .ok fivePage⟩⟩

theorem plays_five (swapId : String) (confirmed : Except Report Unit) :
    (processTxn fewTexts 1 (burnTxn 4 5)).Plays (paysFive swapId confirmed)
      ((confirmed.mapError fun report =>
        .error (context "Failed to wait for commitTx confirmation" report)).map fun _ => []) := by
  have plays := plays_paysFive swapId confirmed
  cases confirmed with
  | ok =>
      have done : (processTxn fewTexts 1 (burnTxn 4 5)).Plays (paysFive swapId (.ok ()) ++ [])
          (.ok []) := plays.bind (.done (.ok []))
      rwa [List.append_nil] at done
  | error report =>
      have failed : (processTxn fewTexts 1 (burnTxn 4 5)).Plays (paysFive swapId (.error report))
          (.error _) := plays.bind_error
      exact failed

theorem plays_page_failed (swapId : String) (report : Report) :
    (BurnSubstitutor.processPage fewTexts ⟨some (BurnSubstitutor.afterRollup 0), 1⟩).Plays
      (fetchesFive :: paysFive swapId (.error report))
      (.error (.error (context "Failed to wait for commitTx confirmation" report))) := by
  have processes : (Dialogue.forEach (processTxn fewTexts 1) [burnTxn 4 5]).Plays
      (paysFive swapId (.error report)) (.error _) := (plays_five swapId (.error report)).bind_error
  have fetched : (BurnSubstitutor.processPage fewTexts
      ⟨some (BurnSubstitutor.afterRollup 0), 1⟩).Plays
      ([fetchesFive] ++ paysFive swapId (.error report)) (.error _) :=
    Dialogue.Plays.bind (.ask (.done (.ok fivePage))) processes.bind_error
  exact fetched

theorem plays_page_done (swapId : String) :
    (BurnSubstitutor.processPage fewTexts ⟨some (BurnSubstitutor.afterRollup 0), 1⟩).Plays
      (fetchesFive :: paysFive swapId (.ok ()))
      (.ok (⟨some (.after (.afterInclusive ⟨1, 0⟩)), 1⟩, [])) := by
  have processes : (Dialogue.forEach (processTxn fewTexts 1) [burnTxn 4 5]).Plays
      (paysFive swapId (.ok ()) ++ []) (.ok [[]]) :=
    (plays_five swapId (.ok ())).bind (.done (.ok [[]]))
  have fetched : (BurnSubstitutor.processPage fewTexts
      ⟨some (BurnSubstitutor.afterRollup 0), 1⟩).Plays
      ([fetchesFive] ++ ((paysFive swapId (.ok ()) ++ []) ++ []))
      (.ok (⟨some (.after (.afterInclusive ⟨1, 0⟩)), 1⟩, [])) :=
    Dialogue.Plays.bind (.ask (.done (.ok fivePage))) (processes.bind (.done _))
  rwa [List.append_nil, List.append_nil] at fetched

/-- The substitutor at the start of its listing. -/
def atStart : BurnSubstitutor := ⟨some (BurnSubstitutor.afterRollup 0), 1⟩

/-- The substitutor behind the burn. -/
def pastFive : BurnSubstitutor := ⟨some (.after (.afterInclusive ⟨1, 0⟩)), 1⟩

theorem plays_first_failed (swapId : String) (report : Report) :
    (BurnSubstitutor.tick fewTexts ⟨none, 1⟩).Plays
      (⟨.blockHeight, .ok 0⟩ :: fetchesFive :: paysFive swapId (.error report))
      (.ok (atStart, .error (.error
        (context "Failed to wait for commitTx confirmation" report)))) := by
  have attempted : Dialogue.Plays ((atStart.processPage fewTexts).attempt : Talk _)
      (fetchesFive :: paysFive swapId (.error report)) (.ok (.error _)) :=
    Dialogue.plays_attempt_iff.mpr ⟨_, rfl, plays_page_failed swapId report⟩
  have ticked : (BurnSubstitutor.tick fewTexts ⟨none, 1⟩).Plays
      (⟨.blockHeight, .ok 0⟩ :: ((fetchesFive :: paysFive swapId (.error report)) ++ []))
      (.ok (atStart, .error _)) := .ask (attempted.bind (.done _))
  rwa [List.append_nil] at ticked

theorem plays_next_done (swapId : String) :
    (atStart.tick fewTexts).Plays (fetchesFive :: paysFive swapId (.ok ()))
      (.ok (pastFive, .ok [])) := by
  have attempted : Dialogue.Plays ((atStart.processPage fewTexts).attempt : Talk _)
      (fetchesFive :: paysFive swapId (.ok ())) (.ok (.ok _)) :=
    Dialogue.plays_attempt_iff.mpr ⟨_, rfl, plays_page_done swapId⟩
  have ticked : (atStart.tick fewTexts).Plays
      ((fetchesFive :: paysFive swapId (.ok ())) ++ []) (.ok (pastFive, .ok [])) :=
    attempted.bind (.done _)
  rwa [List.append_nil] at ticked

theorem plays_first_done (swapId : String) :
    (BurnSubstitutor.tick fewTexts ⟨none, 1⟩).Plays
      (⟨.blockHeight, .ok 0⟩ :: fetchesFive :: paysFive swapId (.ok ()))
      (.ok (pastFive, .ok [])) :=
  .ask (plays_next_done swapId)

/-- Only the page is fetched. -/
theorem honest_five {transcript : Transcript}
    (fetches : ∀ cursor answer, ⟨.fetchTransactions (some cursor), answer⟩ ∈ transcript →
      ⟨.fetchTransactions (some cursor), answer⟩ = fetchesFive) :
    Honest fewTexts [(burnTxn 4 5).positioned] transcript := by
  intro cursor answer page mem fetched
  cases fetches cursor answer mem
  rcases Except.ok.inj fetched with rfl
  exact ⟨⟨1, rfl⟩, rfl⟩

theorem step_listed :
    World.Step fewTexts (.new 1) (.listed [(burnTxn 4 5).positioned]) { World.new 1 with
      listing := [(burnTxn 4 5).positioned] } :=
  .listed (List.pairwise_singleton _ _)

theorem honest_first (confirmed : Except Report Unit) (swapId : String) :
    Honest fewTexts [(burnTxn 4 5).positioned]
      (⟨.blockHeight, .ok 0⟩ :: fetchesFive :: paysFive swapId confirmed) := by
  apply honest_five
  intro cursor answer mem
  simpa [paysFive, fetchesFive] using mem

theorem payable_five : fiveOffer.Payable fewTexts 1 := by
  intro burnValue
  by_cases same : burnValue = 5
  · refine ⟨[sentFive], ?_, ?_⟩
    · rw [fiveOffer, prepareAll, prepare_commitFive, if_pos same]
      rfl
    · rw [List.map_singleton, escrowed_sentFive, same]
      decide
  · refine ⟨[], ?_, Nat.zero_le _⟩
    rw [fiveOffer, prepareAll, prepare_commitFive, if_neg same]
    rfl

theorem meets_five (swapId : String) :
    Meets fewTexts { World.new 1 with listing := [(burnTxn 4 5).positioned] }
      (⟨.blockHeight, .ok 0⟩ :: fetchesFive :: paysFive swapId (.ok ())) where
  answered := by
    intro _
    rw [List.forall_mem_cons, List.forall_mem_cons, paysFive]
    refine ⟨⟨0, rfl⟩, ⟨fivePage, rfl⟩, ?_⟩
    rw [List.forall_mem_cons, List.forall_mem_cons, List.forall_mem_cons, List.forall_mem_cons,
      List.forall_mem_singleton]
    refine ⟨⟨_, swapsOutcome_five swapId⟩, ⟨_, offrampOutcome_five, ?_⟩, ⟨[], rfl⟩, ⟨0, rfl⟩,
      ⟨(), rfl⟩⟩
    intro offramp isOffer _
    rcases Option.some.inj isOffer with rfl
    exact payable_five
  fresh := by
    intro before offered answer later offramp isSplit _ _ commit mem
    -- the offer is the fourth exchange, and nothing was sent before it
    rcases before with _ | ⟨first, _ | ⟨second, _ | ⟨third, _ | ⟨fourth, before⟩⟩⟩⟩
    · cases isSplit
    · cases isSplit
    · cases isSplit
    · cases isSplit
      exact absurd mem List.not_mem_nil
    · have again : ⟨.offramp offered, answer⟩ ∈
          ([⟨.signTransaction sentFive, .ok []⟩,
            ⟨.sendRawTransaction ⟨⟨1, 0⟩, swapId, sentFive⟩ [], .ok 0⟩,
            ⟨.waitForConfirm 0, .ok ()⟩] : Transcript) := by
        rw [(List.cons.inj (List.cons.inj (List.cons.inj (List.cons.inj isSplit).2).2).2).2]
        exact List.mem_append_right _ List.mem_cons_self
      simp at again

/-- Two swaps are committed for the burn. -/
def paidTwice : World where
  substitutor := pastFive
  listing := [(burnTxn 4 5).positioned]
  commits := [⟨⟨1, 0⟩, "a", sentFive⟩, ⟨⟨1, 0⟩, "b", sentFive⟩]

/-- A tick fails after it has sent the commitment, and the next tick finds another swap of the same
amount: two swaps are committed for one burn, and twice its value is sent. -/
theorem burn_paid_twice :
    (∃ events, Run (World.Step fewTexts) (.new 1) events paidTwice) ∧ paidTwice.paid = 10 ∧
      paidTwice.handled = 5 ∧ ¬paidTwice.PaidOnce := by
  have failed := (Run.single step_listed).snoc
    (.ticked (plays_first_failed "a" []) (honest_first (.error []) "a"))
  have honest : Honest fewTexts [(burnTxn 4 5).positioned]
      (fetchesFive :: paysFive "b" (.ok ())) := by
    apply honest_five
    intro cursor answer mem
    simpa [paysFive, fetchesFive] using mem
  have run := failed.snoc (.ticked (plays_next_done "b") honest)
  refine ⟨⟨_, run⟩, ?_, rfl, ?_⟩
  · simp [World.paid, paidTwice, escrowed_sentFive]
  · intro paidOnce
    have same := (paidOnce.committed _ List.mem_cons_self _
      (List.mem_cons_of_mem _ List.mem_cons_self)).mp rfl
    exact absurd same (by decide)

/-- A run with one commitment, in which every call is answered. -/
theorem one_swap_paid_once :
    ∃ events world, Run (World.Step fewTexts) (.new 1) events world ∧
      world.commits = [⟨⟨1, 0⟩, "a", sentFive⟩] ∧ world.PaidOnce := by
  have listed : World.MeetingStep fewTexts (.new 1) (.listed [(burnTxn 4 5).positioned]) _ :=
    ⟨step_listed, fun _ other => by cases other⟩
  have ticked : World.MeetingStep fewTexts
      { World.new 1 with listing := [(burnTxn 4 5).positioned] }
      (.ticked (⟨.blockHeight, .ok 0⟩ :: fetchesFive :: paysFive "a" (.ok ()))) _ :=
    ⟨.ticked (plays_first_done "a") (honest_first (.ok ()) "a"), fun _ same => by
      cases same
      exact meets_five "a"⟩
  have run := (Run.single listed).snoc ticked
  exact ⟨_, _, run.mono fun _ _ _ taken => taken.1, rfl, burns_paid_once run⟩

end Ciphera.Substitutor
