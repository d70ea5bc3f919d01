import Ciphera.Substitutor.World

/-!
# What the cursor of the substitutor passes

When a tick has gone through a page, its cursor moves behind it for good.  Each burn of the
page has then been settled, or was skipped on purpose: because the balance was too low, or
because its swap was not ready or not one to commit.  A burn for which no swap was found is
passed as well, although the next tick was to try it again.
-/

namespace Ciphera.Substitutor

open Ciphera.Lib Ciphera.Zk
open Ciphera.Node (ListTxnsPosition TxnWithInfo)
open Ciphera.Rollup (Address Burn)

/-! ## The ways of a burn -/

section

variable (decoders : Decoders) (substitutorAddress : Address)

/-- The swap service has named the swap for the amount. -/
def Matched (burnValue : BitVec 256) (swap : SwapEntry) (part : Transcript) : Prop :=
  ∃ answer, ⟨.swaps burnValue (formatAddress substitutorAddress), answer⟩ ∈ part ∧
    swapsOutcome decoders substitutorAddress burnValue answer = .ok (some swap)

/-- The swap service has answered what is to be done for the swap. -/
def Offered (swapId : String) (offramp : OfframpResponse) (part : Transcript) : Prop :=
  ∃ answer, ⟨.offramp swapId, answer⟩ ∈ part ∧ offrampOutcome decoders answer = .ok (some offramp)

/-- A transaction was sent, and its confirmation came. -/
def SentAndConfirmed (commit : Commit) (part : Transcript) : Prop :=
  ∃ raw txHash, ⟨.sendRawTransaction commit raw, .ok txHash⟩ ∈ part ∧
    ⟨.waitForConfirm txHash, .ok ()⟩ ∈ part

/-- The burn is paid ahead, now or before, or its swap is committed or claimed. -/
inductive Settled (origin : ListTxnsPosition) (messages : UtxoKindBurnMessages)
    (part : Transcript) : Prop
  | already : isSubstitutable messages = true →
      ⟨.wasBurnSubstituted (burnOf messages) origin.block, .ok true⟩ ∈ part →
      Settled origin messages part
  | substituted (txn : BitVec 256) : isSubstitutable messages = true →
      ⟨.substituteBurn origin (burnOf messages) origin.block, .ok txn⟩ ∈ part →
      ⟨.waitForConfirm txn, .ok ()⟩ ∈ part → Settled origin messages part
  | claimed (swap : SwapEntry) (offramp : OfframpResponse) : isSubstitutable messages = false →
      Matched decoders substitutorAddress messages.value swap part →
      Offered decoders swap.id offramp part → offramp.claimedWithPreimage = true →
      Settled origin messages part
  | committed (swap : SwapEntry) (offramp : OfframpResponse) : isSubstitutable messages = false →
      Matched decoders substitutorAddress messages.value swap part →
      Offered decoders swap.id offramp part → offramp.commitReady = true →
      (∀ commitTx ∈ offramp.commitTxs, ∃ txParams,
        commitTx.prepare decoders substitutorAddress messages.value = .ok (some txParams) ∧
        SentAndConfirmed ⟨origin, swap.id, txParams⟩ part) → Settled origin messages part

/-- The burn is skipped on purpose: the balance is too low, the swap was not ready in any
attempt, or one of its transactions is not the commitment that it should be. -/
inductive Skipped (messages : UtxoKindBurnMessages) (part : Transcript) : Prop
  | balance (tokenBalance : BitVec 256) : isSubstitutable messages = true →
      ⟨.balance, .ok tokenBalance⟩ ∈ part → messages.value.toNat > tokenBalance.toNat →
      Skipped messages part
  | notReady (swap : SwapEntry) (answers : List (Call.Answer (.offramp swap.id))) :
      isSubstitutable messages = false →
      Matched decoders substitutorAddress messages.value swap part →
      answers.length = MAX_ATTEMPTS → (∀ answer ∈ answers,
        ⟨.offramp swap.id, answer⟩ ∈ part ∧ offrampOutcome decoders answer = .ok none) →
      Skipped messages part
  | refused (swap : SwapEntry) (offramp : OfframpResponse) (commitTx : CommitTx) :
      isSubstitutable messages = false →
      Matched decoders substitutorAddress messages.value swap part →
      Offered decoders swap.id offramp part → commitTx ∈ offramp.commitTxs →
      commitTx.prepare decoders substitutorAddress messages.value = .ok none →
      Skipped messages part

/-- The swap service named no swap for the burn in any attempt. -/
def Unmatched (messages : UtxoKindBurnMessages) (part : Transcript) : Prop :=
  isSubstitutable messages = false ∧ ∃ answers : List (Call.Answer
      (.swaps messages.value (formatAddress substitutorAddress))),
    answers.length = MAX_ATTEMPTS ∧ ∀ answer ∈ answers,
      ⟨.swaps messages.value (formatAddress substitutorAddress), answer⟩ ∈ part ∧
        swapsOutcome decoders substitutorAddress messages.value answer = .ok none

/-- What the transcript tells of a burn that was gone through. -/
def GoneThrough (origin : ListTxnsPosition) (messages : UtxoKindBurnMessages)
    (part : Transcript) : Prop :=
  Settled decoders substitutorAddress origin messages part ∨
    Skipped decoders substitutorAddress messages part ∨
    Unmatched decoders substitutorAddress messages part

end

/-! ## One burn -/

variable {decoders : Decoders} {substitutorAddress : Address} {part : Transcript}
  {origin : ListTxnsPosition} {burnValue : BitVec 256}

theorem of_substituteDirect {burn : Burn} {burnBlockHeight : Nat} {result : Bool}
    (plays : (substituteDirect origin burn burnBlockHeight).Plays part (.ok result)) :
    ⟨.wasBurnSubstituted burn burnBlockHeight, .ok true⟩ ∈ part ∨
      (∃ tokenBalance, ⟨.balance, .ok tokenBalance⟩ ∈ part ∧
        burn.amount.toNat > tokenBalance.toNat) ∨
      ∃ txn, ⟨.substituteBurn origin burn burnBlockHeight, .ok txn⟩ ∈ part ∧
        ⟨.waitForConfirm txn, .ok ()⟩ ∈ part := by
  rcases plays_request_bind_ok_iff.mp plays with ⟨before, afterAsked, rfl, asked⟩
  cases before with
  | true => exact .inl List.mem_cons_self
  | false =>
      rw [if_neg (by simp)] at asked
      rcases plays_request_bind_ok_iff.mp asked with ⟨tokenBalance, afterBalance, rfl, compared⟩
      split at compared
      case isTrue tooLow => exact .inr (.inl ⟨tokenBalance, by simp, tooLow⟩)
      rcases plays_request_bind_ok_iff.mp compared with ⟨txn, afterSent, rfl, sent⟩
      rcases plays_request_bind_ok_iff.mp sent with ⟨_, afterConfirmed, rfl, _⟩
      exact .inr (.inr ⟨txn, by simp, by simp⟩)

/-- Either everything was sent and confirmed, or there is something that is not to be sent. -/
theorem of_sendCommitTxs {swapId : String} {commitTxs : List CommitTx}
    (plays : (sendCommitTxs decoders substitutorAddress origin swapId burnValue commitTxs).Plays
      part (.ok ())) :
    (∀ commitTx ∈ commitTxs, ∃ txParams,
      commitTx.prepare decoders substitutorAddress burnValue = .ok (some txParams) ∧
      SentAndConfirmed ⟨origin, swapId, txParams⟩ part) ∨
    ∃ commitTx ∈ commitTxs, commitTx.prepare decoders substitutorAddress burnValue = .ok none := by
  induction commitTxs generalizing part with
  | nil => exact .inl fun _ mem => absurd mem List.not_mem_nil
  | cons commitTx rest ih =>
      rcases Dialogue.plays_bind_ok_iff.mp plays with ⟨prepared, first, later, rfl, done, played⟩
      rcases Dialogue.plays_done_iff.mp done with ⟨rfl, isPrepared⟩
      cases prepared with
      | none => exact .inr ⟨commitTx, List.mem_cons_self, isPrepared.symm⟩
      | some txParams =>
          rcases plays_request_bind_ok_iff.mp played with ⟨raw, afterSigned, rfl, signed⟩
          rcases plays_request_bind_ok_iff.mp signed with ⟨txHash, afterSent, rfl, sent⟩
          rcases plays_request_bind_ok_iff.mp sent with ⟨_, afterConfirmed, rfl, confirmed⟩
          rcases ih confirmed with all | ⟨refused, mem, isRefused⟩
          · apply Or.inl
            intro other mem
            rcases List.mem_cons.mp mem with rfl | mem
            · exact ⟨txParams, isPrepared.symm, raw, txHash, by simp, by simp⟩
            · rcases all other mem with ⟨otherParams, prepares, raw', txHash', sent, confirmed⟩
              exact ⟨otherParams, prepares, raw', txHash', by simp [sent], by simp [confirmed]⟩
          · exact .inr ⟨refused, List.mem_cons_of_mem _ mem, isRefused⟩

/-- A failed search has asked as often as it could. -/
theorem answers_of_retry_none {call : Call} {α : Type}
    {outcome : call.Answer → Except (Stop Report) (Option α)} {attempts : Nat}
    (plays : (Dialogue.retryUntilSome (.ask call fun answer => .done (outcome answer))
      attempts).Plays part (.ok none)) :
    ∃ answers : List call.Answer, answers.length = attempts ∧ ∀ answer ∈ answers,
      ⟨call, answer⟩ ∈ part ∧ outcome answer = .ok none := by
  rcases Dialogue.of_retry_none plays with ⟨tries, rfl, rfl, all⟩
  clear plays
  induction tries with
  | nil => exact ⟨[], rfl, fun _ mem => absurd mem List.not_mem_nil⟩
  | cons tried tries ih =>
      rw [List.forall_mem_cons] at all
      rcases Dialogue.plays_asking_iff.mp all.1 with ⟨answer, rfl, isNone⟩
      rcases ih all.2 with ⟨answers, sameLength, others⟩
      refine ⟨answer :: answers, congrArg (· + 1) sameLength, List.forall_mem_cons.mpr ⟨?_, ?_⟩⟩
      · exact ⟨by simp, isNone.symm⟩
      · intro other mem
        rcases others other mem with ⟨isAsked, isNone⟩
        exact ⟨List.mem_append_right _ isAsked, isNone⟩

/-- A search that succeeds was answered with what it found. -/
theorem answer_of_retry_some {call : Call} {α : Type} {value : α}
    {outcome : call.Answer → Except (Stop Report) (Option α)} {attempts : Nat}
    (plays : (Dialogue.retryUntilSome (.ask call fun answer => .done (outcome answer))
      attempts).Plays part (.ok (some value))) :
    ∃ answer, ⟨call, answer⟩ ∈ part ∧ outcome answer = .ok (some value) := by
  rcases Dialogue.of_retry_some plays with ⟨before, last, rfl, found⟩
  rcases Dialogue.plays_asking_iff.mp found with ⟨answer, rfl, isSome⟩
  exact ⟨answer, by simp, isSome.symm⟩

/-- Only an answer that is ready ends the attempts. -/
theorem ready_of_offrampOutcome {answer : Except Report (Response OfframpResponse)}
    {offramp : OfframpResponse} (isOffer : offrampOutcome decoders answer = .ok (some offramp)) :
    offramp.commitReady = true ∨ offramp.claimedWithPreimage = true := by
  rcases bind_eq_ok_iff.mp isOffer with ⟨resp, _, answered⟩
  split at answered
  case isTrue => cases pure_eq_ok_iff.mp answered
  rcases bind_eq_ok_iff.mp answered with ⟨_, _, isOk⟩
  rcases bind_eq_ok_iff.mp isOk with ⟨read, _, ready⟩
  split at ready
  case isTrue => cases pure_eq_ok_iff.mp ready
  case isFalse notUnready =>
    rcases Option.some.inj (pure_eq_ok_iff.mp ready) with rfl
    simpa [Decidable.or_iff_not_imp_left] using notUnready

/-- A swap that was claimed is not to be committed. -/
theorem claimedWithPreimage_of_isClaimed {answer : Except Report (Response OfframpResponse)}
    {offramp : OfframpResponse} (isOffer : offrampOutcome decoders answer = .ok (some offramp))
    (claimed : offramp.isClaimed = true) : offramp.claimedWithPreimage = true := by
  apply (ready_of_offrampOutcome isOffer).resolve_left
  simp only [OfframpResponse.isClaimed, Bool.or_eq_true, decide_eq_true_eq] at claimed
  rw [OfframpResponse.commitReady]
  rcases claimed with isTwo | isThree
  · simp [isTwo]
  · simp [isThree]

/-- A swap that is not claimed is followed only when it is ready. -/
theorem commitReady_of_offrampOutcome {answer : Except Report (Response OfframpResponse)}
    {offramp : OfframpResponse} (isOffer : offrampOutcome decoders answer = .ok (some offramp))
    (notClaimed : ¬offramp.isClaimed = true) : offramp.commitReady = true := by
  apply (ready_of_offrampOutcome isOffer).resolve_right
  rw [OfframpResponse.claimedWithPreimage, Bool.and_eq_true]
  exact fun claimed => notClaimed claimed.1

/-- The ways in which a burn without substitution is gone through. -/
inductive Handled (decoders : Decoders) (substitutorAddress : Address) (origin : ListTxnsPosition)
    (burnValue : BitVec 256) : Transcript → Prop
  | unmatched {part : Transcript} :
      (Dialogue.retryUntilSome (findSwap decoders substitutorAddress burnValue)
        MAX_ATTEMPTS).Plays part (.ok none) →
      Handled decoders substitutorAddress origin burnValue part
  | notReady {swap : SwapEntry} {first asked : Transcript} :
      (Dialogue.retryUntilSome (findSwap decoders substitutorAddress burnValue)
        MAX_ATTEMPTS).Plays first (.ok (some swap)) →
      (Dialogue.retryUntilSome (readOfframp decoders swap.id) MAX_ATTEMPTS).Plays asked
        (.ok none) →
      Handled decoders substitutorAddress origin burnValue (first ++ asked)
  | claimed {swap : SwapEntry} {offramp : OfframpResponse} {first asked : Transcript} :
      (Dialogue.retryUntilSome (findSwap decoders substitutorAddress burnValue)
        MAX_ATTEMPTS).Plays first (.ok (some swap)) →
      (Dialogue.retryUntilSome (readOfframp decoders swap.id) MAX_ATTEMPTS).Plays asked
        (.ok (some offramp)) → offramp.isClaimed = true →
      Handled decoders substitutorAddress origin burnValue (first ++ asked)
  | sent {swap : SwapEntry} {offramp : OfframpResponse} {first asked later : Transcript} :
      (Dialogue.retryUntilSome (findSwap decoders substitutorAddress burnValue)
        MAX_ATTEMPTS).Plays first (.ok (some swap)) →
      (Dialogue.retryUntilSome (readOfframp decoders swap.id) MAX_ATTEMPTS).Plays asked
        (.ok (some offramp)) → ¬offramp.isClaimed = true →
      (sendCommitTxs decoders substitutorAddress origin swap.id burnValue
        offramp.commitTxs).Plays later (.ok ()) →
      Handled decoders substitutorAddress origin burnValue (first ++ (asked ++ later))

theorem handled_of_handleNosubBurn
    (plays : (handleNosubBurn decoders substitutorAddress origin burnValue).Plays part (.ok ())) :
    Handled decoders substitutorAddress origin burnValue part := by
  rcases Dialogue.plays_bind_ok_iff.mp plays with ⟨found, first, rest, rfl, searched, followed⟩
  cases found with
  | none =>
      rcases Dialogue.plays_pure_iff.mp followed with ⟨rfl, _⟩
      rw [List.append_nil]
      exact .unmatched searched
  | some swap =>
      rcases Dialogue.plays_bind_ok_iff.mp followed with ⟨read, asked, later, rfl, reads, sends⟩
      cases read with
      | none =>
          rcases Dialogue.plays_pure_iff.mp sends with ⟨rfl, _⟩
          rw [List.append_nil]
          exact .notReady searched reads
      | some offramp =>
          dsimp only at sends
          split at sends
          case isTrue isClaimed =>
            rcases Dialogue.plays_pure_iff.mp sends with ⟨rfl, _⟩
            rw [List.append_nil]
            exact .claimed searched reads isClaimed
          case isFalse notClaimed => exact .sent searched reads notClaimed sends

theorem Matched.mono {swap : SwapEntry} {more : Transcript} (subset : part ⊆ more)
    (matched : Matched decoders substitutorAddress burnValue swap part) :
    Matched decoders substitutorAddress burnValue swap more := by
  rcases matched with ⟨answer, mem, isSwap⟩
  exact ⟨answer, subset mem, isSwap⟩

theorem SentAndConfirmed.mono {commit : Commit} {more : Transcript} (subset : part ⊆ more)
    (sent : SentAndConfirmed commit part) : SentAndConfirmed commit more := by
  rcases sent with ⟨raw, txHash, isSent, isConfirmed⟩
  exact ⟨raw, txHash, subset isSent, subset isConfirmed⟩

theorem matched_of_search {swap : SwapEntry}
    (searched : (Dialogue.retryUntilSome (findSwap decoders substitutorAddress burnValue)
      MAX_ATTEMPTS).Plays part (.ok (some swap))) :
    Matched decoders substitutorAddress burnValue swap part := by
  rcases answer_of_retry_some searched with ⟨answer, mem, isSwap⟩
  exact ⟨answer, mem, isSwap⟩

theorem goneThrough_of_handled {messages : UtxoKindBurnMessages}
    (noSub : isSubstitutable messages = false)
    (handled : Handled decoders substitutorAddress origin messages.value part) :
    GoneThrough decoders substitutorAddress origin messages part := by
  cases handled with
  | unmatched searched =>
      rcases answers_of_retry_none searched with ⟨answers, all, asked⟩
      exact .inr (.inr ⟨noSub, answers, all, asked⟩)
  | @notReady swap first asked searched reads =>
      have matched := (matched_of_search searched).mono (List.subset_append_left first asked)
      rcases answers_of_retry_none reads with ⟨answers, all, isAsked⟩
      exact .inr (.inl (.notReady swap answers noSub matched all fun answer mem =>
        ⟨List.mem_append_right _ (isAsked answer mem).1, (isAsked answer mem).2⟩))
  | @claimed swap offramp first asked searched reads isClaimed =>
      have matched := (matched_of_search searched).mono (List.subset_append_left first asked)
      rcases answer_of_retry_some reads with ⟨answer, mem, isOffer⟩
      exact .inl (.claimed swap offramp noSub matched
        ⟨answer, List.mem_append_right _ mem, isOffer⟩
        (claimedWithPreimage_of_isClaimed isOffer isClaimed))
  | @sent swap offramp first asked later searched reads notClaimed sends =>
      have matched := (matched_of_search searched).mono (List.subset_append_left first
        (asked ++ later))
      rcases answer_of_retry_some reads with ⟨answer, mem, isOffer⟩
      have offered : Offered decoders swap.id offramp (first ++ (asked ++ later)) :=
        ⟨answer, List.mem_append_right _ (List.mem_append_left _ mem), isOffer⟩
      rcases of_sendCommitTxs sends with all | ⟨commitTx, isCommitTx, refused⟩
      · apply Or.inl
        apply Settled.committed swap offramp noSub matched offered
          (commitReady_of_offrampOutcome isOffer notClaimed)
        intro commitTx isCommitTx
        rcases all commitTx isCommitTx with ⟨txParams, prepared, isSent⟩
        exact ⟨txParams, prepared, isSent.mono (List.Subset.trans
          (List.subset_append_right asked later) (List.subset_append_right first _))⟩
      · exact .inr (.inl (.refused swap offramp commitTx noSub matched offered isCommitTx refused))

theorem goneThrough_of_processTxn {txn : TxnWithInfo} {messages : UtxoKindBurnMessages}
    {result : List Element} (isBurn : txn.proof.kindMessages = .burn messages)
    (plays : (processTxn decoders substitutorAddress txn).Plays part (.ok result)) :
    GoneThrough decoders substitutorAddress txn.position messages part := by
  simp only [processTxn, isBurn] at plays
  cases substitutable : isSubstitutable messages with
  | true =>
      rw [if_pos substitutable] at plays
      rcases Dialogue.plays_bind_ok_iff.mp plays with ⟨_, first, later, rfl, tried, finished⟩
      rcases Dialogue.plays_pure_iff.mp finished with ⟨rfl, _⟩
      rw [List.append_nil]
      rcases of_substituteDirect tried with already | ⟨tokenBalance, asked, tooLow⟩ |
        ⟨txHash, sent, confirmed⟩
      · exact .inl (.already substitutable already)
      · exact .inr (.inl (.balance tokenBalance substitutable asked tooLow))
      · exact .inl (.substituted txHash substitutable sent confirmed)
  | false =>
      rw [if_neg (by simp [substitutable])] at plays
      rcases Dialogue.plays_bind_ok_iff.mp plays with ⟨_, first, later, rfl, handled, finished⟩
      rcases Dialogue.plays_pure_iff.mp finished with ⟨rfl, _⟩
      rw [List.append_nil]
      exact goneThrough_of_handled substitutable (handled_of_handleNosubBurn handled)

/-! ## One page -/

/-- The part of a transcript that deals with a burn. -/
def Dealt (decoders : Decoders) (substitutorAddress : Address)
    (item : ListTxnsPosition × UtxoProof) (transcript : Transcript) : Prop :=
  ∀ messages, item.2.kindMessages = .burn messages →
    ∃ part, part <:+: transcript ∧
      GoneThrough decoders substitutorAddress item.1 messages part

variable {substitutor next : BurnSubstitutor} {transcript : Transcript}
  {cursor : CursorChoice ListTxnsPosition} {listing : Listing}
  {answer : Call.Answer (.fetchTransactions (some cursor))}
  {page : List TxnWithInfo × Cursor ListTxnsPosition} {parts : List (TxnWithInfo × Transcript)}

/-- Everything on the page is dealt with. -/
theorem Swept.dealt (swept : Swept decoders substitutor cursor next transcript answer page parts)
    {item : ListTxnsPosition × UtxoProof} (mem : item ∈ page.1.map TxnWithInfo.positioned) :
    Dealt decoders substitutor.substitutorAddress item transcript := by
  intro messages isBurn
  rcases List.mem_map.mp mem with ⟨txn, onPage, rfl⟩
  rw [← swept.txns] at onPage
  rcases List.mem_map.mp onPage with ⟨part, isPart, rfl⟩
  rcases swept.processed part isPart with ⟨result, plays⟩
  refine ⟨part.2, ?_, goneThrough_of_processTxn isBurn plays⟩
  rw [swept.transcript]
  have inParts : part.2 <:+: (parts.map Prod.snd).flatten :=
    List.infix_of_mem_flatten (List.mem_map_of_mem isPart)
  exact inParts.trans (List.suffix_cons _ _).isInfix

/-- The cursor stays, or moves to the last transaction of the page; what it passes is on the
page. -/
theorem Swept.moves (swept : Swept decoders substitutor cursor next transcript answer page parts)
    (sorted : listing.Sorted) (isPage : IsPage listing cursor page) :
    next.cursor = some cursor ∨
      ∃ last ∈ listing, next.cursor = some (.after (.afterInclusive last.1)) ∧
        isBefore cursor.inner last.1 = true ∧
        ∀ item ∈ listing, isBefore cursor.inner item.1 = true → isBefore last.1 item.1 = false →
          item ∈ page.1.map TxnWithInfo.positioned := by
  cases isLast : page.1.getLast? with
  | none => exact .inl (swept.cursor_of_empty (List.getLast?_eq_none_iff.mp isLast))
  | some txn =>
      rcases isPage.1 with ⟨count, items⟩
      have isLastItem : ((listing.filter fun item => isBefore cursor.inner item.1).take
          count).getLast? = some txn.positioned := by
        rw [← items, List.getLast?_map, isLast]
        rfl
      rcases List.mem_filter.mp (List.mem_of_mem_take (List.mem_of_getLast? isLastItem)) with
        ⟨listed, behind⟩
      refine .inr ⟨txn.positioned, listed, swept.cursor_of_last isPage isLast, behind, ?_⟩
      intro item mem isBehind notBehind
      rw [items]
      exact mem_page (sorted.filter _) isLastItem (List.mem_filter.mpr ⟨mem, isBehind⟩) notBehind

/-! ## All runs -/

/-- The burns between the start and the cursor are dealt with. -/
structure Passed (decoders : Decoders) (substitutorAddress : Address) (events : List Event)
    (listing : Listing) (cursor : CursorChoice ListTxnsPosition) (lastRollup : Nat) : Prop where
  begun : ∃ transcript, .ticked transcript ∈ events ∧ ⟨.blockHeight, .ok lastRollup⟩ ∈ transcript
  known : cursor = BurnSubstitutor.afterRollup lastRollup ∨
    ∃ last ∈ listing, cursor.inner = last.1
  dealt : ∀ item ∈ listing,
    isBefore (BurnSubstitutor.afterRollup lastRollup).inner item.1 = true →
    isBefore cursor.inner item.1 = false →
    ∃ transcript, .ticked transcript ∈ events ∧
      Dealt decoders substitutorAddress item transcript

variable {events : List Event} {lastRollup : Nat}

theorem Passed.later
    (passed : Passed decoders substitutorAddress events listing cursor lastRollup)
    (event : Event) :
    Passed decoders substitutorAddress (events ++ [event]) listing cursor lastRollup where
  begun := by
    rcases passed.begun with ⟨transcript, mem, asked⟩
    exact ⟨transcript, List.mem_append_left _ mem, asked⟩
  known := passed.known
  dealt := by
    intro item mem behindStart notBehind
    rcases passed.dealt item mem behindStart notBehind with ⟨transcript, isEvent, deals⟩
    exact ⟨transcript, List.mem_append_left _ isEvent, deals⟩

/-- What is listed later is behind the cursor. -/
theorem Passed.listed {more : Listing}
    (passed : Passed decoders substitutorAddress events listing cursor lastRollup)
    (sorted : Listing.Sorted (listing ++ more)) :
    Passed decoders substitutorAddress events (listing ++ more) cursor lastRollup where
  begun := passed.begun
  known := by
    rcases passed.known with start | ⟨last, mem, isLast⟩
    · exact .inl start
    · exact .inr ⟨last, List.mem_append_left _ mem, isLast⟩
  dealt := by
    intro item mem behindStart notBehind
    rcases List.mem_append.mp mem with old | new
    · exact passed.dealt item old behindStart notBehind
    · rcases passed.known with rfl | ⟨last, isListed, isLast⟩
      · rw [behindStart] at notBehind
        cases notBehind
      · have behind := (List.pairwise_append.mp sorted).2.2 last isListed item new
        rw [← isLast, notBehind] at behind
        cases behind

/-- With the cursor that a tick starts with nothing more is passed. -/
theorem Started.passed {first later : Transcript} (started : Started substitutor cursor first)
    (passed : ∀ cursor, substitutor.cursor = some cursor →
      ∃ lastRollup, Passed decoders substitutorAddress events listing cursor lastRollup) :
    ∃ lastRollup, Passed decoders substitutorAddress (events ++ [.ticked (first ++ later)])
      listing cursor lastRollup := by
  cases started with
  | running own =>
      rcases passed cursor own with ⟨lastRollup, passed⟩
      exact ⟨lastRollup, passed.later _⟩
  | @begun lastRollup own isStart =>
      refine ⟨lastRollup, ⟨_, List.mem_append_right _ List.mem_cons_self, List.mem_cons_self⟩,
        .inl isStart, ?_⟩
      intro item mem behindStart notBehind
      rw [isStart, behindStart] at notBehind
      cases notBehind

theorem Dealt.mono {item : ListTxnsPosition × UtxoProof} {more : Transcript}
    (dealt : Dealt decoders substitutorAddress item transcript) (inside : transcript <:+: more) :
    Dealt decoders substitutorAddress item more := by
  intro messages isBurn
  rcases dealt messages isBurn with ⟨part, isPart, gone⟩
  exact ⟨part, isPart.trans inside, gone⟩

/-- What holds in every run. -/
structure Sound (decoders : Decoders) (substitutorAddress : Address) (events : List Event)
    (world : World) : Prop where
  sorted : world.listing.Sorted
  address : world.substitutor.substitutorAddress = substitutorAddress
  passed : ∀ cursor, world.substitutor.cursor = some cursor → ∃ lastRollup,
    Passed decoders substitutorAddress events world.listing cursor lastRollup

theorem Sound.ticked {world : World} (sound : Sound decoders substitutorAddress events world)
    (honest : Honest decoders world.listing transcript)
    (ticked : Ticked decoders world.substitutor next transcript) :
    next.substitutorAddress = substitutorAddress ∧ ∀ cursor, next.cursor = some cursor →
      ∃ lastRollup, Passed decoders substitutorAddress (events ++ [.ticked transcript])
        world.listing cursor lastRollup := by
  cases ticked with
  | unstarted none isNext =>
      subst isNext
      refine ⟨sound.address, fun cursor isCursor => ?_⟩
      rw [none] at isCursor
      cases isCursor
  | failed started _ isNext =>
      subst isNext
      refine ⟨sound.address, fun cursor isCursor => ?_⟩
      rcases Option.some.inj isCursor with rfl
      exact started.passed sound.passed
  | @swept cursor first later answer page parts started swept =>
      refine ⟨by rw [swept.next, ← sound.address], fun moved isMoved => ?_⟩
      rcases started.passed sound.passed with ⟨lastRollup, passed⟩
      have isPage : IsPage world.listing cursor page := by
        apply honest cursor answer page _ swept.fetched
        rw [swept.transcript]
        exact List.mem_append_right _ List.mem_cons_self
      rcases swept.moves sound.sorted isPage with stays | ⟨last, mem, isLast, _, onPage⟩
      · rw [stays] at isMoved
        rcases Option.some.inj isMoved with rfl
        exact ⟨lastRollup, passed⟩
      · rw [isLast] at isMoved
        rcases Option.some.inj isMoved with rfl
        refine ⟨lastRollup, passed.begun, .inr ⟨last, mem, rfl⟩, ?_⟩
        intro item listed behindStart notBehind
        cases behind : isBefore cursor.inner item.1 with
        | false => exact passed.dealt item listed behindStart behind
        | true =>
            have dealt := swept.dealt (onPage item listed behind notBehind)
            rw [sound.address] at dealt
            exact ⟨_, List.mem_append_right _ List.mem_cons_self,
              dealt.mono (List.suffix_append _ _).isInfix⟩

theorem Sound.step {event : Event} {world target : World}
    (sound : Sound decoders substitutorAddress events world)
    (taken : World.Step decoders world event target) :
    Sound decoders substitutorAddress (events ++ [event]) target := by
  cases taken with
  | listed sorted =>
      refine ⟨sorted, sound.address, fun cursor isCursor => ?_⟩
      rcases sound.passed cursor isCursor with ⟨lastRollup, passed⟩
      exact ⟨lastRollup, (passed.later _).listed sorted⟩
  | ticked plays honest =>
      rcases sound.ticked honest (ticked_of_tick plays) with ⟨address, passed⟩
      exact ⟨sound.sorted, address, passed⟩
  | substituted _ _ =>
      refine ⟨sound.sorted, sound.address, fun cursor isCursor => ?_⟩
      rcases sound.passed cursor isCursor with ⟨lastRollup, passed⟩
      exact ⟨lastRollup, passed.later _⟩

theorem Sound.of_run {world : World}
    (run : Run (World.Step decoders) (.new substitutorAddress) events world) :
    Sound decoders substitutorAddress events world := by
  apply run.invariant (motive := Sound decoders substitutorAddress)
  · refine ⟨List.Pairwise.nil, rfl, fun cursor isCursor => ?_⟩
    cases isCursor
  · exact fun _ _ _ _ _ sound taken => sound.step taken

/-- In every run, every burn between the start and the cursor was dealt with in some tick: it is
settled, or was skipped on purpose, or no swap was found for it. -/
theorem cursor_passes_dealt {world : World} {cursor : CursorChoice ListTxnsPosition}
    (run : Run (World.Step decoders) (.new substitutorAddress) events world)
    (isCursor : world.substitutor.cursor = some cursor) :
    ∃ lastRollup, (∃ transcript, .ticked transcript ∈ events ∧
        ⟨.blockHeight, .ok lastRollup⟩ ∈ transcript) ∧
      ∀ item ∈ world.listing,
        isBefore (BurnSubstitutor.afterRollup lastRollup).inner item.1 = true →
        isBefore cursor.inner item.1 = false → ∀ messages, item.2.kindMessages = .burn messages →
        ∃ transcript part, .ticked transcript ∈ events ∧ part <:+: transcript ∧
          GoneThrough decoders substitutorAddress item.1 messages part := by
  rcases (Sound.of_run run).passed cursor isCursor with ⟨lastRollup, passed⟩
  refine ⟨lastRollup, passed.begun, ?_⟩
  intro item mem behindStart notBehind messages isBurn
  rcases passed.dealt item mem behindStart notBehind with ⟨transcript, isEvent, dealt⟩
  rcases dealt messages isBurn with ⟨part, isPart, gone⟩
  exact ⟨transcript, part, isEvent, isPart, gone⟩

/-! ## A burn that the balance covers -/

/-- The only transaction of the first block. -/
def burnTxn (kind value : Element) : TxnWithInfo :=
  ⟨⟨[], .single 0 kind 1 value 7 9⟩, 0, 0, 1, 0⟩

@[simp]
theorem kindMessages_burnTxn (value : Element) :
    (burnTxn 3 value).proof.kindMessages = .burn ⟨3, 1, value, 7, 9⟩ :=
  rfl

/-- Nothing is read in the runs below. -/
def noDecoders : Decoders where
  fromDecStr _ := .error []
  parseAddress _ := .error []
  hexDecode _ := .error []
  displayStatus _ := ""

/-- A first tick that fetches the page with the burn. -/
def paged (later : Transcript) : Transcript :=
  [⟨.blockHeight, .ok 0⟩,
    ⟨.fetchTransactions (some (BurnSubstitutor.afterRollup 0)),
      .ok ⟨200, .ok ([burnTxn 3 5], ⟨some (.afterInclusive ⟨1, 0⟩), none⟩)⟩⟩] ++ later

/-- A tick that goes through the page moves the cursor behind the burn. -/
theorem run_paged {later : Transcript} {burns : List Element}
    (plays : (BurnSubstitutor.tick noDecoders ⟨none, 1⟩).Plays (paged later)
      (.ok (⟨some (.after (.afterInclusive ⟨1, 0⟩)), 1⟩, .ok burns)))
    (noFetch : ∀ cursor answer, ⟨.fetchTransactions cursor, answer⟩ ∉ later) :
    ∃ world, Run (World.Step noDecoders) (.new 1)
        [.listed [(burnTxn 3 5).positioned], .ticked (paged later)] world ∧
      world.listing = [(burnTxn 3 5).positioned] ∧
      world.substitutor.cursor = some (.after (.afterInclusive ⟨1, 0⟩)) := by
  have listed : World.Step noDecoders (.new 1) (.listed [(burnTxn 3 5).positioned]) _ :=
    .listed (List.pairwise_singleton _ _)
  have honest : Honest noDecoders [(burnTxn 3 5).positioned] (paged later) := by
    intro cursor answer page mem fetched
    rcases List.mem_cons.mp mem with same | mem
    · cases same
    rcases List.mem_cons.mp mem with same | mem
    · cases same
      rcases Except.ok.inj fetched with rfl
      exact ⟨⟨1, rfl⟩, rfl⟩
    · exact absurd mem (noFetch _ _)
  exact ⟨_, (Run.single listed).snoc (.ticked plays honest), rfl, rfl⟩

/-- Which tick the burn was dealt with in. -/
theorem eq_of_ticked_mem {first transcript : Transcript}
    (mem : Event.ticked transcript ∈
      [Event.listed [(burnTxn 3 5).positioned], .ticked first]) : transcript = first := by
  rcases List.mem_pair.mp mem with same | same
  · cases same
  · exact Event.ticked.inj same

/-- The burn is sent to the contract and confirmed. -/
def covered : Transcript :=
  paged [⟨.wasBurnSubstituted ⟨7, 9, 1, 5⟩ 1, .ok false⟩, ⟨.balance, .ok 5⟩,
    ⟨.substituteBurn ⟨1, 0⟩ ⟨7, 9, 1, 5⟩ 1, .ok 3⟩, ⟨.waitForConfirm 3, .ok ()⟩]

/-- The burn behind the start is settled when the cursor has passed it. -/
theorem covered_settled :
    ∃ world part, Run (World.Step noDecoders) (.new 1)
        [.listed [(burnTxn 3 5).positioned], .ticked covered] world ∧
      world.substitutor.cursor = some (.after (.afterInclusive ⟨1, 0⟩)) ∧
      part <:+: covered ∧ Settled noDecoders 1 ⟨1, 0⟩ ⟨3, 1, 5, 7, 9⟩ part := by
  have plays : (BurnSubstitutor.tick noDecoders ⟨none, 1⟩).Plays covered
      (.ok (⟨some (.after (.afterInclusive ⟨1, 0⟩)), 1⟩, .ok [7])) :=
    .ask (.ask (.ask (.ask (.ask (.ask (.done _))))))
  rcases run_paged plays (by simp) with ⟨world, run, isListing, isCursor⟩
  rcases cursor_passes_dealt run isCursor with ⟨lastRollup, ⟨first, isFirst, asked⟩, dealt⟩
  rcases eq_of_ticked_mem isFirst with rfl
  have isZero : lastRollup = 0 := by
    rcases List.mem_cons.mp asked with same | mem
    · cases same
      rfl
    · simp at mem
  subst isZero
  have listed : (burnTxn 3 5).positioned ∈ world.listing := by
    rw [isListing]
    exact List.mem_cons_self
  rcases dealt _ listed rfl rfl _ (kindMessages_burnTxn 5) with
    ⟨transcript, part, isEvent, isPart, gone⟩
  rcases eq_of_ticked_mem isEvent with rfl
  refine ⟨world, part, run, isCursor, isPart, ?_⟩
  rcases gone with settled | skipped | ⟨noSub, _⟩
  · exact settled
  · cases skipped with
    | balance tokenBalance _ asked above =>
        have known := isPart.subset asked
        simp [paged] at known
        subst known
        exact absurd above (by decide)
    | notReady swap answers noSub => cases noSub
    | refused swap offramp commitTx noSub => cases noSub
  · cases noSub

/-! ## A burn that the balance does not cover -/

/-- The page with the burn, and an empty balance. -/
def uncovered : Transcript :=
  paged [⟨.wasBurnSubstituted ⟨7, 9, 1, 5⟩ 1, .ok false⟩, ⟨.balance, .ok 0⟩]

theorem run_uncovered :
    ∃ world, Run (World.Step noDecoders) (.new 1)
        [.listed [(burnTxn 3 5).positioned], .ticked uncovered] world ∧
      world.listing = [(burnTxn 3 5).positioned] ∧
      world.substitutor.cursor = some (.after (.afterInclusive ⟨1, 0⟩)) := by
  have plays : (BurnSubstitutor.tick noDecoders ⟨none, 1⟩).Plays uncovered
      (.ok (⟨some (.after (.afterInclusive ⟨1, 0⟩)), 1⟩, .ok [])) :=
    .ask (.ask (.ask (.ask (.done _))))
  exact run_paged plays (by simp)

/-- The cursor passes a burn that was not settled in any tick. -/
theorem uncovered_passed :
    ∃ events world, Run (World.Step noDecoders) (.new 1) events world ∧
      ∃ cursor item messages, world.substitutor.cursor = some cursor ∧ item ∈ world.listing ∧
        isBefore (BurnSubstitutor.afterRollup 0).inner item.1 = true ∧
        isBefore cursor.inner item.1 = false ∧ item.2.kindMessages = .burn messages ∧
        ∀ transcript part, .ticked transcript ∈ events → part <:+: transcript →
          ¬Settled noDecoders 1 item.1 messages part := by
  rcases run_uncovered with ⟨world, run, isListing, isCursor⟩
  refine ⟨_, world, run, _, (burnTxn 3 5).positioned, _, isCursor, ?_, rfl, rfl,
    kindMessages_burnTxn 5, ?_⟩
  · rw [isListing]
    exact List.mem_cons_self
  · intro transcript part mem inside settled
    rcases eq_of_ticked_mem mem with rfl
    cases settled with
    | already _ asked =>
        have known := inside.subset asked
        simp [uncovered, paged] at known
    | substituted txn _ sent _ =>
        have known := inside.subset sent
        simp [uncovered, paged] at known
    | claimed swap offramp noSub => cases noSub
    | committed swap offramp noSub => cases noSub

end Ciphera.Substitutor
