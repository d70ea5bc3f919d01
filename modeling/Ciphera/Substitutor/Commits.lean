import Ciphera.Substitutor.Passing

/-!
# What the substitutor sends

A commitment is sent only after it was signed, and a burn only for a transaction of the page.
When every call of a page is answered and what is answered can be read, the page is gone
through, and all that was sent for a burn are the transactions of one swap.
-/

namespace Ciphera.Substitutor

open Ciphera.Lib Ciphera.Zk
open Ciphera.Node (ListTxnsPosition TxnWithInfo)
open Ciphera.Rollup (Address Burn)

/-! ## What can be read from answers -/

/-- The amount that a transaction puts into escrow. -/
def TransactionParameters.escrowed (txParams : TransactionParameters) : Nat :=
  match EscrowData.fromTransactionCalldata txParams.data with
  | .ok escrow => escrow.amount.toNat
  | .error _ => 0

section

variable (decoders : Decoders) (substitutorAddress : Address)

/-- The transactions that are to be sent for a swap. -/
def prepareAll (burnValue : BitVec 256) :
    List CommitTx → Except (Stop Report) (List TransactionParameters)
  | [] => .ok []
  | commitTx :: rest => do
      match ← commitTx.prepare decoders substitutorAddress burnValue with
      | none => pure []
      | some txParams => do
          let sent ← prepareAll burnValue rest
          pure (txParams :: sent)

/-- The transactions can be read, and put no more than the burn into escrow. -/
def OfframpResponse.Payable (offramp : OfframpResponse) : Prop :=
  ∀ burnValue, ∃ sent,
    prepareAll decoders substitutorAddress burnValue offramp.commitTxs = .ok sent ∧
      (sent.map TransactionParameters.escrowed).sum ≤ burnValue.toNat

/-- The call has not failed, and its answer can be read. -/
def Answered : Exchange Call.Answer → Prop
  | ⟨.fetchTransactions _, answer⟩ => ∃ page, fetchOutcome decoders answer = .ok page
  | ⟨.swaps amount _, answer⟩ =>
      ∃ found, swapsOutcome decoders substitutorAddress amount answer = .ok found
  | ⟨.offramp _, answer⟩ => ∃ found, offrampOutcome decoders answer = .ok found ∧
      ∀ offramp, found = some offramp → offramp.commitReady = true →
        offramp.Payable decoders substitutorAddress
  | ⟨_, answer⟩ => ∃ reply, answer = .ok reply

end

variable {decoders : Decoders} {substitutorAddress : Address} {part : Transcript}
  {origin : ListTxnsPosition} {burnValue : BitVec 256}

/-! ## Dialogues that are answered do not fail -/

theorem sure_request {call : Call} {explain : Report → Report}
    (reads : ∀ answer, Answered decoders substitutorAddress ⟨call, answer⟩ →
      ∃ reply, answer = .ok reply) :
    Dialogue.Sure (Answered decoders substitutorAddress) (request call explain) := by
  apply Dialogue.sure_asking
  intro answer failure isError answered
  rcases reads answer answered with ⟨reply, rfl⟩
  cases isError

theorem sure_substituteDirect {burn : Burn} {burnBlockHeight : Nat} :
    Dialogue.Sure (Answered decoders substitutorAddress)
      (substituteDirect origin burn burnBlockHeight) := by
  apply (sure_request fun _ => id).bind
  intro before _ _ _
  split
  · exact Dialogue.sure_pure _
  · apply (sure_request fun _ => id).bind
    intro tokenBalance _ _ _
    split
    · exact Dialogue.sure_pure _
    · apply (sure_request fun _ => id).bind
      intro txn _ _ _
      apply (sure_request fun _ => id).bind
      exact fun _ _ _ _ => Dialogue.sure_pure _

theorem sure_findSwap :
    Dialogue.Sure (Answered decoders substitutorAddress)
      (findSwap decoders substitutorAddress burnValue) := by
  apply Dialogue.sure_asking
  rintro answer failure isError ⟨found, isOk⟩
  rw [isOk] at isError
  cases isError

theorem sure_readOfframp {swapId : String} :
    Dialogue.Sure (Answered decoders substitutorAddress) (readOfframp decoders swapId) := by
  apply Dialogue.sure_asking
  rintro answer failure isError ⟨found, isOk, _⟩
  rw [isOk] at isError
  cases isError

theorem sure_sendCommitTxs {swapId : String} {commitTxs : List CommitTx}
    {sent : List TransactionParameters}
    (prepared : prepareAll decoders substitutorAddress burnValue commitTxs = .ok sent) :
    Dialogue.Sure (Answered decoders substitutorAddress)
      (sendCommitTxs decoders substitutorAddress origin swapId burnValue commitTxs) := by
  induction commitTxs generalizing sent with
  | nil => exact Dialogue.sure_pure _
  | cons commitTx rest ih =>
      rcases bind_eq_ok_iff.mp prepared with ⟨first, isFirst, others⟩
      have isSure : Dialogue.Sure (Answered decoders substitutorAddress)
          (.done (commitTx.prepare decoders substitutorAddress burnValue)) := by
        rw [isFirst]
        exact Dialogue.sure_pure first
      apply isSure.bind
      intro found _ plays _
      rw [isFirst] at plays
      rcases Except.ok.inj (Dialogue.plays_done_iff.mp plays).2 with rfl
      cases found with
      | none => exact Dialogue.sure_pure _
      | some txParams =>
          rcases bind_eq_ok_iff.mp others with ⟨later, isLater, _⟩
          apply (sure_request fun _ => id).bind
          intro raw _ _ _
          apply (sure_request fun _ => id).bind
          intro txHash _ _ _
          apply (sure_request fun _ => id).bind
          exact fun _ _ _ _ => ih isLater

theorem sure_followSwap {swap : SwapEntry} :
    Dialogue.Sure (Answered decoders substitutorAddress)
      (followSwap decoders substitutorAddress origin burnValue swap) := by
  apply (sure_readOfframp.retry MAX_ATTEMPTS).bind
  intro found transcript plays answered
  cases found with
  | none => exact Dialogue.sure_pure _
  | some offramp =>
      dsimp only
      split
      case isTrue => exact Dialogue.sure_pure _
      case isFalse notClaimed =>
        rcases answer_of_retry_some plays with ⟨answer, mem, isOffer⟩
        rcases answered _ mem with ⟨read, isRead, payable⟩
        rw [isOffer] at isRead
        rcases payable offramp (Except.ok.inj isRead).symm
          (commitReady_of_offrampOutcome isOffer notClaimed) burnValue with ⟨sent, prepared, _⟩
        exact sure_sendCommitTxs prepared

theorem sure_handleNosubBurn :
    Dialogue.Sure (Answered decoders substitutorAddress)
      (handleNosubBurn decoders substitutorAddress origin burnValue) := by
  apply (sure_findSwap.retry MAX_ATTEMPTS).bind
  intro found _ _ _
  cases found with
  | none => exact Dialogue.sure_pure _
  | some swap => exact sure_followSwap

theorem sure_processTxn (txn : TxnWithInfo) :
    Dialogue.Sure (Answered decoders substitutorAddress)
      (processTxn decoders substitutorAddress txn) := by
  rw [processTxn]
  split
  · split
    · apply sure_substituteDirect.bind
      exact fun _ _ _ _ => Dialogue.sure_pure _
    · apply sure_handleNosubBurn.bind
      exact fun _ _ _ _ => Dialogue.sure_pure _
  · exact Dialogue.sure_pure _
  · exact Dialogue.sure_pure _

/-- A page is gone through when every call is answered. -/
theorem sure_processPage {substitutor : BurnSubstitutor} :
    Dialogue.Sure (Answered decoders substitutor.substitutorAddress)
      (substitutor.processPage decoders) := by
  have fetches : Dialogue.Sure (Answered decoders substitutor.substitutorAddress)
      (.ask (.fetchTransactions substitutor.cursor) fun answer =>
        .done (fetchOutcome decoders answer)) := by
    apply Dialogue.sure_asking
    rintro answer failure isError ⟨page, isOk⟩
    rw [isOk] at isError
    cases isError
  apply fetches.bind
  intro page _ _ _
  apply (Dialogue.sure_forEach sure_processTxn page.1).bind
  exact fun _ _ _ _ => Dialogue.sure_pure _

/-! ## What is sent at all -/

@[simp]
theorem commitsOf_append (before after : Transcript) :
    commitsOf (before ++ after) = commitsOf before ++ commitsOf after :=
  List.filterMap_append

/-- Something was signed. -/
def Signed (transcript : Transcript) : Prop :=
  ∃ txParams raw, ⟨.signTransaction txParams, .ok raw⟩ ∈ transcript

/-- A transcript that sends a transaction has one signed. -/
def SignedFirst (transcript : Transcript) : Prop := commitsOf transcript = [] ∨ Signed transcript

/-- Only such burns are sent. -/
def BurnsOnly (allowed : ListTxnsPosition × Burn × Nat → Prop) (transcript : Transcript) : Prop :=
  ∀ sent ∈ burnsOf transcript, allowed sent

theorem additive_signedFirst : Dialogue.Additive SignedFirst where
  nil := .inl rfl
  append {before after} first second := by
    rcases first with none | ⟨txParams, raw, mem⟩
    · rcases second with noneLater | ⟨txParams, raw, mem⟩
      · exact .inl (by rw [commitsOf_append, none, noneLater, List.append_nil])
      · exact .inr ⟨txParams, raw, List.mem_append_right _ mem⟩
    · exact .inr ⟨txParams, raw, List.mem_append_left _ mem⟩

theorem additive_noCommits : Dialogue.Additive fun transcript => commitsOf transcript = [] where
  nil := rfl
  append first second := by rw [commitsOf_append, first, second, List.append_nil]

theorem additive_burnsOnly (allowed : ListTxnsPosition × Burn × Nat → Prop) :
    Dialogue.Additive (BurnsOnly allowed) :=
  Dialogue.additive_filterMap Exchange.burn? allowed

variable {allowed : ListTxnsPosition × Burn × Nat → Prop}

/-- The cursor of a call for transactions. -/
def Exchange.fetch? : Exchange Call.Answer → Option (Option (CursorChoice ListTxnsPosition))
  | ⟨.fetchTransactions cursor, _⟩ => some cursor
  | _ => none

/-- The cursors behind which pages were fetched. -/
def fetchesOf (transcript : Transcript) : List (Option (CursorChoice ListTxnsPosition)) :=
  transcript.filterMap Exchange.fetch?

theorem additive_fetchesOnly (allowed : Option (CursorChoice ListTxnsPosition) → Prop) :
    Dialogue.Additive fun transcript => ∀ cursor ∈ fetchesOf transcript, allowed cursor :=
  Dialogue.additive_filterMap Exchange.fetch? allowed

/-- The exchange fetches nothing and sends no burn. -/
def Quiet (exchange : Exchange Call.Answer) : Prop :=
  Exchange.fetch? exchange = none ∧ Exchange.burn? exchange = none

section

variable {holds : Transcript → Prop} (additive : Dialogue.Additive holds)

include additive

/-- What holds of the single calls holds of a payment ahead. -/
theorem always_substituteDirect {burn : Burn} {burnBlockHeight : Nat}
    (quiet : ∀ exchange, Quiet exchange → Exchange.commit? exchange = none → holds [exchange])
    (sends : ∀ answer, holds [⟨.substituteBurn origin burn burnBlockHeight, answer⟩]) :
    Dialogue.Always holds (substituteDirect origin burn burnBlockHeight) := by
  apply additive.bind (Dialogue.always_asking fun _ => quiet _ ⟨rfl, rfl⟩ rfl)
  intro before
  split
  · exact additive.done _
  · apply additive.bind (Dialogue.always_asking fun _ => quiet _ ⟨rfl, rfl⟩ rfl)
    intro tokenBalance
    split
    · exact additive.done _
    · apply additive.bind (Dialogue.always_asking sends)
      intro txn
      apply additive.bind (Dialogue.always_asking fun _ => quiet _ ⟨rfl, rfl⟩ rfl)
      exact fun _ => additive.done _

theorem always_sendCommitTxs {swapId : String} {commitTxs : List CommitTx}
    (quiet : ∀ exchange, Quiet exchange → holds [exchange]) :
    Dialogue.Always holds
      (sendCommitTxs decoders substitutorAddress origin swapId burnValue commitTxs) := by
  induction commitTxs with
  | nil => exact additive.done _
  | cons commitTx rest ih =>
      apply additive.bind (additive.done _)
      intro found
      cases found with
      | none => exact additive.done _
      | some txParams =>
          apply additive.bind (Dialogue.always_asking fun _ => quiet _ ⟨rfl, rfl⟩)
          intro raw
          apply additive.bind (Dialogue.always_asking fun _ => quiet _ ⟨rfl, rfl⟩)
          intro txHash
          apply additive.bind (Dialogue.always_asking fun _ => quiet _ ⟨rfl, rfl⟩)
          exact fun _ => ih

end

theorem noCommits_substituteDirect {burn : Burn} {burnBlockHeight : Nat} :
    Dialogue.Always (fun transcript => commitsOf transcript = [])
      (substituteDirect origin burn burnBlockHeight) := by
  apply always_substituteDirect additive_noCommits
  · intro exchange _ noCommit
    exact List.filterMap_cons_none noCommit
  · exact fun _ => rfl

/-- Nothing is sent before the first transaction was signed. -/
theorem signedFirst_sendCommitTxs {swapId : String} {commitTxs : List CommitTx} :
    Dialogue.Always SignedFirst
      (sendCommitTxs decoders substitutorAddress origin swapId burnValue commitTxs) := by
  cases commitTxs with
  | nil => exact additive_signedFirst.done _
  | cons commitTx rest =>
      apply additive_signedFirst.bind (additive_signedFirst.done _)
      intro found
      cases found with
      | none => exact additive_signedFirst.done _
      | some txParams =>
          intro transcript result plays
          rcases Dialogue.plays_bind_iff.mp plays with ⟨raw, before, after, rfl, asked, _⟩ |
            ⟨stop, _, asked⟩
          · rcases plays_request_ok_iff.mp asked with rfl
            exact .inr ⟨txParams, raw, List.mem_cons_self⟩
          · rcases Dialogue.plays_asking_iff.mp asked with ⟨answer, rfl, _⟩
            exact .inl rfl

/-- A property of the questions to the swap service and of what is sent for an answer. -/
theorem always_handleNosubBurn {holds : Transcript → Prop} (additive : Dialogue.Additive holds)
    (searches : ∀ answer, holds
      [⟨.swaps burnValue (formatAddress substitutorAddress), answer⟩])
    (follows : ∀ swapId answer, holds [⟨.offramp swapId, answer⟩])
    (sends : ∀ swapId commitTxs, Dialogue.Always holds
      (sendCommitTxs decoders substitutorAddress origin swapId burnValue commitTxs)) :
    Dialogue.Always holds (handleNosubBurn decoders substitutorAddress origin burnValue) := by
  apply additive.bind (additive.retry (Dialogue.always_asking searches) MAX_ATTEMPTS)
  intro found
  cases found with
  | none => exact additive.done _
  | some swap =>
      apply additive.bind (additive.retry (Dialogue.always_asking (follows swap.id)) MAX_ATTEMPTS)
      intro found
      cases found with
      | none => exact additive.done _
      | some offramp =>
          dsimp only
          split
          · exact additive.done _
          · exact sends swap.id offramp.commitTxs

/-- The burn that the substitutor sends for a listed transaction. -/
def burnKey? (item : ListTxnsPosition × UtxoProof) : Option (Burn × Nat) :=
  match item.2.kindMessages with
  | .burn messages =>
      if isSubstitutable messages then some (burnOf messages, item.1.block) else none
  | .mint _ | .none => none

theorem signedFirst_processTxn (txn : TxnWithInfo) :
    Dialogue.Always SignedFirst (processTxn decoders substitutorAddress txn) := by
  rw [processTxn]
  split
  · split
    · apply additive_signedFirst.bind (noCommits_substituteDirect.mono fun _ => .inl)
      exact fun _ => additive_signedFirst.done _
    · apply additive_signedFirst.bind
      · apply always_handleNosubBurn additive_signedFirst
        · exact fun _ => .inl rfl
        · exact fun _ _ => .inl rfl
        · exact fun _ _ => signedFirst_sendCommitTxs
      · exact fun _ => additive_signedFirst.done _
  · exact additive_signedFirst.done _
  · exact additive_signedFirst.done _

/-- What holds of the single calls holds of the handling of a transaction. -/
theorem always_processTxn {holds : Transcript → Prop} (additive : Dialogue.Additive holds)
    {txn : TxnWithInfo} (quiet : ∀ exchange, Quiet exchange → holds [exchange])
    (sends : ∀ key, burnKey? txn.positioned = some key →
      ∀ answer, holds [⟨.substituteBurn txn.position key.1 key.2, answer⟩]) :
    Dialogue.Always holds (processTxn decoders substitutorAddress txn) := by
  rw [processTxn]
  split
  case h_1 messages isBurn =>
    split
    case isTrue substitutable =>
      have isKey : burnKey? txn.positioned = some (burnOf messages, txn.blockHeight) := by
        simp only [burnKey?, TxnWithInfo.positioned, isBurn, substitutable]
        rfl
      apply additive.bind
      · apply always_substituteDirect additive
        · exact fun exchange isQuiet _ => quiet exchange isQuiet
        · exact sends _ isKey
      · exact fun _ => additive.done _
    case isFalse =>
      apply additive.bind
      · apply always_handleNosubBurn additive
        · exact fun _ => quiet _ ⟨rfl, rfl⟩
        · exact fun _ _ => quiet _ ⟨rfl, rfl⟩
        · exact fun _ _ => always_sendCommitTxs additive quiet
      · exact fun _ => additive.done _
  · exact additive.done _
  · exact additive.done _

/-- The only burn that is sent is that of the transaction. -/
theorem burnsOnly_processTxn {txn : TxnWithInfo}
    (isAllowed : ∀ key, burnKey? txn.positioned = some key → allowed (txn.position, key)) :
    Dialogue.Always (BurnsOnly allowed) (processTxn decoders substitutorAddress txn) := by
  apply always_processTxn (additive_burnsOnly allowed)
  · intro exchange isQuiet sent mem
    rw [burnsOf, List.filterMap_cons_none isQuiet.2] at mem
    exact absurd mem List.not_mem_nil
  · intro key isKey answer sent mem
    rcases List.mem_singleton.mp mem with rfl
    exact isAllowed key isKey

/-- No page is fetched. -/
theorem fetchesOnly_processTxn (allowed : Option (CursorChoice ListTxnsPosition) → Prop)
    (txn : TxnWithInfo) :
    Dialogue.Always (fun transcript => ∀ cursor ∈ fetchesOf transcript, allowed cursor)
      (processTxn decoders substitutorAddress txn) := by
  apply always_processTxn (additive_fetchesOnly allowed)
  · intro exchange isQuiet cursor mem
    rw [fetchesOf, List.filterMap_cons_none isQuiet.1] at mem
    exact absurd mem List.not_mem_nil
  · exact fun _ _ _ _ mem => absurd mem List.not_mem_nil

/-! ## The swap of a burn -/

/-- A swap that was committed for a listed burn, with the transactions that were sent for it. -/
structure Payment where
  item : ListTxnsPosition × UtxoProof
  swapId : String
  sent : List TransactionParameters

namespace Payment

/-- The transactions of a payment, each with its origin and its swap. -/
def commits (payment : Payment) : List Commit :=
  payment.sent.map (Commit.mk payment.item.1 payment.swapId)

/-- The value of a listed burn. -/
def burnAmount (item : ListTxnsPosition × UtxoProof) : Nat :=
  match item.2.kindMessages with
  | .burn messages => messages.value.toNat
  | .mint _ | .none => 0

/-- The burn is not paid ahead, something was sent for it, and no more than it is worth. -/
structure Covered (payment : Payment) : Prop where
  notAhead : burnKey? payment.item = none
  sent : payment.sent ≠ []
  amount : (payment.sent.map TransactionParameters.escrowed).sum ≤ burnAmount payment.item

end Payment

/-- The swap service was asked for the swap and answered with what to send, and nothing was sent
before that. -/
def OfferedFirst (decoders : Decoders) (swapId : String) (offramp : OfframpResponse)
    (part : Transcript) : Prop :=
  ∃ before answer later, part = before ++ ⟨.offramp swapId, answer⟩ :: later ∧
    commitsOf before = [] ∧ offrampOutcome decoders answer = .ok (some offramp) ∧
    offramp.commitReady = true

theorem noCommits_of_retry {α : Type} {call : Call}
    {outcome : call.Answer → Except (Stop Report) (Option α)}
    {result : Except (Stop Report) (Option α)}
    (noCommit : ∀ answer, Exchange.commit? ⟨call, answer⟩ = none)
    (plays : (Dialogue.retryUntilSome (.ask call fun answer => .done (outcome answer))
      MAX_ATTEMPTS).Plays part result) : commitsOf part = [] := by
  have asks : Dialogue.Always (fun transcript => commitsOf transcript = [])
      (.ask call fun answer => .done (outcome answer) : Talk (Option α)) := by
    apply Dialogue.always_asking
    exact fun answer => List.filterMap_cons_none (noCommit answer)
  exact additive_noCommits.retry asks MAX_ATTEMPTS part result plays

theorem commitsOf_sendCommitTxs {swapId : String} {commitTxs : List CommitTx}
    {sent : List TransactionParameters}
    (prepared : prepareAll decoders substitutorAddress burnValue commitTxs = .ok sent)
    (plays : (sendCommitTxs decoders substitutorAddress origin swapId burnValue commitTxs).Plays
      part (.ok ())) :
    commitsOf part = sent.map (Commit.mk origin swapId) := by
  induction commitTxs generalizing part sent with
  | nil =>
      rcases Dialogue.plays_pure_iff.mp plays with ⟨rfl, _⟩
      rcases Except.ok.inj prepared with rfl
      rfl
  | cons commitTx rest ih =>
      rcases Dialogue.plays_bind_ok_iff.mp plays with ⟨found, first, later, rfl, done, played⟩
      rcases Dialogue.plays_done_iff.mp done with ⟨rfl, isFound⟩
      rcases bind_eq_ok_iff.mp prepared with ⟨same, isSame, others⟩
      rcases Except.ok.inj (isFound.trans isSame) with rfl
      cases found with
      | none =>
          rcases Dialogue.plays_pure_iff.mp played with ⟨rfl, _⟩
          rcases pure_eq_ok_iff.mp others with rfl
          rfl
      | some txParams =>
          rcases bind_eq_ok_iff.mp others with ⟨more, isMore, same⟩
          rcases pure_eq_ok_iff.mp same with rfl
          rcases plays_request_bind_ok_iff.mp played with ⟨raw, afterSigned, rfl, signed⟩
          rcases plays_request_bind_ok_iff.mp signed with ⟨txHash, afterSent, rfl, isSent⟩
          rcases plays_request_bind_ok_iff.mp isSent with ⟨_, afterConfirmed, rfl, confirmed⟩
          exact congrArg _ (ih isMore confirmed)

/-- What an answered burn without substitution sends are the transactions of one offer. -/
theorem commitsOf_handled
    (answered : ∀ exchange ∈ part, Answered decoders substitutorAddress exchange)
    (handled : Handled decoders substitutorAddress origin burnValue part) :
    commitsOf part = [] ∨ ∃ swapId offramp, ∃ sent : List TransactionParameters,
      OfferedFirst decoders swapId offramp part ∧
      commitsOf part = sent.map (Commit.mk origin swapId) ∧
      (sent.map TransactionParameters.escrowed).sum ≤ burnValue.toNat := by
  cases handled with
  | unmatched searched => exact .inl (noCommits_of_retry (fun _ => rfl) searched)
  | notReady searched reads =>
      apply Or.inl
      rw [commitsOf_append, noCommits_of_retry (fun _ => rfl) searched,
        noCommits_of_retry (fun _ => rfl) reads, List.append_nil]
  | claimed searched reads _ =>
      apply Or.inl
      rw [commitsOf_append, noCommits_of_retry (fun _ => rfl) searched,
        noCommits_of_retry (fun _ => rfl) reads, List.append_nil]
  | @sent swap offramp first asked later searched reads notClaimed sends =>
      have noneSearched := noCommits_of_retry (fun _ => rfl) searched
      have noneAsked := noCommits_of_retry (fun _ => rfl) reads
      rcases Dialogue.of_retry_some reads with ⟨before, ended, rfl, isRead⟩
      rcases Dialogue.plays_asking_iff.mp isRead with ⟨answer, rfl, isOffer⟩
      have ready := commitReady_of_offrampOutcome isOffer.symm notClaimed
      rcases answered ⟨.offramp swap.id, answer⟩ (by simp) with ⟨read, isRead, payable⟩
      rw [← isOffer] at isRead
      rcases payable offramp (Except.ok.inj isRead).symm ready burnValue with
        ⟨sent, prepared, bounded⟩
      have noneBefore : commitsOf before = [] := by
        rw [commitsOf_append] at noneAsked
        exact (List.append_eq_nil_iff.mp noneAsked).1
      refine .inr ⟨swap.id, offramp, sent, ⟨first ++ before, answer, later, ?_, ?_,
        isOffer.symm, ready⟩, ?_, bounded⟩
      · simp
      · rw [commitsOf_append, noneSearched, noneBefore, List.append_nil]
      · rw [commitsOf_append, commitsOf_append, noneSearched, noneAsked,
          commitsOf_sendCommitTxs prepared sends]
        rfl

/-- An answered transaction sends nothing to the swaps, or pays for one swap. -/
theorem of_processTxn {txn : TxnWithInfo} {result : List Element}
    (answered : ∀ exchange ∈ part, Answered decoders substitutorAddress exchange)
    (plays : (processTxn decoders substitutorAddress txn).Plays part (.ok result)) :
    commitsOf part = [] ∨ ∃ (payment : Payment) (offramp : OfframpResponse),
      payment.item = txn.positioned ∧ payment.Covered ∧ commitsOf part = payment.commits ∧
      OfferedFirst decoders payment.swapId offramp part := by
  rw [processTxn] at plays
  split at plays
  case h_1 messages isBurn =>
    split at plays
    case isTrue =>
      rcases Dialogue.plays_bind_ok_iff.mp plays with ⟨_, first, later, rfl, tried, finished⟩
      rcases Dialogue.plays_pure_iff.mp finished with ⟨rfl, _⟩
      rw [List.append_nil]
      exact .inl (noCommits_substituteDirect first _ tried)
    case isFalse notAhead =>
      rcases Dialogue.plays_bind_ok_iff.mp plays with ⟨_, first, later, rfl, handled, finished⟩
      rcases Dialogue.plays_pure_iff.mp finished with ⟨rfl, _⟩
      rw [List.append_nil] at answered ⊢
      rcases commitsOf_handled answered (handled_of_handleNosubBurn handled) with none |
        ⟨swapId, offramp, sent, offered, isSent, bounded⟩
      · exact .inl none
      · cases isEmpty : sent with
        | nil => exact .inl (by rw [isSent, isEmpty]; rfl)
        | cons txParams rest =>
            refine .inr ⟨⟨txn.positioned, swapId, sent⟩, offramp, rfl, ⟨?_, ?_, ?_⟩, isSent,
              offered⟩
            · simp only [burnKey?, TxnWithInfo.positioned, isBurn]
              exact if_neg notAhead
            · rw [isEmpty]
              exact List.cons_ne_nil _ _
            · simp only [Payment.burnAmount, TxnWithInfo.positioned, isBurn]
              exact bounded
  · rcases Dialogue.plays_pure_iff.mp plays with ⟨rfl, _⟩
    exact .inl rfl
  · rcases Dialogue.plays_pure_iff.mp plays with ⟨rfl, _⟩
    exact .inl rfl

end Ciphera.Substitutor
