import Ciphera.Substitutor.Commits

/-!
# What a tick pays

A tick that fails goes through its page again, and nothing tells it what it has sent before.
When every call of a tick that commits is answered and no swap is offered again after it was
committed, the tick pays for burns behind its cursor, for each with a swap of its own, and
leaves none of them behind the next cursor.
-/

namespace Ciphera.Substitutor

open Ciphera.Lib Ciphera.Zk
open Ciphera.Node (ListTxnsPosition TxnWithInfo)
open Ciphera.Rollup (Address Burn)

/-- No swap is offered that was committed before. -/
def Fresh (decoders : Decoders) (committed : List Commit) (transcript : Transcript) : Prop :=
  ∀ before swapId answer later offramp,
    transcript = before ++ ⟨.offramp swapId, answer⟩ :: later →
    offrampOutcome decoders answer = .ok (some offramp) → offramp.commitReady = true →
    ∀ commit ∈ committed ++ commitsOf before, commit.swapId ≠ swapId

variable {decoders : Decoders} {substitutorAddress : Address} {committed : List Commit}
  {substitutor next : BurnSubstitutor} {transcript : Transcript} {listing : Listing}
  {cursor : CursorChoice ListTxnsPosition}
  {page : List TxnWithInfo × Cursor ListTxnsPosition} {parts : List (TxnWithInfo × Transcript)}

/-! ## Swaps of one page -/

theorem Fresh.before {before after : Transcript}
    (fresh : Fresh decoders committed (before ++ after)) : Fresh decoders committed before := by
  intro first swapId answer later offramp isSplit
  apply fresh first swapId answer (later ++ after)
  rw [isSplit, List.append_assoc, List.cons_append]

theorem Fresh.after {before after : Transcript}
    (fresh : Fresh decoders committed (before ++ after)) :
    Fresh decoders (committed ++ commitsOf before) after := by
  intro first swapId answer later offramp isSplit isOffer ready
  have isFresh := fresh (before ++ first) swapId answer later offramp
    (by rw [isSplit, List.append_assoc]) isOffer ready
  rwa [commitsOf_append, ← List.append_assoc] at isFresh

theorem swapId_of_mem_commits {payment : Payment} {commit : Commit}
    (mem : commit ∈ payment.commits) : commit.swapId = payment.swapId := by
  rcases List.mem_map.mp mem with ⟨txParams, _, rfl⟩
  rfl

theorem origin_of_mem_commits {payment : Payment} {commit : Commit}
    (mem : commit ∈ payment.commits) : commit.origin = payment.item.1 := by
  rcases List.mem_map.mp mem with ⟨txParams, _, rfl⟩
  rfl

theorem Payment.Covered.exists_commit {payment : Payment} (covered : payment.Covered) :
    ∃ commit, commit ∈ payment.commits := by
  rcases List.exists_mem_of_ne_nil _ covered.sent with ⟨txParams, mem⟩
  exact ⟨_, List.mem_map_of_mem mem⟩

/-- The swaps that a page commits are those of some of its burns, in order. -/
theorem payments_of_parts
    (processed : ∀ part ∈ parts, ∃ result,
      (processTxn decoders substitutorAddress part.1).Plays part.2 (.ok result))
    (answered : ∀ exchange ∈ (parts.map Prod.snd).flatten,
      Answered decoders substitutorAddress exchange)
    (fresh : Fresh decoders committed (parts.map Prod.snd).flatten) :
    ∃ payments : List Payment,
      commitsOf (parts.map Prod.snd).flatten = payments.flatMap Payment.commits ∧
      (∀ payment ∈ payments, payment.Covered) ∧
      (payments.map Payment.item).Sublist
        ((parts.map Prod.fst).map TxnWithInfo.positioned) ∧
      (payments.map Payment.swapId).Nodup ∧
      ∀ payment ∈ payments, ∀ commit ∈ committed, commit.swapId ≠ payment.swapId := by
  induction parts generalizing committed with
  | nil =>
      exact ⟨[], rfl, fun _ mem => absurd mem List.not_mem_nil, .slnil, .nil,
        fun _ mem => absurd mem List.not_mem_nil⟩
  | cons part parts ih =>
      rw [List.forall_mem_cons] at processed
      rw [List.map_cons, List.flatten_cons] at answered fresh
      rw [List.forall_mem_append] at answered
      rcases processed.1 with ⟨result, plays⟩
      rcases ih processed.2 answered.2 fresh.after with
        ⟨payments, isSent, covered, onPage, distinct, unknown⟩
      rw [List.map_cons, List.map_cons, List.map_cons, List.flatten_cons, commitsOf_append, isSent]
      rcases of_processTxn answered.1 plays with none |
        ⟨payment, offramp, isItem, isCovered, commits, before, answer, later, isSplit, noneBefore,
          isOffer, ready⟩
      · refine ⟨payments, by rw [none]; rfl, covered, onPage.cons _, distinct, ?_⟩
        exact fun payment mem commit known =>
          unknown payment mem commit (List.mem_append_left _ known)
      · have isFresh := fresh.before before payment.swapId answer later offramp isSplit isOffer
          ready
        rw [noneBefore, List.append_nil] at isFresh
        refine ⟨payment :: payments, by rw [commits]; rfl,
          List.forall_mem_cons.mpr ⟨isCovered, covered⟩, ?_, ?_, ?_⟩
        · rw [List.map_cons, isItem]
          exact onPage.cons_cons _
        · rw [List.map_cons, List.nodup_cons]
          refine ⟨?_, distinct⟩
          intro again
          rcases List.mem_map.mp again with ⟨other, mem, same⟩
          rcases isCovered.exists_commit with ⟨commit, isCommit⟩
          apply unknown other mem commit
          · rw [commits]
            exact List.mem_append_right _ isCommit
          · rw [same, swapId_of_mem_commits isCommit]
        · intro other mem
          rcases List.mem_cons.mp mem with rfl | mem
          · exact isFresh
          · exact fun commit known => unknown other mem commit (List.mem_append_left _ known)

/-! ## One tick -/

/-- A page is a piece of the listing behind the cursor. -/
theorem IsPage.sorted (isPage : IsPage listing cursor page) (sorted : listing.Sorted) :
    Listing.Sorted (page.1.map TxnWithInfo.positioned) ∧
      ∀ item ∈ page.1.map TxnWithInfo.positioned,
        item ∈ listing ∧ isBefore cursor.inner item.1 = true := by
  rcases isPage.1 with ⟨count, items⟩
  rw [items]
  constructor
  · exact (sorted.filter _).sublist (List.take_sublist count _)
  · exact fun item mem => List.mem_filter.mp (List.mem_of_mem_take mem)

/-- The last transaction of a page is behind the cursor, and none of the page is behind it. -/
theorem IsPage.last (isPage : IsPage listing cursor page) (sorted : listing.Sorted)
    {txn : TxnWithInfo} (isLast : page.1.getLast? = some txn) :
    isBefore cursor.inner txn.position = true ∧
      ∀ item ∈ page.1.map TxnWithInfo.positioned, isBefore txn.position item.1 = false := by
  rcases isPage.sorted sorted with ⟨inOrder, behind⟩
  rcases List.getLast?_eq_some_iff.mp isLast with ⟨first, isSplit⟩
  rw [isSplit, List.map_append] at inOrder behind ⊢
  constructor
  · exact (behind txn.positioned (List.mem_append_right _ List.mem_cons_self)).2
  · intro item mem
    rcases List.mem_append.mp mem with earlier | same
    · exact isBefore_asymm ((List.pairwise_append.mp inOrder).2.2 item earlier txn.positioned
        List.mem_cons_self)
    · rw [List.mem_singleton.mp same]
      exact isBefore_irrefl _

theorem Started.noCommits {first : Transcript} (started : Started substitutor cursor first) :
    commitsOf first = [] ∧ ∀ own, substitutor.cursor = some own → own = cursor := by
  cases started with
  | running same =>
      refine ⟨rfl, fun own isOwn => ?_⟩
      exact Option.some.inj (isOwn.symm.trans same)
  | begun none _ =>
      refine ⟨rfl, fun own isOwn => ?_⟩
      rw [none] at isOwn
      cases isOwn

/-- However a page ends, what holds for its transactions holds of all of it. -/
theorem holds_of_processPage {holds : Transcript → Prop} (additive : Dialogue.Additive holds)
    {result : Except (Stop Report) (BurnSubstitutor × List Element)}
    (plays : (BurnSubstitutor.processPage decoders
      { substitutor with cursor := some cursor }).Plays transcript result)
    (fetches : ∀ answer, holds [⟨.fetchTransactions (some cursor), answer⟩])
    (each : ∀ answer page, ⟨.fetchTransactions (some cursor), answer⟩ ∈ transcript →
      fetchOutcome decoders answer = .ok page → ∀ txn ∈ page.1,
        Dialogue.Always holds (processTxn decoders substitutor.substitutorAddress txn)) :
    holds transcript := by
  rcases Dialogue.plays_bind_iff.mp plays with ⟨⟨txns, after⟩, asked, later, rfl, asks, goes⟩ |
    ⟨stop, _, asks⟩
  · rcases Dialogue.plays_asking_iff.mp asks with ⟨answer, rfl, isPage⟩
    apply additive.append (fetches answer)
    have processes := additive.forEach
      (each answer ⟨txns, after⟩ List.mem_cons_self isPage.symm)
    exact additive.bind processes (fun _ => additive.done _) later result goes
  · rcases Dialogue.plays_asking_iff.mp asks with ⟨answer, rfl, _⟩
    exact fetches answer

theorem Started.holds {holds : Transcript → Prop} (additive : Dialogue.Additive holds)
    {first : Transcript} (started : Started substitutor cursor first)
    (asks : ∀ answer, holds [⟨.blockHeight, answer⟩]) : holds first := by
  cases started with
  | running _ => exact additive.nil
  | begun _ _ => exact asks _

/-- However a tick ends, what holds for the transactions of its page holds of all of it. -/
theorem Ticked.holds {holds : Transcript → Prop} (additive : Dialogue.Additive holds)
    (ticked : Ticked decoders substitutor next transcript)
    (asks : ∀ answer, holds [⟨.blockHeight, answer⟩])
    (fetches : ∀ cursor first answer, Started substitutor cursor first → first ⊆ transcript →
      holds [⟨.fetchTransactions (some cursor), answer⟩])
    (each : ∀ cursor answer page, ⟨.fetchTransactions (some cursor), answer⟩ ∈ transcript →
      fetchOutcome decoders answer = .ok page → ∀ txn ∈ page.1,
        Dialogue.Always holds (processTxn decoders substitutor.substitutorAddress txn)) :
    holds transcript := by
  cases ticked with
  | unstarted => exact asks _
  | failed started plays _ =>
      apply additive.append (started.holds additive asks)
      apply holds_of_processPage additive plays
      · exact fun answer => fetches _ _ answer started (List.subset_append_left _ _)
      · exact fun answer page mem => each _ answer page (List.mem_append_right _ mem)
  | @swept cursor first later answer page parts started swept =>
      apply additive.append (started.holds additive asks)
      rw [swept.transcript]
      apply additive.append (fetches _ _ answer started (List.subset_append_left _ _))
      apply additive.flatten
      intro rest mem
      rcases List.mem_map.mp mem with ⟨part, isPart, rfl⟩
      rcases swept.processed part isPart with ⟨result, plays⟩
      have onPage : part.1 ∈ page.1 := by
        rw [← swept.txns]
        exact List.mem_map_of_mem isPart
      apply each cursor answer page _ swept.fetched part.1 onPage part.2 _ plays
      rw [swept.transcript]
      exact List.mem_append_right _ List.mem_cons_self

theorem Ticked.signedFirst (ticked : Ticked decoders substitutor next transcript) :
    SignedFirst transcript := by
  apply ticked.holds additive_signedFirst
  · exact fun _ => .inl rfl
  · exact fun _ _ _ _ _ => .inl rfl
  · exact fun _ _ _ _ _ txn _ => signedFirst_processTxn txn

/-- The burn is that of a listed transaction. -/
def Listed (listing : Listing) (sent : ListTxnsPosition × Burn × Nat) : Prop :=
  ∃ item ∈ listing, burnKey? item = some sent.2

theorem Ticked.burnsOnly (ticked : Ticked decoders substitutor next transcript)
    (sorted : listing.Sorted) (honest : Honest decoders listing transcript) :
    BurnsOnly (Listed listing) transcript := by
  apply ticked.holds (additive_burnsOnly (Listed listing))
  · exact fun _ _ mem => absurd mem List.not_mem_nil
  · exact fun _ _ _ _ _ _ mem => absurd mem List.not_mem_nil
  · intro cursor answer page mem fetched txn onPage
    have isPage := honest cursor answer page mem fetched
    exact burnsOnly_processTxn fun key isKey =>
      ⟨txn.positioned, ((isPage.sorted sorted).2 _ (List.mem_map_of_mem onPage)).1, isKey⟩

/-- What a tick pays for behind the cursor, and no more behind the next one. -/
structure Pays (listing : Listing) (committed : List Commit) (substitutor next : BurnSubstitutor)
    (transcript : Transcript) (payments : List Payment) : Prop where
  commits : commitsOf transcript = payments.flatMap Payment.commits
  covered : ∀ payment ∈ payments, payment.item ∈ listing ∧ payment.Covered
  ordered : Listing.Sorted (payments.map Payment.item)
  swapIds : (payments.map Payment.swapId).Nodup
  fresh : ∀ payment ∈ payments, ∀ commit ∈ committed, commit.swapId ≠ payment.swapId
  behind : ∀ payment ∈ payments, ∀ cursor, substitutor.cursor = some cursor →
    isBefore cursor.inner payment.item.1 = true
  passed : ∀ payment ∈ payments, ∃ cursor, next.cursor = some cursor ∧
    isBefore cursor.inner payment.item.1 = false
  onward : ∀ cursor, substitutor.cursor = some cursor → ∃ later, next.cursor = some later ∧
    ∀ position, isBefore cursor.inner position = false → isBefore later.inner position = false

theorem Pays.nothing (none : commitsOf transcript = [])
    (onward : ∀ cursor, substitutor.cursor = some cursor → ∃ later, next.cursor = some later ∧
      ∀ position, isBefore cursor.inner position = false → isBefore later.inner position = false) :
    Pays listing committed substitutor next transcript [] where
  commits := none
  covered _ mem := absurd mem List.not_mem_nil
  ordered := .nil
  swapIds := .nil
  fresh _ mem := absurd mem List.not_mem_nil
  behind _ mem := absurd mem List.not_mem_nil
  passed _ mem := absurd mem List.not_mem_nil
  onward := onward

/-- A tick that fails has sent no commitment when every call was to be answered. -/
theorem noCommits_of_failed {first later : Transcript} {stop : Stop Report}
    (ticked : Ticked decoders substitutor next (first ++ later))
    (answered : Signed (first ++ later) → ∀ exchange ∈ first ++ later,
      Answered decoders substitutor.substitutorAddress exchange)
    (plays : (BurnSubstitutor.processPage decoders
      { substitutor with cursor := some cursor }).Plays later (.error stop)) :
    commitsOf (first ++ later) = [] := by
  apply ticked.signedFirst.resolve_right
  intro signed
  rcases sure_processPage later stop plays with ⟨exchange, mem, notAnswered⟩
  exact notAnswered (answered signed exchange (List.mem_append_right _ mem))

/-- With the cursor that a tick starts with nothing is passed. -/
theorem Started.onward {first : Transcript} (started : Started substitutor cursor first) :
    ∀ own, substitutor.cursor = some own → ∃ later, some cursor = some later ∧
      ∀ position, isBefore own.inner position = false → isBefore later.inner position = false := by
  intro own isOwn
  rw [started.noCommits.2 own isOwn]
  exact ⟨cursor, rfl, fun _ => id⟩

/-- The cursor moves on, and nothing on the page is behind it. -/
theorem Swept.moved {answer : Call.Answer (.fetchTransactions (some cursor))}
    (swept : Swept decoders substitutor cursor next transcript answer page parts)
    (isPage : IsPage listing cursor page) (sorted : listing.Sorted) :
    ∃ later, next.cursor = some later ∧
      (∀ item ∈ page.1.map TxnWithInfo.positioned, isBefore later.inner item.1 = false) ∧
      ∀ position, isBefore cursor.inner position = false →
        isBefore later.inner position = false := by
  cases isLast : page.1.getLast? with
  | none =>
      have isEmpty := List.getLast?_eq_none_iff.mp isLast
      refine ⟨cursor, swept.cursor_of_empty isEmpty, ?_, fun _ => id⟩
      rw [isEmpty]
      exact fun _ mem => absurd mem List.not_mem_nil
  | some txn =>
      rcases isPage.last sorted isLast with ⟨behind, notBehind⟩
      refine ⟨_, swept.cursor_of_last isPage isLast, notBehind, ?_⟩
      intro position passed
      rw [← Bool.not_eq_true] at passed ⊢
      exact fun further => passed (isBefore_trans behind further)

/-- After a page nothing that was passed is behind the cursor. -/
theorem Swept.onward {first : Transcript} {answer : Call.Answer (.fetchTransactions (some cursor))}
    (swept : Swept decoders substitutor cursor next transcript answer page parts)
    (started : Started substitutor cursor first) (isPage : IsPage listing cursor page)
    (sorted : listing.Sorted) :
    ∀ own, substitutor.cursor = some own → ∃ later, next.cursor = some later ∧
      ∀ position, isBefore own.inner position = false → isBefore later.inner position = false := by
  intro own isOwn
  rw [started.noCommits.2 own isOwn]
  rcases swept.moved isPage sorted with ⟨later, isLater, _, stays⟩
  exact ⟨later, isLater, stays⟩

theorem pays_of_swept {first later : Transcript}
    {answer : Call.Answer (.fetchTransactions (some cursor))} (sorted : listing.Sorted)
    (started : Started substitutor cursor first)
    (swept : Swept decoders substitutor cursor next later answer page parts)
    (isPage : IsPage listing cursor page)
    (answered : ∀ exchange ∈ (parts.map Prod.snd).flatten,
      Answered decoders substitutor.substitutorAddress exchange)
    (fresh : Fresh decoders committed (parts.map Prod.snd).flatten) :
    ∃ payments, Pays listing committed substitutor next (first ++ later) payments := by
  rcases payments_of_parts swept.processed answered fresh with
    ⟨payments, isSent, covered, onPage, distinct, unknown⟩
  rw [swept.txns] at onPage
  rcases isPage.sorted sorted with ⟨inOrder, behind⟩
  have isItem : ∀ payment ∈ payments, payment.item ∈ page.1.map TxnWithInfo.positioned :=
    fun payment mem => onPage.subset (List.mem_map_of_mem mem)
  refine ⟨payments, ?_, ?_, inOrder.sublist onPage, distinct, unknown, ?_, ?_,
    swept.onward started isPage sorted⟩
  · rw [commitsOf_append, started.noCommits.1, swept.transcript]
    exact isSent
  · exact fun payment mem => ⟨(behind _ (isItem payment mem)).1, covered payment mem⟩
  · intro payment mem own isOwn
    rw [started.noCommits.2 own isOwn]
    exact (behind _ (isItem payment mem)).2
  · intro payment mem
    rcases swept.moved isPage sorted with ⟨later, isLater, notBehind, _⟩
    exact ⟨later, isLater, notBehind _ (isItem payment mem)⟩

theorem pays_of_ticked (sorted : listing.Sorted) (honest : Honest decoders listing transcript)
    (answered : Signed transcript → ∀ exchange ∈ transcript,
      Answered decoders substitutor.substitutorAddress exchange)
    (fresh : Fresh decoders committed transcript)
    (ticked : Ticked decoders substitutor next transcript) :
    ∃ payments, Pays listing committed substitutor next transcript payments := by
  have whole := ticked
  cases ticked with
  | unstarted none isNext =>
      refine ⟨[], .nothing rfl fun cursor isCursor => ?_⟩
      rw [none] at isCursor
      cases isCursor
  | failed started plays isNext =>
      refine ⟨[], .nothing (noCommits_of_failed whole answered plays) ?_⟩
      rw [isNext]
      exact started.onward
  | @swept cursor first later answer page parts started swept =>
      have isPage : IsPage listing cursor page := by
        apply honest cursor answer page _ swept.fetched
        rw [swept.transcript]
        exact List.mem_append_right _ List.mem_cons_self
      rcases whole.signedFirst with none | signed
      · exact ⟨[], .nothing none (swept.onward started isPage sorted)⟩
      · have isSplit : first ++ later =
            first ++ [⟨.fetchTransactions (some cursor), answer⟩] ++
              (parts.map Prod.snd).flatten := by
          rw [swept.transcript, List.append_assoc]
          rfl
        have isAnswered := answered signed
        rw [isSplit] at isAnswered fresh
        have isFresh := fresh.after
        rw [commitsOf_append, started.noCommits.1] at isFresh
        apply pays_of_swept sorted started swept isPage
          (List.forall_mem_append.mp isAnswered).2
        rwa [show commitsOf [⟨.fetchTransactions (some cursor), answer⟩] = [] from rfl,
          List.append_nil, List.append_nil] at isFresh

end Ciphera.Substitutor
