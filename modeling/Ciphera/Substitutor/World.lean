import Ciphera.Lib.Run
import Ciphera.Substitutor.Service

/-!
# Runs of the substitutor

The substitutor ticks while the node lists more and more transactions.  The node answers
with the transactions behind a cursor; all other calls are answered in any way.  A burn that
was sent to the contract is paid ahead once at most, whenever that happens.
-/

namespace Ciphera.Substitutor

open Ciphera.Lib Ciphera.Zk
open Ciphera.Node (ListTxnsPosition TxnWithInfo)
open Ciphera.Rollup (Address Burn)

/-! ## Calls that succeed -/

@[simp]
theorem plays_request_ok_iff {call : Call} {explain : Report → Report} {reply : call.Reply}
    {part : Transcript} :
    (request call explain).Plays part (.ok reply) ↔ part = [⟨call, .ok reply⟩] := by
  rw [request, Dialogue.plays_asking_iff]
  constructor
  · rintro ⟨answer, rfl, isOk⟩
    rw [mapError_eq_ok_iff.mp isOk.symm]
  · rintro rfl
    exact ⟨.ok reply, rfl, rfl⟩

/-- A dialogue that succeeds was answered at the first call. -/
@[simp]
theorem plays_request_bind_ok_iff {α : Type} {call : Call} {explain : Report → Report}
    {rest : call.Reply → Talk α} {value : α} {part : Transcript} :
    (request call explain >>= rest).Plays part (.ok value) ↔
      ∃ reply later, part = ⟨call, .ok reply⟩ :: later ∧ (rest reply).Plays later (.ok value) := by
  rw [Dialogue.plays_bind_ok_iff]
  constructor
  · rintro ⟨reply, asked, later, rfl, asks, played⟩
    rcases plays_request_ok_iff.mp asks with rfl
    exact ⟨reply, later, rfl, played⟩
  · rintro ⟨reply, later, rfl, played⟩
    exact ⟨reply, [⟨call, .ok reply⟩], later, rfl, plays_request_ok_iff.mpr rfl, played⟩

/-! ## What the node lists -/

/-- Transactions with their places, in the order of the chain. -/
abbrev Listing := List (ListTxnsPosition × UtxoProof)

/-- Positions are ordered by blocks, and inside a block. -/
def isBefore (first second : ListTxnsPosition) : Bool :=
  first.block < second.block || first.block = second.block && first.txn < second.txn

@[simp]
theorem isBefore_iff {first second : ListTxnsPosition} :
    isBefore first second = true ↔ first.block < second.block ∨
      first.block = second.block ∧ first.txn < second.txn := by
  rw [isBefore, Bool.or_eq_true, Bool.and_eq_true, decide_eq_true_eq, decide_eq_true_eq,
    decide_eq_true_eq]

@[simp]
theorem isBefore_irrefl (position : ListTxnsPosition) : isBefore position position = false := by
  simp [isBefore]

theorem isBefore_trans {first second third : ListTxnsPosition}
    (before : isBefore first second = true) (after : isBefore second third = true) :
    isBefore first third = true := by
  rw [isBefore_iff] at before after ⊢
  omega

theorem isBefore_asymm {first second : ListTxnsPosition}
    (before : isBefore first second = true) : isBefore second first = false := by
  rw [← Bool.not_eq_true]
  intro after
  have cycle := isBefore_trans before after
  rw [isBefore_irrefl] at cycle
  cases cycle

/-- A position that is not before another, but before a third. -/
theorem isBefore_of_not_before {first second third : ListTxnsPosition}
    (notBefore : isBefore first second = false) (before : isBefore first third = true) :
    isBefore second third = true := by
  rw [← Bool.not_eq_true, isBefore_iff] at notBefore
  rw [isBefore_iff] at before ⊢
  omega

/-- The listing is in order, each position once. -/
def Listing.Sorted (listing : Listing) : Prop :=
  listing.Pairwise fun first second => isBefore first.1 second.1 = true

/-- The next transactions behind a cursor, with the cursor behind the last of them. -/
def IsPage (listing : Listing) (cursor : CursorChoice ListTxnsPosition)
    (page : List TxnWithInfo × Cursor ListTxnsPosition) : Prop :=
  (∃ count, page.1.map TxnWithInfo.positioned =
    (listing.filter fun item => isBefore cursor.inner item.1).take count) ∧
  page.2.after = page.1.getLast?.map fun txn => .afterInclusive txn.position

/-- Whatever the node answers in a transcript are pages of its listing. -/
def Honest (decoders : Decoders) (listing : Listing) (transcript : Transcript) : Prop :=
  ∀ cursor answer page, ⟨.fetchTransactions (some cursor), answer⟩ ∈ transcript →
    fetchOutcome decoders answer = .ok page → IsPage listing cursor page

/-- A listed item that is not behind the last one of a page, but behind the cursor, is on it. -/
theorem mem_page {listing : Listing} {count : Nat} {item last : ListTxnsPosition × UtxoProof}
    (sorted : listing.Sorted) (isLast : (listing.take count).getLast? = some last)
    (mem : item ∈ listing) (notBehind : isBefore last.1 item.1 = false) :
    item ∈ listing.take count := by
  have split := sorted
  rw [Listing.Sorted, ← List.take_append_drop count listing, List.pairwise_append] at split
  rw [← List.take_append_drop count listing] at mem
  rcases List.mem_append.mp mem with onPage | later
  · exact onPage
  · have behind := split.2.2 last (List.mem_of_getLast? isLast) item later
    rw [notBehind] at behind
    cases behind

/-! ## The pages of a chain -/

section

open Ciphera.BlockStore (BlockListOrder)
open Ciphera.Node (Ascending BlockFormat arranged chainStore chainTxns chainTxns_eq fetch_after
  fetchBlocksNonEmptyPaginated height_of_mem_positioned keeps listTxnsInner listTxnsInner_eq
  pageCursor position_of_getElem? skips_iff)
open Ciphera.Noir (Poseidon)

variable {blocks : List BlockFormat}

/-- The cursors of the substitutor: behind a rollup, or behind a transaction of a page. -/
inductive IsCursor : CursorChoiceAfter ListTxnsPosition → Prop
  | start (lastRollup : Nat) : IsCursor (.after ⟨lastRollup, 2 ^ 64 - 1⟩)
  | next (position : ListTxnsPosition) : IsCursor (.afterInclusive position)

/-- The node fetches the blocks from the cursor on, and skips what is not behind it. -/
theorem isBefore_eq_keeps {cursor : CursorChoiceAfter ListTxnsPosition} (isCursor : IsCursor cursor)
    {item : ListTxnsPosition × UtxoProof} (fits : item.1.txn < 2 ^ 64) :
    isBefore cursor.inner item.1 =
      (BlockStore.startsAfter .lowestToHighest (cursor.mapPos ListTxnsPosition.block)
          item.1.block && keeps (some (.after cursor)) item) := by
  rw [Bool.eq_iff_iff, isBefore_iff, Bool.and_eq_true, keeps, Bool.not_eq_true', ← Bool.not_eq_true,
    skips_iff]
  cases isCursor with
  | start lastRollup =>
      simp only [CursorChoiceAfter.mapPos, BlockStore.startsAfter, BlockListOrder.precedes,
        CursorChoice.inner, CursorChoiceAfter.inner, decide_eq_true_eq]
      omega
  | next position =>
      simp only [CursorChoiceAfter.mapPos, BlockStore.startsAfter, BlockListOrder.precedes,
        CursorChoice.inner, CursorChoiceAfter.inner, Bool.not_eq_true', decide_eq_false_iff_not]
      omega

/-- Blocks are chosen by the height of their transactions. -/
theorem flatMap_positioned_filter (chosen : Nat → Bool) (blocks : List BlockFormat) :
    (blocks.filter fun format => chosen format.height).flatMap BlockFormat.positioned =
      (blocks.flatMap BlockFormat.positioned).filter fun item => chosen item.1.block := by
  induction blocks with
  | nil => rfl
  | cons format blocks ih =>
      have same : ∀ item ∈ format.positioned, chosen item.1.block = chosen format.height :=
        fun item mem => congrArg chosen (height_of_mem_positioned mem)
      rw [List.flatMap_cons, List.filter_append, ← ih, List.filter_congr same, List.filter_cons]
      cases chosen format.height with
      | true => simp
      | false => simp

/-- The transactions of a chain are listed in order. -/
theorem sorted_chainTxns (ascending : Ascending blocks) :
    Listing.Sorted (chainTxns .lowestToHighest blocks) := by
  rw [Listing.Sorted, chainTxns]
  change (blocks.flatMap BlockFormat.positioned).Pairwise _
  rw [List.pairwise_flatMap]
  constructor
  · intro format _
    rw [List.pairwise_iff_getElem]
    intro first second firstInside secondInside before
    have at_ {place : Nat} (inside : place < format.positioned.length) :
        format.positioned[place].1 = ⟨format.height, place⟩ :=
      position_of_getElem? (List.getElem?_eq_some_iff.mpr ⟨inside, rfl⟩)
    rw [at_ firstInside, at_ secondInside, isBefore_iff]
    exact .inr ⟨rfl, before⟩
  · apply ascending.ordered.imp
    intro first second before item mem other otherMem
    rw [isBefore_iff, height_of_mem_positioned mem, height_of_mem_positioned otherMem]
    exact .inl before

/-- What the node answers is a page of the transactions of its chain. -/
theorem isPage_listTxnsInner (poseidon : Poseidon) (keccak : Keccak) (now maxHeight : Nat)
    (ascending : Ascending blocks)
    (small : ∀ item ∈ chainTxns .lowestToHighest blocks, item.1.txn < 2 ^ 64)
    {cursor : CursorChoiceAfter ListTxnsPosition} (isCursor : IsCursor cursor)
    (fits : cursor.inner.block < 2 ^ 64) :
    ∃ page, listTxnsInner poseidon now
        (fetchBlocksNonEmptyPaginated (chainStore poseidon keccak blocks))
        ⟨none, some (.after cursor), .oldestToNewest⟩ maxHeight = .ok (pageCursor page, page) ∧
      IsPage (chainTxns .lowestToHighest blocks) (.after cursor) (page, pageCursor page) := by
  have cursorFits : (cursor.mapPos ListTxnsPosition.block).inner < 2 ^ 64 := by
    cases cursor with
    | after position => exact fits
    | afterInclusive position => exact fits
  have fetched := fetch_after poseidon keccak .lowestToHighest (10 + 1) ascending cursorFits
  rcases listTxnsInner_eq poseidon now maxHeight (some (.after cursor)) .oldestToNewest
    (by decide : 10 ≤ 100) fetched with ⟨page, answered, items⟩
  refine ⟨page, answered, ⟨page.length, ?_⟩, rfl⟩
  have behind : ((chainTxns .lowestToHighest blocks).filter fun item =>
      isBefore cursor.inner item.1) = (((arranged .lowestToHighest blocks).filter fun format =>
        BlockStore.startsAfter .lowestToHighest (cursor.mapPos ListTxnsPosition.block)
          format.height).flatMap BlockFormat.positioned).filter (keeps (some (.after cursor))) := by
    rw [flatMap_positioned_filter, ← chainTxns_eq, List.filter_filter]
    apply List.filter_congr
    intro item mem
    rw [isBefore_eq_keeps isCursor (small item mem), Bool.and_comm]
  have isPrefix : page.map TxnWithInfo.positioned <+: (chainTxns .lowestToHighest blocks).filter
      fun item => isBefore cursor.inner item.1 := by
    rw [items, behind]
    exact (List.take_prefix _ _).trans (((List.take_prefix _ _).flatMap _).filter _)
  have cut := List.prefix_iff_eq_take.mp isPrefix
  rwa [List.length_map] at cut

end

/-! ## The world of the substitutor -/

/-- The escrow transaction that a call sends. -/
def Exchange.commit? : Exchange Call.Answer → Option Commit
  | ⟨.sendRawTransaction commit _, _⟩ => some commit
  | _ => none

/-- The transactions that were sent to commit swaps, whether the call succeeded or not. -/
def commitsOf (transcript : Transcript) : List Commit := transcript.filterMap Exchange.commit?

/-- The burn that a call pays. -/
def Exchange.burn? : Exchange Call.Answer → Option (ListTxnsPosition × Burn × Nat)
  | ⟨.substituteBurn origin burn burnBlockHeight, _⟩ => some (origin, burn, burnBlockHeight)
  | _ => none

/-- The burns that were sent to the contract. -/
def burnsOf (transcript : Transcript) : List (ListTxnsPosition × Burn × Nat) :=
  transcript.filterMap Exchange.burn?

/-- The substitutor and the listing, with what was sent so far and the burns that the contract
has paid ahead. -/
structure World where
  substitutor : BurnSubstitutor
  listing : Listing := []
  commits : List Commit := []
  burns : List (ListTxnsPosition × Burn × Nat) := []
  substituted : List (Burn × Nat) := []

/-- What happens around the substitutor, in any order. -/
inductive Event
  | listed (more : Listing)
  | ticked (transcript : Transcript)
  | substituted (burn : Burn) (burnBlockHeight : Nat)

namespace World

/-- Nothing is listed, paid or sent. -/
def new (substitutorAddress : Address) : World := { substitutor := { substitutorAddress } }

/-- One tick, or something that happens between the ticks. -/
inductive Step (decoders : Decoders) : World → Event → World → Prop
  | listed {world : World} {more : Listing} :
      Listing.Sorted (world.listing ++ more) →
      Step decoders world (.listed more) { world with listing := world.listing ++ more }
  | ticked {world : World} {transcript : Transcript} {next : BurnSubstitutor}
      {result : Except (Stop Report) (List Element)} :
      (world.substitutor.tick decoders).Plays transcript (.ok (next, result)) →
      Honest decoders world.listing transcript →
      Step decoders world (.ticked transcript) { world with
        substitutor := next
        commits := world.commits ++ commitsOf transcript
        burns := world.burns ++ burnsOf transcript }
  | substituted {world : World} {origin : ListTxnsPosition} {burn : Burn}
      {burnBlockHeight : Nat} :
      (origin, burn, burnBlockHeight) ∈ world.burns →
      (burn, burnBlockHeight) ∉ world.substituted →
      Step decoders world (.substituted burn burnBlockHeight) { world with
        substituted := world.substituted ++ [(burn, burnBlockHeight)] }

end World

/-! ## One tick -/

/-- The substitutor has a cursor, its own or one behind the last rollup. -/
inductive Started (substitutor : BurnSubstitutor) (cursor : CursorChoice ListTxnsPosition) :
    Transcript → Prop
  | running : substitutor.cursor = some cursor → Started substitutor cursor []
  | begun {lastRollup : Nat} : substitutor.cursor = none →
      cursor = BurnSubstitutor.afterRollup lastRollup →
      Started substitutor cursor [⟨.blockHeight, .ok lastRollup⟩]

/-- All transactions of a page were gone through. -/
structure Swept (decoders : Decoders) (substitutor : BurnSubstitutor)
    (cursor : CursorChoice ListTxnsPosition) (next : BurnSubstitutor) (transcript : Transcript)
    (answer : Call.Answer (.fetchTransactions (some cursor)))
    (page : List TxnWithInfo × Cursor ListTxnsPosition)
    (parts : List (TxnWithInfo × Transcript)) : Prop where
  fetched : fetchOutcome decoders answer = .ok page
  transcript : transcript = ⟨.fetchTransactions (some cursor), answer⟩ ::
    (parts.map Prod.snd).flatten
  txns : parts.map Prod.fst = page.1
  processed : ∀ part ∈ parts, ∃ result,
    (processTxn decoders substitutor.substitutorAddress part.1).Plays part.2 (.ok result)
  next : next = { substitutor with
    cursor := if page.1.isEmpty then some cursor else page.2.after.map .after }

section

variable {decoders : Decoders} {substitutor next : BurnSubstitutor} {transcript : Transcript}
  {cursor : CursorChoice ListTxnsPosition} {listing : Listing}
  {answer : Call.Answer (.fetchTransactions (some cursor))}
  {page : List TxnWithInfo × Cursor ListTxnsPosition} {parts : List (TxnWithInfo × Transcript)}

theorem Swept.cursor_of_empty
    (swept : Swept decoders substitutor cursor next transcript answer page parts)
    (isEmpty : page.1 = []) : next.cursor = some cursor := by
  rw [swept.next, isEmpty]
  rfl

theorem Swept.cursor_of_last
    (swept : Swept decoders substitutor cursor next transcript answer page parts)
    (isPage : IsPage listing cursor page) {txn : TxnWithInfo}
    (isLast : page.1.getLast? = some txn) :
    next.cursor = some (.after (.afterInclusive txn.position)) := by
  have notEmpty : page.1.isEmpty = false := by
    rw [List.isEmpty_eq_false_iff]
    intro isEmpty
    rw [isEmpty] at isLast
    cases isLast
  simp only [swept.next, notEmpty, isPage.2, isLast]
  rfl

end

/-- A tick does not start, fails with its page, or goes through all of it. -/
inductive Ticked (decoders : Decoders) (substitutor : BurnSubstitutor) (next : BurnSubstitutor) :
    Transcript → Prop
  | unstarted {report : Report} : substitutor.cursor = none → next = substitutor →
      Ticked decoders substitutor next [⟨.blockHeight, .error report⟩]
  | failed {cursor : CursorChoice ListTxnsPosition} {first later : Transcript}
      {stop : Stop Report} : Started substitutor cursor first →
      (BurnSubstitutor.processPage decoders { substitutor with cursor := some cursor }).Plays
        later (.error stop) → next = { substitutor with cursor := some cursor } →
      Ticked decoders substitutor next (first ++ later)
  | swept {cursor : CursorChoice ListTxnsPosition} {first later : Transcript}
      {answer : Call.Answer (.fetchTransactions (some cursor))}
      {page : List TxnWithInfo × Cursor ListTxnsPosition}
      {parts : List (TxnWithInfo × Transcript)} : Started substitutor cursor first →
      Swept decoders substitutor cursor next later answer page parts →
      Ticked decoders substitutor next (first ++ later)

variable {decoders : Decoders} {substitutor next : BurnSubstitutor} {transcript : Transcript}
  {cursor : CursorChoice ListTxnsPosition}

theorem swept_of_processPage {substitutedBurns : List Element}
    (plays : (BurnSubstitutor.processPage decoders
      { substitutor with cursor := some cursor }).Plays transcript (.ok (next, substitutedBurns))) :
    ∃ answer page parts, Swept decoders substitutor cursor next transcript answer page parts := by
  rcases Dialogue.plays_bind_ok_iff.mp plays with ⟨⟨txns, after⟩, first, later, rfl, asked, swept⟩
  rcases Dialogue.plays_asking_iff.mp asked with ⟨answer, rfl, isPage⟩
  rcases Dialogue.plays_bind_ok_iff.mp swept with ⟨results, parts, last, rfl, processed, ended⟩
  rcases Dialogue.plays_pure_iff.mp ended with ⟨rfl, isNext⟩
  rcases Dialogue.of_forEach processed with ⟨parts, rfl, rfl, all⟩
  refine ⟨answer, _, parts, isPage.symm, ?_, rfl, all, ?_⟩
  · rw [List.append_nil]
    rfl
  · rw [(Prod.mk.inj (Except.ok.inj isNext)).1]
    split
    · rfl
    · rfl

theorem started_of_start {started : BurnSubstitutor}
    (plays : substitutor.start.Plays transcript (.ok started)) :
    ∃ cursor, started = { substitutor with cursor := some cursor } ∧
      Started substitutor cursor transcript := by
  cases own : substitutor.cursor with
  | some cursor =>
      rw [BurnSubstitutor.start, own] at plays
      rcases Dialogue.plays_pure_iff.mp plays with ⟨rfl, same⟩
      exact ⟨cursor, by rw [Except.ok.inj same, ← own], .running own⟩
  | none =>
      rw [BurnSubstitutor.start, own] at plays
      rcases plays_request_bind_ok_iff.mp plays with ⟨lastRollup, later, rfl, ended⟩
      rcases Dialogue.plays_pure_iff.mp ended with ⟨rfl, same⟩
      exact ⟨_, Except.ok.inj same, .begun own rfl⟩

theorem unstarted_of_start {stop : Stop Report}
    (plays : substitutor.start.Plays transcript (.error stop)) :
    substitutor.cursor = none ∧ ∃ report, transcript = [⟨.blockHeight, .error report⟩] := by
  cases own : substitutor.cursor with
  | some cursor =>
      rw [BurnSubstitutor.start, own] at plays
      cases (Dialogue.plays_pure_iff.mp plays).2
  | none =>
      rw [BurnSubstitutor.start, own] at plays
      rcases Dialogue.plays_bind_iff.mp plays with ⟨lastRollup, asked, last, rfl, asks, ended⟩ |
        ⟨failure, _, asks⟩
      · cases (Dialogue.plays_pure_iff.mp ended).2
      · rcases Dialogue.plays_asking_iff.mp asks with ⟨answer, rfl, isError⟩
        cases answer with
        | ok lastRollup => cases isError
        | error report => exact ⟨rfl, report, rfl⟩

theorem ticked_of_tick {result : Except (Stop Report) (List Element)}
    (plays : (substitutor.tick decoders).Plays transcript (.ok (next, result))) :
    Ticked decoders substitutor next transcript := by
  rcases Dialogue.plays_bind_ok_iff.mp plays with ⟨began, first, later, rfl, attempted, ticked⟩
  rcases Dialogue.plays_attempt_iff.mp attempted with ⟨_, same, starts⟩
  rcases Except.ok.inj same with rfl
  cases began with
  | error stop =>
      rcases unstarted_of_start starts with ⟨none, report, rfl⟩
      rcases Dialogue.plays_pure_iff.mp ticked with ⟨rfl, isNext⟩
      exact .unstarted none (Prod.mk.inj (Except.ok.inj isNext)).1
  | ok started =>
      rcases started_of_start starts with ⟨cursor, rfl, started⟩
      rcases Dialogue.plays_bind_ok_iff.mp ticked with ⟨swept, before, last, rfl, attempted, ended⟩
      rcases Dialogue.plays_attempt_iff.mp attempted with ⟨_, same, processes⟩
      rcases Except.ok.inj same with rfl
      cases swept with
      | error stop =>
          rcases Dialogue.plays_pure_iff.mp ended with ⟨rfl, isNext⟩
          rw [List.append_nil]
          exact .failed started processes (Prod.mk.inj (Except.ok.inj isNext)).1
      | ok swept =>
          rcases swept with ⟨moved, substitutedBurns⟩
          rcases Dialogue.plays_pure_iff.mp ended with ⟨rfl, isNext⟩
          rw [List.append_nil]
          rcases (Prod.mk.inj (Except.ok.inj isNext)).1 with rfl
          rcases swept_of_processPage processes with ⟨answer, page, parts, swept⟩
          exact .swept started swept

end Ciphera.Substitutor
