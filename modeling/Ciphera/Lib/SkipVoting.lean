import Mathlib.Data.Finset.Card
import Mathlib.Data.List.Chain
import Mathlib.Data.Set.Insert
import Mathlib.Logic.Function.Basic
import Mathlib.Logic.Relation

/-!
# Voting with skips

Blocks form a tree.  Nodes vote for a block that a child of it may be made, and give the
number of leaders to skip for the child; a child with some number of skips is created from
a quorum of votes for exactly that number.  A node confirms a child of the block it
confirmed last as soon as the child has a child itself.

A node may vote for a child of its confirmed block unless it has voted to skip that child.
It may go back to voting for the confirmed block itself although it has voted for
a child: then another child, or the same one, stands in the way that it has voted to skip,
or that so many others have voted to skip that the rest is no quorum.

These rules are enough for all nodes to confirm one chain, in whatever order they act.
-/

namespace Ciphera.Lib

universe u v w

/-- Two paths from one start, along a relation with unique successors, are prefixes of one
another. -/
theorem prefix_or_prefix_of_isChain {β : Type v} {next : β → β → Prop}
    (unique : ∀ start first second, next start first → next start second → first = second)
    {start : β} {first second : List β} (firstPath : List.IsChain next (start :: first))
    (secondPath : List.IsChain next (start :: second)) :
    first <+: second ∨ second <+: first := by
  induction first generalizing start second with
  | nil => exact .inl (List.nil_prefix)
  | cons head first ih =>
      cases second with
      | nil => exact .inr (List.nil_prefix)
      | cons other second =>
          rw [List.isChain_cons_cons] at firstPath secondPath
          obtain rfl := unique start head other firstPath.1 secondPath.1
          rcases ih firstPath.2 secondPath.2 with before | after
          · exact .inl (List.cons_prefix_cons.mpr ⟨rfl, before⟩)
          · exact .inr (List.cons_prefix_cons.mpr ⟨rfl, after⟩)

/-- A vote names a block by its key.  Only votes of the electorate count. -/
structure SkipVoting (ν : Type u) (β : Type v) (κ : Type w) where
  key : β → κ
  parent : β → κ
  skips : β → Nat
  height : β → Nat
  first : β
  electorate : Finset ν
  size : Nat
  threshold : Nat
  within : electorate.card ≤ size
  majority : size < 2 * threshold

namespace SkipVoting

variable {ν : Type u} {β : Type v} {κ : Type w}

/-- What the nodes have confirmed, the blocks there are and the votes that have been cast. -/
structure State (ν : Type u) (β : Type v) (κ : Type w) where
  confirmed : ν → β
  log : ν → List β
  created : Set β
  voted : ν → κ → Nat → Prop

variable (voting : SkipVoting ν β κ)

/-- A block on top of another one, one height above it. -/
def Child (block parent : β) : Prop :=
  voting.parent block = voting.key parent ∧ voting.height block = voting.height parent + 1

/-- Only the first block exists, and nobody has voted. -/
def start : State ν β κ where
  confirmed _ := voting.first
  log _ := []
  created := {voting.first}
  voted _ _ _ := False

namespace State

/-- A node votes for a block of so many skips on top of a key. -/
def vote (state : State ν β κ) (node : ν) (key : κ) (skips : Nat) : State ν β κ :=
  { state with
    voted := fun voter wanted number =>
      (voter = node ∧ wanted = key ∧ number = skips) ∨ state.voted voter wanted number }

/-- A node confirms a block. -/
def confirm [DecidableEq ν] (state : State ν β κ) (node : ν) (block : β) : State ν β κ :=
  { state with
    confirmed := Function.update state.confirmed node block
    log := Function.update state.log node (state.log node ++ [block]) }

/-- A block comes into being. -/
def create (state : State ν β κ) (block : β) : State ν β κ :=
  { state with created := insert block state.created }

/-- The block has a child. -/
def Extended (state : State ν β κ) (block : β) : Prop :=
  ∃ child ∈ state.created, voting.Child child block

/-- Enough nodes have voted for a block of so many skips on top of a key. -/
def Quorum (state : State ν β κ) (key : κ) (skips : Nat) : Prop :=
  ∃ voters ⊆ voting.electorate, voting.threshold ≤ voters.card ∧
    ∀ voter ∈ voters, state.voted voter key skips

/-- Without the voters, no quorum is left. -/
def Blocking (voters : Finset ν) : Prop :=
  voters ⊆ voting.electorate ∧ voting.size < voters.card + voting.threshold

/-- Why a node does not vote for a child of its confirmed block any more. -/
def Passed (state : State ν β κ) (node : ν) (block : β) : Prop :=
  ∃ other ∈ state.created, voting.Child other (state.confirmed node) ∧
    (voting.skips other < voting.skips block → state.Extended voting other) ∧
    ∃ skips > voting.skips other,
      state.voted node (voting.key (state.confirmed node)) skips ∨
      ∃ voters, Blocking voting voters ∧
        ∀ voter ∈ voters, state.voted voter (voting.key (state.confirmed node)) skips

end State

/-- What a node or a leader may do. -/
inductive Step [DecidableEq ν] : State ν β κ → State ν β κ → Prop
  | advance {state : State ν β κ} {node : ν} {block : β} {skips : Nat}
      (created : block ∈ state.created) (child : voting.Child block (state.confirmed node))
      (unpassed : ∀ earlier, state.voted node (voting.key (state.confirmed node)) earlier →
        earlier ≤ voting.skips block) :
      Step state (state.vote node (voting.key block) skips)
  | stay {state : State ν β κ} {node : ν} {skips : Nat}
      (passed : ∀ block ∈ state.created, voting.Child block (state.confirmed node) →
        (∃ earlier, state.voted node (voting.key block) earlier) →
        state.Passed voting node block) :
      Step state (state.vote node (voting.key (state.confirmed node)) skips)
  | confirm {state : State ν β κ} {node : ν} {block : β} (created : block ∈ state.created)
      (child : voting.Child block (state.confirmed node))
      (extended : state.Extended voting block) :
      Step state (state.confirm node block)
  | create {state : State ν β κ} {block parent : β} (created : parent ∈ state.created)
      (child : voting.Child block parent)
      (quorum : state.Quorum voting (voting.key parent) (voting.skips block))
      (keyed : ∀ other ∈ state.created, voting.key other = voting.key block → other = block)
      (unique : ∀ other ∈ state.created, voting.Child other parent →
        voting.skips other = voting.skips block → other = block) :
      Step state (state.create block)

/-! ## Invariants -/

namespace State

/-- The node has voted that the block may have a child. -/
def VotedFor (state : State ν β κ) (node : ν) (block : β) : Prop :=
  ∃ skips, state.voted node (voting.key block) skips

/-- The node has not voted to skip this child. -/
def Loyal (state : State ν β κ) (node : ν) (block parent : β) : Prop :=
  ∀ skips, state.voted node (voting.key parent) skips → skips ≤ voting.skips block

/-- A child that has been built on. -/
def Next (state : State ν β κ) (parent block : β) : Prop :=
  parent ∈ state.created ∧ block ∈ state.created ∧ voting.Child block parent ∧
    state.Extended voting block

/-- A vote of a node that does no harm: it is no vote for a child that the node has skipped, and
it skips a child that the node has voted for only if the others have blocked this one. -/
structure Justified (state : State ν β κ) (node : ν) (key : κ) : Prop where
  near : ∃ block ∈ state.created, voting.key block = key ∧
    voting.height block ≤ voting.height (state.confirmed node) + 1
  loyal : ∀ parent ∈ state.created, ∀ block ∈ state.created, voting.Child block parent →
    voting.key block = key → ¬state.Extended voting block → state.Loyal voting node block parent
  reason : ∀ parent ∈ state.created, ∀ block ∈ state.created, voting.Child block parent →
    voting.key parent = key → state.VotedFor voting node block →
    state.Loyal voting node block parent →
    ∃ voters, Blocking voting voters ∧ ∀ voter ∈ voters, ¬state.Loyal voting voter block parent

/-- A block that is not there yet and may be created on top of its parent. -/
structure Fresh (state : State ν β κ) (block parent : β) : Prop where
  parentCreated : parent ∈ state.created
  child : voting.Child block parent
  quorum : state.Quorum voting (voting.key parent) (voting.skips block)
  keyed : ∀ other ∈ state.created, voting.key other = voting.key block → other = block
  unique : ∀ other ∈ state.created, voting.Child other parent →
    voting.skips other = voting.skips block → other = block
  absent : block ∉ state.created

variable {voting} {state : State ν β κ}

@[simp]
theorem confirmed_confirm_self [DecidableEq ν] (node : ν) (block : β) :
    (state.confirm node block).confirmed node = block :=
  Function.update_self ..

@[simp]
theorem confirmed_confirm_of_ne [DecidableEq ν] {node other : ν} (differ : other ≠ node)
    (block : β) : (state.confirm node block).confirmed other = state.confirmed other :=
  Function.update_of_ne differ ..

@[simp]
theorem log_confirm_self [DecidableEq ν] (node : ν) (block : β) :
    (state.confirm node block).log node = state.log node ++ [block] :=
  Function.update_self ..

@[simp]
theorem log_confirm_of_ne [DecidableEq ν] {node other : ν} (differ : other ≠ node) (block : β) :
    (state.confirm node block).log other = state.log other :=
  Function.update_of_ne differ ..

theorem votedFor_vote {node voter : ν} {key : κ} {skips : Nat} {block : β} :
    (state.vote node key skips).VotedFor voting voter block ↔
      voter = node ∧ voting.key block = key ∨ state.VotedFor voting voter block := by
  constructor
  · rintro ⟨number, ⟨isNode, isKey, _⟩ | voted⟩
    · exact .inl ⟨isNode, isKey⟩
    · exact .inr ⟨number, voted⟩
  · rintro (⟨isNode, isKey⟩ | ⟨number, voted⟩)
    · exact ⟨skips, .inl ⟨isNode, isKey, rfl⟩⟩
    · exact ⟨number, .inr voted⟩

theorem loyal_vote {node voter : ν} {key : κ} {skips : Nat} {block parent : β} :
    (state.vote node key skips).Loyal voting voter block parent ↔
      (voter = node → voting.key parent = key → skips ≤ voting.skips block) ∧
        state.Loyal voting voter block parent := by
  constructor
  · intro loyal
    exact ⟨fun isNode isKey => loyal skips (.inl ⟨isNode, isKey, rfl⟩),
      fun number voted => loyal number (.inr voted)⟩
  · rintro ⟨now, before⟩ number (⟨isNode, isKey, rfl⟩ | voted)
    · exact now isNode isKey
    · exact before number voted

/-- A quorum stays one after another vote. -/
theorem Quorum.vote {node : ν} {key wanted : κ} {skips number : Nat}
    (quorum : state.Quorum voting wanted number) :
    (state.vote node key skips).Quorum voting wanted number := by
  obtain ⟨voters, subset, enough, voted⟩ := quorum
  exact ⟨voters, subset, enough, fun voter mem => .inr (voted voter mem)⟩

@[simp]
theorem extended_create {block target : β} :
    (state.create block).Extended voting target ↔
      voting.Child block target ∨ state.Extended voting target := by
  constructor
  · rintro ⟨child, rfl | created, isChild⟩
    · exact .inl isChild
    · exact .inr ⟨child, created, isChild⟩
  · rintro (isChild | ⟨child, created, isChild⟩)
    · exact ⟨block, .inl rfl, isChild⟩
    · exact ⟨child, .inr created, isChild⟩

end State

/-- As long as a block has no child, its voters are loyal to it, or so many others have
voted to skip it that it never will.  When it has one, a quorum is loyal to it. -/
structure Safe (state : State ν β κ) : Prop where
  first_created : voting.first ∈ state.created
  keyed : ∀ block ∈ state.created, ∀ other ∈ state.created,
    voting.key block = voting.key other → block = other
  unique : ∀ parent ∈ state.created, ∀ block ∈ state.created, ∀ other ∈ state.created,
    voting.Child block parent → voting.Child other parent →
    voting.skips block = voting.skips other → block = other
  grounded : ∀ block ∈ state.created, block = voting.first ∨ ∃ parent ∈ state.created,
    voting.Child block parent ∧ state.Quorum voting (voting.key parent) (voting.skips block)
  low : ∀ block ∈ state.created, voting.height voting.first ≤ voting.height block
  confirmed_created : ∀ node, state.confirmed node ∈ state.created
  confirmed_extended : ∀ node, state.confirmed node = voting.first ∨
    state.Extended voting (state.confirmed node)
  vote_near : ∀ node key skips, state.voted node key skips → ∃ block ∈ state.created,
    voting.key block = key ∧ voting.height block ≤ voting.height (state.confirmed node) + 1
  pending : ∀ parent ∈ state.created, ∀ block ∈ state.created, voting.Child block parent →
    ¬state.Extended voting block →
    (∀ node, state.VotedFor voting node block → state.Loyal voting node block parent) ∨
    ∃ voters, State.Blocking voting voters ∧ ∀ voter ∈ voters,
      ¬state.VotedFor voting voter block ∧ ¬state.Loyal voting voter block parent
  settled : ∀ parent ∈ state.created, ∀ block ∈ state.created, voting.Child block parent →
    state.Extended voting block → ∃ voters ⊆ voting.electorate,
      voting.threshold ≤ voters.card ∧ ∀ voter ∈ voters,
        state.VotedFor voting voter block ∧ state.Loyal voting voter block parent
  path : ∀ node, List.IsChain (state.Next voting) (voting.first :: state.log node)
  path_end : ∀ node, (voting.first :: state.log node).getLast? = some (state.confirmed node)

namespace Safe

variable {voting} {state : State ν β κ}

/-- Two parts of the electorate that are together larger than it have a common voter. -/
theorem exists_common [DecidableEq ν] {first second : Finset ν}
    (firstSubset : first ⊆ voting.electorate) (secondSubset : second ⊆ voting.electorate)
    (large : voting.size < first.card + second.card) : ∃ voter ∈ first, voter ∈ second := by
  have overlap : (first ∩ second).Nonempty := by
    apply Finset.inter_nonempty_of_card_lt_card_add_card firstSubset secondSubset
    exact voting.within.trans_lt large
  obtain ⟨voter, mem⟩ := overlap
  exact ⟨voter, Finset.mem_inter.mp mem⟩

/-- No quorum fits beside voters who block it. -/
theorem exists_blocker [DecidableEq ν] {voters blockers : Finset ν}
    (subset : voters ⊆ voting.electorate) (enough : voting.threshold ≤ voters.card)
    (blocking : State.Blocking voting blockers) : ∃ voter ∈ voters, voter ∈ blockers := by
  apply exists_common subset blocking.1
  have few := blocking.2
  omega

theorem parent_unique (safe : Safe voting state) {block parent other : β}
    (parentCreated : parent ∈ state.created) (otherCreated : other ∈ state.created)
    (child : voting.Child block parent) (otherChild : voting.Child block other) :
    parent = other :=
  safe.keyed parent parentCreated other otherCreated (child.1.symm.trans otherChild.1)

theorem not_child_first (safe : Safe voting state) {parent : β}
    (created : parent ∈ state.created) : ¬voting.Child voting.first parent := by
  intro child
  have low := safe.low parent created
  rw [child.2] at low
  exact Nat.not_succ_le_self _ low

/-- Every child of a block has had its quorum of votes. -/
theorem quorum (safe : Safe voting state) {block parent : β} (created : block ∈ state.created)
    (parentCreated : parent ∈ state.created) (child : voting.Child block parent) :
    state.Quorum voting (voting.key parent) (voting.skips block) := by
  rcases safe.grounded block created with rfl | ⟨other, otherCreated, otherChild, voters⟩
  · exact absurd child (safe.not_child_first parentCreated)
  · rwa [safe.parent_unique parentCreated otherCreated child otherChild]

/-- A block that has been built on is the last one that its parent has got. -/
theorem not_extended [DecidableEq ν] (safe : Safe voting state) {block other parent : β}
    (parentCreated : parent ∈ state.created) (created : block ∈ state.created)
    (otherCreated : other ∈ state.created) (child : voting.Child block parent)
    (otherChild : voting.Child other parent) (fewer : voting.skips block < voting.skips other) :
    ¬state.Extended voting block := by
  intro extended
  obtain ⟨voters, subset, enough, loyal⟩ :=
    safe.settled parent parentCreated block created child extended
  obtain ⟨skippers, skippersSubset, skippersEnough, skipped⟩ :=
    safe.quorum otherCreated parentCreated otherChild
  have large : voting.size < voters.card + skippers.card := by
    have majority := voting.majority
    omega
  obtain ⟨voter, isVoter, isSkipper⟩ := exists_common subset skippersSubset large
  exact absurd ((loyal voter isVoter).2 _ (skipped voter isSkipper)) (Nat.not_le.mpr fewer)

/-- Of the children of a block at most one is built on. -/
theorem next_unique [DecidableEq ν] (safe : Safe voting state) (start first second : β)
    (isFirst : state.Next voting start first) (isSecond : state.Next voting start second) :
    first = second := by
  obtain ⟨startCreated, firstCreated, firstChild, firstExtended⟩ := isFirst
  obtain ⟨_, secondCreated, secondChild, secondExtended⟩ := isSecond
  rcases Nat.lt_trichotomy (voting.skips first) (voting.skips second) with less | equal | more
  · exact absurd firstExtended
      (safe.not_extended startCreated firstCreated secondCreated firstChild secondChild less)
  · exact safe.unique start startCreated first firstCreated second secondCreated firstChild
      secondChild equal
  · exact absurd secondExtended
      (safe.not_extended startCreated secondCreated firstCreated secondChild firstChild more)

/-! ### Every step is safe -/

theorem of_start : Safe voting (start voting) where
  first_created := rfl
  keyed := by
    rintro _ rfl _ rfl _
    rfl
  unique := by
    rintro _ _ _ rfl _ rfl _ _ _
    rfl
  grounded _ created := .inl created
  low := by
    rintro _ rfl
    exact le_refl _
  confirmed_created _ := rfl
  confirmed_extended _ := .inl rfl
  vote_near _ _ _ voted := voted.elim
  pending := by
    rintro _ rfl _ rfl child _
    exact absurd child.2 (Nat.succ_ne_self _).symm
  settled := by
    rintro _ rfl _ rfl child _
    exact absurd child.2 (Nat.succ_ne_self _).symm
  path _ := List.IsChain.singleton _
  path_end _ := rfl

/-- A block and its child have different keys. -/
theorem key_ne (safe : Safe voting state) {block parent : β} (parentCreated : parent ∈ state.created)
    (created : block ∈ state.created) (child : voting.Child block parent) :
    voting.key block ≠ voting.key parent := by
  intro same
  rw [safe.keyed block created parent parentCreated same] at child
  exact Nat.succ_ne_self _ child.2.symm

/-- A vote leaves a child without children pending. -/
theorem pending_vote (safe : Safe voting state) {node : ν} {key : κ} {skips : Nat}
    (justified : state.Justified voting node key) {parent block : β}
    (parentCreated : parent ∈ state.created) (created : block ∈ state.created)
    (child : voting.Child block parent) (unextended : ¬state.Extended voting block) :
    (∀ voter, (state.vote node key skips).VotedFor voting voter block →
      (state.vote node key skips).Loyal voting voter block parent) ∨
    ∃ voters, State.Blocking voting voters ∧ ∀ voter ∈ voters,
      ¬(state.vote node key skips).VotedFor voting voter block ∧
        ¬(state.vote node key skips).Loyal voting voter block parent := by
  have otherKey := safe.key_ne parentCreated created child
  have loyal := justified.loyal parent parentCreated block created child
  rcases safe.pending parent parentCreated block created child unextended with
    allLoyal | ⟨voters, blocking, lost⟩
  · by_cases skipping : voting.key parent = key ∧ state.VotedFor voting node block ∧
        voting.skips block < skips
    · -- the others have blocked the child, and none of them has voted for it
      obtain ⟨isKey, votedFor, _⟩ := skipping
      obtain ⟨voters, blocking, skipped⟩ := justified.reason parent parentCreated block created
        child isKey votedFor (allLoyal node votedFor)
      apply Or.inr
      refine ⟨voters, blocking, fun voter mem => ⟨?_, ?_⟩⟩
      · rw [State.votedFor_vote]
        rintro (⟨_, otherwise⟩ | voted)
        · exact otherKey (otherwise.trans isKey.symm)
        · exact skipped voter mem (allLoyal voter voted)
      · rw [State.loyal_vote]
        exact fun still => skipped voter mem still.2
    · apply Or.inl
      intro voter votedFor
      rw [State.loyal_vote]
      rw [State.votedFor_vote] at votedFor
      rcases votedFor with ⟨rfl, isKey⟩ | before
      · exact ⟨fun _ otherwise => absurd (isKey.trans otherwise.symm) otherKey,
          loyal isKey unextended⟩
      · refine ⟨?_, allLoyal voter before⟩
        rintro rfl isKey
        by_contra more
        exact skipping ⟨isKey, before, Nat.lt_of_not_le more⟩
  · apply Or.inr
    refine ⟨voters, blocking, fun voter mem => ⟨?_, ?_⟩⟩
    · rw [State.votedFor_vote]
      rintro (⟨rfl, isKey⟩ | voted)
      · exact (lost voter mem).2 (loyal isKey unextended)
      · exact (lost voter mem).1 voted
    · rw [State.loyal_vote]
      exact fun still => (lost voter mem).2 still.2

/-- A vote leaves a quorum loyal to a child that has been built on. -/
theorem settled_vote [DecidableEq ν] (safe : Safe voting state) {node : ν} {key : κ} {skips : Nat}
    (justified : state.Justified voting node key) {parent block : β}
    (parentCreated : parent ∈ state.created) (created : block ∈ state.created)
    (child : voting.Child block parent) (extended : state.Extended voting block) :
    ∃ voters ⊆ voting.electorate, voting.threshold ≤ voters.card ∧ ∀ voter ∈ voters,
      (state.vote node key skips).VotedFor voting voter block ∧
        (state.vote node key skips).Loyal voting voter block parent := by
  obtain ⟨voters, subset, enough, loyalVoters⟩ :=
    safe.settled parent parentCreated block created child extended
  refine ⟨voters, subset, enough, fun voter mem => ?_⟩
  obtain ⟨votedFor, before⟩ := loyalVoters voter mem
  rw [State.votedFor_vote, State.loyal_vote]
  refine ⟨.inr votedFor, ?_, before⟩
  rintro rfl isKey
  by_contra more
  -- too many would have skipped the child for the quorum that it has
  obtain ⟨skippers, blocking, skipped⟩ := justified.reason parent parentCreated block created child
    isKey votedFor before
  obtain ⟨common, isVoter, isSkipper⟩ := exists_blocker subset enough blocking
  exact skipped common isSkipper (loyalVoters common isVoter).2

/-- A justified vote is safe. -/
theorem vote [DecidableEq ν] (safe : Safe voting state) {node : ν} {key : κ} {skips : Nat}
    (justified : state.Justified voting node key) :
    Safe voting (state.vote node key skips) where
  first_created := safe.first_created
  keyed := safe.keyed
  unique := safe.unique
  grounded block created := by
    rcases safe.grounded block created with isFirst | ⟨parent, parentCreated, child, quorum⟩
    · exact .inl isFirst
    · exact .inr ⟨parent, parentCreated, child, quorum.vote⟩
  low := safe.low
  confirmed_created := safe.confirmed_created
  confirmed_extended := safe.confirmed_extended
  vote_near := by
    rintro voter wanted number (⟨rfl, rfl, rfl⟩ | voted)
    · exact justified.near
    · exact safe.vote_near voter wanted number voted
  pending _ parentCreated _ created child := safe.pending_vote justified parentCreated created child
  settled _ parentCreated _ created child := safe.settled_vote justified parentCreated created child
  path := safe.path
  path_end := safe.path_end

/-- A vote for a child of the confirmed block that the voter has not skipped. -/
theorem advance [DecidableEq ν] (safe : Safe voting state) {node : ν} {block : β} {skips : Nat}
    (created : block ∈ state.created) (child : voting.Child block (state.confirmed node))
    (unpassed : state.Loyal voting node block (state.confirmed node)) :
    Safe voting (state.vote node (voting.key block) skips) := by
  have confirmedCreated := safe.confirmed_created node
  apply safe.vote
  constructor
  · exact ⟨block, created, rfl, le_of_eq child.2⟩
  · intro parent parentCreated other otherCreated otherChild isKey _
    obtain rfl := safe.keyed other otherCreated block created isKey
    rwa [safe.parent_unique parentCreated confirmedCreated otherChild child]
  · rintro parent parentCreated other otherCreated otherChild isKey ⟨number, voted⟩ _
    -- no vote for a grandchild of the confirmed block has been cast
    obtain rfl := safe.keyed parent parentCreated block created isKey
    obtain ⟨target, targetCreated, targetKey, near⟩ := safe.vote_near node _ number voted
    obtain rfl := safe.keyed target targetCreated other otherCreated targetKey
    rw [otherChild.2, child.2] at near
    exact absurd near (Nat.not_succ_le_self _)

/-- A vote for the confirmed block itself. -/
theorem stay [DecidableEq ν] (safe : Safe voting state) {node : ν} {skips : Nat}
    (passed : ∀ block ∈ state.created, voting.Child block (state.confirmed node) →
      state.VotedFor voting node block → state.Passed voting node block) :
    Safe voting (state.vote node (voting.key (state.confirmed node)) skips) := by
  have confirmedCreated := safe.confirmed_created node
  apply safe.vote
  constructor
  · exact ⟨_, confirmedCreated, rfl, Nat.le_succ _⟩
  · intro parent parentCreated block created child isKey unextended
    obtain rfl := safe.keyed block created _ confirmedCreated isKey
    rcases safe.confirmed_extended node with isFirst | extended
    · rw [isFirst] at child
      exact absurd child (safe.not_child_first parentCreated)
    · exact absurd extended unextended
  · intro parent parentCreated block created child isKey votedFor loyal
    obtain rfl := safe.keyed parent parentCreated _ confirmedCreated isKey
    obtain ⟨other, otherCreated, otherChild, extended, number, more, skipped⟩ :=
      passed block created child votedFor
    have atLeast : voting.skips block ≤ voting.skips other := by
      by_contra fewer
      have less := Nat.lt_of_not_le fewer
      exact safe.not_extended parentCreated otherCreated created otherChild child less
        (extended less)
    rcases skipped with own | ⟨voters, blocking, voted⟩
    · exact absurd (loyal number own) (Nat.not_le.mpr (atLeast.trans_lt more))
    · refine ⟨voters, blocking, fun voter mem still => ?_⟩
      exact absurd (still number (voted voter mem)) (Nat.not_le.mpr (atLeast.trans_lt more))

/-- Confirming a child that has been built on. -/
theorem confirm [DecidableEq ν] (safe : Safe voting state) {node : ν} {block : β}
    (created : block ∈ state.created) (child : voting.Child block (state.confirmed node))
    (extended : state.Extended voting block) : Safe voting (state.confirm node block) where
  first_created := safe.first_created
  keyed := safe.keyed
  unique := safe.unique
  grounded := safe.grounded
  low := safe.low
  confirmed_created other := by
    rcases eq_or_ne other node with rfl | differ
    · rw [State.confirmed_confirm_self]
      exact created
    · rw [State.confirmed_confirm_of_ne differ]
      exact safe.confirmed_created other
  confirmed_extended other := by
    rcases eq_or_ne other node with rfl | differ
    · rw [State.confirmed_confirm_self]
      exact .inr extended
    · rw [State.confirmed_confirm_of_ne differ]
      exact safe.confirmed_extended other
  vote_near voter key skips voted := by
    obtain ⟨target, targetCreated, isKey, near⟩ := safe.vote_near voter key skips voted
    refine ⟨target, targetCreated, isKey, ?_⟩
    rcases eq_or_ne voter node with rfl | differ
    · rw [State.confirmed_confirm_self, child.2]
      exact near.trans (Nat.le_succ _)
    · rwa [State.confirmed_confirm_of_ne differ]
  pending := safe.pending
  settled := safe.settled
  path other := by
    rcases eq_or_ne other node with rfl | differ
    · rw [State.log_confirm_self, ← List.cons_append, List.isChain_append]
      refine ⟨safe.path other, List.IsChain.singleton _, ?_⟩
      intro last isLast head isHead
      rw [safe.path_end, Option.mem_some_iff] at isLast
      rw [List.head?_cons, Option.mem_some_iff] at isHead
      subst isLast isHead
      exact ⟨safe.confirmed_created other, created, child, extended⟩
    · rw [State.log_confirm_of_ne differ]
      exact safe.path other
  path_end other := by
    rcases eq_or_ne other node with rfl | differ
    · rw [State.log_confirm_self, State.confirmed_confirm_self, ← List.cons_append,
        List.getLast?_concat]
    · rw [State.log_confirm_of_ne differ, State.confirmed_confirm_of_ne differ]
      exact safe.path_end other

/-- Nobody has voted for a block on top of a fresh one. -/
theorem not_voted (safe : Safe voting state) {block parent : β}
    (fresh : state.Fresh voting block parent) (voter : ν) (skips : Nat) :
    ¬state.voted voter (voting.key block) skips := by
  intro voted
  obtain ⟨target, created, isKey, _⟩ := safe.vote_near voter _ skips voted
  rw [fresh.keyed target created isKey] at created
  exact fresh.absent created

/-- A fresh block has no children. -/
theorem not_child_fresh (safe : Safe voting state) {block parent other : β}
    (fresh : state.Fresh voting block parent) (created : other ∈ state.created) :
    ¬voting.Child other block := by
  intro isChild
  rcases safe.grounded other created with rfl | ⟨otherParent, otherCreated, otherChild, _⟩
  · have low := safe.low parent fresh.parentCreated
    rw [isChild.2, fresh.child.2] at low
    omega
  · have same := fresh.keyed otherParent otherCreated (otherChild.1.symm.trans isChild.1)
    rw [same] at otherCreated
    exact fresh.absent otherCreated

theorem not_child_self (block : β) : ¬voting.Child block block :=
  fun own => Nat.succ_ne_self _ own.2.symm

/-- Two children of a block with the same skips are one, also when one of them is fresh. -/
theorem unique_create (safe : Safe voting state) {block parent : β}
    (fresh : state.Fresh voting block parent) :
    ∀ top ∈ (state.create block).created, ∀ first ∈ (state.create block).created,
      ∀ second ∈ (state.create block).created, voting.Child first top →
      voting.Child second top → voting.skips first = voting.skips second → first = second := by
  rintro top (rfl | topCreated) _ (rfl | created) _ (rfl | otherCreated) isChild otherChild same
  · rfl
  · exact absurd isChild (not_child_self _)
  · exact absurd otherChild (not_child_self _)
  · exact absurd isChild (safe.not_child_fresh fresh created)
  · rfl
  · rw [safe.parent_unique topCreated fresh.parentCreated isChild fresh.child] at otherChild
    exact (fresh.unique _ otherCreated otherChild same.symm).symm
  · rw [safe.parent_unique topCreated fresh.parentCreated otherChild fresh.child] at isChild
    exact fresh.unique _ created isChild same
  · exact safe.unique top topCreated _ created _ otherCreated isChild otherChild same

/-- The quorum for the first child of a block is a quorum of voters who are loyal to it. -/
theorem settled_first [DecidableEq ν] (safe : Safe voting state) {block parent top : β}
    (fresh : state.Fresh voting block parent) (topCreated : top ∈ state.created)
    (child : voting.Child parent top) (unextended : ¬state.Extended voting parent) :
    ∃ voters ⊆ voting.electorate, voting.threshold ≤ voters.card ∧ ∀ voter ∈ voters,
      state.VotedFor voting voter parent ∧ state.Loyal voting voter parent top := by
  obtain ⟨voters, subset, enough, voted⟩ := fresh.quorum
  have votedFor : ∀ voter ∈ voters, state.VotedFor voting voter parent :=
    fun voter mem => ⟨_, voted voter mem⟩
  rcases safe.pending top topCreated parent fresh.parentCreated child unextended with
    loyal | ⟨skippers, blocking, lost⟩
  · exact ⟨voters, subset, enough, fun voter mem =>
      ⟨votedFor voter mem, loyal voter (votedFor voter mem)⟩⟩
  · obtain ⟨common, isVoter, isSkipper⟩ := exists_blocker subset enough blocking
    exact absurd (votedFor common isVoter) (lost common isSkipper).1

/-- A quorum is loyal to each child that has been built on, also by a fresh block. -/
theorem settled_create [DecidableEq ν] (safe : Safe voting state) {block parent : β}
    (fresh : state.Fresh voting block parent) :
    ∀ top ∈ (state.create block).created, ∀ other ∈ (state.create block).created,
      voting.Child other top → (state.create block).Extended voting other →
      ∃ voters ⊆ voting.electorate, voting.threshold ≤ voters.card ∧ ∀ voter ∈ voters,
        state.VotedFor voting voter other ∧ state.Loyal voting voter other top := by
  rintro top (rfl | topCreated) other (rfl | created) isChild extended
  · exact absurd isChild (not_child_self _)
  · exact absurd isChild (safe.not_child_fresh fresh created)
  · rcases State.extended_create.mp extended with own | ⟨later, laterCreated, laterChild⟩
    · exact absurd own (not_child_self _)
    · exact absurd laterChild (safe.not_child_fresh fresh laterCreated)
  · by_cases before : state.Extended voting other
    · exact safe.settled top topCreated other created isChild before
    · rcases State.extended_create.mp extended with isFirst | otherwise
      · obtain rfl := safe.parent_unique created fresh.parentCreated isFirst fresh.child
        exact safe.settled_first fresh topCreated isChild before
      · exact absurd otherwise before

theorem create_fresh [DecidableEq ν] (safe : Safe voting state) {block parent : β}
    (fresh : state.Fresh voting block parent) : Safe voting (state.create block) where
  first_created := .inr safe.first_created
  keyed := by
    rintro _ (rfl | created) _ (rfl | otherCreated) same
    · rfl
    · exact (fresh.keyed _ otherCreated same.symm).symm
    · exact fresh.keyed _ created same
    · exact safe.keyed _ created _ otherCreated same
  unique := safe.unique_create fresh
  grounded := by
    rintro other (rfl | created)
    · exact .inr ⟨parent, .inr fresh.parentCreated, fresh.child, fresh.quorum⟩
    · rcases safe.grounded other created with isFirst | ⟨top, topCreated, isChild, voters⟩
      · exact .inl isFirst
      · exact .inr ⟨top, .inr topCreated, isChild, voters⟩
  low := by
    rintro other (rfl | created)
    · rw [fresh.child.2]
      exact (safe.low parent fresh.parentCreated).trans (Nat.le_succ _)
    · exact safe.low other created
  confirmed_created node := .inr (safe.confirmed_created node)
  confirmed_extended node := by
    rcases safe.confirmed_extended node with isFirst | extended
    · exact .inl isFirst
    · exact .inr (State.extended_create.mpr (.inr extended))
  vote_near node key skips voted := by
    obtain ⟨target, created, isKey, near⟩ := safe.vote_near node key skips voted
    exact ⟨target, .inr created, isKey, near⟩
  pending := by
    rintro top (rfl | topCreated) other (rfl | created) isChild unextended
    · exact absurd isChild (not_child_self _)
    · exact absurd isChild (safe.not_child_fresh fresh created)
    · exact .inl fun node votedFor => absurd votedFor.choose_spec (safe.not_voted fresh node _)
    · rw [State.extended_create, not_or] at unextended
      exact safe.pending top topCreated other created isChild unextended.2
  settled := safe.settled_create fresh
  path node := by
    apply (safe.path node).imp
    rintro before after ⟨beforeCreated, afterCreated, isChild, extended⟩
    exact ⟨.inr beforeCreated, .inr afterCreated, isChild,
      State.extended_create.mpr (.inr extended)⟩
  path_end := safe.path_end

/-- A block that has been created before changes nothing, and another one is fresh. -/
theorem create [DecidableEq ν] (safe : Safe voting state) {block parent : β}
    (parentCreated : parent ∈ state.created) (child : voting.Child block parent)
    (quorum : state.Quorum voting (voting.key parent) (voting.skips block))
    (keyed : ∀ other ∈ state.created, voting.key other = voting.key block → other = block)
    (unique : ∀ other ∈ state.created, voting.Child other parent →
      voting.skips other = voting.skips block → other = block) :
    Safe voting (state.create block) := by
  by_cases known : block ∈ state.created
  · have same : state.create block = state := by
      rw [State.create, Set.insert_eq_of_mem known]
    rwa [same]
  · exact safe.create_fresh ⟨parentCreated, child, quorum, keyed, unique, known⟩

theorem of_step [DecidableEq ν] (safe : Safe voting state) {next : State ν β κ}
    (taken : Step voting state next) : Safe voting next := by
  cases taken with
  | advance created child unpassed => exact safe.advance created child unpassed
  | stay passed => exact safe.stay passed
  | confirm created child extended => exact safe.confirm created child extended
  | create created child quorum keyed unique =>
      exact safe.create created child quorum keyed unique

theorem of_steps [DecidableEq ν] (safe : Safe voting state) {next : State ν β κ}
    (taken : Relation.ReflTransGen (Step voting) state next) : Safe voting next := by
  induction taken with
  | refl => exact safe
  | tail _ last ih => exact ih.of_step last

/-- What any two nodes have confirmed are prefixes of one another. -/
theorem agreement [DecidableEq ν] (safe : Safe voting state) (first second : ν) :
    state.log first <+: state.log second ∨ state.log second <+: state.log first :=
  prefix_or_prefix_of_isChain safe.next_unique (safe.path first) (safe.path second)

end Safe

end SkipVoting

end Ciphera.Lib
