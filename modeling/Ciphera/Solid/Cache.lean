import Mathlib.Data.Prod.Lex
import Ciphera.Lib.Entries
import Ciphera.Solid.Proposal

/-!
# The cache of proposals

A node keeps the proposals it knows by their hash: those that it has confirmed, down to some
height, and those that may still be confirmed.  Which of these is next is found by walking
down from the highest one that descends from the last confirmed proposal.

The order in which the hash map is iterated is the order of the entries of an association
list.
-/

namespace Ciphera.Solid

open Ciphera.Lib

variable {P S : Type}

/-- The proposals on top of the last confirmed one, by their hashes. -/
structure ProposalCache (P S : Type) [Peer P] where
  lastConfirmedProposalHash : ProposalHash
  proposals : AList fun _ : ProposalHash => Proposal P S
  cacheSize : Nat

namespace ProposalCache

section

variable [Peer P]

/-- Only the last confirmed proposal is known. -/
def new (lastConfirmedProposal : Proposal P S) (cacheSize : Nat) : ProposalCache P S where
  lastConfirmedProposalHash := lastConfirmedProposal.hash
  proposals := AList.singleton lastConfirmedProposal.hash lastConfirmedProposal
  cacheSize := cacheSize

variable (cache : ProposalCache P S)

/-- The proposal with a hash. -/
def get (hash : ProposalHash) : Option (Proposal P S) := cache.proposals.lookup hash

/-- A proposal with the hash is known. -/
def contains (hash : ProposalHash) : Bool := (cache.get hash).isSome

/-- The last confirmed proposal, which has to be known. -/
def lastConfirmedProposal : Except String (Proposal P S) :=
  match cache.get cache.lastConfirmedProposalHash with
  | some proposal => pure proposal
  | none => .error "called `Option::unwrap()` on a `None` value"

/-- The height of the last confirmed proposal. -/
def height : Except String Nat := do
  let proposal ← cache.lastConfirmedProposal
  pure proposal.height

/-- Add a proposal, in the place of one with the same hash. -/
def insert (proposal : Proposal P S) : ProposalCache P S :=
  { cache with proposals := cache.proposals.insert proposal.hash proposal }

/-- Drop the proposal with a hash. -/
def remove (hash : ProposalHash) : ProposalCache P S :=
  { cache with proposals := cache.proposals.erase hash }

/-- What is written through a reference to the proposal at a hash. -/
def write (hash : ProposalHash) (proposal : Proposal P S) : ProposalCache P S :=
  { cache with proposals := cache.proposals.replace hash proposal }

/-- The proposals, in the order of the map. -/
def values : List (Proposal P S) := cache.proposals.entries.map Sigma.snd

/-- Walk down from a proposal, one height at a time, to the proposal with a hash.  Each step
makes the height smaller, which bounds the number of steps. -/
def reaches (decendentHash : ProposalHash) : Nat → Proposal P S → Bool
  | steps, proposal =>
      if proposal.hash = decendentHash then true
      else
        match cache.get proposal.lastHash with
        | none => false
        | some nextDecendent =>
            if nextDecendent.height + 1 ≠ proposal.height then false
            else
              match steps with
              | 0 => false
              | steps + 1 => reaches decendentHash steps nextDecendent

/-- The walk down from the second hash meets the first one. -/
def isDecendent (decendentHash parentHash : ProposalHash) : Bool :=
  match cache.get parentHash with
  | none => false
  | some proposal => cache.reaches decendentHash proposal.height proposal

/-- By height and then by skips; of equal ones the last is taken. -/
def rank (proposal : Proposal P S) : Nat ×ₗ Nat := toLex (proposal.height, proposal.skips)

/-- The proposals above a height that descend from the last confirmed one. -/
def continuous (fromHeight : Nat) : List (Proposal P S) :=
  cache.values.filter fun proposal =>
    proposal.height > fromHeight &&
      cache.isDecendent cache.lastConfirmedProposalHash proposal.hash

/-- The highest proposal that descends from the last confirmed one. -/
def maxContinuousProposal : Except String (Option (Proposal P S)) := do
  let fromHeight ← cache.height
  pure ((cache.continuous fromHeight).reverse.argmax rank)

/-- Walk down from a proposal to a height. -/
def descend (target : Nat) : Nat → Proposal P S → Option (Proposal P S)
  | steps, proposal =>
      if proposal.height > target then
        match cache.get proposal.lastHash with
        | none => none
        | some nextProposal =>
            match steps with
            | 0 => none
            | steps + 1 => descend target steps nextProposal
      else some proposal

/-- The proposal at a height above the last confirmed one, on the way to the highest. -/
def nextPendingProposal (offset : Nat) : Except String (Option (Proposal P S)) := do
  match ← cache.maxContinuousProposal with
  | none => pure none
  | some proposal =>
      let height ← cache.height
      if proposal.height < height + 1 + offset then pure none
      else pure (cache.descend (height + 1 + offset) proposal.height proposal)

/-- Whether a proposal is of no use any more. -/
def redundant (confirmedHeight : Nat) (proposal : Proposal P S) : Bool :=
  match compare confirmedHeight proposal.height with
  | .gt => proposal.height + cache.cacheSize < confirmedHeight
  | .lt => !cache.isDecendent cache.lastConfirmedProposalHash proposal.hash
  | .eq => proposal.hash ≠ cache.lastConfirmedProposalHash

/-- Remove redundant proposals. -/
def purge : Except String (ProposalCache P S) := do
  let confirmedHeight ← cache.height
  let keysToRemove := (cache.proposals.entries.filter fun entry =>
    cache.redundant confirmedHeight entry.2).map Sigma.fst
  pure (keysToRemove.foldl remove cache)

/-- Confirm a proposal, and drop what does not stand on it. -/
def confirm (proposalHash : ProposalHash) : Except String (ProposalCache P S) :=
  purge { cache with lastConfirmedProposalHash := proposalHash }

end

/-! ## Walks -/

section

variable [Peer P] {cache : ProposalCache P S}

@[simp]
theorem get_new (proposal : Proposal P S) (cacheSize : Nat) (hash : ProposalHash) :
    (new proposal cacheSize).get hash = if hash = proposal.hash then some proposal else none := by
  let entry : Sigma fun _ : ProposalHash => Proposal P S := ⟨proposal.hash, proposal⟩
  change List.dlookup hash [entry] = _
  by_cases same : hash = proposal.hash
  · subst same
    rw [if_pos rfl]
    exact List.dlookup_cons_eq (β := fun _ : ProposalHash => Proposal P S) [] _ _
  · rw [List.dlookup_cons_ne _ _ same, if_neg same, List.dlookup_nil]

@[simp]
theorem get_insert (proposal : Proposal P S) (hash : ProposalHash) :
    (cache.insert proposal).get hash =
      if hash = proposal.hash then some proposal else cache.get hash := by
  by_cases same : hash = proposal.hash
  · subst same
    rw [if_pos rfl]
    exact AList.lookup_insert _
  · rw [if_neg same]
    exact AList.lookup_insert_ne same

@[simp]
theorem get_remove (removed hash : ProposalHash) :
    (cache.remove removed).get hash = if hash = removed then none else cache.get hash := by
  by_cases same : hash = removed
  · subst same
    rw [if_pos rfl]
    exact AList.lookup_erase _ _
  · rw [if_neg same]
    exact AList.lookup_erase_ne same

@[simp]
theorem get_write (written hash : ProposalHash) (proposal : Proposal P S) :
    (cache.write written proposal).get hash =
      (cache.get hash).map fun old => if hash = written then proposal else old :=
  lookup_replace written hash proposal cache.proposals

@[simp]
theorem get_write_self {hash : ProposalHash} {old : Proposal P S}
    (found : cache.get hash = some old) (proposal : Proposal P S) :
    (cache.write hash proposal).get hash = some proposal := by
  rw [get_write, found, Option.map_some, if_pos rfl]

@[simp]
theorem get_write_of_ne {written hash : ProposalHash} (differ : hash ≠ written)
    (proposal : Proposal P S) : (cache.write written proposal).get hash = cache.get hash := by
  rw [get_write]
  simp [differ]

@[simp]
theorem get_removeAll (removed : List ProposalHash) (hash : ProposalHash) :
    (removed.foldl remove cache).get hash =
      if hash ∈ removed then none else cache.get hash := by
  induction removed generalizing cache with
  | nil => simp
  | cons first removed ih =>
      rw [List.foldl_cons, ih, get_remove]
      by_cases later : hash ∈ removed
      · rw [if_pos later, if_pos (List.mem_cons_of_mem _ later)]
      · by_cases same : hash = first
        · simp [same]
        · simp [later, same]

@[simp]
theorem lastConfirmedProposalHash_removeAll (removed : List ProposalHash) :
    (removed.foldl remove cache).lastConfirmedProposalHash = cache.lastConfirmedProposalHash := by
  induction removed generalizing cache with
  | nil => rfl
  | cons first removed ih =>
      rw [List.foldl_cons, ih]
      rfl

@[simp]
theorem cacheSize_removeAll (removed : List ProposalHash) :
    (removed.foldl remove cache).cacheSize = cache.cacheSize := by
  induction removed generalizing cache with
  | nil => rfl
  | cons first removed ih =>
      rw [List.foldl_cons, ih]
      rfl

/-- Every proposal is kept under its own hash. -/
def Keyed (cache : ProposalCache P S) : Prop :=
  ∀ hash proposal, cache.get hash = some proposal → proposal.hash = hash

/-- A proposal is in the cache. -/
def Has (cache : ProposalCache P S) (proposal : Proposal P S) : Prop :=
  cache.get proposal.hash = some proposal

/-- A chain of proposals, each one height above the next, leads down to a hash. -/
inductive Descends (cache : ProposalCache P S) (target : ProposalHash) : Proposal P S → Prop
  | here {proposal : Proposal P S} (same : proposal.hash = target) : Descends cache target proposal
  | next {proposal parent : Proposal P S} (found : cache.get proposal.lastHash = some parent)
      (higher : parent.height + 1 = proposal.height) (rest : Descends cache target parent) :
      Descends cache target proposal

theorem Keyed.insert (keyed : cache.Keyed) (proposal : Proposal P S) :
    (cache.insert proposal).Keyed := by
  intro hash stored found
  rw [get_insert] at found
  split at found
  · rename_i same
    rw [← Option.some.inj found]
    exact same.symm
  · exact keyed hash stored found

theorem Keyed.remove (keyed : cache.Keyed) (removed : ProposalHash) :
    (cache.remove removed).Keyed := by
  intro hash stored found
  rw [get_remove] at found
  split at found
  · cases found
  · exact keyed hash stored found

theorem Keyed.write (keyed : cache.Keyed) {proposal : Proposal P S} {hash : ProposalHash}
    (same : proposal.hash = hash) : (cache.write hash proposal).Keyed := by
  intro other stored found
  rw [get_write] at found
  obtain ⟨old, foundOld, rfl⟩ := Option.map_eq_some_iff.mp found
  split
  · rename_i isOther
    rw [same, isOther]
  · exact keyed other old foundOld

theorem Keyed.has (keyed : cache.Keyed) {hash : ProposalHash} {proposal : Proposal P S}
    (found : cache.get hash = some proposal) : cache.Has proposal := by
  rw [Has, keyed hash proposal found]
  exact found

theorem mem_values_iff (keyed : cache.Keyed) {proposal : Proposal P S} :
    proposal ∈ cache.values ↔ cache.Has proposal := by
  rw [values, List.mem_map]
  constructor
  · rintro ⟨⟨hash, stored⟩, mem, rfl⟩
    exact keyed.has (mem_entries_iff.mp mem)
  · intro has
    exact ⟨⟨proposal.hash, proposal⟩, mem_entries_iff.mpr has, rfl⟩

theorem reaches_iff {target : ProposalHash} {steps : Nat} {proposal : Proposal P S}
    (enough : proposal.height ≤ steps) :
    cache.reaches target steps proposal = true ↔ cache.Descends target proposal := by
  constructor
  · intro reached
    clear enough
    induction steps generalizing proposal with
    | zero =>
        rw [reaches] at reached
        split at reached
        · rename_i same
          exact .here same
        · split at reached
          · cases reached
          · split at reached <;> cases reached
    | succ steps ih =>
        rw [reaches] at reached
        split at reached
        · rename_i same
          exact .here same
        · split at reached
          · cases reached
          · rename_i parent found
            split at reached
            · cases reached
            · rename_i higher
              exact .next found (not_not.mp higher) (ih reached)
  · intro descends
    induction descends generalizing steps with
    | here same =>
        rw [reaches, if_pos same]
    | @next proposal parent found higher _ ih =>
        rw [reaches, found]
        split
        · rfl
        · dsimp only
          rw [if_neg (not_not.mpr higher)]
          cases steps with
          | zero =>
              rw [← higher] at enough
              exact absurd enough (Nat.not_succ_le_zero _)
          | succ steps =>
              rw [← higher] at enough
              exact ih (Nat.le_of_succ_le_succ enough)

theorem isDecendent_iff (target : ProposalHash) {proposal : Proposal P S}
    (has : cache.Has proposal) :
    cache.isDecendent target proposal.hash = true ↔ cache.Descends target proposal := by
  rw [isDecendent, has]
  exact reaches_iff (le_refl _)

/-- Nothing descends from a proposal and is lower. -/
theorem Descends.height_le (keyed : cache.Keyed) {target proposal : Proposal P S}
    (hasTarget : cache.Has target) (has : cache.Has proposal)
    (descends : cache.Descends target.hash proposal) : target.height ≤ proposal.height := by
  induction descends with
  | here same =>
      rw [Has, same, hasTarget] at has
      rw [Option.some.inj has]
  | next found higher _ ih =>
      rw [← higher]
      exact (ih (keyed.has found)).trans (Nat.le_succ _)

/-- A proposal one height above the target descends from it directly. -/
theorem Descends.lastHash_eq (keyed : cache.Keyed) {target proposal : Proposal P S}
    (hasTarget : cache.Has target) (has : cache.Has proposal)
    (descends : cache.Descends target.hash proposal)
    (above : proposal.height = target.height + 1) : proposal.lastHash = target.hash := by
  cases descends with
  | here same =>
      rw [Has, same, hasTarget] at has
      rw [Option.some.inj has] at above
      exact absurd above (Nat.succ_ne_self _).symm
  | @next _ parent found higher rest =>
      have sameHeight : parent.height = target.height := by omega
      cases rest with
      | here same => rw [← keyed _ _ found, same]
      | next foundNext higherNext restNext =>
          have low := restNext.height_le keyed hasTarget (keyed.has foundNext)
          omega

/-- A walk down to a height above the target finds a proposal there, and unless it starts
there, one whose parent that is. -/
theorem exists_descend (keyed : cache.Keyed) {target proposal : Proposal P S} {height steps : Nat}
    (hasTarget : cache.Has target) (has : cache.Has proposal)
    (descends : cache.Descends target.hash proposal) (above : target.height < height)
    (reached : height ≤ proposal.height) (enough : proposal.height ≤ steps) :
    ∃ found, cache.descend height steps proposal = some found ∧ cache.Has found ∧
      found.height = height ∧ cache.Descends target.hash found ∧
      (found = proposal ∨ ∃ child, cache.Has child ∧ child.lastHash = found.hash ∧
        child.height = height + 1) := by
  induction steps generalizing proposal with
  | zero => omega
  | succ steps ih =>
      rw [descend]
      by_cases higher : proposal.height > height
      · rw [if_pos higher]
        cases descends with
        | here same =>
            rw [Has, same, hasTarget] at has
            rw [Option.some.inj has] at above
            omega
        | @next _ parent foundParent parentHeight rest =>
            rw [foundParent]
            obtain ⟨found, walked, hasFound, foundHeight, foundDescends, link⟩ :=
              ih (keyed.has foundParent) rest (by omega) (by omega)
            refine ⟨found, walked, hasFound, foundHeight, foundDescends, .inr ?_⟩
            rcases link with rfl | link
            · exact ⟨proposal, has, (keyed _ _ foundParent).symm, by omega⟩
            · exact link
      · rw [if_neg higher]
        exact ⟨proposal, rfl, has, by omega, descends, .inl rfl⟩

/-- A walk ends where it starts if that is low enough. -/
@[simp]
theorem descend_self {target : Nat} {proposal : Proposal P S} (low : proposal.height ≤ target)
    (steps : Nat) : cache.descend target steps proposal = some proposal := by
  have notHigher : ¬proposal.height > target := Nat.not_lt.mpr low
  cases steps <;> rw [descend, if_neg notHigher]

/-- The walk to the height below ends at the parent of where the longer walk ends. -/
theorem descend_parent (keyed : cache.Keyed) {target proposal child parent : Proposal P S}
    {height steps : Nat} (hasTarget : cache.Has target) (has : cache.Has proposal)
    (descends : cache.Descends target.hash proposal) (above : target.height < height)
    (walked : cache.descend (height + 1) steps proposal = some child)
    (childHeight : child.height = height + 1) (found : cache.get child.lastHash = some parent)
    (parentHeight : parent.height = height) (enough : proposal.height ≤ steps) :
    cache.descend height steps proposal = some parent := by
  induction steps generalizing proposal with
  | zero =>
      have notHigher : ¬proposal.height > height + 1 := by omega
      rw [descend, if_neg notHigher] at walked
      rw [Option.some.inj walked] at enough
      omega
  | succ steps ih =>
      rw [descend] at walked ⊢
      by_cases higher : proposal.height > height + 1
      · rw [if_pos higher] at walked
        rw [if_pos (Nat.lt_of_succ_lt higher)]
        cases descends with
        | here same =>
            rw [Has, same, hasTarget] at has
            rw [Option.some.inj has] at above
            omega
        | @next _ nextProposal foundNext nextHeight rest =>
            rw [foundNext] at walked ⊢
            exact ih (keyed.has foundNext) rest walked (by omega)
      · rw [if_neg higher] at walked
        obtain rfl := Option.some.inj walked
        rw [if_pos (by omega), found]
        exact descend_self (le_of_eq parentHeight) steps

/-! ## The next proposal -/

/-- What may be confirmed at some time: a proposal above the last confirmed one that
descends from it. -/
def Candidate (cache : ProposalCache P S) (last proposal : Proposal P S) : Prop :=
  cache.Has proposal ∧ last.height < proposal.height ∧ cache.Descends last.hash proposal

variable {last : Proposal P S}

theorem lastConfirmedProposal_eq
    (confirmed : cache.get cache.lastConfirmedProposalHash = some last) :
    cache.lastConfirmedProposal = .ok last := by
  rw [lastConfirmedProposal, confirmed]
  rfl

theorem height_eq (confirmed : cache.get cache.lastConfirmedProposalHash = some last) :
    cache.height = .ok last.height := by
  rw [height, lastConfirmedProposal_eq confirmed]
  rfl

theorem height_le_of_rank_le {first second : Proposal P S} (below : rank first ≤ rank second) :
    first.height ≤ second.height := by
  rw [rank, rank, Prod.Lex.toLex_le_toLex] at below
  rcases below with less | ⟨equal, _⟩
  · exact Nat.le_of_lt less
  · exact Nat.le_of_eq equal

theorem skips_le_of_rank_le {first second : Proposal P S} (below : rank first ≤ rank second)
    (same : first.height = second.height) : first.skips ≤ second.skips := by
  rw [rank, rank, Prod.Lex.toLex_le_toLex] at below
  rcases below with less | ⟨_, fewer⟩
  · exact absurd same (Nat.ne_of_lt less)
  · exact fewer

theorem mem_continuous_iff (keyed : cache.Keyed)
    (confirmed : cache.get cache.lastConfirmedProposalHash = some last)
    {proposal : Proposal P S} :
    proposal ∈ cache.continuous last.height ↔ cache.Candidate last proposal := by
  have lastHash : cache.lastConfirmedProposalHash = last.hash := (keyed _ _ confirmed).symm
  rw [continuous, List.mem_filter, mem_values_iff keyed, Bool.and_eq_true, decide_eq_true_iff,
    Candidate, lastHash]
  constructor
  · rintro ⟨has, higher, descends⟩
    exact ⟨has, higher, (isDecendent_iff _ has).mp descends⟩
  · rintro ⟨has, higher, descends⟩
    exact ⟨has, higher, (isDecendent_iff _ has).mpr descends⟩

theorem maxContinuousProposal_eq
    (confirmed : cache.get cache.lastConfirmedProposalHash = some last) :
    cache.maxContinuousProposal =
      .ok ((cache.continuous last.height).reverse.argmax rank) := by
  rw [maxContinuousProposal, height_eq confirmed]
  rfl

/-- What is found at a height above the last confirmed proposal. -/
structure IsNext (cache : ProposalCache P S) (last : Proposal P S) (offset : Nat)
    (top next : Proposal P S) : Prop where
  isTop : cache.maxContinuousProposal = .ok (some top)
  candidate : cache.Candidate last top
  highest : ∀ proposal, cache.Candidate last proposal → rank proposal ≤ rank top
  walked : cache.descend (last.height + 1 + offset) top.height top = some next
  has : cache.Has next
  height_eq : next.height = last.height + 1 + offset
  descends : cache.Descends last.hash next
  link : next = top ∨ ∃ child, cache.Has child ∧ child.lastHash = next.hash ∧
    child.height = last.height + 1 + offset + 1

/-- There is a next proposal as soon as a candidate is high enough. -/
theorem nextPendingProposal_cases (keyed : cache.Keyed)
    (confirmed : cache.get cache.lastConfirmedProposalHash = some last) (offset : Nat) :
    (cache.nextPendingProposal offset = .ok none ∧ ∀ proposal, cache.Candidate last proposal →
      proposal.height < last.height + 1 + offset) ∨
    ∃ top next, cache.nextPendingProposal offset = .ok (some next) ∧
      cache.IsNext last offset top next := by
  have found := maxContinuousProposal_eq confirmed
  have memIff := @mem_continuous_iff _ _ _ cache last keyed confirmed
  cases isTop : (cache.continuous last.height).reverse.argmax rank with
  | none =>
      apply Or.inl
      constructor
      · rw [nextPendingProposal, found, isTop]
        rfl
      · intro proposal candidate
        have mem := List.mem_reverse.mpr (memIff.mpr candidate)
        rw [List.argmax_eq_none.mp isTop] at mem
        exact absurd mem List.not_mem_nil
  | some top =>
      rw [isTop] at found
      have candidate := memIff.mp (List.mem_reverse.mp (List.argmax_mem isTop))
      have isHighest : ∀ proposal, cache.Candidate last proposal → rank proposal ≤ rank top := by
        intro proposal isCandidate
        exact List.le_of_mem_argmax (List.mem_reverse.mpr (memIff.mpr isCandidate)) isTop
      by_cases low : top.height < last.height + 1 + offset
      · apply Or.inl
        constructor
        · rw [nextPendingProposal, found, ok_bind]
          dsimp only
          rw [height_eq confirmed, ok_bind, if_pos low]
          rfl
        · intro proposal isCandidate
          exact (height_le_of_rank_le (isHighest proposal isCandidate)).trans_lt low
      · obtain ⟨has, above, descends⟩ := candidate
        have hasLast := keyed.has confirmed
        obtain ⟨next, walked, hasNext, nextHeight, nextDescends, link⟩ :=
          exists_descend keyed hasLast has descends
            (Nat.lt_of_lt_of_le (Nat.lt_succ_self last.height) (Nat.le_add_right _ offset))
            (Nat.le_of_not_lt low) (le_refl _)
        refine .inr ⟨top, next, ?_, found, ⟨has, above, descends⟩, isHighest, walked, hasNext,
          nextHeight,
          nextDescends, link⟩
        rw [nextPendingProposal, found, ok_bind]
        dsimp only
        rw [height_eq confirmed, ok_bind, if_neg low, walked]
        rfl

theorem isNext_of_some (keyed : cache.Keyed)
    (confirmed : cache.get cache.lastConfirmedProposalHash = some last) {offset : Nat}
    {next : Proposal P S} (found : cache.nextPendingProposal offset = .ok (some next)) :
    ∃ top, cache.IsNext last offset top next := by
  rcases nextPendingProposal_cases keyed confirmed offset with
    ⟨absent, _⟩ | ⟨top, other, present, isNext⟩
  · rw [absent] at found
    cases found
  · rw [present] at found
    obtain rfl := Option.some.inj (Except.ok.inj found)
    exact ⟨top, isNext⟩

/-- A child of the last confirmed proposal is a candidate. -/
theorem candidate_of_child (confirmed : cache.Has last) {proposal : Proposal P S}
    (has : cache.Has proposal) (child : proposal.lastHash = last.hash)
    (higher : proposal.height = last.height + 1) : cache.Candidate last proposal := by
  refine ⟨has, by omega, .next ?_ higher.symm (.here rfl)⟩
  rw [child]
  exact confirmed

namespace IsNext

variable {top next : Proposal P S}

theorem lastHash_eq (isNext : cache.IsNext last 0 top next) (keyed : cache.Keyed)
    (confirmed : cache.Has last) : next.lastHash = last.hash :=
  isNext.descends.lastHash_eq keyed confirmed isNext.has isNext.height_eq

/-- The next proposal has the most skips of all children of the last confirmed one, unless
it has a child itself. -/
theorem exists_child (isNext : cache.IsNext last 0 top next) (confirmed : cache.Has last)
    {proposal : Proposal P S} (has : cache.Has proposal) (child : proposal.lastHash = last.hash)
    (higher : proposal.height = last.height + 1) (fewer : next.skips < proposal.skips) :
    ∃ grandchild, cache.Has grandchild ∧ grandchild.lastHash = next.hash ∧
      grandchild.height = next.height + 1 := by
  rcases isNext.link with rfl | ⟨grandchild, hasGrandchild, link, grandchildHeight⟩
  · have below := isNext.highest proposal (candidate_of_child confirmed has child higher)
    have sameHeight := higher.trans isNext.height_eq.symm
    exact absurd (skips_le_of_rank_le below sameHeight) (Nat.not_le.mpr fewer)
  · refine ⟨grandchild, hasGrandchild, link, ?_⟩
    rw [grandchildHeight, isNext.height_eq]

/-- The proposal after the next one is a child of it. -/
theorem lastHash_eq_next (keyed : cache.Keyed)
    (confirmed : cache.get cache.lastConfirmedProposalHash = some last)
    {after : Proposal P S} (foundNext : cache.nextPendingProposal 0 = .ok (some next))
    (foundAfter : cache.nextPendingProposal 1 = .ok (some after)) :
    after.lastHash = next.hash := by
  have hasLast := keyed.has confirmed
  obtain ⟨top, isAfter⟩ := isNext_of_some keyed confirmed foundAfter
  obtain ⟨other, isNext⟩ := isNext_of_some keyed confirmed foundNext
  have sameTop := isNext.isTop.symm.trans isAfter.isTop
  obtain rfl := Option.some.inj (Except.ok.inj sameTop)
  have afterHeight := isAfter.height_eq
  cases isAfter.descends with
  | here same =>
      have has := isAfter.has
      rw [Has, same, hasLast] at has
      rw [← Option.some.inj has] at afterHeight
      omega
  | @next _ parent found higher rest =>
      have walked := descend_parent keyed hasLast isAfter.candidate.1 isAfter.candidate.2.2
        (Nat.lt_succ_self last.height) isAfter.walked afterHeight found (by omega) (le_refl _)
      have walkedNext := isNext.walked
      rw [Nat.add_zero, walked] at walkedNext
      rw [← Option.some.inj walkedNext]
      exact (keyed _ _ found).symm

end IsNext

/-! ## Confirming -/

/-- Confirming a cached proposal keeps it, and of the others nothing new appears. -/
theorem exists_confirm (has : cache.Has last) :
    ∃ confirmed, cache.confirm last.hash = .ok confirmed ∧
      confirmed.lastConfirmedProposalHash = last.hash ∧
      confirmed.get last.hash = some last ∧
      ∀ hash proposal, confirmed.get hash = some proposal → cache.get hash = some proposal := by
  let pointed : ProposalCache P S := { cache with lastConfirmedProposalHash := last.hash }
  let removed := (pointed.proposals.entries.filter fun entry =>
    pointed.redundant last.height entry.2).map Sigma.fst
  have confirmedHeight : pointed.height = .ok last.height := height_eq has
  refine ⟨removed.foldl remove pointed, ?_, lastConfirmedProposalHash_removeAll _, ?_, ?_⟩
  · change pointed.purge = _
    rw [purge, confirmedHeight]
    rfl
  · rw [get_removeAll, if_neg]
    · exact has
    · rw [List.mem_map]
      rintro ⟨⟨hash, stored⟩, mem, sameHash⟩
      rw [List.mem_filter] at mem
      obtain rfl : hash = last.hash := sameHash
      have isLast := has.symm.trans (mem_entries_iff.mp mem.1)
      obtain rfl := Option.some.inj isLast
      have kept := mem.2
      simp [redundant, pointed] at kept
  · intro hash proposal found
    rw [get_removeAll] at found
    split at found
    · cases found
    · exact found

/-- Whatever is confirmed, the cache has nothing new after it. -/
theorem subset_of_confirm {hash : ProposalHash} {confirmed : ProposalCache P S}
    (returned : cache.confirm hash = .ok confirmed) :
    (∀ other proposal, confirmed.get other = some proposal → cache.get other = some proposal) ∧
      confirmed.cacheSize = cache.cacheSize := by
  rw [confirm, purge, bind_eq_ok_iff] at returned
  obtain ⟨confirmedHeight, _, returned⟩ := returned
  obtain rfl := Except.ok.inj returned
  constructor
  · intro other proposal found
    rw [get_removeAll] at found
    split at found
    · cases found
    · exact found
  · exact cacheSize_removeAll _

/-! ## Changes that keep the chain -/

/-- The cache with every proposal changed. -/
def transform (change : Proposal P S → Proposal P S) (cache : ProposalCache P S) :
    ProposalCache P S :=
  { cache with
    proposals := ⟨cache.proposals.entries.map (Sigma.map id fun _ => change), by
      rw [List.NodupKeys, List.keys, List.map_map]
      exact cache.proposals.nodupKeys⟩ }

/-- A change keeps the hash and the manifest of every proposal. -/
def Keeps (change : Proposal P S → Proposal P S) : Prop :=
  ∀ proposal, (change proposal).hash = proposal.hash ∧
    (change proposal).manifest = proposal.manifest

/-- Change what is recorded of the proposal with a hash, and of no other. -/
def changeAt (hash : ProposalHash) (changed proposal : Proposal P S) : Proposal P S :=
  if proposal.hash = hash then
    { changed with hash := proposal.hash, manifest := proposal.manifest }
  else proposal

theorem keeps_changeAt (hash : ProposalHash) (changed : Proposal P S) :
    Keeps (changeAt hash changed) := by
  intro proposal
  rw [changeAt]
  split <;> exact ⟨rfl, rfl⟩

@[simp]
theorem changeAt_of_ne {hash : ProposalHash} {proposal : Proposal P S}
    (differ : proposal.hash ≠ hash) (changed : Proposal P S) :
    changeAt hash changed proposal = proposal :=
  if_neg differ

theorem changeAt_self {changed proposal : Proposal P S} (sameHash : changed.hash = proposal.hash)
    (sameManifest : changed.manifest = proposal.manifest) :
    changeAt proposal.hash changed proposal = changed := by
  rw [changeAt, if_pos rfl, ← sameHash, ← sameManifest]

@[simp]
theorem get_transform (change : Proposal P S → Proposal P S) (hash : ProposalHash) :
    (cache.transform change).get hash = (cache.get hash).map change :=
  List.dlookup_map₂ hash

theorem write_eq_transform (keyed : cache.Keyed) {proposal changed : Proposal P S}
    (has : cache.Has proposal) (sameHash : changed.hash = proposal.hash)
    (sameManifest : changed.manifest = proposal.manifest) :
    cache.write proposal.hash changed = cache.transform (changeAt proposal.hash changed) := by
  rw [write, transform]
  congr 1
  apply AList.ext
  change cache.proposals.entries.kreplace proposal.hash changed = _
  rw [kreplace_eq_map _ _ cache.proposals.nodupKeys]
  apply List.map_congr_left
  rintro ⟨other, stored⟩ mem
  have found := mem_entries_iff.mp mem
  have storedHash := keyed other stored found
  simp only [Sigma.map, id_eq]
  by_cases same : other = proposal.hash
  · subst same
    obtain rfl := Option.some.inj (has.symm.trans found)
    rw [if_pos rfl, changeAt_self sameHash sameManifest]
  · rw [if_neg same, changeAt_of_ne (storedHash.symm ▸ same)]

theorem write_self {proposal : Proposal P S} (has : cache.Has proposal) :
    cache.write proposal.hash proposal = cache := by
  rw [write]
  congr 1
  apply AList.ext
  exact List.kreplace_self cache.proposals.nodupKeys (mem_entries_iff.mpr has)

@[simp]
theorem write_write (hash : ProposalHash) (first second : Proposal P S) :
    (cache.write hash first).write hash second = cache.write hash second := by
  rw [write, write, write]
  congr 1
  apply AList.ext
  change ((cache.proposals.entries.kreplace hash first).kreplace hash second) =
    cache.proposals.entries.kreplace hash second
  have distinct : (cache.proposals.entries.kreplace hash first).NodupKeys :=
    (List.kreplace_nodupKeys _ _).mpr cache.proposals.nodupKeys
  rw [kreplace_eq_map _ _ distinct, kreplace_eq_map _ _ cache.proposals.nodupKeys,
    kreplace_eq_map _ _ cache.proposals.nodupKeys, List.map_map]
  apply List.map_congr_left
  rintro ⟨other, stored⟩ _
  by_cases same : other = hash <;> simp [Sigma.map, same]

section

variable {change : Proposal P S → Proposal P S} (keeps : Keeps change)

include keeps

theorem Keeps.height (proposal : Proposal P S) : (change proposal).height = proposal.height := by
  rw [Proposal.height, (keeps proposal).2]
  rfl

theorem Keeps.rank (proposal : Proposal P S) : rank (change proposal) = rank proposal := by
  rw [ProposalCache.rank, keeps.height, Proposal.skips, (keeps proposal).2]
  rfl

theorem reaches_transform (target : ProposalHash) (steps : Nat) (proposal : Proposal P S) :
    (cache.transform change).reaches target steps (change proposal) =
      cache.reaches target steps proposal := by
  have lastHash : ∀ proposal, (change proposal).lastHash = proposal.lastHash := by
    intro proposal
    rw [Proposal.lastHash, (keeps proposal).2]
    rfl
  induction steps generalizing proposal with
  | zero =>
      rw [reaches, reaches, (keeps proposal).1, lastHash, get_transform]
      cases cache.get proposal.lastHash with
      | none => rfl
      | some parent => simp only [Option.map_some, keeps.height]
  | succ steps ih =>
      rw [reaches, reaches, (keeps proposal).1, lastHash, get_transform]
      cases cache.get proposal.lastHash with
      | none => rfl
      | some parent => simp only [Option.map_some, keeps.height, ih]

theorem descend_transform (height steps : Nat) (proposal : Proposal P S) :
    (cache.transform change).descend height steps (change proposal) =
      (cache.descend height steps proposal).map change := by
  have lastHash : ∀ proposal, (change proposal).lastHash = proposal.lastHash := by
    intro proposal
    rw [Proposal.lastHash, (keeps proposal).2]
    rfl
  induction steps generalizing proposal with
  | zero =>
      rw [descend, descend, keeps.height, lastHash, get_transform]
      cases cache.get proposal.lastHash <;> by_cases higher : proposal.height > height <;>
        simp [higher]
  | succ steps ih =>
      rw [descend, descend, keeps.height, lastHash, get_transform]
      cases cache.get proposal.lastHash <;> by_cases higher : proposal.height > height <;>
        simp [higher, ih]

theorem isDecendent_transform (target hash : ProposalHash) :
    (cache.transform change).isDecendent target hash = cache.isDecendent target hash := by
  rw [isDecendent, isDecendent, get_transform]
  cases cache.get hash with
  | none => rfl
  | some proposal => simp only [Option.map_some, keeps.height, reaches_transform keeps]

theorem continuous_transform (fromHeight : Nat) :
    (cache.transform change).continuous fromHeight = (cache.continuous fromHeight).map change := by
  have valuesEq : (cache.transform change).values = cache.values.map change := by
    simp [values, transform, Function.comp_def, Sigma.map]
  rw [continuous, continuous, valuesEq, List.filter_map]
  congr 1
  apply List.filter_congr
  intro proposal _
  simp only [Function.comp_apply, keeps.height, (keeps proposal).1, isDecendent_transform keeps]
  rfl

/-- What is next depends on the hashes and manifests only. -/
theorem nextPendingProposal_transform
    (confirmed : cache.get cache.lastConfirmedProposalHash = some last) (offset : Nat) :
    (cache.transform change).nextPendingProposal offset =
      Option.map change <$> cache.nextPendingProposal offset := by
  have changedConfirmed : (cache.transform change).get
      (cache.transform change).lastConfirmedProposalHash = some (change last) := by
    change (cache.transform change).get cache.lastConfirmedProposalHash = _
    rw [get_transform, confirmed]
    rfl
  have sameRank : rank ∘ change = rank := funext keeps.rank
  rw [nextPendingProposal, nextPendingProposal, maxContinuousProposal_eq changedConfirmed,
    maxContinuousProposal_eq confirmed, keeps.height, continuous_transform keeps,
    ← List.map_reverse, argmax_map, sameRank]
  cases (cache.continuous last.height).reverse.argmax rank with
  | none => rfl
  | some top =>
      simp only [Option.map_some, ok_bind, height_eq changedConfirmed, height_eq confirmed,
        keeps.height, descend_transform keeps]
      by_cases low : top.height < last.height + 1 + offset
      · rw [if_pos low, if_pos low]
        rfl
      · rw [if_neg low, if_neg low]
        rfl

end

end

end ProposalCache

end Ciphera.Solid
