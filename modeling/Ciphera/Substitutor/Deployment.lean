import Ciphera.Substitutor.Passing
import Ciphera.Substitutor.Payments

/-!
# The substitutor with its node and the contract

The runs of the world take two things for granted: that the node answers with pages of a
listing in order, and that a burn is paid ahead once.  Here the node is a chain that is
listed the way the node lists it, and burns are paid ahead by calls of the rollup
contract, among all the other calls that it takes.  Both are derived: a run of these three
is a run of the world.
-/

namespace Ciphera.Substitutor

open Ciphera.Lib Ciphera.Noir Ciphera.Zk
open Ciphera.Node (Ascending BlockFormat ListTxnsPosition chainStore chainTxns
  fetchBlocksNonEmptyPaginated height_of_mem_positioned listTxnsInner)
open Ciphera.Rollup (Address Burn Externals RollupV1 Substitution Tracks)

/-! ## The node and the contract -/

/-- The positions in the blocks of a chain fit into 64 bits. -/
structure Listable (blocks : List BlockFormat) : Prop where
  ascending : Ascending blocks
  short : ∀ item ∈ chainTxns .lowestToHighest blocks, item.1.txn < 2 ^ 64

/-- The contract answers with a height, and the node with the transactions that it lists. -/
structure Answers (poseidon : Poseidon) (keccak : Keccak) (decoders : Decoders)
    (blocks : List BlockFormat) (transcript : Transcript) : Prop where
  height : ∀ lastRollup, ⟨.blockHeight, .ok lastRollup⟩ ∈ transcript → lastRollup < 2 ^ 64
  pages : ∀ cursor answer page, ⟨.fetchTransactions (some cursor), answer⟩ ∈ transcript →
    fetchOutcome decoders answer = .ok page → ∃ now maxHeight,
      listTxnsInner poseidon now (fetchBlocksNonEmptyPaginated (chainStore poseidon keccak blocks))
        ⟨none, some cursor, .oldestToNewest⟩ maxHeight = .ok (page.2, page.1)

/-- The substitutor, the chain of the node and the contract, with the substitutions that the
contract has made and what the substitutor has sent. -/
structure Deployment (W : Type) where
  substitutor : BurnSubstitutor
  blocks : List BlockFormat := []
  contract : RollupV1 W
  early : List Substitution := []
  commits : List Commit := []
  burns : List (ListTxnsPosition × Burn × Nat) := []

/-- The burns that an address has paid ahead. -/
def paidAhead (substitutor : Address) (early : List Substitution) : List (Burn × Nat) :=
  (early.filter fun substitution => substitution.substitutor = substitutor).map fun substitution =>
    (substitution.burn, substitution.burnBlockHeight.toNat)

namespace Deployment

variable {W : Type}

/-- What happens in a deployment, in any order. -/
inductive Event (W : Type)
  | stored (format : BlockFormat)
  | ticked (transcript : Transcript)
  | called (action : RollupV1.Action W)

/-- The burns that come from the address of the substitutor are those that it has sent. -/
def Sends (deployment : Deployment W) : RollupV1.Action W → Prop
  | .accepted env (.substituteBurn burnAddress noteKind hash amount burnBlockHeight) =>
      env.sender = deployment.substitutor.substitutorAddress →
        ∃ origin height, (origin, ⟨hash, burnAddress, noteKind, amount⟩, height) ∈
          deployment.burns ∧ burnBlockHeight = BitVec.ofNat 256 height
  | _ => True

/-- The node stores a block, the substitutor ticks, or the contract is called by anyone. -/
inductive Step (poseidon : Poseidon) (keccak : Keccak) (decoders : Decoders)
    (externals : Externals W) (here : Address) : Deployment W → Event W → Deployment W → Prop
  | stored {deployment : Deployment W} {format : BlockFormat} :
      Listable (deployment.blocks ++ [format]) →
      Step poseidon keccak decoders externals here deployment (.stored format)
        { deployment with blocks := deployment.blocks ++ [format] }
  | ticked {deployment : Deployment W} {transcript : Transcript} {next : BurnSubstitutor}
      {result : Except (Stop Report) (List Element)} :
      (deployment.substitutor.tick decoders).Plays transcript (.ok (next, result)) →
      Answers poseidon keccak decoders deployment.blocks transcript →
      Step poseidon keccak decoders externals here deployment (.ticked transcript)
        { deployment with
          substitutor := next
          commits := deployment.commits ++ commitsOf transcript
          burns := deployment.burns ++ burnsOf transcript }
  | called {deployment : Deployment W} {action : RollupV1.Action W} {next : RollupV1 W} :
      RollupV1.Step externals here deployment.contract action next →
      RollupV1.Paying action → deployment.Sends action →
      Step poseidon keccak decoders externals here deployment (.called action)
        { deployment with
          contract := next
          early := deployment.early ++ deployment.contract.substitutions action }

/-- The part of a deployment that the world has. -/
def world (deployment : Deployment W) : World where
  substitutor := deployment.substitutor
  listing := chainTxns .lowestToHighest deployment.blocks
  commits := deployment.commits
  burns := deployment.burns
  substituted := paidAhead deployment.substitutor.substitutorAddress deployment.early

end Deployment

/-! ## Pages of the node -/

/-- A cursor that the substitutor can have. -/
def IsPlace (cursor : CursorChoice ListTxnsPosition) : Prop :=
  ∃ after, cursor = .after after ∧ IsCursor after ∧ after.inner.block < 2 ^ 64

section

variable {poseidon : Poseidon} {keccak : Keccak} {decoders : Decoders} {blocks : List BlockFormat}
  {substitutor next : BurnSubstitutor} {transcript : Transcript}
  {cursor : CursorChoice ListTxnsPosition}

theorem listable_nil : Listable [] where
  ascending := ⟨.nil, fun _ mem => absurd mem List.not_mem_nil⟩
  short _ mem := absurd mem List.not_mem_nil

@[simp]
theorem chainTxns_snoc (blocks : List BlockFormat) (format : BlockFormat) :
    chainTxns .lowestToHighest (blocks ++ [format]) =
      chainTxns .lowestToHighest blocks ++ format.positioned := by
  change (blocks ++ [format]).flatMap BlockFormat.positioned =
    blocks.flatMap BlockFormat.positioned ++ _
  rw [List.flatMap_append, List.flatMap_singleton]

theorem Listable.block_lt (listable : Listable blocks) {item : ListTxnsPosition × UtxoProof}
    (mem : item ∈ chainTxns .lowestToHighest blocks) : item.1.block < 2 ^ 64 := by
  rcases List.mem_flatMap.mp mem with ⟨format, isBlock, inBlock⟩
  rw [height_of_mem_positioned inBlock]
  exact listable.ascending.fits format isBlock

theorem isPlace_of_position {position : ListTxnsPosition} (fits : position.block < 2 ^ 64) :
    IsPlace (.after (.afterInclusive position)) :=
  ⟨_, rfl, .next position, fits⟩

/-- The cursor with which a tick fetches. -/
theorem Started.isPlace {first : Transcript} (started : Started substitutor cursor first)
    (own : ∀ cursor, substitutor.cursor = some cursor → IsPlace cursor)
    (heights : ∀ lastRollup, ⟨.blockHeight, .ok lastRollup⟩ ∈ first → lastRollup < 2 ^ 64) :
    IsPlace cursor := by
  cases started with
  | running same => exact own cursor same
  | @begun lastRollup _ isStart =>
      exact ⟨_, isStart, .start lastRollup, heights lastRollup List.mem_cons_self⟩

theorem Ticked.fetches (ticked : Ticked decoders substitutor next transcript)
    (answers : Answers poseidon keccak decoders blocks transcript)
    (own : ∀ cursor, substitutor.cursor = some cursor → IsPlace cursor) :
    ∀ fetched ∈ fetchesOf transcript, ∃ cursor, fetched = some cursor ∧ IsPlace cursor := by
  apply ticked.holds (additive_fetchesOnly fun fetched =>
    ∃ cursor, fetched = some cursor ∧ IsPlace cursor)
  · exact fun _ _ mem => absurd mem List.not_mem_nil
  · intro cursor first answer started inside fetched mem
    refine ⟨cursor, List.mem_singleton.mp mem, started.isPlace own fun lastRollup isFirst => ?_⟩
    exact answers.height lastRollup (inside isFirst)
  · exact fun _ _ _ _ _ txn _ => fetchesOnly_processTxn _ txn

/-- What the node answers in a tick are pages of its listing. -/
theorem Ticked.honest (ticked : Ticked decoders substitutor next transcript)
    (listable : Listable blocks) (answers : Answers poseidon keccak decoders blocks transcript)
    (own : ∀ cursor, substitutor.cursor = some cursor → IsPlace cursor) :
    Honest decoders (chainTxns .lowestToHighest blocks) transcript := by
  intro cursor answer page mem fetched
  have isFetch : some cursor ∈ fetchesOf transcript :=
    List.mem_filterMap.mpr ⟨_, mem, rfl⟩
  rcases ticked.fetches answers own _ isFetch with ⟨_, same, after, rfl, isCursor, fits⟩
  rcases Option.some.inj same with rfl
  rcases answers.pages _ answer page mem fetched with ⟨now, maxHeight, listed⟩
  rcases isPage_listTxnsInner poseidon keccak now maxHeight listable.ascending listable.short
    isCursor fits with ⟨txns, answered, isPage⟩
  rcases Prod.mk.inj (Except.ok.inj (listed.symm.trans answered)) with ⟨isNext, isTxns⟩
  rw [← isNext, ← isTxns] at isPage
  exact isPage

theorem Ticked.address (ticked : Ticked decoders substitutor next transcript) :
    next.substitutorAddress = substitutor.substitutorAddress := by
  cases ticked with
  | unstarted _ isNext => rw [isNext]
  | failed _ _ isNext => rw [isNext]
  | swept _ swept => rw [swept.next]

/-- The cursor after a tick. -/
theorem Ticked.isPlace (ticked : Ticked decoders substitutor next transcript)
    (listable : Listable blocks) (answers : Answers poseidon keccak decoders blocks transcript)
    (own : ∀ cursor, substitutor.cursor = some cursor → IsPlace cursor) :
    ∀ cursor, next.cursor = some cursor → IsPlace cursor := by
  have honest := ticked.honest listable answers own
  cases ticked with
  | unstarted _ isNext => exact isNext ▸ own
  | failed started _ isNext =>
      intro moved isMoved
      rw [isNext] at isMoved
      rcases Option.some.inj isMoved with rfl
      exact started.isPlace own fun lastRollup isFirst =>
        answers.height lastRollup (List.mem_append_left _ isFirst)
  | @swept cursor first later answer page parts started swept =>
      intro moved isMoved
      have isPage : IsPage (chainTxns .lowestToHighest blocks) cursor page := by
        apply honest cursor answer page _ swept.fetched
        rw [swept.transcript]
        exact List.mem_append_right _ List.mem_cons_self
      rcases swept.moves (sorted_chainTxns listable.ascending) isPage with
        stays | ⟨last, mem, isLast, _, _⟩
      · rw [stays] at isMoved
        rcases Option.some.inj isMoved with rfl
        exact started.isPlace own fun lastRollup isFirst =>
          answers.height lastRollup (List.mem_append_left _ isFirst)
      · rw [isLast] at isMoved
        rcases Option.some.inj isMoved with rfl
        exact isPlace_of_position (listable.block_lt mem)

theorem block_of_burnKey? {item : ListTxnsPosition × UtxoProof} {key : Burn × Nat}
    (isKey : burnKey? item = some key) : key.2 = item.1.block := by
  rw [burnKey?] at isKey
  split at isKey
  · split_ifs at isKey
    rw [← Option.some.inj isKey]
  · cases isKey
  · cases isKey

/-- The burns that a tick sends have heights of the chain. -/
theorem Ticked.burnHeights (ticked : Ticked decoders substitutor next transcript)
    (listable : Listable blocks)
    (honest : Honest decoders (chainTxns .lowestToHighest blocks) transcript) :
    ∀ sent ∈ burnsOf transcript, sent.2.2 < 2 ^ 64 := by
  intro sent mem
  rcases ticked.burnsOnly (sorted_chainTxns listable.ascending) honest sent mem with
    ⟨item, isListed, isKey⟩
  rw [block_of_burnKey? isKey]
  exact listable.block_lt isListed

end

/-! ## Substitutions of the contract -/

section

variable {W : Type} {externals : Externals W} {here substitutor : Address} {env : Rollup.Env}
  {contract next : RollupV1 W} {early : List Substitution} {burn : Burn}

/-- The contract does not pay ahead what it has paid ahead before. -/
theorem first_of_substituteBurn {scope : List (Burn × Element)} {burnBlockHeight : Element}
    (tracks : Tracks externals.keccak scope early contract.state.storage.substitutedBurns)
    (done : contract.substituteBurn externals here env burn.burnAddress burn.noteKind burn.hash
      burn.amount burnBlockHeight = .ok next) :
    (burn, burnBlockHeight) ∉ early.map fun substitution =>
      (substitution.burn, substitution.burnBlockHeight) := by
  intro again
  rcases List.mem_map.mp again with ⟨substitution, mem, same⟩
  rcases tracks.recorded substitution mem with ⟨nonzero, recorded⟩
  rw [same] at recorded
  exact nonzero (recorded.symm.trans (RollupV1.substitutes_of_substituteBurn done).first)

@[simp]
theorem paidAhead_append (earlier later : List Substitution) :
    paidAhead substitutor (earlier ++ later) =
      paidAhead substitutor earlier ++ paidAhead substitutor later := by
  rw [paidAhead, List.filter_append, List.map_append]
  rfl

/-- What someone else pays ahead does not count. -/
theorem paidAhead_other {substitution : Substitution}
    (other : substitution.substitutor ≠ substitutor) : paidAhead substitutor [substitution] = [] := by
  rw [paidAhead, List.filter_cons_of_neg (by rwa [decide_eq_true_eq])]
  rfl

theorem paidAhead_own {substitution : Substitution}
    (own : substitution.substitutor = substitutor) :
    paidAhead substitutor [substitution] =
      [(substitution.burn, substitution.burnBlockHeight.toNat)] := by
  rw [paidAhead, List.filter_cons_of_pos (by rwa [decide_eq_true_eq])]
  rfl

theorem mem_of_paidAhead {height : Nat} (mem : (burn, height) ∈ paidAhead substitutor early) :
    (burn, BitVec.ofNat 256 height) ∈ early.map fun substitution =>
      (substitution.burn, substitution.burnBlockHeight) := by
  rcases List.mem_map.mp mem with ⟨substitution, isOwn, same⟩
  refine List.mem_map.mpr ⟨substitution, List.mem_of_mem_filter isOwn, ?_⟩
  rw [← (Prod.mk.inj same).1, ← (Prod.mk.inj same).2, BitVec.ofNat_toNat, BitVec.setWidth_eq]

end

/-! ## Runs of a deployment are runs of the world -/

namespace Deployment

variable {W : Type} {poseidon : Poseidon} {keccak : Keccak} {decoders : Decoders}
  {externals : Externals W} {here : Address} {deployment target : Deployment W} {event : Event W}

/-- What holds in every run of a deployment. -/
structure Sound (externals : Externals W) (deployment : Deployment W) : Prop where
  listable : Listable deployment.blocks
  places : ∀ cursor, deployment.substitutor.cursor = some cursor → IsPlace cursor
  heights : ∀ sent ∈ deployment.burns, sent.2.2 < 2 ^ 64
  tracks : Tracks externals.keccak [] deployment.early
    deployment.contract.state.storage.substitutedBurns

theorem Sound.step (sound : deployment.Sound externals)
    (taken : Step poseidon keccak decoders externals here deployment event target) :
    target.Sound externals := by
  cases taken with
  | stored listable => exact { sound with listable }
  | ticked plays answers =>
      have ticked := ticked_of_tick plays
      have honest := ticked.honest sound.listable answers sound.places
      exact { sound with
        places := ticked.isPlace sound.listable answers sound.places
        heights := List.forall_mem_append.mpr
          ⟨sound.heights, ticked.burnHeights sound.listable honest⟩ }
  | called called paying _ =>
      exact { sound with
        tracks := called.tracks paying (fun _ _ _ mem => absurd mem List.not_mem_nil) sound.tracks }

theorem world_stored (format : BlockFormat) :
    world { deployment with blocks := deployment.blocks ++ [format] } =
      { deployment.world with listing := deployment.world.listing ++ format.positioned } :=
  congrArg (fun listing => { deployment.world with listing })
    (chainTxns_snoc deployment.blocks format)

theorem world_ticked {next : BurnSubstitutor} {transcript : Transcript}
    (address : next.substitutorAddress = deployment.substitutor.substitutorAddress) :
    world { deployment with
      substitutor := next
      commits := deployment.commits ++ commitsOf transcript
      burns := deployment.burns ++ burnsOf transcript } =
      { deployment.world with
        substitutor := next
        commits := deployment.world.commits ++ commitsOf transcript
        burns := deployment.world.burns ++ burnsOf transcript } := by
  rw [world, address]
  rfl

theorem world_called {next : RollupV1 W} {made : List Substitution} {paid : List (Burn × Nat)}
    (same : paidAhead deployment.substitutor.substitutorAddress made = paid) :
    world { deployment with contract := next, early := deployment.early ++ made } =
      { deployment.world with substituted := deployment.world.substituted ++ paid } := by
  subst same
  exact congrArg (fun substituted => { deployment.world with substituted })
    (paidAhead_append deployment.early made)

/-- A call that makes no substitution from the address of the substitutor is none of the world. -/
theorem world_of_called {next : RollupV1 W} {made : List Substitution}
    (none : paidAhead deployment.substitutor.substitutorAddress made = []) :
    world { deployment with contract := next, early := deployment.early ++ made } =
      deployment.world := by
  rw [world_called none, List.append_nil]

/-- A burn that the contract pays ahead for the substitutor is paid ahead in the world. -/
theorem substituted_of_called {env : Rollup.Env} {burn : Burn} {burnBlockHeight fee : Element}
    {next : RollupV1 W} (sound : deployment.Sound externals)
    (done : deployment.contract.substituteBurn externals here env burn.burnAddress burn.noteKind
      burn.hash burn.amount burnBlockHeight = .ok next)
    (own : env.sender = deployment.substitutor.substitutorAddress)
    (sends : deployment.Sends (.accepted env (.substituteBurn burn.burnAddress burn.noteKind
      burn.hash burn.amount burnBlockHeight))) :
    ∃ event, World.Step decoders deployment.world event (world { deployment with
      contract := next
      early := deployment.early ++ [⟨burn, burnBlockHeight, env.sender, fee⟩] }) := by
  rcases sends own with ⟨origin, height, sent, rfl⟩
  have fits : height < 2 ^ 256 :=
    (sound.heights _ sent).trans (Nat.pow_lt_pow_right Nat.one_lt_two (by decide))
  have first : (burn, height) ∉ deployment.world.substituted := by
    intro again
    exact first_of_substituteBurn sound.tracks done (mem_of_paidAhead again)
  have paid : paidAhead deployment.substitutor.substitutorAddress
      [⟨burn, BitVec.ofNat 256 height, env.sender, fee⟩] = [(burn, height)] := by
    rw [paidAhead_own own, BitVec.toNat_ofNat, Nat.mod_eq_of_lt fits]
  rw [world_called paid]
  exact ⟨_, .substituted sent first⟩

/-- Every step of a deployment is one of the world, or changes nothing there. -/
theorem Sound.world_step (sound : deployment.Sound externals)
    (taken : Step poseidon keccak decoders externals here deployment event target) :
    target.world = deployment.world ∨
      ∃ event, World.Step decoders deployment.world event target.world := by
  cases taken with
  | @stored format listable =>
      have sorted := sorted_chainTxns listable.ascending
      rw [chainTxns_snoc] at sorted
      rw [world_stored]
      exact .inr ⟨_, .listed sorted⟩
  | ticked plays answers =>
      have ticked := ticked_of_tick plays
      have honest := ticked.honest sound.listable answers sound.places
      rw [world_ticked ticked.address]
      exact .inr ⟨_, .ticked plays honest⟩
  | @called action next called paying sends =>
      cases called with
      | reverted _ | elsewhere => exact .inl (world_of_called rfl)
      | @accepted _ env request done =>
          cases request with
          | substituteBurn burnAddress noteKind hash amount burnBlockHeight =>
              by_cases own : env.sender = deployment.substitutor.substitutorAddress
              · exact .inr (substituted_of_called sound done own sends)
              · exact .inl (world_of_called (paidAhead_other own))
          | _ => exact .inl (world_of_called rfl)

/-- The substitutor starts with an empty chain and a contract that has paid nothing ahead. -/
def new (substitutorAddress : Address) (contract : RollupV1 W) : Deployment W :=
  { substitutor := { substitutorAddress }, contract }

theorem sound_new (substitutorAddress : Address) {contract : RollupV1 W}
    (unpaid : contract.state.storage.substitutedBurns = fun _ => 0) :
    (new substitutorAddress contract).Sound externals where
  listable := listable_nil
  places _ same := by cases same
  heights _ mem := absurd mem List.not_mem_nil
  tracks := by
    rw [new, unpaid]
    exact .empty

/-- However the blocks, the ticks and the calls of the contract interleave, the world has taken
steps of its own to where it is: the listing grew in order, the node answered with pages of it, and
each burn was paid ahead once. -/
theorem exists_run_world {substitutorAddress : Address} {contract : RollupV1 W}
    {events : List (Event W)} (unpaid : contract.state.storage.substitutedBurns = fun _ => 0)
    (run : Run (Step poseidon keccak decoders externals here) (new substitutorAddress contract)
      events deployment) :
    deployment.Sound externals ∧
      ∃ events, Run (World.Step decoders) (.new substitutorAddress) events deployment.world := by
  induction run with
  | nil => exact ⟨sound_new substitutorAddress unpaid, [], .nil⟩
  | snoc _ taken ih =>
      rcases ih with ⟨sound, events, run⟩
      refine ⟨sound.step taken, ?_⟩
      rcases sound.world_step taken with same | ⟨event, stepped⟩
      · exact ⟨events, same ▸ run⟩
      · exact ⟨_, run.snoc stepped⟩

end Deployment

end Ciphera.Substitutor
